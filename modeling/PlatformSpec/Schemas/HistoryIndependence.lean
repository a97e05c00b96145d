import PlatformSpec.Schemas.Loop

/-!
# Resolving does not depend on what was resolved before

When the calls of a process get what a fresh process would give and leave the registered and the
cached schemas as they are.
-/

namespace PlatformSpec.Schemas

open Base Base.Heap

/-- The schema of a URI in the registry of a call, without metadata. -/
def Call.cleaned (registries : List (Registry Schema)) (call : Call) (uri : String) :
    Option Entries :=
  (nonempty ((registries[call.registry]?).bind fun registry => registry.getSchema uri)).map
    removeMetadataFields

/-- The schema that a reference of a call is to be resolved by. -/
def Call.lookup (registries : List (Registry Schema)) (call : Call) (uri : String) :
    Option Entries :=
  nonempty (call.cleaned registries uri)

/-- What a call meets. -/
abbrev Call.Meets (registries : List (Registry Schema)) (call : Call) (place : Place)
    (depth : Nat) (path : List String) (c : Container Schema) : Prop :=
  Schemas.Meets (call.lookup registries) call.maxDepth call.schema place depth path c

/-- A call asks for a schema. -/
def Call.Refers (registries : List (Registry Schema)) (call : Call) (uri : String) : Prop :=
  ∃ place depth path entries, call.Meets registries place depth path (.dict entries) ∧
    schemaRef (.dict entries) = some uri ∧ uri ∉ path

/-- The outcome of a call: an error, or a schema. -/
def Process.Gives (p : Process) (call : Call) : Option Schema → Prop
  | none => (p.call call).1 = none
  | some t => ∃ v, (p.call call).1 = some v ∧ Holds (p.call call).2.nodes (fun _ => True) v t

/-- The registries of a process hold the schemas with which it started. -/
def Process.HoldsRegistries (p : Process) (registries : List (Registry Schema)) : Prop :=
  List.Forall₂ (List.Forall₂ fun e f => e.1 = f.1 ∧ EntriesHold p.nodes p.next e.2 f.2)
    p.registries registries

/-- A process after some calls. -/
def processAfter (registries : List (Registry Schema)) (calls : List Call) : Process :=
  (Process.fresh registries).run calls

/-- A call after others: its outcome is that in a fresh process, it leaves the content of the
registries and the cache, and what it gives contains no reference to a known schema but those
marked as circular. -/
structure HistoryIndependent (registries : List (Registry Schema)) (before : List Call)
    (call : Call) : Prop where
  same : ∃ outcome, (Process.fresh registries).Gives call outcome ∧
    (processAfter registries before).Gives call outcome
  registries_kept : ((processAfter registries before).call call).2.HoldsRegistries registries
  cache_kept : ∀ uri entries content, (processAfter registries before).cache uri = some entries →
    EntriesHold (processAfter registries before).nodes (processAfter registries before).next
      entries content →
    ∃ entries', ((processAfter registries before).call call).2.cache uri = some entries' ∧
      EntriesHold ((processAfter registries before).call call).2.nodes
        ((processAfter registries before).call call).2.next entries' content
  resolved : ∀ t, (processAfter registries before).Gives call (some t) →
    Resolved (call.lookup registries) t

/-- Every call of a process is independent of those before it. -/
def RunIndependent (registries : List (Registry Schema)) (calls : List Call) : Prop :=
  ∀ before call after, calls = before ++ call :: after → HistoryIndependent registries before call

/-- A call after others that meets no reference to a known schema within a registered schema,
whose references earlier calls found the same schemas for, and that meets no reference to be
resolved beside one that is left, unless it is too deep. -/
structure Harmless (registries : List (Registry Schema)) (before : List Call) (call : Call) :
    Prop where
  untouched : Untouched (call.lookup registries) call.maxDepth call.schema
  agree : ∀ earlier ∈ before, ∀ uri content, earlier.Refers registries uri →
    call.Refers registries uri → earlier.cleaned registries uri = some content →
      call.lookup registries uri = nonempty (some content)
  beside : Fits (call.lookup registries) call.maxDepth call.schema →
    NothingBeside (call.lookup registries) call.maxDepth call.schema

/-- Every call of a process is harmless. -/
def RunHarmless (registries : List (Registry Schema)) (calls : List Call) : Prop :=
  ∀ before call after, calls = before ++ call :: after → Harmless registries before call

section Registries

variable {registries : List (Registry Schema)} {calls before : List Call} {call : Call}
  {p : Process}

/-- The schemas that calls have cached. -/
def CachedBy (registries : List (Registry Schema)) (calls : List Call) (uri : String)
    (content : Entries) : Prop :=
  ∃ call ∈ calls, call.Refers registries uri ∧ call.cleaned registries uri = some content

/-- What holds of a process between calls: nothing dangles, the registries hold the schemas they
were loaded with, and what is cached is a schema that a call has asked for. -/
structure Process.Sound (registries : List (Registry Schema)) (calls : List Call) (p : Process) :
    Prop where
  free : ∀ a, p.next ≤ a → p.nodes a = none
  bound : ∀ a i y, child p.nodes a i = some (.addr y) → y < p.next
  holds : p.HoldsRegistries registries
  cache : ∀ uri entries, p.cache uri = some entries → ∃ content,
    CachedBy registries calls uri content ∧ EntriesHold p.nodes p.next entries content

/-- What a store is while schemas are loaded. -/
structure Loaded (s s' : Store Leaf) : Prop where
  next_le : s.next ≤ s'.next
  kept : ∀ a < s.next, s'.nodes a = s.nodes a
  free : ∀ a, s'.next ≤ a → s'.nodes a = none
  bound : ∀ a i y, child s'.nodes a i = some (.addr y) → y < s'.next

variable {s s₀ : Store Leaf}

theorem Loaded.trans {s₁ s₂ : Store Leaf} (h : Loaded s s₁) (h' : Loaded s₁ s₂) :
    Loaded s s₂ where
  next_le := Nat.le_trans h.next_le h'.next_le
  kept a ha := (h'.kept a (Nat.lt_of_lt_of_le ha h.next_le)).trans (h.kept a ha)
  free := h'.free
  bound := h'.bound

theorem Loaded.of_built {s' : Store Leaf} {refs : List Value} {trees : List Schema}
    (h : Loaded s₀ s) (hbuilt : Built s refs trees s') : Loaded s s' where
  next_le := hbuilt.next_le
  kept a ha := hbuilt.kept a fun hb => absurd ha (Nat.not_lt.mpr hb.1)
  free a ha := by
    rw [hbuilt.kept a fun hb => absurd hb.2 (Nat.not_lt.mpr ha)]
    exact h.free a (Nat.le_trans hbuilt.next_le ha)
  bound a i y hchild := by
    by_cases ha : Between s s' a
    · exact (hbuilt.inside a i y ha hchild).2
    · rw [child, hbuilt.kept a ha] at hchild
      exact Nat.lt_of_lt_of_le (h.bound a i y hchild) hbuilt.next_le

theorem loadRegistry_spec (h : Loaded s₀ s) (registry : Registry Schema) :
    Loaded s (loadRegistry registry s).2 ∧
      List.Forall₂ (fun e f => e.1 = f.1 ∧ EntriesHold (loadRegistry registry s).2.nodes
        (loadRegistry registry s).2.next e.2 f.2) (loadRegistry registry s).1 registry := by
  induction registry generalizing s₀ s with
  | nil => exact ⟨⟨Nat.le_refl _, fun _ _ => rfl, h.free, h.bound⟩, .nil⟩
  | cons schema registry ih =>
    obtain ⟨key, entries⟩ := schema
    obtain ⟨hbuilt, hkeys⟩ := built_buildEntries entries s
    have hfirst := h.of_built hbuilt
    obtain ⟨hrest, hall⟩ := ih hfirst
    have hold : EntriesHold (buildEntries entries s).2.nodes (buildEntries entries s).2.next
        (buildEntries entries s).1 entries := by
      refine ⟨congrArg Sum.inr hkeys, fun i v t hv ht => ?_⟩
      have hvt := (List.forall₂_iff_get.mp hbuilt.holds).2 i
      obtain ⟨hi, rfl⟩ := List.getElem?_eq_some_iff.mp hv
      obtain ⟨hi', rfl⟩ := List.getElem?_eq_some_iff.mp ht
      exact (hvt hi hi').imp fun a _ ha hc => ⟨ha.2, hc⟩
    exact ⟨hfirst.trans hrest, .cons ⟨rfl, hold.imp hrest.next_le hrest.kept⟩ hall⟩

theorem loadRegistries_spec (h : Loaded s₀ s) (registries : List (Registry Schema)) :
    Loaded s (loadRegistries registries s).2 ∧ List.Forall₂ (List.Forall₂ fun e f => e.1 = f.1 ∧
        EntriesHold (loadRegistries registries s).2.nodes (loadRegistries registries s).2.next
          e.2 f.2) (loadRegistries registries s).1 registries := by
  induction registries generalizing s₀ s with
  | nil => exact ⟨⟨Nat.le_refl _, fun _ _ => rfl, h.free, h.bound⟩, .nil⟩
  | cons registry registries ih =>
    obtain ⟨hfirst, hhold⟩ := loadRegistry_spec h registry
    obtain ⟨hrest, hall⟩ := ih hfirst
    exact ⟨hfirst.trans hrest, .cons (hhold.imp fun e f hef =>
      ⟨hef.1, hef.2.imp hrest.next_le hrest.kept⟩) hall⟩

theorem sound_fresh (registries : List (Registry Schema)) :
    (Process.fresh registries).Sound registries [] := by
  have hempty : Loaded ⟨fun _ => none, 0⟩ ⟨fun _ => none, 0⟩ :=
    ⟨Nat.le_refl _, fun _ _ => rfl, fun _ _ => rfl, fun _ _ _ h => by cases h⟩
  obtain ⟨hloaded, hall⟩ := loadRegistries_spec hempty registries
  exact ⟨hloaded.free, hloaded.bound, hall, fun _ _ h => by cases h⟩

/-- What a call works on in a process. -/
def Call.resolution (registries : List (Registry Schema)) (before : List Call) (call : Call)
    (p : Process) : Resolution :=
  ⟨call.maxDepth, call.registry, call.schema, p, call.cleaned registries,
    CachedBy registries (before ++ [call])⟩

theorem Process.Sound.frame (hp : p.Sound registries before) (call : Call) :
    (call.resolution registries before p).Frame p where
  start_le := Nat.le_refl _
  kept _ _ := rfl
  free := hp.free
  bound := hp.bound
  registries := rfl
  cache_kept _ _ h := h
  cache uri entries h := by
    obtain ⟨content, ⟨earlier, hmem, hearlier⟩, hold⟩ := hp.cache uri entries h
    exact ⟨content, ⟨earlier, List.mem_append_left _ hmem, hearlier⟩, hold⟩

/-- A schema is looked up alike in a registry on the heap and in what it was loaded from. -/
theorem Process.Sound.getSchema (hp : p.Sound registries before) (registry : Nat) (uri : String) :
    Option.Rel (EntriesHold p.nodes p.next) (p.getSchema registry uri)
      ((registries[registry]?).bind fun registry => registry.getSchema uri) := by
  have hlookup : ∀ (key : String × String) (l : Registry Value) (l' : Registry Schema),
      List.Forall₂ (fun e f => e.1 = f.1 ∧ EntriesHold p.nodes p.next e.2 f.2) l l' →
      Option.Rel (EntriesHold p.nodes p.next) (l.lookup key) (l'.lookup key) := by
    intro key l l' hall
    induction hall with
    | nil => exact .none
    | @cons e f _ _ hef _ ih =>
      obtain ⟨k, entries⟩ := e
      obtain ⟨k', content⟩ := f
      obtain ⟨rfl, hold⟩ : k = k' ∧ EntriesHold p.nodes p.next entries content := hef
      rw [List.lookup_cons, List.lookup_cons]
      split
      next => exact .some hold
      next => exact ih
  obtain ⟨hlength, hall⟩ := List.forall₂_iff_get.mp hp.holds
  unfold Process.getSchema Registry.getSchema
  by_cases hi : registry < p.registries.length
  · have hi' := hlength ▸ hi
    rw [List.getElem?_eq_getElem hi, List.getElem?_eq_getElem hi']
    simp only [Option.bind_some]
    cases parseDifySchemaUri uri with
    | none => exact .none
    | some key => exact hlookup key _ _ (hall registry hi hi')
  · rw [List.getElem?_eq_none (Nat.not_lt.mp hi),
      List.getElem?_eq_none (hlength ▸ Nat.not_lt.mp hi)]
    exact .none

theorem Process.Sound.resolution (hp : p.Sound registries before)
    (hcall : Harmless registries before call) :
    (call.resolution registries before p).Sound where
  bound := hp.bound
  known uri content h := by
    obtain ⟨schema, hschema, rfl⟩ := Option.map_eq_some_iff.mp h
    obtain ⟨hfound, hne⟩ := Option.filter_eq_some_iff.mp hschema
    have hrel := hp.getSchema call.registry uri
    rw [hfound] at hrel
    cases hget : p.getSchema call.registry uri with
    | none =>
      rw [hget] at hrel
      cases hrel
    | some entries =>
      rw [hget] at hrel
      cases hrel with
      | some hold =>
        refine ⟨entries, hget, ?_, Container.Related.filter hold
          fun key => !(["$id", "$schema", "version"].contains key)⟩
        rintro rfl
        have hlength := Container.length_eq hold.1
        cases schema with
        | nil => cases hne
        | cons e schema => cases hlength
  unknown uri h := by
    have hnone : nonempty ((registries[call.registry]?).bind fun registry =>
        registry.getSchema uri) = none := Option.map_eq_none_iff.mp h
    have hrel := hp.getSchema call.registry uri
    cases hget : p.getSchema call.registry uri with
    | none => exact .inl hget
    | some entries =>
      rw [hget] at hrel
      generalize (registries[call.registry]?).bind (fun registry => registry.getSchema uri) = found
        at hrel hnone
      cases hrel with
      | @some _ schema hold =>
        cases schema with
        | nil =>
          have hlength := Container.length_eq hold.1
          cases entries with
          | nil => exact .inr hget
          | cons e entries => cases hlength
        | cons e schema => cases hnone
  agree uri hrefers content h := by
    obtain ⟨earlier, hmem, hearlier, hcleaned⟩ := h
    rcases List.mem_append.mp hmem with hmem | hmem
    · exact hcall.agree earlier hmem uri content hearlier hrefers hcleaned
    · cases List.mem_singleton.mp hmem
      exact congrArg nonempty hcleaned
  caches uri hrefers content h := ⟨call, by simp, hrefers, h⟩
  untouched := hcall.untouched

theorem Process.Sound.after (hp : p.Sound registries before)
    (hcall : Harmless registries before call) :
    (p.call call).2.Sound registries (before ++ [call]) := by
  obtain ⟨hframe, -, -⟩ := Resolution.resolve_spec (hp.resolution hcall) (hp.frame call)
  refine ⟨hframe.free, hframe.bound, ?_, fun uri entries h => ?_⟩
  · have hregistries : (p.call call).2.registries = p.registries := hframe.registries
    unfold Process.HoldsRegistries
    rw [hregistries]
    exact hp.holds.imp fun _ _ h => h.imp fun e f hef =>
      ⟨hef.1, hef.2.imp hframe.start_le hframe.kept⟩
  · obtain ⟨content, hcached, hold⟩ := hframe.cache uri entries h
    exact ⟨content, hcached, hold.imp hframe.start_le hframe.kept⟩

theorem sound_processAfter (h : RunHarmless registries calls) :
    (processAfter registries calls).Sound registries calls := by
  induction calls using List.reverseRecOn with
  | nil => exact sound_fresh registries
  | append_singleton calls call ih =>
    have hbefore := ih fun before' call' after' he => h before' call' (after' ++ [call]) (by
      rw [he, List.append_assoc, List.cons_append])
    have hcall := hbefore.after (h calls call [] rfl)
    rwa [processAfter, Process.run, List.foldl_append]

/-- What a harmless call gives in a sound process: the schema itself, what it is expanded to, or
an error if it cannot be. -/
theorem Process.Sound.gives (hp : p.Sound registries before)
    (hcall : Harmless registries before call) :
    (hasDifyRefs call.schema = false → p.Gives call (some call.schema)) ∧
    ∀ c, hasDifyRefs call.schema = true → call.schema = .node c →
      ((¬ ∃ t, Expands (call.lookup registries) call.maxDepth 0 [] c t) → p.Gives call none) ∧
      ∀ t, Expands (call.lookup registries) call.maxDepth 0 [] c t → p.Gives call (some t) := by
  obtain ⟨-, hno, hrefs⟩ := Resolution.resolve_spec (hp.resolution hcall) (hp.frame call)
  refine ⟨hno, fun c h hc => ?_⟩
  obtain ⟨hraises, hgives⟩ := hrefs h c hc
  exact ⟨hraises.mpr, hgives⟩

theorem Process.Gives.unique {t t' : Schema} (h : p.Gives call (some t))
    (h' : p.Gives call (some t')) : t = t' := by
  obtain ⟨v, hv, hold⟩ := h
  obtain ⟨v', hv', hold'⟩ := h'
  cases hv.symm.trans hv'
  exact hold.unique hold'

/-- A process in which every call is harmless gives what a fresh one gives, keeps what is
registered and cached, and leaves no reference to a known schema unmarked. -/
theorem history_independent (h : RunHarmless registries calls) :
    RunIndependent registries calls := by
  rintro before call after rfl
  have hcall := h before call after rfl
  have hbefore : RunHarmless registries before := fun before' call' after' he =>
    h before' call' (after' ++ call :: after) (by rw [he, List.append_assoc, List.cons_append])
  have hp := sound_processAfter hbefore
  have hfresh := sound_fresh registries
  have hcall' : Harmless registries [] call :=
    ⟨hcall.untouched, fun earlier hmem => (by cases hmem), hcall.beside⟩
  obtain ⟨hno, hrefs⟩ := hp.gives hcall
  obtain ⟨hno', hrefs'⟩ := hfresh.gives hcall'
  obtain ⟨hframe, -, -⟩ := Resolution.resolve_spec (hp.resolution hcall) (hp.frame call)
  refine ⟨?_, (hp.after hcall).holds, fun uri entries content hcache hold => ?_,
    fun t ht => ?_⟩
  · cases hhas : hasDifyRefs call.schema with
    | false => exact ⟨_, hno' hhas, hno hhas⟩
    | true =>
      obtain ⟨c, hc⟩ := exists_container hhas
      obtain ⟨hraises, hgives⟩ := hrefs c hhas hc
      obtain ⟨hraises', hgives'⟩ := hrefs' c hhas hc
      by_cases hexpands : ∃ t, Expands (call.lookup registries) call.maxDepth 0 [] c t
      · obtain ⟨t, ht⟩ := hexpands
        exact ⟨some t, hgives' t ht, hgives t ht⟩
      · exact ⟨none, hraises' hexpands, hraises hexpands⟩
  · exact ⟨entries, hframe.cache_kept uri entries hcache, hold.imp hframe.start_le hframe.kept⟩
  · cases hhas : hasDifyRefs call.schema with
    | false =>
      rw [← (hno hhas).unique ht]
      exact resolved_of_recursive _ (by rwa [← hasDifyRefs_eq])
    | true =>
      obtain ⟨c, hc⟩ := exists_container hhas
      obtain ⟨hraises, hgives⟩ := hrefs c hhas hc
      by_cases hexpands : ∃ t, Expands (call.lookup registries) call.maxDepth 0 [] c t
      · obtain ⟨t', ht'⟩ := hexpands
        have hfits := fits_of_expands fun c' hc' => by
          cases hc.symm.trans hc'
          exact ⟨t', ht'⟩
        rw [← (hgives t' ht').unique ht]
        exact ht'.resolved (hcall.beside hfits) (.root hc)
      · obtain ⟨v, hv, -⟩ := ht
        have hnone := hraises hexpands
        rw [Process.Gives, hv] at hnone
        cases hnone

end Registries

variable {registries : List (Registry Schema)}

theorem agree_of_same_registry {earlier call : Call}
    (h : earlier.registry = call.registry) {uri : String} {content : Entries}
    (hcleaned : earlier.cleaned registries uri = some content) :
    call.lookup registries uri = nonempty (some content) := by
  rw [Call.cleaned, h] at hcleaned
  exact congrArg nonempty hcleaned

theorem exists_of_lookup {call : Call} {uri : String}
    {content : Entries} (h : call.lookup registries uri = some content) :
    ∃ registry ∈ registries, ∃ schema ∈ registry, content = removeMetadataFields schema.2 := by
  obtain ⟨hcleaned, -⟩ := Option.filter_eq_some_iff.mp h
  obtain ⟨entries, hentries, rfl⟩ := Option.map_eq_some_iff.mp hcleaned
  obtain ⟨hfound, -⟩ := Option.filter_eq_some_iff.mp hentries
  obtain ⟨registry, hregistry, hget⟩ := Option.bind_eq_some_iff.mp hfound
  obtain ⟨key, -, hlookup⟩ := Option.bind_eq_some_iff.mp hget
  obtain ⟨front, back, rfl, -⟩ := List.lookup_eq_some_iff.mp hlookup
  exact ⟨_, List.mem_of_getElem? hregistry, (key, entries), by simp, rfl⟩

/-- Registries whose schemas have no references within are left untouched by every call. -/
theorem untouched_of_registries {call : Call}
    (h : ∀ registry ∈ registries, ∀ schema ∈ registry, ∀ e ∈ schema.2,
      hasDifyRefsRecursive e.2 = false) :
    Untouched (call.lookup registries) call.maxDepth call.schema := by
  refine untouched_of_flat fun uri content hlookup e he => ?_
  obtain ⟨registry, hregistry, schema, hschema, rfl⟩ := exists_of_lookup hlookup
  exact h registry hregistry schema hschema e (List.mem_filter.mp he).1

/-- A schema that is a reference to the schema of a name. -/
def reference (name : String) : Schema :=
  .node (.dict [("$ref", .leaf (.str ("https://dify.ai/schemas/v1/" ++ name ++ ".json")))])

/-- A schema without references. -/
def fileRegistry : Registry Schema :=
  [(("v1", "file"), [("$id", .leaf (.str "file")), ("type", .leaf (.str "object")),
    ("properties", .node (.dict [("name", .leaf (.str "string"))]))])]

/-- Two schemas that refer to one another from within. -/
def mutualRegistry : Registry Schema :=
  [(("v1", "question"), [("properties", .node (.dict [("answer", reference "answer")]))]),
    (("v1", "answer"), [("properties", .node (.dict [("question", reference "question")]))])]

/-- A call with the default limit on the depth. -/
def callFor (name : String) : Call := ⟨⟨0, 10⟩, reference name⟩

/-- A reference to a schema without references is resolved the second time as the first. -/
theorem file_resolved_again :
    RunIndependent [fileRegistry] [callFor "file", callFor "file"] := by
  have hflat : ∀ registry ∈ [fileRegistry], ∀ schema ∈ registry,
      hasDifyRefsRecursive (.node (.dict (removeMetadataFields schema.2))) = false := by
    intro registry hregistry schema hschema
    cases List.mem_singleton.mp hregistry
    cases List.mem_singleton.mp hschema
    decide +kernel
  have hmet : ∀ place depth path c, (callFor "file").Meets [fileRegistry] place depth path c →
      (path = [] ∧ c = .dict [("$ref", .leaf (.str "https://dify.ai/schemas/v1/file.json"))]) ∨
        hasDifyRefsRecursive (.node c) = false := by
    intro place depth path c hmeets
    induction hmeets with
    | root h =>
      cases h
      exact .inl ⟨rfl, rfl⟩
    | inside _ href hmem _ ih =>
      rcases ih with ⟨-, rfl⟩ | hno
      · exact absurd href (by decide +kernel)
      · exact .inr (hasDifyRefsRecursive_child hno hmem)
    | behind _ href _ hlookup _ ih =>
      obtain ⟨registry, hregistry, schema, hschema, rfl⟩ := exists_of_lookup hlookup
      exact .inr (hflat registry hregistry schema hschema)
  have hbeside : NothingBeside ((callFor "file").lookup [fileRegistry]) (callFor "file").maxDepth
      (callFor "file").schema := by
    intro place depth path entries uri hmeets href hleft
    rcases hmet _ _ _ _ hmeets with ⟨rfl, he⟩ | hno
    · cases he
      have huri : uri = "https://dify.ai/schemas/v1/file.json" := by
        refine Option.some.inj (href.symm.trans ?_)
        decide +kernel
      have hfound : ((callFor "file").lookup [fileRegistry] uri).isSome = true := by
        rw [huri]
        decide +kernel
      rcases hleft with hin | hnone
      · cases hin
      · rw [hnone] at hfound
        cases hfound
    · rw [schemaRef_of_recursive hno] at href
      cases href
  refine history_independent fun before call after he => ?_
  have hall : ∀ c ∈ [callFor "file", callFor "file"], c = callFor "file" := by simp
  have hcall : call = callFor "file" := hall call (by rw [he]; simp)
  subst hcall
  refine ⟨untouched_of_registries ?_, fun earlier hmem uri content _ _ hcleaned => ?_,
    fun _ => hbeside⟩
  · intro registry hregistry schema hschema e he
    cases List.mem_singleton.mp hregistry
    cases List.mem_singleton.mp hschema
    simp only [List.mem_cons, List.not_mem_nil, or_false] at he
    rcases he with rfl | rfl | rfl
    all_goals decide +kernel
  · have hearlier : earlier = callFor "file" := hall earlier (by rw [he]; simp [hmem])
    exact agree_of_same_registry (by rw [hearlier]) hcleaned

/-- Resolving the one schema writes it into the registered other one, so that resolving that one
no longer ends. -/
theorem resolve_remembers :
    ¬ RunIndependent [mutualRegistry] [callFor "question", callFor "answer"] := by
  intro h
  obtain ⟨outcome, hfresh, hlater⟩ := (h [callFor "question"] (callFor "answer") [] rfl).same
  have hgives : ((Process.fresh [mutualRegistry]).call (callFor "answer")).1.isSome = true := by
    decide +kernel
  have hraises : ((processAfter [mutualRegistry] [callFor "question"]).call
      (callFor "answer")).1.isSome = false := by
    decide +kernel
  cases outcome with
  | none =>
    rw [show ((Process.fresh [mutualRegistry]).call (callFor "answer")).1 = none from hfresh]
      at hgives
    cases hgives
  | some t =>
    obtain ⟨v, hv, -⟩ := hlater
    rw [hv] at hraises
    cases hraises

end PlatformSpec.Schemas
