import PlatformSpec.Schemas.Expansion

/-!
# What a call works on

The registry, the cache and the heap that a call of `SchemaResolver.resolve` finds, what it leaves
of them, and that `_get_resolved_schema` gives the schema of a reference.
-/

namespace PlatformSpec.Schemas

open Base Base.Heap

/-- Entries on the heap stand for the entries of a dictionary, below an address. -/
def EntriesHold (h : Nodes Leaf) (bound : Nat) (entries : List (String × Value))
    (content : Entries) : Prop :=
  (Container.dict entries).Related (Holds h (· < bound)) (.dict content)

variable {entries : List (String × Value)}

theorem EntriesHold.imp {h h' : Nodes Leaf} {bound bound' : Nat}
    {content : Entries} (hold : EntriesHold h bound entries content) (hle : bound ≤ bound')
    (hkept : ∀ a < bound, h' a = h a) : EntriesHold h' bound' entries content :=
  Container.Related.imp hold fun _ _ _ ht => ht.imp fun a _ ha hc =>
    ⟨Nat.lt_of_lt_of_le ha hle, (hkept a ha).trans hc⟩

theorem EntriesHold.lt {h : Nodes Leaf} {bound : Nat}
    {content : Entries} (hold : EntriesHold h bound entries content) {y : Nat}
    (hy : Ref.addr y ∈ entries.map Prod.snd) : y < bound := by
  obtain ⟨i, hi⟩ := List.mem_iff_getElem?.mp hy
  obtain ⟨t, -, ht⟩ := hold.left hi
  exact ht.related.1

/-- A dictionary without entries counts as no schema. -/
def nonempty (content : Option Entries) : Option Entries := content.filter fun es => !es.isEmpty

/-- What a call works on: the limit on its depth, its registry, the schema, the process before the
schema was copied, the schemas of the registry without metadata, and what may be cached. -/
structure Resolution where
  maxDepth : Int
  registry : Nat
  schema : Schema
  start : Process
  cleaned : String → Option Entries
  cached : String → Entries → Prop

namespace Resolution

variable (e : Resolution)

/-- The schemas that are found. -/
def lookup (uri : String) : Option Entries := nonempty (e.cleaned uri)

/-- What is met. -/
abbrev Meets (place : Place) (depth : Nat) (path : List String) (c : Container Schema) : Prop :=
  Schemas.Meets e.lookup e.maxDepth e.schema place depth path c

/-- What is met is expanded. -/
abbrev Expands (depth : Nat) (path : List String) (c : Container Schema) (t : Schema) : Prop :=
  Schemas.Expands e.lookup e.maxDepth depth path c t

/-- A schema is asked for. -/
def Refers (uri : String) : Prop :=
  ∃ place depth path entries, e.Meets place depth path (.dict entries) ∧
    schemaRef (.dict entries) = some uri ∧ uri ∉ path

/-- The registry holds the schemas, what is cached of them is the same, and what is met within
them is left untouched. -/
structure Sound : Prop where
  bound : ∀ a i y, child e.start.nodes a i = some (.addr y) → y < e.start.next
  known : ∀ uri content, e.cleaned uri = some content → ∃ entries,
    e.start.getSchema e.registry uri = some entries ∧ entries ≠ [] ∧
      EntriesHold e.start.nodes e.start.next (removeMetadataFields entries) content
  unknown : ∀ uri, e.cleaned uri = none →
    e.start.getSchema e.registry uri = none ∨ e.start.getSchema e.registry uri = some []
  agree : ∀ uri, e.Refers uri → ∀ content, e.cached uri content →
    e.lookup uri = nonempty (some content)
  caches : ∀ uri, e.Refers uri → ∀ content, e.cleaned uri = some content → e.cached uri content
  untouched : Untouched e.lookup e.maxDepth e.schema

/-- What a call leaves of the process it started in. -/
structure Frame (p : Process) : Prop where
  start_le : e.start.next ≤ p.next
  kept : ∀ a < e.start.next, p.nodes a = e.start.nodes a
  free : ∀ a, p.next ≤ a → p.nodes a = none
  bound : ∀ a i y, child p.nodes a i = some (.addr y) → y < p.next
  registries : p.registries = e.start.registries
  cache_kept : ∀ uri entries, e.start.cache uri = some entries → p.cache uri = some entries
  cache : ∀ uri entries, p.cache uri = some entries → ∃ content, e.cached uri content ∧
    EntriesHold e.start.nodes e.start.next entries content

variable {e}

theorem Frame.getResolvedSchema {p : Process} (hframe : e.Frame p) (hs : e.Sound) {uri : String}
    (hrefers : e.Refers uri) {result : Option (List (String × Value))} {p' : Process}
    (h : p.getResolvedSchema e.registry uri = (result, p')) :
    p'.toStore = p.toStore ∧ e.Frame p' ∧
      (e.lookup uri = none → result = none ∨ result = some []) ∧
      ∀ content, e.lookup uri = some content → ∃ entries, result = some entries ∧ entries ≠ [] ∧
        EntriesHold e.start.nodes e.start.next entries content := by
  have hempty : ∀ entries content, EntriesHold e.start.nodes e.start.next entries content →
      (entries = [] ↔ content = []) := by
    intro entries content hold
    have hlength := Container.length_eq hold.1
    rw [← List.length_eq_zero_iff, ← List.length_eq_zero_iff]
    simpa [Container.children] using iff_of_eq (congrArg (· = 0) hlength)
  have hresult : ∀ entries content, EntriesHold e.start.nodes e.start.next entries content →
      e.lookup uri = nonempty (some content) →
      (e.lookup uri = none → some entries = none ∨ some entries = some []) ∧
      ∀ content, e.lookup uri = some content → ∃ entries', some entries = some entries' ∧
        entries' ≠ [] ∧ EntriesHold e.start.nodes e.start.next entries' content := by
    intro entries content hold hlookup
    by_cases hnil : content = []
    · have hnone : e.lookup uri = none := by rw [hlookup, hnil]; rfl
      refine ⟨fun _ => .inr (congrArg some ((hempty _ _ hold).mpr hnil)), fun content' h' => ?_⟩
      rw [hnone] at h'
      cases h'
    · have hsome : e.lookup uri = some content := by
        rw [hlookup, nonempty, Option.filter_some, if_pos (by simpa using hnil)]
      refine ⟨fun h' => ?_, fun content' h' => ?_⟩
      · rw [hsome] at h'
        cases h'
      · rw [hsome] at h'
        cases h'
        exact ⟨entries, rfl, fun he => hnil ((hempty _ _ hold).mp he), hold⟩
  unfold Process.getResolvedSchema at h
  cases hcache : p.cache uri with
  | some entries =>
    rw [hcache] at h
    cases h
    obtain ⟨content, hcached, hold⟩ := hframe.cache uri entries hcache
    exact ⟨rfl, hframe, hresult entries content hold (hs.agree uri hrefers content hcached)⟩
  | none =>
    rw [hcache] at h
    have hget : p.getSchema e.registry uri = e.start.getSchema e.registry uri := by
      simp only [Process.getSchema, hframe.registries]
    rw [hget] at h
    cases hcleaned : e.cleaned uri with
    | none =>
      have hnone : e.lookup uri = none := by rw [lookup, hcleaned]; rfl
      have hsame : (none, p) = (result, p') := by
        rcases hs.unknown uri hcleaned with hg | hg
        · rwa [hg] at h
        · rwa [hg] at h
      cases hsame
      refine ⟨rfl, hframe, fun _ => .inl rfl, fun content h' => ?_⟩
      rw [hnone] at h'
      cases h'
    | some content =>
      obtain ⟨entries, hg, hne, hold⟩ := hs.known uri content hcleaned
      rw [hg] at h
      cases entries with
      | nil => exact absurd rfl hne
      | cons entry entries =>
        cases h
        refine ⟨rfl, { hframe with cache_kept := ?_, cache := ?_ },
          hresult _ content hold (by rw [lookup, hcleaned])⟩
        · intro uri' entries' hc
          have hne' : uri' ≠ uri := by
            rintro rfl
            rw [hframe.cache_kept uri' entries' hc] at hcache
            cases hcache
          exact (Function.update_of_ne hne' _ _).trans (hframe.cache_kept uri' entries' hc)
        · intro uri' entries' hc
          by_cases he : uri' = uri
          · subst he
            cases (Function.update_self _ _ _).symm.trans hc
            exact ⟨content, hs.caches uri' hrefers content hcleaned, hold⟩
          · exact hframe.cache uri' entries' ((Function.update_of_ne he _ _).symm.trans hc)

end Resolution

end PlatformSpec.Schemas
