import PlatformSpec.Schemas.Resolver

/-!
# What resolving is for

References of a schema are expanded by the schemas they refer to, nothing else changes. This says
what a call gives, what it meets on the way, and when it meets nothing that it would have to write
into a registered schema.
-/

namespace PlatformSpec.Schemas

open Base Base.Heap

/-- Whether a reference was marked as circular. -/
def Marked (entries : Entries) : Prop :=
  entries.lookup "$circular_ref" = some (.leaf (.bool true))

/-- `item.current["$circular_ref"] = True`. -/
def mark (entries : Entries) : Entries :=
  Assoc.assign entries "$circular_ref" (.leaf (.bool true))

theorem mark_of_marked {entries : Entries} (h : Marked entries) : mark entries = entries :=
  Assoc.assign_of_lookup h

theorem marked_mark (entries : Entries) : Marked (mark entries) := by
  rw [Marked, mark, Assoc.lookup_assign, if_pos rfl]

/-- A schema that contains no reference to a known schema but marked ones. -/
inductive Resolved (lookup : String → Option Entries) : Schema → Prop
  | leaf (leaf : Leaf) : Resolved lookup (.leaf leaf)
  | list {items : List Schema} (h : ∀ t ∈ items, Resolved lookup t) :
      Resolved lookup (.node (.list items))
  | dict {entries : Entries}
      (href : ∀ uri, schemaRef (.dict entries) = some uri → lookup uri = none ∨ Marked entries)
      (h : ∀ e ∈ entries, Resolved lookup e.2) : Resolved lookup (.node (.dict entries))

/-- What a schema is expanded to, at a depth and behind the references of a path. -/
inductive Expands (lookup : String → Option Entries) (maxDepth : Int) :
    Nat → List String → Container Schema → Schema → Prop
  | circular {depth : Nat} {path : List String} {entries : Entries} {uri : String}
      (href : schemaRef (.dict entries) = some uri) (hpath : uri ∈ path) :
      Expands lookup maxDepth depth path (.dict entries) (.node (.dict (mark entries)))
  | missing {depth : Nat} {path : List String} {entries : Entries} {uri : String}
      (href : schemaRef (.dict entries) = some uri) (hpath : uri ∉ path)
      (hlookup : lookup uri = none) :
      Expands lookup maxDepth depth path (.dict entries) (.node (.dict entries))
  | behind {depth : Nat} {path : List String} {entries content : Entries} {uri : String}
      {t : Schema} (href : schemaRef (.dict entries) = some uri) (hpath : uri ∉ path)
      (hlookup : lookup uri = some content) (hdepth : (depth + 1 : Int) < maxDepth)
      (h : Expands lookup maxDepth (depth + 1) (uri :: path) (.dict content) t) :
      Expands lookup maxDepth depth path (.dict entries) t
  | inside {depth : Nat} {path : List String} {c e : Container Schema}
      (href : schemaRef c = none) (hshape : c.shape = e.shape)
      (hleaf : ∀ (i : Nat) (l : Leaf) (t : Schema), c.children[i]? = some (.leaf l) →
        e.children[i]? = some t → t = .leaf l)
      (hdepth : ∀ c', Heap.Tree.node c' ∈ c.children → (depth + 1 : Int) < maxDepth)
      (hnode : ∀ (i : Nat) (c' : Container Schema) (t : Schema),
        c.children[i]? = some (.node c') → e.children[i]? = some t →
          Expands lookup maxDepth (depth + 1) path c' t) :
      Expands lookup maxDepth depth path c (.node e)

/-- Where a dictionary or list is: in the caller's copy, a copy of a registered schema, or within
a registered schema. -/
inductive Place where
  | own
  | copy
  | shared
  deriving DecidableEq

/-- The place of what is within. -/
def Place.within : Place → Place
  | .own => .own
  | _ => .shared

/-- What resolving a schema meets: at which place, at which depth, behind which references. -/
inductive Meets (lookup : String → Option Entries) (maxDepth : Int) (schema : Schema) :
    Place → Nat → List String → Container Schema → Prop
  | root {c : Container Schema} (h : schema = .node c) : Meets lookup maxDepth schema .own 0 [] c
  | inside {place : Place} {depth : Nat} {path : List String} {c c' : Container Schema}
      (h : Meets lookup maxDepth schema place depth path c) (href : schemaRef c = none)
      (hmem : Heap.Tree.node c' ∈ c.children) (hdepth : (depth + 1 : Int) < maxDepth) :
      Meets lookup maxDepth schema place.within (depth + 1) path c'
  | behind {place : Place} {depth : Nat} {path : List String} {entries content : Entries}
      {uri : String} (h : Meets lookup maxDepth schema place depth path (.dict entries))
      (href : schemaRef (.dict entries) = some uri) (hpath : uri ∉ path)
      (hlookup : lookup uri = some content) (hdepth : (depth + 1 : Int) < maxDepth) :
      Meets lookup maxDepth schema .copy (depth + 1) (uri :: path) (.dict content)

/-- Nothing within a registered schema that is met would be replaced, or marked anew. -/
def Untouched (lookup : String → Option Entries) (maxDepth : Int) (schema : Schema) : Prop :=
  ∀ depth path entries uri, Meets lookup maxDepth schema .shared depth path (.dict entries) →
    schemaRef (.dict entries) = some uri →
      (uri ∈ path → Marked entries) ∧
      (uri ∉ path → lookup uri = none ∨ maxDepth ≤ depth + 1)

/-- Nothing that is met is too deep. -/
def Fits (lookup : String → Option Entries) (maxDepth : Int) (schema : Schema) : Prop :=
  ∀ place depth path c, Meets lookup maxDepth schema place depth path c →
    (schemaRef c = none → ∀ c', Heap.Tree.node c' ∈ c.children → (depth + 1 : Int) < maxDepth) ∧
    ∀ uri, schemaRef c = some uri → uri ∉ path → ∀ content, lookup uri = some content →
      (depth + 1 : Int) < maxDepth

/-- Beside a reference that is left, circular or to no schema, there is none to be resolved. -/
def NothingBeside (lookup : String → Option Entries) (maxDepth : Int) (schema : Schema) : Prop :=
  ∀ place depth path entries uri,
    Meets lookup maxDepth schema place depth path (.dict entries) →
      schemaRef (.dict entries) = some uri → uri ∈ path ∨ lookup uri = none →
        ∀ e ∈ entries, Resolved lookup e.2

section Expansion

variable {lookup : String → Option Entries} {maxDepth : Int} {schema : Schema}
  {c : Container Schema}

/-- A dictionary or list whose values are resolved and that is no reference is resolved. -/
theorem Resolved.of_children (href : schemaRef c = none)
    (h : ∀ t ∈ c.children, Resolved lookup t) : Resolved lookup (.node c) := by
  cases c with
  | list items => exact .list h
  | dict entries =>
    refine .dict (fun uri huri => by rw [href] at huri; cases huri) fun e he => ?_
    exact h e.2 (List.mem_map_of_mem he)

theorem resolved_of_recursive (t : Schema) (h : hasDifyRefsRecursive t = false) :
    Resolved lookup t := by
  induction t using Heap.Tree.induction with
  | hleaf l => exact .leaf l
  | hnode c ih =>
    cases c with
    | list items => exact .list fun t ht => ih t ht (anyHasDifyRefs_eq_false.mp h t ht)
    | dict entries =>
      obtain ⟨href, hentries⟩ := Bool.or_eq_false_iff.mp h
      refine .dict (fun uri huri => ?_) fun e he => ?_
      · rw [huri] at href
        cases href
      · exact ih e.2 (List.mem_map_of_mem he) (anyValueHasDifyRefs_eq_false.mp hentries e he)

variable {path : List String} {depth : Nat} {t : Schema}

theorem Expands.leaf?_eq_none (h : Expands lookup maxDepth depth path c t) : t.leaf? = none := by
  induction h with
  | circular => rfl
  | missing => rfl
  | behind _ _ _ _ _ ih => exact ih
  | inside => rfl

theorem expands_child {e : Container Schema} (hshape : c.shape = e.shape)
    (hleaf : ∀ (i : Nat) (l : Leaf) (t : Schema), c.children[i]? = some (.leaf l) →
      e.children[i]? = some t → t = .leaf l)
    (hnode : ∀ (i : Nat) (c' : Container Schema) (t : Schema),
      c.children[i]? = some (.node c') → e.children[i]? = some t →
        Expands lookup maxDepth (depth + 1) path c' t) :
    c.Related (fun s t => (∀ l, s = .leaf l → t = .leaf l) ∧
      ∀ c', s = .node c' → Expands lookup maxDepth (depth + 1) path c' t) e :=
  ⟨hshape, fun i _ t hs ht => ⟨fun l he => hleaf i l t (he ▸ hs) ht,
    fun c' he => hnode i c' t (he ▸ hs) ht⟩⟩

theorem expands_inside_iff
    (href : schemaRef c = none) : Expands lookup maxDepth depth path c t ↔ ∃ e, t = .node e ∧
      (∀ c', Heap.Tree.node c' ∈ c.children → (depth + 1 : Int) < maxDepth) ∧
      c.Related (fun s t => (∀ l, s = .leaf l → t = .leaf l) ∧
        ∀ c', s = .node c' → Expands lookup maxDepth (depth + 1) path c' t) e := by
  constructor
  · intro h
    cases h with
    | circular href' => rw [href] at href'; cases href'
    | missing href' => rw [href] at href'; cases href'
    | behind href' => rw [href] at href'; cases href'
    | inside _ hshape hleaf hdepth hnode =>
      exact ⟨_, rfl, hdepth, expands_child hshape hleaf hnode⟩
  · rintro ⟨e, rfl, hdepth, hshape, hall⟩
    exact .inside href hshape (fun i l t hs ht => (hall i _ t hs ht).1 l rfl) hdepth
      fun i c' t hs ht => (hall i _ t hs ht).2 c' rfl

variable {entries : Entries}

theorem expands_behind_iff {content : Entries}
    {uri : String} (href : schemaRef (.dict entries) = some uri) (hpath : uri ∉ path)
    (hlookup : lookup uri = some content) :
    Expands lookup maxDepth depth path (.dict entries) t ↔ (depth + 1 : Int) < maxDepth ∧
      Expands lookup maxDepth (depth + 1) (uri :: path) (.dict content) t := by
  constructor
  · intro h
    cases h with
    | circular href' hpath' =>
      cases href.symm.trans href'
      exact absurd hpath' hpath
    | missing href' _ hlookup' =>
      cases href.symm.trans href'
      rw [hlookup] at hlookup'
      cases hlookup'
    | behind href' _ hlookup' hdepth h =>
      cases href.symm.trans href'
      cases hlookup.symm.trans hlookup'
      exact ⟨hdepth, h⟩
    | inside href' =>
      rw [href] at href'
      cases href'
  · rintro ⟨hdepth, h⟩
    exact .behind href hpath hlookup hdepth h

/-- A circular reference and one to no schema are left, the circular one marked. -/
theorem expands_left_iff {uri : String}
    (href : schemaRef (.dict entries) = some uri) (hleft : uri ∈ path ∨ lookup uri = none) :
    Expands lookup maxDepth depth path (.dict entries) t ↔
      t = .node (.dict (if uri ∈ path then mark entries else entries)) := by
  constructor
  · intro h
    cases h with
    | circular href' hpath =>
      cases href.symm.trans href'
      rw [if_pos hpath]
    | missing href' hpath _ =>
      cases href.symm.trans href'
      rw [if_neg hpath]
    | behind href' hpath hlookup =>
      cases href.symm.trans href'
      rcases hleft with hin | hnone
      · exact absurd hin hpath
      · rw [hnone] at hlookup
        cases hlookup
    | inside href' =>
      rw [href] at href'
      cases href'
  · rintro rfl
    split
    next hpath => exact .circular href hpath
    next hpath => exact .missing href hpath (hleft.resolve_left hpath)

/-- Within a registered schema that is left untouched everything is expanded to itself. -/
theorem Expands.eq_of_shared
    (h : Expands lookup maxDepth depth path c t) (hun : Untouched lookup maxDepth schema)
    (hmeets : Meets lookup maxDepth schema .shared depth path c) : t = .node c := by
  induction h with
  | circular href hpath => rw [mark_of_marked ((hun _ _ _ _ hmeets href).1 hpath)]
  | missing => rfl
  | behind href hpath hlookup hdepth =>
    rcases (hun _ _ _ _ hmeets href).2 hpath with hnone | hdeep
    · rw [hnone] at hlookup
      cases hlookup
    · exact absurd hdepth (Int.not_lt.mpr hdeep)
  | @inside depth path c e href hshape hleaf hdepth hnode ih =>
    refine congrArg Heap.Tree.node (Container.Related.eq ⟨hshape.symm, fun i t s ht hs => ?_⟩)
    cases s with
    | leaf l => exact hleaf i l t hs ht
    | node c' =>
      have hmem := List.mem_of_getElem? hs
      exact ih i c' t hs ht (.inside hmeets href hmem (hdepth c' hmem))

/-- What a schema is expanded to contains no reference to a known schema but marked ones. -/
theorem Expands.resolved {place : Place} (h : Expands lookup maxDepth depth path c t)
    (hbeside : NothingBeside lookup maxDepth schema)
    (hmeets : Meets lookup maxDepth schema place depth path c) : Resolved lookup t := by
  induction h generalizing place with
  | @circular depth path entries uri href hpath =>
    refine .dict (fun uri _ => .inr (marked_mark entries)) fun e he => ?_
    have hall := hbeside _ _ _ _ _ hmeets href (.inl hpath)
    clear hmeets href
    unfold mark at he
    induction entries with
    | nil =>
      cases List.mem_singleton.mp he
      exact .leaf _
    | cons e' entries ih =>
      obtain ⟨hfirst, hrest⟩ := List.forall_mem_cons.mp hall
      unfold Assoc.assign at he
      split at he
      next =>
        rcases List.mem_cons.mp he with rfl | he
        · exact .leaf _
        · exact hrest e he
      next =>
        rcases List.mem_cons.mp he with rfl | he
        · exact hfirst
        · exact ih he hrest
  | missing href hpath hlookup =>
    refine .dict (fun uri huri => .inl ?_) (hbeside _ _ _ _ _ hmeets href (.inr hlookup))
    rw [href] at huri
    cases huri
    exact hlookup
  | behind href hpath hlookup hdepth _ ih => exact ih (.behind hmeets href hpath hlookup hdepth)
  | @inside depth path c e href hshape hleaf hdepth hnode ih =>
    have hrelated := expands_child hshape hleaf hnode
    have hchildren : ∀ t ∈ e.children, Resolved lookup t := by
      intro t ht
      obtain ⟨i, hi⟩ := List.mem_iff_getElem?.mp ht
      obtain ⟨s, hs, hleaf', -⟩ := hrelated.right hi
      cases s with
      | leaf l =>
        rw [hleaf' l rfl]
        exact .leaf l
      | node c' =>
        have hmem := List.mem_of_getElem? hs
        exact ih i c' t hs hi (.inside hmeets href hmem (hdepth c' hmem))
    refine .of_children ?_ hchildren
    rw [← href]
    refine (difyRef_eq (hrelated.imp fun s _ t hst => ?_)).symm
    cases s with
    | leaf l => rw [hst.1 l rfl]
    | node c' => exact (hst.2 c' rfl).leaf?_eq_none.symm

theorem Meets.expands {place : Place} (h : Meets lookup maxDepth schema place depth path c)
    (hroot : ∀ c, schema = .node c → ∃ t, Expands lookup maxDepth 0 [] c t) :
    ∃ t, Expands lookup maxDepth depth path c t := by
  induction h with
  | root he => exact hroot _ he
  | inside _ href hmem _ ih =>
    obtain ⟨t, ht⟩ := ih
    obtain ⟨e, -, -, hrelated⟩ := (expands_inside_iff href).mp ht
    obtain ⟨i, hi⟩ := List.mem_iff_getElem?.mp hmem
    obtain ⟨t', -, -, hexpands⟩ := hrelated.left hi
    exact ⟨t', hexpands _ rfl⟩
  | behind _ href hpath hlookup _ ih =>
    obtain ⟨t, ht⟩ := ih
    exact ⟨t, ((expands_behind_iff href hpath hlookup).mp ht).2⟩

theorem fits_of_expands (hroot : ∀ c, schema = .node c → ∃ t, Expands lookup maxDepth 0 [] c t) :
    Fits lookup maxDepth schema := by
  intro place depth path c hmeets
  obtain ⟨t, ht⟩ := hmeets.expands hroot
  refine ⟨fun href c' hc' => ?_, fun uri href hpath content hlookup => ?_⟩
  · obtain ⟨-, -, hdepth, -⟩ := (expands_inside_iff href).mp ht
    exact hdepth c' hc'
  · obtain ⟨entries, -, rfl, -⟩ := difyRef_eq_some href
    exact ((expands_behind_iff href hpath hlookup).mp ht).1

/-- There are no references within a dictionary or list in which there are none. -/
theorem hasDifyRefsRecursive_child {c' : Container Schema}
    (h : hasDifyRefsRecursive (.node c) = false) (hmem : Heap.Tree.node c' ∈ c.children) :
    hasDifyRefsRecursive (.node c') = false := by
  cases c with
  | list items => exact anyHasDifyRefs_eq_false.mp h _ hmem
  | dict entries =>
    obtain ⟨e, he, hc'⟩ := List.mem_map.mp hmem
    rw [← hc']
    exact anyValueHasDifyRefs_eq_false.mp (Bool.or_eq_false_iff.mp h).2 e he

theorem schemaRef_of_recursive (h : hasDifyRefsRecursive (.node (.dict entries)) = false) :
    schemaRef (.dict entries) = none :=
  Option.isSome_eq_false_iff.mp (Bool.or_eq_false_iff.mp h).1 |> Option.isNone_iff_eq_none.mp

theorem untouched_of_flat (hflat : ∀ uri content, lookup uri = some content →
    ∀ e ∈ content, hasDifyRefsRecursive e.2 = false) : Untouched lookup maxDepth schema := by
  have hmet : ∀ place depth path c, Meets lookup maxDepth schema place depth path c →
      (place = .copy → ∀ c', Heap.Tree.node c' ∈ c.children →
        hasDifyRefsRecursive (.node c') = false) ∧
      (place = .shared → hasDifyRefsRecursive (.node c) = false) := by
    intro place depth path c hmeets
    induction hmeets with
    | root => exact ⟨fun h => (by cases h), fun h => by cases h⟩
    | @inside place depth path c c' _ _ hmem _ ih =>
      refine ⟨fun h => (by cases place <;> cases h), fun h => ?_⟩
      cases place with
      | own => cases h
      | copy => exact ih.1 rfl c' hmem
      | shared => exact hasDifyRefsRecursive_child (ih.2 rfl) hmem
    | behind _ _ _ hlookup _ _ =>
      refine ⟨fun _ c' hmem => ?_, fun h => by cases h⟩
      obtain ⟨e, he, hc'⟩ := List.mem_map.mp hmem
      rw [← hc']
      exact hflat _ _ hlookup e he
  intro depth path entries uri hmeets href
  have hnone := schemaRef_of_recursive ((hmet _ _ _ _ hmeets).2 rfl)
  rw [href] at hnone
  cases hnone

end Expansion

end PlatformSpec.Schemas
