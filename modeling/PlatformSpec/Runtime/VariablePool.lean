import Std.Data.ExtTreeMap

/-!
# Variable pool

Models `dify_graph/runtime/variable_pool.py` and the part of
`dify_graph/variables/segments.py` the engine reads: the Markdown rendering of a value
and the attributes that selectors of more than two elements address.
-/

namespace PlatformSpec.Runtime

/-- Path to a value: node id, variable name, then attribute names. -/
abbrev Selector := List String

/-- A stored value, kept as what the engine observes of it. Segment classes without
addressable attributes differ only in their rendering. -/
inductive Segment where
  | plain (markdown : String)
  | object (markdown : String) (value : List (String × Segment))
  | file (markdown : String) (attributes : List (String × Segment))

namespace Segment

/-- `Segment.markdown`. -/
def markdown : Segment → String
  | plain m => m
  | object m _ => m
  | file m _ => m

/-- `variable_factory.build_segment` on a Python string; `StringSegment.markdown`. -/
def ofString (s : String) : Segment := plain s

@[simp] theorem markdown_ofString (s : String) : (ofString s).markdown = s := rfl

/-- `FileAttribute`: the attribute names a file answers to. -/
def fileAttributes : List String :=
  ["type", "size", "name", "mime_type", "transfer_method", "url", "extension", "related_id"]

/-- Walk nested attributes; `variable_pool.py:186–193`. Only objects have fields. -/
def nestedAttribute : Segment → List String → Option Segment
  | s, [] => some s
  | object _ value, a :: as => (value.lookup a).bind fun s => nestedAttribute s as
  | plain _, _ :: _ => none
  | file _ _, _ :: _ => none

end Segment

/-- `VariablePool.variable_dictionary`: node id, then variable name. -/
structure VariablePool where
  variableDictionary : Std.ExtTreeMap String (Std.ExtTreeMap String Segment)

namespace VariablePool

/-- A pool without variables. -/
def empty : VariablePool := ⟨∅⟩

/-- `VariablePool.add` for a two-element selector. -/
def add (p : VariablePool) (nodeId name : String) (value : Segment) : VariablePool :=
  ⟨p.variableDictionary.insert nodeId
    ((p.variableDictionary.getD nodeId ∅).insert name value)⟩

/-- `VariablePool.remove` for a two-element selector. -/
def remove (p : VariablePool) (nodeId name : String) : VariablePool :=
  ⟨p.variableDictionary.insert nodeId ((p.variableDictionary.getD nodeId ∅).erase name)⟩

/-- The full segment stored under a node id and a name. -/
def lookup (p : VariablePool) (nodeId name : String) : Option Segment :=
  (p.variableDictionary[nodeId]?).bind fun m => m[name]?

/-- `VariablePool.get`; selectors shorter than two elements find nothing, a file answers
its first extra element only, everything else is walked field by field. -/
def get (p : VariablePool) : Selector → Option Segment
  | nodeId :: name :: attrs =>
    (p.lookup nodeId name).bind fun segment =>
      match segment, attrs with
      | .file _ attributes, attr :: _ =>
        if attr ∈ Segment.fileAttributes then attributes.lookup attr else none
      | segment, attrs => segment.nestedAttribute attrs
  | _ => none

/-- `_store_node_outputs` and every other loop that adds `(node_id, name)` entries. -/
def addAll (p : VariablePool) (nodeId : String) (outputs : List (String × Segment)) :
    VariablePool :=
  outputs.foldl (fun p o => p.add nodeId o.1 o.2) p

theorem get_empty (sel : Selector) : empty.get sel = none := by
  match sel with
  | [] => rfl
  | [_] => rfl
  | n :: x :: attrs => simp [get, lookup, empty]

theorem lookup_add (p : VariablePool) (nodeId name n x : String) (value : Segment) :
    (p.add nodeId name value).lookup n x =
      if nodeId = n ∧ name = x then some value else p.lookup n x := by
  simp only [lookup, add, Std.ExtTreeMap.getElem?_insert, Std.LawfulEqOrd.compare_eq_iff_eq]
  by_cases hn : nodeId = n
  · subst hn
    by_cases hx : name = x
    · simp [hx]
    · simp only [↓reduceIte, Option.bind_some, Std.ExtTreeMap.getElem?_insert,
        Std.LawfulEqOrd.compare_eq_iff_eq, hx, and_false]
      rw [Std.ExtTreeMap.getD_eq_getD_getElem?]
      cases p.variableDictionary[nodeId]? with
      | none => simp
      | some m => simp
  · simp [hn]

theorem lookup_eq_getD (p : VariablePool) (n x : String) :
    p.lookup n x = (p.variableDictionary.getD n ∅)[x]? := by
  unfold lookup
  rw [Std.ExtTreeMap.getD_eq_getD_getElem?]
  cases p.variableDictionary[n]? with
  | none => simp
  | some m => rfl

theorem lookup_remove (p : VariablePool) (nodeId name n x : String) :
    (p.remove nodeId name).lookup n x =
      if nodeId = n ∧ name = x then none else p.lookup n x := by
  simp only [lookup_eq_getD, remove, Std.ExtTreeMap.getD_insert,
    Std.LawfulEqOrd.compare_eq_iff_eq]
  by_cases hn : nodeId = n
  · subst hn
    simp [Std.ExtTreeMap.getElem?_erase]
  · simp [hn]

theorem lookup_addAll_self (p : VariablePool) (n x : String)
    (outputs : List (String × Segment)) :
    (p.addAll n outputs).lookup n x =
      ((outputs.reverse.find? fun o => o.1 = x).map Prod.snd).or (p.lookup n x) := by
  unfold addAll
  induction outputs generalizing p with
  | nil => rfl
  | cons o os ih =>
    rw [List.foldl_cons, ih, lookup_add, List.reverse_cons, List.find?_append]
    cases os.reverse.find? fun o => o.1 = x with
    | some found => rfl
    | none =>
      by_cases hx : o.1 = x
      · simp [hx]
      · simp [hx]

/-- Storing a whole map makes its values the ones found; other names keep theirs. -/
theorem lookup_addAll_toList (p : VariablePool) (n x : String)
    (outputs : Std.ExtTreeMap String Segment) :
    (p.addAll n outputs.toList).lookup n x = (outputs[x]?).or (p.lookup n x) := by
  rw [lookup_addAll_self]
  congr 1
  cases hfound : outputs.toList.reverse.find? fun o => o.1 = x with
  | none =>
    cases hx : outputs[x]? with
    | none => rfl
    | some value =>
      have hmem := Std.ExtTreeMap.mem_toList_iff_getElem?_eq_some.mpr hx
      exact absurd rfl (of_decide_eq_false (Bool.eq_false_iff.mpr
        (List.find?_eq_none.mp hfound _ (List.mem_reverse.mpr hmem))))
  | some found =>
    have hmem := List.mem_reverse.mp (List.mem_of_find?_eq_some hfound)
    have hname : found.1 = x := by simpa using List.find?_some hfound
    rw [← hname, Std.ExtTreeMap.mem_toList_iff_getElem?_eq_some.mp hmem]
    rfl

end VariablePool
end PlatformSpec.Runtime
