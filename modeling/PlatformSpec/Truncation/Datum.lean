import PlatformSpec.DraftVariable.Truncator

/-!
# The data of a run

The values that the mappings of a workflow run hold, and `calculate_json_size` of
`services/variable_truncator.py` on them.
-/

namespace PlatformSpec.Truncation

open DraftVariable (SegmentType File bracketed stringSize)

/-- A value of Python: JSON values, files, updated variables by their `model_dump`, segments, and
what is none of these. A float is given by its `repr`. -/
inductive Datum where
  | none
  | bool (b : Bool)
  | int (n : Int)
  | float (repr : String)
  | str (s : String)
  | list (items : List Datum)
  | dict (entries : List (String × Datum))
  | file (f : File)
  | updated (dump : List (String × Datum))
  | segment (valueType : SegmentType) (value : Datum)
  | other (typeName : String)

mutual

/-- A value among the data of a run. -/
def Datum.ofValue : DraftVariable.Value → Datum
  | .none => .none
  | .bool b => .bool b
  | .int n => .int n
  | .float repr => .float repr
  | .str s => .str s
  | .list items => .list (ofValues items)
  | .dict entries => .dict (ofEntries entries)
  | .file f => .file f

def Datum.ofValues : List DraftVariable.Value → List Datum
  | [] => []
  | item :: items => Datum.ofValue item :: ofValues items

def Datum.ofEntries : List (String × DraftVariable.Value) → List (String × Datum)
  | [] => []
  | (key, value) :: entries => (key, Datum.ofValue value) :: ofEntries entries

end

/-- `_MAX_DEPTH`. -/
def maxDepth : Nat := 100

/-- `calculate_json_size` of a value without parts, a file by its dump. -/
def Datum.leafSize : Datum → Option Int
  | .none => some 4
  | .bool b => some (if b then 4 else 5)
  | .int n => some (toString n).length
  | .float repr => some repr.length
  | .str s => some (stringSize s)
  | .file f => some f.jsonSize
  | _ => Option.none

/-- The levels of a value without parts: the dump of a file is a dictionary of such. -/
def Datum.leafDepth : Datum → Nat
  | .file _ => 2
  | _ => 0

mutual

/-- `calculate_json_size`; `none` for `MaxDepthExceededError` and `UnknownTypeError`. -/
def calculateJsonSize : Nat → Datum → Option Int
  | _, .segment _ value => calculateJsonSize 0 value
  | depth, .updated dump =>
    if maxDepth < depth + 1 then none else (entrySizes (depth + 2) dump).map bracketed
  | depth, .list items =>
    if maxDepth < depth then none else (itemSizes (depth + 1) items).map bracketed
  | depth, .dict entries =>
    if maxDepth < depth then none else (entrySizes (depth + 1) entries).map bracketed
  | depth, value => if maxDepth < depth + value.leafDepth then none else value.leafSize

/-- The sizes of the elements of a list. -/
def itemSizes : Nat → List Datum → Option (List Int)
  | _, [] => some []
  | depth, item :: items => do
    let size ← calculateJsonSize depth item
    let sizes ← itemSizes depth items
    return size :: sizes

/-- The sizes of the entries of a dictionary. -/
def entrySizes : Nat → List (String × Datum) → Option (List Int)
  | _, [] => some []
  | depth, (key, value) :: entries =>
    if maxDepth < depth then none
    else do
      let size ← calculateJsonSize depth value
      let sizes ← entrySizes depth entries
      return (stringSize key + 1 + size) :: sizes

end

/-- The order of entries by their keys. -/
def keyLe {α β : Type} (a : String × α) (b : String × β) : Prop := a.1 ≤ b.1

instance {α : Type} : DecidableRel (keyLe (α := α) (β := α)) := fun a b =>
  inferInstanceAs (Decidable (a.1 ≤ b.1))

/-- `sorted` of the entries of a dictionary by their keys. -/
def sorted {α : Type} (entries : List (String × α)) : List (String × α) :=
  entries.insertionSort keyLe

mutual

/-- The value with its dictionaries in the order of their keys: two values are equal if these
are the same. -/
def Datum.norm : Datum → Datum
  | .list items => .list (normItems items)
  | .dict entries => .dict (sorted (normEntries entries))
  | .updated dump => .updated (sorted (normEntries dump))
  | .segment valueType value => .segment valueType value.norm
  | value => value

def normItems : List Datum → List Datum
  | [] => []
  | item :: items => item.norm :: normItems items

def normEntries : List (String × Datum) → List (String × Datum)
  | [] => []
  | (key, value) :: entries => (key, value.norm) :: normEntries entries

end

/-- Two values are equal, whatever the order of their keys. -/
def Same (v w : Datum) : Prop := v.norm = w.norm

/-- Two mappings are equal. -/
def SameMapping (m m' : List (String × Datum)) : Prop := Same (.dict m) (.dict m')

section Sorted

variable {α β : Type}

instance : Std.Total (keyLe (α := α) (β := α)) := ⟨fun a b => le_total a.1 b.1⟩

instance : IsTrans (String × α) keyLe := ⟨fun _ _ _ h h' => le_trans (α := String) h h'⟩

theorem sorted_map (f : String × α → String × β) (hf : ∀ e, (f e).1 = e.1)
    (entries : List (String × α)) : sorted (entries.map f) = (sorted entries).map f := by
  refine (List.map_insertionSort keyLe keyLe f entries fun a _ b _ => ?_).symm
  rw [keyLe, keyLe, hf, hf]

variable {entries l l' : List (String × α)}

theorem mem_sorted {e : String × α} :
    e ∈ sorted entries ↔ e ∈ entries := List.mem_insertionSort keyLe

theorem sorted_eq_self {entries' : List (String × β)}
    (h : entries'.map Prod.fst <+: (sorted entries).map Prod.fst) : sorted entries' = entries' := by
  refine List.Pairwise.insertionSort_eq ?_
  have hsorted : (sorted entries).Pairwise keyLe := List.pairwise_insertionSort keyLe entries
  have hkeys : ((sorted entries).map Prod.fst).Pairwise (· ≤ ·) := List.pairwise_map.mpr hsorted
  have hkeys' : (entries'.map Prod.fst).Pairwise (· ≤ ·) := hkeys.sublist h.sublist
  have hentries : entries'.Pairwise fun a b => a.1 ≤ b.1 := List.pairwise_map.mp hkeys'
  exact hentries

private theorem exists_both (h : l'.map Prod.fst = l.map Prod.fst) :
    ∃ both : List (String × α × α),
      both.map (fun e => (e.1, e.2.1)) = l' ∧ both.map (fun e => (e.1, e.2.2)) = l := by
  induction l generalizing l' with
  | nil => exact ⟨[], (List.map_eq_nil_iff.mp h).symm, rfl⟩
  | cons e l ih =>
    cases l' with
    | nil => cases h
    | cons e' l' =>
      obtain ⟨hkey, hrest⟩ := List.cons_eq_cons.mp h
      obtain ⟨both, rfl, rfl⟩ := ih hrest
      refine ⟨(e.1, e'.2, e.2) :: both, ?_, rfl⟩
      rw [List.map_cons, ← hkey]

theorem eq_of_sorted_eq (hkeys : l'.map Prod.fst = l.map Prod.fst)
    (h : sorted l' = sorted l) : l' = l := by
  obtain ⟨both, rfl, rfl⟩ := exists_both hkeys
  rw [sorted_map (fun e : String × α × α => (e.1, e.2.1)) fun _ => rfl,
    sorted_map (fun e : String × α × α => (e.1, e.2.2)) fun _ => rfl] at h
  have hboth := List.map_inj_left.mp h
  exact List.map_inj_left.mpr fun e he => hboth e (mem_sorted.mpr he)

theorem normEntries_eq (entries : List (String × Datum)) :
    normEntries entries = entries.map fun e => (e.1, e.2.norm) := by
  induction entries with
  | nil => rfl
  | cons e entries ih => rw [normEntries, ih, List.map_cons]

theorem sorted_normEntries (entries : List (String × Datum)) :
    sorted (normEntries entries) = normEntries (sorted entries) := by
  rw [normEntries_eq, normEntries_eq]
  exact sorted_map (fun e : String × Datum => (e.1, e.2.norm)) (fun _ => rfl) entries

end Sorted

theorem Datum.parts_induction {p : Datum → Prop}
    (leaf : ∀ v, (∀ items, v ≠ .list items) → (∀ entries, v ≠ .dict entries) →
      (∀ dump, v ≠ .updated dump) → (∀ ty w, v ≠ .segment ty w) → p v)
    (list : ∀ items, (∀ v ∈ items, p v) → p (.list items))
    (dict : ∀ entries, (∀ e ∈ entries, p e.2) → p (.dict entries))
    (updated : ∀ dump, (∀ e ∈ dump, p e.2) → p (.updated dump))
    (segment : ∀ ty v, p v → p (.segment ty v)) (v : Datum) : p v :=
  Datum.rec (motive_1 := p) (motive_2 := fun items => ∀ v ∈ items, p v)
    (motive_3 := fun entries => ∀ e ∈ entries, p e.2) (motive_4 := fun e => p e.2)
    (leaf _ nofun nofun nofun nofun) (fun _ => leaf _ nofun nofun nofun nofun)
    (fun _ => leaf _ nofun nofun nofun nofun) (fun _ => leaf _ nofun nofun nofun nofun)
    (fun _ => leaf _ nofun nofun nofun nofun) list dict (fun _ => leaf _ nofun nofun nofun nofun)
    updated segment (fun _ => leaf _ nofun nofun nofun nofun)
    (List.forall_mem_nil _) (fun _ _ h ih => List.forall_mem_cons.mpr ⟨h, ih⟩)
    (List.forall_mem_nil _) (fun _ _ h ih => List.forall_mem_cons.mpr ⟨h, ih⟩) (fun _ _ h => h) v

end PlatformSpec.Truncation
