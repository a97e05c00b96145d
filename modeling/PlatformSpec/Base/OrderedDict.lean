import Mathlib.Data.List.Nodup
import PlatformSpec.Base.Assoc
import PlatformSpec.Base.Collect

/-!
# Dictionaries with distinct keys

A dictionary that carries the proof that no key is listed twice, so that an entry is in the listing
exactly if it is what its key is looked up to. Conversions that may fail go over all values.
-/

namespace PlatformSpec.Base

universe u v w

/-- A dictionary in the order in which its keys came. -/
structure OrderedDict (κ : Type u) (α : Type v) where
  entries : List (κ × α)
  nodup : (entries.map Prod.fst).Nodup

namespace OrderedDict

variable {κ : Type u} {α : Type v} {β : Type w}

instance : Inhabited (OrderedDict κ α) := ⟨⟨[], List.nodup_nil⟩⟩

/-- A value converted under its key. -/
private def convert (f : α → Option β) (p : κ × α) : Option (κ × β) := (f p.2).map (Prod.mk p.1)

variable {f : α → Option β}

private theorem convert_eq_some {p : κ × α} {q : κ × β} :
    convert f p = some q ↔ f p.2 = some q.2 ∧ q.1 = p.1 := by
  obtain ⟨k, b⟩ := q
  simp [convert, Option.map_eq_some_iff, eq_comm]

variable {l : List (κ × α)}

private theorem keys_mapM {l' : List (κ × β)}
    (h : l.mapM (convert f) = some l') : l'.map Prod.fst = l.map Prod.fst := by
  have hall := Collect.mapM_eq_some_iff.mp h
  clear h
  induction hall with
  | nil => rfl
  | cons hpq _ ih => rw [List.map_cons, List.map_cons, ih, (convert_eq_some.mp hpq).2]

/-- Every value converted; one failure fails the whole. -/
def traverse (f : α → Option β) (d : OrderedDict κ α) : Option (OrderedDict κ β) :=
  match h : d.entries.mapM (convert f) with
  | some l => some ⟨l, (keys_mapM h).symm ▸ d.nodup⟩
  | none => none

variable {d : OrderedDict κ α} {d' : OrderedDict κ β}

private theorem traverse_eq_some
    (h : d.traverse f = some d') : d.entries.mapM (convert f) = some d'.entries := by
  unfold traverse at h
  split at h
  next l hl =>
    cases h
    exact hl
  next => cases h

/-- A conversion succeeds if it does for each entry. -/
theorem exists_traverse
    (h : ∀ p ∈ d.entries, ∃ b, f p.2 = some b) : ∃ d', d.traverse f = some d' := by
  obtain ⟨l, hl⟩ := (Collect.exists_mapM_iff (f := convert f)).mpr fun p hp =>
    let ⟨b, hb⟩ := h p hp
    ⟨(p.1, b), convert_eq_some.mpr ⟨hb, rfl⟩⟩
  unfold traverse
  split
  next => exact ⟨_, rfl⟩
  next hnone =>
    rw [hl] at hnone
    cases hnone

variable [DecidableEq κ]

/-- `d.get(k)`. -/
def get (d : OrderedDict κ α) (k : κ) : Option α := d.entries.lookup k

/-- An entry is what its key is looked up to. -/
theorem mem_iff {k : κ} {a : α} : (k, a) ∈ d.entries ↔ d.get k = some a := by
  obtain ⟨l, hnodup⟩ := d
  simp only [get]
  induction l with
  | nil => simp
  | cons p l ih =>
    obtain ⟨k', a'⟩ := p
    rw [List.map_cons, List.nodup_cons] at hnodup
    rw [List.mem_cons, ih hnodup.2, List.lookup_cons]
    by_cases hk : k = k'
    · subst hk
      have hnot : ¬ l.lookup k = some a := by
        intro hl
        have hmem := List.mem_map_of_mem (f := Prod.fst) ((ih hnodup.2).mpr hl)
        exact hnodup.1 hmem
      simp [hnot, eq_comm]
    · simp [hk, beq_false_of_ne hk]

/-- `d[k] = a`. -/
def set (d : OrderedDict κ α) (k : κ) (a : α) : OrderedDict κ α where
  entries := Assoc.assign d.entries k a
  nodup := by
    rw [Assoc.keys_assign]
    split
    next => exact d.nodup
    next hmem =>
      refine List.nodup_append.mpr ⟨d.nodup, List.nodup_singleton k, ?_⟩
      intro k' hk' k'' hk'' heq
      rw [List.mem_singleton.mp hk''] at heq
      exact hmem (heq ▸ hk')

/-- `d.pop(k, None)`. -/
def pop (d : OrderedDict κ α) (k : κ) : OrderedDict κ α where
  entries := d.entries.filter fun p => p.1 ≠ k
  nodup := d.nodup.sublist (List.filter_sublist.map Prod.fst)

@[simp] theorem get_set (d : OrderedDict κ α) (k k' : κ) (a : α) :
    (d.set k a).get k' = if k' = k then some a else d.get k' := Assoc.lookup_assign d.entries k k' a

@[simp] theorem get_pop (d : OrderedDict κ α) (k k' : κ) :
    (d.pop k).get k' = if k' = k then none else d.get k' := by
  ext a
  rw [← mem_iff, pop, List.mem_filter, decide_eq_true_iff, mem_iff]
  split
  next hk => simp [hk]
  next hk => simp [hk]

/-- `dict(pairs)`. -/
def ofPairs (l : List (κ × α)) : OrderedDict κ α := l.foldl (fun d p => d.set p.1 p.2) default

private theorem entries_foldl_set (l : List (κ × α)) (d : OrderedDict κ α) :
    (l.foldl (fun d p => d.set p.1 p.2) d).entries =
      l.foldl (fun d p => Assoc.assign d p.1 p.2) d.entries := by
  induction l generalizing d with
  | nil => rfl
  | cons p l ih => exact ih (d.set p.1 p.2)

/-- A dictionary is rebuilt from its entries. -/
@[simp] theorem ofPairs_entries (d : OrderedDict κ α) : ofPairs d.entries = d := by
  have h : (ofPairs d.entries).entries = d.entries :=
    (entries_foldl_set d.entries default).trans (Assoc.ofPairs_of_nodup d.nodup)
  cases hd : ofPairs d.entries with
  | mk entries nodup =>
    rw [hd] at h
    cases d
    cases h
    rfl

theorem nodup_assign (h : (l.map Prod.fst).Nodup) (k : κ) (a : α) :
    ((Assoc.assign l k a).map Prod.fst).Nodup :=
  (OrderedDict.set ⟨l, h⟩ k a).nodup

/-- The values are converted key by key. -/
theorem get_traverse (h : d.traverse f = some d') (k : κ) : d'.get k = (d.get k).bind f := by
  have hall := Collect.mapM_eq_some_iff.mp (traverse_eq_some h)
  unfold get
  generalize d.entries = l at hall
  generalize d'.entries = l' at hall
  induction hall with
  | nil => rfl
  | @cons p q _ _ hpq _ ih =>
    obtain ⟨hvalue, hkey⟩ := convert_eq_some.mp hpq
    rw [List.lookup_cons, List.lookup_cons, hkey]
    cases k == p.1 with
    | true => exact hvalue.symm
    | false => exact ih

/-- A conversion that succeeds converts the value of every key. -/
theorem exists_of_traverse
    (h : d.traverse f = some d') {k : κ} {a : α} (ha : d.get k = some a) : ∃ b, f a = some b := by
  obtain ⟨q, hq⟩ := Collect.exists_mapM_iff.mp ⟨_, traverse_eq_some h⟩ (k, a) (mem_iff.mpr ha)
  exact ⟨q.2, (convert_eq_some.mp hq).1⟩

end OrderedDict
end PlatformSpec.Base
