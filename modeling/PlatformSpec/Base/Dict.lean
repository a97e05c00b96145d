import Mathlib.Data.List.Nodup
import Std.Data.ExtTreeMap
import Std.Data.ExtTreeSet

/-!
# Dictionaries and sets with a canonical listing

Extensional tree maps and sets list their entries in key order, so equal contents mean
equal listings. Rebuilding from the listing gives the container back. A set whose
iteration order is not fixed is a set together with a permutation of its listing.
-/

namespace PlatformSpec.Base

universe u v

variable {α : Type u} {β : Type v} [Ord α] [Std.TransOrd α] [Std.LawfulEqOrd α]

/-- A map is recovered from its own listing. -/
theorem ofList_toList_map (m : Std.ExtTreeMap α β) :
    Std.ExtTreeMap.ofList m.toList = m := by
  classical
  refine Std.ExtTreeMap.ext_getElem? fun k => ?_
  cases hk : m[k]? with
  | some v =>
    exact Std.ExtTreeMap.getElem?_ofList_of_mem (by simp) Std.ExtTreeMap.distinct_keys_toList
      (Std.ExtTreeMap.mem_toList_iff_getElem?_eq_some.mpr hk)
  | none =>
    refine Std.ExtTreeMap.getElem?_ofList_of_contains_eq_false ?_
    have hn : k ∉ m.toList.map Prod.fst := by
      intro hm
      obtain ⟨⟨k', v⟩, hp, rfl⟩ := List.mem_map.mp hm
      rw [Std.ExtTreeMap.mem_toList_iff_getElem?_eq_some.mp hp] at hk
      cases hk
    simpa using hn

/-- A set is recovered from any listing of its members. -/
theorem ofList_eq_of_mem_iff {s : Std.ExtTreeSet α} {l : List α} (h : ∀ a, a ∈ l ↔ a ∈ s) :
    Std.ExtTreeSet.ofList l = s := by
  classical
  refine Std.ExtTreeSet.ext_mem fun k => ?_
  rw [Std.ExtTreeSet.mem_ofList, List.contains_iff_mem, h]

/-- A set is recovered from its own listing. -/
theorem ofList_toList_set (s : Std.ExtTreeSet α) : Std.ExtTreeSet.ofList s.toList = s :=
  ofList_eq_of_mem_iff fun _ => Std.ExtTreeSet.mem_toList

/-- The listing of a set has no repetition. -/
theorem nodup_toList_set (s : Std.ExtTreeSet α) : s.toList.Nodup := by
  have h := Std.ExtTreeSet.distinct_toList (t := s)
  exact h.imp fun hne he => hne (by simp [he])

/-- Lists with one element at most that are permutations of one another are equal. -/
theorem eq_of_perm_of_unique {α : Type u} {l l' : List α} (h : l.Perm l')
    (hone : ∀ a ∈ l, ∀ b ∈ l, a = b) : l = l' := by
  refine @List.Perm.eq_of_pairwise _ (fun _ _ => True) _ _ ?_ ?_ ?_ h
  · intro a b ha hb _ _
    exact hone a ha b (h.mem_iff.mpr hb)
  · exact List.pairwise_of_forall fun _ _ => trivial
  · exact List.pairwise_of_forall fun _ _ => trivial

/-- An iteration order for finite sets: some permutation of every listing. -/
structure SetOrder (α : Type u) where
  order : List α → List α
  perm : ∀ l, (order l).Perm l

namespace SetOrder

/-- Iterate in listing order. -/
def ascending : SetOrder α := ⟨id, List.Perm.refl⟩

/-- Iterate against the listing order. -/
def descending : SetOrder α := ⟨List.reverse, List.reverse_perm⟩

/-- List one element before the others, if it is there. -/
def first [DecidableEq α] (a : α) : SetOrder α where
  order l := if a ∈ l then a :: l.erase a else l
  perm l := by
    split
    next h => exact (List.perm_cons_erase h).symm
    next => exact .refl l

/-- The members of a set in iteration order. -/
def iterate (o : SetOrder α) (s : Std.ExtTreeSet α) : List α := o.order s.toList

/-- Iteration visits the members and nothing else. -/
@[simp] theorem mem_iterate (o : SetOrder α) (s : Std.ExtTreeSet α) (a : α) :
    a ∈ o.iterate s ↔ a ∈ s := by
  rw [iterate, (o.perm _).mem_iff, Std.ExtTreeSet.mem_toList]

/-- A member that is listed first. -/
theorem iterate_first [DecidableEq α] {s : Std.ExtTreeSet α} {a : α} (h : a ∈ s) :
    (first a).iterate s = a :: s.toList.erase a := by
  unfold iterate first
  exact if_pos (Std.ExtTreeSet.mem_toList.mpr h)

/-- Iteration visits every member once. -/
theorem nodup_iterate (o : SetOrder α) (s : Std.ExtTreeSet α) : (o.iterate s).Nodup :=
  (o.perm _).nodup_iff.mpr (nodup_toList_set s)

end SetOrder
end PlatformSpec.Base
