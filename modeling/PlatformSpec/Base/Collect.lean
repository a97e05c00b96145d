import Mathlib.Data.List.Basic
import Mathlib.Data.List.Forall2

/-!
# Collecting results that may be missing

A list of results is there if every result is. Nothing here mentions a particular system.
-/

namespace PlatformSpec.Base.Collect

universe u v

variable {α : Type u} {β : Type v} {f : α → Option β} {as : List α} {bs : List β}

/-- The results that are collected are those of the elements, one by one. -/
theorem mapM_eq_some_iff : as.mapM f = some bs ↔ List.Forall₂ (fun a b => f a = some b) as bs := by
  induction as generalizing bs with
  | nil =>
    rw [List.mapM_nil, List.forall₂_nil_left_iff]
    exact ⟨fun h => (Option.some.inj h).symm, fun h => congrArg some h.symm⟩
  | cons a as ih =>
    rw [List.mapM_cons, List.forall₂_cons_left_iff]
    constructor
    · intro h
      obtain ⟨b, hb, h⟩ := Option.bind_eq_some_iff.mp h
      obtain ⟨rest, hrest, he⟩ := Option.bind_eq_some_iff.mp h
      exact ⟨b, rest, hb, ih.mp hrest, (Option.some.inj he).symm⟩
    · rintro ⟨b, rest, hb, hrest, rfl⟩
      refine Option.bind_eq_some_iff.mpr ⟨b, hb, ?_⟩
      exact Option.bind_eq_some_iff.mpr ⟨rest, ih.mpr hrest, rfl⟩

/-- What is collected is the result of some element. -/
theorem mem_mapM (h : as.mapM f = some bs) {b : β} : b ∈ bs ↔ ∃ a ∈ as, f a = some b := by
  have hall := mapM_eq_some_iff.mp h
  clear h
  induction hall with
  | nil => simp
  | cons hab _ ih => simp [ih, hab, eq_comm]

/-- All results are there if and only if each is. -/
theorem exists_mapM_iff : (∃ bs, as.mapM f = some bs) ↔ ∀ a ∈ as, ∃ b, f a = some b := by
  induction as with
  | nil => exact iff_of_true ⟨[], rfl⟩ (by simp)
  | cons a as ih =>
    rw [List.forall_mem_cons, ← ih]
    constructor
    · rintro ⟨bs, h⟩
      obtain ⟨b, rest, hb, hrest, -⟩ := List.forall₂_cons_left_iff.mp (mapM_eq_some_iff.mp h)
      exact ⟨⟨b, hb⟩, rest, mapM_eq_some_iff.mpr hrest⟩
    · rintro ⟨⟨b, hb⟩, rest, hrest⟩
      exact ⟨b :: rest, mapM_eq_some_iff.mpr (.cons hb (mapM_eq_some_iff.mp hrest))⟩

end PlatformSpec.Base.Collect

/-!
## Dropped items

Some items of a list are dropped and what is kept of the others closes up. It stands where its items
did if and only if the items dropped come last. Nothing here mentions a particular system.
-/

namespace PlatformSpec.Base

universe u v

variable {α : Type u} {β : Type v} {keep : α → Option β} {items : List α} {kept : β} {k : Nat}

/-- No item that is dropped comes before one that is kept. -/
def DroppedLast (keep : α → Option β) (items : List α) : Prop :=
  items.Pairwise fun a b => keep a = none → keep b = none

/-- Then what is kept stands where its item does. -/
theorem DroppedLast.getElem? (h : DroppedLast keep items)
    (hk : (items.filterMap keep)[k]? = some kept) : items[k]?.bind keep = some kept := by
  induction items generalizing k with
  | nil => cases hk
  | cons item items ih =>
    have hrest := List.pairwise_cons.mp h
    cases hitem : keep item with
    | none =>
      -- nothing is kept after an item that is dropped
      have hnone : items.filterMap keep = [] :=
        List.filterMap_eq_nil_iff.mpr fun later hlater => hrest.1 later hlater hitem
      rw [List.filterMap_cons_none hitem, hnone] at hk
      cases hk
    | some first =>
      rw [List.filterMap_cons_some hitem] at hk
      cases k with
      | zero => exact hitem.trans hk
      | succ k => exact ih hrest.2 hk

/-- Otherwise something is kept at the place of an item that is dropped. -/
theorem droppedLast_or_exists (keep : α → Option β) (items : List α) : DroppedLast keep items ∨
    ∃ (k : Nat) (item : α) (kept : β),
      (items.filterMap keep)[k]? = some kept ∧ items[k]? = some item ∧
      keep item = none := by
  induction items with
  | nil => exact .inl List.Pairwise.nil
  | cons item items ih =>
    cases hitem : keep item with
    | none =>
      rw [List.filterMap_cons_none hitem]
      cases hlater : items.filterMap keep with
      | nil =>
        left
        have hnone := List.filterMap_eq_nil_iff.mp hlater
        apply List.pairwise_cons.mpr
        exact ⟨fun b hb _ => hnone b hb,
          List.pairwise_of_forall_mem_list fun _ _ b hb _ => hnone b hb⟩
      | cons kept later => exact .inr ⟨0, item, kept, rfl, rfl, hitem⟩
    | some first =>
      rw [List.filterMap_cons_some hitem]
      cases ih with
      | inl hlast =>
        left
        apply List.pairwise_cons.mpr
        refine ⟨fun b _ hdropped => ?_, hlast⟩
        rw [hitem] at hdropped
        cases hdropped
      | inr hfound =>
        obtain ⟨k, dropped, kept, hk, hplace, hdropped⟩ := hfound
        exact .inr ⟨k + 1, dropped, kept, hk, hplace, hdropped⟩

end PlatformSpec.Base
