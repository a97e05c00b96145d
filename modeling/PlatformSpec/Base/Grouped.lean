import Mathlib.Data.List.Nodup

/-!
# Lists in blocks

A list is grouped along an order when it consists of one block of equal entries after another,
in that order; entries of the order may have no block.
-/

namespace PlatformSpec.Base

universe u

variable {α : Type u}

/-- The list consists of blocks in the given order. -/
inductive Grouped : List α → List α → Prop where
  | nil (order : List α) : Grouped order []
  | tag {a : α} {order tags : List α} (h : Grouped (a :: order) tags) :
      Grouped (a :: order) (a :: tags)
  | skip {a : α} {order tags : List α} (h : Grouped order tags) : Grouped (a :: order) tags

namespace Grouped

variable {order tags more : List α} {a b : α}

/-- Blocks may follow. -/
theorem append_order (h : Grouped order tags) (more : List α) : Grouped (order ++ more) tags := by
  induction h with
  | nil => exact .nil _
  | tag _ ih => exact .tag ih
  | skip _ ih => exact .skip ih

/-- Only what is in the order has a block. -/
theorem subset (h : Grouped order tags) : ∀ b ∈ tags, b ∈ order := by
  induction h with
  | nil => simp
  | tag _ ih =>
    intro b hb
    rcases List.mem_cons.mp hb with rfl | hb
    · exact List.mem_cons_self
    · exact ih b hb
  | skip _ ih => exact fun b hb => List.mem_cons_of_mem _ (ih b hb)

theorem singleton (h : a ∈ order) : Grouped order [a] := by
  induction order with
  | nil => cases h
  | cons b order ih =>
    rcases List.mem_cons.mp h with rfl | h
    · exact .tag (.nil _)
    · exact .skip (ih h)

/-- The last block can grow. -/
theorem concat (h : Grouped order tags) (ha : order.getLast? = some a) :
    Grouped order (tags ++ [a]) := by
  induction h with
  | nil => exact singleton (List.mem_of_getLast? ha)
  | tag _ ih => exact .tag (ih ha)
  | @skip b order tags h ih =>
    cases order with
    | nil =>
      cases h
      exact singleton (List.mem_of_getLast? ha)
    | cons c order =>
      rw [List.getLast?_cons_cons] at ha
      exact .skip (ih ha)

theorem append_last (h : Grouped order tags) (ha : order.getLast? = some a)
    (hmore : ∀ b ∈ more, b = a) : Grouped order (tags ++ more) := by
  induction more generalizing tags with
  | nil =>
    rw [List.append_nil]
    exact h
  | cons b more ih =>
    obtain ⟨rfl, hrest⟩ := List.forall_mem_cons.mp hmore
    rw [List.append_cons]
    exact ih (h.concat ha) hrest

/-- Part of a grouped list is grouped. -/
theorem sublist (h : Grouped order tags) {part : List α} (hpart : part.Sublist tags) :
    Grouped order part := by
  induction h generalizing part with
  | nil =>
    rw [List.sublist_nil.mp hpart]
    exact .nil _
  | tag h ih =>
    cases hpart with
    | cons _ hpart => exact ih hpart
    | cons_cons _ hpart => exact .tag (ih hpart)
  | skip _ ih => exact .skip (ih hpart)

/-- Nothing stands between two entries of one block. -/
theorem eq_of_between (h : Grouped order tags) (hnd : order.Nodup)
    (hpart : [a, b, a].Sublist tags) : b = a := by
  have hall : ∀ order : List α, order.Nodup → Grouped order [a, b, a] → b = a := by
    intro order hnd h
    induction order with
    | nil => cases h
    | cons c order ih =>
      obtain ⟨hc, hnd'⟩ := List.nodup_cons.mp hnd
      cases h with
      | skip h => exact ih hnd' h
      | tag h =>
        cases h with
        | tag h => rfl
        | skip h => exact absurd (h.subset a (by simp)) hc
  exact hall order hnd (h.sublist hpart)

end Grouped
end PlatformSpec.Base
