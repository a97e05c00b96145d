import Mathlib.Data.List.Basic

/-!
# Lists cut at marked elements

A block starts with a marked element and goes on with unmarked ones. A list that is a sequence
of blocks can be cut into blocks in one way only.
-/

namespace PlatformSpec.Base

universe u

variable {α : Type u} {P : α → Prop}

/-- A marked element followed by unmarked ones. -/
def Headed (P : α → Prop) (block : List α) : Prop :=
  ∃ a l, block = a :: l ∧ P a ∧ ∀ b ∈ l, ¬ P b

private theorem flatten_starts {blocks : List (List α)} (h : ∀ b ∈ blocks, Headed P b) :
    ∀ a ∈ blocks.flatten.head?, P a := by
  cases blocks with
  | nil => simp
  | cons b blocks =>
    obtain ⟨a, l, rfl, ha, -⟩ := h b List.mem_cons_self
    simpa using ha

theorem append_inj_of_unmarked {l l' r r' : List α} (hl : ∀ b ∈ l, ¬ P b)
    (hl' : ∀ b ∈ l', ¬ P b) (hr : ∀ a ∈ r.head?, P a) (hr' : ∀ a ∈ r'.head?, P a)
    (h : l ++ r = l' ++ r') : l = l' ∧ r = r' := by
  induction l generalizing l' with
  | nil =>
    cases l' with
    | nil => exact ⟨rfl, h⟩
    | cons b l' =>
      subst h
      exact absurd (hr b rfl) (hl' b List.mem_cons_self)
  | cons a l ih =>
    cases l' with
    | nil =>
      subst h
      exact absurd (hr' a rfl) (hl a List.mem_cons_self)
    | cons b l' =>
      obtain ⟨rfl, htail⟩ := List.cons_eq_cons.mp h
      obtain ⟨rfl, rfl⟩ := ih (fun b hb => hl b (List.mem_cons_of_mem _ hb))
        (fun b hb => hl' b (List.mem_cons_of_mem _ hb)) htail
      exact ⟨rfl, rfl⟩

/-- The blocks of a list are determined by the list. -/
theorem eq_of_flatten_eq {blocks blocks' : List (List α)} (h : ∀ b ∈ blocks, Headed P b)
    (h' : ∀ b ∈ blocks', Headed P b) (he : blocks.flatten = blocks'.flatten) :
    blocks = blocks' := by
  induction blocks generalizing blocks' with
  | nil =>
    cases blocks' with
    | nil => rfl
    | cons b blocks' =>
      obtain ⟨a, l, rfl, -⟩ := h' b List.mem_cons_self
      cases he
  | cons b blocks ih =>
    obtain ⟨a, l, rfl, ha, hl⟩ := h b List.mem_cons_self
    cases blocks' with
    | nil => cases he
    | cons b' blocks' =>
      obtain ⟨a', l', rfl, ha', hl'⟩ := h' b' List.mem_cons_self
      rw [List.flatten_cons, List.flatten_cons, List.cons_append, List.cons_append] at he
      obtain ⟨rfl, htail⟩ := List.cons_eq_cons.mp he
      have hrest := fun b hb => h b (List.mem_cons_of_mem _ hb)
      have hrest' := fun b hb => h' b (List.mem_cons_of_mem _ hb)
      obtain ⟨rfl, hflat⟩ := append_inj_of_unmarked hl hl' (flatten_starts hrest)
        (flatten_starts hrest') htail
      rw [ih hrest hrest' hflat]

end PlatformSpec.Base

/-!
## Packing in order

Elements with sizes are packed into bins one after the other: a bin is closed when the next
element does not fit. Nothing here mentions a particular system.
-/

namespace PlatformSpec.Base

universe u v

variable {α : Type u} {β : Type v} (size : α → Int) (capacity : Int)

/-- The bins, with the elements of the open one and their size. -/
def fillFrom : List α → List α → Int → List (List α)
  | [], current, _ => [current]
  | a :: l, current, total =>
    if capacity < total + size a then current :: fillFrom l [a] (size a)
    else fillFrom l (current ++ [a]) (total + size a)

/-- The bins that are filled in order. -/
def nextFit (l : List α) : List (List α) := fillFrom size capacity l [] 0

variable {size capacity}

/-- Every element is in its bin, in order. -/
theorem flatten_fillFrom (l current : List α) (total : Int) :
    (fillFrom size capacity l current total).flatten = current ++ l := by
  induction l generalizing current total with
  | nil => simp [fillFrom]
  | cons a l ih =>
    rw [fillFrom]
    split
    · rw [List.flatten_cons, ih, List.singleton_append]
    · rw [ih, List.append_assoc, List.singleton_append]

theorem flatten_nextFit (l : List α) : (nextFit size capacity l).flatten = l :=
  flatten_fillFrom l [] 0

/-- The bins depend on the sizes only. -/
theorem fillFrom_map (f : β → α) (l current : List β) (total : Int) :
    fillFrom size capacity (l.map f) (current.map f) total =
      (fillFrom (fun b => size (f b)) capacity l current total).map (List.map f) := by
  induction l generalizing current total with
  | nil => rfl
  | cons b l ih =>
    rw [List.map_cons, fillFrom, fillFrom]
    split
    · rw [List.map_cons]
      exact congrArg _ (ih [b] _)
    · have h := ih (current ++ [b]) (total + size (f b))
      rwa [List.map_append] at h

theorem nextFit_map (f : β → α) (l : List β) :
    nextFit size capacity (l.map f) =
      (nextFit (fun b => size (f b)) capacity l).map (List.map f) :=
  fillFrom_map f l [] 0

end PlatformSpec.Base
