import Mathlib.Data.List.Induction

/-!
# Well-nested words

Words over an alphabet with brackets of several kinds and other letters: the grammar of the well
nested ones, and the stack of brackets that a word leaves open. Nothing here mentions a particular
system.
-/

namespace PlatformSpec.Base

universe u

/-- Which letters open, what closes them, and which letters close. -/
structure Brackets (α : Type u) where
  mate : α → Option α
  closes : α → Bool
  mate_closes : ∀ {o c}, mate o = some c → mate c = none ∧ closes c = true

namespace Brackets

variable {α : Type u} (b : Brackets α)

/-- Words in which every bracket has its mate, properly nested. -/
inductive Nested : List α → Prop where
  | nil : Nested []
  | other {a : α} {w : List α} (hmate : b.mate a = none) (hcloses : b.closes a = false)
      (hw : Nested w) : Nested (a :: w)
  | pair {o c : α} {u v : List α} (hmate : b.mate o = some c) (hu : Nested u) (hv : Nested v) :
      Nested (o :: (u ++ c :: v))

/-- Words that leave brackets open, the last one first, and close all others. -/
inductive Pending : List α → List α → Prop where
  | nested {w : List α} (hw : b.Nested w) : Pending w []
  | opened {w v stack : List α} {o : α} (hw : Pending w stack) (ho : (b.mate o).isSome)
      (hv : b.Nested v) : Pending (w ++ o :: v) (o :: stack)

variable {b} {stack st w v : List α} {a o c : α}

theorem Nested.append (hw : b.Nested w) (hv : b.Nested v) : b.Nested (w ++ v) := by
  induction hw with
  | nil => exact hv
  | other hmate hcloses _ ih => exact .other hmate hcloses ih
  | pair hmate hu _ _ ih =>
    rw [List.cons_append, List.append_assoc, List.cons_append]
    exact .pair hmate hu ih

theorem Nested.singleton (hmate : b.mate a = none) (hcloses : b.closes a = false) :
    b.Nested [a] := .other hmate hcloses .nil

theorem Pending.append (hw : b.Pending w stack) (hv : b.Nested v) :
    b.Pending (w ++ v) stack := by
  cases hw with
  | nested hw => exact .nested (hw.append hv)
  | opened hw ho hu =>
    rw [List.append_assoc, List.cons_append]
    exact .opened hw ho (hu.append hv)

/-- The last open bracket meets its mate. -/
theorem Pending.close (hw : b.Pending w (o :: stack)) (hmate : b.mate o = some c) :
    b.Pending (w ++ [c]) stack := by
  cases hw with
  | opened hw _ hv =>
    rw [List.append_assoc, List.cons_append]
    exact hw.append (.pair hmate hv .nil)

variable (b) [DecidableEq α]

/-- A letter meets the open brackets, the last one first. -/
def step (stack : List α) (a : α) : Option (List α) :=
  if (b.mate a).isSome then some (a :: stack)
  else if b.closes a then
    match stack with
    | [] => none
    | o :: stack => if b.mate o = some a then some stack else none
  else some stack

/-- A word meets the open brackets. -/
def run (stack w : List α) : Option (List α) := w.foldlM b.step stack

variable {b}

theorem step_open (h : (b.mate a).isSome) : b.step stack a = some (a :: stack) := if_pos h

theorem step_other (hmate : b.mate a = none) (hcloses : b.closes a = false) :
    b.step stack a = some stack := by
  simp [step, hmate, hcloses]

theorem step_close (hmate : b.mate a = none) (hcloses : b.closes a = true) :
    b.step (o :: stack) a = if b.mate o = some a then some stack else none := by
  simp [step, hmate, hcloses]

theorem run_cons : b.run stack (a :: w) = (b.step stack a).bind (b.run · w) := by
  rw [run, List.foldlM_cons]
  rfl

theorem run_append : b.run stack (w ++ v) = (b.run stack w).bind (b.run · v) := by
  rw [run, List.foldlM_append]
  rfl

/-- A well-nested word leaves the open brackets as they are. -/
theorem Nested.run (h : b.Nested w) (stack : List α) : b.run stack w = some stack := by
  induction h generalizing stack with
  | nil => rfl
  | other hmate hcloses _ ih => rw [run_cons, step_other hmate hcloses, Option.bind_some, ih]
  | pair hmate _ _ hu hv =>
    obtain ⟨hnone, hcloses⟩ := b.mate_closes hmate
    rw [run_cons, step_open (by rw [hmate]; rfl), Option.bind_some, run_append, hu,
      Option.bind_some, run_cons, step_close hnone hcloses, if_pos hmate, Option.bind_some, hv]

/-- The stack machine reads the grammar. -/
theorem run_eq_some_iff : b.run [] w = some stack ↔ b.Pending w stack := by
  constructor
  · intro h
    induction w using List.reverseRecOn generalizing stack with
    | nil => cases h; exact .nested .nil
    | append_singleton w a ih =>
      rw [run_append, Option.bind_eq_some_iff] at h
      obtain ⟨before, hw, ha⟩ := h
      rw [run_cons, Option.bind_eq_some_iff] at ha
      obtain ⟨after, ha, hafter⟩ := ha
      cases hafter
      have hw := ih hw
      cases hmate : b.mate a with
      | some c =>
        have ho : (b.mate a).isSome := by rw [hmate]; rfl
        rw [step_open ho] at ha
        cases ha
        exact .opened hw ho .nil
      | none =>
        cases hcloses : b.closes a with
        | false =>
          rw [step_other hmate hcloses] at ha
          cases ha
          exact hw.append (.singleton hmate hcloses)
        | true =>
          cases before with
          | nil => simp [step, hmate, hcloses] at ha
          | cons o before =>
            rw [step_close hmate hcloses] at ha
            split at ha
            · next hpair => cases ha; exact hw.close hpair
            · cases ha
  · intro h
    induction h with
    | nested hw => exact hw.run []
    | opened _ ho hv ih =>
      rw [run_append, ih, Option.bind_some, run_cons, step_open ho, Option.bind_some, hv.run]

theorem run_eq_nil_iff : b.run [] w = some [] ↔ b.Nested w := by
  rw [run_eq_some_iff]
  constructor
  · rintro (hw | -)
    exact hw
  · exact .nested

end Brackets
end PlatformSpec.Base
