import Mathlib.Data.Finset.Card
import Mathlib.Logic.Relation

/-!
# Finite acyclic relations

A relation with finitely many targets and no cycle carries a natural height that
strictly drops along every step. The height bounds the depth of any recursion that
follows the relation, and the dual rank gives induction from the sources downward.
-/

namespace PlatformSpec.Base

universe u

open Relation

variable {α : Type u}

/-- No element reaches itself by one or more steps. -/
def Acyclic (r : α → α → Prop) : Prop := ∀ a, ¬ TransGen r a a

namespace Acyclic

variable {r : α → α → Prop}

/-- Reversing every step keeps a relation acyclic. -/
theorem swap (h : Acyclic r) : Acyclic (Function.swap r) := fun a hc =>
  h a (transGen_swap.mp hc)

/-- A rank that grows along every step excludes cycles. -/
theorem of_rank (rk : α → Nat) (h : ∀ a b, r a b → rk a < rk b) : Acyclic r := by
  have hlt : ∀ a b, TransGen r a b → rk a < rk b := by
    intro a b hab
    induction hab with
    | single hs => exact h _ _ hs
    | tail _ hs ih => exact ih.trans (h _ _ hs)
  exact fun a ha => (hlt a a ha).ne rfl

open Classical in
/-- The targets reachable from `a`, inside a finite carrier. -/
private noncomputable def below (r : α → α → Prop) (s : Finset α) (a : α) : Finset α :=
  s.filter (TransGen r a)

private theorem below_ssubset (h : Acyclic r) (s : Finset α)
    (hs : ∀ a b, r a b → b ∈ s) {a b : α} (hab : r a b) : below r s b ⊂ below r s a := by
  classical
  refine Finset.ssubset_iff_subset_ne.mpr ⟨?_, ?_⟩
  · intro c hc
    obtain ⟨hcs, hbc⟩ := Finset.mem_filter.mp hc
    exact Finset.mem_filter.mpr ⟨hcs, .head hab hbc⟩
  · intro he
    have hb : b ∈ below r s a := Finset.mem_filter.mpr ⟨hs a b hab, .single hab⟩
    rw [← he] at hb
    exact h b (Finset.mem_filter.mp hb).2

/-- Height function: it drops along every step and is bounded by the carrier size. -/
theorem exists_height (h : Acyclic r) (s : Finset α) (hs : ∀ a b, r a b → b ∈ s) :
    ∃ ht : α → Nat, (∀ a b, r a b → ht b < ht a) ∧ ∀ a, ht a ≤ s.card := by
  classical
  refine ⟨fun a => (below r s a).card, ?_, ?_⟩
  · intro a b hab
    exact Finset.card_lt_card (below_ssubset h s hs hab)
  · intro a
    unfold below
    exact Finset.card_le_card (Finset.filter_subset _ _)

/-- Induction along the steps: a property that passes from all predecessors of an
element to the element holds everywhere. -/
theorem induction (h : Acyclic r) (s : Finset α) (hs : ∀ a b, r a b → a ∈ s)
    {p : α → Prop} (step : ∀ b, (∀ a, r a b → p a) → p b) (b : α) : p b := by
  obtain ⟨rk, hrk, -⟩ := h.swap.exists_height s fun a b hab => hs b a hab
  induction hn : rk b using Nat.strongRecOn generalizing b with
  | ind n ih =>
    refine step b fun a hab => ih (rk a) ?_ a rfl
    rw [← hn]
    exact hrk b a hab

end Acyclic
end PlatformSpec.Base
