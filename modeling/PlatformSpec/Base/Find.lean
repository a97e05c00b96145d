import Mathlib.Data.List.Basic

/-!
# Finding a pattern

The first and the last place of a pattern in a text. Nothing here mentions a particular system.
-/

namespace PlatformSpec.Base

universe u

/-- The greatest index below a bound with a property. -/
def lastIndex (p : Nat → Bool) : Nat → Option Nat
  | 0 => none
  | n + 1 => if p n then some n else lastIndex p n

theorem lastIndex_eq_some_iff {p : Nat → Bool} {n i : Nat} : lastIndex p n = some i ↔
    i < n ∧ p i = true ∧ ∀ k, i < k → k < n → p k = false := by
  induction n with
  | zero => simp [lastIndex]
  | succ n ih =>
    rw [lastIndex]
    split
    · next hn =>
      rw [Option.some_inj]
      constructor
      · rintro rfl
        exact ⟨Nat.lt_succ_self n, hn, fun k _ _ => by omega⟩
      · rintro ⟨hi, -, hlast⟩
        by_contra hne
        rw [hlast n (by omega) (by omega)] at hn
        cases hn
    · next hn =>
      rw [ih]
      constructor
      · rintro ⟨hi, hp, hlast⟩
        refine ⟨by omega, hp, fun k hik hk => ?_⟩
        rcases Nat.lt_or_eq_of_le (Nat.le_of_lt_succ hk) with hk | rfl
        · exact hlast k hik hk
        · exact Bool.eq_false_iff.mpr hn
      · rintro ⟨hi, hp, hlast⟩
        have hne : i ≠ n := fun he => hn (he ▸ hp)
        exact ⟨by omega, hp, fun k hik hk => hlast k hik (by omega)⟩

theorem lastIndex_eq_none_iff {p : Nat → Bool} {n : Nat} :
    lastIndex p n = none ↔ ∀ k < n, p k = false := by
  induction n with
  | zero => simp [lastIndex]
  | succ n ih =>
    rw [lastIndex, Nat.forall_lt_succ_right]
    split
    · next hn => simp [hn]
    · next hn => rw [ih, Bool.eq_false_iff.mpr hn]; simp

section Pattern

variable {α : Type u} [BEq α]

/-- The pattern stands at an index of the text. -/
def occursAt (pattern text : List α) (i : Nat) : Bool := pattern.isPrefixOf (text.drop i)

/-- `text.find(pattern)`. -/
def find (text pattern : List α) : Option Nat :=
  (List.range (text.length + 1)).find? (occursAt pattern text)

/-- `text.rfind(pattern, start)`. -/
def rfind (text pattern : List α) (start : Nat) : Option Nat :=
  lastIndex (fun i => decide (start ≤ i) && occursAt pattern text i) (text.length + 1)

variable {text pattern : List α} {i start : Nat} {a : α}

theorem find_eq_some_iff : find text pattern = some i ↔
    i < text.length + 1 ∧ occursAt pattern text i = true ∧
      ∀ k < i, occursAt pattern text k = false := by
  rw [find, List.find?_range_eq_some]
  simp only [List.mem_range, Bool.not_eq_true']
  tauto

theorem find_eq_none_iff : find text pattern = none ↔
    ∀ k < text.length + 1, occursAt pattern text k = false := by
  simp [find]

theorem rfind_eq_some_iff : rfind text pattern start = some i ↔
    (i < text.length + 1 ∧ start ≤ i ∧ occursAt pattern text i = true) ∧
      ∀ k, i < k → k < text.length + 1 → occursAt pattern text k = false := by
  rw [rfind, lastIndex_eq_some_iff]
  simp only [Bool.and_eq_true, decide_eq_true_eq, Bool.and_eq_false_iff, decide_eq_false_iff_not]
  constructor
  · rintro ⟨hi, ⟨hstart, hp⟩, hlast⟩
    exact ⟨⟨hi, hstart, hp⟩, fun k hik hk => (hlast k hik hk).resolve_left (by omega)⟩
  · rintro ⟨⟨hi, hstart, hp⟩, hlast⟩
    exact ⟨hi, ⟨hstart, hp⟩, fun k hik hk => Or.inr (hlast k hik hk)⟩

variable [LawfulBEq α]

theorem occursAt_iff : occursAt pattern text i = true ↔ pattern <+: text.drop i :=
  List.isPrefixOf_iff_prefix

theorem occursAt_append (front back : List α) :
    occursAt pattern (front ++ (pattern ++ back)) front.length = true := by
  rw [occursAt_iff, List.drop_left]
  exact List.prefix_append pattern back

/-- Every element of the pattern stands in the text behind the index. -/
theorem getElem?_of_occursAt (h : occursAt pattern text i = true) {k : Nat}
    (hk : k < pattern.length) : text[i + k]? = pattern[k]? := by
  obtain ⟨rest, hrest⟩ := occursAt_iff.mp h
  rw [← List.getElem?_drop, ← hrest, List.getElem?_append_left hk]

theorem occursAt_singleton : occursAt [a] text i = true ↔ text[i]? = some a := by
  rw [occursAt_iff, ← List.head?_drop]
  cases text.drop i with
  | nil => simp
  | cons b rest => simp [List.cons_prefix_cons, eq_comm]

end Pattern
end PlatformSpec.Base
