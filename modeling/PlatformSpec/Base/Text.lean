import Mathlib.Data.List.Basic

/-!
# Texts

What surrounds a text: white space and other characters that are stripped. Nothing here mentions
a particular system.
-/

namespace PlatformSpec.Base

/-- `str.isspace` of one character. -/
def isSpace (c : Char) : Bool :=
  (0x09 ≤ c.toNat && c.toNat ≤ 0x0d) || (0x1c ≤ c.toNat && c.toNat ≤ 0x20) ||
    (0x2000 ≤ c.toNat && c.toNat ≤ 0x200a) ||
    [0x85, 0xa0, 0x1680, 0x2028, 0x2029, 0x202f, 0x205f, 0x3000].contains c.toNat

variable {α : Type} (p : α → Bool)

/-- Without the elements at the end that have a property. -/
def stripRight (l : List α) : List α := (l.reverse.dropWhile p).reverse

/-- Without the elements at both ends that have a property. -/
def stripBoth (l : List α) : List α := stripRight p (l.dropWhile p)

/-- `s.strip()`. -/
def strip (s : String) : String := String.ofList (stripBoth isSpace s.toList)

/-- What a test finds of every element. -/
theorem forall_of_all {q : α → Prop} [DecidablePred q] {l : List α}
    (h : l.all (fun a => decide (q a)) = true) : ∀ a ∈ l, q a :=
  fun a ha => of_decide_eq_true (List.all_eq_true.mp h a ha)

variable {p} {l : List α}

theorem stripRight_append_of_all {s : List α} (hs : ∀ a ∈ s, p a = true) :
    stripRight p (l ++ s) = stripRight p l := by
  unfold stripRight
  rw [List.reverse_append, List.dropWhile_append_of_pos fun a ha => hs a (List.mem_reverse.mp ha)]

variable {a : α}

theorem stripRight_concat_of_neg (h : p a = false) : stripRight p (l ++ [a]) = l ++ [a] := by
  simp [stripRight, h]

/-- What is left is the front of what was there. -/
theorem prefix_stripRight (l : List α) : stripRight p l <+: l := by
  rw [stripRight, ← List.reverse_suffix, List.reverse_reverse]
  exact List.dropWhile_suffix p

/-- Nothing is left to strip. -/
theorem stripRight_eq_self_iff :
    stripRight p l = l ↔ ∀ a, l.getLast? = some a → p a = false := by
  rcases List.eq_nil_or_concat l with rfl | ⟨front, a, rfl⟩
  · simp [stripRight]
  · rw [List.concat_eq_append]
    cases h : p a with
    | false => simp [stripRight_concat_of_neg h, h]
    | true =>
      have hlength := (prefix_stripRight (p := p) front).length_le
      refine iff_of_false (fun he => ?_) (by simp [h])
      rw [stripRight_append_of_all (by simpa using h)] at he
      have := congrArg List.length he
      rw [List.length_append, List.length_singleton] at this
      omega

theorem dropWhile_eq_self_iff : l.dropWhile p = l ↔ ∀ a, l.head? = some a → p a = false := by
  cases l with
  | nil => simp
  | cons a l =>
    cases h : p a with
    | false => simp [h]
    | true =>
      refine iff_of_false (fun he => ?_) (by simp [h])
      rw [List.dropWhile_cons_of_pos h] at he
      have hlength := (List.dropWhile_suffix p (l := l)).length_le
      rw [he, List.length_cons] at hlength
      omega

theorem stripBoth_eq_self_iff : stripBoth p l = l ↔
    (∀ a, l.head? = some a → p a = false) ∧ ∀ a, l.getLast? = some a → p a = false := by
  unfold stripBoth
  constructor
  · intro h
    have hdrop : l.dropWhile p = l := by
      refine (List.dropWhile_suffix p).eq_of_length_le ?_
      have hlength := (prefix_stripRight (p := p) (l.dropWhile p)).length_le
      rwa [h] at hlength
    rw [hdrop] at h
    exact ⟨dropWhile_eq_self_iff.mp hdrop, stripRight_eq_self_iff.mp h⟩
  · rintro ⟨hfirst, hlast⟩
    rw [dropWhile_eq_self_iff.mpr hfirst, stripRight_eq_self_iff.mpr hlast]

private theorem head_dropWhile (h : (l.dropWhile p).head? = some a) : p a = false := by
  have hnot := List.head?_dropWhile_not p l
  rwa [h] at hnot

/-- What is stripped stays as it is. -/
theorem stripBoth_stripBoth (l : List α) : stripBoth p (stripBoth p l) = stripBoth p l := by
  rw [stripBoth_eq_self_iff]
  constructor
  · intro a ha
    obtain ⟨rest, hrest⟩ := prefix_stripRight (p := p) (l.dropWhile p)
    refine head_dropWhile (l := l) (a := a) ?_
    rw [← hrest, List.head?_append]
    exact Option.or_eq_some_iff.mpr (.inl ha)
  · intro a ha
    rw [stripBoth, stripRight, List.getLast?_reverse] at ha
    exact head_dropWhile ha

/-- Blanks before a text do not matter. -/
theorem stripBoth_cons_of_pos (h : p a = true) : stripBoth p (a :: l) = stripBoth p l := by
  rw [stripBoth, List.dropWhile_cons_of_pos h, stripBoth]

theorem dropWhile_append_cons (h : p a = false) (front back : List α) :
    (front ++ a :: back).dropWhile p = front.dropWhile p ++ a :: back := by
  induction front with
  | nil => simp [h]
  | cons b front ih =>
    cases hb : p b with
    | false => simp [hb]
    | true => simpa [hb] using ih

/-- What stands between elements that stay is stripped of nothing. -/
theorem stripBoth_append {middle : List α} (hne : middle ≠ [])
    (hfirst : ∀ a ∈ middle.head?, p a = false) (hlast : ∀ a ∈ middle.getLast?, p a = false)
    (front back : List α) :
    stripBoth p (front ++ middle ++ back) = front.dropWhile p ++ middle ++ stripRight p back := by
  have hdrop : (front ++ middle ++ back).dropWhile p = front.dropWhile p ++ middle ++ back := by
    cases middle with
    | nil => exact absurd rfl hne
    | cons a middle =>
      rw [List.append_assoc, List.cons_append, dropWhile_append_cons (hfirst a rfl)]
      simp
  rw [stripBoth, hdrop]
  rcases List.eq_nil_or_concat middle with rfl | ⟨start, a, rfl⟩
  · exact absurd rfl hne
  · rw [List.concat_eq_append] at hlast ⊢
    have ha : p a = false := hlast a (by simp)
    have hreverse : (front.dropWhile p ++ (start ++ [a]) ++ back).reverse =
        back.reverse ++ a :: (start.reverse ++ (front.dropWhile p).reverse) := by simp
    rw [stripRight, hreverse, dropWhile_append_cons ha]
    simp [stripRight]

theorem infix_intercalate (separator : List α) {s : List α} {docs : List (List α)} (h : s ∈ docs) :
    s <:+: separator.intercalate docs := by
  induction docs with
  | nil => cases h
  | cons d docs ih =>
    cases docs with
    | nil =>
      rw [List.mem_singleton.mp h]
      simp
    | cons d' docs =>
      rw [List.intercalate_cons_cons]
      rcases List.mem_cons.mp h with rfl | h
      · exact ⟨[], _, by rw [List.nil_append, List.append_assoc]⟩
      · exact (ih h).trans (List.suffix_append _ _).isInfix

/-- A piece does not hold what the list is split at. -/
theorem of_mem_splitOn [DecidableEq α] {c : α} {text line : List α} (h : line ∈ text.splitOn c) :
    c ∉ line ∧ ∀ d ∈ line, d ∈ text := by
  induction text generalizing line with
  | nil =>
    rw [List.splitOn_nil, List.mem_singleton] at h
    simp [h]
  | cons d text ih =>
    rw [List.splitOn_cons_eq_if_modifyHead] at h
    split at h
    · rcases List.mem_cons.mp h with rfl | h
      · simp
      · exact ⟨(ih h).1, fun e he => List.mem_cons_of_mem _ ((ih h).2 e he)⟩
    · next hd =>
      cases hs : text.splitOn c with
      | nil => exact absurd hs (List.splitOn_ne_nil c text)
      | cons first rest =>
        rw [hs, List.modifyHead_cons] at h
        rw [hs] at ih
        rcases List.mem_cons.mp h with rfl | h
        · obtain ⟨hc, hmem⟩ := ih List.mem_cons_self
          refine ⟨?_, fun e he => ?_⟩
          · rintro (_ | ⟨_, h⟩)
            · simp at hd
            · exact hc h
          · rcases List.mem_cons.mp he with rfl | he
            · exact List.mem_cons_self
            · exact List.mem_cons_of_mem _ (hmem e he)
        · obtain ⟨hc, hmem⟩ := ih (List.mem_cons_of_mem _ h)
          exact ⟨hc, fun e he => List.mem_cons_of_mem _ (hmem e he)⟩

end PlatformSpec.Base
