import Mathlib.Data.List.Infix

/-!
# Cutting lists at a separator

The first occurrence of a separator cuts a list in two; all of them cut it into pieces. A code in
which the elements of the separator stand for themselves can be cut before or after encoding.
Nothing here mentions a particular system.
-/

namespace PlatformSpec.Base.Split

universe u v

variable {α : Type u} {β : Type v} [DecidableEq α] [DecidableEq β]

/-- The list before and after the first occurrence of a separator. -/
def cut (sep : List α) : List α → Option (List α × List α)
  | [] => if sep = [] then some ([], []) else none
  | x :: l =>
    if sep <+: x :: l then some ([], (x :: l).drop sep.length)
    else (cut sep l).map fun p => (x :: p.1, p.2)

/-- The pieces between the occurrences of a separator. -/
def pieces (sep l : List α) : List (List α) :=
  match cut sep l with
  | none => [l]
  | some (before, after) =>
    if after.length < l.length then before :: pieces sep after else [before, after]
termination_by l.length

section Cut

variable {sep l a b : List α}

/-- What is cut is put together again. -/
theorem eq_of_cut (h : cut sep l = some (a, b)) : l = a ++ sep ++ b := by
  induction l generalizing a with
  | nil =>
    rw [cut] at h
    split at h
    next hsep =>
      cases h
      rw [hsep]
      rfl
    next => cases h
  | cons x l ih =>
    rw [cut] at h
    split at h
    next hstart =>
      cases h
      exact (List.prefix_iff_eq_append.mp hstart).symm
    next =>
      obtain ⟨⟨front, back⟩, hcut, he⟩ := Option.map_eq_some_iff.mp h
      cases he
      rw [ih hcut]
      simp

/-- A list that begins with the separator is cut there. -/
theorem cut_append_self (sep b : List α) : cut sep (sep ++ b) = some ([], b) := by
  cases sep with
  | nil => cases b <;> simp [cut]
  | cons x sep => simp [cut, List.prefix_append]

/-- What follows the first occurrence does not matter. -/
theorem cut_append (h : cut sep l = some (a, b)) (rest : List α) :
    cut sep (l ++ rest) = some (a, b ++ rest) := by
  induction l generalizing a with
  | nil =>
    rw [cut] at h
    split at h
    next hsep =>
      cases h
      rw [hsep]
      exact cut_append_self [] rest
    next => cases h
  | cons x l ih =>
    have hl := eq_of_cut h
    rw [cut] at h
    split at h
    next hstart =>
      cases h
      obtain ⟨back, hback⟩ := hstart
      rw [← hback, List.append_assoc, cut_append_self, List.drop_left]
    next hstart =>
      obtain ⟨⟨front, back⟩, hcut, he⟩ := Option.map_eq_some_iff.mp h
      cases he
      have hlength : sep.length ≤ (x :: l).length := by
        rw [hl]
        simp only [List.length_append]
        omega
      rw [List.cons_append, cut, if_neg, ih hcut]
      · rfl
      · intro hlong
        exact hstart (List.prefix_of_prefix_length_le hlong
          (List.prefix_append (x :: l) rest) hlength)

/-- A list is not cut if and only if it does not hold the separator. -/
theorem cut_eq_none_iff : cut sep l = none ↔ ¬ sep <:+: l := by
  induction l with
  | nil => simp [cut]
  | cons x l ih =>
    rw [cut, List.infix_cons_iff]
    split
    next h => simp [h]
    next h => simp [h, ih]

/-- Before the first occurrence there is none. -/
theorem not_infix_of_cut (h : cut sep l = some (a, b)) (hsep : sep ≠ []) : ¬ sep <:+: a := by
  intro hwithin
  obtain ⟨⟨front, back⟩, hfront⟩ : ∃ p, cut sep a = some p := by
    rw [← Option.ne_none_iff_exists']
    exact fun hnone => cut_eq_none_iff.mp hnone hwithin
  have hlong := cut_append hfront (sep ++ b)
  rw [← List.append_assoc, ← eq_of_cut h, h] at hlong
  obtain ⟨rfl, -⟩ := Prod.mk.inj (Option.some.inj hlong)
  have hlength := congrArg List.length (eq_of_cut hfront)
  have hpos := List.length_pos_iff.mpr hsep
  simp only [List.length_append] at hlength
  omega

/-- Passing an element at which the separator does not begin. -/
theorem cut_cons_of_not_start {x : α} (h : ¬ sep <+: x :: l) :
    cut sep (x :: l) = (cut sep l).map fun p => (x :: p.1, p.2) := by
  rw [cut, if_neg h]

/-- Passing elements of which none is the first of the separator. -/
theorem cut_append_of_not_mem {c : α} {front : List α} (h : c ∉ front) :
    cut (c :: sep) (front ++ l) = (cut (c :: sep) l).map fun p => (front ++ p.1, p.2) := by
  induction front with
  | nil => simp
  | cons x front ih =>
    have hx : ¬ c :: sep <+: x :: (front ++ l) := by
      rw [List.cons_prefix_cons]
      rintro ⟨rfl, -⟩
      exact h List.mem_cons_self
    rw [List.cons_append, cut_cons_of_not_start hx, ih fun hc => h (List.mem_cons_of_mem _ hc),
      Option.map_map]
    rfl

/-- One element cuts where it first stands. -/
theorem cut_singleton {c : α} (h : c ∉ a) : cut [c] (a ++ c :: b) = some (a, b) := by
  rw [cut_append_of_not_mem h]
  simp [cut]

omit [DecidableEq α] in
private theorem prefix_append_cases (h : sep <+: a ++ b) :
    sep <+: a ∨ a.length < sep.length ∧ sep.drop a.length <+: b := by
  rcases Nat.lt_or_ge a.length sep.length with hlength | hlength
  · obtain ⟨rest, hrest⟩ := h
    right
    refine ⟨hlength, rest, ?_⟩
    have hdrop := congrArg (List.drop a.length) hrest
    rwa [List.drop_append_of_le_length (Nat.le_of_lt hlength), List.drop_left] at hdrop
  · exact .inl (List.prefix_of_prefix_length_le h (List.prefix_append a b) hlength)

/-- A separator none of whose ends starts it is found where it first stands whole. -/
theorem cut_of_unbordered (hborder : ∀ k, 0 < k → k < sep.length → ¬ sep.drop k <+: sep)
    (h : ¬ sep <:+: a) : cut sep (a ++ (sep ++ b)) = some (a, b) := by
  induction a with
  | nil => exact cut_append_self sep b
  | cons x a ih =>
    have hstart : ¬ sep <+: x :: (a ++ (sep ++ b)) := by
      intro hstart
      rw [← List.cons_append] at hstart
      rcases prefix_append_cases hstart with hinside | ⟨hlength, hacross⟩
      · exact h hinside.isInfix
      · apply hborder (x :: a).length (Nat.succ_pos _) hlength
        refine List.prefix_of_prefix_length_le hacross (List.prefix_append sep b) ?_
        rw [List.length_drop]
        omega
    rw [List.infix_cons_iff, not_or] at h
    rw [List.cons_append, cut_cons_of_not_start hstart, ih h.2]
    rfl

section Pair

variable {c d : α}

omit [DecidableEq α] in
theorem not_pair_prefix {x : α} {rest : List α} (hcd : c ≠ d) (h : ¬ [c, d] <:+: x :: a) :
    ¬ [c, d] <+: x :: (a ++ c :: rest) := by
  intro hstart
  rw [List.cons_prefix_cons] at hstart
  obtain ⟨rfl, hrest⟩ := hstart
  cases a with
  | nil => exact hcd (List.cons_prefix_cons.mp hrest).1.symm
  | cons y a =>
    obtain ⟨rfl, -⟩ := List.cons_prefix_cons.mp hrest
    exact h (List.IsPrefix.isInfix ⟨a, rfl⟩)

omit [DecidableEq α] in
/-- A pair does not stand across an element that is none of its two. -/
theorem pair_infix_append_cons {e : α} (hc : e ≠ c) (hd : e ≠ d) :
    [c, d] <:+: a ++ e :: b ↔ [c, d] <:+: a ∨ [c, d] <:+: b := by
  induction a with
  | nil =>
    rw [List.nil_append, List.infix_cons_iff, List.cons_prefix_cons]
    simp [hc.symm]
  | cons x a ih =>
    have hstart : [c, d] <+: x :: (a ++ e :: b) ↔ [c, d] <+: x :: a := by
      cases a with
      | nil => simp [List.cons_prefix_cons, hd.symm]
      | cons y a => simp [List.cons_prefix_cons]
    rw [List.cons_append, List.infix_cons_iff, hstart, ih, List.infix_cons_iff, or_assoc]

theorem cut_append_of_pair (hcd : c ≠ d) (more rest : List α) (h : ¬ [c, d] <:+: a) :
    cut (c :: d :: more) (a ++ c :: rest) =
      (cut (c :: d :: more) (c :: rest)).map fun p => (a ++ p.1, p.2) := by
  induction a with
  | nil => simp
  | cons x a ih =>
    have hx : ¬ c :: d :: more <+: x :: (a ++ c :: rest) := fun hstart =>
      not_pair_prefix hcd h (List.IsPrefix.trans ⟨more, rfl⟩ hstart)
    rw [List.infix_cons_iff, not_or] at h
    rw [List.cons_append, cut_cons_of_not_start hx, ih h.2, Option.map_map]
    rfl

/-- Two different elements cut where they first stand together. -/
theorem cut_pair (hcd : c ≠ d) (h : ¬ [c, d] <:+: a) :
    cut [c, d] (a ++ ([c, d] ++ b)) = some (a, b) := by
  rw [List.cons_append, cut_append_of_pair hcd [] _ h, ← List.cons_append, cut_append_self]
  simp

/-- A pair twice in a row cuts where it first stands. -/
theorem cut_double (hcd : c ≠ d) (h : ¬ [c, d] <:+: a) :
    cut [c, d, c, d] (a ++ ([c, d, c, d] ++ b)) = some (a, b) := by
  rw [List.cons_append, cut_append_of_pair hcd [c, d] _ h, ← List.cons_append, cut_append_self]
  simp

/-- A single pair is passed. -/
theorem cut_double_of_pair (hcd : c ≠ d) (h : ¬ [c, d] <:+: a) (hb : ¬ [c, d] <+: b) :
    cut [c, d, c, d] (a ++ ([c, d] ++ b)) =
      (cut [c, d, c, d] b).map fun p => (a ++ ([c, d] ++ p.1), p.2) := by
  have hfirst : ¬ [c, d, c, d] <+: c :: (d :: b) := by
    simpa [List.cons_prefix_cons] using hb
  have hsecond : ¬ [c, d, c, d] <+: d :: b := by
    rw [List.cons_prefix_cons]
    exact fun hstart => hcd hstart.1
  rw [List.cons_append, cut_append_of_pair hcd [c, d] _ h, List.cons_append, List.nil_append,
    cut_cons_of_not_start hfirst, cut_cons_of_not_start hsecond, Option.map_map,
    Option.map_map]
  rfl

end Pair

end Cut

section Pieces

variable {sep l a b : List α}

theorem pieces_of_not_mem (h : ¬ sep <:+: l) : pieces sep l = [l] := by
  rw [pieces, cut_eq_none_iff.mpr h]

theorem pieces_of_cut (hsep : sep ≠ []) (h : cut sep l = some (a, b)) :
    pieces sep l = a :: pieces sep b := by
  have hlength := congrArg List.length (eq_of_cut h)
  have hpos := List.length_pos_iff.mpr hsep
  simp only [List.length_append] at hlength
  rw [pieces, h]
  exact if_pos (by omega)

theorem pieces_ne_nil : pieces sep l ≠ [] := by
  rw [pieces]
  split
  next => simp
  next =>
    split
    next => simp
    next => simp

/-- The separator stands between the pieces. -/
theorem exists_pieces (hsep : sep ≠ []) (l : List α) :
    ∃ first rest, pieces sep l = first :: rest ∧ l = first ++ rest.flatMap (sep ++ ·) ∧
      (rest = [] ↔ ¬ sep <:+: l) := by
  induction hn : l.length using Nat.strong_induction_on generalizing l with
  | _ n ih =>
    cases hcut : cut sep l with
    | none =>
      have hl := cut_eq_none_iff.mp hcut
      exact ⟨l, [], pieces_of_not_mem hl, by simp, by simp [hl]⟩
    | some q =>
      obtain ⟨before, after⟩ := q
      have hl := eq_of_cut hcut
      have hlength := congrArg List.length hl
      have hpos := List.length_pos_iff.mpr hsep
      simp only [List.length_append] at hlength
      obtain ⟨first, rest, hpieces, hafter, -⟩ := ih after.length (by omega) after rfl
      refine ⟨before, first :: rest, by rw [pieces_of_cut hsep hcut, hpieces], ?_, ?_⟩
      · rw [hl, List.flatMap_cons, hafter]
        simp
      · refine iff_of_false (List.cons_ne_nil _ _) (not_not_intro ?_)
        rw [hl]
        exact ⟨before, after, rfl⟩

/-- No piece holds the separator. -/
theorem not_infix_of_mem_pieces (hsep : sep ≠ []) {p : List α} (h : p ∈ pieces sep l) :
    ¬ sep <:+: p := by
  induction hn : l.length using Nat.strong_induction_on generalizing l with
  | _ n ih =>
    cases hcut : cut sep l with
    | none =>
      have hl := cut_eq_none_iff.mp hcut
      rw [pieces_of_not_mem hl, List.mem_singleton] at h
      rwa [h]
    | some q =>
      obtain ⟨before, after⟩ := q
      have hlength := congrArg List.length (eq_of_cut hcut)
      have hpos := List.length_pos_iff.mpr hsep
      simp only [List.length_append] at hlength
      rw [pieces_of_cut hsep hcut] at h
      rcases List.mem_cons.mp h with rfl | h
      · exact not_infix_of_cut hcut hsep
      · exact ih after.length (by omega) h rfl

end Pieces

section Last

variable {c : α} {a b l : List α}

/-- The list before the last occurrence of an element. -/
def beforeLast (c : α) (l : List α) : List α :=
  (l.reverse.dropWhile fun x => decide (x ≠ c)).tail.reverse

/-- The list after the last occurrence of an element. -/
def afterLast (c : α) (l : List α) : List α :=
  (l.reverse.takeWhile fun x => decide (x ≠ c)).reverse

private theorem all_ne_reverse (h : c ∉ b) : ∀ x ∈ b.reverse, decide (x ≠ c) = true := by
  intro x hx
  rw [decide_eq_true_iff]
  rintro rfl
  exact h (List.mem_reverse.mp hx)

theorem beforeLast_append_cons (h : c ∉ b) : beforeLast c (a ++ c :: b) = a := by
  rw [beforeLast, List.reverse_append, List.reverse_cons, List.append_assoc,
    List.dropWhile_append_of_pos (all_ne_reverse h)]
  simp

theorem afterLast_append_cons (h : c ∉ b) : afterLast c (a ++ c :: b) = b := by
  rw [afterLast, List.reverse_append, List.reverse_cons, List.append_assoc,
    List.takeWhile_append_of_pos (all_ne_reverse h)]
  simp

/-- The last occurrence of an element cuts the list in two. -/
theorem eq_append_last (h : c ∈ l) :
    l = beforeLast c l ++ c :: afterLast c l ∧ c ∉ afterLast c l := by
  obtain ⟨b, a, hl, hb⟩ := List.eq_append_cons_of_mem (List.mem_reverse.mpr h)
  have hsplit : l = a.reverse ++ c :: b.reverse := by
    rw [← List.reverse_reverse l, hl]
    simp
  have hlast : c ∉ b.reverse := fun hc => hb (List.mem_reverse.mp hc)
  rw [hsplit, beforeLast_append_cons hlast, afterLast_append_cons hlast]
  exact ⟨rfl, hlast⟩

/-- What stands before the last occurrence is a list or goes on from it after the element. -/
theorem prefix_iff_beforeLast (h : c ∈ l) :
    a ++ [c] <+: l ↔ beforeLast c l = a ∨ a ++ [c] <+: beforeLast c l := by
  obtain ⟨hl, hlast⟩ := eq_append_last h
  constructor
  · rintro ⟨s, rfl⟩
    rw [List.append_assoc, List.singleton_append]
    by_cases hs : c ∈ s
    · obtain ⟨hsplit, hnot⟩ := eq_append_last hs
      refine .inr ⟨beforeLast c s, ?_⟩
      conv_rhs => rw [hsplit, ← List.cons_append, ← List.append_assoc]
      rw [beforeLast_append_cons hnot, List.append_assoc, List.singleton_append]
    · exact .inl (beforeLast_append_cons hs)
  · rintro (ha | ha)
    · rw [hl, ha]
      exact ⟨afterLast c l, by simp⟩
    · rw [hl]
      exact ha.trans (List.prefix_append _ _)

end Last

section Encode

variable {f : α → List β} {sep l : List α}

/-- The elements of the separator stand for themselves in the code. -/
structure Marks (f : α → List β) (sep : List α) : Prop where
  nonempty : ∀ c, f c ≠ []
  single : ∀ c ∈ sep, ∃ b, f c = [b] ∧ ∀ d, b ∈ f d → d = c

omit [DecidableEq α] [DecidableEq β] in
theorem Marks.tail {c : α} (h : Marks f (c :: sep)) : Marks f sep :=
  ⟨h.nonempty, fun d hd => h.single d (List.mem_cons_of_mem _ hd)⟩

omit [DecidableEq α] [DecidableEq β] in
/-- A text begins with the separator if its code does and the separator does not run over its
end. -/
theorem Marks.prefix_of_encode (h : Marks f sep) {rest : List β}
    (hend : sep.length ≤ l.length ∨ rest = []) (hp : sep.flatMap f <+: l.flatMap f ++ rest) :
    sep <+: l := by
  induction sep generalizing l with
  | nil => exact List.nil_prefix
  | cons c sep ih =>
    obtain ⟨b, hb, honly⟩ := h.single c List.mem_cons_self
    rw [List.flatMap_cons, hb, List.singleton_append] at hp
    cases l with
    | nil =>
      rcases hend with hlength | rfl
      · simp at hlength
      · simp at hp
    | cons d l =>
      rw [List.flatMap_cons] at hp
      obtain ⟨b', bs, hd⟩ := List.exists_cons_of_ne_nil (h.nonempty d)
      rw [hd, List.append_assoc, List.cons_append] at hp
      obtain ⟨rfl, hrest⟩ := List.cons_prefix_cons.mp hp
      cases honly d (by rw [hd]; exact List.mem_cons_self)
      rw [hb] at hd
      cases hd
      rw [List.nil_append] at hrest
      exact List.cons_prefix_cons.mpr ⟨rfl, ih h.tail (by simpa using hend) hrest⟩

/-- The code of a text is cut where the text is, whatever follows it. -/
theorem Marks.cut_encode (h : Marks f sep) (hsep : sep ≠ []) {a b : List α} (rest : List β)
    (hcut : cut sep l = some (a, b)) :
    cut (sep.flatMap f) (l.flatMap f ++ rest) = some (a.flatMap f, b.flatMap f ++ rest) := by
  induction l generalizing a with
  | nil =>
    rw [cut, if_neg hsep] at hcut
    cases hcut
  | cons x l ih =>
    have hlength : sep.length ≤ (x :: l).length := by
      rw [eq_of_cut hcut]
      simp only [List.length_append]
      omega
    rw [cut] at hcut
    split at hcut
    next hstart =>
      cases hcut
      obtain ⟨back, hback⟩ := hstart
      rw [← hback, List.drop_left, List.flatMap_append, List.append_assoc]
      exact cut_append_self _ _
    next hstart =>
      obtain ⟨⟨front, back⟩, hl, he⟩ := Option.map_eq_some_iff.mp hcut
      cases he
      obtain ⟨c, sep', rfl⟩ := List.exists_cons_of_ne_nil hsep
      obtain ⟨m, hm, honly⟩ := h.single c List.mem_cons_self
      have hfirst : (c :: sep').flatMap f = m :: sep'.flatMap f := by
        rw [List.flatMap_cons, hm, List.singleton_append]
      have hnot : ¬ (c :: sep').flatMap f <+: (x :: l).flatMap f ++ rest :=
        fun hp => hstart (h.prefix_of_encode (.inl hlength) hp)
      by_cases hx : x = c
      · subst hx
        have hx : (x :: l).flatMap f ++ rest = m :: (l.flatMap f ++ rest) := by
          rw [List.flatMap_cons, hm]
          rfl
        rw [hx] at hnot ⊢
        rw [cut_cons_of_not_start hnot, ih hl, List.flatMap_cons, hm]
        rfl
      · have hcode : (x :: l).flatMap f ++ rest = f x ++ (l.flatMap f ++ rest) := by
          rw [List.flatMap_cons, List.append_assoc]
        rw [hcode, hfirst, cut_append_of_not_mem fun hmem => hx (honly x hmem), ← hfirst,
          ih hl, List.flatMap_cons]
        rfl

/-- The code of a text that does not hold the separator does not hold it. -/
theorem Marks.cut_encode_none (h : Marks f sep) (hsep : sep ≠ []) (hcut : cut sep l = none) :
    cut (sep.flatMap f) (l.flatMap f) = none := by
  obtain ⟨c, sep', rfl⟩ := List.exists_cons_of_ne_nil hsep
  obtain ⟨m, hm, honly⟩ := h.single c List.mem_cons_self
  have hfirst : (c :: sep').flatMap f = m :: sep'.flatMap f := by
    rw [List.flatMap_cons, hm, List.singleton_append]
  induction l with
  | nil =>
    rw [hfirst]
    rfl
  | cons x l ih =>
    rw [cut] at hcut
    split at hcut
    next => cases hcut
    next hstart =>
      have hl := Option.map_eq_none_iff.mp hcut
      by_cases hx : x = c
      · subst hx
        have hnot : ¬ (x :: sep').flatMap f <+: (x :: l).flatMap f := fun hp =>
          hstart (h.prefix_of_encode (.inr rfl) (by rwa [List.append_nil]))
        have hcode : (x :: l).flatMap f = m :: l.flatMap f := by
          rw [List.flatMap_cons, hm, List.singleton_append]
        rw [hcode] at hnot ⊢
        rw [cut_cons_of_not_start hnot, ih hl]
        rfl
      · rw [hfirst, List.flatMap_cons, cut_append_of_not_mem fun hmem => hx (honly x hmem),
          ← hfirst, ih hl]
        rfl

/-- The code of a text holds the separator if and only if the text does. -/
theorem Marks.infix_encode_iff (h : Marks f sep) (hsep : sep ≠ []) :
    sep.flatMap f <:+: l.flatMap f ↔ sep <:+: l := by
  constructor
  · intro hi
    by_contra hnot
    exact cut_eq_none_iff.mp (h.cut_encode_none hsep (cut_eq_none_iff.mpr hnot)) hi
  · rintro ⟨front, back, rfl⟩
    exact ⟨front.flatMap f, back.flatMap f, by simp⟩

/-- The pieces of a code are the codes of the pieces. -/
theorem Marks.pieces_encode (h : Marks f sep) (hsep : sep ≠ []) :
    pieces (sep.flatMap f) (l.flatMap f) = (pieces sep l).map fun p => p.flatMap f := by
  have hcode : sep.flatMap f ≠ [] := by
    obtain ⟨c, sep', rfl⟩ := List.exists_cons_of_ne_nil hsep
    rw [List.flatMap_cons]
    exact List.append_ne_nil_of_left_ne_nil (h.nonempty c) _
  induction hn : l.length using Nat.strong_induction_on generalizing l with
  | _ n ih =>
    cases hcut : cut sep l with
    | none =>
      rw [pieces_of_not_mem (cut_eq_none_iff.mp (h.cut_encode_none hsep hcut)),
        pieces_of_not_mem (cut_eq_none_iff.mp hcut), List.map_singleton]
    | some q =>
      obtain ⟨before, after⟩ := q
      have hlength := congrArg List.length (eq_of_cut hcut)
      have hpos := List.length_pos_iff.mpr hsep
      simp only [List.length_append] at hlength
      have hencoded := h.cut_encode hsep [] hcut
      rw [List.append_nil, List.append_nil] at hencoded
      rw [pieces_of_cut hcode hencoded, pieces_of_cut hsep hcut, List.map_cons,
        ih after.length (by omega) rfl]

end Encode

end PlatformSpec.Base.Split
