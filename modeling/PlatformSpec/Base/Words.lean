import Mathlib.Data.List.Forall2
import Mathlib.Data.List.TakeWhile
import PlatformSpec.Base.Text

/-!
# The words of a text

A text is read as its letters, each with a mark for whether a word begins there. Chunks keep the
text when they have its letters and begin a word wherever it does. Nothing here mentions a
particular system.
-/

namespace PlatformSpec.Base

variable {α : Type} (p : α → Bool)

/-- The letters, each with whether a word begins there; the mark says whether one would begin with
the first letter. -/
def marksFrom : Bool → List α → List (α × Bool)
  | _, [] => []
  | mark, a :: l => if p a then marksFrom true l else (a, mark) :: marksFrom false l

/-- Whether a word would begin after a text. -/
def markAfter : Bool → List α → Bool
  | mark, [] => mark
  | _, a :: l => markAfter (p a) l

/-- The letters of a text with the beginnings of its words. -/
def marks (l : List α) : List (α × Bool) := marksFrom p true l

/-- The same letter, with a word beginning where one did. -/
def Refines (x y : α × Bool) : Prop := x.1 = y.1 ∧ (x.2 = true → y.2 = true)

/-- The chunks have the letters of the text in order, and letters of two words of the text are in
two words of the chunks. -/
def Keeps (text : List α) (chunks : List (List α)) : Prop :=
  List.Forall₂ Refines (marks p text) (chunks.flatMap (marks p))

variable {p} {l l' w : List α} {mark : Bool}

theorem marksFrom_append (mark : Bool) (l l' : List α) :
    marksFrom p mark (l ++ l') = marksFrom p mark l ++ marksFrom p (markAfter p mark l) l' := by
  induction l generalizing mark with
  | nil => rfl
  | cons a l ih =>
    rw [List.cons_append, marksFrom, marksFrom, markAfter]
    cases ha : p a with
    | true => exact ih true
    | false => exact congrArg ((a, mark) :: ·) (ih false)

theorem markAfter_append (mark : Bool) (l l' : List α) :
    markAfter p mark (l ++ l') = markAfter p (markAfter p mark l) l' := by
  induction l generalizing mark with
  | nil => rfl
  | cons a l ih => exact ih (p a)

/-- The letters are the elements that are no blanks. -/
theorem map_fst_marksFrom (mark : Bool) (l : List α) :
    (marksFrom p mark l).map Prod.fst = l.filter fun a => !p a := by
  induction l generalizing mark with
  | nil => rfl
  | cons a l ih =>
    rw [marksFrom]
    cases ha : p a with
    | true => rw [List.filter_cons_of_neg (by simp [ha])]; exact ih true
    | false =>
      rw [List.filter_cons_of_pos (by simp [ha])]
      exact congrArg (a :: ·) (ih false)

theorem length_marksFrom (mark : Bool) (l : List α) :
    (marksFrom p mark l).length = (l.filter fun a => !p a).length := by
  rw [← map_fst_marksFrom mark, List.length_map]

theorem marksFrom_of_all (h : ∀ a ∈ l, p a = true) (mark : Bool) : marksFrom p mark l = [] := by
  rw [← List.map_eq_nil_iff (f := Prod.fst), map_fst_marksFrom, List.filter_eq_nil_iff]
  intro a ha
  simp [h a ha]

theorem markAfter_of_all (h : ∀ a ∈ l, p a = true) (mark : Bool) :
    markAfter p mark l = (mark || decide (l ≠ [])) := by
  induction l generalizing mark with
  | nil => simp [markAfter]
  | cons a l ih =>
    obtain ⟨ha, hl⟩ := List.forall_mem_cons.mp h
    rw [markAfter, ha, ih hl]
    simp

/-- Only the last element says whether a word would begin. -/
theorem markAfter_eq (hl : l ≠ []) (mark : Bool) : markAfter p mark l = l.getLast?.all p := by
  rcases List.eq_nil_or_concat l with rfl | ⟨front, a, rfl⟩
  · exact absurd rfl hl
  · rw [List.concat_eq_append, markAfter_append]
    simp [markAfter]

/-- Blanks around a text have no marks. -/
theorem marks_append_blank (hw : ∀ a ∈ w, p a = true) (l : List α) :
    marks p (l ++ w) = marks p l := by
  rw [marks, marks, marksFrom_append, marksFrom_of_all hw, List.append_nil]

theorem marks_blank_append (hw : ∀ a ∈ w, p a = true) (l : List α) :
    marks p (w ++ l) = marks p l := by
  rw [marks, marks, marksFrom_append, marksFrom_of_all hw, List.nil_append, markAfter_of_all hw,
    Bool.true_or]

private theorem exists_stripRight (p : α → Bool) (l : List α) :
    ∃ w, (∀ a ∈ w, p a = true) ∧ l = stripRight p l ++ w := by
  refine ⟨(l.reverse.takeWhile p).reverse, fun a ha => ?_, ?_⟩
  · exact List.mem_takeWhile_imp (List.mem_reverse.mp ha)
  · rw [stripRight, ← List.reverse_append, List.takeWhile_append_dropWhile, List.reverse_reverse]

theorem marks_stripBoth (l : List α) : marks p (stripBoth p l) = marks p l := by
  obtain ⟨w, hw, hl⟩ := exists_stripRight p (l.dropWhile p)
  calc marks p (stripBoth p l)
      = marks p (stripBoth p l ++ w) := (marks_append_blank hw _).symm
    _ = marks p (l.dropWhile p) := by rw [stripBoth, ← hl]
    _ = marks p (l.takeWhile p ++ l.dropWhile p) :=
        (marks_blank_append (fun a ha => List.mem_takeWhile_imp ha) _).symm
    _ = marks p l := by rw [List.takeWhile_append_dropWhile]

theorem Refines.rfl {x : α × Bool} : Refines x x := ⟨Eq.refl _, id⟩

theorem forall₂_refines_rfl (ms : List (α × Bool)) : List.Forall₂ Refines ms ms := by
  induction ms with
  | nil => exact .nil
  | cons m ms ih => exact .cons .rfl ih

theorem forall₂_append_iff {β γ : Type} {R : β → γ → Prop} {a c : List β} {b d : List γ}
    (h : a.length = b.length) :
    List.Forall₂ R (a ++ c) (b ++ d) ↔ List.Forall₂ R a b ∧ List.Forall₂ R c d := by
  induction a generalizing b with
  | nil =>
    rw [List.length_eq_zero_iff.mp h.symm]
    simp
  | cons x a ih =>
    cases b with
    | nil => simp at h
    | cons y b =>
      rw [List.cons_append, List.cons_append, List.forall₂_cons, List.forall₂_cons,
        ih (Nat.succ.inj h), and_assoc]

/-- A text read from two marks differs in its first letter at most. -/
theorem refines_marksFrom_iff (hl : l ≠ []) {mark' : Bool} :
    List.Forall₂ Refines (marksFrom p mark l) (marksFrom p mark' l) ↔
      (mark = true → mark' = true ∨ l.head?.all p = true) := by
  cases l with
  | nil => exact absurd rfl hl
  | cons a l =>
    rw [marksFrom, marksFrom]
    cases ha : p a with
    | true =>
      refine iff_of_true (forall₂_refines_rfl _) ?_
      simp [ha]
    | false =>
      rw [if_neg Bool.false_ne_true, if_neg Bool.false_ne_true, List.forall₂_cons,
        and_iff_left (forall₂_refines_rfl _)]
      simp [ha, Refines]

private theorem head_marks (chunks : List (List α)) :
    ∀ m ∈ (chunks.flatMap (marks p)).head?, m.2 = true := by
  have hmarks (l : List α) : ∀ m ∈ (marks p l).head?, m.2 = true := by
    induction l with
    | nil => intro m hm; cases hm
    | cons a l ih =>
      rw [marks, marksFrom]
      cases ha : p a with
      | true => exact ih
      | false =>
        intro m hm
        cases hm
        rfl
  induction chunks with
  | nil => intro m hm; cases hm
  | cons chunk chunks ih =>
    rw [List.flatMap_cons, List.head?_append]
    intro m hm
    rcases Option.or_eq_some_iff.mp hm with hm | ⟨-, hm⟩
    · exact hmarks chunk m hm
    · exact ih m hm

theorem refines_from_iff (mark : Bool) (l : List α) {ms : List (α × Bool)}
    (hms : ∀ m ∈ ms.head?, m.2 = true) :
    List.Forall₂ Refines (marksFrom p mark l) ms ↔ List.Forall₂ Refines (marks p l) ms := by
  cases l with
  | nil => rfl
  | cons a l =>
    rw [marks, marksFrom, marksFrom]
    cases ha : p a with
    | true => rfl
    | false =>
      cases ms with
      | nil => simp
      | cons m ms =>
        have hm : m.2 = true := hms m rfl
        simp [Refines, hm]

/-- The letters of a text. -/
def letters (p : α → Bool) (l : List α) : List α := l.filter fun a => !p a

theorem letters_append (l l' : List α) : letters p (l ++ l') = letters p l ++ letters p l' :=
  List.filter_append ..

theorem map_fst_marks (l : List α) : (marks p l).map Prod.fst = letters p l :=
  map_fst_marksFrom true l

theorem map_fst_flatMap_marks (chunks : List (List α)) :
    (chunks.flatMap (marks p)).map Prod.fst = letters p chunks.flatten := by
  induction chunks with
  | nil => rfl
  | cons chunk chunks ih =>
    rw [List.flatMap_cons, List.map_append, ih, map_fst_marks, List.flatten_cons, letters_append]

variable {chunks : List (List α)} {text : List α}

/-- Chunks that keep a text have its letters. -/
theorem Keeps.letters_eq (h : Keeps p text chunks) : letters p text = letters p chunks.flatten := by
  rw [← map_fst_marks, ← map_fst_flatMap_marks]
  unfold Keeps at h
  generalize marks p text = ms at h
  generalize chunks.flatMap (marks p) = ms' at h
  induction h with
  | nil => rfl
  | cons hm _ ih => rw [List.map_cons, List.map_cons, hm.1, ih]

/-- Two texts in a row are kept when each of them is. -/
theorem keeps_append_iff {a b : List α} {as bs : List (List α)}
    (h : letters p a = letters p as.flatten) :
    Keeps p (a ++ b) (as ++ bs) ↔ Keeps p a as ∧ Keeps p b bs := by
  have hlength : (marks p a).length = (as.flatMap (marks p)).length := by
    rw [← List.length_map (f := Prod.fst), map_fst_marks, h, ← map_fst_flatMap_marks,
      List.length_map]
  rw [Keeps, marks, marksFrom_append, List.flatMap_append, ← marks, forall₂_append_iff hlength,
    refines_from_iff _ b (head_marks bs)]
  rfl

theorem keeps_blank_append_iff (hw : ∀ a ∈ w, p a = true)
    : Keeps p (w ++ text) chunks ↔ Keeps p text chunks := by
  rw [Keeps, marks_blank_append hw, Keeps]

theorem keeps_append_blank_iff (hw : ∀ a ∈ w, p a = true)
    : Keeps p (text ++ w) chunks ↔ Keeps p text chunks := by
  rw [Keeps, marks_append_blank hw, Keeps]

theorem keeps_self (text : List α) : Keeps p text [text] := by
  rw [Keeps, List.flatMap_singleton]
  exact forall₂_refines_rfl _

section Laid

/-- Pieces, each with the blanks before it, one after the other. -/
def lay (items : List (List α × List α)) : List α := items.flatMap fun i => i.1 ++ i.2

/-- No two letters that blanks stand between meet where two pieces are put together. -/
def Apart (p : α → Bool) (a b : List α × List α) : Prop :=
  b.1 = [] ∨ a.2.getLast?.all p = true ∨ b.2.head?.all p = true

/-- Pieces that are not empty, with blanks before them. -/
def Laid (p : α → Bool) (items : List (List α × List α)) : Prop :=
  ∀ i ∈ items, (∀ a ∈ i.1, p a = true) ∧ i.2 ≠ []

theorem lay_append (items items' : List (List α × List α)) :
    lay (items ++ items') = lay items ++ lay items' := List.flatMap_append

variable {items : List (List α × List α)}

theorem letters_lay (h : Laid p items) :
    letters p (lay items) = letters p (items.map Prod.snd).flatten := by
  induction items with
  | nil => rfl
  | cons i items ih =>
    obtain ⟨⟨hgap, -⟩, hrest⟩ := List.forall_mem_cons.mp h
    have hblank : letters p i.1 = [] := by
      rw [letters, List.filter_eq_nil_iff]
      intro a ha
      simp [hgap a ha]
    rw [← List.singleton_append, lay_append, letters_append, ih hrest, List.map_append,
      List.flatten_append, letters_append]
    simp [lay, letters_append, hblank]

theorem refines_lay_iff (h : Laid p items) {i : List α × List α} (hi : i.2 ≠ []) :
    List.Forall₂ Refines (marksFrom p (i.2.getLast?.all p) (lay items))
        (marksFrom p (i.2.getLast?.all p) (items.map Prod.snd).flatten) ↔
      (i :: items).IsChain (Apart p) := by
  induction items generalizing i with
  | nil => simp [lay, marksFrom]
  | cons j items ih =>
    obtain ⟨⟨hgap, hj⟩, hrest⟩ := List.forall_mem_cons.mp h
    have hlay : lay (j :: items) = j.1 ++ j.2 ++ lay items := rfl
    have hflat : ((j :: items).map Prod.snd).flatten = j.2 ++ (items.map Prod.snd).flatten := rfl
    rw [hlay, hflat, List.append_assoc, marksFrom_append, marksFrom_of_all hgap, List.nil_append,
      marksFrom_append, marksFrom_append, markAfter_eq hj, markAfter_eq hj,
      forall₂_append_iff (by rw [length_marksFrom, length_marksFrom]), ih hrest hj,
      refines_marksFrom_iff hj, List.isChain_cons_cons, markAfter_of_all hgap]
    refine and_congr_left fun _ => ?_
    unfold Apart
    cases hlast : i.2.getLast?.all p <;> cases hfirst : j.2.head?.all p <;>
      by_cases he : j.1 = [] <;> simp [he]

/-- Pieces put together keep what they were laid out as exactly if they are apart. -/
theorem keeps_lay_iff (h : Laid p items) :
    Keeps p (lay items) [(items.map Prod.snd).flatten] ↔ items.IsChain (Apart p) := by
  rw [Keeps, List.flatMap_singleton]
  cases items with
  | nil => simp [lay, marks, marksFrom]
  | cons i items =>
    obtain ⟨⟨hgap, hi⟩, hrest⟩ := List.forall_mem_cons.mp h
    have hlay : lay (i :: items) = i.1 ++ (i.2 ++ lay items) := by
      rw [← List.append_assoc]
      rfl
    have hflat : ((i :: items).map Prod.snd).flatten = i.2 ++ (items.map Prod.snd).flatten := rfl
    rw [hlay, marks_blank_append hgap, hflat, marks, marks, marksFrom_append, marksFrom_append,
      forall₂_append_iff rfl, markAfter_eq hi, refines_lay_iff hrest hi]
    exact and_iff_right (forall₂_refines_rfl _)

end Laid

end PlatformSpec.Base
