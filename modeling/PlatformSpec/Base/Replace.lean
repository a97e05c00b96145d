import PlatformSpec.Base.Scan
import PlatformSpec.Base.Split

/-!
# Replacing a text in a text

All occurrences of a text are replaced from left to right, as `String.replace` does. Where the text
does not overlap itself each occurrence is replaced on its own. Nothing here mentions a particular
system.
-/

namespace PlatformSpec.Base.Replace

open Scan Split

universe u v

variable {α : Type u} [DecidableEq α]

/-- What is put together with a separator before each but the first. -/
def join (sep first : List α) (rest : List (List α)) : List α :=
  first ++ rest.flatMap (sep ++ ·)

/-- The occurrences of a text, which do not overlap, are replaced. -/
def replaceAll (old new text : List α) : List α :=
  match pieces old text with
  | [] => []
  | first :: rest => join new first rest

variable {old new text a b : List α}

theorem replaceAll_of_absent (h : ¬ old <:+: text) : replaceAll old new text = text := by
  rw [replaceAll, pieces_of_not_mem h]
  exact List.append_nil _

theorem replaceAll_of_cut (hold : old ≠ []) (h : cut old text = some (a, b)) :
    replaceAll old new text = a ++ new ++ replaceAll old new b := by
  obtain ⟨first, rest, hpieces, -, -⟩ := exists_pieces hold b
  rw [replaceAll, pieces_of_cut hold h, replaceAll, hpieces]
  simp only [join, List.flatMap_cons, List.append_assoc]

theorem replaceAll_append_self (hold : old ≠ []) :
    replaceAll old new (old ++ text) = new ++ replaceAll old new text := by
  rw [replaceAll_of_cut hold (cut_append_self old text), List.nil_append]

theorem replaceAll_whole (hold : old ≠ []) : replaceAll old new old = new := by
  have hnil : replaceAll old new [] = [] := by
    apply replaceAll_of_absent
    rw [List.infix_nil]
    exact hold
  have hself := @replaceAll_append_self α _ old new [] hold
  rw [hnil, List.append_nil, List.append_nil] at hself
  exact hself

/-- An element at which the text does not begin is passed. -/
theorem replaceAll_cons {x : α} (hold : old ≠ []) (h : ¬ old <+: x :: text) :
    replaceAll old new (x :: text) = x :: replaceAll old new text := by
  cases hcut : cut old text with
  | none =>
    have hnot := cut_eq_none_iff.mp hcut
    rw [replaceAll_of_absent hnot, replaceAll_of_absent]
    rw [List.infix_cons_iff, not_or]
    exact ⟨h, hnot⟩
  | some p =>
    have hnext : cut old (x :: text) = some (x :: p.1, p.2) := by
      rw [cut_cons_of_not_start h, hcut]
      rfl
    rw [replaceAll_of_cut hold hnext, replaceAll_of_cut hold hcut]
    rfl

/-- Elements are passed as long as the text begins at none of them. -/
theorem replaceAll_append (hold : old ≠ [])
    (h : ∀ front back, a = front ++ back → back ≠ [] → ¬ old <+: back ++ text) :
    replaceAll old new (a ++ text) = a ++ replaceAll old new text := by
  induction a with
  | nil => rfl
  | cons x a ih =>
    have hx : ¬ old <+: x :: (a ++ text) := h [] (x :: a) rfl (List.cons_ne_nil _ _)
    rw [List.cons_append, replaceAll_cons hold hx, ih]
    · rfl
    · intro front back he hback
      exact h (x :: front) back (by rw [he]; rfl) hback

/-- Before an element of none of the occurrences, a text is replaced by itself. -/
theorem replaceAll_append_cons {c : α} (hold : old ≠ []) (hc : c ∉ old) (rest : List α) :
    replaceAll old new (text ++ c :: rest) =
      replaceAll old new text ++ replaceAll old new (c :: rest) := by
  induction h : text.length using Nat.strong_induction_on generalizing text with
  | _ n ih =>
    cases hcut : cut old text with
    | some p =>
      have htext := congrArg List.length (eq_of_cut hcut)
      have hpos := List.length_pos_iff.mpr hold
      simp only [List.length_append] at htext
      rw [replaceAll_of_cut hold (cut_append hcut (c :: rest)), replaceAll_of_cut hold hcut,
        ih p.2.length (by omega) rfl, List.append_assoc, List.append_assoc]
      simp only [List.append_assoc]
    | none =>
      have habsent := cut_eq_none_iff.mp hcut
      rw [replaceAll_of_absent habsent]
      apply replaceAll_append hold
      rintro front back rfl hback hstart
      obtain ⟨more, hmore⟩ := hstart
      rcases Nat.lt_or_ge back.length old.length with hlength | hlength
      · apply hc
        have hget := congrArg (·[back.length]?) hmore
        rw [List.getElem?_append_left hlength, List.getElem?_append_right (Nat.le_refl _),
          Nat.sub_self] at hget
        exact List.mem_of_getElem? hget
      · apply habsent
        have hprefix : old <+: back := List.prefix_of_prefix_length_le ⟨more, hmore⟩
          (List.prefix_append back _) hlength
        exact hprefix.isInfix.trans (List.suffix_append front back).isInfix

private theorem exists_length_replaceAll (hold : old ≠ []) (new text : List α) :
    ∃ n, (replaceAll old new text).length + n * old.length = text.length + n * new.length := by
  induction h : text.length using Nat.strong_induction_on generalizing text with
  | _ n ih =>
    cases hcut : cut old text with
    | none =>
      refine ⟨0, ?_⟩
      rw [replaceAll_of_absent (cut_eq_none_iff.mp hcut), h]
      omega
    | some p =>
      obtain ⟨a, b⟩ := p
      have htext := congrArg List.length (eq_of_cut hcut)
      have hpos := List.length_pos_iff.mpr hold
      simp only [List.length_append] at htext
      obtain ⟨k, hk⟩ := ih b.length (by omega) b rfl
      refine ⟨k + 1, ?_⟩
      rw [replaceAll_of_cut hold hcut]
      simp only [List.length_append, Nat.add_mul, Nat.one_mul]
      omega

theorem replaceAll_self (hold : old ≠ []) (text : List α) : replaceAll old old text = text := by
  induction h : text.length using Nat.strong_induction_on generalizing text with
  | _ n ih =>
    cases hcut : cut old text with
    | none => exact replaceAll_of_absent (cut_eq_none_iff.mp hcut)
    | some p =>
      obtain ⟨a, b⟩ := p
      have htext := congrArg List.length (eq_of_cut hcut)
      have hpos := List.length_pos_iff.mpr hold
      simp only [List.length_append] at htext
      rw [replaceAll_of_cut hold hcut, ih b.length (by omega) b rfl]
      exact (eq_of_cut hcut).symm

/-- A text stays as it is if nothing is replaced, or everything by itself. -/
theorem replaceAll_eq_iff (hold : old ≠ []) :
    replaceAll old new text = text ↔ ¬ old <:+: text ∨ new = old := by
  constructor
  · intro heq
    cases hcut : cut old text with
    | none => exact .inl (cut_eq_none_iff.mp hcut)
    | some p =>
      obtain ⟨a, b⟩ := p
      right
      rw [replaceAll_of_cut hold hcut] at heq
      have htail : new ++ replaceAll old new b = old ++ b := by
        apply (List.append_right_inj a).mp
        rw [← List.append_assoc, heq, eq_of_cut hcut, List.append_assoc]
      obtain ⟨n, hn⟩ := exists_length_replaceAll hold new b
      have hlength := congrArg List.length htail
      simp only [List.length_append] at hlength
      have hsame : new.length = old.length := by
        have hmul : (n + 1) * old.length = (n + 1) * new.length := by
          rw [Nat.add_mul, Nat.add_mul]
          omega
        exact (Nat.eq_of_mul_eq_mul_left n.succ_pos hmul).symm
      exact (List.append_inj htail hsame).1
  · rintro (h | rfl)
    · exact replaceAll_of_absent h
    · exact replaceAll_self hold text

/-! ## Marks -/

/-- Marks of which none begins within another one, or where another one begins. -/
structure Marks (ι : Type v) (α : Type u) where
  mark : ι → List α
  mark_ne_nil : ∀ i, mark i ≠ []
  inside : ∀ {i j k rest rest'}, 0 < k → k < (mark i).length →
    (mark i).drop k ++ rest ≠ mark j ++ rest'
  start : ∀ {i j rest rest'}, mark i ++ rest = mark j ++ rest' → i = j

namespace Marks

variable {ι : Type v} (m : Marks ι α)

omit [DecidableEq α] in
private theorem twice_inside {c : α} {body rest rest' : List α} (hne : body ≠ []) (hnot : c ∉ body)
    {k : Nat} (hpos : 0 < k) (hlen : k < (c :: c :: body).length) :
    (c :: c :: body).drop k ++ rest ≠ c :: c :: rest' := by
  intro he
  cases k with
  | zero => exact absurd hpos (Nat.lt_irrefl 0)
  | succ k =>
    rw [List.drop_succ_cons] at he
    cases k with
    | zero =>
      cases body with
      | nil => exact hne rfl
      | cons x body =>
        have hx := (List.cons.inj (List.cons.inj he).2).1
        exact hnot (hx ▸ List.mem_cons_self)
    | succ k =>
      rw [List.drop_succ_cons] at he
      cases htail : body.drop k with
      | nil =>
        have hall := List.drop_eq_nil_iff.mp htail
        simp only [List.length_cons] at hlen
        omega
      | cons x tail =>
        rw [htail, List.cons_append] at he
        have hx := (List.cons.inj he).1
        apply hnot
        rw [← hx]
        apply List.mem_of_mem_drop (i := k)
        rw [htail]
        exact List.mem_cons_self

/-- Marks that begin with a letter twice, which does not stand in the rest of a mark. -/
def ofTwice (c : α) (body : ι → List α) (hne : ∀ i, body i ≠ []) (hnot : ∀ i, c ∉ body i)
    (hstart : ∀ {i j rest rest'}, body i ++ rest = body j ++ rest' → i = j) : Marks ι α where
  mark i := c :: c :: body i
  mark_ne_nil _ := List.cons_ne_nil _ _
  inside := twice_inside (hne _) (hnot _)
  start he := hstart (List.cons.inj (List.cons.inj he).2).2

/-- One of the marks that begins the text, with its length. -/
def find (marks : List ι) (text : List α) : Option (ι × Nat) :=
  (marks.find? fun i => m.mark i <+: text).map fun i => (i, (m.mark i).length)

/-- All marks of a list are replaced at once. -/
def substituteAll (marks : List ι) (new : ι → List α) : List α → List α :=
  substitute (m.find marks) fun found => new found.1

variable {m} {marks done : List ι} {new : ι → List α} {tokens : List (α ⊕ ι × List α)} {i : ι}

theorem eq_mark_of_mem_scan {text block : List α}
    (h : .inr (i, block) ∈ scan (m.find marks) 0 text) : i ∈ marks ∧ block = m.mark i := by
  obtain ⟨front, x, rest, n, rfl, hfind, rfl⟩ := found_of_mem_scan h
  obtain ⟨j, hj, he⟩ := Option.map_eq_some_iff.mp hfind
  obtain ⟨rfl, rfl⟩ := Prod.mk.inj he
  refine ⟨List.mem_of_find?_eq_some hj, ?_⟩
  have hstart := List.find?_some hj
  rw [decide_eq_true_eq] at hstart
  obtain ⟨rest', hrest⟩ := hstart
  cases hmark : m.mark j with
  | nil => exact absurd hmark (m.mark_ne_nil j)
  | cons y mark =>
    rw [hmark, List.cons_append] at hrest
    obtain ⟨rfl, rfl⟩ := List.cons.inj hrest
    simp

omit [DecidableEq α] in
theorem prefix_append_iff {l front back : List α} :
    l <+: front ++ back ↔ l.take front.length <+: front ∧ l.drop front.length <+: back := by
  induction front generalizing l with
  | nil => simp
  | cons x front ih =>
    cases l with
    | nil => simp
    | cons y l => simp [List.cons_prefix_cons, ih, and_assoc]

variable [DecidableEq ι]

/-- What stands for a mark when those of a list have been replaced. -/
private def current (new : ι → List α) (done : List ι) (found : ι × List α) : List α :=
  if found.1 ∈ done then new found.1 else found.2

/-- The text when the marks of a list have been replaced. -/
private def textAfter (new : ι → List α) (tokens : List (α ⊕ ι × List α)) (done : List ι) :
    List α :=
  tokens.flatMap (Sum.elim ([·]) (current new done))

/-- The text when all marks have been replaced. -/
private def textFinal (new : ι → List α) (tokens : List (α ⊕ ι × List α)) : List α :=
  tokens.flatMap (Sum.elim ([·]) fun found => new found.1)

omit [DecidableEq α] in
private theorem textAfter_cons (token : α ⊕ ι × List α) :
    textAfter new (token :: tokens) done =
      Sum.elim ([·]) (current new done) token ++ textAfter new tokens done :=
  List.flatMap_cons

omit [DecidableEq α] [DecidableEq ι] in
private theorem textFinal_cons (token : α ⊕ ι × List α) :
    textFinal new (token :: tokens) =
      Sum.elim ([·]) (fun found => new found.1) token ++ textFinal new tokens :=
  List.flatMap_cons

omit [DecidableEq α] [DecidableEq ι] in
theorem not_starts_in_other {j : ι} (hne : i ≠ j) (text front back : List α)
    (he : m.mark j = front ++ back) (hback : back ≠ []) : ¬ m.mark i <+: back ++ text := by
  intro hstart
  obtain ⟨rest, hstart⟩ := hstart
  cases front with
  | nil =>
    rw [List.nil_append] at he
    rw [← he] at hstart
    exact hne (m.start hstart)
  | cons x front =>
    have hdrop : back = (m.mark j).drop (front.length + 1) := by
      rw [he]
      exact List.drop_left.symm
    have hlength := congrArg List.length he
    have hpos := List.length_pos_iff.mpr hback
    simp only [List.length_append, List.length_cons] at hlength
    rw [hdrop] at hstart
    exact m.inside (Nat.succ_pos _) (by omega) hstart.symm

omit [DecidableEq α] in
private theorem tail_prefix_textFinal
    (hblock : ∀ {j block}, .inr (j, block) ∈ tokens → block = m.mark j) {k : Nat} (hk : 0 < k)
    (h : (m.mark i).drop k <+: textAfter new tokens done) :
    (m.mark i).drop k <+: textFinal new tokens := by
  induction tokens generalizing k with
  | nil => exact h
  | cons token tokens ih =>
    have ih := fun {k} => @ih (fun hmem => hblock (List.mem_cons_of_mem _ hmem)) k
    have hsame : ∀ text : List α, (m.mark i).drop k <+: text ++ textAfter new tokens done →
        (m.mark i).drop k <+: text ++ textFinal new tokens := by
      intro text hbegins
      rw [prefix_append_iff, List.drop_drop] at hbegins ⊢
      exact ⟨hbegins.1, ih (by omega) hbegins.2⟩
    rw [textAfter_cons] at h
    rw [textFinal_cons]
    cases token with
    | inl x => exact hsame [x] h
    | inr found =>
      obtain ⟨j, block⟩ := found
      by_cases hj : j ∈ done
      · rw [Sum.elim_inr, current, if_pos hj] at h
        exact hsame _ h
      · -- A mark that is still to be replaced does not begin in one that has begun.
        rw [Sum.elim_inr, current, if_neg hj, hblock List.mem_cons_self] at h
        by_cases hlen : k < (m.mark i).length
        · obtain ⟨rest, hrest⟩ := h
          exact absurd hrest (m.inside hk hlen)
        · rw [List.drop_eq_nil_of_le (by omega)]
          exact List.nil_prefix

private theorem replaceAll_textAfter
    (hblock : ∀ {j block}, .inr (j, block) ∈ tokens → block = m.mark j)
    (hfinal : ¬ m.mark i <:+: textFinal new tokens) :
    replaceAll (m.mark i) (new i) (textAfter new tokens done) =
      textAfter new tokens (i :: done) := by
  have hold := m.mark_ne_nil i
  induction tokens with
  | nil =>
    apply replaceAll_of_absent
    rw [textAfter, List.flatMap_nil, List.infix_nil]
    exact hold
  | cons token tokens ih =>
    have hrest : ∀ {j block}, .inr (j, block) ∈ tokens → block = m.mark j :=
      fun hmem => hblock (List.mem_cons_of_mem _ hmem)
    rw [textFinal_cons] at hfinal
    have ih := ih hrest fun hin => hfinal (hin.trans (List.suffix_append _ _).isInfix)
    rw [textAfter_cons, textAfter_cons]
    -- What stands in the final text is passed, as the mark would stand there as well.
    have hpass : ∀ text : List α, ¬ m.mark i <:+: text ++ textFinal new tokens →
        replaceAll (m.mark i) (new i) (text ++ textAfter new tokens done) =
          text ++ textAfter new tokens (i :: done) := by
      intro text hnot
      rw [replaceAll_append hold, ih]
      rintro front back rfl hback hstart
      apply hnot
      rw [List.append_assoc]
      apply List.IsInfix.trans _ (List.suffix_append front _).isInfix
      apply List.IsPrefix.isInfix
      rw [prefix_append_iff] at hstart ⊢
      refine ⟨hstart.1, ?_⟩
      exact tail_prefix_textFinal hrest (List.length_pos_iff.mpr hback) hstart.2
    cases token with
    | inl x => exact hpass [x] hfinal
    | inr found =>
      obtain ⟨j, block⟩ := found
      rw [Sum.elim_inr, Sum.elim_inr, current, current]
      by_cases hj : j ∈ done
      · rw [if_pos hj, if_pos (List.mem_cons_of_mem _ hj)]
        exact hpass _ hfinal
      · rw [if_neg hj, hblock List.mem_cons_self]
        by_cases hi : j = i
        · subst hi
          rw [if_pos List.mem_cons_self, ← ih]
          exact replaceAll_append_self hold
        · have hnot : j ∉ i :: done := by
            rw [List.mem_cons, not_or]
            exact ⟨hi, hj⟩
          rw [if_neg hnot]
          show replaceAll _ _ (m.mark j ++ _) = m.mark j ++ _
          rw [replaceAll_append hold, ih]
          exact not_starts_in_other (Ne.symm hi) _

private theorem replaceAll_textAfter_self
    (hblock : ∀ {j block}, .inr (j, block) ∈ tokens → block = m.mark j)
    (hself : new i = m.mark i) :
    replaceAll (m.mark i) (new i) (textAfter new tokens done) =
      textAfter new tokens (i :: done) := by
  rw [hself, replaceAll_self (m.mark_ne_nil i), textAfter, textAfter]
  apply List.flatMap_congr
  intro token htoken
  cases token with
  | inl x => rfl
  | inr found =>
    obtain ⟨j, block⟩ := found
    rw [Sum.elim_inr, Sum.elim_inr, current, current]
    by_cases hj : j = i
    · subst hj
      rw [if_pos List.mem_cons_self, hblock htoken, hself, ite_self]
    · simp only [List.mem_cons, hj, false_or]

private theorem foldl_textAfter
    (hblock : ∀ {j block}, .inr (j, block) ∈ tokens → block = m.mark j) {order : List ι}
    (h : ∀ i ∈ order, ¬ m.mark i <:+: textFinal new tokens ∨ new i = m.mark i) :
    order.foldl (fun text i => replaceAll (m.mark i) (new i) text) (textAfter new tokens done) =
      textAfter new tokens (order.reverse ++ done) := by
  induction order generalizing done with
  | nil => rfl
  | cons i order ih =>
    have hstep : replaceAll (m.mark i) (new i) (textAfter new tokens done) =
        textAfter new tokens (i :: done) := by
      rcases h i List.mem_cons_self with hfinal | hself
      · exact replaceAll_textAfter hblock hfinal
      · exact replaceAll_textAfter_self hblock hself
    rw [List.foldl_cons, hstep, ih fun j hj => h j (List.mem_cons_of_mem _ hj)]
    rw [List.reverse_cons, List.append_assoc]
    rfl

omit [DecidableEq ι] in
/-- Marks are replaced one after another, in any order and each as often as wanted, as they are
replaced at once if and only if no mark stands in the text that results, but for a mark that is
replaced by itself. -/
theorem foldl_replaceAll_iff (m : Marks ι α) (marks : List ι) (new : ι → List α)
    (text : List α) :
    (∀ order : List ι, (∀ i, i ∈ order ↔ i ∈ marks) →
      order.foldl (fun text i => replaceAll (m.mark i) (new i) text) text =
        m.substituteAll marks new text) ↔
      ∀ i ∈ marks, ¬ m.mark i <:+: m.substituteAll marks new text ∨ new i = m.mark i := by
  classical
  constructor
  · intro h i hi
    have hagain : ∀ j, j ∈ marks ++ [i] ↔ j ∈ marks := by
      intro j
      rw [List.mem_append, List.mem_singleton]
      constructor
      · rintro (hj | rfl)
        · exact hj
        · exact hi
      · exact .inl
    have hlast := h _ hagain
    rw [List.foldl_append, h marks fun _ => Iff.rfl] at hlast
    exact (replaceAll_eq_iff (m.mark_ne_nil i)).mp hlast
  · intro h order horder
    have hscan : ∀ {j block}, .inr (j, block) ∈ scan (m.find marks) 0 text →
        j ∈ marks ∧ block = m.mark j := eq_mark_of_mem_scan
    have hstart : text = textAfter new (scan (m.find marks) 0 text) [] := by
      have hwhole := flatMap_scan (m.find marks) 0 text
      rw [List.drop_zero] at hwhole
      exact hwhole.symm
    have hend : textAfter new (scan (m.find marks) 0 text) (order.reverse ++ []) =
        m.substituteAll marks new text := by
      apply List.flatMap_congr
      intro token htoken
      cases token with
      | inl x => rfl
      | inr found =>
        apply if_pos
        rw [List.append_nil, List.mem_reverse, horder]
        exact (hscan htoken).1
    conv_lhs => rw [hstart]
    rw [foldl_textAfter (fun hmem => (hscan hmem).2), hend]
    intro i hi
    exact h i ((horder i).mp hi)

end Marks

/-! ## Strings -/

open String.Slice.Pattern Model

/-- What a step of a search adds to the text replaced so far. -/
private def replaceStep {s : String.Slice} (new sofar : String) : SearchStep s → String
  | .matched _ _ => sofar ++ new
  | .rejected start stop => sofar ++ (s.slice! start stop).copy

private theorem foldl_steps {s : String.Slice} {pat : String} (hpat : pat ≠ "") (new : String)
    {pos : s.Pos} {steps : List (SearchStep s)} (hvalid : IsValidSearchFrom pat pos steps)
    (sofar : String) {before after : String} (hsplits : pos.Splits before after) :
    (steps.foldl (replaceStep new) sofar).toList =
      sofar.toList ++ replaceAll pat.toList new.toList after.toList := by
  have hold : pat.toList ≠ [] := by
    rw [ne_eq, String.toList_eq_nil_iff]
    exact hpat
  induction hvalid generalizing sofar before after with
  | endPos =>
    have hafter : after = "" := hsplits.eq_endPos_iff.mp rfl
    rw [hafter, String.toList_empty, replaceAll_of_absent, List.append_nil]
    · rfl
    · rw [List.infix_nil]
      exact hold
  | matched hmatch _ ih =>
    obtain ⟨t₁, t₂, hstart, hstop⟩ := ForwardStringSearcher.isLongestMatchAt_iff_splits.mp hmatch
    rw [List.foldl_cons, ih _ hstop, hsplits.eq_right hstart, String.toList_append,
      replaceAll_append_self hold, replaceStep, String.toList_append, List.append_assoc]
  | @mismatched _ start stop hlt hnone _ ih =>
    obtain ⟨t₁, t₂, hstop⟩ : ∃ t₁ t₂, stop.Splits t₁ t₂ := ⟨_, _, stop.splits⟩
    obtain ⟨middle, hmiddle, rfl, rfl⟩ :=
      (String.Slice.Pos.Splits.lt_iff_exists_eq_append hsplits hstop).mp hlt
    have hslice : (s.slice! start stop).copy = middle := by
      obtain ⟨hle, hcopy⟩ := String.Slice.copy_slice_eq_iff_splits.mpr ⟨before, t₂, hsplits, hstop⟩
      rw [← String.Slice.slice_eq_slice! (h := hle), hcopy]
    rw [List.foldl_cons, ih _ hstop, replaceStep, String.toList_append, hslice,
      String.toList_append, List.append_assoc, replaceAll_append hold]
    intro front back he hback hstart
    obtain ⟨rest, hrest⟩ := hstart
    have hmid : middle = .ofList front ++ .ofList back := by
      rw [← String.toList_inj, he, String.toList_append, String.toList_ofList,
        String.toList_ofList]
    have hrest' : String.ofList back ++ t₂ = pat ++ .ofList rest := by
      rw [← String.toList_inj, String.toList_append, String.toList_append, String.toList_ofList,
        String.toList_ofList, hrest]
    have hcopy : s.copy = (before ++ .ofList front) ++ (pat ++ .ofList rest) := by
      rw [hsplits.eq_append, hmid, String.append_assoc, String.append_assoc, hrest']
    have hat := String.Slice.Pos.splits_ofEqAppend hcopy
    apply hnone _ _ _ (ForwardStringSearcher.matchesAt_iff_splits.mpr ⟨_, _, hat⟩)
    · apply (String.Slice.Pos.Splits.le_iff_exists_eq_append hsplits hat).mpr
      exact ⟨.ofList front, rfl, by rw [hmid, String.append_assoc, hrest']⟩
    · apply (String.Slice.Pos.Splits.lt_iff_exists_eq_append hat hstop).mpr
      refine ⟨.ofList back, ?_, ?_, hrest'.symm⟩
      · intro hempty
        apply hback
        rw [← String.toList_ofList (l := back), hempty, String.toList_empty]
      · rw [hmid, String.append_assoc]

/-- The core's own replacement replaces all occurrences. -/
theorem toList_replace {s pat new : String} (h : pat ≠ "") :
    (s.replace pat new).toList = replaceAll pat.toList new.toList s.toList := by
  have hvalid := (ForwardStringSearcher.lawfulToForwardSearcherModel h).isValidSearchFrom_toList
    s.toSlice
  have hrun := foldl_steps h new hvalid "" (String.Slice.splits_startPos _)
  rw [String.toList_empty, List.nil_append, String.copy_toSlice] at hrun
  rw [← hrun, String.replace, String.Slice.replace, ← Std.Iter.foldl_toList]
  congr 2
  funext sofar step
  cases step with
  | matched start stop =>
    show sofar ++ new.toSlice.copy = sofar ++ new
    rw [String.copy_toSlice]
  | rejected start stop => rfl

end PlatformSpec.Base.Replace
