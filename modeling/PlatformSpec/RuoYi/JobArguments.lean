import PlatformSpec.Base.Collect
import PlatformSpec.RuoYi.JobWhitelist

/-!
# Arguments of job targets

When a target gives back the names and arguments it was written from: the expression that splits
the arguments at commas takes no notice of which quote closes a string.
-/

namespace PlatformSpec.RuoYi

open Base Split

/-- What the libraries document: the digits of ASCII, and that no number in a text has a comma or
a quote in it. -/
structure Application.Documented (app : Application) : Prop where
  digit : ∀ c, c.toNat < 128 → app.digit c = Numeral.asciiDigit c
  isDouble : ∀ number, app.isDouble number = true → ∀ c ∈ number, c ≠ ',' ∧ isQuote c = false

/-- An argument as it is written. -/
inductive Argument where
  | string (quote : Char) (content : Str)
  | boolean (value : Bool)
  | long (number : Str)
  | double (number : Str)
  | integer (number : Str)

namespace Argument

/-- The text of an argument. -/
def text : Argument → Str
  | string quote content => quote :: (content ++ [quote])
  | boolean true => "true".toList
  | boolean false => "false".toList
  | long number => number ++ ['L']
  | double number => number ++ ['D']
  | integer number => number

/-- What stands between the quotes. -/
def content : Argument → Str
  | string _ content => content
  | _ => []

/-- The typed value; `none` when a number is none of its type. -/
def param (app : Application) : Argument → Option Param
  | string _ content => some (.string content)
  | boolean value => some (.boolean value)
  | long number => (valueOf app 64 number).map .long
  | double number => if app.isDouble number then some (.double number) else none
  | integer number => (valueOf app 32 number).map .integer

/-- A string does not contain its own quote, and the number of a `double` no blanks. -/
def WellFormed : Argument → Prop
  | string quote content => isQuote quote = true ∧ quote ∉ content
  | double number => ∀ c ∈ number, 0x20 < c.toNat
  | _ => True

/-- An argument is written for a value. -/
def Writes (app : Application) (argument : Argument) (value : Param) : Prop :=
  argument.WellFormed ∧ argument.param app = some value

end Argument

open Argument

/-- The arguments between the parentheses. -/
def joined (arguments : List Argument) : Str := List.intercalate [',', ' '] (arguments.map text)

/-- The contents of the strings, with the commas between the arguments. -/
def contents (arguments : List Argument) : Str := List.intercalate [','] (arguments.map content)

/-- The target `name.method(p1, ..., pn)`. -/
def targetText (name method : Str) (arguments : List Argument) : Str :=
  name ++ '.' :: (method ++ '(' :: (joined arguments ++ [')']))

/-! ## The pieces -/

section Pieces

variable {p s : Str}

/-- No comma of a text is taken as a separator, with what comes behind it. -/
def Uncut (p s : Str) : Prop := ∀ u v, p = u ++ ',' :: v → (v ++ s).countP isQuote % 2 = 1

theorem splitUnquoted_of_uncut (h : Uncut p s) :
    splitUnquoted (p ++ s) = (splitUnquoted s).modifyHead (p ++ ·) := by
  induction p with
  | nil => cases hs : splitUnquoted s <;> simp [hs]
  | cons c p ih =>
    have hrest := ih fun u v huv => h (c :: u) v (by rw [huv]; rfl)
    rw [List.cons_append, splitUnquoted, if_neg, hrest]
    · cases splitUnquoted s <;> rfl
    · rintro ⟨rfl, heven⟩
      have hodd := h [] p rfl
      omega

theorem splitUnquoted_first (h : Uncut p (',' :: s)) (heven : s.countP isQuote % 2 = 0) :
    splitUnquoted (p ++ ',' :: s) = p :: splitUnquoted s := by
  rw [splitUnquoted_of_uncut h, splitUnquoted, if_pos ⟨rfl, heven⟩, List.modifyHead_cons,
    List.append_nil]

theorem splitUnquoted_last (h : Uncut p []) : splitUnquoted p = [p] := by
  have hsplit := splitUnquoted_of_uncut h
  rwa [List.append_nil, splitUnquoted, List.modifyHead_cons, List.append_nil] at hsplit

theorem exists_uncut (text : Str) : ∃ p s, text = p ++ s ∧ Uncut p s ∧
    (s = [] ∨ ∃ t, s = ',' :: t ∧ t.countP isQuote % 2 = 0) := by
  induction text with
  | nil => exact ⟨[], [], rfl, fun u v h => by simp at h, .inl rfl⟩
  | cons c text ih =>
    obtain ⟨p, s, rfl, hp, hs⟩ := ih
    by_cases hc : c = ',' ∧ (p ++ s).countP isQuote % 2 = 0
    · exact ⟨[], c :: (p ++ s), rfl, fun u v h => by simp at h, .inr ⟨_, by rw [hc.1], hc.2⟩⟩
    · refine ⟨c :: p, s, rfl, fun u v h => ?_, hs⟩
      cases u with
      | nil =>
        obtain ⟨rfl, rfl⟩ := List.cons.inj h
        have hodd : ¬ (p ++ s).countP isQuote % 2 = 0 := fun heven => hc ⟨rfl, heven⟩
        omega
      | cons d u => exact hp u v (List.cons.inj h).2

theorem forall_comma_append {q : Str → Prop} :
    (∀ u v, p ++ ',' :: s = u ++ ',' :: v → q v) ↔
      (∀ u v, p = u ++ ',' :: v → q (v ++ ',' :: s)) ∧ q s ∧ ∀ u v, s = u ++ ',' :: v → q v := by
  constructor
  · refine fun h => ⟨fun u v huv => h u _ ?_, h p s rfl, fun u v huv => h (p ++ ',' :: u) v ?_⟩
    · rw [huv, List.append_assoc, List.cons_append]
    · rw [huv, List.append_assoc, List.cons_append]
  · rintro ⟨hfront, hmiddle, hback⟩ u v huv
    obtain ⟨x, rfl, hx⟩ | ⟨x, rfl, hx⟩ := List.append_eq_append_iff.mp huv
    · cases x with
      | nil => exact (List.cons.inj hx).2 ▸ hmiddle
      | cons c x => exact hback x v (List.cons.inj hx).2
    · cases x with
      | nil => exact (List.cons.inj hx).2 ▸ hmiddle
      | cons c x =>
        obtain ⟨rfl, rfl⟩ := List.cons.inj hx
        exact hfront u x rfl

/-- A text begins and ends with neither a comma nor a blank. -/
private def Ends (s : Str) : Prop :=
  s ≠ [] ∧ (∀ c ∈ s.head?, c ≠ ',' ∧ 0x20 < c.toNat) ∧ ∀ c ∈ s.getLast?, c ≠ ',' ∧ 0x20 < c.toNat

private theorem Ends.append (hp : Ends p) (hs : Ends s) (middle : Str) :
    Ends (p ++ (middle ++ s)) := by
  refine ⟨by simp [hp.1], ?_, ?_⟩
  · rw [List.head?_append_of_ne_nil _ hp.1]
    exact hp.2.1
  · rw [List.getLast?_append_of_ne_nil _ (by simp [hs.1]), List.getLast?_append_of_ne_nil _ hs.1]
    exact hs.2.2

private theorem Ends.trim (h : Ends s) : trim s = s :=
  stripBoth_eq_self_iff.mpr ⟨fun c hc => by simpa using (h.2.1 c hc).2,
    fun c hc => by simpa using (h.2.2 c hc).2⟩

private theorem splitParams_eq (h : Ends s) : splitParams s = splitUnquoted s := by
  obtain ⟨front, last, rfl⟩ := List.eq_nil_or_concat s |>.resolve_left h.1
  have hcomma : last ≠ ',' := (h.2.2 last (by simp)).1
  obtain ⟨pieces, piece, hpieces, hne⟩ : ∃ pieces piece,
      splitUnquoted (front ++ [last]) = pieces ++ [piece] ∧ piece.isEmpty = false := by
    clear h
    induction front with
    | nil => exact ⟨[], [last], by simp [splitUnquoted, hcomma], rfl⟩
    | cons c front ih =>
      obtain ⟨pieces, piece, hpieces, hne⟩ := ih
      rw [List.cons_append, splitUnquoted, hpieces]
      split_ifs
      · exact ⟨[] :: pieces, piece, rfl, hne⟩
      · cases pieces with
        | nil => exact ⟨[], c :: piece, rfl, rfl⟩
        | cons p pieces => exact ⟨(c :: p) :: pieces, piece, rfl, hne⟩
  rw [List.concat_eq_append, splitParams, hpieces, stripRight_concat_of_neg hne, ite_self]

end Pieces

/-! ## The arguments -/

section Arguments

variable {app : Application} {bits : Nat} {p s rest : Str} {c quote : Char} {l : Int}
  {argument : Argument} {value : Param} (happ : app.Documented)

/-- A character that a number, `true` and `false` are made of. -/
private def Plain (c : Char) : Prop := c ≠ ',' ∧ isQuote c = false ∧ 0x20 < c.toNat

theorem bounds_of_isQuote (h : isQuote c = true) : c ≠ ',' ∧ 0x20 < c.toNat := by
  obtain rfl | rfl : c = '\'' ∨ c = '"' := by simpa [isQuote] using h
  · decide
  · decide

include happ

private theorem plain_of_digit (h : (app.digit c).isSome) :
    Plain c ∧ foldCase c ≠ 'e' ∧ c ≠ 'L' ∧ c ≠ 'D' := by
  have hrange (hc : c.toNat < 128) : 48 ≤ c.toNat ∧ c.toNat ≤ 57 := by
    rw [happ.digit c hc, Numeral.asciiDigit] at h
    split at h
    next hdigit => exact hdigit
    next => cases h
  have hne {d : Char} (hd : d.toNat < 48 ∨ 57 < d.toNat ∧ d.toNat < 128) : c ≠ d := by
    rintro rfl
    omega
  refine ⟨⟨hne (by decide), ?_, by omega⟩, ?_, hne (by decide), hne (by decide)⟩
  · rw [isQuote, decide_eq_false (hne (by decide)), decide_eq_false (hne (by decide)), Bool.or_self]
  · have hlower : c.toLower = c := dif_neg fun hletter => by
      have hle : 65 ≤ c.toNat ∧ c.toNat ≤ 90 := hletter
      omega
    rw [foldCase, hlower]
    split_ifs
    · decide
    · decide
    · decide
    · exact hne (by decide)

omit happ in
theorem digit_of_readDigits {n : Nat} (h : readDigits app s = some n) :
    s ≠ [] ∧ ∀ c ∈ s, (app.digit c).isSome := by
  rw [readDigits, Option.ite_none_left_eq_some] at h
  refine ⟨h.1, ?_⟩
  replace h := h.2
  generalize 0 = start at h
  induction s generalizing start with
  | nil => simp
  | cons d s ih =>
    rw [List.foldlM_cons] at h
    obtain ⟨next, hd, hrest⟩ := Option.bind_eq_some_iff.mp h
    obtain ⟨value, hvalue, -⟩ := Option.map_eq_some_iff.mp hd
    exact List.forall_mem_cons.mpr ⟨by rw [hvalue]; rfl, ih next hrest⟩

private theorem plain_of_valueOf (h : valueOf app bits s = some l) : (∀ c ∈ s, Plain c) ∧
    ∃ front last, s = front ++ [last] ∧ (app.digit last).isSome := by
  have hsign (sign : Str) (hsign : ∀ c ∈ sign, Plain c) {ds : Str} {n : Nat}
      (hds : readDigits app ds = some n) : (∀ c ∈ sign ++ ds, Plain c) ∧
        ∃ front last, sign ++ ds = front ++ [last] ∧ (app.digit last).isSome := by
    obtain ⟨hne, hdigits⟩ := digit_of_readDigits hds
    refine ⟨List.forall_mem_append.mpr
      ⟨hsign, fun c hc => (plain_of_digit happ (hdigits c hc)).1⟩, ?_⟩
    obtain ⟨front, last, rfl⟩ := List.eq_nil_or_concat ds |>.resolve_left hne
    exact ⟨sign ++ front, last, by simp, hdigits last (by simp)⟩
  unfold valueOf at h
  split at h <;> obtain ⟨n, hn, -⟩ := Option.bind_eq_some_iff.mp h
  · exact hsign ['-'] (by simp [Plain, isQuote]) hn
  · exact hsign ['+'] (by simp [Plain, isQuote]) hn
  · exact hsign [] (by simp) hn

omit happ in
private theorem startsWithAny_quote :
    startsWithAny (c :: s) [['\''], ['"']] = isQuote c := by
  simp [startsWithAny, isQuote, List.isPrefixOf, Bool.beq_eq_decide_eq, eq_comm]

theorem methodParam_eq_none {v : Str} (hquote : isQuote c = false)
    (htrim : trim p = c :: (s ++ ',' :: v)) (hv : v ≠ []) : methodParam app p = none := by
  have hcomma : ',' ∈ (c :: (s ++ ',' :: v)).dropLast := by
    rw [← List.cons_append, List.dropLast_append_of_ne_nil (by simp),
      List.dropLast_cons_of_ne_nil hv]
    simp
  have hmem : ',' ∈ c :: (s ++ ',' :: v) := List.dropLast_subset _ hcomma
  have hnot {bits : Nat} {t : Str} (h : ',' ∈ t) : valueOf app bits t = none :=
    Option.eq_none_iff_forall_ne_some.mpr fun l hl => ((plain_of_valueOf happ hl).1 _ h).1 rfl
  have hboolean {word : Str} (hword : ',' ∉ word.map foldCase) :
      equalsIgnoreCase word (c :: (s ++ ',' :: v)) = false := by
    rw [equalsIgnoreCase, decide_eq_false_iff_not]
    intro he
    exact hword (he ▸ List.mem_map.mpr ⟨',', hmem, by decide⟩)
  have hdouble : app.isDouble (c :: (s ++ ',' :: v)).dropLast = false :=
    Bool.eq_false_iff.mpr fun hd => (happ.isDouble _ hd _ hcomma).1 rfl
  rw [methodParam, htrim, startsWithAny_quote, hquote, hboolean (by decide), hboolean (by decide),
    hnot hcomma, hnot hmem, hdouble]
  simp

variable (h : argument.Writes app value)
include h

private theorem plain_text : (∃ quote content, argument = .string quote content) ∨
    argument.content = [] ∧ argument.text ≠ [] ∧ ∀ c ∈ argument.text, Plain c := by
  obtain ⟨hformed, h⟩ := h
  cases argument with
  | string quote content => exact .inl ⟨quote, content, rfl⟩
  | boolean b => cases b <;> exact .inr ⟨rfl, by decide, by simp [text, Plain, isQuote]⟩
  | long number =>
    obtain ⟨l, hl, -⟩ := Option.map_eq_some_iff.mp h
    exact .inr ⟨rfl, by simp [text], List.forall_mem_append.mpr
      ⟨(plain_of_valueOf happ hl).1, by simp [Plain, isQuote]⟩⟩
  | double number =>
    have hd := happ.isDouble _ (Option.ite_none_right_eq_some.mp h).1
    exact .inr ⟨rfl, by simp [text], List.forall_mem_append.mpr
      ⟨fun c hc => ⟨(hd c hc).1, (hd c hc).2, hformed c hc⟩, by simp [Plain, isQuote]⟩⟩
  | integer number =>
    obtain ⟨l, hl, -⟩ := Option.map_eq_some_iff.mp h
    obtain ⟨hplain, front, last, rfl, -⟩ := plain_of_valueOf happ hl
    exact .inr ⟨rfl, by simp [text], hplain⟩

private theorem ends_text : Ends argument.text := by
  obtain ⟨quote, content, rfl⟩ | ⟨-, hne, hplain⟩ := plain_text happ h
  · have hquote := bounds_of_isQuote h.1.1
    refine ⟨List.cons_ne_nil _ _, by simpa [text] using hquote, ?_⟩
    rw [text, ← List.cons_append, List.getLast?_concat]
    simpa using hquote
  · exact ⟨hne, fun c hc => ⟨(hplain c (List.mem_of_mem_head? hc)).1,
      (hplain c (List.mem_of_mem_head? hc)).2.2⟩, fun c hc =>
        ⟨(hplain c (List.mem_of_getLast? hc)).1, (hplain c (List.mem_of_getLast? hc)).2.2⟩⟩

private theorem methodParam_text : methodParam app argument.text = some value := by
  have htrim := (ends_text happ h).trim
  obtain ⟨quote, content, rfl⟩ | ⟨-, hne, hplain⟩ := plain_text happ h
  · rw [methodParam, htrim, text, startsWithAny_quote, if_pos h.1.1]
    simpa [param] using h.2
  · have hquote : startsWithAny argument.text [['\''], ['"']] = false := by
      obtain ⟨c, s, hc⟩ := List.exists_cons_of_ne_nil hne
      rw [hc, startsWithAny_quote]
      exact (hplain c (hc ▸ List.mem_cons_self)).2.1
    have hboolean {front word : Str} {last : Char} (hlast : foldCase last ≠ 'e')
        (hword : (word.map foldCase).getLast? = some 'e') :
        equalsIgnoreCase word (front ++ [last]) = false := by
      rw [equalsIgnoreCase, decide_eq_false_iff_not]
      intro he
      rw [he, List.map_append, List.map_singleton, List.getLast?_concat] at hword
      exact hlast (Option.some.inj hword)
    rw [methodParam, htrim, hquote]
    obtain ⟨hformed, h⟩ := h
    cases argument with
    | string quote content =>
      exact absurd ((hplain quote List.mem_cons_self).2.1.symm.trans hformed.1) Bool.false_ne_true
    | boolean b =>
      cases h
      cases b <;> rfl
    | long number | double number =>
      rw [text, hboolean (by decide) (by decide), hboolean (by decide) (by decide)]
      simpa [param] using h
    | integer number =>
      obtain ⟨l, hl, rfl⟩ := Option.map_eq_some_iff.mp h
      obtain ⟨-, front, last, rfl, hdigit⟩ := plain_of_valueOf happ hl
      obtain ⟨-, he, hL, hD⟩ := plain_of_digit happ hdigit
      rw [text, hboolean he (by decide), hboolean he (by decide)]
      simp [hL, hD, hl]

omit happ h

theorem comma_of_string {content : Str} (hne : quote ≠ ',')
    (h : quote :: (content ++ [quote]) = p ++ ',' :: s) :
    ∃ u v, p = quote :: u ∧ content = u ++ ',' :: v ∧ s = v ++ [quote] := by
  cases p with
  | nil => exact absurd (List.cons.inj h).1 hne
  | cons e u =>
    obtain ⟨rfl, hu⟩ : quote = e ∧ content ++ [quote] = u ++ ',' :: s := List.cons.inj h
    obtain rfl | ⟨v, last, rfl⟩ := List.eq_nil_or_concat s
    · exact absurd (List.append_inj_right' hu rfl) (by simpa using hne)
    · rw [List.concat_eq_append, ← List.cons_append, ← List.append_assoc] at hu
      obtain ⟨rfl, hlast⟩ := List.append_inj' hu rfl
      cases hlast
      exact ⟨u, v, rfl, rfl, List.concat_eq_append⟩

theorem length_of_quoted {content : Str} (hquote : isQuote quote = true)
    (htrim : trim p = quote :: s) (h : methodParam app p = some (.string content)) :
    content.length = s.length - 1 := by
  rw [methodParam, htrim, startsWithAny_quote, if_pos hquote] at h
  cases h
  rw [List.length_take, List.tail_cons, List.length_cons]
  omega

private theorem trim_append (hp : Ends p) (s : Str) :
    trim (p ++ s) = p ++ stripRight (fun c => decide (c.toNat ≤ 0x20)) s :=
  stripBoth_append hp.1 (fun c hc => by simpa using (hp.2.1 c hc).2)
    (fun c hc => by simpa using (hp.2.2 c hc).2) [] s

include happ h

private theorem eq_text (hrest : rest = [] ∨ ∃ t, rest = ',' :: ' ' :: t ∧ Ends t)
    (hs : s = [] ∨ ∃ t, s = ',' :: t) (hps : argument.text ++ rest = p ++ s)
    (hp : methodParam app p = some value) : p = argument.text := by
  have hends := ends_text happ h
  obtain ⟨x, hx, hxs⟩ | ⟨x, hx, hxs⟩ := List.append_eq_append_iff.mp hps
  · -- The piece goes on behind the argument, at least to the first character of the next one.
    obtain rfl | ⟨t, rfl, hne, hfirst, -⟩ := hrest
    · rw [hx, (List.append_eq_nil_iff.mp hxs.symm).1, List.append_nil]
    obtain ⟨c, t, rfl⟩ := List.exists_cons_of_ne_nil hne
    have hc := hfirst c rfl
    obtain rfl | ⟨y, rfl⟩ : x = [] ∨ ∃ y, x = ',' :: ' ' :: c :: y := by
      match x, hxs with
      | [], _ => exact .inl rfl
      | [_], hxs | [_, _], hxs =>
        obtain rfl | ⟨t, rfl⟩ := hs <;> simp [hc.1] at hxs
      | _ :: _ :: _ :: y, hxs =>
        simp only [List.cons_append, List.cons.injEq] at hxs
        obtain ⟨rfl, rfl, rfl, -⟩ := hxs
        exact .inr ⟨y, rfl⟩
    · rw [hx, List.append_nil]
    have htrim := trim_append (hends.append (s := [c]) (by simpa [Ends] using hc) [',', ' ']) y
    rw [List.append_assoc, List.append_assoc, List.singleton_append] at htrim
    rw [hx] at hp
    obtain ⟨quote, content, rfl⟩ | ⟨-, -, hplain⟩ := plain_text happ h
    · cases h.2
      have hlength := length_of_quoted h.1.1 htrim hp
      simp at hlength
    · obtain ⟨first, tail, htext⟩ := List.exists_cons_of_ne_nil hends.1
      rw [htext] at htrim hplain hp
      have hnone := methodParam_eq_none happ (s := tail) (v := ' ' :: c :: _)
        (hplain first List.mem_cons_self).2.1 (by simpa using htrim) (List.cons_ne_nil ' ' _)
      cases hnone.symm.trans hp
  · -- The piece ends at a comma inside of the argument.
    obtain rfl | ⟨t, rfl⟩ := hs
    · rw [hx, (List.append_eq_nil_iff.mp hxs.symm).1, List.append_nil]
    cases x with
    | nil => rw [hx, List.append_nil]
    | cons d x =>
      obtain ⟨rfl, -⟩ := List.cons.inj hxs
      obtain ⟨quote, content, rfl⟩ | ⟨-, -, hplain⟩ := plain_text happ h
      · cases h.2
        have hquote := bounds_of_isQuote h.1.1
        obtain ⟨u, v, rfl, rfl, -⟩ := comma_of_string hquote.1 hx
        have hlength := length_of_quoted h.1.1
          (trim_append (p := [quote]) (by simpa [Ends] using hquote) u) hp
        have hle := (prefix_stripRight (p := fun c => decide (c.toNat ≤ 0x20)) u).length_le
        simp at hlength
        omega
      · exact absurd rfl (hplain ',' (by rw [hx]; simp)).1

theorem uncut_text_iff : Uncut argument.text s ↔
    ∀ u v, argument.content = u ++ ',' :: v → (v ++ s).countP isQuote % 2 = 0 := by
  obtain ⟨quote, content, rfl⟩ | ⟨hcontent, -, hplain⟩ := plain_text happ h
  · have hcount (v : Str) : ((v ++ [quote]) ++ s).countP isQuote = (v ++ s).countP isQuote + 1 := by
      simp [h.1.1]
      omega
    constructor
    · intro huncut u v huv
      have hodd := huncut (quote :: u) (v ++ [quote])
        (by rw [text, show content = u ++ ',' :: v from huv]; simp)
      rw [hcount] at hodd
      omega
    · intro heven u v huv
      obtain ⟨u, v, rfl, hcontent, rfl⟩ := comma_of_string (bounds_of_isQuote h.1.1).1 huv
      have hparity := heven u v hcontent
      rw [hcount]
      omega
  · refine iff_of_true (fun u v huv => ?_) fun u v huv => ?_
    · exact absurd rfl (hplain ',' (by rw [huv]; simp)).1
    · rw [hcontent] at huv
      simp at huv

private theorem mapM_first (values : List Param)
    (hrest : rest = [] ∨ ∃ t, rest = ',' :: ' ' :: t ∧ Ends t) :
    (splitUnquoted (argument.text ++ rest)).mapM (methodParam app) = some (value :: values) ↔
      Uncut argument.text rest ∧ (rest = [] ∧ values = [] ∨ ∃ t, rest = ',' :: t ∧
        t.countP isQuote % 2 = 0 ∧ (splitUnquoted t).mapM (methodParam app) = some values) := by
  simp only [Collect.mapM_eq_some_iff]
  constructor
  · intro hread
    obtain ⟨p, s, hps, huncut, hs⟩ := exists_uncut (argument.text ++ rest)
    rw [hps] at hread
    obtain rfl | ⟨t, rfl, heven⟩ := hs
    · rw [List.append_nil, splitUnquoted_last huncut, List.forall₂_cons] at hread
      obtain rfl := eq_text happ h hrest (.inl rfl) hps hread.1
      obtain rfl := List.append_cancel_left hps
      exact ⟨huncut, .inl ⟨rfl, List.forall₂_nil_left_iff.mp hread.2⟩⟩
    · rw [splitUnquoted_first huncut heven, List.forall₂_cons] at hread
      obtain rfl := eq_text happ h hrest (.inr ⟨t, rfl⟩) hps hread.1
      obtain rfl := List.append_cancel_left hps
      exact ⟨huncut, .inr ⟨t, rfl, heven, hread.2⟩⟩
  · rintro ⟨huncut, ⟨rfl, rfl⟩ | ⟨t, rfl, heven, hread⟩⟩
    · rw [List.append_nil, splitUnquoted_last huncut]
      exact .cons (methodParam_text happ h) .nil
    · rw [splitUnquoted_first huncut heven]
      exact .cons (methodParam_text happ h) hread

omit happ h

private theorem countP_comma (s : Str) : (',' :: s).countP isQuote = s.countP isQuote :=
  List.countP_cons_of_neg (by decide)

private theorem countP_blank (s : Str) : (' ' :: s).countP isQuote = s.countP isQuote :=
  List.countP_cons_of_neg (by decide)

theorem joined_cons_cons (a b : Argument) (l : List Argument) :
    joined (a :: b :: l) = a.text ++ ([',', ' '] ++ joined (b :: l)) := by
  simp [joined, List.intercalate]

theorem contents_cons_cons (a b : Argument) (l : List Argument) :
    contents (a :: b :: l) = a.content ++ ',' :: contents (b :: l) := by
  simp [contents, List.intercalate]

private theorem mapM_blank (s : Str) : (splitUnquoted (' ' :: s)).mapM (methodParam app) =
    (splitUnquoted s).mapM (methodParam app) := by
  have hparam (p : Str) : methodParam app (' ' :: p) = methodParam app p := by
    rw [methodParam, methodParam, trim, stripBoth_cons_of_pos (by decide), trim]
  rw [splitUnquoted, if_neg fun h => absurd h.1 (by decide)]
  cases splitUnquoted s with
  | nil => rfl
  | cons p l => rw [List.modifyHead_cons, List.mapM_cons, List.mapM_cons, hparam]

section Joined

variable {arguments : List Argument} {params : List Param} (hne : arguments ≠ [])
  (hall : List.Forall₂ (Writes app) arguments params)
include happ hne hall

private theorem ends_joined : Ends (joined arguments) := by
  induction hall with
  | nil => exact absurd rfl hne
  | @cons a value l values ha hl ih =>
    cases l with
    | nil => simpa [joined, List.intercalate] using ends_text happ ha
    | cons b l =>
      rw [joined_cons_cons]
      exact (ends_text happ ha).append (ih (List.cons_ne_nil _ _)) _

private theorem quotes_joined :
    (joined arguments).countP isQuote % 2 = (contents arguments).countP isQuote % 2 := by
  induction hall with
  | nil => exact absurd rfl hne
  | @cons a value l values ha hl ih =>
    have htext : a.text.countP isQuote % 2 = a.content.countP isQuote % 2 := by
      obtain ⟨quote, str, rfl⟩ | ⟨hcontent, -, hplain⟩ := plain_text happ ha
      · simp [text, content, ha.1.1]
        omega
      · rw [hcontent, List.countP_eq_zero.mpr fun c hc => by simp [(hplain c hc).2.1]]
        rfl
    cases l with
    | nil => simpa [joined, contents, List.intercalate] using htext
    | cons b l =>
      have hrest := ih (List.cons_ne_nil _ _)
      rw [joined_cons_cons, contents_cons_cons]
      simp only [List.countP_append, countP_comma, countP_blank, List.countP_nil]
      omega

/-- The arguments are read back if and only if an even number of the quotes in the strings stands
behind every comma. -/
theorem mapM_joined_iff : (splitUnquoted (joined arguments)).mapM (methodParam app) = some params ↔
    ∀ u v, contents arguments = u ++ ',' :: v → v.countP isQuote % 2 = 0 := by
  induction hall with
  | nil => exact absurd rfl hne
  | @cons a value l values ha hl ih =>
    cases hl with
    | nil =>
      have hfirst := mapM_first happ ha [] (.inl rfl)
      rw [List.append_nil] at hfirst
      simp [joined, List.intercalate, contents, hfirst, uncut_text_iff happ ha]
    | @cons b next l values hb hl =>
      have hne := List.cons_ne_nil b l
      have hparity := quotes_joined happ hne (.cons hb hl)
      have hfirst := mapM_first happ ha (next :: values)
        (.inr ⟨_, rfl, ends_joined happ hne (.cons hb hl)⟩)
      have hcount (v : Str) : (v ++ ',' :: ' ' :: joined (b :: l)).countP isQuote % 2 =
          (v ++ ',' :: contents (b :: l)).countP isQuote % 2 := by
        rw [List.countP_append, List.countP_append, countP_comma, countP_comma, countP_blank]
        omega
      rw [joined_cons_cons, contents_cons_cons, forall_comma_append, ← ih hne]
      simp only [List.cons_append, List.nil_append, hfirst, uncut_text_iff happ ha, hcount,
        List.cons.injEq, true_and, exists_eq_left', reduceCtorEq, false_and, false_or, mapM_blank]
      rw [countP_blank, hparity]

end Joined

theorem isEmpty_of_mem (hc : c ∈ s) (hblank : 0x20 < c.toNat) :
    isEmpty (some s) = false := by
  obtain ⟨front, back, rfl⟩ := List.append_of_mem hc
  have hstrip := @stripBoth_append _ (fun c => decide (c.toNat ≤ 0x20)) [c] (by simp)
    (by simpa using hblank) (by simpa using hblank) front back
  rw [List.append_assoc, List.singleton_append] at hstrip
  rw [isEmpty, trim, hstrip]
  simp

include happ

/-- A target is parsed back if and only if an even number of the quotes that stand in strings is
behind every comma. -/
theorem target_iff {name method : Str} {arguments : List Argument} {params : List Param}
    (hname : '(' ∉ name) (hmethod : '(' ∉ method) (hdot : '.' ∉ method)
    (hall : List.Forall₂ (Writes app) arguments params) :
    (getBeanName (targetText name method arguments) = name ∧
      getMethodName (targetText name method arguments) = method ∧
      getMethodParams app (targetText name method arguments) = some params) ↔
        ∀ u v, contents arguments = u ++ ',' :: v → v.countP isQuote % 2 = 0 := by
  have htarget : targetText name method arguments =
      (name ++ '.' :: method ++ '(' :: joined arguments) ++ [')'] := by
    simp [targetText]
  have hbefore : substringBefore (targetText name method arguments) '(' =
      name ++ '.' :: method := by
    rw [htarget, List.append_assoc, substringBefore_append (by simp [hname, hmethod])]
    simp [substringBefore]
  have hbetween : substringBetweenLast (targetText name method arguments) =
      some (joined arguments) := by
    rw [substringBetweenLast, isEmpty_of_mem (c := '(') (by simp [targetText]) (by decide),
      if_neg (by simp [targetText])]
    simp only [hbefore]
    rw [htarget, beforeLast_append_cons List.not_mem_nil, if_pos (by simp), List.take_left,
      List.append_cons _ '(', List.drop_left' (by simp; omega)]
  have hnames : getBeanName (targetText name method arguments) = name ∧
      getMethodName (targetText name method arguments) = method := by
    rw [getBeanName, getMethodName, hbefore, substringBeforeLast, substringAfterLast,
      if_pos (by simp), if_pos (by simp), beforeLast_append_cons hdot, afterLast_append_cons hdot]
    exact ⟨rfl, rfl⟩
  rw [hnames.1, hnames.2, getMethodParams, hbetween, Option.bind_some]
  simp only [true_and]
  cases hall with
  | nil => simp [joined, List.intercalate, contents, isEmpty, trim, stripBoth, stripRight]
  | @cons a value l values ha hl =>
    have hne := List.cons_ne_nil a l
    have hends := ends_joined happ hne (.cons ha hl)
    obtain ⟨c, s, hc⟩ := List.exists_cons_of_ne_nil hends.1
    rw [← mapM_joined_iff happ hne (.cons ha hl), splitParams_eq hends,
      isEmpty_of_mem (hc ▸ List.mem_cons_self) (hends.2.1 c (hc ▸ rfl)).2]
    rfl

end Arguments

section Sample

private theorem documented_ascii : asciiApplication.Documented :=
  ⟨fun _ _ => rfl, fun _ h => absurd h Bool.false_ne_true⟩

theorem target_iff_sample :
    let t := targetText "task".toList "run".toList [.string '"' "a,b".toList, .long "7".toList]
    (getBeanName t = "task".toList ∧ getMethodName t = "run".toList ∧
      getMethodParams asciiApplication t = some [.string "a,b".toList, .long 7]) ↔
        ∀ u v, "a,b,".toList = u ++ ',' :: v → v.countP isQuote % 2 = 0 :=
  target_iff documented_ascii (by decide) (by decide) (by decide)
    (.cons ⟨by simp [WellFormed, isQuote], rfl⟩ (.cons ⟨trivial, by decide⟩ .nil))

/-- The target `task.run('a', "it's")` is not parsed back. -/
theorem target_fails : ¬ ∀ (app : Application) (name method : Str) (arguments : List Argument)
    (params : List Param), app.Documented → '(' ∉ name → '(' ∉ method → '.' ∉ method →
    List.Forall₂ (Writes app) arguments params →
      getBeanName (targetText name method arguments) = name ∧
        getMethodName (targetText name method arguments) = method ∧
        getMethodParams app (targetText name method arguments) = some params := by
  intro h
  have hparsed := h asciiApplication "task".toList "run".toList
    [.string '\'' "a".toList, .string '"' "it's".toList] _ documented_ascii (by decide) (by decide)
    (by decide) (.cons ⟨by simp [WellFormed, isQuote], rfl⟩
      (.cons ⟨by simp [WellFormed, isQuote], rfl⟩ .nil))
  exact absurd hparsed.2.2 (by decide)

end Sample

end PlatformSpec.RuoYi
