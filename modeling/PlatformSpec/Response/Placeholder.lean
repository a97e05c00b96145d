import PlatformSpec.Base.Dict
import PlatformSpec.Response.Template

/-!
# Placeholders in templates

What the placeholder pattern and `re.split` mean apart from how they are computed: a
placeholder is the text of a valid key between its marks, and the parts of a template are told
by a relation that only the split satisfies. On it rest the exactness of
`Template.from_answer_template`, with `VariableTemplateParser.extract` and
`extract_variable_selectors`, and of `VariablePool.convert_template`.
-/

namespace PlatformSpec.Response

open Base PlatformSpec.Runtime

/-! ### The pattern -/

/-- `[a-zA-Z_][a-zA-Z0-9_]{0,29}`. -/
def IsName (name : List Char) : Prop :=
  ∃ c cs, name = c :: cs ∧ isWordStart c = true ∧ cs.length ≤ 29 ∧ ∀ d ∈ cs, isWord d = true

/-- A node id of 1 to 50 word characters and 1 to 10 names. -/
def ValidKey (key : List (List Char)) : Prop :=
  ∃ node names, key = node :: names ∧ 1 ≤ node.length ∧ node.length ≤ 50 ∧
    (∀ c ∈ node, isWord c = true) ∧ names ≠ [] ∧ names.length ≤ 10 ∧
    ∀ name ∈ names, IsName name

/-- The text of a placeholder. -/
def placeholder (key : List (List Char)) : List Char :=
  '{' :: '{' :: '#' :: (dotted key ++ ['#', '}', '}'])

/-- The text a part was split from. -/
def Part.source : Part → List Char
  | .text s => s
  | .key k => placeholder k

private theorem takeWhile_word {word : List Char} (h : ∀ c ∈ word, isWord c = true) {c : Char}
    (hc : isWord c = false) (rest : List Char) :
    (word ++ c :: rest).takeWhile isWord = word ∧
      (word ++ c :: rest).drop word.length = c :: rest := by
  refine ⟨?_, List.drop_left⟩
  rw [List.takeWhile_append_of_pos h, List.takeWhile_cons_of_neg (by simp [hc]), List.append_nil]

private theorem takeWhile_append_drop (cs : List Char) :
    cs.takeWhile isWord ++ cs.drop (cs.takeWhile isWord).length = cs := by
  obtain ⟨tail, htail⟩ := List.takeWhile_prefix (l := cs) isWord
  have hdrop : (cs.takeWhile isWord ++ tail).drop (cs.takeWhile isWord).length = tail :=
    List.drop_left
  rw [htail] at hdrop
  rw [hdrop, htail]

theorem matchNames_iff (n : Nat) (cs : List Char) (names : List (List Char))
    (rest : List Char) : matchNames n cs = some (names, rest) ↔
      names.length ≤ n ∧ (∀ name ∈ names, IsName name) ∧
        cs = names.flatMap ('.' :: ·) ++ '#' :: '}' :: '}' :: rest := by
  constructor
  · intro h
    induction n, cs using matchNames.induct generalizing names rest with
    | case1 n rest' =>
      rw [matchNames] at h
      cases h
      simp
    | case2 n c cs more hstart ih =>
      rw [matchNames, if_pos hstart] at h
      obtain ⟨⟨names', rest'⟩, hmatch, heq⟩ := Option.map_eq_some_iff.mp h
      cases heq
      obtain ⟨hlen, hnames, hcs⟩ := ih names' rest' hmatch
      rw [Bool.and_eq_true, decide_eq_true_eq] at hstart
      refine ⟨by simpa using hlen, ?_, ?_⟩
      · intro name hname
        rcases List.mem_cons.mp hname with rfl | hname
        · exact ⟨c, _, rfl, hstart.1, hstart.2, fun d hd =>
            List.all_eq_true.mp List.all_takeWhile d hd⟩
        · exact hnames name hname
      · simp only [List.flatMap_cons, List.cons_append, List.append_assoc, ← hcs]
        exact congrArg (fun t => '.' :: c :: t) (takeWhile_append_drop cs).symm
    | case3 n c cs more hstart =>
      rw [matchNames, if_neg hstart] at h
      cases h
    | case4 n cs hhash hdot =>
      rw [matchNames] at h
      · cases h
      · exact hhash
      · exact hdot
  · rintro ⟨hlen, hnames, rfl⟩
    induction names generalizing n with
    | nil =>
      cases n <;> rfl
    | cons name names ih =>
      cases n with
      | zero => simp at hlen
      | succ n =>
        obtain ⟨c, cs, rfl, hc, hcs, hword⟩ := hnames _ List.mem_cons_self
        have hnext : ∃ d tail, isWord d = false ∧
            names.flatMap ('.' :: ·) ++ '#' :: '}' :: '}' :: rest = d :: tail := by
          cases names with
          | nil => exact ⟨'#', _, by decide, rfl⟩
          | cons name' names' => exact ⟨'.', _, by decide, rfl⟩
        obtain ⟨d, tail, hd, htail⟩ := hnext
        obtain ⟨htake, hdrop⟩ := takeWhile_word hword hd tail
        have hrec := ih n (by simpa using hlen) fun w hw => hnames w (List.mem_cons_of_mem _ hw)
        simp only [List.flatMap_cons, List.cons_append, List.append_assoc]
        rw [htail, matchNames, htake, hdrop, if_pos (by simpa using ⟨hc, hcs⟩), ← htail, hrec]
        rfl

theorem dotted_cons (node : List Char) (names : List (List Char)) :
    dotted (node :: names) = node ++ names.flatMap ('.' :: ·) := by
  induction names generalizing node with
  | nil => simp [dotted]
  | cons name names ih =>
    have hstep : dotted (node :: name :: names) = node ++ '.' :: dotted (name :: names) := by
      simp [dotted, List.intercalate]
    rw [hstep, ih]
    simp

theorem matchPlaceholder_iff {cs : List Char} {key : List (List Char)} {rest : List Char} :
    matchPlaceholder cs = some (key, rest) ↔ ValidKey key ∧ cs = placeholder key ++ rest := by
  constructor
  · intro h
    unfold matchPlaceholder at h
    split at h
    next cs =>
      simp only [] at h
      split at h
      next hnode =>
        split at h
        next name names rest' hmatch =>
          cases h
          rw [Bool.and_eq_true, decide_eq_true_eq, decide_eq_true_eq] at hnode
          obtain ⟨hlen, hnames, hcs⟩ := (matchNames_iff _ _ _ _).mp hmatch
          refine ⟨⟨_, _, rfl, hnode.1, hnode.2, fun c hc =>
            List.all_eq_true.mp List.all_takeWhile c hc, by simp, hlen, hnames⟩, ?_⟩
          unfold placeholder
          rw [dotted_cons]
          conv_lhs => rw [← takeWhile_append_drop cs, hcs]
          simp
        next => cases h
      next => cases h
    next => cases h
  · rintro ⟨⟨node, names, rfl, hmin, hmax, hword, hne, hlen, hnames⟩, rfl⟩
    have hnext : ∃ tail, names.flatMap ('.' :: ·) ++ '#' :: '}' :: '}' :: rest = '.' :: tail := by
      cases names with
      | nil => exact absurd rfl hne
      | cons name names => exact ⟨_, rfl⟩
    obtain ⟨tail, htail⟩ := hnext
    obtain ⟨htake, hdrop⟩ := takeWhile_word hword (c := '.') (by decide) tail
    have hmatch := (matchNames_iff 10 _ names rest).mpr ⟨hlen, hnames, rfl⟩
    have htext :
        placeholder (node :: names) ++ rest = '{' :: '{' :: '#' :: (node ++ '.' :: tail) := by
      unfold placeholder
      rw [dotted_cons, ← htail]
      simp
    rw [htext, matchPlaceholder, htake, hdrop, if_pos (by simpa using ⟨hmin, hmax⟩), ← htail,
      hmatch]
    cases names with
    | nil => exact absurd rfl hne
    | cons name names => rfl

/-! ### The split -/

/-- `Splits parts cs`: the parts of the text in order. A text part is not empty, no placeholder
begins inside it and no other text part follows it. -/
inductive Splits : List Part → List Char → Prop where
  | nil : Splits [] []
  | key {k : List (List Char)} {parts : List Part} {cs : List Char} (hk : ValidKey k)
    (h : Splits parts cs) : Splits (.key k :: parts) (placeholder k ++ cs)
  | text {s : List Char} {parts : List Part} {cs : List Char} (hs : s ≠ [])
    (hfree : ∀ front back, s = front ++ back → back ≠ [] → matchPlaceholder (back ++ cs) = none)
    (hnext : ∀ s', parts.head? ≠ some (.text s')) (h : Splits parts cs) :
    Splits (.text s :: parts) (s ++ cs)

theorem placeholder_ne_nil (key : List (List Char)) : 0 < (placeholder key).length := by
  simp [placeholder]

private theorem splits_splitParts (fuel : Nat) (acc cs : List Char) (hfuel : cs.length ≤ fuel)
    (hacc : ∀ front back, acc.reverse = front ++ back → back ≠ [] →
      matchPlaceholder (back ++ cs) = none) :
    Splits (splitParts fuel acc cs) (acc.reverse ++ cs) := by
  induction fuel generalizing acc cs with
  | zero =>
    have hnil : cs = [] := List.length_eq_zero_iff.mp (Nat.le_zero.mp hfuel)
    subst hnil
    unfold splitParts flushText
    split
    next he =>
      rw [List.isEmpty_iff.mp he]
      exact .nil
    next he => exact .text (by simpa using he) hacc (by simp) .nil
  | succ fuel ih =>
    cases cs with
    | nil =>
      unfold splitParts flushText
      split
      next he =>
        rw [List.isEmpty_iff.mp he]
        exact .nil
      next he => exact .text (by simpa using he) hacc (by simp) .nil
    | cons c cs =>
      rw [splitParts]
      split
      next key rest hmatch =>
        obtain ⟨hkey, hcs⟩ := matchPlaceholder_iff.mp hmatch
        have hlen := congrArg List.length hcs
        rw [List.length_append] at hlen
        have hpos := placeholder_ne_nil key
        have hrest := ih [] rest (by simp only [List.length_cons] at hlen hfuel; omega)
          fun front back he hb => by
            have := List.append_eq_nil_iff.mp he.symm
            exact absurd this.2 hb
        have hkeyed : Splits (.key key :: splitParts fuel [] rest) (c :: cs) := by
          rw [hcs]
          exact .key hkey (by simpa using hrest)
        unfold flushText
        split
        next he =>
          rw [List.isEmpty_iff.mp he]
          exact hkeyed
        next he => exact .text (by simpa using he) hacc (by simp) hkeyed
      next hnone =>
        have hstep := ih (c :: acc) cs (by simpa using hfuel) fun front back he hb => by
          rw [List.reverse_cons] at he
          rcases List.eq_nil_or_concat back with rfl | ⟨back', d, rfl⟩
          · exact absurd rfl hb
          · rw [List.concat_eq_append, ← List.append_assoc] at he
            obtain ⟨hfront, hd⟩ := List.append_inj' he rfl
            rw [List.concat_eq_append, ← hd, List.append_assoc]
            cases back' with
            | nil => exact hnone
            | cons b back' => exact hacc front (b :: back') hfront (by simp)
        simpa using hstep

theorem splits_split (template : String) : Splits (split template) template.toList := by
  have h := splits_splitParts template.toList.length [] template.toList (Nat.le_refl _)
    fun front back he hb => absurd (List.append_eq_nil_iff.mp he.symm).2 hb
  exact h

namespace Splits

variable {parts parts' : List Part} {cs : List Char}

theorem source (h : Splits parts cs) : parts.flatMap Part.source = cs := by
  induction h with
  | nil => rfl
  | key hk h ih => rw [List.flatMap_cons, ih, Part.source]
  | text hs hfree hnext h ih => rw [List.flatMap_cons, ih, Part.source]

theorem valid (h : Splits parts cs) : (∀ k, .key k ∈ parts → ValidKey k) ∧
    ∀ s, .text s ∈ parts → s ≠ [] := by
  induction h with
  | nil => simp
  | key hk h ih =>
    refine ⟨fun k hk' => ?_, fun s hs => ?_⟩
    · rcases List.mem_cons.mp hk' with heq | hk'
      · cases heq
        exact hk
      · exact ih.1 k hk'
    · rcases List.mem_cons.mp hs with heq | hs
      · cases heq
      · exact ih.2 s hs
  | text hs hfree hnext h ih =>
    refine ⟨fun k hk => ?_, fun s hs' => ?_⟩
    · rcases List.mem_cons.mp hk with heq | hk
      · cases heq
      · exact ih.1 k hk
    · rcases List.mem_cons.mp hs' with heq | hs'
      · cases heq
        exact hs
      · exact ih.2 s hs'

theorem apart (h : Splits parts cs) {front back : List Part} {s s' : List Char} :
    parts ≠ front ++ .text s :: .text s' :: back := by
  induction h generalizing front with
  | nil => simp
  | key hk h ih =>
    cases front with
    | nil => simp
    | cons p front =>
      intro he
      exact ih (List.cons.inj he).2
  | text hs hfree hnext h ih =>
    cases front with
    | nil =>
      intro he
      obtain ⟨-, hrest⟩ := List.cons.inj he
      exact hnext s' (by rw [hrest]; rfl)
    | cons p front =>
      intro he
      exact ih (List.cons.inj he).2

private theorem starts (h : Splits parts cs) (hnext : ∀ s, parts.head? ≠ some (.text s)) :
    cs = [] ∨ ∃ k rest, matchPlaceholder cs = some (k, rest) := by
  cases h with
  | nil => exact .inl rfl
  | key hk h => exact .inr ⟨_, _, matchPlaceholder_iff.mpr ⟨hk, rfl⟩⟩
  | text hs hfree _ h => exact absurd rfl (hnext _)

theorem unique (h : Splits parts cs) (h' : Splits parts' cs) : parts = parts' := by
  induction h generalizing parts' with
  | nil =>
    generalize hcs : ([] : List Char) = cs at h'
    cases h' with
    | nil => rfl
    | key hk h' =>
      have := congrArg List.length hcs
      have hpos := placeholder_ne_nil ‹_›
      rw [List.length_append, List.length_nil] at this
      omega
    | text hs hfree hnext h' => exact absurd (List.append_eq_nil_iff.mp hcs.symm).1 hs
  | @key k parts cs hk h ih =>
    have hmatch := matchPlaceholder_iff.mpr ⟨hk, (rfl : placeholder k ++ cs = _)⟩
    generalize hcs : placeholder k ++ cs = all at h' hmatch
    cases h' with
    | nil =>
      have := congrArg List.length hcs
      have hpos := placeholder_ne_nil k
      rw [List.length_append, List.length_nil] at this
      omega
    | @key k' parts' cs' hk' h' =>
      have hmatch' := matchPlaceholder_iff.mpr ⟨hk', (rfl : placeholder k' ++ cs' = _)⟩
      rw [hmatch] at hmatch'
      cases hmatch'
      rw [ih h']
    | text hs hfree hnext h' =>
      have := hfree [] _ rfl hs
      rw [hmatch] at this
      cases this
  | @text s parts cs hs hfree hnext h ih =>
    generalize hcs : s ++ cs = all at h'
    cases h' with
    | nil => exact absurd (List.append_eq_nil_iff.mp hcs).1 hs
    | @key k' parts' cs' hk' h' =>
      have hmatch := matchPlaceholder_iff.mpr ⟨hk', (rfl : placeholder k' ++ cs' = _)⟩
      have := hfree [] s rfl hs
      rw [hcs, hmatch] at this
      cases this
    | @text s' parts' cs' hs' hfree' hnext' h' =>
      -- whichever text part is longer would contain the placeholder after the other
      have hsame : s = s' := by
        rcases List.append_eq_append_iff.mp hcs with ⟨mid, rfl, hmid⟩ | ⟨mid, rfl, hmid⟩
        · cases mid with
          | nil => simp
          | cons c mid =>
            rcases h.starts hnext with hnil | ⟨k, rest, hmatch⟩
            · rw [hnil] at hmid
              cases hmid
            · have := hfree' s (c :: mid) rfl (by simp)
              rw [← hmid, hmatch] at this
              cases this
        · cases mid with
          | nil => simp
          | cons c mid =>
            rcases h'.starts hnext' with hnil | ⟨k, rest, hmatch⟩
            · rw [hnil] at hmid
              cases hmid
            · have := hfree s' (c :: mid) rfl (by simp)
              rw [← hmid, hmatch] at this
              cases this
      subst hsame
      rw [ih (List.append_cancel_left hcs ▸ h')]

end Splits

theorem split_eq_iff {template : String} {parts : List Part} :
    split template = parts ↔ Splits parts template.toList :=
  ⟨fun h => h ▸ splits_split template, (splits_split template).unique⟩

end PlatformSpec.Response
