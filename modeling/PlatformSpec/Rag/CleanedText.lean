import PlatformSpec.Rag.MaskedText

/-!
# What cleaning leaves

Without rules cleaning takes out characters of its list alone. With the removal of URLs and e-mail
addresses it takes out the URLs between the links, and these stay.
-/

namespace PlatformSpec.Rag.CleanProcessor

open Base Base.Scan Base.Replace

/-! ## URLs between links -/

section Urls

variable {β : Type} {f : β → List Char} {l : List (Char ⊕ β)}

/-- The links, and the characters outside of URLs. -/
def withoutUrls (tokens : List (Char ⊕ β)) : List (Char ⊕ β) :=
  substitute (fun l => findUrl (chars l)) (fun _ => []) tokens

/-- No link stands directly behind a URL: where one begins, there is white space before the next
link. -/
def Detached (tokens : List (Char ⊕ β)) : Prop :=
  ∀ back ∈ tokens.tails, scheme (chars back) ≠ [] → (∀ c ∈ chars back, isSpace c = false) →
    (chars back).length = back.length

theorem Detached.of_append (front : List (Char ⊕ β)) (h : Detached (front ++ l)) : Detached l := by
  intro back hback
  apply h back
  rw [List.mem_tails] at hback ⊢
  exact hback.trans (List.suffix_append front l)

theorem Detached.not_url {u : List Char} {m : β} {front back : List (Char ⊕ β)}
    (h : Detached (front ++ (u.map .inl ++ .inr m :: back))) :
    ¬ (scheme u ≠ [] ∧ ∀ c ∈ u, isSpace c = false) := by
  rintro ⟨hscheme, hspace⟩
  have hchars : chars (u.map .inl ++ .inr m :: back) = u :=
    (chars_map u (.inr m :: back)).trans (List.append_nil u)
  have hlength := h _ ((List.mem_tails _ _).mpr (List.suffix_append front _)) (by rwa [hchars])
    (by rwa [hchars])
  rw [hchars, List.length_append, List.length_map, List.length_cons] at hlength
  omega

variable {s : List Char}

theorem findUrl_cons {d : Char} (h : d ≠ 'h') : findUrl (d :: s) = none := by
  refine findUrl_eq_none_iff.mpr (.inl ?_)
  rcases scheme_cases (d :: s) with ⟨he, -⟩ | ⟨-, rest, hrest⟩ | ⟨-, rest, hrest⟩
  · exact he
  · exact absurd (List.cons.inj hrest).1.symm h
  · exact absurd (List.cons.inj hrest).1.symm h

theorem substitute_append_of_not_mem {a b : List Char} (h : 'h' ∉ a) :
    substitute findUrl (fun _ => []) (a ++ b) = a ++ substitute findUrl (fun _ => []) b := by
  induction a with
  | nil => rfl
  | cons d a ih =>
    rw [List.mem_cons, not_or] at h
    rw [List.cons_append, substitute_of_passed (findUrl_cons (Ne.symm h.1)), ih h.2]
    rfl

private theorem findUrl_fill (hf : ∀ p x, (f p).head? = some x → x ∉ "https:/".toList)
    (hne : ∀ p, f p ≠ []) (hl : Detached l) : findUrl (fill f l) = findUrl (chars l) := by
  obtain ⟨r, hr, hend⟩ := eq_chars_append l
  have hsplit : fill f l = chars l ++ fill f r := by
    conv_lhs => rw [hr]
    rw [fill_append, fill_map]
  rw [hsplit]
  rcases hend with rfl | ⟨p, back, rfl⟩
  · exact findUrl_append (fun x hx => by cases hx) (.inl rfl)
  · apply findUrl_append
    · intro x hx
      rw [fill_cons, Sum.elim_inr, List.head?_append_of_ne_nil _ (hne p)] at hx
      exact hf p x hx
    · rw [hr] at hl
      exact .inr (@Detached.not_url _ _ p [] back hl)

theorem substitute_fill (hf : ∀ p x, (f p).head? = some x → x ∉ "https:/".toList)
    (hne : ∀ p, f p ≠ []) (hh : ∀ p, 'h' ∉ f p) (hl : Detached l) :
    substitute findUrl (fun _ => []) (fill f l) = fill f (withoutUrls l) := by
  induction l using scan_induction (fun l : List (Char ⊕ β) => findUrl (chars l)) with
  | nil => rfl
  | passed x l hnone ih =>
    have hrest : Detached l := Detached.of_append [x] hl
    have hpass : withoutUrls (x :: l) = x :: withoutUrls l := substitute_of_passed hnone
    rw [hpass, fill_cons, fill_cons, ← ih hrest]
    cases x with
    | inr p => exact substitute_append_of_not_mem (hh p)
    | inl c =>
      have htext := findUrl_fill hf hne hl
      exact substitute_of_passed (htext.trans hnone)
  | found x l u n hsome ih =>
    obtain ⟨hpos, hle⟩ := findUrl_some hsome
    cases x with
    | inr p => simp [chars] at hle; omega
    | inl c =>
      have htext := (findUrl_fill hf hne hl).trans hsome
      have hrest : n - 1 ≤ (chars l).length := by
        simp only [chars, List.length_cons] at hle
        omega
      have hdetached : Detached (l.drop (n - 1)) := by
        apply Detached.of_append (.inl c :: l.take (n - 1))
        rw [List.cons_append, List.take_append_drop]
        exact hl
      have hskip : withoutUrls (.inl c :: l) = withoutUrls (l.drop (n - 1)) :=
        substitute_of_found hsome
      have hskip' : substitute findUrl (fun _ => []) (c :: fill f l) =
          substitute findUrl (fun _ => []) ((fill f l).drop (n - 1)) := substitute_of_found htext
      rw [hskip, ← ih hdetached, ← (fill_place hrest).1]
      exact hskip'

private theorem chars_drop {n : Nat} (h : n ≤ (chars l).length) :
    chars (l.drop n) = (chars l).drop n := by
  induction n generalizing l with
  | zero => rfl
  | succ n ih =>
    match l with
    | [] => rfl
    | .inr _ :: _ => simp [chars] at h
    | .inl c :: l => exact ih (Nat.le_of_succ_le_succ h)

private theorem isSpace_behind {u : Unit} {n : Nat} (h : findUrl s = some (u, n))
    {x : Char} (hx : (s.drop n).head? = some x) : isSpace x = true := by
  unfold findUrl at h
  simp only at h
  split at h
  next => cases h
  next =>
    cases h
    have hrun := List.takeWhile_append_dropWhile (p := (!isSpace ·)) (l := s.drop (scheme s).length)
    have hdrop : (s.drop (scheme s).length).drop
        ((s.drop (scheme s).length).takeWhile (!isSpace ·)).length =
          (s.drop (scheme s).length).dropWhile (!isSpace ·) :=
      (congrArg (List.drop _) hrun).symm.trans List.drop_left
    rw [← List.drop_drop, hdrop] at hx
    have hnot := List.head?_dropWhile_not (!isSpace ·) (s.drop (scheme s).length)
    rw [hx] at hnot
    simpa using hnot

/-- Characters without white space that are left one after another stood one after another. -/
theorem eq_append_of_withoutUrls {w : List Char} (hw : w ≠ []) (hspace : ∀ c ∈ w, isSpace c = false)
    {r : List (Char ⊕ β)} (h : withoutUrls l = w.map .inl ++ r) :
    ∃ back, l = w.map .inl ++ back ∧ r = withoutUrls back := by
  induction w generalizing l with
  | nil => exact absurd rfl hw
  | cons c w ih =>
    match l with
    | [] => cases h
    | x :: l =>
      cases hfind : findUrl (chars (x :: l)) with
      | none =>
        have hpass : withoutUrls (x :: l) = x :: withoutUrls l := substitute_of_passed hfind
        rw [hpass] at h
        obtain ⟨hx, hrest⟩ := List.cons.inj h
        by_cases hnil : w = []
        · refine ⟨l, ?_, ?_⟩
          · rw [hx, hnil]
            rfl
          · rw [hrest, hnil]
            rfl
        · obtain ⟨back, hl, hr⟩ :=
            ih hnil (fun d hd => hspace d (List.mem_cons_of_mem _ hd)) hrest
          refine ⟨back, ?_, hr⟩
          rw [hx, hl]
          rfl
      | some p =>
        obtain ⟨u, n⟩ := p
        exfalso
        obtain ⟨hpos, hle⟩ := findUrl_some hfind
        have hskip : withoutUrls (x :: l) = withoutUrls (l.drop (n - 1)) :=
          substitute_of_found hfind
        have hbehind := chars_drop hle
        obtain ⟨k, rfl⟩ : ∃ k, n = k + 1 := ⟨n - 1, by omega⟩
        rw [List.drop_succ_cons] at hbehind
        rw [hskip, Nat.add_sub_cancel] at h
        match hdrop : l.drop k with
        | [] =>
          rw [hdrop] at h
          cases h
        | .inr p :: back =>
          have hpass : withoutUrls (.inr p :: back) = .inr p :: withoutUrls back :=
            substitute_of_passed rfl
          rw [hdrop, hpass] at h
          cases h
        | .inl d :: back =>
          have hd : isSpace d = true := by
            apply isSpace_behind hfind
            rw [← hbehind, hdrop]
            rfl
          have hpass : withoutUrls (.inl d :: back) = .inl d :: withoutUrls back := by
            apply substitute_of_passed
            apply findUrl_cons
            rintro rfl
            revert hd
            decide
          rw [hdrop, hpass] at h
          obtain ⟨hcd, -⟩ := List.cons.inj h
          rw [Sum.inl.inj hcd, hspace c List.mem_cons_self] at hd
          cases hd

theorem withoutUrls_append (front : List (Char ⊕ β)) (p : β) (back : List (Char ⊕ β)) :
    withoutUrls (front ++ .inr p :: back) = withoutUrls front ++ .inr p :: withoutUrls back := by
  have hchars : ∀ front : List (Char ⊕ β), chars (front ++ .inr p :: back) = chars front := by
    intro front
    induction front with
    | nil => rfl
    | cons x front ih =>
      cases x with
      | inl c => exact congrArg (c :: ·) ih
      | inr q => rfl
  induction front using scan_induction (fun l : List (Char ⊕ β) => findUrl (chars l)) with
  | nil => exact substitute_of_passed rfl
  | passed x front hnone ih =>
    have hleft : withoutUrls (x :: front) = x :: withoutUrls front := substitute_of_passed hnone
    have hwhole : withoutUrls (x :: (front ++ .inr p :: back)) =
        x :: withoutUrls (front ++ .inr p :: back) := by
      apply substitute_of_passed
      exact (congrArg findUrl (hchars (x :: front))).trans hnone
    rw [hleft, List.cons_append, hwhole, ih]
    rfl
  | found x front u n hsome ih =>
    have hleft : withoutUrls (x :: front) = withoutUrls (front.drop (n - 1)) :=
      substitute_of_found hsome
    have hwhole : withoutUrls (x :: (front ++ .inr p :: back)) =
        withoutUrls ((front ++ .inr p :: back).drop (n - 1)) := by
      refine substitute_of_found (i := u) ?_
      exact (congrArg findUrl (hchars (x :: front))).trans hsome
    have hle := (findUrl_some hsome).2
    have hfront : n - 1 ≤ front.length := by
      have hshort : (chars (x :: front)).length ≤ (x :: front).length := by
        obtain ⟨r, hr, -⟩ := eq_chars_append (x :: front)
        conv_rhs => rw [hr]
        simp
      rw [List.length_cons] at hshort
      omega
    rw [hleft, List.cons_append, hwhole, List.drop_append_of_le_length hfront, ih]

private theorem scheme_append_self (h : scheme s ≠ []) (t : List Char) :
    scheme (scheme s ++ t) = scheme s := by
  rcases scheme_cases s with ⟨he, -⟩ | ⟨he, -⟩ | ⟨he, -⟩
  · exact absurd he h
  · rw [he]
    exact if_pos (List.prefix_append _ _)
  · have hnot : ¬ "https://".toList <+: "http://".toList ++ t := by
      rintro ⟨rest, hrest⟩
      have hget := congrArg (·[4]?) hrest
      cases hget
    rw [he, scheme, if_neg hnot, if_pos (List.prefix_append _ _)]

theorem findUrl_of_withoutUrls (hf : ∀ p x, (f p).head? = some x → x ∉ "https:/".toList)
    (hne : ∀ p, f p ≠ []) (hl : Detached l) {front back : List (Char ⊕ β)} {c : Char}
    (h : withoutUrls l = front ++ .inl c :: back) : findUrl (c :: fill f back) = none := by
  obtain ⟨front', back', rfl, hnone, hback⟩ := exists_of_substitute_nil h
  have hleft : withoutUrls (.inl c :: back') = .inl c :: back := by
    rw [hback]
    exact substitute_of_passed hnone
  obtain ⟨r, hr, hend⟩ := eq_chars_append (Sum.inl c :: back)
  have hsplit : c :: fill f back = chars (.inl c :: back) ++ fill f r := by
    show fill f (.inl c :: back) = _
    conv_lhs => rw [hr]
    rw [fill_append, fill_map]
  have hscheme : scheme (c :: fill f back) = scheme (chars (.inl c :: back)) := by
    rw [hsplit]
    apply scheme_append
    intro x hx
    rcases hend with rfl | ⟨p, more, rfl⟩
    · cases hx
    · rw [fill_cons, Sum.elim_inr, List.head?_append_of_ne_nil _ (hne p)] at hx
      exact hf p x hx
  by_cases hnil : scheme (c :: fill f back) = []
  · exact findUrl_eq_none_iff.mpr (.inl hnil)
  refine findUrl_eq_none_iff.mpr (.inr ?_)
  rw [hscheme] at hnil ⊢
  obtain ⟨s, hs⟩ := scheme_start (chars (.inl c :: back))
  generalize hw : scheme (chars (.inl c :: back)) = w at hnil hs ⊢
  have hspace : ∀ d ∈ w, isSpace d = false := by
    intro d hd
    exact not_isSpace_of_mem_scheme (hw ▸ hd)
  rw [← hs, List.map_append, List.append_assoc] at hr
  rw [hr] at hleft
  obtain ⟨more, hmore, hrest⟩ := eq_append_of_withoutUrls hnil hspace hleft
  -- What stands behind the scheme was no URL before, so it is white space or nothing.
  rw [hmore, chars_map] at hnone
  have hself : ∀ t, scheme (w ++ t) = w := by
    intro t
    rw [← hw]
    apply scheme_append_self
    rwa [hw]
  rw [findUrl_eq_none_iff, hself, List.drop_left] at hnone
  have htext : (c :: fill f back).drop w.length = fill f (withoutUrls more) := by
    rw [hsplit, ← hs, ← hrest, fill_append, fill_map, List.append_assoc, List.drop_left]
  rw [htext]
  rcases hnone with hnone | hnone
  · exact absurd hnone hnil
  match more with
  | [] => rfl
  | .inr p :: more =>
    rw [hmore] at hl
    refine absurd ⟨?_, hspace⟩ hl.not_url
    have hown := hself []
    rw [List.append_nil] at hown
    rwa [hown]
  | .inl d :: more =>
    have hd : isSpace d = true := by
      by_contra hd
      simp [chars, hd] at hnone
    have hpass : withoutUrls (.inl d :: more) = .inl d :: withoutUrls more := by
      apply substitute_of_passed
      apply findUrl_cons
      rintro rfl
      revert hd
      decide
    rw [hpass]
    show (d :: fill f (withoutUrls more)).takeWhile (!isSpace ·) = []
    rw [List.takeWhile_cons_of_neg]
    rw [hd]
    decide

end Urls

/-! ## The text without e-mail addresses -/

section Clean

variable {text : List Char} {l : List (Char ⊕ Nat × Markdown)}

theorem infix_of_map_infix {w : List Char} (h : w.map .inl <:+: l) : w <:+: sourceText l := by
  obtain ⟨front, back, rfl⟩ := h
  refine ⟨sourceText front, sourceText back, ?_⟩
  simp only [sourceText, fill_append, fill_map]

theorem infix_of_link {k : Nat} {m : Markdown} (h : .inr (k, m) ∈ tokens text) :
    m.source <:+: text := by
  obtain ⟨front, back, he⟩ := List.append_of_mem h
  have htext := sourceText_tokens text
  rw [he, sourceText, fill_append, fill_cons] at htext
  exact ⟨_, _, by rw [← htext, List.append_assoc]; rfl⟩

theorem infix_append_cons {w a b : List Char} {c : Char} (hc : c ∉ w)
    (h : w <:+: a ++ c :: b) : w <:+: a ∨ w <:+: b := by
  obtain ⟨front, back, he⟩ := h
  rw [List.append_assoc] at he
  rcases List.append_eq_append_iff.mp he with ⟨x, ha, hrest⟩ | ⟨x, -, hrest⟩
  · rcases List.append_eq_append_iff.mp hrest with ⟨y, hx, -⟩ | ⟨y, hw, hcons⟩
    · left
      exact ⟨front, y, by rw [ha, hx, List.append_assoc]⟩
    · cases y with
      | nil =>
        rw [List.append_nil] at hw
        left
        exact ⟨front, [], by rw [ha, hw, List.append_nil]⟩
      | cons d y =>
        rw [List.cons_append, List.cons.injEq] at hcons
        rw [hw, hcons.1] at hc
        exact absurd (List.mem_append_right _ List.mem_cons_self) hc
  · cases x with
    | nil =>
      rw [List.nil_append] at hrest
      cases w with
      | nil => exact .inl ⟨[], a, rfl⟩
      | cons d w =>
        rw [List.cons_append, List.cons.injEq] at hrest
        rw [hrest.1] at hc
        exact absurd List.mem_cons_self hc
    | cons d x =>
      right
      rw [List.cons_append, List.cons.injEq] at hrest
      exact ⟨x, back, by rw [hrest.2, List.append_assoc]⟩

private theorem stored_clear {m : Markdown} (h : ¬ placeholderName <:+: m.source) :
    ¬ placeholderName <:+: m.stored.source := by
  unfold Markdown.stored
  split
  next => exact h
  next himage =>
    intro hin
    apply h
    have hurl : m.url <:+: m.source := by
      rw [Markdown.source, himage]
      exact ⟨'!' :: '[' :: (m.textOrAlt ++ [']', '(']), [')'], by simp⟩
    refine List.IsInfix.trans ?_ hurl
    have hfront : Markdown.source { m with textOrAlt := "image".toList } =
        "![image]".toList ++ '(' :: (m.url ++ ')' :: []) := by
      rw [Markdown.source, himage]
      rfl
    rw [hfront] at hin
    rcases infix_append_cons (by decide) hin with hin | hin
    · exact absurd hin (by decide)
    · rcases infix_append_cons (by decide) hin with hin | hin
      · exact hin
      · exact absurd hin (by decide)

private theorem name_withoutUrls
    (h : placeholderName.map .inl <:+: withoutUrls l) : placeholderName.map .inl <:+: l := by
  obtain ⟨front, back, he⟩ := h
  rw [placeholderName_cons, List.map_cons, List.append_assoc, List.cons_append] at he
  obtain ⟨front', back', rfl, hnone, hback⟩ := exists_of_substitute_nil he.symm
  have hleft : withoutUrls (.inl 'M' :: back') = placeholderName.map .inl ++ back := by
    rw [placeholderName_cons, List.map_cons, List.cons_append, hback]
    exact substitute_of_passed hnone
  obtain ⟨more, hmore, -⟩ := eq_append_of_withoutUrls (by decide) (forall_of_all (by decide)) hleft
  rw [hmore]
  exact ⟨front', more, by rw [List.append_assoc]⟩

/-- Links and images stand unchanged, but for the alternative text of some images, and what is
taken out are the URLs between them. -/
theorem removeUrlsEmails_eq {t : List Char} (ht : t = withoutEmails text)
    (hname : ¬ placeholderName <:+: t) (hdetached : Detached (tokens t)) (happart : ImagesApart t) :
    removeUrlsEmails text = restoredText (withoutUrls (tokens t)) := by
  obtain ⟨hmask, -⟩ := replaceImages_eq happart
  have hunder : ∀ (p : Nat × Markdown) x, (placeholder p.1).head? = some x →
      x ∉ "https:/".toList := by
    intro p x hx
    cases hx
    decide
  have hurls := substitute_fill hunder (fun _ => List.cons_ne_nil _ _)
    (fun p => not_mem_placeholder (by decide) (by decide)) hdetached
  have hclear : ¬ placeholderName.map .inl <:+: withoutUrls (tokens t) := by
    intro hin
    apply hname
    rw [← sourceText_tokens t]
    exact infix_of_map_infix (name_withoutUrls hin)
  have hmem : ∀ {k m}, .inr (k, m) ∈ withoutUrls (tokens t) → .inr (k, m) ∈ tokens t :=
    fun h => (substitute_sublist (fun _ => List.nil_sublist _) (tokens t)).subset h
  have hrestore := @restore_maskedText (withoutUrls (tokens t)) (placeholders t) hclear
    (fun k m h => stored_clear fun hin => hname (hin.trans (infix_of_link (hmem h))))
    fun k m h => getElem_placeholders happart (hmem h)
  rw [← hrestore, removeUrlsEmails, ← ht, hmask]
  exact congrArg (restore _) hurls

/-! ## What the rules name -/

/-- The control characters of ASCII but tabs and line breaks, and the non-character U+FFFE. -/
def isNamed (c : Char) : Bool :=
  (c.toNat < 0x20 || c.toNat == 0x7F) && !([0x09, 0x0A, 0x0D].contains c.toNat) ||
    c.toNat == 0xFFFE

/-- `ï`, `¿` and `¾`: the bytes of U+FFFE in UTF-8, read as characters. -/
def isMisread (c : Char) : Bool := [0xEF, 0xBF, 0xBE].contains c.toNat

/-- The ids of the rules that are enabled. -/
def enabledRules (processRule : Option (Option (List PreProcessingRule))) : List String :=
  ((preProcessingRules processRule).filter (·.enabled)).map (·.id)

private theorem foldl_applyRule (rules : List PreProcessingRule) (text : List Char) :
    rules.foldl applyRule text = (rules.filter (·.enabled)).foldl applyRule text := by
  induction rules generalizing text with
  | nil => rfl
  | cons rule rules ih =>
    rw [List.foldl_cons, ih, List.filter_cons]
    split
    next => rfl
    next hdisabled => rw [applyRule, if_neg (fun h => hdisabled h.2),
      if_neg (fun h => hdisabled h.2)]

variable {processRule : Option (Option (List PreProcessingRule))}

theorem clean_of_disabled (h : enabledRules processRule = []) (text : List Char) :
    clean text processRule = removeInvalidSymbols text := by
  rw [enabledRules, List.map_eq_nil_iff] at h
  rw [clean, foldl_applyRule, h, List.foldl_nil]

theorem clean_of_urls (h : enabledRules processRule = ["remove_urls_emails"]) (text : List Char) :
    clean text processRule = removeUrlsEmails (removeInvalidSymbols text) := by
  rw [enabledRules, List.map_eq_singleton_iff] at h
  obtain ⟨rule, hrules, hid⟩ := h
  have henabled : rule.enabled = true := by
    have hmem : rule ∈ (preProcessingRules processRule).filter (·.enabled) := by
      rw [hrules]
      exact List.mem_cons_self
    exact (List.mem_filter.mp hmem).2
  rw [clean, foldl_applyRule, hrules, List.foldl_cons, List.foldl_nil, applyRule, hid]
  rw [if_neg fun h => absurd h.1 (by decide), if_pos ⟨rfl, henabled⟩]

private theorem named_or_misread (c : Char) :
    (!isMisread c && c.toNat != 0xFFFE && !isInvalidSymbol c) = (!isMisread c && !isNamed c) := by
  unfold isMisread isNamed isInvalidSymbol
  generalize c.toNat = n
  rw [Bool.eq_iff_iff]
  simp only [Bool.and_eq_true, Bool.not_eq_true', Bool.or_eq_false_iff, Bool.and_eq_false_iff,
    List.contains_cons, List.contains_nil, Bool.or_false, bne_iff_ne, beq_eq_false_iff_ne,
    decide_eq_false_iff_not, Bool.not_eq_false', Bool.or_eq_true, beq_iff_eq]
  omega

theorem filter_removeInvalidSymbols (hopen : ¬ ['<', '|'] <:+: text)
    (hclose : ¬ ['|', '>'] <:+: text) :
    (removeInvalidSymbols text).filter (fun c => !isMisread c) =
      text.filter fun c => !isMisread c && !isNamed c := by
  rw [removeInvalidSymbols, replaceAll_of_absent hopen, replaceAll_of_absent hclose,
    List.filter_filter, List.filter_filter]
  exact List.filter_congr fun c _ => named_or_misread c

/-- What is left of a text whose e-mail addresses were removed: links and images at their place,
among the characters outside of URLs. -/
structure KeepsLinks (t result : List Char) : Prop where
  whole : sourceText (tokens t) = t
  result_eq : result = restoredText (withoutUrls (tokens t))
  survives : ∀ front k m back, tokens t = front ++ .inr (k, m) :: back →
    t = sourceText front ++ (m.source ++ sourceText back) ∧
      result = restoredText (withoutUrls front) ++
        (m.stored.source ++ restoredText (withoutUrls back))
  no_url : ∀ front c back, withoutUrls (tokens t) = front ++ .inl c :: back →
    findUrl (c :: restoredText back) = none

/-- Without rules cleaning takes out the characters it names. With URLs and e-mail addresses to be
removed it keeps the links and images, and takes out all URLs between them. -/
theorem clean_keeps (text : List Char) (processRule : Option (Option (List PreProcessingRule))) :
    (enabledRules processRule = [] → ¬ ['<', '|'] <:+: text → ¬ ['|', '>'] <:+: text →
      (clean text processRule).filter (fun c => !isMisread c) =
        text.filter fun c => !isMisread c && !isNamed c) ∧
    (enabledRules processRule = ["remove_urls_emails"] →
      ∀ t, t = withoutEmails (removeInvalidSymbols text) → ¬ placeholderName <:+: t →
        Detached (tokens t) → ImagesApart t → KeepsLinks t (clean text processRule)) := by
  constructor
  · intro hrules hopen hclose
    rw [clean_of_disabled hrules]
    exact filter_removeInvalidSymbols hopen hclose
  · intro hrules t ht hname hdetached happart
    rw [clean_of_urls hrules, removeUrlsEmails_eq ht hname hdetached happart]
    refine ⟨sourceText_tokens t, rfl, ?_, ?_⟩
    · intro front k m back he
      constructor
      · rw [← sourceText_tokens t, he, sourceText, fill_append, fill_cons]
        rfl
      · rw [he, withoutUrls_append, restoredText, fill_append, fill_cons]
        rfl
    · intro front c back he
      refine findUrl_of_withoutUrls ?_ ?_ hdetached he
      · rintro ⟨k, m⟩ x hx
        unfold Markdown.source at hx
        split at hx
        next =>
          cases hx
          decide
        next =>
          cases hx
          decide
      · rintro ⟨k, m⟩
        exact List.ne_nil_of_length_pos (source_pos _)

end Clean

/-! ## Characters and links that are lost -/

instance {β : Type} (tokens : List (Char ⊕ β)) : Decidable (Detached tokens) :=
  @List.decidableBAll _ (fun back => scheme (chars back) ≠ [] →
    (∀ c ∈ chars back, isSpace c = false) → (chars back).length = back.length)
    (fun back =>
      letI : Decidable (∀ c ∈ chars back, isSpace c = false) := List.decidableBAll _ _
      inferInstance) tokens.tails

private def removeUrlsRule : Option (Option (List PreProcessingRule)) :=
  some (some [⟨"remove_extra_spaces", false⟩, ⟨"remove_urls_emails", true⟩])

private def linkText : List Char := "http://a [b](http://c) ".toList

/-- A link stays where a URL and an e-mail address are taken out. -/
theorem clean_linkText :
    (clean ['a', '\t', '\x07'] none).filter (fun c => !isMisread c) = ['a', '\t'] ∧
      KeepsLinks linkText (clean (linkText ++ "d@e.f".toList) removeUrlsRule) ∧
      clean (linkText ++ "d@e.f".toList) removeUrlsRule = " [b](http://c) ".toList := by
  have himages : ∀ x ∈ scan findImage 0 (replaceLinks linkText []).1, x.isLeft = true := by
    decide +kernel
  have hemails : linkText = withoutEmails (removeInvalidSymbols (linkText ++ "d@e.f".toList)) := by
    decide +kernel
  have hname : ¬ placeholderName <:+: linkText := by decide +kernel
  have hdetached : Detached (tokens linkText) := by decide +kernel
  have hkeeps := (clean_keeps _ removeUrlsRule).2 rfl linkText hemails hname hdetached
    fun m block hmem => by cases himages _ hmem
  refine ⟨(clean_keeps ['a', '\t', '\x07'] none).1 rfl (by decide) (by decide), hkeeps, ?_⟩
  decide +kernel

/-- The general category `Cc`. -/
def isControl (c : Char) : Bool := c.toNat ≤ 0x1F || (0x7F ≤ c.toNat && c.toNat ≤ 0x9F)

def isNonCharacter (c : Char) : Bool :=
  (0xFDD0 ≤ c.toNat && c.toNat ≤ 0xFDEF) || c.toNat % 0x10000 == 0xFFFE ||
    c.toNat % 0x10000 == 0xFFFF

/-- Line breaks are kept and `ï` is not, and a link directly behind a URL goes with it. -/
theorem clean_not_exact :
    clean ['a', '\n', 'b'] none ≠
        ['a', '\n', 'b'].filter (fun c => !isControl c && !isNonCharacter c) ∧
      clean ['ï'] none ≠ ['ï'].filter (fun c => !isControl c && !isNonCharacter c) ∧
      clean "http://a[b](http://c)".toList removeUrlsRule = [] := by
  decide +kernel

end PlatformSpec.Rag.CleanProcessor
