import PlatformSpec.Base.Decimal
import PlatformSpec.Rag.CleanProcessor

/-!
# Links put aside

A text falls into characters, links and images. The passes over the text leave placeholders for the
links and images, and these are restored if the name of the placeholders stands nowhere else.
-/

namespace PlatformSpec.Rag.CleanProcessor

open Base Base.Scan Base.Replace

/-! ## Links among characters -/

section Tokens

variable {β : Type}

/-- The characters before the next link. -/
def chars : List (Char ⊕ β) → List Char
  | .inl c :: tokens => c :: chars tokens
  | _ => []

/-- A text with something in place of each link. -/
def fill (f : β → List Char) (tokens : List (Char ⊕ β)) : List Char :=
  tokens.flatMap (Sum.elim ([·]) f)

variable {f : β → List Char} {tokens : List (Char ⊕ β)}

theorem chars_map (s : List Char) (tokens : List (Char ⊕ β)) :
    chars (s.map .inl ++ tokens) = s ++ chars tokens := by
  induction s with
  | nil => rfl
  | cons c s ih => exact congrArg (c :: ·) ih

theorem chars_map_inl (s : List Char) : chars (s.map (.inl : Char → Char ⊕ β)) = s := by
  have h := chars_map s ([] : List (Char ⊕ β))
  rw [List.append_nil] at h
  rw [h]
  exact List.append_nil s

theorem fill_append (l r : List (Char ⊕ β)) : fill f (l ++ r) = fill f l ++ fill f r :=
  List.flatMap_append

theorem fill_cons (x : Char ⊕ β) (r : List (Char ⊕ β)) :
    fill f (x :: r) = Sum.elim ([·]) f x ++ fill f r :=
  List.flatMap_cons

theorem fill_map (s : List Char) : fill f (s.map .inl) = s := by
  induction s with
  | nil => rfl
  | cons c s ih => exact congrArg (c :: ·) ih

theorem eq_chars_append (tokens : List (Char ⊕ β)) :
    ∃ r, tokens = (chars tokens).map .inl ++ r ∧ (r = [] ∨ ∃ m back, r = .inr m :: back) := by
  induction tokens with
  | nil => exact ⟨[], rfl, .inl rfl⟩
  | cons x tokens ih =>
    cases x with
    | inl c =>
      obtain ⟨r, he, hr⟩ := ih
      refine ⟨r, ?_, hr⟩
      conv_lhs => rw [he]
      rfl
    | inr m => exact ⟨.inr m :: tokens, rfl, .inr ⟨m, tokens, rfl⟩⟩

/-- Among the characters before the next link, a place in the text is a place among the tokens. -/
theorem fill_place {n : Nat} (h : n ≤ (chars tokens).length) :
    (fill f tokens).drop n = fill f (tokens.drop n) ∧
      (fill f tokens).take n = fill f (tokens.take n) := by
  induction n generalizing tokens with
  | zero => exact ⟨rfl, rfl⟩
  | succ n ih =>
    match tokens with
    | [] => simp [chars] at h
    | .inr _ :: _ => simp [chars] at h
    | .inl c :: tokens =>
      obtain ⟨hdrop, htake⟩ := ih (Nat.le_of_succ_le_succ h)
      exact ⟨hdrop, congrArg (c :: ·) htake⟩

end Tokens

/-! ## Placeholders -/

/-- The links found in a text, numbered from some number on. -/
def number (linkType : LinkType) :
    Nat → List ((Char ⊕ Nat × Markdown) ⊕ (List Char × List Char) × List (Char ⊕ Nat × Markdown)) →
      List (Char ⊕ Nat × Markdown)
  | _, [] => []
  | n, .inl x :: rest => x :: number linkType n rest
  | n, .inr (p, _) :: rest => .inr (n, ⟨linkType, p.1, p.2⟩) :: number linkType (n + 1) rest

/-- The links among characters that a search finds between the links found before. -/
def putAside (linkType : LinkType) (find : List Char → Option ((List Char × List Char) × Nat))
    (n : Nat) (tokens : List (Char ⊕ Nat × Markdown)) : List (Char ⊕ Nat × Markdown) :=
  number linkType n (scan (fun l => find (chars l)) 0 tokens)

/-- The links in a text. -/
def linkTokens (text : List Char) : List (Char ⊕ Nat × Markdown) :=
  putAside .link findLink 0 (text.map .inl)

/-- The links and images in a text, each with the number of its placeholder. -/
def tokens (text : List Char) : List (Char ⊕ Nat × Markdown) :=
  putAside .image findImage (replaceLinks text []).2.length (linkTokens text)

/-- The text with every link and image as it stands. -/
def sourceText (tokens : List (Char ⊕ Nat × Markdown)) : List Char :=
  fill (fun p => p.2.source) tokens

/-- The text with the placeholders. -/
def maskedText (tokens : List (Char ⊕ Nat × Markdown)) : List Char :=
  fill (fun p => placeholder p.1) tokens

/-- What is put aside: of an image the target only. -/
def Markdown.stored (m : Markdown) : Markdown :=
  match m.linkType with
  | .link => m
  | .image => { m with textOrAlt := "image".toList }

/-- The text with what was put aside. -/
def restoredText (tokens : List (Char ⊕ Nat × Markdown)) : List Char :=
  fill (fun p => p.2.stored.source) tokens

/-- A pattern finds a link or an image as it is written. -/
def Finds (linkType : LinkType) (find : List Char → Option ((List Char × List Char) × Nat)) :
    Prop :=
  ∀ {l m n}, find l = some (m, n) → n = (Markdown.source ⟨linkType, m.1, m.2⟩).length ∧
    Markdown.source ⟨linkType, m.1, m.2⟩ <+: l

private theorem finds_link : Finds .link findLink := fun h => (findLink_eq_some h).2

private theorem finds_image : Finds .image findImage := fun h => (findImage_eq_some h).2

section Passes

variable {linkType : LinkType} {find : List Char → Option ((List Char × List Char) × Nat)}

theorem source_pos (m : Markdown) : 0 < m.source.length := by
  unfold Markdown.source
  split
  next => exact Nat.succ_pos _
  next => exact Nat.succ_pos _

theorem sourceText_putAside (hfind : Finds linkType find) (n : Nat)
    (tokens : List (Char ⊕ Nat × Markdown)) :
    sourceText (putAside linkType find n tokens) = sourceText tokens := by
  induction tokens using scan_induction (fun l => find (chars l)) generalizing n with
  | nil => rfl
  | passed x tokens hnone ih =>
    rw [putAside, scan_of_passed hnone]
    show fill _ (x :: number _ _ _) = _
    rw [fill_cons, sourceText, fill_cons]
    exact congrArg (_ ++ ·) (ih n)
  | found x tokens m k hsome ih =>
    obtain ⟨hk, hstart⟩ := hfind hsome
    have hle : k ≤ (chars (x :: tokens)).length := hk ▸ hstart.length_le
    obtain ⟨hdrop, -⟩ := @fill_place _ (fun p : Nat × Markdown => p.2.source) _ _ hle
    have hpos := hk ▸ source_pos ⟨linkType, m.1, m.2⟩
    obtain ⟨k, rfl⟩ : ∃ k', k = k' + 1 := ⟨k - 1, by omega⟩
    have hfront : (fill (fun p : Nat × Markdown => p.2.source) (x :: tokens)).take (k + 1) =
        Markdown.source ⟨linkType, m.1, m.2⟩ := by
      obtain ⟨r, hr, -⟩ := eq_chars_append (x :: tokens)
      rw [hr, fill_append, fill_map, List.take_append_of_le_length hle]
      exact (hk ▸ List.prefix_iff_eq_take.mp hstart).symm
    rw [putAside, scan_of_found hsome]
    show fill _ (_ :: number _ _ _) = fill _ _
    rw [fill_cons]
    conv_rhs => rw [← List.take_append_drop (k + 1) (fill _ (x :: tokens))]
    rw [hfront, hdrop]
    exact congrArg (_ ++ ·) (ih (n + 1))

theorem sourceText_tokens (text : List Char) : sourceText (tokens text) = text := by
  rw [tokens, sourceText_putAside finds_image, linkTokens, sourceText_putAside finds_link]
  exact fill_map text

end Passes

/-! ## The passes over the text -/

section Masks

variable {c : Char} {i : Nat}

theorem mem_placeholder (h : c ∈ placeholder i) :
    c ∈ '_' :: placeholderName ∨ c.isDigit = true := by
  rw [placeholder, List.mem_cons, List.mem_cons, List.mem_append, List.mem_append] at h
  rw [List.mem_cons]
  rcases h with h | h | h | h | h
  · exact .inl (.inl h)
  · exact .inl (.inl h)
  · exact .inl (.inr h)
  · exact .inr (Nat.isDigit_of_mem_toDigits (by decide) (by decide) h)
  · simp only [List.mem_cons, List.not_mem_nil, or_false, or_self] at h
    exact .inl (.inl h)

theorem not_mem_placeholder (hname : c ∉ '_' :: placeholderName) (hdigit : c.isDigit = false) :
    c ∉ placeholder i := by
  intro h
  rcases mem_placeholder h with h | h
  · exact hname h
  · rw [hdigit] at h
    cases h

theorem name_infix_placeholder (i : Nat) : placeholderName <:+: placeholder i :=
  ⟨['_', '_'], Nat.toDigits 10 i ++ ['_', '_'], by simp [placeholder]⟩

end Masks

section Passes

variable {linkType : LinkType} {find : List Char → Option ((List Char × List Char) × Nat)}

/-- What a search passes and finds between links stands for in the text with placeholders. -/
def unmask {ι : Type} : (Char ⊕ Nat × Markdown) ⊕ ι × List (Char ⊕ Nat × Markdown) →
    List (Char ⊕ ι × List Char)
  | .inl (.inl c) => [.inl c]
  | .inl (.inr p) => (placeholder p.1).map .inl
  | .inr (m, block) => [.inr (m, maskedText block)]

/-- What is put aside for the links that are found. -/
def newPlaceholders (linkType : LinkType)
    (found : List ((Char ⊕ Nat × Markdown) ⊕
      (List Char × List Char) × List (Char ⊕ Nat × Markdown))) : List Markdown :=
  found.filterMap
    (Sum.elim (fun _ => none) fun p => some (Markdown.stored ⟨linkType, p.1.1, p.1.2⟩))

theorem replaceWithPlaceholder_append {ι : Type} (make : ι → Markdown) (s : List Char)
    (found : List (Char ⊕ ι × List Char)) (placeholders : List Markdown) :
    replaceWithPlaceholder make (s.map .inl ++ found) placeholders =
      (s ++ (replaceWithPlaceholder make found placeholders).1,
        (replaceWithPlaceholder make found placeholders).2) := by
  induction s with
  | nil => rfl
  | cons c s ih =>
    rw [List.map_cons, List.cons_append, replaceWithPlaceholder, ih]
    rfl

theorem replaceWithPlaceholder_eq (linkType : LinkType) {make : List Char × List Char → Markdown}
    (hmake : ∀ p, make p = Markdown.stored ⟨linkType, p.1, p.2⟩)
    (found : List ((Char ⊕ Nat × Markdown) ⊕
      (List Char × List Char) × List (Char ⊕ Nat × Markdown))) (placeholders : List Markdown) :
    replaceWithPlaceholder make (found.flatMap unmask) placeholders =
      (maskedText (number linkType placeholders.length found),
        placeholders ++ newPlaceholders linkType found) := by
  induction found generalizing placeholders with
  | nil => simp [replaceWithPlaceholder, newPlaceholders, maskedText, fill, number]
  | cons x found ih =>
    rw [List.flatMap_cons]
    match x with
    | .inl (.inl c) =>
      have hone := replaceWithPlaceholder_append make [c] (found.flatMap unmask) placeholders
      rw [ih] at hone
      exact hone
    | .inl (.inr p) =>
      rw [unmask, replaceWithPlaceholder_append, ih]
      rfl
    | .inr (p, block) =>
      rw [unmask, List.singleton_append, replaceWithPlaceholder, ih, hmake]
      simp only [List.length_append, List.length_singleton, List.append_assoc]
      rfl

private theorem flatMap_unmask_links (text : List Char) :
    (scan (fun l => findLink (chars l)) 0
      (text.map (.inl : Char → Char ⊕ Nat × Markdown))).flatMap unmask = scan findLink 0 text := by
  have hfind : (fun l : List Char =>
      findLink (chars (l.map (.inl : Char → Char ⊕ Nat × Markdown)))) = findLink := by
    funext l
    rw [chars_map_inl]
  rw [map_scan, hfind, List.flatMap_map]
  have hone : ∀ x : Char ⊕ (List Char × List Char) × List Char,
      unmask (Sum.map (.inl : Char → Char ⊕ Nat × Markdown) (Prod.map id (List.map .inl)) x) =
        [x] := by
    rintro (c | ⟨m, block⟩)
    · rfl
    · show [Sum.inr (m, maskedText (block.map .inl))] = _
      rw [maskedText, fill_map]
  simp only [hone]
  exact List.flatMap_singleton' _

theorem replaceLinks_eq (text : List Char) : replaceLinks text [] =
    (maskedText (linkTokens text), newPlaceholders .link
      (scan (fun l => findLink (chars l)) 0 (text.map .inl))) := by
  rw [replaceLinks, ← flatMap_unmask_links]
  exact replaceWithPlaceholder_eq .link (fun _ => rfl) _ []

/-- No image, with its alternative text or its target, reaches over a link. -/
def ImagesApart (text : List Char) : Prop :=
  ∀ m block, .inr (m, block) ∈ scan findImage 0 (replaceLinks text []).1 →
    ¬ placeholderName <:+: block

private theorem source_ends (m : Markdown) : ∃ front, m.source = front ++ [')'] := by
  unfold Markdown.source
  split
  next => exact ⟨'[' :: (m.textOrAlt ++ (']' :: '(' :: m.url)), by simp⟩
  next => exact ⟨'!' :: '[' :: (m.textOrAlt ++ (']' :: '(' :: m.url)), by simp⟩

theorem findImage_cons {d : Char} {l : List Char} (h : d ≠ '!') :
    findImage (d :: l) = none := by
  unfold findImage
  split
  next he =>
    cases he
    exact absurd rfl h
  next => rfl

theorem scan_append_of_not_mem {a b : List Char} (h : '!' ∉ a) :
    scan findImage 0 (a ++ b) = a.map .inl ++ scan findImage 0 b := by
  induction a with
  | nil => rfl
  | cons d a ih =>
    rw [List.mem_cons, not_or] at h
    rw [List.cons_append, scan_of_passed (findImage_cons (Ne.symm h.1)), ih h.2]
    rfl

theorem scan_maskedText (tokens : List (Char ⊕ Nat × Markdown))
    (happart : ∀ m block, .inr (m, block) ∈ scan findImage 0 (maskedText tokens) →
      ¬ placeholderName <:+: block) :
    scan findImage 0 (maskedText tokens) =
      (scan (fun l => findImage (chars l)) 0 tokens).flatMap unmask := by
  induction tokens using scan_induction (fun l => findImage (chars l)) with
  | nil => rfl
  | passed x tokens hnone ih =>
    rw [scan_of_passed hnone, List.flatMap_cons]
    cases x with
    | inr p =>
      have hmark : '!' ∉ placeholder p.1 :=
        not_mem_placeholder (by decide) (by decide)
      have hpass : scan findImage 0 (maskedText (.inr p :: tokens)) =
          (placeholder p.1).map .inl ++ scan findImage 0 (maskedText tokens) :=
        scan_append_of_not_mem hmark
      rw [hpass] at happart ⊢
      rw [ih fun m block hmem => happart m block (List.mem_append_right _ hmem)]
      rfl
    | inl c =>
      have htext : findImage (maskedText (.inl c :: tokens)) = none := by
        by_contra hne
        obtain ⟨⟨m, n⟩, hsome⟩ := Option.ne_none_iff_exists'.mp hne
        obtain ⟨r, hr, hend⟩ := eq_chars_append (Sum.inl c :: tokens)
        have hsplit : maskedText (.inl c :: tokens) =
            chars (.inl c :: tokens) ++ maskedText r := by
          conv_lhs => rw [hr]
          rw [maskedText, fill_append, fill_map]
          rfl
        generalize chars (Sum.inl c :: tokens) = s at hnone hsplit
        obtain ⟨-, hn, hstart⟩ := findImage_eq_some hsome
        have hlong : s.length < n := by
          by_contra hle
          rw [hsplit] at hsome
          rw [findImage_of_append hsome (by omega)] at hnone
          cases hnone
        -- What is found ends with `)`, so it holds the whole placeholder.
        have hblock : ∃ block, .inr (m, block) ∈ scan findImage 0 (maskedText (.inl c :: tokens)) ∧
            block = Markdown.source ⟨.image, m.1, m.2⟩ := by
          refine ⟨c :: (maskedText tokens).take (n - 1), ?_, ?_⟩
          · show _ ∈ scan findImage 0 (c :: maskedText tokens)
            have hscan : scan findImage 0 (c :: maskedText tokens) = _ := scan_of_found hsome
            rw [hscan]
            exact List.mem_cons_self
          · rw [List.prefix_iff_eq_take.mp hstart, ← hn]
            show _ = (c :: maskedText tokens).take n
            obtain ⟨k, rfl⟩ : ∃ k, n = k + 1 := ⟨n - 1, by omega⟩
            rw [List.take_succ_cons]
            rfl
        obtain ⟨block, hmem, hsource⟩ := hblock
        apply happart m block hmem
        rw [hsplit] at hstart
        rcases hend with rfl | ⟨p, back, rfl⟩
        · have hle := hstart.length_le
          simp only [maskedText, fill, List.flatMap_nil, List.append_nil] at hle
          omega
        · have hparen : ')' ∉ placeholder p.1 := not_mem_placeholder (by decide) (by decide)
          have hfront : s ++ placeholder p.1 <+: s ++ maskedText (.inr p :: back) :=
            (List.prefix_append_right_inj s).mpr (List.prefix_append _ _)
          rcases List.prefix_or_prefix_of_prefix hfront hstart with hover | hcut
          · rw [hsource]
            exact (name_infix_placeholder p.1).trans
              ((List.suffix_append s _).isInfix.trans hover.isInfix)
          · obtain ⟨front, hfront⟩ := source_ends ⟨.image, m.1, m.2⟩
            obtain ⟨rest, hrest⟩ := hcut
            have hlength := congrArg List.length hfront
            rw [hfront, List.append_assoc] at hrest
            rw [← hn, List.length_append, List.length_singleton] at hlength
            exfalso
            apply hparen
            rcases List.append_eq_append_iff.mp hrest with ⟨more, hs, hmark⟩ | ⟨more, -, hmark⟩
            · have hnil : more = [] := by
                apply List.eq_nil_of_length_eq_zero
                have hsum := congrArg List.length hs
                rw [List.length_append] at hsum
                omega
              rw [hnil] at hmark
              rw [← List.nil_append (placeholder p.1), ← hmark]
              exact List.mem_cons_self
            · rw [hmark]
              exact List.mem_append_right _ List.mem_cons_self
      have hpass : scan findImage 0 (maskedText (.inl c :: tokens)) =
          .inl c :: scan findImage 0 (maskedText tokens) := scan_of_passed htext
      rw [hpass] at happart ⊢
      rw [ih fun m block hmem => happart m block (List.mem_cons_of_mem _ hmem)]
      rfl
  | found x tokens m n hsome ih =>
    obtain ⟨-, hn, hstart⟩ := findImage_eq_some hsome
    have hle : n ≤ (chars (x :: tokens)).length := hn ▸ hstart.length_le
    have hpos := hn ▸ source_pos ⟨.image, m.1, m.2⟩
    cases x with
    | inr p => simp [chars] at hle; omega
    | inl c =>
      obtain ⟨r, hr, -⟩ := eq_chars_append (Sum.inl c :: tokens)
      have htext : findImage (maskedText (.inl c :: tokens)) = some (m, n) := by
        rw [hr, maskedText, fill_append, fill_map]
        exact findImage_append hsome _
      have hrest : n - 1 ≤ (chars tokens).length := by
        simp only [chars, List.length_cons] at hle
        omega
      obtain ⟨hdrop, htake⟩ := @fill_place _ (fun p : Nat × Markdown => placeholder p.1) _ _ hrest
      have hscan : scan findImage 0 (maskedText (.inl c :: tokens)) =
          .inr (m, c :: (maskedText tokens).take (n - 1)) ::
            scan findImage 0 (maskedText (tokens.drop (n - 1))) := by
        rw [show maskedText (.inl c :: tokens) = c :: maskedText tokens from rfl] at htext ⊢
        rw [scan_of_found htext]
        exact congrArg (fun l => _ :: scan findImage 0 l) hdrop
      have hfound : scan (fun l => findImage (chars l)) 0 (Sum.inl c :: tokens) =
          .inr (m, .inl c :: tokens.take (n - 1)) ::
            scan (fun l => findImage (chars l)) 0 (tokens.drop (n - 1)) := scan_of_found hsome
      rw [hscan] at happart ⊢
      rw [ih fun m block hmem => happart m block (List.mem_cons_of_mem _ hmem), hfound,
        List.flatMap_cons]
      exact congrArg (fun l => Sum.inr (m, c :: l) :: _) htake

end Passes

section Numbers

variable {linkType : LinkType} {k n : Nat} {m : Markdown}
  {found : List ((Char ⊕ Nat × Markdown) ⊕
    (List Char × List Char) × List (Char ⊕ Nat × Markdown))}

theorem mem_number (h : .inr (k, m) ∈ number linkType n found) :
    .inl (.inr (k, m)) ∈ found ∨
      ∃ i, k = n + i ∧ (newPlaceholders linkType found)[i]? = some m.stored := by
  induction found generalizing n with
  | nil => cases h
  | cons x found ih =>
    match x with
    | .inl x =>
      rcases List.mem_cons.mp h with rfl | h
      · exact .inl List.mem_cons_self
      · rcases ih h with hold | hnew
        · exact .inl (List.mem_cons_of_mem _ hold)
        · exact .inr hnew
    | .inr (p, block) =>
      rcases List.mem_cons.mp h with he | h
      · cases he
        exact .inr ⟨0, rfl, rfl⟩
      · rcases ih h with hold | ⟨i, hk, hi⟩
        · exact .inl (List.mem_cons_of_mem _ hold)
        · exact .inr ⟨i + 1, by omega, hi⟩

/-- What is put aside for a text. -/
def placeholders (text : List Char) : List Markdown :=
  (replaceImages (replaceLinks text []).1 (replaceLinks text []).2).2

theorem replaceImages_eq {text : List Char} (h : ImagesApart text) :
    (replaceImages (replaceLinks text []).1 (replaceLinks text []).2).1 =
      maskedText (tokens text) ∧
    placeholders text = (replaceLinks text []).2 ++
      newPlaceholders .image (scan (fun l => findImage (chars l)) 0 (linkTokens text)) := by
  have hscan := scan_maskedText (linkTokens text) (by rwa [ImagesApart, replaceLinks_eq] at h)
  have hlinks : (replaceLinks text []).1 = maskedText (linkTokens text) := by
    rw [replaceLinks_eq]
  have hpass := replaceWithPlaceholder_eq .image
    (fun p => (rfl : (⟨.image, "image".toList, p.2⟩ : Markdown) =
      Markdown.stored ⟨.image, p.1, p.2⟩))
    (scan (fun l => findImage (chars l)) 0 (linkTokens text)) (replaceLinks text []).2
  rw [← hscan, ← hlinks] at hpass
  exact ⟨congrArg Prod.fst hpass, congrArg Prod.snd hpass⟩

theorem getElem_placeholders {text : List Char} (h : ImagesApart text)
    (hmem : .inr (k, m) ∈ tokens text) : (placeholders text)[k]? = some m.stored := by
  rw [(replaceImages_eq h).2]
  rcases mem_number hmem with hlink | ⟨i, rfl, hi⟩
  · obtain ⟨front, rest, htokens, -⟩ := passed_of_mem_scan hlink
    have hmem' : .inr (k, m) ∈ linkTokens text := by
      rw [htokens]
      exact List.mem_append_right _ List.mem_cons_self
    rcases mem_number hmem' with hchar | ⟨i, rfl, hi⟩
    · obtain ⟨front, rest, htext, -⟩ := passed_of_mem_scan hchar
      have hmap : (.inr (k, m) : Char ⊕ Nat × Markdown) ∈ text.map .inl := by
        rw [htext]
        exact List.mem_append_right _ List.mem_cons_self
      simp at hmap
    · have hi' : (replaceLinks text []).2[i]? = some m.stored := by
        rw [replaceLinks_eq]
        exact hi
      rw [Nat.zero_add, List.getElem?_append_left (List.getElem?_eq_some_iff.mp hi').1]
      exact hi'
  · rw [List.getElem?_append_right (Nat.le_add_right _ _), Nat.add_sub_cancel_left]
    exact hi

end Numbers

/-! ## Restoring -/

section Names

variable {i k : Nat} {w s b a front back : List Char}

private theorem prefix_chars (h : w <+: s ++ b)
    (hb : b = [] ∨ (∃ c rest, b = c :: rest ∧ c ∉ w) ∨ ∃ rest, b = '_' :: '_' :: rest)
    (htwice : ¬ ['_', '_'] <:+: w) (hlast : w.getLast? ≠ some '_') : w <+: s := by
  rcases List.prefix_or_prefix_of_prefix h (List.prefix_append s b) with hw | ⟨t, rfl⟩
  · exact hw
  rw [List.prefix_append_right_inj] at h
  cases t with
  | nil =>
    rw [List.append_nil]
  | cons c t =>
    rcases hb with rfl | ⟨d, rest, rfl, hd⟩ | ⟨rest, rfl⟩
    · cases List.prefix_nil.mp h
    · obtain ⟨rfl, -⟩ := List.cons_prefix_cons.mp h
      exact absurd (List.mem_append_right _ List.mem_cons_self) hd
    · obtain ⟨hc, h⟩ := List.cons_prefix_cons.mp h
      rw [hc] at hlast htwice
      cases t with
      | nil => exact absurd List.getLast?_concat hlast
      | cons d t =>
        rw [(List.cons_prefix_cons.mp h).1] at htwice
        exact absurd ⟨s, t, by simp⟩ htwice

variable {c : Char}

theorem pair_infix_append (hb : c ∉ b) (h : [c, c] <:+: a ++ b) :
    [c, c] <:+: a := by
  obtain ⟨front, back, he⟩ := h
  rcases List.append_eq_append_iff.mp he with ⟨x, ha, -⟩ | ⟨x, hpair, hrest⟩
  · exact ⟨front, x, ha.symm⟩
  · rcases List.eq_nil_or_concat x with rfl | ⟨x, d, rfl⟩
    · rw [List.append_nil] at hpair
      exact ⟨front, [], by rw [hpair, List.append_nil]⟩
    · rw [List.concat_eq_append] at hpair hrest
      have hlast : front ++ [c] ++ [c] = a ++ x ++ [d] := by
        rw [List.append_assoc, List.append_assoc]
        exact hpair
      rw [(List.cons.inj (List.append_inj' hlast rfl).2).1, hrest] at hb
      exact absurd (List.mem_append_left _ (List.mem_append_right _ List.mem_cons_self)) hb

/-- The name with a number. -/
private def nameWith (i : Nat) : List Char := placeholderName ++ Nat.toDigits 10 i

private theorem placeholder_eq (i : Nat) :
    placeholder i = '_' :: '_' :: (nameWith i ++ ['_', '_']) := by
  rw [placeholder, nameWith, List.append_assoc]

theorem placeholderName_cons :
    placeholderName = 'M' :: "ARKDOWN_PLACEHOLDER_".toList := by decide

private theorem nameWith_cons (i : Nat) : ∃ rest, nameWith i = 'M' :: rest := by
  rw [nameWith, placeholderName_cons]
  exact ⟨_, rfl⟩

private theorem nameWith_once (i : Nat) : ¬ ['_', '_'] <:+: nameWith i := by
  intro h
  have hname := pair_infix_append Nat.underscore_not_in_toDigits h
  revert hname
  decide

private theorem getLast_nameWith (i : Nat) : (nameWith i).getLast? ≠ some '_' := by
  intro h
  rw [nameWith, List.getLast?_append_of_ne_nil _ Nat.toDigits_ne_nil] at h
  exact Nat.underscore_not_in_toDigits (List.mem_of_getLast? h)

private theorem not_mem_nameWith (hname : c ∉ placeholderName)
    (hdigit : c.isDigit = false) : c ∉ nameWith i := by
  rw [nameWith, List.mem_append, not_or]
  refine ⟨hname, fun h => ?_⟩
  rw [isDigit_of_mem_digits h] at hdigit
  cases hdigit

private theorem placeholder_start (h : placeholder i <+: placeholder k ++ b) : i = k := by
  rw [placeholder, placeholder, List.cons_append, List.cons_append, List.append_assoc,
    List.append_assoc] at h
  have hnumber := (List.cons_prefix_cons.mp (List.cons_prefix_cons.mp h).2).2
  rw [List.prefix_append_right_inj] at hnumber
  obtain ⟨rest, hrest⟩ := hnumber
  have htake : ∀ n rest, (Nat.toDigits 10 n ++ '_' :: rest).takeWhile Char.isDigit =
      Nat.toDigits 10 n := by
    intro n rest
    rw [List.takeWhile_append_of_pos fun c hc => isDigit_of_mem_digits hc,
      List.takeWhile_cons_of_neg (by decide), List.append_nil]
  have hdigits := congrArg (List.takeWhile Char.isDigit) hrest
  simp only [List.append_assoc, List.cons_append, htake] at hdigits
  have hread := congrArg readNat hdigits
  rw [readNat_digits, readNat_digits] at hread
  exact Option.some.inj hread

/-- Characters without the name of the placeholders, and what begins a link behind them. -/
structure Clear (s b : List Char) : Prop where
  name : ¬ placeholderName <:+: s
  behind : b = [] ∨ (∃ c rest, b = c :: rest ∧ (c = '[' ∨ c = '!')) ∨
    ∃ j rest, b = placeholder j ++ rest

private theorem not_nameWith_start (h : Clear s b) : ¬ nameWith i <+: s ++ b := by
  intro hstart
  apply h.name
  have hb : b = [] ∨ (∃ c rest, b = c :: rest ∧ c ∉ nameWith i) ∨
      ∃ rest, b = '_' :: '_' :: rest := by
    rcases h.behind with hb | ⟨c, rest, hb, hc⟩ | ⟨j, rest, hb⟩
    · exact .inl hb
    · refine .inr (.inl ⟨c, rest, hb, ?_⟩)
      rcases hc with rfl | rfl
      · exact not_mem_nameWith (by decide) (by decide)
      · exact not_mem_nameWith (by decide) (by decide)
    · exact .inr (.inr ⟨_, hb⟩)
  have hfront := prefix_chars hstart hb (nameWith_once i) (getLast_nameWith i)
  exact (List.prefix_append placeholderName _).isInfix.trans hfront.isInfix

theorem not_placeholder_cons (h : Clear s b) : ¬ placeholder i <+: c :: (s ++ b) := by
  rw [placeholder_eq, List.cons_prefix_cons]
  rintro ⟨-, hstart⟩
  cases s with
  | cons x s =>
    rw [List.cons_append, List.cons_prefix_cons] at hstart
    have hclear : Clear s b :=
      ⟨fun hin => h.name (hin.trans (List.suffix_cons x s).isInfix), h.behind⟩
    exact not_nameWith_start hclear ((List.prefix_append _ _).trans hstart.2)
  | nil =>
    rw [List.nil_append] at hstart
    rcases h.behind with rfl | ⟨c, rest, rfl, hc⟩ | ⟨j, rest, rfl⟩
    · cases List.prefix_nil.mp hstart
    · have hunder := (List.cons_prefix_cons.mp hstart).1
      rcases hc with rfl | rfl
      · cases hunder
      · cases hunder
    · obtain ⟨name, hname⟩ := nameWith_cons i
      rw [placeholder, List.cons_append, List.cons_prefix_cons, hname, List.cons_append,
        List.cons_append, List.cons_prefix_cons] at hstart
      cases hstart.2.1

theorem not_placeholder_source (hname : ¬ placeholderName <:+: a)
    (hends : ∃ l, a = l ++ [')']) (he : a = front ++ back) (hback : back ≠ []) (more : List Char) :
    ¬ placeholder i <+: back ++ more := by
  intro hstart
  rcases List.prefix_or_prefix_of_prefix hstart (List.prefix_append back more) with hin | hin
  · apply hname
    rw [he]
    exact (name_infix_placeholder i).trans
      (hin.isInfix.trans (List.suffix_append front back).isInfix)
  · obtain ⟨l, hl⟩ := hends
    have hparen : ')' ∉ placeholder i := not_mem_placeholder (by decide) (by decide)
    apply hparen
    apply hin.subset
    obtain ⟨back, c, rfl⟩ := (List.eq_nil_or_concat back).resolve_left hback
    rw [List.concat_eq_append, hl, ← List.append_assoc] at he
    rw [List.concat_eq_append, (List.cons.inj (List.append_inj' he rfl).2).1]
    exact List.mem_append_right _ List.mem_cons_self

theorem not_placeholder_placeholder (hclear : Clear s b) (hik : i ≠ k)
    (he : placeholder k = front ++ back) (hback : back ≠ []) :
    ¬ placeholder i <+: back ++ (s ++ b) := by
  intro hstart
  obtain ⟨more, hmore⟩ : ∃ more, back ++ (s ++ b) = '_' :: '_' :: more := by
    obtain ⟨more, hmore⟩ := hstart
    rw [placeholder_eq] at hmore
    exact ⟨_, hmore.symm⟩
  match front with
  | [] =>
    rw [List.nil_append] at he
    rw [← he] at hstart
    exact hik (placeholder_start hstart)
  | [_] =>
    obtain ⟨name, hname⟩ := nameWith_cons k
    rw [placeholder_eq, List.singleton_append, hname, List.cons.injEq] at he
    rw [← he.2] at hmore
    simp at hmore
  | _ :: _ :: front =>
    rw [placeholder_eq, List.cons_append, List.cons_append, List.cons.injEq, List.cons.injEq] at he
    -- The placeholder would begin at the end of the other one, and its name go on behind.
    have hends : back ≠ ['_', '_'] ∧ back ≠ ['_'] := by
      constructor
      · rintro rfl
        rw [placeholder_eq] at hstart
        have hname := (List.cons_prefix_cons.mp (List.cons_prefix_cons.mp hstart).2).2
        exact not_nameWith_start hclear ((List.prefix_append _ _).trans hname)
      · rintro rfl
        exact not_placeholder_cons hclear hstart
    rcases List.append_eq_append_iff.mp he.2.2 with ⟨y, -, hend⟩ | ⟨y, hname, rfl⟩
    · match y, back, hend with
      | [], _, hend => exact hends.1 hend.symm
      | [_], _, hend => exact hends.2 (List.cons.inj hend).2.symm
      | [_, _], _, hend => exact hback (List.cons.inj (List.cons.inj hend).2).2.symm
      | _ :: _ :: _ :: _, _, hend => simp at hend
    · match y with
      | [] => exact hends.1 rfl
      | [c] =>
        have hc : c = '_' := (List.cons.inj hmore).1
        apply getLast_nameWith k
        rw [hname, List.getLast?_concat, hc]
      | c :: d :: y =>
        have hc : c = '_' := (List.cons.inj hmore).1
        have hd : d = '_' := (List.cons.inj (List.cons.inj hmore).2).1
        apply nameWith_once k
        rw [hname, hc, hd]
        exact ⟨front, y, by simp⟩

end Names

section Restored

variable {l : List (Char ⊕ Nat × Markdown)} {i : Nat}

/-- What stands for a link when those with smaller numbers are restored. -/
private def standing (i : Nat) (p : Nat × Markdown) : List Char :=
  if p.1 < i then p.2.stored.source else placeholder p.1

private theorem clear_fill (hname : ¬ placeholderName.map .inl <:+: l) :
    ∃ s b, fill (standing i) l = s ++ b ∧ Clear s b := by
  obtain ⟨r, hr, hend⟩ := eq_chars_append l
  refine ⟨chars l, fill (standing i) r, ?_, ?_, ?_⟩
  · conv_lhs => rw [hr]
    rw [fill_append, fill_map]
  · rintro ⟨front, back, he⟩
    apply hname
    refine ⟨front.map .inl, back.map .inl ++ r, ?_⟩
    conv_rhs => rw [hr, ← he]
    simp only [List.map_append, List.append_assoc]
  · rcases hend with rfl | ⟨⟨k, m⟩, back, rfl⟩
    · exact .inl rfl
    · rw [fill_cons, Sum.elim_inr, standing]
      split
      next =>
        refine .inr (.inl ?_)
        unfold Markdown.source
        split
        next => exact ⟨_, _, rfl, .inl rfl⟩
        next => exact ⟨_, _, rfl, .inr rfl⟩
      next => exact .inr (.inr ⟨k, _, rfl⟩)

private theorem replaceAll_standing {new : List Char}
    (hname : ¬ placeholderName.map .inl <:+: l)
    (hsource : ∀ k m, .inr (k, m) ∈ l → ¬ placeholderName <:+: m.stored.source)
    (hnew : ∀ m, .inr (i, m) ∈ l → m.stored.source = new) :
    replaceAll (placeholder i) new (fill (standing i) l) = fill (standing (i + 1)) l := by
  have hold : placeholder i ≠ [] := List.cons_ne_nil _ _
  induction l with
  | nil =>
    apply replaceAll_of_absent
    rw [fill, List.flatMap_nil, List.infix_nil]
    exact hold
  | cons x l ih =>
    have hname' : ¬ placeholderName.map .inl <:+: l :=
      fun hin => hname (hin.trans (List.suffix_cons x l).isInfix)
    obtain ⟨s, b, htext, hclear⟩ := clear_fill (i := i) hname'
    have ih := ih hname' (fun k m hmem => hsource k m (List.mem_cons_of_mem x hmem))
      fun m hmem => hnew m (List.mem_cons_of_mem x hmem)
    rw [fill_cons, fill_cons, ← ih]
    cases x with
    | inl c =>
      apply replaceAll_cons hold
      rw [htext]
      exact @not_placeholder_cons i s b c hclear
    | inr p =>
      obtain ⟨k, m⟩ := p
      rw [Sum.elim_inr, Sum.elim_inr, standing, standing]
      rcases Nat.lt_trichotomy k i with hlt | rfl | hgt
      · rw [if_pos hlt, if_pos (Nat.lt_succ_of_lt hlt)]
        apply replaceAll_append hold
        intro front back he hback
        exact not_placeholder_source (hsource k m List.mem_cons_self) (source_ends _) he hback _
      · rw [if_neg (Nat.lt_irrefl k), if_pos (Nat.lt_succ_self k), replaceAll_append_self hold,
          hnew m List.mem_cons_self]
      · rw [if_neg (by omega), if_neg (by omega)]
        apply replaceAll_append hold
        intro front back he hback
        rw [htext]
        exact not_placeholder_placeholder hclear (by omega) he hback

private theorem foldl_standing (stored : List Markdown)
    (hname : ¬ placeholderName.map .inl <:+: l)
    (hsource : ∀ k m, .inr (k, m) ∈ l → ¬ placeholderName <:+: m.stored.source)
    (hstored : ∀ k m, .inr (k, m) ∈ l → i ≤ k → stored[k - i]? = some m.stored) :
    (stored.zipIdx i).foldl (fun text p => replaceAll (placeholder p.2) p.1.source text)
      (fill (standing i) l) = restoredText l := by
  induction stored generalizing i with
  | nil =>
    have hall : ∀ p, .inr p ∈ l → standing i p = p.2.stored.source := by
      rintro ⟨k, m⟩ hmem
      refine if_pos (Nat.lt_of_not_le fun hle => ?_)
      cases hstored k m hmem hle
    apply List.flatMap_congr
    rintro (c | p) hmem
    · rfl
    · exact hall p hmem
  | cons m stored ih =>
    rw [List.zipIdx_cons, List.foldl_cons, replaceAll_standing hname hsource]
    · apply ih
      intro k m' hmem hle
      have hget := hstored k m' hmem (by omega)
      rwa [show k - i = k - (i + 1) + 1 by omega, List.getElem?_cons_succ] at hget
    · intro m' hmem
      have hget := hstored i m' hmem (Nat.le_refl i)
      rw [Nat.sub_self] at hget
      rw [← Option.some.inj hget]

/-- The links are restored if the name of the placeholders stands nowhere else. -/
theorem restore_maskedText {stored : List Markdown} (hname : ¬ placeholderName.map .inl <:+: l)
    (hsource : ∀ k m, .inr (k, m) ∈ l → ¬ placeholderName <:+: m.stored.source)
    (hstored : ∀ k m, .inr (k, m) ∈ l → stored[k]? = some m.stored) :
    restore stored (maskedText l) = restoredText l := by
  have hstart : maskedText l = fill (standing 0) l := by
    apply List.flatMap_congr
    rintro (c | p) hmem
    · rfl
    · show placeholder p.1 = standing 0 p
      rw [standing, if_neg (Nat.not_lt_zero _)]
  rw [restore, hstart]
  exact foldl_standing stored hname hsource fun k m hmem _ => hstored k m hmem

end Restored

end PlatformSpec.Rag.CleanProcessor
