import Mathlib.Data.List.TakeWhile
import PlatformSpec.Base.Replace
import PlatformSpec.Base.Text

/-!
# Cleaning of texts

Models `core/rag/cleaner/clean_processor.py`. Links and images in Markdown stand aside under
numbered placeholders while URLs are removed. A text is the list of its characters.
-/

namespace PlatformSpec.Rag.CleanProcessor

open Base Base.Scan Base.Replace

/-! ## The default clean -/

/-- `[\x00-\x08\x0B\x0C\x0E-\x1F\x7F\xEF\xBF\xBE]`. -/
def isInvalidSymbol (c : Char) : Bool :=
  c.toNat ≤ 0x08 || (0x0B ≤ c.toNat && c.toNat ≤ 0x0C) || (0x0E ≤ c.toNat && c.toNat ≤ 0x1F) ||
    [0x7F, 0xEF, 0xBF, 0xBE].contains c.toNat

/-- What is removed whatever the rules are. -/
def removeInvalidSymbols (text : List Char) : List Char :=
  let text := replaceAll ['<', '|'] ['<'] text
  let text := replaceAll ['|', '>'] ['>'] text
  let text := text.filter fun c => !isInvalidSymbol c
  text.filter fun c => c.toNat != 0xFFFE

/-! ## Extra spaces -/

/-- A run of at least so many characters of a kind. -/
def findRun (p : Char → Bool) (least : Nat) (l : List Char) : Option (Unit × Nat) :=
  if least ≤ (l.takeWhile p).length then some ((), (l.takeWhile p).length) else none

/-- `[\t\f\r\x20\u00a0\u1680\u180e\u2000-\u200a\u202f\u205f\u3000]`. -/
def isExtraSpace (c : Char) : Bool :=
  (0x2000 ≤ c.toNat && c.toNat ≤ 0x200a) ||
    [0x09, 0x0c, 0x0d, 0x20, 0xa0, 0x1680, 0x180e, 0x202f, 0x205f, 0x3000].contains c.toNat

/-- `remove_extra_spaces`. -/
def removeExtraSpaces (text : List Char) : List Char :=
  let text := substitute (findRun (· == '\n') 3) (fun _ => ['\n', '\n']) text
  substitute (findRun isExtraSpace 2) (fun _ => [' ']) text

/-! ## The patterns of addresses -/

/-- `[a-zA-Z0-9_.+-]`. -/
def isLocal (c : Char) : Bool := c.isAlphanum || ['_', '.', '+', '-'].contains c

/-- `[a-zA-Z0-9-]`. -/
def isHost (c : Char) : Bool := c.isAlphanum || c == '-'

/-- `[a-zA-Z0-9-.]`. -/
def isDomain (c : Char) : Bool := isHost c || c == '.'

/-- `([a-zA-Z0-9_.+-]+@[a-zA-Z0-9-]+\.[a-zA-Z0-9-.]+)`: no run reads the character behind it, so
each is as long as it can be. -/
def findEmail (l : List Char) : Option (Unit × Nat) :=
  match l.dropWhile isLocal with
  | '@' :: rest =>
    match rest.dropWhile isHost with
    | '.' :: domain =>
      if l.takeWhile isLocal = [] ∨ rest.takeWhile isHost = [] ∨ domain.takeWhile isDomain = [] then
        none
      else
        some ((), (l.takeWhile isLocal).length + (rest.takeWhile isHost).length +
          (domain.takeWhile isDomain).length + 2)
    | _ => none
  | _ => none

def withoutEmails (text : List Char) : List Char := substitute findEmail (fun _ => []) text

/-- `https?://`, or nothing. -/
def scheme (l : List Char) : List Char :=
  if "https://".toList <+: l then "https://".toList
  else if "http://".toList <+: l then "http://".toList else []

/-- `https?://\S+`. -/
def findUrl (l : List Char) : Option (Unit × Nat) :=
  let run := (l.drop (scheme l).length).takeWhile (!isSpace ·)
  if scheme l = [] ∨ run = [] then none else some ((), (scheme l).length + run.length)

/-- `\]\((https?://[^)]+)\)`: the target, which ends at the next `)`. -/
def readTarget : List Char → Option (List Char)
  | ']' :: '(' :: rest =>
    let url := rest.takeWhile (· != ')')
    if scheme url = [] ∨ scheme url = url ∨ url = rest then none else some url
  | _ => none

/-- `\[([^\]]*)\]\((https?://[^)]+)\)`, with the text and the target. -/
def findLink : List Char → Option ((List Char × List Char) × Nat)
  | '[' :: rest =>
    (readTarget (rest.dropWhile (· != ']'))).map fun url =>
      ((rest.takeWhile (· != ']'), url), (rest.takeWhile (· != ']')).length + url.length + 4)
  | _ => none

/-- `.*?\]\((https?://[^)]+)\)`: the first target on the line, and what stands before it. -/
def readAlt : List Char → Option (List Char × List Char)
  | [] => none
  | c :: rest =>
    match readTarget (c :: rest) with
    | some url => some ([], url)
    | none => if c = '\n' then none else (readAlt rest).map fun p => (c :: p.1, p.2)

/-- `!\[.*?\]\((https?://[^)]+)\)`. -/
def findImage : List Char → Option ((List Char × List Char) × Nat)
  | '!' :: '[' :: rest => (readAlt rest).map fun p => (p, p.1.length + p.2.length + 5)
  | _ => none

/-! ## Placeholders -/

inductive LinkType where
  | link
  | image
  deriving DecidableEq

/-- `(link_type, text_or_alt, url)`. -/
structure Markdown where
  linkType : LinkType
  textOrAlt : List Char
  url : List Char
  deriving DecidableEq

/-- `[text](url)` or `![alt](url)`. -/
def Markdown.source (m : Markdown) : List Char :=
  match m.linkType with
  | .link => '[' :: (m.textOrAlt ++ (']' :: '(' :: (m.url ++ [')'])))
  | .image => '!' :: '[' :: (m.textOrAlt ++ (']' :: '(' :: (m.url ++ [')'])))

/-- What the placeholders are named after. -/
def placeholderName : List Char := "MARKDOWN_PLACEHOLDER_".toList

def placeholder (i : Nat) : List Char :=
  '_' :: '_' :: (placeholderName ++ (Nat.toDigits 10 i ++ ['_', '_']))

/-- `re.sub` with a function that puts aside what is found and leaves a placeholder. -/
def replaceWithPlaceholder {ι : Type} (make : ι → Markdown) :
    List (Char ⊕ ι × List Char) → List Markdown → List Char × List Markdown
  | [], placeholders => ([], placeholders)
  | .inl c :: rest, placeholders =>
    let result := replaceWithPlaceholder make rest placeholders
    (c :: result.1, result.2)
  | .inr (i, _) :: rest, placeholders =>
    let result := replaceWithPlaceholder make rest (placeholders ++ [make i])
    (placeholder placeholders.length ++ result.1, result.2)

/-- `re.sub(markdown_link_pattern, replace_markdown_with_placeholder, text)`. -/
def replaceLinks (text : List Char) (placeholders : List Markdown) :
    List Char × List Markdown :=
  replaceWithPlaceholder (fun p => ⟨.link, p.1, p.2⟩) (scan findLink 0 text) placeholders

/-- `re.sub(markdown_image_pattern, replace_image_with_placeholder, text)`: the alternative text is
not kept. -/
def replaceImages (text : List Char) (placeholders : List Markdown) :
    List Char × List Markdown :=
  replaceWithPlaceholder (fun p => ⟨.image, "image".toList, p.2⟩) (scan findImage 0 text)
    placeholders

/-- The loop that restores the links and images. -/
def restore (placeholders : List Markdown) (text : List Char) : List Char :=
  placeholders.zipIdx.foldl (fun text p => replaceAll (placeholder p.2) p.1.source text) text

/-- `remove_urls_emails`. -/
def removeUrlsEmails (text : List Char) : List Char :=
  let text := withoutEmails text
  let links := replaceLinks text []
  let images := replaceImages links.1 links.2
  restore images.2 (substitute findUrl (fun _ => []) images.1)

/-! ## The rules -/

structure PreProcessingRule where
  id : String
  enabled : Bool
  deriving DecidableEq

def applyRule (text : List Char) (rule : PreProcessingRule) : List Char :=
  if rule.id = "remove_extra_spaces" ∧ rule.enabled then removeExtraSpaces text
  else if rule.id = "remove_urls_emails" ∧ rule.enabled then removeUrlsEmails text
  else text

/-- `pre_processing_rules` of a process rule; both may be missing. -/
def preProcessingRules (processRule : Option (Option (List PreProcessingRule))) :
    List PreProcessingRule :=
  (processRule.getD none).getD []

/-- `CleanProcessor.clean`. -/
def clean (text : List Char) (processRule : Option (Option (List PreProcessingRule))) :
    List Char :=
  (preProcessingRules processRule).foldl applyRule (removeInvalidSymbols text)

/-! ## What the patterns find -/

section Patterns

variable {l r s b w : List Char}

theorem prefix_of_append {a : List Char} (h : w <+: a ++ b)
    (hb : ∀ x, b.head? = some x → x ∉ w) : w <+: a := by
  rcases List.prefix_or_prefix_of_prefix h (List.prefix_append a b) with hw | ⟨back, hback⟩
  · exact hw
  · rw [← hback, List.prefix_append_right_inj] at h
    cases back with
    | nil => rw [← hback, List.append_nil]
    | cons x back =>
      obtain ⟨rest, hrest⟩ := h
      have hhead : b.head? = some x := by rw [← hrest]; rfl
      have hmem : x ∈ w := by
        rw [← hback]
        exact List.mem_append_right _ List.mem_cons_self
      exact absurd hmem (hb x hhead)

theorem scheme_cases (l : List Char) : scheme l = [] ∧ ¬ "https://".toList <+: l ∧
    ¬ "http://".toList <+: l ∨ scheme l = "https://".toList ∧ "https://".toList <+: l ∨
      scheme l = "http://".toList ∧ "http://".toList <+: l := by
  unfold scheme
  split
  next h => exact .inr (.inl ⟨rfl, h⟩)
  next h =>
    split
    next h' => exact .inr (.inr ⟨rfl, h'⟩)
    next h' => exact .inl ⟨rfl, h, h'⟩

theorem scheme_start (l : List Char) : scheme l <+: l := by
  rcases scheme_cases l with ⟨h, -⟩ | ⟨h, hl⟩ | ⟨h, hl⟩
  · rw [h]
    exact List.nil_prefix
  · rwa [h]
  · rwa [h]

theorem mem_of_mem_scheme {c : Char} (h : c ∈ scheme l) : c ∈ "https:/".toList := by
  rcases scheme_cases l with ⟨he, -⟩ | ⟨he, -⟩ | ⟨he, -⟩
  · rw [he] at h
    cases h
  · rw [he] at h
    have hall : ∀ c ∈ "https://".toList, c ∈ "https:/".toList := forall_of_all (by decide)
    exact hall c h
  · rw [he] at h
    have hall : ∀ c ∈ "http://".toList, c ∈ "https:/".toList := forall_of_all (by decide)
    exact hall c h

theorem scheme_append (hb : ∀ x, b.head? = some x → x ∉ "https:/".toList) :
    scheme (s ++ b) = scheme s := by
  have hfront : ∀ w : List Char, (∀ c ∈ w, c ∈ "https:/".toList) → (w <+: s ++ b ↔ w <+: s) := by
    intro w hw
    constructor
    · exact fun h => prefix_of_append h fun x hx hmem => hb x hx (hw x hmem)
    · exact fun h => h.trans (List.prefix_append s b)
  have hlong := hfront "https://".toList (forall_of_all (by decide))
  have hshort := hfront "http://".toList (forall_of_all (by decide))
  unfold scheme
  simp only [hlong, hshort]

theorem not_isSpace_of_mem_scheme {c : Char} (h : c ∈ scheme l) : isSpace c = false := by
  have hall : ∀ c ∈ "https:/".toList, isSpace c = false := forall_of_all (by decide)
  exact hall c (mem_of_mem_scheme h)

theorem findUrl_eq_none_iff : findUrl l = none ↔ scheme l = [] ∨
    (l.drop (scheme l).length).takeWhile (!isSpace ·) = [] := by
  unfold findUrl
  simp only
  split
  next h => exact iff_of_true rfl h
  next h => exact iff_of_false (fun he => by cases he) h

theorem findUrl_some {u : Unit} {n : Nat} (h : findUrl l = some (u, n)) : 0 < n ∧ n ≤ l.length := by
  unfold findUrl at h
  simp only at h
  split at h
  next => cases h
  next hne =>
    cases h
    rw [not_or] at hne
    have hpos := List.length_pos_iff.mpr hne.1
    have hle := (List.takeWhile_prefix (!isSpace ·) (l := l.drop (scheme l).length)).length_le
    have hscheme := (scheme_start l).length_le
    rw [List.length_drop] at hle
    omega

theorem findUrl_append (hb : ∀ x, b.head? = some x → x ∉ "https:/".toList)
    (h : b = [] ∨ ¬ (scheme s ≠ [] ∧ ∀ c ∈ s, isSpace c = false)) :
    findUrl (s ++ b) = findUrl s := by
  rcases h with rfl | h
  · rw [List.append_nil]
  unfold findUrl
  rw [scheme_append hb]
  by_cases hscheme : scheme s = []
  · simp only [hscheme, true_or, if_true]
  · obtain ⟨s', hs'⟩ := scheme_start s
    have hdrop : ∀ more, (s ++ more).drop (scheme s).length = s' ++ more := by
      intro more
      conv_lhs => rw [← hs', List.append_assoc]
      rw [hs', List.drop_left]
    have hspace : ¬ (s'.takeWhile (!isSpace ·)).length = s'.length := by
      intro hlength
      apply h
      refine ⟨hscheme, fun c hc => ?_⟩
      rw [← hs', List.mem_append] at hc
      rcases hc with hc | hc
      · exact not_isSpace_of_mem_scheme hc
      · have hall := (List.takeWhile_prefix (!isSpace ·)).eq_of_length hlength
        rw [← hall] at hc
        have hmem := List.mem_takeWhile_imp hc
        simpa using hmem
    have hnil := hdrop []
    rw [List.append_nil, List.append_nil] at hnil
    simp only
    rw [hdrop b, hnil, List.takeWhile_append, if_neg hspace]

end Patterns

section Targets

variable {l r url alt : List Char} {m : List Char × List Char} {n : Nat}

/-- A target of a link: a scheme with something behind, without `)`. -/
structure IsTarget (url : List Char) : Prop where
  scheme_ne_nil : scheme url ≠ []
  scheme_ne_self : scheme url ≠ url
  not_mem : ')' ∉ url

theorem readTarget_eq_some_iff : readTarget l = some url ↔
    IsTarget url ∧ ∃ rest, l = ']' :: '(' :: (url ++ ')' :: rest) := by
  constructor
  · intro h
    unfold readTarget at h
    split at h
    next back =>
      simp only at h
      split at h
      next => cases h
      next hnot =>
        cases h
        rw [not_or, not_or] at hnot
        have hmem : ')' ∉ back.takeWhile (· != ')') := by
          intro hc
          have hne := List.mem_takeWhile_imp hc
          simp at hne
        refine ⟨⟨hnot.1, hnot.2.1, hmem⟩, ?_⟩
        have hback := List.takeWhile_append_dropWhile (p := (· != ')')) (l := back)
        cases hdrop : back.dropWhile (· != ')') with
        | nil =>
          rw [hdrop, List.append_nil] at hback
          exact absurd hback hnot.2.2
        | cons c rest =>
          have hc := List.head?_dropWhile_not (· != ')') back
          rw [hdrop] at hback hc
          obtain rfl : c = ')' := by simpa using hc
          exact ⟨rest, by rw [hback]⟩
    next => cases h
  · rintro ⟨htarget, rest, rfl⟩
    have htake : (url ++ ')' :: rest).takeWhile (· != ')') = url := by
      rw [List.takeWhile_append_of_pos]
      · simp
      · intro c hc
        rw [bne_iff_ne]
        rintro rfl
        exact htarget.not_mem hc
    unfold readTarget
    simp only
    rw [htake, if_neg]
    rw [not_or, not_or]
    refine ⟨htarget.scheme_ne_nil, htarget.scheme_ne_self, ?_⟩
    intro he
    have hlength := congrArg List.length he
    simp at hlength

theorem readTarget_append (h : readTarget l = some url) (r : List Char) :
    readTarget (l ++ r) = some url := by
  obtain ⟨htarget, rest, rfl⟩ := readTarget_eq_some_iff.mp h
  refine readTarget_eq_some_iff.mpr ⟨htarget, rest ++ r, ?_⟩
  simp only [List.cons_append, List.append_assoc]

theorem readTarget_of_append (h : readTarget (l ++ r) = some url) (hl : ')' ∈ l) :
    readTarget l = some url := by
  obtain ⟨htarget, rest, he⟩ := readTarget_eq_some_iff.mp h
  refine readTarget_eq_some_iff.mpr ⟨htarget, ?_⟩
  have hfront : l <+: (']' :: '(' :: url) ++ ')' :: rest := ⟨r, he⟩
  rcases List.prefix_or_prefix_of_prefix hfront (List.prefix_append _ _) with hshort | ⟨back, hback⟩
  · have hmem := hshort.subset hl
    simp only [List.mem_cons, htarget.not_mem, or_false] at hmem
    rcases hmem with hmem | hmem
    · cases hmem
    · cases hmem
  · cases back with
    | nil =>
      rw [List.append_nil] at hback
      rw [← hback] at hl
      simp only [List.mem_cons, htarget.not_mem, or_false] at hl
      rcases hl with hl | hl
      · cases hl
      · cases hl
    | cons c back =>
      rw [← hback, List.append_assoc] at he
      have hrest := @List.append_cancel_left _ (']' :: '(' :: url) _ _ he
      obtain ⟨rfl, -⟩ := List.cons.inj hrest
      exact ⟨back, hback.symm⟩

theorem readAlt_eq_some (h : readAlt l = some (alt, url)) :
    IsTarget url ∧ ∃ rest, l = alt ++ ']' :: '(' :: (url ++ ')' :: rest) := by
  induction l generalizing alt with
  | nil => cases h
  | cons c l ih =>
    rw [readAlt] at h
    split at h
    next url' htarget =>
      cases h
      exact readTarget_eq_some_iff.mp htarget
    next =>
      split at h
      next => cases h
      next =>
        obtain ⟨p, hp, he⟩ := Option.map_eq_some_iff.mp h
        cases he
        obtain ⟨htarget, rest, rfl⟩ := ih hp
        exact ⟨htarget, rest, rfl⟩

theorem mem_of_readAlt (h : readAlt l = some (alt, url)) : ')' ∈ l := by
  obtain ⟨-, rest, rfl⟩ := readAlt_eq_some h
  simp

theorem readAlt_append (h : readAlt l = some (alt, url)) (r : List Char) :
    readAlt (l ++ r) = some (alt, url) := by
  induction l generalizing alt with
  | nil => cases h
  | cons c l ih =>
    rw [List.cons_append]
    rw [readAlt] at h ⊢
    cases htarget : readTarget (c :: l) with
    | some url' =>
      have hmore := readTarget_append htarget r
      rw [List.cons_append] at hmore
      rw [htarget] at h
      rw [hmore]
      exact h
    | none =>
      rw [htarget] at h
      simp only at h
      split at h
      next => cases h
      next hc =>
        obtain ⟨⟨alt', url'⟩, hp, he⟩ := Option.map_eq_some_iff.mp h
        obtain ⟨rfl, rfl⟩ := Prod.mk.inj he
        -- A target that reaches beyond the text would pass the `)` of the one that is read.
        have hmore : readTarget (c :: (l ++ r)) = none := by
          cases hread : readTarget (c :: (l ++ r)) with
          | none => rfl
          | some url' =>
            have hmem : ')' ∈ c :: l := List.mem_cons_of_mem c (mem_of_readAlt hp)
            rw [readTarget_of_append hread hmem] at htarget
            cases htarget
        rw [hmore]
        simp only
        rw [if_neg hc, ih hp]
        rfl

theorem readAlt_of_append (h : readAlt (l ++ r) = some (alt, url))
    (hlength : alt.length + url.length + 3 ≤ l.length) : readAlt l = some (alt, url) := by
  induction l generalizing alt with
  | nil => simp at hlength
  | cons c l ih =>
    rw [List.cons_append] at h
    rw [readAlt] at h ⊢
    cases htarget : readTarget (c :: (l ++ r)) with
    | some url' =>
      rw [htarget] at h
      cases h
      obtain ⟨-, rest, he⟩ := readTarget_eq_some_iff.mp htarget
      have hmem : ')' ∈ c :: l := by
        have hget := congrArg (·[url.length + 2]?) he
        have hfront : (']' :: '(' :: (url ++ ')' :: rest))[url.length + 2]? = some ')' := by simp
        simp only [hfront] at hget
        rw [← List.cons_append, List.getElem?_append_left] at hget
        · exact List.mem_of_getElem? hget
        · simp only [List.length_nil] at hlength
          omega
      rw [readTarget_of_append htarget hmem]
    | none =>
      rw [htarget] at h
      simp only at h
      have hfront : readTarget (c :: l) = none := by
        cases hread : readTarget (c :: l) with
        | none => rfl
        | some url' =>
          have hmore := readTarget_append hread r
          rw [List.cons_append, htarget] at hmore
          cases hmore
      rw [hfront]
      simp only
      split at h
      next => cases h
      next hc =>
        rw [if_neg hc]
        obtain ⟨p, hp, he⟩ := Option.map_eq_some_iff.mp h
        obtain ⟨rfl, rfl⟩ := Prod.mk.inj he
        rw [ih hp]
        · rfl
        · simp only [List.length_cons] at hlength
          omega

theorem findLink_eq_some (h : findLink l = some (m, n)) :
    IsTarget m.2 ∧ n = (Markdown.source ⟨.link, m.1, m.2⟩).length ∧
      Markdown.source ⟨.link, m.1, m.2⟩ <+: l := by
  unfold findLink at h
  split at h
  next back =>
    obtain ⟨url, hurl, he⟩ := Option.map_eq_some_iff.mp h
    cases he
    obtain ⟨htarget, rest, hdrop⟩ := readTarget_eq_some_iff.mp hurl
    refine ⟨htarget, ?_, rest, ?_⟩
    · simp only [Markdown.source, List.length_cons, List.length_append, List.length_nil]
      omega
    · have hback := List.takeWhile_append_dropWhile (p := (· != ']')) (l := back)
      rw [hdrop] at hback
      conv_rhs => rw [← hback]
      simp only [Markdown.source, List.cons_append, List.append_assoc, List.nil_append]
  next => cases h

theorem findImage_eq_some (h : findImage l = some (m, n)) :
    IsTarget m.2 ∧ n = (Markdown.source ⟨.image, m.1, m.2⟩).length ∧
      Markdown.source ⟨.image, m.1, m.2⟩ <+: l := by
  unfold findImage at h
  split at h
  next back =>
    obtain ⟨p, hp, he⟩ := Option.map_eq_some_iff.mp h
    cases he
    obtain ⟨htarget, rest, rfl⟩ := readAlt_eq_some hp
    refine ⟨htarget, ?_, rest, ?_⟩
    · simp only [Markdown.source, List.length_cons, List.length_append, List.length_nil]
      omega
    · simp only [Markdown.source, List.cons_append, List.append_assoc, List.nil_append]
  next => cases h

theorem findImage_append (h : findImage l = some (m, n)) (r : List Char) :
    findImage (l ++ r) = some (m, n) := by
  unfold findImage at h
  split at h
  next back =>
    obtain ⟨p, hp, he⟩ := Option.map_eq_some_iff.mp h
    rw [List.cons_append, List.cons_append, findImage, readAlt_append hp r]
    exact congrArg some he
  next => cases h

theorem findImage_of_append (h : findImage (l ++ r) = some (m, n)) (hlength : n ≤ l.length) :
    findImage l = some (m, n) := by
  obtain ⟨-, hn, -⟩ := findImage_eq_some h
  simp only [Markdown.source, List.length_cons, List.length_append, List.length_nil] at hn
  match l with
  | [] => simp at hlength; omega
  | [_] => simp at hlength; omega
  | c :: d :: l =>
    rw [List.cons_append, List.cons_append] at h
    unfold findImage at h
    split at h
    next back he =>
      simp only [List.cons.injEq] at he
      obtain ⟨rfl, rfl, rfl⟩ := he
      obtain ⟨p, hp, he⟩ := Option.map_eq_some_iff.mp h
      cases he
      rw [findImage, readAlt_of_append hp]
      · rfl
      · simp only [List.length_cons] at hlength
        omega
    next => cases h

end Targets

end PlatformSpec.Rag.CleanProcessor
