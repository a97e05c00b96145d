import PlatformSpec.Plugin.HttpParser

/-!
# Reading a message back

A message is cut at bytes, but every cut falls between characters. So the head of a serialised
message is read as the text it was, line by line.
-/

namespace PlatformSpec.Plugin

open Base Split Utf8

/-- The lines of the text of a head. -/
def textLines (head : Str) : List Str :=
  let lines := pieces crlf head
  if lines.length = 1 ∧ '\n' ∈ lines.headD [] then pieces ['\n'] head else lines

/-- A text without line breaks. -/
def Unbroken (s : Str) : Prop := ∀ c ∈ s, c ≠ '\r' ∧ c ≠ '\n'

variable {s : Str}

theorem Unbroken.not_mem_cr (h : Unbroken s) : '\r' ∉ s := fun hc => (h _ hc).1 rfl

theorem Unbroken.not_mem_lf (h : Unbroken s) : '\n' ∉ s := fun hc => (h _ hc).2 rfl

theorem Unbroken.not_infix (h : Unbroken s) : ¬ crlf <:+: s := fun hi =>
  h.not_mem_cr (hi.subset List.mem_cons_self)

theorem Unbroken.append {t : Str} (hs : Unbroken s) (ht : Unbroken t) : Unbroken (s ++ t) := by
  intro c hc
  rcases List.mem_append.mp hc with hc | hc
  · exact hs c hc
  · exact ht c hc

section Bytes

private theorem crlf_ascii : ∀ c ∈ crlf, c.toNat < 128 := forall_of_all (by decide)

private theorem double_ascii : ∀ c ∈ crlf ++ crlf, c.toNat < 128 := forall_of_all (by decide)

private theorem lf_ascii : ∀ c ∈ ['\n'], c.toNat < 128 := forall_of_all (by decide)

theorem headLines_encode (head : Str) : headLines (encode head) = (textLines head).map encode := by
  have hpieces : pieces crlfBytes (encode head) = (pieces crlf head).map encode :=
    (marks crlf_ascii).pieces_encode (by decide)
  have hlf : pieces (encode ['\n']) (encode head) = (pieces ['\n'] head).map encode :=
    (marks lf_ascii).pieces_encode (by decide)
  have hmem (s : Str) : encode ['\n'] <:+: encode s ↔ '\n' ∈ s :=
    ((marks lf_ascii).infix_encode_iff (by decide)).trans (List.singleton_infix_iff _ _)
  obtain ⟨first, lines, hlines⟩ :=
    List.exists_cons_of_ne_nil (pieces_ne_nil : pieces crlf head ≠ [])
  unfold headLines textLines
  rw [hpieces, hlf, hlines]
  by_cases h : (first :: lines).length = 1 ∧ '\n' ∈ (first :: lines).headD []
  · refine (if_pos ⟨?_, (hmem first).mpr h.2⟩).trans (congrArg _ (if_pos h).symm)
    rw [List.length_map]
    exact h.1
  · refine (if_neg fun hcode => h ⟨?_, (hmem first).mp hcode.2⟩).trans
      (congrArg _ (if_neg h).symm)
    rw [← List.length_map (f := encode)]
    exact hcode.1

theorem readMessage_encode {text head rest : Str} (kind : String)
    (h : cut (crlf ++ crlf) text = some (head, rest)) (body : List UInt8) :
    readMessage kind (encode text ++ body) =
      match textLines head with
      | [] => .error s!"Empty HTTP {kind}"
      | first :: lines =>
        if first = [] then .error s!"Empty HTTP {kind}"
        else .ok (first, lines.map encode, encode rest ++ body) := by
  have hcut : cut (crlfBytes ++ crlfBytes) (encode text ++ body) =
      some (encode head, encode rest ++ body) :=
    (marks double_ascii).cut_encode (by decide) body h
  rw [readMessage, splitMessage, hcut]
  dsimp only
  rw [headLines_encode]
  cases textLines head with
  | nil => rfl
  | cons first lines =>
    have hempty : encode first = [] ↔ first = [] :=
      ⟨fun h => encode_injective (h.trans encode_nil.symm), fun h => h ▸ encode_nil⟩
    simp only [List.map_cons, hempty, decodeIgnore_encode]

end Bytes

section Head

/-- A header that is written on a line of its own. -/
def Plain (header : Header) : Prop := ¬ crlf <:+: headerLine header

variable {line : Str} {headers : List Header}

/-- The head of a message without its end. -/
def headOf (line : Str) (headers : List Header) : Str :=
  line ++ headers.flatMap fun header => crlf ++ headerLine header

theorem headOf_cons (line : Str) (header : Header) (headers : List Header) :
    headOf line (header :: headers) = line ++ (crlf ++ headOf (headerLine header) headers) := by
  simp [headOf]

theorem headText_cons (line : Str) (header : Header) (headers : List Header) :
    headText line (header :: headers) = line ++ (crlf ++ headText (headerLine header) headers) := by
  simp [headText]

theorem cut_headText (hline : ¬ crlf <:+: line) (hheaders : ∀ p ∈ headers, Plain p) :
    cut (crlf ++ crlf) (headText line headers) = some (headOf line headers, []) := by
  induction headers generalizing line with
  | nil =>
    have hcut := cut_double (b := []) (by decide : '\r' ≠ '\n') hline
    simpa [headText, headOf, crlf] using hcut
  | cons header headers ih =>
    have hplain := hheaders header List.mem_cons_self
    have hnext : ¬ crlf <+: headText (headerLine header) headers := by
      intro hstart
      refine hplain (List.IsPrefix.isInfix (List.prefix_of_prefix_length_le hstart ?_ ?_))
      · rw [headText, List.append_assoc, List.append_assoc]
        exact List.prefix_append _ _
      · simp only [headerLine, crlf, List.length_append, List.length_cons, List.length_nil]
        omega
    rw [headText_cons, headOf_cons]
    refine (cut_double_of_pair (by decide) hline hnext).trans ?_
    have htail := ih hplain fun p hp => hheaders p (List.mem_cons_of_mem _ hp)
    rw [show ['\r', '\n', '\r', '\n'] = crlf ++ crlf from rfl, htail]
    rfl

theorem cut_crlf (hline : ¬ crlf <:+: line) (rest : Str) :
    cut crlf (line ++ (crlf ++ rest)) = some (line, rest) := cut_pair (by decide) hline

theorem pieces_headOf (hline : ¬ crlf <:+: line) (hheaders : ∀ p ∈ headers, Plain p) :
    pieces crlf (headOf line headers) = line :: headers.map headerLine := by
  induction headers generalizing line with
  | nil =>
    rw [headOf, List.flatMap_nil, List.append_nil]
    exact pieces_of_not_mem hline
  | cons header headers ih =>
    rw [headOf_cons, pieces_of_cut (by decide) (cut_crlf hline _),
      ih (hheaders header List.mem_cons_self)
        fun p hp => hheaders p (List.mem_cons_of_mem _ hp), List.map_cons]

/-- The lines that are read of a head; without headers a line feed breaks the first line. -/
theorem textLines_headOf (hline : ¬ crlf <:+: line) (hheaders : ∀ p ∈ headers, Plain p) :
    textLines (headOf line headers) =
      if headers = [] ∧ '\n' ∈ line then pieces ['\n'] line
      else line :: headers.map headerLine := by
  unfold textLines
  rw [pieces_headOf hline hheaders]
  by_cases h : headers = [] ∧ '\n' ∈ line
  · rw [if_pos h, if_pos ⟨by simp [h.1], h.2⟩, h.1, headOf, List.flatMap_nil, List.append_nil]
  · rw [if_neg h, if_neg]
    rintro ⟨hlength, hmem⟩
    exact h ⟨by simpa using hlength, hmem⟩

theorem readHeader_encode {header : Header} (h : ':' ∉ header.1) :
    readHeader (encode (headerLine header)) = some (header.1, stripBoth isSpace header.2) := by
  have hne : encode (headerLine header) ≠ [] := by
    intro he
    have hnil := encode_injective (he.trans encode_nil.symm)
    simp [headerLine] at hnil
  rw [readHeader, if_neg hne, decodeIgnore_encode, headerLine, cut_singleton h, Option.map_some,
    stripBoth_cons_of_pos (by decide)]

theorem filterMap_readHeader (h : ∀ p ∈ headers, ':' ∉ p.1) :
    ((headers.map headerLine).map encode).filterMap readHeader =
      headers.map fun p => (p.1, stripBoth isSpace p.2) := by
  rw [List.map_map, List.filterMap_map, ← List.filterMap_eq_map]
  exact List.filterMap_congr fun p hp => readHeader_encode (h p hp)

/-- A header that is read has no colon in its name and no blanks around its value. -/
theorem readHeader_eq_some {text : Str} {header : Header}
    (h : readHeader (encode text) = some header) :
    ':' ∉ header.1 ∧ header.1 <+: text ∧ stripBoth isSpace header.2 = header.2 := by
  rw [readHeader] at h
  split at h
  next => cases h
  next =>
    rw [decodeIgnore_encode] at h
    obtain ⟨⟨name, value⟩, hcut, rfl⟩ := Option.map_eq_some_iff.mp h
    refine ⟨fun hmem => ?_, ⟨':' :: value, ?_⟩, stripBoth_stripBoth value⟩
    · exact not_infix_of_cut hcut (by simp) ((List.singleton_infix_iff _ _).mpr hmem)
    · rw [eq_of_cut hcut]
      simp

end Head

end PlatformSpec.Plugin
