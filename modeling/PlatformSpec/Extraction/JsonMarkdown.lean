import PlatformSpec.Base.Find
import PlatformSpec.Extraction.Backtick

/-!
# JSON in Markdown

Models `parse_json_markdown` of `libs/json_in_md_parser.py` and says of which values the text is
read back as it is, and in a fence.
-/

namespace PlatformSpec.Extraction

open Base

/-- What `parse_json_markdown` raises. -/
inductive JsonMarkdownError where
  /-- `ValueError("could not find json block in the output.")` -/
  | notFound
  /-- `json.JSONDecodeError` -/
  | invalid
  deriving DecidableEq

/-- The markers of a beginning, in the order in which they are looked for. -/
def starts : List String := ["```json", "```", "``", "`", "\x7b", "["]

/-- The markers of an end, in the order in which they are looked for. -/
def ends : List String := ["```", "``", "`", "\x7d", "]"]

/-- `start_index`: behind the first marker there is, or at a bracket. -/
def startIndex (s : List Char) : Option Nat :=
  starts.findSome? fun marker => (find s marker.toList).map fun i =>
    if s[i]? = some '\x7b' ∨ s[i]? = some '[' then i else i + marker.length

/-- `end_index`: before the last marker there is, or behind a bracket. -/
def endIndex (s : List Char) (start : Nat) : Option Nat :=
  ends.findSome? fun marker => (rfind s marker.toList start).map fun i =>
    if s[i]? = some '\x7d' ∨ s[i]? = some ']' then i + 1 else i

/-- `parse_json_markdown`. -/
def parseJsonMarkdown (text : List Char) : Except JsonMarkdownError Json :=
  let s := stripBoth isSpace text
  match startIndex s with
  | none => .error .notFound
  | some start =>
    match endIndex s start with
    | none => .error .notFound
    | some stop =>
      if start < stop then
        match Json.loads (stripBoth isSpace ((s.take stop).drop start)) with
        | some value => .ok value
        | none => .error .invalid
      else .error .notFound

/-- Surrounding prose: neither a brace, nor a bracket, nor a backtick. -/
def Prose (text : List Char) : Prop := ∀ c ∈ text, c ∉ ['\x7b', '\x7d', '[', ']', '`']

/-- The characters of "```json". -/
def openingFence : List Char := ['`', '`', '`', 'j', 's', 'o', 'n']

/-- The characters of "```". -/
def closingFence : List Char := ['`', '`', '`']

/-- A text in a fence for JSON, with spaces around it. -/
def fenced (left text right : List Char) : List Char :=
  openingFence ++ left ++ text ++ right ++ closingFence

/-- A value is read back from its text, and from every fence around it. -/
def Recovered (j : JsonContainer) : Prop :=
  parseJsonMarkdown (j.value.chars true) = .ok j.value ∧
    ∀ before after left right, Prose before → Prose after →
      (∀ c ∈ left, isSpace c = true) → (∀ c ∈ right, isSpace c = true) →
        parseJsonMarkdown (before ++ fenced left (j.value.chars true) right ++ after) = .ok j.value

section Value

variable {j : JsonContainer} {ensureAscii : Bool}

private theorem opening_not_space (j : JsonContainer) : isSpace j.opening = false := by
  cases j <;> rfl

private theorem closing_not_space (j : JsonContainer) : isSpace j.closing = false := by
  cases j <;> rfl

private theorem stripBoth_chars {left right : List Char}
    (hleft : ∀ c ∈ left, isSpace c = true) (hright : ∀ c ∈ right, isSpace c = true) :
    stripBoth isSpace (left ++ j.value.chars ensureAscii ++ right) = j.value.chars ensureAscii := by
  have hne : j.value.chars ensureAscii ≠ [] := by simp [j.chars_value]
  have hfirst : ∀ c ∈ (j.value.chars ensureAscii).head?, isSpace c = false := by
    rw [j.chars_value]
    rintro c ⟨⟩
    exact opening_not_space j
  have hlast : ∀ c ∈ (j.value.chars ensureAscii).getLast?, isSpace c = false := by
    rw [j.chars_value, ← List.cons_append, List.getLast?_concat]
    rintro c ⟨⟩
    exact closing_not_space j
  have hback : stripRight isSpace right = [] := by
    simpa [stripRight] using stripRight_append_of_all (l := []) hright
  have hfront : left.dropWhile isSpace = [] := List.dropWhile_eq_nil_iff.mpr hleft
  rw [stripBoth_append hne hfirst hlast, hback, hfront]
  simp

end Value

/-! ## In a fence -/

private theorem toList_open : "```json".toList = openingFence := by decide

private theorem toList_close : "```".toList = closingFence := by decide

section Fence

variable {before after body : List Char}

private theorem find_fence (hbefore : '`' ∉ before) (rest : List Char) :
    find (before ++ (openingFence ++ rest)) openingFence = some before.length := by
  rw [find_eq_some_iff]
  refine ⟨?_, occursAt_append before rest, fun k hk => ?_⟩
  · simp only [List.length_append]
    omega
  · rw [Bool.eq_false_iff]
    intro h
    have hget := getElem?_of_occursAt h (k := 0) (by decide)
    rw [Nat.add_zero, List.getElem?_append_left hk] at hget
    exact hbefore (List.mem_of_getElem? hget)

private theorem rfind_fence (hafter : '`' ∉ after) {front : List Char} {start : Nat}
    (hstart : start ≤ front.length) :
    rfind (front ++ (closingFence ++ after)) closingFence start = some front.length := by
  rw [rfind_eq_some_iff]
  refine ⟨⟨?_, hstart, occursAt_append front after⟩, fun k hk _ => ?_⟩
  · simp only [List.length_append]
    omega
  · rw [Bool.eq_false_iff]
    intro h
    -- the third backtick would stand behind the fence
    have hget := getElem?_of_occursAt h (k := 2) (by decide)
    rw [List.getElem?_append_right (by omega), List.getElem?_append_right (by
      show 3 ≤ _
      omega)] at hget
    exact hafter (List.mem_of_getElem? hget)

private theorem startIndex_fence (hbefore : '`' ∉ before) (rest : List Char) :
    startIndex (before ++ (openingFence ++ rest)) = some (before.length + 7) := by
  have hget : (before ++ (openingFence ++ rest))[before.length]? = some '`' := by
    rw [List.getElem?_append_right (Nat.le_refl _), Nat.sub_self]
    rfl
  rw [startIndex, starts, List.findSome?_cons, toList_open, find_fence hbefore, Option.map_some,
    hget]
  rfl

private theorem endIndex_fence (hafter : '`' ∉ after) {front : List Char} {start : Nat}
    (hstart : start ≤ front.length) :
    endIndex (front ++ (closingFence ++ after)) start = some front.length := by
  have hget : (front ++ (closingFence ++ after))[front.length]? = some '`' := by
    rw [List.getElem?_append_right (Nat.le_refl _), Nat.sub_self]
    rfl
  rw [endIndex, ends, List.findSome?_cons, toList_close, rfind_fence hafter hstart,
    Option.map_some, hget]
  rfl

private theorem head?_fenced (left text right : List Char) :
    (fenced left text right).head? = some '`' := rfl

private theorem getLast?_fenced (left text right : List Char) :
    (fenced left text right).getLast? = some '`' := by
  rw [fenced, List.getLast?_append_of_ne_nil _ (by decide)]
  rfl

private theorem slice_fenced (hbefore : '`' ∉ before) (hafter : '`' ∉ after)
    (left text right : List Char) : ∃ start stop,
      startIndex (before ++ fenced left text right ++ after) = some start ∧
      endIndex (before ++ fenced left text right ++ after) start = some stop ∧
      stop = start + (left ++ text ++ right).length ∧
      ((before ++ fenced left text right ++ after).take stop).drop start =
        left ++ text ++ right := by
  generalize hbody : left ++ text ++ right = body
  have hopen : before ++ fenced left text right ++ after =
      before ++ (openingFence ++ (body ++ (closingFence ++ after))) := by
    simp only [fenced, ← hbody, List.append_assoc]
  have hclose : before ++ fenced left text right ++ after =
      before ++ openingFence ++ body ++ (closingFence ++ after) := by
    simp only [fenced, ← hbody, List.append_assoc]
  have hlength : (before ++ openingFence).length = before.length + 7 := List.length_append
  have hstop : (before ++ openingFence ++ body).length =
      before.length + 7 + body.length := by rw [List.length_append, hlength]
  refine ⟨before.length + 7, before.length + 7 + body.length, ?_, ?_, rfl, ?_⟩
  · rw [hopen, startIndex_fence hbefore]
  · rw [hclose, endIndex_fence hafter (by omega), hstop]
  · rw [hclose, ← hstop, List.take_left, ← hlength, List.drop_left]

theorem parseJsonMarkdown_fenced {j : JsonContainer} {ensureAscii : Bool} (hj : j.value.Valid)
    {left right : List Char} (hbefore : '`' ∉ before) (hafter : '`' ∉ after)
    (hleft : ∀ c ∈ left, isSpace c = true) (hright : ∀ c ∈ right, isSpace c = true) :
    parseJsonMarkdown (before ++ fenced left (j.value.chars ensureAscii) right ++ after) =
      .ok j.value := by
  generalize htext : j.value.chars ensureAscii = text
  have hne : text ≠ [] := by simp [← htext, j.chars_value]
  have hspace : isSpace '`' = false := rfl
  have hfence : fenced left text right ≠ [] := by
    intro h
    have hhead := head?_fenced left text right
    rw [h] at hhead
    cases hhead
  have hstrip : stripBoth isSpace (before ++ fenced left text right ++ after) =
      before.dropWhile isSpace ++ fenced left text right ++ stripRight isSpace after := by
    refine stripBoth_append hfence ?_ ?_ before after
    · rw [head?_fenced]
      exact fun c hc => Option.some.inj hc ▸ hspace
    · rw [getLast?_fenced]
      exact fun c hc => Option.some.inj hc ▸ hspace
  have hfront : '`' ∉ before.dropWhile isSpace :=
    fun h => hbefore ((List.dropWhile_suffix _).subset h)
  have hback : '`' ∉ stripRight isSpace after :=
    fun h => hafter ((prefix_stripRight after).subset h)
  obtain ⟨start, stop, hstart, hend, hstop, hslice⟩ := slice_fenced hfront hback left text right
  have hlt : start < stop := by
    have := List.length_pos_iff.mpr hne
    rw [hstop]
    simp only [List.length_append]
    omega
  have hbody : stripBoth isSpace (left ++ text ++ right) = text := by
    rw [← htext]
    exact stripBoth_chars hleft hright
  have hloads : Json.loads text = some j.value := by
    rw [← htext]
    exact Json.loads_chars ensureAscii hj
  simp only [parseJsonMarkdown, hstrip, hstart, hend, if_pos hlt, hslice, hbody, hloads]

end Fence

/-! ## As it is -/

section Raw

variable {s : List Char} {start : Nat} {pattern front cs : List Char} {c : Char}

theorem mem_of_occursAt {i : Nat} (h : occursAt pattern s i = true) (hc : c ∈ pattern) : c ∈ s :=
  List.mem_of_mem_drop ((occursAt_iff.mp h).subset hc)

theorem find_eq_none (hc : c ∈ pattern) (hs : c ∉ s) : find s pattern = none :=
  find_eq_none_iff.mpr fun _ _ => Bool.eq_false_iff.mpr fun h => hs (mem_of_occursAt h hc)

theorem rfind_eq_none (hc : c ∈ pattern) (hs : c ∉ s) : rfind s pattern start = none := by
  rw [rfind, lastIndex_eq_none_iff]
  intro k _
  rw [Bool.and_eq_false_iff]
  exact Or.inr (Bool.eq_false_iff.mpr fun h => hs (mem_of_occursAt h hc))

private theorem find_singleton {i : Nat} (h : find s [c] = some i) : s[i]? = some c :=
  occursAt_singleton.mp (find_eq_some_iff.mp h).2.1

private theorem exists_find (h : c ∈ s) : ∃ i, find s [c] = some i := by
  cases hfind : find s [c] with
  | some i => exact ⟨i, rfl⟩
  | none =>
    obtain ⟨i, hi, hget⟩ := List.getElem_of_mem h
    have hno := find_eq_none_iff.mp hfind i (by omega)
    rw [occursAt_singleton.mpr (by rw [List.getElem?_eq_getElem hi, hget])] at hno
    cases hno

private theorem find_head (c : Char) (rest : List Char) : find (c :: rest) [c] = some 0 := by
  rw [find_eq_some_iff]
  exact ⟨Nat.succ_pos _, occursAt_singleton.mpr rfl, fun k hk => absurd hk (Nat.not_lt_zero k)⟩

private theorem rfind_last (c : Char) (front : List Char) :
    rfind (front ++ [c]) [c] 0 = some front.length := by
  rw [rfind_eq_some_iff]
  refine ⟨⟨?_, Nat.zero_le _, occursAt_singleton.mpr (by simp)⟩, fun k hk _ => ?_⟩
  · rw [List.length_append, List.length_singleton]
    omega
  rw [Bool.eq_false_iff]
  intro h
  rw [occursAt_singleton, List.getElem?_eq_none (by simp; omega)] at h
  cases h

private theorem startIndex_bracket (hc : c = '\x7b' ∨ c = '[') :
    ((find s [c]).map fun i => if s[i]? = some '\x7b' ∨ s[i]? = some '[' then i else i + 1) =
      find s [c] := by
  cases hfind : find s [c] with
  | none => rfl
  | some i =>
    rw [Option.map_some, find_singleton hfind]
    rcases hc with rfl | rfl <;> rfl

private theorem endIndex_bracket (hc : c = '\x7d' ∨ c = ']') :
    ((rfind s [c] start).map fun i => if s[i]? = some '\x7d' ∨ s[i]? = some ']' then i + 1 else i) =
      (rfind s [c] start).map (· + 1) := by
  cases hfind : rfind s [c] start with
  | none => rfl
  | some i =>
    have hget : s[i]? = some c := occursAt_singleton.mp (rfind_eq_some_iff.mp hfind).1.2.2
    rw [Option.map_some, hget]
    rcases hc with rfl | rfl <;> rfl

private theorem startIndex_plain (h : '`' ∉ s) :
    startIndex s = (find s ['\x7b']).or (find s ['[']) := by
  have hnone : ∀ marker ∈ ["```json", "```", "``", "`"], find s marker.toList = none := by
    intro marker hmarker
    refine find_eq_none (c := '`') ?_ h
    simp only [List.mem_cons, List.not_mem_nil, or_false] at hmarker
    rcases hmarker with rfl | rfl | rfl | rfl <;> decide
  have hbrace : "\x7b".toList = ['\x7b'] := by decide
  have hbracket : "[".toList = ['['] := by decide
  simp only [startIndex, starts, List.findSome?_cons, List.findSome?_nil,
    hnone "```json" (by simp), hnone "```" (by simp), hnone "``" (by simp), hnone "`" (by simp),
    Option.map_none, hbrace, hbracket]
  rw [show "\x7b".length = 1 from rfl, show "[".length = 1 from rfl,
    startIndex_bracket (Or.inl rfl), startIndex_bracket (Or.inr rfl)]
  cases find s ['\x7b'] with
  | some i => rfl
  | none => cases find s ['['] <;> rfl

private theorem endIndex_plain (h : '`' ∉ s) : endIndex s start =
    ((rfind s ['\x7d'] start).map (· + 1)).or ((rfind s [']'] start).map (· + 1)) := by
  have hnone : ∀ marker ∈ ["```", "``", "`"], rfind s marker.toList start = none := by
    intro marker hmarker
    refine rfind_eq_none (c := '`') ?_ h
    simp only [List.mem_cons, List.not_mem_nil, or_false] at hmarker
    rcases hmarker with rfl | rfl | rfl <;> decide
  have hbrace : "\x7d".toList = ['\x7d'] := by decide
  have hbracket : "]".toList = [']'] := by decide
  simp only [endIndex, ends, List.findSome?_cons, List.findSome?_nil, hnone "```" (by simp),
    hnone "``" (by simp), hnone "`" (by simp), Option.map_none, hbrace, hbracket]
  rw [endIndex_bracket (Or.inl rfl), endIndex_bracket (Or.inr rfl)]
  cases rfind s ['\x7d'] start with
  | some i => rfl
  | none => cases rfind s [']'] start <;> rfl

/-- What stands before the beginning ends with a backtick and letters. -/
private def BehindBacktick (front : List Char) : Prop :=
  ∃ u v, front = u ++ '`' :: v ∧ ∀ c ∈ v, Place.isPlain c = true

private theorem behind_marker {marker : String} {v : List Char} {i : Nat}
    (hhead : marker.toList.head? = some '`') (hsplit : ∃ u, marker.toList = u ++ '`' :: v)
    (hplain : ∀ c ∈ v, Place.isPlain c = true) (hfind : find s marker.toList = some i) :
    ∃ front back, s = front ++ back ∧
      (if s[i]? = some '\x7b' ∨ s[i]? = some '[' then i else i + marker.length) = front.length ∧
      BehindBacktick front := by
  obtain ⟨u, hu⟩ := hsplit
  have hoccurs := (find_eq_some_iff.mp hfind).2.1
  obtain ⟨back, hback⟩ := occursAt_iff.mp hoccurs
  have hi := (find_eq_some_iff.mp hfind).1
  have hget : s[i]? = some '`' := by
    have := getElem?_of_occursAt hoccurs (k := 0)
      (by rw [hu, List.length_append, List.length_cons]; omega)
    rwa [Nat.add_zero, ← List.head?_eq_getElem?, hhead] at this
  refine ⟨s.take i ++ marker.toList, back, ?_, ?_, s.take i ++ u, v, ?_, hplain⟩
  · rw [List.append_assoc, hback, List.take_append_drop]
  · rw [hget, List.length_append, List.length_take, String.length_toList]
    simp only [Option.some_inj, Char.reduceEq, or_self, if_false]
    omega
  · rw [hu, List.append_assoc]

private theorem startIndex_backtick (h : '`' ∈ s) : ∃ front back, s = front ++ back ∧
    startIndex s = some front.length ∧ BehindBacktick front := by
  obtain ⟨i, hi⟩ := exists_find h
  have hlast : find s "`".toList = some i := by
    rw [show "`".toList = ['`'] by decide]
    exact hi
  have hjson : ∀ c ∈ ['j', 's', 'o', 'n'], Place.isPlain c = true :=
    forall_of_all (by decide)
  unfold startIndex starts
  simp only [List.findSome?_cons]
  cases h1 : find s "```json".toList with
  | some k =>
    obtain ⟨front, back, hs, hlength, hsplit⟩ :=
      behind_marker (by decide) ⟨['`', '`'], by decide⟩ hjson h1
    exact ⟨front, back, hs, by rw [Option.map_some, hlength], hsplit⟩
  | none =>
    cases h2 : find s "```".toList with
    | some k =>
      obtain ⟨front, back, hs, hlength, hsplit⟩ :=
        behind_marker (v := []) (by decide) ⟨['`', '`'], by decide⟩ (by simp) h2
      exact ⟨front, back, hs, by rw [Option.map_none, Option.map_some, hlength], hsplit⟩
    | none =>
      cases h3 : find s "``".toList with
      | some k =>
        obtain ⟨front, back, hs, hlength, hsplit⟩ :=
          behind_marker (v := []) (by decide) ⟨['`'], by decide⟩ (by simp) h3
        exact ⟨front, back, hs, by simp only [Option.map_none, Option.map_some, hlength], hsplit⟩
      | none =>
        obtain ⟨front, back, hs, hlength, hsplit⟩ :=
          behind_marker (v := []) (by decide) ⟨[], by decide⟩ (by simp) hlast
        refine ⟨front, back, hs, ?_, hsplit⟩
        simp only [Option.map_none, hlast, Option.map_some, hlength]

variable {place q : Place}

private theorem scan_behind {back : List Char}
    (hfront : BehindBacktick front) (h : place.scan (front ++ back) = some q) :
    Place.inside.scan back = some q := by
  obtain ⟨u, v, rfl, hplain⟩ := hfront
  rw [List.append_assoc, Place.scan_append, Option.bind_eq_some_iff] at h
  obtain ⟨before, -, h⟩ := h
  rw [List.cons_append, Place.scan_cons, Option.bind_eq_some_iff] at h
  obtain ⟨after, hnext, h⟩ := h
  cases before with
  | outside => cases hnext
  | escaped => cases hnext
  | inside =>
    cases hnext
    rwa [Place.scan_append, Place.scan_inside_plain hplain] at h

private theorem scan_prefix (hstart : front <+: cs)
    (h : place.scan cs = some q) : ∃ r, place.scan front = some r := by
  obtain ⟨back, rfl⟩ := hstart
  rw [Place.scan_append, Option.bind_eq_some_iff] at h
  obtain ⟨r, hr, -⟩ := h
  exact ⟨r, hr⟩

private theorem scan_stripBoth (h : Place.inside.scan cs = some q) :
    ∃ r, Place.inside.scan (stripBoth isSpace cs) = some r := by
  have hplain : ∀ c ∈ cs.takeWhile isSpace, Place.isPlain c = true := by
    intro c hc
    have hspace : isSpace c = true := List.all_eq_true.mp List.all_takeWhile c hc
    simp only [Place.isPlain, Bool.and_eq_true, bne_iff_ne]
    refine ⟨⟨?_, ?_⟩, ?_⟩ <;> (rintro rfl; revert hspace; decide)
  rw [← List.takeWhile_append_dropWhile (p := isSpace) (l := cs), Place.scan_append,
    Place.scan_inside_plain hplain, Option.bind_some] at h
  exact scan_prefix (prefix_stripRight _) h

end Raw

section Exact

variable {j : JsonContainer} {ensureAscii : Bool}

private theorem strip_chars : stripBoth isSpace (j.value.chars ensureAscii) =
    j.value.chars ensureAscii := by
  have hnone : ∀ c ∈ ([] : List Char), isSpace c = true := by simp
  have hstrip : stripBoth isSpace ([] ++ j.value.chars ensureAscii ++ []) =
      j.value.chars ensureAscii := stripBoth_chars hnone hnone
  simpa using hstrip

private theorem parseJsonMarkdown_eq_ok {v : Json}
    (h : parseJsonMarkdown (j.value.chars ensureAscii) = .ok v) : ∃ start stop,
      startIndex (j.value.chars ensureAscii) = some start ∧
      endIndex (j.value.chars ensureAscii) start = some stop ∧ start < stop ∧
      Json.loads (stripBoth isSpace (((j.value.chars ensureAscii).take stop).drop start)) =
        some v := by
  simp only [parseJsonMarkdown, strip_chars] at h
  split at h
  · cases h
  · next start hstart =>
    split at h
    · cases h
    · next stop hstop =>
      split at h
      · next hlt =>
        split at h
        · next value hvalue =>
          cases h
          exact ⟨start, stop, hstart, hstop, hlt, hvalue⟩
        · cases h
      · cases h

theorem no_backtick_of_ok (hj : j.value.Valid)
    (h : parseJsonMarkdown (j.value.chars ensureAscii) = .ok j.value) :
    '`' ∉ j.value.chars ensureAscii := by
  intro hmem
  obtain ⟨front, back, hsplit, hfront, hbehind⟩ := startIndex_backtick hmem
  obtain ⟨start, stop, hstart, -, -, hloads⟩ := parseJsonMarkdown_eq_ok h
  cases hfront.symm.trans hstart
  have hscan := scan_chars ensureAscii j.value hj
  rw [hsplit] at hscan hloads
  obtain ⟨q, hq⟩ := scan_prefix (List.take_prefix (stop - front.length) back)
    (scan_behind hbehind hscan)
  obtain ⟨r, hr⟩ := scan_stripBoth hq
  rw [List.drop_take, List.drop_left] at hloads
  obtain ⟨t, ht, hback⟩ := backtick_mem_chars ensureAscii j.value hmem
  exact noBacktick_of_inside hr hloads t ht hback

theorem ok_of_plain (hj : j.value.Valid) (hback : '`' ∉ j.value.chars ensureAscii)
    (hbrace : j.opening = '\x7b' ∨
      ('\x7b' ∉ j.value.chars ensureAscii ∧ '\x7d' ∉ j.value.chars ensureAscii)) :
    parseJsonMarkdown (j.value.chars ensureAscii) = .ok j.value := by
  have hfront : j.value.chars ensureAscii =
      (j.opening :: j.inner ensureAscii) ++ [j.closing] := j.chars_value ensureAscii
  have hlength : (j.opening :: j.inner ensureAscii).length + 1 =
      (j.value.chars ensureAscii).length := by rw [hfront, List.length_append]; rfl
  have hfind : find (j.value.chars ensureAscii) [j.opening] = some 0 := by
    rw [j.chars_value]
    exact find_head _ _
  have hrfind : rfind (j.value.chars ensureAscii) [j.closing] 0 =
      some (j.opening :: j.inner ensureAscii).length := by
    rw [hfront]
    exact rfind_last _ _
  have hstart : startIndex (j.value.chars ensureAscii) = some 0 := by
    rw [startIndex_plain hback]
    cases j with
    | obj fields => rw [show find _ ['\x7b'] = some 0 from hfind]; rfl
    | arr elements =>
      have hnone := (hbrace.resolve_left (by show ¬ '[' = '\x7b'; decide)).1
      rw [find_eq_none List.mem_cons_self hnone, Option.none_or]
      exact hfind
  have hstop : endIndex (j.value.chars ensureAscii) 0 =
      some (j.value.chars ensureAscii).length := by
    rw [endIndex_plain hback, ← hlength]
    cases j with
    | obj fields => rw [show rfind _ ['\x7d'] 0 = some _ from hrfind]; rfl
    | arr elements =>
      have hnone := (hbrace.resolve_left (by show ¬ '[' = '\x7b'; decide)).2
      rw [rfind_eq_none List.mem_cons_self hnone, show rfind _ [']'] 0 = some _ from hrfind]
      rfl
  have hlt : 0 < (j.value.chars ensureAscii).length := by omega
  simp only [parseJsonMarkdown, strip_chars, hstart, hstop, if_pos hlt, List.take_length,
    List.drop_zero, Json.loads_chars ensureAscii hj]

theorem stripBoth_cons {c : Char} (hc : isSpace c = false) (cs : List Char) :
    ∃ rest, stripBoth isSpace (c :: cs) = c :: rest := by
  have hstrip := stripBoth_append (p := isSpace) (List.cons_ne_nil c [])
    (by rintro d ⟨⟩; exact hc) (by rintro d ⟨⟩; exact hc) [] cs
  exact ⟨_, hstrip⟩

variable {elements : List Json}

private theorem no_opening_brace
    (hback : '`' ∉ (JsonContainer.arr elements).value.chars ensureAscii)
    (h : parseJsonMarkdown ((JsonContainer.arr elements).value.chars ensureAscii) =
      .ok (.arr elements)) : '\x7b' ∉ (JsonContainer.arr elements).value.chars ensureAscii := by
  intro hmem
  obtain ⟨start, stop, hstart, -, hlt, hloads⟩ := parseJsonMarkdown_eq_ok h
  obtain ⟨i, hi⟩ := exists_find hmem
  rw [startIndex_plain hback, hi] at hstart
  cases hstart
  generalize (JsonContainer.arr elements).value.chars ensureAscii = text at hi hloads
  have hget : (text.take stop)[start]? = some '\x7b' := by
    rw [List.getElem?_take_of_lt hlt, find_singleton hi]
  rw [← List.head?_drop] at hget
  obtain ⟨rest, hrest⟩ := List.head?_eq_some_iff.mp hget
  obtain ⟨rest', hstrip⟩ := stripBoth_cons (c := '\x7b') rfl rest
  rw [hrest, hstrip] at hloads
  obtain ⟨fields, hfields⟩ := Json.loads_object hloads
  cases hfields

private theorem no_closing_brace
    (hback : '`' ∉ (JsonContainer.arr elements).value.chars ensureAscii)
    (hopening : '\x7b' ∉ (JsonContainer.arr elements).value.chars ensureAscii)
    (h : parseJsonMarkdown ((JsonContainer.arr elements).value.chars ensureAscii) =
      .ok (.arr elements)) : '\x7d' ∉ (JsonContainer.arr elements).value.chars ensureAscii := by
  intro hmem
  obtain ⟨start, stop, hstart, hstop, -, hloads⟩ := parseJsonMarkdown_eq_ok h
  rw [startIndex_plain hback, find_eq_none List.mem_cons_self hopening, Option.none_or,
    JsonContainer.chars_value] at hstart
  cases (find_head '[' _).symm.trans hstart
  rw [endIndex_plain hback] at hstop
  cases hlast : rfind ((JsonContainer.arr elements).value.chars ensureAscii) ['\x7d'] 0 with
  | none =>
    obtain ⟨i, hi, hget⟩ := List.getElem_of_mem hmem
    have hno := lastIndex_eq_none_iff.mp hlast i (by omega)
    have hyes : occursAt ['\x7d'] ((JsonContainer.arr elements).value.chars ensureAscii) i = true :=
      occursAt_singleton.mpr (by rw [List.getElem?_eq_getElem hi, hget])
    simp [hyes] at hno
  | some k =>
    rw [hlast] at hstop
    cases hstop
    have hget := occursAt_singleton.mp (rfind_eq_some_iff.mp hlast).1.2.2
    -- the slice begins with a bracket and ends with a brace
    have htake : ((JsonContainer.arr elements).value.chars ensureAscii).take (k + 1) =
        ((JsonContainer.arr elements).value.chars ensureAscii).take k ++ ['\x7d'] := by
      rw [List.take_add_one, hget]
      rfl
    obtain ⟨rest, hrest⟩ : ∃ rest,
        ((JsonContainer.arr elements).value.chars ensureAscii).take (k + 1) = '[' :: rest := by
      rw [JsonContainer.chars_value]
      exact ⟨_, List.take_succ_cons⟩
    have hstrip : stripBoth isSpace
        (((JsonContainer.arr elements).value.chars ensureAscii).take (k + 1)) =
          ((JsonContainer.arr elements).value.chars ensureAscii).take (k + 1) := by
      rw [stripBoth_eq_self_iff]
      constructor
      · rw [hrest]
        rintro c ⟨⟩
        rfl
      · rw [htake, List.getLast?_concat]
        rintro c ⟨⟩
        rfl
    rw [List.drop_zero, hstrip, hrest] at hloads
    obtain ⟨spaces, ⟨front, hsuffix⟩, hspaces⟩ := Json.loads_array hloads
    have hlast : (']' :: spaces).getLast? = some '\x7d' := by
      rw [← hrest, htake] at hsuffix
      have := congrArg List.getLast? hsuffix
      rwa [List.getLast?_append_of_ne_nil _ (by simp), List.getLast?_concat] at this
    rcases List.mem_cons.mp (List.mem_of_getLast? hlast) with h | h
    · cases h
    · cases hspaces _ h

/-- A value is read back from its text and from every fence, exactly when the text holds no
backtick, and no brace unless it is that of an object. -/
theorem recovered_iff (hj : j.value.Valid) : Recovered j ↔
    '`' ∉ j.value.chars true ∧ (j.opening = '\x7b' ∨
      ('\x7b' ∉ j.value.chars true ∧ '\x7d' ∉ j.value.chars true)) := by
  constructor
  · rintro ⟨h, -⟩
    have hback := no_backtick_of_ok hj h
    refine ⟨hback, ?_⟩
    cases j with
    | obj fields => exact Or.inl rfl
    | arr elements =>
      have hopening := no_opening_brace hback h
      exact Or.inr ⟨hopening, no_closing_brace hback hopening h⟩
  · rintro ⟨hback, hbrace⟩
    refine ⟨ok_of_plain hj hback hbrace, fun before after left right hbefore hafter hl hr => ?_⟩
    have hprose : ∀ text, Prose text → '`' ∉ text := fun text htext h => htext _ h (by simp)
    exact parseJsonMarkdown_fenced hj (hprose _ hbefore) (hprose _ hafter) hl hr

/-- An array of an object, which is not read back as an array. -/
def objectInArray : JsonContainer := .arr [.obj [("a", .num "1")]]

private theorem objectInArray_valid : objectInArray.value.Valid :=
  ⟨⟨by simp, by rw [Json.Valid]; decide, trivial⟩, trivial⟩

theorem recovered_iff_array : Recovered objectInArray ↔
    '`' ∉ objectInArray.value.chars true ∧ (objectInArray.opening = '\x7b' ∨
      ('\x7b' ∉ objectInArray.value.chars true ∧ '\x7d' ∉ objectInArray.value.chars true)) :=
  recovered_iff objectInArray_valid

/-- The first object in an array is returned in its place. -/
theorem object_in_array_not_recovered :
    ¬ ∀ j : JsonContainer, j.value.Valid → Recovered j := by
  intro h
  have hok := (h objectInArray objectInArray_valid).1
  have hobject : parseJsonMarkdown (objectInArray.value.chars true) =
      .ok (.obj [("a", .num "1")]) := by rfl
  rw [hobject] at hok
  cases hok

end Exact

end PlatformSpec.Extraction
