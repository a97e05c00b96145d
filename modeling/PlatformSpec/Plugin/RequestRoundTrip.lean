import Mathlib.Data.List.Nodup
import PlatformSpec.Plugin.HttpMessage

/-!
# When a request survives the plugin bridge

The path is written decoded between blanks, a query string loses the question marks at its end,
values lose the blanks around them, and a body without a length is given one.
-/

namespace PlatformSpec.Plugin

open Base Split Utf8

/-- An `environ` shows the request. -/
structure SameRequest (werkzeug : Werkzeug) (request : Request) (environ : Environ) : Prop where
  method : environ.requestMethod = request.method
  path : werkzeug.wsgiDecode environ.pathInfo = some request.path
  queryString : werkzeug.wsgiDecode environ.queryString = some request.queryString
  headers : environ.headers.Perm request.headers.items
  body : environ.wsgiInput = request.body

/-- A request that is not changed on the bridge. -/
structure Transparent (werkzeug : Werkzeug) (request : Request) : Prop where
  method : ' ' ∉ request.method
  path : ' ' ∉ request.path ∧ '?' ∉ request.path
  queryString : ' ' ∉ request.queryString ∧ request.queryString.getLast? ≠ some '?'
  decoded : werkzeug.wsgiDecode request.path = some request.path ∧
    werkzeug.wsgiDecode request.queryString = some request.queryString
  unbroken : ∀ s ∈ [request.method, request.path, request.queryString], ¬ crlf <:+: s
  lineFeed : request.headers.items = [] →
    ∀ s ∈ [request.method, request.path, request.queryString], '\n' ∉ s
  values : ∀ p ∈ request.headers.items, stripBoth isSpace p.2 = p.2
  length : request.body ≠ [] → contentLength ∈ request.headers.items.map Prod.fst

theorem RequestHeaders.plain (headers : RequestHeaders) : ∀ p ∈ headers.items, Plain p := by
  refine fun p hp => Unbroken.not_infix fun c hc => ?_
  rcases List.mem_append.mp hc with hc | hc
  · exact (headers.token p hp c hc).2
  · rcases List.mem_cons.mp hc with rfl | hc
    · decide
    · rcases List.mem_cons.mp hc with rfl | hc
      · decide
      · exact headers.line p hp c hc

section Line

theorem pieces_lf (s : Str) : ∃ first lines, pieces ['\n'] s = first :: lines ∧ first <+: s ∧
    '\n' ∉ first := by
  cases hcut : cut ['\n'] s with
  | none =>
    have hs := cut_eq_none_iff.mp hcut
    exact ⟨s, [], pieces_of_not_mem hs, List.prefix_rfl,
      fun hmem => hs ((List.singleton_infix_iff _ _).mpr hmem)⟩
  | some q =>
    obtain ⟨before, after⟩ := q
    refine ⟨before, _, pieces_of_cut (by simp) hcut, ⟨['\n'] ++ after, ?_⟩, fun hmem => ?_⟩
    · rw [eq_of_cut hcut, List.append_assoc]
    · exact not_infix_of_cut hcut (by simp) ((List.singleton_infix_iff _ _).mpr hmem)

/-- The first line that is read of a head ends where the text first breaks, or before. -/
theorem textLines_head {text head rest a b : Str}
    (hhead : cut (crlf ++ crlf) text = some (head, rest)) (hcut : cut crlf text = some (a, b)) :
    ∃ first lines, textLines head = first :: lines ∧ first <+: a := by
  have htext := eq_of_cut hhead
  unfold textLines
  cases hbreak : cut crlf head with
  | none =>
    have hnot := cut_eq_none_iff.mp hbreak
    have hfirst : cut crlf text = some (head, crlf ++ rest) := by
      rw [htext, List.append_assoc, List.append_assoc]
      exact cut_crlf hnot _
    rw [hfirst] at hcut
    cases hcut
    rw [pieces_of_not_mem hnot]
    dsimp only
    split
    next =>
      obtain ⟨first, lines, hpieces, hstart, -⟩ := pieces_lf head
      exact ⟨first, lines, hpieces, hstart⟩
    next => exact ⟨head, [], rfl, List.prefix_rfl⟩
  | some q =>
    obtain ⟨before, after⟩ := q
    have hfirst := cut_append hbreak (crlf ++ crlf ++ rest)
    rw [← List.append_assoc, ← htext, hcut] at hfirst
    cases hfirst
    obtain ⟨next, more, hmore⟩ :=
      List.exists_cons_of_ne_nil (pieces_ne_nil : pieces crlf after ≠ [])
    rw [pieces_of_cut (by decide) hbreak, hmore, if_neg fun h => by simp at h]
    exact ⟨a, _, rfl, List.prefix_rfl⟩

theorem splitMax_two {line method fullPath : Str} {rest : List Str}
    (h : splitMax ' ' 2 line = method :: fullPath :: rest) :
    method ++ ' ' :: fullPath <+: line ∧ ' ' ∉ method ∧ ' ' ∉ fullPath := by
  rw [splitMax] at h
  split at h
  next => cases h
  next before after hcut =>
    have hbefore : ' ' ∉ before := fun hmem =>
      not_infix_of_cut hcut (by simp) ((List.singleton_infix_iff _ _).mpr hmem)
    have hline := eq_of_cut hcut
    obtain ⟨rfl, htail⟩ := List.cons.inj h
    rw [splitMax] at htail
    split at htail
    next hnone =>
      cases htail
      refine ⟨?_, hbefore, fun hmem =>
        cut_eq_none_iff.mp hnone ((List.singleton_infix_iff _ _).mpr hmem)⟩
      rw [hline, List.append_assoc]
      exact List.prefix_rfl
    next first last hsecond =>
      obtain ⟨rfl, -⟩ := List.cons.inj htail
      refine ⟨⟨' ' :: last, ?_⟩, hbefore, fun hmem =>
        not_infix_of_cut hsecond (by simp) ((List.singleton_infix_iff _ _).mpr hmem)⟩
      rw [hline, eq_of_cut hsecond]
      simp

end Line

section Target

variable {werkzeug : Werkzeug} {request : Request}

theorem fullPath_length_le (request : Request) :
    request.fullPath.length ≤ request.path.length + 1 + request.queryString.length := by
  have hlength := (prefix_stripRight (p := (· == '?'))
    (request.path ++ '?' :: request.queryString)).length_le
  rw [List.length_append, List.length_cons] at hlength
  have hfull : request.fullPath.length ≤
    request.path.length + (request.queryString.length + 1) := hlength
  omega

theorem fullPath_of_empty (h : request.queryString = []) :
    request.fullPath = stripRight (· == '?') request.path := by
  rw [Request.fullPath, h]
  exact stripRight_append_of_all (by simp)

/-- A target that is read as the path and the query string is at least as long as what was
written for them. -/
theorem target_length {fullPath : Str}
    (hpath : werkzeug.wsgiDecode ((cut ['?'] fullPath).getD (fullPath, [])).1 = some request.path)
    (hquery : werkzeug.wsgiDecode ((cut ['?'] fullPath).getD (fullPath, [])).2 =
      some request.queryString) :
    request.fullPath.length ≤ fullPath.length := by
  have hpathLength := werkzeug.wsgiDecode_length _ _ hpath
  have hqueryLength := werkzeug.wsgiDecode_length _ _ hquery
  cases hcut : cut ['?'] fullPath with
  | none =>
    rw [hcut] at hpathLength hqueryLength
    have hempty : request.queryString = [] :=
      List.length_eq_zero_iff.mp (Nat.le_zero.mp hqueryLength)
    rw [fullPath_of_empty hempty]
    exact (prefix_stripRight _).length_le.trans hpathLength
  | some q =>
    obtain ⟨path, query⟩ := q
    rw [hcut] at hpathLength hqueryLength
    have hlength := congrArg List.length (eq_of_cut hcut)
    have hfull := fullPath_length_le request
    simp only [Option.getD_some, List.length_append, List.length_singleton] at *
    omega

theorem fullPath_eq_iff (h : request.queryString ≠ []) :
    request.fullPath = request.path ++ '?' :: request.queryString ↔
      request.queryString.getLast? ≠ some '?' := by
  rw [Request.fullPath, stripRight_eq_self_iff]
  obtain ⟨c, s, hs⟩ := List.exists_cons_of_ne_nil h
  rw [List.getLast?_append, List.getLast?_cons, hs, List.getLast?_cons]
  simp

/-- What is written for the path and the query string when no question mark is lost. -/
theorem fullPath_eq (hmark : '?' ∉ request.path)
    (hlast : request.queryString.getLast? ≠ some '?') :
    request.fullPath = if request.queryString = [] then request.path
      else request.path ++ '?' :: request.queryString := by
  split
  next hempty =>
    rw [fullPath_of_empty hempty, stripRight_eq_self_iff]
    intro c hc
    simpa using fun he : c = '?' => hmark (he ▸ List.mem_of_getLast? hc)
  next hempty => exact (fullPath_eq_iff hempty).mpr hlast

/-- What was written for the path and the query string is read as them if and only if no question
mark stands in the path or at the end, and both are decoded to themselves. -/
theorem deliversTarget_iff (werkzeug : Werkzeug) (request : Request) : werkzeug.wsgiDecode
        ((cut ['?'] request.fullPath).getD (request.fullPath, [])).1 = some request.path ∧
      werkzeug.wsgiDecode ((cut ['?'] request.fullPath).getD (request.fullPath, [])).2 =
        some request.queryString ↔
    '?' ∉ request.path ∧ request.queryString.getLast? ≠ some '?' ∧
      werkzeug.wsgiDecode request.path = some request.path ∧
        werkzeug.wsgiDecode request.queryString = some request.queryString := by
  constructor
  · rintro ⟨hpath, hquery⟩
    have hpathLength := werkzeug.wsgiDecode_length _ _ hpath
    have hqueryLength := werkzeug.wsgiDecode_length _ _ hquery
    cases hcut : cut ['?'] request.fullPath with
    | none =>
      rw [hcut] at hpath hquery hpathLength hqueryLength
      have hempty : request.queryString = [] :=
        List.length_eq_zero_iff.mp (Nat.le_zero.mp hqueryLength)
      have hsame : request.fullPath = request.path := by
        have hfull := fullPath_of_empty hempty
        rw [hfull]
        refine (prefix_stripRight _).eq_of_length_le ?_
        rw [← hfull]
        exact hpathLength
      have hmark : '?' ∉ request.path := by
        rw [← hsame]
        exact fun hmem => cut_eq_none_iff.mp hcut ((List.singleton_infix_iff _ _).mpr hmem)
      rw [Option.getD_none, hsame] at hpath
      rw [Option.getD_none, ← hempty] at hquery
      exact ⟨hmark, by simp [hempty], hpath, hquery⟩
    | some q =>
      obtain ⟨path, query⟩ := q
      rw [hcut] at hpath hquery hpathLength hqueryLength
      rw [Option.getD_some] at hpath hquery hpathLength hqueryLength
      dsimp only at hpath hquery hpathLength hqueryLength
      have hfull := eq_of_cut hcut
      have hlength := congrArg List.length hfull
      simp only [List.length_append, List.length_singleton] at hlength
      have hwhole : request.fullPath = request.path ++ '?' :: request.queryString := by
        refine (prefix_stripRight _).eq_of_length_le ?_
        rw [List.length_append, List.length_cons]
        have : request.fullPath.length = (stripRight (· == '?')
          (request.path ++ '?' :: request.queryString)).length := rfl
        omega
      have hwholeLength := congrArg List.length hwhole
      rw [List.length_append, List.length_cons] at hwholeLength
      rw [hwhole, List.append_assoc] at hfull
      obtain ⟨rfl, hrest⟩ := List.append_inj hfull (by omega)
      cases hrest
      have hmark : '?' ∉ request.path := fun hmem =>
        not_infix_of_cut hcut (by simp) ((List.singleton_infix_iff _ _).mpr hmem)
      refine ⟨hmark, ?_, hpath, hquery⟩
      by_cases hempty : request.queryString = []
      · simp [hempty]
      · exact (fullPath_eq_iff hempty).mp hwhole
  · rintro ⟨hmark, hlast, hpath, hquery⟩
    by_cases hempty : request.queryString = []
    · have hsame : request.fullPath = request.path := by
        rw [fullPath_eq hmark hlast, if_pos hempty]
      have hnone : cut ['?'] request.path = none :=
        cut_eq_none_iff.mpr fun hi => hmark ((List.singleton_infix_iff _ _).mp hi)
      rw [hempty] at hquery
      rw [hsame, hnone, Option.getD_none, hempty]
      exact ⟨hpath, hquery⟩
    · rw [(fullPath_eq_iff hempty).mpr hlast, cut_singleton hmark]
      exact ⟨hpath, hquery⟩

end Target

section Message

variable {werkzeug : Werkzeug} {request : Request}

/-- The version that ends the first line. -/
private def version : Str := " HTTP/1.1".toList

/-- The first line is read as it was written. -/
structure LineKept (request : Request) : Prop where
  method : ' ' ∉ request.method
  fullPath : ' ' ∉ request.fullPath
  line : ¬ crlf <:+: request.line
  lineFeed : request.headers.items = [] → '\n' ∉ request.line

theorem headText_eq (line : Str) (headers : List Header) :
    headText line headers = headOf line headers ++ (crlf ++ crlf) := by
  induction headers generalizing line with
  | nil => simp [headText, headOf]
  | cons header headers ih =>
    rw [headText_cons, headOf_cons, ih]
    simp

private theorem splitMax_line (h : LineKept request) :
    splitMax ' ' 2 request.line = [request.method, request.fullPath, "HTTP/1.1".toList] := by
  have hrest : cut [' '] (request.fullPath ++ version) =
      some (request.fullPath, "HTTP/1.1".toList) := cut_singleton h.fullPath
  rw [splitMax, Request.line, cut_singleton h.method]
  dsimp only
  rw [splitMax, show " HTTP/1.1".toList = version from rfl, hrest]
  rfl

theorem line_ne_nil (request : Request) : request.line ≠ [] := by
  simp [Request.line]

/-- A message with its first line kept is read as it was written, but for the blanks around
values. -/
theorem deserialize_of_lineKept (h : LineKept request) :
    deserializeRequest (serializeRequest request) =
      .ok (buildEnviron request.method request.fullPath "HTTP/1.1".toList
        (request.headers.items.map fun p => (p.1, stripBoth isSpace p.2)) request.body) := by
  have hread : readMessage "request" (serializeRequest request) =
      .ok (request.line, (request.headers.items.map headerLine).map encode, request.body) := by
    rw [serializeRequest, readMessage_encode _ (cut_headText h.line request.headers.plain),
      textLines_headOf h.line request.headers.plain,
      if_neg fun hlf => h.lineFeed hlf.1 hlf.2]
    exact if_neg (line_ne_nil request)
  have hheaders := filterMap_readHeader fun p hp hmem =>
    (request.headers.token p hp _ hmem).1 rfl
  rw [deserializeRequest, hread]
  simp only [bind, Except.bind, splitMax_line h, hheaders]
  rfl

private theorem subset_version {front back : Str} (hline : request.line = front ++ back)
    (hlength : request.method.length + 1 + request.fullPath.length ≤ front.length) :
    back ⊆ version := by
  have hsplit : (request.method ++ ' ' :: request.fullPath) ++ version = front ++ back := by
    rw [← hline, Request.line, List.append_assoc]
    rfl
  rcases List.append_eq_append_iff.mp hsplit with ⟨more, -, hback⟩ | ⟨more, hfront, hback⟩
  · rw [hback]
    exact List.subset_append_right _ _
  · have hcount := congrArg List.length hfront
    simp only [List.length_append, List.length_cons] at hcount
    have hmore : more = [] := List.length_eq_zero_iff.mp (by omega)
    rw [hback, hmore]
    exact List.Subset.refl _

private theorem deserialize_cases {environ : Environ}
    (h : deserializeRequest (serializeRequest request) = .ok environ) :
    ∃ head rest first lines method fullPath more headers body,
      cut (crlf ++ crlf) (headText request.line request.headers.items) = some (head, rest) ∧
      textLines head = first :: lines ∧ splitMax ' ' 2 first = method :: fullPath :: more ∧
      environ = buildEnviron method fullPath (more.headD "HTTP/1.1".toList) headers body := by
  obtain ⟨⟨head, rest⟩, hhead⟩ : ∃ q, cut (crlf ++ crlf)
      (headText request.line request.headers.items) = some q := by
    rw [← Option.ne_none_iff_exists', Ne, cut_eq_none_iff, not_not, headText_eq]
    exact List.infix_append' _ _ []
  rw [deserializeRequest, serializeRequest, readMessage_encode _ hhead] at h
  cases hlines : textLines head with
  | nil =>
    rw [hlines] at h
    cases h
  | cons first lines =>
    rw [hlines] at h
    by_cases hfirst : first = []
    · simp only [hfirst, if_pos] at h
      cases h
    · simp only [if_neg hfirst, bind, Except.bind] at h
      split at h
      next method fullPath more hparts =>
        cases h
        exact ⟨head, rest, first, lines, method, fullPath, more, _, _, hhead, hlines, hparts, rfl⟩
      next => cases h

theorem lineKept_of_same {environ : Environ}
    (h : deserializeRequest (serializeRequest request) = .ok environ)
    (hmethod : environ.requestMethod = request.method)
    (hpath : werkzeug.wsgiDecode environ.pathInfo = some request.path)
    (hquery : werkzeug.wsgiDecode environ.queryString = some request.queryString) :
    LineKept request := by
  obtain ⟨head, rest, first, lines, method, fullPath, more, headers, body, hhead, hlines, hparts,
    rfl⟩ := deserialize_cases h
  obtain ⟨hstart, hspace, htarget⟩ := splitMax_two hparts
  have hsame : method = request.method := hmethod
  rw [hsame] at hstart hspace
  have hlong : request.method.length + 1 + request.fullPath.length ≤ first.length := by
    have hfull := target_length hpath hquery
    have hfirst := hstart.length_le
    rw [List.length_append, List.length_cons] at hfirst
    omega
  -- the first line read reaches beyond the target, so nothing broke the line written
  have hline : ¬ crlf <:+: request.line := by
    intro hbreak
    obtain ⟨⟨a, b⟩, hcut⟩ : ∃ q, cut crlf request.line = some q := by
      rw [← Option.ne_none_iff_exists']
      exact fun hnone => cut_eq_none_iff.mp hnone hbreak
    have htext := cut_append hcut (crlf ++
      request.headers.items.flatMap (fun header => headerLine header ++ crlf) ++ crlf)
    obtain ⟨first', lines', hlines', hle⟩ := textLines_head hhead
      (b := b ++ (crlf ++ request.headers.items.flatMap
        (fun header => headerLine header ++ crlf) ++ crlf)) (a := a) (by
        rw [← htext]
        simp [headText])
    rw [hlines] at hlines'
    cases hlines'
    have hsubset := subset_version
      (by rw [eq_of_cut hcut, List.append_assoc] : request.line = a ++ (crlf ++ b))
      (hlong.trans hle.length_le)
    exact absurd (hsubset (List.mem_cons_self : '\r' ∈ '\r' :: _)) (by decide)
  rw [cut_headText hline request.headers.plain] at hhead
  cases hhead
  rw [textLines_headOf hline request.headers.plain] at hlines
  split at hlines
  next hlf =>
    obtain ⟨front, more', hpieces, ⟨back, hback⟩, hnot⟩ := pieces_lf request.line
    rw [hlines] at hpieces
    cases hpieces
    have hmem : '\n' ∈ back := by
      have hboth := hback ▸ hlf.2
      exact (List.mem_append.mp hboth).resolve_left hnot
    exact absurd (subset_version hback.symm hlong hmem) (by decide)
  next hlf =>
    cases hlines
    refine ⟨hspace, ?_, hline, fun hnil hmem => hlf ⟨hnil, hmem⟩⟩
    have hstart' : fullPath <+: request.fullPath ++ version := by
      rw [Request.line, List.prefix_append_right_inj, List.cons_prefix_cons] at hstart
      exact hstart.2
    have hfull : request.fullPath <+: fullPath := List.prefix_of_prefix_length_le
      (List.prefix_append _ _) hstart' (target_length hpath hquery)
    exact fun hmem => htarget (hfull.subset hmem)

end Message

section Headers

private theorem toUpper_ofNat : ∀ n < 91, 65 ≤ n →
    (Char.ofNat n).toLower.toUpper = (Char.ofNat n).toUpper := by decide

private theorem toUpper_toLower (c : Char) : c.toLower.toUpper = c.toUpper := by
  by_cases h : c.val ≥ 'A'.val ∧ c.val ≤ 'Z'.val
  · have hle : c.toNat ≤ 90 := UInt32.le_iff_toNat_le.mp h.2
    have hge : 65 ≤ c.toNat := UInt32.le_iff_toNat_le.mp h.1
    have hc := toUpper_ofNat c.toNat (by omega) hge
    rwa [Char.ofNat_toNat] at hc
  · have hc : c.toLower = c := dif_neg h
    rw [hc]

variable {name other method fullPath protocol : Str}

theorem eq_of_lower (hname : headerName (environKey name) = name)
    (hother : headerName (environKey other) = other) (h : lower name = lower other) :
    name = other := by
  have hupper : upper name = upper other := by
    have hmap := congrArg (List.map Char.toUpper) h
    simpa [lower, upper, List.map_map, Function.comp_def, toUpper_toLower] using hmap
  rw [← hname, ← hother, environKey, environKey, hupper]

theorem eq_of_upper (hname : headerName (environKey name) = name)
    (hother : headerName (environKey other) = other) (h : upper name = upper other) :
    name = other := by
  rw [← hname, ← hother, environKey, environKey, h]

private theorem contentType_canonical : headerName (environKey contentType) = contentType := by
  decide

private theorem contentLength_canonical :
    headerName (environKey contentLength) = contentLength := by
  decide

variable {headers : List Header}

theorem getHeader_eq (h : ∀ p ∈ headers, headerName (environKey p.1) = p.1) {key : Str}
    (hkey : headerName (environKey key) = key) (value : Str)
    (hnodup : (headers.map Prod.fst).Nodup) :
    getHeader headers key = some value ↔ (key, value) ∈ headers := by
  induction headers with
  | nil => simp [getHeader]
  | cons p headers ih =>
    rw [List.map_cons, List.nodup_cons] at hnodup
    have hp := h p List.mem_cons_self
    by_cases hsame : p.1 = key
    · subst hsame
      have hfind : getHeader (p :: headers) p.1 = some p.2 := by simp [getHeader]
      rw [hfind, List.mem_cons]
      constructor
      · intro he
        cases he
        exact .inl rfl
      · rintro (he | hmem)
        · rw [← he]
        · exact absurd (List.mem_map.mpr ⟨_, hmem, rfl⟩) hnodup.1
    · have hlower : lower p.1 ≠ lower key := fun hl => hsame (eq_of_lower hp hkey hl)
      have hfind : getHeader (p :: headers) key = getHeader headers key := by
        simp [getHeader, hlower]
      rw [hfind, ih (fun q hq => h q (List.mem_cons_of_mem _ hq)) hnodup.2, List.mem_cons]
      refine ⟨.inr, fun hmem => hmem.resolve_left fun he => hsame ?_⟩
      rw [← he]

/-- A header apart from the others, if there is one with a value. -/
private def special (name : Str) (value : Option Str) : List Header :=
  match value with
  | none => []
  | some v => if v = [] then [] else [(name, v)]

variable {p : Header}

private theorem mem_special {value : Option Str} :
    p ∈ special name value ↔ p.1 = name ∧ value = some p.2 ∧ p.2 ≠ [] := by
  obtain ⟨n, v⟩ := p
  cases value with
  | none => simp [special]
  | some w =>
    by_cases h : w = []
    · simp only [special, h, if_pos, List.not_mem_nil, Option.some.injEq, false_iff, not_and,
        not_not]
      exact fun _ hv => hv.symm
    · simp only [special, h, if_false, List.mem_singleton, Prod.mk.injEq, Option.some.injEq]
      constructor
      · rintro ⟨rfl, rfl⟩
        exact ⟨rfl, rfl, h⟩
      · rintro ⟨rfl, rfl, -⟩
        exact ⟨rfl, rfl⟩

private theorem special_sublist (name : Str) (value : Option Str) :
    List.Sublist ((special name value).map Prod.fst) [name] := by
  cases value with
  | none => simp [special]
  | some v => by_cases h : v = [] <;> simp [special, h]

/-- The headers that the `environ` does not hold apart. -/
private def others (headers : List Header) : List Header :=
  headers.filter fun p => !(["CONTENT-TYPE".toList, "CONTENT-LENGTH".toList].contains (upper p.1))

private theorem mem_others (h : ∀ p ∈ headers, headerName (environKey p.1) = p.1) :
    p ∈ others headers ↔ p ∈ headers ∧ p.1 ≠ contentType ∧ p.1 ≠ contentLength := by
  rw [others, List.mem_filter]
  refine and_congr_right fun hp => ?_
  have htype : upper p.1 = "CONTENT-TYPE".toList ↔ p.1 = contentType :=
    ⟨fun hu => eq_of_upper (h p hp) contentType_canonical (hu.trans (by decide)),
      fun he => by rw [he]; decide⟩
  have hlength : upper p.1 = "CONTENT-LENGTH".toList ↔ p.1 = contentLength :=
    ⟨fun hu => eq_of_upper (h p hp) contentLength_canonical (hu.trans (by decide)),
      fun he => by rw [he]; decide⟩
  simp only [List.contains_cons, List.contains_nil, Bool.or_false, Bool.not_eq_true',
    Bool.or_eq_false_iff, beq_eq_false_iff_ne, ne_eq, htype, hlength]

/-- The content length of the `environ`. -/
private def lengthOf (headers : List Header) (body : List UInt8) : Option Str :=
  match getHeader headers contentLength with
  | some value => some value
  | none => if body = [] then none else some (toString body.length).toList

private theorem headers_buildEnviron (h : ∀ p ∈ headers, headerName (environKey p.1) = p.1)
    (hnodup : (headers.map Prod.fst).Nodup) (method fullPath protocol : Str)
    (body : List UInt8) : (buildEnviron method fullPath protocol headers body).headers =
      special contentType (getHeader headers contentType) ++
        special contentLength (lengthOf headers body) ++ others headers := by
  have hcanonical : ∀ p ∈ others headers, headerName (environKey p.1) = p.1 :=
    fun p hp => h p (List.mem_filter.mp hp).1
  have hkeys : (((others headers).map fun p => (environKey p.1, p.2)).map Prod.fst).Nodup := by
    have hnames : ((others headers).map Prod.fst).Nodup :=
      hnodup.sublist (List.filter_sublist.map _)
    rw [List.map_map]
    refine (List.Nodup.of_map headerName ?_)
    rw [List.map_map]
    refine (List.map_congr_left fun p hp => ?_).symm ▸ hnames
    exact hcanonical p hp
  have hhttp : (Assoc.ofPairs ((others headers).map fun p => (environKey p.1, p.2))).map
      (fun p => (headerName p.1, p.2)) = others headers := by
    rw [Assoc.ofPairs_of_nodup hkeys, List.map_map]
    refine (List.map_congr_left fun p hp => ?_).trans (List.map_id _)
    exact Prod.ext (hcanonical p hp) rfl
  exact congrArg (special contentType (getHeader headers contentType) ++
    special contentLength (lengthOf headers body) ++ ·) hhttp

theorem toString_ne_nil (n : Nat) : (toString n).toList ≠ [] := by
  rw [Nat.toString_eq_ofList_toDigits, String.toList_ofList]
  exact Nat.toDigits_ne_nil

variable {body : List UInt8}

private theorem lengthOf_eq_some {value : Str}
    (h : ∀ p ∈ headers, headerName (environKey p.1) = p.1)
    (hnodup : (headers.map Prod.fst).Nodup) : lengthOf headers body = some value ↔
      (contentLength, value) ∈ headers ∨ (contentLength ∉ headers.map Prod.fst ∧ body ≠ [] ∧
          value = (toString body.length).toList) := by
  have hget (value : Str) := getHeader_eq h contentLength_canonical value hnodup
  unfold lengthOf
  cases hlength : getHeader headers contentLength with
  | some v =>
    have hmem := (hget v).mp hlength
    have hname : contentLength ∈ headers.map Prod.fst := List.mem_map.mpr ⟨_, hmem, rfl⟩
    rw [← hget, hlength]
    simp [hname]
  | none =>
    have hname : contentLength ∉ headers.map Prod.fst := by
      intro hname
      obtain ⟨⟨name, v⟩, hmem, rfl⟩ := List.mem_map.mp hname
      rw [(hget v).mpr hmem] at hlength
      cases hlength
    rw [← hget, hlength]
    by_cases hbody : body = []
    · simp [hbody]
    · simp [hbody, hname, eq_comm]

theorem mem_headers
    (h : ∀ p ∈ headers, headerName (environKey p.1) = p.1) (hnodup : (headers.map Prod.fst).Nodup) :
    p ∈ (buildEnviron method fullPath protocol headers body).headers ↔
      (p ∈ headers ∧ (p.1 = contentType ∨ p.1 = contentLength → p.2 ≠ [])) ∨
        (p = (contentLength, (toString body.length).toList) ∧ body ≠ [] ∧
          contentLength ∉ headers.map Prod.fst) := by
  rw [headers_buildEnviron h hnodup, List.mem_append, List.mem_append, mem_special, mem_special,
    mem_others h, getHeader_eq h contentType_canonical _ hnodup, lengthOf_eq_some h hnodup]
  obtain ⟨name, value⟩ := p
  constructor
  · rintro ((⟨rfl, hmem, hne⟩ | ⟨rfl, hmem | ⟨hname, hbody, rfl⟩, hne⟩) | ⟨hmem, htype, hlength⟩)
    · exact .inl ⟨hmem, fun _ => hne⟩
    · exact .inl ⟨hmem, fun _ => hne⟩
    · exact .inr ⟨rfl, hbody, hname⟩
    · exact .inl ⟨hmem, fun hspecial => (hspecial.elim htype hlength).elim⟩
  · rintro (⟨hmem, hne⟩ | ⟨he, hbody, hname⟩)
    · by_cases htype : name = contentType
      · exact .inl (.inl ⟨htype, htype ▸ hmem, hne (.inl htype)⟩)
      · by_cases hlength : name = contentLength
        · exact .inl (.inr ⟨hlength, .inl (hlength ▸ hmem), hne (.inr hlength)⟩)
        · exact .inr ⟨hmem, htype, hlength⟩
    · cases he
      exact .inl (.inr ⟨rfl, .inr ⟨hname, hbody, rfl⟩, toString_ne_nil _⟩)

private theorem headers_nodup
    (h : ∀ p ∈ headers, headerName (environKey p.1) = p.1) (hnodup : (headers.map Prod.fst).Nodup) :
    (buildEnviron method fullPath protocol headers body).headers.Nodup := by
  refine List.Nodup.of_map Prod.fst ?_
  rw [headers_buildEnviron h hnodup, List.map_append, List.map_append]
  have hsublist := (special_sublist contentType (getHeader headers contentType)).append
    (special_sublist contentLength (lengthOf headers body))
  refine List.nodup_append.mpr ⟨?_, hnodup.sublist (List.filter_sublist.map _), ?_⟩
  · exact List.Nodup.sublist hsublist (by decide)
  · intro name hspecial other hother he
    subst he
    obtain ⟨p, hp, rfl⟩ := List.mem_map.mp hother
    have hboth := (mem_others h).mp hp
    rcases List.mem_cons.mp (hsublist.subset hspecial) with htype | hlength
    · exact hboth.2.1 htype
    · exact hboth.2.2 (List.mem_singleton.mp hlength)

/-- The headers of a request are shown if and only if no value has blanks around it and a body has
its length. -/
theorem headers_perm_iff (items : RequestHeaders) : (buildEnviron method fullPath protocol
        (items.items.map fun p => (p.1, stripBoth isSpace p.2)) body).headers.Perm items.items ↔
      (∀ p ∈ items.items, stripBoth isSpace p.2 = p.2) ∧
        (body ≠ [] → contentLength ∈ items.items.map Prod.fst) := by
  have hnames : (items.items.map fun p => (p.1, stripBoth isSpace p.2)).map Prod.fst =
      items.items.map Prod.fst := by
    rw [List.map_map]
    rfl
  have hcanonical : ∀ p ∈ items.items.map fun p => (p.1, stripBoth isSpace p.2),
      headerName (environKey p.1) = p.1 := by
    intro p hp
    obtain ⟨q, hq, rfl⟩ := List.mem_map.mp hp
    exact items.canonical q hq
  have hnodup : ((items.items.map fun p => (p.1, stripBoth isSpace p.2)).map Prod.fst).Nodup :=
    hnames ▸ items.nodup
  rw [List.perm_ext_iff_of_nodup (headers_nodup hcanonical hnodup)
    (List.Nodup.of_map Prod.fst items.nodup)]
  constructor
  · intro hall
    constructor
    · intro p hp
      rcases (mem_headers hcanonical hnodup).mp ((hall p).mpr hp) with ⟨hmem, -⟩ | ⟨rfl, -, hname⟩
      · obtain ⟨q, hq, he⟩ := List.mem_map.mp hmem
        have hname : q.1 = p.1 := by rw [← he]
        have hsame : q = p := List.inj_on_of_nodup_map items.nodup hq hp hname
        rw [hsame] at he
        exact congrArg Prod.snd he
      · exact absurd (hnames ▸ List.mem_map.mpr ⟨_, hp, rfl⟩) hname
    · intro hbody
      by_contra hname
      have hadded := (hall (contentLength, (toString body.length).toList)).mp
        ((mem_headers hcanonical hnodup).mpr (.inr ⟨rfl, hbody, hnames ▸ hname⟩))
      exact hname (List.mem_map.mpr ⟨_, hadded, rfl⟩)
  · rintro ⟨hvalues, hlength⟩ p
    have hsame : (items.items.map fun p => (p.1, stripBoth isSpace p.2)) = items.items := by
      conv_rhs => rw [← List.map_id items.items]
      exact List.map_congr_left fun q hq => Prod.ext rfl (hvalues q hq)
    rw [mem_headers hcanonical hnodup, hsame]
    constructor
    · rintro (⟨hp, -⟩ | ⟨-, hbody, hname⟩)
      · exact hp
      · exact absurd (hlength hbody) hname
    · exact fun hp => .inl ⟨hp, items.filled p hp⟩

end Headers

theorem mem_fullPath {request : Request} {c : Char} (hc : c ≠ '?') :
    c ∈ request.fullPath ↔ c ∈ request.path ∨ c ∈ request.queryString := by
  have hstrip (s : Str) : c ∈ stripRight (· == '?') s ↔ c ∈ s := by
    unfold stripRight
    rw [List.mem_reverse, ← @List.mem_reverse _ c s]
    constructor
    · exact fun hmem => (List.dropWhile_suffix _).subset hmem
    · intro hmem
      rw [← List.takeWhile_append_dropWhile (p := (· == '?')) (l := s.reverse)] at hmem
      rcases List.mem_append.mp hmem with hmem | hmem
      · have hmark := List.all_takeWhile (p := (· == '?')) (l := s.reverse)
        exact absurd (by simpa using List.all_eq_true.mp hmark c hmem) hc
      · exact hmem
  rw [Request.fullPath, hstrip, List.mem_append, List.mem_cons]
  simp [hc]

theorem line_unbroken_iff {request : Request} (hmark : '?' ∉ request.path)
    (hlast : request.queryString.getLast? ≠ some '?') :
    (¬ crlf <:+: request.line ↔
      ∀ s ∈ [request.method, request.path, request.queryString], ¬ crlf <:+: s) ∧
    ('\n' ∉ request.line ↔
      ∀ s ∈ [request.method, request.path, request.queryString], '\n' ∉ s) := by
  have hversion : request.line =
      request.method ++ ' ' :: (request.fullPath ++ ' ' :: "HTTP/1.1".toList) := rfl
  have hend : ¬ crlf <:+: "HTTP/1.1".toList ∧ '\n' ∉ "HTTP/1.1".toList := by decide
  have hpath : (crlf <:+: request.fullPath ↔ crlf <:+: request.path ∨
      crlf <:+: request.queryString) ∧
      ('\n' ∈ request.fullPath ↔ '\n' ∈ request.path ∨ '\n' ∈ request.queryString) := by
    rw [fullPath_eq hmark hlast]
    split
    next hempty => simp [hempty, crlf]
    next => exact ⟨pair_infix_append_cons (by decide) (by decide), by simp⟩
  constructor
  · rw [hversion, crlf, pair_infix_append_cons (by decide) (by decide),
      pair_infix_append_cons (by decide) (by decide), ← crlf, hpath.1,
      iff_false_intro hend.1]
    simp
  · rw [hversion, List.mem_append, List.mem_cons, List.mem_append, List.mem_cons, hpath.2,
      iff_false_intro hend.2]
    simp

/-- A request comes back from the bridge with its method, path, query string, headers and body if
and only if it is transparent. -/
theorem request_round_trip_iff (werkzeug : Werkzeug) (request : Request) :
    (∃ environ, deserializeRequest (serializeRequest request) = .ok environ ∧
      SameRequest werkzeug request environ) ↔ Transparent werkzeug request := by
  have htarget := deliversTarget_iff werkzeug request
  constructor
  · rintro ⟨environ, h, hsame⟩
    have hkept := lineKept_of_same h hsame.method hsame.path hsame.queryString
    rw [deserialize_of_lineKept hkept] at h
    cases h
    obtain ⟨hmark, hlast, hpath, hquery⟩ := htarget.mp ⟨hsame.path, hsame.queryString⟩
    obtain ⟨hvalues, hlength⟩ := (headers_perm_iff request.headers).mp hsame.headers
    have hspace := hkept.fullPath
    rw [mem_fullPath (by decide), not_or] at hspace
    obtain ⟨hline, hlf⟩ := line_unbroken_iff hmark hlast
    exact ⟨hkept.method, ⟨hspace.1, hmark⟩, ⟨hspace.2, hlast⟩, ⟨hpath, hquery⟩,
      hline.mp hkept.line, fun hnil => hlf.mp (hkept.lineFeed hnil), hvalues, hlength⟩
  · intro h
    have hkept : LineKept request := by
      obtain ⟨hline, hlf⟩ := line_unbroken_iff h.path.2 h.queryString.2
      refine ⟨h.method, ?_, hline.mpr h.unbroken, fun hnil => hlf.mpr (h.lineFeed hnil)⟩
      rw [mem_fullPath (by decide), not_or]
      exact ⟨h.path.1, h.queryString.1⟩
    obtain ⟨hpath, hquery⟩ :=
      htarget.mpr ⟨h.path.2, h.queryString.2, h.decoded.1, h.decoded.2⟩
    exact ⟨_, deserialize_of_lineKept hkept, rfl, hpath, hquery,
      (headers_perm_iff request.headers).mpr ⟨h.values, h.length⟩, rfl⟩

end PlatformSpec.Plugin
