import PlatformSpec.Base.Decimal
import PlatformSpec.Plugin.RequestRoundTrip

/-!
# When a response survives the plugin bridge

The reason phrase is rebuilt from the code, a header replaces the one of its name, and the result
begins with a content type and a length of its own.
-/

namespace PlatformSpec.Plugin

open Base Split Utf8

/-- A response that is not changed on the bridge. -/
structure Response.Kept (werkzeug : Werkzeug) (response : Response) : Prop where
  status : ∃ code, response.status = statusOf werkzeug code
  names : ∀ p ∈ response.headers, ':' ∉ p.1 ∧ ¬ crlf <:+: p.1
  values : ∀ p ∈ response.headers, stripBoth isSpace p.2 = p.2
  distinct : (response.headers.map fun p => lower p.1).Nodup
  first : [lower contentType, lower contentLength] <+: response.headers.map fun p => lower p.1

section Status

theorem isSpace_of_isDigit {c : Char} (h : c.isDigit = true) : isSpace c = false := by
  have hbounds : 48 ≤ c.toNat ∧ c.toNat ≤ 57 := by
    simpa [Char.isDigit, UInt32.le_iff_toNat_le] using h
  rw [Bool.eq_false_iff]
  intro hspace
  simp [isSpace] at hspace
  omega

theorem strip_digits (n : Nat) : stripBoth isSpace (Nat.toDigits 10 n) = Nat.toDigits 10 n := by
  have hdigit : ∀ c ∈ Nat.toDigits 10 n, c.isDigit = true := fun c => isDigit_of_mem_digits
  rw [stripBoth_eq_self_iff]
  exact ⟨fun c hc => isSpace_of_isDigit (hdigit c (List.mem_of_head? hc)),
    fun c hc => isSpace_of_isDigit (hdigit c (List.mem_of_getLast? hc))⟩

theorem pyNat_digits (n : Nat) : pyNat (Nat.toDigits 10 n) = some n := by
  have hdigit : ∀ c ∈ Nat.toDigits 10 n, c.isDigit = true := fun c => isDigit_of_mem_digits
  have hgroups : (Nat.toDigits 10 n).splitOn '_' = [Nat.toDigits 10 n] :=
    List.splitOn_eq_singleton Nat.underscore_not_in_toDigits
  have hfilter : (Nat.toDigits 10 n).filter (· ≠ '_') = Nat.toDigits 10 n :=
    List.filter_eq_self.mpr fun c hc => by
      simpa using fun he : c = '_' => Nat.underscore_not_in_toDigits (he ▸ hc)
  rw [pyNat, hgroups, hfilter, Nat.ofDigitChars_ten_toDigits, if_pos]
  simpa [Nat.toDigits_ne_nil] using hdigit

theorem pyInt_toString (code : Int) : pyInt (toString code).toList = some code := by
  cases code with
  | ofNat n =>
    have htext : (toString (Int.ofNat n)).toList = _ := decimal_ofNat n
    rw [htext, pyInt, strip_digits]
    have hsign : ∀ c, (Nat.toDigits 10 n).head? = some c → c ≠ '-' ∧ c ≠ '+' := by
      intro c hc
      have hdigit := isDigit_of_mem_digits (List.mem_of_head? hc)
      constructor
      · rintro rfl
        cases hdigit
      · rintro rfl
        cases hdigit
    split
    next heq =>
      rw [heq] at hsign
      exact absurd rfl (hsign _ rfl).1
    next heq =>
      rw [heq] at hsign
      exact absurd rfl (hsign _ rfl).2
    next =>
      rw [pyNat_digits]
      rfl
  | negSucc n =>
    have hstrip : stripBoth isSpace ('-' :: Nat.toDigits 10 (n + 1)) =
        '-' :: Nat.toDigits 10 (n + 1) := by
      rw [stripBoth_eq_self_iff]
      refine ⟨fun c hc => ?_, fun c hc => ?_⟩
      · cases hc
        decide
      · rw [List.getLast?_cons_of_ne_nil Nat.toDigits_ne_nil] at hc
        exact isSpace_of_isDigit (isDigit_of_mem_digits (List.mem_of_getLast? hc))
    have hvalue := congrArg (Option.map fun m : Nat => -(m : Int)) (pyNat_digits (n + 1))
    have htext : (toString (Int.negSucc n)).toList = _ := decimal_negSucc n
    rw [htext, pyInt, hstrip]
    exact hvalue

theorem code_unbroken (code : Int) :
    ∀ c ∈ (toString code).toList, c ≠ '\r' ∧ c ≠ '\n' ∧ c ≠ ' ' := by
  intro c hc
  rcases mem_decimal hc with rfl | hdigit
  · decide
  · have hspace := isSpace_of_isDigit hdigit
    refine ⟨?_, ?_, ?_⟩ <;> rintro rfl <;> cases hspace

variable {werkzeug : Werkzeug}

/-- A status line that Werkzeug makes is one line, with the code before its first blank. -/
theorem statusOf_unbroken (code : Int) : Unbroken (statusOf werkzeug code) := by
  intro c hc
  rcases List.mem_append.mp hc with hc | hc
  · exact ⟨(code_unbroken code c hc).1, (code_unbroken code c hc).2.1⟩
  · rcases List.mem_cons.mp hc with rfl | hc
    · decide
    · exact werkzeug.statusPhrase_line code c hc

theorem splitMax_statusOf (code : Int) :
    splitMax ' ' 2 ("HTTP/1.1 ".toList ++ statusOf werkzeug code) =
      ["HTTP/1.1".toList, (toString code).toList, werkzeug.statusPhrase code] := by
  have hprotocol : cut [' '] ("HTTP/1.1".toList ++ ' ' :: statusOf werkzeug code) =
      some ("HTTP/1.1".toList, statusOf werkzeug code) := cut_singleton (by decide)
  have hcode : cut [' '] (statusOf werkzeug code) =
      some ((toString code).toList, werkzeug.statusPhrase code) := cut_singleton fun hmem =>
    (code_unbroken code ' ' hmem).2.2 rfl
  have hline : "HTTP/1.1 ".toList ++ statusOf werkzeug code =
      "HTTP/1.1".toList ++ ' ' :: statusOf werkzeug code := rfl
  rw [hline, splitMax, hprotocol]
  dsimp only
  rw [splitMax, hcode]
  rfl

end Status

section Headers

variable {headers : List Header} {header : Header}

/-- The name under which a header is found. -/
private abbrev key (header : Header) : Str := lower header.1

theorem setHeader_of_not_mem (h : key header ∉ headers.map key) :
    setHeader headers header = headers ++ [header] := by
  induction headers with
  | nil => rfl
  | cons p headers ih =>
    rw [List.map_cons, List.mem_cons, not_or] at h
    rw [setHeader, if_neg fun he => h.1 he.symm, ih h.2, List.cons_append]

theorem setHeader_append {after : List Header} {p : Header} (hp : key p = key header)
    (hbefore : key header ∉ headers.map key) (hafter : key header ∉ after.map key) :
    setHeader (headers ++ p :: after) header = headers ++ header :: after := by
  induction headers with
  | nil =>
    rw [List.nil_append, setHeader, if_pos hp, List.filter_eq_self.mpr]
    · rfl
    · intro q hq
      exact decide_eq_true fun he => hafter (List.mem_map.mpr ⟨q, hq, he⟩)
  | cons q headers ih =>
    rw [List.map_cons, List.mem_cons, not_or] at hbefore
    rw [List.cons_append, setHeader, if_neg fun he => hbefore.1 he.symm, ih hbefore.2,
      List.cons_append]

theorem map_setHeader (hnodup : (headers.map key).Nodup) :
    (setHeader headers header).map key =
      if key header ∈ headers.map key then headers.map key
      else headers.map key ++ [key header] := by
  by_cases hmem : key header ∈ headers.map key
  · obtain ⟨p, hp, hkey⟩ := List.mem_map.mp hmem
    obtain ⟨before, after, rfl⟩ := List.append_of_mem hp
    rw [List.map_append, List.map_cons, List.nodup_middle, List.nodup_cons, hkey,
      List.mem_append, not_or] at hnodup
    rw [if_pos hmem, setHeader_append hkey hnodup.1.1 hnodup.1.2]
    simp [hkey]
  · rw [if_neg hmem, setHeader_of_not_mem hmem, List.map_append, List.map_singleton]

theorem mem_setHeader {p : Header} (h : p ∈ setHeader headers header) :
    p ∈ headers ∨ p = header := by
  induction headers with
  | nil => exact Or.inr (List.mem_singleton.mp h)
  | cons q headers ih =>
    rw [setHeader] at h
    split at h
    next =>
      rcases List.mem_cons.mp h with rfl | h
      · exact Or.inr rfl
      · exact Or.inl (List.mem_cons_of_mem _ (List.mem_of_mem_filter h))
    next =>
      rcases List.mem_cons.mp h with rfl | h
      · exact Or.inl List.mem_cons_self
      · exact (ih h).imp_left (List.mem_cons_of_mem _)

/-- Headers that are set one after another: the names keep their order and stay distinct, and
every header is an old one or one of these. -/
theorem foldl_setHeader (added : List Header) (hnodup : (headers.map key).Nodup) :
    ((added.foldl setHeader headers).map key).Nodup ∧
      headers.map key <+: (added.foldl setHeader headers).map key ∧
        ∀ p ∈ added.foldl setHeader headers, p ∈ headers ∨ p ∈ added := by
  induction added generalizing headers with
  | nil => exact ⟨hnodup, List.prefix_rfl, fun p hp => Or.inl hp⟩
  | cons header added ih =>
    have hstep := @map_setHeader headers header hnodup
    have hnext : ((setHeader headers header).map key).Nodup := by
      rw [hstep]
      split
      next => exact hnodup
      next hmem =>
        rw [← List.concat_eq_append]
        exact hnodup.concat hmem
    have hstart : headers.map key <+: (setHeader headers header).map key := by
      rw [hstep]
      split
      next => exact List.prefix_rfl
      next => exact List.prefix_append _ _
    obtain ⟨hrun, hgrown, hmem⟩ := ih hnext
    refine ⟨hrun, hstart.trans hgrown, fun p hp => ?_⟩
    rcases hmem p hp with hp | hp
    · rcases mem_setHeader hp with hp | rfl
      · exact Or.inl hp
      · exact Or.inr List.mem_cons_self
    · exact Or.inr (List.mem_cons_of_mem _ hp)

theorem foldl_setHeader_of_nodup {added : List Header}
    (h : ((headers ++ added).map key).Nodup) :
    added.foldl setHeader headers = headers ++ added := by
  induction added generalizing headers with
  | nil => exact (List.append_nil _).symm
  | cons header added ih =>
    have hmem : key header ∉ headers.map key := by
      rw [List.map_append, List.map_cons] at h
      exact fun hmem => (List.nodup_append.mp h).2.2 _ hmem _ List.mem_cons_self rfl
    rw [List.append_cons] at h ⊢
    rw [List.foldl_cons, setHeader_of_not_mem hmem, ih h]

end Headers

section Message

variable {werkzeug : Werkzeug} {response : Response}

theorem not_infix_of_mem_textLines {head line : Str} (h : line ∈ textLines head) :
    ¬ crlf <:+: line := by
  unfold textLines at h
  dsimp only at h
  split at h
  next =>
    have hnot := not_infix_of_mem_pieces (by simp) h
    exact fun hi => hnot ((List.singleton_infix_iff _ _).mpr (hi.subset (by decide)))
  next => exact not_infix_of_mem_pieces (by decide) h

theorem newHeaders_distinct (body : List UInt8) : ((newHeaders body).map key).Nodup := by
  show [lower contentType, lower contentLength].Nodup
  decide

theorem newHeaders_plain (body : List UInt8) : ∀ p ∈ newHeaders body,
    (':' ∉ p.1 ∧ ¬ crlf <:+: p.1) ∧ stripBoth isSpace p.2 = p.2 := by
  intro p hp
  rcases List.mem_cons.mp hp with rfl | hp
  · exact ⟨⟨by decide, by decide⟩, by decide⟩
  · rcases List.mem_singleton.mp hp with rfl
    refine ⟨(by decide : ':' ∉ contentLength ∧ ¬ crlf <:+: contentLength), ?_⟩
    show stripBoth isSpace (toString body.length).toList = _
    rw [Nat.toString_eq_ofList_toDigits, String.toList_ofList]
    exact strip_digits _

variable {headers : List Header}

theorem deserializeResponse_cases {raw : List UInt8} {status : Str}
    {body : List UInt8} (h : deserializeResponse werkzeug raw = .ok (status, headers, body)) :
    ∃ statusLine lines code, readMessage "response" raw = .ok (statusLine, lines, body) ∧
      status = statusOf werkzeug code ∧
        headers = (lines.filterMap readHeader).foldl setHeader (newHeaders body) := by
  rw [deserializeResponse] at h
  cases hread : readMessage "response" raw with
  | error message =>
    rw [hread] at h
    cases h
  | ok message =>
    obtain ⟨statusLine, lines, rest⟩ := message
    rw [hread] at h
    simp only [bind, Except.bind] at h
    split at h
    next =>
      split at h
      next => cases h
      next code hcode =>
        cases h
        exact ⟨statusLine, lines, code, rfl, rfl, rfl⟩
    next => cases h

/-- The lines of a serialised message that its reader sees hold no line break. -/
theorem readMessage_lines {text first : Str} {lines : List (List UInt8)}
    {kind : String} {body rest : List UInt8}
    (h : readMessage kind (encode (headText text headers) ++ body) = .ok (first, lines, rest)) :
    ∀ line ∈ lines, ∃ s, line = encode s ∧ ¬ crlf <:+: s := by
  obtain ⟨⟨head, after⟩, hhead⟩ : ∃ q, cut (crlf ++ crlf) (headText text headers) = some q := by
    rw [← Option.ne_none_iff_exists', Ne, cut_eq_none_iff, not_not, headText_eq]
    exact List.infix_append' _ _ []
  rw [readMessage_encode _ hhead] at h
  split at h
  next => cases h
  next first' lines' hlines =>
    split at h
    next => cases h
    next =>
      cases h
      intro line hline
      obtain ⟨s, hs, rfl⟩ := List.mem_map.mp hline
      exact ⟨s, rfl, not_infix_of_mem_textLines (hlines ▸ List.mem_cons_of_mem _ hs)⟩

theorem kept_of_same (h : deserializeResponse werkzeug (serializeResponse response) =
    .ok (response.status, response.headers, response.body)) : response.Kept werkzeug := by
  obtain ⟨statusLine, lines, code, hread, hstatus, hheaders⟩ := deserializeResponse_cases h
  obtain ⟨hnodup, hstart, hmem⟩ := foldl_setHeader (lines.filterMap readHeader)
    (newHeaders_distinct response.body)
  rw [← hheaders] at hnodup hstart hmem
  have hplain : ∀ p ∈ response.headers,
      (':' ∉ p.1 ∧ ¬ crlf <:+: p.1) ∧ stripBoth isSpace p.2 = p.2 := by
    intro p hp
    rcases hmem p hp with hp | hp
    · exact newHeaders_plain _ p hp
    · obtain ⟨line, hline, hheader⟩ := List.mem_filterMap.mp hp
      obtain ⟨s, rfl, hs⟩ := readMessage_lines hread line hline
      obtain ⟨hcolon, hfront, hstrip⟩ := readHeader_eq_some hheader
      exact ⟨⟨hcolon, fun hi => hs (hi.trans hfront.isInfix)⟩, hstrip⟩
  exact
    { status := ⟨code, hstatus⟩
      names := fun p hp => (hplain p hp).1
      values := fun p hp => (hplain p hp).2
      distinct := hnodup
      first := hstart }

theorem plain_of_name {header : Header} (hname : ¬ crlf <:+: header.1)
    (hvalue : Unbroken header.2) : Plain header := by
  rw [Plain, headerLine, crlf, pair_infix_append_cons (by decide) (by decide), not_or]
  refine ⟨hname, Unbroken.not_infix fun c hc => ?_⟩
  rcases List.mem_cons.mp hc with rfl | hc
  · decide
  · exact hvalue c hc

theorem Response.Kept.foldl_setHeader (h : response.Kept werkzeug) :
    response.headers.foldl setHeader (newHeaders response.body) = response.headers := by
  have hdistinct := h.distinct
  have hfirst := h.first
  match hheaders : response.headers with
  | [] =>
    rw [hheaders] at hfirst
    cases List.prefix_nil.mp hfirst
  | [_] =>
    rw [hheaders] at hfirst
    cases List.prefix_nil.mp (List.cons_prefix_cons.mp hfirst).2
  | type :: length :: headers =>
    rw [hheaders] at hfirst hdistinct
    rw [List.map_cons, List.map_cons, List.cons_prefix_cons, List.cons_prefix_cons] at hfirst
    have htype : setHeader (newHeaders response.body) type =
        [type, (contentLength, (toString response.body.length).toList)] := by
      rw [newHeaders, setHeader, if_pos hfirst.1, List.filter_eq_self.mpr]
      intro p hp
      rw [List.mem_singleton.mp hp, ← hfirst.1]
      exact (by decide : decide (lower contentLength ≠ lower contentType) = true)
    have hlength : setHeader [type, (contentLength, (toString response.body.length).toList)]
        length = [type, length] := by
      rw [setHeader, if_neg, setHeader, if_pos hfirst.2.1]
      · rfl
      · rw [← hfirst.1, ← hfirst.2.1]
        decide
    rw [List.foldl_cons, List.foldl_cons, htype, hlength]
    exact foldl_setHeader_of_nodup hdistinct

theorem same_of_kept (h : response.Kept werkzeug) :
    deserializeResponse werkzeug (serializeResponse response) =
      .ok (response.status, response.headers, response.body) := by
  obtain ⟨code, hstatus⟩ := h.status
  have hline : Unbroken ("HTTP/1.1 ".toList ++ response.status) := by
    rw [hstatus]
    exact Unbroken.append (forall_of_all (by decide)) (statusOf_unbroken code)
  have hplain : ∀ p ∈ response.headers, Plain p := fun p hp =>
    plain_of_name (h.names p hp).2 (response.line p hp)
  have hread : readMessage "response" (serializeResponse response) =
      .ok ("HTTP/1.1 ".toList ++ response.status,
        (response.headers.map headerLine).map encode, response.body) := by
    rw [serializeResponse, readMessage_encode _ (cut_headText hline.not_infix hplain),
      textLines_headOf hline.not_infix hplain, if_neg fun hlf => hline.not_mem_lf hlf.2]
    exact if_neg (by simp)
  have hheaders : ((response.headers.map headerLine).map encode).filterMap readHeader =
      response.headers := by
    rw [filterMap_readHeader fun p hp => (h.names p hp).1]
    conv_rhs => rw [← List.map_id response.headers]
    exact List.map_congr_left fun p hp => Prod.ext rfl (h.values p hp)
  rw [deserializeResponse, hread, hstatus]
  simp only [bind, Except.bind, splitMax_statusOf, pyInt_toString, hheaders, h.foldl_setHeader]
  rfl

theorem response_round_trip_iff (werkzeug : Werkzeug) (response : Response) :
    deserializeResponse werkzeug (serializeResponse response) =
        .ok (response.status, response.headers, response.body) ↔
      response.Kept werkzeug := ⟨kept_of_same, same_of_kept⟩

end Message

/-- A request comes back from the bridge if and only if it is transparent, and a response if and
only if it is kept. -/
theorem bridge_round_trip_iff (werkzeug : Werkzeug) (request : Request) (response : Response) :
    ((∃ environ, deserializeRequest (serializeRequest request) = .ok environ ∧
        SameRequest werkzeug request environ) ↔ Transparent werkzeug request) ∧
      (deserializeResponse werkzeug (serializeResponse response) =
          .ok (response.status, response.headers, response.body) ↔ response.Kept werkzeug) :=
  ⟨request_round_trip_iff werkzeug request, response_round_trip_iff werkzeug response⟩

section Failing

/-- ASCII texts are decoded to themselves. -/
def asciiWerkzeug : Werkzeug where
  wsgiDecode s := if s.all (fun c => decide (c.toNat < 128)) then some s else none
  wsgiDecode_length s t h := by
    split at h
    · exact (Option.some.inj h ▸ le_rfl)
    · cases h
  statusPhrase code := if code = 200 then "OK".toList else "UNKNOWN".toList
  statusPhrase_line code := by
    split
    · exact forall_of_all (by decide)
    · exact forall_of_all (by decide)

/-- A request for `/a%20b`. -/
def spacedRequest : Request where
  method := "GET".toList
  path := "/a b".toList
  queryString := []
  headers := ⟨[], by decide, by decide, by decide, by decide, by decide⟩
  body := []

/-- A response that sets two cookies. -/
def cookieResponse : Response where
  status := "200 OK".toList
  headers := [(contentType, "text/plain".toList), (contentLength, "0".toList),
    ("Set-Cookie".toList, "a=1".toList), ("Set-Cookie".toList, "b=2".toList)]
  line := by
    have htest : ∀ p ∈ [(contentType, "text/plain".toList), (contentLength, "0".toList),
        ("Set-Cookie".toList, "a=1".toList), ("Set-Cookie".toList, "b=2".toList)],
        p.2.all (fun c => decide (c ≠ '\r' ∧ c ≠ '\n')) = true := forall_of_all (by decide)
    exact fun p hp => forall_of_all (htest p hp)
  body := []

/-- The path with a blank is cut, and the first cookie is lost. -/
theorem bridge_round_trip_fails :
    (¬ ∃ environ, deserializeRequest (serializeRequest spacedRequest) = .ok environ ∧
        SameRequest asciiWerkzeug spacedRequest environ) ∧
      deserializeResponse asciiWerkzeug (serializeResponse cookieResponse) ≠
        .ok (cookieResponse.status, cookieResponse.headers, cookieResponse.body) := by
  constructor
  · rw [request_round_trip_iff]
    exact fun h => absurd h.path.1 (by decide)
  · rw [Ne, response_round_trip_iff]
    exact fun h => absurd h.distinct (by decide)

end Failing

end PlatformSpec.Plugin
