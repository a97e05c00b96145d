import PlatformSpec.Base.Assoc
import PlatformSpec.Base.Text
import PlatformSpec.Base.Utf8

/-!
# HTTP messages on the plugin bridge

Models `core/plugin/utils/http_parser.py`. A text is the list of its characters. Werkzeug's
accessors read what the `environ` holds, a path and a query string through the WSGI decoding;
header names are ASCII.
-/

namespace PlatformSpec.Plugin

open Base Split Utf8

/-- A text. -/
abbrev Str := List Char

/-- A header: its name and its value. -/
abbrev Header := Str × Str

/-- What the parser takes from Werkzeug: how a text of the `environ` is decoded as Latin-1 bytes
holding UTF-8, with at most one character for each byte, and the phrase of a status code. -/
structure Werkzeug where
  wsgiDecode : Str → Option Str
  wsgiDecode_length : ∀ s t, wsgiDecode s = some t → t.length ≤ s.length
  statusPhrase : Int → Str
  statusPhrase_line : ∀ code, ∀ c ∈ statusPhrase code, c ≠ '\r' ∧ c ≠ '\n'

/-- The line break of the format. -/
def crlf : Str := ['\r', '\n']

/-- `b"\r\n"`. -/
def crlfBytes : List UInt8 := encode crlf

/-- `name.upper()`. -/
def upper (name : Str) : Str := name.map Char.toUpper

/-- `name.lower()`. -/
def lower (name : Str) : Str := name.map Char.toLower

/-- `s.replace(a, b)` of single characters. -/
def replace (a b : Char) (s : Str) : Str := s.map fun c => if c = a then b else c

/-- `s.title()`, after a letter or not. -/
def titleFrom : Bool → Str → Str
  | _, [] => []
  | cased, c :: s => (if cased then c.toLower else c.toUpper) :: titleFrom c.isAlpha s

/-- The key of a header in the `environ`. -/
def environKey (name : Str) : Str := "HTTP_".toList ++ replace '-' '_' (upper name)

/-- The name of a header that is read from the `environ`. -/
def headerName (key : Str) : Str := titleFrom false (replace '_' '-' (key.drop 5))

/-- The name of a header that the `environ` holds apart. -/
def contentType : Str := "Content-Type".toList

/-- The name of a header that the `environ` holds apart. -/
def contentLength : Str := "Content-Length".toList

/-- The headers of a request, as Werkzeug lists them from an `environ`: one for each name, in the
spelling of `headerName`, without line breaks. -/
structure RequestHeaders where
  items : List Header
  nodup : (items.map Prod.fst).Nodup
  canonical : ∀ p ∈ items, headerName (environKey p.1) = p.1
  token : ∀ p ∈ items, ∀ c ∈ p.1, c ≠ ':' ∧ c ≠ '\r' ∧ c ≠ '\n'
  line : ∀ p ∈ items, ∀ c ∈ p.2, c ≠ '\r' ∧ c ≠ '\n'
  filled : ∀ p ∈ items, p.1 = contentType ∨ p.1 = contentLength → p.2 ≠ []

/-- A request as its accessors show it; the path is decoded. -/
structure Request where
  method : Str
  path : Str
  queryString : Str
  headers : RequestHeaders
  body : List UInt8

/-- The `environ` that is built for a request. -/
structure Environ where
  requestMethod : Str
  pathInfo : Str
  queryString : Str
  serverName : Str
  serverPort : Str
  serverProtocol : Str
  wsgiInput : List UInt8
  urlScheme : Str
  contentType : Option Str
  contentLength : Option Str
  http : List Header

/-- `EnvironHeaders`. -/
def Environ.headers (environ : Environ) : List Header :=
  let special (name : Str) (value : Option Str) :=
    match value with
    | none => []
    | some v => if v = [] then [] else [(name, v)]
  special Plugin.contentType environ.contentType ++
    special Plugin.contentLength environ.contentLength ++
      environ.http.map fun p => (headerName p.1, p.2)

/-- `request.full_path.rstrip("?")`. -/
def Request.fullPath (request : Request) : Str :=
  stripRight (· == '?') (request.path ++ '?' :: request.queryString)

/-- The first line of a request. -/
def Request.line (request : Request) : Str :=
  request.method ++ ' ' :: (request.fullPath ++ " HTTP/1.1".toList)

/-- `f"{name}: {value}"`. -/
def headerLine (header : Header) : Str := header.1 ++ ':' :: ' ' :: header.2

/-- The lines of a message up to its body. -/
def headText (line : Str) (headers : List Header) : Str :=
  line ++ crlf ++ headers.flatMap (fun header => headerLine header ++ crlf) ++ crlf

/-- `serialize_request`. -/
def serializeRequest (request : Request) : List UInt8 :=
  encode (headText request.line request.headers.items) ++ request.body

/-- The head and the body of a message. -/
def splitMessage (raw : List UInt8) : List UInt8 × List UInt8 :=
  match cut (crlfBytes ++ crlfBytes) raw with
  | some p => p
  | none =>
    match cut (encode ['\n', '\n']) raw with
    | some p => p
    | none => (raw, [])

/-- The lines of a head. -/
def headLines (headerData : List UInt8) : List (List UInt8) :=
  let lines := pieces crlfBytes headerData
  if lines.length = 1 ∧ encode ['\n'] <:+: lines.headD [] then pieces (encode ['\n']) headerData
  else lines

/-- `s.split(c, n)`. -/
def splitMax (c : Char) : Nat → Str → List Str
  | 0, s => [s]
  | n + 1, s =>
    match cut [c] s with
    | none => [s]
    | some (before, after) => before :: splitMax c n after

/-- The header of a line, if it holds one. -/
def readHeader (line : List UInt8) : Option Header :=
  if line = [] then none
  else
    (cut [':'] (decodeIgnore line)).map fun p => (p.1, stripBoth isSpace p.2)

/-- `headers.get(key)`. -/
def getHeader (headers : List Header) (key : Str) : Option Str :=
  (headers.find? fun p => decide (lower p.1 = lower key)).map Prod.snd

/-- `host.rsplit(":", 1)`, with the port `80` where there is none. -/
def splitHost (host : Str) : Str × Str :=
  match cut [':'] host.reverse with
  | none => (host, "80".toList)
  | some (port, name) => (name.reverse, port.reverse)

/-- The `environ` for the parts of a request. -/
def buildEnviron (method fullPath protocol : Str) (headers : List Header) (body : List UInt8) :
    Environ :=
  let target := (cut ['?'] fullPath).getD (fullPath, [])
  let host := splitHost ((getHeader headers "Host".toList).getD "localhost".toList)
  { requestMethod := method
    pathInfo := target.1
    queryString := target.2
    serverName := host.1
    serverPort := host.2
    serverProtocol := protocol
    wsgiInput := body
    urlScheme := "http".toList
    contentType := getHeader headers contentType
    contentLength :=
      match getHeader headers contentLength with
      | some value => some value
      | none => if body = [] then none else some (toString body.length).toList
    http := Assoc.ofPairs ((headers.filter fun p =>
        !(["CONTENT-TYPE".toList, "CONTENT-LENGTH".toList].contains (upper p.1))).map fun p =>
      (environKey p.1, p.2)) }

/-- The decoded first line, the other lines and the body of a message. -/
def readMessage (kind : String) (raw : List UInt8) :
    Except String (Str × List (List UInt8) × List UInt8) :=
  let message := splitMessage raw
  match headLines message.1 with
  | [] => .error s!"Empty HTTP {kind}"
  | first :: lines =>
    if first = [] then .error s!"Empty HTTP {kind}"
    else .ok (decodeIgnore first, lines, message.2)

/-- `deserialize_request`. -/
def deserializeRequest (raw : List UInt8) : Except String Environ := do
  let (requestLine, lines, body) ← readMessage "request" raw
  match splitMax ' ' 2 requestLine with
  | method :: fullPath :: rest =>
    return buildEnviron method fullPath (rest.headD "HTTP/1.1".toList) (lines.filterMap readHeader)
      body
  | _ => .error s!"Invalid request line: {String.ofList requestLine}"

/-- A response as its accessors show it. Werkzeug accepts no header value with a line break. -/
structure Response where
  status : Str
  headers : List Header
  line : ∀ p ∈ headers, ∀ c ∈ p.2, c ≠ '\r' ∧ c ≠ '\n'
  body : List UInt8

/-- `serialize_response`. -/
def serializeResponse (response : Response) : List UInt8 :=
  encode (headText ("HTTP/1.1 ".toList ++ response.status) response.headers) ++ response.body

/-- The number that digits stand for; one `_` may stand between two. -/
def pyNat (digits : Str) : Option Nat :=
  if (digits.splitOn '_').all (fun group => !group.isEmpty && group.all Char.isDigit) then
    some (Nat.ofDigitChars 10 (digits.filter (· ≠ '_')) 0)
  else none

/-- `int(s)`. -/
def pyInt (s : Str) : Option Int :=
  match stripBoth isSpace s with
  | '-' :: digits => (pyNat digits).map fun n : Nat => -(n : Int)
  | '+' :: digits => (pyNat digits).map Int.ofNat
  | digits => (pyNat digits).map Int.ofNat

/-- `headers[key] = value`: the first header of the name is replaced, the others are removed. -/
def setHeader (headers : List Header) (header : Header) : List Header :=
  match headers with
  | [] => [header]
  | p :: headers =>
    if lower p.1 = lower header.1 then
      header :: headers.filter fun q => decide (lower q.1 ≠ lower header.1)
    else p :: setHeader headers header

/-- The headers with which `Response(response=body)` begins. -/
def newHeaders (body : List UInt8) : List Header :=
  [(contentType, "text/html; charset=utf-8".toList),
    (contentLength, (toString body.length).toList)]

/-- The status line that Werkzeug makes of a code. -/
def statusOf (werkzeug : Werkzeug) (code : Int) : Str :=
  (toString code).toList ++ ' ' :: werkzeug.statusPhrase code

/-- `deserialize_response`, as the status, the headers and the body of its result. -/
def deserializeResponse (werkzeug : Werkzeug) (raw : List UInt8) :
    Except String (Str × List Header × List UInt8) := do
  let (statusLine, lines, body) ← readMessage "response" raw
  match splitMax ' ' 2 statusLine with
  | _ :: code :: _ =>
    match pyInt code with
    | none => .error "invalid literal for int() with base 10"
    | some code =>
      return (statusOf werkzeug code,
        (lines.filterMap readHeader).foldl setHeader (newHeaders body), body)
  | _ => .error s!"Invalid status line: {String.ofList statusLine}"

end PlatformSpec.Plugin
