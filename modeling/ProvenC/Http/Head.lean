import ProvenC.Bytes
import ProvenC.Lib.Scanning

/-!
# HTTP/1 heads

The request and the response head parser.
-/

namespace ProvenC.Http.Head

open Bytes Lib.Scanning

abbrev Reading (Value : Type) := Scanner Byte ProvenErr Value

def httpIsTchar (c : Byte) : Bool :=
  (48 ≤ c.val && c.val ≤ 57) || (97 ≤ c.val && c.val ≤ 122) || (65 ≤ c.val && c.val ≤ 90) ||
    (ascii "!#$%&'*+-.^_\x60|~").contains c

def httpIsFieldByte (c : Byte) : Bool := c.val = 9 || (32 ≤ c.val && c.val ≠ 127)

def httpIsOws (c : Byte) : Bool := c.val = 32 || c.val = 9

def httpIsToken (s : List Byte) : Bool := !s.isEmpty && s.all httpIsTchar

def httpIsTargetByte (c : Byte) : Bool := 32 < c.val && c.val < 127

def isDigit (c : Byte) : Bool := 48 ≤ c.val && c.val ≤ 57

def carriageReturn : Byte := 13

def lineFeed : Byte := 10

def space : Byte := 32

def colon : Byte := 58

def dot : Byte := 46

def crlf : List Byte := [carriageReturn, lineFeed]

def httpExpect : List Byte → Reading Unit
  | [] => pure ()
  | byte :: lit => do
      let c ← next
      if c ≠ byte then fail .invalidFormat else httpExpect lit

def httpVersion : Reading Nat := do
  httpExpect (ascii "HTTP/")
  let major ← next
  if isDigit major = false then fail .invalidFormat
  else do
    let point ← next
    if point ≠ dot then fail .invalidFormat
    else do
      let minor ← next
      if isDigit minor = false then fail .invalidFormat
      else if major.val ≠ 49 ∨ (minor.val ≠ 48 ∧ minor.val ≠ 49) then fail .unsupported
      else pure (minor.val - 48)

structure HttpHeader where
  name : List Byte
  value : List Byte
  deriving DecidableEq, Repr

def trimEnd (value : List Byte) : List Byte := value.rdropWhile httpIsOws

def endLine {Value : Type} (value : Value) : Reading Value := do
  let c ← next
  if c ≠ lineFeed then fail .invalidFormat else pure value

def httpField : Reading (Option HttpHeader) := do
  let first ← peek
  if first = carriageReturn then do
    let _ ← next
    endLine none
  else do
    let name ← span httpIsTchar
    let stop ← next
    if stop ≠ colon ∨ name = [] then fail .invalidFormat
    else do
      let _ ← span httpIsOws
      let value ← span httpIsFieldByte
      let last ← next
      if last ≠ carriageReturn then fail .invalidFormat
      else endLine (some ⟨name, trimEnd value⟩)

def toLower (c : Byte) : Byte := if 65 ≤ c.val && c.val ≤ 90 then byteOf (c.val + 32) else c

def eqAsciiCi (a b : List Byte) : Bool := a.map toLower == b.map toLower

def notTrailers : List (List Byte) :=
  [ ascii "Content-Length", ascii "Transfer-Encoding", ascii "Trailer", ascii "Host",
    ascii "Connection", ascii "Keep-Alive", ascii "TE", ascii "Upgrade", ascii "Expect",
    ascii "Max-Forwards", ascii "Cache-Control", ascii "Pragma", ascii "Range",
    ascii "Authorization", ascii "Proxy-Authorization", ascii "WWW-Authenticate", ascii "Proxy-Authenticate",
    ascii "Cookie", ascii "Set-Cookie", ascii "Age", ascii "Date", ascii "Expires",
    ascii "Location", ascii "Retry-After", ascii "Vary", ascii "Content-Encoding",
    ascii "Content-Type", ascii "Content-Range" ]

def httpTrailerAllowed (name : List Byte) : Bool :=
  match name with
  | [] => false
  | first :: _ => first != colon && !notTrailers.any (eqAsciiCi name)

theorem steady_expect (lit : List Byte) : Steady (httpExpect lit) := by
  induction lit with
  | nil => exact steady_pure ()
  | cons byte lit ih =>
    apply steady_bind steady_next
    intro c
    exact steady_ite (steady_fail _) ih

theorem steady_version : Steady httpVersion := by
  apply steady_bind (steady_expect _)
  intro _
  apply steady_bind steady_next
  intro major
  apply steady_ite (steady_fail _)
  apply steady_bind steady_next
  intro point
  apply steady_ite (steady_fail _)
  apply steady_bind steady_next
  intro minor
  apply steady_ite (steady_fail _)
  exact steady_ite (steady_fail _) (steady_pure _)

theorem steady_end_line {Value : Type} (value : Value) : Steady (endLine value) := by
  apply steady_bind steady_next
  intro c
  exact steady_ite (steady_fail _) (steady_pure _)

theorem steady_field : Steady httpField := by
  apply steady_bind steady_peek
  intro first
  apply steady_ite
  · apply steady_bind steady_next
    intro _
    exact steady_end_line none
  apply steady_bind (steady_span _)
  intro name
  apply steady_bind steady_next
  intro stop
  apply steady_ite (steady_fail _)
  apply steady_bind (steady_span _)
  intro _
  apply steady_bind (steady_span _)
  intro value
  apply steady_bind steady_next
  intro last
  exact steady_ite (steady_fail _) (steady_end_line _)

theorem field_consumes : Consumes httpField := by
  apply consumes_bind steady_peek
  intro first
  apply consumes_ite
  · apply consumes_next_bind
    intro _
    exact steady_end_line none
  apply consumes_bind (steady_span _)
  intro name
  apply consumes_next_bind
  intro stop
  apply steady_ite (steady_fail _)
  apply steady_bind (steady_span _)
  intro _
  apply steady_bind (steady_span _)
  intro value
  apply steady_bind steady_next
  intro last
  exact steady_ite (steady_fail _) (steady_end_line _)

/-- The fields up to and including the empty line, after those in `headers`. -/
def httpFieldsOf (trailers : Bool) (cap : Nat) (headers : List HttpHeader) (input : List Byte) :
    Scan Byte ProvenErr (List HttpHeader) :=
  match _ : httpField input with
  | .short => .short
  | .bad fault => .bad fault
  | .got none rest => .got headers rest
  | .got (some field) rest =>
    if trailers && !httpTrailerAllowed field.name then httpFieldsOf trailers cap headers rest
    else if cap ≤ headers.length then .bad .outOfBounds
    else httpFieldsOf trailers cap (headers ++ [field]) rest
termination_by input.length
decreasing_by all_goals exact field_consumes input (some field) rest (by assumption)

def httpFields (cap : Nat) : Reading (List HttpHeader) := httpFieldsOf false cap []

inductive HttpMethod where
  | other
  | get
  | head
  | post
  | put
  | delete
  | connect
  | options
  | trace
  | patch
  deriving DecidableEq, Repr

def httpMethods : List (HttpMethod × List Byte) :=
  [ (.get, ascii "GET"), (.head, ascii "HEAD"), (.post, ascii "POST"),
    (.put, ascii "PUT"), (.delete, ascii "DELETE"), (.connect, ascii "CONNECT"),
    (.options, ascii "OPTIONS"), (.trace, ascii "TRACE"), (.patch, ascii "PATCH") ]

def httpMethodFromText (text : List Byte) : HttpMethod :=
  match httpMethods.find? fun entry => text == entry.2 with
  | some entry => entry.1
  | none => .other

structure HttpRequest where
  method : HttpMethod
  methodText : List Byte
  target : List Byte
  versionMinor : Nat
  headers : List HttpHeader
  deriving DecidableEq, Repr

structure HttpResponse where
  status : Nat
  reason : List Byte
  versionMinor : Nat
  headers : List HttpHeader
  deriving DecidableEq, Repr

def skipEmptyLines : Reading Unit
  | [] => .short
  | first :: rest =>
    if first ≠ carriageReturn then .got () (first :: rest)
    else
      match rest with
      | [] => .short
      | second :: others => if second ≠ lineFeed then .bad .invalidFormat else skipEmptyLines others

def requestHead (headerCap : Nat) : Reading HttpRequest := do
  skipEmptyLines
  let method ← span httpIsTchar
  let stop ← next
  if stop ≠ space ∨ method = [] then fail .invalidFormat
  else do
    let target ← span httpIsTargetByte
    let stop ← next
    if stop ≠ space ∨ target = [] then fail .invalidFormat
    else do
      let minor ← httpVersion
      httpExpect crlf
      let headers ← httpFields headerCap
      pure ⟨httpMethodFromText method, method, target, minor, headers⟩

/-- `left` more digits of a number that is `status` so far. -/
def statusDigits : Nat → Nat → Reading Nat
  | 0, status => pure status
  | left + 1, status => do
      let d ← next
      if isDigit d = false then fail .invalidFormat else statusDigits left (status * 10 + (d.val - 48))

def reasonPhrase : Reading (List Byte) := do
  let first ← peek
  if first = space then do
    let _ ← next
    span httpIsFieldByte
  else pure []

def responseHead (headerCap : Nat) : Reading HttpResponse := do
  let minor ← httpVersion
  httpExpect [space]
  let status ← statusDigits 3 0
  if status < 100 then fail .invalidFormat
  else do
    let reason ← reasonPhrase
    httpExpect crlf
    let headers ← httpFields headerCap
    pure ⟨status, reason, minor, headers⟩

def httpDefaultMaxHead : Nat := 16384

/-- `http_cur`: how many bytes a head may have. -/
def headLimit (maxHeadBytes : Nat) : Nat := if maxHeadBytes = 0 then httpDefaultMaxHead else maxHeadBytes

def parseHead {Head : Type} (head : Reading Head) (data : List Byte) (maxHeadBytes : Nat) :
    Except ProvenErr (Head × Nat) :=
  match head (data.take (headLimit maxHeadBytes)) with
  | .short => .error (if headLimit maxHeadBytes ≤ data.length then .outOfBounds else .needMore)
  | .bad fault => .error fault
  | .got value rest => .ok (value, (data.take (headLimit maxHeadBytes)).length - rest.length)

def httpParseRequest (data : List Byte) (headerCap maxHeadBytes : Nat) : Except ProvenErr (HttpRequest × Nat) :=
  parseHead (requestHead headerCap) data maxHeadBytes

def httpParseResponse (data : List Byte) (headerCap maxHeadBytes : Nat) : Except ProvenErr (HttpResponse × Nat) :=
  parseHead (responseHead headerCap) data maxHeadBytes

end ProvenC.Http.Head
