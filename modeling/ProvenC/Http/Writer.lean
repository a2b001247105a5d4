import ProvenC.Http.Head

/-!
# Writing HTTP/1 heads

Each writer appends to a buffer of which `text` is in use. What does not fit is an error, and
nothing is appended then.
-/

namespace ProvenC.Http.Writer

open Bytes Http.Head

structure HttpW where
  size : Nat
  text : List Byte
  full : Bool

def httpPut (w : HttpW) (s : List Byte) : HttpW :=
  if w.full = true ∨ w.size - w.text.length < s.length then { w with full := true } else { w with text := w.text ++ s }

def httpDigits : List Byte := ascii "0123456789abcdef"

/-- The digits of `v`, the lowest first, in a buffer of `room` bytes. -/
def digitsUp (base : Nat) : Nat → Nat → List Byte
  | 0, _ => []
  | room + 1, v => httpDigits.getD (v % base) 0 :: if v / base = 0 then [] else digitsUp base room (v / base)

/-- What `http_put_u64` puts. -/
def u64Text (v base : Nat) : List Byte := (digitsUp base 20 v).reverse

def httpPutU64 (w : HttpW) (v base : Nat) : HttpW := httpPut w (u64Text v base)

def httpWBegin (size : Nat) (text : List Byte) : Option HttpW :=
  if size < text.length then none else some ⟨size, text, false⟩

def httpWEnd (w : HttpW) : Except ProvenErr (List Byte) := if w.full then .error .outOfBounds else .ok w.text

def httpWriteRequestLine (size : Nat) (text method target : List Byte) : Except ProvenErr (List Byte) :=
  match httpWBegin size text with
  | none => .error .invalidArg
  | some w =>
    if httpIsToken method = false ∨ target = [] then .error .invalidArg
    else if target.all httpIsTargetByte = false then .error .invalidArg
    else httpWEnd (httpPut (httpPut (httpPut (httpPut w method) (ascii " ")) target) (ascii " HTTP/1.1\r\n"))

def reasonPhrases : List (Nat × List Byte) :=
  [ (100, ascii "Continue"), (101, ascii "Switching Protocols"),
    (200, ascii "OK"), (201, ascii "Created"), (202, ascii "Accepted"), (203, ascii "Non-Authoritative Information"),
    (204, ascii "No Content"), (205, ascii "Reset Content"), (206, ascii "Partial Content"),
    (300, ascii "Multiple Choices"), (301, ascii "Moved Permanently"), (302, ascii "Found"), (303, ascii "See Other"),
    (304, ascii "Not Modified"), (307, ascii "Temporary Redirect"), (308, ascii "Permanent Redirect"),
    (400, ascii "Bad Request"), (401, ascii "Unauthorized"), (403, ascii "Forbidden"), (404, ascii "Not Found"),
    (405, ascii "Method Not Allowed"), (406, ascii "Not Acceptable"), (407, ascii "Proxy Authentication Required"),
    (408, ascii "Request Timeout"), (409, ascii "Conflict"), (410, ascii "Gone"), (411, ascii "Length Required"),
    (412, ascii "Precondition Failed"), (413, ascii "Content Too Large"), (414, ascii "URI Too Long"),
    (415, ascii "Unsupported Media Type"), (416, ascii "Range Not Satisfiable"), (417, ascii "Expectation Failed"),
    (421, ascii "Misdirected Request"), (422, ascii "Unprocessable Content"), (426, ascii "Upgrade Required"),
    (428, ascii "Precondition Required"), (429, ascii "Too Many Requests"),
    (431, ascii "Request Header Fields Too Large"),
    (500, ascii "Internal Server Error"), (501, ascii "Not Implemented"), (502, ascii "Bad Gateway"),
    (503, ascii "Service Unavailable"), (504, ascii "Gateway Timeout"), (505, ascii "HTTP Version Not Supported") ]

def httpReasonPhrase (status : Nat) : List Byte :=
  match reasonPhrases.find? fun entry => entry.1 == status with
  | some entry => entry.2
  | none => ascii "Unknown"

def reasonWritten (status : Nat) (reason : List Byte) : List Byte :=
  if reason.length > 0 then reason else httpReasonPhrase status

def httpWriteStatusLine (size : Nat) (text : List Byte) (status : Nat) (reason : List Byte) :
    Except ProvenErr (List Byte) :=
  match httpWBegin size text with
  | none => .error .invalidArg
  | some w =>
    if status < 100 ∨ 999 < status then .error .invalidArg
    else if reason.all httpIsFieldByte = false then .error .invalidArg
    else
      httpWEnd (httpPut (httpPut (httpPut (httpPutU64 (httpPut w (ascii "HTTP/1.1 ")) status 10) (ascii " "))
        (reasonWritten status reason)) (ascii "\r\n"))

def owsOutside (value : List Byte) : Bool := value.head?.any httpIsOws || value.getLast?.any httpIsOws

def httpWriteHeader (size : Nat) (text name value : List Byte) : Except ProvenErr (List Byte) :=
  match httpWBegin size text with
  | none => .error .invalidArg
  | some w =>
    if httpIsToken name = false then .error .invalidArg
    else if value.all httpIsFieldByte = false then .error .invalidArg
    else if owsOutside value then .error .invalidArg
    else httpWEnd (httpPut (httpPut (httpPut (httpPut w name) (ascii ": ")) value) (ascii "\r\n"))

def httpWriteHeaderU64 (size : Nat) (text name : List Byte) (value : Nat) : Except ProvenErr (List Byte) :=
  match httpWBegin size text with
  | none => .error .invalidArg
  | some w =>
    if httpIsToken name = false then .error .invalidArg
    else httpWEnd (httpPut (httpPutU64 (httpPut (httpPut w name) (ascii ": ")) value 10) (ascii "\r\n"))

def httpWriteHeadEnd (size : Nat) (text : List Byte) : Except ProvenErr (List Byte) :=
  match httpWBegin size text with
  | none => .error .invalidArg
  | some w => httpWEnd (httpPut w (ascii "\r\n"))

def httpWriteChunkBegin (size : Nat) (text : List Byte) (chunk : Nat) : Except ProvenErr (List Byte) :=
  match httpWBegin size text with
  | none => .error .invalidArg
  | some w =>
    if chunk = 0 then .error .invalidArg else httpWEnd (httpPut (httpPutU64 w chunk 16) (ascii "\r\n"))

def httpWriteChunkEnd (size : Nat) (text : List Byte) : Except ProvenErr (List Byte) := httpWriteHeadEnd size text

def httpWriteLastChunk (size : Nat) (text : List Byte) : Except ProvenErr (List Byte) :=
  match httpWBegin size text with
  | none => .error .invalidArg
  | some w => httpWEnd (httpPut w (ascii "0\r\n\r\n"))

def writeChunk (size : Nat) (text piece : List Byte) : Except ProvenErr (List Byte) :=
  match httpWriteChunkBegin size text piece.length with
  | .error err => .error err
  | .ok begun =>
    if size < (begun ++ piece).length then .error .outOfBounds else httpWriteChunkEnd size (begun ++ piece)

def writeChunks (size : Nat) (text : List Byte) : List (List Byte) → Except ProvenErr (List Byte)
  | [] => httpWriteLastChunk size text
  | piece :: pieces =>
    match writeChunk size text piece with
    | .error err => .error err
    | .ok written => writeChunks size written pieces

inductive HeaderCall where
  | text (name value : List Byte)
  | number (name : List Byte) (value : Nat)

def HeaderCall.field : HeaderCall → HttpHeader
  | .text name value => ⟨name, value⟩
  | .number name value => ⟨name, u64Text value 10⟩

def writeField (size : Nat) (text : List Byte) : HeaderCall → Except ProvenErr (List Byte)
  | .text name value => httpWriteHeader size text name value
  | .number name value => httpWriteHeaderU64 size text name value

def writeFields (size : Nat) (text : List Byte) : List HeaderCall → Except ProvenErr (List Byte)
  | [] => httpWriteHeadEnd size text
  | call :: calls => do
      let text ← writeField size text call
      writeFields size text calls

def writeRequest (size : Nat) (text method target : List Byte) (calls : List HeaderCall) :
    Except ProvenErr (List Byte) := do
  let text ← httpWriteRequestLine size text method target
  writeFields size text calls

def writeResponse (size : Nat) (text : List Byte) (status : Nat) (reason : List Byte) (calls : List HeaderCall) :
    Except ProvenErr (List Byte) := do
  let text ← httpWriteStatusLine size text status reason
  writeFields size text calls

end ProvenC.Http.Writer
