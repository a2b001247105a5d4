import ProvenC.Http.Head
import ProvenC.Lib.Streaming

/-!
# HTTP/1 bodies

The body decoder. A payload is the bytes a call hands back of its input; the trailer section, where
it is kept, is in a buffer of the caller.
-/

namespace ProvenC.Http.Body

open Bytes Http.Head Lib.Streaming

inductive BodyKind where
  | none
  | length
  | chunked
  | untilClose
  deriving DecidableEq, Repr

structure HttpFraming where
  kind : BodyKind
  length : Nat
  deriving DecidableEq, Repr

inductive BodyState where
  | data
  | size
  | ext
  | sizeLf
  | dataCr
  | dataLf
  | trailerStart
  | trailerName
  | trailerValue
  | trailerLf
  | finalLf
  | failed
  deriving DecidableEq, Repr

/-- `body->state >= HTTP_B_TRAILER_START && body->state <= HTTP_B_FINAL_LF` -/
def BodyState.inTrailers : BodyState → Bool
  | .trailerStart | .trailerName | .trailerValue | .trailerLf | .finalLf => true
  | _ => false

structure HttpBody where
  kind : BodyKind
  state : BodyState
  sizeDigits : Nat
  done : Bool
  remaining : Nat
  total : Nat
  maxBody : Nat
  lineBytes : Nat
  trailerCap : Nat
  trailers : Option (List Byte)

def httpMaxChunkLine : Nat := 256

def httpMaxTrailerBytes : Nat := 8192

/-- Where a `proven_u64` ends. -/
def u64End : Nat := 2 ^ 64

/-- `*body = (proven_http_body_t){0}`, with the limit. -/
def freshBody (maxBody : Nat) : HttpBody :=
  { kind := .none, state := .data, sizeDigits := 0, done := false, remaining := 0, total := 0, maxBody := maxBody
    lineBytes := 0, trailerCap := 0, trailers := none }

def httpBodyInit (framing : HttpFraming) (maxBodyBytes : Nat) : Except ProvenErr HttpBody :=
  match framing.kind with
  | .none => .ok { freshBody maxBodyBytes with done := true }
  | .length =>
    if maxBodyBytes < framing.length then .error .outOfBounds
    else .ok { freshBody maxBodyBytes with kind := .length, remaining := framing.length, done := framing.length = 0 }
  | .chunked => .ok { freshBody maxBodyBytes with kind := .chunked, state := .size }
  | .untilClose => .ok { freshBody maxBodyBytes with kind := .untilClose }

/-- `proven_http_body_keep_trailers`: the section is kept in `buf`. -/
def httpBodyKeepTrailers (body : HttpBody) (buf : List Byte) : Except ProvenErr HttpBody :=
  if buf = [] then .error .invalidArg
  else
    .ok { body with
      trailers := some buf
      trailerCap := if buf.length < httpMaxTrailerBytes then buf.length else httpMaxTrailerBytes }

def httpHex (c : Byte) : Option Nat :=
  if '0'.toNat ≤ c.val ∧ c.val ≤ '9'.toNat then some (c.val - '0'.toNat)
  else if 'a'.toNat ≤ c.val ∧ c.val ≤ 'f'.toNat then some (c.val - 'a'.toNat + 10)
  else if 'A'.toNat ≤ c.val ∧ c.val ≤ 'F'.toNat then some (c.val - 'A'.toNat + 10)
  else none

def semicolon : Byte := byteOf ';'.toNat

inductive Turned where
  /-- `break`: the byte is counted. -/
  | count (body : HttpBody)
  /-- `continue` -/
  | on (body : HttpBody)
  | ended (body : HttpBody)
  | failed (body : HttpBody) (err : ProvenErr)

def bodySwitch (body : HttpBody) (c : Byte) : Turned :=
  match body.state with
  | .size =>
    match httpHex c with
    | some d =>
      if 16 ≤ body.sizeDigits then .failed body .invalidFormat
      else
        .count { body with
          remaining := ((body.remaining <<< 4) ||| d) % u64End
          sizeDigits := body.sizeDigits + 1 }
    | none =>
      if body.sizeDigits = 0 then .failed body .invalidFormat
      else if c = semicolon then .count { body with state := .ext }
      else if c = carriageReturn then .count { body with state := .sizeLf }
      else .failed body .invalidFormat
  | .ext =>
    if c = carriageReturn then .count { body with state := .sizeLf }
    else if httpIsFieldByte c = false then .failed body .invalidFormat
    else .count body
  | .sizeLf =>
    if c ≠ lineFeed then .failed body .invalidFormat
    else if body.remaining = 0 then .on { body with state := .trailerStart, lineBytes := 0 }
    else if body.maxBody - body.total < body.remaining then .failed body .outOfBounds
    else .on { body with state := .data, lineBytes := 0 }
  | .dataCr => if c ≠ carriageReturn then .failed body .invalidFormat else .count { body with state := .dataLf }
  | .dataLf =>
    if c ≠ lineFeed then .failed body .invalidFormat
    else .on { body with state := .size, sizeDigits := 0, remaining := 0, lineBytes := 0 }
  | .trailerStart =>
    if c = carriageReturn then .count { body with state := .finalLf }
    else if httpIsTchar c then .count { body with state := .trailerName }
    else .failed body .invalidFormat
  | .trailerName =>
    if c = colon then .count { body with state := .trailerValue }
    else if httpIsTchar c = false then .failed body .invalidFormat
    else .count body
  | .trailerValue =>
    if c = carriageReturn then .count { body with state := .trailerLf }
    else if httpIsFieldByte c = false then .failed body .invalidFormat
    else .count body
  | .trailerLf =>
    if c ≠ lineFeed then .failed body .invalidFormat else .count { body with state := .trailerStart }
  | .finalLf => if c ≠ lineFeed then .failed body .invalidFormat else .ended { body with done := true }
  | .data | .failed => .failed body .invalidState

def keepByte (body : HttpBody) (c : Byte) : Option HttpBody :=
  match body.trailers with
  | none => some body
  | some buf =>
    if body.state.inTrailers then
      if body.trailerCap ≤ body.lineBytes then none
      else some { body with trailers := some (buf.set body.lineBytes c) }
    else some body

def countByte (body : HttpBody) : Turned :=
  let body := { body with lineBytes := body.lineBytes + 1 }
  if (if body.state.inTrailers then httpMaxTrailerBytes else httpMaxChunkLine) < body.lineBytes then
    .failed body .outOfBounds
  else .on body

def bodyTurn (body : HttpBody) (c : Byte) : Turned :=
  match keepByte body c with
  | none => .failed body .outOfBounds
  | some body =>
    match bodySwitch body c with
    | .count body => countByte body
    | turned => turned

def httpBodyFail (body : HttpBody) (err : ProvenErr) : Ran HttpBody Byte ProvenErr :=
  { err := some err, ended := false, state := { body with state := .failed }, items := [], used := 0 }

/-- The loop of `proven_http_body_feed`, `i` bytes into the input. -/
def bodyLoop (body : HttpBody) (i : Nat) : List Byte → Ran HttpBody Byte ProvenErr
  | [] => { err := none, ended := false, state := body, items := [], used := i }
  | c :: rest =>
    if body.state = .data then
      let take := if body.remaining < (c :: rest).length then body.remaining else (c :: rest).length
      let taken := { body with remaining := body.remaining - take, total := body.total + take }
      let payload := (c :: rest).take take
      if taken.remaining = 0 then
        if taken.kind = .length then
          { err := none, ended := true, state := { taken with done := true }, items := payload, used := i + take }
        else { err := none, ended := false, state := { taken with state := .dataCr }, items := payload, used := i + take }
      else { err := none, ended := false, state := taken, items := payload, used := i + take }
    else
      match bodyTurn body c with
      | .failed body err => httpBodyFail body err
      | .ended body => { err := none, ended := true, state := body, items := [], used := i + 1 }
      | .on body | .count body => bodyLoop body (i + 1) rest

/-- `proven_http_body_feed`: the error, `*done`, the body, the payload and `*consumed`. -/
def httpBodyFeed (body : HttpBody) (input : List Byte) : Ran HttpBody Byte ProvenErr :=
  if body.state = .failed then { err := some .invalidState, ended := false, state := body, items := [], used := 0 }
  else if body.done then { err := none, ended := true, state := body, items := [], used := 0 }
  else if body.kind = .untilClose then
    if body.maxBody - body.total < input.length then httpBodyFail body .outOfBounds
    else
      { err := none, ended := false, state := { body with total := body.total + input.length }, items := input
        used := input.length }
  else bodyLoop body 0 input

end ProvenC.Http.Body
