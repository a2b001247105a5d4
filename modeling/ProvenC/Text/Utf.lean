import ProvenC.Bytes
import ProvenC.Lib.Unicode

/-!
# UTF-8 and UTF-16

The strict decoders and the conversions of `utf.c`. A decoder has a whole character, or the input
ends inside one that could still be valid, or no more input would help.
-/

namespace ProvenC.Text.Utf

open Bytes Lib.Unicode

/-- Where `proven_size_t` ends. -/
def sizeEnd : Nat := 2 ^ 64

abbrev Unit16 := Fin 65536

/-- The cast to `proven_u16`. -/
def unitOf (value : Nat) : Unit16 := unit16 value

inductive Decoded where
  | whole (cp len : Nat)
  | more
  | bad (span : Nat)
  deriving DecidableEq, Repr

/-- The loop of `utf8_decode_span`: `left` bytes are to follow, the next one from `lo` to `hi`. -/
def utf8Rest : Nat → Nat → Nat → Nat → Nat → List Byte → Decoded
  | 0, i, _, _, cp, _ => .whole cp i
  | _ + 1, _, _, _, _, [] => .more
  | left + 1, i, lo, hi, cp, b :: rest =>
    if b.val < lo ∨ hi < b.val then .bad i
    else utf8Rest left (i + 1) 0x80 0xBF ((cp <<< 6) ||| (b.val &&& 0x3F)) rest

/-- `utf8_decode_span`; it is not called with no input. -/
def utf8DecodeSpan : List Byte → Decoded
  | [] => .more
  | b0 :: rest =>
    if b0.val < 0x80 then .whole b0.val 1
    else if b0.val < 0xC2 then .bad 1
    else if b0.val < 0xE0 then utf8Rest 1 1 0x80 0xBF (b0.val &&& 0x1F) rest
    else if b0.val < 0xF0 then
      utf8Rest 2 1 (if b0.val = 0xE0 then 0xA0 else 0x80) (if b0.val = 0xED then 0x9F else 0xBF) (b0.val &&& 0x0F) rest
    else if b0.val < 0xF5 then
      utf8Rest 3 1 (if b0.val = 0xF0 then 0x90 else 0x80) (if b0.val = 0xF4 then 0x8F else 0xBF) (b0.val &&& 0x07) rest
    else .bad 1

/-- `proven_utf8_char_t`: the code point is 0 where there is none. -/
structure Utf8CharStep where
  err : Option ProvenErr
  cp : Nat
  len : Nat
  deriving DecidableEq, Repr

def utf8DecodeNext (s : List Byte) (pos : Nat) : Utf8CharStep :=
  if s.length < pos then { err := some .outOfBounds, cp := 0, len := 0 }
  else if pos = s.length then { err := some .eof, cp := 0, len := 0 }
  else
    match utf8DecodeSpan (s.drop pos) with
    | .whole cp len => { err := none, cp := cp, len := len }
    | .more => { err := some .needMore, cp := 0, len := s.length - pos }
    | .bad span => { err := some .invalidEncoding, cp := 0, len := span }

/-- The loop of `proven_utf8_validate`, from `pos` on; each round takes a byte at least. -/
def validateFrom (s : List Byte) : Nat → Nat → Except Nat Unit
  | 0, _ => .ok ()
  | left + 1, pos =>
    if pos < s.length then
      let c := utf8DecodeNext s pos
      if c.err.isSome then .error pos else validateFrom s left (pos + c.len)
    else .ok ()

/-- `proven_utf8_validate`: an error is INVALID_ENCODING, with where it is. -/
def utf8Validate (s : List Byte) : Except Nat Unit := validateFrom s s.length 0

/-- `utf16_decode`; it is not called with no input. -/
def utf16Decode : List Unit16 → Decoded
  | [] => .more
  | u :: rest =>
    if u.val < 0xD800 ∨ 0xDFFF < u.val then .whole u.val 1
    else if 0xDC00 ≤ u.val then .bad 1
    else
      match rest with
      | [] => .more
      | v :: _ =>
        if v.val < 0xDC00 ∨ 0xDFFF < v.val then .bad 1
        else .whole (0x10000 + ((u.val - 0xD800) <<< 10) + (v.val - 0xDC00)) 2

def utf8Width (cp : Nat) : Nat := if cp < 0x80 then 1 else if cp < 0x800 then 2 else if cp < 0x10000 then 3 else 4

def utf8Put (cp : Nat) : Nat → List Byte
  | 1 => [byteOf cp]
  | 2 => [byteOf (0xC0 ||| (cp >>> 6)), byteOf (0x80 ||| (cp &&& 0x3F))]
  | 3 =>
    [byteOf (0xE0 ||| (cp >>> 12)), byteOf (0x80 ||| ((cp >>> 6) &&& 0x3F)), byteOf (0x80 ||| (cp &&& 0x3F))]
  | _ =>
    [byteOf (0xF0 ||| (cp >>> 18)), byteOf (0x80 ||| ((cp >>> 12) &&& 0x3F)),
      byteOf (0x80 ||| ((cp >>> 6) &&& 0x3F)), byteOf (0x80 ||| (cp &&& 0x3F))]

/-- `proven_utf8_encode_one`: nothing for what is not a character. -/
def utf8EncodeOne (cp : Nat) : List Byte :=
  if cp < 0x80 then utf8Put cp 1
  else if cp < 0x800 then utf8Put cp 2
  else if 0xD800 ≤ cp ∧ cp ≤ 0xDFFF then []
  else if cp < 0x10000 then utf8Put cp 3
  else if 0x10FFFF < cp then []
  else utf8Put cp 4

/-- The units `proven_utf8_to_utf16_partial` writes for a character. -/
def utf16Put (cp : Nat) : List Unit16 :=
  if 0x10000 ≤ cp then
    [unitOf (0xD800 + ((cp - 0x10000) >>> 10)), unitOf (0xDC00 + ((cp - 0x10000) &&& 0x3FF))]
  else [unitOf cp]

/-- `proven_utf_step_t`, with the buffer written to. -/
structure UtfStep (α : Type) where
  err : Option ProvenErr
  consumed : Nat
  written : Nat
  out : List α
  deriving DecidableEq, Repr

/-- A buffer after `items` are written to it from `place` on. -/
def putAt {α : Type} (out : List α) (place : Nat) (items : List α) : List α :=
  out.take place ++ items ++ out.drop (place + items.length)

/-- The loop both partial conversions are: a character is decoded, and written where there is room
for all of it. -/
def convertLoop {α β : Type} (decode : List α → Decoded) (put : Nat → List β) (src : List α) : Nat → UtfStep β → UtfStep β
  | 0, st => st
  | left + 1, st =>
    if st.consumed < src.length then
      match decode (src.drop st.consumed) with
      | .bad _ => { st with err := some .invalidEncoding }
      | .more => { st with err := some .needMore }
      | .whole cp len =>
        if st.out.length - st.written < (put cp).length then { st with err := some .outOfBounds }
        else
          convertLoop decode put src left
            { err := st.err, consumed := st.consumed + len, written := st.written + (put cp).length
              out := putAt st.out st.written (put cp) }
    else st

def utf8ToUtf16Partial (src : List Byte) (out : List Unit16) : UtfStep Unit16 :=
  convertLoop utf8DecodeSpan utf16Put src src.length { err := none, consumed := 0, written := 0, out := out }

def utf16ToUtf8Partial (src : List Unit16) (out : List Byte) : UtfStep Byte :=
  convertLoop utf16Decode (fun cp => utf8Put cp (utf8Width cp)) src src.length
    { err := none, consumed := 0, written := 0, out := out }

/-- The loop of `proven_utf8_to_utf16_size`. -/
def utf16SizeLoop (src : List Byte) : Nat → Nat → Nat → Except ProvenErr Nat
  | 0, _, value => .ok value
  | left + 1, i, value =>
    if i < src.length then
      match utf8DecodeSpan (src.drop i) with
      | .whole cp len => utf16SizeLoop src left (i + len) (value + if 0x10000 ≤ cp then 2 else 1)
      | _ => .error .invalidEncoding
    else .ok value

def utf8ToUtf16Size (src : List Byte) : Except ProvenErr Nat := utf16SizeLoop src src.length 0 0

/-- The loop of `proven_utf16_to_utf8_size`. -/
def utf8SizeLoop (src : List Unit16) : Nat → Nat → Nat → Except ProvenErr Nat
  | 0, _, value => .ok value
  | left + 1, i, value =>
    if i < src.length then
      match utf16Decode (src.drop i) with
      | .whole cp len =>
        if sizeEnd ≤ value + utf8Width cp then .error .overflow
        else utf8SizeLoop src left (i + len) (value + utf8Width cp)
      | _ => .error .invalidEncoding
    else .ok value

def utf16ToUtf8Size (src : List Unit16) : Except ProvenErr Nat := utf8SizeLoop src src.length 0 0

/-- What a conversion of a whole text answers: an error or none, `*written`, and the buffer. -/
structure Converted (α : Type) where
  err : Option ProvenErr
  written : Nat
  out : List α
  deriving DecidableEq, Repr

def utf8ToUtf16 (src : List Byte) (out : List Unit16) : Converted Unit16 :=
  match utf8ToUtf16Size src with
  | .error err => { err := some err, written := 0, out := out }
  | .ok need =>
    if out.length < need then { err := some .outOfBounds, written := 0, out := out }
    else
      let st := utf8ToUtf16Partial src out
      if st.err.isSome then { err := st.err, written := 0, out := st.out }
      else { err := none, written := st.written, out := st.out }

def utf16ToUtf8 (src : List Unit16) (out : List Byte) : Converted Byte :=
  match utf16ToUtf8Size src with
  | .error err => { err := some err, written := 0, out := out }
  | .ok need =>
    if out.length < need then { err := some .outOfBounds, written := 0, out := out }
    else
      let st := utf16ToUtf8Partial src out
      if st.err.isSome then { err := st.err, written := 0, out := st.out }
      else { err := none, written := st.written, out := st.out }

end ProvenC.Text.Utf
