import ProvenC.Stream.Reader
import ProvenC.Text.Cuts

/-!
# UTF-16 text streams

`proven_writer_write_u16` and the reader that gives text in one of three encodings back as UTF-16, by
lines or by units, over any inner reader.
-/

namespace ProvenC.Stream.Wide

open Bytes Lib.Cells Text.Utf Text.Streams Text.Cuts
open Stream.Reader (Read Inner)

def bomBytes (enc : TextEncoding) : List Byte :=
  match enc with
  | .utf8 => [0xEF, 0xBB, 0xBF]
  | .utf16le => [0xFF, 0xFE]
  | .utf16be => [0xFE, 0xFF]
  | .auto => []

section Writing

variable {Sink : Type} (write : Sink → List Byte → Option ProvenErr × Sink)

def writeBom (sink : Sink) (enc : TextEncoding) : Option ProvenErr × Sink :=
  if enc = .auto then (some .invalidArg, sink) else write sink (bomBytes enc)

def sizeofChunk : Nat := 256

def nextChunk (enc : TextEncoding) (text : List Unit16) : Except ProvenErr (List Byte × Nat) :=
  if enc = .utf8 then
    let st := utf16ToUtf8Partial text (List.replicate sizeofChunk 0)
    match st.err with
    | none => .ok (st.out.take st.written, st.consumed)
    | some .outOfBounds => .ok (st.out.take st.written, st.consumed)
    | some e => .error e
  else
    let units := text.take (sizeofChunk / 2)
    .ok (units.flatMap (bytesOfUnit enc), units.length)

/-- The loop of `proven_writer_write_u16`: every round takes a unit at least. -/
def writeLoop (enc : TextEncoding) : Nat → Sink → List Unit16 → Option ProvenErr × Sink
  | _, sink, [] => (none, sink)
  | 0, sink, _ :: _ => (some .invalidState, sink)
  | rounds + 1, sink, first :: more =>
    match nextChunk enc (first :: more) with
    | .error e => (some e, sink)
    | .ok (bytes, taken) =>
      match write sink bytes with
      | (some e, sink) => (some e, sink)
      | (none, sink) => writeLoop enc rounds sink ((first :: more).drop taken)

/-- `proven_writer_write_u16`: the whole text is validated first. -/
def writeU16 (sink : Sink) (text : List Unit16) (enc : TextEncoding) : Option ProvenErr × Sink :=
  if enc = .auto then (some .invalidArg, sink)
  else
    match utf16ToUtf8Size text with
    | .error e => (some e, sink)
    | .ok _ => writeLoop write enc text.length sink text

end Writing

def sizeofRaw : Nat := 1024

/-- `proven_u16_reader_t`; `peek` is the units looked ahead at. -/
structure U16Reader where
  enc : TextEncoding
  buf : Nat → Unit16
  cap : Nat
  len : Nat
  cursor : Nat
  raw : Nat → Byte
  rawPos : Nat
  rawLen : Nat
  peek : List Unit16
  bomChecked : Bool
  eof : Bool
  err : Option ProvenErr

/-- `proven_result_size_t` with the units, and `proven_result_u16str_view_t` with what the view shows. -/
structure Outcome where
  err : Option ProvenErr
  val : List Unit16
  deriving DecidableEq, Repr

def staged (s : U16Reader) : List Byte := range s.raw s.rawPos (s.rawLen - s.rawPos)

def held (s : U16Reader) : List Unit16 := range s.buf s.cursor (s.len - s.cursor)

variable {Behind : Type} (inner : Inner Behind)

def compactRaw (s : U16Reader) : U16Reader :=
  if s.rawPos > 0 then
    let keep := s.rawLen - s.rawPos
    { s with raw := if keep > 0 then moved s.raw 0 s.rawPos keep else s.raw, rawLen := keep, rawPos := 0 }
  else s

/-- `u16r_read_raw`: false when the source is exhausted or broke. -/
def u16rReadRaw (s : U16Reader) (behind : Behind) : Bool × U16Reader × Behind :=
  if s.eof then (false, s, behind)
  else
    let s := compactRaw s
    if s.rawLen = sizeofRaw then (true, s, behind)
    else
      let (r, behind) := inner.readFn behind (sizeofRaw - s.rawLen)
      let s := { s with raw := storedAll s.raw s.rawLen r.bytes, rawLen := s.rawLen + r.bytes.length }
      if r.ends then (decide (r.bytes.length > 0), { s with eof := true }, behind)
      else
        match r.err with
        | some e => (false, { s with err := some e }, behind)
        | none => (true, s, behind)

/-- `proven_utf_step_t` with the units written. -/
structure DecodeStep where
  err : Option ProvenErr
  consumed : Nat
  units : List Unit16
  deriving DecidableEq, Repr

/-- The UTF-16 branch of `u16r_decode_raw`: only what the call can hand out is looked at, and one unit more. -/
def decodeWide (enc : TextEncoding) (raw : List Byte) (cap : Nat) : DecodeStep :=
  let n := raw.length / 2
  let m := if cap < n then cap + 1 else n
  let units := (pairs enc raw).take m
  let v := utf16ToUtf8Partial units (List.replicate (sizeofRaw / 2 * 3) 0)
  if v.consumed > cap then
    let take := if cap > 0 ∧ isHigh (units.getD (cap - 1) 0) then cap - 1 else cap
    ⟨some .outOfBounds, 2 * take, units.take take⟩
  else
    let err : Option ProvenErr :=
      if v.err = some .invalidEncoding then some .invalidEncoding
      else if v.consumed < m ∧ cap < n then some .outOfBounds
      else if v.consumed < m ∨ raw.length % 2 = 1 then some .needMore
      else none
    ⟨err, 2 * v.consumed, units.take v.consumed⟩

def u16rDecodeRaw (s : U16Reader) (cap : Nat) : DecodeStep :=
  if s.enc = .utf8 then
    let st := utf8ToUtf16Partial (staged s) (List.replicate cap 0)
    ⟨st.err, st.consumed, st.out.take st.written⟩
  else decodeWide s.enc (staged s) cap

def bomOf (r : List Byte) : TextEncoding × Nat :=
  if r.take 3 = bomBytes .utf8 then (.utf8, 3)
  else if r.take 2 = bomBytes .utf16le then (.utf16le, 2)
  else if r.take 2 = bomBytes .utf16be then (.utf16be, 2)
  else (.utf8, 0)

/-- The loop of `u16r_check_bom`, at most so many times: each stages a byte or ends it. -/
def bomLoop : Nat → U16Reader → Behind → U16Reader × Behind
  | 0, s, behind => (s, behind)
  | rounds + 1, s, behind =>
    if (staged s).length < 3 then
      match u16rReadRaw inner s behind with
      | (true, s, behind) => bomLoop rounds s behind
      | (false, s, behind) => (s, behind)
    else (s, behind)

def u16rCheckBom (s : U16Reader) (behind : Behind) : U16Reader × Behind :=
  let (s, behind) := bomLoop inner 4 s behind
  ({ s with enc := (bomOf (staged s)).1, rawPos := s.rawPos + (bomOf (staged s)).2, bomChecked := true }, behind)

/-- The loop of `u16r_decode`, at most so many times. -/
def decodeLoop (cap : Nat) : Nat → U16Reader → Behind → Option (Outcome × U16Reader × Behind)
  | 0, _, _ => none
  | rounds + 1, s, behind =>
    let d := u16rDecodeRaw s cap
    let s := { s with rawPos := s.rawPos + d.consumed }
    if d.units.length > 0 then some (⟨none, d.units⟩, s, behind)
    else if d.err = some .invalidEncoding then
      some (⟨some .invalidEncoding, []⟩, { s with err := some .invalidEncoding }, behind)
    else if d.err = some .outOfBounds then some (⟨some .outOfBounds, []⟩, s, behind)
    else
      match u16rReadRaw inner s behind with
      | (true, s, behind) => decodeLoop cap rounds s behind
      | (false, s, behind) =>
        match s.err with
        | some e => some (⟨some e, []⟩, s, behind)
        | none =>
          if s.rawLen > s.rawPos then
            -- the source ended inside a character
            some (⟨some .invalidEncoding, []⟩, { s with err := some .invalidEncoding }, behind)
          else some (⟨some .eof, []⟩, s, behind)

/-- `u16r_decode`: at least one whole character of at most `cap` units, or why not. -/
def u16rDecode (s : U16Reader) (behind : Behind) (cap : Nat) : Option (Outcome × U16Reader × Behind) :=
  match s.err with
  | some e => some (⟨some e, []⟩, s, behind)
  | none =>
    if s.peek ≠ [] then
      if cap < s.peek.length then some (⟨some .outOfBounds, []⟩, s, behind)
      else some (⟨none, s.peek⟩, { s with peek := [] }, behind)
    else
      let (s, behind) := if s.bomChecked then (s, behind) else u16rCheckBom inner s behind
      match s.err with
      | some e => some (⟨some e, []⟩, s, behind)
      | none => decodeLoop inner cap (sizeofRaw + 1) s behind

def newline : Unit16 := 10

def carriage : Unit16 := 13

/-- The first newline among `count` units from `place` on. -/
def scanNewline (buf : Nat → Unit16) (place : Nat) : Nat → Option Nat
  | 0 => none
  | count + 1 => if buf place = newline then some place else scanNewline buf (place + 1) count

/-- The line that ends before `i`, where the newline is or would be. -/
def lineBefore (s : U16Reader) (i : Nat) : List Unit16 :=
  let stop := if i > s.cursor ∧ s.buf (i - 1) = carriage then i - 1 else i
  range s.buf s.cursor (stop - s.cursor)

def compactBuf (s : U16Reader) : U16Reader :=
  if s.cursor > 0 then
    let keep := s.len - s.cursor
    { s with buf := if keep > 0 then moved s.buf 0 s.cursor keep else s.buf, len := keep, cursor := 0 }
  else s

def peekedLine (s : U16Reader) : Outcome × U16Reader :=
  if s.peek = [newline] then (⟨none, lineBefore s s.len⟩, { s with cursor := s.len, peek := [] })
  else (⟨some .outOfBounds, []⟩, s)

def fullLine (s : U16Reader) (behind : Behind) : Option (Outcome × U16Reader × Behind) :=
  if s.peek = [] then
    match u16rDecode inner s behind 1 with
    | none => none
    | some (p, s, behind) =>
      match if p.err = some .outOfBounds then u16rDecode inner s behind 2 else some (p, s, behind) with
      | none => none
      | some (p, s, behind) =>
        match p.err with
        | some .eof => some (⟨none, range s.buf 0 s.len⟩, { s with cursor := s.len }, behind)
        | some e => some (⟨some e, []⟩, s, behind)
        | none =>
          let (outcome, s) := peekedLine { s with peek := p.val }
          some (outcome, s, behind)
  else
    let (outcome, s) := peekedLine s
    some (outcome, s, behind)

/-- The loop of `proven_u16_reader_read_line`, at most so many times. -/
def lineLoop : Nat → U16Reader → Behind → Option (Outcome × U16Reader × Behind)
  | 0, _, _ => none
  | rounds + 1, s, behind =>
    match scanNewline s.buf s.cursor (s.len - s.cursor) with
    | some i => some (⟨none, lineBefore s i⟩, { s with cursor := i + 1 }, behind)
    | none =>
      let s := compactBuf s
      match if s.len < s.cap then u16rDecode inner s behind (s.cap - s.len)
          else some (⟨some .outOfBounds, []⟩, s, behind) with
      | none => none
      | some (r, s, behind) =>
        match r.err with
        | some .outOfBounds => fullLine inner s behind
        | some .eof =>
          if s.len > 0 then some (⟨none, range s.buf 0 s.len⟩, { s with cursor := s.len }, behind)
          else some (⟨some .eof, []⟩, s, behind)
        | some e => some (⟨some e, []⟩, s, behind)
        | none =>
          lineLoop rounds { s with buf := storedAll s.buf s.len r.val, len := s.len + r.val.length } behind

/-- `proven_u16_reader_read_line`: every round but the last fills the buffer further. -/
def u16ReadLine (s : U16Reader) (behind : Behind) : Option (Outcome × U16Reader × Behind) :=
  lineLoop inner (s.cap + 1) s behind

/-- `proven_u16_reader_read`: what a line call has buffered comes first, and never half a pair at the end. -/
def u16Read (s : U16Reader) (behind : Behind) (cap : Nat) : Option (Outcome × U16Reader × Behind) :=
  if cap < 2 then some (⟨some .invalidArg, []⟩, s, behind)
  else if s.cursor < s.len then
    let n := s.len - s.cursor
    let n := if n > cap then (if isHigh (s.buf (s.cursor + cap - 1)) then cap - 1 else cap) else n
    some (⟨none, range s.buf s.cursor n⟩, { s with cursor := s.cursor + n }, behind)
  else u16rDecode inner s behind cap

inductive Call where
  | readLine
  | read (cap : Nat)
  deriving DecidableEq, Repr

structure World (Behind : Type) where
  s : U16Reader
  behind : Behind

def call (w : World Behind) : Call → Option (Outcome × World Behind)
  | .readLine => (u16ReadLine inner w.s w.behind).map fun (outcome, s, behind) => (outcome, ⟨s, behind⟩)
  | .read cap => (u16Read inner w.s w.behind cap).map fun (outcome, s, behind) => (outcome, ⟨s, behind⟩)

def next (w : World Behind) (c : Call) : World Behind := ((call inner w c).map Prod.snd).getD w

/-- `proven_u16_reader_init`; a buffer that a pair does not fit is refused. -/
def opened (behind : Behind) (enc : TextEncoding) (buf : Nat → Unit16) (raw : Nat → Byte) (cap : Nat) :
    Option (World Behind) :=
  if cap < 2 then none
  else some ⟨⟨enc, buf, cap, 0, 0, raw, 0, 0, [], decide (enc ≠ .auto), false, none⟩, behind⟩

end ProvenC.Stream.Wide
