import ProvenC.Bytes
import ProvenC.Lib.Cells
import ProvenC.Lib.Runs

/-!
# Buffered reading

`proven_reader_buffered` over any inner reader, and the line reader on it.
-/

namespace ProvenC.Stream.Reader

open Bytes Lib.Cells Lib.Runs

structure Read where
  err : Option ProvenErr
  bytes : List Byte

def Read.failed (r : Read) : Prop := r.err ≠ none ∧ r.err ≠ some .eof

instance (r : Read) : Decidable r.failed := inferInstanceAs (Decidable (_ ∧ _))

def Read.ends (r : Read) : Prop := r.err = some .eof ∨ (r.err = none ∧ r.bytes.length = 0)

instance (r : Read) : Decidable r.ends := inferInstanceAs (Decidable (_ ∨ _))

/-- What a read into `space` bytes does to the text still to come. -/
structure Delivers (space : Nat) (r : Read) (before after : List Byte) : Prop where
  within : r.bytes.length ≤ space
  delivered : ¬r.failed → before = r.bytes ++ after
  ended : r.ends → after = []
  kept : r.failed → after = before

/-- `proven_reader_t`, its function over what `ctx` points to. -/
structure Inner (Behind : Type) where
  readFn : Behind → Nat → Read × Behind
  text : Behind → List Byte
  delivers : ∀ behind space, 0 < space →
    Delivers space (readFn behind space).1 (text behind) (text (readFn behind space).2)

structure Source (Behind : Type) where
  behind : Behind
  failures : List ProvenErr

structure Buffered where
  buf : Nat → Byte
  size : Nat
  len : Nat
  cursor : Nat
  eof : Bool
  err : Option ProvenErr
  peek : Byte
  hasPeek : Bool
  scanned : Nat

variable {Behind : Type} (inner : Inner Behind)

/-- `proven_reader_read` on the inner reader, with some space. -/
def innerRead (source : Source Behind) (space : Nat) : Read × Source Behind :=
  let (r, behind) := inner.readFn source.behind space
  (r, { behind, failures := if r.failed then r.err.toList ++ source.failures else source.failures })

def compact (s : Buffered) : Buffered :=
  if s.cursor > 0 then
    let keep := s.len - s.cursor
    { s with buf := if keep > 0 then moved s.buf 0 s.cursor keep else s.buf, len := keep, cursor := 0 }
  else s

def reinsert (s : Buffered) : Buffered :=
  if s.hasPeek then { s with buf := stored s.buf s.len s.peek, len := s.len + 1, hasPeek := false } else s

/-- More bytes from the source; `reinserted` is progress of its own. -/
def receive (s : Buffered) (source : Source Behind) (reinserted : Bool) : Bool × Buffered × Source Behind :=
  let (r, source) := innerRead inner source (s.size - s.len)
  let s := { s with buf := storedAll s.buf s.len r.bytes }
  if r.ends then (decide (r.bytes.length > 0) || reinserted, { s with len := s.len + r.bytes.length, eof := true }, source)
  else
    match r.err with
    | some e => (false, { s with err := some e }, source)
    | none => (true, { s with len := s.len + r.bytes.length }, source)

/-- `reader_buffered_fill`: false when nothing new arrived. -/
def bufferedFill (s : Buffered) (source : Source Behind) : Bool × Buffered × Source Behind :=
  if s.eof ∨ s.err ≠ none then (false, s, source)
  else
    let s := compact s
    if s.len = s.size then (false, s, source)
    else
      let reinserted := s.hasPeek
      let s := reinsert s
      if reinserted ∧ s.len = s.size then (true, s, source)
      else receive inner s source reinserted

/-- `proven_result_size_t` with the bytes, and `proven_result_u8str_view_t` with what the view shows. -/
structure Outcome where
  err : Option ProvenErr
  val : List Byte
  deriving DecidableEq, Repr

def handOut (s : Buffered) (space : Nat) : Outcome × Buffered :=
  let n := min (s.len - s.cursor) space
  (⟨none, range s.buf s.cursor n⟩, { s with cursor := s.cursor + n, scanned := s.scanned - n })

/-- `proven_reader_read` on the buffered reader: `reader_buffered_read` when there is space. -/
def bufferedRead (s : Buffered) (source : Source Behind) (space : Nat) : Outcome × Buffered × Source Behind :=
  if space = 0 then (⟨none, []⟩, s, source)
  else if s.cursor = s.len then
    match bufferedFill inner s source with
    | (false, s, source) => (⟨some (s.err.getD .eof), []⟩, s, source)
    | (true, s, source) =>
      let (outcome, s) := handOut s space
      (outcome, s, source)
  else
    let (outcome, s) := handOut s space
    (outcome, s, source)

def newline : Byte := byteOf 10

def carriage : Byte := byteOf 13

/-- `proven_sys_mem_chr` in `count` cells from `place` on. -/
def memChr (buf : Nat → Byte) (c : Byte) (place : Nat) : Nat → Option Nat
  | 0 => none
  | count + 1 => if buf place = c then some place else memChr buf c (place + 1) count

/-- The line that ends before `i`, where the newline is or would be. -/
def lineBefore (s : Buffered) (i : Nat) : List Byte :=
  let stop := if i > s.cursor ∧ s.buf (i - 1) = carriage then i - 1 else i
  range s.buf s.cursor (stop - s.cursor)

def probe (s : Buffered) (source : Source Behind) : Read × Buffered × Source Behind :=
  if s.hasPeek then (⟨none, [s.peek]⟩, s, source)
  else if s.eof then (⟨none, []⟩, s, source)
  else
    let (r, source) := innerRead inner source 1
    (r, if r.err = some .eof ∧ r.bytes.length = 0 then { s with eof := true } else s, source)

def fullBuffer (s : Buffered) (source : Source Behind) : Outcome × Buffered × Source Behind :=
  let (r, s, source) := probe inner s source
  if r.failed then (⟨r.err, []⟩, { s with err := r.err }, source)
  else
    match r.bytes with
    | [] => (⟨none, range s.buf 0 s.len⟩, { s with eof := true, cursor := s.len, scanned := 0 }, source)
    | c :: _ =>
      if c = newline then
        (⟨none, lineBefore s s.len⟩, { s with cursor := s.len, scanned := 0, hasPeek := false }, source)
      else (⟨some .outOfBounds, []⟩, { s with peek := c, hasPeek := true }, source)

def lastLine (s : Buffered) : Outcome × Buffered :=
  match s.err with
  | some e => (⟨some e, []⟩, s)
  | none =>
    if s.cursor < s.len then
      (⟨none, range s.buf s.cursor (s.len - s.cursor)⟩, { s with cursor := s.len, scanned := 0 })
    else (⟨some .eof, []⟩, s)

/-- The loop of `proven_reader_read_line`, at most `rounds` times. -/
def readLineLoop : Nat → Buffered → Source Behind → Option (Outcome × Buffered × Source Behind)
  | 0, _, _ => none
  | rounds + 1, s, source =>
    let start := min (s.cursor + s.scanned) s.len
    match memChr s.buf newline start (s.len - start) with
    | some i => some (⟨none, lineBefore s i⟩, { s with cursor := i + 1, scanned := 0 }, source)
    | none =>
      let s := { s with scanned := s.len - s.cursor }
      if s.cursor = 0 ∧ s.len = s.size then some (fullBuffer inner s source)
      else
        match bufferedFill inner s source with
        | (true, s, source) => readLineLoop rounds s source
        | (false, s, source) =>
          let (outcome, s) := lastLine s
          some (outcome, s, source)

/-- `proven_reader_read_line`: every round but the last fills the buffer further. -/
def readLine (s : Buffered) (source : Source Behind) : Option (Outcome × Buffered × Source Behind) :=
  readLineLoop inner (s.size + 1) s source

inductive Call where
  | readLine
  | read (space : Nat)
  deriving DecidableEq, Repr

structure World (Behind : Type) where
  s : Buffered
  source : Source Behind

def call (w : World Behind) : Call → Option (Outcome × World Behind)
  | .readLine => (readLine inner w.s w.source).map fun (outcome, s, source) => (outcome, ⟨s, source⟩)
  | .read space =>
    let (outcome, s, source) := bufferedRead inner w.s w.source space
    some (outcome, ⟨s, source⟩)

def next (w : World Behind) (c : Call) : World Behind := ((call inner w c).map Prod.snd).getD w

/-- `proven_reader_buffered`; a buffer without room is refused. -/
def opened (behind : Behind) (buf : Nat → Byte) (size : Nat) : Option (World Behind) :=
  if size = 0 then none
  else some ⟨⟨buf, size, 0, 0, false, none, 0, false, 0⟩, ⟨behind, []⟩⟩

/-- `proven_reader_from_view`, with what is left of the view. -/
def fromView : Inner (List Byte) where
  readFn left space :=
    if left.length = 0 then (⟨some .eof, []⟩, left) else (⟨none, left.take space⟩, left.drop space)
  text left := left
  delivers := by
    intro left space some
    split
    next done =>
      have empty := List.eq_nil_of_length_eq_zero done
      exact ⟨Nat.zero_le _, fun _ => rfl, fun _ => empty, fun _ => rfl⟩
    rename_i more
    refine ⟨List.length_take_le _ _, fun _ => (List.take_append_drop _ _).symm, ?_, fun failed => absurd rfl failed.1⟩
    rintro (eof | ⟨-, none⟩)
    · cases eof
    rw [List.length_take] at none
    omega

end ProvenC.Stream.Reader
