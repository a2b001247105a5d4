import ProvenC.Bytes
import ProvenC.Lib.Cells
import ProvenC.Lib.Runs

/-!
# Buffered writing

`proven_writer_buffered` over any inner writer.
-/

namespace ProvenC.Stream.Writer

open Bytes Lib.Cells Lib.Runs

/-- `proven_result_size_t`; no error is `PROVEN_OK`. -/
structure ResultSize where
  err : Option ProvenErr
  value : Nat
  deriving DecidableEq, Repr

/-- `proven_writer_t`, its functions over what `ctx` points to. -/
structure Inner (Behind : Type) where
  writeFn : Behind → List Byte → ResultSize × Behind
  flushFn : Option (Behind → Option ProvenErr × Behind)
  partly : ∀ behind chunk, (writeFn behind chunk).1.value ≤ chunk.length

structure Sink (Behind : Type) where
  behind : Behind
  delivered : List Byte
  trouble : Option ProvenErr

structure Buffered where
  buf : Nat → Byte
  size : Nat
  len : Nat
  err : Option ProvenErr

def Buffered.held (s : Buffered) : List Byte := range s.buf 0 s.len

variable {Behind : Type} (inner : Inner Behind)

def failureOf (r : ResultSize) : Option ProvenErr :=
  match r.err with
  | some e => some e
  | none => if r.value = 0 then some .io else none

/-- `proven_writer_write_partial` on the inner writer. -/
def innerWritePartial (sink : Sink Behind) (chunk : List Byte) : ResultSize × Sink Behind :=
  if chunk = [] then (⟨none, 0⟩, sink)
  else
    let (r, behind) := inner.writeFn sink.behind chunk
    (r, { behind, delivered := sink.delivered ++ chunk.take r.value, trouble := sink.trouble.or (failureOf r) })

/-- `proven_writer_flush` on the inner writer. -/
def innerFlush (sink : Sink Behind) : Option ProvenErr × Sink Behind :=
  match inner.flushFn with
  | none => (none, sink)
  | some flushFn =>
    let (e, behind) := flushFn sink.behind
    (e, { sink with behind })

/-- The loop of `writer_buffered_drain`. -/
def drainLoop (s : Buffered) (sink : Sink Behind) (sent : Nat) : Option ProvenErr × Buffered × Sink Behind :=
  if _more : sent < s.len then
    match innerWritePartial inner sink (range s.buf sent (s.len - sent)) with
    | (r, sink) =>
      if _failed : r.err ≠ none ∨ (r.value = 0 ∧ s.len - sent > 0) then
        -- keep the unsent tail, and only that
        let keep := s.len - (sent + r.value)
        let buf := if keep > 0 ∧ sent + r.value > 0 then moved s.buf 0 (sent + r.value) keep else s.buf
        let e := r.err.getD .io
        (some e, { s with buf, len := keep, err := some e }, sink)
      else drainLoop s sink (sent + r.value)
  else (none, { s with len := 0 }, sink)
termination_by s.len - sent

def bufferedDrain (s : Buffered) (sink : Sink Behind) : Option ProvenErr × Buffered × Sink Behind :=
  match s.err with
  | some e => (some e, s, sink)
  | none => if s.len = 0 then (none, s, sink) else drainLoop inner s sink 0

def bufferedFlush (s : Buffered) (sink : Sink Behind) : Option ProvenErr × Buffered × Sink Behind :=
  match bufferedDrain inner s sink with
  | (some e, s, sink) => (some e, s, sink)
  | (none, s, sink) =>
    let (e, sink) := innerFlush inner sink
    (e, s, sink)

/-- The end of `writer_buffered_write`: the chunk goes into the buffer. -/
def keepChunk (s : Buffered) (sink : Sink Behind) (chunk : List Byte) : ResultSize × Buffered × Sink Behind :=
  (⟨none, chunk.length⟩, { s with buf := storedAll s.buf s.len chunk, len := s.len + chunk.length }, sink)

def passThrough (s : Buffered) (sink : Sink Behind) (chunk : List Byte) : ResultSize × Buffered × Sink Behind :=
  let (r, sink) := innerWritePartial inner sink chunk
  match r.err with
  | some e => (r, { s with err := some e }, sink)
  | none =>
    if r.value = 0 ∧ chunk.length > 0 then (⟨some .io, r.value⟩, { s with err := some .io }, sink)
    else (r, s, sink)

def bufferedWrite (s : Buffered) (sink : Sink Behind) (chunk : List Byte) : ResultSize × Buffered × Sink Behind :=
  match s.err with
  | some e => (⟨some e, 0⟩, s, sink)
  | none =>
    if chunk.length ≥ s.size then
      match bufferedDrain inner s sink with
      | (some e, s, sink) => (⟨some e, 0⟩, s, sink)
      | (none, s, sink) => passThrough inner s sink chunk
    else if chunk.length > s.size - s.len then
      match bufferedDrain inner s sink with
      | (some e, s, sink) => (⟨some e, 0⟩, s, sink)
      | (none, s, sink) => keepChunk s sink chunk
    else keepChunk s sink chunk

structure World (Behind : Type) where
  s : Buffered
  sink : Sink Behind
  accepted : List Byte

def writePartial (w : World Behind) (chunk : List Byte) : ResultSize × World Behind :=
  if chunk = [] then (⟨none, 0⟩, w)
  else
    let (r, s, sink) := bufferedWrite inner w.s w.sink chunk
    (r, { s, sink, accepted := w.accepted ++ chunk.take r.value })

/-- `proven_writer_write`: what is left of the chunk is written again. -/
def write (w : World Behind) (chunk : List Byte) : Option ProvenErr × World Behind :=
  if _more : chunk = [] then (none, w)
  else
    match writePartial inner w chunk with
    | (⟨some e, _⟩, w) => (some e, w)
    | (⟨none, value⟩, w) => if _stalled : value = 0 then (some .io, w) else write w (chunk.drop value)
termination_by chunk.length
decreasing_by
  have positive := List.length_pos_iff.mpr _more
  rw [List.length_drop]
  omega

def flush (w : World Behind) : Option ProvenErr × World Behind :=
  let (e, s, sink) := bufferedFlush inner w.s w.sink
  (e, { w with s, sink })

inductive Call where
  | writePartial (chunk : List Byte)
  | write (chunk : List Byte)
  | flush

def call (w : World Behind) : Call → Option ProvenErr × World Behind
  | .writePartial chunk => ((writePartial inner w chunk).1.err, (writePartial inner w chunk).2)
  | .write chunk => write inner w chunk
  | .flush => flush inner w

def next (w : World Behind) (c : Call) : World Behind := (call inner w c).2

/-- `proven_writer_buffered`; a buffer without room is refused. -/
def opened (behind : Behind) (buf : Nat → Byte) (size : Nat) : Option (World Behind) :=
  if size = 0 then none
  else some ⟨⟨buf, size, 0, none⟩, ⟨behind, [], none⟩, []⟩

end ProvenC.Stream.Writer
