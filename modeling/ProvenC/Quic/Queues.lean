import ProvenC.Quic.RangeSet
import ProvenC.Quic.Buffers

/-!
# Sending and receiving a byte stream

A send queue holds the bytes from the first not acknowledged to the last written; a receive
queue those from the next the reader takes on, with holes where nothing came yet.
-/

namespace ProvenC.Quic.Queues

open List Bytes Quic.RangeSet Quic.Buffers

/-- `proven_qsendq_t`: everything below `base` is acknowledged, `end_` is the last written,
`next` the first never sent. -/
structure SendQ where
  buf : QRing
  base : Nat
  end_ : Nat
  next : Nat
  lost : List QRange
  acked : List QRange
  fin : Bool
  finSent : Bool
  finLost : Bool
  finAcked : Bool

def SendQ.empty : SendQ :=
  { buf := QRing.none, base := 0, end_ := 0, next := 0, lost := [], acked := [],
    fin := false, finSent := false, finLost := false, finAcked := false }

/-- `sendq_write`; memory a ring grows into holds `junk`. -/
def sendqWrite (junk : Nat → Byte) (q : SendQ) (p : List Byte) : SendQ :=
  { q with
    buf := ringPut (ringReserve junk q.buf (q.buf.len + p.length)) p
    end_ := q.end_ + p.length }

/-- The part of `[off, off + len)` from `base` on. -/
def sendqPart (q : SendQ) (off len : Nat) : Nat × Nat :=
  if off < q.base then (q.base, len - (q.base - off)) else (off, len)

/-- What is acknowledged from `base` on leaves the queue. -/
def sendqAdvance (q : SendQ) : SendQ :=
  match q.acked with
  | [] => q
  | r :: rest =>
    if r.lo = q.base then { q with buf := ringDrop q.buf (r.hi - q.base), base := r.hi, acked := rest } else q

def sendqAcked (q : SendQ) (off len : Nat) (fin : Bool) : SendQ :=
  let q := if fin then { q with finAcked := true } else q
  if off + len ≤ q.base then q
  else
    let (off, len) := sendqPart q off len
    sendqAdvance { q with acked := rsetAdd q.acked off (off + len), lost := rsetRemove q.lost off (off + len) }

def sendqLost (q : SendQ) (off len : Nat) (fin : Bool) : SendQ :=
  let q := if fin && !q.finAcked then { q with finLost := true } else q
  if off + len ≤ q.base then q
  else
    let (off, len) := sendqPart q off len
    { q with lost := rsetAdd q.lost off (off + len) }

/-- `sendq_resend_all`: all of it is sent again from the start (a Retry, a probe). -/
def sendqResendAll (q : SendQ) : SendQ :=
  let lost := if q.base < q.next then rsetAdd q.lost q.base q.next else q.lost
  { q with
    lost := q.acked.foldl (fun lost r => rsetRemove lost r.lo r.hi) lost
    finLost := q.finLost || (q.finSent && !q.finAcked) }

/-- A piece `sendq_next` gives: whether it ends the stream, and whether it was never sent. -/
structure Piece where
  off : Nat
  len : Nat
  fin : Bool
  fresh : Bool
  deriving DecidableEq, Repr

/-- `sendq_contig`: the bytes from `off` to the ring's wrap. -/
def sendqContig (q : SendQ) (off : Nat) : Nat := q.buf.cap - ringPos q.buf (off - q.base)

def sendqNextLost (q : SendQ) (room : Nat) : List QRange → Option (Option Piece)
  | [] => none
  | r :: rest =>
    match rsetFirstGap q.acked (max r.lo q.base) r.hi with
    | none => sendqNextLost q room rest
    | some (a, b) =>
      let len := min (min (b - a) room) (sendqContig q a)
      let fin := q.fin && a + len == q.end_ && (q.finLost || !q.finSent)
      some (if 0 < len ∨ fin then some { off := a, len := len, fin := fin, fresh := false } else none)

/-- `sendq_next`: the next piece, at most `room` bytes and never across the ring's wrap: lost
bytes first, then new ones up to `limit`. -/
def sendqNext (q : SendQ) (room limit : Nat) : Option Piece :=
  match sendqNextLost q room q.lost with
  | some piece => piece
  | none =>
    let upto := min q.end_ limit
    if q.next < upto ∧ 0 < room then
      let len := min (min (upto - q.next) room) (sendqContig q q.next)
      some { off := q.next, len := len, fin := q.fin && q.next + len == q.end_, fresh := true }
    else if q.fin && q.next == q.end_ && !q.finAcked && (!q.finSent || q.finLost) then
      some { off := q.end_, len := 0, fin := true, fresh := false }
    else none

/-- The bytes a frame shows from `sendq_at` on: one view of the ring's memory. -/
def sendqView (q : SendQ) (off len : Nat) : List Byte :=
  (List.range len).map fun i => q.buf.p (ringPos q.buf (off - q.base) + i)

/-- `sendq_sent`: what `sendq_next` gave was put in a packet. -/
def sendqSent (q : SendQ) (off len : Nat) (fin : Bool) : SendQ :=
  let q := { q with lost := rsetRemove q.lost off (off + len), next := max q.next (off + len) }
  if fin then { q with finSent := true, finLost := false } else q

def sendqDone (q : SendQ) : Bool := q.fin && q.finAcked && q.base == q.end_

/-- `sendq_free`: the bytes and the ranges go. -/
def sendqFree (q : SendQ) : SendQ := { q with buf := QRing.none, lost := [], acked := [] }

@[simp] theorem advance_fin (q : SendQ) : (sendqAdvance q).fin = q.fin := by
  unfold sendqAdvance
  split
  · rfl
  · split <;> rfl

@[simp] theorem advance_fin_acked (q : SendQ) : (sendqAdvance q).finAcked = q.finAcked := by
  unfold sendqAdvance
  split
  · rfl
  · split <;> rfl

/-- `proven_qrecvq_t`: `read` is the next byte the reader takes, `highest` one past the highest
received, `got` the ranges that are there. -/
structure RecvQ where
  buf : QBuf
  read : Nat
  highest : Nat
  final : Nat
  hasFinal : Bool
  got : List QRange

def RecvQ.empty : RecvQ :=
  { buf := QBuf.none, read := 0, highest := 0, final := 0, hasFinal := false, got := [] }

/-- The bytes from `off` on that the reader has not passed. -/
def recvqPart (q : RecvQ) (off : Nat) (p : List Byte) : Nat × List Byte :=
  if off < q.read then (q.read, p.drop (q.read - off)) else (off, p)

/-- `recvq_insert`: take the bytes from `off` on; memory a buffer grows into holds `junk`. -/
def recvqInsert (junk : Nat → Byte) (q : RecvQ) (off : Nat) (p : List Byte) : RecvQ :=
  if off + p.length ≤ q.read then q
  else
    let part := recvqPart q off p
    { q with
      buf := qbufPut junk q.buf (part.1 - q.read) part.2
      got := rsetAdd q.got part.1 (part.1 + part.2.length)
      highest := max q.highest (part.1 + part.2.length) }

/-- `recvq_ready`: bytes ready at `read`. -/
def recvqReady (q : RecvQ) : Nat :=
  match q.got with
  | [] => 0
  | r :: _ => if r.lo = q.read then r.hi - q.read else 0

/-- `recvq_take`: at most `cap` of them. -/
def recvqTake (q : RecvQ) (cap : Nat) : RecvQ × List Byte :=
  let n := min (recvqReady q) cap
  if n = 0 then (q, [])
  else
    ({ q with buf := qbufDrop q.buf n, got := rsetRemove q.got q.read (q.read + n), read := q.read + n },
      (List.range n).map q.buf.at)

/-- How many bytes `recvq_take` takes. -/
def recvqTaken (q : RecvQ) (cap : Nat) : Nat := min (recvqReady q) cap

/-- `recvq_free`: the bytes and the ranges go. -/
def recvqFree (q : RecvQ) : RecvQ := { q with buf := QBuf.none, got := [] }

/-- What was received lies below `highest`, and so does the reader. -/
structure RecvQ.Sound (q : RecvQ) : Prop where
  gotBelow : EndsBy q.got q.highest
  readBelow : q.read ≤ q.highest
  finalHighest : q.hasFinal = true → q.final = q.highest

variable {q : RecvQ}

theorem part_end {off : Nat} {p : List Byte} (past : ¬off + p.length ≤ q.read) :
    (recvqPart q off p).1 + (recvqPart q off p).2.length = off + p.length := by
  unfold recvqPart
  split
  · rw [length_drop]
    omega
  · rfl

theorem insert_highest (junk : Nat → Byte) (q : RecvQ) (off : Nat) (p : List Byte) : (recvqInsert junk q off p).highest =
      if off + p.length ≤ q.read then q.highest else max q.highest (off + p.length) := by
  unfold recvqInsert
  split
  · rfl
  rename_i past
  rw [← part_end past]

theorem insert_keeps (junk : Nat → Byte) (q : RecvQ) (off : Nat) (p : List Byte) :
    (recvqInsert junk q off p).read = q.read ∧ (recvqInsert junk q off p).final = q.final ∧
      (recvqInsert junk q off p).hasFinal = q.hasFinal := by
  unfold recvqInsert
  split
  all_goals exact ⟨rfl, rfl, rfl⟩

theorem insert_got (junk : Nat → Byte) (below : EndsBy q.got q.highest) (off : Nat) (p : List Byte) :
    EndsBy (recvqInsert junk q off p).got (recvqInsert junk q off p).highest := by
  unfold recvqInsert
  split
  · exact below
  · exact add_ends (ends_by_mono below (le_max_left _ _)) (le_max_right _ _)

theorem ready_below (sound : q.Sound) : q.read + recvqReady q ≤ q.highest := by
  have below := sound.gotBelow
  have readBelow := sound.readBelow
  unfold recvqReady
  split
  · exact readBelow
  rename_i r rest shape
  have ends := below r (by rw [shape]; exact mem_cons_self ..)
  split
  · omega
  · exact readBelow

theorem take_read (q) (cap : Nat) :
    (recvqTake q cap).1.read = q.read + recvqTaken q cap ∧ (recvqTake q cap).1.highest = q.highest ∧
      (recvqTake q cap).1.final = q.final ∧ (recvqTake q cap).1.hasFinal = q.hasFinal := by
  unfold recvqTake recvqTaken
  dsimp only
  split
  next none_ =>
    exact ⟨by rw [none_]; rfl, rfl, rfl, rfl⟩
  · exact ⟨rfl, rfl, rfl, rfl⟩

theorem take_sound (sound : q.Sound) (cap : Nat) : (recvqTake q cap).1.Sound := by
  obtain ⟨read, highest, final, hasFinal⟩ := take_read q cap
  have ready := ready_below sound
  refine ⟨?_, ?_, ?_⟩
  · rw [highest]
    unfold recvqTake
    dsimp only
    split
    · exact sound.gotBelow
    · exact remove_ends sound.gotBelow _ _
  · rw [read, highest]
    have most : recvqTaken q cap ≤ recvqReady q := min_le_left _ _
    omega
  rw [final, highest, hasFinal]
  exact sound.finalHighest

/-- The bytes at hand are the content's: the buffer holds, for each offset in `got`, the
content's byte there, counted from the next the reader takes. -/
structure RecvQ.Holds (content : Nat → Byte) (q : RecvQ) : Prop where
  apart : Apart q.got
  above : ∀ r ∈ q.got, q.read ≤ r.lo
  fits : q.buf.Fits
  held : EndsBy q.got (q.read + q.buf.len)
  bytes : ∀ n, InSet n q.got → q.buf.at (n - q.read) = content n

theorem empty_holds (content : Nat → Byte) : RecvQ.empty.Holds content :=
  ⟨True.intro, nofun, le_refl _, nofun, fun n member => absurd member (not_in_nil n)⟩

theorem in_below {s : List QRange} {bound value : Nat} (ends : EndsBy s bound) (member : InSet value s) :
    value < bound := by
  obtain ⟨r, inside, _, high⟩ := member
  exact high.trans_le (ends r inside)

/-- Bytes of the content from `off` on. -/
def Carries (content : Nat → Byte) (off : Nat) (p : List Byte) : Prop :=
  ∀ i < p.length, p.getD i 0 = content (off + i)

theorem part_carries {content : Nat → Byte} {off : Nat} {p : List Byte}
    (carries : Carries content off p) : Carries content (recvqPart q off p).1 (recvqPart q off p).2 := by
  unfold recvqPart
  split
  · intro i inside
    dsimp only at inside ⊢
    rw [length_drop] at inside
    have byte := carries (q.read - off + i) (by omega)
    rw [getD_eq_getElem?_getD, List.getElem?_drop, ← getD_eq_getElem?_getD, byte]
    congr 1
    omega
  · exact carries

theorem insert_holds {content : Nat → Byte} (holds : q.Holds content) (junk : Nat → Byte) {off : Nat}
    {p : List Byte} (carries : Carries content off p) : (recvqInsert junk q off p).Holds content ∧
      ∀ n, InSet n (recvqInsert junk q off p).got ↔ InSet n q.got ∨ (q.read ≤ n ∧ off ≤ n ∧ n < off + p.length) := by
  unfold recvqInsert
  split
  next passed =>
    refine ⟨holds, fun n => ⟨.inl, ?_⟩⟩
    rintro (member | new)
    · exact member
    · omega
  rename_i past
  have end_ := part_end past
  have carried := part_carries (q := q) carries
  have start : (recvqPart q off p).1 = max q.read off := by
    unfold recvqPart
    split <;> dsimp only <;> omega
  generalize recvqPart q off p = part at end_ carried start
  obtain ⟨from_, bytes⟩ := part
  dsimp only at end_ carried start ⊢
  obtain ⟨fits, len, new, old⟩ := put_spec holds.fits junk (from_ - q.read) bytes
  have members := in_add holds.apart from_ (from_ + bytes.length)
  have low : q.read ≤ from_ := by omega
  refine ⟨⟨add_apart holds.apart _ _, add_above holds.above low, fits, ?_, fun n member => ?_⟩, fun n => ?_⟩
  · have room : q.read + (qbufPut junk q.buf (from_ - q.read) bytes).len =
        max (q.read + q.buf.len) (from_ + bytes.length) := by
      rw [len]
      omega
    rw [room]
    exact add_ends (ends_by_mono holds.held (le_max_left _ _)) (le_max_right _ _)
  · rw [members] at member
    by_cases inside : from_ ≤ n ∧ n < from_ + bytes.length
    · have byte := new (n - from_) (by omega)
      rw [show from_ - q.read + (n - from_) = n - q.read by omega] at byte
      rw [byte, carried (n - from_) (by omega)]
      congr 1
      omega
    have before : InSet n q.got := member.resolve_right inside
    have below := in_below holds.held before
    have low := in_above holds.above before
    rw [old (n - q.read) (by omega) (by omega)]
    exact holds.bytes n before
  rw [members]
  constructor
  · rintro (member | inside)
    · exact .inl member
    · exact .inr (by omega)
  rintro (member | inside)
  · exact .inl member
  · exact .inr (by omega)

theorem ready_spec {content : Nat → Byte} (holds : q.Holds content) :
    (∀ n, q.read ≤ n → n < q.read + recvqReady q → InSet n q.got) ∧ ¬ InSet (q.read + recvqReady q) q.got := by
  have apart := holds.apart
  have above := holds.above
  unfold recvqReady
  split
  next shape =>
    rw [shape]
    exact ⟨fun n low high => by omega, not_in_nil _⟩
  rename_i r rest shape
  rw [shape] at apart above ⊢
  have low := above r mem_cons_self
  split
  next here =>
    obtain ⟨run, past⟩ := first_run apart
    have full := apart.1
    rw [show q.read + (r.hi - q.read) = r.hi by omega]
    exact ⟨fun n first second => run n (by omega) second, past⟩
  rename_i hole
  refine ⟨fun n first second => by omega, fun member => ?_⟩
  have beyond : q.read + 1 ≤ q.read + 0 := by
    refine in_above (fun q_ inside => ?_) member
    rcases mem_cons.mp inside with rfl | later
    · omega
    have further := apart.2.1 q_ later
    have full := apart.1
    omega
  omega

theorem take_holds {content : Nat → Byte} (holds : q.Holds content) (cap : Nat) :
    (recvqTake q cap).2 = (List.range (recvqTaken q cap)).map (fun i => content (q.read + i)) ∧
      (recvqTake q cap).1.Holds content ∧
      ∀ n, InSet n (recvqTake q cap).1.got ↔ InSet n q.got ∧ q.read + recvqTaken q cap ≤ n := by
  obtain ⟨ready, _⟩ := ready_spec holds
  have most : recvqTaken q cap ≤ recvqReady q := min_le_left _ _
  unfold recvqTake
  dsimp only
  rw [show min (recvqReady q) cap = recvqTaken q cap from rfl]
  split
  next none_ =>
    rw [none_]
    refine ⟨rfl, holds, fun n => ⟨fun member => ⟨member, ?_⟩, fun both => both.1⟩⟩
    exact in_above holds.above member
  rename_i some_
  generalize recvqTaken q cap = n at most some_
  have stored : n ≤ q.buf.len := by
    have last := in_below holds.held (ready (q.read + (n - 1)) (by omega) (by omega))
    omega
  obtain ⟨fits, len, kept⟩ := drop_spec holds.fits stored
  have members := in_remove holds.apart q.read (q.read + n)
  have later : ∀ m, InSet m q.got → ((m < q.read ∨ q.read + n ≤ m) ↔ q.read + n ≤ m) := by
    intro m member
    have low := in_above holds.above member
    omega
  have iff : ∀ m, InSet m (rsetRemove q.got q.read (q.read + n)) ↔ InSet m q.got ∧ q.read + n ≤ m := by
    intro m
    rw [members]
    exact and_congr_right (later m)
  refine ⟨?_, ⟨remove_apart holds.apart _ _, ?_, fits, ?_, fun m member => ?_⟩, iff⟩
  · refine map_congr_left fun i inside => ?_
    have byte := holds.bytes (q.read + i) (ready _ (by omega) (by rw [mem_range] at inside; omega))
    rwa [Nat.add_sub_cancel_left] at byte
  · intro r inside
    have full := apart_full (remove_apart holds.apart q.read (q.read + n)) r inside
    exact ((iff r.lo).mp ⟨r, inside, le_rfl, full⟩).2
  · dsimp only
    rw [len, show q.read + n + (q.buf.len - n) = q.read + q.buf.len by omega]
    exact remove_ends holds.held _ _
  obtain ⟨before, low⟩ := (iff m).mp member
  have below := in_below holds.held before
  dsimp only
  rw [kept (m - (q.read + n)) (by omega), show n + (m - (q.read + n)) = m - q.read by omega]
  exact holds.bytes m before

end ProvenC.Quic.Queues
