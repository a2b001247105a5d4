import ProvenC.H2.Calls
import ProvenC.Hpack.Block
import ProvenC.Lib.Spreading

/-!
# A header block framed in place

The output buffer of a connection in its memory.
-/

namespace ProvenC.H2.BlockFraming

open Bytes Lib.Cells Lib.Spreading H2.Frame
open H2.Calls (marked frameCount blockFrames)
open Hpack.Table (Field fieldSize)
open Hpack.Arena (Memory)
open Hpack.Encoder (hpackEncodeBound)
open Hpack.Block

/-- `out`, `out_off`, `out_len` and `out_cap` of a connection; a capacity of 0 is no buffer. -/
structure OutBuffer where
  cells : Nat → Byte
  off : Nat
  len : Nat
  cap : Nat

def pending (b : OutBuffer) : List Byte := range b.cells b.off (b.len - b.off)

def grownCap (len n : Nat) : Nat → Nat → Option Nat
  | 0, _ => none
  | turns + 1, cap => if cap - len < n then if 2 ^ 30 < cap then none else grownCap len n turns (cap * 2) else some cap

/-- `h2c_out_reserve`; `memory` is what the allocator gives if it is asked, with the old buffer's bytes copied to it. -/
def h2cOutReserve (b : OutBuffer) (n : Nat) (memory : Option (Nat → Byte)) : OutBuffer × Bool :=
  let b := if b.off = b.len then { b with off := 0, len := 0 } else b
  if n ≤ b.cap - b.len then (b, true)
  else
    let b := if 0 < b.off then { b with cells := moved b.cells 0 b.off (b.len - b.off), len := b.len - b.off, off := 0 } else b
    if n ≤ b.cap - b.len then (b, true)
    else
      match grownCap b.len n 32 (if b.cap = 0 then 128 else b.cap), memory with
      | some cap, some fresh => ({ b with cells := fun i => if i < b.cap then b.cells i else fresh i, cap := cap }, true)
      | _, _ => (b, false)

structure Sender where
  out : OutBuffer
  enc : Option HpackEncoder
  cfgTable : Nat
  peerTable : Option Nat
  peerFrame : Nat
  peerList : Nat
  frameRange : h2MinMaxFrameSize ≤ peerFrame ∧ peerFrame ≤ h2MaxMaxFrameSize
  listRange : peerList < 2 ^ 32

structure Resources where
  encoder : Bool
  buffer : Option (Nat → Byte)
  table : Nat → Option Memory

def blockEncoder (c : Sender) (made : Bool) : Option HpackEncoder :=
  match c.enc with
  | some enc => some enc
  | none =>
    if made then
      match hpackEncoderCreate c.cfgTable with
      | .error _ => none
      | .ok enc =>
        some (match c.peerTable with
          | some bytes => hpackEncoderSetPeerTableBytes enc bytes
          | none => enc)
    else none

/-- Room for the later frames' headers, from the back: the frames from the `i`-th down to the second. -/
def makeRoom (frame blen start frames id : Nat) : Nat → (Nat → Byte) → Nat → Byte
  | 0, cells => cells
  | i + 1, cells =>
    let piece := if i + 1 = frames - 1 then blen - (i + 1) * frame else frame
    let dst := start + (i + 1) * (frame + 9)
    makeRoom frame blen start frames id i
      (storedAll (moved cells (dst + 9) (start + 9 + (i + 1) * frame) piece) dst
        (h2PutHeader piece h2Continuation (if i + 1 = frames - 1 then 4 else 0) id))

/-- The block behind room for one frame header at `start`, framed. -/
def frameBlock (cells : Nat → Byte) (frame blen start id : Nat) (endStream : Bool) : (Nat → Byte) × Nat :=
  let frames := frameCount frame blen
  let fin := if endStream then 1 else 0
  let cells := makeRoom frame blen start frames id (frames - 1) cells
  (storedAll cells start (h2PutHeader (if frames = 1 then blen else frame) h2Headers (fin + if frames = 1 then 4 else 0) id),
    start + blen + 9 * frames)

def h2cSendBlock (c : Sender) (id : Nat) (headers : List Field) (endStream : Bool) (marks : Option (List Bool))
    (resources : Resources) : Sender × Option ProvenErr :=
  let list := (headers.map fieldSize).sum
  if c.peerList < list then (c, some .outOfBounds)
  else
    match blockEncoder c resources.encoder with
    | none => (c, some .noMem)
    | some enc =>
      let c := { c with enc := some enc }
      let fields := marked headers marks
      let bound := hpackEncodeBound fields
      let frame := c.peerFrame
      match h2cOutReserve c.out (bound + 9 * (bound / frame + 1)) resources.buffer with
      | (out, false) => ({ c with out := out }, some .noMem)
      | (out, true) =>
        let start := out.len
        let done := hpackEncode enc fields out.cap out.cells (start + 9) resources.table
        let c := { c with enc := some done.encoder }
        match done.err with
        | some err => ({ c with out := { out with cells := done.cells } }, some (if err = .noMem then .noMem else .invalidArg))
        | none =>
          let (cells, len) := frameBlock done.cells frame (done.len - start - 9) start id endStream
          ({ c with out := { out with cells := cells, len := len } }, none)

structure OutFrame where
  type : Nat
  flags : Nat
  streamId : Nat
  payload : List Byte

def OutFrame.wire (f : OutFrame) : List Byte := h2PutHeader f.payload.length f.type f.flags f.streamId ++ f.payload

def OutFrame.endHeaders (f : OutFrame) : Prop := f.flags / 4 % 2 = 1

def OutFrame.endStream (f : OutFrame) : Prop := f.flags % 2 = 1

structure CarryBlock (frame id : Nat) (endStream : Bool) (block : List Byte) (frames : List OutFrame) : Prop where
  some_ : frames ≠ []
  type : ∀ k (inside : k < frames.length), (frames.get ⟨k, inside⟩).type = if k = 0 then h2Headers else h2Continuation
  stream : ∀ f ∈ frames, f.streamId = id
  small : ∀ f ∈ frames, f.payload.length ≤ frame
  endHeaders : ∀ k (inside : k < frames.length), (frames.get ⟨k, inside⟩).endHeaders ↔ k + 1 = frames.length
  endStream : ∀ k (inside : k < frames.length), (frames.get ⟨k, inside⟩).endStream ↔ k = 0 ∧ endStream = true
  joined : (frames.map OutFrame.payload).flatten = block

structure InRoom (b : OutBuffer) : Prop where
  off : b.off ≤ b.len
  len : b.len ≤ b.cap

theorem grown_cap {len n turns cap cap' : Nat} (grown : grownCap len n turns cap = some cap') : n ≤ cap' - len ∧ cap ≤ cap' := by
  induction turns generalizing cap with
  | zero => cases grown
  | succ turns ih =>
    rw [grownCap] at grown
    split_ifs at grown with small
    · obtain ⟨enough, larger⟩ := ih grown
      exact ⟨enough, by omega⟩
    · cases grown
      exact ⟨by omega, le_refl _⟩

structure Kept (b b' : OutBuffer) : Prop where
  pending : pending b' = pending b
  room : InRoom b'

variable {b : OutBuffer}

theorem kept_refl (room : InRoom b) : Kept b b := ⟨rfl, room⟩

theorem kept_trans {b' b'' : OutBuffer} (first : Kept b b') (second : Kept b' b'') : Kept b b'' :=
  ⟨second.pending.trans first.pending, second.room⟩

theorem reset_kept (room : InRoom b) : Kept b (if b.off = b.len then { b with off := 0, len := 0 } else b) := by
  split_ifs with empty
  · refine ⟨?_, ⟨Nat.le_refl 0, Nat.zero_le _⟩⟩
    unfold pending
    rw [empty, Nat.sub_self, Nat.sub_self]
    rfl
  · exact kept_refl room

theorem compact_kept (room : InRoom b) :
    Kept b (if 0 < b.off then { b with cells := moved b.cells 0 b.off (b.len - b.off), len := b.len - b.off, off := 0 } else b) := by
  have inRoom := room.len
  split_ifs
  · refine ⟨?_, ⟨Nat.zero_le _, show b.len - b.off ≤ b.cap by omega⟩⟩
    unfold pending
    rw [Nat.sub_zero]
    refine range_eq fun i inside => ?_
    exact moved_inside inside
  · exact kept_refl room

theorem grow_kept (room : InRoom b) {cap : Nat} (larger : b.cap ≤ cap) (fresh : Nat → Byte) :
    Kept b { b with cells := fun i => if i < b.cap then b.cells i else fresh i, cap := cap } := by
  have inRoom := room.len
  refine ⟨?_, ⟨room.off, show b.len ≤ cap by omega⟩⟩
  unfold pending
  dsimp only
  refine range_eq fun i inside => ?_
  rw [if_pos (by omega)]

theorem reserve_kept (room : InRoom b) (n : Nat) (memory : Option (Nat → Byte)) : Kept b (h2cOutReserve b n memory).1 ∧
      ((h2cOutReserve b n memory).2 = true → n ≤ (h2cOutReserve b n memory).1.cap - (h2cOutReserve b n memory).1.len) := by
  have reset := reset_kept room
  unfold h2cOutReserve
  generalize (if b.off = b.len then { b with off := 0, len := 0 } else b) = b₁ at *
  by_cases enough : n ≤ b₁.cap - b₁.len
  · rw [if_pos enough]
    exact ⟨reset, fun _ => enough⟩
  rw [if_neg enough]
  have compact := kept_trans reset (compact_kept reset.room)
  generalize (if 0 < b₁.off then { b₁ with cells := moved b₁.cells 0 b₁.off (b₁.len - b₁.off), len := b₁.len - b₁.off, off := 0 }
    else b₁) = b₂ at *
  by_cases enough' : n ≤ b₂.cap - b₂.len
  · rw [if_pos enough']
    exact ⟨compact, fun _ => enough'⟩
  rw [if_neg enough']
  cases grown : grownCap b₂.len n 32 (if b₂.cap = 0 then 128 else b₂.cap) with
  | none => exact ⟨compact, fun wrong => by cases wrong⟩
  | some cap =>
    obtain ⟨fits, larger⟩ := grown_cap grown
    have noSmaller : b₂.cap ≤ cap := by
      split_ifs at larger <;> omega
    cases memory with
    | none => exact ⟨compact, fun wrong => by cases wrong⟩
    | some fresh => exact ⟨kept_trans compact (grow_kept compact.room noSmaller fresh), fun _ => fits⟩

def headOf (frame blen last id : Nat) (endStream : Bool) (k : Nat) : List Byte :=
  h2PutHeader (if k = last then blen - k * frame else frame) (if k = 0 then h2Headers else h2Continuation)
    ((if k = 0 ∧ endStream = true then 1 else 0) + if k = last then 4 else 0) id

/-- Frame `k` of a block in frames up to the `last`. -/
def frameAt (block : List Byte) (frame last id : Nat) (endStream : Bool) (k : Nat) : OutFrame where
  type := if k = 0 then h2Headers else h2Continuation
  flags := (if k = 0 ∧ endStream = true then 1 else 0) + if k = last then 4 else 0
  streamId := id
  payload := pieceOf block frame k

theorem make_room_spread (frame blen start last id : Nat) (endStream : Bool) (i : Nat) (cells : Nat → Byte) :
    makeRoom frame blen start (last + 1) id i cells =
      spread (headOf frame blen last id endStream) 9 frame blen last start i cells := by
  induction i generalizing cells with
  | zero => rfl
  | succ i ih =>
    have later : ¬ i + 1 = 0 := Nat.succ_ne_zero i
    have notFirst : ¬ (i + 1 = 0 ∧ endStream = true) := fun both => later both.1
    rw [makeRoom, spread, spreadPiece, ih, headOf, if_neg later, if_neg notFirst, zero_add, Nat.add_sub_cancel]

theorem frame_count {frame n : Nat} (positive : 0 < frame) :
    ∃ last, frameCount frame n = last + 1 ∧ last * frame ≤ n ∧ n ≤ (last + 1) * frame := by
  unfold frameCount
  by_cases none_ : n = 0
  · rw [if_pos none_, none_]
    exact ⟨0, rfl, by omega, by omega⟩
  rw [if_neg none_]
  have shape : n + frame - 1 = n - 1 + frame := by omega
  refine ⟨(n - 1) / frame, ?_, ?_, ?_⟩
  · rw [shape, Nat.add_div_right _ positive]
  · have below := Nat.div_mul_le_self (n - 1) frame
    omega
  have above := @Nat.lt_div_mul_add (n - 1) frame positive
  rw [Nat.succ_mul]
  omega

variable {block : List Byte} {frame : Nat}

theorem head_wire {last k : Nat} (id : Nat) (endStream : Bool) (covers : last * frame ≤ block.length)
    (ends : block.length ≤ (last + 1) * frame) (within : k ≤ last) :
    headOf frame block.length last id endStream k ++ pieceOf block frame k = (frameAt block frame last id endStream k).wire := by
  have length : (if k = last then block.length - k * frame else frame) = (pieceOf block frame k).length := by
    rw [piece_length]
    split_ifs with isLast
    · rw [isLast]
      rw [Nat.succ_mul] at ends
      omega
    have later : (k + 1) * frame ≤ last * frame := Nat.mul_le_mul_right _ (by omega)
    rw [Nat.succ_mul] at later
    omega
  unfold headOf OutFrame.wire frameAt
  rw [length]

def framesOf (block : List Byte) (frame id : Nat) (endStream : Bool) : List OutFrame :=
  (List.range (frameCount frame block.length)).map
    (frameAt block frame (frameCount frame block.length - 1) id endStream)

theorem pieces_wire {last : Nat} (id : Nat) (endStream : Bool) (covers : last * frame ≤ block.length)
    (ends : block.length ≤ (last + 1) * frame) (k : Nat) :
    piecesFrom (headOf frame block.length last id endStream) block frame last k =
      (List.range' k (last + 1 - k)).flatMap fun j => (frameAt block frame last id endStream j).wire := by
  unfold piecesFrom
  refine List.flatMap_congr fun j among => ?_
  obtain ⟨low, high⟩ := List.mem_range'_1.mp among
  exact head_wire id endStream covers ends (by omega)

theorem frame_block_wire {cells : Nat → Byte} {start : Nat} (id : Nat) (endStream : Bool)
    (positive : 0 < frame) (written : range cells (start + 9) block.length = block) :
    (∀ i < start, (frameBlock cells frame block.length start id endStream).1 i = cells i) ∧
      (frameBlock cells frame block.length start id endStream).2 = start + ((framesOf block frame id endStream).flatMap OutFrame.wire).length ∧
      range (frameBlock cells frame block.length start id endStream).1 start
        ((framesOf block frame id endStream).flatMap OutFrame.wire).length =
        (framesOf block frame id endStream).flatMap OutFrame.wire := by
  obtain ⟨last, count, covers, ends⟩ := @frame_count frame block.length positive
  have heads (k : Nat) : (headOf frame block.length last id endStream k).length = 9 := rfl
  have wires : (framesOf block frame id endStream).flatMap OutFrame.wire =
      piecesFrom (headOf frame block.length last id endStream) block frame last 0 := by
    unfold framesOf
    rw [count, List.flatMap_map, pieces_wire id endStream covers ends, Nat.add_sub_cancel, tsub_zero, List.range_eq_range']
  have length := pieces_length heads covers ends (last + 1) (le_refl _)
  rw [tsub_self, zero_mul, tsub_zero] at length
  obtain ⟨below, placed⟩ := spread_all heads covers ends written
  have firstHead : h2PutHeader (if last + 1 = 1 then block.length else frame) h2Headers
      ((if endStream = true then 1 else 0) + if last + 1 = 1 then 4 else 0) id = headOf frame block.length last id endStream 0 := by
    have flag : (if 0 = 0 ∧ endStream = true then 1 else 0) = if endStream = true then 1 else 0 := if_congr (by simp) rfl rfl
    unfold headOf
    rw [flag]
    by_cases only : last = 0
    · rw [only, if_pos rfl, if_pos rfl, if_pos rfl, if_pos rfl, if_pos rfl, zero_mul, tsub_zero]
    have several : ¬ last + 1 = 1 := by omega
    have notLast : ¬ 0 = last := by omega
    rw [if_neg several, if_neg several, if_neg notLast, if_neg notLast, if_pos rfl]
  have cellsFact : (frameBlock cells frame block.length start id endStream).1 =
      storedAll (spread (headOf frame block.length last id endStream) 9 frame block.length last start last cells) start
        (headOf frame block.length last id endStream 0) := by
    unfold frameBlock
    dsimp only
    rw [count, Nat.add_sub_cancel, make_room_spread frame block.length start last id endStream, firstHead]
  have lenFact : (frameBlock cells frame block.length start id endStream).2 = start + block.length + 9 * (last + 1) := by
    unfold frameBlock
    dsimp only
    rw [count]
  rw [wires, cellsFact, lenFact]
  exact ⟨below, by omega, placed⟩

theorem frames_length (block) (frame id : Nat) (endStream : Bool) :
    (framesOf block frame id endStream).length = frameCount frame block.length := by
  unfold framesOf
  rw [List.length_map, List.length_range]

theorem frames_carry (block) (id : Nat) (endStream : Bool) (positive : 0 < frame) :
    CarryBlock frame id endStream block (framesOf block frame id endStream) := by
  obtain ⟨last, count, covers, ends⟩ := @frame_count frame block.length positive
  have length := frames_length block frame id endStream
  rw [count] at length
  have each (k : Nat) (inside : k < (framesOf block frame id endStream).length) :
      (framesOf block frame id endStream).get ⟨k, inside⟩ = frameAt block frame last id endStream k := by
    simp only [framesOf, count, Nat.add_sub_cancel, List.get_eq_getElem, List.getElem_map, List.getElem_range]
  have among (f : OutFrame) (listed : f ∈ framesOf block frame id endStream) : ∃ k, f = frameAt block frame last id endStream k := by
    obtain ⟨k, rfl⟩ := List.mem_iff_get.mp listed
    exact ⟨k, each k.val k.isLt⟩
  refine ⟨?_, fun k inside => ?_, fun f listed => ?_, fun f listed => ?_, fun k inside => ?_, fun k inside => ?_, ?_⟩
  · intro empty
    rw [empty] at length
    cases length
  · rw [each]
    rfl
  · obtain ⟨k, rfl⟩ := among f listed
    rfl
  · obtain ⟨k, rfl⟩ := among f listed
    exact (List.length_take_le _ _)
  · rw [each, length]
    unfold OutFrame.endHeaders frameAt
    dsimp only
    by_cases isLast : k = last
    · rw [if_pos isLast, isLast]
      refine iff_of_true ?_ rfl
      split_ifs <;> rfl
    rw [if_neg isLast]
    refine iff_of_false ?_ (by omega)
    split_ifs <;> decide
  · rw [each]
    unfold OutFrame.endStream frameAt
    dsimp only
    by_cases first : k = 0 ∧ endStream = true
    · rw [if_pos first]
      split_ifs <;> simp [first]
    rw [if_neg first]
    split_ifs <;> simp [first]
  have payloads : (framesOf block frame id endStream).map OutFrame.payload = (List.range (last + 1)).map (pieceOf block frame) := by
    unfold framesOf
    rw [count, List.map_map]
    rfl
  rw [payloads, ← List.flatMap_def, pieces_joined, List.take_of_length_le ends]

structure Ready (c : Sender) : Prop where
  room : InRoom c.out
  enc : ∀ enc, c.enc = some enc → ∃ queue, Sound enc queue

def Encodes (enc : HpackEncoder) (fields : List (Field × Bool)) (block : List Byte) : Prop :=
  ∃ room next, Hpack.Encoder.hpackEncode (abstracted enc) fields room = .ok (block, next)

variable {c : Sender}

theorem block_encoder_sound (ready : Ready c) {made : Bool} {enc : HpackEncoder}
    (encoder : blockEncoder c made = some enc) : ∃ queue, Sound enc queue := by
  unfold blockEncoder at encoder
  cases there : c.enc with
  | some enc' =>
    rw [there] at encoder
    cases encoder
    exact ready.enc enc there
  | none =>
    rw [there] at encoder
    dsimp only at encoder
    split_ifs at encoder
    cases created : hpackEncoderCreate c.cfgTable with
    | error fault =>
      rw [created] at encoder
      cases encoder
    | ok fresh =>
      rw [created] at encoder
      have sound := sound_start created
      cases told : c.peerTable with
      | none =>
        rw [told] at encoder
        cases encoder
        exact ⟨[], sound⟩
      | some bytes =>
        rw [told] at encoder
        cases encoder
        exact sound_change sound bytes

theorem marked_short {headers : List Field} {limit : Nat} (small : ¬ limit < (headers.map fieldSize).sum) (word : limit < 2 ^ 32)
    (marks : Option (List Bool)) : ∀ header ∈ marked headers marks, Short header := by
  intro header among
  obtain ⟨⟨field, i⟩, listed, rfl⟩ := List.mem_map.mp among
  have inList : field ∈ headers := List.fst_mem_of_mem_zipIdx listed
  have bounded : fieldSize field ≤ (headers.map fieldSize).sum := List.le_sum_of_mem (List.mem_map_of_mem inList)
  have size : fieldSize field = field.name.length + field.value.length + Hpack.Table.hpackEntryOverhead := rfl
  unfold Short
  dsimp only
  omega

def Framed (c : Sender) (id : Nat) (headers : List Field) (endStream : Bool) (marks : Option (List Bool)) (resources : Resources) : Prop :=
  ((h2cSendBlock c id headers endStream marks resources).2 ≠ none ∧
      pending (h2cSendBlock c id headers endStream marks resources).1.out = pending c.out) ∨
    ((h2cSendBlock c id headers endStream marks resources).2 = none ∧
      ∃ enc block frames, blockEncoder c resources.encoder = some enc ∧ Encodes enc (marked headers marks) block ∧
        CarryBlock c.peerFrame id endStream block frames ∧
        pending (h2cSendBlock c id headers endStream marks resources).1.out = pending c.out ++ frames.flatMap OutFrame.wire)

theorem send_block (ready : Ready c) (id : Nat) (headers : List Field) (endStream : Bool) (marks : Option (List Bool))
    (resources : Resources) :
    Framed c id headers endStream marks resources ∧ Ready (h2cSendBlock c id headers endStream marks resources).1 := by
  unfold Framed h2cSendBlock
  dsimp only
  by_cases large : c.peerList < (headers.map fieldSize).sum
  · rw [if_pos large]
    exact ⟨.inl ⟨Option.some_ne_none _, rfl⟩, ready⟩
  rw [if_neg large]
  cases encoder : blockEncoder c resources.encoder with
  | none => exact ⟨.inl ⟨Option.some_ne_none _, rfl⟩, ready⟩
  | some enc =>
    obtain ⟨queue, sound⟩ := block_encoder_sound ready encoder
    have short := marked_short large c.listRange marks
    dsimp only
    obtain ⟨kept, enough⟩ := reserve_kept ready.room
      (hpackEncodeBound (marked headers marks) + 9 * (hpackEncodeBound (marked headers marks) / c.peerFrame + 1)) resources.buffer
    generalize h2cOutReserve c.out
      (hpackEncodeBound (marked headers marks) + 9 * (hpackEncodeBound (marked headers marks) / c.peerFrame + 1))
      resources.buffer = reserved at kept enough ⊢
    obtain ⟨out, made⟩ := reserved
    dsimp only at kept enough ⊢
    have inRoom := kept.room
    cases made with
    | false =>
      refine ⟨.inl ⟨Option.some_ne_none _, kept.pending⟩, inRoom, fun enc' same => ?_⟩
      cases same
      exact ⟨queue, sound⟩
    | true =>
      dsimp only
      have positive : 0 < c.peerFrame := lt_of_lt_of_le (by decide) c.frameRange.1
      rcases encode_sound sound (marked headers marks) short out.cap out.cells (out.len + 9) resources.table with
        ⟨err, failed⟩ | ⟨⟨block, next, whole⟩, _⟩
      · rw [failed]
        refine ⟨.inl ⟨Option.some_ne_none _, kept.pending⟩, inRoom, fun enc' same => ?_⟩
        cases same
        exact ⟨queue, sound⟩
      have soundAfter := sound_after sound (.encode (marked headers marks) out.cap out.cells (out.len + 9) resources.table)
      rw [after] at soundAfter
      generalize hpackEncode enc (marked headers marks) out.cap out.cells (out.len + 9) resources.table = done at *
      have length : done.len - out.len - 9 = block.length := by
        rw [whole.place]
        omega
      obtain ⟨below, placed, wires⟩ := frame_block_wire id endStream positive whole.written
      rw [whole.err, length]
      dsimp only
      have bound := whole.bound
      have room := whole.room
      have carry := frames_carry block id endStream positive
      have size : (frameBlock done.cells c.peerFrame block.length out.len id endStream).2 =
          out.len + block.length + 9 * frameCount c.peerFrame block.length := rfl
      have fits : frameCount c.peerFrame block.length ≤ hpackEncodeBound (marked headers marks) / c.peerFrame + 1 := by
        obtain ⟨last, count, covers, _⟩ := @frame_count c.peerFrame block.length positive
        rw [count]
        exact Nat.succ_le_succ ((Nat.le_div_iff_mul_le positive).mpr (covers.trans bound))
      generalize framesOf block c.peerFrame id endStream = frames at *
      generalize frameBlock done.cells c.peerFrame block.length out.len id endStream = framed at *
      obtain ⟨cells, len⟩ := framed
      dsimp only at below placed wires size ⊢
      have low := inRoom.off
      have high := inRoom.len
      have roomFor := enough rfl
      refine ⟨.inr ⟨rfl, enc, block, frames, rfl, ⟨_, _, whole.encoded⟩, carry, ?_⟩, ⟨?_, ?_⟩, fun enc' same => ?_⟩
      · rw [← kept.pending]
        unfold pending
        dsimp only
        have parts := @range_append _ cells out.off (out.len - out.off) (frames.flatMap OutFrame.wire).length
        rw [show out.off + (out.len - out.off) = out.len by omega, wires] at parts
        rw [placed, show out.len + (frames.flatMap OutFrame.wire).length - out.off =
          out.len - out.off + (frames.flatMap OutFrame.wire).length by omega, parts]
        congr 1
        refine range_eq fun i inside => ?_
        rw [below _ (by omega), whole.outside _ (.inl (by omega))]
      · show out.off ≤ len
        omega
      · show len ≤ out.cap
        omega
      · cases same
        exact soundAfter

inductive Step where
  | block (id : Nat) (headers : List Field) (endStream : Bool) (marks : Option (List Bool)) (resources : Resources)
  | frame (bytes : List Byte) (memory : Option (Nat → Byte))
  | sent (n : Nat) (idle : Bool)
  | peerTable (bytes : Nat)
  | peerFrame (value : Nat) (valid : h2MinMaxFrameSize ≤ value ∧ value ≤ h2MaxMaxFrameSize)
  | peerList (value : Nat) (valid : value < 2 ^ 32)

def queueFrame (b : OutBuffer) (bytes : List Byte) (memory : Option (Nat → Byte)) : OutBuffer :=
  match h2cOutReserve b bytes.length memory with
  | (b, true) => { b with cells := storedAll b.cells b.len bytes, len := b.len + bytes.length }
  | (b, false) => b

/-- `proven_h2_conn_output_sent`; with no stream open the buffer goes back. -/
def outputSent (b : OutBuffer) (n : Nat) (idle : Bool) : OutBuffer :=
  let off := b.off + min n (b.len - b.off)
  if off = b.len then { b with off := 0, len := 0, cap := if idle then 0 else b.cap } else { b with off := off }

def afterStep (c : Sender) : Step → Sender
  | .block id headers endStream marks resources => (h2cSendBlock c id headers endStream marks resources).1
  | .frame bytes memory => { c with out := queueFrame c.out bytes memory }
  | .sent n idle => { c with out := outputSent c.out n idle }
  | .peerTable bytes => { c with peerTable := some bytes, enc := c.enc.map (hpackEncoderSetPeerTableBytes · bytes) }
  | .peerFrame value valid => { c with peerFrame := value, frameRange := valid }
  | .peerList value valid => { c with peerList := value, listRange := valid }

def made (cfgTable : Nat) : Sender where
  out := ⟨fun _ => 0, 0, 0, 0⟩
  enc := none
  cfgTable := cfgTable
  peerTable := none
  peerFrame := h2MinMaxFrameSize
  peerList := 0xffffffff
  frameRange := by decide
  listRange := by decide

theorem made_ready (cfgTable : Nat) : Ready (made cfgTable) :=
  ⟨⟨le_refl 0, le_refl 0⟩, fun _ wrong => by cases wrong⟩

theorem queue_room (room : InRoom b) (bytes : List Byte) (memory : Option (Nat → Byte)) :
    InRoom (queueFrame b bytes memory) := by
  obtain ⟨kept, enough⟩ := reserve_kept room bytes.length memory
  unfold queueFrame
  generalize h2cOutReserve b bytes.length memory = reserved at *
  obtain ⟨out, fits⟩ := reserved
  dsimp only at kept enough
  have inRoom := kept.room
  cases fits with
  | false => exact inRoom
  | true =>
    have low := inRoom.off
    have high := inRoom.len
    have roomFor := enough rfl
    refine ⟨?_, ?_⟩
    · show out.off ≤ out.len + bytes.length
      omega
    show out.len + bytes.length ≤ out.cap
    omega

theorem sent_room (room : InRoom b) (n : Nat) (idle : Bool) : InRoom (outputSent b n idle) := by
  have low := room.off
  unfold outputSent
  dsimp only
  split_ifs
  · exact ⟨Nat.le_refl 0, Nat.zero_le _⟩
  · exact ⟨Nat.le_refl 0, Nat.zero_le _⟩
  · exact ⟨show b.off + min n (b.len - b.off) ≤ b.len by omega, room.len⟩

theorem step_ready (ready : Ready c) (step : Step) : Ready (afterStep c step) := by
  cases step with
  | block id headers endStream marks resources => exact (send_block ready id headers endStream marks resources).2
  | frame bytes memory => exact ⟨queue_room ready.room bytes memory, ready.enc⟩
  | sent n idle => exact ⟨sent_room ready.room n idle, ready.enc⟩
  | peerTable bytes =>
    refine ⟨ready.room, fun enc same => ?_⟩
    obtain ⟨enc', there, rfl⟩ := Option.map_eq_some_iff.mp same
    obtain ⟨queue, sound⟩ := ready.enc enc' there
    exact sound_change sound bytes
  | peerFrame | peerList => exact ⟨ready.room, ready.enc⟩

theorem run_ready (ready : Ready c) (steps : List Step) : Ready (steps.foldl afterStep c) := by
  induction steps generalizing c with
  | nil => exact ready
  | cons step steps ih => exact ih (step_ready ready step)

end ProvenC.H2.BlockFraming
