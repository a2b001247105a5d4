import ProvenC.Quic.Sides

/-!
# Streams that are opened

A stream is opened with a number no stream had before, by this side one at a time, by the peer
with all those below it of its kind. What is opened is new, and nothing else changes.
-/

namespace ProvenC.Quic.Opening

open List Function Bytes Quic.Queues Quic.Streams Quic.Frames Quic.Calls
open Quic.Sides Lib.Slots

def Used (c : QuicConn) (id : Nat) : Prop :=
  id / 4 < if idLocal c id then c.localOpened (idKind id) else c.peerOpened (idKind id)

/-- `fresh` were opened, and nothing else changed. -/
structure Opened (c after : QuicConn) (fresh : List QStream) : Prop where
  streams : after.streams = c.streams ++ fresh
  new : ∀ s ∈ fresh, s = { streamNew c s.id with evOpened := s.evOpened }
  unused : ∀ s ∈ fresh, ¬ Used c s.id
  used : ∀ s ∈ fresh, Used after s.id
  unique : (fresh.map QStream.id).Nodup
  keeps : ∀ id, Used c id → Used after id
  rest : after = { c with streams := after.streams, peerOpened := after.peerOpened, localOpened := after.localOpened }

theorem opened_none (c) : Opened c c [] :=
  { streams := (append_nil _).symm
    new := fun _ member => absurd member not_mem_nil
    unused := fun _ member => absurd member not_mem_nil
    used := fun _ member => absurd member not_mem_nil
    unique := nodup_nil
    keeps := fun _ used => used
    rest := rfl }

variable {c : QuicConn}

theorem stream_new_same {after : QuicConn}
    (rest : after = { c with streams := after.streams, peerOpened := after.peerOpened, localOpened := after.localOpened })
    (id : Nat) : streamNew after id = streamNew c id := by
  rw [rest]
  rfl

theorem opened_append {middle after : QuicConn} {first second : List QStream} (one : Opened c middle first)
    (two : Opened middle after second) : Opened c after (first ++ second) := by
  refine
    { streams := ?_, new := ?_, unused := ?_, used := ?_, unique := ?_
      keeps := fun id used => two.keeps id (one.keeps id used), rest := ?_ }
  · rw [two.streams, one.streams, append_assoc]
  · intro s member
    rcases mem_append.mp member with before | later
    · exact one.new s before
    rw [← stream_new_same one.rest]
    exact two.new s later
  · intro s member
    rcases mem_append.mp member with before | later
    · exact one.unused s before
    · exact fun used => two.unused s later (one.keeps _ used)
  · intro s member
    rcases mem_append.mp member with before | later
    · exact two.keeps _ (one.used s before)
    · exact two.used s later
  · rw [map_append, nodup_append]
    refine ⟨one.unique, two.unique, ?_⟩
    rintro id before other later rfl
    obtain ⟨s, inFirst, rfl⟩ := mem_map.mp before
    obtain ⟨t, inSecond, same⟩ := mem_map.mp later
    exact two.unused t inSecond (same ▸ one.used s inFirst)
  · rw [two.rest, one.rest]

theorem kind_of_next (id i : Nat) : idKind (4 * i + id % 4) = idKind id := by
  unfold idKind
  rw [show (4 * i + id % 4) / 2 % 2 = id / 2 % 2 by omega]

theorem local_of_next (c) (id i : Nat) : idLocal c (4 * i + id % 4) = idLocal c id := by
  unfold idLocal
  rw [show (4 * i + id % 4) % 2 = id % 2 by omega]

theorem peer_open_spec {id : Nat} (theirs : idLocal c id = false) :
    Opened c (peerOpen c id) [{ streamNew c (4 * c.peerOpened (idKind id) + id % 4) with evOpened := true }] := by
  have number : (4 * c.peerOpened (idKind id) + id % 4) / 4 = c.peerOpened (idKind id) := by omega
  have side : idLocal (peerOpen c id) = idLocal c := rfl
  refine
    { streams := rfl, new := ?_, unused := ?_, used := ?_, unique := by simp, keeps := ?_, rest := rfl }
  · intro s member
    cases mem_singleton.mp member
    rfl
  · intro s member
    cases mem_singleton.mp member
    show ¬ Used c (4 * c.peerOpened (idKind id) + id % 4)
    unfold Used
    rw [number, local_of_next, theirs, kind_of_next]
    simp
  · intro s member
    cases mem_singleton.mp member
    show Used (peerOpen c id) (4 * c.peerOpened (idKind id) + id % 4)
    unfold Used
    rw [number, side, local_of_next, theirs, kind_of_next]
    simp [peerOpen]
  intro other used
  unfold Used at used ⊢
  rw [side]
  split
  · rwa [if_pos ‹_›] at used
  rw [if_neg ‹_›] at used
  show other / 4 < Function.update c.peerOpened (idKind id) (c.peerOpened (idKind id) + 1) (idKind other)
  by_cases same : idKind other = idKind id
  · rw [same] at used ⊢
    rw [update_self]
    omega
  · rwa [update_of_ne same]

theorem peer_opens_spec {id : Nat} (theirs : idLocal c id = false) (n : Nat) :
    ∃ fresh, Opened c (peerOpens id n c) fresh ∧
      (peerOpens id n c).peerOpened (idKind id) = c.peerOpened (idKind id) + n ∧
      ∀ i, c.peerOpened (idKind id) ≤ i → i < c.peerOpened (idKind id) + n → ∃ s ∈ fresh, s.id = 4 * i + id % 4 := by
  induction n generalizing c with
  | zero => exact ⟨[], opened_none c, rfl, fun i low high => absurd high (by omega)⟩
  | succ n ih =>
    have one := peer_open_spec theirs
    have next : (peerOpen c id).peerOpened (idKind id) = c.peerOpened (idKind id) + 1 := by simp [peerOpen]
    obtain ⟨fresh, opened, count, all⟩ := @ih (peerOpen c id) theirs
    rw [next] at count all
    refine ⟨_, opened_append one opened, by rw [peerOpens, count]; omega, fun i low high => ?_⟩
    by_cases first : i = c.peerOpened (idKind id)
    · exact ⟨_, mem_append_left _ (mem_singleton.mpr rfl), by rw [first]; rfl⟩
    obtain ⟨s, member, here⟩ := all i (by omega) (by omega)
    exact ⟨s, mem_append_right _ member, here⟩

inductive ForPeer (c : QuicConn) (id : Nat) : QuicConn × Except TransportError (Option QStream) → Prop where
  | found (s : QStream) (here : streamFind c id = some s) : ForPeer c id (c, .ok (some s))
  | ended (absent : streamFind c id = none) (used : Used c id) : ForPeer c id (c, .ok none)
  | refused (error : TransportError) (absent : streamFind c id = none) : ForPeer c id (c, .error error)
  | opened (after : QuicConn) (s : QStream) (fresh : List QStream) (absent : streamFind c id = none)
      (unused : ¬ Used c id) (opens : Opened c after fresh) (member : s ∈ fresh) (here : streamFind after id = some s) :
      ForPeer c id (after, .ok (some s))

theorem for_peer_spec (c) (id : Nat) : ForPeer c id (streamForPeer c id) := by
  unfold streamForPeer
  split
  next s here =>
    exact .found s here
  rename_i absent
  dsimp only
  split
  next ours =>
    split
    · exact .refused _ absent
    rename_i opened
    refine .ended absent ?_
    unfold Used
    rw [if_pos ours]
    omega
  rename_i theirs
  rw [Bool.not_eq_true] at theirs
  split
  · exact .refused _ absent
  split
  next opened =>
    refine .ended absent ?_
    unfold Used
    rwa [theirs, if_neg Bool.false_ne_true]
  rename_i unopened
  obtain ⟨fresh, opens, _, all⟩ := peer_opens_spec theirs (id / 4 + 1 - c.peerOpened (idKind id))
  obtain ⟨s, member, here⟩ := all (id / 4) (by omega) (by omega)
  have number : s.id = id := by omega
  have present : s ∈ (peerOpens id (id / 4 + 1 - c.peerOpened (idKind id)) c).streams := by
    rw [opens.streams]
    exact mem_append_right _ member
  have some_ := (find_isSome QStream.id).mpr ⟨s, present, number⟩
  obtain ⟨t, found⟩ := Option.isSome_iff_exists.mp some_
  have unused : ¬ Used c id := by
    unfold Used
    rw [theirs, if_neg Bool.false_ne_true]
    omega
  have inFresh : t ∈ fresh := by
    obtain ⟨inside, sameId⟩ := find_mem QStream.id found
    rw [opens.streams] at inside
    rcases mem_append.mp inside with before | later
    · exact absurd sameId ((find_none QStream.id).mp absent t before)
    · exact later
  have shown : streamFind (peerOpens id (id / 4 + 1 - c.peerOpened (idKind id)) c) id = some t := found
  rw [shown]
  exact .opened _ t fresh absent unused opens inFresh shown

theorem for_peer_of {c : QuicConn} {id : Nat} {result : QuicConn × Except TransportError (Option QStream)}
    (reached : streamForPeer c id = result) : ForPeer c id result :=
  reached ▸ for_peer_spec c id

def frameStream : Frame → Option Nat
  | .stream id _ _ _ | .resetStream id _ _ | .stopSending id _ | .maxStreamData id _ | .streamDataBlocked id => some id
  | .maxData _ | .maxStreams _ _ => none

/-- What a frame does to the stream it reached. -/
def frameTakes (junk : Nat → Byte) (f : Frame) (c : QuicConn) (s : QStream) : QuicConn × Option TransportError :=
  match f with
  | .stream _ off data fin => streamTake junk c s off data fin
  | .resetStream _ code finalSize => resetTake c s code finalSize
  | .stopSending _ code => (stopTake c s code, none)
  | .maxStreamData _ value => (raiseTxMax c s value, none)
  | _ => (c, none)

inductive FrameRun (junk : Nat → Byte) (c : QuicConn) : Frame → QuicConn × Option TransportError → Prop where
  | refused {f : Frame} (error : TransportError) : FrameRun junk c f (c, some error)
  | left {f : Frame} {id : Nat} {after : QuicConn} {found : Except TransportError (Option QStream)}
      (reached : streamForPeer c id = (after, found)) (result : Option TransportError) : FrameRun junk c f (after, result)
  | took {f : Frame} {id : Nat} {after : QuicConn} {s : QStream} (names : frameStream f = some id)
      (reached : streamForPeer c id = (after, .ok (some s))) : FrameRun junk c f (frameTakes junk f after s)
  | data (value : Nat) : FrameRun junk c (.maxData value) ({ c with txMaxData := max c.txMaxData value }, none)
  | streams (kind : StreamKind) (value : Nat) : FrameRun junk c (.maxStreams kind value)
      ({ c with peerMaxStreams := update c.peerMaxStreams kind (max (c.peerMaxStreams kind) value) }, none)

theorem frame_run (junk : Nat → Byte) (c) (f : Frame) : FrameRun junk c f (onFrame junk c f) := by
  cases f with
  | maxData value => exact .data value
  | maxStreams kind value => exact .streams kind value
  | stream | resetStream | stopSending | maxStreamData | streamDataBlocked =>
    simp only [onFrame, onStream, onResetStream, onStopSending, onMaxStreamData, onStreamDataBlocked]
    split
    · exact .refused _
    split
    all_goals
      rename_i reached
      first | exact .took rfl reached | exact .left reached _

theorem stream_open_spec {after : QuicConn} {k : StreamKind} {id : Nat} (opened : streamOpen c k = some (after, id)) :
    Opened c after [streamNew c id] ∧ idKind id = k ∧ id / 4 = c.localOpened k ∧
      c.localOpened k < c.peerMaxStreams k ∧ idLocal c id = true := by
  unfold streamOpen at opened
  split at opened
  · cases opened
  split at opened
  · cases opened
  rename_i below
  cases opened
  generalize number : 4 * c.localOpened k + (if k = .uni then 2 else 0) + (if c.server then 1 else 0) = id
  have kind : idKind id = k := by
    unfold idKind
    cases k <;> split <;> simp_all <;> split at number <;> omega
  have ours : idLocal c id = true := by
    unfold idLocal
    rw [beq_iff_eq]
    split <;> simp_all <;> split at number <;> omega
  have place : id / 4 = c.localOpened k := by
    split at number <;> split at number <;> omega
  refine ⟨?_, kind, place, by omega, ours⟩
  refine
    { streams := rfl, new := ?_, unused := ?_, used := ?_, unique := by simp, keeps := ?_, rest := rfl }
  · intro s member
    cases mem_singleton.mp member
    rfl
  · intro s member
    cases mem_singleton.mp member
    show ¬ Used c id
    unfold Used
    rw [if_pos ours, kind, place]
    omega
  · intro s member
    cases mem_singleton.mp member
    show id / 4 < if idLocal c id = true then
      Function.update c.localOpened k (c.localOpened k + 1) (idKind id) else c.peerOpened (idKind id)
    rw [if_pos ours, kind, place, update_self]
    omega
  intro other used
  unfold Used at used
  show other / 4 < if idLocal c other = true then
    Function.update c.localOpened k (c.localOpened k + 1) (idKind other) else c.peerOpened (idKind other)
  split
  · rw [if_pos ‹_›] at used
    by_cases same : idKind other = k
    · rw [same] at used ⊢
      rw [update_self]
      omega
    · rwa [update_of_ne same]
  · rwa [if_neg ‹_›] at used

structure Table (c : QuicConn) : Prop where
  unique : (c.streams.map QStream.id).Nodup
  used : ∀ s ∈ c.streams, Used c s.id

theorem used_calm {Part : Type} {part : QStream → Part} {after : QuicConn} (calm : Calm part c after) (id : Nat) :
    Used after id ↔ Used c id := by
  have side : idLocal after id = idLocal c id := by
    unfold idLocal
    rw [calm.server]
  unfold Used
  rw [side, calm.localOpened, calm.peerOpened]

theorem table_calm {after : QuicConn} (table : Table c) (calm : Calm QStream.id c after) : Table after := by
  refine ⟨calm_unique calm table.unique, fun s member => ?_⟩
  obtain ⟨before, inTable, same⟩ := calm_mem calm member
  rw [used_calm calm, ← same]
  exact table.used before inTable

theorem table_opened {after : QuicConn} {fresh : List QStream} (table : Table c) (opens : Opened c after fresh) :
    Table after := by
  constructor
  · rw [opens.streams, map_append, nodup_append]
    refine ⟨table.unique, opens.unique, ?_⟩
    rintro id before other later rfl
    obtain ⟨s, inTable, rfl⟩ := mem_map.mp before
    obtain ⟨t, inFresh, same⟩ := mem_map.mp later
    exact opens.unused t inFresh (same ▸ table.used s inTable)
  intro s member
  rw [opens.streams] at member
  rcases mem_append.mp member with before | later
  · exact opens.keeps _ (table.used s before)
  · exact opens.used s later

end ProvenC.Quic.Opening
