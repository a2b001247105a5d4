import ProvenC.Quic.Records

/-!
# What is sent stays within what was granted

The bytes a connection puts in stream frames, each counted once however often it is sent, against
the largest limits its peer ever granted: by frames, by transport parameters, or by those a
client's session remembers.
-/

namespace ProvenC.Quic.Limits

open List Function Bytes Quic.RangeSet Quic.Queues Quic.Streams Quic.Frames
open Quic.Calls Quic.Sending Quic.Sides Quic.Opening Quic.Accounts
open Quic.Records Lib.Slots Lib.Runs

def peerLimit (ours : Bool) (tp : PeerParams) (id : Nat) : Nat :=
  if idKind id = .uni then tp.initialMaxStreamDataUni
  else if ours then tp.initialMaxStreamDataBidiRemote
  else tp.initialMaxStreamDataBidiLocal

def paramStreams (tp : PeerParams) : StreamKind → Nat
  | .bidi => tp.initialMaxStreamsBidi
  | .uni => tp.initialMaxStreamsUni

def dataGrant : Seen → Nat
  | .took (.maxData value) => value
  | .limits tp => tp.initialMaxData
  | _ => 0

def streamGrant (ours : Bool) (id : Nat) : Seen → Nat
  | .took (.maxStreamData i value) => if i = id then value else 0
  | .limits tp => peerLimit ours tp id
  | _ => 0

def streamsGrant (k : StreamKind) : Seen → Nat
  | .took (.maxStreams kind value) => if kind = k then value else 0
  | .limits tp => paramStreams tp k
  | _ => 0

def largest (grant : Seen → Nat) : List Seen → Nat
  | [] => 0
  | e :: seen => max (grant e) (largest grant seen)

def frameBytes (f : FrameRec) : Finset (Nat × Nat) :=
  if f.kind = .stream then (Finset.Ico f.off (f.off + f.len)).image (Prod.mk f.id) else ∅

def sentBytes : List Seen → Finset (Nat × Nat)
  | [] => ∅
  | .sent _ f :: seen => frameBytes f ∪ sentBytes seen
  | _ :: seen => sentBytes seen

theorem largest_append (grant : Seen → Nat) (first second : List Seen) :
    largest grant (first ++ second) = max (largest grant first) (largest grant second) := by
  induction first with
  | nil => simp [largest]
  | cons e first ih => rw [cons_append, largest, largest, ih, max_assoc]

theorem largest_mem {grant : Seen → Nat} {e : Seen} {seen : List Seen} (member : e ∈ seen) :
    grant e ≤ largest grant seen := by
  induction seen with
  | nil => cases member
  | cons other seen ih =>
    rcases mem_cons.mp member with rfl | later
    · exact le_max_left _ _
    · exact (ih later).trans (le_max_right _ _)

theorem largest_grows (grant : Seen → Nat) (first second : List Seen) :
    largest grant first ≤ largest grant (first ++ second) := by
  rw [largest_append]
  exact le_max_left _ _

theorem sent_append (first second : List Seen) : sentBytes (first ++ second) = sentBytes first ∪ sentBytes second := by
  induction first with
  | nil => simp [sentBytes]
  | cons e first ih => cases e <;> simp [sentBytes, ih, Finset.union_assoc]

theorem mem_frame_bytes {f : FrameRec} {id n : Nat} :
    (id, n) ∈ frameBytes f ↔ f.kind = .stream ∧ f.id = id ∧ f.off ≤ n ∧ n < f.off + f.len := by
  unfold frameBytes
  split
  next kind =>
    simp only [Finset.mem_image, Finset.mem_Ico, Prod.mk.injEq]
    constructor
    · rintro ⟨m, inside, same, rfl⟩
      exact ⟨kind, same, inside.1, inside.2⟩
    rintro ⟨_, same, low, high⟩
    exact ⟨n, ⟨low, high⟩, same, rfl⟩
  rename_i other
  simp [other]

def Silent (seen : List Seen) : Prop := sentBytes seen = ∅

structure Mark where
  id : Nat
  isLocal : Bool
  next : Nat
  txMax : Nat

def mark (s : QStream) : Mark := { id := s.id, isLocal := s.isLocal, next := s.tx.next, txMax := s.txMax }

structure Meter where
  zrOk : Bool
  zrDone : Bool
  peerTp : PeerParams
  txMaxData : Nat
  txData : Nat
  peerMaxStreams : StreamKind → Nat

def meter (c : QuicConn) : Meter :=
  { zrOk := c.zrOk, zrDone := c.zrDone, peerTp := c.peerTp, txMaxData := c.txMaxData, txData := c.txData
    peerMaxStreams := c.peerMaxStreams }

structure Quiet (c after : QuicConn) : Prop where
  calm : Calm mark c after
  meter : meter after = meter c
  state : after.state.live = true → after.state = c.state

theorem quiet_refl (c) : Quiet c c := ⟨calm_refl c, rfl, fun _ => rfl⟩

variable {c : QuicConn}

theorem quiet_trans {middle after : QuicConn} (first : Quiet c middle) (second : Quiet middle after) : Quiet c after := by
  refine ⟨calm_trans first.calm second.calm, second.meter.trans first.meter, fun live => ?_⟩
  have same := second.state live
  rw [same] at live ⊢
  exact first.state live

theorem quiet_fold {Item : Type} {f : QuicConn → Item → QuicConn} (quiet : ∀ c item, Quiet c (f c item))
    (items : List Item) (c : QuicConn) : Quiet c (items.foldl f c) := by
  induction items generalizing c with
  | nil => exact quiet_refl c
  | cons item items ih => exact quiet_trans (quiet c item) (ih _)

theorem quiet_account {Part : Type} {part : Space → Part} {c after : QuicConn} (calm : Calm mark c after)
    (account : sendAccount part after = sendAccount part c) : Quiet c after := by
  have same : meter after = meter c := by
    show Meter.mk (sendAccount part after).zrOk (sendAccount part after).zrDone (sendAccount part after).peerTp
        (sendAccount part after).txMaxData (sendAccount part after).txData (sendAccount part after).peerMaxStreams = meter c
    rw [account]
    rfl
  have state : after.state = c.state := congrArg SendAccount.state account
  exact ⟨calm, same, fun _ => state⟩

theorem mark_of_tx {after : QuicConn} (calm : Calm txPart c after) : Calm mark c after :=
  calm_map calm fun part => { id := part.id, isLocal := part.isLocal, next := part.tx.next, txMax := part.txMax : Mark }

theorem quiet_fail (c) (error : TransportError) : Quiet c (connFail c error) := by
  refine ⟨calm_fail c error, ?_, ?_⟩
  all_goals unfold connFail
  · split <;> rfl
  split
  · intro live
    cases live
  · exact fun _ => rfl

theorem quiet_space (c) (lvl : Level) (change : Space → Space) : Quiet c (setSpace c lvl change) :=
  ⟨calm_space c lvl change, rfl, fun _ => rfl⟩

variable (lvl : Level)
include lvl

theorem mark_acked (c) (f : FrameRec) : Calm mark c (frameAcked lvl c f) := by
  unfold frameAcked
  split
  · exact calm_space _ _ _
  · split
    · exact calm_refl c
    rename_i s found
    split
    · exact calm_refl c
    refine calm_trans ?_ (calm_free _ _)
    have same : streamFind c s.id = some s := by
      rw [(find_mem QStream.id found).2]
      exact found
    refine ⟨?_, rfl, rfl, rfl⟩
    unfold streamAcked
    refine (List.Perm.of_eq (map_update_found QStream.id same ?_)).subperm
    simp [mark]
  · refine calm_trans ?_ (calm_free _ _)
    exact calm_set fun s => rfl
  · exact calm_refl c

theorem mark_lost (c) (f : FrameRec) : Calm mark c (frameLost lvl c f) := by
  unfold frameLost
  split
  · exact calm_space _ _ _
  · refine calm_set fun s => ?_
    split
    · rfl
    · simp [mark]
  · exact calm_set fun s => by split <;> rfl
  · exact calm_set fun s => by split <;> rfl
  · exact calm_same rfl rfl rfl rfl
  · exact calm_set fun s => by split <;> rfl
  · exact calm_same rfl rfl rfl rfl

theorem quiet_packet_acked (c) (p : SentPacket) : Quiet c (packetAcked lvl c p) :=
  quiet_fold (fun c f => quiet_account (mark_acked lvl c f) (account_frame_acked lvl c f)) p.frames c

theorem quiet_packet_lost (c) (p : SentPacket) : Quiet c (packetLost lvl c p) :=
  quiet_fold (fun c f => quiet_account (mark_lost lvl c f) (account_frame_lost lvl c f)) p.frames c

theorem quiet_keep (stays : SentPacket → Bool) (c : QuicConn) : Quiet c (keepSent lvl stays c) :=
  quiet_space c lvl _

theorem quiet_range (c) (range : Nat × Nat) : Quiet c (rangeAcked lvl c range) :=
  quiet_trans (quiet_fold (quiet_packet_acked lvl) _ c) (quiet_keep lvl _ _)

theorem quiet_ack (c) (largest : Nat) (ranges : List (Nat × Nat)) : Quiet c (onAck lvl c largest ranges).1 := by
  unfold onAck
  split
  · exact quiet_refl c
  · exact quiet_fold (quiet_range lvl) ranges c

theorem quiet_lost (c) (which : Nat → Bool) : Quiet c (detectLost lvl c which) :=
  quiet_trans (quiet_fold (quiet_packet_lost lvl) _ c) (quiet_keep lvl _ _)

theorem quiet_probe (c) : Quiet c (onProbe lvl c) := by
  have oldest : Quiet c (oldestLost lvl (probeOwed lvl c)) :=
    quiet_trans (quiet_space c lvl _) (quiet_fold (quiet_packet_lost lvl) _ _)
  unfold onProbe
  split
  · exact quiet_refl c
  split
  · exact oldest
  · exact quiet_trans oldest (quiet_space _ lvl _)

theorem quiet_discard (c) : Quiet c (spaceDiscard lvl c) := by
  unfold spaceDiscard
  split
  · exact quiet_refl c
  · exact quiet_space c lvl _

omit lvl

theorem quiet_zero_rtt (c) : Quiet c (zeroRttLost c) :=
  quiet_trans (quiet_fold (quiet_packet_lost .application) _ c) (quiet_keep .application _ _)

theorem mark_tx_reset (c) (s : QStream) (code : Nat) : Calm mark c (streamTxReset c s code) := by
  unfold streamTxReset
  split
  · exact calm_refl c
  · exact calm_update rfl (fun s => rfl) rfl rfl rfl

theorem quiet_stop_take (c) (s : QStream) (code : Nat) : Quiet c (stopTake c s code) := by
  refine @quiet_account _ Space.sent _ _ ?_ (account_stop_take c s code)
  unfold stopTake
  split
  · refine calm_trans (mark_tx_reset c s code) ?_
    exact calm_set fun s => rfl
  · exact calm_refl c

theorem quiet_reset (c) (id code : Nat) : Quiet c (streamReset c id code) := by
  refine @quiet_account _ Space.sent _ _ ?_ (account_reset c id code)
  unfold streamReset
  split
  · exact calm_refl c
  split
  · exact calm_refl c
  · exact mark_tx_reset c _ code

theorem quiet_write {junk : Nat → Byte} {after : QuicConn} {id : Nat} {data bytes : List Byte} {fin : Bool}
    (written : streamWrite junk c id data fin = some (after, bytes)) : Quiet c after := by
  refine @quiet_account _ Space.sent _ _ ?_ (account_write written)
  unfold streamWrite at written
  split at written
  · cases written
  split at written
  · cases written
  split at written
  · cases written
  rename_i s _ _
  generalize min data.length (txRoom c s) = n at written
  cases written
  refine calm_update rfl (fun s => ?_) rfl rfl rfl
  unfold mark
  split <;> rfl

/-- The bytes sent are those below each stream's `next`, and `tx_data` counts them. -/
structure Counted (c : QuicConn) (seen : List Seen) : Prop where
  side : ∀ s ∈ c.streams, s.isLocal = idLocal c s.id
  sent : ∀ s ∈ c.streams, ∀ n, (s.id, n) ∈ sentBytes seen ↔ n < s.tx.next
  used : ∀ place ∈ sentBytes seen, Used c place.1
  count : (sentBytes seen).card = c.txData
  data : c.txData ≤ largest dataGrant seen
  stream : ∀ place ∈ sentBytes seen, place.2 < largest (streamGrant (idLocal c place.1) place.1) seen
  opened : ∀ k, c.localOpened k ≤ largest (streamsGrant k) seen

structure TpGranted (tp : PeerParams) (seen : List Seen) : Prop where
  data : tp.initialMaxData ≤ largest dataGrant seen
  stream : ∀ ours id, peerLimit ours tp id ≤ largest (streamGrant ours id) seen
  streams : ∀ k, paramStreams tp k ≤ largest (streamsGrant k) seen

structure Granted (c : QuicConn) (seen : List Seen) : Prop where
  data : c.txMaxData ≤ largest dataGrant seen
  streams : ∀ k, c.peerMaxStreams k ≤ largest (streamsGrant k) seen
  tp : TpGranted c.peerTp seen
  each : ∀ s ∈ c.streams, s.txMax ≤ largest (streamGrant (idLocal c s.id) s.id) seen
  early : c.server = false → c.zrOk = false → c.zrDone = false → c.state ≠ .opened ∧ c.txData = 0

structure Fair (c : QuicConn) (seen : List Seen) : Prop where
  counted : Counted c seen
  granted : c.state.live = true → Granted c seen

def Unwrapped (c : QuicConn) : Prop := c.state.live = true → c.txData ≤ c.txMaxData

theorem side_of_calm {Part : Type} {part : QStream → Part} {after : QuicConn} (calm : Calm part c after) (id : Nat) :
    idLocal after id = idLocal c id := by
  unfold idLocal
  rw [calm.server]

theorem tp_granted_more {tp : PeerParams} {seen : List Seen} (granted : TpGranted tp seen) (more : List Seen) :
    TpGranted tp (seen ++ more) :=
  ⟨granted.data.trans (largest_grows _ _ _), fun ours id => (granted.stream ours id).trans (largest_grows _ _ _),
    fun k => (granted.streams k).trans (largest_grows _ _ _)⟩

theorem tp_granted_mem {tp : PeerParams} {seen : List Seen} (member : Seen.limits tp ∈ seen) : TpGranted tp seen :=
  ⟨@largest_mem dataGrant _ _ member, fun ours id => @largest_mem (streamGrant ours id) _ _ member,
    fun k => @largest_mem (streamsGrant k) _ _ member⟩

theorem fair_more {seen more : List Seen} (fair : Fair c seen) (silent : Silent more) : Fair c (seen ++ more) := by
  have bytes : sentBytes (seen ++ more) = sentBytes seen := by
    rw [sent_append, show sentBytes more = ∅ from silent, Finset.union_empty]
  have counted := fair.counted
  refine ⟨?_, fun live => ?_⟩
  · refine ⟨counted.side, ?_, ?_, ?_, counted.data.trans (largest_grows _ _ _), ?_,
      fun k => (counted.opened k).trans (largest_grows _ _ _)⟩
    · rw [bytes]
      exact counted.sent
    · rw [bytes]
      exact counted.used
    · rw [bytes]
      exact counted.count
    rw [bytes]
    exact fun place member => (counted.stream place member).trans_le (largest_grows _ _ _)
  have granted := fair.granted live
  exact ⟨granted.data.trans (largest_grows _ _ _), fun k => (granted.streams k).trans (largest_grows _ _ _),
    tp_granted_more granted.tp more, fun s member => (granted.each s member).trans (largest_grows _ _ _), granted.early⟩

def reach (s : QStream) : Nat × Bool × Nat := (s.id, s.isLocal, s.tx.next)

theorem reach_of_mark {after : QuicConn} (calm : Calm mark c after) : Calm reach c after :=
  calm_map calm fun m => (m.id, m.isLocal, m.next)

theorem counted_calm {after : QuicConn} {seen : List Seen} (counted : Counted c seen) (calm : Calm reach c after)
    (data : after.txData = c.txData) : Counted after seen := by
  refine ⟨fun s member => ?_, fun s member n => ?_, fun place member => ?_, ?_, ?_, fun place member => ?_, fun k => ?_⟩
  · obtain ⟨before, inTable, same⟩ := calm_mem calm member
    simp only [reach, Prod.mk.injEq] at same
    rw [← same.1, ← same.2.1, side_of_calm calm]
    exact counted.side before inTable
  · obtain ⟨before, inTable, same⟩ := calm_mem calm member
    simp only [reach, Prod.mk.injEq] at same
    rw [← same.1, ← same.2.2]
    exact counted.sent before inTable n
  · exact (used_calm calm _).mpr (counted.used place member)
  · rw [data]
    exact counted.count
  · rw [data]
    exact counted.data
  · rw [side_of_calm calm]
    exact counted.stream place member
  rw [calm.localOpened]
  exact counted.opened k

theorem fair_quiet {after : QuicConn} {seen : List Seen} (fair : Fair c seen) (quiet : Quiet c after) :
    Fair after seen := by
  have same := quiet.meter
  refine ⟨counted_calm fair.counted (reach_of_mark quiet.calm) (congrArg Meter.txData same), fun live => ?_⟩
  have state := quiet.state live
  have granted := fair.granted (state ▸ live)
  refine ⟨?_, fun k => ?_, ?_, fun s member => ?_, fun client ok done => ?_⟩
  · rw [show after.txMaxData = c.txMaxData from congrArg Meter.txMaxData same]
    exact granted.data
  · rw [show after.peerMaxStreams = c.peerMaxStreams from congrArg Meter.peerMaxStreams same]
    exact granted.streams k
  · rw [show after.peerTp = c.peerTp from congrArg Meter.peerTp same]
    exact granted.tp
  · obtain ⟨before, inTable, marks⟩ := calm_mem quiet.calm member
    simp only [mark, Mark.mk.injEq] at marks
    rw [side_of_calm quiet.calm, ← marks.1, ← marks.2.2.2]
    exact granted.each before inTable
  rw [state, show after.txData = c.txData from congrArg Meter.txData same]
  exact granted.early (quiet.calm.server ▸ client) ((congrArg Meter.zrOk same).symm.trans ok)
    ((congrArg Meter.zrDone same).symm.trans done)

theorem unwrapped_quiet {after : QuicConn} (unwrapped : Unwrapped c) (quiet : Quiet c after) : Unwrapped after := by
  intro live
  have state := quiet.state live
  rw [show after.txData = c.txData from congrArg Meter.txData quiet.meter,
    show after.txMaxData = c.txMaxData from congrArg Meter.txMaxData quiet.meter]
  exact unwrapped (state ▸ live)

theorem new_limit (c) (id : Nat) : (streamNew c id).txMax = peerLimit (idLocal c id) c.peerTp id := by
  unfold streamNew peerLimit
  simp only [beq_iff_eq]

theorem fair_opened {after : QuicConn} {fresh : List QStream} {seen : List Seen} (fair : Fair c seen)
    (opens : Opened c after fresh) (allowed : ∀ k, after.localOpened k ≤ largest (streamsGrant k) seen) :
    Fair after seen := by
  have counted := fair.counted
  have server : after.server = c.server := by
    rw [opens.rest]
  have side (id : Nat) : idLocal after id = idLocal c id := by
    unfold idLocal
    rw [server]
  have data : after.txData = c.txData := by
    rw [opens.rest]
  have member_cases {s : QStream} (member : s ∈ after.streams) : s ∈ c.streams ∨ s ∈ fresh := by
    rw [opens.streams] at member
    exact mem_append.mp member
  refine ⟨⟨fun s member => ?_, fun s member n => ?_, fun place member => ?_, ?_, ?_, fun place member => ?_, allowed⟩,
    fun live => ?_⟩
  · rw [side]
    rcases member_cases member with before | later
    · exact counted.side s before
    · exact congrArg QStream.isLocal (opens.new s later)
  · rcases member_cases member with before | later
    · exact counted.sent s before n
    have queue : s.tx = SendQ.empty := congrArg QStream.tx (opens.new s later)
    rw [queue]
    exact ⟨fun sent => absurd (counted.used _ sent) (opens.unused s later), fun below => absurd below (Nat.not_lt_zero n)⟩
  · exact opens.keeps _ (counted.used place member)
  · rw [data]
    exact counted.count
  · rw [data]
    exact counted.data
  · rw [side]
    exact counted.stream place member
  have state : after.state = c.state := by
    rw [opens.rest]
  have granted := fair.granted (state ▸ live)
  refine ⟨?_, fun k => ?_, ?_, fun s member => ?_, fun client ok done => ?_⟩
  · rw [opens.rest]
    exact granted.data
  · rw [opens.rest]
    exact granted.streams k
  · rw [opens.rest]
    exact granted.tp
  · rw [side]
    rcases member_cases member with before | later
    · exact granted.each s before
    have limit : s.txMax = peerLimit (idLocal c s.id) c.peerTp s.id :=
      (congrArg QStream.txMax (opens.new s later)).trans (new_limit c s.id)
    rw [limit]
    exact granted.tp.stream _ _
  rw [state, data]
  rw [server] at client
  rw [opens.rest] at ok done
  exact granted.early client ok done

theorem unwrapped_opened {after : QuicConn} {fresh : List QStream} (unwrapped : Unwrapped c) (opens : Opened c after fresh) :
    Unwrapped after := by
  rw [opens.rest]
  exact unwrapped

theorem peer_opens_local (id n : Nat) (c : QuicConn) : (peerOpens id n c).localOpened = c.localOpened := by
  induction n generalizing c with
  | zero => rfl
  | succ n ih => exact (ih _).trans rfl

theorem for_peer_local (c) (id : Nat) : (streamForPeer c id).1.localOpened = c.localOpened := by
  unfold streamForPeer
  split
  · rfl
  dsimp only
  repeat' split
  all_goals first | rfl | exact peer_opens_local _ _ c

theorem fair_for_peer {c : QuicConn} {id : Nat} {seen : List Seen} (fair : Fair c seen) (unwrapped : Unwrapped c) :
    Fair (streamForPeer c id).1 seen ∧ Unwrapped (streamForPeer c id).1 := by
  have same := for_peer_local c id
  have spec := for_peer_spec c id
  generalize streamForPeer c id = result at same spec
  cases spec with
  | found | ended | refused => exact ⟨fair, unwrapped⟩
  | opened after s fresh _ _ opens _ _ =>
    refine ⟨fair_opened fair opens fun k => ?_, unwrapped_opened unwrapped opens⟩
    rw [show after.localOpened = c.localOpened from same]
    exact fair.counted.opened k

theorem fair_raise {seen : List Seen} (fair : Fair c seen) (s : QStream) {value : Nat}
    (granted : ∀ ours, value ≤ largest (streamGrant ours s.id) seen) : Fair (raiseTxMax c s value) seen := by
  unfold raiseTxMax
  split
  · have calm : Calm reach c (setStream c s.id fun s => { s with txMax := value, evWritable := true }) :=
      calm_set fun s => rfl
    refine ⟨counted_calm fair.counted calm rfl, fun live => ?_⟩
    have before := fair.granted live
    refine ⟨before.data, before.streams, before.tp, ?_, before.early⟩
    refine forall_update QStream.id before.each fun t found _ => ?_
    rw [(find_mem QStream.id found).2]
    exact granted _
  · exact fair

theorem silent_took (f : Frame) : Silent [.took f] := rfl

theorem silent_refused (error : TransportError) : Silent [.refused error] := rfl

theorem fair_frame {seen : List Seen} (fair : Fair c seen) (unwrapped : Unwrapped c) (junk : Nat → Byte) (f : Frame) :
    ((onFrame junk c f).2 = none → Fair (onFrame junk c f).1 (seen ++ [.took f])) ∧
      ((onFrame junk c f).2 ≠ none → Fair (onFrame junk c f).1 seen) ∧ Unwrapped (onFrame junk c f).1 := by
  have took {after : QuicConn} (fair : Fair after seen) : Fair after (seen ++ [.took f]) := fair_more fair (silent_took f)
  have quiet {after : QuicConn} (result : Option TransportError) {middle : QuicConn}
      (known : Fair middle seen ∧ Unwrapped middle) (leaves : Quiet middle after) :
      (result = none → Fair after (seen ++ [.took f])) ∧ (result ≠ none → Fair after seen) ∧ Unwrapped after := by
    have kept := fair_quiet known.1 leaves
    exact ⟨fun _ => took kept, fun _ => kept, unwrapped_quiet known.2 leaves⟩
  have reaches {id : Nat} {after : QuicConn} {found : Except TransportError (Option QStream)}
      (reached : streamForPeer c id = (after, found)) : Fair after seen ∧ Unwrapped after := by
    have spec := @fair_for_peer c id seen fair unwrapped
    rwa [reached] at spec
  have run := frame_run junk c f
  generalize onFrame junk c f = result at run
  cases run with
  | refused => exact quiet _ ⟨fair, unwrapped⟩ (quiet_refl c)
  | left reached => exact quiet _ (reaches reached) (quiet_refl _)
  | @took _ id after s names reached =>
    have known := reaches reached
    cases f with
    | stream _ off data fin =>
      exact quiet _ known (@quiet_account _ Space.sent _ _ (mark_of_tx (tx_calm_take junk after s off data fin))
        (account_take junk after s off data fin))
    | resetStream _ code finalSize =>
      exact quiet _ known (@quiet_account _ Space.sent _ _ (mark_of_tx (tx_calm_reset_take after s code finalSize))
        (account_reset_take after s code finalSize))
    | stopSending _ code => exact quiet _ known (quiet_stop_take after s code)
    | streamDataBlocked => exact quiet _ known (quiet_refl _)
    | maxData | maxStreams => cases names
    | maxStreamData named value =>
      have same : s.id = named := by
        cases names
        cases for_peer_of reached with
        | found _ here => exact (find_mem QStream.id here).2
        | opened _ _ _ _ _ _ _ here => exact (find_mem QStream.id here).2
      refine ⟨fun _ => fair_raise (took known.1) s fun ours => ?_, fun refused => absurd rfl refused, ?_⟩
      · have grant := @largest_mem (streamGrant ours s.id) (.took (.maxStreamData named value))
          (seen ++ [.took (.maxStreamData named value)]) (by simp)
        rwa [show streamGrant ours s.id (.took (.maxStreamData named value)) = value from if_pos same.symm] at grant
      have limit := @account_raise _ Space.sent after s value
      unfold Unwrapped
      show (raiseTxMax after s value).state.live = true → (raiseTxMax after s value).txData ≤ (raiseTxMax after s value).txMaxData
      rw [show (raiseTxMax after s value).state = after.state from congrArg SendAccount.state limit,
        show (raiseTxMax after s value).txData = after.txData from congrArg SendAccount.txData limit,
        show (raiseTxMax after s value).txMaxData = after.txMaxData from congrArg SendAccount.txMaxData limit]
      exact known.2
  | data value =>
    have known := took fair
    refine ⟨fun _ => ⟨counted_calm known.counted (calm_same rfl rfl rfl rfl) rfl, fun live => ?_⟩,
      fun refused => absurd rfl refused, fun live => (unwrapped live).trans (le_max_left _ _)⟩
    have granted := known.granted live
    refine ⟨max_le granted.data ?_, granted.streams, granted.tp, granted.each, granted.early⟩
    exact @largest_mem dataGrant (.took (.maxData value)) _ (by simp)
  | streams kind value =>
    have known := took fair
    refine ⟨fun _ => ⟨counted_calm known.counted (calm_same rfl rfl rfl rfl) rfl, fun live => ?_⟩,
      fun refused => absurd rfl refused, unwrapped⟩
    have granted := known.granted live
    refine ⟨granted.data, fun k => ?_, granted.tp, granted.each, granted.early⟩
    show Function.update c.peerMaxStreams kind (max (c.peerMaxStreams kind) value) k ≤ _
    by_cases here : k = kind
    · rw [here, update_self]
      refine max_le (granted.streams kind) ?_
      have grant := @largest_mem (streamsGrant kind) (.took (.maxStreams kind value)) (seen ++ [.took (.maxStreams kind value)]) (by simp)
      rwa [show streamsGrant kind (.took (.maxStreams kind value)) = value from if_pos rfl] at grant
    rw [update_of_ne here]
    exact granted.streams k

structure Filled (lvl : Level) (seen : List Seen) (pk : Packing) : Prop where
  sendable : Sendable pk.1
  fair : Fair pk.1 (seen ++ pk.2.map (Seen.sent lvl))
  unwrapped : Unwrapped pk.1

variable {lvl : Level}

theorem silent_frame {f : FrameRec} (other : f.kind ≠ .stream) : Silent [Seen.sent lvl f] := by
  show frameBytes f ∪ ∅ = ∅
  rw [frameBytes, if_neg other, Finset.union_empty]

variable {pk : Packing}

theorem filled_step {seen : List Seen} (filled : Filled lvl seen pk) {after : QuicConn}
    (onward : Onward pk.1 after) (quiet : Quiet pk.1 after) {f : FrameRec} (other : f.kind ≠ .stream) :
    Filled lvl seen (after, pk.2 ++ [f]) := by
  refine ⟨onward.sendable, ?_, unwrapped_quiet filled.unwrapped quiet⟩
  rw [map_append, ← append_assoc]
  exact fair_more (fair_quiet filled.fair quiet) (silent_frame other)

theorem crypto_other (piece : Piece) : (cryptoRec piece).kind ≠ .stream := nofun

theorem filled_crypto {seen : List Seen} (rooms : List Nat) (filled : Filled lvl seen pk) :
    Filled lvl seen (putCrypto lvl rooms pk) := by
  induction rooms generalizing pk with
  | nil => exact filled
  | cons room rooms ih =>
    rw [putCrypto]
    split
    · exact filled
    split
    · exact filled
    split
    · exact filled
    rename_i piece given _
    have offered := next_offered (filled.sendable.crypto lvl) given
    obtain ⟨sent, next, _⟩ := sent_spec (filled.sendable.crypto lvl) offered.high false
    have put : Onward pk.1 (cryptoPut pk.1 lvl piece) :=
      onward_space filled.sendable lvl sent (next.ge.trans' (le_max_left _ _)) fun _ member => member
    exact ih (filled_step filled put (quiet_space _ lvl _) (crypto_other piece))

theorem filled_control {seen : List Seen} (fits : FrameRec → Bool)
    (filled : Filled lvl seen pk) : Filled lvl seen (putControl fits pk) := by
  have data (pk : Packing) (filled : Filled lvl seen pk) : Filled lvl seen (putMaxData fits pk) := by
    unfold putMaxData
    dsimp only
    split
    · refine filled_step filled ?_ ?_ nofun
      · exact onward_same filled.sendable (calm_same rfl rfl rfl rfl) rfl
      · exact ⟨calm_same rfl rfl rfl rfl, rfl, fun _ => rfl⟩
    · exact filled
  have streams (k : StreamKind) (pk : Packing) (filled : Filled lvl seen pk) : Filled lvl seen (putMaxStreams fits k pk) := by
    unfold putMaxStreams
    dsimp only
    split
    · refine filled_step filled ?_ ?_ nofun
      · exact onward_same filled.sendable (calm_same rfl rfl rfl rfl) rfl
      · exact ⟨calm_same rfl rfl rfl rfl, rfl, fun _ => rfl⟩
    · exact filled
  have owing (o : Owing) (marks : ∀ s, mark (o.clear s) = mark s) (queues : ∀ s, queuePart (o.clear s) = queuePart s)
      (silent : ∀ s, (o.frame s).kind ≠ .stream) (id : Nat) (pk : Packing) (filled : Filled lvl seen pk) :
      Filled lvl seen (putOwing fits o id pk) := by
    unfold putOwing
    split
    · exact filled
    split
    · exact filled_step filled (onward_same filled.sendable (calm_set queues) rfl) ⟨calm_set marks, rfl, fun _ => rfl⟩
        (silent _)
    · exact filled
  have all (ids : List Nat) (pk : Packing) (filled : Filled lvl seen pk) :
      Filled lvl seen (ids.foldl (putStreamControl fits) pk) := by
    induction ids generalizing pk with
    | nil => exact filled
    | cons id ids ih =>
      refine ih _ ?_
      refine owing maxOwing (fun _ => rfl) (fun _ => rfl) (fun _ => nofun) id _ ?_
      refine owing stopOwing (fun _ => rfl) (fun _ => rfl) (fun _ => nofun) id _ ?_
      exact owing resetOwing (fun _ => rfl) (fun _ => rfl) (fun _ => nofun) id pk filled
  unfold putControl
  exact all _ _ (streams .uni _ (streams .bidi _ (data pk filled)))

theorem piece_bytes {s : QStream} (sound : Sound s.tx) {seen : List Seen}
    (sent : ∀ n, (s.id, n) ∈ sentBytes seen ↔ n < s.tx.next) {room limit : Nat} {piece : Piece}
    (given : sendqNext s.tx room limit = some piece) (lvl : Level) :
    (sentBytes (seen ++ [Seen.sent lvl (streamRec s piece)])).card =
      (sentBytes seen).card + (if piece.fresh then piece.len else 0) := by
  have offered := next_offered sound given
  rw [sent_append]
  show (sentBytes seen ∪ (frameBytes (streamRec s piece) ∪ ∅)).card = _
  rw [Finset.union_empty]
  cases fresh : piece.fresh with
  | true =>
    have apart : Disjoint (sentBytes seen) (frameBytes (streamRec s piece)) := by
      rw [Finset.disjoint_left]
      rintro ⟨id, n⟩ before here
      obtain ⟨_, same, low, _⟩ := mem_frame_bytes.mp here
      have same' : s.id = id := same
      have low' : piece.off ≤ n := low
      rw [← same'] at before
      have below := (sent n).mp before
      have start := (offered.fresh fresh).1
      omega
    have count : (frameBytes (streamRec s piece)).card = piece.len := by
      unfold frameBytes
      rw [if_pos (show (streamRec s piece).kind = .stream from rfl),
        Finset.card_image_of_injective _ (Prod.mk_right_injective _), Nat.card_Ico]
      show piece.off + piece.len - piece.off = piece.len
      omega
    rw [Finset.card_union_of_disjoint apart, count]
    rfl
  | false =>
    have inside : frameBytes (streamRec s piece) ⊆ sentBytes seen := by
      rintro ⟨id, n⟩ here
      obtain ⟨_, same, _, high⟩ := mem_frame_bytes.mp here
      have same' : s.id = id := same
      have high' : n < piece.off + piece.len := high
      rw [← same']
      have below := offered.again fresh
      exact (sent n).mpr (by omega)
    rw [Finset.union_eq_left.mpr inside]
    simp

theorem send_limit_within {c : QuicConn} {s : QStream} (within : c.txData ≤ c.txMaxData) :
    streamSendLimit c s ≤ s.txMax ∧ streamSendLimit c s ≤ s.tx.next + (c.txMaxData - c.txData) := by
  refine ⟨min_le_left _ _, (min_le_right _ _).trans ((Nat.mod_le _ _).trans ?_)⟩
  have room : (((c.txMaxData : Int) - c.txData) % 2 ^ 64).toNat ≤ c.txMaxData - c.txData := by
    omega
  omega

theorem piece_data (c) {s : QStream} (sound : Sound s.tx) {room limit : Nat} {piece : Piece}
    (given : sendqNext s.tx room limit = some piece) :
    (putPiece c s piece).txData = c.txData + if piece.fresh then piece.len else 0 := by
  have offered := next_offered sound given
  show (if piece.fresh && decide (s.tx.next < piece.off + piece.len) then
    c.txData + (piece.off + piece.len - s.tx.next) else c.txData) = _
  cases fresh : piece.fresh with
  | true =>
    have start := (offered.fresh fresh).1
    rw [Bool.true_and, start]
    split
    · rw [if_pos rfl]
      omega
    rename_i empty
    rw [decide_eq_true_eq] at empty
    rw [if_pos rfl]
    omega
  | false => rfl

theorem filled_piece {seen : List Seen} (filled : Filled lvl seen pk)
    (live : pk.1.state.live = true) (ready : pk.1.server = false → pk.1.zrOk = false → pk.1.zrDone = true) {s : QStream}
    (member : s ∈ pk.1.streams) {room : Nat} {piece : Piece}
    (given : sendqNext s.tx room (streamSendLimit pk.1 s) = some piece) (i : Nat) :
    Filled lvl seen (cursorTo (putPiece pk.1 s piece) i, pk.2 ++ [streamRec s piece]) := by
  obtain ⟨c, frames⟩ := pk
  dsimp only at filled live ready member given
  obtain ⟨sendable, fair, unwrapped⟩ := filled
  dsimp only at sendable fair unwrapped
  have counted := fair.counted
  have granted := fair.granted live
  have within := unwrapped live
  have sound := sendable.queues s member
  have offered := next_offered sound given
  have data := piece_data c sound given
  obtain ⟨_, next, _⟩ := sent_spec sound offered.high piece.fin
  obtain ⟨put, reach_⟩ := onward_piece sendable member given
  obtain ⟨txLimit, connLimit⟩ := @send_limit_within c s within
  have room_ : (putPiece c s piece).txData ≤ c.txMaxData := by
    rw [data]
    split
    next fresh =>
      obtain ⟨start, most⟩ := offered.fresh fresh
      omega
    · exact within
  have card := piece_bytes sound (counted.sent s member) given lvl
  have found : streamFind c s.id = some s := by
    have some_ := (find_isSome QStream.id).mpr ⟨s, member, rfl⟩
    obtain ⟨t, here⟩ := Option.isSome_iff_exists.mp some_
    obtain ⟨inside, sameId⟩ := find_mem QStream.id here
    have shown : streamFind c s.id = some t := here
    rw [shown, inj_on_of_nodup_map sendable.table.unique inside member sameId]
  have bytes : sentBytes (seen ++ (frames ++ [streamRec s piece]).map (Seen.sent lvl)) =
      sentBytes (seen ++ frames.map (Seen.sent lvl)) ∪ frameBytes (streamRec s piece) := by
    rw [map_append, ← append_assoc, sent_append]
    show _ ∪ (frameBytes (streamRec s piece) ∪ ∅) = _
    rw [Finset.union_empty]
  have grown (grant : Seen → Nat) : largest grant (seen ++ frames.map (Seen.sent lvl)) ≤
      largest grant (seen ++ (frames ++ [streamRec s piece]).map (Seen.sent lvl)) := by
    rw [map_append, ← append_assoc]
    exact largest_grows _ _ _
  -- The stream a byte is new for is `s` alone.
  have place_cases {id n : Nat} (inside : (id, n) ∈ sentBytes (seen ++ (frames ++ [streamRec s piece]).map (Seen.sent lvl))) :
      (id, n) ∈ sentBytes (seen ++ frames.map (Seen.sent lvl)) ∨
        (s.id = id ∧ piece.off ≤ n ∧ n < piece.off + piece.len) := by
    rw [bytes] at inside
    rcases Finset.mem_union.mp inside with before | here
    · exact .inl before
    obtain ⟨_, same, low, high⟩ := mem_frame_bytes.mp here
    exact .inr ⟨same, low, high⟩
  have changed {t : QStream} (inside : t ∈ (cursorTo (putPiece c s piece) i).streams) :
      t = { s with tx := sendqSent s.tx piece.off piece.len piece.fin } ∨ (t ∈ c.streams ∧ t.id ≠ s.id) :=
    mem_update QStream.id sendable.table.unique found inside
  refine ⟨?_, ⟨⟨fun t inside => ?_, fun t inside n => ?_, fun place inside => ?_, ?_, ?_, fun place inside => ?_,
    fun k => (counted.opened k).trans (grown _)⟩, fun _ => ?_⟩, fun _ => room_⟩
  · have turned : Onward (putPiece c s piece) (cursorTo (putPiece c s piece) i) :=
      onward_same put.sendable (calm_same rfl rfl rfl rfl) rfl
    exact turned.sendable
  · rcases changed inside with rfl | ⟨before, _⟩
    · exact counted.side s member
    · exact counted.side t before
  · rcases changed inside with rfl | ⟨before, other⟩
    · show (s.id, n) ∈ _ ↔ n < (sendqSent s.tx piece.off piece.len piece.fin).next
      rw [next]
      constructor
      · intro here
        rcases place_cases here with before | ⟨_, _, high⟩
        · exact lt_max_of_lt_left ((counted.sent s member n).mp before)
        · exact lt_max_of_lt_right high
      intro below
      rw [bytes, Finset.mem_union]
      by_cases before : n < s.tx.next
      · exact .inl ((counted.sent s member n).mpr before)
      refine .inr (mem_frame_bytes.mpr ⟨rfl, rfl, ?_, ?_⟩)
      · show piece.off ≤ n
        cases fresh : piece.fresh with
        | true =>
          rw [(offered.fresh fresh).1]
          omega
        | false =>
          have := offered.again fresh
          rcases lt_max_iff.mp below with low | high <;> omega
      show n < piece.off + piece.len
      rcases lt_max_iff.mp below with low | high <;> omega
    rw [← counted.sent t before n]
    constructor
    all_goals intro here
    · rcases place_cases here with before | ⟨same, _, _⟩
      · exact before
      · exact absurd same.symm other
    rw [bytes]
    exact Finset.mem_union_left _ here
  · obtain ⟨id, n⟩ := place
    rcases place_cases inside with before | ⟨same, _, _⟩
    · exact counted.used _ before
    show Used c id
    rw [← same]
    exact sendable.table.used s member
  · rw [map_append, ← append_assoc]
    refine card.trans ?_
    rw [counted.count]
    exact data.symm
  · exact (room_.trans granted.data).trans (grown _)
  · obtain ⟨id, n⟩ := place
    show n < largest (streamGrant (idLocal c id) id) _
    rcases place_cases inside with before | ⟨same, low, high⟩
    · exact (counted.stream _ before).trans_le (grown _)
    rw [← same]
    cases fresh : piece.fresh with
    | true =>
      have most := (offered.fresh fresh).2
      exact (by omega : n < s.txMax).trans_le ((granted.each s member).trans (grown _))
    | false =>
      have below := offered.again fresh
      have sent : (s.id, n) ∈ sentBytes (seen ++ frames.map (Seen.sent lvl)) := (counted.sent s member n).mpr (by omega)
      exact (counted.stream _ sent).trans_le (grown _)
  refine ⟨granted.data.trans (grown _), fun k => (granted.streams k).trans (grown _), ?_, fun t inside => ?_,
    fun client ok done => ?_⟩
  · exact ⟨granted.tp.data.trans (grown _), fun ours id => (granted.tp.stream ours id).trans (grown _),
      fun k => (granted.tp.streams k).trans (grown _)⟩
  · rcases changed inside with rfl | ⟨before, _⟩
    · exact (granted.each s member).trans (grown _)
    · exact (granted.each t before).trans (grown _)
  have done' : c.zrDone = false := done
  rw [ready client ok] at done'
  cases done'

theorem filled_streams {seen : List Seen} (rooms : List Nat) (k : Nat)
    (filled : Filled lvl seen pk) (live : pk.1.state.live = true)
    (ready : pk.1.server = false → pk.1.zrOk = false → pk.1.zrDone = true) : Filled lvl seen (putStreams rooms k pk) := by
  induction rooms generalizing k pk with
  | nil => exact filled
  | cons room rooms ih =>
    rw [putStreams]
    split
    · exact filled
    split
    · exact filled
    split
    · exact ih _ filled live ready
    split
    · exact ih _ filled live ready
    rename_i s place _ _ piece given
    exact ih 0 (filled_piece filled live ready (mem_of_getElem? place) given _) live ready

theorem ready_keys {seen : List Seen} (granted : Granted c seen) (ready : appReady c = true) :
    c.server = false → c.zrOk = false → c.zrDone = true := by
  intro client ok
  rw [← Bool.not_eq_false]
  intro done
  have early := granted.early client ok done
  unfold appReady at ready
  split at ready
  next opened =>
    exact early.1 opened
  · rw [client, ok] at ready
    cases ready
  · cases ready

theorem fair_send {seen : List Seen} (sendable : Sendable c) (fair : Fair c seen) (unwrapped : Unwrapped c)
    (lvl : Level) (fill : Filling) :
    Fair (sendPacket c lvl fill).1 (seen ++ (sendPacket c lvl fill).2.map (Seen.sent lvl)) ∧
      Unwrapped (sendPacket c lvl fill).1 := by
  have start : Filled lvl seen (c, []) := ⟨sendable, by simpa using fair, unwrapped⟩
  have crypto : Filled lvl seen (packCrypto c lvl fill) := by
    unfold packCrypto
    split
    · exact start
    · exact filled_crypto _ start
  unfold sendPacket
  split
  · exact ⟨by simpa using fair, unwrapped⟩
  rename_i going
  have live : c.state.live = true := by
    simp only [Bool.or_eq_true, Bool.not_eq_true', not_or, Bool.not_eq_false] at going
    exact going.1
  have built : Filled lvl seen (buildPacket c lvl fill) := by
    unfold buildPacket
    split
    · exact start
    split
    next app =>
      rw [Bool.and_eq_true] at app
      have keys := ready_keys (fair.granted live) app.2
      have account := (@account_control Unit (fun _ => ()) fill.fits (packCrypto c lvl fill)).trans
        (congrArg (fun a : SendAccount (List SentPacket) => { a with sp := fun _ => () : SendAccount Unit })
          (account_pack_crypto c lvl fill))
      refine filled_streams _ _ (filled_control fill.fits crypto) ?_ ?_
      · rw [show (putControl fill.fits (packCrypto c lvl fill)).1.state = c.state from congrArg SendAccount.state account]
        exact live
      rw [show (putControl fill.fits (packCrypto c lvl fill)).1.server = c.server from congrArg SendAccount.server account,
        show (putControl fill.fits (packCrypto c lvl fill)).1.zrOk = c.zrOk from congrArg SendAccount.zrOk account,
        show (putControl fill.fits (packCrypto c lvl fill)).1.zrDone = c.zrDone from congrArg SendAccount.zrDone account]
      exact keys
    · exact crypto
  have quiet : Quiet (buildPacket c lvl fill).1 (sealPacket lvl fill (buildPacket c lvl fill)) :=
    quiet_space _ lvl (sealed lvl fill (buildPacket c lvl fill))
  exact ⟨fair_quiet built.fair quiet, unwrapped_quiet built.unwrapped quiet⟩

theorem fair_limits {after : QuicConn} {seen : List Seen} (fair : Fair c seen) (calm : Calm reach c after)
    (data : after.txData = c.txData) (granted : after.state.live = true → Granted after seen) : Fair after seen :=
  ⟨counted_calm fair.counted calm data, granted⟩

theorem fail_not_live (c) (error : TransportError) : (connFail c error).state.live = false := by
  unfold connFail
  split
  · rfl
  · rwa [← Bool.not_eq_true]

theorem fair_params {c : QuicConn} {seen : List Seen} (fair : Fair c seen) {tp : PeerParams} {checks : ParamChecks}
    (told : checks.idsOk = true → checks.versionOk = true → TpGranted tp seen) : Fair (applyPeerParams c tp checks) seen ∧
      ((checks.idsOk = true → checks.versionOk = true → c.txData ≤ tp.initialMaxData) →
        Unwrapped (applyPeerParams c tp checks)) := by
  have noted : Calm reach c { c with peerTp := tp, havePeerTp := true } := calm_same rfl rfl rfl rfl
  have failed (error : TransportError) : Fair (connFail { c with peerTp := tp, havePeerTp := true } error) seen ∧
      Unwrapped (connFail { c with peerTp := tp, havePeerTp := true } error) := by
    have dead := fail_not_live { c with peerTp := tp, havePeerTp := true } error
    refine ⟨fair_limits fair (calm_trans noted (calm_fail _ error)) ?_ fun live => ?_, fun live => ?_⟩
    · exact congrArg Meter.txData (quiet_fail _ error).meter
    · rw [dead] at live
      cases live
    rw [dead] at live
    cases live
  unfold applyPeerParams
  split
  · exact ⟨(failed _).1, fun _ => (failed _).2⟩
  split
  · exact ⟨(failed _).1, fun _ => (failed _).2⟩
  rename_i ids versions
  simp only [Bool.not_eq_true', Bool.not_eq_false] at ids versions
  have known := told ids versions
  have streams (k : StreamKind) : (match k with
      | .bidi => tp.initialMaxStreamsBidi
      | .uni => tp.initialMaxStreamsUni) ≤ largest (streamsGrant k) seen := by
    cases k with
    | bidi => exact known.streams .bidi
    | uni => exact known.streams .uni
  dsimp only
  split
  · refine ⟨fair_limits fair (calm_each rfl (fun s => ?_) rfl rfl rfl) rfl fun live => ?_, fun less live => less ids versions⟩
    · split <;> rfl
    have granted := fair.granted live
    refine ⟨known.data, streams, known, fun s member => ?_, granted.early⟩
    obtain ⟨t, inTable, rfl⟩ := mem_map.mp member
    split
    next raised =>
      show localLimit tp t.id ≤ largest (streamGrant (idLocal c t.id) t.id) seen
      rw [← fair.counted.side t inTable, raised.1]
      exact known.stream true t.id
    · exact granted.each t inTable
  refine ⟨fair_limits fair (calm_same rfl rfl rfl rfl) rfl fun live => ?_, fun less live => less ids versions⟩
  have granted := fair.granted live
  exact ⟨known.data, streams, known, granted.each, granted.early⟩

theorem fair_install {seen : List Seen} (fair : Fair c seen) {remembered : Option PeerParams}
    (told : ∀ tp, remembered = some tp → c.zrOk = false → c.zrDone = false → c.server = false → TpGranted tp seen) :
    Fair (zrInstall c remembered) seen ∧ (Unwrapped c → Unwrapped (zrInstall c remembered)) := by
  unfold zrInstall
  split
  · exact ⟨fair, id⟩
  rename_i idle
  simp only [Bool.or_eq_true, not_or, Bool.not_eq_true] at idle
  dsimp only
  split
  · refine ⟨fair_limits fair (calm_same rfl rfl rfl rfl) rfl fun live => ?_, id⟩
    have granted := fair.granted live
    exact ⟨granted.data, granted.streams, granted.tp, granted.each, fun _ ok => absurd ok nofun⟩
  rename_i client
  rw [Bool.not_eq_true] at client
  split
  · refine ⟨fair_limits fair (calm_same rfl rfl rfl rfl) rfl fun live => ?_, id⟩
    have granted := fair.granted live
    exact ⟨granted.data, granted.streams, granted.tp, granted.each, fun _ _ done => absurd done nofun⟩
  rename_i tp
  have known := told tp rfl idle.1 idle.2 client
  refine ⟨fair_limits fair (calm_same rfl rfl rfl rfl) rfl fun live => ?_, fun _ live => ?_⟩
  · have granted := fair.granted live
    refine ⟨known.data, fun k => ?_, known, granted.each, fun _ ok => absurd ok nofun⟩
    cases k with
    | bidi => exact known.streams .bidi
    | uni => exact known.streams .uni
  have early := ((fair.granted live).early client idle.1 idle.2).2
  rw [early]
  exact Nat.zero_le _

theorem fair_server_limits {seen : List Seen} (fair : Fair c seen) :
    Fair (serverLimits c) seen ∧ (c.txData ≤ c.peerTp.initialMaxData → Unwrapped (serverLimits c)) := by
  refine ⟨fair_limits fair (calm_each rfl (fun s => ?_) rfl rfl rfl) rfl fun live => ?_, fun less _ => less⟩
  · split <;> rfl
  have granted := fair.granted live
  refine ⟨granted.tp.data, fun k => ?_, granted.tp, fun s member => ?_, granted.early⟩
  · cases k with
    | bidi => exact granted.tp.streams .bidi
    | uni => exact granted.tp.streams .uni
  obtain ⟨t, inTable, rfl⟩ := mem_map.mp member
  split
  next ours =>
    show localLimit c.peerTp t.id ≤ largest (streamGrant (idLocal c t.id) t.id) seen
    rw [← fair.counted.side t inTable, ours]
    exact granted.tp.stream true t.id
  · exact granted.each t inTable

theorem fair_refused {seen : List Seen} (fair : Fair c seen)
    (unwrapped : c.havePeerTp = false → Unwrapped c) : Fair (earlyRefused c) seen ∧ Unwrapped (earlyRefused c) := by
  have lost := quiet_zero_rtt c
  have fair_ := fair_quiet fair lost
  have told : (zeroRttLost c).havePeerTp = c.havePeerTp := by
    have frame (lvl : Level) (c : QuicConn) (f : FrameRec) : (frameLost lvl c f).havePeerTp = c.havePeerTp := by
      unfold frameLost
      split <;> rfl
    have packet (c : QuicConn) (p : SentPacket) : (packetLost .application c p).havePeerTp = c.havePeerTp :=
      account_fold (frame .application) p.frames c
    have all := @account_fold _ _ QuicConn.havePeerTp _ packet ((c.sp .application).sent.filter (·.zeroRtt)) c
    exact Eq.trans rfl all
  unfold earlyRefused
  split
  next unknown =>
    rw [told, Bool.not_eq_true'] at unknown
    exact ⟨fair_, unwrapped_quiet (unwrapped unknown) lost⟩
  have limits := fair_server_limits fair_
  unfold refusedLimits
  split
  next fits =>
    refine ⟨limits.1, limits.2 ?_⟩
    simp only [earlyFits, Bool.and_eq_true, decide_eq_true_eq] at fits
    exact fits.1.2
  refine ⟨fair_quiet limits.1 (quiet_fail _ _), fun live => ?_⟩
  rw [fail_not_live] at live
  cases live

def earlyRefusal (c : QuicConn) (news : TlsNews) : Bool :=
  news.early == .refused && c.early != .refused && !c.server

theorem fair_told {seen : List Seen} (fair : Fair c seen) (news : TlsNews)
    (unwrapped : Unwrapped c ∨ (earlyRefusal c news = true ∧ c.havePeerTp = true)) :
    Fair (earlyTold c news) seen ∧ Unwrapped (earlyTold c news) := by
  -- The keys are gone, so there is nothing more to say of when they were not there.
  have dropped : Fair (zrDrop { c with early := news.early }) seen := by
    refine fair_limits fair (calm_same rfl rfl rfl rfl) rfl fun live => ?_
    have granted := fair.granted live
    exact ⟨granted.data, granted.streams, granted.tp, granted.each, fun _ _ done => absurd done nofun⟩
  unfold earlyTold
  split
  next same =>
    refine ⟨fair, unwrapped.resolve_right fun refusal => ?_⟩
    simp only [earlyRefusal, same, Bool.and_eq_true, beq_iff_eq, bne_iff_ne] at refusal
    exact refusal.1.1.2 refusal.1.1.1
  split
  · split
    next server =>
      refine ⟨dropped, unwrapped.resolve_right fun refusal => ?_⟩
      simp [earlyRefusal, server] at refusal
    refine fair_refused dropped fun unknown => unwrapped.resolve_right fun refusal => ?_
    rw [show c.havePeerTp = false from unknown] at refusal
    exact absurd refusal.2 nofun
  rename_i other
  refine ⟨?_, unwrapped.resolve_right fun refusal => ?_⟩
  · refine fair_limits fair (calm_same rfl rfl rfl rfl) rfl fun live => ?_
    have granted := fair.granted live
    exact ⟨granted.data, granted.streams, granted.tp, granted.each, granted.early⟩
  simp only [earlyRefusal, Bool.and_eq_true, beq_iff_eq] at refusal
  exact other refusal.1.1.1

theorem fair_handshake {seen : List Seen} (fair : Fair c seen) (unwrapped : Unwrapped c) (news : TlsNews) :
    Fair (handshakeAfter c news) seen ∧ Unwrapped (handshakeAfter c news) := by
  unfold handshakeAfter
  split
  next going =>
    simp only [Bool.and_eq_true] at going
    have granted := fair.granted going.1.1
    have within := unwrapped going.1.1
    unfold established
    split
    next server =>
      have opened : Fair (stateOpened c) seen := by
        refine fair_limits fair (calm_same rfl rfl rfl rfl) rfl fun _ => ?_
        exact ⟨granted.data, granted.streams, granted.tp, granted.each,
          fun client => absurd (server.symm.trans client) nofun⟩
      have below : Unwrapped (stateOpened c) := fun _ => within
      exact ⟨fair_quiet opened (quiet_discard .handshake _), unwrapped_quiet below (quiet_discard .handshake _)⟩
    refine ⟨fair_limits fair (calm_same rfl rfl rfl rfl) rfl fun _ => ?_, fun _ => within⟩
    exact ⟨granted.data, granted.streams, granted.tp, granted.each, fun _ _ done => absurd done nofun⟩
  · exact ⟨fair, unwrapped⟩

/-- The parameters that come into force set a connection limit no lower than what was sent, or the
same news refuse the client's early data. -/
def limitsKept (c : QuicConn) (news : TlsNews) : Bool :=
  match news.params with
  | none => true
  | some (tp, checks) =>
    !c.state.live || c.havePeerTp || news.alert.isSome || !checks.idsOk || !checks.versionOk || earlyRefusal c news ||
      decide (c.txData ≤ tp.initialMaxData)

theorem keyed_eq (junk : Nat → Byte) (c : QuicConn) (news : TlsNews) :
    ∃ sp, pendingWritten junk news c = { c with sp := sp } := by
  have one (c : QuicConn) (lvl : Level) : ∃ sp, cryptoWrite junk news c lvl = { c with sp := sp } := by
    unfold cryptoWrite
    split
    · exact ⟨c.sp, rfl⟩
    · exact ⟨_, rfl⟩
  unfold pendingWritten
  simp only [foldl_cons, foldl_nil]
  obtain ⟨first, initial⟩ := one c .initial
  obtain ⟨second, handshake⟩ := one { c with sp := first } .handshake
  obtain ⟨third, application⟩ := one { c with sp := second } .application
  rw [initial, handshake, application]
  exact ⟨third, rfl⟩

theorem params_state (c) (sp : Level → Space) (key : Bool) (news : TlsNews) :
    (paramsAfter { c with sp := sp, appTxOk := key } news).state = (paramsAfter c news).state := by
  unfold paramsAfter
  split
  · rfl
  split
  · rfl
  unfold applyPeerParams connFail
  dsimp only
  repeat' split
  all_goals rfl

theorem params_keeps (c) (news : TlsNews) :
    (paramsAfter c news).early = c.early ∧ (paramsAfter c news).server = c.server ∧ (paramsAfter c news).zrOk = c.zrOk ∧
      (paramsAfter c news).zrDone = c.zrDone ∧
      (∀ tp checks, news.params = some (tp, checks) → (paramsAfter c news).havePeerTp = true) := by
  unfold paramsAfter
  split
  next have_ =>
    exact ⟨rfl, rfl, rfl, rfl, fun _ _ _ => have_⟩
  split
  next none_ =>
    refine ⟨rfl, rfl, rfl, rfl, fun tp checks given => ?_⟩
    rw [none_] at given
    cases given
  unfold applyPeerParams connFail
  dsimp only
  repeat' split
  all_goals exact ⟨rfl, rfl, rfl, rfl, fun _ _ _ => rfl⟩

theorem install_keeps (c) (news : TlsNews) :
    (earlyInstall c news).early = c.early ∧ (earlyInstall c news).server = c.server ∧
      (earlyInstall c news).havePeerTp = c.havePeerTp := by
  unfold earlyInstall
  split
  · exact ⟨rfl, rfl, rfl⟩
  unfold zrInstall
  split
  · exact ⟨rfl, rfl, rfl⟩
  dsimp only
  split
  · exact ⟨rfl, rfl, rfl⟩
  · split <;> exact ⟨rfl, rfl, rfl⟩

theorem fair_limits_after {seen : List Seen} (fair : Fair c seen) (unwrapped : Unwrapped c) (news : TlsNews)
    (live : c.state.live = true) (alert : news.alert = none)
    (told : ∀ tp checks, news.params = some (tp, checks) → c.havePeerTp = false → checks.idsOk = true →
      checks.versionOk = true → TpGranted tp seen)
    (remembered : (paramsAfter c news).state.live = true → ∀ tp, news.earlySecret = some (some tp) → c.zrOk = false →
      c.zrDone = false → c.server = false → TpGranted tp seen)
    (kept : limitsKept c news = true) : Fair (limitsAfter c news) seen ∧ Unwrapped (limitsAfter c news) := by
  obtain ⟨early, server, ok, done, have_⟩ := params_keeps c news
  have params : Fair (paramsAfter c news) seen ∧
      (Unwrapped (paramsAfter c news) ∨ (earlyRefusal c news = true ∧ (paramsAfter c news).havePeerTp = true)) := by
    unfold paramsAfter at have_ ⊢
    split
    · exact ⟨fair, .inl unwrapped⟩
    rename_i unknown
    rw [Bool.not_eq_true] at unknown
    split
    · exact ⟨fair, .inl unwrapped⟩
    rename_i tp checks given
    rw [if_neg (by simp [unknown]), given] at have_
    have applied := @fair_params c seen fair tp checks (told tp checks given unknown)
    refine ⟨applied.1, ?_⟩
    by_cases refusal : earlyRefusal c news = true
    · exact .inr ⟨refusal, have_ tp checks rfl⟩
    refine .inl (applied.2 fun ids versions => ?_)
    unfold limitsKept at kept
    rw [given] at kept
    simpa [live, unknown, alert, ids, versions, refusal] using kept
  unfold limitsAfter
  split
  next going =>
    generalize paramsAfter c news = middle at early server ok done params remembered going
    have refusal : earlyRefusal middle news = earlyRefusal c news := by
      unfold earlyRefusal
      rw [early, server]
    rw [← refusal] at params
    have installed : Fair (earlyInstall middle news) seen ∧ (Unwrapped middle → Unwrapped (earlyInstall middle news)) := by
      unfold earlyInstall
      split
      · exact ⟨params.1, id⟩
      rename_i secret given
      refine fair_install params.1 fun tp same ok' done' client => ?_
      subst same
      exact remembered going tp given (ok.symm.trans ok') (done.symm.trans done') (server.symm.trans client)
    obtain ⟨sameEarly, sameServer, sameHave⟩ := install_keeps middle news
    have after := fair_told installed.1 news (params.2.imp installed.2 fun both => ⟨by
      unfold earlyRefusal at both ⊢
      rw [sameEarly, sameServer]
      exact both.1, sameHave.trans both.2⟩)
    exact fair_handshake after.1 after.2 news
  rename_i dead
  exact ⟨params.1, fun live => absurd live dead⟩

theorem silent_limits (c) (news : TlsNews) : Silent (newLimits c news) := by
  unfold Silent newLimits paramsLimits rememberedLimits
  repeat' split
  all_goals rfl

theorem fair_tls {seen : List Seen} (fair : Fair c seen) (unwrapped : Unwrapped c) (junk : Nat → Byte)
    (news : TlsNews) (kept : limitsKept c news = true) :
    Fair (tlsStep junk c news).1 (seen ++ (tlsStep junk c news).2) ∧ Unwrapped (tlsStep junk c news).1 := by
  unfold tlsStep
  split
  next live =>
    obtain ⟨sp, written⟩ := keyed_eq junk c news
    have quiet : Quiet c (pendingWritten junk news c) := by
      rw [written]
      exact ⟨calm_same rfl rfl rfl rfl, rfl, fun _ => rfl⟩
    have grown : Fair (pendingWritten junk news c) (seen ++ newLimits c news) :=
      fair_more (fair_quiet fair quiet) (silent_limits c news)
    have below := unwrapped_quiet unwrapped quiet
    unfold tlsAfter
    split
    · have failed := quiet_fail (pendingWritten junk news c)
      exact ⟨fair_quiet grown (failed _), unwrapped_quiet below (failed _)⟩
    rename_i alert
    have keyed : Quiet (pendingWritten junk news c) (keysAfter (pendingWritten junk news c) news) :=
      ⟨calm_same rfl rfl rfl rfl, rfl, fun _ => rfl⟩
    have fair_ := fair_quiet grown keyed
    have below_ := unwrapped_quiet below keyed
    rw [written] at fair_ below_ ⊢
    refine fair_limits_after fair_ below_ news live alert ?_ ?_ kept
    · intro tp checks given unknown ids versions
      refine tp_granted_mem (mem_append_right _ ?_)
      unfold newLimits paramsLimits
      have unknown' : c.havePeerTp = false := unknown
      simp [alert, given, unknown', ids, versions]
    intro going tp given ok done client
    have state := params_state c sp (c.appTxOk || news.txKey) news
    have going' : (paramsAfter c news).state.live = true := state ▸ going
    refine tp_granted_mem (mem_append_right _ ?_)
    unfold newLimits rememberedLimits
    have ok' : c.zrOk = false := ok
    have done' : c.zrDone = false := done
    have client' : c.server = false := client
    simp [alert, given, going', ok', done', client']
  · simpa using ⟨fair, unwrapped⟩

structure Metered (w : World) : Prop where
  sendable : Sendable w.conn
  fair : Fair w.conn w.seen
  unwrapped : Unwrapped w.conn

def stepKept (w : World) : ConnStep → Bool
  | .tls _ news => limitsKept w.conn news
  | _ => true

variable {w : World}

theorem metered_quiet (metered : Metered w) {step : ConnStep}
    (quiet : Quiet w.conn (connStep w.conn step).1) (silent : Silent (connStep w.conn step).2) :
    Metered (worldStep w step) :=
  ⟨(onward_step metered.sendable step).sendable, fair_more (fair_quiet metered.fair quiet) silent,
    unwrapped_quiet metered.unwrapped quiet⟩

theorem metered_of (metered : Metered w) {step : ConnStep}
    (spec : Fair (connStep w.conn step).1 (w.seen ++ (connStep w.conn step).2) ∧ Unwrapped (connStep w.conn step).1) :
    Metered (worldStep w step) :=
  ⟨(onward_step metered.sendable step).sendable, spec.1, spec.2⟩

theorem metered_frame (metered : Metered w) (junk : Nat → Byte) (f : Frame) : Metered (worldStep w (.frame junk f)) := by
  have spec := fair_frame metered.fair metered.unwrapped junk f
  refine metered_of metered ?_
  show Fair (readFrame junk w.conn f).1 (w.seen ++ (readFrame junk w.conn f).2) ∧ Unwrapped (readFrame junk w.conn f).1
  unfold readFrame
  split
  · simpa using ⟨metered.fair, metered.unwrapped⟩
  split
  next reached =>
    rw [reached] at spec
    exact ⟨spec.1 rfl, spec.2.2⟩
  rename_i after error reached
  rw [reached] at spec
  have failed := quiet_fail after error
  exact ⟨fair_more (fair_quiet (spec.2.1 nofun) failed) (silent_refused error), unwrapped_quiet spec.2.2 failed⟩

theorem metered_open (metered : Metered w) (k : StreamKind) : Metered (worldStep w (.open_ k)) := by
  refine metered_of metered ?_
  show Fair (openStep w.conn k) (w.seen ++ []) ∧ Unwrapped (openStep w.conn k)
  rw [append_nil]
  unfold openStep
  split
  · exact ⟨metered.fair, metered.unwrapped⟩
  rename_i after id opened
  have spec := stream_open_spec opened
  refine ⟨fair_opened metered.fair spec.1 fun other => ?_, unwrapped_opened metered.unwrapped spec.1⟩
  unfold streamOpen at opened
  split at opened
  · cases opened
  rename_i ready
  split at opened
  · cases opened
  rename_i more
  cases opened
  show Function.update w.conn.localOpened k (w.conn.localOpened k + 1) other ≤ _
  by_cases here : other = k
  · rw [here, update_self]
    have live : w.conn.state.live = true := by
      simp only [Bool.not_eq_true', Bool.not_eq_false] at ready
      unfold appReady at ready
      cases state : w.conn.state <;> simp_all [ConnState.live]
    exact (lt_of_not_ge more).trans_le ((metered.fair.granted live).streams k)
  rw [update_of_ne here]
  exact metered.fair.counted.opened other

theorem quiet_state {after : QuicConn} (streams : after.streams = c.streams) (server : after.server = c.server)
    (localOpened : after.localOpened = c.localOpened) (peerOpened : after.peerOpened = c.peerOpened)
    (same : meter after = meter c) (state : after.state.live = true → after.state = c.state) : Quiet c after :=
  ⟨calm_same streams server localOpened peerOpened, same, state⟩

theorem metered_step (w) (step : ConnStep) (metered : Metered w) (kept : stepKept w step = true) :
    Metered (worldStep w step) := by
  cases step with
  | frame junk f => exact metered_frame metered junk f
  | ack lvl largest ranges =>
    have acked := quiet_ack lvl w.conn largest ranges
    have spec : Quiet w.conn (readAck lvl w.conn largest ranges).1 ∧ Silent (readAck lvl w.conn largest ranges).2 := by
      unfold readAck
      split
      · exact ⟨quiet_refl _, rfl⟩
      split
      next reached =>
        rw [reached] at acked
        exact ⟨acked, rfl⟩
      rename_i reached
      rw [reached] at acked
      exact ⟨quiet_trans acked (quiet_fail _ _), rfl⟩
    exact metered_quiet metered spec.1 spec.2
  | lost lvl which => exact metered_quiet metered (quiet_lost lvl w.conn which) rfl
  | probe lvl => exact metered_quiet metered (quiet_probe lvl w.conn) rfl
  | retry =>
    have quiet : Quiet w.conn (onRetry w.conn) := quiet_space w.conn .initial _
    exact metered_quiet metered quiet rfl
  | discard lvl =>
    have quiet : Quiet w.conn (discardStep lvl w.conn) := by
      unfold discardStep
      split
      · exact quiet_refl _
      · exact quiet_discard lvl _
    exact metered_quiet metered quiet rfl
  | tls junk news =>
    exact metered_of metered (fair_tls metered.fair metered.unwrapped junk news kept)
  | refuse error => exact metered_quiet metered (quiet_fail w.conn error) rfl
  | drain =>
    have quiet : Quiet w.conn (drainStep w.conn) := by
      unfold drainStep
      split
      · exact quiet_state rfl rfl rfl rfl rfl nofun
      · exact quiet_refl _
    exact metered_quiet metered quiet rfl
  | expire => exact metered_quiet metered (quiet_state rfl rfl rfl rfl rfl nofun) rfl
  | open_ k => exact metered_open metered k
  | write junk id data fin =>
    have spec : Quiet w.conn (writeStep junk w.conn id data fin).1 ∧ Silent (writeStep junk w.conn id data fin).2 := by
      unfold writeStep
      cases written : streamWrite junk w.conn id data fin with
      | none => exact ⟨quiet_refl _, rfl⟩
      | some result => exact ⟨quiet_write written, rfl⟩
    exact metered_quiet metered spec.1 spec.2
  | room id =>
    have quiet : Quiet w.conn (streamRoom w.conn id).1 :=
      @quiet_account _ Space.sent _ _ (mark_of_tx (tx_of_both (calm_room w.conn id))) (account_room w.conn id)
    exact metered_quiet metered quiet rfl
  | read id cap =>
    have spec : Quiet w.conn (readStep w.conn id cap).1 ∧ Silent (readStep w.conn id cap).2 := by
      unfold readStep
      split
      · exact ⟨quiet_refl _, rfl⟩
      rename_i taken
      exact ⟨@quiet_account _ Space.sent _ _ (mark_of_tx (tx_calm_read taken)) (account_read taken), rfl⟩
    exact metered_quiet metered spec.1 spec.2
  | reset id code => exact metered_quiet metered (quiet_reset w.conn id code) rfl
  | stop id code =>
    have quiet : Quiet w.conn (streamStop w.conn id code) :=
      @quiet_account _ Space.sent _ _ (mark_of_tx (tx_calm_stop w.conn id code)) (account_stop w.conn id code)
    exact metered_quiet metered quiet rfl
  | close code => exact metered_quiet metered (quiet_fail w.conn (.code code)) rfl
  | poll =>
    have quiet : Quiet w.conn (connPoll w.conn) :=
      @quiet_account _ Space.sent _ _ (mark_of_tx (tx_of_both (calm_poll w.conn))) (account_poll w.conn)
    exact metered_quiet metered quiet rfl
  | capWindow n =>
    have quiet : Quiet w.conn (capWindow w.conn n) :=
      @quiet_account _ Space.sent _ _ (mark_of_tx (tx_of_both (calm_cap w.conn n))) (account_cap w.conn n)
    exact metered_quiet metered quiet rfl
  | setMaxStreams n =>
    have quiet : Quiet w.conn (setMaxStreams w.conn n) :=
      @quiet_account _ Space.sent _ _ (mark_of_tx (tx_of_both (calm_max_streams w.conn n))) (account_set_max_streams w.conn n)
    exact metered_quiet metered quiet rfl
  | packet lvl fill =>
    exact metered_of metered (fair_send metered.sendable metered.fair metered.unwrapped lvl fill)
  | elsewhere now cwnd srtt haveRtt events =>
    exact metered_quiet metered (quiet_state rfl rfl rfl rfl rfl fun _ => rfl) rfl

theorem new_metered (cfg : QuicConfig) (server : Bool) (now cwnd : Nat) : Metered (worldNew cfg server now cwnd) := by
  refine ⟨new_sendable cfg server now cwnd, ⟨?_, fun _ => ?_⟩, fun _ => le_rfl⟩
  · exact
      { side := fun _ member => absurd member not_mem_nil
        sent := fun _ member => absurd member not_mem_nil
        used := fun _ member => absurd member (Finset.notMem_empty _)
        count := rfl
        data := le_rfl
        stream := fun _ member => absurd member (Finset.notMem_empty _)
        opened := fun _ => le_rfl }
  refine ⟨le_rfl, fun _ => le_rfl, ⟨le_rfl, fun ours id => ?_, fun k => ?_⟩,
    fun _ member => absurd member not_mem_nil, fun _ _ _ => ⟨nofun, rfl⟩⟩
  · unfold peerLimit
    repeat' split
    all_goals exact le_rfl
  · cases k <;> exact le_rfl

/-- What was sent is within what was granted: on the connection and on each stream, new bytes
counted once; no more streams are opened than were allowed; and while the connection lives the
difference of its limit and what it sent does not wrap. -/
structure WithinLimits (w : World) : Prop where
  counted : (sentBytes w.seen).card = w.conn.txData
  data : (sentBytes w.seen).card ≤ largest dataGrant w.seen
  stream : ∀ id n, (id, n) ∈ sentBytes w.seen → n < largest (streamGrant (idLocal w.conn id) id) w.seen
  opened : ∀ k, w.conn.localOpened k ≤ largest (streamsGrant k) w.seen
  unwrapped : Unwrapped w.conn

/-- Over every run in which no parameters come into force below what was sent under remembered
limits, unless the early data is refused with them. -/
theorem sends_within_limits (cfg : QuicConfig) (server : Bool) (now cwnd : Nat) (steps : List ConnStep)
    (kept : Along worldStep (fun w step => stepKept w step = true) (worldNew cfg server now cwnd) steps) :
    WithinLimits (worldRun (worldNew cfg server now cwnd) steps) := by
  have metered : Metered (worldRun (worldNew cfg server now cwnd) steps) :=
    run_keeps metered_step (new_metered cfg server now cwnd) kept
  have counted := metered.fair.counted
  exact
    { counted := counted.count
      data := counted.count.trans_le counted.data
      stream := fun id n sent => counted.stream (id, n) sent
      opened := counted.opened
      unwrapped := metered.unwrapped }

def earlyNews (tp : PeerParams) : TlsNews :=
  { pending := fun _ => [], alert := none, txKey := false, params := none, earlySecret := some (some tp)
    early := .offered, established := false }

def serverNews (tp : PeerParams) (early : Early) : TlsNews :=
  { pending := fun _ => [], alert := none, txKey := true, params := some (tp, ⟨true, true⟩), earlySecret := none
    early := early, established := true }

def smallParams (data : Nat) : PeerParams :=
  { initialMaxData := data, initialMaxStreamDataBidiLocal := 8, initialMaxStreamDataBidiRemote := 8
    initialMaxStreamDataUni := 8, initialMaxStreamsBidi := 2, initialMaxStreamsUni := 2 }

def roomsFill (rooms : List Nat) : Filling :=
  { fits := fun _ => true, cryptoRooms := [], streamRooms := rooms, other := false, padded := false }

def earlyRun (data : Nat) (early : Early) : List ConnStep :=
  [.tls (fun _ => 0) (earlyNews (smallParams 4)), .open_ .bidi, .open_ .bidi,
    .write (fun _ => 0) 0 [1, 2, 3, 4] false, .write (fun _ => 0) 4 [1, 2, 3, 4, 5, 6, 7, 8] false,
    .packet .application (roomsFill [100]), .tls (fun _ => 0) (serverNews (smallParams data) early),
    .packet .application (roomsFill [100, 100])]

theorem sends_within_limits_refused : WithinLimits (worldRun (worldNew smallConfig false 0 12000) (earlyRun 6 .refused)) :=
  sends_within_limits smallConfig false 0 12000 (earlyRun 6 .refused)
    ⟨rfl, rfl, rfl, rfl, rfl, rfl, by decide +kernel, rfl, True.intro⟩

/-- A server that accepts early data with a lower limit: the difference wraps, and more is sent
than was ever granted. -/
theorem sends_past_lowered_limit :
    ¬ WithinLimits (worldRun (worldNew smallConfig false 0 12000) (earlyRun 3 .accepted)) := by
  intro within
  have most := within.data
  revert most
  decide +kernel

end ProvenC.Quic.Limits
