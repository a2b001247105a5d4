import ProvenC.H2.Calls

/-!
# What does not touch a body

A stream's record keeps the length its header list announced and the bytes of its body there were.
-/

namespace ProvenC.H2.Bodies

open List Bytes H2.Frame H2.Head H2.Conn H2.Reader H2.Calls Lib.Slots

structure Body where
  id : Nat
  expect : Option Nat
  got : Nat
  noBody : Bool
  remoteEnd : Bool

def bodyOf (s : H2Stream) : Body := ⟨s.id, s.expect, s.got, s.noBody, s.remoteEnd⟩

structure Plain (ev : H2Event) : Prop where
  notHeaders : ev.kind ≠ .headers
  notData : ev.kind ≠ .data
  notEnd : ev.endStream = false

/-- The numbers of streams said, acknowledged and asked for are within the one the connection was made with. -/
structure Limits (c : H2Conn) : Prop where
  acked : c.ackedStreams ≤ c.cfgStreams
  adv : c.advStreams ≤ c.cfgStreams
  want : c.wantStreams ≤ c.cfgStreams

structure Onward (c c' : H2Conn) : Prop where
  server : c'.server = c.server
  nextId : c'.nextId = c.nextId
  out : c.wire.out <+: c'.wire.out
  reported : c'.wire.reported = c.wire.reported
  closed : c.wire.closed = true → c'.wire.closed = true
  limits : Limits c → Limits c'

structure Leaves (c c' : H2Conn) : Prop extends Onward c c' where
  bodies : (c'.streams.map bodyOf).Subperm (c.streams.map bodyOf)

structure Quiet (c c' : H2Conn) : Prop extends Leaves c c' where
  ev : c'.ev = c.ev

structure Aside (c c' : H2Conn) : Prop extends Leaves c c' where
  event : c'.ev = c.ev ∨ Plain c'.ev

variable {c d e : H2Conn}

theorem onward_trans (first : Onward c d) (second : Onward d e) : Onward c e where
  server := second.server.trans first.server
  nextId := second.nextId.trans first.nextId
  out := first.out.trans second.out
  reported := second.reported.trans first.reported
  closed := fun shut => second.closed (first.closed shut)
  limits := fun limits => second.limits (first.limits limits)

theorem leaves_trans (first : Leaves c d) (second : Leaves d e) : Leaves c e :=
  ⟨onward_trans first.toOnward second.toOnward, second.bodies.trans first.bodies⟩

theorem quiet_trans (first : Quiet c d) (second : Quiet d e) : Quiet c e :=
  ⟨leaves_trans first.toLeaves second.toLeaves, second.ev.trans first.ev⟩

theorem Quiet.aside {c' : H2Conn} (quiet : Quiet c c') : Aside c c' := ⟨quiet.toLeaves, .inl quiet.ev⟩

theorem aside_trans (first : Aside c d) (second : Aside d e) : Aside c e := by
  refine ⟨leaves_trans first.toLeaves second.toLeaves, ?_⟩
  rcases second.event with same | plain
  · rw [same]
    exact first.event
  · exact .inr plain

structure Rest where
  server : Bool
  nextId : Nat
  wire : Wire
  cfgStreams : Nat
  ackedStreams : Nat
  advStreams : Nat
  wantStreams : Nat
  ev : H2Event

def restOf (c : H2Conn) : Rest :=
  ⟨c.server, c.nextId, c.wire, c.cfgStreams, c.ackedStreams, c.advStreams, c.wantStreams, c.ev⟩

theorem quiet_same {c' : H2Conn} (rest : restOf c' = restOf c)
    (bodies : c'.streams.map bodyOf = c.streams.map bodyOf) : Quiet c c' where
  server := congrArg Rest.server rest
  nextId := congrArg Rest.nextId rest
  bodies := (List.Perm.of_eq bodies).subperm
  out := by
    rw [show c'.wire = c.wire from congrArg Rest.wire rest]
  reported := congrArg (fun rest => rest.wire.reported) rest
  closed := by
    rw [show c'.wire = c.wire from congrArg Rest.wire rest]
    exact id
  limits := by
    have cfg : c'.cfgStreams = c.cfgStreams := congrArg Rest.cfgStreams rest
    have acked : c'.ackedStreams = c.ackedStreams := congrArg Rest.ackedStreams rest
    have adv : c'.advStreams = c.advStreams := congrArg Rest.advStreams rest
    have want : c'.wantStreams = c.wantStreams := congrArg Rest.wantStreams rest
    intro limits
    exact ⟨by rw [acked, cfg]; exact limits.acked, by rw [adv, cfg]; exact limits.adv,
      by rw [want, cfg]; exact limits.want⟩
  ev := congrArg Rest.ev rest

theorem quiet_refl (c) : Quiet c c := quiet_same rfl rfl

structure Grows (w w' : Wire) : Prop where
  out : w.out <+: w'.out
  reported : w'.reported = w.reported
  closed : w.closed = true → w'.closed = true

theorem grows_refl (w : Wire) : Grows w w := ⟨prefix_rfl, rfl, id⟩

theorem grows_trans {u v w : Wire} (first : Grows u v) (second : Grows v w) : Grows u w :=
  ⟨first.out.trans second.out, second.reported.trans first.reported, fun shut => second.closed (first.closed shut)⟩

theorem grows_push (w : Wire) (bytes : List Byte) : Grows w (w.push bytes) := by
  unfold Wire.push
  split
  · exact ⟨prefix_rfl, rfl, fun _ => rfl⟩
  · exact ⟨prefix_append _ _, rfl, id⟩

theorem grows_goaway (w : Wire) (lastActed code : Nat) : Grows w (w.goaway lastActed code) := by
  unfold Wire.goaway
  simp only
  split
  · exact ⟨prefix_rfl, rfl, fun _ => rfl⟩
  have pushed := grows_push w (h2PutHeader 8 h2Goaway 0 0 ++ h2PutU32 lastActed ++ h2PutU32 code)
  exact ⟨pushed.out, pushed.reported, pushed.closed⟩

theorem grows_fail (w : Wire) (lastActed code : Nat) : Grows w (w.fail lastActed code) := by
  unfold Wire.fail
  split
  · exact grows_refl w
  · exact ⟨(grows_goaway w lastActed code).out, (grows_goaway w lastActed code).reported, fun _ => rfl⟩

theorem grows_ctl (w : Wire) (lastActed n : Nat) : Grows w (w.ctl lastActed n) := by
  have counted : Grows w { w with ctlQueued := w.ctlQueued + n } := ⟨prefix_rfl, rfl, id⟩
  unfold Wire.ctl
  simp only
  split
  · exact grows_trans counted (grows_fail _ _ _)
  · exact counted

theorem grows_answer (w : Wire) (lastActed : Nat) (frame : List Byte) (counted : Bool) :
    Grows w (w.answer lastActed frame counted) := by
  unfold Wire.answer
  simp only
  split
  · exact grows_refl w
  split
  · exact grows_push w frame
  split
  · exact grows_trans (grows_push w frame) (grows_ctl _ _ _)
  · exact grows_push w frame

theorem quiet_wire (c : H2Conn) {w : Wire} (grows : Grows c.wire w) : Quiet c { c with wire := w } :=
  ⟨⟨⟨rfl, rfl, grows.out, grows.reported, grows.closed, fun limits => ⟨limits.acked, limits.adv, limits.want⟩⟩,
    List.Subperm.refl _⟩, rfl⟩

theorem quiet_fail (c) (code : Nat) : Quiet c (h2cFail c code) := quiet_wire c (grows_fail _ _ _)

theorem quiet_fall (c) : Quiet c (h2cFallOver c) := quiet_wire c ⟨prefix_rfl, rfl, fun _ => rfl⟩

theorem quiet_frame (c) (type id value : Nat) (counted : Bool) : Quiet c (h2cQU32Frame c type id value counted) :=
  quiet_wire c (grows_answer _ _ _ _)

theorem quiet_rst (c) (id code : Nat) (counted : Bool) : Quiet c (h2cQRst c id code counted) :=
  quiet_frame ..

theorem quiet_window (c) (id increment : Nat) : Quiet c (h2cQWindow c id increment) := quiet_frame ..

theorem quiet_empty (c) (type flags : Nat) (payload : List Byte) : Quiet c (h2cQEmpty c type flags payload) :=
  quiet_wire c (grows_answer _ _ _ _)

theorem quiet_mark (c) (id : Nat) {change : H2Stream → H2Stream} (same : ∀ s, bodyOf (change s) = bodyOf s) :
    Quiet c (setStream c id change) :=
  quiet_same rfl (map_update H2Stream.id fun s _ _ => same s)

theorem quiet_put (c) {id : Nat} {s : H2Stream} (put : H2Stream) (found : h2cFind c id = some s)
    (same : bodyOf put = bodyOf s) : Quiet c (setStream c id fun _ => put) := by
  exact quiet_same rfl (map_update_found H2Stream.id found same)

theorem quiet_ring (c) (id : Nat) (how : RingHow) : Quiet c (h2cRingAdd c id how) := quiet_same rfl rfl

theorem quiet_debt (c) : Quiet c (h2cDebt c) := by
  have counted : Quiet c { c with debt := c.debt + 1 } := quiet_same rfl rfl
  unfold h2cDebt
  simp only
  split
  · exact quiet_trans counted (quiet_fail _ _)
  · exact counted

theorem quiet_grant (c) (inc : Nat) : Quiet c (connGrant c inc) := by
  have counted : Quiet c { c with recvWin := c.recvWin + inc } := quiet_same rfl rfl
  exact quiet_trans counted (quiet_window _ _ _)

theorem quiet_return (c) : Quiet c (connReturn c) := by
  have taken : Quiet c { c with recvUnacked := 0 } := quiet_same rfl rfl
  unfold connReturn
  simp only
  split
  · exact quiet_trans taken (quiet_grant _ _)
  split
  · exact taken
  · exact quiet_trans taken (quiet_grant _ _)

theorem quiet_credit (c) (n : Nat) : Quiet c (h2cConnCredit c n) := by
  have counted : Quiet c { c with recvUnacked := c.recvUnacked + n } := quiet_same rfl rfl
  unfold h2cConnCredit
  split
  · exact quiet_refl c
  simp only
  split
  · exact quiet_trans counted (quiet_return _)
  · exact counted

theorem credit_streams (c) (n : Nat) : (h2cConnCredit c n).streams = c.streams := by
  have returned (d : H2Conn) : (connReturn d).streams = d.streams := by
    unfold connReturn
    simp only
    split
    · rfl
    split
    · rfl
    · rfl
  unfold h2cConnCredit
  split
  · rfl
  simp only
  split
  · rw [returned]
  · rfl

theorem quiet_follow (c) (streamWindow : Nat) : Quiet c (h2cConnFollow c streamWindow) := by
  unfold h2cConnFollow
  simp only
  split
  · exact quiet_refl c
  have counted (want : Nat) : Quiet c { c with recvTarget := want } := quiet_same rfl rfl
  exact quiet_trans (counted _) (quiet_grant _ _)

theorem quiet_clock (c) : Quiet c (growRead c).2 := quiet_same rfl rfl

theorem quiet_grow (c) (s : H2Stream) (window : Nat) :
    Quiet c (streamGrow c s window).1 ∧ (streamGrow c s window).1.streams = c.streams ∧
      bodyOf (streamGrow c s window).2.1 = bodyOf s := by
  unfold streamGrow
  split
  · simp only
    split
    · refine ⟨quiet_trans (quiet_clock c) (quiet_follow _ _), ?_, rfl⟩
      unfold h2cConnFollow
      simp only
      split <;> rfl
    · exact ⟨quiet_clock c, rfl, rfl⟩
  · exact ⟨quiet_refl c, rfl, rfl⟩

theorem quiet_give (c) {s stored : H2Stream} (inc : Nat) (found : h2cFind c s.id = some stored)
    (same : bodyOf s = bodyOf stored) : Quiet c (streamGive c s inc) := by
  have granted (inc : Nat) : Quiet c (streamGrant c s inc) :=
    quiet_trans (@quiet_put c s.id stored { s with recvWin := s.recvWin + inc } found same) (quiet_window _ _ _)
  unfold streamGive
  split
  · exact granted _
  split
  · exact quiet_put c _ found same
  · exact granted _

theorem quiet_stream_return (c) {s stored : H2Stream} (found : h2cFind c s.id = some stored)
    (same : bodyOf s = bodyOf stored) : Quiet c (streamReturn c s) := by
  unfold streamReturn
  simp only
  obtain ⟨grown, streams, body⟩ := quiet_grow c { s with unacked := 0, win := cappedWin c s.win } (creditWindow c s)
  have here : (streamGrow c { s with unacked := 0, win := cappedWin c s.win } (creditWindow c s)).2.1.id = s.id :=
    congrArg Body.id body
  refine quiet_trans grown (quiet_give _ _ ?_ (body.trans same))
  rw [h2cFind, streams, here]
  exact found

theorem quiet_stream_credit (c) (id n : Nat) : Quiet c (h2cStreamCredit c id n) := by
  unfold h2cStreamCredit
  split
  · exact quiet_refl c
  split
  · exact quiet_refl c
  rename_i s found
  have here : s.id = id := (find_mem H2Stream.id found).2
  have put : Quiet c (setStream c id fun _ => { s with unacked := s.unacked + n }) := quiet_put c _ found rfl
  simp only
  split
  · exact put
  split
  · exact @quiet_stream_return c { s with unacked := s.unacked + n } s (here ▸ found) rfl
  · exact put

theorem quiet_remove (c) (id : Nat) (properly : Bool) (how : Option RingHow) : Quiet c (h2cRemove c id properly how) := by
  unfold h2cRemove
  split
  · exact quiet_refl c
  rename_i s found
  have gone : Quiet c { c with
      streams := remove H2Stream.id id c.streams
      debt := if properly then c.debt - 1 else c.debt } := by
    obtain ⟨part, permuted, sublist⟩ := remove_subperm H2Stream.id id c.streams
    exact ⟨⟨⟨rfl, rfl, prefix_rfl, rfl, fun shut => shut, fun limits => ⟨limits.acked, limits.adv, limits.want⟩⟩,
      ⟨part.map bodyOf, permuted.map bodyOf, sublist.map bodyOf⟩⟩, rfl⟩
  cases how with
  | none => exact quiet_trans gone (quiet_credit _ _)
  | some how => exact quiet_trans gone (quiet_trans (quiet_ring _ _ _) (quiet_credit _ _))

theorem quiet_local_end (c) (id : Nat) : Quiet c (h2cLocalEnd c id) := by
  have ended : Quiet c (setStream c id fun s => { s with localEnd := true }) := quiet_mark c id fun _ => rfl
  unfold h2cLocalEnd
  simp only
  split
  · exact ended
  split
  · exact quiet_trans ended (quiet_remove _ _ _ _)
  split
  · exact ended
  split
  · exact ended
  · exact quiet_trans ended (quiet_trans (quiet_rst _ _ _ _) (quiet_remove _ _ _ _))

theorem aside_tell (c) {ev : H2Event} (plain : Plain ev) : Aside c (tell c ev) :=
  ⟨⟨⟨rfl, rfl, prefix_rfl, rfl, id, fun limits => ⟨limits.acked, limits.adv, limits.want⟩⟩, List.Subperm.refl _⟩,
    .inr plain⟩

def resetEvent (id code : Nat) : H2Event := { h2cEventStream .streamReset id with code := code }

theorem plain_reset (id code : Nat) : Plain (resetEvent id code) := ⟨nofun, nofun, rfl⟩

theorem aside_fault (c) (id code : Nat) (forgive : Bool) : Aside c (h2cStreamFault c id code forgive) := by
  unfold h2cStreamFault
  refine aside_trans (quiet_rst c id code true).aside (aside_trans ?_ (quiet_debt _).aside)
  split
  · exact aside_trans (aside_tell _ (plain_reset id code)) (quiet_remove _ _ _ _).aside
  split
  · exact (quiet_ring _ _ _).aside
  · exact (quiet_refl _).aside

theorem fault_ev {id : Nat} {s : H2Stream} (found : h2cFind c id = some s) (code : Nat) (forgive : Bool) :
    (h2cStreamFault c id code forgive).ev = resetEvent id code := by
  have still : h2cFind (h2cQRst c id code true) id = some s := found
  unfold h2cStreamFault
  simp only [still]
  rw [(quiet_debt _).ev, (quiet_remove _ _ _ _).ev]
  rfl

theorem aside_closed_frame (c) (id unknown : Nat) : Aside c (h2cClosedFrame c id unknown) := by
  unfold h2cClosedFrame
  split
  · exact (quiet_refl c).aside
  · exact aside_fault _ _ _ _
  · exact (quiet_fail _ _).aside
  · exact (quiet_fail _ _).aside

theorem aside_list_fault (c) {id : Nat} {s : H2Stream} (found : h2cFind c id = some s) (tooBig : Bool) :
    Aside c (listFault c id tooBig) := by
  unfold listFault
  simp only
  refine aside_trans (aside_fault c id h2ProtocolError (!c.fin)) (aside_tell _ ?_)
  rw [fault_ev found]
  exact ⟨nofun, nofun, rfl⟩

theorem moved_bodies (delta : Int) (streams : List H2Stream) :
    (moveSendWindows delta streams).1.map bodyOf = streams.map bodyOf := by
  induction streams with
  | nil => rfl
  | cons s rest ih =>
    unfold moveSendWindows
    dsimp only
    split
    · rfl
    rw [map_cons, map_cons, ih]
    rfl

theorem quiet_peer_window (c) (value : Nat) : Quiet c (peerWindowSet c value) := by
  have moved : Quiet c { c with streams := (moveSendWindows ((value : Int) - c.peerWindow) c.streams).1 } :=
    quiet_same rfl (moved_bodies _ _)
  unfold peerWindowSet
  dsimp only
  split
  · exact quiet_trans moved (quiet_same rfl rfl)
  · exact quiet_trans moved (quiet_fail _ _)

theorem quiet_setting (c) (st : H2Setting) : Quiet c (h2cApplySetting c st) := by
  unfold h2cApplySetting
  split
  · exact quiet_same rfl rfl
  · split
    · exact quiet_fail _ _
    · exact quiet_refl c
  · exact quiet_same rfl rfl
  · exact quiet_peer_window c st.value
  · exact quiet_same rfl rfl
  · exact quiet_same rfl rfl
  · have said : Quiet c { c with peerConnectProtocol := c.peerConnectProtocol || st.value == 1 } := quiet_same rfl rfl
    unfold peerConnectSet
    split
    · exact quiet_trans said (quiet_fail _ _)
    · exact said
  · exact quiet_refl c

theorem quiet_local_window (c) (window : Nat) : Quiet c (h2cLocalWindow c window) := by
  refine quiet_same rfl ?_
  unfold h2cLocalWindow
  rw [map_map]
  exact map_congr_left fun s _ => rfl

theorem quiet_settings_change (c) : Quiet c (h2cSettingsChange c).1 := by
  have queued : Quiet c { c with wire := c.wire.push (h2WriteSettings (changedSettings c)) } :=
    quiet_wire c (grows_push _ _)
  have said : Quiet c { c with
      wire := c.wire.push (h2WriteSettings (changedSettings c))
      advStreams := c.wantStreams, advWindow := c.wantWindow, chgInflight := true } :=
    ⟨⟨⟨rfl, rfl, queued.out, queued.reported, queued.closed, fun limits => ⟨limits.acked, limits.want, limits.want⟩⟩,
      queued.bodies⟩, rfl⟩
  unfold h2cSettingsChange
  split
  · exact quiet_refl c
  split
  · exact quiet_fall c
  unfold saySettings
  split
  · exact quiet_trans said (quiet_local_window _ _)
  · exact said

theorem quiet_round_trip (c) : Quiet c (markRoundTrip c) := by
  have marked (d : H2Conn) (mark : Nat) : Quiet d { d with growMark := mark } := quiet_same rfl rfl
  unfold markRoundTrip
  split
  · exact quiet_trans (quiet_clock c) (marked _ _)
  · exact quiet_refl c

theorem quiet_settings_acked (c) : Quiet c (h2cSettingsAcked c) := by
  unfold h2cSettingsAcked
  split
  · split
    · have acked : Quiet c { c with chgInflight := false, ackedStreams := c.advStreams } :=
        ⟨⟨⟨rfl, rfl, prefix_rfl, rfl, id, fun limits => ⟨limits.adv, limits.adv, limits.want⟩⟩, List.Subperm.refl _⟩, rfl⟩
      unfold changeAcked
      refine quiet_trans (quiet_trans acked ?_) (quiet_settings_change _)
      split
      · exact quiet_local_window _ _
      · exact quiet_refl _
    · exact quiet_refl c
  have inForce : Quiet c { c with settingsAcked := true } := quiet_same rfl rfl
  have timed := quiet_round_trip { c with settingsAcked := true }
  have told (d : H2Conn) : Quiet d { d with
      dec := d.dec.map fun decoder => Hpack.Decoder.hpackDecoderSetMaxTableBytes decoder d.cfgTable } :=
    quiet_same rfl rfl
  unfold openingAcked
  exact quiet_trans (quiet_trans (quiet_trans inForce timed) (told _)) (quiet_local_window _ _)

theorem quiet_skip (c) (n : Nat) : Quiet c (h2cToSkip c n) := quiet_same rfl rfl

theorem quiet_fixed (c) (need : Nat) : Quiet c (h2cToFixed c need) := quiet_same rfl rfl

theorem aside_stream_data (c) (f : H2Frame) (s : H2Stream) : Aside c (onStreamData c f s) := by
  have dropped : Aside c (dropping c) := Quiet.aside (quiet_same rfl rfl)
  have charged : Quiet c (setStream c s.id fun s => { s with recvWin := s.recvWin - f.length }) :=
    quiet_mark c s.id fun s => rfl
  unfold onStreamData
  split
  · exact aside_trans dropped (aside_fault _ _ _ _)
  split
  · exact aside_trans dropped (aside_fault _ _ _ _)
  split
  · exact aside_trans dropped (aside_fault _ _ _ _)
  split
  · exact charged.aside
  split
  · exact (quiet_trans charged (quiet_fail _ _)).aside
  · exact (quiet_trans charged (quiet_fixed _ _)).aside

theorem aside_data_header (c) (f : H2Frame) : Aside c (onDataHeader c f) := by
  have begun : Quiet c { c with cur := f.streamId, fin := f.endStream, drop := false } := quiet_same rfl rfl
  have charged : Quiet c (chargeData { c with cur := f.streamId, fin := f.endStream, drop := false } f) :=
    quiet_same rfl rfl
  have dropped (d : H2Conn) : Quiet d (dropping d) := quiet_same rfl rfl
  unfold onDataHeader
  split
  · exact (quiet_trans begun (quiet_fail _ _)).aside
  split
  · exact aside_trans charged.aside (aside_stream_data _ _ _)
  split
  · exact (quiet_trans charged (quiet_fail _ _)).aside
  · exact aside_trans (quiet_trans charged (dropped _)).aside (aside_closed_frame _ _ _)

theorem quiet_empty_frame (c) : Quiet c (emptyFrame c) := by
  have counted : Quiet c { c with emptyRun := c.emptyRun + 1 } := quiet_same rfl rfl
  unfold emptyFrame
  split
  · exact quiet_trans counted (quiet_fail _ _)
  · exact counted

theorem quiet_to_block (c) (length need : Nat) : Quiet c (toBlock c length need) := by
  have awaited : Quiet c { c with contentLeft := length, padLeft := 0 } := quiet_same rfl rfl
  unfold toBlock
  split
  · exact quiet_trans awaited (quiet_fixed _ _)
  · exact quiet_trans awaited (quiet_same rfl rfl)

theorem quiet_begin_block (begun : Quiet c d) (length need : Nat) :
    Quiet c (if d.closed then d else toBlock d length need) := by
  split
  · exact begun
  · exact quiet_trans begun (quiet_to_block _ _ _)

theorem quiet_headers_header (c) (f : H2Frame) : Quiet c (onHeadersHeader c f) := by
  have begun : Quiet c { c with
      cur := f.streamId, fin := f.endStream, endHeaders := f.endHeaders, expectCont := f.streamId
      blk := [], selfDep := false } := quiet_same rfl rfl
  unfold onHeadersHeader
  split
  · exact quiet_trans begun (quiet_fail _ _)
  apply quiet_begin_block
  split
  · exact quiet_trans begun (quiet_empty_frame _)
  · exact begun

theorem quiet_continuation_header (c) (f : H2Frame) : Quiet c (onContinuationHeader c f) := by
  have begun : Quiet c { c with endHeaders := f.endHeaders } := quiet_same rfl rfl
  unfold onContinuationHeader
  apply quiet_begin_block
  split
  · exact quiet_trans begun (quiet_empty_frame _)
  · exact begun

theorem quiet_settings_header (c) (f : H2Frame) : Quiet c (onSettingsHeader c f) := by
  have got : Quiet c { c with gotSettings := true, settingsLeft := f.length } := quiet_same rfl rfl
  unfold onSettingsHeader
  split
  · exact quiet_trans (quiet_settings_acked c) (quiet_skip _ _)
  split
  · exact quiet_trans (quiet_trans got (quiet_empty _ _ _ _)) (quiet_skip _ _)
  · exact quiet_trans got (quiet_fixed _ _)

theorem aside_header (c) : Aside c (h2cOnHeader c) := by
  unfold h2cOnHeader
  dsimp only
  split
  · exact (quiet_fail _ _).aside
  split
  · split
    · exact (quiet_fail _ _).aside
    · exact aside_trans (quiet_skip _ _).aside (aside_fault _ _ _ _)
  split
  · exact (quiet_fail _ _).aside
  split
  · exact aside_data_header c c.f
  · exact (quiet_headers_header c c.f).aside
  · exact (quiet_continuation_header c c.f).aside
  · exact (quiet_settings_header c c.f).aside
  · exact (quiet_fail _ _).aside
  · exact (quiet_fixed _ _).aside
  · exact (quiet_fixed _ _).aside
  · exact (quiet_fixed _ _).aside
  · exact (quiet_fixed _ _).aside
  · exact (quiet_fixed _ _).aside
  · exact (quiet_skip _ _).aside

theorem quiet_data_fixed (c) (f : H2Frame) (b : List Byte) : Quiet c (onDataFixed c f b) := by
  unfold onDataFixed
  dsimp only
  split
  · exact quiet_fail _ _
  refine quiet_trans (quiet_trans ?_ (quiet_stream_credit _ _ _)) (quiet_credit _ _)
  exact quiet_same rfl rfl

theorem quiet_headers_fixed (c) (f : H2Frame) (b : List Byte) : Quiet c (onHeadersFixed c f b) := by
  have marked : Quiet c (markSelfDep c f b) := by
    unfold markSelfDep
    split
    · exact quiet_same rfl rfl
    · exact quiet_refl c
  unfold onHeadersFixed
  dsimp only
  split
  · exact quiet_trans marked (quiet_fail _ _)
  · exact quiet_trans marked (quiet_same rfl rfl)

theorem quiet_settings_fixed (c) (b : List Byte) : Quiet c (onSettingsFixed c b) := by
  unfold onSettingsFixed
  split
  · exact quiet_fail _ _
  rename_i st _
  have applied := quiet_setting c st
  have counted (d : H2Conn) : Quiet d { d with settingsLeft := d.settingsLeft - 6 } := quiet_same rfl rfl
  dsimp only
  split
  · exact applied
  split
  · exact quiet_trans (quiet_trans applied (counted _)) (quiet_fixed _ _)
  · exact quiet_trans (quiet_trans (quiet_trans applied (counted _)) (quiet_empty _ _ _ _)) (quiet_skip _ _)

theorem aside_window_update (c) (f : H2Frame) (b : List Byte) : Aside c (onWindowUpdateFixed c f b) := by
  have skipped := quiet_skip c 0
  unfold onWindowUpdateFixed
  dsimp only
  split
  · split
    · exact (quiet_trans skipped (quiet_fail _ _)).aside
    split
    · exact (quiet_trans skipped (quiet_fail _ _)).aside
    · exact Quiet.aside (quiet_trans skipped (quiet_same rfl rfl))
  split
  · split
    · exact (quiet_trans skipped (quiet_fail _ _)).aside
    · exact skipped.aside
  rename_i s _
  split
  · exact aside_trans skipped.aside (aside_fault _ _ _ _)
  split
  · exact aside_trans skipped.aside (aside_fault _ _ _ _)
  have raised := @quiet_mark (h2cToSkip c 0) s.id
    (fun s => { s with sendWin := s.sendWin + h2U31 b 0 }) fun _ => rfl
  exact Quiet.aside (quiet_trans (quiet_trans skipped raised) (quiet_same rfl rfl))

theorem aside_goaway_event (c) : Aside c (h2cGoawayEvent c) := by
  have heard : Quiet c { c with goawayRecv := true, sweepGoaway := true } := quiet_same rfl rfl
  exact aside_trans heard.aside (aside_tell _ ⟨nofun, nofun, rfl⟩)

theorem aside_goaway (c) (f : H2Frame) (b : List Byte) : Aside c (onGoawayFixed c f b) := by
  have noted : Quiet c { c with goawayLast := h2U31 b 0, goawayCode := h2U32 b 4, text := [] } := quiet_same rfl rfl
  unfold onGoawayFixed
  dsimp only
  split
  · exact (quiet_fail _ _).aside
  split
  · exact Quiet.aside (quiet_trans noted (quiet_same rfl rfl))
  · exact aside_trans (quiet_trans noted (quiet_skip _ _)).aside (aside_goaway_event _)

theorem aside_on_fixed (c : H2Conn) (notRst : c.f.type ≠ h2RstStream) : Aside c (h2cOnFixed c) := by
  have skipped := quiet_skip c 0
  unfold h2cOnFixed
  dsimp only
  split
  · exact (quiet_data_fixed _ _ _).aside
  · exact (quiet_headers_fixed _ _ _).aside
  · exact (quiet_settings_fixed _ _).aside
  · exact aside_window_update _ _ _
  next rst =>
    exact absurd rst notRst
  · split
    · exact aside_trans skipped.aside (aside_fault _ _ _ _)
    · exact skipped.aside
  · split
    · exact (quiet_trans skipped (quiet_empty _ _ _ _)).aside
    · exact aside_trans skipped.aside (aside_tell _ ⟨nofun, nofun, rfl⟩)
  · exact aside_goaway _ _ _
  · exact (quiet_skip _ _).aside

theorem aside_due (c) : Aside c (h2cDue c).1 := by
  have swept (mark : Bool) (d : H2Conn) : Quiet d { d with sweepGoaway := false, sweepWritable := mark } :=
    quiet_same rfl rfl
  unfold h2cDue
  split
  · exact (quiet_refl c).aside
  split
  next s _ =>
    exact aside_trans (aside_tell c (plain_reset s.id h2RefusedStream))
      (quiet_remove (tell c (resetEvent s.id h2RefusedStream)) s.id false (some .peer)).aside
  have began : Quiet c { c with sweepGoaway := false } := quiet_same rfl rfl
  dsimp only
  split
  next i s _ =>
    have woken := @quiet_mark { c with sweepGoaway := false } s.id
      (fun s => { s with blocked := false, hblocked := false }) fun _ => rfl
    have moved (d : H2Conn) : Quiet d { d with sweepAt := i + 1 } := quiet_same rfl rfl
    exact aside_trans (quiet_trans (quiet_trans began woken) (moved _)).aside (aside_tell _ ⟨nofun, nofun, rfl⟩)
  split
  · refine Quiet.aside (quiet_trans (swept false c) (quiet_wire _ ?_))
    exact ⟨prefix_rfl, rfl, fun _ => rfl⟩
  · exact (swept false c).aside

theorem quiet_refused (c) : Quiet c (outRefused c) := quiet_wire c ⟨prefix_rfl, rfl, id⟩

theorem quiet_sent (c) (bytes : List Byte) : Quiet c { c with wire := { c.wire with out := c.wire.out ++ bytes } } :=
  quiet_wire c ⟨prefix_append _ _, rfl, id⟩

theorem quiet_send_block (c) (id : Nat) (headers : List Hpack.Table.Field) (endStream : Bool)
    (marks : Option (List Bool)) : Quiet c (h2cSendBlock c id headers endStream marks).1 := by
  have made (d : H2Conn) (enc : Option Hpack.Encoder.HpackEncoder) : Quiet d { d with enc := enc } := quiet_same rfl rfl
  unfold h2cSendBlock
  simp only
  split
  · exact quiet_refl c
  split
  · exact quiet_refl c
  split
  · exact quiet_trans (made c _) (quiet_refused _)
  split
  · exact made c _
  rename_i enc _
  exact quiet_trans (made c (some enc)) (quiet_sent { c with enc := some enc } _)

theorem quiet_response (c) (id : Nat) (headers : List Hpack.Table.Field) (endStream : Bool) :
    Quiet c (h2ConnSubmitResponse c id headers endStream).1 := by
  have taken : Quiet c (h2cTakeSensitive c).2 := quiet_same rfl rfl
  unfold h2ConnSubmitResponse
  simp only
  split
  · exact taken
  split
  · exact taken
  split
  · exact taken
  split
  · exact taken
  split
  · exact taken
  split
  · exact quiet_trans taken (quiet_mark _ _ fun _ => rfl)
  rename_i status _ _ _ _ _ _ _ _ _
  have sent := quiet_send_block (h2cTakeSensitive c).2 id headers endStream (h2cTakeSensitive c).1
  split
  next block =>
    rw [block] at sent
    exact quiet_trans taken sent
  rename_i d _ block
  rw [block] at sent
  have marked := @quiet_mark d id (fun s =>
    { s with headSent := s.headSent || decide (200 ≤ status), tunnel := s.tunnel && decide (status ≤ 299) })
    fun _ => rfl
  have left := quiet_trans (quiet_trans taken sent) marked
  split
  · exact quiet_trans left (quiet_local_end _ _)
  · exact left

theorem quiet_send_data (c) (id : Nat) (data : List Byte) (endStream : Bool) :
    Quiet c (h2ConnSendData c id data endStream).1 := by
  have after (d : H2Conn) (all : Bool) : Quiet d (afterSend d id all endStream) := by
    unfold afterSend
    split
    · exact quiet_mark _ _ fun _ => rfl
    split
    · exact quiet_local_end _ _
    · exact quiet_refl d
  have charged (take : Nat) (frames : List Byte) : Quiet c (sendFrames c id take frames) := by
    have marked := @quiet_mark c id (fun s => { s with sendWin := s.sendWin - take }) fun _ => rfl
    have counted (d : H2Conn) : Quiet d { d with sendWin := c.sendWin - take } := quiet_same rfl rfl
    exact quiet_trans (quiet_trans marked (counted _)) (quiet_sent _ frames)
  unfold h2ConnSendData
  simp only
  split
  · exact quiet_refl c
  split
  · exact quiet_refl c
  split
  · exact quiet_refl c
  split
  · split
    · exact quiet_refused c
    · exact quiet_trans (charged _ _) (after _ _)
  · exact after _ _

theorem quiet_trailers (c) (id : Nat) (headers : List Hpack.Table.Field) :
    Quiet c (h2ConnSendTrailers c id headers).1 := by
  have taken : Quiet c (h2cTakeSensitive c).2 := quiet_same rfl rfl
  unfold h2ConnSendTrailers
  simp only
  split
  · exact taken
  split
  · exact taken
  split
  · exact taken
  split
  · exact taken
  split
  · exact quiet_trans taken (quiet_mark _ _ fun _ => rfl)
  have sent := quiet_send_block (h2cTakeSensitive c).2 id headers true (h2cTakeSensitive c).1
  split
  next block =>
    rw [block] at sent
    exact quiet_trans taken sent
  rename_i block
  rw [block] at sent
  exact quiet_trans (quiet_trans taken sent) (quiet_local_end _ _)

theorem quiet_reset (c) (id code : Nat) : Quiet c (h2ConnReset c id code).1 := by
  unfold h2ConnReset
  simp only
  split
  · exact quiet_refl c
  · exact quiet_trans (quiet_rst c id code false) (quiet_remove (h2cQRst c id code false) id false (some _))

theorem quiet_consumed (c) (id n : Nat) : Quiet c (h2ConnConsumed c id n) := by
  unfold h2ConnConsumed
  split
  · exact quiet_refl c
  split
  · exact quiet_refl c
  rename_i s _
  have given := @quiet_mark c id (fun t => { t with held := t.held - min n s.held }) fun _ => rfl
  exact quiet_trans (quiet_trans given (quiet_stream_credit _ _ _)) (quiet_credit _ _)

theorem quiet_ping (c) (bytes : List Byte) : Quiet c (h2ConnPing c bytes).1 := by
  unfold h2ConnPing
  simp only
  split
  · exact quiet_refl c
  split
  · exact quiet_refused c
  · exact quiet_sent c _

theorem quiet_shutdown (c) (code : Nat) : Quiet c (h2ConnShutdown c code) := by
  unfold h2ConnShutdown
  split
  · exact quiet_refl c
  split
  · exact quiet_fail _ _
  split
  · exact quiet_refl c
  · exact quiet_wire c (grows_goaway _ _ _)

theorem quiet_set (c) {streams : Nat} (few : Limits c → streams ≤ c.cfgStreams) (window : Nat) :
    Quiet c (h2cSet c streams window).1 := by
  have asked : Quiet c { c with wantStreams := streams, wantWindow := window } :=
    ⟨⟨⟨rfl, rfl, prefix_rfl, rfl, id, fun limits => ⟨limits.acked, limits.adv, few limits⟩⟩, List.Subperm.refl _⟩, rfl⟩
  have changed := quiet_settings_change { c with wantStreams := streams, wantWindow := window }
  unfold h2cSet
  simp only
  split
  · exact quiet_refl c
  split
  · exact asked
  split
  next block =>
    rw [block] at changed
    exact quiet_trans asked changed
  · exact quiet_refused c

theorem quiet_max_streams (c) (n : Nat) : Quiet c (h2ConnSetMaxStreams c n).1 := by
  unfold h2ConnSetMaxStreams
  split
  · exact quiet_refl c
  rename_i within
  exact quiet_set c (fun _ => le_of_not_gt within) _

theorem quiet_initial_window (c) (n : Nat) : Quiet c (h2ConnSetInitialWindow c n).1 := by
  unfold h2ConnSetInitialWindow
  split
  · exact quiet_refl c
  · exact quiet_set c Limits.want _

theorem quiet_growing (c) (streamKib connKib : Nat) (clock : List Nat) :
    Quiet c (h2ConnGrow c streamKib connKib clock) := by
  unfold h2ConnGrow
  split
  · exact quiet_refl c
  · exact quiet_same rfl rfl

theorem quiet_cap (c) (n : Nat) : Quiet c (h2ConnCapWindow c n) := by
  have capped : Quiet c { c with capWindow := n } := quiet_same rfl rfl
  unfold h2ConnCapWindow
  simp only
  split
  · exact quiet_refl c
  split
  · exact quiet_trans capped (quiet_set _ Limits.want _)
  · exact capped

theorem onward_set (c) (id : Nat) (change : H2Stream → H2Stream) : Onward c (setStream c id change) :=
  ⟨rfl, rfl, prefix_rfl, rfl, fun shut => shut, fun limits => ⟨limits.acked, limits.adv, limits.want⟩⟩

theorem onward_tell (c) (ev : H2Event) : Onward c (tell c ev) :=
  ⟨rfl, rfl, prefix_rfl, rfl, id, fun limits => ⟨limits.acked, limits.adv, limits.want⟩⟩

theorem onward_remote_end (c) (id : Nat) : Onward c (h2cRemoteEnd c id) := by
  unfold h2cRemoteEnd
  split
  · exact (quiet_refl c).toOnward
  split
  · exact (aside_fault _ _ _ _).toOnward
  have ended := onward_set c id fun s => { s with remoteEnd := true }
  split
  · exact onward_trans ended (quiet_remove _ _ _ _).toOnward
  · exact ended

theorem onward_take_data (c) (s : H2Stream) (piece : List Byte) (last : Bool) : Onward c (takeData c s piece last) := by
  have noted : Quiet c { c with emptyRun := 0 } := quiet_same rfl rfl
  have dropped : Quiet c { c with emptyRun := 0, drop := true } := quiet_same rfl rfl
  unfold takeData
  simp only
  split
  · exact onward_trans (quiet_trans dropped (quiet_credit _ _)).toOnward (aside_fault _ _ _ _).toOnward
  have told := onward_trans noted.toOnward (onward_trans (onward_set _ s.id fun s =>
    { s with got := s.got + piece.length, held := s.held + piece.length })
    (onward_tell _ { h2cEventStream .data s.id with data := piece, endStream := last && c.fin }))
  split
  · exact onward_trans told (onward_remote_end _ _)
  · exact told

theorem onward_data_piece (c) (piece : List Byte) : Onward c (dataPiece c piece) := by
  have taken : Quiet c (contentTaken c piece.length) := by
    unfold contentTaken
    simp only
    split
    all_goals exact quiet_same rfl rfl
  unfold dataPiece
  simp only
  split
  · exact (quiet_trans taken (quiet_credit _ _)).toOnward
  · exact onward_trans taken.toOnward (onward_take_data _ _ _ _)

theorem onward_data_end (c) : Onward c (dataEnd c) := by
  have skipped := quiet_skip c c.padLeft
  unfold dataEnd
  simp only
  split
  · exact skipped.toOnward
  split
  · exact onward_trans skipped.toOnward (onward_trans (onward_tell _ _) (onward_remote_end _ _))
  · exact (quiet_trans skipped (quiet_empty_frame _)).toOnward

theorem onward_add {added : H2Conn} {id : Nat} (adds : h2cAdd c id = some added) : Onward c added := by
  unfold h2cAdd at adds
  split at adds
  · cases adds
  by_cases grow : c.growNow = true
  · simp only [grow, if_true, Option.some.injEq] at adds
    subst adds
    exact ⟨rfl, rfl, prefix_rfl, rfl, fun shut => shut, fun limits => ⟨limits.acked, limits.adv, limits.want⟩⟩
  simp only [grow, Option.some.injEq] at adds
  subst adds
  exact ⟨rfl, rfl, prefix_rfl, rfl, fun shut => shut, fun limits => ⟨limits.acked, limits.adv, limits.want⟩⟩

theorem onward_open_request (c) (id : Nat) (head : RequestHead) (length : Option Nat) :
    Onward c (openRequest c id head length) := by
  unfold openRequest
  split
  · exact (quiet_fall c).toOnward
  rename_i added adds
  have acted (d : H2Conn) : Quiet d { d with lastActed := id } := quiet_same rfl rfl
  exact onward_trans (onward_trans (onward_add adds) (onward_set _ _ _)) (onward_trans (acted _).toOnward (onward_tell _ _))

theorem onward_request (c) (id : Nat) (fields : Option (List Hpack.Table.Field)) : Onward c (onRequest c id fields) := by
  have seen : Quiet c { c with lastPeerId := id } := quiet_same rfl rfl
  unfold onRequest
  simp only
  split
  · refine (quiet_trans seen ?_).toOnward
    unfold refuseRequest
    simp only
    split
    · exact quiet_trans (quiet_rst _ _ _ _) (quiet_ring _ _ _)
    · exact quiet_rst _ _ _ _
  split
  · exact onward_trans seen.toOnward (aside_fault _ _ _ _).toOnward
  split
  · exact onward_trans seen.toOnward (aside_fault _ _ _ _).toOnward
  · exact onward_trans seen.toOnward (onward_open_request _ _ _ _)

theorem onward_list_fault (c) (id : Nat) (tooBig : Bool) : Onward c (listFault c id tooBig) := by
  unfold listFault
  exact onward_trans (aside_fault c id h2ProtocolError (!c.fin)).toOnward (onward_tell _ _)

theorem onward_tell_response (c) (id status : Nat) (rest : List Hpack.Table.Field) :
    Onward c (tellResponse c id status rest) := by
  unfold tellResponse
  simp only
  split
  · exact onward_trans (onward_tell _ _) (onward_remote_end _ _)
  · exact onward_tell _ _

theorem onward_response (c) (s : H2Stream) (fields : Option (List Hpack.Table.Field)) :
    Onward c (onResponse c s fields) := by
  unfold onResponse
  split
  · exact onward_list_fault _ _ _
  split
  · exact onward_list_fault _ _ _
  split
  · split
    · exact (aside_fault _ _ _ _).toOnward
    · exact onward_tell_response _ _ _ _
  split
  · exact (aside_fault _ _ _ _).toOnward
  · exact onward_trans (onward_set _ _ _) (onward_tell_response _ _ _ _)

theorem onward_trailers (c) (s : H2Stream) (fields : Option (List Hpack.Table.Field)) :
    Onward c (onTrailers c s fields) := by
  unfold onTrailers
  split
  · exact onward_list_fault _ _ _
  split
  · exact onward_list_fault _ _ _
  · exact onward_trans (onward_tell _ _) (onward_remote_end _ _)

theorem onward_list (c) (fields : Option (List Hpack.Table.Field)) : Onward c (onList c fields) := by
  have noted : Quiet c { c with selfDep := false } := quiet_same rfl rfl
  unfold onList
  split
  next s _ =>
    unfold onOpenList
    split
    · exact onward_trans noted.toOnward (aside_fault _ _ _ _).toOnward
    split
    · exact (aside_fault _ _ _ _).toOnward
    split
    · exact onward_response _ _ _
    · exact onward_trailers _ _ _
  split
  · have passed : Quiet c { c with selfDep := false, lastPeerId := c.cur } := quiet_same rfl rfl
    exact onward_trans passed.toOnward (aside_fault _ _ _ _).toOnward
  unfold onNewList
  split
  · split
    · exact onward_trans noted.toOnward (aside_closed_frame _ _ _).toOnward
    · exact (quiet_trans noted (quiet_fail _ _)).toOnward
  split
  · exact onward_trans noted.toOnward (aside_closed_frame _ _ _).toOnward
  · exact onward_trans noted.toOnward (onward_request _ _ _)

theorem onward_block (c) (block : List Byte) : Onward c (h2cOnBlock c block) := by
  have decoded (dec : Option Hpack.Decoder.HpackDecoder) : Quiet c { c with dec := dec } := quiet_same rfl rfl
  unfold h2cOnBlock
  simp only
  split
  · exact onward_trans (decoded _).toOnward (onward_list _ _)
  · exact onward_trans (decoded _).toOnward (onward_list _ _)
  · exact (quiet_trans (decoded _) (quiet_fail _ _)).toOnward

theorem onward_rst (c) (f : H2Frame) (b : List Byte) : Onward c (onRstFixed c f b) := by
  have skipped := quiet_skip c 0
  unfold onRstFixed
  simp only
  split
  · split
    · exact (quiet_trans skipped (quiet_fail _ _)).toOnward
    · exact skipped.toOnward
  split
  · exact onward_trans skipped.toOnward
      (onward_trans (onward_tell _ _) (quiet_trans (quiet_remove _ _ _ _) (quiet_debt _)).toOnward)
  · exact onward_trans skipped.toOnward (onward_trans (onward_tell _ _) (quiet_remove _ _ _ _).toOnward)

end ProvenC.H2.Bodies
