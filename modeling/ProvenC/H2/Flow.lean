import ProvenC.H2.Accounts

/-!
# What a step can do to the windows

Every turn of the reader, and every call but those that change what this side says, is a sequence of a
few kinds of steps: credit given back, content charged, taken, delivered and consumed, a stream that
opens, windows that the peer moves.
-/

namespace ProvenC.H2.Flow

open Bytes H2.Frame H2.Head H2.Conn H2.Reader H2.Calls
open H2.Accounts Lib.Slots

def InData (c : H2Conn) : Prop := c.rs = .data ∨ (c.rs = .fixed ∧ c.f.type = h2Data)

def transit (c : H2Conn) : Nat :=
  match c.rs with
  | .data => c.contentLeft
  | .fixed => if c.f.type = h2Data then c.contentLeft else 0
  | _ => 0

variable {c : H2Conn}

theorem transit_inside (inside : InData c) : transit c = c.contentLeft := by
  rcases inside with data | ⟨fixed, type⟩
  · simp only [transit, data]
  · simp only [transit, fixed, type, if_true]

theorem transit_outside (outside : ¬ InData c) : transit c = 0 := by
  unfold transit
  split
  next data =>
    exact absurd (.inl data) outside
  next fixed =>
    exact if_neg fun type => outside (.inr ⟨fixed, type⟩)
  · rfl

variable {c' : H2Conn}

theorem in_data_iff (reading : flowReading c' = flowReading c) : InData c' ↔ InData c := by
  simp only [flowReading, FlowReading.mk.injEq] at reading
  obtain ⟨rs, f, -⟩ := reading
  unfold InData
  rw [rs, f]

theorem transit_eq (reading : flowReading c' = flowReading c) : transit c' = transit c := by
  simp only [flowReading, FlowReading.mk.injEq] at reading
  obtain ⟨rs, f, left, -⟩ := reading
  unfold transit
  rw [rs, f, left]

/-- What was taken and not yet put: bytes of the connection's account, bytes of a stream's; and
whether this side's next stream is in the table before its number is used up. -/
structure Hand where
  conn : Nat
  id : Nat
  stream : Nat
  opening : Bool

namespace Hand

def empty : Hand := ⟨0, 0, 0, false⟩

/-- `n` bytes of both accounts. -/
def both (id n : Nat) : Hand := ⟨n, id, n, false⟩

end Hand

inductive Opening (c : H2Conn) (id : Nat) : Bool → Prop
  | peers (server : c.server = true) (outside : ¬ InData c) (fresh : h2cFind c id = none) : Opening c id false
  | own (client : c.server = false) (isOpen : c.closed = false) (next : id = c.nextId) : Opening c id true

inductive FlowStep : Hand → H2Conn → Hand → H2Conn → Prop
  | quiet {hand : Hand} {c c' : H2Conn} (quiet : Quiet c c') : FlowStep hand c hand c'
  | credit {n id m : Nat} {c c' : H2Conn} (moves : Moves n c c') :
      FlowStep ⟨n, id, m, false⟩ c ⟨0, id, m, false⟩ c'
  | creditStream (k id n : Nat) (c : H2Conn) :
      FlowStep ⟨k, id, n, false⟩ c ⟨k, 0, 0, false⟩ (h2cStreamCredit c id n)
  | forget (k id n : Nat) (c : H2Conn) : FlowStep ⟨k, id, n, false⟩ c ⟨k, 0, 0, false⟩ c
  | consume {c : H2Conn} {id n : Nat} {s : H2Stream} (found : h2cFind c id = some s) (held : n ≤ s.held) :
      FlowStep .empty c (.both id n) (setStream c id fun s => { s with held := s.held - n })
  | deliver {c : H2Conn} {n : Nat} {s : H2Stream} (found : h2cFind c s.id = some s) :
      FlowStep (.both s.id n) c .empty
        (setStream c s.id fun s => { s with got := s.got + n, held := s.held + n })
  | take {c : H2Conn} {n : Nat} (data : c.rs = .data) (there : n ≤ c.contentLeft) :
      FlowStep .empty c ⟨n, c.cur, if c.drop then 0 else n, false⟩ (contentTaken c n)
  | padding {c : H2Conn} {pad : Nat} (fixed : c.rs = .fixed) (data : c.f.type = h2Data) (fits : pad < c.f.length) :
      FlowStep .empty c (.both c.cur (pad + 1))
        { c with contentLeft := c.f.length - 1 - pad, padLeft := pad, rs := .data }
  | dropping {hand : Hand} {c : H2Conn} (content : c.rs ≠ .fixed) : FlowStep hand c hand { c with drop := true }
  | outside {hand : Hand} {c c' : H2Conn} (before : ¬ InData c) (after : ¬ InData c')
      (settings : flowSettings c' = flowSettings c) (streams : c'.streams = c.streams)
      (account : (c'.sendWin, c'.recvWin, c'.recvUnacked, c'.recvTarget) =
        (c.sendWin, c.recvWin, c.recvUnacked, c.recvTarget))
      (closed : c.closed = true → c'.closed = true) : FlowStep hand c hand c'
  | frameEnd {c : H2Conn} (n : Nat) (data : c.rs = .data) (none : c.contentLeft = 0) :
      FlowStep .empty c .empty (h2cToSkip c n)
  | charge {c : H2Conn} {f : H2Frame} (fin : Bool) (before : ¬ InData c) (fits : (f.length : Int) ≤ c.recvWin) :
      FlowStep .empty c .empty (chargeData { c with cur := f.streamId, fin := fin, drop := true } f)
  | chargeIdle {c : H2Conn} {f : H2Frame} (fin : Bool) (code : Nat) (before : ¬ InData c)
      (fits : (f.length : Int) ≤ c.recvWin) (absent : h2cFind c f.streamId = none) :
      FlowStep .empty c .empty
        (h2cFail (chargeData { c with cur := f.streamId, fin := fin, drop := false } f) code)
  | chargeStream {c : H2Conn} {f : H2Frame} {s : H2Stream} (fin : Bool) (before : ¬ InData c)
      (fits : (f.length : Int) ≤ c.recvWin) (found : h2cFind c f.streamId = some s)
      (room : (f.length : Int) ≤ s.recvWin) :
      FlowStep .empty c .empty
        (setStream (chargeData { c with cur := f.streamId, fin := fin, drop := false } f) s.id
          fun s => { s with recvWin := s.recvWin - f.length })
  | padded {c : H2Conn} (data : c.rs = .data) (type : c.f.type = h2Data) (whole : c.contentLeft = c.f.length)
      (kept : c.drop = false) : FlowStep .empty c .empty (h2cToFixed c 1)
  | opened {c c' : H2Conn} {id : Nat} {opening : Bool} (place : Opening c id opening) (added : h2cAdd c id = some c') :
      FlowStep .empty c ⟨0, 0, 0, opening⟩ c'
  | requested (c : H2Conn) (endStream isHead : Bool) :
      FlowStep ⟨0, 0, 0, true⟩ c .empty (requestSent c endStream isHead)
  | refused (c : H2Conn) : FlowStep ⟨0, 0, 0, true⟩ c .empty (h2cRemove c c.nextId false none)
  | peerWindow {hand : Hand} {c : H2Conn} {value : Nat} (isOpen : c.closed = false) (valid : value ≤ h2MaxWindow) :
      FlowStep hand c hand (peerWindowSet c value)
  | settingsAcked {hand : Hand} (c : H2Conn) : FlowStep hand c hand (h2cSettingsAcked c)
  | connUpdate {hand : Hand} {c : H2Conn} {inc : Nat} (fits : c.sendWin + inc ≤ h2MaxWindow) :
      FlowStep hand c hand { c with sendWin := c.sendWin + inc, sweepWritable := true }
  | streamUpdate {hand : Hand} {c : H2Conn} {s : H2Stream} {inc : Nat} (found : h2cFind c s.id = some s)
      (fits : s.sendWin + inc ≤ h2MaxWindow) :
      FlowStep hand c hand (setStream c s.id fun s => { s with sendWin := s.sendWin + inc })
  | sent {hand : Hand} {c : H2Conn} {id take : Nat} {s : H2Stream} (frames : List Byte)
      (found : h2cFind c id = some s) (stream : 0 < take → (take : Int) ≤ s.sendWin)
      (conn : 0 < take → (take : Int) ≤ c.sendWin) : FlowStep hand c hand (sendFrames c id take frames)

def Flowing (hand : Hand) (c : H2Conn) (hand' : Hand) (c' : H2Conn) : Prop :=
  Relation.ReflTransGen (fun before after : Hand × H2Conn => FlowStep before.1 before.2 after.1 after.2)
    (hand, c) (hand', c')

abbrev Flows (c c' : H2Conn) : Prop := Flowing .empty c .empty c'

variable {hand : Hand}

theorem flows_one {hand' : Hand} (step : FlowStep hand c hand' c') : Flowing hand c hand' c' :=
  Relation.ReflTransGen.single step

theorem flows_trans {hand' hand'' : Hand} {d e : H2Conn} (first : Flowing hand c hand' d)
    (second : Flowing hand' d hand'' e) : Flowing hand c hand'' e :=
  Relation.ReflTransGen.trans first second

theorem flows_refl (hand) (c : H2Conn) : Flowing hand c hand c := Relation.ReflTransGen.refl

theorem flows_quiet (quiet : Quiet c c') : Flowing hand c hand c' :=
  flows_one (.quiet quiet)

theorem flowing_keeps {P : Hand → H2Conn → Prop}
    (step : ∀ hand c hand' c', FlowStep hand c hand' c' → P hand c → P hand' c')
    {hand' : Hand} (flowing : Flowing hand c hand' c') (start : P hand c) : P hand' c' := by
  have keeps : ∀ after : Hand × H2Conn, Relation.ReflTransGen
      (fun before after : Hand × H2Conn => FlowStep before.1 before.2 after.1 after.2) (hand, c) after →
      P after.1 after.2 := by
    intro after steps
    induction steps with
    | refl => exact start
    | tail _ last kept => exact step _ _ _ _ last kept
  exact keeps _ flowing

theorem flows_open {id : Nat} (server : c.server = true) (outside : ¬ InData c)
    (fresh : h2cFind c id = none) (head : RequestHead) (length : Option Nat) :
    Flows c (openRequest c id head length) := by
  unfold openRequest
  split
  · exact flows_quiet (quiet_fall c)
  rename_i opened added
  have marked : Quiet opened (setStream opened id fun s =>
      { s with expect := length, remoteEnd := c.fin, tunnel := !head.protocol.isEmpty }) :=
    quiet_mark opened id fun _ => rfl
  have acted (c : H2Conn) (ev : H2Event) : Quiet c (tell { c with lastActed := id } ev) :=
    quiet_same rfl rfl rfl fun shut => shut
  exact flows_trans (flows_one (.opened (.peers server outside fresh) added))
    (flows_quiet (quiet_trans marked (acted _ _)))

theorem flows_request {id : Nat} (server : c.server = true) (outside : ¬ InData c)
    (fresh : h2cFind c id = none) (fields : Option (List Hpack.Table.Field)) : Flows c (onRequest c id fields) := by
  have seen : Flows c { c with lastPeerId := id } := flows_quiet (quiet_same rfl rfl rfl fun shut => shut)
  have refused : Quiet { c with lastPeerId := id } (refuseRequest { c with lastPeerId := id } id) := by
    unfold refuseRequest
    split
    · exact quiet_trans (quiet_rst _ _ _ _) (quiet_ring _ _ _)
    · exact quiet_rst _ _ _ _
  unfold onRequest
  split
  · exact flows_trans seen (flows_quiet refused)
  split
  · exact flows_trans seen (flows_quiet (quiet_fault _ _ _ _))
  split
  · exact flows_trans seen (flows_quiet (quiet_fault _ _ _ _))
  apply flows_trans seen
  apply flows_open
  · exact server
  · exact outside
  · exact fresh

theorem quiet_open_list (c) (s : H2Stream) (fields : Option (List Hpack.Table.Field)) :
    Quiet c (onOpenList c s fields) := by
  have cleared : Quiet c { c with selfDep := false } := quiet_same rfl rfl rfl fun shut => shut
  unfold onOpenList
  split
  · exact quiet_trans cleared (quiet_fault _ _ _ _)
  split
  · exact quiet_fault _ _ _ _
  split
  · exact quiet_response _ _ _
  · exact quiet_trailers _ _ _

theorem flows_new_list {id : Nat} (outside : ¬ InData c) (fresh : h2cFind c id = none)
    (fields : Option (List Hpack.Table.Field)) : Flows c (onNewList c id fields) := by
  unfold onNewList
  split
  · split
    · exact flows_quiet (quiet_closed_frame _ _ _)
    · exact flows_quiet (quiet_fail _ _)
  rename_i mine
  have server : c.server = true := by
    cases isServer : c.server
    · simp [isServer] at mine
    · rfl
  split
  · exact flows_quiet (quiet_closed_frame _ _ _)
  · exact flows_request server outside fresh _

theorem flows_list (outside : ¬ InData c) (fields : Option (List Hpack.Table.Field)) : Flows c (onList c fields) := by
  unfold onList
  split
  · exact flows_quiet (quiet_open_list _ _ _)
  rename_i fresh
  split
  · have seen : Quiet c { c with selfDep := false, lastPeerId := c.cur } :=
      quiet_same rfl rfl rfl fun shut => shut
    exact flows_quiet (quiet_trans seen (quiet_fault _ _ _ _))
  have cleared : Flows c { c with selfDep := false } :=
    flows_quiet (quiet_same rfl rfl rfl fun shut => shut)
  apply flows_trans cleared
  apply flows_new_list
  · exact outside
  · exact fresh

theorem flows_block (outside : ¬ InData c) (block : List Byte) : Flows c (h2cOnBlock c block) := by
  have decoded (dec : Option Hpack.Decoder.HpackDecoder) : Flows c { c with dec := dec } :=
    flows_quiet (quiet_same rfl rfl rfl fun shut => shut)
  unfold h2cOnBlock
  dsimp only
  split
  · apply flows_trans (decoded _)
    apply flows_list
    exact outside
  · apply flows_trans (decoded _)
    apply flows_list
    exact outside
  · exact flows_trans (decoded _) (flows_quiet (quiet_fail _ _))

theorem skip_outside (c) (n : Nat) : ¬ InData (h2cToSkip c n) := by
  simp [InData, h2cToSkip]

theorem flows_skip (n : Nat) (outside : ¬ InData c) : Flows c (h2cToSkip c n) :=
  flows_one (.outside outside (skip_outside c n) rfl rfl rfl fun shut => shut)

theorem fixed_outside (need : Nat) (notData : c.f.type ≠ h2Data) : ¬ InData (h2cToFixed c need) := by
  rintro (data | ⟨-, type⟩)
  · cases data
  · exact notData type

theorem flows_fixed (need : Nat) (notData : c.f.type ≠ h2Data) (outside : ¬ InData c) : Flows c (h2cToFixed c need) :=
  flows_one (.outside outside (fixed_outside need notData) rfl rfl rfl fun shut => shut)

variable {f : H2Frame}

theorem flows_stream_data {s : H2Stream} (frame : c.f = f) (data : f.type = h2Data)
    (outside : ¬ InData c) (fits : (f.length : Int) ≤ c.recvWin) (found : h2cFind c f.streamId = some s) :
    Flows c (onStreamData (chargeData { c with cur := f.streamId, fin := f.endStream, drop := false } f) f s) := by
  have dropped : Flows c
      (dropping (chargeData { c with cur := f.streamId, fin := f.endStream, drop := false } f)) :=
    flows_one (.charge f.endStream outside fits)
  unfold onStreamData
  split
  · exact flows_trans dropped (flows_quiet (quiet_fault _ _ _ _))
  split
  · exact flows_trans dropped (flows_quiet (quiet_fault _ _ _ _))
  split
  · exact flows_trans dropped (flows_quiet (quiet_fault _ _ _ _))
  rename_i room
  have charged := flows_one (.chargeStream f.endStream outside fits found (Int.not_lt.mp room))
  split
  · exact charged
  split
  · exact flows_trans charged (flows_quiet (quiet_fail _ _))
  exact flows_trans charged
    (flows_one (.padded rfl (frame ▸ data) (congrArg H2Frame.length frame.symm) rfl))

theorem flows_data_header (frame : c.f = f) (data : f.type = h2Data)
    (outside : ¬ InData c) : Flows c (onDataHeader c f) := by
  have begun : Flows c { c with cur := f.streamId, fin := f.endStream, drop := false } :=
    flows_one (.outside outside outside rfl rfl rfl fun shut => shut)
  unfold onDataHeader
  split
  · exact flows_trans begun (flows_quiet (quiet_fail _ _))
  rename_i enough
  have fits : (f.length : Int) ≤ c.recvWin := Int.not_lt.mp enough
  split
  next found =>
    exact flows_stream_data frame data outside fits found
  rename_i absent
  split
  · exact flows_one (.chargeIdle f.endStream _ outside fits absent)
  exact flows_trans (flows_one (.charge f.endStream outside fits))
    (flows_quiet (quiet_closed_frame _ _ _))

theorem quiet_empty_frame (c) : Quiet c (emptyFrame c) := by
  have counted : Quiet c { c with emptyRun := c.emptyRun + 1 } := quiet_same rfl rfl rfl fun shut => shut
  unfold emptyFrame
  split
  · exact quiet_trans counted (quiet_fail _ _)
  · exact counted

theorem quiet_reading {n : Int} (moves : Moves n c c') : flowReading c' = flowReading c :=
  congrArg (fun frame => frame.2.1) moves.frame

theorem quiet_type {n : Int} (moves : Moves n c c') : c'.f = c.f :=
  congrArg FlowReading.f (quiet_reading moves)

theorem quiet_outside {n : Int} (moves : Moves n c c') (outside : ¬ InData c) : ¬ InData c' := by
  rwa [in_data_iff (quiet_reading moves)]

theorem flows_to_block (length need : Nat) (notData : c.f.type ≠ h2Data) (outside : ¬ InData c) :
    Flows c (toBlock c length need) := by
  unfold toBlock
  split
  · refine flows_one (.outside outside (fixed_outside need ?_) rfl rfl rfl fun shut => shut)
    exact notData
  · exact flows_one (.outside outside (by simp [InData]) rfl rfl rfl fun shut => shut)

theorem flows_counted {d e : H2Conn} (length need : Nat) (begun : Flows c d) (counted : Quiet d e)
    (notData : d.f.type ≠ h2Data) (outside : ¬ InData d) : Flows c (if e.closed then e else toBlock e length need) := by
  have both := flows_trans begun (flows_quiet counted)
  have stays := quiet_outside counted outside
  rw [← quiet_type counted] at notData
  split
  · exact both
  · exact flows_trans both (flows_to_block _ _ notData stays)

theorem flows_headers_header (notData : c.f.type ≠ h2Data) (outside : ¬ InData c) : Flows c (onHeadersHeader c f) := by
  have begun : Flows c { c with
      cur := f.streamId, fin := f.endStream, endHeaders := f.endHeaders, expectCont := f.streamId
      blk := [], selfDep := false } :=
    flows_one (.outside outside outside rfl rfl rfl fun shut => shut)
  unfold onHeadersHeader
  split
  · exact flows_trans begun (flows_quiet (quiet_fail _ _))
  split
  · exact flows_counted _ _ begun (quiet_empty_frame _) notData outside
  · exact flows_counted _ _ begun (quiet_refl _) notData outside

theorem flows_continuation_header (notData : c.f.type ≠ h2Data)
    (outside : ¬ InData c) : Flows c (onContinuationHeader c f) := by
  have begun : Flows c { c with endHeaders := f.endHeaders } :=
    flows_one (.outside outside outside rfl rfl rfl fun shut => shut)
  unfold onContinuationHeader
  split
  · exact flows_counted _ _ begun (quiet_empty_frame _) notData outside
  · exact flows_counted _ _ begun (quiet_refl _) notData outside

theorem settings_acked_reading (c) : flowReading (h2cSettingsAcked c) = flowReading c := by
  have said (c : H2Conn) : flowReading (saySettings c) = flowReading c := by
    unfold saySettings
    split <;> rfl
  have changed (c : H2Conn) : flowReading (h2cSettingsChange c).1 = flowReading c := by
    unfold h2cSettingsChange
    split
    · rfl
    split
    · rfl
    · exact said c
  unfold h2cSettingsAcked
  split
  · split
    · unfold changeAcked
      rw [changed]
      split <;> rfl
    · rfl
  unfold openingAcked markRoundTrip
  split <;> rfl

theorem flows_settings_header (notData : c.f.type ≠ h2Data) (outside : ¬ InData c) : Flows c (onSettingsHeader c f) := by
  have got : Flows c { c with gotSettings := true, settingsLeft := f.length } :=
    flows_quiet (quiet_same rfl rfl rfl fun shut => shut)
  unfold onSettingsHeader
  split
  · have stays : ¬ InData (h2cSettingsAcked c) := by rwa [in_data_iff (settings_acked_reading c)]
    exact flows_trans (flows_one (.settingsAcked c)) (flows_skip 0 stays)
  split
  · have answered := quiet_empty { c with gotSettings := true, settingsLeft := f.length } h2Settings 1 []
    exact flows_trans got (flows_trans (flows_quiet answered) (flows_skip 0 (quiet_outside answered outside)))
  apply flows_trans got
  apply flows_fixed
  · exact notData
  · exact outside

theorem flows_header (header : c.rs = .hdr) : Flows c (h2cOnHeader c) := by
  have outside : ¬ InData c := by simp [InData, header]
  have failed (code : Nat) : Flows c (h2cFail c code) := flows_quiet (quiet_fail c code)
  unfold h2cOnHeader
  dsimp only
  split
  · exact failed _
  split
  · split
    · exact failed _
    · exact flows_trans (flows_skip _ outside) (flows_quiet (quiet_fault _ _ _ _))
  split
  · exact failed _
  have other {type : Nat} (is : c.f.type = type) (different : type ≠ h2Data) : c.f.type ≠ h2Data :=
    fun data => different (is.symm.trans data)
  split
  next type =>
    exact flows_data_header rfl type outside
  next type =>
    exact flows_headers_header (other type (by decide)) outside
  next type =>
    exact flows_continuation_header (other type (by decide)) outside
  next type =>
    exact flows_settings_header (other type (by decide)) outside
  · exact failed _
  next type =>
    exact flows_fixed 4 (other type (by decide)) outside
  next type =>
    exact flows_fixed 4 (other type (by decide)) outside
  next type =>
    exact flows_fixed 8 (other type (by decide)) outside
  next type =>
    exact flows_fixed 8 (other type (by decide)) outside
  next type =>
    exact flows_fixed 5 (other type (by decide)) outside
  · exact flows_skip _ outside

theorem flows_data_fixed (fixed : c.rs = .fixed) (data : c.f.type = h2Data) (b : List Byte) :
    Flows c (onDataFixed c c.f b) := by
  unfold onDataFixed
  dsimp only
  split
  · exact flows_quiet (quiet_fail _ _)
  rename_i short
  have padding := flows_one (.padding fixed data (lt_of_not_ge short))
  apply flows_trans padding
  apply flows_trans (flows_one (.creditStream _ _ _ _))
  exact flows_one (.credit (credit_moves _ _))

theorem quiet_self_dep (c) (f : H2Frame) (b : List Byte) : Quiet c (markSelfDep c f b) := by
  unfold markSelfDep
  split
  · exact quiet_same rfl rfl rfl fun shut => shut
  · exact quiet_refl c

theorem flows_headers_fixed (b : List Byte) (outside : ¬ InData c) : Flows c (onHeadersFixed c c.f b) := by
  have marked := quiet_self_dep c c.f b
  have stays := quiet_outside marked outside
  unfold onHeadersFixed
  dsimp only
  split
  · exact flows_quiet (quiet_trans marked (quiet_fail _ _))
  exact flows_trans (flows_quiet marked)
    (flows_one (.outside stays (by simp [InData]) rfl rfl rfl fun shut => shut))

theorem settings_next_window {bytes : List Byte} {st : H2Setting} (next : h2SettingsNext bytes = .ok st)
    (window : st.id = h2SettingsInitialWindowSize) : st.value ≤ h2MaxWindow := by
  unfold h2SettingsNext at next
  dsimp only at next
  split at next
  · cases next
  split at next
  · cases next
  rename_i within
  split at next
  · cases next
  · cases next
    exact le_of_not_gt fun larger => within ⟨window, larger⟩

theorem flows_setting {st : H2Setting} (isOpen : c.closed = false)
    (valid : st.id = h2SettingsInitialWindowSize → st.value ≤ h2MaxWindow) : Flows c (h2cApplySetting c st) := by
  unfold h2cApplySetting
  split
  · exact flows_quiet (quiet_same rfl rfl rfl fun shut => shut)
  · split
    · exact flows_quiet (quiet_fail _ _)
    · exact flows_refl _ c
  · exact flows_quiet (quiet_same rfl rfl rfl fun shut => shut)
  next window =>
    exact flows_one (.peerWindow isOpen (valid window))
  · exact flows_quiet (quiet_same rfl rfl rfl fun shut => shut)
  · exact flows_quiet (quiet_same rfl rfl rfl fun shut => shut)
  · unfold peerConnectSet
    split
    · refine flows_trans (flows_quiet ?_) (flows_quiet (quiet_fail _ _))
      exact quiet_same rfl rfl rfl fun shut => shut
    · exact flows_quiet (quiet_same rfl rfl rfl fun shut => shut)
  · exact flows_refl _ c

theorem setting_reading (c) (st : H2Setting) : flowReading (h2cApplySetting c st) = flowReading c := by
  unfold h2cApplySetting
  split
  · rfl
  · split <;> rfl
  · rfl
  · unfold peerWindowSet
    dsimp only
    split <;> rfl
  · rfl
  · rfl
  · unfold peerConnectSet
    dsimp only
    split <;> rfl
  · rfl

theorem flows_settings_fixed (b : List Byte) (isOpen : c.closed = false)
    (outside : ¬ InData c) (notData : c.f.type ≠ h2Data) : Flows c (onSettingsFixed c b) := by
  unfold onSettingsFixed
  split
  · exact flows_quiet (quiet_fail _ _)
  rename_i st next
  have applied := flows_setting isOpen (settings_next_window next)
  have stays : ¬ InData (h2cApplySetting c st) := by rwa [in_data_iff (setting_reading c st)]
  have type : (h2cApplySetting c st).f.type ≠ h2Data := by
    rwa [show (h2cApplySetting c st).f = c.f from congrArg FlowReading.f (setting_reading c st)]
  have counted (left : Nat) : Quiet (h2cApplySetting c st) { h2cApplySetting c st with settingsLeft := left } :=
    quiet_same rfl rfl rfl fun shut => shut
  dsimp only
  split
  · exact applied
  split
  · apply flows_trans (flows_trans applied (flows_quiet (counted _)))
    apply flows_fixed
    · exact type
    · exact stays
  have answered := quiet_trans (counted ((h2cApplySetting c st).settingsLeft - 6))
    (quiet_empty _ h2Settings 1 [])
  exact flows_trans (flows_trans applied (flows_quiet answered))
    (flows_skip 0 (quiet_outside answered stays))

theorem flows_window_update (b : List Byte) (outside : ¬ InData c) : Flows c (onWindowUpdateFixed c c.f b) := by
  have skipped := flows_skip 0 outside
  unfold onWindowUpdateFixed
  dsimp only
  split
  · split
    · exact flows_trans skipped (flows_quiet (quiet_fail _ _))
    split
    · exact flows_trans skipped (flows_quiet (quiet_fail _ _))
    rename_i fits
    apply flows_trans skipped
    exact flows_one (.connUpdate (Int.not_lt.mp fits))
  split
  · split
    · exact flows_trans skipped (flows_quiet (quiet_fail _ _))
    · exact skipped
  rename_i s found
  have here : s.id = c.f.streamId := (find_mem H2Stream.id found).2
  split
  · exact flows_trans skipped (flows_quiet (quiet_fault _ _ _ _))
  split
  · exact flows_trans skipped (flows_quiet (quiet_fault _ _ _ _))
  rename_i fits
  have found : h2cFind (h2cToSkip c 0) s.id = some s := here ▸ found
  apply flows_trans skipped
  apply flows_trans (flows_one (.streamUpdate found (Int.not_lt.mp fits)))
  exact flows_quiet (quiet_same rfl rfl rfl fun shut => shut)

theorem flows_rst (b : List Byte) (outside : ¬ InData c) : Flows c (onRstFixed c c.f b) := by
  have skipped := flows_skip 0 outside
  unfold onRstFixed
  dsimp only
  split
  · split
    · exact flows_trans skipped (flows_quiet (quiet_fail _ _))
    · exact skipped
  apply flows_trans skipped
  split
  · exact flows_quiet (quiet_trans (quiet_trans (quiet_tell _ _) (quiet_remove _ _ _ _)) (quiet_debt _))
  · exact flows_quiet (quiet_trans (quiet_tell _ _) (quiet_remove _ _ _ _))

theorem flows_goaway (b : List Byte) (outside : ¬ InData c) : Flows c (onGoawayFixed c c.f b) := by
  unfold onGoawayFixed
  dsimp only
  split
  · exact flows_quiet (quiet_fail _ _)
  split
  · exact flows_one (.outside outside (by simp [InData]) rfl rfl rfl fun shut => shut)
  exact flows_one (.outside outside (by simp [InData, h2cGoawayEvent, Conn.tell, h2cToSkip]) rfl rfl rfl
    fun shut => shut)

theorem flows_on_fixed (fixed : c.rs = .fixed) (isOpen : c.closed = false) : Flows c (h2cOnFixed c) := by
  by_cases data : c.f.type = h2Data
  · unfold h2cOnFixed
    simp only [data]
    exact flows_data_fixed fixed data c.small
  have outside : ¬ InData c := by simp [InData, fixed, data]
  have skipped : Flows c (h2cToSkip c 0) := flows_skip 0 outside
  unfold h2cOnFixed
  dsimp only
  split
  next type =>
    exact absurd type data
  · exact flows_headers_fixed c.small outside
  · exact flows_settings_fixed c.small isOpen outside data
  · exact flows_window_update c.small outside
  · exact flows_rst c.small outside
  · split
    · exact flows_trans skipped (flows_quiet (quiet_fault _ _ _ _))
    · exact skipped
  · split
    · exact flows_trans skipped (flows_quiet (quiet_empty _ _ _ _))
    · exact flows_trans skipped (flows_quiet (quiet_tell _ _))
  · exact flows_goaway c.small outside
  · exact skipped

theorem data_stream_found {s : H2Stream} (found : dataStream c = some s) :
    c.drop = false ∧ s.id = c.cur ∧ h2cFind c s.id = some s := by
  unfold dataStream at found
  split at found
  · cases found
  rename_i kept
  have here : s.id = c.cur := (find_mem H2Stream.id found).2
  exact ⟨by simpa using kept, here, by rwa [here]⟩

theorem flows_take_data (content : c.rs ≠ .fixed) {s : H2Stream} (found : h2cFind c s.id = some s) (piece : List Byte)
    (last : Bool) : Flowing (.both s.id piece.length) c .empty (takeData c s piece last) := by
  have counted : Quiet c { c with emptyRun := 0 } := quiet_same rfl rfl rfl fun shut => shut
  unfold takeData
  dsimp only
  split
  · apply flows_trans (flows_quiet counted)
    have dropped : Flowing (.both s.id piece.length) { c with emptyRun := 0 } (.both s.id piece.length)
        { c with emptyRun := 0, drop := true } := flows_one (.dropping content)
    apply flows_trans dropped
    apply flows_trans (flows_one (.credit (credit_moves _ _)))
    apply flows_trans (flows_one (.forget _ _ _ _))
    exact flows_quiet (quiet_fault _ _ _ _)
  have delivered : Flowing (.both s.id piece.length) c .empty (setStream { c with emptyRun := 0 } s.id
      fun s => { s with got := s.got + piece.length, held := s.held + piece.length }) :=
    flows_trans (flows_quiet counted) (flows_one (.deliver found))
  apply flows_trans delivered
  split
  · exact flows_quiet (quiet_trans (quiet_tell _ _) (quiet_remote_end _ _))
  · exact flows_quiet (quiet_tell _ _)

theorem flows_data_end (data : c.rs = .data) (none : c.contentLeft = 0) : Flows c (dataEnd c) := by
  have skipped := flows_one (.frameEnd c.padLeft data none)
  unfold dataEnd
  split
  · exact skipped
  apply flows_trans skipped
  split
  · exact flows_quiet (quiet_trans (quiet_tell _ _) (quiet_remote_end _ _))
  · exact flows_quiet (quiet_empty_frame _)

theorem taken_transit (data : c.rs = .data) (n : Nat) : transit (contentTaken c n) = c.contentLeft - n := by
  unfold contentTaken
  split
  next all =>
    simp only [transit, h2cToSkip, all]
  · exact transit_inside (c := { c with contentLeft := c.contentLeft - n }) (.inl data)

theorem taken_same (c) (n : Nat) :
    flowSettings (contentTaken c n) = flowSettings c ∧ (contentTaken c n).streams = c.streams ∧
      ((contentTaken c n).sendWin, (contentTaken c n).recvWin, (contentTaken c n).recvUnacked,
        (contentTaken c n).recvTarget) = (c.sendWin, c.recvWin, c.recvUnacked, c.recvTarget) ∧
      (contentTaken c n).wire = c.wire := by
  unfold contentTaken
  split <;> exact ⟨rfl, rfl, rfl, rfl⟩

theorem taken_frame (c) (n : Nat) : (contentTaken c n).drop = c.drop ∧ (contentTaken c n).cur = c.cur := by
  unfold contentTaken
  split <;> exact ⟨rfl, rfl⟩

theorem taken_content (data : c.rs = .data) (n : Nat) : (contentTaken c n).rs ≠ .fixed := by
  unfold contentTaken
  split
  · simp [h2cToSkip]
  · simp [data]

theorem flows_data_piece (data : c.rs = .data) {piece : List Byte}
    (there : piece.length ≤ c.contentLeft) : Flows c (dataPiece c piece) := by
  have taken := flows_one (.take data there)
  obtain ⟨drop, cur⟩ := taken_frame c piece.length
  unfold dataPiece
  dsimp only
  split
  · apply flows_trans taken
    apply flows_trans (flows_one (.credit (credit_moves _ _)))
    exact flows_one (.forget _ _ _ _)
  rename_i s found
  obtain ⟨kept, here, found⟩ := data_stream_found found
  rw [drop] at kept
  rw [kept, if_neg Bool.false_ne_true, ← cur, ← here] at taken
  exact flows_trans taken (flows_take_data (taken_content data _) found piece _)

theorem flows_data (data : c.rs = .data) (input : List Byte) : Flows c (readData c input).conn := by
  unfold readData
  split
  next none =>
    exact flows_data_end data none
  split
  · exact flows_refl _ c
  · exact flows_data_piece data (by rw [List.length_take]; omega)

theorem flows_aside (before : ¬ InData c) (state : c'.rs = .hdr ∨ c'.rs = .skip ∨ (c'.rs = c.rs ∧ c'.f = c.f))
    (settings : flowSettings c' = flowSettings c) (streams : c'.streams = c.streams)
    (account : (c'.sendWin, c'.recvWin, c'.recvUnacked, c'.recvTarget) =
        (c.sendWin, c.recvWin, c.recvUnacked, c.recvTarget))
    (closed : c.closed = true → c'.closed = true) : Flows c c' := by
  have after : ¬ InData c' := by
    rcases state with rs | rs | ⟨rs, f⟩
    · simp [InData, rs]
    · simp [InData, rs]
    unfold InData
    rwa [rs, f]
  exact flows_one (.outside before after settings streams account closed)

theorem flows_preface (preface : c.rs = .preface) (input : List Byte) : Flows c (readPreface c input).conn := by
  have before : ¬ InData c := by simp [InData, preface]
  unfold readPreface
  dsimp only
  split
  · exact flows_refl _ c
  split
  · exact flows_aside before (.inr (.inr ⟨rfl, rfl⟩)) rfl rfl rfl fun _ => rfl
  split
  · exact flows_aside before (.inr (.inr ⟨rfl, rfl⟩)) rfl rfl rfl fun shut => shut
  · exact flows_aside before (.inl rfl) rfl rfl rfl fun shut => shut

theorem flows_skipping (skip : c.rs = .skip) (input : List Byte) : Flows c (readSkip c input).conn := by
  have before : ¬ InData c := by simp [InData, skip]
  unfold readSkip
  dsimp only
  split
  · exact flows_aside before (.inr (.inr ⟨rfl, rfl⟩)) rfl rfl rfl fun shut => shut
  split
  all_goals exact flows_aside before (.inl rfl) rfl rfl rfl fun shut => shut

theorem flows_text (text : c.rs = .text) (input : List Byte) : Flows c (readText c input).conn := by
  have before : ¬ InData c := by simp [InData, text]
  unfold readText
  dsimp only
  split
  · exact flows_aside before (.inr (.inr ⟨rfl, rfl⟩)) rfl rfl rfl fun shut => shut
  · exact flows_aside before (.inr (.inl rfl)) rfl rfl rfl fun shut => shut

theorem flows_frame_end (before : ¬ InData c) (block : List Byte) : Flows c (blockFrameEnd c block) := by
  have skipped := flows_skip c.padLeft before
  unfold blockFrameEnd
  dsimp only
  split
  · exact skipped
  have ended : Flows (h2cToSkip c c.padLeft) { h2cToSkip c c.padLeft with expectCont := 0, blk := [] } :=
    flows_quiet (quiet_same rfl rfl rfl fun shut => shut)
  apply flows_trans (flows_trans skipped ended)
  apply flows_block
  exact skip_outside c c.padLeft

theorem flows_read_block (block : c.rs = .block) (input : List Byte) : Flows c (readBlock c input).conn := by
  have before : ¬ InData c := by simp [InData, block]
  unfold readBlock
  dsimp only
  split
  · split
    · exact flows_refl _ c
    split
    · exact flows_quiet (quiet_fail _ _)
    split
    · have whole : Flows c { c with contentLeft := 0, emptyRun := 0 } :=
        flows_aside before (.inr (.inr ⟨rfl, rfl⟩)) rfl rfl rfl fun shut => shut
      apply flows_trans whole
      apply flows_frame_end
      exact before
    have part : Flows c
        { c with
          blk := c.blk ++ input.take (min c.contentLeft input.length)
          contentLeft := c.contentLeft - min c.contentLeft input.length, emptyRun := 0 } :=
      flows_aside before (.inr (.inr ⟨rfl, rfl⟩)) rfl rfl rfl fun shut => shut
    split
    · exact part
    apply flows_trans part
    apply flows_frame_end
    exact before
  · exact flows_frame_end before _

theorem flows_small (input : List Byte) (need : Nat) {next : H2Conn → H2Conn}
    (goes : ∀ small, Flows { c with small := small } (next { c with small := small })) :
    Flows c (readSmall c input need next).conn := by
  have kept (small : List Byte) : Flows c { c with small := small } :=
    flows_quiet (quiet_same rfl rfl rfl fun shut => shut)
  unfold readSmall
  dsimp only
  split
  · exact flows_refl _ c
  split
  · exact kept _
  · exact flows_trans (kept _) (goes _)

theorem flows_turn (c) (input : List Byte) : Flows c (h2cReadTurn c input).conn := by
  unfold h2cReadTurn
  split
  · exact flows_refl _ c
  rename_i going
  have isOpen : c.closed = false := by
    simp only [not_or, Bool.not_eq_true] at going
    exact going.1
  split
  next preface =>
    exact flows_preface preface input
  next header =>
    refine flows_small input _ fun small => ?_
    have before : ¬ InData { c with small := small } := by simp [InData, header]
    have parsed : Flows { c with small := small } { c with small := small, f := h2FrameParse small } :=
      flows_aside before (.inl header) rfl rfl rfl fun shut => shut
    apply flows_trans parsed
    apply flows_header
    exact header
  next fixed =>
    refine flows_small input _ fun small => ?_
    apply flows_on_fixed
    · exact fixed
    · exact isOpen
  next data =>
    exact flows_data data input
  next block =>
    exact flows_read_block block input
  next text =>
    exact flows_text text input
  rename_i skip
  exact flows_skipping skip input

theorem flows_read_loop (fuel : Nat) (c : H2Conn) (input : List Byte) : Flows c (h2cReadLoop fuel c input).1 := by
  induction fuel generalizing c input with
  | zero => exact flows_refl _ c
  | succ fuel ih =>
    have turned := flows_turn c input
    rw [h2cReadLoop]
    split
    · exact turned
    · exact flows_trans turned (ih _ _)

theorem flows_turns (c) (input : List Byte) : Flows c (feedTurns c input).1 := by
  have due : Flows c (h2cDue c).1 := flows_quiet (quiet_due c)
  have read := flows_trans due (flows_read_loop (readFuel input) (h2cDue c).1 input)
  unfold feedTurns h2cRead
  dsimp only
  split
  · exact due
  split
  next result =>
    rwa [result] at read
  rename_i result
  rw [result] at read
  split
  · exact flows_trans read (flows_quiet (quiet_due _))
  · exact read

theorem flows_feed (c) (input : List Byte) : Flows c (h2ConnFeed c input).1 := by
  have told : Flows c (tell c { kind := .none }) := flows_quiet (quiet_tell c _)
  have turned := flows_trans told (flows_turns (tell c { kind := .none }) input)
  unfold h2ConnFeed
  dsimp only
  split
  · exact told
  split
  next result =>
    rwa [result] at turned
  rename_i result
  rw [result] at turned
  split
  · apply flows_trans turned
    exact flows_quiet (quiet_same rfl rfl rfl fun shut => shut)
  · exact turned

theorem flows_submit_request (c) (headers : List Hpack.Table.Field) (endStream : Bool) :
    Flows c (h2ConnSubmitRequest c headers endStream).1 := by
  have taken : Flows c { c with sensitive := none } := flows_quiet (quiet_sensitive c none)
  unfold h2ConnSubmitRequest h2cTakeSensitive
  dsimp only
  split
  · exact taken
  rename_i wellFormed
  have client : c.server = false := by
    simp only [not_or, Bool.not_eq_true] at wellFormed
    exact wellFormed.1
  split
  · exact taken
  rename_i going
  have isOpen : c.closed = false := by
    simp only [not_or, Bool.not_eq_true] at going
    exact going.1
  split
  · exact taken
  split
  · exact taken
  rename_i opened added
  have sent := flows_trans taken (flows_trans (flows_one (.opened (.own client isOpen rfl) added))
    (flows_quiet (quiet_send_block opened opened.nextId headers endStream c.sensitive)))
  split
  next block =>
    rw [block] at sent
    dsimp only
    exact flows_trans sent (flows_one (.refused _))
  rename_i block
  rw [block] at sent
  exact flows_trans sent (flows_one (.requested _ _ _))

theorem flows_after_send (c) (id : Nat) (all endStream : Bool) : Flows c (afterSend c id all endStream) := by
  unfold afterSend
  split
  · exact flows_quiet (quiet_mark c id fun _ => rfl)
  split
  · exact flows_quiet (quiet_local_end c id)
  · exact flows_refl _ c

theorem send_take_fits (c) (s : H2Stream) (n : Nat) (some_ : 0 < sendTake c s n) :
    (sendTake c s n : Int) ≤ s.sendWin ∧ (sendTake c s n : Int) ≤ c.sendWin := by
  unfold sendTake at some_ ⊢
  dsimp only at some_ ⊢
  split at some_
  · omega
  rename_i positive
  rw [if_neg positive]
  omega

theorem flows_send_data (c) (id : Nat) (data : List Byte) (endStream : Bool) :
    Flows c (h2ConnSendData c id data endStream).1 := by
  unfold h2ConnSendData
  dsimp only
  split
  · exact flows_refl _ c
  split
  · exact flows_refl _ c
  rename_i found
  split
  · exact flows_refl _ c
  split
  · split
    · exact flows_quiet (quiet_refused c)
    exact flows_trans
      (flows_one (.sent _ found (fun some_ => (send_take_fits _ _ _ some_).1)
        fun some_ => (send_take_fits _ _ _ some_).2))
      (flows_after_send _ _ _ _)
  · exact flows_after_send _ _ _ _

theorem flows_consumed (c) (id n : Nat) : Flows c (h2ConnConsumed c id n) := by
  unfold h2ConnConsumed
  split
  · exact flows_refl _ c
  split
  · exact flows_refl _ c
  rename_i found
  apply flows_trans (flows_one (.consume found (Nat.min_le_right _ _)))
  apply flows_trans (flows_one (.creditStream _ _ _ _))
  exact flows_one (.credit (credit_moves _ _))

def Call.announces : Call → Bool
  | .setMaxStreams _ | .setInitialWindow _ | .grow _ _ _ | .capWindow _ => true
  | _ => false

theorem flows_call (c) {next : Call} (quietly : Call.announces next = false) : Flows c (call c next) := by
  cases next with
  | feed input => exact flows_feed c input
  | outputSent n => exact flows_quiet (quiet_sent c n)
  | nextSensitive marks => exact flows_quiet (quiet_sensitive c marks)
  | submitRequest headers endStream => exact flows_submit_request c headers endStream
  | submitResponse id headers endStream => exact flows_quiet (quiet_submit_response c id headers endStream)
  | sendData id data endStream => exact flows_send_data c id data endStream
  | sendTrailers id headers => exact flows_quiet (quiet_send_trailers c id headers)
  | reset id code => exact flows_quiet (quiet_reset c id code)
  | consumed id n => exact flows_consumed c id n
  | ping bytes => exact flows_quiet (quiet_ping c bytes)
  | shutdown code => exact flows_quiet (quiet_shutdown c code)
  | headsPastBound => exact flows_quiet (quiet_same rfl rfl rfl fun shut => shut)
  | setMaxStreams | setInitialWindow | grow | capWindow => cases quietly

end ProvenC.H2.Flow
