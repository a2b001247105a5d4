import ProvenC.H2.Conservation

/-!
# Windows stay in range

A stream's send window never goes below what the peer's initial window and the bytes sent leave of it,
and its receive window, with what is still to come back to it, never above the initial window and what
growth added.
-/

namespace ProvenC.H2.Ranges

open List Bytes H2.Frame H2.Head H2.Conn H2.Reader H2.Calls
open H2.Accounts H2.Flow H2.Conservation Lib.Slots

def ceiling (s : FlowSettings) : Nat := max s.cfgWindow h2DefaultWindow

def least (s : FlowSettings) : Nat :=
  if s.growNow then max 1 (s.cfgWindow + 1024 * s.growStreamKib - h2MaxWindow) else 1

/-- What is on its way back to the stream `id`: of the frame in progress, and in hand. -/
def coming (hand : Hand) (c : H2Conn) (id : Nat) : Nat :=
  (if id = c.cur ∧ c.drop = false then transit c else 0) + if id = hand.id then hand.stream else 0

/-- The windows of one stream. `back` is on its way back to it. -/
structure StreamRanged (settings : FlowSettings) (closed : Bool) (back : Nat) (s : FlowStream) : Prop where
  sendHigh : s.sendWin ≤ h2MaxWindow
  sendLow : -(h2MaxWindow : Int) ≤ s.sendWin
  sendMoves : closed = false → (settings.peerWindow : Int) - h2MaxWindow ≤ s.sendWin
  granted : s.recvWin + s.unacked + s.held + back ≤ settings.localWindow + (s.win - least settings : Nat)
  unreturned : s.unacked + s.held + back ≤ ceiling settings + (s.win - least settings)
  recvLow : (settings.localWindow : Int) - h2MaxWindow ≤ s.recvWin
  grown : s.win ≤ 1024 * settings.growStreamKib
  grownLeast : s.win = 0 ∨ least settings ≤ s.win
  growing : 0 < s.win → settings.growNow = true ∧ settings.settingsAcked = true
  capped : settings.capWindow = 0 ∨ s.win ≤ settings.capWindow

structure SettingsRanged (settings : FlowSettings) : Prop where
  growStream : settings.growStreamKib < 2 ^ 16
  growConn : settings.growConnKib < 2 ^ 16
  cfg : settings.cfgWindow ≤ h2MaxWindow
  inForce : settings.localWindow ≤ ceiling settings
  adv : settings.advWindow ≤ settings.cfgWindow
  want : settings.wantWindow ≤ settings.cfgWindow
  advLeast : settings.advWindow = 0 ∨ least settings ≤ settings.advWindow
  wantLeast : settings.wantWindow = 0 ∨ least settings ≤ settings.wantWindow
  acked : settings.settingsAcked = true → settings.advWindow ≤ settings.localWindow
  peer : settings.peerWindow ≤ h2MaxWindow

structure Ranged (hand : Hand) (c : H2Conn) : Prop where
  settings : SettingsRanged (flowSettings c)
  sendLow : 0 ≤ c.sendWin
  sendHigh : c.sendWin ≤ h2MaxWindow
  recvLow : 0 ≤ c.recvWin
  target : c.recvTarget ≤ h2MaxWindow
  unique : (c.streams.map H2Stream.id).Nodup
  own : c.server = false → ∀ s ∈ c.streams, s.id < c.nextId ∨ (hand.opening = true ∧ s.id = c.nextId)
  begun : c.server = false → c.closed = false → InData c → c.drop = false → c.cur < c.nextId
  padded : c.rs = .fixed → c.f.type = h2Data → c.drop = false ∧ c.contentLeft = c.f.length
  streams : ∀ s ∈ c.streams, StreamRanged (flowSettings c) c.closed (coming hand c s.id) (flowOf s)

theorem coming_empty (c) (id : Nat) : coming .empty c id = if id = c.cur ∧ c.drop = false then transit c else 0 := by
  unfold coming
  rw [show Hand.empty.stream = 0 from rfl, ite_self, add_zero]

theorem coming_both (c) (id n : Nat) : coming (.both id n) c id = coming .empty c id + n := by
  rw [coming_empty]
  simp only [coming, Hand.both, if_true]

variable {id : Nat}

theorem coming_other (c) {other : Nat} (n : Nat) (different : other ≠ id) :
    coming (.both id n) c other = coming .empty c other := by
  rw [coming_empty]
  simp only [coming, Hand.both, different, if_false, add_zero]

theorem least_pos (s : FlowSettings) : 1 ≤ least s := by
  unfold least
  split <;> omega

theorem growth_fits {s : FlowSettings} (ranged : SettingsRanged s) (growing : s.growNow = true) :
    ceiling s + 1024 * s.growStreamKib ≤ h2MaxWindow + least s := by
  have kib := ranged.growStream
  have positive := least_pos s
  unfold least at positive ⊢
  rw [if_pos growing] at positive ⊢
  unfold ceiling h2MaxWindow h2DefaultWindow
  unfold h2MaxWindow at positive
  omega

variable {settings : FlowSettings} {back : Nat}

theorem stream_ranged_less {closed closed' : Bool} {back' : Nat} {s : FlowStream}
    (ranged : StreamRanged settings closed back s) (shut : closed = true → closed' = true) (less : back' ≤ back) :
    StreamRanged settings closed' back' s := by
  have granted := ranged.granted
  have unreturned := ranged.unreturned
  refine { ranged with sendMoves := fun isOpen => ranged.sendMoves ?_, granted := by omega, unreturned := by omega }
  cases closed
  · rfl
  rw [shut rfl] at isOpen
  cases isOpen

theorem stream_recv_high {closed : Bool} {s : FlowStream}
    (said : SettingsRanged settings) (ranged : StreamRanged settings closed back s) : s.recvWin ≤ h2MaxWindow := by
  have granted := ranged.granted
  have inForce := said.inForce
  have grown := ranged.grown
  by_cases none : s.win = 0
  · have cfg := said.cfg
    unfold ceiling h2MaxWindow h2DefaultWindow at *
    omega
  have fits := growth_fits said (ranged.growing (Nat.pos_of_ne_zero none)).1
  have positive := least_pos settings
  by_cases above : least settings ≤ s.win
  · omega
  have cfg := said.cfg
  unfold ceiling h2MaxWindow h2DefaultWindow at *
  omega

variable {hand : Hand} {c c' : H2Conn}

theorem coming_eq (reading : flowReading c' = flowReading c) (id : Nat) : coming hand c' id = coming hand c id := by
  have same := transit_eq reading
  simp only [flowReading, FlowReading.mk.injEq] at reading
  obtain ⟨-, -, -, cur, drop⟩ := reading
  unfold coming
  rw [same, cur, drop]

theorem ranged_moves {n : Int} (moves : Moves n c c') (ranged : Ranged hand c) : Ranged hand c' := by
  have settings : flowSettings c' = flowSettings c := congrArg Prod.fst moves.frame
  have reading := quiet_reading moves
  have sendWin : c'.sendWin = c.sendWin := congrArg (fun frame => frame.2.2) moves.frame
  have server : c'.server = c.server := congrArg FlowSettings.server settings
  have nextId : c'.nextId = c.nextId := congrArg FlowSettings.nextId settings
  have window := moves.window
  have recvLow := ranged.recvLow
  have member {s : H2Stream} (among : s ∈ c'.streams) : ∃ t ∈ c.streams, flowOf t = flowOf s := by
    have mapped := moves.streams.subset (mem_map_of_mem among)
    obtain ⟨t, among, same⟩ := mem_map.mp mapped
    exact ⟨t, among, same⟩
  have isOpen (stays : c'.closed = false) : c.closed = false := account_open moves.toAccount stays
  refine ⟨settings ▸ ranged.settings, sendWin ▸ ranged.sendLow, sendWin ▸ ranged.sendHigh, by omega,
    moves.target ▸ ranged.target, ?_, ?_, ?_, ?_, ?_⟩
  · have ids (c : H2Conn) : c.streams.map H2Stream.id = (c.streams.map flowOf).map FlowStream.id := by
      rw [map_map]
      rfl
    have unique := ranged.unique
    rw [ids] at unique ⊢
    obtain ⟨part, permuted, sublist⟩ := moves.streams
    exact (permuted.map _).nodup_iff.mp (unique.sublist (sublist.map _))
  · intro client s among
    obtain ⟨t, among, same⟩ := member among
    have id : s.id = t.id := congrArg FlowStream.id same.symm
    rw [id, nextId]
    exact ranged.own (server ▸ client) t among
  · intro client stays inside kept
    simp only [flowReading, FlowReading.mk.injEq] at reading
    obtain ⟨-, -, -, cur, drop⟩ := reading
    rw [cur, nextId]
    exact ranged.begun (server ▸ client) (isOpen stays) ((in_data_iff (quiet_reading moves)).mp inside) (drop ▸ kept)
  · simp only [flowReading, FlowReading.mk.injEq] at reading
    obtain ⟨rs, f, left, -, drop⟩ := reading
    rw [rs, f, left, drop]
    exact ranged.padded
  intro s among
  obtain ⟨t, among, same⟩ := member among
  have id : s.id = t.id := congrArg FlowStream.id same.symm
  rw [settings, ← same, id, coming_eq reading]
  exact stream_ranged_less (ranged.streams t among) moves.closed (le_refl _)

variable {s : H2Stream} {hand' : Hand}

theorem ranged_change {change : H2Stream → H2Stream}
    (ranged : Ranged hand c) (found : h2cFind c id = some s) (sameId : (change s).id = id)
    (settings : flowSettings c' = flowSettings c) (closed : c.closed = true → c'.closed = true)
    (streams : c'.streams = update H2Stream.id id change c.streams) (opening : hand'.opening = hand.opening)
    (sendWin : 0 ≤ c'.sendWin ∧ c'.sendWin ≤ h2MaxWindow) (recvLow : 0 ≤ c'.recvWin)
    (target : c'.recvTarget ≤ h2MaxWindow)
    (begun : c'.server = false → c'.closed = false → InData c' → c'.drop = false → c'.cur < c'.nextId)
    (padded : c'.rs = .fixed → c'.f.type = h2Data → c'.drop = false ∧ c'.contentLeft = c'.f.length)
    (others : ∀ other, other ≠ id → coming hand' c' other ≤ coming hand c other)
    (this : StreamRanged (flowSettings c) c.closed (coming hand c id) (flowOf s) →
      StreamRanged (flowSettings c) c'.closed (coming hand' c' id) (flowOf (change s))) : Ranged hand' c' := by
  have server : c'.server = c.server := congrArg FlowSettings.server settings
  have nextId : c'.nextId = c.nextId := congrArg FlowSettings.nextId settings
  obtain ⟨among, here⟩ := find_mem H2Stream.id found
  have member {t : H2Stream} (inTable : t ∈ c'.streams) : t = change s ∨ (t ∈ c.streams ∧ t.id ≠ id) := by
    rw [streams] at inTable
    exact mem_update H2Stream.id ranged.unique found inTable
  refine ⟨settings ▸ ranged.settings, sendWin.1, sendWin.2, recvLow, target, ?_, ?_, begun, padded, ?_⟩
  · rw [streams, keys_update_found H2Stream.id found sameId]
    exact ranged.unique
  · intro client t inTable
    rw [nextId, opening]
    rcases member inTable with rfl | ⟨old, -⟩
    · rw [sameId, ← here]
      exact ranged.own (server ▸ client) s among
    · exact ranged.own (server ▸ client) t old
  intro t inTable
  rw [settings]
  rcases member inTable with rfl | ⟨old, other⟩
  · rw [sameId]
    refine this ?_
    have before := ranged.streams s among
    rwa [here] at before
  · exact stream_ranged_less (ranged.streams t old) closed (others _ other)

theorem ranged_set {change : H2Stream → H2Stream}
    (ranged : Ranged hand c) (found : h2cFind c id = some s) (sameId : (change s).id = id)
    (opening : hand'.opening = hand.opening) (others : ∀ other, other ≠ id → coming hand' c other ≤ coming hand c other)
    (this : StreamRanged (flowSettings c) c.closed (coming hand c id) (flowOf s) →
      StreamRanged (flowSettings c) c.closed (coming hand' c id) (flowOf (change s))) :
    Ranged hand' (setStream c id change) :=
  ranged_change ranged found sameId rfl (fun shut => shut) rfl opening ⟨ranged.sendLow, ranged.sendHigh⟩
    ranged.recvLow ranged.target ranged.begun ranged.padded others this

theorem ranged_still (ranged : Ranged hand c)
    (settings : flowSettings c' = flowSettings c) (closed : c.closed = true → c'.closed = true)
    (streams : c'.streams = c.streams) (opening : hand'.opening = hand.opening)
    (sendWin : 0 ≤ c'.sendWin ∧ c'.sendWin ≤ h2MaxWindow) (recvLow : 0 ≤ c'.recvWin)
    (target : c'.recvTarget ≤ h2MaxWindow)
    (begun : c'.server = false → c'.closed = false → InData c' → c'.drop = false → c'.cur < c'.nextId)
    (padded : c'.rs = .fixed → c'.f.type = h2Data → c'.drop = false ∧ c'.contentLeft = c'.f.length)
    (less : ∀ s ∈ c.streams, coming hand' c' s.id ≤ coming hand c s.id) : Ranged hand' c' := by
  have server : c'.server = c.server := congrArg FlowSettings.server settings
  have nextId : c'.nextId = c.nextId := congrArg FlowSettings.nextId settings
  refine ⟨settings ▸ ranged.settings, sendWin.1, sendWin.2, recvLow, target,
    by rw [streams]; exact ranged.unique, ?_, begun, padded, ?_⟩
  · intro client s among
    rw [nextId, opening]
    exact ranged.own (server ▸ client) s (streams ▸ among)
  intro s among
  rw [streams] at among
  rw [settings]
  exact stream_ranged_less (ranged.streams s among) closed (less s among)

variable {n : Nat}

theorem ranged_forget {k : Nat} (ranged : Ranged ⟨k, id, n, false⟩ c) : Ranged ⟨k, 0, 0, false⟩ c := by
  refine ranged_still ranged rfl (fun shut => shut) rfl rfl ⟨ranged.sendLow, ranged.sendHigh⟩ ranged.recvLow ranged.target
    ranged.begun ranged.padded fun s _ => ?_
  unfold coming
  split <;> split <;> simp

theorem back_moved {settings : FlowSettings} {closed : Bool} {back back' unacked held : Nat} {s : FlowStream}
    (ranges : StreamRanged settings closed back s) (fewer : unacked + held + back' ≤ s.unacked + s.held + back) :
    StreamRanged settings closed back' { s with unacked := unacked, held := held } := by
  have granted := ranges.granted
  have unreturned := ranges.unreturned
  exact { ranges with granted := by dsimp only; omega, unreturned := by dsimp only; omega }

theorem ranged_consume (found : h2cFind c id = some s) (held : n ≤ s.held) (ranged : Ranged .empty c) :
    Ranged (.both id n) (setStream c id fun s => { s with held := s.held - n }) := by
  refine ranged_set ranged found (find_mem H2Stream.id found).2 rfl
    (fun other different => le_of_eq (coming_other c n different)) fun before => ?_
  rw [coming_both]
  exact back_moved before (by dsimp only [flowOf]; omega)

theorem ranged_deliver (found : h2cFind c s.id = some s) (ranged : Ranged (.both s.id n) c) :
    Ranged .empty (setStream c s.id fun s => { s with got := s.got + n, held := s.held + n }) := by
  refine ranged_set ranged found rfl rfl
    (fun other different => le_of_eq (coming_other c n different).symm) fun before => ?_
  rw [coming_both] at before
  exact back_moved before (by dsimp only [flowOf]; omega)

theorem ranged_take (data : c.rs = .data) (there : n ≤ c.contentLeft)
    (ranged : Ranged .empty c) : Ranged ⟨n, c.cur, if c.drop then 0 else n, false⟩ (contentTaken c n) := by
  have before : transit c = c.contentLeft := transit_inside (.inl data)
  have after := taken_transit data n
  obtain ⟨drop, cur⟩ := taken_frame c n
  obtain ⟨settings, streams, account, wire⟩ := taken_same c n
  have server : (contentTaken c n).server = c.server := congrArg FlowSettings.server settings
  have nextId : (contentTaken c n).nextId = c.nextId := congrArg FlowSettings.nextId settings
  have closed : (contentTaken c n).closed = c.closed := congrArg Wire.closed wire
  simp only [Prod.mk.injEq] at account
  obtain ⟨sendWin, recvWin, -, target⟩ := account
  refine ranged_still ranged settings (fun shut => closed.trans shut) streams rfl ?_ ?_ (target ▸ ranged.target) ?_
    (fun fixed => absurd fixed (taken_content data n)) fun s _ => ?_
  · rw [sendWin]
    exact ⟨ranged.sendLow, ranged.sendHigh⟩
  · rw [recvWin]
    exact ranged.recvLow
  · rw [server, closed, drop, cur, nextId]
    exact fun client isOpen _ kept => ranged.begun client isOpen (.inl data) kept
  unfold coming
  rw [drop, cur, before, after]
  cases c.drop <;> by_cases this : s.id = c.cur <;> simp [this, Hand.empty]
  omega

theorem ranged_padding {pad : Nat} (fixed : c.rs = .fixed) (data : c.f.type = h2Data)
    (fits : pad < c.f.length) (ranged : Ranged .empty c) :
    Ranged (.both c.cur (pad + 1)) { c with contentLeft := c.f.length - 1 - pad, padLeft := pad, rs := .data } := by
  obtain ⟨kept, whole⟩ := ranged.padded fixed data
  have inside : InData c := .inr ⟨fixed, data⟩
  have before : transit c = c.f.length := (transit_inside inside).trans whole
  refine ranged_still ranged rfl (fun shut => shut) rfl rfl ⟨ranged.sendLow, ranged.sendHigh⟩ ranged.recvLow ranged.target
    (fun client isOpen _ => ranged.begun client isOpen inside) (fun isFixed => nomatch isFixed) fun s _ => ?_
  have after : transit { c with contentLeft := c.f.length - 1 - pad, padLeft := pad, rs := .data } =
      c.f.length - 1 - pad := transit_inside (.inl rfl)
  unfold coming
  rw [before, after]
  by_cases this : s.id = c.cur <;> simp [this, kept, Hand.both, Hand.empty]
  omega

theorem ranged_dropping (content : c.rs ≠ .fixed) (ranged : Ranged hand c) : Ranged hand { c with drop := true } := by
  refine ranged_still ranged rfl (fun shut => shut) rfl rfl ⟨ranged.sendLow, ranged.sendHigh⟩ ranged.recvLow ranged.target
    (fun _ _ _ kept => nomatch kept) (fun fixed => absurd fixed content) fun s _ => ?_
  simp [coming]

theorem ranged_outside (before : ¬ InData c) (after : ¬ InData c')
    (settings : flowSettings c' = flowSettings c) (streams : c'.streams = c.streams)
    (account : (c'.sendWin, c'.recvWin, c'.recvUnacked, c'.recvTarget) =
      (c.sendWin, c.recvWin, c.recvUnacked, c.recvTarget))
    (closed : c.closed = true → c'.closed = true) (ranged : Ranged hand c) : Ranged hand c' := by
  simp only [Prod.mk.injEq] at account
  obtain ⟨sendWin, recvWin, -, target⟩ := account
  refine ranged_still ranged settings closed streams rfl ?_ ?_ (target ▸ ranged.target) (fun _ _ inside => absurd inside after)
    (fun fixed type => absurd (.inr ⟨fixed, type⟩) after) fun s _ => ?_
  · rw [sendWin]
    exact ⟨ranged.sendLow, ranged.sendHigh⟩
  · rw [recvWin]
    exact ranged.recvLow
  · simp [coming, transit_outside before, transit_outside after]

theorem ranged_end (n) (ranged : Ranged .empty c) : Ranged .empty (h2cToSkip c n) := by
  refine ranged_still ranged rfl (fun shut => shut) rfl rfl ⟨ranged.sendLow, ranged.sendHigh⟩ ranged.recvLow ranged.target
    (fun _ _ inside => absurd inside (skip_outside c n)) (fun fixed => nomatch fixed) fun s _ => ?_
  simp [coming, transit_outside (skip_outside c n)]

theorem ranged_padded (data : c.rs = .data) (type : c.f.type = h2Data)
    (whole : c.contentLeft = c.f.length) (kept : c.drop = false) (ranged : Ranged .empty c) :
    Ranged .empty (h2cToFixed c 1) := by
  refine ranged_still ranged rfl (fun shut => shut) rfl rfl ⟨ranged.sendLow, ranged.sendHigh⟩ ranged.recvLow ranged.target
    (fun client isOpen _ => ranged.begun client isOpen (.inl data)) (fun _ _ => ⟨kept, whole⟩) fun s _ => ?_
  have before : transit c = c.contentLeft := transit_inside (.inl data)
  have after : transit (h2cToFixed c 1) = c.contentLeft := transit_inside (.inr ⟨rfl, type⟩)
  unfold coming
  rw [before, after]
  exact le_refl _

theorem ranged_charge {f : H2Frame} (fin : Bool) (fits : (f.length : Int) ≤ c.recvWin) (ranged : Ranged .empty c) :
    Ranged .empty (chargeData { c with cur := f.streamId, fin := fin, drop := true } f) := by
  refine ranged_still ranged rfl (fun shut => shut) rfl rfl ⟨ranged.sendLow, ranged.sendHigh⟩ ?_ ranged.target
    (fun _ _ _ kept => nomatch kept) (fun fixed => nomatch fixed) fun s _ => ?_
  · simp only [chargeData]
    omega
  · simp [coming, chargeData]

theorem ranged_charge_idle {f : H2Frame} (fin : Bool) (code : Nat)
    (fits : (f.length : Int) ≤ c.recvWin) (absent : h2cFind c f.streamId = none) (ranged : Ranged .empty c) :
    Ranged .empty (h2cFail (chargeData { c with cur := f.streamId, fin := fin, drop := false } f) code) := by
  have ended : (h2cFail (chargeData { c with cur := f.streamId, fin := fin, drop := false } f) code).closed =
      true := fail_closed _ _ _
  refine ranged_still ranged rfl (fun _ => ended) rfl rfl ⟨ranged.sendLow, ranged.sendHigh⟩ ?_ ranged.target
    (fun _ isOpen => nomatch ended.symm.trans isOpen) (fun fixed => nomatch fixed) fun s among => ?_
  · simp only [chargeData, h2cFail]
    omega
  have other : s.id ≠ f.streamId := (find_none H2Stream.id).mp absent s among
  simp [coming, chargeData, h2cFail, other]

theorem ranged_charge_stream {f : H2Frame} (fin : Bool) (before : ¬ InData c)
    (fits : (f.length : Int) ≤ c.recvWin) (found : h2cFind c f.streamId = some s)
    (room : (f.length : Int) ≤ s.recvWin) (ranged : Ranged .empty c) :
    Ranged .empty (setStream (chargeData { c with cur := f.streamId, fin := fin, drop := false } f) s.id
      fun s => { s with recvWin := s.recvWin - f.length }) := by
  obtain ⟨among, here⟩ := find_mem H2Stream.id found
  have found : h2cFind c s.id = some s := here ▸ found
  have none : transit c = 0 := transit_outside before
  have streams : (setStream (chargeData { c with cur := f.streamId, fin := fin, drop := false } f) s.id
      fun s => { s with recvWin := s.recvWin - f.length }).streams =
      update H2Stream.id s.id (fun s => { s with recvWin := s.recvWin - f.length }) c.streams := rfl
  refine ranged_change ranged found rfl rfl (fun shut => shut) streams rfl
    ⟨ranged.sendLow, ranged.sendHigh⟩ ?_ ranged.target ?_ (fun fixed => nomatch fixed) (fun other different => ?_)
    fun ranges => ?_
  · simp only [setStream, chargeData]
    omega
  · intro client _ _ _
    have mine := ranged.own client s among
    simp only [Hand.empty, Bool.false_eq_true, false_and, or_false] at mine
    rwa [here] at mine
  · have apart : other ≠ f.streamId := here ▸ different
    simp [coming, setStream, chargeData, apart, Hand.empty]
  have comes : coming .empty (setStream (chargeData { c with cur := f.streamId, fin := fin, drop := false } f) s.id
      fun s => { s with recvWin := s.recvWin - f.length }) s.id = f.length := by
    simp [coming, setStream, chargeData, transit, Hand.empty, here]
  have idle : coming .empty c s.id = 0 := by rw [coming_empty, none, ite_self]
  have granted := ranges.granted
  have inForce := ranged.settings.inForce
  have recvLow := ranges.recvLow
  have cfg := ranged.settings.cfg
  rw [comes]
  rw [idle] at granted
  refine { ranges with granted := ?_, unreturned := ?_, recvLow := ?_ }
  · simp only [flowOf] at granted ⊢
    omega
  · simp only [flowOf] at granted ⊢
    omega
  simp only [flowOf]
  unfold ceiling h2MaxWindow h2DefaultWindow at *
  omega

theorem grow_stream {window : Nat}
    (base : c.growNow = true → c.settingsAcked = true → window < growCap c c.growStreamKib →
      s.win ≤ window ∧ (window = 0 ∨ least (flowSettings c) ≤ window)) (ranged : StreamRanged (flowSettings c) c.closed back (flowOf s)) :
    ∃ win moved added, (streamGrow c s window).2 = ({ s with win := win, moved := moved }, added) ∧
      (s.win - least (flowSettings c)) + added ≤ win - least (flowSettings c) ∧
      StreamRanged (flowSettings c) c.closed back { flowOf s with win := win } := by
  have unchanged (moved : Nat) : ∃ win moved' added, ((({ s with moved := moved } : H2Stream), 0) : H2Stream × Nat) =
      ({ s with win := win, moved := moved' }, added) ∧
      (s.win - least (flowSettings c)) + added ≤ win - least (flowSettings c) ∧
      StreamRanged (flowSettings c) c.closed back { flowOf s with win := win } :=
    ⟨s.win, moved, 0, rfl, le_refl _, ranged⟩
  unfold streamGrow
  split
  next growing =>
    dsimp only
    split
    next fast =>
      have cap : window < growCap c c.growStreamKib := fast.2
      obtain ⟨below, start⟩ := base growing.1 growing.2 cap
      have granted := ranged.granted
      have unreturned := ranged.unreturned
      have positive := least_pos (flowSettings c)
      -- `next` lies between the window it starts from and the cap.
      have next : doubled window (growCap c c.growStreamKib) ≤ growCap c c.growStreamKib ∧
          window ≤ doubled window (growCap c c.growStreamKib) ∧
          (window = 0 → doubled window (growCap c c.growStreamKib) = 0) := by
        unfold doubled
        split <;> omega
      have capped : growCap c c.growStreamKib ≤ 1024 * c.growStreamKib ∧
          (c.capWindow = 0 ∨ growCap c c.growStreamKib ≤ c.capWindow) := by
        unfold growCap
        split <;> omega
      refine ⟨doubled window (growCap c c.growStreamKib), _, _, rfl, ?_, { ranged with
        granted := ?_, unreturned := ?_, grown := ?_, grownLeast := ?_, growing := fun _ => growing, capped := ?_ }⟩
      · change s.win - least (flowSettings c) + (doubled window (growCap c c.growStreamKib) - window) ≤
          doubled window (growCap c c.growStreamKib) - least (flowSettings c)
        omega
      · simp only [flowOf] at granted ⊢
        omega
      · simp only [flowOf] at unreturned ⊢
        omega
      · exact le_trans next.1 capped.1
      · dsimp only
        omega
      rcases capped.2 with noCap | below
      · exact .inl noCap
      · exact .inr (le_trans next.1 below)
    · exact unchanged _
  · exact unchanged _

theorem credit_window_base (said : SettingsRanged (flowSettings c))
    (ranged : StreamRanged (flowSettings c) c.closed back (flowOf s)) (acked : c.settingsAcked = true)
    (below : creditWindow c s < growCap c c.growStreamKib) :
    s.win ≤ creditWindow c s ∧ (creditWindow c s = 0 ∨ least (flowSettings c) ≤ creditWindow c s) := by
  have inForce : c.advWindow ≤ c.localWindow := said.acked acked
  have advLeast : c.advWindow = 0 ∨ least (flowSettings c) ≤ c.advWindow := said.advLeast
  have grownLeast : s.win = 0 ∨ least (flowSettings c) ≤ s.win := ranged.grownLeast
  have uncapped : creditWindow c s = max (min c.localWindow c.advWindow) s.win := by
    unfold creditWindow growCap at below
    unfold creditWindow
    dsimp only at below ⊢
    split
    next cut =>
      rw [if_pos cut] at below
      split at below <;> omega
    · rfl
  rw [uncapped]
  omega

variable {inc : Nat}

theorem credited_ranged {closed : Bool} {added win : Nat} {s : FlowStream}
    (before : StreamRanged settings closed (back + n) s)
    (after : StreamRanged settings closed (back + n) { s with unacked := 0, win := win })
    (grew : (s.win - least settings) + added ≤ win - least settings) (most : inc ≤ s.unacked + n + added) :
    StreamRanged settings closed back { s with unacked := 0, win := win, recvWin := s.recvWin + inc } := by
  have granted := before.granted
  have unreturned := before.unreturned
  have recvLow := before.recvLow
  refine { after with granted := ?_, unreturned := ?_, recvLow := ?_ }
  all_goals
    dsimp only
    omega

theorem follow_ranged (streamWindow : Nat) (ranged : Ranged hand c) : Ranged hand (h2cConnFollow c streamWindow) := by
  unfold h2cConnFollow
  dsimp only
  split
  · exact ranged
  rename_i larger
  have kib : c.growConnKib < 2 ^ 16 := ranged.settings.growConn
  have cap : growCap c c.growConnKib ≤ c.growConnKib * 1024 := by
    unfold growCap
    split <;> omega
  have recvLow := ranged.recvLow
  refine ranged_moves (quiet_window _ _ _) (ranged_still ranged rfl (fun shut => shut) rfl rfl
    ⟨ranged.sendLow, ranged.sendHigh⟩ ?_ ?_ ranged.begun ranged.padded fun s _ => le_refl _)
  · dsimp only
    omega
  dsimp only
  unfold h2MaxWindow
  omega

theorem ranged_grow (s) (window : Nat) (ranged : Ranged hand c) : Ranged hand (streamGrow c s window).1 := by
  have read : Quiet c (growRead c).2 := quiet_same rfl rfl rfl fun shut => shut
  unfold streamGrow
  split
  · dsimp only
    split
    · exact follow_ranged _ (ranged_moves read ranged)
    · exact ranged_moves read ranged
  · exact ranged

theorem follow_settings (c) (streamWindow : Nat) : flowSettings (h2cConnFollow c streamWindow) = flowSettings c ∧
      flowReading (h2cConnFollow c streamWindow) = flowReading c := by
  unfold h2cConnFollow
  dsimp only
  split <;> exact ⟨rfl, rfl⟩

theorem grow_settings (c) (s : H2Stream) (window : Nat) : flowSettings (streamGrow c s window).1 = flowSettings c ∧
      flowReading (streamGrow c s window).1 = flowReading c := by
  unfold streamGrow
  split
  · dsimp only
    split
    · exact follow_settings _ _
    · exact ⟨rfl, rfl⟩
  · exact ⟨rfl, rfl⟩

theorem coming_put (k id n : Nat) (c : H2Conn) {other : Nat} (different : other ≠ id) :
    coming ⟨k, 0, 0, false⟩ c other = coming ⟨k, id, n, false⟩ c other := by
  simp [coming, different]

theorem coming_hand (k id n : Nat) (c : H2Conn) : coming ⟨k, id, n, false⟩ c id = coming ⟨k, 0, 0, false⟩ c id + n := by
  simp [coming]

theorem ranged_give {t : H2Stream} {k : Nat} (ranged : Ranged ⟨k, s.id, n, false⟩ c) (found : h2cFind c s.id = some t)
    (after : ∀ given ≤ inc, StreamRanged (flowSettings c) c.closed (coming ⟨k, 0, 0, false⟩ c s.id)
      (flowOf { s with recvWin := s.recvWin + given })) : Ranged ⟨k, 0, 0, false⟩ (streamGive c s inc) := by
  have stored (given : Nat) (less : given ≤ inc) : Ranged ⟨k, 0, 0, false⟩
      (setStream c s.id fun _ => { s with recvWin := s.recvWin + given }) :=
    ranged_set ranged found rfl rfl (fun other different => le_of_eq (coming_put k s.id n c different))
      fun _ => after given less
  unfold streamGive
  split
  · exact ranged_moves (quiet_window _ _ _) (stored inc (le_refl _))
  split
  · have none := stored 0 (Nat.zero_le _)
    simpa using none
  · exact ranged_moves (quiet_window _ _ _) (stored _ (capped_le _ _))

theorem ranged_return {stored : H2Stream} {k : Nat} (ranged : Ranged ⟨k, s.id, n, false⟩ c)
    (found : h2cFind c s.id = some stored) (same : flowOf s = { flowOf stored with unacked := stored.unacked + n }) :
    Ranged ⟨k, 0, 0, false⟩ (streamReturn c s) := by
  obtain ⟨among, here⟩ := find_mem H2Stream.id found
  have ranges := ranged.streams stored among
  rw [here, coming_hand] at ranges
  simp only [flowOf, FlowStream.mk.injEq] at same
  obtain ⟨-, sendWin, recvWin, unacked, held, win⟩ := same
  have unlowered : cappedWin c s.win = s.win := by
    have capped : c.capWindow = 0 ∨ stored.win ≤ c.capWindow := ranges.capped
    unfold cappedWin
    split <;> omega
  have emptied : flowOf { s with unacked := 0, win := cappedWin c s.win } = { flowOf stored with unacked := 0 } := by
    have lowered : cappedWin c s.win = stored.win := unlowered.trans win
    simp only [flowOf, lowered, sendWin, recvWin, held, here]
  have empty : StreamRanged (flowSettings c) c.closed (coming ⟨k, 0, 0, false⟩ c s.id + n)
      { flowOf stored with unacked := 0 } := by
    exact back_moved ranges (by dsimp only [flowOf]; omega)
  rw [← emptied] at empty
  have window : creditWindow c s = creditWindow c stored := by
    unfold creditWindow
    rw [win]
  have base (growing : c.growNow = true) (acked : c.settingsAcked = true)
      (below : creditWindow c s < growCap c c.growStreamKib) : cappedWin c s.win ≤ creditWindow c s ∧
        (creditWindow c s = 0 ∨ least (flowSettings c) ≤ creditWindow c s) := by
    rw [unlowered, win, window]
    exact credit_window_base ranged.settings ranges acked (window ▸ below)
  obtain ⟨grownWin, moved, added, grown, grew, after⟩ := grow_stream base empty
  have settings := grow_settings c { s with unacked := 0, win := cappedWin c s.win } (creditWindow c s)
  have streams := (grow_streams c { s with unacked := 0, win := cappedWin c s.win } (creditWindow c s)).1
  have shut := (kept_grow c { s with unacked := 0, win := cappedWin c s.win } (creditWindow c s)).closed
  have grownRanged := ranged_grow { s with unacked := 0, win := cappedWin c s.win } (creditWindow c s) ranged
  unfold streamReturn
  dsimp only
  rw [grown]
  refine ranged_give (n := n) (t := stored) grownRanged ?_ fun given most => ?_
  · unfold h2cFind
    rw [streams]
    exact found
  rw [settings.1, coming_eq settings.2]
  rw [emptied] at after
  have less : given ≤ stored.unacked + n + added := by
    dsimp only at most
    omega
  have start : (stored.win - least (flowSettings c)) + added ≤ grownWin - least (flowSettings c) := by
    rwa [unlowered, win] at grew
  have flow : flowOf { s with unacked := 0, win := grownWin, moved := moved, recvWin := s.recvWin + given } =
      { flowOf stored with unacked := 0, win := grownWin, recvWin := stored.recvWin + given } := by
    simp only [flowOf, sendWin, recvWin, held, here]
  have credited : StreamRanged (flowSettings c) c.closed (coming ⟨k, 0, 0, false⟩ c s.id)
      (flowOf { s with unacked := 0, win := grownWin, moved := moved, recvWin := s.recvWin + given }) := by
    rw [flow]
    exact credited_ranged ranges after start less
  exact stream_ranged_less credited shut (le_refl _)

theorem ranged_credit_stream {k : Nat} (ranged : Ranged ⟨k, id, n, false⟩ c) :
    Ranged ⟨k, 0, 0, false⟩ (h2cStreamCredit c id n) := by
  unfold h2cStreamCredit
  split
  · exact ranged_forget ranged
  split
  · exact ranged_forget ranged
  rename_i s found
  have here : s.id = id := (find_mem H2Stream.id found).2
  have counted : Ranged ⟨k, 0, 0, false⟩ (setStream c id fun _ => { s with unacked := s.unacked + n }) := by
    refine ranged_set ranged found here rfl (fun other different => le_of_eq (coming_put k id n c different))
      fun before => ?_
    rw [coming_hand] at before
    exact back_moved before (by dsimp only [flowOf]; omega)
  dsimp only
  split
  · exact counted
  split
  · subst here
    exact ranged_return (s := { s with unacked := s.unacked + n }) ranged found rfl
  · exact counted

theorem add_appends (added : h2cAdd c id = some c') :
    ∃ moved clock,
      c' = { c with
        clock := clock
        streams := c.streams ++
          [{ id := id, sendWin := c.peerWindow, recvWin := c.localWindow, unacked := 0, held := 0
             win := 0, moved := moved, localEnd := false, remoteEnd := false, headSent := false
             headRecv := false, blocked := false, hblocked := false, noBody := false, tunnel := false
             expect := none, got := 0 }] } := by
  unfold h2cAdd at added
  split at added
  · cases added
  by_cases grow : c.growNow = true
  · simp only [grow, if_true, Option.some.injEq] at added
    exact ⟨(growRead c).1, (growRead c).2.clock, added.symm⟩
  simp only [grow, Option.some.injEq] at added
  exact ⟨0, c.clock, added.symm⟩

theorem ranged_opened {opening : Bool} (place : Opening c id opening)
    (added : h2cAdd c id = some c') (ranged : Ranged .empty c) : Ranged ⟨0, 0, 0, opening⟩ c' := by
  obtain ⟨moved, clock, rfl⟩ := add_appends added
  have fresh : ∀ s ∈ c.streams, s.id ≠ id := by
    cases place with
    | peers server outside fresh => exact (find_none H2Stream.id).mp fresh
    | own client isOpen next =>
      intro s among same
      have mine := ranged.own client s among
      simp only [Hand.empty, Bool.false_eq_true, false_and, or_false] at mine
      omega
  have nothing : coming .empty c id = 0 := by
    rw [coming_empty]
    split
    next this =>
      cases place with
      | peers server outside fresh => exact transit_outside outside
      | own client isOpen next =>
        refine transit_outside fun inside => ?_
        have before := ranged.begun client isOpen inside this.2
        omega
    · rfl
  refine ⟨ranged.settings, ranged.sendLow, ranged.sendHigh, ranged.recvLow, ranged.target, ?_, ?_, ranged.begun,
    ranged.padded, ?_⟩
  · rw [map_append, nodup_append]
    refine ⟨ranged.unique, by simp, ?_⟩
    intro old inOld new inNew same
    obtain ⟨s, among, rfl⟩ := mem_map.mp inOld
    simp only [map_cons, map_nil, mem_singleton] at inNew
    exact fresh s among (same.trans inNew)
  · intro client s among
    rcases mem_append.mp among with old | new
    · have mine := ranged.own client s old
      simp only [Hand.empty, Bool.false_eq_true, false_and, or_false] at mine
      exact .inl mine
    simp only [mem_singleton] at new
    subst new
    cases place with
    | peers server outside fresh => exact nomatch server.symm.trans client
    | own client isOpen next => exact .inr ⟨rfl, next⟩
  intro s among
  have still (id : Nat) : coming ⟨0, 0, 0, opening⟩ c id = coming .empty c id := rfl
  rcases mem_append.mp among with old | new
  · exact ranged.streams s old
  simp only [mem_singleton] at new
  subst new
  have peer : c.peerWindow ≤ h2MaxWindow := ranged.settings.peer
  have cfg := ranged.settings.cfg
  have inForce : c.localWindow ≤ ceiling (flowSettings c) := ranged.settings.inForce
  change StreamRanged (flowSettings c) c.closed (coming .empty c id) _
  rw [nothing]
  constructor <;> simp only [flowOf, flowSettings] at *
  · exact_mod_cast peer
  · unfold h2MaxWindow
    omega
  · omega
  · omega
  · omega
  · omega
  · omega
  · exact .inl trivial
  · intro positive
    omega
  · omega

theorem ranged_requested (endStream isHead : Bool) (ranged : Ranged ⟨0, 0, 0, true⟩ c) :
    Ranged .empty (requestSent c endStream isHead) := by
  have marked : Quiet c (setStream c c.nextId fun s =>
      { s with headSent := true, localEnd := endStream, noBody := isHead }) :=
    quiet_mark c c.nextId fun _ => rfl
  have ranged := ranged_moves marked ranged
  have settings : SettingsRanged (flowSettings (requestSent c endStream isHead)) :=
    { ranged.settings with }
  refine ⟨settings, ranged.sendLow, ranged.sendHigh, ranged.recvLow, ranged.target, ranged.unique, ?_, ?_,
    ranged.padded, ?_⟩
  · intro client s among
    refine .inl ?_
    have mine : s.id < c.nextId ∨ (true = true ∧ s.id = c.nextId) := ranged.own client s among
    change s.id < c.nextId + 2
    omega
  · intro client isOpen inside kept
    have before : c.cur < c.nextId := ranged.begun client isOpen inside kept
    change c.cur < c.nextId + 2
    omega
  intro s among
  have ranges := ranged.streams s among
  exact { ranges with }

theorem ranged_refused (ranged : Ranged ⟨0, 0, 0, true⟩ c) : Ranged .empty (h2cRemove c c.nextId false none) := by
  have quiet := quiet_remove c c.nextId false none
  have nextId : (h2cRemove c c.nextId false none).nextId = c.nextId :=
    congrArg (fun frame => frame.1.nextId) quiet.frame
  have removed := ranged_moves quiet ranged
  have gone : ∀ s ∈ (h2cRemove c c.nextId false none).streams, s.id ≠ c.nextId := by
    have credited (c : H2Conn) (n : Nat) : (h2cConnCredit c n).streams = c.streams := by
      unfold h2cConnCredit connReturn
      dsimp only
      split
      · rfl
      split
      · split
        · rfl
        · split <;> rfl
      · rfl
    refine (find_none H2Stream.id).mp ?_
    unfold h2cRemove
    split
    next absent =>
      exact absent
    dsimp only
    rw [credited]
    exact find_remove_same H2Stream.id ranged.unique
  refine { removed with own := fun client s among => .inl ?_ }
  have mine := removed.own client s among
  rw [nextId] at mine ⊢
  have other := gone s among
  simp only [true_and] at mine
  omega

theorem ranged_conn_update (fits : c.sendWin + inc ≤ h2MaxWindow)
    (ranged : Ranged hand c) : Ranged hand { c with sendWin := c.sendWin + inc, sweepWritable := true } := by
  have sendLow := ranged.sendLow
  refine ranged_still ranged rfl (fun shut => shut) rfl rfl ⟨?_, fits⟩ ranged.recvLow ranged.target
    ranged.begun ranged.padded fun s _ => le_refl _
  dsimp only
  omega

theorem ranged_stream_update
    (found : h2cFind c s.id = some s) (fits : s.sendWin + inc ≤ h2MaxWindow) (ranged : Ranged hand c) :
    Ranged hand (setStream c s.id fun s => { s with sendWin := s.sendWin + inc }) := by
  refine ranged_set ranged found rfl rfl (fun _ _ => le_refl _) fun before => ?_
  have sendLow := before.sendLow
  have sendMoves := before.sendMoves
  simp only [flowOf] at sendLow sendMoves
  refine { before with sendHigh := fits, sendLow := ?_, sendMoves := fun isOpen => ?_ }
  · simp only [flowOf]
    omega
  have moves := sendMoves isOpen
  simp only [flowOf]
  omega

theorem ranged_sent {take : Nat} (frames : List Byte)
    (found : h2cFind c id = some s) (stream : 0 < take → (take : Int) ≤ s.sendWin)
    (conn : 0 < take → (take : Int) ≤ c.sendWin) (ranged : Ranged hand c) :
    Ranged hand (sendFrames c id take frames) := by
  have sendLow := ranged.sendLow
  have sendHigh := ranged.sendHigh
  have streams : (sendFrames c id take frames).streams =
      update H2Stream.id id (fun s => { s with sendWin := s.sendWin - take }) c.streams := rfl
  refine ranged_change ranged found (find_mem H2Stream.id found).2 rfl (fun shut => shut) streams rfl ?_
    ranged.recvLow ranged.target ranged.begun ranged.padded (fun _ _ => le_refl _) fun before => ?_
  · change 0 ≤ c.sendWin - take ∧ c.sendWin - take ≤ h2MaxWindow
    omega
  have low := before.sendLow
  have high := before.sendHigh
  have moves := before.sendMoves
  have peer := ranged.settings.peer
  simp only [flowOf] at low high moves
  refine { before with sendHigh := ?_, sendLow := ?_, sendMoves := fun isOpen => ?_ }
  · simp only [flowOf]
    omega
  · simp only [flowOf]
    omega
  have floor := moves isOpen
  simp only [flowOf]
  omega

theorem moved_windows (delta : Int) (streams : List H2Stream) :
    (moveSendWindows delta streams).1.map H2Stream.id = streams.map H2Stream.id ∧
      (∀ s ∈ (moveSendWindows delta streams).1, ∃ t ∈ streams, s.id = t.id ∧
        (flowOf s = flowOf t ∧ (moveSendWindows delta streams).2 = false ∨
          flowOf s = { flowOf t with sendWin := t.sendWin + delta } ∧ t.sendWin + delta ≤ h2MaxWindow)) := by
  induction streams with
  | nil => exact ⟨rfl, fun s among => nomatch among⟩
  | cons t rest ih =>
    rw [moveSendWindows]
    split
    · exact ⟨rfl, fun s among => ⟨s, among, rfl, .inl ⟨rfl, rfl⟩⟩⟩
    rename_i fits
    refine ⟨?_, fun s among => ?_⟩
    · simp only [map_cons]
      rw [ih.1]
    rcases mem_cons.mp among with rfl | later
    · exact ⟨t, mem_cons_self, rfl, .inr ⟨rfl, Int.not_lt.mp fits⟩⟩
    obtain ⟨old, inRest, same⟩ := ih.2 s later
    exact ⟨old, mem_cons_of_mem _ inRest, same⟩

theorem ranged_peer_window {value : Nat} (isOpen : c.closed = false)
    (valid : value ≤ h2MaxWindow) (ranged : Ranged hand c) : Ranged hand (peerWindowSet c value) := by
  obtain ⟨ids, moved⟩ := moved_windows ((value : Int) - c.peerWindow) c.streams
  -- A stream that has moved keeps its distance from the peer's initial window.
  have stream {s t : H2Stream} (inTable : t ∈ c.streams) (closed : Bool)
      (flow : flowOf s = flowOf t ∧ closed = true ∨
        flowOf s = { flowOf t with sendWin := t.sendWin + (value - c.peerWindow) } ∧
          t.sendWin + (value - c.peerWindow) ≤ h2MaxWindow) :
      StreamRanged { flowSettings c with peerWindow := value } closed (coming hand c t.id) (flowOf s) := by
    have before := ranged.streams t inTable
    have floor := before.sendMoves isOpen
    have low := before.sendLow
    simp only [flowOf, flowSettings] at floor low
    rcases flow with ⟨same, shut⟩ | ⟨same, fits⟩
    · rw [same]
      exact { before with sendMoves := fun isOpen => nomatch shut.symm.trans isOpen }
    rw [same]
    refine { before with sendHigh := fits, sendLow := ?_, sendMoves := fun _ => ?_ }
    all_goals
      dsimp only
      omega
  have own (client : c.server = false) (s : H2Stream)
      (among : s ∈ (moveSendWindows ((value : Int) - c.peerWindow) c.streams).1) :
      s.id < c.nextId ∨ (hand.opening = true ∧ s.id = c.nextId) := by
    obtain ⟨t, inTable, id, -⟩ := moved s among
    rw [id]
    exact ranged.own client t inTable
  unfold peerWindowSet
  dsimp only
  split
  next all =>
    refine ⟨{ ranged.settings with peer := valid }, ranged.sendLow, ranged.sendHigh, ranged.recvLow, ranged.target,
      by rw [ids]; exact ranged.unique, own, ranged.begun, ranged.padded, fun s among => ?_⟩
    obtain ⟨t, inTable, id, flow⟩ := moved s among
    have ranges := stream inTable c.closed (flow.imp_left fun same => nomatch same.2.symm.trans all)
    rw [← id] at ranges
    exact ranges
  refine ⟨ranged.settings, ranged.sendLow, ranged.sendHigh, ranged.recvLow, ranged.target,
    by
      change (((moveSendWindows ((value : Int) - c.peerWindow) c.streams).1).map H2Stream.id).Nodup
      rw [ids]
      exact ranged.unique,
    own, fun _ stays => ?_, ranged.padded, fun s among => ?_⟩
  · exact nomatch (fail_closed _ _ _).symm.trans stays
  obtain ⟨t, inTable, id, flow⟩ := moved s among
  have ranges := stream inTable true (flow.imp_left fun same => ⟨same.1, rfl⟩)
  rw [← id] at ranges
  have shut : (h2cFail { c with
      streams := (moveSendWindows ((value : Int) - c.peerWindow) c.streams).1 } h2FlowControlError).closed =
      true := fail_closed _ _ _
  rw [shut]
  exact { ranges with sendMoves := fun stays => nomatch stays }

theorem ranged_local_window {window : Nat} (small : window ≤ ceiling (flowSettings c))
    (above : c.settingsAcked = true → c.advWindow ≤ window) (ranged : Ranged hand c) :
    Ranged hand (h2cLocalWindow c window) := by
  have settings : SettingsRanged (flowSettings (h2cLocalWindow c window)) :=
    { ranged.settings with inForce := small, acked := above }
  refine ⟨settings, ranged.sendLow, ranged.sendHigh, ranged.recvLow, ranged.target, ?_, ?_, ranged.begun,
    ranged.padded, ?_⟩
  · have ids : (h2cLocalWindow c window).streams.map H2Stream.id = c.streams.map H2Stream.id := by
      unfold h2cLocalWindow
      rw [map_map]
      rfl
    rw [ids]
    exact ranged.unique
  · intro client s among
    obtain ⟨t, inTable, rfl⟩ := mem_map.mp among
    exact ranged.own client t inTable
  intro s among
  obtain ⟨t, inTable, rfl⟩ := mem_map.mp among
  have before := ranged.streams t inTable
  have granted := before.granted
  have recvLow := before.recvLow
  change StreamRanged (flowSettings (h2cLocalWindow c window)) c.closed (coming hand c t.id) _
  refine { before with granted := ?_, recvLow := ?_ }
  · change t.recvWin + ((window : Int) - c.localWindow) + t.unacked + t.held + coming hand c t.id ≤
      window + (t.win - least (flowSettings c) : Nat)
    change t.recvWin + t.unacked + t.held + coming hand c t.id ≤
      c.localWindow + (t.win - least (flowSettings c) : Nat) at granted
    omega
  change (window : Int) - h2MaxWindow ≤ t.recvWin + ((window : Int) - c.localWindow)
  change (c.localWindow : Int) - h2MaxWindow ≤ t.recvWin at recvLow
  omega

theorem ranged_said {w : Wire} {streams : Nat} (closed : c.closed = true → w.closed = true)
    (above : c.settingsAcked = true → c.wantWindow ≤ c.localWindow) (ranged : Ranged hand c) :
    Ranged hand { c with wire := w, advStreams := streams, advWindow := c.wantWindow, chgInflight := true } := by
  have settings : SettingsRanged { flowSettings c with advWindow := c.wantWindow } :=
    { ranged.settings with
      adv := ranged.settings.want, advLeast := ranged.settings.wantLeast, acked := above }
  have isOpen (stays : w.closed = false) : c.closed = false := by
    cases shut : c.closed
    · rfl
    · exact nomatch (closed shut).symm.trans stays
  refine ⟨settings, ranged.sendLow, ranged.sendHigh, ranged.recvLow, ranged.target, ranged.unique, ranged.own,
    fun client stays => ranged.begun client (isOpen stays), ranged.padded, fun s among => ?_⟩
  have before := ranged.streams s among
  exact { before with sendMoves := fun stays => before.sendMoves (isOpen stays) }

theorem ranged_say (ranged : Ranged hand c) : Ranged hand (saySettings c) := by
  have pushed (shut : c.closed = true) : (c.wire.push (h2WriteSettings (changedSettings c))).closed = true :=
    push_closed _ shut
  have want : c.wantWindow ≤ c.cfgWindow := ranged.settings.want
  have adv : c.settingsAcked = true → c.advWindow ≤ c.localWindow := ranged.settings.acked
  have small : c.wantWindow ≤ ceiling (flowSettings c) := le_trans want (Nat.le_max_left _ _)
  unfold saySettings
  split
  next raised =>
    have above (acked : c.settingsAcked = true) : c.advWindow ≤ c.wantWindow := by
      have said := adv acked
      omega
    have moved := ranged_local_window small above ranged
    exact ranged_said (c := h2cLocalWindow c c.wantWindow) (w := c.wire.push (h2WriteSettings (changedSettings c)))
      pushed (fun _ => le_refl _) moved
  rename_i notRaised
  refine ranged_said pushed (fun acked => ?_) ranged
  exact le_of_not_gt fun larger => notRaised ⟨acked, larger⟩

theorem ranged_settings_change (ranged : Ranged hand c) : Ranged hand (h2cSettingsChange c).1 := by
  unfold h2cSettingsChange
  split
  · exact ranged
  split
  · exact ranged_moves (quiet_fall c) ranged
  · exact ranged_say ranged

theorem opening_acked_eq (c) : ∃ dec mark clock, openingAcked c =
    { h2cLocalWindow { c with dec := dec, growMark := mark, clock := clock } c.cfgWindow with settingsAcked := true } := by
  unfold openingAcked markRoundTrip
  split
  all_goals exact ⟨_, _, _, rfl⟩

theorem ranged_acked (above : c.advWindow ≤ c.localWindow) (ranged : Ranged hand c) :
    Ranged hand { c with settingsAcked := true } := by
  have settings : SettingsRanged { flowSettings c with settingsAcked := true } :=
    { ranged.settings with acked := fun _ => above }
  refine ⟨settings, ranged.sendLow, ranged.sendHigh, ranged.recvLow, ranged.target, ranged.unique, ranged.own,
    ranged.begun, ranged.padded, fun s among => ?_⟩
  have before := ranged.streams s among
  exact { before with growing := fun positive => ⟨(before.growing positive).1, rfl⟩ }

theorem ranged_settings_acked (ranged : Ranged hand c) : Ranged hand (h2cSettingsAcked c) := by
  have cfg : c.cfgWindow ≤ ceiling (flowSettings c) := Nat.le_max_left _ _
  have adv : c.advWindow ≤ c.cfgWindow := ranged.settings.adv
  unfold h2cSettingsAcked
  split
  · split
    · unfold changeAcked
      have quiet : Quiet c { c with chgInflight := false, ackedStreams := c.advStreams } :=
        quiet_same rfl rfl rfl fun shut => shut
      have acked := ranged_moves quiet ranged
      apply ranged_settings_change
      split
      · exact ranged_local_window (le_trans adv cfg) (fun _ => le_refl _) acked
      · exact acked
    · exact ranged
  obtain ⟨dec, mark, clock, opened⟩ := opening_acked_eq c
  have quiet : Quiet c { c with dec := dec, growMark := mark, clock := clock } :=
    quiet_same rfl rfl rfl fun shut => shut
  have moved : Ranged hand (h2cLocalWindow { c with dec := dec, growMark := mark, clock := clock } c.cfgWindow) := by
    apply ranged_local_window
    · exact cfg
    · exact fun _ => adv
    · exact ranged_moves quiet ranged
  rw [opened]
  exact ranged_acked adv moved

theorem ranged_step (step : FlowStep hand c hand' c') (ranged : Ranged hand c) : Ranged hand' c' := by
  cases step with
  | quiet quiet => exact ranged_moves quiet ranged
  | credit moves =>
    have credited := ranged_moves moves ranged
    exact { credited with }
  | creditStream k id n c => exact ranged_credit_stream ranged
  | forget k id n c => exact ranged_forget ranged
  | consume found held => exact ranged_consume found held ranged
  | deliver found => exact ranged_deliver found ranged
  | take data there => exact ranged_take data there ranged
  | padding fixed data fits => exact ranged_padding fixed data fits ranged
  | dropping content => exact ranged_dropping content ranged
  | outside before after settings streams account closed =>
    exact ranged_outside before after settings streams account closed ranged
  | frameEnd n data none => exact ranged_end n ranged
  | charge fin before fits => exact ranged_charge fin fits ranged
  | chargeIdle fin code before fits absent => exact ranged_charge_idle fin code fits absent ranged
  | chargeStream fin before fits found room => exact ranged_charge_stream fin before fits found room ranged
  | padded data type whole kept => exact ranged_padded data type whole kept ranged
  | opened place added => exact ranged_opened place added ranged
  | requested c endStream isHead => exact ranged_requested endStream isHead ranged
  | refused c => exact ranged_refused ranged
  | peerWindow isOpen valid => exact ranged_peer_window isOpen valid ranged
  | settingsAcked c => exact ranged_settings_acked ranged
  | connUpdate fits => exact ranged_conn_update fits ranged
  | streamUpdate found fits => exact ranged_stream_update found fits ranged
  | sent frames found stream conn => exact ranged_sent frames found stream conn ranged

theorem ranged_flows (flows : Flows c c') (ranged : Ranged .empty c) : Ranged .empty c' :=
  flowing_keeps (fun _ _ _ _ => ranged_step) flows ranged

/-- Growth to a cap of `streamKib` may start from an initial window of `v`: what it adds fits
below the largest window, whatever initial window is in force then. -/
def roomFor (c : H2Conn) (streamKib v : Nat) : Prop := v = 0 ∨ c.cfgWindow + 1024 * streamKib ≤ h2MaxWindow + v

/-- What a call keeps to, so that windows that grow stay in range: growth has room from every
initial window said before or after it is asked for, and no ceiling is set below a window that
has grown. -/
def KeepsRoom (c : H2Conn) : Call → Prop
  | .grow streamKib _ _ =>
    c.settingsAcked = false → roomFor c (streamKib % 2 ^ 16) c.advWindow ∧ roomFor c (streamKib % 2 ^ 16) c.wantWindow
  | .setInitialWindow n => c.growNow = true → roomFor c c.growStreamKib n
  | .capWindow n =>
    c.growNow = true → roomFor c c.growStreamKib n ∧ (n = 0 ∨ ∀ s ∈ c.streams, s.win ≤ n)
  | _ => True

theorem least_room {v : Nat} (room : c.growNow = true → roomFor c c.growStreamKib v) :
    v = 0 ∨ least (flowSettings c) ≤ v := by
  unfold least
  change v = 0 ∨ (if c.growNow = true then max 1 (c.cfgWindow + 1024 * c.growStreamKib - h2MaxWindow) else 1) ≤ v
  split
  next growing =>
    have fits := room growing
    unfold roomFor at fits
    omega
  · omega

theorem ranged_set_call {streams window : Nat} (small : window ≤ c.cfgWindow)
    (room : window = 0 ∨ least (flowSettings c) ≤ window) (ranged : Ranged .empty c) :
    Ranged .empty (h2cSet c streams window).1 := by
  have asked : Ranged .empty { c with wantStreams := streams, wantWindow := window } := by
    have settings : SettingsRanged { flowSettings c with wantWindow := window } :=
      { ranged.settings with want := small, wantLeast := room }
    refine ⟨settings, ranged.sendLow, ranged.sendHigh, ranged.recvLow, ranged.target, ranged.unique, ranged.own,
      ranged.begun, ranged.padded, fun s among => ?_⟩
    have before := ranged.streams s among
    exact { before with }
  have changed := ranged_settings_change asked
  unfold h2cSet
  dsimp only
  split
  · exact ranged
  split
  · exact asked
  split
  next change =>
    rwa [change] at changed
  · exact ranged_moves (quiet_refused c) ranged

theorem ranged_growing (streamKib connKib : Nat) (clock : List Nat) (room : c.settingsAcked = false →
      roomFor c (streamKib % 2 ^ 16) c.advWindow ∧ roomFor c (streamKib % 2 ^ 16) c.wantWindow)
    (ranged : Ranged .empty c) : Ranged .empty (h2ConnGrow c streamKib connKib clock) := by
  unfold h2ConnGrow
  split
  · exact ranged
  rename_i early
  have unacked : c.settingsAcked = false := by simpa using early
  obtain ⟨adv, want⟩ := room unacked
  have said : SettingsRanged { flowSettings c with
      growStreamKib := streamKib % 2 ^ 16, growConnKib := connKib % 2 ^ 16, growNow := true } := by
    refine { ranged.settings with
      growStream := Nat.mod_lt _ (by decide), growConn := Nat.mod_lt _ (by decide), advLeast := ?_
      wantLeast := ?_ }
    · exact least_room (c := { c with growStreamKib := streamKib % 2 ^ 16, growNow := true }) fun _ => adv
    · exact least_room (c := { c with growStreamKib := streamKib % 2 ^ 16, growNow := true }) fun _ => want
  refine ⟨said, ranged.sendLow, ranged.sendHigh, ranged.recvLow, ranged.target, ranged.unique, ranged.own,
    ranged.begun, ranged.padded, fun s among => ?_⟩
  have before := ranged.streams s among
  -- Before the opening is acknowledged no window has grown.
  have none : s.win = 0 := by
    rcases Nat.eq_zero_or_pos s.win with zero | grown
    · exact zero
    · exact nomatch unacked.symm.trans (before.growing grown).2
  have granted := before.granted
  have unreturned := before.unreturned
  simp only [flowOf, none, Nat.zero_sub] at granted unreturned
  refine { before with
    granted := ?_, unreturned := ?_, grown := ?_, grownLeast := .inl none, growing := fun grown => ?_ }
  · simp only [flowOf, none, Nat.zero_sub]
    exact granted
  · simp only [flowOf, none, Nat.zero_sub]
    exact unreturned
  · simp only [flowOf, none]
    exact Nat.zero_le _
  simp only [flowOf, none] at grown
  exact absurd grown (lt_irrefl 0)

theorem ranged_cap (n) (room : c.growNow = true → roomFor c c.growStreamKib n ∧ (n = 0 ∨ ∀ s ∈ c.streams, s.win ≤ n))
    (ranged : Ranged .empty c) : Ranged .empty (h2ConnCapWindow c n) := by
  have capped : Ranged .empty { c with capWindow := n } := by
    have settings : SettingsRanged { flowSettings c with capWindow := n } := { ranged.settings with }
    refine ⟨settings, ranged.sendLow, ranged.sendHigh, ranged.recvLow, ranged.target, ranged.unique, ranged.own,
      ranged.begun, ranged.padded, fun s among => ?_⟩
    have before := ranged.streams s among
    refine { before with capped := ?_ }
    rcases Nat.eq_zero_or_pos s.win with none | grown
    · simp only [flowOf, none]
      exact .inr (Nat.zero_le _)
    have growing : c.growNow = true := (before.growing grown).1
    exact (room growing).2.imp_right fun below => below s among
  have initial : cappedInitial c n ≤ c.cfgWindow ∧
      (cappedInitial c n = 0 ∨ least (flowSettings c) ≤ cappedInitial c n) := by
    have cfg : c.cfgWindow ≤ h2MaxWindow := ranged.settings.cfg
    have kib : c.growStreamKib < 2 ^ 16 := ranged.settings.growStream
    unfold cappedInitial
    split
    next cut =>
      exact ⟨le_of_lt cut.2, least_room fun growing => (room growing).1⟩
    refine ⟨le_refl _, least_room fun _ => .inr ?_⟩
    unfold h2MaxWindow
    omega
  unfold h2ConnCapWindow
  dsimp only
  split
  · exact ranged
  split
  · exact ranged_set_call initial.1 initial.2 capped
  · exact capped

theorem ranged_call {next : Call} (room : KeepsRoom c next) (ranged : Ranged .empty c) : Ranged .empty (call c next) := by
  cases announced : Call.announces next
  · exact ranged_flows (flows_call c announced) ranged
  · cases next with
    | setMaxStreams n =>
      change Ranged .empty (h2ConnSetMaxStreams c n).1
      unfold h2ConnSetMaxStreams
      split
      · exact ranged
      · exact ranged_set_call ranged.settings.want ranged.settings.wantLeast ranged
    | setInitialWindow n =>
      change Ranged .empty (h2ConnSetInitialWindow c n).1
      unfold h2ConnSetInitialWindow
      split
      · exact ranged
      rename_i small
      exact ranged_set_call (le_of_not_gt small) (least_room room) ranged
    | grow streamKib connKib clock => exact ranged_growing streamKib connKib clock room ranged
    | capWindow n => exact ranged_cap n room ranged
    | _ => cases announced

theorem ranged_created {config : H2Config} (created : h2ConnCreate config = some c) : Ranged .empty c := by
  unfold h2ConnCreate at created
  dsimp only at created
  split at created
  · cases created
  rename_i ok
  have window : orDefault config.initialWindow h2DefaultWindow ≤ h2MaxWindow := by
    simp only [configOk, Bool.not_eq_true', Bool.not_eq_false, decide_eq_true_eq] at ok
    exact ok.2.1
  simp only [Option.some.injEq] at created
  subst created
  have default : (0 : Int) ≤ h2DefaultWindow ∧ (h2DefaultWindow : Int) ≤ h2MaxWindow := by decide
  refine { settings := ?_, sendLow := default.1, sendHigh := default.2, recvLow := ?_, target := ?_
           unique := nodup_nil, own := fun _ s among => (nomatch among), begun := fun _ _ inside => ?_
           padded := fun fixed => ?_, streams := fun s among => (nomatch among) }
  · constructor <;> simp only [flowSettings, ceiling, least, Bool.false_eq_true, if_false] <;>
      first | omega | exact window | exact Nat.le_max_right _ _ | exact False.elim
  · dsimp only
    split <;> omega
  · dsimp only
    split
    · exact window
    · decide
  · unfold InData at inside
    dsimp only at inside
    split at inside <;> simp at inside
  dsimp only at fixed
  split at fixed <;> cases fixed

/-- The increment of the update that `n` more bytes of credit bring a stream to, if they do. -/
def creditIncrement (c : H2Conn) (s : H2Stream) (n : Nat) : Nat :=
  let counted := { s with unacked := s.unacked + n }
  counted.unacked + (streamGrow c { counted with unacked := 0, win := cappedWin c s.win } (creditWindow c counted)).2.2

structure WindowsInRange (c : H2Conn) : Prop where
  connSend : -(h2MaxWindow : Int) ≤ c.sendWin ∧ c.sendWin ≤ h2MaxWindow
  connGranted : -(h2MaxWindow : Int) ≤ c.recvWin ∧ c.recvWin ≤ h2MaxWindow
  streamSend : ∀ s ∈ c.streams, -(h2MaxWindow : Int) ≤ s.sendWin ∧ s.sendWin ≤ h2MaxWindow
  streamGranted : ∀ s ∈ c.streams, -(h2MaxWindow : Int) ≤ s.recvWin ∧ s.recvWin ≤ h2MaxWindow
  increments : ∀ s ∈ c.streams, ∀ n ≤ s.held + coming .empty c s.id, creditIncrement c s n ≤ h2MaxWindow

structure PastReported (c : H2Conn) : Prop where
  conn : ∀ (f : H2Frame) (b : List Byte), f.streamId = 0 → (h2MaxWindow : Int) < c.sendWin + h2U31 b 0 →
    onWindowUpdateFixed c f b = h2cFail (h2cToSkip c 0) h2FlowControlError
  stream : ∀ (f : H2Frame) (b : List Byte) (s : H2Stream), f.streamId ≠ 0 → h2cFind c f.streamId = some s →
    (h2MaxWindow : Int) < s.sendWin + h2U31 b 0 →
    onWindowUpdateFixed c f b = h2cStreamFault (h2cToSkip c 0) s.id h2FlowControlError true
  setting : ∀ value : Nat, (∃ s ∈ c.streams, (h2MaxWindow : Int) < s.sendWin + ((value : Int) - c.peerWindow)) →
    ∃ streams, h2cApplySetting c ⟨h2SettingsInitialWindowSize, value⟩ =
        h2cFail { c with streams := streams } h2FlowControlError ∧
      ∀ s ∈ streams, s.sendWin ≤ h2MaxWindow

theorem increment_ranged (ranged : Ranged .empty c) (among : s ∈ c.streams)
    (most : n ≤ s.held + coming .empty c s.id) : creditIncrement c s n ≤ h2MaxWindow := by
  have ranges := ranged.streams s among
  have unlowered : cappedWin c s.win = s.win := by
    have capped : c.capWindow = 0 ∨ s.win ≤ c.capWindow := ranges.capped
    unfold cappedWin
    split <;> omega
  have window : creditWindow c { s with unacked := s.unacked + n } = creditWindow c s := rfl
  have empty : StreamRanged (flowSettings c) c.closed (coming .empty c s.id)
      (flowOf { s with unacked := 0, win := cappedWin c s.win }) := by
    rw [unlowered]
    exact back_moved ranges (by dsimp only [flowOf]; omega)
  have base (growing : c.growNow = true) (acked : c.settingsAcked = true)
      (below : creditWindow c s < growCap c c.growStreamKib) : cappedWin c s.win ≤ creditWindow c s ∧
        (creditWindow c s = 0 ∨ least (flowSettings c) ≤ creditWindow c s) := by
    rw [unlowered]
    exact credit_window_base ranged.settings ranges acked below
  obtain ⟨win, moved, added, grown, grew, after⟩ := grow_stream base empty
  unfold creditIncrement
  dsimp only
  rw [window, grown]
  have unreturned := ranges.unreturned
  have cfg := ranged.settings.cfg
  have afterGrown := after.grown
  have afterGrowing := after.growing
  simp only [flowOf] at unreturned afterGrown afterGrowing
  dsimp only at grew
  rw [unlowered] at grew
  by_cases none : win = 0
  · unfold ceiling h2MaxWindow h2DefaultWindow at *
    omega
  have fits := growth_fits ranged.settings (afterGrowing (Nat.pos_of_ne_zero none)).1
  unfold ceiling h2MaxWindow h2DefaultWindow at *
  omega

theorem past_setting {delta : Int} {streams : List H2Stream}
    (past : ∃ s ∈ streams, (h2MaxWindow : Int) < s.sendWin + delta) : (moveSendWindows delta streams).2 = false := by
  induction streams with
  | nil =>
    obtain ⟨s, among, -⟩ := past
    cases among
  | cons t rest ih =>
    rw [moveSendWindows]
    split
    · rfl
    rename_i fits
    obtain ⟨s, among, larger⟩ := past
    rcases mem_cons.mp among with rfl | later
    · exact absurd larger fits
    · exact ih ⟨s, later, larger⟩

theorem past_reported (ranged : Ranged .empty c) : PastReported c := by
  have high (s : H2Stream) (among : s ∈ c.streams) : s.sendWin ≤ h2MaxWindow := (ranged.streams s among).sendHigh
  refine ⟨fun f b conn larger => ?_, fun f b s stream found larger => ?_, fun value past => ?_⟩
  · have connHigh := ranged.sendHigh
    have some_ : h2U31 b 0 ≠ 0 := by omega
    unfold onWindowUpdateFixed
    dsimp only
    rw [if_pos conn, if_neg some_]
    exact if_pos larger
  · have streamHigh := high s (find_mem H2Stream.id found).1
    have some_ : h2U31 b 0 ≠ 0 := by omega
    have found : h2cFind (h2cToSkip c 0) f.streamId = some s := found
    unfold onWindowUpdateFixed
    dsimp only
    rw [if_neg stream, found]
    dsimp only
    rw [if_neg some_, if_pos larger]
  have stopped := past_setting past
  refine ⟨(moveSendWindows ((value : Int) - c.peerWindow) c.streams).1, ?_, fun s among => ?_⟩
  · change peerWindowSet c value = _
    unfold peerWindowSet
    dsimp only
    rw [stopped]
    rfl
  obtain ⟨t, inTable, -, flow⟩ := (moved_windows ((value : Int) - c.peerWindow) c.streams).2 s among
  have below := high t inTable
  rcases flow with ⟨same, -⟩ | ⟨same, fits⟩
  · have win : s.sendWin = t.sendWin := congrArg FlowStream.sendWin same
    omega
  have win : s.sendWin = t.sendWin + ((value : Int) - c.peerWindow) := congrArg FlowStream.sendWin same
  omega

def growingRun : List Call :=
  [.grow 1024 1536 [0, 10, 20, 25],
   .feed (clientOpening.take 33 ++ h2PutHeader 0 h2Settings 1 0 ++ clientOpening.drop 33), .setInitialWindow 1,
   .feed (h2PutHeader 1 h2Data 0 1 ++ [0]), .consumed 1 1]

def windowConfig (window : Nat) : H2Config := { serverConfig 0 with initialWindow := window }

instance (c : H2Conn) (streamKib v : Nat) : Decidable (roomFor c streamKib v) :=
  inferInstanceAs (Decidable (_ ∨ _))

end ProvenC.H2.Ranges
