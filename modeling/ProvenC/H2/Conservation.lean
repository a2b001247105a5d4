import ProvenC.H2.Flow

/-!
# No receive credit is lost or made

Without a ceiling on credit, what the peer may still send, what it is owed, what the streams hold and
what is still to come of the content of a DATA frame make up the receive target, in every state of a
connection that is not over.
-/

namespace ProvenC.H2.Conservation

open Bytes H2.Frame H2.Head H2.Conn H2.Reader H2.Calls
open H2.Accounts H2.Flow Lib.Slots

def readingOf (c : H2Conn) : ReadState × H2Frame × Nat := (c.rs, c.f, c.contentLeft)

/-- A step that leaves the frame in progress alone, and was handed `n` bytes of credit. -/
structure Kept (n : Int) (c c' : H2Conn) : Prop extends Account n c c' where
  reading : readingOf c' = readingOf c

variable {n : Int} {c : H2Conn}

theorem kept_trans {m : Int} {d e : H2Conn} (first : Kept m c d) (second : Kept n d e) : Kept (m + n) c e :=
  { account_trans first.toAccount second.toAccount with
    reading := second.reading.trans first.reading }

theorem kept_then {d e : H2Conn} (first : Kept 0 c d) (second : Kept n d e) : Kept n c e := by
  simpa using kept_trans first second

variable {c' : H2Conn}

theorem kept_of_moves (moves : Moves n c c') : Kept n c c' :=
  { moves.toAccount with
    reading := congrArg (fun frame => (frame.2.1.rs, frame.2.1.f, frame.2.1.contentLeft)) moves.frame }

theorem kept_of_eq (cap : c'.capWindow = c.capWindow)
    (closed : c.closed = true → c'.closed = true) (account : outstanding c' = outstanding c + n)
    (reading : readingOf c' = readingOf c) : Kept n c c' :=
  { account_of_eq cap closed account with reading := reading }

theorem kept_streams (c : H2Conn) {streams : List H2Stream}
    (held : sum H2Stream.held streams = sum H2Stream.held c.streams) : Kept 0 c { c with streams := streams } := by
  refine kept_of_eq rfl (fun shut => shut) ?_ rfl
  simp only [outstanding, h2cHeld, held]
  omega

variable {s : H2Stream}

theorem kept_change (c) {id : Nat} (found : h2cFind c id = some s)
    (change : H2Stream → H2Stream) (held : (change s).held = s.held) : Kept 0 c (setStream c id change) := by
  refine kept_streams c ?_
  have sums := sum_update H2Stream.id H2Stream.held change found
  omega

theorem kept_rewindow (c) (id : Nat) {change : H2Stream → H2Stream}
    (held : ∀ s, (change s).held = s.held) : Kept 0 c (setStream c id change) :=
  kept_streams c (sum_update_same H2Stream.id H2Stream.held change held)

theorem kept_raise (c : H2Conn) {want : Nat} (larger : c.recvTarget ≤ want) : Kept 0 c (connRaise c want) := by
  -- The target and the window grow by the same.
  have raised : Kept (-(want - c.recvTarget : Nat)) c { c with recvTarget := want } := by
    refine kept_of_eq rfl (fun shut => shut) ?_ rfl
    simp only [outstanding, h2cHeld]
    omega
  have both := kept_trans raised (kept_of_moves (grant_moves _ (want - c.recvTarget)))
  rwa [Int.add_comm, Int.add_right_neg] at both

theorem kept_refl (c) : Kept 0 c c := kept_of_moves (quiet_refl c)

theorem kept_follow (c) (streamWindow : Nat) : Kept 0 c (h2cConnFollow c streamWindow) := by
  unfold h2cConnFollow
  dsimp only
  split
  · exact kept_refl c
  rename_i larger
  exact kept_raise c (Nat.le_of_not_le larger)

theorem kept_read_clock (c) : Kept 0 c (growRead c).2 := by
  refine kept_of_eq rfl (fun shut => shut) ?_ rfl
  simp only [outstanding, h2cHeld, growRead]
  omega

theorem kept_grow (c) (s : H2Stream) (window : Nat) : Kept 0 c (streamGrow c s window).1 := by
  unfold streamGrow
  split
  · have read := kept_read_clock c
    dsimp only
    split
    · exact kept_then read (kept_follow _ _)
    · exact read
  · exact kept_refl c

theorem follow_streams (c) (streamWindow : Nat) : (h2cConnFollow c streamWindow).streams = c.streams := by
  unfold h2cConnFollow
  dsimp only
  split <;> rfl

theorem grow_streams (c) (s : H2Stream) (window : Nat) :
    (streamGrow c s window).1.streams = c.streams ∧ (streamGrow c s window).2.1.held = s.held ∧
      (streamGrow c s window).2.1.id = s.id := by
  unfold streamGrow
  split
  · dsimp only
    split
    · exact ⟨follow_streams _ _, rfl, rfl⟩
    · exact ⟨rfl, rfl, rfl⟩
  · exact ⟨rfl, rfl, rfl⟩

theorem kept_give (c) {stored : H2Stream} (inc : Nat) (found : h2cFind c s.id = some stored)
    (held : s.held = stored.held) : Kept 0 c (streamGive c s inc) := by
  have granted (inc : Nat) : Kept 0 c (streamGrant c s inc) :=
    kept_then (kept_change c found _ held) (kept_of_moves (quiet_window _ _ _))
  unfold streamGive
  split
  · exact granted _
  split
  · exact kept_change c found _ held
  · exact granted _

theorem kept_return (c) {s stored : H2Stream} (found : h2cFind c s.id = some stored)
    (held : s.held = stored.held) : Kept 0 c (streamReturn c s) := by
  unfold streamReturn
  have grow := kept_grow c { s with unacked := 0, win := cappedWin c s.win } (creditWindow c s)
  obtain ⟨streams, sameHeld, sameId⟩ :=
    grow_streams c { s with unacked := 0, win := cappedWin c s.win } (creditWindow c s)
  refine kept_then grow (kept_give _ _ ?_ (sameHeld.trans held))
  rw [h2cFind, streams, sameId]
  exact found

theorem kept_stream_credit (c) (id n : Nat) : Kept 0 c (h2cStreamCredit c id n) := by
  unfold h2cStreamCredit
  split
  · exact kept_refl c
  split
  · exact kept_refl c
  rename_i s found
  have here : s.id = id := (find_mem H2Stream.id found).2
  have counted : Kept 0 c (setStream c id fun _ => { s with unacked := s.unacked + n }) :=
    kept_change c found _ rfl
  dsimp only
  split
  · exact counted
  split
  · exact @kept_return c { s with unacked := s.unacked + n } s (here ▸ found) rfl
  · exact counted

theorem kept_add {id : Nat} (added : h2cAdd c id = some c') : Kept 0 c c' := by
  unfold h2cAdd at added
  split at added
  · cases added
  · cases grow : c.growNow <;> simp only [grow, if_true, Bool.false_eq_true, if_false, Option.some.injEq] at added
    all_goals
      rw [← added]
      refine kept_of_eq rfl (fun shut => shut) ?_ rfl
      simp [outstanding, h2cHeld, growRead]

theorem moved_held (delta : Int) (streams : List H2Stream) :
    sum H2Stream.held (moveSendWindows delta streams).1 = sum H2Stream.held streams := by
  induction streams with
  | nil => rfl
  | cons s rest ih =>
    rw [moveSendWindows]
    split
    · rfl
    · rw [sum_cons, sum_cons, ih]

theorem kept_peer_window (c) (value : Nat) : Kept 0 c (peerWindowSet c value) := by
  have moved := kept_streams c (moved_held ((value : Int) - c.peerWindow) c.streams)
  unfold peerWindowSet
  dsimp only
  split
  · refine kept_then moved (kept_of_eq rfl (fun shut => shut) ?_ rfl)
    simp only [outstanding, h2cHeld]
    omega
  · exact kept_then moved (kept_of_moves (quiet_fail _ _))

theorem kept_local_window (c) (window : Nat) : Kept 0 c (h2cLocalWindow c window) := by
  refine kept_of_eq rfl (fun shut => shut) ?_ rfl
  simp only [outstanding, h2cHeld, h2cLocalWindow, sum, List.map_map]
  have held : (H2Stream.held ∘ fun s => { s with recvWin := s.recvWin + ((window : Int) - c.localWindow) }) =
      H2Stream.held := rfl
  rw [held]
  omega

theorem kept_say (c) : Kept 0 c (saySettings c) := by
  unfold saySettings
  have said : Kept 0 c { c with
      wire := c.wire.push (h2WriteSettings (changedSettings c))
      advStreams := c.wantStreams, advWindow := c.wantWindow, chgInflight := true } := by
    refine kept_of_eq rfl (fun shut => push_closed _ shut) ?_ rfl
    simp only [outstanding, h2cHeld]
    omega
  split
  · exact kept_then said (kept_local_window _ _)
  · exact said

theorem kept_settings_change (c) : Kept 0 c (h2cSettingsChange c).1 := by
  unfold h2cSettingsChange
  split
  · exact kept_refl c
  split
  · exact kept_of_moves (quiet_fall c)
  · exact kept_say c

theorem kept_settings_acked (c) : Kept 0 c (h2cSettingsAcked c) := by
  unfold h2cSettingsAcked
  split
  · split
    · unfold changeAcked
      have acked : Kept 0 c { c with chgInflight := false, ackedStreams := c.advStreams } := by
        refine kept_of_eq rfl (fun shut => shut) ?_ rfl
        simp only [outstanding, h2cHeld]
        omega
      refine kept_then acked (kept_then ?_ (kept_settings_change _))
      split
      · exact kept_local_window _ _
      · exact kept_refl _
    · exact kept_refl c
  unfold openingAcked
  have timed : Kept 0 c (markRoundTrip { c with settingsAcked := true }) := by
    unfold markRoundTrip
    split
    all_goals refine kept_of_eq rfl (fun shut => shut) ?_ rfl
    · simp only [outstanding, h2cHeld, growRead]
      omega
    simp only [outstanding, h2cHeld]
    omega
  refine kept_then timed ?_
  refine kept_then ?_ (kept_local_window _ _)
  exact kept_of_moves (quiet_same rfl rfl rfl fun shut => shut)

theorem kept_request_sent (c) (endStream isHead : Bool) : Kept 0 c (requestSent c endStream isHead) := by
  have marked : Quiet c (setStream c c.nextId fun s =>
      { s with headSent := true, localEnd := endStream, noBody := isHead }) :=
    quiet_mark c c.nextId fun _ => rfl
  have next (c : H2Conn) (id : Nat) : Kept 0 c { c with nextId := id } :=
    kept_of_eq rfl (fun shut => shut) (Int.add_zero _).symm rfl
  exact kept_then (kept_of_moves marked) (next _ _)

theorem kept_send_frames (c) (id take : Nat) (frames : List Byte) : Kept 0 c (sendFrames c id take frames) := by
  have charged : Kept 0 c (setStream c id fun s => { s with sendWin := s.sendWin - take }) :=
    kept_rewindow c id fun _ => rfl
  refine kept_then charged (kept_of_eq rfl (fun shut => shut) ?_ rfl)
  exact (Int.add_zero _).symm

theorem kept_set (c) (streams window : Nat) : Kept 0 c (h2cSet c streams window).1 := by
  have asked : Kept 0 c { c with wantStreams := streams, wantWindow := window } :=
    kept_of_eq rfl (fun shut => shut) (Int.add_zero _).symm rfl
  have changed := kept_then asked (kept_settings_change { c with wantStreams := streams, wantWindow := window })
  unfold h2cSet
  dsimp only
  split
  · exact kept_refl c
  split
  · exact asked
  split
  next change =>
    rwa [change] at changed
  · exact kept_of_moves (quiet_refused c)

theorem kept_growing (c) (streamKib connKib : Nat) (clock : List Nat) :
    Kept 0 c (h2ConnGrow c streamKib connKib clock) := by
  unfold h2ConnGrow
  split
  · exact kept_refl c
  · exact kept_of_eq rfl (fun shut => shut) (Int.add_zero _).symm rfl

theorem kept_consume {id n : Nat} (found : h2cFind c id = some s) (held : n ≤ s.held) :
    Kept (-n) c (setStream c id fun s => { s with held := s.held - n }) := by
  refine kept_of_eq rfl (fun shut => shut) ?_ rfl
  have sums := sum_update H2Stream.id H2Stream.held (fun s => { s with held := s.held - n }) found
  simp only [outstanding, h2cHeld, setStream] at sums ⊢
  omega

theorem kept_deliver (found : h2cFind c s.id = some s) (n : Nat) :
    Kept n c (setStream c s.id fun s => { s with got := s.got + n, held := s.held + n }) := by
  refine kept_of_eq rfl (fun shut => shut) ?_ rfl
  have sums := sum_update H2Stream.id H2Stream.held
    (fun s => { s with got := s.got + n, held := s.held + n }) found
  simp only [outstanding, h2cHeld, setStream] at sums ⊢
  omega

/-- The account is even but for `k` bytes in hand, as long as nothing dropped any of it: `exact`
says so of the run, and a connection that is over drops some. -/
structure Balanced (exact : Prop) (k : Nat) (c : H2Conn) : Prop where
  noCap : exact → c.capWindow = 0
  even : exact → c.closed = false → outstanding c + transit c + k = 0
  atMost : outstanding c + transit c + k ≤ 0
  whole : c.rs = .fixed → c.f.type = h2Data → c.contentLeft = c.f.length

variable {exact : Prop}

theorem balanced_account {k k' : Nat} (account : Account n c c') (left : (transit c' : Int) + k' + n = transit c + k)
    (whole : c'.rs = .fixed → c'.f.type = h2Data → c'.contentLeft = c'.f.length)
    (balanced : Balanced exact k c) : Balanced exact k' c' := by
  refine ⟨fun is => account.cap.trans (balanced.noCap is), fun is isOpen => ?_, ?_, whole⟩
  · have even := balanced.even is (account_open account isOpen)
    have moved := account.exactly (balanced.noCap is) isOpen
    omega
  have before := balanced.atMost
  have moved := account.atMost
  omega

theorem balanced_kept {k k' : Nat} (kept : Kept n c c') (left : (k' : Int) + n = k)
    (balanced : Balanced exact k c) : Balanced exact k' c' := by
  have reading := kept.reading
  simp only [readingOf, Prod.mk.injEq] at reading
  obtain ⟨rs, f, still⟩ := reading
  have same : transit c' = transit c := by simp only [transit, rs, f, still]
  refine balanced_account kept.toAccount (by omega) ?_ balanced
  rw [rs, f, still]
  exact balanced.whole

theorem balanced_same {k : Nat} (kept : Kept 0 c c') (balanced : Balanced exact k c) : Balanced exact k c' :=
  balanced_kept kept (Int.add_zero _) balanced

theorem balanced_outside {k : Nat} (account : Account 0 c c') (before : ¬ InData c)
    (after : ¬ InData c') (balanced : Balanced exact k c) : Balanced exact k c' := by
  refine balanced_account account ?_ (fun fixed type => absurd (.inr ⟨fixed, type⟩) after) balanced
  rw [transit_outside before, transit_outside after]
  omega

theorem balanced_charge (f : H2Frame) (id : Nat) (fin drop : Bool) (before : ¬ InData c) (balanced : Balanced exact 0 c) :
    Balanced exact 0 (chargeData { c with cur := id, fin := fin, drop := drop } f) := by
  have charged : Account (-f.length) c (chargeData { c with cur := id, fin := fin, drop := drop } f) := by
    refine account_of_eq rfl (fun shut => shut) ?_
    simp only [outstanding, h2cHeld, chargeData]
    omega
  have notFixed : (chargeData { c with cur := id, fin := fin, drop := drop } f).rs ≠ .fixed := by
    intro fixed
    cases fixed
  refine balanced_account charged ?_ (fun fixed => absurd fixed notFixed) balanced
  rw [transit_outside before]
  simp only [transit, chargeData]
  omega

theorem balanced_taken {n : Nat} (data : c.rs = .data) (there : n ≤ c.contentLeft)
    (balanced : Balanced exact 0 c) : Balanced exact n (contentTaken c n) := by
  have same : Account 0 c (contentTaken c n) := by
    unfold contentTaken
    split
    all_goals exact account_of_eq rfl (fun shut => shut) (Int.add_zero _).symm
  have before : transit c = c.contentLeft := transit_inside (.inl data)
  have after := taken_transit data n
  exact balanced_account same (by omega) (fun fixed => absurd fixed (taken_content data n)) balanced

theorem balanced_padding {pad : Nat} (fixed : c.rs = .fixed) (data : c.f.type = h2Data)
    (fits : pad < c.f.length) (balanced : Balanced exact 0 c) :
    Balanced exact (pad + 1) { c with contentLeft := c.f.length - 1 - pad, padLeft := pad, rs := .data } := by
  have same : Account 0 c { c with contentLeft := c.f.length - 1 - pad, padLeft := pad, rs := .data } :=
    account_of_eq rfl (fun shut => shut) (Int.add_zero _).symm
  have whole := balanced.whole fixed data
  refine balanced_account same ?_ (fun isFixed => nomatch isFixed) balanced
  rw [transit_inside (c := c) (.inr ⟨fixed, data⟩)]
  simp only [transit]
  omega

theorem balanced_end (n : Nat) (data : c.rs = .data) (none : c.contentLeft = 0)
    (balanced : Balanced exact 0 c) : Balanced exact 0 (h2cToSkip c n) := by
  have same : Account 0 c (h2cToSkip c n) := account_of_eq rfl (fun shut => shut) (Int.add_zero _).symm
  refine balanced_account same ?_ (fun fixed => nomatch fixed) balanced
  rw [transit_inside (c := c) (.inl data), none]
  rfl

theorem balanced_padded (data : c.rs = .data) (type : c.f.type = h2Data)
    (whole : c.contentLeft = c.f.length) (balanced : Balanced exact 0 c) : Balanced exact 0 (h2cToFixed c 1) := by
  have same : Account 0 c (h2cToFixed c 1) := account_of_eq rfl (fun shut => shut) (Int.add_zero _).symm
  refine balanced_account same ?_ (fun _ _ => whole) balanced
  rw [transit_inside (c := c) (.inl data), transit_inside (c := h2cToFixed c 1) (.inr ⟨rfl, type⟩)]
  rfl

theorem balanced_step {hand hand' : Hand} (step : FlowStep hand c hand' c')
    (balanced : Balanced exact hand.conn c) : Balanced exact hand'.conn c' := by
  cases step with
  | quiet quiet => exact balanced_same (kept_of_moves quiet) balanced
  | credit moves => exact balanced_kept (kept_of_moves moves) (Int.zero_add _) balanced
  | creditStream k id n c => exact balanced_same (kept_stream_credit c id n) balanced
  | forget k id n c => exact balanced
  | consume found held => exact balanced_kept (kept_consume found held) (Int.add_right_neg _) balanced
  | deliver found => exact balanced_kept (kept_deliver found _) (Int.zero_add _) balanced
  | take data there => exact balanced_taken data there balanced
  | padding fixed data fits => exact balanced_padding fixed data fits balanced
  | @dropping _ c content =>
    have dropped : Kept 0 c { c with drop := true } :=
      kept_of_eq rfl (fun shut => shut) (Int.add_zero _).symm rfl
    exact balanced_same dropped balanced
  | outside before after settings streams account closed =>
    have cap := congrArg FlowSettings.capWindow settings
    simp only [Prod.mk.injEq] at account
    obtain ⟨-, win, unacked, target⟩ := account
    refine balanced_outside (account_of_eq cap closed ?_) before after balanced
    simp only [outstanding, h2cHeld, streams, win, unacked, target]
    omega
  | frameEnd n data none => exact balanced_end n data none balanced
  | charge fin before fits => exact balanced_charge _ _ fin true before balanced
  | chargeIdle fin code before fits absent =>
    exact balanced_same (kept_of_moves (quiet_fail _ _)) (balanced_charge _ _ fin false before balanced)
  | chargeStream fin before fits found room =>
    exact balanced_same (kept_rewindow _ _ fun _ => rfl) (balanced_charge _ _ fin false before balanced)
  | padded data type whole kept => exact balanced_padded data type whole balanced
  | opened place added => exact balanced_same (kept_add added) balanced
  | requested c endStream isHead => exact balanced_same (kept_request_sent c endStream isHead) balanced
  | refused c => exact balanced_same (kept_of_moves (quiet_remove _ _ _ _)) balanced
  | peerWindow isOpen valid => exact balanced_same (kept_peer_window _ _) balanced
  | settingsAcked c => exact balanced_same (kept_settings_acked c) balanced
  | @connUpdate _ c inc fits =>
    have raised : Kept 0 c { c with sendWin := c.sendWin + inc, sweepWritable := true } :=
      kept_of_eq rfl (fun shut => shut) (Int.add_zero _).symm rfl
    exact balanced_same raised balanced
  | streamUpdate found fits => exact balanced_same (kept_rewindow _ _ fun _ => rfl) balanced
  | sent frames found stream conn => exact balanced_same (kept_send_frames _ _ _ _) balanced

theorem balanced_flows (flows : Flows c c') (balanced : Balanced exact 0 c) : Balanced exact 0 c' :=
  flowing_keeps (P := fun hand c => Balanced exact hand.conn c) (fun _ _ _ _ => balanced_step) flows balanced

theorem balanced_cap (n : Nat) (noCap : exact → n = 0) (balanced : Balanced exact 0 c) :
    Balanced exact 0 (h2ConnCapWindow c n) := by
  have capped : Balanced exact 0 { c with capWindow := n } :=
    ⟨noCap, balanced.even, balanced.atMost, balanced.whole⟩
  unfold h2ConnCapWindow
  dsimp only
  split
  · exact balanced
  split
  · exact balanced_same (kept_set _ _ _) capped
  · exact capped

theorem balanced_call (next : Call) (noCap : exact → ∀ n, next = .capWindow n → n = 0)
    (balanced : Balanced exact 0 c) : Balanced exact 0 (call c next) := by
  cases announced : Call.announces next
  · exact balanced_flows (flows_call c announced) balanced
  · cases next with
    | setMaxStreams n =>
      change Balanced exact 0 (h2ConnSetMaxStreams c n).1
      unfold h2ConnSetMaxStreams
      split
      · exact balanced
      · exact balanced_same (kept_set c _ _) balanced
    | setInitialWindow n =>
      change Balanced exact 0 (h2ConnSetInitialWindow c n).1
      unfold h2ConnSetInitialWindow
      split
      · exact balanced
      · exact balanced_same (kept_set c _ _) balanced
    | grow streamKib connKib clock => exact balanced_same (kept_growing c streamKib connKib clock) balanced
    | capWindow n => exact balanced_cap n (fun is => noCap is n rfl) balanced
    | _ => cases announced

theorem balanced_created {config : H2Config} (created : h2ConnCreate config = some c) : Balanced exact 0 c := by
  unfold h2ConnCreate at created
  dsimp only at created
  split at created
  · cases created
  simp only [Option.some.injEq] at created
  have outside : ¬ InData c := by
    rw [← created]
    unfold InData
    split <;> simp
  have none : transit c = 0 := transit_outside outside
  have even : outstanding c = 0 := by
    rw [← created]
    simp only [outstanding, h2cHeld, sum, List.map_nil, List.sum_nil]
    split <;> omega
  refine ⟨fun _ => by rw [← created], fun _ _ => by omega, by omega, fun fixed type => ?_⟩
  exact absurd (.inr ⟨fixed, type⟩) outside

theorem run_balanced {config : H2Config} (created : h2ConnCreate config = some c)
    (calls : List Call) (noCap : exact → ∀ n, Call.capWindow n ∈ calls → n = 0) : Balanced exact 0 (run c calls) := by
  refine run_keeps calls (fun c next among kept => ?_) (balanced_created created)
  exact balanced_call next (fun is n same => noCap is n (same ▸ among)) kept

/-- In every state of a run without a ceiling in which the connection is not over, the account
is whole: what the peer may still send, what it is owed, what was delivered and not consumed and
what is to come of the content of the DATA frame in progress are the receive target; so the peer
never has more than the target. -/
theorem receive_window_conserved {config : H2Config} {c : H2Conn} (created : h2ConnCreate config = some c)
    (calls : List Call) (noCap : ∀ n, Call.capWindow n ∈ calls → n = 0) (isOpen : (run c calls).closed = false) :
    (run c calls).recvWin + (run c calls).recvUnacked + h2cHeld (run c calls) + transit (run c calls) =
      (run c calls).recvTarget ∧ (run c calls).recvWin ≤ (run c calls).recvTarget := by
  have kept : Balanced True 0 (run c calls) := run_balanced created calls fun _ => noCap
  have even := kept.even trivial isOpen
  unfold outstanding at even
  constructor <;> omega

def serverConfig (bound : Nat) : H2Config :=
  { server := true, maxConcurrentStreams := 0, initialWindow := 0, maxFrameSize := 0, maxHeaderListBytes := 0
    headerTableBytes := none, maxBufferedOutput := bound, maxResetDebt := 0, enableConnectProtocol := false }

def clientOpening : List Byte :=
  h2Preface ++ h2PutHeader 0 h2Settings 0 0 ++ h2PutHeader 3 h2Headers 4 1 ++ [0x83, 0x84, 0x86]

def paddedRun : List Call := [.feed clientOpening, .feed (h2PutHeader 10 h2Data 8 1 ++ [3])]

/-- A piece of a body, and then more to answer than the output takes: the connection ends while
the stream is reset. -/
def floodedRun : List Call :=
  [.feed clientOpening, .feed (h2PutHeader 1 h2Data 0 1 ++ [0]),
   .feed ((List.replicate 59 (h2PutHeader 8 h2Ping 0 0 ++ List.replicate 8 0)).flatten ++
     h2PutHeader 4 h2WindowUpdate 0 1 ++ List.replicate 4 0)]

theorem receive_window_conserved_padded : ∃ c, h2ConnCreate (serverConfig 0) = some c ∧
      (run c paddedRun).recvWin + (run c paddedRun).recvUnacked + h2cHeld (run c paddedRun) +
        transit (run c paddedRun) = (run c paddedRun).recvTarget ∧
      (run c paddedRun).recvWin ≤ (run c paddedRun).recvTarget :=
  ⟨(h2ConnCreate (serverConfig 0)).get (by decide), (Option.some_get _).symm,
    receive_window_conserved (Option.some_get _).symm paddedRun (by simp [paddedRun]) (by decide +kernel)⟩

def unreadBytes (c : H2Conn) : Nat :=
  match c.rs with
  | .data => c.contentLeft + c.padLeft
  | .fixed => if c.f.type = h2Data then c.contentLeft else 0
  | _ => 0

/-- With the unread padding the sum is more than the target, and of a connection that is over it
may be less. -/
theorem receive_window_exceptions : (∃ c, h2ConnCreate (serverConfig 0) = some c ∧ (run c paddedRun).closed = false ∧
      (run c paddedRun).recvTarget < (run c paddedRun).recvWin + (run c paddedRun).recvUnacked +
        h2cHeld (run c paddedRun) + unreadBytes (run c paddedRun)) ∧ (∃ c, h2ConnCreate (serverConfig 1024) = some c ∧
      (run c floodedRun).recvWin + (run c floodedRun).recvUnacked + h2cHeld (run c floodedRun) +
        unreadBytes (run c floodedRun) < (run c floodedRun).recvTarget) := by
  constructor
  · refine ⟨(h2ConnCreate (serverConfig 0)).get (by decide), (Option.some_get _).symm, ?_⟩
    decide +kernel
  refine ⟨(h2ConnCreate (serverConfig 1024)).get (by decide), (Option.some_get _).symm, ?_⟩
  decide +kernel

end ProvenC.H2.Conservation
