import ProvenC.Quic.Path

/-!
# The size of a datagram

The size in use starts at the configured one, goes up with probes that pass and back down when the path
stops carrying it.
-/

namespace ProvenC.Quic.DatagramSize

open Bytes Quic.Path Lib.Runs

set_option linter.unusedSectionVars false

structure Sized (p : PathSize) : Prop where
  configuredLow : quicMinInitial ≤ p.configured
  configuredHigh : p.configured ≤ qcMaxDgram
  low : quicMinInitial ≤ p.datagram
  high : p.datagram ≤ pmTop p
  failed : p.pmBad ≠ 0 → p.pmGood < p.pmBad
  failedHigh : p.pmBad ≤ qcMaxDgram
  searching : p.pmState = .searching →
    quicMinInitial ≤ p.pmGood ∧ p.pmGood < p.pmSize ∧ p.pmSize ≤ pmTop p ∧ (p.pmBad ≠ 0 → p.pmSize < p.pmBad)
  out : p.pmOut = true → p.pmState = .searching

structure Choosable (p : PathSize) : Prop where
  configuredLow : quicMinInitial ≤ p.configured
  configuredHigh : p.configured ≤ qcMaxDgram
  low : quicMinInitial ≤ p.datagram
  high : p.datagram ≤ pmTop p
  failed : p.pmBad ≠ 0 → p.pmGood < p.pmBad
  failedHigh : p.pmBad ≤ qcMaxDgram
  good : quicMinInitial ≤ p.pmGood

theorem top_le (p : PathSize) : pmTop p ≤ qcMaxDgram := min_le_right _ _

theorem want_le (p : PathSize) : pmWant p ≤ pmTop p := min_le_right _ _

variable {p : PathSize}

theorem want_below (bad : p.pmBad ≠ 0) (order : p.pmGood < p.pmBad) : pmWant p < p.pmBad := by
  have half : pmWant p ≤ p.pmGood + (p.pmBad - p.pmGood) / 2 := by
    unfold pmWant
    rw [if_neg bad]
    exact min_le_left _ _
  omega

variable {now : Nat}

theorem next_sized (choosable : Choosable p) : Sized (pmNext now p) := by
  unfold pmNext
  dsimp only
  have sameWant : pmWant { p with pmTries := 0, pmOut := false } = pmWant p := rfl
  rw [sameWant]
  split
  · exact ⟨choosable.configuredLow, choosable.configuredHigh, choosable.low, choosable.high, choosable.failed,
      choosable.failedHigh, nofun, nofun⟩
  rename_i more
  rw [not_or] at more
  refine ⟨choosable.configuredLow, choosable.configuredHigh, choosable.low, choosable.high, choosable.failed,
    choosable.failedHigh, fun _ => ⟨choosable.good, ?_, want_le p, ?_⟩, nofun⟩
  · exact lt_of_not_ge more.1
  · exact fun bad => want_below bad (choosable.failed bad)

variable (sized : Sized p)
include sized

theorem begin_sized : Sized (pmBegin now p) := by
  apply next_sized
  exact ⟨sized.configuredLow, sized.configuredHigh, sized.low, sized.high, fun wrong => absurd rfl wrong,
    Nat.zero_le _, sized.low⟩

theorem passed_sized (searching : p.pmState = .searching) : Sized (pmPassed now p) := by
  obtain ⟨good, larger, top, bad⟩ := sized.searching searching
  apply next_sized
  exact ⟨sized.configuredLow, sized.configuredHigh, good.trans larger.le, top, bad, sized.failedHigh,
    good.trans larger.le⟩

theorem failed_sized (searching : p.pmState = .searching) : Sized (pmFailed now p) := by
  obtain ⟨good, larger, top, _⟩ := sized.searching searching
  apply next_sized
  exact ⟨sized.configuredLow, sized.configuredHigh, sized.low, sized.high, fun _ => larger, top.trans (top_le p), good⟩

theorem lost_sized {ptoCount : Nat} (out : p.pmOut = true) : Sized (pmLost now ptoCount p) := by
  have searching := sized.out out
  have waits : Sized { p with pmOut := false, pmTries := pmTriesLeft ptoCount p } :=
    ⟨sized.configuredLow, sized.configuredHigh, sized.low, sized.high, sized.failed, sized.failedHigh,
      sized.searching, nofun⟩
  unfold pmLost
  dsimp only
  split
  · exact waits
  · exact failed_sized waits searching

theorem big_sized (big : Nat) : Sized { p with pmBigLost := big } :=
  ⟨sized.configuredLow, sized.configuredHigh, sized.low, sized.high, sized.failed, sized.failedHigh, sized.searching,
    sized.out⟩

theorem hole_sized : Sized (pmBlackHole now p) := by
  unfold pmBlackHole
  split
  next larger =>
    apply next_sized
    exact ⟨sized.configuredLow, sized.configuredHigh, sized.configuredLow, larger.le.trans sized.high,
      fun wrong => absurd rfl wrong, Nat.zero_le _, sized.configuredLow⟩
  · exact sized

omit sized

def decideProbe (now : Nat) (passed : Bool) (p : PathSize) : PathSize :=
  if passed then pmPassed now p else pmFailed now p

def searchRun : List (Nat × Bool) → PathSize → PathSize
  | [], p => p
  | (now, passed) :: rest, p =>
    if p.pmState = .searching then searchRun rest (decideProbe now passed p) else p

def searchLeft (p : PathSize) : Nat :=
  if p.pmBad = 0 then qcMaxDgram + 1 + (qcMaxDgram - p.pmGood) else p.pmBad - p.pmGood

include sized

theorem decide_sized {passed : Bool} (searching : p.pmState = .searching) : Sized (decideProbe now passed p) := by
  unfold decideProbe
  split
  · exact passed_sized sized searching
  · exact failed_sized sized searching

omit sized in
theorem next_left : searchLeft (pmNext now p) = searchLeft p := by
  unfold pmNext
  dsimp only
  split
  · rfl
  · rfl

theorem decide_left {passed : Bool}
    (searching : p.pmState = .searching) : searchLeft (decideProbe now passed p) < searchLeft p := by
  obtain ⟨good, larger, top, bad⟩ := sized.searching searching
  have limit := top.trans (top_le p)
  unfold decideProbe
  cases passed with
  | false =>
    rw [if_neg Bool.false_ne_true]
    unfold pmFailed
    rw [next_left]
    unfold searchLeft
    rw [if_neg (by omega : p.pmSize ≠ 0)]
    dsimp only
    split
    · omega
    rename_i some_
    have below := bad some_
    omega
  | true =>
    rw [if_pos rfl]
    unfold pmPassed
    rw [next_left]
    unfold searchLeft
    dsimp only
    split
    · omega
    rename_i some_
    have below := bad some_
    omega

theorem search_left_pos : 0 < searchLeft p := by
  unfold searchLeft
  split
  · omega
  rename_i some_
  have below := sized.failed some_
  omega

theorem search_ends (outcomes : List (Nat × Bool))
    (enough : searchLeft p ≤ outcomes.length) : (searchRun outcomes p).pmState ≠ .searching := by
  induction outcomes generalizing p with
  | nil =>
    have some_ := search_left_pos sized
    rw [List.length_nil] at enough
    omega
  | cons outcome rest ih =>
    obtain ⟨now, passed⟩ := outcome
    rw [searchRun]
    split
    next searching =>
      have less : searchLeft (decideProbe now passed p) < searchLeft p := decide_left sized searching
      rw [List.length_cons] at enough
      exact ih (decide_sized sized searching) (by omega)
    rename_i ended
    exact ended

theorem search_left_le : searchLeft p ≤ 2 * qcMaxDgram + 1 := by
  have limit := sized.failedHigh
  unfold searchLeft
  split <;> omega

omit sized

variable {Addr : Type}

structure PathSized (c : PathConn Addr) : Prop where
  sized : Sized c.size
  early : c.havePeerTp = false → c.confirmed = false ∧ c.size.pmState ≠ .searching ∧ c.size.datagram ≤ c.size.configured
  peer : quicMinInitial ≤ c.size.peerMaxUdp

def SameSize (c after : PathConn Addr) : Prop :=
  after.size = c.size ∧ after.havePeerTp = c.havePeerTp ∧ after.confirmed = c.confirmed

theorem same_refl (c : PathConn Addr) : SameSize c c := ⟨rfl, rfl, rfl⟩

variable {c : PathConn Addr}

theorem sized_same {after : PathConn Addr} (sized : PathSized c) (same : SameSize c after) : PathSized after := by
  obtain ⟨size, params, confirmed⟩ := same
  constructor
  · rw [size]
    exact sized.sized
  · rw [size, params, confirmed]
    exact sized.early
  rw [size]
  exact sized.peer

theorem fail_same (c : PathConn Addr) : SameSize c (connFail c) := by
  unfold connFail
  split
  · exact ⟨rfl, rfl, rfl⟩
  · exact same_refl c

theorem drain_same (c : PathConn Addr) : SameSize c (connDrain c) := by
  unfold connDrain
  split
  · exact same_refl c
  · exact same_refl c
  · exact ⟨rfl, rfl, rfl⟩

def Quiet (p : PathSize) : Prop := p.pmState ≠ .searching ∧ p.datagram ≤ p.configured

structure SizeStep (p after : PathSize) : Prop where
  sized : Sized after
  quiet : Quiet p → Quiet after
  peer : after.peerMaxUdp = p.peerMaxUdp

theorem size_step_refl (sized : Sized p) : SizeStep p p := ⟨sized, id, rfl⟩

theorem size_step_trans {middle after : PathSize} (first : SizeStep p middle) (second : SizeStep middle after) :
    SizeStep p after :=
  ⟨second.sized, fun quiet => second.quiet (first.quiet quiet), second.peer.trans first.peer⟩

theorem sized_step (sized : PathSized c) (step : SizeStep c.size p) : PathSized { c with size := p } := by
  refine ⟨step.sized, fun none_ => ?_, ?_⟩
  · obtain ⟨confirmed, quiet⟩ := sized.early none_
    exact ⟨confirmed, step.quiet quiet⟩
  show quicMinInitial ≤ p.peerMaxUdp
  rw [step.peer]
  exact sized.peer

theorem next_peer (now : Nat) (p : PathSize) : (pmNext now p).peerMaxUdp = p.peerMaxUdp := by
  unfold pmNext
  dsimp only
  split
  · rfl
  · rfl

include sized

theorem hole_step : SizeStep p (pmBlackHole now p) := by
  refine ⟨hole_sized sized, fun quiet => ?_, ?_⟩
  · unfold pmBlackHole
    rw [if_neg (Nat.not_lt_of_le quiet.2)]
    exact quiet
  unfold pmBlackHole pmBegin
  split
  · exact next_peer _ _
  · rfl

theorem detect_step {big : Nat} : SizeStep p (detectLost now big p) := by
  have counted : SizeStep p { p with pmBigLost := p.pmBigLost + big } := ⟨big_sized sized _, id, rfl⟩
  unfold detectLost
  dsimp only
  split
  · exact size_step_trans counted (hole_step counted.sized)
  · exact counted

theorem ack_step {bigLost : Nat} {bigAcked probeAcked : Bool} : SizeStep p (onAck now bigAcked probeAcked bigLost p) := by
  have taken : SizeStep p (bigAckedSeen bigAcked p) := by
    unfold bigAckedSeen
    split
    · exact ⟨big_sized sized 0, id, rfl⟩
    · exact size_step_refl sized
  have probed : SizeStep (bigAckedSeen bigAcked p) (probeAckedSeen now probeAcked (bigAckedSeen bigAcked p)) := by
    unfold probeAckedSeen
    split
    next acked =>
      rw [Bool.and_eq_true] at acked
      have searching := taken.sized.out acked.2
      exact ⟨passed_sized taken.sized searching, fun quiet => absurd searching quiet.1, next_peer _ _⟩
    · exact size_step_refl taken.sized
  exact size_step_trans (size_step_trans taken probed) (detect_step probed.sized)

theorem lost_step {ptoCount : Nat} (out : p.pmOut = true) : SizeStep p (pmLost now ptoCount p) := by
  refine ⟨lost_sized sized out, fun quiet => absurd (sized.out out) quiet.1, ?_⟩
  unfold pmLost
  dsimp only
  split
  · rfl
  · exact next_peer _ _

omit sized

theorem params_sized {maxUdp : Nat} (sized : PathSized c) (first : c.havePeerTp = false)
    (low : quicMinInitial ≤ maxUdp) :
    PathSized { c with
      havePeerTp := true
      size := { c.size with peerMaxUdp := maxUdp, datagram := min c.size.datagram maxUdp } } := by
  obtain ⟨_, notSearching, _⟩ := sized.early first
  have limits := sized.sized
  refine ⟨⟨limits.configuredLow, limits.configuredHigh, le_min limits.low low, ?_, limits.failed, limits.failedHigh,
    fun searching => absurd searching notSearching, limits.out⟩, nofun, low⟩
  have high : c.size.datagram ≤ qcMaxDgram := limits.high.trans (top_le _)
  exact le_min (min_le_right _ _) ((min_le_left _ _).trans high)

variable [DecidableEq Addr]

variable {source : Addr}

theorem frame_sized (frame : PathFrame) (sized : PathSized c) : PathSized (onFrame now source frame c) := by
  cases frame with
  | pathChallenge data =>
    dsimp only [onFrame]
    split
    all_goals exact sized_same sized (same_refl c)
  | pathResponse data =>
    dsimp only [onFrame]
    split
    · exact sized_same sized (same_refl c)
    · exact sized
  | ack bigAcked probeAcked bigLost backToNone =>
    exact sized_same (sized_step sized (ack_step sized.sized)) (same_refl _)
  | params maxUdp =>
    dsimp only [onFrame, applyPeerParams]
    split
    · exact sized
    rename_i first
    rw [Bool.not_eq_true] at first
    split
    · exact sized_same sized (fail_same c)
    rename_i range
    rw [not_or, not_lt] at range
    exact params_sized sized first range.1
  | confirm =>
    dsimp only [onFrame]
    split
    next params =>
      refine ⟨sized.sized, fun none_ => ?_, sized.peer⟩
      have wrong : c.havePeerTp = false := none_
      rw [params] at wrong
      cases wrong
    · exact sized
  | connectionClose => exact sized_same sized (drain_same c)
  | refused | failed => exact sized_same sized (fail_same c)
  | probing | other => exact sized

theorem frames_sized (frames : List PathFrame) (sized : PathSized c) : PathSized (onFrames now source frames c) := by
  unfold onFrames
  induction frames generalizing c with
  | nil => exact sized
  | cons frame rest ih => exact ih (frame_sized frame sized)

def FittingChange (at_ : Moment) (source : Addr) (packet : QuicPacket) (c : PathConn Addr) : Prop :=
  ∀ level newest frames, packet.found = .opened level newest frames →
    let done := framesDone at_ source level frames c
    migrates done.2 source level newest done.1 = true → done.2.size.configured ≤ done.2.size.peerMaxUdp

theorem migrate_sized {token : List Byte} {deadline : Nat} (sized : PathSized c)
    (confirmed : c.confirmed = true) (fits : c.size.configured ≤ c.size.peerMaxUdp) :
    PathSized (migrate c source token deadline) := by
  have limits := sized.sized
  refine ⟨⟨limits.configuredLow, limits.configuredHigh, limits.configuredLow, le_min fits limits.configuredHigh,
    limits.failed, limits.failedHigh, nofun, nofun⟩, fun none_ => ?_, sized.peer⟩
  rw [(sized.early none_).1] at confirmed
  cases confirmed

theorem packet_sized {at_ : Moment} (packet : QuicPacket) (c : PathConn Addr)
    (sized : PathSized c) (fitting : FittingChange at_ source packet c) :
    PathSized (readPacket at_ source packet c).1 := by
  unfold readPacket
  cases found : packet.found with
  | dropped | held => exact sized
  | opened level newest frames =>
    have change := fitting level newest frames found
    dsimp only
    unfold readOpened
    split
    · exact sized
    split
    · exact sized
    split
    · unfold readClosing
      split
      · exact sized_same sized (drain_same { c with closeRx := c.closeRx + 1 })
      · exact sized_same sized (same_refl c)
    have seen : PathSized (handshakeSeen c level) := by
      unfold handshakeSeen
      split
      · exact sized_same sized (same_refl c)
      · exact sized
    have done : PathSized (framesDone at_ source level frames c).2 := frames_sized _ seen
    dsimp only
    split
    · exact done
    split
    next moves =>
      have confirmed : (framesDone at_ source level frames c).2.confirmed = true := by
        simp only [migrates, Bool.and_eq_true] at moves
        exact moves.2
      exact migrate_sized done confirmed (change moves)
    · exact done

theorem datagram_sized {at_ : Moment} {n : Nat} {packets : List QuicPacket} {before reset : Bool} (sized : PathSized c) (along : AlongPackets FittingChange at_ source n packets 0 c) :
    PathSized (readDatagram at_ source n packets before reset c) := by
  have read := read_packets_keeps (fun packet c => packet_sized packet c) sized along
  have counted : PathSized (countDatagram source n before (readPackets at_ source n packets 0 c).1
      (readPackets at_ source n packets 0 c).2.1 (readPackets at_ source n packets 0 c).2.2) :=
    sized_same read ⟨rfl, rfl, rfl⟩
  unfold readDatagram
  dsimp only
  split
  · split
    · exact counted
    · exact counted
    · exact sized_same counted (same_refl _)
  · exact counted

def Fits (c : PathConn Addr) (sent : Sent Addr) : Prop :=
  ∀ len dest, sent = some (len, dest) → len ≤ c.size.peerMaxUdp ∧ len ≤ qcMaxDgram

theorem fits_none (c : PathConn Addr) : Fits c none := nofun

theorem fits_some {len : Nat} (dest : Addr) (small : len ≤ pmTop c.size) : Fits c (some (len, dest)) := by
  intro length to_ same
  cases same
  exact le_min_iff.mp small

theorem here_fits {before : PathConn Addr} {len : Nat} (small : len ≤ pmTop before.size) :
    Fits before (sendHere c len).2 := by
  unfold sendHere
  split
  · exact fits_none before
  · exact fits_some _ small

theorem here_sized (sized : PathSized c) (len : Nat) : PathSized (sendHere c len).1 := by
  unfold sendHere
  split
  · exact sized
  · exact sized_same sized (same_refl c)

theorem budget_le (c : PathConn Addr) : sendBudget c ≤ c.size.datagram := by
  unfold sendBudget
  split
  · exact min_le_right _ _
  · exact le_rfl

theorem packets_sized (sized : PathSized c) (least : Nat) (call : SendCall) :
    PathSized (sendPackets c least call).1 ∧ Fits c (sendPackets c least call).2 := by
  have room : sendBudget c ≤ pmTop c.size := (budget_le c).trans sized.sized.high
  have within := built_within least (sendBudget c) call.sizes 0 (Nat.zero_le _)
  unfold sendPackets
  dsimp only
  split
  · exact ⟨sized, fits_none c⟩
  split
  · split
    · exact ⟨sized, fits_none c⟩
    rename_i enough
    exact ⟨here_sized sized _, here_fits ((Nat.le_of_not_lt enough).trans room)⟩
  · exact ⟨here_sized sized _, here_fits (within.trans room)⟩

theorem begin_step {now : Nat} {p : PathSize} (sized : Sized p) :
    Sized (pmBegin now p) ∧ (pmBegin now p).peerMaxUdp = p.peerMaxUdp :=
  ⟨begin_sized sized, next_peer _ _⟩

theorem probe_start {call : SendCall} {p : PathSize} (sized : Sized p) :
    Sized (probeStart call p) ∧ (probeStart call p).peerMaxUdp = p.peerMaxUdp := by
  have begun : Sized (probeBegin call p) ∧ (probeBegin call p).peerMaxUdp = p.peerMaxUdp := by
    unfold probeBegin
    split
    · exact begin_step sized
    · exact ⟨sized, rfl⟩
  unfold probeStart probeRaise
  split
  · obtain ⟨again, peer⟩ := @begin_step call.now _ begun.1
    exact ⟨again, peer.trans begun.2⟩
  · exact begun

theorem probe_sized (sized : PathSized c) (call : SendCall) :
    PathSized (sendProbe c call).1 ∧ Fits c (sendProbe c call).2 ∧
      (sendProbe c call).1.size.peerMaxUdp = c.size.peerMaxUdp := by
  unfold sendProbe
  split
  next allowed =>
    have params : c.havePeerTp = true := by
      rw [← Bool.not_eq_false]
      intro none_
      rw [(sized.early none_).1] at allowed
      cases allowed.1
    obtain ⟨search, peer⟩ := @probe_start call _ sized.sized
    have known : ∀ after : PathSize, Sized after → after.peerMaxUdp = c.size.peerMaxUdp →
        PathSized { c with size := after } := by
      intro after here same
      refine ⟨here, fun none_ => ?_, ?_⟩
      · have wrong : c.havePeerTp = false := none_
        rw [params] at wrong
        cases wrong
      show quicMinInitial ≤ after.peerMaxUdp
      rw [same]
      exact sized.peer
    dsimp only
    split
    next due =>
      obtain ⟨_, _, top, _⟩ := search.searching due.1
      have sameTop : pmTop (probeStart call c.size) = pmTop c.size := by
        unfold pmTop
        rw [peer]
      rw [sameTop] at top
      have out : Sized { probeStart call c.size with
          pmOut := true, pmTries := (probeStart call c.size).pmTries + 1, pmDeadline := call.probeDeadline } :=
        ⟨search.configuredLow, search.configuredHigh, search.low, search.high, search.failed,
          search.failedHigh, search.searching, fun _ => due.1⟩
      have kept := known _ out peer
      refine ⟨?_, ?_, ?_⟩
      · apply here_sized
        exact kept
      · unfold sendHere
        split
        · exact fits_none c
        · exact fits_some _ top
      unfold sendHere
      split
      all_goals exact peer
    · exact ⟨known _ search peer, fits_none c, peer⟩
  · exact ⟨sized, fits_none c, rfl⟩

theorem response_sized {result : PathConn Addr × Sent Addr} (sized : PathSized c)
    (response : sendResponse c = some result) : PathSized result.1 ∧ Fits c result.2 := by
  unfold sendResponse at response
  split at response
  · rw [Option.some.injEq] at response
    subst response
    exact ⟨sized_same sized (same_refl c), fits_some _ sized.sized.high⟩
  split at response
  · rw [Option.some.injEq] at response
    subst response
    exact ⟨sized_same sized (same_refl c), fits_some _ sized.sized.high⟩
  · cases response

theorem send_sized (sized : PathSized c) (call : SendCall) :
    PathSized (connSend call c).1 ∧ Fits c (connSend call c).2 := by
  unfold connSend
  split
  · exact ⟨sized, fits_none c⟩
  split
  · dsimp only
    split
    · exact ⟨sized_same sized (same_refl c), fits_none c⟩
    have owed : PathSized { c with closeUnsent := false, closeOwed := false } := sized_same sized (same_refl c)
    exact packets_sized owed 0 _
  · cases response : sendResponse c with
    | some result => exact response_sized sized response
    | none =>
      obtain ⟨probe, fits, peer⟩ := probe_sized sized call
      cases sent : sendProbe c call with
      | mk after datagram =>
        rw [sent] at probe fits peer
        cases datagram with
        | some _ => exact ⟨probe, fits⟩
        | none =>
          obtain ⟨kept, small⟩ := packets_sized probe 64 call
          refine ⟨kept, fun len dest same => ?_⟩
          rw [← peer]
          exact small len dest same

theorem timeout_sized (sized : PathSized c) (now : Nat) (idle : Bool) (due : LossTimeout) :
    PathSized (connTimeout now idle due c) := by
  unfold connTimeout
  split
  · exact sized
  split
  · split
    · exact sized_same sized (same_refl c)
    · exact sized
  split
  · exact sized_same sized (same_refl c)
  have expired : PathSized (challengeExpired now c) := by
    unfold challengeExpired
    split
    · split
      all_goals exact sized_same sized (same_refl c)
    · exact sized
  have lost : ∀ after : PathConn Addr, PathSized after → PathSized (onLossTimeout now due after) := by
    intro after here
    cases due with
    | notDue => exact here
    | lost big => exact sized_step here (detect_step here.sized)
    | probe =>
      dsimp only [onLossTimeout]
      split
      · exact sized_same (sized_step here (hole_step here.sized)) (same_refl _)
      · exact sized_same here (same_refl after)
  apply lost
  split
  next out =>
    exact sized_step expired (lost_step expired.sized out.1)
  · exact expired

def FittingStep : PathConn Addr → PathStep Addr → Prop := StepPackets FittingChange

theorem step_sized (c : PathConn Addr) (step : PathStep Addr) (sized : PathSized c)
    (fitting : FittingStep c step) : PathSized (pathNext c step) := by
  cases step with
  | receive at_ source n packets reset =>
    unfold pathNext pathStep connReceive
    dsimp only
    split
    · exact sized
    split
    · exact sized
    · exact datagram_sized sized fitting
  | replay at_ index packets =>
    unfold pathNext pathStep replayHeld
    dsimp only
    cases place : c.pending[index]? with
    | none => exact sized
    | some part =>
      have rest : PathSized { c with pending := c.pending.eraseIdx index } := sized_same sized (same_refl c)
      dsimp only
      split
      · exact rest
      · exact datagram_sized rest (fitting part place)
  | send call => exact (send_sized sized call).1
  | challengeSent | responsesSent | appKeysCome | pendingDropped => exact sized_same sized (same_refl c)
  | challengeLost =>
    unfold pathNext pathStep
    dsimp only
    split
    · exact sized_same sized (same_refl c)
    · exact sized
  | timeout now idle due => exact timeout_sized sized now idle due
  | close =>
    unfold pathNext pathStep
    dsimp only
    split
    · exact sized_same (sized_same sized (fail_same c)) (same_refl _)
    · exact sized

theorem new_sized (server : Bool) (peer : Addr) (known : Bool) {datagram : Nat} (raise : Nat)
    (low : quicMinInitial ≤ datagram) (high : datagram ≤ qcMaxDgram) :
    PathSized (connNew server peer known datagram raise) := by
  refine ⟨⟨low, high, low, ?_, fun wrong => absurd rfl wrong, Nat.zero_le _, nofun, nofun⟩,
    fun _ => ⟨rfl, nofun, le_rfl⟩, ?_⟩
  · refine le_min (high.trans ?_) high
    show 1452 ≤ 65527
    omega
  show 1200 ≤ 65527
  omega

structure SizeKept (c : PathConn Addr) : Prop where
  sent : ∀ call, Fits c (connSend call c).2
  low : quicMinInitial ≤ c.size.datagram
  order : c.size.pmBad ≠ 0 → c.size.pmGood < c.size.pmBad
  ends : ∀ outcomes : List (Nat × Bool), 2 * qcMaxDgram + 1 ≤ outcomes.length →
    (searchRun outcomes c.size).pmState ≠ .searching

/-- In every run in which no change of address brings back a size the peer does not take, every
datagram fits the peer and the library, the size stays above the smallest, and searches end. -/
theorem datagram_size_kept (server : Bool) (peer : Addr) (known : Bool) (datagram raise : Nat)
    (low : quicMinInitial ≤ datagram) (high : datagram ≤ qcMaxDgram) (steps : List (PathStep Addr))
    (fitting : Along pathNext FittingStep (connNew server peer known datagram raise) steps) :
    SizeKept (pathRun (connNew server peer known datagram raise) steps) := by
  have sized := run_keeps step_sized (new_sized server peer known raise low high) fitting
  exact {
    sent := fun call => (send_sized sized call).2
    low := sized.sized.low
    order := sized.sized.failed
    ends := fun outcomes enough => search_ends sized.sized outcomes ((search_left_le sized.sized).trans enough) }

def movedWithin : List (PathStep Nat) :=
  [.receive ⟨0, [], 0⟩ 1 1200 [⟨1200, .opened .handshake false [.params 1500, .confirm]⟩] false,
    .receive ⟨5, [7], 30⟩ 2 1200 [⟨1200, .opened .oneRtt true [.other]⟩] false]

def movedPast : List (PathStep Nat) :=
  [.receive ⟨0, [], 0⟩ 1 1200 [⟨1200, .opened .handshake false [.params 1200, .confirm]⟩] false,
    .receive ⟨5, [7], 30⟩ 2 1200 [⟨1200, .opened .oneRtt true [.other]⟩] false]

theorem datagram_size_kept_within : SizeKept (pathRun (connNew true 1 true 1400 600000000) movedWithin) := by
  refine datagram_size_kept true 1 true 1400 600000000 (by decide) (by decide) movedWithin ⟨?_, ?_, True.intro⟩
  all_goals refine ⟨fun level newest frames found => ?_, fun _ => True.intro⟩
  · cases found
    intro _ moves
    exact absurd moves (by decide)
  · cases found
    intro _ _
    decide

/-- The change of address brings the configured 1400 bytes back, which the peer does not take. -/
theorem change_passes_peer :
    ¬ ∀ (server : Bool) (peer : Nat) (known : Bool) (datagram raise : Nat), quicMinInitial ≤ datagram →
      datagram ≤ qcMaxDgram → ∀ steps : List (PathStep Nat),
        (pathRun (connNew server peer known datagram raise) steps).havePeerTp = true →
          SizeKept (pathRun (connNew server peer known datagram raise) steps) := by
  intro every
  have kept := every true 1 true 1400 600000000 (by decide) (by decide) movedPast (by decide)
  have fits := kept.sent ⟨6, 1452, [1400], false, true, 60⟩ 1400 2 (by decide)
  exact absurd fits.1 (by decide)

end ProvenC.Quic.DatagramSize
