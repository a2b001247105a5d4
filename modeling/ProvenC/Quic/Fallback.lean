import ProvenC.Quic.Path

/-!
# Falling back to the last validated address

A server that sees its client at a new address challenges it and keeps the address it left.
-/

namespace ProvenC.Quic.Fallback

open Bytes Quic.Path Lib.Runs

set_option linter.unusedSectionVars false

variable {Addr : Type}

/-- The address in use is the last one validated, or its validation is pending and the last one
validated is the one it left. -/
structure Anchored (c : PathConn Addr) : Prop where
  here : c.validated = true → c.proved.head? = some c.peerAddr
  left : c.validated = false → c.proved ≠ [] → c.hasOld = true ∧ c.challengeWait = true
  old : c.hasOld = true → c.validated = false ∧ c.proved.head? = some c.oldAddr
  late : c.hasOld = true ∨ c.challengeWait = true → c.confirmed = true

def SameAnchor (c after : PathConn Addr) : Prop :=
  after.validated = c.validated ∧ after.proved = c.proved ∧ after.peerAddr = c.peerAddr ∧ after.oldAddr = c.oldAddr ∧
    after.hasOld = c.hasOld ∧ after.challengeWait = c.challengeWait ∧ (c.confirmed = true → after.confirmed = true)

theorem same_refl (c : PathConn Addr) : SameAnchor c c := ⟨rfl, rfl, rfl, rfl, rfl, rfl, id⟩

variable {c : PathConn Addr}

theorem anchored_same {after : PathConn Addr} (anchored : Anchored c) (same : SameAnchor c after) : Anchored after := by
  obtain ⟨validated, proved, peer, oldAddr, hasOld, waits, confirmed⟩ := same
  constructor
  · rw [validated, proved, peer]
    exact anchored.here
  · rw [validated, proved, hasOld, waits]
    exact anchored.left
  · rw [validated, hasOld, proved, oldAddr]
    exact anchored.old
  rw [hasOld, waits]
  exact fun either => confirmed (anchored.late either)

theorem fail_same (c : PathConn Addr) : SameAnchor c (connFail c) := by
  unfold connFail
  split
  · exact ⟨rfl, rfl, rfl, rfl, rfl, rfl, id⟩
  · exact same_refl c

theorem drain_same (c : PathConn Addr) : SameAnchor c (connDrain c) := by
  unfold connDrain
  split
  · exact same_refl c
  · exact same_refl c
  · exact ⟨rfl, rfl, rfl, rfl, rfl, rfl, id⟩

theorem anchored_proved (c : PathConn Addr) :
    Anchored (addrProved { c with challengeWait := false, hasOld := false }) where
  here := fun _ => rfl
  left := nofun
  old := nofun
  late := by rintro (wrong | wrong) <;> cases wrong

variable {source : Addr}

variable (anchored : Anchored c)
include anchored

theorem migrate_anchored {token : List Byte} {deadline : Nat} (settled : c.validated = true) (confirmed : c.confirmed = true) :
    Anchored (migrate c source token deadline) where
  here := nofun
  left := fun _ _ => ⟨settled, rfl⟩
  old := fun _ => ⟨rfl, anchored.here settled⟩
  late := fun _ => confirmed

variable {now : Nat}

theorem expired_back {last : Addr}
    (waits : c.challengeWait = true) (due : c.challengeDeadline ≤ now) (known : c.proved.head? = some last) :
    (challengeExpired now c).peerAddr = last ∧ (challengeExpired now c).validated = true := by
  unfold challengeExpired
  rw [if_pos ⟨waits, due⟩]
  by_cases old : c.hasOld = true
  · rw [if_pos old]
    have head := (anchored.old old).2
    rw [head, Option.some.injEq] at known
    exact ⟨known, rfl⟩
  rw [if_neg old]
  have some_ : c.proved ≠ [] := by
    intro none_
    rw [none_] at known
    cases known
  have validated : c.validated = true := by
    rw [← Bool.not_eq_false]
    exact fun pending => old (anchored.left pending some_).1
  rw [anchored.here validated, Option.some.injEq] at known
  exact ⟨known, validated⟩

theorem expired_anchored : Anchored (challengeExpired now c) := by
  unfold challengeExpired
  split
  · split
    next old =>
      refine ⟨fun _ => (anchored.old old).2, nofun, nofun, ?_⟩
      rintro (wrong | wrong) <;> cases wrong
    rename_i noOld
    refine ⟨anchored.here, fun pending some_ => absurd (anchored.left pending some_).1 noOld,
      fun old => absurd old noOld, ?_⟩
    rintro (old | wrong)
    · exact absurd old noOld
    · cases wrong
  · exact anchored

variable [DecidableEq Addr]

omit anchored in
theorem frame_anchored (frame : PathFrame) (anchored : Anchored c) : Anchored (onFrame now source frame c) := by
  cases frame with
  | pathChallenge data =>
    dsimp only [onFrame]
    split
    all_goals exact anchored_same anchored (same_refl c)
  | pathResponse data =>
    dsimp only [onFrame]
    split
    · exact anchored_proved c
    · exact anchored
  | ack bigAcked probeAcked bigLost backToNone => exact anchored_same anchored (same_refl c)
  | params maxUdp =>
    dsimp only [onFrame, applyPeerParams]
    split
    · exact anchored
    split
    · exact anchored_same anchored (fail_same c)
    · exact anchored_same anchored (same_refl c)
  | confirm =>
    dsimp only [onFrame]
    split
    · exact anchored_same anchored ⟨rfl, rfl, rfl, rfl, rfl, rfl, fun _ => rfl⟩
    · exact anchored
  | connectionClose => exact anchored_same anchored (drain_same c)
  | refused | failed => exact anchored_same anchored (fail_same c)
  | probing | other => exact anchored

omit anchored in
theorem frames_anchored (frames : List PathFrame) (anchored : Anchored c) : Anchored (onFrames now source frames c) := by
  unfold onFrames
  induction frames generalizing c with
  | nil => exact anchored
  | cons frame rest ih => exact ih (frame_anchored frame anchored)

theorem handshake_anchored {level : PacketLevel}
    (early : level = .handshake → c.confirmed = false) : Anchored (handshakeSeen c level) := by
  unfold handshakeSeen
  split
  next seen =>
    rw [Bool.and_eq_true, beq_iff_eq] at seen
    have before := early seen.2
    refine ⟨fun _ => rfl, nofun, fun old => ?_, fun either => anchored.late either⟩
    have confirmed := anchored.late (.inl old)
    rw [before] at confirmed
    cases confirmed
  · exact anchored

def SettledChange (at_ : Moment) (source : Addr) (packet : QuicPacket) (c : PathConn Addr) : Prop :=
  ∀ level newest frames, packet.found = .opened level newest frames →
    let done := framesDone at_ source level frames c
    migrates done.2 source level newest done.1 = true → done.2.validated = true

omit anchored in
theorem packet_anchored {at_ : Moment} (packet : QuicPacket) (c : PathConn Addr)
    (anchored : Anchored c) (settled : SettledChange at_ source packet c) :
    Anchored (readPacket at_ source packet c).1 := by
  unfold readPacket
  cases found : packet.found with
  | dropped | held => exact anchored
  | opened level newest frames =>
    have change := settled level newest frames found
    dsimp only
    unfold readOpened
    split
    · exact anchored
    rename_i early
    split
    · exact anchored
    split
    · unfold readClosing
      split
      · exact anchored_same anchored (drain_same { c with closeRx := c.closeRx + 1 })
      · exact anchored_same anchored (same_refl c)
    have before : level = .handshake → c.confirmed = false := by
      intro handshake
      rw [← Bool.not_eq_true]
      exact fun confirmed => early ⟨handshake, confirmed⟩
    have done : Anchored (framesDone at_ source level frames c).2 :=
      frames_anchored _ (handshake_anchored anchored before)
    dsimp only
    split
    · exact done
    split
    next moves =>
      have confirmed : (framesDone at_ source level frames c).2.confirmed = true := by
        simp only [migrates, Bool.and_eq_true] at moves
        exact moves.2
      exact migrate_anchored done (change moves) confirmed
    · exact done

theorem datagram_anchored {at_ : Moment} {n : Nat} {packets : List QuicPacket} {before reset : Bool} (along : AlongPackets SettledChange at_ source n packets 0 c) :
    Anchored (readDatagram at_ source n packets before reset c) := by
  have read := read_packets_keeps (fun packet c => packet_anchored packet c) anchored along
  have counted : Anchored (countDatagram source n before (readPackets at_ source n packets 0 c).1
      (readPackets at_ source n packets 0 c).2.1 (readPackets at_ source n packets 0 c).2.2) :=
    anchored_same read ⟨rfl, rfl, rfl, rfl, rfl, rfl, id⟩
  unfold readDatagram
  dsimp only
  split
  · split
    · exact counted
    · exact counted
    · exact anchored_same counted (same_refl _)
  · exact counted

theorem here_anchored (len : Nat) : Anchored (sendHere c len).1 := by
  unfold sendHere
  split
  · exact anchored
  · exact anchored_same anchored (same_refl c)

theorem packets_anchored (least : Nat) (call : SendCall) : Anchored (sendPackets c least call).1 := by
  unfold sendPackets
  dsimp only
  split
  · exact anchored
  split
  · split
    · exact anchored
    · exact here_anchored anchored _
  · exact here_anchored anchored _

theorem send_anchored (call : SendCall) : Anchored (connSend call c).1 := by
  unfold connSend
  split
  · exact anchored
  split
  · have unsent : Anchored { c with closeUnsent := false } := anchored_same anchored (same_refl c)
    dsimp only
    split
    · exact unsent
    apply packets_anchored
    exact anchored_same anchored (same_refl c)
  · cases response : sendResponse c with
    | some result =>
      unfold sendResponse at response
      split at response
      · rw [Option.some.injEq] at response
        subst response
        exact anchored_same anchored (same_refl c)
      split at response
      · rw [Option.some.injEq] at response
        subst response
        exact anchored_same anchored (same_refl c)
      · cases response
    | none =>
      have probe : Anchored (sendProbe c call).1 := by
        unfold sendProbe
        split
        · dsimp only
          split
          · apply here_anchored
            exact anchored_same anchored (same_refl c)
          · exact anchored_same anchored (same_refl c)
        · exact anchored
      dsimp only
      cases sent : sendProbe c call with
      | mk after datagram =>
        rw [sent] at probe
        cases datagram with
        | some _ => exact probe
        | none => exact packets_anchored probe 64 call

theorem timeout_anchored (now : Nat) (idle : Bool) (due : LossTimeout) : Anchored (connTimeout now idle due c) := by
  unfold connTimeout
  split
  · exact anchored
  split
  · split
    · exact anchored_same anchored (same_refl c)
    · exact anchored
  split
  · exact anchored_same anchored (same_refl c)
  have expired : Anchored (challengeExpired now c) := expired_anchored anchored
  have lost : ∀ after : PathConn Addr, Anchored after → Anchored (onLossTimeout now due after) := by
    intro after here
    cases due with
    | notDue => exact here
    | lost | probe => exact anchored_same here (same_refl after)
  apply lost
  split
  · exact anchored_same expired (same_refl _)
  · exact expired

def SettledStep : PathConn Addr → PathStep Addr → Prop := StepPackets SettledChange

omit anchored in
theorem step_anchored (c : PathConn Addr) (step : PathStep Addr) (anchored : Anchored c)
    (settled : SettledStep c step) : Anchored (pathNext c step) := by
  cases step with
  | receive at_ source n packets reset =>
    unfold pathNext pathStep connReceive
    dsimp only
    split
    · exact anchored
    split
    · exact anchored
    · exact datagram_anchored anchored settled
  | replay at_ index packets =>
    unfold pathNext pathStep replayHeld
    dsimp only
    cases place : c.pending[index]? with
    | none => exact anchored
    | some part =>
      have rest : Anchored { c with pending := c.pending.eraseIdx index } :=
        anchored_same anchored (same_refl c)
      dsimp only
      split
      · exact rest
      · exact datagram_anchored rest (settled part place)
  | send call => exact send_anchored anchored call
  | challengeSent | responsesSent | appKeysCome | pendingDropped => exact anchored_same anchored (same_refl c)
  | challengeLost =>
    unfold pathNext pathStep
    dsimp only
    split
    · exact anchored_same anchored (same_refl c)
    · exact anchored
  | timeout now idle due => exact timeout_anchored anchored now idle due
  | close =>
    unfold pathNext pathStep
    dsimp only
    split
    · exact anchored_same (anchored_same anchored (fail_same c)) (same_refl _)
    · exact anchored

omit anchored in
theorem new_anchored (peer : Addr) (known : Bool) (datagram raise : Nat) :
    Anchored (connNew true peer known datagram raise) := by
  cases known
  · exact ⟨nofun, fun _ some_ => absurd rfl some_, nofun, by rintro (wrong | wrong) <;> cases wrong⟩
  · exact ⟨fun _ => rfl, nofun, nofun, by rintro (wrong | wrong) <;> cases wrong⟩

/-- When the validation of the address in use fails, the connection is back at the last validated
address; and an address in use that is not validated while another was is still being validated. -/
def FallsBack (c : PathConn Addr) : Prop :=
  (∀ now due last, c.state.live = true → c.challengeWait = true → c.challengeDeadline ≤ now → c.proved.head? = some last →
      (connTimeout now false due c).peerAddr = last ∧ (connTimeout now false due c).validated = true) ∧
    (c.proved ≠ [] → c.validated = true ∨ c.challengeWait = true)

theorem anchored_falls_back : FallsBack c := by
  constructor
  · intro now due last live waits over_ known
    have back := expired_back anchored waits over_ known
    have notClosed : c.state ≠ .closed := by
      intro closed
      rw [closed] at live
      cases live
    unfold connTimeout
    rw [if_neg notClosed, live, Bool.not_true, if_neg Bool.false_ne_true, if_neg Bool.false_ne_true]
    have lost : ∀ after : PathConn Addr, (onLossTimeout now due after).peerAddr = after.peerAddr ∧
        (onLossTimeout now due after).validated = after.validated := by
      intro after
      cases due <;> exact ⟨rfl, rfl⟩
    rw [(lost _).1, (lost _).2]
    split
    all_goals exact back
  intro some_
  cases validated : c.validated with
  | true => exact .inl rfl
  | false => exact .inr (anchored.left validated some_).2

omit anchored

/-- In every run of a server in which each change of address found the address in use validated,
a failed validation leads back to the last validated address. -/
theorem migration_falls_back (peer : Addr) (known : Bool) (datagram raise : Nat) (steps : List (PathStep Addr))
    (settled : Along pathNext SettledStep (connNew true peer known datagram raise) steps) :
    FallsBack (pathRun (connNew true peer known datagram raise) steps) :=
  anchored_falls_back (run_keeps step_anchored (new_anchored peer known datagram raise) settled)

def movedOnce : List (PathStep Nat) :=
  [.receive ⟨0, [], 0⟩ 1 1200 [⟨1200, .opened .handshake false [.params 1500, .confirm]⟩] false,
    .receive ⟨5, [7], 30⟩ 2 100 [⟨100, .opened .oneRtt true [.other]⟩] false]

def movedTwice : List (PathStep Nat) :=
  movedOnce ++ [.receive ⟨6, [8], 31⟩ 3 100 [⟨100, .opened .oneRtt true [.other]⟩] false]

theorem migration_falls_back_once : FallsBack (pathRun (connNew true 1 true 1200 600000000) movedOnce) := by
  refine migration_falls_back 1 true 1200 600000000 movedOnce ⟨?_, ?_, True.intro⟩
  all_goals refine ⟨fun level newest frames found => ?_, fun _ => True.intro⟩
  · cases found
    intro _ moves
    exact absurd moves (by decide)
  · cases found
    intro _ _
    decide

/-- Two changes within one validation: the connection stays at the last address, which never
answered, and the validated one is forgotten. -/
theorem second_move_forgets : ¬ ∀ (peer : Nat) (known : Bool) (datagram raise : Nat) (steps : List (PathStep Nat)),
      FallsBack (pathRun (connNew true peer known datagram raise) steps) := by
  intro every
  have back := (every 1 true 1200 600000000 movedTwice).1 31 .notDue 1 (by decide) (by decide) (by decide) (by decide)
  exact absurd back.1 (by decide)

end ProvenC.Quic.Fallback
