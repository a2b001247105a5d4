import ProvenC.Quic.Path

/-!
# The amplification limit

To an address that is not validated a server sends three times what it received from there.
-/

namespace ProvenC.Quic.Amplification

open List Bytes Quic.Path Lib.Runs

set_option linter.unusedSectionVars false

variable {Addr : Type} [DecidableEq Addr]

def heldFrom (a : Addr) (parts : List (HeldPart Addr)) : Nat :=
  (parts.map fun part => if part.source = a ∧ part.counted = false then part.len else 0).sum

@[simp] theorem held_nil (a : Addr) : heldFrom a [] = 0 := rfl

@[simp] theorem held_cons (a : Addr) (part : HeldPart Addr) (parts : List (HeldPart Addr)) : heldFrom a (part :: parts) =
      (if part.source = a ∧ part.counted = false then part.len else 0) + heldFrom a parts := by
  unfold heldFrom
  rw [map_cons, List.sum_cons]

@[simp] theorem held_append (a : Addr) (first second : List (HeldPart Addr)) :
    heldFrom a (first ++ second) = heldFrom a first + heldFrom a second := by
  unfold heldFrom
  rw [map_append, List.sum_append]

variable {parts : List (HeldPart Addr)}

theorem held_erase (a : Addr) {index : Nat} {part : HeldPart Addr} (place : parts[index]? = some part) :
    heldFrom a parts = heldFrom a (parts.eraseIdx index) + heldFrom a [part] := by
  induction parts generalizing index with
  | nil => cases place
  | cons first rest ih =>
    cases index with
    | zero =>
      cases place
      simp only [eraseIdx_cons_zero, held_cons, held_nil]
      omega
    | succ index =>
      have there := ih place
      simp only [eraseIdx_cons_succ, held_cons, held_nil] at there ⊢
      omega

/-- Of what address `a` may be sent, `limit`, so much is used, and what is held from there set
aside; what the connection still grants the address in use lies within the rest. -/
structure Balanced (a : Addr) (used limit : Nat) (c : PathConn Addr) : Prop where
  server : c.server = true
  here : c.validated = true → c.peerAddr ∈ c.proved
  old : c.hasOld = true → c.oldAddr ∈ c.proved
  within : a ∉ c.proved → used + 3 * heldFrom a c.pending ≤ limit
  peer : a ∉ c.proved → c.peerAddr = a →
    c.ampTx ≤ 3 * c.ampRx ∧ used + 3 * heldFrom a c.pending + 3 * c.ampRx ≤ limit + c.ampTx

def SamePlace (c after : PathConn Addr) : Prop :=
  after.server = c.server ∧ after.validated = c.validated ∧ after.proved = c.proved ∧ after.peerAddr = c.peerAddr ∧
    after.oldAddr = c.oldAddr ∧ after.hasOld = c.hasOld ∧ after.ampRx = c.ampRx ∧ after.ampTx = c.ampTx ∧
    after.pending = c.pending

theorem same_refl (c : PathConn Addr) : SamePlace c c := ⟨rfl, rfl, rfl, rfl, rfl, rfl, rfl, rfl, rfl⟩

variable {a : Addr} {used limit : Nat} {c : PathConn Addr}

variable (balanced : Balanced a used limit c)
include balanced

theorem balanced_same {after : PathConn Addr} (same : SamePlace c after) : Balanced a used limit after := by
  obtain ⟨server, validated, proved, peer, oldAddr, hasOld, rx, tx, pending⟩ := same
  constructor
  · rw [server]
    exact balanced.server
  · rw [validated, peer, proved]
    exact balanced.here
  · rw [hasOld, oldAddr, proved]
    exact balanced.old
  · rw [proved, pending]
    exact balanced.within
  rw [proved, peer, rx, tx, pending]
  exact balanced.peer

theorem balanced_mono {used' limit' : Nat} (less : used' + limit ≤ used + limit') : Balanced a used' limit' c where
  server := balanced.server
  here := balanced.here
  old := balanced.old
  within := fun unknown => by
    have within := balanced.within unknown
    omega
  peer := fun unknown same => by
    obtain ⟨first, second⟩ := balanced.peer unknown same
    omega

theorem balanced_known (known : a ∈ c.proved) (used' limit' : Nat) : Balanced a used' limit' c where
  server := balanced.server
  here := balanced.here
  old := balanced.old
  within := fun unknown => absurd known unknown
  peer := fun unknown => absurd known unknown

omit balanced

theorem fail_same (c : PathConn Addr) : SamePlace c (connFail c) := by
  unfold connFail
  split
  all_goals exact same_refl c

theorem drain_same (c : PathConn Addr) : SamePlace c (connDrain c) := by
  unfold connDrain
  split
  all_goals exact same_refl c

theorem balanced_proved (balanced : Balanced a used limit c) : Balanced a used limit (addrProved c) where
  server := balanced.server
  here := fun _ => mem_cons_self
  old := fun old => mem_cons_of_mem _ (balanced.old old)
  within := fun unknown => balanced.within fun known => unknown (mem_cons_of_mem _ known)
  peer := fun unknown same => absurd (same ▸ mem_cons_self) unknown

variable {source : Addr}

include balanced

theorem migrate_balanced {deadline : Nat} {token : List Byte} : Balanced a used limit (migrate c source token deadline) where
  server := balanced.server
  here := nofun
  old := balanced.here
  within := balanced.within
  peer := fun unknown _ => ⟨le_rfl, balanced.within unknown⟩

theorem expired_balanced {now : Nat} : Balanced a used limit (challengeExpired now c) := by
  unfold challengeExpired
  split
  · split
    next hasOld =>
      have known := balanced.old hasOld
      exact {
        server := balanced.server
        here := fun _ => known
        old := nofun
        within := balanced.within
        peer := fun unknown same => absurd (same ▸ known) unknown }
    · exact balanced_same balanced (same_refl c)
  · exact balanced

omit balanced

theorem frame_balanced {now : Nat} (frame : PathFrame)
    (balanced : Balanced a used limit c) : Balanced a used limit (onFrame now source frame c) := by
  cases frame with
  | pathChallenge data =>
    dsimp only [onFrame]
    split
    all_goals exact balanced_same balanced (same_refl c)
  | pathResponse data =>
    dsimp only [onFrame]
    split
    · have answered : Balanced a used limit { c with challengeWait := false, hasOld := false } :=
        ⟨balanced.server, balanced.here, nofun, balanced.within, balanced.peer⟩
      exact balanced_proved answered
    · exact balanced
  | ack bigAcked probeAcked bigLost backToNone => exact balanced_same balanced (same_refl c)
  | params maxUdp =>
    dsimp only [onFrame, applyPeerParams]
    split
    · exact balanced
    split
    · exact balanced_same balanced (fail_same c)
    · exact balanced_same balanced (same_refl c)
  | confirm =>
    dsimp only [onFrame]
    split
    · exact balanced_same balanced (same_refl c)
    · exact balanced
  | connectionClose => exact balanced_same balanced (drain_same c)
  | refused | failed => exact balanced_same balanced (fail_same c)
  | probing | other => exact balanced

theorem frames_balanced {now : Nat} (frames : List PathFrame)
    (balanced : Balanced a used limit c) : Balanced a used limit (onFrames now source frames c) := by
  unfold onFrames
  induction frames generalizing c with
  | nil => exact balanced
  | cons frame rest ih => exact ih (frame_balanced frame balanced)

theorem opened_balanced {at_ : Moment} {level : PacketLevel}
    {newest : Bool} {frames : List PathFrame} (balanced : Balanced a used limit c) :
    Balanced a used limit (readOpened at_ source level newest frames c).1 := by
  unfold readOpened
  split
  · exact balanced
  split
  · exact balanced
  split
  · unfold readClosing
    split
    · exact balanced_same balanced (drain_same { c with closeRx := c.closeRx + 1 })
    · exact balanced_same balanced (same_refl c)
  have seen : Balanced a used limit (handshakeSeen c level) := by
    unfold handshakeSeen
    split
    · exact balanced_proved balanced
    · exact balanced
  have done : Balanced a used limit (framesDone at_ source level frames c).2 := frames_balanced _ seen
  dsimp only
  split
  · exact done
  split
  · exact migrate_balanced done
  · exact done

def Fresh (source : Addr) (parts : List (HeldPart Addr)) : Prop :=
  ∀ part ∈ parts, part.source = source ∧ part.counted = false

theorem packet_read {at_ : Moment} {after : PathConn Addr}
    {packet : QuicPacket} {held : List (HeldPart Addr)} {outcome : ReadOutcome} (balanced : Balanced a used limit c)
    (read : readPacket at_ source packet c = (after, held, outcome)) :
    Balanced a used limit after ∧ Fresh source held ∧ (held.map HeldPart.len).sum ≤ packet.len ∧
      (outcome = .opened → ∃ level newest frames, packet.found = .opened level newest frames) := by
  unfold readPacket at read
  cases found : packet.found with
  | dropped =>
    rw [found] at read
    cases read
    exact ⟨balanced, nofun, Nat.zero_le _, nofun⟩
  | held stored zeroRtt =>
    rw [found] at read
    cases read
    refine ⟨balanced, fun part inside => ?_, ?_, ?_⟩
    · cases stored
      · cases inside
      · cases mem_singleton.mp inside
        exact ⟨rfl, rfl⟩
    · cases stored
      · exact Nat.zero_le _
      · exact le_refl _
    · cases zeroRtt <;> nofun
  | opened level newest frames =>
    rw [found] at read
    cases read
    exact ⟨opened_balanced balanced, nofun, Nat.zero_le _, fun _ => ⟨level, newest, frames, rfl⟩⟩

def NoneOpens (packets : List QuicPacket) : Prop :=
  ∀ packet ∈ packets, ∀ level newest frames, packet.found ≠ .opened level newest frames

/-- What reading a datagram's packets does: the balance stays, what is held of them lies within
the datagram, and something opened only if a packet was there to open. -/
structure PacketsRead (a source : Addr) (used limit room : Nat) (packets : List QuicPacket)
    (after : PathConn Addr × List (HeldPart Addr) × Bool) : Prop where
  balanced : Balanced a used limit after.1
  fresh : Fresh source after.2.1
  within : (after.2.1.map HeldPart.len).sum ≤ room
  any : NoneOpens packets → after.2.2 = false

theorem packets_read {a source : Addr} {at_ : Moment} {used limit n pos : Nat} {packets : List QuicPacket}
    {c : PathConn Addr} (balanced : Balanced a used limit c) :
    PacketsRead a source used limit (n - pos) packets (readPackets at_ source n packets pos c) := by
  induction packets generalizing pos c with
  | nil => exact ⟨balanced, fun _ inside => (by cases inside), Nat.zero_le _, fun _ => rfl⟩
  | cons packet rest ih =>
    rw [readPackets]
    split
    · exact ⟨balanced, fun _ inside => (by cases inside), Nat.zero_le _, fun _ => rfl⟩
    rename_i more
    rw [not_or] at more
    have room : pos + packet.len ≤ n := Nat.le_of_not_lt more.1
    cases read : readPacket at_ source packet c with
    | mk after others =>
      obtain ⟨held, outcome⟩ := others
      obtain ⟨here, fresh, within, opens⟩ := packet_read balanced read
      have later := @ih (pos + packet.len) after here
      have inside : ((held ++ (readPackets at_ source n rest (pos + packet.len) after).2.1).map
          HeldPart.len).sum ≤ n - pos := by
        have rest_ := later.within
        rw [map_append, List.sum_append]
        omega
      have all : Fresh source (held ++ (readPackets at_ source n rest (pos + packet.len) after).2.1) := by
        intro part inside
        rcases mem_append.mp inside with first | second
        · exact fresh part first
        · exact later.fresh part second
      have nothing : NoneOpens (packet :: rest) →
          outcome ≠ .opened ∧ (readPackets at_ source n rest (pos + packet.len) after).2.2 = false := by
        intro none_
        refine ⟨fun opened => ?_, later.any fun packet inside => none_ packet (mem_cons_of_mem _ inside)⟩
        obtain ⟨level, newest, frames, found⟩ := opens opened
        exact none_ packet mem_cons_self level newest frames found
      cases outcome with
      | stop => exact ⟨here, fresh, by dsimp only; omega, fun _ => rfl⟩
      | opened => exact ⟨later.balanced, all, inside, fun none_ => absurd rfl (nothing none_).1⟩
      | dropped => exact ⟨later.balanced, all, inside, fun none_ => (nothing none_).2⟩

theorem held_marked (a : Addr) (fresh : Fresh source parts) (mark : Bool) :
    heldFrom a (parts.map fun part => { part with counted := mark }) =
      if source = a ∧ mark = false then (parts.map HeldPart.len).sum else 0 := by
  induction parts with
  | nil =>
    rw [map_nil, map_nil, held_nil, List.sum_nil, ite_self]
  | cons part rest ih =>
    have first := fresh part mem_cons_self
    have later := ih fun piece inside => fresh piece (mem_cons_of_mem _ inside)
    rw [map_cons, held_cons, later, map_cons, List.sum_cons]
    rw [first.1]
    split
    · rfl
    · rfl

theorem balanced_spared {spare rx : Nat} (balanced : Balanced a (used + spare) limit c) (more : c.ampRx ≤ rx)
    (within : 3 * heldFrom a parts ≤ 3 * heldFrom a c.pending + spare)
    (peer : c.peerAddr = a → 3 * heldFrom a parts + 3 * rx ≤ 3 * heldFrom a c.pending + 3 * c.ampRx + spare) :
    Balanced a used limit { c with ampRx := rx, pending := parts } where
  server := balanced.server
  here := balanced.here
  old := balanced.old
  within := fun unknown => by
    have inside := balanced.within unknown
    dsimp only
    omega
  peer := fun unknown there => by
    have inside := balanced.peer unknown there
    have grown := peer there
    dsimp only
    omega

theorem count_balanced {n spare : Nat} {before any : Bool}
    {held : List (HeldPart Addr)} (balanced : Balanced a (used + spare) limit c) (fresh : Fresh source held)
    (within : (held.map HeldPart.len).sum ≤ n) (enough : source = a → before = false ∨ any = true → 3 * n ≤ spare) :
    Balanced a used limit (countDatagram source n before c held any) := by
  unfold countDatagram
  have parts := held_marked a fresh (before || (any && c.server && source == c.peerAddr))
  apply balanced_spared balanced
  · split
    · exact Nat.le_add_right _ _
    · exact le_rfl
  · rw [held_append, parts]
    split
    next kept =>
      have none_ := (Bool.or_eq_false_iff.mp kept.2).1
      have spared := enough kept.1 (.inl none_)
      omega
    · omega
  intro there
  rw [held_append, parts]
  cases counts : any && c.server && source == c.peerAddr with
  | true =>
    rw [Bool.and_eq_true, Bool.and_eq_true, beq_iff_eq] at counts
    have spared := enough (counts.2.trans there) (.inr counts.1.1)
    rw [Bool.or_true, if_neg (by simp), if_pos rfl]
    omega
  | false =>
    rw [Bool.or_false, if_neg Bool.false_ne_true]
    split
    next kept =>
      have spared := enough kept.1 (.inl kept.2)
      omega
    · omega

variable {packets : List QuicPacket}

theorem datagram_balanced {at_ : Moment} {n spare : Nat}
    {before reset : Bool} (balanced : Balanced a (used + spare) limit c)
    (enough : source = a → before = false ∨ ¬ NoneOpens packets → 3 * n ≤ spare) :
    Balanced a used limit (readDatagram at_ source n packets before reset c) := by
  have read := @packets_read _ _ a source at_ _ _ n 0 packets c balanced
  have counted : Balanced a used limit (countDatagram source n before (readPackets at_ source n packets 0 c).1
      (readPackets at_ source n packets 0 c).2.1 (readPackets at_ source n packets 0 c).2.2) := by
    refine count_balanced read.balanced read.fresh read.within fun same either => enough same ?_
    refine either.imp id fun opened none_ => ?_
    rw [read.any none_] at opened
    cases opened
  unfold readDatagram
  dsimp only
  split
  · split
    · exact counted
    · exact counted
    · exact balanced_same counted (same_refl _)
  · exact counted

/-- Bytes of a datagram sent that go to `a`. -/
def sentTo (a : Addr) : Sent Addr → Nat
  | none => 0
  | some (len, dest) => if dest = a then len else 0

include balanced

theorem here_balanced {len : Nat} (granted : c.validated = false → len ≤ 3 * c.ampRx - c.ampTx) :
    Balanced a (used + sentTo a (sendHere c len).2) limit (sendHere c len).1 := by
  unfold sendHere
  split
  · exact balanced
  have unproved : a ∉ c.proved → c.peerAddr = a → len ≤ 3 * c.ampRx - c.ampTx := by
    intro unknown there
    apply granted
    rw [← Bool.not_eq_true]
    exact fun validated => unknown (there ▸ balanced.here validated)
  refine ⟨balanced.server, balanced.here, balanced.old, fun unknown => ?_, fun unknown there => ?_⟩
  · have inside := balanced.within unknown
    dsimp only [sentTo]
    split
    next there =>
      have grant := unproved unknown there
      have inside := balanced.peer unknown there
      omega
    · exact inside
  have inside := balanced.peer unknown there
  have grant := unproved unknown there
  dsimp only [sentTo] at there ⊢
  rw [if_pos there]
  omega

omit balanced in
theorem budget_granted (server : c.server = true) (pending : c.validated = false) :
    sendBudget c ≤ 3 * c.ampRx - c.ampTx := by
  unfold sendBudget
  rw [server, pending]
  exact min_le_left _ _

theorem packets_balanced (least : Nat) (call : SendCall) :
    Balanced a (used + sentTo a (sendPackets c least call).2) limit (sendPackets c least call).1 := by
  have within := built_within least (sendBudget c) call.sizes 0 (Nat.zero_le _)
  have granted : ∀ len, len ≤ sendBudget c → c.validated = false → len ≤ 3 * c.ampRx - c.ampTx :=
    fun len fits pending => fits.trans (budget_granted balanced.server pending)
  unfold sendPackets
  dsimp only
  split
  · exact balanced
  split
  · split
    · exact balanced
    rename_i enough
    exact here_balanced balanced (granted _ (Nat.le_of_not_lt enough))
  · exact here_balanced balanced (granted _ within)

theorem probe_balanced
    (call : SendCall) : Balanced a (used + sentTo a (sendProbe c call).2) limit (sendProbe c call).1 := by
  unfold sendProbe
  split
  next allowed =>
    dsimp only
    split
    · apply here_balanced
      · exact balanced_same balanced (same_refl c)
      intro pending
      have validated : c.validated = false := pending
      rw [allowed.2.2.1] at validated
      cases validated
    · exact balanced_same balanced (same_refl c)
  · exact balanced

omit balanced

def responseElsewhere (c : PathConn Addr) : Option Addr :=
  if c.appKeys = false then none
  else if c.resp0.owed ∧ c.resp0.dest ≠ c.peerAddr then some c.resp0.dest
  else if c.resp1.owed ∧ c.resp1.dest ≠ c.peerAddr then some c.resp1.dest
  else none

theorem response_sent {after : PathConn Addr} {sent : Sent Addr} (response : sendResponse c = some (after, sent)) :
    ∃ dest, responseElsewhere c = some dest ∧ dest ≠ c.peerAddr ∧ sent = some (c.size.datagram, dest) ∧
      SamePlace c after := by
  unfold sendResponse at response
  unfold responseElsewhere
  split at response
  next first =>
    cases response
    refine ⟨c.resp0.dest, ?_, first.2.1, rfl, same_refl c⟩
    rw [first.2.2, if_neg (by simp), if_pos ⟨first.1, first.2.1⟩]
  rename_i noFirst
  split at response
  next second =>
    cases response
    refine ⟨c.resp1.dest, ?_, second.2.1, rfl, same_refl c⟩
    rw [second.2.2, if_neg (by simp), if_neg, if_pos ⟨second.1, second.2.1⟩]
    exact fun first => noFirst ⟨first.1, first.2, second.2.2⟩
  · cases response

include balanced

theorem send_balanced (call : SendCall) (ample : c.state.live = true → responseElsewhere c = some a → a ∉ c.proved →
      used + 3 * heldFrom a c.pending + c.size.datagram ≤ limit) :
    Balanced a (used + sentTo a (connSend call c).2) limit (connSend call c).1 := by
  unfold connSend
  split
  · exact balanced
  rename_i allowed
  split
  · have unsent : Balanced a used limit { c with closeUnsent := false } := balanced_same balanced (same_refl c)
    dsimp only
    split
    · exact unsent
    apply packets_balanced
    exact balanced_same balanced (same_refl c)
  rename_i notClosing
  have live : c.state.live = true := by
    cases state : c.state with
    | handshake | opened => rfl
    | closing => exact absurd state notClosing
    | draining => exact absurd (.inr (.inl state)) allowed
    | closed => exact absurd (.inr (.inr state)) allowed
  cases response : sendResponse c with
  | some result =>
    obtain ⟨after, sent⟩ := result
    obtain ⟨dest, elsewhere, other, same, place⟩ := response_sent response
    subst same
    have kept := balanced_same balanced place
    dsimp only [sentTo]
    split
    next here =>
      subst here
      refine balanced_same ⟨balanced.server, balanced.here, balanced.old, fun unknown => ?_,
        fun _ there => absurd there.symm other⟩ place
      have fits := ample live elsewhere unknown
      omega
    · exact kept
  | none =>
    have probe := probe_balanced balanced call
    dsimp only
    cases sent : sendProbe c call with
    | mk after datagram =>
      rw [sent] at probe
      cases datagram with
      | some _ => exact probe
      | none => exact packets_balanced probe 64 call

theorem timeout_balanced
    (now : Nat) (idle : Bool) (due : LossTimeout) : Balanced a used limit (connTimeout now idle due c) := by
  unfold connTimeout
  split
  · exact balanced
  split
  · split
    · exact balanced_same balanced (same_refl c)
    · exact balanced
  split
  · exact balanced_same balanced (same_refl c)
  have expired : Balanced a used limit (challengeExpired now c) := expired_balanced balanced
  have lost : ∀ after : PathConn Addr, Balanced a used limit after →
      Balanced a used limit (onLossTimeout now due after) := by
    intro after here
    cases due with
    | notDue => exact here
    | lost | probe => exact balanced_same here (same_refl after)
  apply lost
  split
  · exact balanced_same expired (same_refl _)
  · exact expired

omit balanced

structure PathAccount (Addr : Type) where
  conn : PathConn Addr
  received : Nat
  sent : Nat

/-- Bytes a step receives from `a`: every datagram counts, whatever becomes of it. -/
def receivedFrom (a : Addr) : PathStep Addr → Nat
  | .receive _ source n _ _ => if source = a then n else 0
  | _ => 0

def accountNext (a : Addr) (account : PathAccount Addr) (step : PathStep Addr) : PathAccount Addr :=
  { conn := (pathStep account.conn step).1
    received := account.received + receivedFrom a step
    sent := account.sent + sentTo a (pathStep account.conn step).2 }

def accountRun (a : Addr) (c : PathConn Addr) (steps : List (PathStep Addr)) : PathAccount Addr :=
  run (accountNext a) ⟨c, 0, 0⟩ steps

/-- A PATH_RESPONSE on another path finds its bytes left there, and no part of a datagram that was
counted opens when it is read again. -/
def CountedStep (a : Addr) (account : PathAccount Addr) : PathStep Addr → Prop
  | .send _ =>
    account.conn.state.live = true → responseElsewhere account.conn = some a → a ∉ account.conn.proved →
      account.sent + 3 * heldFrom a account.conn.pending + account.conn.size.datagram ≤ 3 * account.received
  | .replay _ index packets =>
    ∀ part, account.conn.pending[index]? = some part → part.counted = true → part.source = a →
      a ∉ account.conn.proved → NoneOpens packets
  | _ => True

def InBalance (a : Addr) (account : PathAccount Addr) : Prop :=
  Balanced a account.sent (3 * account.received) account.conn

theorem erased_balanced {index : Nat} (balanced : Balanced a used limit c)
    {part : HeldPart Addr} (place : c.pending[index]? = some part) :
    Balanced a (used + 3 * heldFrom a [part]) limit { c with pending := c.pending.eraseIdx index } := by
  have parts := held_erase a place
  refine ⟨balanced.server, balanced.here, balanced.old, fun unknown => ?_, fun unknown there => ?_⟩
  · have inside := balanced.within unknown
    dsimp only
    omega
  have inside := balanced.peer unknown there
  dsimp only
  omega

theorem replay_balanced {at_ : Moment} {index : Nat} {account : PathAccount Addr}
    (balanced : InBalance a account) (counted : CountedStep a account (.replay at_ index packets)) :
    Balanced a account.sent (3 * account.received) (replayHeld at_ index packets account.conn) := by
  unfold replayHeld
  cases place : account.conn.pending[index]? with
  | none => exact balanced
  | some part =>
    have rest := erased_balanced balanced place
    dsimp only
    split
    · exact balanced_mono rest (by omega)
    by_cases known : a ∈ account.conn.proved
    · apply datagram_balanced (balanced_known rest known (account.sent + 3 * part.len) _)
      exact fun _ _ => le_rfl
    apply datagram_balanced rest
    intro same either
    rw [held_cons, held_nil]
    cases before : part.counted with
    | false => rw [if_pos ⟨same, rfl⟩, add_zero]
    | true =>
      rcases either with wrong | opens
      · rw [before] at wrong
        cases wrong
      · exact absurd (counted part place before same known) opens

theorem receive_balanced {at_ : Moment} {n : Nat} {reset : Bool}
    {received : Nat} (balanced : Balanced a used (3 * received) c) :
    Balanced a used (3 * (received + if source = a then n else 0)) (connReceive at_ source n packets reset c) := by
  have whole : source = a → n = if source = a then n else 0 := fun same => (if_pos same).symm
  generalize (if source = a then n else 0) = fresh at whole ⊢
  have spared : Balanced a (used + 3 * fresh) (3 * (received + fresh)) c := balanced_mono balanced (by omega)
  have idle : Balanced a used (3 * (received + fresh)) c := balanced_mono spared (by omega)
  unfold connReceive
  split
  · exact idle
  split
  · exact idle
  apply datagram_balanced spared
  intro same _
  rw [← whole same]

theorem step_balanced (a : Addr) (account : PathAccount Addr) (step : PathStep Addr) (balanced : InBalance a account)
    (counted : CountedStep a account step) : InBalance a (accountNext a account step) := by
  cases step with
  | receive at_ source n packets reset => exact receive_balanced balanced
  | replay at_ index packets => exact replay_balanced balanced counted
  | send call => exact send_balanced balanced call counted
  | challengeSent | responsesSent | appKeysCome => exact balanced_same balanced (same_refl _)
  | challengeLost =>
    unfold InBalance accountNext pathStep
    dsimp only
    split
    · exact balanced_same balanced (same_refl _)
    · exact balanced
  | pendingDropped index =>
    cases place : account.conn.pending[index]? with
    | none =>
      rw [List.getElem?_eq_none_iff] at place
      have same : account.conn.pending.eraseIdx index = account.conn.pending := eraseIdx_of_length_le place
      refine balanced_same balanced ⟨rfl, rfl, rfl, rfl, rfl, rfl, rfl, rfl, same⟩
    | some part =>
      have rest := erased_balanced balanced place
      exact balanced_mono rest (Nat.add_le_add_right (Nat.le_add_right _ _) _)
  | timeout now idle due => exact timeout_balanced balanced now idle due
  | close =>
    unfold InBalance accountNext pathStep
    dsimp only
    split
    · exact balanced_same (balanced_same balanced (fail_same _)) (same_refl _)
    · exact balanced

theorem new_balanced (a peer : Addr) (known : Bool) (datagram raise : Nat) :
    InBalance a ⟨connNew true peer known datagram raise, 0, 0⟩ := by
  refine ⟨rfl, fun validated => ?_, nofun, fun _ => le_rfl, fun _ _ => ⟨le_rfl, le_rfl⟩⟩
  cases known
  · cases validated
  · exact mem_singleton.mpr rfl

/-- In every run of a server in which a PATH_RESPONSE on another path finds its bytes left there
and no counted bytes are counted again, an address that was never validated is sent at most three
times what was received from it. -/
theorem amplification_limited (peer : Addr) (known : Bool) (datagram raise : Nat) (a : Addr)
    (steps : List (PathStep Addr))
    (counted : Along (accountNext a) (CountedStep a) ⟨connNew true peer known datagram raise, 0, 0⟩ steps)
    (unknown : a ∉ (accountRun a (connNew true peer known datagram raise) steps).conn.proved) :
    (accountRun a (connNew true peer known datagram raise) steps).sent ≤
      3 * (accountRun a (connNew true peer known datagram raise) steps).received := by
  have balanced := run_keeps (step_balanced a) (new_balanced a peer known datagram raise) counted
  exact Nat.le_of_add_right_le (balanced.within unknown)

def firstFlight : List (PathStep Nat) :=
  .receive ⟨0, [], 0⟩ 1 1200 [⟨1200, .opened .initial false [.other]⟩] false ::
    List.replicate 4 (.send ⟨1, 1452, [1200], true, true, 0⟩)

theorem amplification_limited_first : (accountRun 1 (connNew true 1 false 1200 600000000) firstFlight).sent ≤
      3 * (accountRun 1 (connNew true 1 false 1200 600000000) firstFlight).received := by
  refine amplification_limited 1 false 1200 600000000 1 firstFlight ⟨True.intro, ?_, ?_, ?_, ?_, True.intro⟩ (by decide)
  all_goals exact fun _ elsewhere => absurd elsewhere (by decide)

def challengedElsewhere : List (PathStep Nat) :=
  [.receive ⟨0, [], 0⟩ 1 1200 [⟨1200, .opened .handshake false [.params 1500, .confirm]⟩] false,
    .receive ⟨5, [], 0⟩ 2 50 [⟨50, .opened .oneRtt true [.pathChallenge [1, 2, 3, 4, 5, 6, 7, 8]]⟩] false,
    .send ⟨6, 1452, [], false, false, 0⟩]

/-- Its answer is a whole datagram, whatever came from there. -/
theorem response_amplifies : ¬ ∀ (peer : Nat) (known : Bool) (datagram raise a : Nat) (steps : List (PathStep Nat)),
      a ∉ (accountRun a (connNew true peer known datagram raise) steps).conn.proved →
        (accountRun a (connNew true peer known datagram raise) steps).sent ≤
          3 * (accountRun a (connNew true peer known datagram raise) steps).received := by
  intro every
  have limited := every 1 true 1200 600000000 2 challengedElsewhere (by decide)
  exact absurd limited (by decide)

/-- A 0-RTT packet in a datagram whose Initial opened is counted with it and again when its keys
come: seven datagrams go out for two. -/
example :
    let steps : List (PathStep Nat) :=
      [.receive ⟨0, [], 0⟩ 1 1200 [⟨100, .opened .initial false [.other]⟩, ⟨1100, .held true true⟩] false,
        .receive ⟨1, [], 0⟩ 1 1200 [⟨1200, .opened .initial false [.other]⟩] false,
        .replay ⟨1, [], 0⟩ 0 [⟨1100, .opened .zeroRtt false [.other]⟩]] ++
        List.replicate 7 (.send ⟨2, 1452, [1200], true, true, 0⟩)
    let account := accountRun 1 (connNew true 1 false 1200 600000000) steps
    account.conn.proved = [] ∧ account.received = 2400 ∧ account.sent = 8400 := by decide

end ProvenC.Quic.Amplification
