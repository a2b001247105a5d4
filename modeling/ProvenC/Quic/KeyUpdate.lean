import ProvenC.Lib.Runs

/-!
# Key updates between two endpoints

Each endpoint writes and reads under keys of a generation, and its packets say the generation's phase.
-/

namespace ProvenC.Quic.KeyUpdate

open List Function Lib.Runs

structure ShortPacket where
  phase : Bool
  key : Nat
  pn : Nat
  ack : Option Nat
  deriving DecidableEq, Repr

/-- What key updates use of `proven_quic_conn_t` and its application space. -/
structure KeyEnd where
  confirmed : Bool
  failed : Bool
  /-- `cfg.key_update_packets`. -/
  keyUpdatePackets : Nat
  rx : Nat
  rxNext : Nat
  rxPrev : Nat
  rxPrevOk : Bool
  rxPrevUntil : Nat
  tx : Nat
  keyPhase : Bool
  nextPn : Nat
  phaseSent : Nat
  phaseFirstSent : Nat
  phaseAcked : Bool
  opened : List Nat
  openedCurrent : Bool

/-- `proven_quic_secret_update_v`: the key after a key. -/
def keyAfter (key : Nat) : Nat := key + 1

def txKeyNext (e : KeyEnd) : KeyEnd :=
  { e with
    tx := keyAfter e.tx
    keyPhase := !e.keyPhase
    phaseSent := 0
    phaseFirstSent := e.nextPn
    phaseAcked := false }

def rxKeyNext (now pto : Nat) (e : KeyEnd) : KeyEnd :=
  { e with
    rxPrev := e.rx
    rxPrevOk := true
    rxPrevUntil := now + 3 * pto
    rx := e.rxNext
    rxNext := keyAfter e.rxNext
    openedCurrent := false }

def keyUpdateStart (now pto : Nat) (e : KeyEnd) : KeyEnd := txKeyNext (rxKeyNext now pto e)

def opensUnder (key : Nat) (packet : ShortPacket) : Bool := packet.key == key

/-- `open_short`: the endpoint after it, and the key that opened the packet. -/
def openShort (now pto : Nat) (packet : ShortPacket) (e : KeyEnd) : KeyEnd × Option Nat :=
  if packet.phase = e.keyPhase then (e, if opensUnder e.rx packet then some e.rx else none)
  else if e.rxPrevOk && now < e.rxPrevUntil && opensUnder e.rxPrev packet then (e, some e.rxPrev)
  else if !opensUnder e.rxNext packet then (e, none)
  else if !e.confirmed then ({ e with failed := true }, none)
  else (keyUpdateStart now pto e, some e.rxNext)

/-- The part of `on_ack`. -/
def onAck (ack : Option Nat) (e : KeyEnd) : KeyEnd :=
  match ack with
  | none => e
  | some largest =>
    if e.nextPn ≤ largest then { e with failed := true }
    else if e.phaseFirstSent ≤ largest then { e with phaseAcked := true }
    else e

/-- What is noted of a packet that opened under `key`. -/
def noteOpened (key : Nat) (packet : ShortPacket) (e : KeyEnd) : KeyEnd :=
  { e with opened := packet.pn :: e.opened, openedCurrent := e.openedCurrent || key == e.rx }

/-- `read_packet`, of a 1-RTT packet; `fresh` where its number was not seen before. -/
def readShort (now pto : Nat) (fresh : Bool) (packet : ShortPacket) (e : KeyEnd) : KeyEnd × Option Nat :=
  match openShort now pto packet e with
  | (e, none) => (e, none)
  | (e, some key) =>
    let e := noteOpened key packet e
    (if fresh then onAck packet.ack e else e, some key)

/-- An update started here, in `proven_quic_conn_send`. -/
def maybeUpdate (now pto : Nat) (e : KeyEnd) : KeyEnd :=
  if e.confirmed && e.keyUpdatePackets ≤ e.phaseSent && e.phaseAcked then keyUpdateStart now pto e else e

def ackOf (ack : Option Nat) (e : KeyEnd) : Option Nat :=
  match ack with
  | none => none
  | some largest => if largest ∈ e.opened then some largest else none

def sealShort (ack : Option Nat) (e : KeyEnd) : KeyEnd × ShortPacket :=
  ({ e with nextPn := e.nextPn + 1, phaseSent := e.phaseSent + 1 }, ⟨e.keyPhase, e.tx, e.nextPn, ackOf ack e⟩)

inductive Side where
  | client
  | server
  deriving DecidableEq, Repr

def Side.other : Side → Side
  | .client => .server
  | .server => .client

structure Opening where
  sealed : Nat
  used : Option Nat
  legal : Bool
  deriving DecidableEq, Repr

structure KeyPair where
  ends : Side → KeyEnd
  sent : Side → List ShortPacket
  log : List Opening

/-- The keys the peer may still be using, seen from here: the current ones, the next ones, and
the ones before until a packet under the current ones was opened. -/
def mayUse (e : KeyEnd) (packet : ShortPacket) : Bool :=
  packet.key == e.rx || packet.key == e.rxNext || (packet.key + 1 == e.rx && !e.openedCurrent)

inductive KeyStep where
  | update (side : Side) (now pto : Nat)
  | send (side : Side) (ack : Option Nat)
  | deliver (side : Side) (now pto index : Nat) (fresh : Bool)
  | confirm (side : Side)
  deriving DecidableEq, Repr

def setEnd (s : KeyPair) (side : Side) (e : KeyEnd) : KeyPair := { s with ends := Function.update s.ends side e }

def deliverShort (s : KeyPair) (side : Side) (now pto : Nat) (fresh : Bool) (packet : ShortPacket) : KeyPair :=
  let e := s.ends side
  let (after, used) := readShort now pto fresh packet e
  { setEnd s side after with log := ⟨packet.key, used, mayUse e packet⟩ :: s.log }

def keyStep (s : KeyPair) : KeyStep → KeyPair
  | .update side now pto =>
    if (s.ends side).failed then s else setEnd s side (maybeUpdate now pto (s.ends side))
  | .send side ack =>
    if (s.ends side).failed then s
    else
      let (e, packet) := sealShort ack (s.ends side)
      { setEnd s side e with sent := Function.update s.sent side (s.sent side ++ [packet]) }
  | .deliver side now pto index fresh =>
    match (s.sent side.other)[index]? with
    | none => s
    | some packet => if (s.ends side).failed then s else deliverShort s side now pto fresh packet
  | .confirm side => setEnd s side { s.ends side with confirmed := true }

def keyRun (s : KeyPair) (steps : List KeyStep) : KeyPair := run keyStep s steps

def endNew (keyUpdatePackets : Nat) : KeyEnd :=
  { confirmed := false, failed := false, keyUpdatePackets := keyUpdatePackets, rx := 0, rxNext := 1, rxPrev := 0
    rxPrevOk := false, rxPrevUntil := 0, tx := 0, keyPhase := false, nextPn := 0, phaseSent := 0, phaseFirstSent := 0
    phaseAcked := false, opened := [], openedCurrent := false }

def pairNew (limits : Side → Nat) : KeyPair :=
  { ends := fun side => endNew (limits side), sent := fun _ => [], log := [] }

def odd (n : Nat) : Bool := n % 2 == 1

structure Aligned (e : KeyEnd) : Prop where
  write : e.tx = e.rx
  next : e.rxNext = e.rx + 1
  phase : e.keyPhase = odd e.rx
  kept : 0 < e.rx → e.rxPrevOk = true
  previous : e.rxPrevOk = true → e.rxPrev + 1 = e.rx

theorem odd_succ (n : Nat) : odd (n + 1) = !odd n := by
  unfold odd
  rcases Nat.mod_two_eq_zero_or_one n with even | odd_
  · rw [even]
    have next : (n + 1) % 2 = 1 := by omega
    rw [next]
    rfl
  rw [odd_]
  have next : (n + 1) % 2 = 0 := by omega
  rw [next]
  rfl

theorem start_rx {now pto : Nat} {e : KeyEnd} (aligned : Aligned e) : (keyUpdateStart now pto e).rx = e.rx + 1 :=
  aligned.next

variable {now pto : Nat} {e : KeyEnd}

theorem start_aligned (aligned : Aligned e) : Aligned (keyUpdateStart now pto e) where
  write := by
    show e.tx + 1 = e.rxNext
    rw [aligned.write, aligned.next]
  next := rfl
  phase := by
    show (!e.keyPhase) = odd e.rxNext
    rw [aligned.phase, aligned.next, odd_succ]
  kept := fun _ => rfl
  previous := fun _ => aligned.next.symm

/-- One endpoint seen with its peer: what it sent, what of it the peer opened, and what the peer's
ACKs may say. -/
structure Seen (e peer : KeyEnd) (sent back : List ShortPacket) : Prop where
  aligned : Aligned e
  keys : ∀ q ∈ sent, q.key ≤ e.rx ∧ q.phase = odd q.key ∧ q.pn < e.nextPn ∧ (e.phaseFirstSent ≤ q.pn → q.key = e.rx)
  known : ∀ n ∈ peer.opened, n < e.nextPn ∧ (e.phaseFirstSent ≤ n → e.rx ≤ peer.rx)
  acks : ∀ q ∈ back, ∀ n, q.ack = some n → n ∈ peer.opened
  acked : e.phaseAcked = true → e.rx ≤ peer.rx
  near : e.rx ≤ peer.rx + 1

structure SameKeys (e after : KeyEnd) : Prop where
  tx : after.tx = e.tx
  rx : after.rx = e.rx
  rxNext : after.rxNext = e.rxNext
  rxPrev : after.rxPrev = e.rxPrev
  rxPrevOk : after.rxPrevOk = e.rxPrevOk
  keyPhase : after.keyPhase = e.keyPhase
  nextPn : after.nextPn = e.nextPn
  phaseFirstSent : after.phaseFirstSent = e.phaseFirstSent

theorem aligned_same {after : KeyEnd} (aligned : Aligned e) (same : SameKeys e after) : Aligned after := by
  obtain ⟨tx, rx, rxNext, rxPrev, rxPrevOk, keyPhase, _, _⟩ := same
  constructor
  · rw [tx, rx]
    exact aligned.write
  · rw [rxNext, rx]
    exact aligned.next
  · rw [keyPhase, rx]
    exact aligned.phase
  · rw [rx, rxPrevOk]
    exact aligned.kept
  rw [rxPrevOk, rxPrev, rx]
  exact aligned.previous

variable {peer : KeyEnd} {sent back : List ShortPacket}

theorem seen_same {after : KeyEnd} (seen : Seen e peer sent back)
    (same : SameKeys e after) (acked : after.phaseAcked = true → e.rx ≤ peer.rx) : Seen after peer sent back := by
  have aligned := aligned_same seen.aligned same
  obtain ⟨_, rx, _, _, _, _, nextPn, phaseFirstSent⟩ := same
  refine ⟨aligned, ?_, ?_, seen.acks, ?_, ?_⟩
  · rw [rx, nextPn, phaseFirstSent]
    exact seen.keys
  · rw [rx, nextPn, phaseFirstSent]
    exact seen.known
  · rw [rx]
    exact acked
  rw [rx]
  exact seen.near

theorem seen_peer {after : KeyEnd} (seen : Seen e peer sent back)
    (opened : after.opened = peer.opened) (further : peer.rx ≤ after.rx) : Seen e after sent back where
  aligned := seen.aligned
  keys := seen.keys
  known := fun n inside => by
    rw [opened] at inside
    have known := seen.known n inside
    exact ⟨known.1, fun first => (known.2 first).trans further⟩
  acks := fun q inside n said => by
    rw [opened]
    exact seen.acks q inside n said
  acked := fun acked => (seen.acked acked).trans further
  near := seen.near.trans (by omega)

theorem seen_start (seen : Seen e peer sent back)
    (there : e.rx ≤ peer.rx) : Seen (keyUpdateStart now pto e) peer sent back where
  aligned := start_aligned seen.aligned
  keys := fun q inside => by
    obtain ⟨key, phase, pn, _⟩ := seen.keys q inside
    rw [start_rx seen.aligned]
    refine ⟨by omega, phase, pn, fun first => ?_⟩
    have after : e.nextPn ≤ q.pn := first
    omega
  known := fun n inside => by
    have known := seen.known n inside
    refine ⟨known.1, fun first => ?_⟩
    have after : e.nextPn ≤ n := first
    omega
  acks := seen.acks
  acked := nofun
  near := by
    rw [start_rx seen.aligned]
    omega

variable {packet : ShortPacket}

theorem open_cases {after : KeyEnd} {used : Option Nat} (aligned : Aligned e)
    (opened : openShort now pto packet e = (after, used)) :
    (after = e ∧ ∀ key, used = some key → key = packet.key ∧ packet.key ≤ e.rx) ∨
      (after = keyUpdateStart now pto e ∧ packet.key = e.rx + 1 ∧ used = some packet.key) ∨
      (after = { e with failed := true } ∧ used = none) := by
  have same : ∀ key, opensUnder key packet = true → packet.key = key := fun key opens => beq_iff_eq.mp opens
  unfold openShort at opened
  split at opened
  · cases opened
    refine .inl ⟨rfl, fun key given => ?_⟩
    split at given
    next opens =>
      cases given
      exact ⟨(same _ opens).symm, (same _ opens).le⟩
    · cases given
  split at opened
  next late =>
    cases opened
    rw [Bool.and_eq_true, Bool.and_eq_true] at late
    have key := same _ late.2
    have before := aligned.previous late.1.1
    refine .inl ⟨rfl, fun k given => ?_⟩
    cases given
    exact ⟨key.symm, by omega⟩
  split at opened
  · cases opened
    exact .inl ⟨rfl, nofun⟩
  rename_i opens
  rw [Bool.not_eq_true, Bool.not_eq_false'] at opens
  have key := same _ opens
  split at opened
  · cases opened
    exact .inr (.inr ⟨rfl, rfl⟩)
  · cases opened
    exact .inr (.inl ⟨rfl, key.trans aligned.next, by rw [key]⟩)

theorem read_used (now pto : Nat) (fresh : Bool) (packet : ShortPacket) (e : KeyEnd) :
    (readShort now pto fresh packet e).2 = (openShort now pto packet e).2 := by
  unfold readShort
  cases openShort now pto packet e with
  | mk after used => cases used <;> rfl

theorem used_sealed {key : Nat} {fresh : Bool} (aligned : Aligned e)
    (given : (readShort now pto fresh packet e).2 = some key) : key = packet.key := by
  rw [read_used] at given
  cases opened : openShort now pto packet e with
  | mk after used =>
    rw [opened] at given
    dsimp only at given
    rcases open_cases aligned opened with ⟨_, under⟩ | ⟨_, _, same⟩ | ⟨_, none_⟩
    · exact (under key given).1
    · rw [same] at given
      exact (Option.some.inj given).symm
    rw [none_] at given
    cases given

def InTime (now : Nat) (packet : ShortPacket) (e : KeyEnd) : Prop :=
  (packet.key + 1 = e.rx → e.openedCurrent = false → now < e.rxPrevUntil) ∧ (packet.key = e.rxNext → e.confirmed = true)

theorem may_use_opens {now pto : Nat} {packet : ShortPacket} {e : KeyEnd} (aligned : Aligned e)
    (phase : packet.phase = odd packet.key) (inTime : InTime now packet e) (legal : mayUse e packet = true) :
    (openShort now pto packet e).2.isSome = true := by
  have under : opensUnder packet.key packet = true := beq_self_eq_true _
  simp only [mayUse, Bool.or_eq_true, Bool.and_eq_true, beq_iff_eq, Bool.not_eq_true'] at legal
  unfold openShort
  rcases legal with (current | next) | ⟨before, none_⟩
  · rw [if_pos (by rw [phase, aligned.phase, current]), ← current, under]
    rfl
  · have key : packet.key = e.rx + 1 := next.trans aligned.next
    have differs : packet.phase ≠ e.keyPhase := by
      rw [phase, aligned.phase, key, odd_succ]
      exact Bool.not_ne_self _
    rw [if_neg differs]
    split
    · rfl
    rw [← next, under, inTime.2 next]
    rfl
  have differs : packet.phase ≠ e.keyPhase := by
    rw [phase, aligned.phase, ← before, odd_succ]
    exact (Bool.not_ne_self _).symm
  have kept := aligned.kept (by omega)
  have previous : e.rxPrev = packet.key := by
    have order := aligned.previous kept
    omega
  rw [if_neg differs, kept, previous, under]
  rw [if_pos (by simpa using inTime.1 before none_)]
  rfl

theorem seen_note (seen : Seen e peer sent back) (key : Nat)
    (packet : ShortPacket) (fresh : Bool) (inside : packet ∈ back) :
    Seen (if fresh then onAck packet.ack (noteOpened key packet e) else noteOpened key packet e) peer sent back := by
  have noted : Seen (noteOpened key packet e) peer sent back :=
    seen_same seen ⟨rfl, rfl, rfl, rfl, rfl, rfl, rfl, rfl⟩ seen.acked
  split
  · unfold onAck
    split
    · exact noted
    split
    · exact seen_same noted ⟨rfl, rfl, rfl, rfl, rfl, rfl, rfl, rfl⟩ noted.acked
    split
    next largest said _ first =>
      have known := seen.known largest (seen.acks packet inside largest said)
      exact seen_same noted ⟨rfl, rfl, rfl, rfl, rfl, rfl, rfl, rfl⟩ fun _ => known.2 first
    · exact noted
  · exact noted

theorem ack_frame (ack : Option Nat) (e : KeyEnd) : (onAck ack e).opened = e.opened ∧ (onAck ack e).rx = e.rx := by
  unfold onAck
  split
  · exact ⟨rfl, rfl⟩
  split
  · exact ⟨rfl, rfl⟩
  split
  all_goals exact ⟨rfl, rfl⟩

theorem seen_opened {after : KeyEnd}
    (seen : Seen e peer sent back) (inside : packet ∈ sent) (opened : after.opened = packet.pn :: peer.opened)
    (further : peer.rx ≤ after.rx) (under : packet.key ≤ after.rx) : Seen e after sent back where
  aligned := seen.aligned
  keys := seen.keys
  known := fun n member => by
    rw [opened] at member
    rcases mem_cons.mp member with here | before
    · obtain ⟨_, _, pn, first⟩ := seen.keys packet inside
      rw [here]
      exact ⟨pn, fun later => (first later).symm.trans_le under⟩
    have known := seen.known n before
    exact ⟨known.1, fun first => (known.2 first).trans further⟩
  acks := fun q member n said => by
    rw [opened]
    exact mem_cons_of_mem _ (seen.acks q member n said)
  acked := fun acked => (seen.acked acked).trans further
  near := seen.near.trans (by omega)

theorem seen_read {now pto : Nat} {fresh : Bool} {packet : ShortPacket} {e peer : KeyEnd}
    {sent back : List ShortPacket} (here : Seen e peer sent back) (there : Seen peer e back sent)
    (inside : packet ∈ back) :
    Seen (readShort now pto fresh packet e).1 peer sent back ∧ Seen peer (readShort now pto fresh packet e).1 back sent := by
  unfold readShort
  cases opened : openShort now pto packet e with
  | mk after used =>
    have cases_ := open_cases here.aligned opened
    cases used with
    | none =>
      rcases cases_ with ⟨same, _⟩ | ⟨_, _, wrong⟩ | ⟨closed, _⟩
      · rw [same]
        exact ⟨here, there⟩
      · cases wrong
      rw [closed]
      exact ⟨seen_same here ⟨rfl, rfl, rfl, rfl, rfl, rfl, rfl, rfl⟩ here.acked, seen_peer there rfl le_rfl⟩
    | some key =>
      have moved : Seen after peer sent back ∧ e.rx ≤ after.rx ∧ packet.key ≤ after.rx ∧ after.opened = e.opened := by
        rcases cases_ with ⟨same, under⟩ | ⟨next, ahead, _⟩ | ⟨_, wrong⟩
        · rw [same]
          exact ⟨here, le_rfl, (under key rfl).2, rfl⟩
        · have sealed := (there.keys packet inside).1
          have rx := @start_rx now pto e here.aligned
          rw [next]
          exact ⟨seen_start here (by omega), by omega, by omega, rfl⟩
        · cases wrong
      obtain ⟨own, further, under, history⟩ := moved
      refine ⟨seen_note own key packet fresh inside, ?_⟩
      have read : ∀ final : KeyEnd, final.opened = packet.pn :: e.opened → final.rx = after.rx →
          Seen peer final back sent := fun final opened rx =>
        seen_opened there inside opened (by rw [rx]; exact further) (by rw [rx]; exact under)
      have first : (noteOpened key packet after).opened = packet.pn :: e.opened := by
        rw [← history]
        rfl
      dsimp only
      split
      · obtain ⟨opened, rx⟩ := ack_frame packet.ack (noteOpened key packet after)
        exact read _ (opened.trans first) rx
      · exact read _ first rfl

theorem seen_update {now pto : Nat} {e peer : KeyEnd} {sent back : List ShortPacket} (here : Seen e peer sent back)
    (there : Seen peer e back sent) :
    Seen (maybeUpdate now pto e) peer sent back ∧ Seen peer (maybeUpdate now pto e) back sent := by
  unfold maybeUpdate
  split
  next due =>
    rw [Bool.and_eq_true, Bool.and_eq_true] at due
    have further := @start_rx now pto e here.aligned
    exact ⟨seen_start here (here.acked due.2), seen_peer there rfl (by omega)⟩
  · exact ⟨here, there⟩

theorem ack_of_opened {ack : Option Nat} {largest : Nat} (said : ackOf ack e = some largest) : largest ∈ e.opened := by
  unfold ackOf at said
  split at said
  · cases said
  split at said
  next inside =>
    cases said
    exact inside
  · cases said

theorem seen_send {ack : Option Nat} {e peer : KeyEnd} {sent back : List ShortPacket} (here : Seen e peer sent back)
    (there : Seen peer e back sent) : Seen (sealShort ack e).1 peer (sent ++ [(sealShort ack e).2]) back ∧
      Seen peer (sealShort ack e).1 back (sent ++ [(sealShort ack e).2]) := by
  constructor
  · have aligned : Aligned (sealShort ack e).1 :=
      ⟨here.aligned.write, here.aligned.next, here.aligned.phase, here.aligned.kept, here.aligned.previous⟩
    refine ⟨aligned, fun q inside => ?_, fun n inside => ?_, here.acks, here.acked, here.near⟩
    · rcases mem_append.mp inside with before | new
      · obtain ⟨key, phase, pn, first⟩ := here.keys q before
        exact ⟨key, phase, Nat.lt_succ_of_lt pn, first⟩
      rw [mem_singleton.mp new]
      refine ⟨here.aligned.write.le, ?_, Nat.lt_succ_self _, fun _ => here.aligned.write⟩
      show e.keyPhase = odd e.tx
      rw [here.aligned.write]
      exact here.aligned.phase
    have known := here.known n inside
    exact ⟨Nat.lt_succ_of_lt known.1, known.2⟩
  refine ⟨there.aligned, there.keys, there.known, fun q inside n said => ?_, there.acked, there.near⟩
  rcases mem_append.mp inside with before | new
  · exact there.acks q before n said
  rw [mem_singleton.mp new] at said
  exact ack_of_opened said

/-- Both endpoints, and what was delivered so far: what the peer may still be using opened, and
under the keys it was sealed under. -/
structure KeysKept (s : KeyPair) : Prop where
  seen : ∀ side, Seen (s.ends side) (s.ends side.other) (s.sent side) (s.sent side.other)
  opened : ∀ o ∈ s.log, o.legal = true → o.used.isSome = true
  right : ∀ o ∈ s.log, ∀ key, o.used = some key → key = o.sealed

def InTimeStep (s : KeyPair) : KeyStep → Prop
  | .deliver side now _ index _ =>
    ∀ packet, (s.sent side.other)[index]? = some packet → InTime now packet (s.ends side)
  | _ => True

theorem other_other (side : Side) : side.other.other = side := by cases side <;> rfl

theorem other_ne (side : Side) : side.other ≠ side := by cases side <;> nofun

theorem seen_both {ends : Side → KeyEnd} {sent : Side → List ShortPacket} (side : Side)
    (here : Seen (ends side) (ends side.other) (sent side) (sent side.other))
    (there : Seen (ends side.other) (ends side) (sent side.other) (sent side)) :
    ∀ other : Side, Seen (ends other) (ends other.other) (sent other) (sent other.other) := by
  intro other
  by_cases same : other = side
  · rw [same]
    exact here
  have opposite : other = side.other := by
    cases other <;> cases side <;> first | rfl | exact absurd rfl same
  rw [opposite, other_other]
  exact there

theorem step_kept (s : KeyPair) (step : KeyStep) (kept : KeysKept s) (inTime : InTimeStep s step) :
    KeysKept (keyStep s step) := by
  have peerSeen : ∀ side, Seen (s.ends side.other) (s.ends side) (s.sent side.other) (s.sent side) := by
    intro side
    have there := kept.seen side.other
    rw [other_other] at there
    exact there
  -- One side's keys change; the network does not.
  have changed : ∀ (side : Side) (e : KeyEnd), Seen e (s.ends side.other) (s.sent side) (s.sent side.other) →
      Seen (s.ends side.other) e (s.sent side.other) (s.sent side) →
      ∀ other : Side, Seen (Function.update s.ends side e other) (Function.update s.ends side e other.other)
        (s.sent other) (s.sent other.other) := by
    intro side e here there
    apply seen_both side
    · rw [update_self, update_of_ne (other_ne side)]
      exact here
    rw [update_self, update_of_ne (other_ne side)]
    exact there
  cases step with
  | update side now pto =>
    dsimp only [keyStep]
    split
    · exact kept
    obtain ⟨here, there⟩ := @seen_update now pto _ _ _ _ (kept.seen side) (peerSeen side)
    exact ⟨changed side _ here there, kept.opened, kept.right⟩
  | confirm side =>
    have here : Seen { s.ends side with confirmed := true } (s.ends side.other) (s.sent side) (s.sent side.other) :=
      seen_same (kept.seen side) ⟨rfl, rfl, rfl, rfl, rfl, rfl, rfl, rfl⟩ (kept.seen side).acked
    exact ⟨changed side _ here (seen_peer (peerSeen side) rfl le_rfl), kept.opened, kept.right⟩
  | send side ack =>
    dsimp only [keyStep]
    split
    · exact kept
    obtain ⟨here, there⟩ := @seen_send ack _ _ _ _ (kept.seen side) (peerSeen side)
    refine ⟨?_, kept.opened, kept.right⟩
    apply seen_both side
    · dsimp only [setEnd]
      rw [update_self, update_of_ne (other_ne side), update_self, update_of_ne (other_ne side)]
      exact here
    dsimp only [setEnd]
    rw [update_self, update_of_ne (other_ne side), update_self, update_of_ne (other_ne side)]
    exact there
  | deliver side now pto index fresh =>
    dsimp only [keyStep]
    cases place : (s.sent side.other)[index]? with
    | none => exact kept
    | some packet =>
      dsimp only
      split
      · exact kept
      have inside : packet ∈ s.sent side.other := mem_of_getElem? place
      obtain ⟨here, there⟩ := @seen_read now pto fresh packet _ _ _ _ (kept.seen side) (peerSeen side) inside
      have phase := ((peerSeen side).keys packet inside).2.1
      have aligned := (kept.seen side).aligned
      refine ⟨changed side _ here there, fun o member legal => ?_, fun o member key given => ?_⟩
      · rcases mem_cons.mp member with new | before
        · rw [new] at legal ⊢
          have used := @may_use_opens now pto _ _ aligned phase (inTime packet place) legal
          rw [← read_used now pto fresh] at used
          exact used
        · exact kept.opened o before legal
      rcases mem_cons.mp member with new | before
      · rw [new] at given ⊢
        exact used_sealed aligned given
      · exact kept.right o before key given

theorem new_kept (limits : Side → Nat) : KeysKept (pairNew limits) := by
  refine ⟨fun side => ?_, nofun, nofun⟩
  have aligned : Aligned (endNew (limits side)) := ⟨rfl, rfl, rfl, nofun, nofun⟩
  exact ⟨aligned, nofun, nofun, nofun, nofun, Nat.zero_le _⟩

/-- What was delivered opened if the peer may have been using its keys, under the keys it was
sealed under; and the generations of the two ends, each the same to read and to write, are at
most one apart. -/
structure Readable (s : KeyPair) : Prop where
  opened : ∀ o ∈ s.log, o.legal = true → o.used.isSome = true
  right : ∀ o ∈ s.log, ∀ key, o.used = some key → key = o.sealed
  same : ∀ side, (s.ends side).tx = (s.ends side).rx
  near : ∀ side, (s.ends side).rx ≤ (s.ends side.other).rx + 1

/-- The server updates its keys once the client has acknowledged a packet under them; the client
has not seen it and goes on, until `late`. -/
def updatedOnce (late : Nat) : List KeyStep :=
  [.confirm .client, .confirm .server, .send .server none, .deliver .client 0 10 0 true, .send .client (some 0),
    .deliver .server 0 10 0 true, .update .server 0 10, .send .client none, .deliver .server late 10 1 true]

end ProvenC.Quic.KeyUpdate
