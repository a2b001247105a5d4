import ProvenC.Bytes
import ProvenC.Lib.Runs

/-!
# The path of a connection

Where the peer is, whether that is known, how much may be sent there, and how large a datagram may be.
-/

namespace ProvenC.Quic.Path

open Bytes Lib.Runs

/-- `QC_MAX_DGRAM`: the largest datagram of this library. -/
def qcMaxDgram : Nat := 1452

def quicMinInitial : Nat := 1200

inductive PmState where
  | notBegun
  | searching
  | finished
  deriving DecidableEq, Repr

structure PathSize where
  /-- `cfg.datagram_size`. -/
  configured : Nat
  /-- `cfg.pmtu_raise_ms`, in microseconds, its default filled in. -/
  raise : Nat
  datagram : Nat
  peerMaxUdp : Nat
  pmState : PmState
  pmGood : Nat
  pmBad : Nat
  pmSize : Nat
  pmTries : Nat
  pmBigLost : Nat
  pmOut : Bool
  pmDeadline : Nat
  pmRaiseAt : Nat

def qcPmProbes : Nat := 3

def qcPmStep : Nat := 32

def qcPmBlackHole : Nat := 10

def pmTop (p : PathSize) : Nat := min p.peerMaxUdp qcMaxDgram

/-- `want` in `pm_next`: the largest size first, then halfway between what passed and what
failed. -/
def pmWant (p : PathSize) : Nat :=
  min (if p.pmBad = 0 then pmTop p else p.pmGood + (p.pmBad - p.pmGood) / 2) (pmTop p)

/-- `pm_next`: the next size to probe, or the end of the search. -/
def pmNext (now : Nat) (p : PathSize) : PathSize :=
  let p := { p with pmTries := 0, pmOut := false }
  if pmWant p ≤ p.pmGood ∨ (p.pmBad ≠ 0 ∧ p.pmBad - p.pmGood < qcPmStep) then
    { p with pmSize := 0, pmState := .finished, pmRaiseAt := if p.pmBad = 0 then 0 else now + p.raise }
  else { p with pmSize := pmWant p, pmState := .searching }

/-- `pm_begin`: a search from the size in use. -/
def pmBegin (now : Nat) (p : PathSize) : PathSize :=
  pmNext now { p with pmGood := p.datagram, pmBad := 0, pmBigLost := 0 }

def pmPassed (now : Nat) (p : PathSize) : PathSize :=
  pmNext now { p with pmGood := p.pmSize, datagram := p.pmSize }

def pmFailed (now : Nat) (p : PathSize) : PathSize := pmNext now { p with pmBad := p.pmSize }

def pmTriesLeft (ptoCount : Nat) (p : PathSize) : Nat :=
  if 2 ≤ ptoCount ∧ 0 < p.pmTries then p.pmTries - 1 else p.pmTries

/-- `pm_lost`: the probe was not acknowledged in time. -/
def pmLost (now ptoCount : Nat) (p : PathSize) : PathSize :=
  let tries := pmTriesLeft ptoCount p
  let p := { p with pmOut := false, pmTries := tries }
  if tries < qcPmProbes then p else pmFailed now p

def pmBlackHole (now : Nat) (p : PathSize) : PathSize :=
  if p.configured < p.datagram then pmBegin now { p with datagram := p.configured } else p

inductive ConnState where
  | handshake
  | opened
  | closing
  | draining
  | closed
  deriving DecidableEq, Repr

/-- `resp[i]`: a PATH_RESPONSE owed. -/
structure PathResp (Addr : Type) where
  data : List Byte
  dest : Addr
  owed : Bool
  deriving DecidableEq, Repr

structure HeldPart (Addr : Type) where
  len : Nat
  source : Addr
  counted : Bool
  deriving DecidableEq, Repr

/-- What the path uses of `proven_quic_conn_t`. -/
structure PathConn (Addr : Type) where
  server : Bool
  state : ConnState
  confirmed : Bool
  havePeerTp : Bool
  /-- `sp[2].tx_ok`. -/
  appKeys : Bool
  ptoCount : Nat
  peerAddr : Addr
  oldAddr : Addr
  hasOld : Bool
  validated : Bool
  ampRx : Nat
  ampTx : Nat
  challenge : List Byte
  challengeOwed : Bool
  challengeWait : Bool
  challengeDeadline : Nat
  resp0 : PathResp Addr
  resp1 : PathResp Addr
  closeUnsent : Bool
  closeOwed : Bool
  closeRx : Nat
  pending : List (HeldPart Addr)
  size : PathSize
  proved : List Addr

section Machine

variable {Addr : Type} [DecidableEq Addr]

def ConnState.live : ConnState → Bool
  | .handshake => true
  | .opened => true
  | _ => false

/-- `conn_fail`: the close is owed. -/
def connFail (c : PathConn Addr) : PathConn Addr :=
  if c.state.live then { c with state := .closing, closeOwed := true } else c

def connDrain (c : PathConn Addr) : PathConn Addr :=
  match c.state with
  | .draining => c
  | .closed => c
  | _ => { c with state := .draining, closeUnsent := false }

def addrProved (c : PathConn Addr) : PathConn Addr :=
  { c with validated := true, proved := c.peerAddr :: c.proved }

inductive PathFrame where
  | pathChallenge (data : List Byte)
  | pathResponse (data : List Byte)
  | probing
  /-- An ACK: whether it took a packet larger than the configured size, or the probe in flight,
  how many larger packets are lost by it, and whether the probe timeouts start from none. -/
  | ack (bigAcked probeAcked : Bool) (bigLost : Nat) (backToNone : Bool)
  | params (maxUdp : Nat)
  | confirm
  | connectionClose
  | refused
  | failed
  | other
  deriving DecidableEq, Repr

def frameProbing : PathFrame → Bool
  | .pathChallenge _ => true
  | .pathResponse _ => true
  | .probing => true
  | _ => false

def bigAckedSeen (bigAcked : Bool) (p : PathSize) : PathSize :=
  if bigAcked then { p with pmBigLost := 0 } else p

def probeAckedSeen (now : Nat) (probeAcked : Bool) (p : PathSize) : PathSize :=
  if probeAcked && p.pmOut then pmPassed now p else p

/-- The path's part of `detect_lost`: so many packets larger than the configured size are lost. -/
def detectLost (now big : Nat) (p : PathSize) : PathSize :=
  let p := { p with pmBigLost := p.pmBigLost + big }
  if qcPmBlackHole ≤ p.pmBigLost then pmBlackHole now p else p

/-- The path's part of `on_ack`. -/
def onAck (now : Nat) (bigAcked probeAcked : Bool) (bigLost : Nat) (p : PathSize) : PathSize :=
  detectLost now bigLost (probeAckedSeen now probeAcked (bigAckedSeen bigAcked p))

/-- `apply_peer_params`, and the range `proven_quic_tp_decode` lets through. -/
def applyPeerParams (maxUdp : Nat) (c : PathConn Addr) : PathConn Addr :=
  if c.havePeerTp then c
  else if maxUdp < quicMinInitial ∨ 65527 < maxUdp then connFail c
  else
    { c with
      havePeerTp := true
      size := { c.size with peerMaxUdp := maxUdp, datagram := min c.size.datagram maxUdp } }

/-- The path's part of `on_frame`. -/
def onFrame (now : Nat) (source : Addr) (frame : PathFrame) (c : PathConn Addr) : PathConn Addr :=
  match frame with
  | .pathChallenge data =>
    if c.resp0.owed then { c with resp1 := ⟨data, source, true⟩ } else { c with resp0 := ⟨data, source, true⟩ }
  | .pathResponse data =>
    if c.challengeWait ∧ data = c.challenge then
      addrProved { c with challengeWait := false, hasOld := false }
    else c
  | .probing => c
  | .ack bigAcked probeAcked bigLost backToNone =>
    { c with
      size := onAck now bigAcked probeAcked bigLost c.size
      ptoCount := if backToNone then 0 else c.ptoCount }
  | .params maxUdp => applyPeerParams maxUdp c
  | .confirm =>
    -- TLS gives the peer's parameters before it is established.
    if c.havePeerTp then
      { c with state := if c.state = .handshake then .opened else c.state, confirmed := true, appKeys := true }
    else c
  | .connectionClose => connDrain c
  | .refused => connFail c
  | .failed => connFail c
  | .other => c

def framesRead (now : Nat) (source : Addr) : List PathFrame → PathConn Addr → List PathFrame
  | [], _ => []
  | frame :: rest, c =>
    if !c.state.live then []
    else if frame = .refused then [frame]
    else frame :: framesRead now source rest (onFrame now source frame c)

def onFrames (now : Nat) (source : Addr) (frames : List PathFrame) (c : PathConn Addr) : PathConn Addr :=
  frames.foldl (fun c frame => onFrame now source frame c) c

inductive PacketLevel where
  | initial
  | handshake
  | zeroRtt
  | oneRtt
  deriving DecidableEq, Repr

inductive PacketFound where
  | dropped
  | held (stored zeroRtt : Bool)
  /-- It opened; `newest` is `pn + 1 == rx_largest_plus_one` once it is noted. -/
  | opened (level : PacketLevel) (newest : Bool) (frames : List PathFrame)
  deriving DecidableEq, Repr

structure QuicPacket where
  len : Nat
  found : PacketFound
  deriving DecidableEq, Repr

def migrates (c : PathConn Addr) (source : Addr) (level : PacketLevel) (newest : Bool) (frames : List PathFrame) : Bool :=
  c.server && level == .oneRtt && !frames.all frameProbing && newest && source ≠ c.peerAddr && c.confirmed

def migrate (c : PathConn Addr) (source : Addr) (token : List Byte) (deadline : Nat) : PathConn Addr :=
  { c with
    oldAddr := c.peerAddr
    hasOld := c.validated
    peerAddr := source
    validated := false
    ampRx := 0
    ampTx := 0
    challenge := token
    challengeOwed := true
    challengeWait := true
    challengeDeadline := deadline
    size := { c.size with datagram := c.size.configured, pmState := .notBegun, pmOut := false } }

inductive ReadOutcome where
  | opened
  | dropped
  | stop
  deriving DecidableEq, Repr

def handshakeSeen (c : PathConn Addr) (level : PacketLevel) : PathConn Addr :=
  if c.server && level == .handshake then addrProved c else c

structure Moment where
  now : Nat
  token : List Byte
  deadline : Nat
  deriving DecidableEq, Repr

def framesDone (at_ : Moment) (source : Addr) (level : PacketLevel) (frames : List PathFrame)
    (c : PathConn Addr) : List PathFrame × PathConn Addr :=
  let c := handshakeSeen c level
  let frames := framesRead at_.now source frames c
  (frames, onFrames at_.now source frames c)

/-- A packet that opens while the connection is closing: a close from the peer ends it, anything
else is answered at the first, second, fourth, eighth time. -/
def readClosing (frames : List PathFrame) (c : PathConn Addr) : PathConn Addr × ReadOutcome :=
  if .connectionClose ∈ frames then (connDrain { c with closeRx := c.closeRx + 1 }, .stop)
  else
    let closeRx := c.closeRx + 1
    ({ c with closeRx := closeRx, closeOwed := c.closeOwed || closeRx &&& (closeRx - 1) == 0 }, .opened)

/-- What `read_packet` does with a packet that opened. -/
def readOpened (at_ : Moment) (source : Addr) (level : PacketLevel) (newest : Bool)
    (frames : List PathFrame) (c : PathConn Addr) : PathConn Addr × ReadOutcome :=
  -- The Handshake keys go once the handshake is confirmed; the 1-RTT ones come with the parameters.
  if level = .handshake ∧ c.confirmed = true then (c, .dropped)
  else if level = .oneRtt ∧ c.havePeerTp = false then (c, .dropped)
  else if c.state = .closing then readClosing frames c
  else
    let (frames, c) := framesDone at_ source level frames c
    if .refused ∈ frames ∨ c.state = .draining ∨ c.state = .closed then (c, .stop)
    else if migrates c source level newest frames then (migrate c source at_.token at_.deadline, .opened)
    else (c, .opened)

/-- `read_packet`, with what is held of the packet. -/
def readPacket (at_ : Moment) (source : Addr) (packet : QuicPacket) (c : PathConn Addr) :
    PathConn Addr × List (HeldPart Addr) × ReadOutcome :=
  match packet.found with
  | .dropped => (c, [], .dropped)
  | .held stored zeroRtt =>
    (c, if stored then [⟨packet.len, source, false⟩] else [], if zeroRtt then .dropped else .stop)
  | .opened level newest frames =>
    let (c, outcome) := readOpened at_ source level newest frames c
    (c, [], outcome)

/-- The packets of a datagram from byte `pos` on: the connection after them, what was held of
them, and whether any opened. -/
def readPackets (at_ : Moment) (source : Addr) (n : Nat) :
    List QuicPacket → Nat → PathConn Addr → PathConn Addr × List (HeldPart Addr) × Bool
  | [], _, c => (c, [], false)
  | packet :: rest, pos, c =>
    if n < pos + packet.len ∨ c.state = .draining ∨ c.state = .closed then (c, [], false)
    else
      match readPacket at_ source packet c with
      | (c, held, .stop) => (c, held, false)
      | (c, held, outcome) =>
        let (c, later, any) := readPackets at_ source n rest (pos + packet.len) c
        (c, held ++ later, outcome == .opened || any)

/-- What the end of a datagram leaves: the bytes counted for the address they came from, where
something opened. -/
def countDatagram (source : Addr) (n : Nat) (before : Bool) (c : PathConn Addr) (held : List (HeldPart Addr))
    (any : Bool) : PathConn Addr :=
  let counts := any && c.server && source == c.peerAddr
  { c with
    ampRx := if counts then c.ampRx + n else c.ampRx
    pending := c.pending ++ held.map fun part => { part with counted := before || counts } }

/-- `read_datagram`; `reset` where nothing opened and it ends with a token of the peer's, or, for a
client, where it is a Version Negotiation packet that ends the attempt. -/
def readDatagram (at_ : Moment) (source : Addr) (n : Nat) (packets : List QuicPacket) (before reset : Bool)
    (c : PathConn Addr) : PathConn Addr :=
  let (c, held, any) := readPackets at_ source n packets 0 c
  let c := countDatagram source n before c held any
  if reset && !any then (match c.state with | .draining => c | .closed => c | _ => { c with state := .draining })
  else c

/-- `proven_quic_conn_receive`, what is held apart. -/
def connReceive (at_ : Moment) (source : Addr) (n : Nat) (packets : List QuicPacket) (reset : Bool)
    (c : PathConn Addr) : PathConn Addr :=
  if c.state = .draining ∨ c.state = .closed ∨ n = 0 ∨ 65527 < n then c
  else if c.server = false ∧ source ≠ c.peerAddr then c
  else readDatagram at_ source n packets false reset c

/-- `replay_held`: what was held at one place is read again. -/
def replayHeld (at_ : Moment) (index : Nat) (packets : List QuicPacket) (c : PathConn Addr) : PathConn Addr :=
  match c.pending[index]? with
  | none => c
  | some part =>
    let c := { c with pending := c.pending.eraseIdx index }
    if c.state = .draining ∨ c.state = .closed then c
    else readDatagram at_ part.source part.len packets part.counted false c

/-- The packets built for a datagram: each is built when it fits in what the budget leaves, none
once that is less than `least`. -/
def packetsBuilt (least budget : Nat) : List Nat → Nat → Nat
  | [], total => total
  | size :: rest, total =>
    if budget - total < least then total
    else if total + size ≤ budget then packetsBuilt least budget rest (total + size)
    else packetsBuilt least budget rest total

theorem built_within (least budget : Nat) (sizes : List Nat) (total : Nat) (within : total ≤ budget) :
    packetsBuilt least budget sizes total ≤ budget := by
  induction sizes generalizing total with
  | nil => exact within
  | cons size rest ih =>
    rw [packetsBuilt]
    split
    · exact within
    split
    next fits =>
      exact ih _ fits
    · exact ih _ within

def sendBudget (c : PathConn Addr) : Nat :=
  if c.server && !c.validated then min (3 * c.ampRx - c.ampTx) c.size.datagram else c.size.datagram

/-- What a call to send brings: the packets it can build, whether an Initial among them must be
padded, whether there is data in flight, and when a probe sent now runs out. -/
structure SendCall where
  now : Nat
  room : Nat
  sizes : List Nat
  padded : Bool
  inFlight : Bool
  probeDeadline : Nat
  deriving DecidableEq, Repr

abbrev Sent (Addr : Type) := Option (Nat × Addr)

def sendHere (c : PathConn Addr) (len : Nat) : PathConn Addr × Sent Addr :=
  if len = 0 then (c, none) else ({ c with ampTx := c.ampTx + len }, some (len, c.peerAddr))

def sendPackets (c : PathConn Addr) (least : Nat) (call : SendCall) : PathConn Addr × Sent Addr :=
  let budget := sendBudget c
  let total := packetsBuilt least budget call.sizes 0
  if total = 0 then (c, none)
  else if call.padded ∧ total < quicMinInitial then
    if budget < quicMinInitial then (c, none) else sendHere c quicMinInitial
  else sendHere c total

def sendResponse (c : PathConn Addr) : Option (PathConn Addr × Sent Addr) :=
  if c.resp0.owed ∧ c.resp0.dest ≠ c.peerAddr ∧ c.appKeys then
    some ({ c with resp0 := { c.resp0 with owed := false } }, some (c.size.datagram, c.resp0.dest))
  else if c.resp1.owed ∧ c.resp1.dest ≠ c.peerAddr ∧ c.appKeys then
    some ({ c with resp1 := { c.resp1 with owed := false } }, some (c.size.datagram, c.resp1.dest))
  else none

def probeBegin (call : SendCall) (p : PathSize) : PathSize :=
  if p.pmState = .notBegun then pmBegin call.now p else p

def probeRaise (call : SendCall) (p : PathSize) : PathSize :=
  if p.pmState = .finished ∧ p.pmRaiseAt ≠ 0 ∧ p.pmRaiseAt ≤ call.now ∧ call.inFlight then pmBegin call.now p else p

def probeStart (call : SendCall) (p : PathSize) : PathSize := probeRaise call (probeBegin call p)

def sendProbe (c : PathConn Addr) (call : SendCall) : PathConn Addr × Sent Addr :=
  if c.confirmed ∧ c.state = .opened ∧ c.validated ∧ c.appKeys ∧ !c.challengeWait then
    let p := probeStart call c.size
    if p.pmState = .searching ∧ p.pmOut = false ∧ p.pmSize ≤ call.room then
      sendHere { c with
        size := { p with pmOut := true, pmTries := p.pmTries + 1, pmDeadline := call.probeDeadline } } p.pmSize
    else ({ c with size := p }, none)
  else (c, none)

/-- `proven_quic_conn_send`. The control frames of an ordinary datagram are not the path's; that
its challenge went out is `challengeSent`. -/
def connSend (call : SendCall) (c : PathConn Addr) : PathConn Addr × Sent Addr :=
  if call.room < qcMaxDgram ∨ c.state = .draining ∨ c.state = .closed then (c, none)
  else if c.state = .closing then
    let c := { c with closeUnsent := false }
    if !c.closeOwed ∨ sendBudget c < 64 then (c, none)
    else sendPackets { c with closeOwed := false } 0 { call with padded := call.padded && !c.server }
  else
    match sendResponse c with
    | some result => result
    | none =>
      match sendProbe c call with
      | (c, some probe) => (c, some probe)
      | (c, none) => sendPackets c 64 call

/-- What the loss timer does to the size: packets larger than the configured size are found lost,
or a probe timeout passes. -/
inductive LossTimeout where
  | notDue
  | lost (big : Nat)
  | probe
  deriving DecidableEq, Repr

def onLossTimeout (now : Nat) (due : LossTimeout) (c : PathConn Addr) : PathConn Addr :=
  match due with
  | .notDue => c
  | .lost big => { c with size := detectLost now big c.size }
  | .probe =>
    let count := c.ptoCount + 1
    { c with ptoCount := count, size := if 2 ≤ count then pmBlackHole now c.size else c.size }

def challengeExpired (now : Nat) (c : PathConn Addr) : PathConn Addr :=
  if c.challengeWait ∧ c.challengeDeadline ≤ now then
    if c.hasOld then
      { c with challengeWait := false, peerAddr := c.oldAddr, validated := true, hasOld := false }
    else { c with challengeWait := false }
  else c

/-- `proven_quic_conn_timeout`; `idle` where the idle time, or the closing period, is over. -/
def connTimeout (now : Nat) (idle : Bool) (due : LossTimeout) (c : PathConn Addr) : PathConn Addr :=
  if c.state = .closed then c
  else if !c.state.live then (if idle then { c with state := .closed } else c)
  else if idle then { c with state := .closed }
  else
    let c := challengeExpired now c
    let c := if c.size.pmOut ∧ c.size.pmDeadline ≤ now then { c with size := pmLost now c.ptoCount c.size } else c
    onLossTimeout now due c

inductive PathStep (Addr : Type) where
  | receive (at_ : Moment) (source : Addr) (n : Nat) (packets : List QuicPacket) (reset : Bool)
  | replay (at_ : Moment) (index : Nat) (packets : List QuicPacket)
  | send (call : SendCall)
  | challengeSent
  | challengeLost
  | responsesSent
  | appKeysCome
  | pendingDropped (index : Nat)
  | timeout (now : Nat) (idle : Bool) (due : LossTimeout)
  /-- `proven_quic_conn_close`. -/
  | close
  deriving DecidableEq, Repr

def respSent (peer : Addr) (r : PathResp Addr) : PathResp Addr :=
  if r.owed ∧ r.dest = peer then { r with owed := false } else r

def pathStep (c : PathConn Addr) : PathStep Addr → PathConn Addr × Sent Addr
  | .receive at_ source n packets reset => (connReceive at_ source n packets reset c, none)
  | .replay at_ index packets => (replayHeld at_ index packets c, none)
  | .send call => connSend call c
  | .challengeSent => ({ c with challengeOwed := false }, none)
  | .challengeLost => (if c.challengeWait then { c with challengeOwed := true } else c, none)
  | .responsesSent =>
    ({ c with resp0 := respSent c.peerAddr c.resp0, resp1 := respSent c.peerAddr c.resp1 }, none)
  | .appKeysCome => ({ c with appKeys := true }, none)
  | .pendingDropped index => ({ c with pending := c.pending.eraseIdx index }, none)
  | .timeout now idle due => (connTimeout now idle due c, none)
  | .close => (if c.state.live then { connFail c with closeUnsent := true } else c, none)

def pathNext (c : PathConn Addr) (step : PathStep Addr) : PathConn Addr := (pathStep c step).1

def pathRun (c : PathConn Addr) (steps : List (PathStep Addr)) : PathConn Addr := run pathNext c steps

/-- `allowed` holds of every packet of the datagram that is read, where it is read. -/
def AlongPackets (allowed : Moment → Addr → QuicPacket → PathConn Addr → Prop) (at_ : Moment) (source : Addr)
    (n : Nat) : List QuicPacket → Nat → PathConn Addr → Prop
  | [], _, _ => True
  | packet :: rest, pos, c =>
    if n < pos + packet.len ∨ c.state = .draining ∨ c.state = .closed then True
    else
      allowed at_ source packet c ∧ ((readPacket at_ source packet c).2.2 ≠ .stop →
          AlongPackets allowed at_ source n rest (pos + packet.len) (readPacket at_ source packet c).1)

/-- `allowed` holds of every packet a step reads. -/
def StepPackets (allowed : Moment → Addr → QuicPacket → PathConn Addr → Prop) (c : PathConn Addr) : PathStep Addr → Prop
  | .receive at_ source n packets _ => AlongPackets allowed at_ source n packets 0 c
  | .replay at_ index packets =>
    ∀ part, c.pending[index]? = some part →
      AlongPackets allowed at_ part.source part.len packets 0 { c with pending := c.pending.eraseIdx index }
  | _ => True

theorem read_packets_keeps {allowed : Moment → Addr → QuicPacket → PathConn Addr → Prop}
    {Holds : PathConn Addr → Prop} {at_ : Moment} {source : Addr} {n : Nat}
    (kept : ∀ packet c, Holds c → allowed at_ source packet c → Holds (readPacket at_ source packet c).1)
    {packets : List QuicPacket} {pos : Nat} {c : PathConn Addr} (start : Holds c)
    (along : AlongPackets allowed at_ source n packets pos c) : Holds (readPackets at_ source n packets pos c).1 := by
  induction packets generalizing pos c with
  | nil => exact start
  | cons packet rest ih =>
    rw [readPackets]
    rw [AlongPackets] at along
    split
    · exact start
    rename_i more
    rw [if_neg more] at along
    have here := kept packet c start along.1
    cases read : readPacket at_ source packet c with
    | mk after others =>
      obtain ⟨held, outcome⟩ := others
      rw [read] at here along
      cases outcome with
      | stop => exact here
      | opened => exact ih here (along.2 nofun)
      | dropped => exact ih here (along.2 nofun)

def sizeNew (datagram raise : Nat) : PathSize :=
  { configured := datagram, raise := raise, datagram := datagram, peerMaxUdp := 65527, pmState := .notBegun
    pmGood := 0, pmBad := 0, pmSize := 0, pmTries := 0, pmBigLost := 0, pmOut := false, pmDeadline := 0
    pmRaiseAt := 0 }

/-- `conn_new`; a server's first datagram is received as any other. -/
def connNew (server : Bool) (peer : Addr) (known : Bool) (datagram raise : Nat) : PathConn Addr :=
  { server := server, state := .handshake, confirmed := false, havePeerTp := false, appKeys := false
    ptoCount := 0, peerAddr := peer, oldAddr := peer, hasOld := false, validated := !server || known
    ampRx := 0, ampTx := 0, challenge := [], challengeOwed := false, challengeWait := false
    challengeDeadline := 0, resp0 := ⟨[], peer, false⟩, resp1 := ⟨[], peer, false⟩, closeUnsent := false
    closeOwed := false, closeRx := 0, pending := [], size := sizeNew datagram raise
    proved := if server && !known then [] else [peer] }

end Machine

end ProvenC.Quic.Path
