import ProvenC.H2.Frame
import ProvenC.H2.Head
import ProvenC.Hpack.Decoder
import ProvenC.Hpack.Encoder
import ProvenC.Lib.Slots

/-!
# The state of an HTTP/2 connection

One connection, either end: bytes in, events and bytes out.
-/

namespace ProvenC.H2.Conn

open Bytes H2.Frame H2.Head Lib.Slots
open Hpack.Table Hpack.Decoder Hpack.Encoder

def h2cEmptyRunMax : Nat := 16
def h2cMaxList : Nat := 2 ^ 20
def h2cMaxFrame : Nat := 2 ^ 20
def h2cTextKeep : Nat := 256

/-- `proven_h2c_stream_t`, its flags one by one. -/
structure H2Stream where
  id : Nat
  sendWin : Int
  recvWin : Int
  unacked : Nat
  held : Nat
  win : Nat
  moved : Nat
  localEnd : Bool
  remoteEnd : Bool
  headSent : Bool
  headRecv : Bool
  blocked : Bool
  hblocked : Bool
  noBody : Bool
  tunnel : Bool
  expect : Option Nat
  got : Nat

inductive ReadState where
  | preface
  | hdr
  | fixed
  | data
  | block
  | skip
  | text
  deriving DecidableEq, Repr

inductive RingHow where
  | ours
  | peer
  | done
  deriving DecidableEq, Repr

inductive EventKind where
  | none
  | headers
  | data
  | trailers
  | streamReset
  | streamWritable
  | goaway
  | pong
  | closed
  deriving DecidableEq, Repr

structure H2Event where
  kind : EventKind
  streamId : Nat := 0
  endStream : Bool := false
  request : Option RequestHead := none
  status : Nat := 0
  fields : List Field := []
  data : List Byte := []
  code : Nat := 0
  tooLarge : Bool := false
  lastStreamId : Nat := 0

structure Wire where
  out : List Byte
  ctlQueued : Nat
  cfgOut : Nat
  goawaySent : Bool
  closed : Bool
  oom : Bool
  reported : Bool
  closeCode : Nat

structure H2Conn where
  wire : Wire
  ev : H2Event
  server : Bool
  connectProtocol : Bool
  cfgStreams : Nat
  cfgWindow : Nat
  cfgFrame : Nat
  cfgList : Nat
  cfgTable : Nat
  cfgDebt : Nat
  peerStreams : Nat
  peerWindow : Nat
  peerFrame : Nat
  peerList : Nat
  peerTable : Nat
  peerTableSet : Bool
  peerConnectProtocol : Bool
  dec : Option HpackDecoder
  enc : Option HpackEncoder
  streams : List H2Stream
  ring : List (Nat × RingHow)
  ringPos : Nat
  blk : List Byte
  text : List Byte
  sensitive : Option (List Bool)
  sendWin : Int
  recvWin : Int
  recvUnacked : Nat
  recvTarget : Nat
  localWindow : Nat
  /-- The initial window last said; `cfgWindow` is the ceiling. -/
  advWindow : Nat
  wantWindow : Nat
  nextId : Nat
  lastPeerId : Nat
  lastActed : Nat
  goawayLast : Nat
  goawayCode : Nat
  debt : Nat
  emptyRun : Nat
  advStreams : Nat
  ackedStreams : Nat
  wantStreams : Nat
  chgInflight : Bool
  rs : ReadState
  small : List Byte
  smallNeed : Nat
  capWindow : Nat
  f : H2Frame
  contentLeft : Nat
  padLeft : Nat
  settingsLeft : Nat
  cur : Nat
  expectCont : Nat
  fin : Bool
  drop : Bool
  endHeaders : Bool
  gotSettings : Bool
  settingsAcked : Bool
  goawayRecv : Bool
  selfDep : Bool
  sweepGoaway : Bool
  sweepWritable : Bool
  headsFree : Bool
  sweepAt : Nat
  growStreamKib : Nat
  growConnKib : Nat
  growMark : Nat
  growNow : Bool
  clock : List Nat

namespace H2Conn

def closed (c : H2Conn) : Bool := c.wire.closed

def streamCount (c : H2Conn) : Nat := c.streams.length

end H2Conn

namespace Wire

/-- The largest output buffer `h2c_out_reserve` makes. -/
def outMax : Nat := 2 ^ 31

def fallOver (w : Wire) : Wire :=
  { w with oom := true, closed := true, closeCode := h2InternalError }

/-- Queue `bytes` where there is room to be had. -/
def push (w : Wire) (bytes : List Byte) : Wire :=
  if outMax < w.out.length + bytes.length then w.fallOver else { w with out := w.out ++ bytes }

def goaway (w : Wire) (lastActed code : Nat) : Wire :=
  let frame := h2PutHeader 8 h2Goaway 0 0 ++ h2PutU32 lastActed ++ h2PutU32 code
  if outMax < w.out.length + frame.length then w.fallOver
  else { w.push frame with goawaySent := true }

/-- `h2c_fail`: a connection error. Say why, and take nothing more. -/
def fail (w : Wire) (lastActed code : Nat) : Wire :=
  if w.closed then w else { w.goaway lastActed code with closed := true, closeCode := code }

/-- `h2c_ctl`: answers the protocol owes the peer are counted apart. -/
def ctl (w : Wire) (lastActed n : Nat) : Wire :=
  let w := { w with ctlQueued := w.ctlQueued + n }
  if w.cfgOut < w.ctlQueued then w.fail lastActed h2EnhanceYourCalm else w

def answer (w : Wire) (lastActed : Nat) (frame : List Byte) (counted : Bool) : Wire :=
  if w.closed then w
  else
    let next := w.push frame
    if next.closed then next else if counted then next.ctl lastActed frame.length else next

end Wire

def h2cPending (c : H2Conn) : Nat := c.wire.out.length

def h2cFail (c : H2Conn) (code : Nat) : H2Conn :=
  { c with wire := c.wire.fail c.lastActed code }

def h2cFallOver (c : H2Conn) : H2Conn := { c with wire := c.wire.fallOver }

def h2cQU32Frame (c : H2Conn) (type id value : Nat) (counted : Bool) : H2Conn :=
  { c with wire := c.wire.answer c.lastActed (h2PutHeader 4 type 0 id ++ h2PutU32 value) counted }

def h2cQRst (c : H2Conn) (id code : Nat) (counted : Bool) : H2Conn :=
  h2cQU32Frame c h2RstStream id code counted

def h2cQWindow (c : H2Conn) (id increment : Nat) : H2Conn :=
  h2cQU32Frame c h2WindowUpdate id increment true

def h2cQEmpty (c : H2Conn) (type flags : Nat) (payload : List Byte) : H2Conn :=
  { c with wire := c.wire.answer c.lastActed (h2PutHeader payload.length type flags 0 ++ payload) true }

def growRead (c : H2Conn) : Nat × H2Conn :=
  (c.clock.headD 0 % 2 ^ 32, { c with clock := c.clock.tail })

/-- The time since `mark`. -/
def since (now mark : Nat) : Nat := (now + 2 ^ 32 - mark) % 2 ^ 32

def h2cFind (c : H2Conn) (id : Nat) : Option H2Stream := find H2Stream.id id c.streams

/-- Change the stream `id` in its place. -/
def setStream (c : H2Conn) (id : Nat) (change : H2Stream → H2Stream) : H2Conn :=
  { c with streams := update H2Stream.id id change c.streams }

def h2cHeld (c : H2Conn) : Nat := sum H2Stream.held c.streams

def connGrant (c : H2Conn) (inc : Nat) : H2Conn :=
  h2cQWindow { c with recvWin := c.recvWin + inc } 0 inc

/-- What of `inc` may be given when room is `room`: under a ceiling no more than that. -/
def capped (inc : Nat) (room : Int) : Nat := if room < inc then room.toNat else inc

/-- The room a ceiling leaves on the connection: what the peer may still send and what is held
here, together, are kept under it. -/
def connRoom (c : H2Conn) : Int := c.capWindow - (c.recvWin + h2cHeld c)

def connReturn (c : H2Conn) : H2Conn :=
  let batch := c.recvUnacked
  let c := { c with recvUnacked := 0 }
  if c.capWindow = 0 then connGrant c batch
  else if connRoom c ≤ 0 then c
  else connGrant c (capped batch (connRoom c))

def creditTarget (c : H2Conn) : Nat :=
  if c.capWindow ≠ 0 ∧ c.capWindow < c.recvTarget then c.capWindow else c.recvTarget

def h2cConnCredit (c : H2Conn) (n : Nat) : H2Conn :=
  if n = 0 ∨ c.closed then c
  else
    let c := { c with recvUnacked := c.recvUnacked + n }
    if creditTarget c ≤ c.recvUnacked * 2 then connReturn c else c

def growCap (c : H2Conn) (kib : Nat) : Nat :=
  if c.capWindow ≠ 0 ∧ c.capWindow < kib * 1024 then c.capWindow else kib * 1024

def connRaise (c : H2Conn) (want : Nat) : H2Conn :=
  connGrant { c with recvTarget := want } (want - c.recvTarget)

def h2cConnFollow (c : H2Conn) (streamWindow : Nat) : H2Conn :=
  let want := min (streamWindow + streamWindow / 2) (growCap c c.growConnKib)
  if want ≤ c.recvTarget then c else connRaise c want

/-- The window of a stream that decides when credit is returned: while a setting is on its way
there are two initial windows, and the smaller counts. -/
def creditWindow (c : H2Conn) (s : H2Stream) : Nat :=
  let window := max (min c.localWindow c.advWindow) s.win
  if c.capWindow ≠ 0 ∧ c.capWindow < window then c.capWindow else window

def doubled (window cap : Nat) : Nat := if cap < window * 2 then cap else window * 2

def streamGrow (c : H2Conn) (s : H2Stream) (window : Nat) : H2Conn × H2Stream × Nat :=
  if c.growNow ∧ c.settingsAcked then
    let (now, c) := growRead c
    let cap := growCap c c.growStreamKib
    if since now s.moved < 2 * c.growMark ∧ window < cap then
      (h2cConnFollow c (doubled window cap), { s with win := doubled window cap, moved := now },
        doubled window cap - window)
    else (c, { s with moved := now }, 0)
  else (c, s, 0)

/-- The room a ceiling leaves on a stream: a lowering of the initial window that is said and not
yet acknowledged is counted now. -/
def streamRoom (c : H2Conn) (s : H2Stream) : Int :=
  let pending : Int := if c.advWindow < c.localWindow then c.localWindow - c.advWindow else 0
  c.capWindow - (s.recvWin - pending + s.held)

def streamGrant (c : H2Conn) (s : H2Stream) (inc : Nat) : H2Conn :=
  h2cQWindow (setStream c s.id fun _ => { s with recvWin := s.recvWin + inc }) s.id inc

def cappedWin (c : H2Conn) (win : Nat) : Nat :=
  if c.capWindow ≠ 0 ∧ c.capWindow < win then c.capWindow else win

def streamGive (c : H2Conn) (s : H2Stream) (inc : Nat) : H2Conn :=
  if c.capWindow = 0 then streamGrant c s inc
  else if streamRoom c s ≤ 0 then setStream c s.id fun _ => s
  else streamGrant c s (capped inc (streamRoom c s))

def streamReturn (c : H2Conn) (s : H2Stream) : H2Conn :=
  let emptied := { s with unacked := 0, win := cappedWin c s.win }
  let grown := streamGrow c emptied (creditWindow c s)
  streamGive grown.1 grown.2.1 (s.unacked + grown.2.2)

def h2cStreamCredit (c : H2Conn) (id n : Nat) : H2Conn :=
  if n = 0 ∨ c.closed then c
  else
    match h2cFind c id with
    | none => c
    | some s =>
      let s := { s with unacked := s.unacked + n }
      -- After END_STREAM the peer will send nothing more here.
      if s.remoteEnd then setStream c id fun _ => s
      else if creditWindow c s ≤ s.unacked * 2 then streamReturn c s
      else setStream c id fun _ => s

/-- `h2c_add`: the new stream goes to the end of the table; `none` where the table is full. -/
def h2cAdd (c : H2Conn) (id : Nat) : Option H2Conn :=
  if c.cfgStreams ≤ c.streamCount then none
  else
    let (moved, c) := if c.growNow then growRead c else (0, c)
    some { c with
      streams := c.streams ++
        [{ id := id, sendWin := c.peerWindow, recvWin := c.localWindow, unacked := 0, held := 0
           win := 0, moved := moved, localEnd := false, remoteEnd := false, headSent := false
           headRecv := false, blocked := false, hblocked := false, noBody := false, tunnel := false
           expect := none, got := 0 }] }

def h2cRingAdd (c : H2Conn) (id : Nat) (how : RingHow) : H2Conn :=
  { c with
    ring := if c.ringPos < c.ring.length then c.ring.set c.ringPos (id, how) else c.ring ++ [(id, how)]
    ringPos := (c.ringPos + 1) % c.cfgStreams }

/-- `h2c_ring_find`: `none` when the ending is no longer remembered, or never happened. -/
def h2cRingFind (c : H2Conn) (id : Nat) : Option RingHow :=
  (c.ring.find? fun entry => entry.1 / 2 = id / 2).map Prod.snd

/-- `h2c_remove`: take a stream out, remembering how it ended. -/
def h2cRemove (c : H2Conn) (id : Nat) (properly : Bool) (how : Option RingHow) : H2Conn :=
  match h2cFind c id with
  | none => c
  | some s =>
    let c := { c with
      streams := remove H2Stream.id id c.streams
      debt := if properly then c.debt - 1 else c.debt }
    let c := match how with
      | none => c
      | some how => h2cRingAdd c id how
    h2cConnCredit c s.held

/-- `h2c_is_idle`: nothing was ever sent or received on this stream. -/
def h2cIsIdle (c : H2Conn) (id : Nat) : Bool :=
  if id % 2 = 0 then true else if c.server then decide (c.lastPeerId < id) else decide (c.nextId ≤ id)

def tell (c : H2Conn) (ev : H2Event) : H2Conn := { c with ev := ev }

def h2cEventStream (kind : EventKind) (id : Nat) : H2Event := { kind := kind, streamId := id }

def h2cDebt (c : H2Conn) : H2Conn :=
  let c := { c with debt := c.debt + 1 }
  if c.cfgDebt < c.debt then h2cFail c h2EnhanceYourCalm else c

/-- `h2c_stream_fault`, of a stream that is open or (`h2c_find` of it) is not. -/
def h2cStreamFault (c : H2Conn) (id code : Nat) (forgive : Bool) : H2Conn :=
  let c := h2cQRst c id code true
  let c := match h2cFind c id with
    | some _ =>
      h2cRemove (tell c { h2cEventStream .streamReset id with code := code }) id false
        (some (if forgive then .ours else .done))
    | none => if forgive then h2cRingAdd c id .ours else c
  h2cDebt c

/-- `h2c_local_end`: this side has sent its last on a stream. -/
def h2cLocalEnd (c : H2Conn) (id : Nat) : H2Conn :=
  let c := setStream c id fun s => { s with localEnd := true }
  match h2cFind c id with
  | none => c
  | some s =>
    if s.remoteEnd then h2cRemove c id true (some .done)
    else if !c.server then c
    else if s.tunnel then c
    else
      -- A response that is complete before its request: the rest is not wanted.
      h2cRemove (h2cQRst c id h2NoError false) id true (some .ours)

/-- `h2c_remote_end`: the peer has sent its last on a stream. -/
def h2cRemoteEnd (c : H2Conn) (id : Nat) : H2Conn :=
  match h2cFind c id with
  | none => c
  | some s =>
    if s.expect.any (· ≠ s.got) then h2cStreamFault c id h2ProtocolError false
    else
      let c := setStream c id fun s => { s with remoteEnd := true }
      if s.localEnd then h2cRemove c id true (some .done) else c

/-- `h2c_closed_frame`: a frame that only an open stream may carry, for one that is neither
open nor idle. -/
def h2cClosedFrame (c : H2Conn) (id unknown : Nat) : H2Conn :=
  match h2cRingFind c id with
  | some .ours => c
  | some .peer => h2cStreamFault c id h2StreamClosed false
  | some .done => h2cFail c h2StreamClosed
  | none => h2cFail c unknown

end ProvenC.H2.Conn
