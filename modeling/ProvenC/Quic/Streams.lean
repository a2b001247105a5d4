import ProvenC.Quic.Queues
import ProvenC.Lib.Slots

/-!
# The streams of a connection

The table of streams, the credit given and taken for them, and how a stream comes and goes.
Numbers are those of the source; memory always suffices.
-/

namespace ProvenC.Quic.Streams

open Bytes Quic.RangeSet Quic.Queues Lib.Slots

inductive StreamKind where
  | bidi
  | uni
  deriving DecidableEq, Repr

inductive ConnState where
  | handshake
  | opened
  | closing
  | draining
  | closed
  deriving DecidableEq, Repr

inductive TransportError where
  | streamLimitError
  | streamStateError
  | finalSizeError
  | flowControlError
  | internalError
  | protocolViolation
  | transportParameterError
  | versionNegotiationError
  | code (value : Nat)
  deriving DecidableEq, Repr

/-- The packet number spaces, `PROVEN_QUIC_LEVEL_*`. -/
inductive Level where
  | initial
  | handshake
  | application
  deriving DecidableEq, Repr

/-- Where early data stands, `PROVEN_TLS_EARLY_*`. -/
inductive Early where
  | none
  | offered
  | accepted
  | refused
  deriving DecidableEq, Repr

/-- The limits of `proven_quic_config_t`, its defaults filled in. -/
structure QuicConfig where
  maxStreamsBidi : Nat
  maxStreamsUni : Nat
  streamsBidiNow : Nat
  streamWindow : Nat
  streamWindowMax : Nat
  connWindow : Nat
  connWindowMax : Nat
  streamSendBuffer : Nat
  connSendBuffer : Nat

/-- The limits of the peer's transport parameters (`proven_quic_tp_t`). -/
structure PeerParams where
  initialMaxData : Nat
  initialMaxStreamDataBidiLocal : Nat
  initialMaxStreamDataBidiRemote : Nat
  initialMaxStreamDataUni : Nat
  initialMaxStreamsBidi : Nat
  initialMaxStreamsUni : Nat
  deriving DecidableEq, Repr

def PeerParams.none : PeerParams := ⟨0, 0, 0, 0, 0, 0⟩

structure QStream where
  id : Nat
  isLocal : Bool
  hasTx : Bool
  hasRx : Bool
  tx : SendQ
  rx : RecvQ
  txMax : Nat
  rxMax : Nat
  rxWindow : Nat
  rxMovedAt : Nat
  rxMaxOwed : Bool
  txReset : Bool
  txResetOwed : Bool
  txResetAcked : Bool
  txResetCode : Nat
  txResetFinal : Nat
  rxReset : Bool
  rxResetCode : Nat
  rxStopOwed : Bool
  rxStopped : Bool
  rxStopCode : Nat
  rxFinRead : Bool
  evOpened : Bool
  evReadable : Bool
  evWritable : Bool
  evReset : Bool
  evStop : Bool
  txBlocked : Bool
  evStopCode : Nat
  rxResetReported : Bool

/-- The kinds of a sent frame that carries bytes of a queue or a limit (`FR_*`). -/
inductive FrameKind where
  | crypto
  | stream
  | reset
  | stop
  | maxData
  | maxStreamData
  | maxStreams (kind : StreamKind)
  deriving DecidableEq, Repr

/-- `proven_qfrec_t`, and `value`, the limit the frame told: the code keeps no record of it, since
what is sent again is always the latest. -/
structure FrameRec where
  kind : FrameKind
  fin : Bool
  len : Nat
  id : Nat
  off : Nat
  value : Nat
  deriving DecidableEq, Repr

/-- `proven_qsent_t`: a packet that was sent and is neither acknowledged nor lost. -/
structure SentPacket where
  pn : Nat
  zeroRtt : Bool
  frames : List FrameRec
  deriving DecidableEq, Repr

/-- What sending uses of `proven_qspace_t`. -/
structure Space where
  nextPn : Nat
  sent : List SentPacket
  cryptoTx : SendQ
  discarded : Bool
  probes : Nat

def Space.empty : Space := { nextPn := 0, sent := [], cryptoTx := SendQ.empty, discarded := false, probes := 0 }

/-- What the streams use of `proven_quic_conn_t`. -/
structure QuicConn where
  cfg : QuicConfig
  server : Bool
  state : ConnState
  zrOk : Bool
  zrDone : Bool
  early : Early
  /-- `sp[2].tx_ok`: the write key of 1-RTT packets is there. -/
  appTxOk : Bool
  earlyLimits : Bool
  peerTp : PeerParams
  havePeerTp : Bool
  closeCode : Option TransportError
  now : Nat
  haveRtt : Bool
  srtt : Nat
  cwnd : Nat
  txMaxData : Nat
  txData : Nat
  rxMaxData : Nat
  rxData : Nat
  rxRead : Nat
  rxConnWindow : Nat
  rxConnMovedAt : Nat
  rxCap : Nat
  txWritten : Nat
  maxDataOwed : Bool
  sendBuffered : Nat
  sendRoomFreed : Bool
  streams : List QStream
  cursor : Nat
  evCursor : Nat
  localOpened : StreamKind → Nat
  peerMaxStreams : StreamKind → Nat
  peerOpened : StreamKind → Nat
  peerClosed : StreamKind → Nat
  ourMaxStreams : StreamKind → Nat
  grantBidi : Nat
  maxStreamsOwed : StreamKind → Bool
  rxRanges : Nat
  evN : Nat
  sp : Level → Space

def ConnState.live : ConnState → Bool
  | .handshake => true
  | .opened => true
  | _ => false

def appReady (c : QuicConn) : Bool :=
  match c.state with
  | .opened => true
  | .handshake => if c.server then c.early == .accepted && c.appTxOk else c.zrOk && c.early != .refused
  | _ => false

def connFail (c : QuicConn) (code : TransportError) : QuicConn :=
  if c.state.live then { c with state := .closing, closeCode := some code, evN := c.evN + 1 } else c

/-- `conn_new`, with the configuration's defaults filled in. -/
def connNew (cfg : QuicConfig) (server : Bool) (now cwnd : Nat) : QuicConn :=
  let grantBidi :=
    if cfg.streamsBidiNow ≠ 0 ∧ cfg.streamsBidiNow < cfg.maxStreamsBidi then cfg.streamsBidiNow
    else cfg.maxStreamsBidi
  { cfg := cfg
    server := server
    state := .handshake
    zrOk := false, zrDone := false, early := .none, appTxOk := false, earlyLimits := false
    peerTp := PeerParams.none
    havePeerTp := false
    closeCode := none
    now := now
    haveRtt := false
    srtt := 0
    cwnd := cwnd
    txMaxData := 0, txData := 0
    rxMaxData := cfg.connWindow, rxData := 0, rxRead := 0
    rxConnWindow := cfg.connWindow, rxConnMovedAt := now, rxCap := 0
    txWritten := 0, maxDataOwed := false, sendBuffered := 0, sendRoomFreed := false
    streams := [], cursor := 0, evCursor := 0
    localOpened := fun _ => 0, peerMaxStreams := fun _ => 0
    peerOpened := fun _ => 0, peerClosed := fun _ => 0
    ourMaxStreams := fun
      | .bidi => grantBidi
      | .uni => cfg.maxStreamsUni
    grantBidi := grantBidi
    maxStreamsOwed := fun _ => false
    rxRanges := 0
    evN := 0
    sp := fun _ => Space.empty }

def streamFind (c : QuicConn) (id : Nat) : Option QStream := find QStream.id id c.streams

def setStream (c : QuicConn) (id : Nat) (change : QStream → QStream) : QuicConn :=
  { c with streams := update QStream.id id change c.streams }

def idLocal (c : QuicConn) (id : Nat) : Bool := id % 2 == (if c.server then 1 else 0)

def idKind (id : Nat) : StreamKind := if id / 2 % 2 = 1 then .uni else .bidi

/-- `stream_new`, the stream itself. -/
def streamNew (c : QuicConn) (id : Nat) : QStream :=
  let uni := idKind id == .uni
  { id := id
    isLocal := idLocal c id
    hasTx := !uni || idLocal c id
    hasRx := !uni || !idLocal c id
    tx := SendQ.empty
    rx := RecvQ.empty
    txMax := if uni then c.peerTp.initialMaxStreamDataUni
      else if idLocal c id then c.peerTp.initialMaxStreamDataBidiRemote
      else c.peerTp.initialMaxStreamDataBidiLocal
    rxMax := c.cfg.streamWindow
    rxWindow := if c.rxCap ≠ 0 ∧ c.rxCap < c.cfg.streamWindow then c.rxCap else c.cfg.streamWindow
    rxMovedAt := c.now
    rxMaxOwed := false
    txReset := false, txResetOwed := false, txResetAcked := false, txResetCode := 0, txResetFinal := 0
    rxReset := false, rxResetCode := 0, rxStopOwed := false, rxStopped := false, rxStopCode := 0
    rxFinRead := false
    evOpened := false, evReadable := false, evWritable := false, evReset := false, evStop := false
    txBlocked := false, evStopCode := 0, rxResetReported := false }

def txOver (s : QStream) : Bool := !s.hasTx || s.txResetAcked || sendqDone s.tx

def rxOver (s : QStream) : Bool := !s.hasRx || s.rxFinRead || s.rxResetReported

def eventsWait (s : QStream) : Bool := s.evOpened || s.evReadable || s.evReset || s.evStop

def framesOwed (s : QStream) : Bool := s.rxMaxOwed || s.txResetOwed || s.rxStopOwed

/-- What `stream_maybe_free` asks before it frees a stream. -/
def streamOver (s : QStream) : Bool := txOver s && rxOver s && !eventsWait s && !framesOwed s

def streamLimit (c : QuicConn) : StreamKind → Nat
  | .uni => c.cfg.maxStreamsUni
  | .bidi => c.grantBidi

def streamClosed (c : QuicConn) (k : StreamKind) : QuicConn :=
  let closed := c.peerClosed k + 1
  let c := { c with peerClosed := Function.update c.peerClosed k closed }
  if c.ourMaxStreams k < closed + streamLimit c k then
    { c with
      ourMaxStreams := Function.update c.ourMaxStreams k (closed + streamLimit c k)
      maxStreamsOwed := Function.update c.maxStreamsOwed k true }
  else c

def streamTaken (c : QuicConn) (s : QStream) : QuicConn :=
  let streams := remove QStream.id s.id c.streams
  { c with
    streams := streams
    cursor := if streams.length ≤ c.cursor then 0 else c.cursor
    evCursor := if streams.length ≤ c.evCursor then 0 else c.evCursor
    sendBuffered := c.sendBuffered - (s.tx.end_ - s.tx.base)
    sendRoomFreed := c.sendRoomFreed || s.tx.end_ != s.tx.base
    rxRanges := c.rxRanges - s.rx.got.length }

/-- `stream_maybe_free`: a stream both of whose sides are over and whose news has been told. -/
def streamMaybeFree (c : QuicConn) (id : Nat) : QuicConn :=
  match streamFind c id with
  | none => c
  | some s =>
    if !streamOver s then c
    else if s.isLocal then streamTaken c s
    else streamClosed (streamTaken c s) (idKind s.id)

/-- The peer opens its next stream of the kind of `id`. -/
def peerOpen (c : QuicConn) (id : Nat) : QuicConn :=
  let i := c.peerOpened (idKind id)
  { c with
    streams := c.streams ++ [{ streamNew c (4 * i + id % 4) with evOpened := true }]
    peerOpened := Function.update c.peerOpened (idKind id) (i + 1) }

def peerOpens (id : Nat) : Nat → QuicConn → QuicConn
  | 0, c => c
  | n + 1, c => peerOpens id n (peerOpen c id)

/-- `stream_for_peer`: the stream a peer's frame names, opened by it if it may (and those below
it of its kind), none when it is already over, or the error to close with. -/
def streamForPeer (c : QuicConn) (id : Nat) : QuicConn × Except TransportError (Option QStream) :=
  match streamFind c id with
  | some s => (c, .ok (some s))
  | none =>
    let k := idKind id
    if idLocal c id then
      (c, if c.localOpened k ≤ id / 4 then .error .streamStateError else .ok none)
    else if c.ourMaxStreams k ≤ id / 4 then (c, .error .streamLimitError)
    else if id / 4 < c.peerOpened k then (c, .ok none)
    else
      let c := peerOpens id (id / 4 + 1 - c.peerOpened k) c
      (c, .ok (streamFind c id))

/-- `rx_grow`: a window emptied to half within two round trips of its last move doubles. -/
def rxGrow (c : QuicConn) (window movedAt cap : Nat) : Nat :=
  if cap ≤ window ∨ c.haveRtt = false ∨ 2 * c.srtt ≤ c.now - movedAt then window
  else if 2 * window < cap then 2 * window else cap

/-- `rx_capped`: a growth cap under the ceiling, if there is one. -/
def rxCapped (c : QuicConn) (cap : Nat) : Nat := if c.rxCap ≠ 0 ∧ c.rxCap < cap then c.rxCap else cap

/-- The connection's window moves to `window` bytes past what was read; a grant is never
lowered. -/
def rxConnMove (c : QuicConn) (window : Nat) : QuicConn :=
  { c with
    rxConnWindow := window
    rxMaxData := max c.rxMaxData (c.rxRead + window)
    rxConnMovedAt := c.now
    maxDataOwed := true }

/-- The stream's part of `rx_credit`. The connection's window keeps one and a half of the
largest stream window, so one stream that grew is not held back by it. -/
def rxStreamCredit (c : QuicConn) (s : QStream) : QuicConn :=
  if s.rx.hasFinal ∨ s.rxWindow / 2 ≤ s.rxMax - s.rx.read then c
  else
    let window := rxGrow c s.rxWindow s.rxMovedAt (rxCapped c c.cfg.streamWindowMax)
    let c := setStream c s.id fun s =>
      { s with
        rxWindow := window
        rxMax := max s.rxMax (s.rx.read + window)
        rxMovedAt := c.now
        rxMaxOwed := true }
    let want := window + window / 2
    let connMax := rxCapped c c.cfg.connWindowMax
    if c.cfg.connWindowMax ≠ 0 ∧ c.rxConnWindow < want ∧ c.rxConnWindow < connMax then
      rxConnMove c (if want < connMax then want else connMax)
    else c

/-- The connection's part of `rx_credit`. -/
def rxConnCredit (c : QuicConn) : QuicConn :=
  if c.rxMaxData - c.rxRead < c.rxConnWindow / 2 then
    rxConnMove c (rxGrow c c.rxConnWindow c.rxConnMovedAt (rxCapped c c.cfg.connWindowMax))
  else c

def rxCounted (c : QuicConn) (n : Nat) : QuicConn := { c with rxRead := c.rxRead + n }

/-- `rx_credit`: bytes read, of a stream or of none in particular; MAX_STREAM_DATA and MAX_DATA
are owed at half a window. -/
def rxCredit (c : QuicConn) (s : Option QStream) (n : Nat) : QuicConn :=
  match s with
  | none => rxConnCredit (rxCounted c n)
  | some s => rxConnCredit (rxStreamCredit (rxCounted c n) s)

def qStreamLimit : Nat := 2 ^ 62 - 1

/-- `tx_room`: what a stream, and the connection, may still hold written and unacknowledged. -/
def txRoom (c : QuicConn) (s : QStream) : Nat :=
  let path := 2 * c.cwnd
  let streamCap :=
    if c.cfg.streamWindowMax = 0 then c.cfg.streamSendBuffer
    else max c.cfg.streamSendBuffer (min (min (s.txMax - s.tx.base) path) c.cfg.streamWindowMax)
  let connCap :=
    if c.cfg.connWindowMax = 0 then c.cfg.connSendBuffer
    else max c.cfg.connSendBuffer
      (min (min (c.txMaxData - (c.txWritten - c.sendBuffered)) path) c.cfg.connWindowMax)
  let room := min (streamCap - (s.tx.end_ - s.tx.base)) (connCap - c.sendBuffered)
  min room (qStreamLimit - s.tx.end_)

/-- `stream_tx_reset`: this side's sending half ends early. -/
def streamTxReset (c : QuicConn) (s : QStream) (code : Nat) : QuicConn :=
  if !s.hasTx || s.txReset || sendqDone s.tx then c
  else
    let c := setStream c s.id fun s =>
      { s with
        txReset := true, txResetOwed := true, txResetCode := code, txResetFinal := s.tx.next
        tx := { sendqFree s.tx with base := s.tx.next, end_ := s.tx.next } }
    { c with
      sendBuffered := c.sendBuffered - (s.tx.end_ - s.tx.base)
      sendRoomFreed := c.sendRoomFreed || s.tx.end_ != s.tx.base }

end ProvenC.Quic.Streams
