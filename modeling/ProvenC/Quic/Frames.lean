import ProvenC.Quic.Streams

/-!
# What a peer's frames do to the streams

The frames of a packet that opened, one after another until one is refused and the connection
closes; the acknowledgements and losses of what was sent; and what the TLS engine brings: its
bytes, the peer's parameters, early data opened, refused or over.
-/

namespace ProvenC.Quic.Frames

open Bytes Quic.RangeSet Quic.Queues Quic.Streams Lib.Slots

inductive Frame where
  | stream (id off : Nat) (data : List Byte) (fin : Bool)
  | resetStream (id code finalSize : Nat)
  | stopSending (id code : Nat)
  | maxData (value : Nat)
  | maxStreamData (id value : Nat)
  | maxStreams (kind : StreamKind) (value : Nat)
  | streamDataBlocked (id : Nat)

def sendOnly (c : QuicConn) (id : Nat) : Bool := idLocal c id && idKind id == .uni

def recvOnly (c : QuicConn) (id : Nat) : Bool := !idLocal c id && idKind id == .uni

/-- What `on_stream` asks of the offset a frame ends at, before anything changes. -/
def streamRefused (s : QStream) (end_ : Nat) (fin : Bool) : Option TransportError :=
  if s.rx.hasFinal ∧ (s.rx.final < end_ ∨ (fin ∧ end_ ≠ s.rx.final)) then some .finalSizeError
  else if fin ∧ end_ < s.rx.highest then some .finalSizeError
  else if s.rxMax < end_ then some .flowControlError
  else none

/-- A stream's highest offset becomes `end_`, when that is higher: the bytes between are the
peer's to pay for. -/
def charge (c : QuicConn) (s : QStream) (end_ : Nat) : QuicConn :=
  if s.rx.highest < end_ then { c with rxData := c.rxData + (end_ - s.rx.highest) } else c

def sizeTold (q : RecvQ) (end_ : Nat) (fin : Bool) : RecvQ :=
  if fin then { q with hasFinal := true, final := end_ } else q

def bytesKept (junk : Nat → Byte) (s : QStream) (q : RecvQ) (off : Nat) (data : List Byte) : RecvQ :=
  if s.rxReset || s.rxStopped then q else recvqInsert junk q off data

def streamQueue (junk : Nat → Byte) (s : QStream) (off : Nat) (data : List Byte) (fin : Bool) : RecvQ :=
  let q := bytesKept junk s (sizeTold s.rx (off + data.length) fin) off data
  { q with highest := max q.highest (off + data.length) }

def readable (q : RecvQ) : Bool := 0 < recvqReady q || (q.hasFinal && q.read == q.final)

def streamKeep (junk : Nat → Byte) (c : QuicConn) (s : QStream) (off : Nat) (data : List Byte) (fin : Bool) : QuicConn :=
  let q := streamQueue junk s off data fin
  let c := { c with rxRanges := c.rxRanges + q.got.length - s.rx.got.length }
  setStream c s.id fun s =>
    { s with rx := q, evReadable := s.evReadable || (!(s.rxReset || s.rxStopped) && readable q) }

/-- `on_stream`, once the stream is known. -/
def streamTake (junk : Nat → Byte) (c : QuicConn) (s : QStream) (off : Nat) (data : List Byte) (fin : Bool) :
    QuicConn × Option TransportError :=
  let end_ := off + data.length
  match streamRefused s end_ fin with
  | some error => (c, some error)
  | none =>
    let c := charge c s end_
    if s.rx.highest < end_ ∧ c.rxMaxData < c.rxData then (c, some .flowControlError)
    else (streamKeep junk c s off data fin, none)

def onStream (junk : Nat → Byte) (c : QuicConn) (id off : Nat) (data : List Byte) (fin : Bool) :
    QuicConn × Option TransportError :=
  if sendOnly c id then (c, some .streamStateError)
  else
    match streamForPeer c id with
    | (c, .error error) => (c, some error)
    | (c, .ok none) => (c, none)
    | (c, .ok (some s)) => streamTake junk c s off data fin

/-- What `on_reset_stream` asks of the final size. -/
def resetRefused (s : QStream) (finalSize : Nat) : Option TransportError :=
  if (s.rx.hasFinal ∧ finalSize ≠ s.rx.final) ∨ finalSize < s.rx.highest then some .finalSizeError
  else if s.rxMax < finalSize then some .flowControlError
  else none

def resetSized (c : QuicConn) (s : QStream) (finalSize : Nat) : QuicConn :=
  setStream c s.id fun s =>
    { s with rx := { s.rx with highest := finalSize, hasFinal := true, final := finalSize } }

def resetRead (c : QuicConn) (s : QStream) (code finalSize : Nat) : QuicConn :=
  { setStream c s.id fun s =>
      { s with
        rx := { recvqFree s.rx with read := finalSize, highest := finalSize, hasFinal := true, final := finalSize }
        rxReset := true, rxResetCode := code, evReset := true, evReadable := false, rxMaxOwed := false } with
    rxRanges := c.rxRanges - s.rx.got.length }

def resetKeep (c : QuicConn) (s : QStream) (code finalSize : Nat) : QuicConn :=
  rxCredit (resetRead c s code finalSize) none (finalSize - s.rx.read)

/-- `on_reset_stream`, once the stream is known. -/
def resetTake (c : QuicConn) (s : QStream) (code finalSize : Nat) : QuicConn × Option TransportError :=
  match resetRefused s finalSize with
  | some error => (c, some error)
  | none =>
    let c := { c with rxData := c.rxData + (finalSize - s.rx.highest) }
    if c.rxMaxData < c.rxData then (c, some .flowControlError)
    else if s.rxReset || s.rxFinRead then (resetSized c s finalSize, none)
    else (resetKeep c s code finalSize, none)

def onResetStream (c : QuicConn) (id code finalSize : Nat) : QuicConn × Option TransportError :=
  if sendOnly c id then (c, some .streamStateError)
  else
    match streamForPeer c id with
    | (c, .error error) => (c, some error)
    | (c, .ok none) => (c, none)
    | (c, .ok (some s)) => resetTake c s code finalSize

/-- `on_stop_sending`, once the stream is known. -/
def stopTake (c : QuicConn) (s : QStream) (code : Nat) : QuicConn :=
  if !s.txReset && !sendqDone s.tx then
    setStream (streamTxReset c s code) s.id fun s => { s with evStop := true, evStopCode := code }
  else c

def onStopSending (c : QuicConn) (id code : Nat) : QuicConn × Option TransportError :=
  if recvOnly c id then (c, some .streamStateError)
  else
    match streamForPeer c id with
    | (c, .error error) => (c, some error)
    | (c, .ok none) => (c, none)
    | (c, .ok (some s)) => (stopTake c s code, none)

def raiseTxMax (c : QuicConn) (s : QStream) (value : Nat) : QuicConn :=
  if s.txMax < value then setStream c s.id fun s => { s with txMax := value, evWritable := true } else c

def onMaxStreamData (c : QuicConn) (id value : Nat) : QuicConn × Option TransportError :=
  if recvOnly c id then (c, some .streamStateError)
  else
    match streamForPeer c id with
    | (c, .error error) => (c, some error)
    | (c, .ok none) => (c, none)
    | (c, .ok (some s)) => (raiseTxMax c s value, none)

def onStreamDataBlocked (c : QuicConn) (id : Nat) : QuicConn × Option TransportError :=
  if sendOnly c id then (c, some .streamStateError)
  else
    match streamForPeer c id with
    | (c, .error error) => (c, some error)
    | (c, .ok _) => (c, none)

def onFrame (junk : Nat → Byte) (c : QuicConn) : Frame → QuicConn × Option TransportError
  | .stream id off data fin => onStream junk c id off data fin
  | .resetStream id code finalSize => onResetStream c id code finalSize
  | .stopSending id code => onStopSending c id code
  | .maxData value => ({ c with txMaxData := max c.txMaxData value }, none)
  | .maxStreamData id value => onMaxStreamData c id value
  | .maxStreams kind value =>
    ({ c with peerMaxStreams := Function.update c.peerMaxStreams kind (max (c.peerMaxStreams kind) value) }, none)
  | .streamDataBlocked id => onStreamDataBlocked c id

def setSpace (c : QuicConn) (lvl : Level) (change : Space → Space) : QuicConn :=
  { c with sp := Function.update c.sp lvl (change (c.sp lvl)) }

def streamAcked (c : QuicConn) (s : QStream) (f : FrameRec) : QuicConn :=
  let tx := sendqAcked s.tx f.off f.len f.fin
  let freed := tx.base != s.tx.base
  let c := setStream c s.id fun s => { s with tx := tx, evWritable := s.evWritable || freed }
  { c with
    sendBuffered := c.sendBuffered - (tx.base - s.tx.base)
    sendRoomFreed := c.sendRoomFreed || freed }

def frameAcked (lvl : Level) (c : QuicConn) (f : FrameRec) : QuicConn :=
  match f.kind with
  | .crypto => setSpace c lvl fun sp => { sp with cryptoTx := sendqAcked sp.cryptoTx f.off f.len false }
  | .stream =>
    match streamFind c f.id with
    | none => c
    | some s => if s.txReset then c else streamMaybeFree (streamAcked c s f) f.id
  | .reset => streamMaybeFree (setStream c f.id fun s => { s with txResetAcked := true }) f.id
  | _ => c

/-- `frame_lost`: what it carried is owed again, as it is now. -/
def frameLost (lvl : Level) (c : QuicConn) (f : FrameRec) : QuicConn :=
  match f.kind with
  | .crypto => setSpace c lvl fun sp => { sp with cryptoTx := sendqLost sp.cryptoTx f.off f.len false }
  | .stream =>
    setStream c f.id fun s => if s.txReset then s else { s with tx := sendqLost s.tx f.off f.len f.fin }
  | .reset => setStream c f.id fun s => if s.txResetAcked then s else { s with txResetOwed := true }
  | .stop =>
    setStream c f.id fun s => if s.rxStopped && !s.rx.hasFinal then { s with rxStopOwed := true } else s
  | .maxData => { c with maxDataOwed := true }
  | .maxStreamData =>
    setStream c f.id fun s => if !s.rx.hasFinal && !s.rxReset then { s with rxMaxOwed := true } else s
  | .maxStreams kind => { c with maxStreamsOwed := Function.update c.maxStreamsOwed kind true }

def packetAcked (lvl : Level) (c : QuicConn) (p : SentPacket) : QuicConn := p.frames.foldl (frameAcked lvl) c

def packetLost (lvl : Level) (c : QuicConn) (p : SentPacket) : QuicConn := p.frames.foldl (frameLost lvl) c

def keepSent (lvl : Level) (stays : SentPacket → Bool) (c : QuicConn) : QuicConn :=
  setSpace c lvl fun sp => { sp with sent := sp.sent.filter stays }

def rangeAcked (lvl : Level) (c : QuicConn) (range : Nat × Nat) : QuicConn :=
  let inside (p : SentPacket) : Bool := range.1 ≤ p.pn && p.pn ≤ range.2
  keepSent lvl (fun p => !inside p) (((c.sp lvl).sent.filter inside).foldl (packetAcked lvl) c)

/-- `on_ack`, up to the detection of losses: the ranges come highest first. -/
def onAck (lvl : Level) (c : QuicConn) (largest : Nat) (ranges : List (Nat × Nat)) : QuicConn × Option TransportError :=
  if (c.sp lvl).nextPn ≤ largest then (c, some .protocolViolation)
  else (ranges.foldl (rangeAcked lvl) c, none)

/-- `detect_lost`: what the packets held is owed again and their records go. -/
def detectLost (lvl : Level) (c : QuicConn) (which : Nat → Bool) : QuicConn :=
  keepSent lvl (fun p => !which p.pn) (((c.sp lvl).sent.filter fun p => which p.pn).foldl (packetLost lvl) c)

def probeOwed (lvl : Level) (c : QuicConn) : QuicConn := setSpace c lvl fun sp => { sp with probes := 2 }

def oldestLost (lvl : Level) (c : QuicConn) : QuicConn := ((c.sp lvl).sent.take 1).foldl (packetLost lvl) c

def cryptoAgain (lvl : Level) (c : QuicConn) : QuicConn :=
  setSpace c lvl fun sp => { sp with cryptoTx := sendqResendAll sp.cryptoTx }

/-- `on_loss_timeout`, a probe: what the oldest packet held goes out again in the probes. -/
def onProbe (lvl : Level) (c : QuicConn) : QuicConn :=
  if (c.sp lvl).discarded then c
  else if lvl = .application then oldestLost lvl (probeOwed lvl c)
  else cryptoAgain lvl (oldestLost lvl (probeOwed lvl c))

/-- `read_datagram`, a Retry: the Initial packets are gone, their bytes sent again. -/
def onRetry (c : QuicConn) : QuicConn :=
  setSpace c .initial fun sp => { sp with sent := [], cryptoTx := sendqResendAll sp.cryptoTx }

def spaceDiscard (lvl : Level) (c : QuicConn) : QuicConn :=
  if (c.sp lvl).discarded then c
  else
    setSpace c lvl fun sp =>
      { sp with sent := [], probes := 0, discarded := true, cryptoTx := sendqFree sp.cryptoTx }

def localLimit (tp : PeerParams) (id : Nat) : Nat :=
  if idKind id = .uni then tp.initialMaxStreamDataUni else tp.initialMaxStreamDataBidiRemote

/-- The limits of `tp` for the connection and for the streams this side opens. -/
def takeLimits (c : QuicConn) (tp : PeerParams) : QuicConn :=
  { c with
    txMaxData := tp.initialMaxData
    peerMaxStreams := fun
      | .bidi => tp.initialMaxStreamsBidi
      | .uni => tp.initialMaxStreamsUni }

structure ParamChecks where
  idsOk : Bool
  versionOk : Bool
  deriving DecidableEq, Repr

/-- `apply_peer_params`: streams a client opened on remembered limits take the server's, unless
they are lower. -/
def applyPeerParams (c : QuicConn) (tp : PeerParams) (checks : ParamChecks) : QuicConn :=
  let c := { c with peerTp := tp, havePeerTp := true }
  if !checks.idsOk then connFail c .transportParameterError
  else if !checks.versionOk then connFail c .versionNegotiationError
  else
    let c := takeLimits c tp
    if c.earlyLimits then
      { c with
        earlyLimits := false
        streams := c.streams.map fun s =>
          if s.isLocal ∧ s.txMax < localLimit tp s.id then
            { s with txMax := localLimit tp s.id, evWritable := true }
          else s }
    else c

def zrDrop (c : QuicConn) : QuicConn := { c with zrOk := false, zrDone := true }

/-- `zr_install`, the early secret being there: a client writes on the limits its session
remembers, and sends no early data without them. -/
def zrInstall (c : QuicConn) (remembered : Option PeerParams) : QuicConn :=
  if c.zrOk || c.zrDone then c
  else
    let c := { c with zrOk := true }
    if c.server then c
    else
      match remembered with
      | none => zrDrop c
      | some tp => takeLimits { c with peerTp := tp, earlyLimits := true } tp

def earlyFits (c : QuicConn) (tp : PeerParams) : Bool :=
  decide (c.localOpened .bidi ≤ tp.initialMaxStreamsBidi) && decide (c.localOpened .uni ≤ tp.initialMaxStreamsUni) &&
    decide (c.txData ≤ tp.initialMaxData) &&
    c.streams.all fun s => !s.isLocal || decide (s.tx.next ≤ localLimit tp s.id)

def zeroRttLost (c : QuicConn) : QuicConn :=
  keepSent .application (fun p => !p.zeroRtt)
    (((c.sp .application).sent.filter (·.zeroRtt)).foldl (packetLost .application) c)

def serverLimits (c : QuicConn) : QuicConn :=
  { takeLimits c c.peerTp with
    streams := c.streams.map fun s => if s.isLocal then { s with txMax := localLimit c.peerTp s.id } else s }

/-- `early_refused`, once the server's own limits are known: what was sent must fit them. -/
def refusedLimits (c : QuicConn) : QuicConn :=
  if earlyFits (serverLimits c) c.peerTp then serverLimits c else connFail (serverLimits c) .internalError

def earlyRefused (c : QuicConn) : QuicConn :=
  if !(zeroRttLost c).havePeerTp then zeroRttLost c else refusedLimits (zeroRttLost c)

/-- What the TLS engine has when it was fed: bytes to send at each level, an alert, the write key
of 1-RTT packets, the peer's parameters, the early secret and the limits remembered with it,
where early data stands, and the handshake's end. -/
structure TlsNews where
  pending : Level → List Byte
  alert : Option Nat
  txKey : Bool
  params : Option (PeerParams × ParamChecks)
  earlySecret : Option (Option PeerParams)
  early : Early
  established : Bool

def cryptoWrite (junk : Nat → Byte) (news : TlsNews) (c : QuicConn) (lvl : Level) : QuicConn :=
  if (news.pending lvl).isEmpty || (c.sp lvl).discarded then c
  else setSpace c lvl fun sp => { sp with cryptoTx := sendqWrite junk sp.cryptoTx (news.pending lvl) }

/-- `early_after`, the early secret. -/
def earlyInstall (c : QuicConn) (news : TlsNews) : QuicConn :=
  match news.earlySecret with
  | none => c
  | some remembered => zrInstall c remembered

/-- `early_after`, where early data stands. -/
def earlyTold (c : QuicConn) (news : TlsNews) : QuicConn :=
  if news.early = c.early then c
  else if news.early = .refused then
    if c.server then zrDrop { c with early := news.early } else earlyRefused (zrDrop { c with early := news.early })
  else { c with early := news.early }

def earlyAfter (c : QuicConn) (news : TlsNews) : QuicConn := earlyTold (earlyInstall c news) news

def stateOpened (c : QuicConn) : QuicConn := { c with state := .opened }

def established (c : QuicConn) : QuicConn :=
  if c.server then spaceDiscard .handshake (stateOpened c) else zrDrop (stateOpened c)

def paramsAfter (c : QuicConn) (news : TlsNews) : QuicConn :=
  if c.havePeerTp then c
  else
    match news.params with
    | none => c
    | some (tp, checks) => applyPeerParams c tp checks

def pendingWritten (junk : Nat → Byte) (news : TlsNews) (c : QuicConn) : QuicConn :=
  [Level.initial, .handshake, .application].foldl (cryptoWrite junk news) c

/-- `tls_after`, the end of the handshake. -/
def handshakeAfter (c : QuicConn) (news : TlsNews) : QuicConn :=
  if c.state.live && c.state == .handshake && news.established then established c else c

/-- `tls_after`, from the peer's parameters on. -/
def limitsAfter (c : QuicConn) (news : TlsNews) : QuicConn :=
  if (paramsAfter c news).state.live then handshakeAfter (earlyAfter (paramsAfter c news) news) news
  else paramsAfter c news

def keysAfter (c : QuicConn) (news : TlsNews) : QuicConn := { c with appTxOk := c.appTxOk || news.txKey }

def tlsAfter (junk : Nat → Byte) (c : QuicConn) (news : TlsNews) : QuicConn :=
  match news.alert with
  | some alert => connFail (pendingWritten junk news c) (.code alert)
  | none => limitsAfter (keysAfter (pendingWritten junk news c) news) news

end ProvenC.Quic.Frames
