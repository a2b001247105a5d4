import ProvenC.Quic.Frames
import ProvenC.Lib.Runs

/-!
# What the application calls, what a packet takes, and runs

The stream calls of the application, the frames a packet is filled with and the record kept of
it, and the steps of a connection with what each of them shows: bytes read and written, frames
taken, refused and put in packets, limits granted.
-/

namespace ProvenC.Quic.Calls

open Bytes Quic.RangeSet Quic.Queues Quic.Streams Quic.Frames
open Lib.Slots Lib.Runs

/-- `proven_quic_conn_poll`: blocked streams are told when room was freed. -/
def pollRoom (c : QuicConn) : QuicConn :=
  if c.sendRoomFreed then
    { c with
      sendRoomFreed := false
      streams := c.streams.map fun s =>
        { s with evWritable := s.evWritable || (s.txBlocked && !s.txReset), txBlocked := false } }
  else c

def pollStream (s : QStream) : Option QStream :=
  if s.evOpened then some { s with evOpened := false }
  else if s.evReset then some { s with evReset := false, rxResetReported := true }
  else if s.evStop then some { s with evStop := false }
  else if s.evReadable then some { s with evReadable := false }
  else if s.evWritable then some { s with evWritable := false }
  else none

/-- The place of the first stream with an event, from `k` after the cursor on. -/
def pollPlace (c : QuicConn) : Nat → Option Nat
  | 0 => none
  | left + 1 =>
    let i := (c.evCursor + (c.streams.length - (left + 1))) % c.streams.length
    match c.streams[i]? with
    | none => none
    | some s => if (pollStream s).isSome then some i else pollPlace c left

def connPoll (c : QuicConn) : QuicConn :=
  if 0 < c.evN then { c with evN := c.evN - 1 }
  else
    let c := pollRoom c
    match pollPlace c c.streams.length with
    | none => c
    | some i =>
      match c.streams[i]? with
      | none => c
      | some s =>
        let c := setStream c s.id fun s => (pollStream s).getD s
        streamMaybeFree { c with evCursor := (i + 1) % c.streams.length } s.id

/-- `proven_quic_stream_open`: none when it cannot be opened now. -/
def streamOpen (c : QuicConn) (k : StreamKind) : Option (QuicConn × Nat) :=
  if !appReady c then none
  else if c.peerMaxStreams k ≤ c.localOpened k then none
  else
    let id := 4 * c.localOpened k + (if k = .uni then 2 else 0) + (if c.server then 1 else 0)
    some ({ c with
      streams := c.streams ++ [streamNew c id]
      localOpened := Function.update c.localOpened k (c.localOpened k + 1) }, id)

/-- `proven_quic_stream_write`: the bytes taken, none when it is refused. -/
def streamWrite (junk : Nat → Byte) (c : QuicConn) (id : Nat) (data : List Byte) (fin : Bool) :
    Option (QuicConn × List Byte) :=
  if !appReady c then none
  else
    match streamFind c id with
    | none => none
    | some s =>
      if !s.hasTx || s.txReset || s.tx.fin then none
      else
        let n := min data.length (txRoom c s)
        let c := setStream c id fun s =>
          let tx := if n = 0 then s.tx else sendqWrite junk s.tx (data.take n)
          { s with
            tx := { tx with fin := fin && n == data.length }
            txBlocked := s.txBlocked || decide (n < data.length) }
        some ({ c with sendBuffered := c.sendBuffered + n, txWritten := c.txWritten + n }, data.take n)

def streamRoom (c : QuicConn) (id : Nat) : QuicConn × Nat :=
  if !appReady c then (c, 0)
  else
    match streamFind c id with
    | none => (c, 0)
    | some s =>
      if !s.hasTx || s.txReset || s.tx.fin then (c, 0)
      else (setStream c id fun s => { s with txBlocked := true }, txRoom c s)

def readEnd (s : QStream) : QStream :=
  if s.rx.hasFinal && s.rx.read == s.rx.final then { s with rxFinRead := true, rxMaxOwed := false }
  else if 0 < recvqReady s.rx then { s with evReadable := true }
  else s

def readHand (c : QuicConn) (s : QStream) (cap : Nat) : QuicConn :=
  let rx := (recvqTake s.rx cap).1
  { setStream c s.id fun s => { s with rx := rx } with
    rxRanges := c.rxRanges - (s.rx.got.length - rx.got.length) }

def readTake (c : QuicConn) (s : QStream) (cap : Nat) : QuicConn :=
  let n := recvqTaken s.rx cap
  if n = 0 then readHand c s cap
  else rxCredit (readHand c s cap) (some { s with rx := (recvqTake s.rx cap).1 }) n

/-- `proven_quic_stream_read`: the bytes, and whether the stream ends with them; none when it is
refused. -/
def streamRead (c : QuicConn) (id cap : Nat) : Option (QuicConn × List Byte × Bool) :=
  match streamFind c id with
  | none => none
  | some s =>
    if !s.hasRx || s.rxReset then none
    else
      let rx := (recvqTake s.rx cap).1
      let c := setStream (readTake c s cap) id readEnd
      some (streamMaybeFree c id, (recvqTake s.rx cap).2, rx.hasFinal && rx.read == rx.final)

def streamReset (c : QuicConn) (id code : Nat) : QuicConn :=
  if !appReady c then c
  else
    match streamFind c id with
    | none => c
    | some s => streamTxReset c s code

def stopRead (c : QuicConn) (s : QStream) (code : Nat) : QuicConn :=
  { setStream c s.id fun s =>
      { s with
        rxStopped := true, rxStopCode := code, rxStopOwed := s.rxStopOwed || !s.rx.hasFinal
        rx := { recvqFree s.rx with read := s.rx.highest }
        rxFinRead := true, evReadable := false } with
    rxRanges := c.rxRanges - s.rx.got.length }

def streamStop (c : QuicConn) (id code : Nat) : QuicConn :=
  if !appReady c then c
  else
    match streamFind c id with
    | none => c
    | some s =>
      if !s.hasRx || s.rxStopped || s.rxReset || s.rxFinRead then c
      else streamMaybeFree (rxCredit (stopRead c s code) none (s.rx.highest - s.rx.read)) id

def capWindow (c : QuicConn) (n : Nat) : QuicConn :=
  let capped (window base : Nat) : Nat :=
    if n ≠ 0 ∧ n < window then n else max window (if n ≠ 0 ∧ n < base then n else base)
  { c with
    rxCap := n
    streams := c.streams.map fun s => { s with rxWindow := capped s.rxWindow c.cfg.streamWindow }
    rxConnWindow := capped c.rxConnWindow c.cfg.connWindow }

def setMaxStreams (c : QuicConn) (n : Nat) : QuicConn :=
  if c.cfg.maxStreamsBidi < n then c
  else
    let c := { c with grantBidi := n }
    if c.ourMaxStreams .bidi < c.peerClosed .bidi + n then
      { c with
        ourMaxStreams := Function.update c.ourMaxStreams .bidi (c.peerClosed .bidi + n)
        maxStreamsOwed := Function.update c.maxStreamsOwed .bidi true }
    else c

def qcMaxFrames : Nat := 8

/-- `QC_MAX_SENT`: records of packets a space keeps. -/
def qcMaxSent : Nat := 8192

abbrev Packing := QuicConn × List FrameRec

def controlRec (kind : FrameKind) (id value : Nat) : FrameRec :=
  { kind := kind, fin := false, len := 0, id := id, off := 0, value := value }

/-- `put_rec`: the packet has room for the frame and for one more record. -/
def putRec (fits : FrameRec → Bool) (frames : List FrameRec) (f : FrameRec) : Bool :=
  decide (frames.length < qcMaxFrames) && fits f

def putMaxData (fits : FrameRec → Bool) (pk : Packing) : Packing :=
  let f := controlRec .maxData 0 pk.1.rxMaxData
  if pk.1.maxDataOwed && putRec fits pk.2 f then ({ pk.1 with maxDataOwed := false }, pk.2 ++ [f]) else pk

def putMaxStreams (fits : FrameRec → Bool) (k : StreamKind) (pk : Packing) : Packing :=
  let f := controlRec (.maxStreams k) 0 (pk.1.ourMaxStreams k)
  if pk.1.maxStreamsOwed k && putRec fits pk.2 f then
    ({ pk.1 with maxStreamsOwed := Function.update pk.1.maxStreamsOwed k false }, pk.2 ++ [f])
  else pk

structure Owing where
  owed : QStream → Bool
  frame : QStream → FrameRec
  clear : QStream → QStream

def resetOwing : Owing :=
  { owed := fun s => s.txResetOwed
    frame := fun s => controlRec .reset s.id s.txResetFinal
    clear := fun s => { s with txResetOwed := false } }

def stopOwing : Owing :=
  { owed := fun s => s.rxStopOwed
    frame := fun s => controlRec .stop s.id s.rxStopCode
    clear := fun s => { s with rxStopOwed := false } }

def maxOwing : Owing :=
  { owed := fun s => s.rxMaxOwed
    frame := fun s => controlRec .maxStreamData s.id s.rxMax
    clear := fun s => { s with rxMaxOwed := false } }

def putOwing (fits : FrameRec → Bool) (o : Owing) (id : Nat) (pk : Packing) : Packing :=
  match streamFind pk.1 id with
  | none => pk
  | some s =>
    if o.owed s && putRec fits pk.2 (o.frame s) then (setStream pk.1 id o.clear, pk.2 ++ [o.frame s]) else pk

def putStreamControl (fits : FrameRec → Bool) (pk : Packing) (id : Nat) : Packing :=
  putOwing fits maxOwing id (putOwing fits stopOwing id (putOwing fits resetOwing id pk))

/-- `put_control`, each frame with its latest value; what other frames leave room for is a matter
of `fits`. -/
def putControl (fits : FrameRec → Bool) (pk : Packing) : Packing :=
  let pk := putMaxStreams fits .uni (putMaxStreams fits .bidi (putMaxData fits pk))
  (pk.1.streams.map QStream.id).foldl (putStreamControl fits) pk

def cryptoPut (c : QuicConn) (lvl : Level) (piece : Piece) : QuicConn :=
  setSpace c lvl fun sp => { sp with cryptoTx := sendqSent sp.cryptoTx piece.off piece.len false }

def cryptoRec (piece : Piece) : FrameRec :=
  { kind := .crypto, fin := false, len := piece.len, id := 0, off := piece.off, value := 0 }

/-- `put_crypto`: a piece for each room the packet still has. -/
def putCrypto (lvl : Level) : List Nat → Packing → Packing
  | [], pk => pk
  | room :: rooms, pk =>
    if qcMaxFrames ≤ pk.2.length then pk
    else
      match sendqNext (pk.1.sp lvl).cryptoTx room ((pk.1.sp lvl).cryptoTx.end_) with
      | none => pk
      | some piece =>
        if piece.len = 0 then pk
        else putCrypto lvl rooms (cryptoPut pk.1 lvl piece, pk.2 ++ [cryptoRec piece])

/-- The limit `put_streams` sends new bytes of a stream up to; the connection's part is an
unsigned difference. -/
def streamSendLimit (c : QuicConn) (s : QStream) : Nat :=
  let connLeft := (((c.txMaxData : Int) - c.txData) % 2 ^ 64).toNat
  min s.txMax ((s.tx.next + connLeft) % 2 ^ 64)

def streamRec (s : QStream) (piece : Piece) : FrameRec :=
  { kind := .stream, fin := piece.fin, len := piece.len, id := s.id, off := piece.off, value := 0 }

/-- What `put_streams` does for one piece of a stream: new bytes are counted, sent again they
are not. -/
def putPiece (c : QuicConn) (s : QStream) (piece : Piece) : QuicConn :=
  let fresh := piece.fresh && decide (s.tx.next < piece.off + piece.len)
  let c := { c with txData := if fresh then c.txData + (piece.off + piece.len - s.tx.next) else c.txData }
  setStream c s.id fun s => { s with tx := sendqSent s.tx piece.off piece.len piece.fin }

def cursorTo (c : QuicConn) (i : Nat) : QuicConn := { c with cursor := i }

/-- `put_streams`: one frame each in turn, from the stream `k` after the cursor on, for each room
the packet has as it is filled. -/
def putStreams : List Nat → Nat → Packing → Packing
  | [], _, pk => pk
  | room :: rooms, k, pk =>
    let n := pk.1.streams.length
    if n ≤ k ∨ qcMaxFrames ≤ pk.2.length then pk
    else
      match pk.1.streams[(pk.1.cursor + k) % n]? with
      | none => pk
      | some s =>
        if !s.hasTx || s.txReset then putStreams rooms (k + 1) pk
        else
          match sendqNext s.tx room (streamSendLimit pk.1 s) with
          | none => putStreams rooms (k + 1) pk
          | some piece =>
            putStreams rooms 0
              (cursorTo (putPiece pk.1 s piece) ((pk.1.cursor + k + 1) % n), pk.2 ++ [streamRec s piece])

/-- How a packet is filled: what control frames have room, the room each piece of CRYPTO data and
each stream is given, whether the packet carries other frames that are recorded, and padding. -/
structure Filling where
  fits : FrameRec → Bool
  cryptoRooms : List Nat
  streamRooms : List Nat
  other : Bool
  padded : Bool

def zeroRtt (c : QuicConn) (lvl : Level) : Bool := lvl == .application && !c.server && c.state == .handshake

def elicitingOk (c : QuicConn) (lvl : Level) : Bool :=
  decide (0 < (c.sp lvl).probes) || decide ((c.sp lvl).sent.length < qcMaxSent)

def packCrypto (c : QuicConn) (lvl : Level) (fill : Filling) : Packing :=
  if zeroRtt c lvl then (c, []) else putCrypto lvl fill.cryptoRooms (c, [])

def buildPacket (c : QuicConn) (lvl : Level) (fill : Filling) : Packing :=
  if !elicitingOk c lvl then (c, [])
  else if lvl == .application && appReady c then
    putStreams fill.streamRooms 0 (putControl fill.fits (packCrypto c lvl fill))
  else packCrypto c lvl fill

/-- `seal`: the packet's number is used and its record kept, when there is room for it. -/
def sealPacket (lvl : Level) (fill : Filling) (pk : Packing) : QuicConn :=
  let eliciting := !pk.2.isEmpty || fill.other
  setSpace pk.1 lvl fun sp =>
    let sp' := { sp with nextPn := sp.nextPn + 1 }
    if (eliciting || fill.padded) ∧ sp.sent.length < qcMaxSent then
      { sp' with
        sent := sp.sent ++ [{ pn := sp.nextPn, zeroRtt := zeroRtt pk.1 lvl, frames := pk.2 }]
        probes := if eliciting then sp.probes - 1 else sp.probes }
    else sp'

/-- `proven_quic_conn_send`, one packet. -/
def sendPacket (c : QuicConn) (lvl : Level) (fill : Filling) : QuicConn × List FrameRec :=
  if !c.state.live || (c.sp lvl).discarded then (c, [])
  else (sealPacket lvl fill (buildPacket c lvl fill), (buildPacket c lvl fill).2)

/-- What happens to a connection. Which packets are lost, what a packet holds beside the streams'
frames, time and congestion control are not this model's: they are the step's to say. -/
inductive ConnStep where
  | frame (junk : Nat → Byte) (f : Frame)
  | ack (lvl : Level) (largest : Nat) (ranges : List (Nat × Nat))
  | lost (lvl : Level) (which : Nat → Bool)
  | probe (lvl : Level)
  | retry
  | discard (lvl : Level)
  | tls (junk : Nat → Byte) (news : TlsNews)
  | refuse (error : TransportError)
  | drain
  | expire
  | open_ (k : StreamKind)
  | write (junk : Nat → Byte) (id : Nat) (data : List Byte) (fin : Bool)
  | room (id : Nat)
  | read (id cap : Nat)
  | reset (id code : Nat)
  | stop (id code : Nat)
  | close (code : Nat)
  | poll
  | capWindow (n : Nat)
  | setMaxStreams (n : Nat)
  | packet (lvl : Level) (fill : Filling)
  | elsewhere (now cwnd srtt : Nat) (haveRtt : Bool) (events : Nat)

inductive Seen where
  | took (f : Frame)
  | refused (error : TransportError)
  | limits (tp : PeerParams)
  | wrote (id : Nat) (bytes : List Byte)
  | read (id : Nat) (bytes : List Byte) (fin : Bool)
  | sent (lvl : Level) (f : FrameRec)

def readFrame (junk : Nat → Byte) (c : QuicConn) (f : Frame) : QuicConn × List Seen :=
  if !c.state.live then (c, [])
  else
    match onFrame junk c f with
    | (c, none) => (c, [.took f])
    | (c, some error) => (connFail c error, [.refused error])

def readAck (lvl : Level) (c : QuicConn) (largest : Nat) (ranges : List (Nat × Nat)) : QuicConn × List Seen :=
  if !c.state.live || (c.sp lvl).discarded then (c, [])
  else
    match onAck lvl c largest ranges with
    | (c, none) => (c, [])
    | (c, some error) => (connFail c error, [.refused error])

def paramsLimits (c : QuicConn) (news : TlsNews) : List Seen :=
  match news.params with
  | some (tp, checks) => if !c.havePeerTp && checks.idsOk && checks.versionOk then [.limits tp] else []
  | none => []

def rememberedLimits (c : QuicConn) (news : TlsNews) : List Seen :=
  match news.earlySecret with
  | some (some tp) => if c.zrOk || c.zrDone || c.server then [] else [.limits tp]
  | _ => []

def newLimits (c : QuicConn) (news : TlsNews) : List Seen :=
  if news.alert.isSome then []
  else
    paramsLimits c news ++
      if (paramsAfter c news).state.live then rememberedLimits c news else []

def tlsStep (junk : Nat → Byte) (c : QuicConn) (news : TlsNews) : QuicConn × List Seen :=
  if c.state.live then (tlsAfter junk c news, newLimits c news) else (c, [])

def discardStep (lvl : Level) (c : QuicConn) : QuicConn := if lvl = .application then c else spaceDiscard lvl c

/-- `conn_drain`: the peer closed the connection. -/
def drainStep (c : QuicConn) : QuicConn :=
  if c.state.live || c.state == .closing then { c with state := .draining } else c

def openStep (c : QuicConn) (k : StreamKind) : QuicConn :=
  match streamOpen c k with
  | none => c
  | some (c, _) => c

def writeStep (junk : Nat → Byte) (c : QuicConn) (id : Nat) (data : List Byte) (fin : Bool) : QuicConn × List Seen :=
  match streamWrite junk c id data fin with
  | none => (c, [])
  | some (c, bytes) => (c, [.wrote id bytes])

def readStep (c : QuicConn) (id cap : Nat) : QuicConn × List Seen :=
  match streamRead c id cap with
  | none => (c, [])
  | some (c, bytes, fin) => (c, [.read id bytes fin])

def packetStep (c : QuicConn) (lvl : Level) (fill : Filling) : QuicConn × List Seen :=
  ((sendPacket c lvl fill).1, (sendPacket c lvl fill).2.map (.sent lvl))

def connStep (c : QuicConn) : ConnStep → QuicConn × List Seen
  | .frame junk f => readFrame junk c f
  | .ack lvl largest ranges => readAck lvl c largest ranges
  | .lost lvl which => (detectLost lvl c which, [])
  | .probe lvl => (onProbe lvl c, [])
  | .retry => (onRetry c, [])
  | .discard lvl => (discardStep lvl c, [])
  | .tls junk news => tlsStep junk c news
  | .refuse error => (connFail c error, [])
  | .drain => (drainStep c, [])
  | .expire => ({ c with state := .closed }, [])
  | .open_ k => (openStep c k, [])
  | .write junk id data fin => writeStep junk c id data fin
  | .room id => ((streamRoom c id).1, [])
  | .read id cap => readStep c id cap
  | .reset id code => (streamReset c id code, [])
  | .stop id code => (streamStop c id code, [])
  | .close code => (connFail c (.code code), [])
  | .poll => (connPoll c, [])
  | .capWindow n => (capWindow c n, [])
  | .setMaxStreams n => (setMaxStreams c n, [])
  | .packet lvl fill => packetStep c lvl fill
  | .elsewhere now cwnd srtt haveRtt events =>
    ({ c with now := now, cwnd := cwnd, srtt := srtt, haveRtt := haveRtt, evN := events }, [])

structure World where
  conn : QuicConn
  seen : List Seen

def worldStep (w : World) (step : ConnStep) : World :=
  { conn := (connStep w.conn step).1, seen := w.seen ++ (connStep w.conn step).2 }

def worldNew (cfg : QuicConfig) (server : Bool) (now cwnd : Nat) : World :=
  { conn := connNew cfg server now cwnd, seen := [] }

def smallConfig : QuicConfig :=
  { maxStreamsBidi := 2, maxStreamsUni := 2, streamsBidiNow := 0, streamWindow := 16, streamWindowMax := 0
    connWindow := 32, connWindowMax := 0, streamSendBuffer := 16, connSendBuffer := 16 }

def worldRun (w : World) (steps : List ConnStep) : World := run worldStep w steps

end ProvenC.Quic.Calls
