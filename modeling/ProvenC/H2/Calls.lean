import ProvenC.H2.Reader

/-!
# The calls of a connection

What a caller can do: make a connection, feed it, take its output, send, credit what was read, reset,
change what this side says.
-/

namespace ProvenC.H2.Calls

open Bytes H2.Frame H2.Head H2.Conn H2.Reader Lib.Slots
open Hpack.Table Hpack.Decoder Hpack.Encoder

/-- `proven_h2_config_t`; 0 takes the default. -/
structure H2Config where
  server : Bool
  maxConcurrentStreams : Nat
  initialWindow : Nat
  maxFrameSize : Nat
  maxHeaderListBytes : Nat
  headerTableBytes : Option Nat
  maxBufferedOutput : Nat
  maxResetDebt : Nat
  enableConnectProtocol : Bool

def orDefault (value default : Nat) : Nat := if value = 0 then default else value

def configOk (streams window frame list table bound : Nat) : Bool :=
  streams ≤ 2 ^ 20 ∧ window ≤ h2MaxWindow ∧ h2MinMaxFrameSize ≤ frame ∧ frame ≤ h2cMaxFrame ∧
    64 ≤ list ∧ list ≤ h2cMaxList ∧ table ≤ 2 ^ 30 ∧ 1024 ≤ bound ∧ bound ≤ 2 ^ 30

/-- This side's first settings: only those that differ from the protocol's defaults, and for a
client the one that forbids push. -/
def openingSettings (server connectProtocol : Bool) (streams window frame list table : Nat) : List H2Setting :=
  (if table ≠ hpackDefaultTableBytes then [⟨h2SettingsHeaderTableSize, table⟩] else []) ++
    (if server then [] else [⟨h2SettingsEnablePush, 0⟩]) ++
    [⟨h2SettingsMaxConcurrentStreams, streams⟩] ++
    (if window ≠ h2DefaultWindow then [⟨h2SettingsInitialWindowSize, window⟩] else []) ++
    (if frame ≠ h2MinMaxFrameSize then [⟨h2SettingsMaxFrameSize, frame⟩] else []) ++
    [⟨h2SettingsMaxHeaderListSize, list⟩] ++
    (if connectProtocol then [⟨h2SettingsEnableConnectProtocol, 1⟩] else [])

def h2ConnCreate (config : H2Config) : Option H2Conn :=
  let streams := orDefault config.maxConcurrentStreams 100
  let window := orDefault config.initialWindow h2DefaultWindow
  let frame := orDefault config.maxFrameSize h2MinMaxFrameSize
  let list := orDefault config.maxHeaderListBytes 16384
  let table := config.headerTableBytes.getD hpackDefaultTableBytes
  let bound := orDefault config.maxBufferedOutput 65536
  let connectProtocol := config.server && config.enableConnectProtocol
  if !configOk streams window frame list table bound then none
  else
    let opening := (if config.server then [] else h2Preface) ++
      h2WriteSettings (openingSettings config.server connectProtocol streams window frame list table)
    -- The connection's own window is not a setting: it is raised by an update.
    let raised := decide (h2DefaultWindow < window)
    some {
      wire := { out := opening ++ (if raised then
                  h2PutHeader 4 h2WindowUpdate 0 0 ++ h2PutU32 (window - h2DefaultWindow) else [])
                ctlQueued := 0, cfgOut := bound, goawaySent := false, closed := false, oom := false
                reported := false, closeCode := 0 }
      ev := { kind := .none }
      server := config.server, connectProtocol := connectProtocol
      cfgStreams := streams, cfgWindow := window, cfgFrame := frame, cfgList := list, cfgTable := table
      cfgDebt := orDefault config.maxResetDebt 100
      peerStreams := 0xffffffff, peerWindow := h2DefaultWindow, peerFrame := h2MinMaxFrameSize
      peerList := 0xffffffff, peerTable := hpackDefaultTableBytes, peerTableSet := false
      peerConnectProtocol := false
      dec := none, enc := none, streams := [], ring := [], ringPos := 0, blk := [], text := []
      sensitive := none
      sendWin := h2DefaultWindow
      recvWin := if raised then window else h2DefaultWindow
      recvUnacked := 0
      recvTarget := if raised then window else h2DefaultWindow
      localWindow := h2DefaultWindow, advWindow := window, wantWindow := window
      nextId := 1, lastPeerId := 0, lastActed := 0, goawayLast := 0, goawayCode := 0
      debt := 0, emptyRun := 0
      advStreams := streams, ackedStreams := streams, wantStreams := streams, chgInflight := false
      rs := if config.server then .preface else .hdr
      small := [], smallNeed := 0, capWindow := 0
      f := { length := 0, type := 0, flags := 0, streamId := 0 }
      contentLeft := 0, padLeft := 0, settingsLeft := 0, cur := 0, expectCont := 0
      fin := false, drop := false, endHeaders := false, gotSettings := false, settingsAcked := false
      goawayRecv := false, selfDep := false, sweepGoaway := false, sweepWritable := false
      headsFree := false, sweepAt := 0
      growStreamKib := 0, growConnKib := 0, growMark := 0, growNow := false, clock := [] }

def h2cCanWrite (c : H2Conn) (s : H2Stream) : Bool :=
  if c.wire.cfgOut ≤ h2cPending c then false
  else s.hblocked || (s.blocked && decide (0 < s.sendWin) && decide (0 < c.sendWin))

/-- The first stream that may send again, from place `sweepAt` on and round. -/
def writableFrom (c : H2Conn) : Nat → Nat → Option (Nat × H2Stream)
  | _, 0 => none
  | k, left + 1 =>
    let i := (c.sweepAt + k) % c.streamCount
    match c.streams[i]? with
    | none => none
    | some s => if h2cCanWrite c s then some (i, s) else writableFrom c (k + 1) left

/-- `h2c_due`: an event that needs no input, or the end. True when there is one. -/
def h2cDue (c : H2Conn) : H2Conn × Bool :=
  if c.closed then (c, true)
  else
    match (if c.sweepGoaway && !c.server then c.streams.find? fun s => c.goawayLast < s.id else none) with
    | some s =>
      -- The peer said which streams it acted on: the others can be sent again elsewhere.
      let c := tell c { h2cEventStream .streamReset s.id with code := h2RefusedStream }
      (h2cRemove c s.id false (some .peer), true)
    | none =>
      let c := { c with sweepGoaway := false }
      match (if c.sweepWritable then writableFrom c 0 c.streamCount else none) with
      | some (i, s) =>
        let c := setStream c s.id fun s => { s with blocked := false, hblocked := false }
        (tell { c with sweepAt := i + 1 } (h2cEventStream .streamWritable s.id), true)
      | none =>
        let c := { c with sweepWritable := false }
        -- After a goodbye from either side, the end of the last stream is the end.
        if (c.goawayRecv || c.wire.goawaySent) && c.streams.isEmpty then
          ({ c with wire := { c.wire with
              closed := true, closeCode := if c.goawayRecv then c.goawayCode else h2NoError } }, true)
        else (c, false)

def feedTurns (c : H2Conn) (input : List Byte) : H2Conn × List Byte × Except ProvenErr Unit :=
  let (c, due) := h2cDue c
  if due then (c, input, .ok ())
  else
    match h2cRead c input with
    | (c, rest, .error e) => (c, rest, .error e)
    | (c, rest, .ok ()) =>
      if c.ev.kind = .none ∧ rest = [] then ((h2cDue c).1, rest, .ok ()) else (c, rest, .ok ())

/-- `proven_h2_conn_feed`: the event is the connection's, and the input not consumed is given. -/
def h2ConnFeed (c : H2Conn) (input : List Byte) : H2Conn × List Byte × Except ProvenErr Unit :=
  let c := tell c { kind := .none }
  if c.wire.reported then (c, input, .error .invalidState)
  else
    match feedTurns c input with
    | (c, rest, .error e) => (c, rest, .error e)
    | (c, rest, .ok ()) =>
      if c.closed then
        (tell { c with wire := { c.wire with reported := true } }
            { kind := .closed, code := c.wire.closeCode }, [],
          if c.wire.oom then .error .noMem else .ok ())
      else (c, rest, .ok ())

def h2ConnOutputSent (c : H2Conn) (n : Nat) : H2Conn :=
  if n = 0 then c
  else
    let n := min n (h2cPending c)
    { c with wire := { c.wire with out := c.wire.out.drop n, ctlQueued := c.wire.ctlQueued - n }
             sweepWritable := true }

def outRefused (c : H2Conn) : H2Conn := { c with wire := { c.wire with closeCode := h2InternalError } }

def h2ConnNextSensitive (c : H2Conn) (marks : Option (List Bool)) : H2Conn := { c with sensitive := marks }

def marked (headers : List Field) (marks : Option (List Bool)) : List (Field × Bool) :=
  headers.zipIdx.map fun (field, i) => (field, (marks.getD []).getD i false)

/-- The frames `n` bytes take, one where there are none. -/
def frameCount (frame n : Nat) : Nat := if n = 0 then 1 else (n + frame - 1) / frame

/-- A header block cut into HEADERS and CONTINUATION frames of at most `frame` bytes. -/
def blockFrames (frame id : Nat) (fin : Bool) : Nat → Bool → List Byte → List Byte
  | 0, _, _ => []
  | left + 1, first, block =>
    let piece := block.take frame
    let last := left = 0
    h2PutHeader piece.length (if first then h2Headers else h2Continuation)
        ((if first && fin then 1 else 0) + (if last then 4 else 0)) id ++ piece ++
      blockFrames frame id fin left false (block.drop frame)

def blockEncoder (c : H2Conn) : Except ProvenErr HpackEncoder :=
  match c.enc with
  | some enc => .ok enc
  | none => do
      let enc ← hpackEncoderCreate c.cfgTable
      .ok (if c.peerTableSet then hpackEncoderSetPeerTableBytes enc c.peerTable else enc)

/-- `h2c_send_block`: encode a header list and frame it. -/
def h2cSendBlock (c : H2Conn) (id : Nat) (headers : List Field) (endStream : Bool)
    (marks : Option (List Bool)) : H2Conn × Except ProvenErr (List Byte) :=
  let list := (headers.map fieldSize).sum
  if c.peerList < list then (c, .error .outOfBounds)
  else
    match blockEncoder c with
    | .error _ => (c, .error .noMem)
    | .ok enc =>
      let c := { c with enc := some enc }
      let fields := marked headers marks
      let bound := hpackEncodeBound fields
      let frame := c.peerFrame
      let room := bound + 9 * (bound / frame + 1)
      if Wire.outMax < c.wire.out.length + room then
        (outRefused c, .error .noMem)
      else
        match hpackEncode enc fields (room - 9) with
        | .error _ => (c, .error .invalidArg)
        | .ok (block, enc) =>
          let bytes := blockFrames frame id endStream (frameCount frame block.length) true block
          ({ c with enc := some enc, wire := { c.wire with out := c.wire.out ++ bytes } }, .ok block)

def h2cTakeSensitive (c : H2Conn) : Option (List Bool) × H2Conn :=
  (c.sensitive, { c with sensitive := none })

/-- The request has left on the stream `nextId`. -/
def requestSent (c : H2Conn) (endStream isHead : Bool) : H2Conn :=
  let sent := setStream c c.nextId fun s =>
    { s with headSent := true, localEnd := endStream, noBody := isHead }
  { sent with nextId := c.nextId + 2 }

/-- `proven_h2_conn_submit_request`: the new stream's number. -/
def h2ConnSubmitRequest (c : H2Conn) (headers : List Field) (endStream : Bool) : H2Conn × Except ProvenErr Nat :=
  let (marks, c) := h2cTakeSensitive c
  if c.server ∨ h2RequestHead headers = none then (c, .error .invalidArg)
  else if c.closed ∨ c.goawayRecv ∨ c.wire.goawaySent ∨ h2MaxWindow < c.nextId then (c, .error .invalidState)
  else if c.wantStreams ≤ c.streamCount ∨ c.peerStreams ≤ c.streamCount ∨ c.wire.cfgOut ≤ h2cPending c then
    (c, .error .busy)
  else
    match h2cAdd c c.nextId with
    | none => (c, .error .noMem)
    | some c =>
      match h2cSendBlock c c.nextId headers endStream marks with
      | (c, .error e) => (h2cRemove c c.nextId false none, .error e)
      | (c, .ok _) =>
        (requestSent c endStream (h2cMethodIsHead headers), .ok c.nextId)

def h2ConnSubmitResponse (c : H2Conn) (id : Nat) (headers : List Field) (endStream : Bool) :
    H2Conn × Except ProvenErr Unit :=
  let (marks, c) := h2cTakeSensitive c
  match h2ResponseHead headers with
  | none => (c, .error .invalidArg)
  | some (status, _) =>
    if !c.server ∨ status = 101 ∨ (status < 200 ∧ endStream) then (c, .error .invalidArg)
    else if c.closed then (c, .error .invalidState)
    else
      match h2cFind c id with
      | none => (c, .error .notFound)
      | some s =>
        if s.headSent then (c, .error .invalidState)
        else if !c.headsFree ∧ c.wire.cfgOut ≤ h2cPending c then
          (setStream c id fun s => { s with hblocked := true }, .error .busy)
        else
          match h2cSendBlock c id headers endStream marks with
          | (c, .error e) => (c, .error e)
          | (c, .ok _) =>
            let c := setStream c id fun s =>
              { s with headSent := s.headSent || decide (200 ≤ status)
                       tunnel := s.tunnel && decide (status ≤ 299) }
            (if endStream then h2cLocalEnd c id else c, .ok ())

/-- What of `n` bytes the windows and the output bound let go. -/
def sendTake (c : H2Conn) (s : H2Stream) (n : Nat) : Nat :=
  let windows := if s.sendWin ≤ 0 ∨ c.sendWin ≤ 0 then 0 else min (min n s.sendWin.toNat) c.sendWin.toNat
  min windows (c.wire.cfgOut - h2cPending c)

/-- DATA frames of at most `frame` bytes. -/
def dataFrames (frame id : Nat) (fin : Bool) : Nat → List Byte → List Byte
  | 0, _ => []
  | left + 1, bytes =>
    let piece := bytes.take frame
    h2PutHeader piece.length h2Data (if left = 0 ∧ fin then 1 else 0) id ++ piece ++
      dataFrames frame id fin left (bytes.drop frame)

def sendFrames (c : H2Conn) (id take : Nat) (frames : List Byte) : H2Conn :=
  let charged := setStream c id fun s => { s with sendWin := s.sendWin - take }
  { charged with sendWin := c.sendWin - take, wire := { c.wire with out := c.wire.out ++ frames } }

def afterSend (c : H2Conn) (id : Nat) (all endStream : Bool) : H2Conn :=
  if !all then setStream c id fun s => { s with blocked := true }
  else if endStream then h2cLocalEnd c id
  else c

/-- `proven_h2_conn_send_data`: how much was taken. -/
def h2ConnSendData (c : H2Conn) (id : Nat) (data : List Byte) (endStream : Bool) : H2Conn × Except ProvenErr Nat :=
  if c.closed then (c, .error .invalidState)
  else
    match h2cFind c id with
    | none => (c, .error .notFound)
    | some s =>
      if !s.headSent ∨ s.localEnd then (c, .error .invalidState)
      else
        let take := sendTake c s data.length
        let all := decide (take = data.length)
        let frame := c.peerFrame
        let frames := frameCount frame take
        if 0 < take ∨ (all ∧ endStream) then
          if Wire.outMax < c.wire.out.length + take + 9 * frames then (outRefused c, .error .noMem)
          else
            let bytes := dataFrames frame id (all && endStream) frames (data.take take)
            (afterSend (sendFrames c id take bytes) id all endStream, .ok take)
        else (afterSend c id all endStream, .ok take)

def h2ConnSendTrailers (c : H2Conn) (id : Nat) (headers : List Field) : H2Conn × Except ProvenErr Unit :=
  let (marks, c) := h2cTakeSensitive c
  if h2TrailersCheck headers = false then (c, .error .invalidArg)
  else if c.closed then (c, .error .invalidState)
  else
    match h2cFind c id with
    | none => (c, .error .notFound)
    | some s =>
      if !s.headSent ∨ s.localEnd then (c, .error .invalidState)
      else if c.wire.cfgOut ≤ h2cPending c then
        (setStream c id fun s => { s with hblocked := true }, .error .busy)
      else
        match h2cSendBlock c id headers true marks with
        | (c, .error e) => (c, .error e)
        | (c, .ok _) => (h2cLocalEnd c id, .ok ())

def h2ConnReset (c : H2Conn) (id code : Nat) : H2Conn × Except ProvenErr Unit :=
  match (if c.closed then none else h2cFind c id) with
  | none => (c, .error .notFound)
  | some s =>
    let how := if s.remoteEnd then RingHow.done else RingHow.ours
    (h2cRemove (h2cQRst c id code false) id false (some how), .ok ())

def h2ConnConsumed (c : H2Conn) (id n : Nat) : H2Conn :=
  if c.closed then c
  else
    match h2cFind c id with
    | none => c
    | some s =>
      let n := min n s.held
      let c := setStream c id fun s => { s with held := s.held - n }
      h2cConnCredit (h2cStreamCredit c id n) n

def h2ConnPing (c : H2Conn) (bytes : List Byte) : H2Conn × Except ProvenErr Unit :=
  if c.closed then (c, .error .invalidState)
  else
    let frame := h2PutHeader 8 h2Ping 0 0 ++ bytes
    if Wire.outMax < c.wire.out.length + frame.length then
      (outRefused c, .error .noMem)
    else ({ c with wire := { c.wire with out := c.wire.out ++ frame } }, .ok ())

def h2ConnShutdown (c : H2Conn) (code : Nat) : H2Conn :=
  if c.closed then c
  else if code ≠ h2NoError then h2cFail c code
  else if c.wire.goawaySent then c
  else { c with wire := c.wire.goaway c.lastActed h2NoError }

/-- `h2c_set`: refused after a goodbye; while a change is in flight, kept for when it is
acknowledged. -/
def h2cSet (c : H2Conn) (streams window : Nat) : H2Conn × Except ProvenErr Unit :=
  if c.closed ∨ c.wire.goawaySent then (c, .error .invalidState)
  else
    let asked := { c with wantStreams := streams, wantWindow := window }
    if c.chgInflight then (asked, .ok ())
    else
      match h2cSettingsChange asked with
      | (asked, true) => (asked, .ok ())
      | (_, false) => (outRefused c, .error .noMem)

def h2ConnSetMaxStreams (c : H2Conn) (n : Nat) : H2Conn × Except ProvenErr Unit :=
  if c.cfgStreams < n then (c, .error .invalidArg) else h2cSet c n c.wantWindow

def h2ConnSetInitialWindow (c : H2Conn) (n : Nat) : H2Conn × Except ProvenErr Unit :=
  if c.cfgWindow < n then (c, .error .invalidArg) else h2cSet c c.wantStreams n

/-- `proven_h2_conn_grow_`: windows that grow while they are read, with the readings of the
clock there will be. -/
def h2ConnGrow (c : H2Conn) (streamKib connKib : Nat) (clock : List Nat) : H2Conn :=
  if c.settingsAcked then c
  else
    let (mark, c) := growRead { c with
      growStreamKib := streamKib % 2 ^ 16, growConnKib := connKib % 2 ^ 16, growNow := true, clock := clock }
    { c with growMark := mark }

/-- The initial window under a ceiling of `n`, 0 for none. -/
def cappedInitial (c : H2Conn) (n : Nat) : Nat := if n ≠ 0 ∧ n < c.cfgWindow then n else c.cfgWindow

/-- `proven_h2_conn_cap_window_`: a ceiling on credit from now on, 0 for none. -/
def h2ConnCapWindow (c : H2Conn) (n : Nat) : H2Conn :=
  if c.closed then c
  else
    let c := { c with capWindow := n }
    if cappedInitial c n ≠ c.wantWindow then (h2cSet c c.wantStreams (cappedInitial c n)).1 else c

def h2ConnHeadsPastBound (c : H2Conn) : H2Conn := { c with headsFree := true }

inductive Call where
  | feed (input : List Byte)
  | outputSent (n : Nat)
  | nextSensitive (marks : Option (List Bool))
  | submitRequest (headers : List Field) (endStream : Bool)
  | submitResponse (id : Nat) (headers : List Field) (endStream : Bool)
  | sendData (id : Nat) (data : List Byte) (endStream : Bool)
  | sendTrailers (id : Nat) (headers : List Field)
  | reset (id code : Nat)
  | consumed (id n : Nat)
  | ping (bytes : List Byte)
  | shutdown (code : Nat)
  | setMaxStreams (n : Nat)
  | setInitialWindow (n : Nat)
  | grow (streamKib connKib : Nat) (clock : List Nat)
  | capWindow (n : Nat)
  | headsPastBound
  deriving DecidableEq, Repr

def call (c : H2Conn) : Call → H2Conn
  | .feed input => (h2ConnFeed c input).1
  | .outputSent n => h2ConnOutputSent c n
  | .nextSensitive marks => h2ConnNextSensitive c marks
  | .submitRequest headers endStream => (h2ConnSubmitRequest c headers endStream).1
  | .submitResponse id headers endStream => (h2ConnSubmitResponse c id headers endStream).1
  | .sendData id data endStream => (h2ConnSendData c id data endStream).1
  | .sendTrailers id headers => (h2ConnSendTrailers c id headers).1
  | .reset id code => (h2ConnReset c id code).1
  | .consumed id n => h2ConnConsumed c id n
  | .ping bytes => (h2ConnPing c bytes).1
  | .shutdown code => h2ConnShutdown c code
  | .setMaxStreams n => (h2ConnSetMaxStreams c n).1
  | .setInitialWindow n => (h2ConnSetInitialWindow c n).1
  | .grow streamKib connKib clock => h2ConnGrow c streamKib connKib clock
  | .capWindow n => h2ConnCapWindow c n
  | .headsPastBound => h2ConnHeadsPastBound c

def run (c : H2Conn) (calls : List Call) : H2Conn := calls.foldl call c

theorem run_keeps {P : H2Conn → Prop} (calls : List Call)
    (step : ∀ c next, next ∈ calls → P c → P (call c next)) {c : H2Conn} (start : P c) : P (run c calls) := by
  induction calls generalizing c with
  | nil => exact start
  | cons next calls ih =>
    exact ih (fun c later among => step c later (List.mem_cons_of_mem _ among))
      (step c next List.mem_cons_self start)

def RunMeets (meets : H2Conn → Call → Prop) : H2Conn → List Call → Prop
  | _, [] => True
  | c, next :: calls => meets c next ∧ RunMeets meets (call c next) calls

theorem run_meets_keeps {P : H2Conn → Prop} {meets : H2Conn → Call → Prop}
    (step : ∀ c next, meets c next → P c → P (call c next)) (calls : List Call) {c : H2Conn}
    (all : RunMeets meets c calls) (start : P c) : P (run c calls) := by
  induction calls generalizing c with
  | nil => exact start
  | cons next calls ih => exact ih all.2 (step c next all.1 start)

end ProvenC.H2.Calls
