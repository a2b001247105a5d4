import ProvenC.H2.Conn

/-!
# Reading what the peer sends

A frame header, its fixed part, its content piece by piece, a header block when it is whole.
-/

namespace ProvenC.H2.Reader

open Bytes H2.Frame H2.Head H2.Conn Lib.Slots
open Hpack.Table Hpack.Decoder Hpack.Encoder

def h2cFieldCap (list : Nat) : Nat := list / 32 + 1

/-- The room `h2c_on_block` decodes into. -/
def blockCapacity (c : H2Conn) : Capacity :=
  { headerCap := h2cFieldCap c.cfgList, scratch := c.cfgList * 4, maxList := c.cfgList }

def blockDecoder (c : H2Conn) : HpackDecoder :=
  match c.dec with
  | some d => d
  | none =>
    let d := { table := ⟨[], hpackDefaultTableBytes⟩, limit := hpackDefaultTableBytes
               updateOwed := false, failed := false }
    if c.settingsAcked then hpackDecoderSetMaxTableBytes d c.cfgTable else d

/-- The request a list makes and the body length it announces; `fields` is `none` for a list that
was too large. -/
def requestOf (c : H2Conn) (fields : Option (List Field)) : Option (RequestHead × Option Nat) := do
  let head ← fields.bind h2RequestHead
  -- An extended CONNECT this side never offered.
  if !head.protocol.isEmpty && !c.connectProtocol then none
  else
    let length ← h2cContentLength head.fields none
    if c.fin && length.any (· ≠ 0) then none else some (head, length)

def openRequest (c : H2Conn) (id : Nat) (head : RequestHead) (length : Option Nat) : H2Conn :=
  match h2cAdd c id with
  | none => h2cFallOver c
  | some opened =>
    let marked := setStream opened id fun s =>
      { s with expect := length, remoteEnd := c.fin, tunnel := !head.protocol.isEmpty }
    tell { marked with lastActed := id }
      { h2cEventStream .headers id with endStream := c.fin, request := some head }

def refuseRequest (c : H2Conn) (id : Nat) : H2Conn :=
  let refused := h2cQRst c id h2RefusedStream true
  if !c.fin then h2cRingAdd refused id .ours else refused

def onRequest (c : H2Conn) (id : Nat) (fields : Option (List Field)) : H2Conn :=
  let seen := { c with lastPeerId := id }
  if c.wire.goawaySent then refuseRequest seen id
  -- Until a change is acknowledged the peer may hold to the number before it: the larger holds.
  else if max c.ackedStreams c.advStreams ≤ c.streamCount then
    h2cStreamFault seen id h2RefusedStream (!c.fin)
  else
    match requestOf c fields with
    | none => h2cStreamFault seen id h2ProtocolError (!c.fin)
    | some (head, length) => openRequest seen id head length

def listFault (c : H2Conn) (id : Nat) (tooBig : Bool) : H2Conn :=
  let c := h2cStreamFault c id h2ProtocolError (!c.fin)
  tell c { c.ev with tooLarge := tooBig }

def tellResponse (c : H2Conn) (id status : Nat) (rest : List Field) : H2Conn :=
  let told := tell c { h2cEventStream .headers id with endStream := c.fin, status := status, fields := rest }
  if c.fin then h2cRemoteEnd told id else told

def onResponse (c : H2Conn) (s : H2Stream) (fields : Option (List Field)) : H2Conn :=
  match fields.bind h2ResponseHead with
  | none => listFault c s.id fields.isNone
  | some (status, rest) =>
    if status = 101 then listFault c s.id fields.isNone
    else if status < 200 then
      if c.fin then h2cStreamFault c s.id h2ProtocolError false else tellResponse c s.id status rest
    else
      match h2cContentLength rest none with
      | none => h2cStreamFault c s.id h2ProtocolError (!c.fin)
      | some length =>
        -- Responses that describe a body they do not carry.
        let length := if s.noBody ∨ status = 204 ∨ status = 304 then none else length
        tellResponse (setStream c s.id fun s => { s with expect := length, headRecv := true })
          s.id status rest

def onTrailers (c : H2Conn) (s : H2Stream) (fields : Option (List Field)) : H2Conn :=
  match fields with
  | none => listFault c s.id true
  | some list =>
    if !c.fin || !h2TrailersCheck list then listFault c s.id false
    else h2cRemoteEnd (tell c { h2cEventStream .trailers s.id with endStream := true, fields := list }) s.id

def onOpenList (c : H2Conn) (s : H2Stream) (fields : Option (List Field)) : H2Conn :=
  if c.selfDep then h2cStreamFault { c with selfDep := false } s.id h2ProtocolError (!c.fin)
  else if s.remoteEnd then h2cStreamFault c s.id h2StreamClosed false
  else if !c.server && !s.headRecv then onResponse c s fields
  else onTrailers c s fields

/-- A list for a stream that is not: a client is sent a block only on a stream it opened, a server
only on odd ones, each higher than every one before it. -/
def onNewList (c : H2Conn) (id : Nat) (fields : Option (List Field)) : H2Conn :=
  if !c.server || id % 2 == 0 then
    if !c.server && id % 2 == 1 && decide (id < c.nextId) then h2cClosedFrame c id h2StreamClosed
    else h2cFail c h2ProtocolError
  else if id ≤ c.lastPeerId then h2cClosedFrame c id h2ProtocolError
  else onRequest c id fields

def onList (c : H2Conn) (fields : Option (List Field)) : H2Conn :=
  match h2cFind c c.cur with
  | some s => onOpenList c s fields
  | none =>
    if c.selfDep && c.server && c.cur % 2 == 1 && decide (c.lastPeerId < c.cur) then
      h2cStreamFault { c with selfDep := false, lastPeerId := c.cur } c.cur h2ProtocolError (!c.fin)
    else onNewList { c with selfDep := false } c.cur fields

/-- `h2c_on_block`: a whole header block. -/
def h2cOnBlock (c : H2Conn) (block : List Byte) : H2Conn :=
  let decoded := hpackDecodeMarked (blockDecoder c) block (blockCapacity c)
  let c := { c with dec := some decoded.1 }
  match decoded.2 with
  | .ok out => onList c (some (out.map Prod.fst))
  | .error .outOfBounds => onList c none
  | .error _ => h2cFail c h2CompressionError

/-- Every open stream moves by the difference, below zero if need be, unless one would pass the
largest window: then those before it have moved. -/
def moveSendWindows (delta : Int) : List H2Stream → List H2Stream × Bool
  | [] => ([], true)
  | s :: rest =>
    let w := s.sendWin + delta
    if (h2MaxWindow : Int) < w then (s :: rest, false)
    else
      let (rest, ok) := moveSendWindows delta rest
      ({ s with sendWin := w } :: rest, ok)

def peerWindowSet (c : H2Conn) (value : Nat) : H2Conn :=
  let moved := moveSendWindows ((value : Int) - c.peerWindow) c.streams
  if moved.2 then
    { c with streams := moved.1, peerWindow := value
             sweepWritable := c.sweepWritable || decide (c.peerWindow < value) }
  else h2cFail { c with streams := moved.1 } h2FlowControlError

def peerConnectSet (c : H2Conn) (value : Nat) : H2Conn :=
  let said := { c with peerConnectProtocol := c.peerConnectProtocol || value == 1 }
  if c.peerConnectProtocol && value == 0 then h2cFail said h2ProtocolError else said

def h2cApplySetting (c : H2Conn) (st : H2Setting) : H2Conn :=
  match st.id with
  | h2SettingsHeaderTableSize =>
    { c with peerTable := st.value, peerTableSet := true
             enc := c.enc.map fun enc => hpackEncoderSetPeerTableBytes enc st.value }
  | h2SettingsEnablePush =>
    if !c.server && st.value != 0 then h2cFail c h2ProtocolError else c
  | h2SettingsMaxConcurrentStreams => { c with peerStreams := st.value }
  | h2SettingsInitialWindowSize => peerWindowSet c st.value
  | h2SettingsMaxFrameSize => { c with peerFrame := st.value }
  | h2SettingsMaxHeaderListSize => { c with peerList := st.value }
  | h2SettingsEnableConnectProtocol => peerConnectSet c st.value
  | _ => c

/-- `h2c_local_window`: every open stream's receive window moves with the initial one. -/
def h2cLocalWindow (c : H2Conn) (window : Nat) : H2Conn :=
  let delta : Int := window - c.localWindow
  { c with localWindow := window
           streams := c.streams.map fun s => { s with recvWin := s.recvWin + delta } }

/-- What of `want_` differs from what was last said. -/
def changedSettings (c : H2Conn) : List H2Setting :=
  (if c.wantStreams ≠ c.advStreams then [⟨h2SettingsMaxConcurrentStreams, c.wantStreams⟩] else []) ++
    (if c.wantWindow ≠ c.advWindow then [⟨h2SettingsInitialWindowSize, c.wantWindow⟩] else [])

def saySettings (c : H2Conn) : H2Conn :=
  let said := { c with
    wire := c.wire.push (h2WriteSettings (changedSettings c))
    advStreams := c.wantStreams, advWindow := c.wantWindow, chgInflight := true }
  if c.settingsAcked ∧ c.localWindow < c.wantWindow then h2cLocalWindow said c.wantWindow else said

/-- `h2c_settings_change`: false when there is no room for the frame. -/
def h2cSettingsChange (c : H2Conn) : H2Conn × Bool :=
  if changedSettings c = [] then (c, true)
  else if Wire.outMax < c.wire.out.length + (h2WriteSettings (changedSettings c)).length then
    (h2cFallOver c, false)
  else (saySettings c, true)

def changeAcked (c : H2Conn) : H2Conn :=
  let acked := { c with chgInflight := false, ackedStreams := c.advStreams }
  (h2cSettingsChange
    (if c.advWindow ≠ c.localWindow then h2cLocalWindow acked c.advWindow else acked)).1

def markRoundTrip (c : H2Conn) : H2Conn :=
  if c.growNow then
    { (growRead c).2 with growMark := max (since (growRead c).1 c.growMark) 1 }
  else c

def openingAcked (c : H2Conn) : H2Conn :=
  let timed := markRoundTrip { c with settingsAcked := true }
  h2cLocalWindow
    { timed with dec := timed.dec.map fun d => hpackDecoderSetMaxTableBytes d timed.cfgTable } c.cfgWindow

/-- `h2c_settings_acked`; an acknowledgement of nothing is ignored. -/
def h2cSettingsAcked (c : H2Conn) : H2Conn :=
  if c.settingsAcked then (if c.chgInflight then changeAcked c else c) else openingAcked c

def h2cToSkip (c : H2Conn) (n : Nat) : H2Conn := { c with rs := .skip, padLeft := n }

def h2cToFixed (c : H2Conn) (need : Nat) : H2Conn :=
  { c with rs := .fixed, small := [], smallNeed := need }

def h2cGoawayEvent (c : H2Conn) : H2Conn :=
  tell { c with goawayRecv := true, sweepGoaway := true }
    { kind := .goaway, code := c.goawayCode, lastStreamId := c.goawayLast, data := c.text }

def chargeData (c : H2Conn) (f : H2Frame) : H2Conn :=
  { c with recvWin := c.recvWin - f.length, rs := .data, contentLeft := f.length, padLeft := 0 }

def dropping (c : H2Conn) : H2Conn := { c with drop := true }

def onStreamData (c : H2Conn) (f : H2Frame) (s : H2Stream) : H2Conn :=
  if s.remoteEnd then h2cStreamFault (dropping c) s.id h2StreamClosed false
  else if !c.server && !s.headRecv then h2cStreamFault (dropping c) s.id h2ProtocolError true
  else if s.recvWin < (f.length : Int) then h2cStreamFault (dropping c) s.id h2FlowControlError true
  else
    let charged := setStream c s.id fun s => { s with recvWin := s.recvWin - f.length }
    if !f.padded then charged
    else if f.length = 0 then h2cFail charged h2ProtocolError
    else h2cToFixed charged 1

def onDataHeader (c : H2Conn) (f : H2Frame) : H2Conn :=
  let begun := { c with cur := f.streamId, fin := f.endStream, drop := false }
  if c.recvWin < (f.length : Int) then h2cFail begun h2FlowControlError
  else
    let charged := chargeData begun f
    match h2cFind c f.streamId with
    | some s => onStreamData charged f s
    | none =>
      if h2cIsIdle c f.streamId then h2cFail charged h2ProtocolError
      else h2cClosedFrame (dropping charged) f.streamId h2StreamClosed

def headersNeed (f : H2Frame) : Nat := (if f.padded then 1 else 0) + (if f.priority then 5 else 0)

def emptyFrame (c : H2Conn) : H2Conn :=
  let counted := { c with emptyRun := c.emptyRun + 1 }
  if h2cEmptyRunMax < c.emptyRun + 1 then h2cFail counted h2EnhanceYourCalm else counted

/-- The block of a frame of `length` bytes comes, after `need` bytes of its own. -/
def toBlock (c : H2Conn) (length need : Nat) : H2Conn :=
  let awaited := { c with contentLeft := length, padLeft := 0 }
  if 0 < need then h2cToFixed awaited need else { awaited with rs := .block }

def onHeadersHeader (c : H2Conn) (f : H2Frame) : H2Conn :=
  let begun := { c with
    cur := f.streamId, fin := f.endStream, endHeaders := f.endHeaders, expectCont := f.streamId
    blk := [], selfDep := false }
  if f.length < headersNeed f then h2cFail begun h2ProtocolError
  else
    let counted :=
      if f.length = headersNeed f ∧ !f.endHeaders ∧ !f.endStream then emptyFrame begun else begun
    if counted.closed then counted else toBlock counted f.length (headersNeed f)

def onContinuationHeader (c : H2Conn) (f : H2Frame) : H2Conn :=
  let begun := { c with endHeaders := f.endHeaders }
  let counted := if f.length = 0 ∧ !f.endHeaders then emptyFrame begun else begun
  if counted.closed then counted else toBlock counted f.length 0

def onSettingsHeader (c : H2Conn) (f : H2Frame) : H2Conn :=
  if f.ack then h2cToSkip (h2cSettingsAcked c) 0
  else
    let c := { c with gotSettings := true, settingsLeft := f.length }
    if f.length = 0 then h2cToSkip (h2cQEmpty c h2Settings 1 []) 0 else h2cToFixed c 6

def outOfTurn (c : H2Conn) (f : H2Frame) : Bool :=
  if c.expectCont ≠ 0 then f.type ≠ h2Continuation || f.streamId ≠ c.expectCont
  else f.type = h2Continuation

/-- `h2c_on_header`: a frame header has been read. -/
def h2cOnHeader (c : H2Conn) : H2Conn :=
  let f := c.f
  if outOfTurn c f then h2cFail c h2ProtocolError
  else
    match h2FrameCheck f c.cfgFrame with
    | some fault =>
      if !fault.onStream then h2cFail c fault.code
      else h2cStreamFault (h2cToSkip c f.length) f.streamId fault.code false
    | none =>
      if !c.gotSettings && (f.type ≠ h2Settings || f.ack) then h2cFail c h2ProtocolError
      else
        match f.type with
        | h2Data => onDataHeader c f
        | h2Headers => onHeadersHeader c f
        | h2Continuation => onContinuationHeader c f
        | h2Settings => onSettingsHeader c f
        | h2PushPromise => h2cFail c h2ProtocolError
        | h2RstStream | h2WindowUpdate => h2cToFixed c 4
        | h2Ping | h2Goaway => h2cToFixed c 8
        | h2Priority => h2cToFixed c 5
        | _ => h2cToSkip c f.length

def onDataFixed (c : H2Conn) (f : H2Frame) (b : List Byte) : H2Conn :=
  let pad := byteAt b 0
  if f.length ≤ pad then h2cFail c h2ProtocolError
  else
    let c := { c with contentLeft := f.length - 1 - pad, padLeft := pad, rs := .data }
    h2cConnCredit (h2cStreamCredit c c.cur (pad + 1)) (pad + 1)

def headersPad (f : H2Frame) (b : List Byte) : Nat := if f.padded then byteAt b 0 else 0

def dependsOn (f : H2Frame) (b : List Byte) : Nat := h2U31 b (if f.padded then 1 else 0)

def markSelfDep (c : H2Conn) (f : H2Frame) (b : List Byte) : H2Conn :=
  if f.priority ∧ dependsOn f b = f.streamId then { c with selfDep := true } else c

def onHeadersFixed (c : H2Conn) (f : H2Frame) (b : List Byte) : H2Conn :=
  let pad := headersPad f b
  let marked := markSelfDep c f b
  if f.length < c.smallNeed + pad then h2cFail marked h2ProtocolError
  else { marked with contentLeft := f.length - (c.smallNeed + pad), padLeft := pad, rs := .block }

def onSettingsFixed (c : H2Conn) (b : List Byte) : H2Conn :=
  match h2SettingsNext b with
  | .error code => h2cFail c code
  | .ok st =>
    let c := h2cApplySetting c st
    if c.closed then c
    else
      let c := { c with settingsLeft := c.settingsLeft - 6 }
      if 0 < c.settingsLeft then h2cToFixed c 6 else h2cToSkip (h2cQEmpty c h2Settings 1 []) 0

def onWindowUpdateFixed (c : H2Conn) (f : H2Frame) (b : List Byte) : H2Conn :=
  let inc := h2U31 b 0
  let c := h2cToSkip c 0
  if f.streamId = 0 then
    if inc = 0 then h2cFail c h2ProtocolError
    else if (h2MaxWindow : Int) < c.sendWin + inc then h2cFail c h2FlowControlError
    else { c with sendWin := c.sendWin + inc, sweepWritable := true }
  else
    match h2cFind c f.streamId with
    | none => if h2cIsIdle c f.streamId then h2cFail c h2ProtocolError else c
    | some s =>
      if inc = 0 then h2cStreamFault c s.id h2ProtocolError true
      else if (h2MaxWindow : Int) < s.sendWin + inc then h2cStreamFault c s.id h2FlowControlError true
      else { setStream c s.id fun s => { s with sendWin := s.sendWin + inc } with sweepWritable := true }

def onRstFixed (c : H2Conn) (f : H2Frame) (b : List Byte) : H2Conn :=
  let code := h2U32 b 0
  let c := h2cToSkip c 0
  match h2cFind c f.streamId with
  | none => if h2cIsIdle c f.streamId then h2cFail c h2ProtocolError else c
  | some s =>
    -- A server that is done with a response says so this way: an end, not a fault.
    let declaredAll := s.expect.any (· = s.got)
    let polite := !c.server && decide (code = h2NoError) && (s.remoteEnd || declaredAll)
    let c := tell c { h2cEventStream .streamReset s.id with code := code, endStream := polite }
    let c := h2cRemove c s.id polite (some .peer)
    if !polite then h2cDebt c else c

def onGoawayFixed (c : H2Conn) (f : H2Frame) (b : List Byte) : H2Conn :=
  let last := h2U31 b 0
  if c.goawayRecv && decide (c.goawayLast < last) then h2cFail c h2ProtocolError
  else
    let c := { c with goawayLast := last, goawayCode := h2U32 b 4, text := [] }
    if 8 < f.length then
      let keep := min (f.length - 8) h2cTextKeep
      { c with contentLeft := keep, padLeft := f.length - 8 - keep, rs := .text }
    else h2cGoawayEvent (h2cToSkip c (f.length - 8))

/-- `h2c_on_fixed`: the fixed bytes a frame begins with have been read. -/
def h2cOnFixed (c : H2Conn) : H2Conn :=
  let f := c.f
  let b := c.small
  match f.type with
  | h2Data => onDataFixed c f b
  | h2Headers => onHeadersFixed c f b
  | h2Settings => onSettingsFixed c b
  | h2WindowUpdate => onWindowUpdateFixed c f b
  | h2RstStream => onRstFixed c f b
  | h2Priority =>
    -- Deprecated and ignored, but for the one thing that was always nonsense.
    let c := h2cToSkip c 0
    if h2U31 b 0 = f.streamId then h2cStreamFault c f.streamId h2ProtocolError false else c
  | h2Ping =>
    let c := h2cToSkip c 0
    if !f.ack then h2cQEmpty c h2Ping 1 b else tell c { kind := .pong, data := b }
  | h2Goaway => onGoawayFixed c f b
  | _ => h2cToSkip c 0

structure Turn where
  conn : H2Conn
  rest : List Byte
  done : Option (Except ProvenErr Unit)

def goOn (c : H2Conn) (rest : List Byte) : Turn := { conn := c, rest := rest, done := none }

def stop (c : H2Conn) (rest : List Byte) : Turn := { conn := c, rest := rest, done := some (.ok ()) }

/-- How many bytes match the preface from its byte `at` on. -/
def prefaceRun : List Byte → List Byte → Nat
  | want :: wants, byte :: bytes => if byte = want then prefaceRun wants bytes + 1 else 0
  | _, _ => 0

/-- The bytes of `small` are those of the preface read so far. -/
def readPreface (c : H2Conn) (input : List Byte) : Turn :=
  let left := h2Preface.drop c.small.length
  let n := prefaceRun left input
  if input = [] then stop c input
  else if n < left.length ∧ n < input.length then
    -- Not HTTP/2 at all: nothing is said to it.
    { conn := { c with
        small := c.small ++ input.take n
        wire := { c.wire with closed := true, reported := true, closeCode := h2ProtocolError } }
      rest := input.drop n, done := some (.error .invalidFormat) }
  else if n < left.length then goOn { c with small := c.small ++ input.take n } (input.drop n)
  else goOn { c with rs := .hdr, small := [] } (input.drop n)

def readSmall (c : H2Conn) (input : List Byte) (need : Nat) (next : H2Conn → H2Conn) : Turn :=
  let n := min (need - c.small.length) input.length
  if n = 0 ∧ c.small.length < need then stop c input
  else
    let c := { c with small := c.small ++ input.take n }
    if c.small.length < need then stop c (input.drop n) else goOn (next c) (input.drop n)

def takeData (c : H2Conn) (s : H2Stream) (piece : List Byte) (last : Bool) : H2Conn :=
  let n := piece.length
  let c := { c with emptyRun := 0 }
  if s.expect.any (· < s.got + n) then
    h2cStreamFault (h2cConnCredit { c with drop := true } n) s.id h2ProtocolError true
  else
    let c := setStream c s.id fun s => { s with got := s.got + n, held := s.held + n }
    let ending := last && c.fin
    let c := tell c { h2cEventStream .data s.id with data := piece, endStream := ending }
    if ending then h2cRemoteEnd c s.id else c

def dataStream (c : H2Conn) : Option H2Stream := if c.drop then none else h2cFind c c.cur

def dataEnd (c : H2Conn) : H2Conn :=
  let skipped := h2cToSkip c c.padLeft
  match dataStream c with
  | none => skipped
  | some s =>
    if c.fin then
      h2cRemoteEnd (tell skipped { h2cEventStream .data s.id with endStream := true }) s.id
    else emptyFrame skipped

/-- `n` bytes of the content of a DATA frame are taken. -/
def contentTaken (c : H2Conn) (n : Nat) : H2Conn :=
  let taken := { c with contentLeft := c.contentLeft - n }
  if c.contentLeft - n = 0 then h2cToSkip taken c.padLeft else taken

def dataPiece (c : H2Conn) (piece : List Byte) : H2Conn :=
  let taken := contentTaken c piece.length
  match dataStream taken with
  | none => h2cConnCredit taken piece.length
  | some s => takeData taken s piece (decide (c.contentLeft - piece.length = 0))

def readData (c : H2Conn) (input : List Byte) : Turn :=
  if c.contentLeft = 0 then goOn (dataEnd c) input
  else if input = [] then stop c input
  else goOn (dataPiece c (input.take c.contentLeft)) (input.drop c.contentLeft)

def blockFrameEnd (c : H2Conn) (block : List Byte) : H2Conn :=
  let c := h2cToSkip c c.padLeft
  if !c.endHeaders then c else h2cOnBlock { c with expectCont := 0, blk := [] } block

def readBlock (c : H2Conn) (input : List Byte) : Turn :=
  if 0 < c.contentLeft then
    if input = [] then stop c input
    else if c.cfgList * 2 < c.blk.length + c.contentLeft then stop (h2cFail c h2EnhanceYourCalm) input
    else if c.blk = [] ∧ c.endHeaders ∧ c.contentLeft ≤ input.length then
      -- The usual case: the whole block is here, and is read where it lies.
      goOn (blockFrameEnd { c with contentLeft := 0, emptyRun := 0 } (input.take c.contentLeft))
        (input.drop c.contentLeft)
    else
      let n := min c.contentLeft input.length
      let c := { c with blk := c.blk ++ input.take n, contentLeft := c.contentLeft - n, emptyRun := 0 }
      if 0 < c.contentLeft then stop c (input.drop n) else goOn (blockFrameEnd c c.blk) (input.drop n)
  else goOn (blockFrameEnd c c.blk) input

def readText (c : H2Conn) (input : List Byte) : Turn :=
  let n := min c.contentLeft input.length
  let c := { c with text := c.text ++ input.take n, contentLeft := c.contentLeft - n }
  if 0 < c.contentLeft then stop c (input.drop n)
  else goOn (h2cGoawayEvent { c with rs := .skip }) (input.drop n)

def readSkip (c : H2Conn) (input : List Byte) : Turn :=
  let n := min c.padLeft input.length
  let c := { c with padLeft := c.padLeft - n }
  if 0 < c.padLeft then stop c (input.drop n)
  else
    let c := { c with rs := .hdr, small := [] }
    if input.length = n then stop c (input.drop n) else goOn c (input.drop n)

/-- One turn of `h2c_read`. -/
def h2cReadTurn (c : H2Conn) (input : List Byte) : Turn :=
  if c.closed ∨ c.ev.kind ≠ .none then stop c input
  else
    match c.rs with
    | .preface => readPreface c input
    | .hdr => readSmall c input h2FrameHeaderSize fun c => h2cOnHeader { c with f := h2FrameParse c.small }
    | .fixed => readSmall c input c.smallNeed h2cOnFixed
    | .data => readData c input
    | .block => readBlock c input
    | .text => readText c input
    | .skip => readSkip c input

/-- `h2c_read`: turns until one returns. -/
def h2cReadLoop : Nat → H2Conn → List Byte → H2Conn × List Byte × Except ProvenErr Unit
  | 0, c, input => (c, input, .ok ())
  | fuel + 1, c, input =>
    let turn := h2cReadTurn c input
    match turn.done with
    | some result => (turn.conn, turn.rest, result)
    | none => h2cReadLoop fuel turn.conn turn.rest

def readFuel (input : List Byte) : Nat := 4 * input.length + 4

def h2cRead (c : H2Conn) (input : List Byte) : H2Conn × List Byte × Except ProvenErr Unit :=
  h2cReadLoop (readFuel input) c input

end ProvenC.H2.Reader
