import ProvenC.Ws.Frame
import ProvenC.Text.Utf
import ProvenC.Lib.Streaming

/-!
# The WebSocket decoder

`proven_ws_decoder_feed` of `ws.c`. A header is gathered a byte at a time, a control frame is held
until it is whole, and data passes through in the pieces it arrives in.
-/

namespace ProvenC.Ws.Decoder

open Bytes Lib.BigEndian Lib.Streaming Text.Utf Ws.Frame

def wsCloseNoStatus : Nat := 1005

def wsCloseCodeIsValid (code : Nat) : Bool :=
  (1000 ≤ code && code ≤ 1003) || (1007 ≤ code && code ≤ 1014) || (3000 ≤ code && code ≤ 4999)

/-- The loop of `ws_utf8_ok`, from `pos` on; each round takes a byte at least. -/
def wsUtf8OkFrom (s : List Byte) : Nat → Nat → Bool
  | 0, _ => true
  | left + 1, pos =>
    if pos < s.length then
      let c := utf8DecodeNext s pos
      if c.err.isSome then false else wsUtf8OkFrom s left (pos + c.len)
    else true

def wsUtf8Ok (s : List Byte) : Bool := wsUtf8OkFrom s s.length 0

/-- `proven_ws_close_parse`: the code and the reason. -/
def wsCloseParse : List Byte → Except ProvenErr (Nat × List Byte)
  | [] => .ok (wsCloseNoStatus, [])
  | [_] => .error .invalidFormat
  | hi :: lo :: reason =>
    let c := hi.val * 256 + lo.val
    if ¬ wsCloseCodeIsValid c then .error .invalidFormat
    else if ¬ wsUtf8Ok reason then .error .invalidEncoding
    else .ok (c, reason)

def wsCloseCodeFor : ProvenErr → Nat
  | .invalidFormat => 1002
  | .invalidEncoding => 1007
  | .outOfBounds => 1009
  | _ => 1011

/-- `proven_ws_decoder_t`; `failed` is none for PROVEN_OK, and the lengths of `header`, `control` and
`utf8` are those of the bytes in use. -/
structure WsDecoder where
  maxMessage : Nat
  messageSize : Nat
  remaining : Nat
  offset : Nat
  frame : WsFrame
  header : List Byte
  control : List Byte
  utf8 : List Byte
  failed : Option ProvenErr
  expectMasked : Bool
  inFrame : Bool
  inMessage : Bool
  messageText : Bool
  messageStarted : Bool
  closed : Bool
  allowCompressed : Bool
  messageCompressed : Bool

def wsDecoderInit (fromClient : Bool) (maxMessageBytes : Nat) : WsDecoder :=
  { maxMessage := maxMessageBytes
    messageSize := 0
    remaining := 0
    offset := 0
    frame := { fin := false, opcode := .continuation, masked := false, mask := noMask, length := 0, rsv1 := false }
    header := []
    control := []
    utf8 := []
    failed := none
    expectMasked := fromClient
    inFrame := false
    inMessage := false
    messageText := false
    messageStarted := false
    closed := false
    allowCompressed := false
    messageCompressed := false }

def wsDecoderAllowCompressed (d : WsDecoder) : WsDecoder := { d with allowCompressed := true }

/-- `proven_ws_event_t`, where there is one. -/
inductive WsEvent where
  | data (text first last compressed : Bool) (bytes : List Byte)
  | ping (payload : List Byte)
  | pong (payload : List Byte)
  | close (code : Nat) (reason : List Byte)
  deriving DecidableEq

/-- The first loop of `proven_ws_utf8_feed_`: the character in `held` first. -/
def wsUtf8Held : List Byte → List Byte → Except ProvenErr (List Byte × List Byte)
  | [], p => .ok ([], p)
  | held, [] => .ok (held, [])
  | first :: held, b :: p =>
    match (utf8DecodeNext (first :: held ++ [b]) 0).err with
    | none => .ok ([], p)
    | some .needMore => wsUtf8Held (first :: held ++ [b]) p
    | some _ => .error .invalidEncoding

/-- The second loop, from `pos` on; each round takes a byte at least. What is left waits. -/
def wsUtf8Loop (s : List Byte) : Nat → Nat → Except ProvenErr (List Byte)
  | 0, _ => .ok []
  | left + 1, pos =>
    if pos < s.length then
      if (s.getD pos 0).val < 0x80 then wsUtf8Loop s left (pos + 1)
      else
        let c := utf8DecodeNext s pos
        match c.err with
        | none => wsUtf8Loop s left (pos + c.len)
        | some .needMore => .ok (s.drop pos)
        | some _ => .error .invalidEncoding
    else .ok []

/-- `proven_ws_utf8_feed_`: what waits for the bytes that complete it. -/
def wsUtf8Feed (held p : List Byte) : Except ProvenErr (List Byte) :=
  match wsUtf8Held held p with
  | .error err => .error err
  | .ok (held, rest) =>
    if held ≠ [] then .ok held else wsUtf8Loop p (p.length + 1) (p.length - rest.length)

structure WsFed where
  err : Option ProvenErr
  state : WsDecoder
  event : Option WsEvent
  rest : List Byte

def wsQuiet (d : WsDecoder) (rest : List Byte) : WsFed := { err := none, state := d, event := none, rest := rest }

def wsReport (d : WsDecoder) (event : WsEvent) (rest : List Byte) : WsFed :=
  { err := none, state := d, event := some event, rest := rest }

/-- The label `fail`. -/
def wsFail (d : WsDecoder) (err : ProvenErr) (rest : List Byte) : WsFed :=
  { err := some err, state := { d with failed := some err }, event := none, rest := rest }

def wsGather (d : WsDecoder) : List Byte → Except WsFed (WsDecoder × List Byte)
  | [] => .error (wsQuiet d [])
  | b :: rest =>
    let d := { d with header := d.header ++ [b] }
    if d.header.length = 1 ∧ b.val / 64 % 2 = 1 ∧ ¬ d.allowCompressed then .error (wsFail d .invalidFormat rest)
    else
      match wsFrameParse d.header with
      | .ok (frame, _) => .ok ({ d with frame := frame }, rest)
      | .error .needMore => wsGather d rest
      | .error err => .error (wsFail d err rest)

def wsHeader (d : WsDecoder) (rest : List Byte) : Except WsFed WsDecoder :=
  let d := { d with header := [] }
  if d.frame.masked ≠ d.expectMasked then .error (wsFail d .invalidFormat rest)
  else if d.frame.rsv1 ∧ ¬ d.allowCompressed then .error (wsFail d .invalidFormat rest)
  else if d.frame.opcode.control then
    .ok { d with control := [], inFrame := true, remaining := d.frame.length, offset := 0 }
  else if d.frame.opcode = .continuation ∧ ¬ d.inMessage then .error (wsFail d .invalidFormat rest)
  else if d.frame.opcode ≠ .continuation ∧ d.inMessage then .error (wsFail d .invalidFormat rest)
  else
    let d :=
      if d.frame.opcode = .continuation then d
      else
        { d with inMessage := true, messageText := d.frame.opcode = .text, messageCompressed := d.frame.rsv1,
                 messageStarted := false, messageSize := 0, utf8 := [] }
    if d.maxMessage ≠ 0 ∧ d.maxMessage - d.messageSize < d.frame.length then .error (wsFail d .outOfBounds rest)
    else .ok { d with inFrame := true, remaining := d.frame.length, offset := 0 }

def wsEnter (d : WsDecoder) (rest : List Byte) : Except WsFed (WsDecoder × List Byte) :=
  if d.inFrame then .ok (d, rest)
  else
    match wsGather d rest with
    | .error fed => .error fed
    | .ok (d, rest) =>
      match wsHeader d rest with
      | .error fed => .error fed
      | .ok d => .ok (d, rest)

def wsControl (d : WsDecoder) (rest : List Byte) : WsFed :=
  let take := min d.remaining rest.length
  let d := { d with control := d.control ++ rest.take take, remaining := d.remaining - take }
  let rest := rest.drop take
  if 0 < d.remaining then wsQuiet d rest
  else
    let payload := if d.frame.masked then wsMask d.control d.frame.mask 0 else d.control
    let d := { d with control := payload, inFrame := false }
    match d.frame.opcode with
    | .close =>
      match wsCloseParse payload with
      | .error err => wsFail d err rest
      | .ok (code, reason) => wsReport { d with closed := true } (.close code reason) rest
    | .ping => wsReport d (.ping payload) rest
    | _ => wsReport d (.pong payload) rest

def wsData (d : WsDecoder) (rest : List Byte) : Except WsFed (WsDecoder × List Byte) :=
  let take := min d.remaining rest.length
  if take = 0 ∧ 0 < d.remaining then .error (wsQuiet d rest)
  else
    let piece := if d.frame.masked then wsMask (rest.take take) d.frame.mask d.offset else rest.take take
    let d := { d with offset := d.offset + take, remaining := d.remaining - take, messageSize := d.messageSize + take }
    let rest := rest.drop take
    let checkText := d.messageText && !d.messageCompressed
    match (if checkText then wsUtf8Feed d.utf8 piece else .ok d.utf8) with
    | .error err => .error (wsFail d err rest)
    | .ok utf8 =>
      let d := { d with utf8 := utf8 }
      let frameDone : Bool := d.remaining = 0
      let last := frameDone && d.frame.fin
      if last ∧ checkText ∧ d.utf8 ≠ [] then .error (wsFail d .invalidEncoding rest)
      else
        let d := { d with inFrame := if frameDone then false else d.inFrame, inMessage := if last then false else d.inMessage }
        if take = 0 ∧ ¬ last then .ok (d, rest)
        else
          .error (wsReport { d with messageStarted := true }
            (.data d.messageText (!d.messageStarted) last d.messageCompressed piece) rest)

/-- The loop of `proven_ws_decoder_feed`; a round that goes on has read a header. -/
def wsLoop : Nat → WsDecoder → List Byte → WsFed
  | 0, d, rest => wsQuiet d rest
  | left + 1, d, rest =>
    match wsEnter d rest with
    | .error fed => fed
    | .ok (d, rest) =>
      if d.frame.opcode.control then wsControl d rest
      else
        match wsData d rest with
        | .error fed => fed
        | .ok (d, rest) => wsLoop left d rest

def wsDecoderFeed (d : WsDecoder) (input : List Byte) : Ran WsDecoder WsEvent ProvenErr :=
  if d.failed.isSome then { err := d.failed, ended := false, state := d, items := [], used := 0 }
  else if d.closed then
    { err := if input = [] then none else some .eof, ended := true, state := d, items := [], used := 0 }
  else
    let fed := wsLoop (input.length + 1) d input
    { err := fed.err, ended := fed.err.isNone && fed.state.closed, state := fed.state, items := fed.event.toList,
      used := input.length - fed.rest.length }

end ProvenC.Ws.Decoder
