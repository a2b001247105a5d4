import ProvenC.Bytes

/-!
# HTTP/2 frames (RFC 9113, section 4 and 6)

A frame is nine bytes of header and a payload. What a type demands of the header alone is
checked before any of the payload is read, and a fault is the connection's or one stream's.
-/

namespace ProvenC.H2.Frame

open Bytes

def h2Preface : List Byte :=
  ascii "PRI * HTTP/2.0" ++ [13, 10, 13, 10] ++ ascii "SM" ++ [13, 10, 13, 10]

def h2FrameHeaderSize : Nat := 9
def h2MinMaxFrameSize : Nat := 16384
def h2MaxMaxFrameSize : Nat := 16777215
def h2MaxWindow : Nat := 0x7fffffff
def h2DefaultWindow : Nat := 65535

/-! Frame types; a type the code does not know is any other byte. -/

@[match_pattern] def h2Data : Nat := 0x0
@[match_pattern] def h2Headers : Nat := 0x1
@[match_pattern] def h2Priority : Nat := 0x2
@[match_pattern] def h2RstStream : Nat := 0x3
@[match_pattern] def h2Settings : Nat := 0x4
@[match_pattern] def h2PushPromise : Nat := 0x5
@[match_pattern] def h2Ping : Nat := 0x6
@[match_pattern] def h2Goaway : Nat := 0x7
@[match_pattern] def h2WindowUpdate : Nat := 0x8
@[match_pattern] def h2Continuation : Nat := 0x9

/-! Error codes, as sent in RST_STREAM and GOAWAY. -/

def h2NoError : Nat := 0x0
def h2ProtocolError : Nat := 0x1
def h2InternalError : Nat := 0x2
def h2FlowControlError : Nat := 0x3
def h2StreamClosed : Nat := 0x5
def h2FrameSizeError : Nat := 0x6
def h2RefusedStream : Nat := 0x7
def h2CompressionError : Nat := 0x9
def h2EnhanceYourCalm : Nat := 0xb

/-! Settings. -/

@[match_pattern] def h2SettingsHeaderTableSize : Nat := 0x1
@[match_pattern] def h2SettingsEnablePush : Nat := 0x2
@[match_pattern] def h2SettingsMaxConcurrentStreams : Nat := 0x3
@[match_pattern] def h2SettingsInitialWindowSize : Nat := 0x4
@[match_pattern] def h2SettingsMaxFrameSize : Nat := 0x5
@[match_pattern] def h2SettingsMaxHeaderListSize : Nat := 0x6
@[match_pattern] def h2SettingsEnableConnectProtocol : Nat := 0x8

/-- `proven_h2_frame_t`: a frame's header. -/
structure H2Frame where
  length : Nat
  type : Nat
  flags : Nat
  streamId : Nat
  deriving DecidableEq, Repr

namespace H2Frame

def endStream (f : H2Frame) : Bool := f.flags % 2 = 1
def ack (f : H2Frame) : Bool := f.flags % 2 = 1
def endHeaders (f : H2Frame) : Bool := f.flags / 4 % 2 = 1
def padded (f : H2Frame) : Bool := f.flags / 8 % 2 = 1
def priority (f : H2Frame) : Bool := f.flags / 32 % 2 = 1

end H2Frame

/-- Byte `i` of `bytes`, as a number. -/
def byteAt (bytes : List Byte) (i : Nat) : Nat := (bytes.getD i 0).val

/-- `h2_u32`: the big-endian word that begins at byte `i`. -/
def h2U32 (bytes : List Byte) (i : Nat) : Nat :=
  byteAt bytes i * 2 ^ 24 + byteAt bytes (i + 1) * 2 ^ 16 + byteAt bytes (i + 2) * 2 ^ 8 + byteAt bytes (i + 3)

def h2PutU32 (v : Nat) : List Byte :=
  [byteOf (v / 2 ^ 24), byteOf (v / 2 ^ 16), byteOf (v / 2 ^ 8), byteOf v]

/-- `h2_u32` and the reserved bit off. -/
def h2U31 (bytes : List Byte) (i : Nat) : Nat := h2U32 bytes i % 2 ^ 31

/-- `proven_h2_frame_parse`, of nine bytes. -/
def h2FrameParse (bytes : List Byte) : H2Frame :=
  { length := byteAt bytes 0 * 2 ^ 16 + byteAt bytes 1 * 2 ^ 8 + byteAt bytes 2
    type := byteAt bytes 3
    flags := byteAt bytes 4
    streamId := h2U31 bytes 5 }

def h2PutHeader (length type flags id : Nat) : List Byte :=
  [byteOf (length / 2 ^ 16), byteOf (length / 2 ^ 8), byteOf length, byteOf type, byteOf flags] ++ h2PutU32 id

structure FrameFault where
  code : Nat
  onStream : Bool
  deriving DecidableEq, Repr

def connFault (code : Nat) : Option FrameFault := some { code := code, onStream := false }

def h2FrameCheck (f : H2Frame) (maxFrameSize : Nat) : Option FrameFault :=
  let hasStream := f.streamId ≠ 0
  if maxFrameSize < f.length then connFault h2FrameSizeError
  else
    match f.type with
    | h2Data | h2Headers | h2Continuation | h2PushPromise =>
      if ¬ hasStream then connFault h2ProtocolError else none
    | h2Priority =>
      if ¬ hasStream then connFault h2ProtocolError
      else if f.length ≠ 5 then some { code := h2FrameSizeError, onStream := true }
      else none
    | h2RstStream =>
      if ¬ hasStream then connFault h2ProtocolError
      else if f.length ≠ 4 then connFault h2FrameSizeError
      else none
    | h2Settings =>
      if hasStream then connFault h2ProtocolError
      else if (if f.ack then f.length ≠ 0 else f.length % 6 ≠ 0) then connFault h2FrameSizeError
      else none
    | h2Ping =>
      if hasStream then connFault h2ProtocolError
      else if f.length ≠ 8 then connFault h2FrameSizeError
      else none
    | h2Goaway =>
      if hasStream then connFault h2ProtocolError
      else if f.length < 8 then connFault h2FrameSizeError
      else none
    | h2WindowUpdate => if f.length ≠ 4 then connFault h2FrameSizeError else none
    | _ => none

structure H2Setting where
  id : Nat
  value : Nat
  deriving DecidableEq, Repr

/-- `proven_h2_settings_next`, of six bytes: the setting, or the code of what is wrong with it. -/
def h2SettingsNext (bytes : List Byte) : Except Nat H2Setting :=
  let id := byteAt bytes 0 * 2 ^ 8 + byteAt bytes 1
  let value := h2U32 bytes 2
  if (id = h2SettingsEnablePush ∨ id = h2SettingsEnableConnectProtocol) ∧ 1 < value then
    .error h2ProtocolError
  else if id = h2SettingsInitialWindowSize ∧ h2MaxWindow < value then .error h2FlowControlError
  else if id = h2SettingsMaxFrameSize ∧ (value < h2MinMaxFrameSize ∨ h2MaxMaxFrameSize < value) then
    .error h2ProtocolError
  else .ok { id := id, value := value }

def h2WriteSettings (settings : List H2Setting) : List Byte :=
  h2PutHeader (settings.length * 6) h2Settings 0 0 ++
    settings.flatMap fun st => [byteOf (st.id / 2 ^ 8), byteOf st.id] ++ h2PutU32 st.value

end ProvenC.H2.Frame
