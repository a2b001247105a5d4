import ProvenC.H2.Frame
import ProvenC.Lib.BigEndian

/-!
# WebSocket frames (RFC 6455, section 5)

A frame is a header of two to fourteen bytes and a payload. The header says how the payload is
masked and how long it is; the length is written in the shortest of three forms.
-/

namespace ProvenC.Ws.Frame

open Bytes Lib.BigEndian
open H2.Frame (byteAt)

inductive WsOpcode where
  | continuation
  | text
  | binary
  | close
  | ping
  | pong
  deriving DecidableEq, Repr

def WsOpcode.code : WsOpcode → Nat
  | .continuation => 0x0
  | .text => 0x1
  | .binary => 0x2
  | .close => 0x8
  | .ping => 0x9
  | .pong => 0xA

def WsOpcode.control (op : WsOpcode) : Bool := op.code / 8 % 2 = 1

def wsOpcodeOf : Nat → Option WsOpcode
  | 0x0 => some .continuation
  | 0x1 => some .text
  | 0x2 => some .binary
  | 0x8 => some .close
  | 0x9 => some .ping
  | 0xA => some .pong
  | _ => none

def wsMaxControl : Nat := 125

/-- `proven_ws_frame_t`; the mask is zero where there is none. -/
structure WsFrame where
  fin : Bool
  opcode : WsOpcode
  masked : Bool
  mask : List Byte
  length : Nat
  rsv1 : Bool
  deriving DecidableEq, Repr

def noMask : List Byte := [0, 0, 0, 0]

def wsLengthOf (short : Nat) (rest : List Byte) : Except ProvenErr (Nat × Nat) :=
  if short = 126 then
    if rest.length < 2 then .error .needMore
    else
      let length := bigEndian (rest.take 2)
      if length < 126 then .error .invalidFormat else .ok (length, 2)
  else if short = 127 then
    if rest.length < 1 then .error .needMore
    else if byteAt rest 0 / 128 = 1 then .error .invalidFormat
    else if rest.length < 8 then .error .needMore
    else
      let length := bigEndian (rest.take 8)
      if length < 65536 then .error .invalidFormat else .ok (length, 8)
  else .ok (short, 0)

/-- `proven_ws_frame_parse`: the frame, and how many bytes its header took. -/
def wsFrameParse (data : List Byte) : Except ProvenErr (WsFrame × Nat) :=
  if data.length < 1 then .error .needMore
  else
    let b0 := byteAt data 0
    let fin : Bool := b0 / 128 = 1
    let rsv1 : Bool := b0 / 64 % 2 = 1
    if b0 / 16 % 4 ≠ 0 then .error .invalidFormat
    else
      match wsOpcodeOf (b0 % 16) with
      | none => .error .invalidFormat
      | some opcode =>
        if rsv1 ∧ (opcode.control ∨ opcode = .continuation) then .error .invalidFormat
        else if opcode.control ∧ ¬ fin then .error .invalidFormat
        else if data.length < 2 then .error .needMore
        else
          let b1 := byteAt data 1
          let masked : Bool := b1 / 128 = 1
          if opcode.control ∧ wsMaxControl < b1 % 128 then .error .invalidFormat
          else
            match wsLengthOf (b1 % 128) (data.drop 2) with
            | .error err => .error err
            | .ok (length, extended) =>
              let pos := 2 + extended
              if masked then
                if data.length < pos + 4 then .error .needMore
                else
                  .ok ({ fin := fin, opcode := opcode, masked := true, mask := (data.drop pos).take 4,
                         length := length, rsv1 := rsv1 }, pos + 4)
              else
                .ok ({ fin := fin, opcode := opcode, masked := false, mask := noMask,
                       length := length, rsv1 := rsv1 }, pos)

def wsMask (data mask : List Byte) (offset : Nat) : List Byte :=
  data.mapIdx fun i b => b ^^^ mask.getD ((offset + i) &&& 3) 0

end ProvenC.Ws.Frame
