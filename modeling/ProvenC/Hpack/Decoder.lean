import ProvenC.Hpack.Table
import ProvenC.Hpack.Integer
import ProvenC.Hpack.Huffman

/-!
# The decoder

A block is a list of table size updates and field lines, read from the front.
-/

namespace ProvenC.Hpack.Decoder

open Bytes
open Hpack.Tables Hpack.Table Hpack.Integer Hpack.Huffman

def hpackDefaultTableBytes : Nat := 4096

def hpackTableCeiling : Nat := 2 ^ 30

structure HpackDecoder where
  table : HpTable
  limit : Nat
  updateOwed : Bool
  failed : Bool
  deriving DecidableEq, Repr

def hpackDecoderCreate (maxTableBytes : Nat) : Except ProvenErr HpackDecoder :=
  if hpackTableCeiling < maxTableBytes then .error .invalidArg
  else .ok { table := ⟨[], maxTableBytes⟩, limit := maxTableBytes, updateOwed := false, failed := false }

def hpackDecoderSetMaxTableBytes (d : HpackDecoder) (maxTableBytes : Nat) : HpackDecoder :=
  if hpackTableCeiling < maxTableBytes then d
  else { d with limit := maxTableBytes
                updateOwed := if maxTableBytes < d.table.max then true else d.updateOwed }

/-- `goto fail` where the source has it. -/
def orFail {Value : Type} : Option Value → Except ProvenErr Value
  | none => .error .invalidFormat
  | some value => .ok value

/-- `hp_keep`: what is used of the scratch once `text` is copied there. -/
def hpKeep (scratch used : Nat) (text : List Byte) : Except ProvenErr Nat :=
  if scratch - used < text.length then .error .outOfBounds else .ok (used + text.length)

/-- `hp_string`: a string literal, what follows it and what is used of the scratch. -/
def hpString (scratch used : Nat) (input : List Byte) : Except ProvenErr (List Byte × List Byte × Nat) := do
  let head ← orFail input.head?
  let (n, rest) ← orFail (hpInt 7 input)
  if rest.length < n then .error .invalidFormat
  else if head.val < 128 then .ok (rest.take n, rest.drop n, used)
  else do
    let text ← hpackHuffmanDecode (rest.take n) (scratch - used)
    .ok (text, rest.drop n, used + text.length)

structure Line where
  field : Field
  insert : Bool
  never : Bool
  rest : List Byte
  used : Nat

def staticField (index : Nat) : Option Field :=
  hpackStatic[index - 1]?.map fun entry => ⟨entry.1, entry.2⟩

def decodeIndexed (table : HpTable) (scratch used : Nat) (input : List Byte) : Except ProvenErr Line := do
  let (index, rest) ← orFail (hpInt 7 input)
  if index = 0 then .error .invalidFormat
  else if index ≤ hpackStaticCount then do
    let field ← orFail (staticField index)
    .ok { field := field, insert := false, never := false, rest := rest, used := used }
  else do
    let entry ← orFail (hpAt table (index - hpackStaticCount - 1))
    let used ← hpKeep scratch used entry.name
    let used ← hpKeep scratch used entry.value
    .ok { field := entry, insert := false, never := false, rest := rest, used := used }

def decodeName (table : HpTable) (scratch used index : Nat) (rest : List Byte) :
    Except ProvenErr (List Byte × List Byte × Nat) :=
  if index = 0 then hpString scratch used rest
  else if index ≤ hpackStaticCount then do
    let field ← orFail (staticField index)
    .ok (field.name, rest, used)
  else do
    let entry ← orFail (hpAt table (index - hpackStaticCount - 1))
    let used ← hpKeep scratch used entry.name
    .ok (entry.name, rest, used)

def decodeLiteral (table : HpTable) (scratch used : Nat) (b : Byte) (input : List Byte) : Except ProvenErr Line := do
  let insert := b.val / 64 % 2 = 1
  let (index, rest) ← orFail (hpInt (if insert then 6 else 4) input)
  let (name, rest, used) ← decodeName table scratch used index rest
  let (value, rest, used) ← hpString scratch used rest
  .ok { field := ⟨name, value⟩, insert := insert, never := b.val / 16 = 1, rest := rest, used := used }

def decodeLine (table : HpTable) (scratch used : Nat) (b : Byte) (input : List Byte) : Except ProvenErr Line :=
  if 128 ≤ b.val then decodeIndexed table scratch used input
  else decodeLiteral table scratch used b input

/-- The caller's arrays and its limit: `maxList` 0 is none. -/
structure Capacity where
  headerCap : Nat
  scratch : Nat
  maxList : Nat

structure Decoding where
  table : HpTable
  updateOwed : Bool
  rest : List Byte
  used : Nat
  isOver : Bool
  list : Nat
  begun : Bool
  out : List (Field × Bool)

def takeLine (cap : Capacity) (s : Decoding) (line : Line) : Decoding :=
  let list := s.list + fieldSize line.field
  let isOver := s.isOver || (cap.maxList != 0 && decide (cap.maxList < list)) ||
    s.out.length == cap.headerCap
  { s with
    table := if line.insert then hpTableAdd s.table line.field.name line.field.value else s.table
    rest := line.rest
    used := line.used
    isOver := isOver
    list := list
    begun := true
    out := if isOver then s.out else s.out ++ [(line.field, line.never)] }

/-- One turn of the loop, at a byte `b`: `none` where the source goes to `fail`. -/
def decodeTurn (cap : Capacity) (limit : Nat) (s : Decoding) (b : Byte) : Option Decoding :=
  let used := if s.isOver then 0 else s.used
  if b.val / 32 = 1 then
    if s.begun then none
    else
      match hpInt 5 s.rest with
      | none => none
      | some (size, rest) =>
        if limit < size then none
        else some { s with
          table := hpTableShrinkTo { s.table with max := size } size
          updateOwed := false
          rest := rest
          used := used }
  else if s.updateOwed then none
  else
    match decodeLine s.table cap.scratch used b s.rest with
    | .ok line => some (takeLine cap s line)
    | .error .outOfBounds =>
      -- No room: the line is read again with the whole scratch, once.
      if s.isOver then none else some { s with begun := true, used := used, isOver := true }
    | .error _ => none

def decodeLoop (cap : Capacity) (limit : Nat) : Nat → Decoding → Decoding × Bool
  | 0, s => (s, false)
  | fuel + 1, s =>
    match s.rest with
    | [] => (s, true)
    | b :: _ =>
      match decodeTurn cap limit s b with
      | none => (s, false)
      | some next => decodeLoop cap limit fuel next

def decodeStart (d : HpackDecoder) (block : List Byte) : Decoding :=
  { table := d.table, updateOwed := d.updateOwed, rest := block, used := 0, isOver := false
    list := 0, begun := false, out := [] }

def decodeFuel (block : List Byte) : Nat := 2 * block.length + 2

/-- `proven_hpack_decode_marked`: the fields given out, each with whether it must never be
indexed. -/
def hpackDecodeMarked (d : HpackDecoder) (block : List Byte) (cap : Capacity) :
    HpackDecoder × Except ProvenErr (List (Field × Bool)) :=
  if d.failed then (d, .error .invalidFormat)
  else
    let (s, whole) := decodeLoop cap d.limit (decodeFuel block) (decodeStart d block)
    ({ d with table := s.table, updateOwed := s.updateOwed, failed := !whole },
      if !whole then .error .invalidFormat
      else if s.isOver then .error .outOfBounds
      else .ok s.out)

end ProvenC.Hpack.Decoder
