import ProvenC.Hpack.Decoder

/-!
# The encoder

A field is sent as an index where a table has it, else as a literal with its name indexed where a table
has that. What may be remembered goes into the dynamic table.
-/

namespace ProvenC.Hpack.Encoder

open Bytes
open Hpack.Tables Hpack.Table Hpack.Integer Hpack.Huffman
open Hpack.Decoder (hpackDefaultTableBytes hpackTableCeiling)

structure HpackEncoder where
  table : HpTable
  ownMax : Nat
  peerMax : Nat
  announceLow : Nat
  announce : Bool
  deriving DecidableEq, Repr

def hpackEncoderCreate (maxTableBytes : Nat) : Except ProvenErr HpackEncoder :=
  if hpackTableCeiling < maxTableBytes then .error .invalidArg
  else
    let start := min maxTableBytes hpackDefaultTableBytes
    .ok { table := ⟨[], start⟩
          ownMax := maxTableBytes
          peerMax := hpackDefaultTableBytes
          announceLow := if start ≠ hpackDefaultTableBytes then start else 0
          announce := start ≠ hpackDefaultTableBytes }

def hpackEncoderSetPeerTableBytes (c : HpackEncoder) (peerMaxTableBytes : Nat) : HpackEncoder :=
  let now := min c.ownMax peerMaxTableBytes
  if now = c.table.max then { c with peerMax := peerMaxTableBytes }
  else
    { c with
      peerMax := peerMaxTableBytes
      announceLow := if c.announce = false ∨ now < c.announceLow then now else c.announceLow
      announce := true
      table := hpTableShrinkTo { c.table with max := now } now }

def hpIntSize : Nat := 1 + hpackIntMaxContinuation

def hpackEncodeBound (headers : List (Field × Bool)) : Nat :=
  2 * hpIntSize + (headers.map fun header =>
      1 + 2 * hpIntSize + header.1.name.length + header.1.value.length).sum

/-- `hp_put_string`: coded only when that is shorter. -/
def hpPutString (s : List Byte) : List Byte :=
  let plain := hpPutInt 7 0 s.length ++ s
  if 2 ≤ s.length ∧ s.length ≤ 127 then
    let coded := hpHuffmanPut s (s.length - 1)
    if coded.length ≠ 0 then byteOf (128 + coded.length) :: coded else plain
  else if 127 < s.length then
    let coded := hpackHuffmanSize s
    if coded < s.length then hpPutInt 7 128 coded ++ hpHuffmanPut s coded else plain
  else plain

def hpReserveKind (name : List Byte) : Nat :=
  if name = ascii "authorization" ∨ name = ascii "proxy-authorization" then 2
  else if name = ascii "age" ∨ name = ascii "etag" ∨ name = ascii "cookie" ∨
      name = ascii "set-cookie" ∨ name = ascii "content-range" ∨ name = ascii "if-none-match" ∨
      name = ascii "content-length" ∨ name = ascii "if-modified-since" then 1
  else 0

def hpStaticName (index : Nat) : List Byte := (hpackStatic.getD index ([], [])).1
def hpStaticValue (index : Nat) : List Byte := (hpackStatic.getD index ([], [])).2

/-- The static names as long as `name`: where the one equal to it begins, and its entries. -/
def staticNamed (name : List Byte) : Option (Nat × Nat) :=
  if name.length ≤ hpackStaticLongestName then
    let low := hpackStaticByLen.getD name.length 0
    let high := hpackStaticByLen.getD (name.length + 1) 0
    ((hpackStaticNames.drop low).take (high - low)).find? fun entry => hpStaticName entry.1 == name
  else none

def searchStatic (name value : List Byte) : Nat × Nat :=
  match staticNamed name with
  | none => (0, 0)
  | some (first, count) =>
    match (List.range' first count).find? fun k => hpStaticValue k == value with
    | none => (0, first + 1)
    | some k => (k + 1, first + 1)

def searchDynamic (reserve : Nat) (name value : List Byte) : List Field → Nat → Nat × Nat → Nat × Nat
  | [], _, found => found
  | entry :: older, k, (whole, byName) =>
    if whole = 0 ∧ (reserve = 0 ∨ byName = 0) then
      if entry.name ≠ name then searchDynamic reserve name value older (k + 1) (whole, byName)
      else
        searchDynamic reserve name value older (k + 1)
          (if entry.value = value then hpackStaticCount + k + 1 else whole,
            if byName = 0 then hpackStaticCount + k + 1 else byName)
    else (whole, byName)

def reserveOf (header : Field × Bool) : Nat :=
  if header.2 then 2 else hpReserveKind header.1.name

def searchField (table : HpTable) (header : Field × Bool) : Nat × Nat :=
  searchDynamic (reserveOf header) header.1.name header.1.value table.entries.reverse 0
    (searchStatic header.1.name header.1.value)

def enters (table : HpTable) (header : Field × Bool) : Bool :=
  decide (reserveOf header = 0 ∧ fieldSize header.1 ≤ table.max)

def literalHead (table : HpTable) (header : Field × Bool) (byName : Nat) : List Byte :=
  if enters table header then hpPutInt 6 64 byName
  else hpPutInt 4 (if reserveOf header = 2 then 16 else 0) byName

def namePart (byName : Nat) (name : List Byte) : List Byte :=
  if byName = 0 then hpPutString name else []

def encodeField (table : HpTable) (header : Field × Bool) : List Byte × HpTable :=
  let found := searchField table header
  if found.1 ≠ 0 ∧ reserveOf header ≠ 2 then (hpPutInt 7 128 found.1, table)
  else
    (literalHead table header found.2 ++ namePart found.2 header.1.name ++ hpPutString header.1.value,
      if enters table header then hpTableAdd table header.1.name header.1.value else table)

def encodeFields : HpTable → List (Field × Bool) → List Byte × HpTable
  | table, [] => ([], table)
  | table, header :: rest =>
    let (line, table) := encodeField table header
    let (lines, table) := encodeFields table rest
    (line ++ lines, table)

def sizeUpdates (c : HpackEncoder) : List Byte :=
  if c.announce then
    (if c.announceLow < c.table.max then hpPutInt 5 32 c.announceLow else []) ++ hpPutInt 5 32 c.table.max
  else []

/-- `proven_hpack_encode`, with `room` bytes left of the output: the block appended. -/
def hpackEncode (c : HpackEncoder) (headers : List (Field × Bool)) (room : Nat) :
    Except ProvenErr (List Byte × HpackEncoder) :=
  if room < hpackEncodeBound headers then .error .outOfBounds
  else
    let (lines, table) := encodeFields c.table headers
    .ok (sizeUpdates c ++ lines, { c with table := table, announce := false })

end ProvenC.Hpack.Encoder
