import ProvenC.Bytes
import ProvenC.Lib.Cells
import ProvenC.Lib.Segments
import ProvenC.Text.Utf

/-!
# Percent-decoding and paths

The percent-decoders of `url.c` and the resolution of a request's path. Memory is a byte for every
address; the output buffer starts at address 0.
-/

namespace ProvenC.Url.Path

open Bytes Lib.Cells Lib.Segments Text.Utf

def slash : Byte := byteOf '/'.toNat

def percent : Byte := byteOf '%'.toNat

def plusSign : Byte := byteOf '+'.toNat

def space : Byte := byteOf ' '.toNat

def backslash : Byte := byteOf 0x5C

def dot : Byte := byteOf '.'.toNat

def urlHex (c : Byte) : Option Nat :=
  if '0'.toNat ≤ c.val ∧ c.val ≤ '9'.toNat then some (c.val - '0'.toNat)
  else if 'a'.toNat ≤ c.val ∧ c.val ≤ 'f'.toNat then some (c.val - 'a'.toNat + 10)
  else if 'A'.toNat ≤ c.val ∧ c.val ≤ 'F'.toNat then some (c.val - 'A'.toNat + 10)
  else none

abbrev Memory := Nat → Byte

abbrev Source := Memory → Nat → Byte

def apartFrom (input : List Byte) : Source := fun _ i => input.getD i 0

/-- `out.ptr` is `in.ptr`. -/
def inPlace : Source := fun cells i => cells i

/-- The byte the input has at `i` (`%XX` is one), whether it is escaped, and where the next one is. -/
def unitAt (fetch : Nat → Byte) (size i : Nat) : Option (Byte × Bool × Nat) :=
  if fetch i = percent then
    if size - i < 3 then none
    else
      match urlHex (fetch (i + 1)), urlHex (fetch (i + 2)) with
      | some hi, some lo => some (byteOf ((hi <<< 4) ||| lo), true, i + 3)
      | _, _ => none
  else some (fetch i, false, i + 1)

structure Decoding where
  i : Nat
  w : Nat
  cells : Memory

/-- A round of the loops of `url_decode` and of `proven_url_path_resolve`'s step 1. -/
def decodeTurn (source : Source) (size outSize : Nat) (accept : Byte → Bool → Option Byte) (st : Decoding) :
    Except ProvenErr Decoding :=
  match unitAt (source st.cells) size st.i with
  | none => .error .invalidFormat
  | some (c, escaped, next) =>
    match accept c escaped with
    | none => .error .invalidFormat
    | some c =>
      if outSize ≤ st.w then .error .outOfBounds
      else .ok { i := next, w := st.w + 1, cells := stored st.cells st.w c }

def decodeLoop (source : Source) (size outSize : Nat) (accept : Byte → Bool → Option Byte) :
    Nat → Decoding → Except ProvenErr Decoding
  | 0, st => .ok st
  | left + 1, st =>
    if st.i < size then
      match decodeTurn source size outSize accept st with
      | .error err => .error err
      | .ok next => decodeLoop source size outSize accept left next
    else .ok st

/-- `url_decode` lets every byte through; in a form `+` is a space. -/
def formByte (plusIsSpace : Bool) (c : Byte) (escaped : Bool) : Option Byte :=
  if ¬ escaped ∧ c = plusSign ∧ plusIsSpace then some space else some c

/-- `url_decode`: an error, or `*written` and the memory. -/
def urlDecode (source : Source) (size outSize : Nat) (plusIsSpace : Bool) (cells : Memory) :
    Except ProvenErr (Nat × Memory) :=
  match decodeLoop source size outSize (formByte plusIsSpace) size { i := 0, w := 0, cells := cells } with
  | .error err => .error err
  | .ok st => .ok (st.w, st.cells)

def urlPercentDecode (source : Source) (size outSize : Nat) (cells : Memory) : Except ProvenErr (Nat × Memory) :=
  urlDecode source size outSize false cells

/-- What step 1 of `proven_url_path_resolve` refuses: an encoded slash, a control, a backslash. -/
def pathByte (c : Byte) (escaped : Bool) : Option Byte :=
  if escaped ∧ c = slash then none
  else if c.val < 0x20 ∨ c.val = 0x7F ∨ c = backslash then none
  else some c

/-- `while (r < n && out.ptr[r] != '/') r++`, `left` rounds at most. -/
def scanSlash (cells : Memory) (n : Nat) : Nat → Nat → Nat
  | 0, r => r
  | left + 1, r => if r < n ∧ cells r ≠ slash then scanSlash cells n left (r + 1) else r

/-- `while (w > 0 && out.ptr[w - 1] != '/') w--` -/
def stepBack (cells : Memory) : Nat → Nat
  | 0 => 0
  | w + 1 => if cells w ≠ slash then stepBack cells w else w + 1

structure Resolving where
  w : Nat
  r : Nat
  cells : Memory

inductive ResolveTurn where
  | above
  | on (st : Resolving)
  | done (st : Resolving)

def resolveTurn (n : Nat) (st : Resolving) : ResolveTurn :=
  let start := st.r
  let r := scanSlash st.cells n (n - start) start
  let len := r - start
  let go (w : Nat) (cells : Memory) : ResolveTurn :=
    if r = n then .done { w := w, r := r, cells := cells } else .on { w := w, r := r + 1, cells := cells }
  if len = 2 ∧ st.cells start = dot ∧ st.cells (start + 1) = dot then
    if st.w ≤ 1 then .above else go (stepBack st.cells (st.w - 1)) st.cells
  else if 0 < len ∧ ¬ (len = 1 ∧ st.cells start = dot) then
    let cells := copiedUp st.cells st.w start len
    if r = n then go (st.w + len) cells else go (st.w + len + 1) (stored cells (st.w + len) slash)
  else go st.w st.cells

def resolveLoop (n : Nat) : Nat → Resolving → Except ProvenErr Resolving
  | 0, st => .ok st
  | left + 1, st =>
    match resolveTurn n st with
    | .above => .error .permission
    | .done st => .ok st
    | .on st => resolveLoop n left st

/-- `proven_url_path_resolve`: an error, or `*written` and the memory. -/
def urlPathResolve (rawPath : List Byte) (outSize : Nat) (cells : Memory) : Except ProvenErr (Nat × Memory) :=
  if rawPath.head? ≠ some slash then .error .invalidFormat
  else
    match decodeLoop (apartFrom rawPath) rawPath.length outSize pathByte rawPath.length { i := 0, w := 0, cells := cells } with
    | .error err => .error err
    | .ok decoded =>
      match utf8Validate (range decoded.cells 0 decoded.w) with
      | .error _ => .error .invalidFormat
      | .ok _ =>
        match resolveLoop decoded.w decoded.w { w := 1, r := 1, cells := decoded.cells } with
        | .error err => .error err
        | .ok st => .ok (st.w, st.cells)

def decodedUnits : List Byte → Option (List (Byte × Bool))
  | [] => some []
  | c :: rest =>
    if c = percent then
      match rest with
      | a :: b :: later =>
        match urlHex a, urlHex b with
        | some hi, some lo => (decodedUnits later).map ((byteOf (hi * 16 + lo), true) :: ·)
        | _, _ => none
      | _ => none
    else (decodedUnits rest).map ((c, false) :: ·)

def percentDecoded (text : List Byte) : Option (List Byte) := (decodedUnits text).map (·.map Prod.fst)

def isSkipped (segment : List Byte) : Bool := segment = [] ∨ segment = [dot]

def isUp (segment : List Byte) : Bool := segment = [dot, dot]

def pathOf (segments : List (List Byte)) : List Byte := slash :: List.intercalate [slash] segments

def IsPathByte (c : Byte) : Prop := c ≠ slash ∧ 0x20 ≤ c.val ∧ c.val ≠ 0x7F ∧ c ≠ backslash

instance (c : Byte) : Decidable (IsPathByte c) := inferInstanceAs (Decidable (_ ∧ _))

structure OnceDecoded (rawPath : List Byte) (segments : List (List Byte)) : Prop where
  parts : ∃ parts, parts ≠ [] ∧ rawPath = pathOf parts ∧ (∀ part ∈ parts, slash ∉ part) ∧
    parts.map percentDecoded = segments.map some
  bytes : ∀ segment ∈ segments, ∀ c ∈ segment, IsPathByte c
  text : Lib.Unicode.Utf8Text (pathOf segments)

def evalPath (stack segments : List (List Byte)) : Option (List (List Byte)) := stackEval isSkipped isUp stack segments

def asksDirectory (segments : List (List Byte)) : Bool :=
  match segments.getLast? with
  | none => true
  | some segment => isSkipped segment || isUp segment

def writtenPath (names : List (List Byte)) (directory : Bool) : List Byte :=
  pathOf (names ++ if directory then [[]] else [])

structure Contained (path : List Byte) : Prop where
  rooted : path.head? = some slash
  named : ∀ segment ∈ ((path.drop 1).splitOn slash).dropLast, segment ≠ []
  undotted : ∀ segment ∈ (path.drop 1).splitOn slash, segment ≠ [dot] ∧ segment ≠ [dot, dot]
  bytes : ∀ c ∈ path, 0x20 ≤ c.val ∧ c.val ≠ 0x7F ∧ c ≠ backslash
  text : Lib.Unicode.Utf8Text path

end ProvenC.Url.Path
