import ProvenC.Bytes

/-!
# Hex and Base64

The encoders and decoders of `encode.c`. The output is the caller's memory: a call answers with
what it returns and with that memory afterwards.
-/

namespace ProvenC.Text.Encode

open Bytes

/-- Where `proven_size_t` ends. -/
def sizeEnd : Nat := 2 ^ 64

def checked (value : Nat) : Option Nat := if value < sizeEnd then some value else none

def store (out bytes : List Byte) : Except ProvenErr Nat × List Byte := (.ok bytes.length, bytes ++ out.drop bytes.length)

def hexDigits : List Byte := ascii "0123456789abcdef"

def hexValue (c : Byte) : Option Nat :=
  if '0'.toNat ≤ c.val ∧ c.val ≤ '9'.toNat then some (c.val - '0'.toNat)
  else if 'a'.toNat ≤ c.val ∧ c.val ≤ 'f'.toNat then some (c.val - 'a'.toNat + 10)
  else if 'A'.toNat ≤ c.val ∧ c.val ≤ 'F'.toNat then some (c.val - 'A'.toNat + 10)
  else none

def hexExactSize (n : Nat) : Option Nat := checked (n * 2)

def hexEncodedSize (n : Nat) : Nat := (hexExactSize n).getD (sizeEnd - 1)

def hexDecodedSize (n : Nat) : Nat := n / 2

def hexChars (data : List Byte) : List Byte :=
  data.flatMap fun byte => [hexDigits.getD (byte.val >>> 4) 0, hexDigits.getD (byte.val &&& 0x0f) 0]

def hexEncode (data out : List Byte) : Except ProvenErr Nat × List Byte :=
  match hexExactSize data.length with
  | none => (.error .overflow, out)
  | some need => if out.length < need then (.error .outOfBounds, out) else store out (hexChars data)

def hexBytes : List Byte → List Byte
  | high :: low :: rest => byteOf (((hexValue high).getD 0 <<< 4) ||| (hexValue low).getD 0) :: hexBytes rest
  | _ => []

def hexDecode (text out : List Byte) : Except ProvenErr Nat × List Byte :=
  if text.length % 2 ≠ 0 then (.error .invalidEncoding, out)
  else if out.length < text.length / 2 then (.error .outOfBounds, out)
  else if text.all (fun c => (hexValue c).isSome) = false then (.error .invalidEncoding, out)
  else store out (hexBytes text)

def b64Std : List Byte := ascii "ABCDEFGHIJKLMNOPQRSTUVWXYZabcdefghijklmnopqrstuvwxyz0123456789+/"

def b64Url : List Byte := ascii "ABCDEFGHIJKLMNOPQRSTUVWXYZabcdefghijklmnopqrstuvwxyz0123456789-_"

def equalsSign : Byte := byteOf '='.toNat

def b64Value (c : Byte) : Option Nat :=
  if 'A'.toNat ≤ c.val ∧ c.val ≤ 'Z'.toNat then some (c.val - 'A'.toNat)
  else if 'a'.toNat ≤ c.val ∧ c.val ≤ 'z'.toNat then some (c.val - 'a'.toNat + 26)
  else if '0'.toNat ≤ c.val ∧ c.val ≤ '9'.toNat then some (c.val - '0'.toNat + 52)
  else if c.val = '+'.toNat ∨ c.val = '-'.toNat then some 62
  else if c.val = '/'.toNat ∨ c.val = '_'.toNat then some 63
  else none

def base64ExactSize (n : Nat) (pad : Bool) : Option Nat :=
  match checked (n / 3 * 4) with
  | none => none
  | some need => checked (need + if n % 3 = 1 then (if pad then 4 else 2) else if n % 3 = 2 then (if pad then 4 else 3) else 0)

def base64EncodedSize (n : Nat) : Nat := (base64ExactSize n true).getD (sizeEnd - 1)

def base64DecodedSize (n : Nat) : Nat := (n / 4 * 3 + if n % 4 ≠ 0 then 3 else 0) % sizeEnd

/-- `alphabet[(v >> shift) & 0x3F]` -/
def digitOf (alphabet : List Byte) (v shift : Nat) : Byte := alphabet.getD ((v >>> shift) &&& 0x3f) 0

/-- The characters `base64_encode_impl` writes: the whole groups, then what is left. -/
def base64Chars (alphabet : List Byte) (pad : Bool) : List Byte → List Byte
  | a :: b :: c :: rest =>
    let v := (a.val <<< 16) ||| (b.val <<< 8) ||| c.val
    [digitOf alphabet v 18, digitOf alphabet v 12, digitOf alphabet v 6, digitOf alphabet v 0] ++
      base64Chars alphabet pad rest
  | [a, b] =>
    let v := (a.val <<< 16) ||| (b.val <<< 8)
    [digitOf alphabet v 18, digitOf alphabet v 12, digitOf alphabet v 6] ++ if pad then [equalsSign] else []
  | [a] =>
    let v := a.val <<< 16
    [digitOf alphabet v 18, digitOf alphabet v 12] ++ if pad then [equalsSign, equalsSign] else []
  | [] => []

def base64EncodeImpl (data out alphabet : List Byte) (pad : Bool) : Except ProvenErr Nat × List Byte :=
  match base64ExactSize data.length pad with
  | none => (.error .overflow, out)
  | some need => if out.length < need then (.error .outOfBounds, out) else store out (base64Chars alphabet pad data)

def base64Encode (data out : List Byte) : Except ProvenErr Nat × List Byte := base64EncodeImpl data out b64Std true

def base64urlEncode (data out : List Byte) : Except ProvenErr Nat × List Byte := base64EncodeImpl data out b64Url false

def significant (text : List Byte) : Nat → Nat
  | 0 => 0
  | n + 1 => if text.getD n 0 = equalsSign then significant text n else n + 1

/-- The bytes the significant characters stand for, `none` counted as zero. -/
def base64Bytes : List Byte → List Byte
  | a :: b :: c :: d :: rest =>
    let v := ((b64Value a).getD 0 <<< 18) ||| ((b64Value b).getD 0 <<< 12) ||| ((b64Value c).getD 0 <<< 6) |||
      (b64Value d).getD 0
    [byteOf (v >>> 16), byteOf (v >>> 8), byteOf v] ++ base64Bytes rest
  | [a, b, c] =>
    let v := ((b64Value a).getD 0 <<< 18) ||| ((b64Value b).getD 0 <<< 12) ||| ((b64Value c).getD 0 <<< 6)
    [byteOf (v >>> 16), byteOf (v >>> 8)]
  | [a, b] =>
    let v := ((b64Value a).getD 0 <<< 18) ||| ((b64Value b).getD 0 <<< 12)
    [byteOf (v >>> 16)]
  | _ => []

def base64OutLen (n : Nat) : Nat := (n / 4 * 3 + if n % 4 = 2 then 1 else if n % 4 = 3 then 2 else 0) % sizeEnd

def base64Decode (text out : List Byte) : Except ProvenErr Nat × List Byte :=
  let n := significant text text.length
  let pad := text.length - n
  if 2 < pad then (.error .invalidEncoding, out)
  else if 0 < pad ∧ text.length % 4 ≠ 0 then (.error .invalidEncoding, out)
  else if (text.take n).all (fun c => (b64Value c).isSome) = false then (.error .invalidEncoding, out)
  else if n % 4 = 1 then (.error .invalidEncoding, out)
  else if out.length < base64OutLen n then (.error .outOfBounds, out)
  else store out (base64Bytes (text.take n))

end ProvenC.Text.Encode
