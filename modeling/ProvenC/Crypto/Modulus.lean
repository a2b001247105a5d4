import ProvenC.Crypto.Montgomery
import ProvenC.Lib.BigEndian

/-!
# A modulus

What a modulus is read from and what is prepared with it: the inverse of its lowest limb and the
square of the power of the base, which takes a number into its Montgomery form.
-/

namespace ProvenC.Crypto.Modulus

open Bytes Lib.Limbs Lib.BigEndian Crypto.Words Crypto.Montgomery

variable {limbBits : LimbBits}

def mpLimbs (limbBits : LimbBits) (bytes : Nat) : Nat := (bytes + limbBits.bytes - 1) / limbBits.bytes

def mpMaxBytes : Nat := 1024

def orByte (out : List (Limb limbBits.width)) (i : Nat) (v : Byte) : List (Limb limbBits.width) :=
  out.modify (i / limbBits.bytes) fun limb =>
    low (limb.val ||| (low (v.val * 2 ^ (8 * (i % limbBits.bytes))) : Limb limbBits.width).val)

/-- The bytes from the last on, the `i`-th and those after it. -/
def loadFrom : Nat → List Byte → List (Limb limbBits.width) → Option (List (Limb limbBits.width))
  | _, [], out => some out
  | i, v :: rest, out =>
    if out.length ≤ i / limbBits.bytes then (if v ≠ byteOf 0 then none else loadFrom (i + 1) rest out)
    else loadFrom (i + 1) rest (orByte out i v)

def loadBe (limbBits : LimbBits) (limbs : Nat) (be : List Byte) : Option (List (Limb limbBits.width)) :=
  loadFrom 0 be.reverse (zeros limbs)

def orFrom : Nat → List Byte → List (Limb limbBits.width) → List (Limb limbBits.width)
  | _, [], out => out
  | i, v :: rest, out => orFrom (i + 1) rest (orByte out i v)

def newton {width : Nat} (n0 : Limb width) : Nat → Limb width → Limb width
  | 0, inv => inv
  | rounds + 1, inv =>
    newton n0 rounds (low (inv.val * (2 + (2 ^ width - (low (n0.val * inv.val) : Limb width).val))))

def doubleOnce {width : Nat} (n r : List (Limb width)) : List (Limb width) :=
  let (s, carry) := addRaw r r
  reduceOnce s carry n

def doublings {width : Nat} (n : List (Limb width)) : Nat → List (Limb width) → List (Limb width)
  | 0, r => r
  | rounds + 1, r => doublings n rounds (doubleOnce n r)

def topBit (limbs : Nat) : Nat := (List.range 16).foldl (fun top bit => if limbs / 2 ^ bit % 2 = 1 then bit else top) 0

def limbPower {width : Nat} (mod : MpMod width) (c : List (Limb width)) : Nat → List (Limb width) → List (Limb width)
  | 0, r => r
  | bit + 1, r =>
    let r := montsqr mod r
    limbPower mod c bit (if mod.limbs / 2 ^ bit % 2 = 1 then montmul mod r c else r)

def finishStart (limbBits : LimbBits) (limbs : Nat) (topLimbSet : Bool) : List (Limb limbBits.width) :=
  (zeros limbs).set (if topLimbSet then limbs - 1 else 0) (low 1)

def withInverse (limbs bits : Nat) (n : List (Limb limbBits.width)) : MpMod limbBits.width :=
  { limbs := limbs, bits := bits, n0inv := negLimb (newton (n.headD (low 0)) 5 (n.headD (low 0))), n := n, rr := zeros limbs }

def withSquare {width : Nat} (mod : MpMod width) (r : List (Limb width)) : MpMod width :=
  { mod with rr := limbPower mod r (topBit mod.limbs) r }

def modFinish (limbs bits : Nat) (n : List (Limb limbBits.width)) (topLimbSet : Bool) : MpMod limbBits.width :=
  withSquare (withInverse limbs bits n)
    (doublings n (if topLimbSet then 2 * limbBits.width else limbBits.width * (limbs + 1))
      (finishStart limbBits limbs topLimbSet))

def lessBits : Nat → Nat → Nat → Nat
  | 0, _, bits => bits
  | rounds + 1, top, bits => if top / 128 % 2 = 0 then lessBits rounds (top * 2 % 256) (bits - 1) else bits

def modInit (limbBits : LimbBits) (be : List Byte) : Option (MpMod limbBits.width) :=
  let be := be.dropWhile (· == byteOf 0)
  if be.length = 0 ∨ mpMaxBytes < be.length then none
  else
    let limbs := mpLimbs limbBits be.length
    match loadBe limbBits limbs be with
    | none => none
    | some n =>
      let n0 := n.headD (low 0)
      if n0.val % 2 = 0 then none
      else if limbs = 1 ∧ n0.val < 3 then none
      else some (modFinish limbs (lessBits 8 (be.headD (byteOf 0)).val (be.length * 8)) n true)

def modInitSecret (limbBits : LimbBits) (be : List Byte) : Option (MpMod limbBits.width) :=
  if be.length < 8 ∨ mpMaxBytes < be.length then none
  else
    let limbs := mpLimbs limbBits be.length
    let n := orFrom 0 be.reverse (zeros limbs)
    if (n.headD (low 0)).val % 2 = 0 then none
    else some (modFinish limbs (be.length * 8) n false)

def oneOf {width : Nat} (limbs : Nat) : List (Limb width) := (zeros limbs).set 0 (low 1)

def toMont {width : Nat} (mod : MpMod width) (a : List (Limb width)) : List (Limb width) := montmul mod a mod.rr

def fromMont {width : Nat} (mod : MpMod width) (a : List (Limb width)) : List (Limb width) :=
  montmul mod a (oneOf mod.limbs)

def mpAdd {width : Nat} (mod : MpMod width) (a b : List (Limb width)) : List (Limb width) :=
  let (s, carry) := addRaw a b
  reduceOnce s carry mod.n

/-- The chunks of a number from `pos` on, the first of them the short one. -/
def reduceFrom (mod : MpMod limbBits.width) (len : Nat) : Nat → Nat → List Byte → List (Limb limbBits.width) →
    List (Limb limbBits.width)
  | 0, _, _, r => r
  | rounds + 1, pos, be, r =>
    if be = [] then r
    else
      let chunk := mod.limbs * limbBits.bytes
      let take := if pos = 0 ∧ len % chunk ≠ 0 then len % chunk else chunk
      -- It fits, and the load is not asked whether it did.
      let c := (loadBe limbBits mod.limbs (be.take take)).getD (zeros mod.limbs)
      let c := fromMont mod (toMont mod c)
      reduceFrom mod len rounds (pos + take) (be.drop take) (mpAdd mod (toMont mod r) c)

def reduceBe (mod : MpMod limbBits.width) (be : List Byte) : List (Limb limbBits.width) :=
  reduceFrom mod be.length be.length 0 be (zeros mod.limbs)

end ProvenC.Crypto.Modulus
