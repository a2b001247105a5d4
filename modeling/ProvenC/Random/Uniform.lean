import ProvenC.Bytes
import ProvenC.Lib.Rejection
import ProvenC.Lib.Shuffling

/-!
# Uniform draws

The helpers over a `proven_rng_t`: a number below a bound, a number of an interval, a shuffle.
-/

namespace ProvenC.Random.Uniform

open Bytes Lib.Cells Lib.Shuffling

/-- A `proven_u64` as a generator gives it. -/
abbrev Word := Fin (2 ^ 64)

/-- Whether the compiler defines `__SIZEOF_INT128__`. -/
inductive Build where
  | int128
  | portable
  deriving DecidableEq, Repr

def mul64x64Int128 (a b : Nat) : Nat × Nat :=
  let p := a * b % 2 ^ 128
  (p / 2 ^ 64, p % 2 ^ 64)

def mul64x64Portable (a b : Nat) : Nat × Nat :=
  let mask := 2 ^ 32 - 1
  let a0 := a &&& mask
  let a1 := a / 2 ^ 32
  let b0 := b &&& mask
  let b1 := b / 2 ^ 32
  let p00 := a0 * b0 % 2 ^ 64
  let p01 := a0 * b1 % 2 ^ 64
  let p10 := a1 * b0 % 2 ^ 64
  let p11 := a1 * b1 % 2 ^ 64
  let mid := (p10 + p00 / 2 ^ 32 + (p01 &&& mask)) % 2 ^ 64
  ((p11 + mid / 2 ^ 32 + p01 / 2 ^ 32) % 2 ^ 64, (mid * 2 ^ 32 % 2 ^ 64) ||| (p00 &&& mask))

def mul64x64 : Build → Nat → Nat → Nat × Nat
  | .int128 => mul64x64Int128
  | .portable => mul64x64Portable

abbrev Drawing (α : Type) := StateT (List Word) Option α

def nextU64 : Drawing Word
  | [] => none
  | draw :: draws => some (draw, draws)

variable (build : Build) (isValid : Bool)

/-- The loop of `proven_rng_below`: products are drawn until the low half reaches `threshold`. -/
def belowLoop (bound threshold : Nat) (product : Nat × Nat) (draws : List Word) : Option (Nat × List Word) :=
  if product.2 < threshold then
    match draws with
    | [] => none
    | draw :: draws => belowLoop bound threshold (mul64x64 build draw.val bound) draws
  else some (product.1, draws)

def below (bound : Nat) : Drawing Nat :=
  if bound = 0 ∨ ¬isValid then pure 0
  else do
    let draw ← nextU64
    let product := mul64x64 build draw.val bound
    if product.2 < bound then belowLoop build bound ((2 ^ 64 - bound) % 2 ^ 64 % bound) product
    else pure product.1

def u64 : Drawing Nat :=
  if ¬isValid then pure 0
  else do
    let draw ← nextU64
    pure draw.val

/-- The cast of a `proven_i64` to `proven_u64`. -/
def unsigned (value : Int) : Nat := (value % 2 ^ 64).toNat

/-- The cast of a `proven_u64` to `proven_i64`. -/
def signed (value : Nat) : Int := if value < 2 ^ 63 then value else value - 2 ^ 64

def range (low high : Int) : Drawing Int :=
  if high < low then pure low
  else
    let span := (unsigned high + (2 ^ 64 - unsigned low)) % 2 ^ 64
    if span = 2 ^ 64 - 1 then do
      let value ← u64 isValid
      pure (signed value)
    else do
      let r ← below build isValid ((span + 1) % 2 ^ 64)
      pure (signed ((unsigned low + r) % 2 ^ 64))

/-- The loop of `proven_rng_shuffle`, from `i` down. -/
def shuffleLoop (base size : Nat) : Nat → (Nat → Byte) → Drawing (Nat → Byte)
  | 0, cells => pure cells
  | i + 1, cells => do
      let j ← below build isValid ((i + 1 + 1) % 2 ^ 64)
      if j = i + 1 then shuffleLoop base size i cells
      else shuffleLoop base size i (exchangedUp cells (base + (i + 1) * size) (base + j * size) size)

/-- `proven_rng_shuffle` of `count` elements of `size` bytes at `base`. -/
def shuffle (base count size : Nat) (cells : Nat → Byte) : Drawing (Nat → Byte) :=
  if base = 0 ∨ size = 0 ∨ count < 2 ∨ ¬isValid then pure cells
  else shuffleLoop build isValid base size (count - 1) cells

/-- The positions that `proven_rng_shuffle` draws, for `top` first. -/
def choices : Nat → Drawing (List Nat)
  | 0 => pure []
  | i + 1 => do
      let j ← below build isValid ((i + 1 + 1) % 2 ^ 64)
      let rest ← choices i
      pure (j :: rest)

end ProvenC.Random.Uniform
