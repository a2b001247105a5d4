import Mathlib
/-!
# Bytes and error codes

A `proven_byte_t` is a `Byte`; lengths and counters are natural numbers, with the wrap
written out where the code depends on it.
-/

namespace ProvenC.Bytes

abbrev Byte := Fin 256

instance byteNeZero : NeZero 256 := ⟨by decide⟩

/-- The cast to `proven_byte_t`. -/
def byteOf (value : Nat) : Byte := ⟨value % 256, Nat.mod_lt _ (by decide)⟩

@[simp] theorem byte_of_val (value : Nat) : (byteOf value).val = value % 256 := rfl

theorem byte_of_val_eq (byte : Byte) : byteOf byte.val = byte :=
  Fin.ext (Nat.mod_eq_of_lt byte.isLt)

def ascii (text : String) : List Byte := text.toList.map fun char => byteOf char.toNat

/-- The codes of `proven_err_t` the modelled functions return. -/
inductive ProvenErr where
  | invalidArg
  | invalidState
  | invalidFormat
  | outOfBounds
  | noMem
  | notFound
  | busy
  | unsupported
  | again
  | needMore
  | overflow
  | eof
  | invalidEncoding
  | permission
  | io
  | expired
  | notYetValid
  | nameMismatch
  | untrusted
  deriving DecidableEq, Repr

end ProvenC.Bytes
