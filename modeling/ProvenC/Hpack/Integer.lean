import ProvenC.Bytes

/-!
# Integers with a bit-field in front (RFC 7541, section 5.1)

A value shares its first byte with the bits that name the instruction; what does not fit
there follows seven bits at a time, lowest first. The reader takes at most five such bytes.
-/

namespace ProvenC.Hpack.Integer

open List Bytes

def hpackIntMaxContinuation : Nat := 5

/-- The continuation bytes: `left` more may come. -/
def hpIntRest : Nat → Nat → Nat → List Byte → Option (Nat × List Byte)
  | 0, _, _, _ => none
  | _ + 1, _, _, [] => none
  | left + 1, shift, v, byte :: rest =>
    let v := v + byte.val % 128 * 2 ^ shift
    if byte.val < 128 then some (v, rest) else hpIntRest left (shift + 7) v rest

/-- `hp_int`: the value whose first byte holds `width` bits of it, and what follows it. -/
def hpInt (width : Nat) : List Byte → Option (Nat × List Byte)
  | [] => none
  | byte :: rest =>
    let v := byte.val % 2 ^ width
    if v = 2 ^ width - 1 then hpIntRest hpackIntMaxContinuation 0 v rest else some (v, rest)

def hpPutIntRest : Nat → Nat → List Byte
  | 0, v => [byteOf v]
  | left + 1, v =>
    if 128 ≤ v then byteOf (128 + v % 128) :: hpPutIntRest left (v / 128) else [byteOf v]

/-- `hp_put_int`: `first` holds the bits of the instruction, in the places above `width`. -/
def hpPutInt (width first v : Nat) : List Byte :=
  let mask := 2 ^ width - 1
  if v < mask then [byteOf (first + v)]
  else byteOf (first + mask) :: hpPutIntRest 9 (v - mask)

theorem put_last (left : Nat) {value : Nat} (small : value < 128) : hpPutIntRest left value = [byteOf value] := by
  cases left with
  | zero => rfl
  | succ left => simp [hpPutIntRest, not_le.mpr small]

theorem last_byte {value : Nat} (small : value < 128) : (byteOf value).val = value := by
  rw [byte_of_val]
  omega

theorem more_byte (value : Nat) : (byteOf (128 + value % 128)).val = 128 + value % 128 := by
  rw [byte_of_val]
  omega

theorem digits_join (base shift value : Nat) :
    base + value % 128 * 2 ^ shift + value / 128 * 2 ^ (shift + 7) = base + value * 2 ^ shift := by
  have split := Nat.mod_add_div value 128
  have power : 2 ^ (shift + 7) = 128 * 2 ^ shift := by rw [pow_add]; ring
  rw [power, add_assoc, ← mul_assoc, ← add_mul, mul_comm (value / 128), split]

theorem int_rest_last (left extra shift base : Nat) {value : Nat} (suffix : List Byte) (small : value < 128) :
    hpIntRest (left + 1) shift base (hpPutIntRest extra value ++ suffix) = some (base + value * 2 ^ shift, suffix) := by
  rw [put_last extra small, cons_append, nil_append, hpIntRest, last_byte small, Nat.mod_eq_of_lt small]
  exact if_pos small

theorem int_rest_roundtrip (left extra shift base value : Nat) (suffix : List Byte) (fits : value < 128 ^ (left + 1)) :
    hpIntRest (left + 1) shift base (hpPutIntRest (left + extra) value ++ suffix) =
      some (base + value * 2 ^ shift, suffix) := by
  induction left generalizing shift base value with
  | zero => exact int_rest_last 0 _ shift base suffix (by simpa using fits)
  | succ left ih =>
    by_cases small : value < 128
    · exact int_rest_last (left + 1) _ shift base suffix small
    have later := ih (shift + 7) (base + value % 128 * 2 ^ shift) (value / 128)
      (by rw [pow_succ] at fits; omega)
    rw [Nat.add_right_comm left 1 extra, hpPutIntRest, if_pos (by omega), cons_append, hpIntRest, more_byte, if_neg (by omega),
      Nat.add_mod_left, Nat.mod_mod, later, digits_join]

/-- The largest value a reader of `width` bits takes. -/
def hpIntLimit (width : Nat) : Nat := 2 ^ width - 1 + 2 ^ 35

theorem width_divides {width : Nat} (narrow : width ≤ 8) : 2 ^ width ∣ 256 := by
  rw [show 256 = 2 ^ 8 by rfl]
  exact Nat.pow_dvd_pow 2 narrow

theorem low_bits {width first rest : Nat} (narrow : width ≤ 8) (aligned : first % 2 ^ width = 0) (small : rest < 2 ^ width) :
    (byteOf (first + rest)).val % 2 ^ width = rest := by
  rw [byte_of_val, Nat.mod_mod_of_dvd _ (width_divides narrow), Nat.add_mod, aligned, zero_add, Nat.mod_mod, Nat.mod_eq_of_lt small]

theorem int_roundtrip {width first value : Nat} (suffix : List Byte) (narrow : width ≤ 8)
    (aligned : first % 2 ^ width = 0) (fits : value < hpIntLimit width) :
    hpInt width (hpPutInt width first value ++ suffix) = some (value, suffix) := by
  have positive : 0 < 2 ^ width := Nat.two_pow_pos width
  have low (rest : Nat) := @low_bits width first rest narrow aligned
  unfold hpPutInt
  simp only
  split
  next short =>
    simp only [cons_append, nil_append, hpInt, low value (by omega)]
    rw [if_neg (by omega)]
  rename_i long
  have read := int_rest_roundtrip 4 5 0 (2 ^ width - 1) (value - (2 ^ width - 1)) suffix
    (by unfold hpIntLimit at fits; norm_num at fits ⊢; omega)
  simp only [cons_append, hpInt, low (2 ^ width - 1) (by omega)]
  rw [if_pos trivial, hpackIntMaxContinuation, read]
  congr 2
  simp only [pow_zero, mul_one]
  omega

theorem int_rest_over (left extra shift base value : Nat) (suffix : List Byte) (exceeds : 128 ^ left ≤ value) :
    hpIntRest left shift base (hpPutIntRest (left + extra) value ++ suffix) = none := by
  induction left generalizing shift base value with
  | zero => rfl
  | succ left ih =>
    have power : 128 ^ (left + 1) = 128 ^ left * 128 := pow_succ 128 left
    have one : 1 ≤ 128 ^ left := Nat.one_le_pow left 128 (by decide)
    rw [Nat.add_right_comm left 1 extra, hpPutIntRest, if_pos (by omega), cons_append, hpIntRest, more_byte, if_neg (by omega)]
    exact ih (shift + 7) _ (value / 128) (by omega)

theorem int_over {width first value : Nat} (suffix : List Byte) (narrow : width ≤ 8)
    (aligned : first % 2 ^ width = 0) (exceeds : hpIntLimit width ≤ value) :
    hpInt width (hpPutInt width first value ++ suffix) = none := by
  have positive : 0 < 2 ^ width := Nat.two_pow_pos width
  unfold hpIntLimit at exceeds
  have low := @low_bits width first (2 ^ width - 1) narrow aligned (by omega)
  unfold hpPutInt
  simp only
  rw [if_neg (by omega), cons_append, hpInt]
  simp only [low]
  rw [if_pos trivial]
  exact int_rest_over hpackIntMaxContinuation 4 0 _ _ suffix (by simp only [hpackIntMaxContinuation]; omega)

theorem put_int_head (width first value : Nat) (narrow : width ≤ 8)
    (aligned : first % 2 ^ width = 0) (byte : first < 256) : ∃ head tail, hpPutInt width first value = head :: tail ∧
      first ≤ head.val ∧ head.val < first + 2 ^ width := by
  have positive : 0 < 2 ^ width := Nat.two_pow_pos width
  have divides := width_divides narrow
  have room : first + 2 ^ width ≤ 256 := by
    obtain ⟨count, rfl⟩ := Nat.dvd_of_mod_eq_zero aligned
    obtain ⟨whole, total⟩ := divides
    rw [total] at byte ⊢
    have less : count < whole := Nat.lt_of_mul_lt_mul_left byte
    rw [← Nat.mul_succ]
    exact Nat.mul_le_mul_left _ less
  unfold hpPutInt
  simp only
  split
  all_goals refine ⟨_, _, rfl, ?_, ?_⟩ <;> rw [byte_of_val] <;> omega

example : hpPutInt 5 0 1337 = [0x1f, 0x9a, 0x0a] := by decide

end ProvenC.Hpack.Integer
