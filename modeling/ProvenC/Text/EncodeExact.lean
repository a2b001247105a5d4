import ProvenC.Text.Encode

/-!
# Hex and Base64 are exact

`HexSpells` and `Spells` say which digits stand for which bytes, the unused bits of a last digit
being free. The encoders write such digits, and the decoders take all of them and nothing else.
-/

namespace ProvenC.Text.EncodeExact

open List Bytes Text.Encode

variable {data chars text out : List Byte}

inductive HexSpells : List Byte → List Byte → Prop where
  | nothing : HexSpells [] []
  | byte {high low : Byte} {v w : Nat} {text data : List Byte} (isHigh : hexValue high = some v)
      (isLow : hexValue low = some w) (rest : HexSpells text data) :
      HexSpells (high :: low :: text) (byteOf (v * 16 + w) :: data)

inductive Spells : List Byte → List Byte → Prop where
  | nothing : Spells [] []
  | one {a b : Byte} {v w : Nat} (first : b64Value a = some v) (second : b64Value b = some w) :
      Spells [a, b] [byteOf (v * 4 + w / 16)]
  | two {a b c : Byte} {v w x : Nat} (first : b64Value a = some v) (second : b64Value b = some w)
      (third : b64Value c = some x) : Spells [a, b, c] [byteOf (v * 4 + w / 16), byteOf (w % 16 * 16 + x / 4)]
  | group {a b c d : Byte} {v w x y : Nat} {chars data : List Byte} (first : b64Value a = some v)
      (second : b64Value b = some w) (third : b64Value c = some x) (fourth : b64Value d = some y)
      (rest : Spells chars data) : Spells (a :: b :: c :: d :: chars)
        (byteOf (v * 4 + w / 16) :: byteOf (w % 16 * 16 + x / 4) :: byteOf (x % 4 * 64 + y) :: data)

def Forms (text data : List Byte) : Prop :=
  ∃ chars pads, text = chars ++ List.replicate pads equalsSign ∧ Spells chars data ∧
    (pads = 0 ∨ (chars.length + pads) % 4 = 0 ∧ pads ≤ 2)

theorem hex_value_lt {c : Byte} {v : Nat} (found : hexValue c = some v) : v < 16 := by
  have letters : '0'.toNat = 48 ∧ '9'.toNat = 57 ∧ 'a'.toNat = 97 ∧ 'f'.toNat = 102 ∧ 'A'.toNat = 65 ∧ 'F'.toNat = 70 := by
    decide
  unfold hexValue at found
  split_ifs at found <;> cases found <;> omega

theorem b64_value_lt {c : Byte} {v : Nat} (found : b64Value c = some v) : v < 64 := by
  have letters : '0'.toNat = 48 ∧ '9'.toNat = 57 ∧ 'a'.toNat = 97 ∧ 'z'.toNat = 122 ∧ 'A'.toNat = 65 ∧ 'Z'.toNat = 90 := by
    decide
  unfold b64Value at found
  split_ifs at found <;> cases found <;> omega

theorem hex_digit_value : ∀ v : Fin 16, hexValue (hexDigits.getD v.val 0) = some v.val := by
  decide +kernel

def Readable (alphabet : List Byte) : Prop := ∀ v : Fin 64, b64Value (alphabet.getD v.val 0) = some v.val

theorem std_readable : Readable b64Std := by
  unfold Readable
  decide +kernel

theorem url_readable : Readable b64Url := by
  unfold Readable
  decide +kernel

theorem digit_value {alphabet : List Byte} (readable : Readable alphabet) (v shift : Nat) :
    b64Value (digitOf alphabet v shift) = some (v / 2 ^ shift % 64) := by
  have masked : (v >>> shift) &&& 0x3f = v / 2 ^ shift % 64 := by
    rw [Nat.shiftRight_eq_div_pow]
    exact Nat.and_two_pow_sub_one_eq_mod _ 6
  unfold digitOf
  rw [masked]
  exact readable ⟨v / 2 ^ shift % 64, Nat.mod_lt _ (by decide)⟩

theorem or_low {low k : Nat} (high : Nat) (small : low < 2 ^ k) : (high <<< k) ||| low = high * 2 ^ k + low := by
  rw [← Nat.shiftLeft_add_eq_or_of_lt small, Nat.shiftLeft_eq]

theorem or_three {b c : Nat} (a : Nat) (bSmall : b < 256) (cSmall : c < 256) :
    ((a <<< 16) ||| (b <<< 8)) ||| c = a * 65536 + b * 256 + c := by
  rw [Nat.or_assoc, or_low b cSmall, or_low a (by omega)]
  omega

theorem or_four {w x y : Nat} (v : Nat) (wSmall : w < 64) (xSmall : x < 64) (ySmall : y < 64) :
    (((v <<< 18) ||| (w <<< 12)) ||| (x <<< 6)) ||| y = v * 262144 + w * 4096 + x * 64 + y := by
  rw [Nat.or_assoc, Nat.or_assoc, or_low x ySmall, or_low w (by omega), or_low v (by omega)]
  omega

theorem hex_chars_spell (data : List Byte) : HexSpells (hexChars data) data ∧ (hexChars data).length = data.length * 2 := by
  induction data with
  | nil => exact ⟨HexSpells.nothing, rfl⟩
  | cons byte rest ih =>
    have small := byte.isLt
    have high : byte.val >>> 4 = byte.val / 16 := Nat.shiftRight_eq_div_pow _ 4
    have low : byte.val &&& 0x0f = byte.val % 16 := Nat.and_two_pow_sub_one_eq_mod _ 4
    have whole : byteOf (byte.val / 16 * 16 + byte.val % 16) = byte := by
      rw [Nat.div_add_mod']
      exact byte_of_val_eq byte
    have spelled := HexSpells.byte (hex_digit_value ⟨byte.val / 16, by omega⟩) (hex_digit_value ⟨byte.val % 16, by omega⟩)
      ih.1
    dsimp only at spelled
    rw [whole] at spelled
    unfold hexChars at ih ⊢
    rw [flatMap_cons, high, low]
    refine ⟨spelled, ?_⟩
    rw [length_append, ih.2, length_cons, length_cons, length_cons, length_nil]
    omega

theorem hex_spells_bytes (spells : HexSpells text data) :
    hexBytes text = data ∧ text.length = data.length * 2 ∧ ∀ c ∈ text, (hexValue c).isSome = true := by
  induction spells with
  | nothing => exact ⟨rfl, rfl, fun c wrong => absurd wrong not_mem_nil⟩
  | byte isHigh isLow rest ih =>
    obtain ⟨bytes, length, valid⟩ := ih
    refine ⟨?_, ?_, ?_⟩
    · rw [hexBytes, bytes, isHigh, isLow, Option.getD_some, Option.getD_some, or_low _ (hex_value_lt isLow)]
      rfl
    · rw [length_cons, length_cons, length_cons, length]
      omega
    intro c member
    rcases mem_cons.mp member with rfl | member
    · rw [isHigh]
      rfl
    rcases mem_cons.mp member with rfl | member
    · rw [isLow]
      rfl
    · exact valid c member

theorem hex_valid_spells : ∀ text : List Byte, text.length % 2 = 0 → (∀ c ∈ text, (hexValue c).isSome = true) →
    ∃ data, HexSpells text data
  | [], _, _ => ⟨[], HexSpells.nothing⟩
  | [_], odd, _ => absurd odd (by decide : ¬ 1 % 2 = 0)
  | high :: low :: rest, even, valid => by
    obtain ⟨v, isHigh⟩ := Option.isSome_iff_exists.mp (valid high mem_cons_self)
    obtain ⟨w, isLow⟩ := Option.isSome_iff_exists.mp (valid low (mem_cons_of_mem _ mem_cons_self))
    rw [length_cons, length_cons] at even
    obtain ⟨data, spells⟩ := hex_valid_spells rest (by omega)
      fun c member => valid c (mem_cons_of_mem _ (mem_cons_of_mem _ member))
    exact ⟨_, HexSpells.byte isHigh isLow spells⟩

/-- What an encoder or a decoder does with bytes to write: there is room for all, or nothing is written. -/
def puts (out bytes : List Byte) : Except ProvenErr Nat × List Byte :=
  if bytes.length ≤ out.length then store out bytes else (.error .outOfBounds, out)

theorem hex_decode_spells (spells : HexSpells text data) (out : List Byte) : hexDecode text out = puts out data := by
  obtain ⟨bytes, length, valid⟩ := hex_spells_bytes spells
  have all_ : ¬ text.all (fun c => (hexValue c).isSome) = false := by
    rw [Bool.not_eq_false, all_eq_true]
    exact valid
  unfold hexDecode puts
  rw [if_neg (by omega), if_neg all_, bytes]
  by_cases room : data.length ≤ out.length
  · rw [if_neg (by omega), if_pos room]
  · rw [if_pos (by omega), if_neg room]

theorem hex_decode_refuses (never : ∀ data, ¬ HexSpells text data) (out : List Byte) :
    ∃ err, hexDecode text out = (.error err, out) := by
  unfold hexDecode
  split
  · exact ⟨_, rfl⟩
  rename_i even
  split
  · exact ⟨_, rfl⟩
  split
  · exact ⟨_, rfl⟩
  rename_i all_
  rw [Bool.not_eq_false, all_eq_true] at all_
  obtain ⟨data, spells⟩ := hex_valid_spells text (by omega) all_
  exact absurd spells (never data)

def lastDigits (left : Nat) : Nat := if left = 1 then 2 else if left = 2 then 3 else 0

def lastBytes (left : Nat) : Nat := if left = 2 then 1 else if left = 3 then 2 else 0

def padsOf (n : Nat) (pad : Bool) : Nat := if pad then (3 - n % 3) % 3 else 0

theorem chars_spell {alphabet : List Byte} (readable : Readable alphabet) (pad : Bool) : ∀ data : List Byte,
    ∃ chars, base64Chars alphabet pad data = chars ++ List.replicate (padsOf data.length pad) equalsSign ∧
      Spells chars data ∧ chars.length = data.length / 3 * 4 + lastDigits (data.length % 3)
  | [] => ⟨[], by cases pad <;> rfl, Spells.nothing, rfl⟩
  | [a] => by
    have small := a.isLt
    have spelled := @Spells.one _ _ _ _ (digit_value readable (a.val <<< 16) 18) (digit_value readable (a.val <<< 16) 12)
    have whole : byteOf (a.val <<< 16 / 2 ^ 18 % 64 * 4 + a.val <<< 16 / 2 ^ 12 % 64 / 16) = a := by
      apply Fin.ext
      rw [byte_of_val, Nat.shiftLeft_eq]
      omega
    rw [whole] at spelled
    exact ⟨_, by cases pad <;> rfl, spelled, by simp [lastDigits]⟩
  | [a, b] => by
    have small := a.isLt
    have small' := b.isLt
    have joined := or_three a.val small' (Nat.zero_lt_succ 255)
    rw [Nat.or_zero] at joined
    have spelled := @Spells.two _ _ _ _ _ _ (digit_value readable ((a.val <<< 16) ||| (b.val <<< 8)) 18)
      (digit_value readable ((a.val <<< 16) ||| (b.val <<< 8)) 12) (digit_value readable ((a.val <<< 16) ||| (b.val <<< 8)) 6)
    have first : byteOf (((a.val <<< 16) ||| (b.val <<< 8)) / 2 ^ 18 % 64 * 4 +
        ((a.val <<< 16) ||| (b.val <<< 8)) / 2 ^ 12 % 64 / 16) = a := by
      apply Fin.ext
      rw [byte_of_val, joined]
      omega
    have second : byteOf (((a.val <<< 16) ||| (b.val <<< 8)) / 2 ^ 12 % 64 % 16 * 16 +
        ((a.val <<< 16) ||| (b.val <<< 8)) / 2 ^ 6 % 64 / 4) = b := by
      apply Fin.ext
      rw [byte_of_val, joined]
      omega
    rw [first, second] at spelled
    exact ⟨_, by cases pad <;> rfl, spelled, by simp [lastDigits]⟩
  | a :: b :: c :: rest => by
    have small := a.isLt
    have small' := b.isLt
    have small'' := c.isLt
    have joined := or_three a.val small' small''
    obtain ⟨chars, written, spells, length⟩ := chars_spell readable pad rest
    have thirds : (rest.length + 1 + 1 + 1) / 3 = rest.length / 3 + 1 ∧ (rest.length + 1 + 1 + 1) % 3 = rest.length % 3 := by
      omega
    have spelled := @Spells.group _ _ _ _ _ _ _ _ _ _
      (digit_value readable ((a.val <<< 16) ||| (b.val <<< 8) ||| c.val) 18)
      (digit_value readable ((a.val <<< 16) ||| (b.val <<< 8) ||| c.val) 12)
      (digit_value readable ((a.val <<< 16) ||| (b.val <<< 8) ||| c.val) 6)
      (digit_value readable ((a.val <<< 16) ||| (b.val <<< 8) ||| c.val) 0) spells
    have first : byteOf ((a.val * 65536 + b.val * 256 + c.val) / 2 ^ 18 % 64 * 4 +
        (a.val * 65536 + b.val * 256 + c.val) / 2 ^ 12 % 64 / 16) = a := by
      apply Fin.ext
      rw [byte_of_val]
      omega
    have second : byteOf ((a.val * 65536 + b.val * 256 + c.val) / 2 ^ 12 % 64 % 16 * 16 +
        (a.val * 65536 + b.val * 256 + c.val) / 2 ^ 6 % 64 / 4) = b := by
      apply Fin.ext
      rw [byte_of_val]
      omega
    have third : byteOf ((a.val * 65536 + b.val * 256 + c.val) / 2 ^ 6 % 64 % 4 * 64 +
        (a.val * 65536 + b.val * 256 + c.val) / 2 ^ 0 % 64) = c := by
      apply Fin.ext
      rw [byte_of_val]
      omega
    rw [← joined] at first second third
    rw [first, second, third] at spelled
    refine ⟨_, ?_, spelled, ?_⟩
    · rw [base64Chars, written, padsOf, padsOf, length_cons, length_cons, length_cons, thirds.2]
      rfl
    rw [length_cons, length_cons, length_cons, length_cons, length_cons, length_cons,
      length_cons, thirds.1, thirds.2, length]
    omega

theorem spells_bytes (spells : Spells chars data) :
    base64Bytes chars = data ∧ (∀ c ∈ chars, (b64Value c).isSome = true) ∧ chars.length % 4 ≠ 1 ∧
      data.length = chars.length / 4 * 3 + lastBytes (chars.length % 4) := by
  have isDigit : ∀ {c : Byte} {v : Nat}, b64Value c = some v → (b64Value c).isSome = true := by
    intro c v found
    rw [found]
    rfl
  induction spells with
  | nothing => exact ⟨rfl, fun c wrong => absurd wrong not_mem_nil, by decide, rfl⟩
  | @one a b v w first second =>
    have low := b64_value_lt second
    refine ⟨?_, ?_, by simp, by simp [lastBytes]⟩
    · rw [base64Bytes, first, second, Option.getD_some, Option.getD_some]
      have joined := or_four v low (Nat.zero_lt_succ 63) (Nat.zero_lt_succ 63)
      rw [Nat.zero_shiftLeft, Nat.or_zero, Nat.or_zero] at joined
      refine congrArg (· :: []) (Fin.ext ?_)
      rw [byte_of_val, byte_of_val, joined, Nat.shiftRight_eq_div_pow]
      omega
    simp only [forall_mem_cons]
    exact ⟨isDigit first, isDigit second, fun c wrong => absurd wrong not_mem_nil⟩
  | @two a b c v w x first second third =>
    have low := b64_value_lt second
    have low' := b64_value_lt third
    refine ⟨?_, ?_, by simp, by simp [lastBytes]⟩
    · rw [base64Bytes, first, second, third, Option.getD_some, Option.getD_some, Option.getD_some]
      have joined := or_four v low low' (Nat.zero_lt_succ 63)
      rw [Nat.or_zero] at joined
      rw [joined]
      congr 1
      · apply Fin.ext
        rw [byte_of_val, byte_of_val, Nat.shiftRight_eq_div_pow]
        omega
      refine congrArg (· :: []) (Fin.ext ?_)
      rw [byte_of_val, byte_of_val, Nat.shiftRight_eq_div_pow]
      omega
    simp only [forall_mem_cons]
    exact ⟨isDigit first, isDigit second, isDigit third, fun c wrong => absurd wrong not_mem_nil⟩
  | group first second third fourth rest ih =>
    obtain ⟨bytes, valid, whole, length⟩ := ih
    have low := b64_value_lt second
    have low' := b64_value_lt third
    have low'' := b64_value_lt fourth
    refine ⟨?_, ?_, ?_, ?_⟩
    · rw [base64Bytes, first, second, third, fourth, Option.getD_some, Option.getD_some, Option.getD_some,
        Option.getD_some, bytes]
      rw [or_four _ low low' low'']
      rw [cons_append, cons_append, cons_append, nil_append]
      refine congr (congrArg List.cons (Fin.ext ?_)) (congr (congrArg List.cons (Fin.ext ?_)) (congrArg (· :: _) (Fin.ext ?_)))
      · rw [byte_of_val, byte_of_val, Nat.shiftRight_eq_div_pow]
        omega
      · rw [byte_of_val, byte_of_val, Nat.shiftRight_eq_div_pow]
        omega
      rw [byte_of_val, byte_of_val]
      omega
    · simp only [forall_mem_cons]
      exact ⟨isDigit first, isDigit second, isDigit third, isDigit fourth, valid⟩
    · simp only [length_cons]
      omega
    have fours : ∀ n, (n + 1 + 1 + 1 + 1) / 4 = n / 4 + 1 ∧ (n + 1 + 1 + 1 + 1) % 4 = n % 4 := fun n => by omega
    simp only [length_cons]
    rw [(fours _).1, (fours _).2, length]
    omega

theorem valid_spells : ∀ chars : List Byte, chars.length % 4 ≠ 1 → (∀ c ∈ chars, (b64Value c).isSome = true) →
    ∃ data, Spells chars data
  | [], _, _ => ⟨[], Spells.nothing⟩
  | [_], single, _ => absurd rfl single
  | [a, b], _, valid => by
    simp only [forall_mem_cons, Option.isSome_iff_exists] at valid
    obtain ⟨⟨v, first⟩, ⟨w, second⟩, -⟩ := valid
    exact ⟨_, Spells.one first second⟩
  | [a, b, c], _, valid => by
    simp only [forall_mem_cons, Option.isSome_iff_exists] at valid
    obtain ⟨⟨v, first⟩, ⟨w, second⟩, ⟨x, third⟩, -⟩ := valid
    exact ⟨_, Spells.two first second third⟩
  | a :: b :: c :: d :: rest, whole, valid => by
    simp only [forall_mem_cons, Option.isSome_iff_exists] at valid
    obtain ⟨⟨v, first⟩, ⟨w, second⟩, ⟨x, third⟩, ⟨y, fourth⟩, others⟩ := valid
    simp only [length_cons] at whole
    obtain ⟨data, spells⟩ := valid_spells rest (by omega) fun c member => Option.isSome_iff_exists.mpr (others c member)
    exact ⟨_, Spells.group first second third fourth spells⟩

theorem significant_stops {n : Nat} (last : ∀ m, n = m + 1 → text.getD m 0 ≠ equalsSign) : significant text n = n := by
  cases n with
  | zero => rfl
  | succ m => rw [significant, if_neg (last m rfl)]

theorem significant_padded (digits : ∀ c ∈ chars, (b64Value c).isSome = true) (pads k : Nat) (within : k ≤ pads) :
    significant (chars ++ List.replicate pads equalsSign) (chars.length + k) = chars.length := by
  induction k with
  | zero =>
    refine significant_stops fun m last isPad => ?_
    have inside : m < chars.length := by omega
    rw [getD_eq_getElem?_getD, List.getElem?_append_left inside, List.getElem?_eq_getElem inside,
      Option.getD_some] at isPad
    have digit := digits _ (getElem_mem inside)
    rw [isPad] at digit
    exact absurd digit (by decide)
  | succ k ih =>
    have pad : (chars ++ List.replicate pads equalsSign).getD (chars.length + k) 0 = equalsSign := by
      rw [getD_eq_getElem?_getD, List.getElem?_append_right (Nat.le_add_right _ _), Nat.add_sub_cancel_left,
        List.getElem?_replicate, if_pos (by omega), Option.getD_some]
    rw [← add_assoc, significant, if_pos pad, ih (by omega)]

theorem significant_splits (m : Nat) (within : m ≤ text.length) : significant text m ≤ m ∧
    text.take m = text.take (significant text m) ++ List.replicate (m - significant text m) equalsSign := by
  induction m with
  | zero => exact ⟨le_refl 0, by simp [significant]⟩
  | succ m ih =>
    obtain ⟨below, split⟩ := ih (by omega)
    rw [significant]
    by_cases isPad : text.getD m 0 = equalsSign
    · rw [if_pos isPad]
      refine ⟨by omega, ?_⟩
      have inside : m < text.length := by omega
      have last : text[m] = equalsSign := by
        rw [← isPad, getD_eq_getElem?_getD, List.getElem?_eq_getElem (by omega), Option.getD_some]
      rw [show m + 1 - significant text m = m - significant text m + 1 by omega, replicate_succ', ← append_assoc,
        ← split, ← last]
      exact (take_append_getElem (by omega)).symm
    rw [if_neg isPad]
    exact ⟨le_refl _, by rw [tsub_self, replicate_zero, append_nil]⟩

theorem out_len_exact {n : Nat} (small : n < sizeEnd) : base64OutLen n = n / 4 * 3 + lastBytes (n % 4) := by
  unfold base64OutLen lastBytes sizeEnd at *
  apply Nat.mod_eq_of_lt
  split_ifs <;> omega

theorem base64_decode_forms (small : text.length < sizeEnd) (forms : Forms text data) (out : List Byte) :
    base64Decode text out = puts out data := by
  obtain ⟨chars, pads, rfl, spells, padding⟩ := forms
  obtain ⟨bytes, digits, whole, length⟩ := spells_bytes spells
  have long : (chars ++ List.replicate pads equalsSign).length = chars.length + pads := by
    rw [length_append, length_replicate]
  have all_ : ¬ chars.all (fun c => (b64Value c).isSome) = false := by
    rw [Bool.not_eq_false, all_eq_true]
    exact digits
  rw [long] at small
  unfold base64Decode puts
  rw [long, significant_padded digits pads pads (le_refl _)]
  dsimp only
  rw [Nat.add_sub_cancel_left, take_left, if_neg (by omega), if_neg (by omega), if_neg all_, if_neg whole,
    out_len_exact (by omega), ← length, bytes]
  by_cases room : data.length ≤ out.length
  · rw [if_neg (by omega), if_pos room]
  · rw [if_pos (by omega), if_neg room]

theorem base64_decode_refuses (never : ∀ data, ¬ Forms text data) (out : List Byte) :
    ∃ err, base64Decode text out = (.error err, out) := by
  obtain ⟨below, split⟩ := @significant_splits text text.length (le_refl _)
  rw [take_length] at split
  unfold base64Decode
  dsimp only
  split
  · exact ⟨_, rfl⟩
  rename_i few
  split
  · exact ⟨_, rfl⟩
  rename_i padded
  split
  · exact ⟨_, rfl⟩
  rename_i all_
  split
  · exact ⟨_, rfl⟩
  rename_i whole
  rw [Bool.not_eq_false, all_eq_true] at all_
  have long : (text.take (significant text text.length)).length = significant text text.length := by
    rw [length_take]
    omega
  obtain ⟨data, spells⟩ := valid_spells _ (by rw [long]; exact whole) all_
  refine absurd ⟨_, _, split, spells, ?_⟩ (never data)
  rw [long]
  omega

abbrev Coder := List Byte → List Byte → Except ProvenErr Nat × List Byte

structure EncoderExact (encode decode : Coder) (exact_ : Option Nat) (sized : Nat → Prop) (data out : List Byte) : Prop where
  back : ∀ n after again, encode data out = (.ok n, after) → data.length ≤ again.length →
    decode (after.take n) again = store again data
  exactly : ∀ n after, encode data out = (.ok n, after) → sized n ∧ n ≤ out.length ∧ after.drop n = out.drop n
  enough : ∀ need, exact_ = some need → need ≤ out.length → ∃ after, encode data out = (.ok need, after)
  refusal : ∀ err after, encode data out = (.error err, after) → after = out

/-- What is accepted is what some bytes are spelled by, these are the answer, and a refusal leaves the memory alone. -/
structure DecoderExact (decode : Coder) (form : List Byte → List Byte → Prop) (bound : Nat) (text out : List Byte) : Prop where
  accepts : (∃ n after, decode text out = (.ok n, after)) ↔ ∃ data, form text data ∧ data.length ≤ out.length
  answers : ∀ n after, decode text out = (.ok n, after) →
    n ≤ bound ∧ form text (after.take n) ∧ n ≤ out.length ∧ after.drop n = out.drop n
  refusal : ∀ err after, decode text out = (.error err, after) → after = out

theorem puts_ok {bytes after : List Byte} {n : Nat} (put : puts out bytes = (.ok n, after)) :
    n = bytes.length ∧ n ≤ out.length ∧ after.take n = bytes ∧ after.drop n = out.drop n := by
  unfold puts store at put
  split at put
  next room =>
    cases put
    exact ⟨rfl, room, take_left, drop_left⟩
  · cases put

theorem puts_error {bytes after : List Byte} {err : ProvenErr} (put : puts out bytes = (.error err, after)) : after = out := by
  unfold puts store at put
  split at put <;> cases put
  rfl

theorem encoder_exact {encode decode : Coder} {exact_ : Option Nat} {sized : Nat → Prop}
    (writes : encode data out = match exact_ with
      | none => (.error .overflow, out)
      | some _ => puts out chars)
    (length : ∀ need, exact_ = some need → chars.length = need) (size : ∀ need, exact_ = some need → sized need)
    (reads : ∀ need, exact_ = some need → ∀ again, decode chars again = puts again data) :
    EncoderExact encode decode exact_ sized data out := by
  cases known : exact_ with
  | none =>
    rw [known] at writes
    dsimp only at writes
    refine ⟨fun n after again wrote => ?_, fun n after wrote => ?_, fun need wrong => ?_, fun err after wrote => ?_⟩
    · rw [writes] at wrote
      cases wrote
    · rw [writes] at wrote
      cases wrote
    · cases wrong
    rw [writes] at wrote
    cases wrote
    rfl
  | some need =>
    rw [known] at writes
    dsimp only at writes
    have long := length need known
    refine ⟨fun n after again wrote room => ?_, fun n after wrote => ?_, fun need' same room => ?_, fun err after wrote => ?_⟩
    · obtain ⟨-, -, written, -⟩ := puts_ok (writes.symm.trans wrote)
      rw [written, reads need known, puts, if_pos room]
    · obtain ⟨rfl, inside, -, kept⟩ := puts_ok (writes.symm.trans wrote)
      exact ⟨by rw [long]; exact size need known, inside, kept⟩
    · cases same
      refine ⟨chars ++ out.drop chars.length, ?_⟩
      rw [writes, puts, if_pos (by omega), store, long]
    · exact puts_error (writes.symm.trans wrote)

theorem decoder_exact {decode : Coder} {form : List Byte → List Byte → Prop} {bound : Nat}
    (takes : ∀ data, form text data → decode text out = puts out data ∧ data.length ≤ bound)
    (refuses : (∀ data, ¬ form text data) → ∃ err, decode text out = (.error err, out)) :
    DecoderExact decode form bound text out := by
  by_cases formed : ∃ data, form text data
  · obtain ⟨data, forms⟩ := formed
    obtain ⟨put, short⟩ := takes data forms
    refine ⟨⟨?_, ?_⟩, ?_, ?_⟩
    · rintro ⟨n, after, decoded⟩
      obtain ⟨same, inside, -⟩ := puts_ok (put.symm.trans decoded)
      exact ⟨data, forms, same ▸ inside⟩
    · rintro ⟨other, others, room⟩
      exact ⟨_, _, by rw [(takes other others).1, puts, if_pos room]; rfl⟩
    · intro n after decoded
      obtain ⟨rfl, inside, written, kept⟩ := puts_ok (put.symm.trans decoded)
      exact ⟨short, by rw [written]; exact forms, inside, kept⟩
    · exact fun err after decoded => puts_error (put.symm.trans decoded)
  obtain ⟨err, refused⟩ := refuses fun data forms => formed ⟨data, forms⟩
  refine ⟨⟨?_, ?_⟩, ?_, ?_⟩
  · rintro ⟨n, after, decoded⟩
    rw [refused] at decoded
    cases decoded
  · rintro ⟨data, forms, -⟩
    exact absurd ⟨data, forms⟩ formed
  · intro n after decoded
    rw [refused] at decoded
    cases decoded
  intro err' after decoded
  rw [refused] at decoded
  cases decoded
  rfl

def charCount (n : Nat) (pad : Bool) : Nat :=
  n / 3 * 4 + if n % 3 = 1 then (if pad then 4 else 2) else if n % 3 = 2 then (if pad then 4 else 3) else 0

theorem base64_exact_size (n : Nat) (pad : Bool) : base64ExactSize n pad = checked (charCount n pad) := by
  unfold base64ExactSize
  split
  next wraps =>
    unfold checked at wraps ⊢
    split at wraps
    · cases wraps
    rw [if_neg]
    unfold charCount
    omega
  rename_i need fits
  unfold checked at fits
  split at fits <;> cases fits
  rfl

theorem checked_some {value need : Nat} (fits : checked value = some need) : value = need ∧ need < sizeEnd := by
  unfold checked at fits
  split at fits <;> cases fits
  exact ⟨rfl, by assumption⟩

structure SizesExact (n : Nat) : Prop where
  hex : hexExactSize n = if n * 2 < sizeEnd then some (n * 2) else none
  hexSize : hexEncodedSize n = if n * 2 < sizeEnd then n * 2 else sizeEnd - 1
  base64 : ∀ pad, base64ExactSize n pad = if charCount n pad < sizeEnd then some (charCount n pad) else none
  base64Size : base64EncodedSize n = if charCount n true < sizeEnd then charCount n true else sizeEnd - 1
  decodedSize : base64DecodedSize n = n / 4 * 3 + (if n % 4 ≠ 0 then 3 else 0)
  outLen : base64OutLen n = n / 4 * 3 + lastBytes (n % 4)

theorem sizes_exact {n : Nat} (small : n < sizeEnd) : SizesExact n where
  hex := rfl
  hexSize := by
    unfold hexEncodedSize hexExactSize checked
    split <;> rfl
  base64 := base64_exact_size n
  base64Size := by
    unfold base64EncodedSize
    rw [base64_exact_size, checked]
    split <;> rfl
  decodedSize := by
    unfold base64DecodedSize sizeEnd at *
    apply Nat.mod_eq_of_lt
    split_ifs <;> omega
  outLen := out_len_exact small

theorem unpadded_le (n : Nat) : charCount n false ≤ charCount n true := by
  simp only [charCount, if_true, Bool.false_eq_true, if_false]
  split_ifs <;> omega

theorem base64_impl_exact {alphabet : List Byte} (readable : Readable alphabet) (pad : Bool) (data out : List Byte)
    {sized : Nat → Prop} (size : ∀ need, base64ExactSize data.length pad = some need → sized need) :
    EncoderExact (fun data out => base64EncodeImpl data out alphabet pad) base64Decode (base64ExactSize data.length pad)
      sized data out := by
  obtain ⟨chars, written, spells, length⟩ := chars_spell readable pad data
  have long : (base64Chars alphabet pad data).length = charCount data.length pad := by
    rw [written, length_append, length_replicate, length]
    unfold padsOf lastDigits charCount
    split_ifs <;> omega
  refine @encoder_exact _ (base64Chars alphabet pad data) _ _ _ _ _ ?_ (fun need fits => ?_) size (fun need fits again => ?_)
  · unfold base64EncodeImpl
    cases fits : base64ExactSize data.length pad with
    | none => rfl
    | some need =>
      rw [base64_exact_size] at fits
      have same := (checked_some fits).1
      dsimp only
      unfold puts
      by_cases room : need ≤ out.length
      · rw [if_neg (by omega), if_pos (by omega)]
      · rw [if_pos (by omega), if_neg (by omega)]
  · rw [base64_exact_size] at fits
    rw [long, (checked_some fits).1]
  rw [base64_exact_size] at fits
  obtain ⟨same, small⟩ := checked_some fits
  refine base64_decode_forms (by omega) ⟨chars, _, written, spells, ?_⟩ again
  unfold padsOf
  cases pad with
  | false => exact .inl rfl
  | true =>
    refine .inr ⟨?_, ?_⟩
    · rw [length, if_pos rfl, lastDigits]
      split_ifs <;> omega
    rw [if_pos rfl]
    omega

theorem hex_exact (data out : List Byte) :
    EncoderExact hexEncode hexDecode (hexExactSize data.length) (· = hexEncodedSize data.length) data out := by
  obtain ⟨spells, length⟩ := hex_chars_spell data
  refine @encoder_exact _ (hexChars data) _ _ _ _ _ ?_ (fun need fits => ?_) (fun need fits => ?_)
    (fun need fits again => hex_decode_spells spells again)
  · unfold hexEncode
    cases fits : hexExactSize data.length with
    | none => rfl
    | some need =>
      have same := (checked_some fits).1
      dsimp only
      unfold puts
      by_cases room : need ≤ out.length
      · rw [if_neg (by omega), if_pos (by omega)]
      · rw [if_pos (by omega), if_neg (by omega)]
  · rw [length, (checked_some fits).1]
  unfold hexEncodedSize
  rw [fits, Option.getD_some]

structure EncodingsExact (data text out : List Byte) (n : Nat) : Prop where
  hexEncoder : EncoderExact hexEncode hexDecode (hexExactSize data.length) (· = hexEncodedSize data.length) data out
  encoder : EncoderExact base64Encode base64Decode (base64ExactSize data.length true) (· = base64EncodedSize data.length)
    data out
  urlEncoder : EncoderExact base64urlEncode base64Decode (base64ExactSize data.length false)
    (· ≤ base64EncodedSize data.length) data out
  hexDecoder : DecoderExact hexDecode HexSpells (hexDecodedSize text.length) text out
  decoder : DecoderExact base64Decode Forms (base64DecodedSize text.length) text out
  sizes : SizesExact n

theorem encodings_exact (data text out : List Byte) (n : Nat) (textSmall : text.length < sizeEnd) (small : n < sizeEnd) :
    EncodingsExact data text out n where
  hexEncoder := hex_exact data out
  encoder := base64_impl_exact std_readable true data out fun need fits => by
    rw [base64EncodedSize, fits, Option.getD_some]
  urlEncoder := base64_impl_exact url_readable false data out fun need fits => by
    have least := unpadded_le data.length
    rw [base64_exact_size] at fits
    obtain ⟨same, fitting⟩ := checked_some fits
    unfold base64EncodedSize
    rw [base64_exact_size, checked]
    split
    · rw [Option.getD_some]
      omega
    rw [Option.getD_none]
    omega
  hexDecoder := decoder_exact (fun data spells => by
    refine ⟨hex_decode_spells spells out, ?_⟩
    have length := (hex_spells_bytes spells).2.1
    unfold hexDecodedSize
    omega) fun never => hex_decode_refuses never out
  decoder := decoder_exact (fun data forms => by
    refine ⟨base64_decode_forms textSmall forms out, ?_⟩
    obtain ⟨chars, pads, rfl, spells, -⟩ := forms
    obtain ⟨-, -, -, length⟩ := spells_bytes spells
    rw [(sizes_exact textSmall).decodedSize, length, length_append, length_replicate, lastBytes]
    split_ifs <;> omega) fun never => base64_decode_refuses never out
  sizes := sizes_exact small

theorem encodings_exact_tail : base64Decode (ascii "YWI") (ascii "....") = (.ok 2, ascii "ab..") ∧
    EncodingsExact (ascii "ab") (ascii "YWI") (ascii "....") 2 :=
  ⟨by decide, encodings_exact _ _ _ _ (by decide) (by decide)⟩

end ProvenC.Text.EncodeExact
