import ProvenC.Hpack.Integer
import ProvenC.Lib.Scanning

/-!
# Integers of QPACK

The same form as in HPACK, up to the largest variable-length integer of QUIC; on the encoder stream one that
has not all arrived is told from one that is malformed.
-/

namespace ProvenC.Qpack.Integer

open List Bytes Lib.Scanning
open Hpack.Integer

def quicVarintMax : Nat := 2 ^ 62 - 1

def qpIntMaxContinuation : Nat := 9

/-- The continuation bytes of `qp_int`: `left` more may come. -/
def qpIntRest : Nat → Nat → Nat → List Byte → Option (Nat × List Byte)
  | 0, _, _, _ => none
  | _ + 1, _, _, [] => none
  | left + 1, shift, v, byte :: rest =>
    let add := byte.val % 128 * 2 ^ shift % 2 ^ 64
    if 56 < shift ∨ add / 2 ^ shift ≠ byte.val % 128 ∨ quicVarintMax - v < add then none
    else if byte.val < 128 then some (v + add, rest)
    else qpIntRest left (shift + 7) (v + add) rest

/-- `qp_int`: the value whose first byte holds `width` bits of it, and what follows it. -/
def qpInt (width : Nat) : List Byte → Option (Nat × List Byte)
  | [] => none
  | byte :: rest =>
    let v := byte.val % 2 ^ width
    if v = 2 ^ width - 1 then qpIntRest qpIntMaxContinuation 0 v rest else some (v, rest)

/-- The loop of `qp_int_more`: up to the last byte of an integer. -/
def qpIntEnd : Nat → Scanner Byte Unit Unit
  | 0 => fail ()
  | left + 1 => do
      let byte ← next
      if byte.val < 128 then pure () else qpIntEnd left

def qpIntScan (width : Nat) : Scanner Byte Unit Nat := fun input =>
  match qpInt width input with
  | none => .bad ()
  | some (v, rest) => .got v rest

def qpIntMore (width : Nat) : Scanner Byte Unit Nat
  | [] => .short
  | byte :: rest =>
    if byte.val % 2 ^ width = 2 ^ width - 1 then
      match qpIntEnd qpIntMaxContinuation rest with
      | .short => .short
      | .bad fault => .bad fault
      | .got _ _ => qpIntScan width (byte :: rest)
    else qpIntScan width (byte :: rest)

/-- `qp_put_int`, which is written as HPACK's is. -/
def qpPutInt (width first v : Nat) : List Byte := hpPutInt width first v

theorem shifted_exact {digit shift : Nat} (small : digit < 128) (low : shift ≤ 56) :
    digit * 2 ^ shift % 2 ^ 64 = digit * 2 ^ shift ∧ digit * 2 ^ shift % 2 ^ 64 / 2 ^ shift = digit := by
  have power : 2 ^ shift ≤ 2 ^ 56 := Nat.pow_le_pow_right (by decide) low
  have less : digit * 2 ^ shift < 2 ^ 64 :=
    lt_of_le_of_lt (Nat.mul_le_mul (Nat.le_of_lt_succ small) power) (by decide)
  rw [Nat.mod_eq_of_lt less]
  exact ⟨rfl, Nat.mul_div_cancel _ (Nat.two_pow_pos shift)⟩

theorem qp_int_rest_last (left extra base : Nat) {shift value : Nat} (suffix : List Byte) (low : shift ≤ 56) (small : value < 128)
    (least : base + value * 2 ^ shift ≤ quicVarintMax) :
    qpIntRest (left + 1) shift base (hpPutIntRest extra value ++ suffix) = some (base + value * 2 ^ shift, suffix) := by
  obtain ⟨exact, back⟩ := shifted_exact small low
  rw [put_last extra small, cons_append, nil_append, qpIntRest, last_byte small, Nat.mod_eq_of_lt small]
  simp only [exact] at back ⊢
  rw [if_neg (by omega), if_pos small]

theorem qp_int_rest_roundtrip (left extra shift base value : Nat) (suffix : List Byte) (low : shift + 7 * left ≤ 56)
    (fits : value < 128 ^ (left + 1)) (least : base + value * 2 ^ shift ≤ quicVarintMax) :
    qpIntRest (left + 1) shift base (hpPutIntRest (left + extra) value ++ suffix) =
      some (base + value * 2 ^ shift, suffix) := by
  induction left generalizing shift base value with
  | zero => exact qp_int_rest_last 0 _ base suffix (by omega) (by simpa using fits) least
  | succ left ih =>
    by_cases small : value < 128
    · exact qp_int_rest_last (left + 1) _ base suffix (by omega) small least
    have parts := digits_join base shift value
    have later := ih (shift + 7) (base + value % 128 * 2 ^ shift) (value / 128) (by omega)
      (by rw [pow_succ] at fits; omega) (by rw [parts]; exact least)
    obtain ⟨exact, back⟩ := shifted_exact (Nat.mod_lt value (by decide)) (show shift ≤ 56 by omega)
    rw [Nat.add_right_comm left 1 extra, hpPutIntRest, if_pos (by omega), cons_append, qpIntRest, more_byte, Nat.add_mod_left, Nat.mod_mod]
    simp only [exact] at back ⊢
    rw [if_neg (by omega), if_neg (by omega), later, parts]

theorem qp_int_roundtrip {width first value : Nat} (suffix : List Byte) (narrow : width ≤ 8)
    (aligned : first % 2 ^ width = 0) (fits : value ≤ quicVarintMax) :
    qpInt width (qpPutInt width first value ++ suffix) = some (value, suffix) := by
  have positive : 0 < 2 ^ width := Nat.two_pow_pos width
  have low (rest : Nat) := @low_bits width first rest narrow aligned
  unfold qpPutInt hpPutInt
  simp only
  split
  next short =>
    simp only [cons_append, nil_append, qpInt, low value (by omega)]
    rw [if_neg (by omega)]
  rename_i long
  have whole : 2 ^ width - 1 + (value - (2 ^ width - 1)) = value := Nat.add_sub_cancel' (by omega)
  have bound : value - (2 ^ width - 1) < 128 ^ (8 + 1) := by
    unfold quicVarintMax at fits
    exact lt_of_le_of_lt (le_trans (Nat.sub_le _ _) fits) (by decide)
  have read := qp_int_rest_roundtrip 8 1 0 (2 ^ width - 1) (value - (2 ^ width - 1)) suffix (by decide) bound
    (by rw [pow_zero, mul_one, whole]; exact fits)
  simp only [cons_append, qpInt, low (2 ^ width - 1) (by omega)]
  rw [if_pos trivial, qpIntMaxContinuation, read, pow_zero, mul_one, whole]

theorem steady_int_end (left : Nat) : Steady (qpIntEnd left) := by
  induction left with
  | zero => exact steady_fail ()
  | succ left ih => exact steady_bind steady_next fun byte => steady_ite (steady_pure ()) ih

theorem int_rest_append (left shift v : Nat) (input tail more : List Byte) (ended : qpIntEnd left input = .got () tail) :
    qpIntRest left shift v (input ++ more) = (qpIntRest left shift v input).map fun read => (read.1, read.2 ++ more) := by
  induction left generalizing shift v input with
  | zero => cases ended
  | succ left ih =>
    cases input with
    | nil => cases ended
    | cons byte rest =>
      have ended' : (if byte.val < 128 then pure () else qpIntEnd left : Scanner Byte Unit Unit) rest = .got () tail :=
        ended
      simp only [cons_append, qpIntRest]
      by_cases refused : 56 < shift ∨ byte.val % 128 * 2 ^ shift % 2 ^ 64 / 2 ^ shift ≠ byte.val % 128 ∨
          quicVarintMax - v < byte.val % 128 * 2 ^ shift % 2 ^ 64
      · rw [if_pos refused, if_pos refused]
        rfl
      rw [if_neg refused, if_neg refused]
      by_cases last : byte.val < 128
      · rw [if_pos last, if_pos last]
        rfl
      rw [if_neg last] at ended'
      rw [if_neg last, if_neg last]
      exact ih _ _ _ ended'

theorem int_rest_suffix (left shift v value : Nat) (input rest : List Byte)
    (read : qpIntRest left shift v input = some (value, rest)) : rest <:+ input ∧ input.length ≤ rest.length + left := by
  induction left generalizing shift v input with
  | zero => simp [qpIntRest] at read
  | succ left ih =>
    cases input with
    | nil => simp [qpIntRest] at read
    | cons byte tail =>
      simp only [qpIntRest] at read
      split at read
      · contradiction
      split at read
      · cases read
        refine ⟨suffix_cons _ _, ?_⟩
        rw [length_cons]
        omega
      obtain ⟨suffix, few⟩ := ih _ _ _ read
      refine ⟨suffix.trans (suffix_cons _ _), ?_⟩
      rw [length_cons]
      omega

theorem int_suffix {width value : Nat} {input rest : List Byte} (read : qpInt width input = some (value, rest)) :
    rest <:+ input ∧ rest.length < input.length ∧ input.length ≤ rest.length + 10 := by
  cases input with
  | nil => simp [qpInt] at read
  | cons byte tail =>
    simp only [qpInt] at read
    split at read
    · obtain ⟨suffix, few⟩ := int_rest_suffix _ _ _ _ _ _ read
      have less := suffix.length_le
      unfold qpIntMaxContinuation at few
      refine ⟨suffix.trans (suffix_cons _ _), ?_, ?_⟩ <;> rw [length_cons] <;> omega
    · cases read
      refine ⟨suffix_cons _ _, ?_, ?_⟩ <;> rw [length_cons] <;> omega

theorem int_more_got {width value : Nat} {input rest : List Byte} (read : qpIntMore width input = .got value rest) :
    qpInt width input = some (value, rest) := by
  have scanned (input : List Byte) (scan : qpIntScan width input = .got value rest) : qpInt width input = some (value, rest) := by
    unfold qpIntScan at scan
    cases here : qpInt width input with
    | none => rw [here] at scan; cases scan
    | some hit => rw [here] at scan; cases scan; rfl
  cases input with
  | nil => cases read
  | cons byte tail =>
    rw [qpIntMore] at read
    split at read
    · cases ended : qpIntEnd qpIntMaxContinuation tail with
      | short => rw [ended] at read; cases read
      | bad fault => rw [ended] at read; cases read
      | got _ _ => rw [ended] at read; exact scanned _ read
    · exact scanned _ read

theorem int_scan_append {width : Nat} {input more : List Byte}
    (settled : qpInt width (input ++ more) = (qpInt width input).map fun read => (read.1, read.2 ++ more)) :
    qpIntScan width (input ++ more) = match qpIntScan width input with
      | .short => .short
      | .bad fault => .bad fault
      | .got value rest => .got value (rest ++ more) := by
  unfold qpIntScan
  rw [settled]
  cases qpInt width input with
  | none | some => rfl

theorem int_more_append (width : Nat) (input more : List Byte) (all : qpIntMore width input ≠ .short) :
    qpIntMore width (input ++ more) = match qpIntMore width input with
      | .short => .short
      | .bad fault => .bad fault
      | .got value rest => .got value (rest ++ more) := by
  cases input with
  | nil => exact absurd rfl all
  | cons byte tail =>
    rw [cons_append]
    rw [qpIntMore] at all
    rw [qpIntMore, qpIntMore]
    by_cases full : byte.val % 2 ^ width = 2 ^ width - 1
    · rw [if_pos full] at all
      rw [if_pos full, if_pos full]
      cases ended : qpIntEnd qpIntMaxContinuation tail with
      | short =>
        rw [ended] at all
        exact absurd rfl all
      | bad fault => rw [(steady_int_end _).bad _ more _ ended]
      | got done rest =>
        rw [(steady_int_end _).got _ more _ _ ended]
        refine @int_scan_append width (byte :: tail) more ?_
        rw [cons_append]
        simp only [qpInt]
        rw [if_pos full, if_pos full]
        exact int_rest_append _ _ _ _ rest more ended
    rw [if_neg full, if_neg full]
    refine @int_scan_append width (byte :: tail) more ?_
    rw [cons_append]
    simp only [qpInt]
    rw [if_neg full, if_neg full]
    rfl

theorem steady_int_more (width : Nat) : Steady (qpIntMore width) where
  got := by
    intro input more value rest read
    rw [int_more_append width input more (by rw [read]; nofun), read]
  bad := by
    intro input more fault read
    rw [int_more_append width input more (by rw [read]; nofun), read]
  suffix := by
    intro input value rest read
    exact (int_suffix (int_more_got read)).1

theorem consumes_int_more (width : Nat) : Consumes (qpIntMore width) := by
  intro input value rest read
  exact (int_suffix (int_more_got read)).2.1

theorem tight_int_end (left : Nat) : Tight (qpIntEnd left) := by
  induction left with
  | zero => exact tight_fail ()
  | succ left ih =>
    exact tight_bind tight_next (fun byte => steady_ite (steady_pure ()) (steady_int_end left))
      fun byte => tight_ite (tight_pure ()) ih

theorem int_rest_end (left shift v value : Nat) (input rest : List Byte)
    (read : qpIntRest left shift v input = some (value, rest)) : qpIntEnd left input = .got () rest := by
  induction left generalizing shift v input with
  | zero => simp [qpIntRest] at read
  | succ left ih =>
    cases input with
    | nil => simp [qpIntRest] at read
    | cons byte tail =>
      simp only [qpIntRest] at read
      rw [qpIntEnd, bind_got (next_cons byte tail)]
      split at read
      · contradiction
      split at read
      next last =>
        cases read
        rw [if_pos last]
        rfl
      rename_i more
      rw [if_neg more]
      exact ih _ _ _ read

theorem int_scan_settles (width : Nat) (input : List Byte) : qpIntScan width input ≠ .short := by
  unfold qpIntScan
  cases qpInt width input with
  | none | some => nofun

theorem tight_int_more (width : Nat) : Tight (qpIntMore width) := by
  intro input more value rest read
  -- An answer that had to wait would be about bytes after these.
  have waits : qpIntMore width input ≠ .short := by
    intro short
    have whole := int_more_got read
    cases input with
    | nil =>
      have shorter := consumes_int_more width _ _ _ read
      rw [length_append, nil_append] at shorter
      omega
    | cons byte tail =>
      rw [qpIntMore] at short
      rw [cons_append] at whole
      simp only [qpInt] at whole
      by_cases full : byte.val % 2 ^ width = 2 ^ width - 1
      · rw [if_pos full] at short whole
        have ended := tight_int_end _ _ _ _ _ (int_rest_end _ _ _ _ _ _ whole)
        rw [ended] at short
        exact int_scan_settles _ _ short
      rw [if_neg full] at short
      exact int_scan_settles _ _ short
  have same := int_more_append width input more waits
  rw [read] at same
  cases here : qpIntMore width input with
  | short => exact absurd here waits
  | bad fault => rw [here] at same; cases same
  | got value' rest' =>
    rw [here] at same
    simp only [Scan.got.injEq, append_cancel_right_eq] at same
    rw [same.1, same.2]

theorem settled_int_more (width : Nat) : Settled (qpIntMore width) := ⟨steady_int_more width, tight_int_more width⟩

example : qpInt 8 (qpPutInt 8 0 1337) = some (1337, []) := by decide

end ProvenC.Qpack.Integer
