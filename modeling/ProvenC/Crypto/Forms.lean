import ProvenC.Crypto.Modulus

/-!
# Montgomery forms

A number below the modulus stands for the residue it is over the power of the base.
-/

namespace ProvenC.Crypto.Forms

open List Bytes Lib.Limbs Lib.BigEndian Crypto.Words Crypto.Montgomery
open Crypto.Modulus

variable {width : Nat} [NeZero width]

def radix (mod : MpMod width) : ZMod (value mod.n) := (((2 ^ width) ^ mod.limbs : Nat) : ZMod (value mod.n))

variable {mod : MpMod width}

omit [NeZero width] in
theorem radix_unit (ready : Ready mod) : IsUnit (radix mod) := by
  unfold radix
  rw [ZMod.isUnit_iff_coprime]
  apply Nat.Coprime.pow_left
  apply Nat.Coprime.pow_left
  exact (Nat.coprime_two_right.mpr (Nat.odd_iff.mpr ready.odd)).symm

structure Form (mod : MpMod width) (x : ZMod (value mod.n)) (limbs : List (Limb width)) : Prop where
  length : limbs.length = mod.limbs
  below : value limbs < value mod.n
  stands : (value limbs : ZMod (value mod.n)) = x * radix mod

omit [NeZero width] in
theorem below_radix (ready : Ready mod) : value mod.n < (2 ^ width) ^ mod.limbs :=
  ready.length ▸ value_lt mod.n

omit [NeZero width] in
theorem form_of_reduced (ready : Ready mod) {product : Nat} {out : List (Limb width)}
    (reduced : Reduced mod product out) {x : ZMod (value mod.n)} (same : (product : ZMod (value mod.n)) = x * radix mod * radix mod) :
    Form mod x out := by
  refine ⟨reduced.length, reduced.below, ?_⟩
  have exact_ := (ZMod.natCast_eq_natCast_iff _ _ _).mpr reduced.exact_
  rw [Nat.cast_mul, same] at exact_
  apply (radix_unit ready).mul_left_cancel
  calc radix mod * (value out : ZMod (value mod.n))
    _ = x * radix mod * radix mod := exact_
    _ = radix mod * (x * radix mod) := by ring

theorem montmul_form (ready : Ready mod) {x y : ZMod (value mod.n)} {a b : List (Limb width)}
    (first : Form mod x a) (second : Form mod y b) : Form mod (x * y) (montmul mod a b) := by
  apply form_of_reduced ready (montmul_reduced ready first.length second.length ?_)
  · rw [Nat.cast_mul, first.stands, second.stands]
    ring
  · exact Nat.mul_lt_mul'' (first.below.trans (below_radix ready)) second.below

theorem montsqr_form (ready : Ready mod) {x : ZMod (value mod.n)} {a : List (Limb width)}
    (form : Form mod x a) : Form mod (x * x) (montsqr mod a) := by
  apply form_of_reduced ready (montsqr_reduced ready form.length ?_)
  · rw [Nat.cast_mul, form.stands]
    ring
  · exact Nat.mul_lt_mul'' (form.below.trans (below_radix ready)) form.below

omit [NeZero width] in
theorem newton_round {n0 inv : Limb width} {right : Nat} (known : (2 : Int) ^ min width right ∣ n0.val * inv.val - 1) :
    (2 : Int) ^ min width (2 * right) ∣
      n0.val * (low (inv.val * (2 + (2 ^ width - (low (n0.val * inv.val) : Limb width).val))) : Limb width).val - 1 := by
  have base : (2 : Int) ^ min width (2 * right) ∣ (2 : Int) ^ width := pow_dvd_pow 2 (Nat.min_le_left _ _)
  obtain ⟨q, error⟩ := known
  -- What a limb loses is a multiple of its base.
  have lost (v : Nat) : ∃ k : Int, ((low v : Limb width).val : Int) = v - 2 ^ width * k := by
    refine ⟨(v / 2 ^ width : Nat), ?_⟩
    have parts := @low_add_high width v
    have cast_ : ((low v : Limb width).val : Int) + 2 ^ width * ((v / 2 ^ width : Nat) : Int) = v := by
      exact_mod_cast parts
    rw [← cast_]
    ring
  obtain ⟨k1, product⟩ := lost (n0.val * inv.val)
  obtain ⟨k2, next⟩ := lost (inv.val * (2 + (2 ^ width - (low (n0.val * inv.val) : Limb width).val)))
  have small := (low (n0.val * inv.val) : Limb width).isLt
  have whole : ((2 ^ width - (low (n0.val * inv.val) : Limb width).val : Nat) : Int) =
      2 ^ width - (low (n0.val * inv.val) : Limb width).val := by
    rw [Nat.cast_sub small.le]
    push_cast
    rfl
  rw [next]
  push_cast [whole]
  rw [product]
  push_cast
  have split : (n0.val : Int) * ((inv.val : Int) * (2 + (2 ^ width - ((n0.val : Int) * inv.val - 2 ^ width * k1))) - 2 ^ width * k2) - 1 =
      -((n0.val : Int) * inv.val - 1) * ((n0.val : Int) * inv.val - 1) +
        2 ^ width * (n0.val * inv.val * (1 + k1) - n0.val * k2) := by ring
  rw [split]
  apply dvd_add
  · rw [error]
    have square : -((2 : Int) ^ min width right * q) * (2 ^ min width right * q) =
        2 ^ (min width right + min width right) * (-(q * q)) := by ring
    rw [square]
    exact Dvd.dvd.mul_right (pow_dvd_pow 2 (by omega)) _
  · exact Dvd.dvd.mul_right base _

omit [NeZero width] in
theorem newton_spec (n0 : Limb width) (rounds : Nat) {inv : Limb width} {right : Nat}
    (known : (2 : Int) ^ min width right ∣ n0.val * inv.val - 1) :
    (2 : Int) ^ min width (2 ^ rounds * right) ∣ n0.val * (newton n0 rounds inv).val - 1 := by
  induction rounds generalizing inv right with
  | zero => simpa [newton] using known
  | succ rounds ih =>
    have next := ih (newton_round known)
    rw [newton, pow_succ, mul_assoc]
    exact next

omit [NeZero width] in
theorem inverse_spec {n0 : Limb width} (odd : n0.val % 2 = 1) (narrow : width ≤ 96) {n : Nat} (lowest : n % 2 ^ width = n0.val) :
    (n * (negLimb (newton n0 5 n0) : Limb width).val + 1) % 2 ^ width = 0 := by
  have start : (2 : Int) ^ min width 3 ∣ n0.val * n0.val - 1 := by
    have eight : (8 : Int) ∣ n0.val * n0.val - 1 := by
      obtain ⟨half, split⟩ : ∃ half, n0.val = 2 * half + 1 := ⟨n0.val / 2, by omega⟩
      have even : half * (half + 1) % 2 = 0 := by
        rcases Nat.mod_two_eq_zero_or_one half with zero | one
        · rw [Nat.mul_mod, zero, zero_mul, Nat.zero_mod]
        · rw [Nat.mul_mod, Nat.add_mod, one]
      obtain ⟨pairs, pairs_⟩ := Nat.dvd_of_mod_eq_zero even
      refine ⟨pairs, ?_⟩
      have cast_ : (half : Int) * (half + 1) = 2 * pairs := by exact_mod_cast pairs_
      rw [split]
      push_cast
      calc (2 * (half : Int) + 1) * (2 * half + 1) - 1
        _ = 4 * (half * (half + 1)) := by ring
        _ = 8 * pairs := by rw [cast_]; ring
    exact (pow_dvd_pow 2 (Nat.min_le_right width 3)).trans eight
  have inverse := newton_spec n0 5 start
  rw [min_eq_left (by omega)] at inverse
  generalize newton n0 5 n0 = inv at inverse ⊢
  apply Nat.mod_eq_zero_of_dvd
  have negative : ((negLimb inv : Limb width).val : Int) ≡ -inv.val [ZMOD 2 ^ width] := by
    show (((2 ^ width - inv.val) % 2 ^ width : Nat) : Int) ≡ -inv.val [ZMOD 2 ^ width]
    rw [Int.natCast_mod, Nat.cast_sub inv.isLt.le]
    push_cast
    refine (Int.mod_modEq _ _).trans ?_
    exact Int.modEq_iff_dvd.mpr ⟨-1, by ring⟩
  have lowest_ : (n : Int) ≡ n0.val [ZMOD 2 ^ width] := by
    rw [← lowest, Int.natCast_mod]
    push_cast
    exact (Int.mod_modEq _ _).symm
  have total : ((n * (negLimb inv : Limb width).val + 1 : Nat) : Int) ≡ 0 [ZMOD 2 ^ width] := by
    push_cast
    calc (n : Int) * (negLimb inv : Limb width).val + 1
      _ ≡ n0.val * -inv.val + 1 [ZMOD 2 ^ width] := (lowest_.mul negative).add_right 1
      _ ≡ 0 [ZMOD 2 ^ width] := by
        apply Int.modEq_iff_dvd.mpr
        have same : (0 : Int) - (n0.val * -inv.val + 1) = n0.val * inv.val - 1 := by ring
        rw [same]
        exact inverse
  have divides := Int.modEq_zero_iff_dvd.mp total
  exact_mod_cast divides

variable {r : List (Limb width)}

theorem double_once_spec {n : List (Limb width)} (length : r.length = n.length) (below : value r < value n) :
    (doubleOnce n r).length = n.length ∧ value (doubleOnce n r) = (2 * value r) % value n := by
  obtain ⟨length_, carry, sum⟩ := @add_raw_spec width _ r r rfl
  unfold doubleOnce
  generalize addRaw r r = result at length_ carry sum ⊢
  rw [length] at sum
  have total : value result.1 + (2 ^ width) ^ n.length * result.2.val = 2 * value r := by omega
  obtain ⟨length2, once⟩ := reduce_once_spec (length_.trans length) carry (by omega)
  exact ⟨length2, by rw [once, total]⟩

theorem doublings_spec {n : List (Limb width)} (length : r.length = n.length) (below : value r < value n) (rounds : Nat) :
    (doublings n rounds r).length = n.length ∧ value (doublings n rounds r) = (2 ^ rounds * value r) % value n := by
  induction rounds generalizing r with
  | zero =>
    refine ⟨length, ?_⟩
    rw [doublings, pow_zero, one_mul, Nat.mod_eq_of_lt below]
  | succ rounds ih =>
    obtain ⟨length1, once⟩ := double_once_spec length below
    obtain ⟨length2, rest⟩ := ih length1 (by rw [once]; exact Nat.mod_lt _ (Nat.zero_lt_of_lt below))
    refine ⟨length2, ?_⟩
    rw [doublings, rest, once, Nat.mul_mod, Nat.mod_mod, ← Nat.mul_mod]
    exact congrArg (· % value n) (by ring)

theorem limb_power_spec (ready : Ready mod) {x : ZMod (value mod.n)} {c : List (Limb width)}
    (base : Form mod x c) (bit : Nat) (form : Form mod (x ^ (mod.limbs / 2 ^ bit)) r) :
    Form mod (x ^ mod.limbs) (limbPower mod c bit r) := by
  induction bit generalizing r with
  | zero =>
    rw [pow_zero, Nat.div_one] at form
    exact form
  | succ bit ih =>
    rw [limbPower]
    apply ih
    have squared := montsqr_form ready form
    have halves := Nat.div_add_mod (mod.limbs / 2 ^ bit) 2
    rw [Nat.div_div_eq_div_mul, ← pow_succ] at halves
    rcases Nat.mod_two_eq_zero_or_one (mod.limbs / 2 ^ bit) with zero | one
    · rw [if_neg (by omega)]
      rw [zero, add_zero] at halves
      rw [← halves, Nat.two_mul, pow_add]
      exact squared
    rw [if_pos one]
    rw [one] at halves
    rw [← halves, pow_succ, Nat.two_mul, pow_add]
    exact montmul_form ready squared base

theorem top_bit_spec {limbs : Nat} (some_ : 0 < limbs) (small : limbs < 2 ^ 16) : limbs / 2 ^ topBit limbs = 1 := by
  have scan : ∀ bits, (limbs % 2 ^ bits = 0 ∧
        (List.range bits).foldl (fun top bit => if limbs / 2 ^ bit % 2 = 1 then bit else top) 0 = 0) ∨
      limbs % 2 ^ bits / 2 ^ (List.range bits).foldl (fun top bit => if limbs / 2 ^ bit % 2 = 1 then bit else top) 0 = 1 := by
    intro bits
    induction bits with
    | zero => exact .inl ⟨Nat.mod_one limbs, rfl⟩
    | succ bits ih =>
      have parts : limbs % 2 ^ (bits + 1) = limbs % 2 ^ bits + 2 ^ bits * (limbs / 2 ^ bits % 2) := by
        rw [pow_succ, Nat.mod_mul]
      have less : limbs % 2 ^ bits < 2 ^ bits := Nat.mod_lt _ (Nat.two_pow_pos bits)
      rw [List.range_succ, foldl_append, foldl_cons, foldl_nil, parts]
      rcases Nat.mod_two_eq_zero_or_one (limbs / 2 ^ bits) with zero | one
      · rw [if_neg (by omega), zero, mul_zero, add_zero]
        exact ih
      rw [if_pos one, one, mul_one, Nat.add_div_right _ (Nat.two_pow_pos bits), Nat.div_eq_of_lt less]
      exact .inr rfl
  have whole := scan 16
  rw [Nat.mod_eq_of_lt small] at whole
  rcases whole with ⟨zero, _⟩ | one
  · exact absurd zero (Nat.pos_iff_ne_zero.mp some_)
  · exact one

structure Prepared (mod : MpMod width) : Prop where
  ready : Ready mod
  more : 1 < value mod.n
  rr : Form mod (radix mod) mod.rr

omit [NeZero width] in
theorem prepared_rr (prepared : Prepared mod) : value mod.rr = ((2 ^ width) ^ mod.limbs) ^ 2 % value mod.n := by
  have same : ((value mod.rr : Nat) : ZMod (value mod.n)) = ((((2 ^ width) ^ mod.limbs) ^ 2 : Nat) : ZMod (value mod.n)) := by
    rw [prepared.rr.stands, radix, ← Nat.cast_mul, ← Nat.pow_two]
  have congruent := (ZMod.natCast_eq_natCast_iff' _ _ _).mp same
  rwa [Nat.mod_eq_of_lt prepared.rr.below] at congruent

section Bytes

variable {limbBits : LimbBits}

theorem finish_start_spec {limbs : Nat} (some_ : 0 < limbs) (topLimbSet : Bool) :
    (finishStart limbBits limbs topLimbSet).length = limbs ∧
      value (finishStart limbBits limbs topLimbSet) = (2 ^ limbBits.width) ^ (if topLimbSet then limbs - 1 else 0) := by
  unfold finishStart
  generalize place_ : (if topLimbSet then limbs - 1 else 0) = place
  have inside : place < (zeros limbs : List (Limb limbBits.width)).length := by
    rw [zeros_length, ← place_]
    split <;> omega
  refine ⟨by rw [length_set, zeros_length], ?_⟩
  have changed := value_set inside (low 1)
  have one : (low 1 : Limb limbBits.width).val = 1 := Nat.mod_eq_of_lt (lt_of_lt_of_le Nat.one_lt_two two_le_base)
  have zero : (zeros limbs : List (Limb limbBits.width))[place].val = 0 := by
    have member := eq_of_mem_replicate (getElem_mem inside)
    rw [member]
    exact Nat.zero_mod _
  rwa [value_zeros, one, zero, zero_mul, zero_add, one_mul, add_zero] at changed

theorem inverse_ready {limbs bits : Nat} {n : List (Limb limbBits.width)} (length : n.length = limbs) (some_ : 0 < limbs)
    (odd : value n % 2 = 1) : Ready (withInverse limbs bits n) := by
  refine ⟨length, some_, odd, ?_⟩
  have narrow : limbBits.width ≤ 96 := by
    rcases limbBits.width_eq with w | w <;> rw [w] <;> decide
  obtain ⟨x, rest, rfl⟩ := exists_cons_of_length_pos (length ▸ some_)
  have lowest : value (x :: rest) % 2 ^ limbBits.width = x.val := by
    rw [value_cons, Nat.add_mul_mod_self_left, Nat.mod_eq_of_lt x.isLt]
  have oddLimb : x.val % 2 = 1 := by
    have even := @base_even limbBits.width _
    rw [← lowest, Nat.mod_mod_of_dvd _ (even ▸ Nat.dvd_mul_right 2 _)]
    exact odd
  exact inverse_spec oddLimb narrow lowest

theorem doublings_form {limbs bits : Nat} {n : List (Limb limbBits.width)} {topLimbSet : Bool} (length : n.length = limbs)
    (some_ : 0 < limbs) (more : 1 < value n) (top : topLimbSet = true → (2 ^ limbBits.width) ^ (limbs - 1) < value n) :
    Form (withInverse limbs bits n) ((2 ^ limbBits.width : Nat) : ZMod (value n))
      (doublings n (if topLimbSet then 2 * limbBits.width else limbBits.width * (limbs + 1))
        (finishStart limbBits limbs topLimbSet)) := by
  obtain ⟨lengthS, start⟩ := @finish_start_spec limbBits limbs some_ topLimbSet
  have below : value (finishStart limbBits limbs topLimbSet) < value n := by
    rw [start]
    split
    next set_ =>
      exact top set_
    rw [pow_zero]
    exact more
  obtain ⟨lengthR, doubled⟩ := doublings_spec (lengthS.trans length.symm) below
    (if topLimbSet then 2 * limbBits.width else limbBits.width * (limbs + 1))
  have made : 2 ^ (if topLimbSet then 2 * limbBits.width else limbBits.width * (limbs + 1)) *
      (2 ^ limbBits.width) ^ (if topLimbSet then limbs - 1 else 0) = 2 ^ limbBits.width * (2 ^ limbBits.width) ^ limbs := by
    rw [← pow_mul, ← pow_mul, ← pow_add, ← pow_add]
    apply congrArg
    split
    · obtain ⟨count, rfl⟩ := Nat.exists_eq_succ_of_ne_zero (Nat.pos_iff_ne_zero.mp some_)
      rw [Nat.succ_sub_one, Nat.mul_succ]
      omega
    rw [mul_zero, add_zero, Nat.mul_succ]
    omega
  rw [start, made] at doubled
  refine ⟨lengthR.trans length, ?_, ?_⟩
  all_goals rw [doubled]
  · exact Nat.mod_lt _ (Nat.zero_lt_of_lt more)
  · exact (ZMod.natCast_mod _ _).trans (Nat.cast_mul _ _)

theorem square_prepared {mod : MpMod limbBits.width} (ready : Ready mod) (more : 1 < value mod.n) (few : mod.limbs < 2 ^ 16)
    {r : List (Limb limbBits.width)} (base : Form mod ((2 ^ limbBits.width : Nat) : ZMod (value mod.n)) r) :
    Prepared (withSquare mod r) := by
  have startPower : Form mod (((2 ^ limbBits.width : Nat) : ZMod (value mod.n)) ^ (mod.limbs / 2 ^ topBit mod.limbs)) r := by
    rw [top_bit_spec ready.some_ few, pow_one]
    exact base
  have power := limb_power_spec ready base (topBit mod.limbs) startPower
  refine ⟨⟨ready.length, ready.some_, ready.odd, ready.inverse⟩, more, power.length, power.below, ?_⟩
  have stands := power.stands
  rw [← Nat.cast_pow] at stands
  exact stands

theorem finish_prepared {limbs bits : Nat} {n : List (Limb limbBits.width)} {topLimbSet : Bool} (length : n.length = limbs)
    (some_ : 0 < limbs) (few : limbs < 2 ^ 16) (odd : value n % 2 = 1) (more : 1 < value n)
    (top : topLimbSet = true → (2 ^ limbBits.width) ^ (limbs - 1) < value n) :
    Prepared (modFinish limbs bits n topLimbSet) :=
  square_prepared (inverse_ready length some_ odd) more few (doublings_form length some_ more top)

omit [NeZero width]

theorem width_bytes (limbBits : LimbBits) : limbBits.width = 8 * limbBits.bytes := by
  cases limbBits <;> rfl

theorem bytes_pos (limbBits : LimbBits) : 0 < limbBits.bytes := by
  cases limbBits <;> decide

theorem base_bytes (limbBits : LimbBits) : 2 ^ limbBits.width = 256 ^ limbBits.bytes := by
  rw [width_bytes, pow_mul]
  rfl

def littleEndian : List Byte → Nat
  | [] => 0
  | v :: rest => v.val + 256 * littleEndian rest

theorem little_reverse (be : List Byte) : littleEndian be.reverse = bigEndian be := by
  induction be using List.reverseRecOn with
  | nil => rfl
  | append_singleton be v ih =>
    rw [reverse_append, big_endian_concat, ← ih]
    show v.val + 256 * littleEndian be.reverse = _
    omega

theorem or_byte_spec {out : List (Limb limbBits.width)} {i : Nat} (place : i / limbBits.bytes < out.length)
    (below : value out < 256 ^ i) (v : Byte) :
    (orByte out i v).length = out.length ∧ value (orByte out i v) = value out + v.val * 256 ^ i := by
  have inside : i % limbBits.bytes < limbBits.bytes := Nat.mod_lt _ (bytes_pos limbBits)
  refine ⟨length_modify _ _ _, ?_⟩
  have parts : i = limbBits.bytes * (i / limbBits.bytes) + i % limbBits.bytes := (Nat.div_add_mod i _).symm
  have split : 256 ^ i = (2 ^ limbBits.width) ^ (i / limbBits.bytes) * 256 ^ (i % limbBits.bytes) := by
    rw [base_bytes, ← pow_mul, ← pow_add, ← parts]
  -- The limb holds the bytes below this one.
  have held : out[i / limbBits.bytes].val < 256 ^ (i % limbBits.bytes) := by
    rw [limb_of_value place]
    refine (Nat.mod_le _ _).trans_lt (Nat.div_lt_of_lt_mul ?_)
    rw [← split]
    exact below
  have shift : 2 ^ (8 * (i % limbBits.bytes)) = 256 ^ (i % limbBits.bytes) := by
    rw [pow_mul]
    rfl
  have room : (v.val + 1) * 256 ^ (i % limbBits.bytes) ≤ 2 ^ limbBits.width := by
    rw [base_bytes]
    calc (v.val + 1) * 256 ^ (i % limbBits.bytes)
      _ ≤ 256 * 256 ^ (i % limbBits.bytes) := Nat.mul_le_mul_right _ v.isLt
      _ = 256 ^ (i % limbBits.bytes + 1) := by rw [pow_succ']
      _ ≤ 256 ^ limbBits.bytes := Nat.pow_le_pow_right (by decide) inside
  have joined : out[i / limbBits.bytes].val ||| v.val * 2 ^ (8 * (i % limbBits.bytes)) =
      v.val * 256 ^ (i % limbBits.bytes) + out[i / limbBits.bytes].val := by
    have sum := Nat.two_pow_add_eq_or_of_lt (i := 8 * (i % limbBits.bytes)) (b := out[i / limbBits.bytes].val)
      (by rw [shift]; exact held) v.val
    rw [Nat.lor_comm, mul_comm v.val, ← sum, shift, mul_comm]
  have whole : (v.val + 1) * 256 ^ (i % limbBits.bytes) = v.val * 256 ^ (i % limbBits.bytes) + 256 ^ (i % limbBits.bytes) := by
    ring
  rw [whole] at room
  have small : (low (v.val * 2 ^ (8 * (i % limbBits.bytes))) : Limb limbBits.width).val = v.val * 2 ^ (8 * (i % limbBits.bytes)) := by
    apply Nat.mod_eq_of_lt
    rw [shift]
    exact lt_of_lt_of_le (Nat.lt_add_of_pos_right (Nat.zero_lt_of_lt held)) room
  have result : (low (out[i / limbBits.bytes].val |||
        (low (v.val * 2 ^ (8 * (i % limbBits.bytes))) : Limb limbBits.width).val) : Limb limbBits.width).val =
      v.val * 256 ^ (i % limbBits.bytes) + out[i / limbBits.bytes].val := by
    rw [small, joined, low_val, Nat.mod_eq_of_lt (lt_of_lt_of_le (Nat.add_lt_add_left held _) room)]
  have changed : value (orByte out i v) + out[i / limbBits.bytes].val * (2 ^ limbBits.width) ^ (i / limbBits.bytes) =
      value out + (v.val * 256 ^ (i % limbBits.bytes) + out[i / limbBits.bytes].val) *
        (2 ^ limbBits.width) ^ (i / limbBits.bytes) := by
    rw [← result]
    exact value_modify place _
  rw [split]
  have product : (v.val * 256 ^ (i % limbBits.bytes) + out[i / limbBits.bytes].val) *
        (2 ^ limbBits.width) ^ (i / limbBits.bytes) =
      v.val * ((2 ^ limbBits.width) ^ (i / limbBits.bytes) * 256 ^ (i % limbBits.bytes)) +
        out[i / limbBits.bytes].val * (2 ^ limbBits.width) ^ (i / limbBits.bytes) := by ring
  rw [product, ← add_assoc] at changed
  exact Nat.add_right_cancel changed

theorem or_from_spec {be : List Byte} {i : Nat} {out : List (Limb limbBits.width)}
    (room : i + be.length ≤ out.length * limbBits.bytes) (below : value out < 256 ^ i) :
    (orFrom i be out).length = out.length ∧ value (orFrom i be out) = value out + 256 ^ i * littleEndian be ∧
      loadFrom i be out = some (orFrom i be out) := by
  induction be generalizing i out with
  | nil => exact ⟨rfl, by simp [orFrom, littleEndian], rfl⟩
  | cons v be ih =>
    rw [length_cons] at room
    have place : i / limbBits.bytes < out.length := Nat.div_lt_of_lt_mul (by rw [mul_comm]; omega)
    obtain ⟨length, once⟩ := or_byte_spec place below v
    have below1 : value (orByte out i v) < 256 ^ (i + 1) := by
      have small := v.isLt
      rw [once, pow_succ]
      have product : v.val * 256 ^ i ≤ 255 * 256 ^ i := Nat.mul_le_mul_right _ (Nat.le_of_lt_succ small)
      omega
    obtain ⟨length2, rest, loaded⟩ := @ih (i + 1) (orByte out i v) (by rw [length]; omega) below1
    refine ⟨length2.trans length, ?_, ?_⟩
    · rw [orFrom, rest, once, littleEndian, pow_succ]
      ring
    rw [loadFrom, if_neg (not_le.mpr place)]
    exact loaded

theorem load_spec {limbs : Nat} {be : List Byte} (room : be.length ≤ limbs * limbBits.bytes) :
    loadBe limbBits limbs be = some (orFrom 0 be.reverse (zeros limbs)) ∧
      (orFrom 0 be.reverse (zeros limbs) : List (Limb limbBits.width)).length = limbs ∧
      value (orFrom 0 be.reverse (zeros limbs) : List (Limb limbBits.width)) = bigEndian be := by
  obtain ⟨length, sum, loaded⟩ := @or_from_spec limbBits be.reverse 0 (zeros limbs)
    (by rw [length_reverse, zeros_length]; omega) (by rw [value_zeros]; exact Nat.one_pos)
  refine ⟨loaded, length.trans (zeros_length _), ?_⟩
  rw [sum, value_zeros, little_reverse]
  omega

theorem mp_limbs_spec (limbBits : LimbBits) {bytes : Nat} (some_ : 0 < bytes) :
    bytes ≤ mpLimbs limbBits bytes * limbBits.bytes ∧ limbBits.bytes * (mpLimbs limbBits bytes - 1) + 1 ≤ bytes ∧
      0 < mpLimbs limbBits bytes := by
  unfold mpLimbs
  cases limbBits with
  | bits32 =>
    have four : LimbBits.bits32.bytes = 4 := rfl
    rw [four]
    omega
  | bits64 =>
    have eight : LimbBits.bits64.bytes = 8 := rfl
    rw [eight]
    omega

theorem mp_limbs_few (limbBits : LimbBits) {bytes : Nat} (most : bytes ≤ mpMaxBytes) : mpLimbs limbBits bytes < 2 ^ 16 := by
  have bound : mpMaxBytes = 1024 := rfl
  unfold mpLimbs
  cases limbBits with
  | bits32 =>
    have four : LimbBits.bits32.bytes = 4 := rfl
    rw [four]
    omega
  | bits64 =>
    have eight : LimbBits.bits64.bytes = 8 := rfl
    rw [eight]
    omega

theorem stripped_value (be : List Byte) : bigEndian (be.dropWhile (· == byteOf 0)) = bigEndian be := by
  induction be with
  | nil => rfl
  | cons v be ih =>
    rw [dropWhile_cons]
    split
    next zero =>
      have zero_ : v = byteOf 0 := beq_iff_eq.mp zero
      rw [ih, big_endian_head, zero_]
      show _ = 0 * _ + _
      omega
    · rfl

theorem lowest_bit {limbs : List (Limb limbBits.width)} : (limbs.headD (low 0)).val % 2 = value limbs % 2 := by
  cases limbs with
  | nil => exact congrArg (· % 2) (Nat.zero_mod _)
  | cons x rest =>
    have even : 2 ^ limbBits.width % 2 = 0 := by
      rw [@base_even limbBits.width _]
      exact Nat.mul_mod_right _ _
    show x.val % 2 = (x.val + 2 ^ limbBits.width * value rest) % 2
    rw [Nat.add_mod, Nat.mul_mod, even, zero_mul, Nat.zero_mod, add_zero, Nat.mod_mod]

theorem init_secret_prepared {be : List Byte} {mod : MpMod limbBits.width} (made : modInitSecret limbBits be = some mod)
    (more : 1 < bigEndian be) : Prepared mod ∧ value mod.n = bigEndian be := by
  unfold modInitSecret at made
  split at made
  · cases made
  rename_i sizes
  obtain ⟨room, _, some_⟩ := @mp_limbs_spec limbBits be.length (by omega)
  obtain ⟨_, length, number⟩ := @load_spec limbBits _ _ room
  dsimp only at made
  rw [lowest_bit, number] at made
  split at made
  · cases made
  rename_i odd
  cases made
  refine ⟨finish_prepared length some_ (mp_limbs_few limbBits (by omega)) ?_ ?_ nofun, number⟩
  all_goals rw [number]
  · omega
  · exact more

theorem init_prepared {be : List Byte} {mod : MpMod limbBits.width} (made : modInit limbBits be = some mod) :
    Prepared mod ∧ value mod.n = bigEndian be := by
  rw [← stripped_value be]
  unfold modInit at made
  dsimp only at made
  have first : ∀ v rest, be.dropWhile (· == byteOf 0) = v :: rest → v ≠ byteOf 0 := by
    intro v rest here zero
    have head := List.head?_dropWhile_not (· == byteOf 0) be
    rw [here] at head
    simp [zero] at head
  generalize be.dropWhile (· == byteOf 0) = be at first made ⊢
  split at made
  · cases made
  rename_i sizes
  have some_ : 0 < be.length := by omega
  obtain ⟨room, tight, someLimbs⟩ := mp_limbs_spec limbBits some_
  obtain ⟨loaded, length, number⟩ := @load_spec limbBits _ _ room
  rw [loaded] at made
  dsimp only at made
  have lowest := @lowest_bit limbBits (orFrom 0 be.reverse (zeros (mpLimbs limbBits be.length)))
  split at made
  · cases made
  rename_i odd
  split at made
  · cases made
  rename_i notSmall
  cases made
  have odd_ : bigEndian be % 2 = 1 := by
    rw [← number, ← lowest]
    omega
  -- The top byte is not 0, so neither is the top limb.
  have top : (2 ^ limbBits.width) ^ (mpLimbs limbBits be.length - 1) < bigEndian be := by
    cases be with
    | nil => exact absurd some_ (lt_irrefl 0)
    | cons v rest =>
      have positive : 0 < v.val := by
        by_contra zero
        exact first v rest rfl (Fin.ext (by rw [byte_of_val]; omega))
      have least : (2 ^ limbBits.width) ^ (mpLimbs limbBits (v :: rest).length - 1) ≤ bigEndian (v :: rest) := by
        rw [base_bytes, ← pow_mul, big_endian_head]
        calc 256 ^ (limbBits.bytes * (mpLimbs limbBits (v :: rest).length - 1))
          _ ≤ 256 ^ rest.length := Nat.pow_le_pow_right (by decide) (by
            rw [length_cons] at tight
            exact Nat.le_of_succ_le_succ tight)
          _ ≤ v.val * 256 ^ rest.length := Nat.le_mul_of_pos_left _ positive
          _ ≤ v.val * 256 ^ rest.length + bigEndian rest := Nat.le_add_right _ _
      refine lt_of_le_of_ne least fun same => ?_
      by_cases one : mpLimbs limbBits (v :: rest).length = 1
      · rw [one, tsub_self, pow_zero] at same
        apply notSmall
        refine ⟨one, ?_⟩
        generalize (orFrom 0 (v :: rest).reverse (zeros (mpLimbs limbBits (v :: rest).length)) :
          List (Limb limbBits.width)) = n at length number ⊢
        rw [one] at length
        obtain ⟨x, rfl⟩ := length_eq_one_iff.mp length
        rw [value_cons, value_nil] at number
        show x.val < 3
        omega
      have even := @base_even limbBits.width _
      obtain ⟨count, counted⟩ : ∃ count, mpLimbs limbBits (v :: rest).length - 1 = count + 1 :=
        ⟨mpLimbs limbBits (v :: rest).length - 2, by omega⟩
      rw [counted, pow_succ', even, mul_assoc] at same
      omega
  refine ⟨finish_prepared length someLimbs (mp_limbs_few limbBits (by omega)) ?_ ?_ fun _ => ?_, number⟩
  all_goals rw [number]
  · exact odd_
  · exact lt_of_le_of_lt (Nat.one_le_pow _ _ (Nat.two_pow_pos _)) top
  · exact top

end Bytes

end ProvenC.Crypto.Forms
