import ProvenC.Crypto.Powers

/-!
# The arithmetic is exact

For every odd modulus the type has room for, from bytes with leading zeros or without: the products,
the square of the radix, the residue of any bytes and the three powers are what they are in the
residues.
-/

namespace ProvenC.Crypto.Exact

open Bytes Lib.Limbs Lib.BigEndian Crypto.Words Crypto.Montgomery
open Crypto.Modulus Crypto.Forms Crypto.Reducing Crypto.Powers

variable {limbBits : LimbBits}

structure IsPower (mod : MpMod limbBits.width) (base exp out : List (Limb limbBits.width)) : Prop where
  length : out.length = mod.limbs
  below : value out < value mod.n
  power : value (fromMont mod out) = value (fromMont mod base) ^ value exp % value mod.n

structure Operations (mod : MpMod limbBits.width) : Prop where
  mul : ∀ a b : List (Limb limbBits.width), a.length = mod.limbs → b.length = mod.limbs → value a < value mod.n →
    value b < value mod.n → (montmul mod a b).length = mod.limbs ∧ value (montmul mod a b) < value mod.n ∧
      (value (montmul mod a b) : ZMod (value mod.n)) = value a * value b * (radix mod)⁻¹
  sqr : ∀ a : List (Limb limbBits.width), a.length = mod.limbs → value a < value mod.n → montsqr mod a = montmul mod a a
  rr : value mod.rr = ((2 ^ limbBits.width) ^ mod.limbs) ^ 2 % value mod.n
  reduce : ∀ be : List Byte, (reduceBe mod be).length = mod.limbs ∧ value (reduceBe mod be) = bigEndian be % value mod.n
  plain : ∀ a : List (Limb limbBits.width), a.length = mod.limbs → value a < value mod.n →
    value (fromMont mod (toMont mod a)) = value a
  pow : ∀ base exp : List (Limb limbBits.width), base.length = mod.limbs → value base < value mod.n →
    IsPower mod base exp (mpPow mod base exp)
  powCt : ∀ base exp : List (Limb limbBits.width), base.length = mod.limbs → value base < value mod.n →
    exp.length = mod.limbs → mod.limbs ≤ mpCtMax limbBits → ∃ out, mpPowCt mod base exp = some out ∧ IsPower mod base exp out
  powCtShort : ∀ base exp : List (Limb limbBits.width), base.length = mod.limbs → value base < value mod.n →
    exp ≠ [] → mod.limbs ≤ mpDhMax limbBits → ∃ out, mpPowCtShort mod base exp = some out ∧ IsPower mod base exp out

variable {mod : MpMod limbBits.width}

theorem base_form (ready : Ready mod) {a : List (Limb limbBits.width)}
    (length : a.length = mod.limbs) (below : value a < value mod.n) : Form mod (value a * (radix mod)⁻¹) a := by
  refine ⟨length, below, ?_⟩
  rw [mul_assoc, ZMod.inv_mul_of_unit _ (radix_unit ready), mul_one]

theorem form_power (prepared : Prepared mod) {base exp out : List (Limb limbBits.width)}
    {x : ZMod (value mod.n)} (base_ : Form mod x base) (power : Form mod (x ^ value exp) out) : IsPower mod base exp out := by
  obtain ⟨_, below, out_⟩ := from_mont_spec prepared power
  obtain ⟨_, _, plain⟩ := from_mont_spec prepared base_
  refine ⟨power.length, power.below, ?_⟩
  have same : ((value (fromMont mod out) : Nat) : ZMod (value mod.n)) =
      ((value (fromMont mod base) ^ value exp : Nat) : ZMod (value mod.n)) := by
    rw [out_, Nat.cast_pow, plain]
  have congruent := (ZMod.natCast_eq_natCast_iff' _ _ _).mp same
  rwa [Nat.mod_eq_of_lt below] at congruent

theorem width_windows (limbBits : LimbBits) {wbits : Nat} (two_or_four : wbits = 2 ∨ wbits = 4) :
    2 ^ wbits ≤ 2 ^ limbBits.width ∧ wbits * (limbBits.width / wbits) = limbBits.width := by
  rcases two_or_four with rfl | rfl <;> cases limbBits <;> decide

theorem prepared_operations (prepared : Prepared mod) : Operations mod := by
  have ready := prepared.ready
  have inside {a : List (Limb limbBits.width)} (below : value a < value mod.n) (b : List (Limb limbBits.width))
      (below_ : value b < value mod.n) : value a * value b < (2 ^ limbBits.width) ^ mod.limbs * value mod.n :=
    Nat.mul_lt_mul'' (below.trans (below_radix ready)) below_
  refine ⟨?_, ?_, prepared_rr prepared, reduce_be_spec prepared, ?_, ?_, ?_, ?_⟩
  · intro a b lengthA lengthB belowA belowB
    have reduced := montmul_reduced ready lengthA lengthB (inside belowA b belowB)
    refine ⟨reduced.length, reduced.below, ?_⟩
    have exact_ := (ZMod.natCast_eq_natCast_iff _ _ _).mpr reduced.exact_
    rw [Nat.cast_mul, Nat.cast_mul] at exact_
    rw [← exact_, mul_comm _ (value (montmul mod a b) : ZMod (value mod.n)), mul_assoc]
    exact (congrArg _ (ZMod.mul_inv_of_unit _ (radix_unit ready))).trans (mul_one _) |>.symm
  · intro a length below
    exact reduced_unique ready (montsqr_reduced ready length (inside below a below))
      (montmul_reduced ready length length (inside below a below))
  · intro a length below
    obtain ⟨_, below_, out_⟩ := from_mont_spec prepared (to_mont_form prepared length)
    have congruent := (ZMod.natCast_eq_natCast_iff' _ _ _).mp out_
    rwa [Nat.mod_eq_of_lt below_, Nat.mod_eq_of_lt below] at congruent
  · intro base exp length below
    have form := base_form ready length below
    have start := one_form prepared
    have none_ : value exp / 2 ^ expTop exp = 0 := Nat.div_eq_of_lt (exp_top_spec exp)
    rw [← pow_zero (value base * (radix mod)⁻¹ : ZMod (value mod.n)), ← none_] at start
    apply form_power prepared form
    unfold mpPow
    dsimp only
    split
    · exact slide_form prepared form le_rfl start fun _ => none_
    · exact plain_walk_form prepared form start fun _ => none_
  · intro base exp length below _ few
    have form := base_form ready length below
    obtain ⟨small, whole⟩ := width_windows limbBits (.inr rfl)
    refine ⟨_, if_neg (not_lt.mpr few), form_power prepared form (ct_walk_form prepared form small whole exp)⟩
  intro base exp length below some_ few
  have form := base_form ready length below
  have windows : shortBits limbBits mod.limbs = 2 ∨ shortBits limbBits mod.limbs = 4 := by
    unfold shortBits
    split
    · exact .inr rfl
    · exact .inl rfl
  obtain ⟨small, whole⟩ := width_windows limbBits windows
  have allowed : ¬(mpDhMax limbBits < mod.limbs ∨ exp.length = 0) := by
    rintro (many | none_)
    · omega
    · exact some_ (List.eq_nil_of_length_eq_zero none_)
  exact ⟨_, if_neg allowed, form_power prepared form (ct_walk_form prepared form small whole exp)⟩

theorem secret_taken {be : List Byte} (odd : bigEndian be % 2 = 1) (least : 8 ≤ be.length) (most : be.length ≤ mpMaxBytes) :
    ∃ mod, modInitSecret limbBits be = some mod := by
  obtain ⟨room, _, _⟩ := @mp_limbs_spec limbBits be.length (by omega)
  obtain ⟨_, _, number⟩ := @load_spec limbBits _ _ room
  unfold modInitSecret
  rw [if_neg (by omega)]
  dsimp only
  rw [lowest_bit, number, if_neg (by omega)]
  exact ⟨_, rfl⟩

theorem public_taken {be : List Byte} (odd : bigEndian be % 2 = 1) (more : 1 < bigEndian be)
    (most : (be.dropWhile (· == byteOf 0)).length ≤ mpMaxBytes) : ∃ mod, modInit limbBits be = some mod := by
  rw [← stripped_value be] at odd more
  unfold modInit
  dsimp only
  generalize be.dropWhile (· == byteOf 0) = be at odd more most ⊢
  have some_ : 0 < be.length := by
    rcases Nat.eq_zero_or_pos be.length with none_ | some_
    · rw [List.eq_nil_of_length_eq_zero none_] at more
      exact absurd more (by decide)
    · exact some_
  obtain ⟨room, _, _⟩ := mp_limbs_spec limbBits some_
  obtain ⟨loaded, length, number⟩ := @load_spec limbBits _ _ room
  rw [if_neg (by omega), loaded]
  dsimp only
  have lowest := @lowest_bit limbBits (orFrom 0 be.reverse (zeros (mpLimbs limbBits be.length)))
  rw [lowest, number, if_neg (by omega), if_neg]
  · exact ⟨_, rfl⟩
  rintro ⟨one, small⟩
  generalize (orFrom 0 be.reverse (zeros (mpLimbs limbBits be.length)) : List (Limb limbBits.width)) = n at length number small
  rw [one] at length
  obtain ⟨x, rfl⟩ := List.length_eq_one_iff.mp length
  rw [value_cons, value_nil] at number
  have small_ : x.val < 3 := small
  omega

/-- Every odd modulus above 1 of every length the type has room for: what is read from its bytes has
its value, and its operations are exact. -/
theorem mp_exact (limbBits : LimbBits) {be : List Byte} (odd : bigEndian be % 2 = 1) (more : 1 < bigEndian be) :
    ((be.dropWhile (· == byteOf 0)).length ≤ mpMaxBytes →
      ∃ mod, modInit limbBits be = some mod ∧ value mod.n = bigEndian be ∧ Operations mod) ∧
    (8 ≤ be.length → be.length ≤ mpMaxBytes →
      ∃ mod, modInitSecret limbBits be = some mod ∧ value mod.n = bigEndian be ∧ Operations mod) := by
  constructor
  · intro most
    obtain ⟨mod, made⟩ := @public_taken limbBits be odd more most
    obtain ⟨prepared, same⟩ := init_prepared made
    exact ⟨mod, made, same, prepared_operations prepared⟩
  intro least most
  obtain ⟨mod, made⟩ := @secret_taken limbBits be odd least most
  obtain ⟨prepared, same⟩ := init_secret_prepared made more
  exact ⟨mod, made, same, prepared_operations prepared⟩

theorem mp_exact_seven : ∃ mod, modInitSecret .bits32 [0, 0, 0, 0, 0, 0, 0, 7] = some mod ∧
      value mod.n = bigEndian [0, 0, 0, 0, 0, 0, 0, 7] ∧ Operations mod :=
  (@mp_exact .bits32 [0, 0, 0, 0, 0, 0, 0, 7] (by decide) (by decide)).2 (by decide) (by decide)

end ProvenC.Crypto.Exact
