import ProvenC.Crypto.Forms

/-!
# Into the form, out of it, and any bytes below the modulus

A number of the modulus's size goes into its Montgomery form whether it is below the modulus or
not, so a number of any length is reduced a chunk at a time.
-/

namespace ProvenC.Crypto.Reducing

open Bytes Lib.Limbs Lib.BigEndian Crypto.Words Crypto.Montgomery
open Crypto.Modulus Crypto.Forms

section Form

variable {width : Nat} [NeZero width] {mod : MpMod width}

theorem to_mont_form (prepared : Prepared mod) {a : List (Limb width)} (length : a.length = mod.limbs) :
    Form mod (value a : ZMod (value mod.n)) (toMont mod a) := by
  have ready := prepared.ready
  apply form_of_reduced ready (montmul_reduced ready length prepared.rr.length ?_)
  · rw [Nat.cast_mul, prepared.rr.stands]
    ring
  · exact Nat.mul_lt_mul'' (length ▸ value_lt a) prepared.rr.below

theorem one_of_spec {limbs : Nat} (some_ : 0 < limbs) :
    (oneOf limbs : List (Limb width)).length = limbs ∧ value (oneOf limbs : List (Limb width)) = 1 := by
  obtain ⟨count, rfl⟩ := Nat.exists_eq_succ_of_ne_zero (Nat.pos_iff_ne_zero.mp some_)
  have one : (low 1 : Limb width).val = 1 := Nat.mod_eq_of_lt (Nat.lt_of_lt_of_le Nat.one_lt_two two_le_base)
  refine ⟨by rw [oneOf, List.length_set, zeros_length], ?_⟩
  rw [oneOf, zeros_succ, List.set_cons_zero, value_cons, value_zeros, one, Nat.mul_zero]

theorem from_mont_spec (prepared : Prepared mod) {x : ZMod (value mod.n)} {a : List (Limb width)} (form : Form mod x a) :
    (fromMont mod a).length = mod.limbs ∧ value (fromMont mod a) < value mod.n ∧
      (value (fromMont mod a) : ZMod (value mod.n)) = x := by
  have ready := prepared.ready
  obtain ⟨lengthOne, one⟩ := @one_of_spec width _ mod.limbs ready.some_
  have reduced := montmul_reduced ready form.length lengthOne (by
    rw [one, mul_one]
    exact lt_of_lt_of_le form.below (Nat.le_mul_of_pos_left _ (Nat.pow_pos (Nat.two_pow_pos width))))
  refine ⟨reduced.length, reduced.below, ?_⟩
  have exact_ := (ZMod.natCast_eq_natCast_iff _ _ _).mpr reduced.exact_
  rw [one, mul_one, Nat.cast_mul, form.stands] at exact_
  apply (radix_unit ready).mul_left_cancel
  exact exact_.trans (mul_comm _ _)

theorem mp_add_spec (ready : Ready mod) {a b : List (Limb width)} (lengthA : a.length = mod.limbs)
    (lengthB : b.length = mod.limbs) (belowA : value a < value mod.n) (belowB : value b < value mod.n) :
    (mpAdd mod a b).length = mod.limbs ∧ value (mpAdd mod a b) = (value a + value b) % value mod.n := by
  obtain ⟨length, carry, sum⟩ := add_raw_spec (lengthA.trans lengthB.symm)
  unfold mpAdd
  generalize addRaw a b = result at length carry sum ⊢
  rw [lengthA, ← ready.length] at length sum
  obtain ⟨length2, once⟩ := reduce_once_spec length carry (by rw [sum]; omega)
  exact ⟨length2.trans ready.length, by rw [once, sum]⟩

end Form

variable {limbBits : LimbBits} {mod : MpMod limbBits.width}

theorem reduce_chunk (prepared : Prepared mod) {r : List (Limb limbBits.width)} (length : r.length = mod.limbs)
    (below : value r < value mod.n) {be : List Byte} (room : be.length ≤ mod.limbs * limbBits.bytes) :
    let c := fromMont mod (toMont mod ((loadBe limbBits mod.limbs be).getD (zeros mod.limbs)))
    (mpAdd mod (toMont mod r) c).length = mod.limbs ∧ value (mpAdd mod (toMont mod r) c) < value mod.n ∧
      value (mpAdd mod (toMont mod r) c) ≡
        value r * 256 ^ (mod.limbs * limbBits.bytes) + bigEndian be [MOD value mod.n] := by
  intro c
  obtain ⟨loaded, lengthC, number⟩ := @load_spec limbBits _ _ room
  have chunk := to_mont_form prepared lengthC
  obtain ⟨length2, below2, out_⟩ := from_mont_spec prepared chunk
  have c_ : c = fromMont mod (toMont mod (orFrom 0 be.reverse (zeros mod.limbs))) := by
    show fromMont mod (toMont mod ((loadBe limbBits mod.limbs be).getD (zeros mod.limbs))) = _
    rw [loaded]
    rfl
  rw [← c_] at length2 below2 out_
  have moved := to_mont_form prepared length
  obtain ⟨lengthSum, sum⟩ := mp_add_spec prepared.ready moved.length length2 moved.below below2
  refine ⟨lengthSum, by rw [sum]; exact Nat.mod_lt _ (Nat.zero_lt_of_lt below), ?_⟩
  rw [sum]
  refine (Nat.mod_modEq _ _).trans ?_
  rw [← ZMod.natCast_eq_natCast_iff, Nat.cast_add, Nat.cast_add, moved.stands, out_, number, Nat.cast_mul, radix, base_bytes,
    ← pow_mul, mul_comm limbBits.bytes]

theorem reduce_from_spec (prepared : Prepared mod) {len rounds pos : Nat} {be : List Byte} {r : List (Limb limbBits.width)}
    (enough : be.length ≤ rounds) (place : pos + be.length = len)
    (aligned : pos ≠ 0 → be.length % (mod.limbs * limbBits.bytes) = 0) (start : pos = 0 → value r = 0)
    (length : r.length = mod.limbs) (below : value r < value mod.n) :
    (reduceFrom mod len rounds pos be r).length = mod.limbs ∧ value (reduceFrom mod len rounds pos be r) < value mod.n ∧
      value (reduceFrom mod len rounds pos be r) ≡ value r * 256 ^ be.length + bigEndian be [MOD value mod.n] := by
  induction rounds generalizing pos be r with
  | zero =>
    have none_ := List.eq_nil_of_length_eq_zero (Nat.le_zero.mp enough)
    subst none_
    refine ⟨length, below, ?_⟩
    rw [List.length_nil, pow_zero, mul_one]
    rfl
  | succ rounds ih =>
    rw [reduceFrom]
    by_cases none_ : be = []
    · rw [if_pos none_]
      subst none_
      refine ⟨length, below, ?_⟩
      rw [List.length_nil, pow_zero, mul_one]
      rfl
    rw [if_neg none_]
    dsimp only
    have some_ : 0 < be.length := List.length_pos_iff.mpr none_
    have chunkPos : 0 < mod.limbs * limbBits.bytes := Nat.mul_pos prepared.ready.some_ (bytes_pos limbBits)
    generalize chunk_ : mod.limbs * limbBits.bytes = chunk at aligned chunkPos ⊢
    -- The first chunk is short when the whole is not in chunks; the others are not.
    obtain ⟨take, take_, positive, inside, most, rest, shift⟩ : ∃ take,
        (if pos = 0 ∧ len % chunk ≠ 0 then len % chunk else chunk) = take ∧ 0 < take ∧ take ≤ be.length ∧ take ≤ chunk ∧
          (be.length - take) % chunk = 0 ∧ value r * 256 ^ chunk = value r * 256 ^ take := by
      by_cases short : pos = 0 ∧ len % chunk ≠ 0
      · refine ⟨len % chunk, if_pos short, Nat.pos_of_ne_zero short.2, ?_, (Nat.mod_lt _ chunkPos).le, ?_, ?_⟩
        · have less := Nat.mod_le len chunk
          omega
        · have whole : be.length = len := by omega
          rw [whole]
          exact Nat.mod_eq_zero_of_dvd (Nat.dvd_sub_mod len)
        · rw [start short.1, zero_mul, zero_mul]
      have multiple : be.length % chunk = 0 := by
        by_cases first : pos = 0
        · have whole : be.length = len := by omega
          by_contra other
          exact short ⟨first, whole ▸ other⟩
        · exact aligned first
      have reach : chunk ≤ be.length := Nat.le_of_dvd some_ (Nat.dvd_of_mod_eq_zero multiple)
      refine ⟨chunk, if_neg short, chunkPos, reach, le_rfl, ?_, rfl⟩
      rw [← Nat.mod_eq_sub_mod reach]
      exact multiple
    rw [take_]
    have lengthTake : (be.take take).length = take := by
      rw [List.length_take]
      omega
    have lengthDrop : (be.drop take).length = be.length - take := List.length_drop
    obtain ⟨length1, below1, chunk1⟩ := @reduce_chunk limbBits mod prepared r length below (be.take take)
      (by rw [lengthTake, chunk_]; exact most)
    rw [chunk_, shift] at chunk1
    obtain ⟨length2, below2, more⟩ := @ih (pos + take) (be.drop take) _ (by rw [lengthDrop]; omega)
      (by rw [lengthDrop]; omega) (fun _ => by rw [lengthDrop, chunk_]; exact rest)
      (fun zero => absurd zero (by omega)) length1 below1
    refine ⟨length2, below2, more.trans ?_⟩
    have split : bigEndian be = bigEndian (be.take take) * 256 ^ (be.drop take).length + bigEndian (be.drop take) := by
      rw [← big_endian_append, List.take_append_drop]
    have power : 256 ^ be.length = 256 ^ take * 256 ^ (be.drop take).length := by
      rw [← pow_add, lengthDrop]
      exact congrArg _ (by omega)
    rw [split, power]
    calc value (mpAdd mod (toMont mod r)
            (fromMont mod (toMont mod ((loadBe limbBits mod.limbs (be.take take)).getD (zeros mod.limbs))))) *
          256 ^ (be.drop take).length + bigEndian (be.drop take)
      _ ≡ (value r * 256 ^ take + bigEndian (be.take take)) * 256 ^ (be.drop take).length + bigEndian (be.drop take)
          [MOD value mod.n] := (chunk1.mul_right _).add_right _
      _ = value r * (256 ^ take * 256 ^ (be.drop take).length) +
          (bigEndian (be.take take) * 256 ^ (be.drop take).length + bigEndian (be.drop take)) := by ring

theorem reduce_be_spec (prepared : Prepared mod) (be : List Byte) :
    (reduceBe mod be).length = mod.limbs ∧ value (reduceBe mod be) = bigEndian be % value mod.n := by
  have positive : 0 < value mod.n := Nat.zero_lt_of_lt prepared.more
  obtain ⟨length, below, same⟩ := @reduce_from_spec limbBits mod prepared be.length be.length 0 be
    (zeros mod.limbs) le_rfl (zero_add _) (fun zero => absurd rfl zero) (fun _ => value_zeros _) (zeros_length _)
    (by rw [value_zeros]; exact positive)
  refine ⟨length, ?_⟩
  rw [value_zeros, zero_mul, zero_add] at same
  exact (Nat.mod_eq_of_lt below).symm.trans same

end ProvenC.Crypto.Reducing
