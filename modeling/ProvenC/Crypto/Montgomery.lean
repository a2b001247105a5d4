import ProvenC.Crypto.Words

/-!
# Montgomery products

The product of two numbers over the power of the base, mod the modulus: for each limb of one a row of
products with the other and a row of the modulus, taken together and moved down a limb.
-/

namespace ProvenC.Crypto.Montgomery

open List Bytes Lib.Limbs Crypto.Words

variable {width : Nat}

/-- `proven_crypto_mp_mod_t`; the limbs of `n` and `rr` are those in use. -/
structure MpMod (width : Nat) where
  limbs : Nat
  bits : Nat
  n0inv : Limb width
  n : List (Limb width)
  rr : List (Limb width)
  deriving DecidableEq, Repr

/-- The limbs above the lowest of one pass: `t + a b_i + m n`, each written a place below. -/
def montRow (bi m : Nat) : Nat → Nat → List (Limb width) → List (Limb width) → List (Limb width) →
    List (Limb width) × Nat × Nat
  | c1, c2, a :: as, n :: ns, t :: ts =>
    let v := wide width (a.val * bi + t.val + c1)
    let u := wide width (m * n.val + (low v : Limb width).val + c2)
    let (row, last) := montRow bi m (v / 2 ^ width) (u / 2 ^ width) as ns ts
    (low u :: row, last)
  | c1, c2, _, _, _ => ([], c1, c2)

/-- One limb of `b`; `t` is its limbs below the top and the top. -/
def montStep (mod : MpMod width) (a : List (Limb width)) (t : List (Limb width) × Limb width) (bi : Limb width) :
    List (Limb width) × Limb width :=
  match a, mod.n, t.1 with
  | a0 :: as, n0 :: ns, t0 :: ts =>
    let v := wide width (a0.val * bi.val + t0.val)
    let m : Limb width := low ((low v : Limb width).val * mod.n0inv.val)
    let c2 := wide width (m.val * n0.val + (low v : Limb width).val) / 2 ^ width
    let (row, c1, c2) := montRow bi.val m.val (v / 2 ^ width) c2 as ns ts
    let v := wide width (t.2.val + c1 + c2)
    (row ++ [low v], low (v / 2 ^ width))
  | _, _, _ => t

def montmul (mod : MpMod width) (a b : List (Limb width)) : List (Limb width) :=
  let (t, top) := b.foldl (montStep mod a) (zeros mod.limbs, low 0)
  reduceOnce t top mod.n

def crossRow (ai : Nat) : Nat → List (Limb width) → List (Limb width) → List (Limb width)
  | _, _, [] => []
  | c, [], _ :: ts => low c :: ts
  | c, aj :: as, t :: ts =>
    let v := wide width (ai * aj.val + t.val + c)
    low v :: crossRow ai (v / 2 ^ width) as ts

/-- The products of different limbs, each once; `t` is read from the place of the first limb's square. -/
def crossFrom : List (Limb width) → List (Limb width) → List (Limb width)
  | ai :: aj :: as, t0 :: ts =>
    match crossRow ai.val 0 (aj :: as) ts with
    | [] => [t0]
    | t1 :: rest => t0 :: t1 :: crossFrom (aj :: as) rest
  | _, t => t

def doubleFrom : Nat → List (Limb width) → List (Limb width)
  | _, [] => []
  | below, [_] => [low (below / 2 ^ (width - 1))]
  | below, t :: u :: ts =>
    low ((low (2 * t.val) : Limb width).val ||| below / 2 ^ (width - 1)) :: doubleFrom t.val (u :: ts)

def diagonalFrom : Nat → List (Limb width) → List (Limb width) → List (Limb width) × Nat
  | c, a :: as, t0 :: t1 :: ts =>
    let sq := wide width (a.val * a.val)
    let v := wide width (t0.val + (low sq : Limb width).val + c)
    let u := wide width (t1.val + (low (sq / 2 ^ width) : Limb width).val + v / 2 ^ width)
    let (rest, last) := diagonalFrom (u / 2 ^ width) as ts
    (low v :: low u :: rest, last)
  | c, _, t => (t, c)

/-- `m n` added; what carries past it goes to the next limb with `top`, and past that is the new
`top`. -/
def clearRow (m : Nat) (top : Nat) : Nat → List (Limb width) → List (Limb width) → List (Limb width) × Limb width
  | _, _, [] => ([], low top)
  | cc, [], t :: ts =>
    let v := wide width (t.val + cc + top)
    (low v :: ts, low (v / 2 ^ width))
  | cc, n :: ns, t :: ts =>
    let v := wide width (m * n.val + t.val + cc)
    let (rest, last) := clearRow m top (v / 2 ^ width) ns ts
    (low v :: rest, last)

def clearFrom (mod : MpMod width) : Nat → List (Limb width) × Limb width → List (Limb width) × Limb width
  | 0, t => t
  | rounds + 1, (t, top) =>
    let m : Limb width := low ((t.headD (low 0)).val * mod.n0inv.val)
    let (row, last) := clearRow m.val top.val 0 mod.n t
    clearFrom mod rounds (row.tail, last)

def montsqr (mod : MpMod width) (a : List (Limb width)) : List (Limb width) :=
  let t := crossFrom a (zeros (2 * mod.limbs))
  let t := doubleFrom 0 t
  let (t, _) := diagonalFrom 0 a t
  let (t, top) := clearFrom mod mod.limbs (t, low 0)
  reduceOnce t top mod.n

structure Ready (mod : MpMod width) : Prop where
  length : mod.n.length = mod.limbs
  some_ : 0 < mod.limbs
  odd : value mod.n % 2 = 1
  inverse : (value mod.n * mod.n0inv.val + 1) % 2 ^ width = 0

section Product

variable [NeZero width]

omit [NeZero width] in
theorem product_fits {x y z u : Nat} (x_ : x < 2 ^ width) (y_ : y < 2 ^ width) (z_ : z < 2 ^ width) (u_ : u < 2 ^ width) :
    x * y + z + u < 2 ^ width * 2 ^ width := by
  obtain ⟨most, base⟩ : ∃ most, 2 ^ width = most + 1 := ⟨2 ^ width - 1, by omega⟩
  rw [base] at x_ y_ z_ u_ ⊢
  have product : x * y ≤ most * most := Nat.mul_le_mul (Nat.le_of_lt_succ x_) (Nat.le_of_lt_succ y_)
  have square : (most + 1) * (most + 1) = most * most + most + most + 1 := by ring
  omega

omit [NeZero width] in
theorem mont_row_spec {bi m : Nat} (bi_ : bi < 2 ^ width) (m_ : m < 2 ^ width) {c1 c2 : Nat} (c1_ : c1 < 2 ^ width)
    (c2_ : c2 < 2 ^ width) {a n t : List (Limb width)} (lengthN : n.length = a.length) (lengthT : t.length = a.length) :
    let (row, last1, last2) := montRow bi m c1 c2 a n t
    row.length = a.length ∧ last1 < 2 ^ width ∧ last2 < 2 ^ width ∧
      value row + (2 ^ width) ^ a.length * (last1 + last2) = value t + value a * bi + value n * m + c1 + c2 := by
  induction a generalizing n t c1 c2 with
  | nil =>
    have n_ := eq_nil_of_length_eq_zero lengthN
    have t_ := eq_nil_of_length_eq_zero lengthT
    subst n_ t_
    exact ⟨rfl, c1_, c2_, by simp⟩
  | cons x a ih =>
    obtain ⟨y, n, rfl⟩ := exists_cons_of_length_eq_add_one lengthN
    obtain ⟨z, t, rfl⟩ := exists_cons_of_length_eq_add_one lengthT
    have first := product_fits x.isLt bi_ z.isLt c1_
    rw [montRow, wide_of_lt first]
    generalize split : x.val * bi + z.val + c1 = v at first ⊢
    have second := product_fits m_ y.isLt (low v : Limb width).isLt c2_
    rw [wide_of_lt second]
    generalize split_ : m * y.val + (low v : Limb width).val + c2 = u at second ⊢
    have high1 : v / 2 ^ width < 2 ^ width := Nat.div_lt_of_lt_mul first
    have high2 : u / 2 ^ width < 2 ^ width := Nat.div_lt_of_lt_mul second
    have rest := @ih _ _ high1 high2 n t (Nat.succ.inj lengthN) (Nat.succ.inj lengthT)
    generalize montRow bi m (v / 2 ^ width) (u / 2 ^ width) a n t = result at rest ⊢
    obtain ⟨row, last1, last2⟩ := result
    obtain ⟨length, last1_, last2_, sum⟩ := rest
    refine ⟨congrArg Nat.succ length, last1_, last2_, ?_⟩
    have lowV := @low_add_high width v
    have lowU := @low_add_high width u
    rw [value_cons, value_cons, value_cons, value_cons, length_cons, pow_succ']
    calc (low u : Limb width).val + 2 ^ width * value row + 2 ^ width * (2 ^ width) ^ a.length * (last1 + last2)
      _ = (low u : Limb width).val + 2 ^ width * (value row + (2 ^ width) ^ a.length * (last1 + last2)) := by ring
      _ = (low u : Limb width).val + 2 ^ width * (u / 2 ^ width) + 2 ^ width * (v / 2 ^ width) +
          2 ^ width * (value t + value a * bi + value n * m) := by rw [sum]; ring
      _ = m * y.val + c2 + ((low v : Limb width).val + 2 ^ width * (v / 2 ^ width)) +
          2 ^ width * (value t + value a * bi + value n * m) := by rw [lowU, ← split_]; ring
      _ = z.val + 2 ^ width * value t + (x.val + 2 ^ width * value a) * bi + (y.val + 2 ^ width * value n) * m + c1 + c2 := by
        rw [lowV, ← split]; ring

omit [NeZero width] in
theorem lowest_zero {n : Nat} {n0inv x : Limb width} (inverse : (n * n0inv.val + 1) % 2 ^ width = 0) :
    ((low (x.val * n0inv.val) : Limb width).val * n + x.val) % 2 ^ width = 0 := by
  rw [low_val, Nat.add_mod, Nat.mod_mul_mod, ← Nat.add_mod]
  have factor : x.val * n0inv.val * n + x.val = x.val * (n * n0inv.val + 1) := by ring
  rw [factor, Nat.mul_mod, inverse, mul_zero, Nat.zero_mod]

/-- What `t` is worth with its top. -/
def worth (t : List (Limb width) × Limb width) : Nat := value t.1 + (2 ^ width) ^ t.1.length * t.2.val

theorem mont_step_spec {mod : MpMod width} (ready : Ready mod) {a : List (Limb width)} (lengthA : a.length = mod.limbs)
    {t : List (Limb width) × Limb width} (lengthT : t.1.length = mod.limbs) (top : t.2.val ≤ 1) (bi : Limb width) :
    (montStep mod a t bi).1.length = mod.limbs ∧ (montStep mod a t bi).2.val ≤ 1 ∧
      ∃ m < 2 ^ width, 2 ^ width * worth (montStep mod a t bi) = worth t + value a * bi.val + m * value mod.n := by
  obtain ⟨count, counted⟩ := Nat.exists_eq_succ_of_ne_zero (Nat.pos_iff_ne_zero.mp ready.some_)
  have lengthN := ready.length
  have inverse := ready.inverse
  obtain ⟨low_, top_⟩ := t
  dsimp only at lengthT top
  unfold montStep worth
  dsimp only
  rw [counted] at lengthA lengthT lengthN ⊢
  generalize mod.n = n at lengthN inverse ⊢
  generalize mod.n0inv = n0inv at inverse ⊢
  obtain ⟨a0, as, rfl⟩ := exists_cons_of_length_eq_add_one lengthA
  obtain ⟨t0, ts, rfl⟩ := exists_cons_of_length_eq_add_one lengthT
  obtain ⟨n0, ns, rfl⟩ := exists_cons_of_length_eq_add_one lengthN
  dsimp only
  have positive := Nat.two_pow_pos width
  have first : a0.val * bi.val + t0.val < 2 ^ width * 2 ^ width := by
    have fits := product_fits a0.isLt bi.isLt t0.isLt positive
    omega
  rw [wide_of_lt first]
  generalize splitV : a0.val * bi.val + t0.val = v at first ⊢
  have inverse0 : (n0.val * n0inv.val + 1) % 2 ^ width = 0 := by
    rw [value_cons] at inverse
    rw [← inverse, show (n0.val + 2 ^ width * value ns) * n0inv.val + 1 =
      n0.val * n0inv.val + 1 + 2 ^ width * (value ns * n0inv.val) by ring, Nat.add_mul_mod_self_left]
  have cleared := @lowest_zero width n0.val n0inv (low v) inverse0
  generalize (low ((low v : Limb width).val * n0inv.val) : Limb width) = m at cleared ⊢
  have second : m.val * n0.val + (low v : Limb width).val < 2 ^ width * 2 ^ width := by
    have fits := product_fits m.isLt n0.isLt (low v : Limb width).isLt positive
    omega
  rw [wide_of_lt second]
  have lowV := @low_add_high width v
  have whole := Nat.mul_div_cancel' (Nat.dvd_of_mod_eq_zero cleared)
  have c1_ : v / 2 ^ width < 2 ^ width := Nat.div_lt_of_lt_mul first
  have c2_ : (m.val * n0.val + (low v : Limb width).val) / 2 ^ width < 2 ^ width := Nat.div_lt_of_lt_mul second
  generalize (m.val * n0.val + (low v : Limb width).val) / 2 ^ width = c2 at whole c2_ ⊢
  have row_ := mont_row_spec bi.isLt m.isLt c1_ c2_ (a := as) (n := ns) (t := ts)
    ((Nat.succ.inj lengthN).trans (Nat.succ.inj lengthA).symm) ((Nat.succ.inj lengthT).trans (Nat.succ.inj lengthA).symm)
  generalize montRow bi.val m.val (v / 2 ^ width) c2 as ns ts = result at row_ ⊢
  obtain ⟨row, last1, last2⟩ := result
  obtain ⟨lengthRow, last1_, last2_, sum⟩ := row_
  dsimp only
  have countA : as.length = count := Nat.succ.inj lengthA
  rw [countA] at lengthRow sum
  have two := @two_le_base width _
  have bound : top_.val + last1 + last2 < 2 ^ width * 2 := by omega
  rw [wide_of_lt (bound.trans_le (Nat.mul_le_mul_left _ two))]
  have high : (top_.val + last1 + last2) / 2 ^ width ≤ 1 := Nat.le_of_lt_succ (Nat.div_lt_of_lt_mul bound)
  have kept : (low ((top_.val + last1 + last2) / 2 ^ width) : Limb width).val = (top_.val + last1 + last2) / 2 ^ width :=
    Nat.mod_eq_of_lt (high.trans_lt two)
  have lowTop := @low_add_high width (top_.val + last1 + last2)
  have lengths : (row ++ [(low (top_.val + last1 + last2) : Limb width)]).length = count + 1 := by
    rw [length_append, lengthRow, length_singleton]
  refine ⟨lengths, by rw [kept]; exact high, m.val, m.isLt, ?_⟩
  rw [kept, lengths, value_append, lengthRow, value_cons, value_nil, value_cons, value_cons, value_cons, length_cons,
    Nat.succ.inj lengthT, pow_succ']
  generalize (top_.val + last1 + last2) / 2 ^ width = above at *
  calc 2 ^ width * (value row + (2 ^ width) ^ count * ((low (top_.val + last1 + last2) : Limb width).val + 2 ^ width * 0) +
        2 ^ width * (2 ^ width) ^ count * above)
    _ = 2 ^ width * (value row + (2 ^ width) ^ count *
        ((low (top_.val + last1 + last2) : Limb width).val + 2 ^ width * above)) := by ring
    _ = 2 ^ width * (value row + (2 ^ width) ^ count * (last1 + last2)) + 2 ^ width * (2 ^ width) ^ count * top_.val := by
      rw [lowTop]; ring
    _ = 2 ^ width * (value ts + value as * bi.val + value ns * m.val) + 2 ^ width * (v / 2 ^ width) + 2 ^ width * c2 +
        2 ^ width * (2 ^ width) ^ count * top_.val := by rw [sum]; ring
    _ = 2 ^ width * (value ts + value as * bi.val + value ns * m.val) + m.val * n0.val +
        ((low v : Limb width).val + 2 ^ width * (v / 2 ^ width)) + 2 ^ width * (2 ^ width) ^ count * top_.val := by
      rw [whole]; ring
    _ = t0.val + 2 ^ width * value ts + 2 ^ width * (2 ^ width) ^ count * top_.val +
        (a0.val + 2 ^ width * value as) * bi.val + m.val * (n0.val + 2 ^ width * value ns) := by
      rw [lowV, ← splitV]; ring

theorem mont_fold_spec {mod : MpMod width} (ready : Ready mod) {a : List (Limb width)} (lengthA : a.length = mod.limbs)
    (b : List (Limb width)) {t : List (Limb width) × Limb width} (lengthT : t.1.length = mod.limbs) (top : t.2.val ≤ 1) :
    (b.foldl (montStep mod a) t).1.length = mod.limbs ∧ (b.foldl (montStep mod a) t).2.val ≤ 1 ∧
      ∃ m < (2 ^ width) ^ b.length, (2 ^ width) ^ b.length * worth (b.foldl (montStep mod a) t) =
        worth t + value a * value b + m * value mod.n := by
  induction b generalizing t with
  | nil => exact ⟨lengthT, top, 0, Nat.one_pos, by simp⟩
  | cons bi b ih =>
    obtain ⟨length1, top1, m1, m1_, step⟩ := mont_step_spec ready lengthA lengthT top bi
    obtain ⟨length2, top2, m2, m2_, rest⟩ := ih length1 top1
    refine ⟨length2, top2, m1 + 2 ^ width * m2, ?_, ?_⟩
    · rw [length_cons, pow_succ']
      calc m1 + 2 ^ width * m2
        _ < 2 ^ width * (m2 + 1) := by rw [mul_add, mul_one]; omega
        _ ≤ 2 ^ width * (2 ^ width) ^ b.length := Nat.mul_le_mul_left _ m2_
    rw [foldl_cons, length_cons, pow_succ', value_cons]
    calc 2 ^ width * (2 ^ width) ^ b.length * worth (b.foldl (montStep mod a) (montStep mod a t bi))
      _ = 2 ^ width * ((2 ^ width) ^ b.length * worth (b.foldl (montStep mod a) (montStep mod a t bi))) := by ring
      _ = 2 ^ width * worth (montStep mod a t bi) + 2 ^ width * (value a * value b + m2 * value mod.n) := by
        rw [rest]; ring
      _ = worth t + value a * (bi.val + 2 ^ width * value b) + (m1 + 2 ^ width * m2) * value mod.n := by
        rw [step]; ring

structure Reduced (mod : MpMod width) (product : Nat) (out : List (Limb width)) : Prop where
  length : out.length = mod.limbs
  below : value out < value mod.n
  exact_ : (2 ^ width) ^ mod.limbs * value out ≡ product [MOD value mod.n]

theorem reduced_once {mod : MpMod width} (ready : Ready mod) {t : List (Limb width)} {top : Limb width} {product m : Nat}
    (length : t.length = mod.limbs) (bit : top.val ≤ 1) (small : product < (2 ^ width) ^ mod.limbs * value mod.n)
    (few : m < (2 ^ width) ^ mod.limbs) (total : (2 ^ width) ^ mod.limbs * worth (t, top) = product + m * value mod.n) :
    Reduced mod product (reduceOnce t top mod.n) := by
  have positive : 0 < value mod.n := Nat.pos_of_ne_zero fun zero => by
    have odd := ready.odd
    rw [zero] at odd
    cases odd
  have below : worth (t, top) < 2 * value mod.n := by
    apply Nat.lt_of_mul_lt_mul_left (a := (2 ^ width) ^ mod.limbs)
    calc (2 ^ width) ^ mod.limbs * worth (t, top)
      _ = product + m * value mod.n := total
      _ < (2 ^ width) ^ mod.limbs * value mod.n + (2 ^ width) ^ mod.limbs * value mod.n :=
        Nat.add_lt_add_of_lt_of_le small (Nat.mul_le_mul_right _ few.le)
      _ = (2 ^ width) ^ mod.limbs * (2 * value mod.n) := by ring
  have worth_ : worth (t, top) = value t + (2 ^ width) ^ mod.n.length * top.val := by
    rw [worth, length, ready.length]
  rw [worth_] at below total
  obtain ⟨length_, result⟩ := reduce_once_spec (length.trans ready.length.symm) bit below
  refine ⟨length_.trans ready.length, result ▸ Nat.mod_lt _ positive, ?_⟩
  rw [result]
  calc (2 ^ width) ^ mod.limbs * ((value t + (2 ^ width) ^ mod.n.length * top.val) % value mod.n)
    _ ≡ (2 ^ width) ^ mod.limbs * (value t + (2 ^ width) ^ mod.n.length * top.val) [MOD value mod.n] :=
      Nat.ModEq.mul_left _ (Nat.mod_modEq _ _)
    _ ≡ product [MOD value mod.n] := by
      rw [total]
      exact Nat.add_mul_mod_self_right _ _ _

omit [NeZero width] in
theorem reduced_unique {mod : MpMod width} (ready : Ready mod) {product : Nat} {first second : List (Limb width)}
    (first_ : Reduced mod product first) (second_ : Reduced mod product second) : first = second := by
  apply value_inj (first_.length.trans second_.length.symm)
  have coprime : Nat.Coprime (value mod.n) ((2 ^ width) ^ mod.limbs) := by
    apply Nat.Coprime.pow_right
    apply Nat.Coprime.pow_right
    exact Nat.coprime_two_right.mpr (Nat.odd_iff.mpr ready.odd)
  have same : value first ≡ value second [MOD value mod.n] :=
    Nat.ModEq.cancel_left_of_coprime coprime (first_.exact_.trans second_.exact_.symm)
  exact Nat.ModEq.eq_of_lt_of_lt same first_.below second_.below

theorem montmul_reduced {mod : MpMod width} (ready : Ready mod) {a b : List (Limb width)} (lengthA : a.length = mod.limbs)
    (lengthB : b.length = mod.limbs) (small : value a * value b < (2 ^ width) ^ mod.limbs * value mod.n) :
    Reduced mod (value a * value b) (montmul mod a b) := by
  have two := @two_le_base width _
  have start : (low 0 : Limb width).val = 0 := Nat.zero_mod _
  obtain ⟨length, top, m, few, total⟩ := mont_fold_spec ready lengthA b (t := (zeros mod.limbs, low 0))
    (zeros_length _) (by rw [start]; exact Nat.zero_le 1)
  have nothing : worth ((zeros mod.limbs, low 0) : List (Limb width) × Limb width) = 0 := by
    rw [worth, start, value_zeros]
    rfl
  rw [nothing, zero_add] at total
  rw [lengthB] at few total
  unfold montmul
  generalize b.foldl (montStep mod a) (zeros mod.limbs, low 0) = t at *
  exact reduced_once ready length top small few total

end Product

section Square

variable [NeZero width]

def crossSum : List (Limb width) → Nat
  | [] => 0
  | x :: rest => 2 ^ width * (x.val * value rest) + 2 ^ width * (2 ^ width * crossSum rest)

def diagonalSum : List (Limb width) → Nat
  | [] => 0
  | x :: rest => x.val * x.val + 2 ^ width * (2 ^ width * diagonalSum rest)

omit [NeZero width] in
theorem cross_sum_cons (x : Limb width) (rest : List (Limb width)) :
    crossSum (x :: rest) = 2 ^ width * (x.val * value rest) + 2 ^ width * (2 ^ width * crossSum rest) := rfl

omit [NeZero width] in
theorem square_parts (a : List (Limb width)) : 2 * crossSum a + diagonalSum a = value a * value a := by
  induction a with
  | nil => rfl
  | cons x rest ih =>
    rw [crossSum, diagonalSum, value_cons]
    calc 2 * (2 ^ width * (x.val * value rest) + 2 ^ width * (2 ^ width * crossSum rest)) +
          (x.val * x.val + 2 ^ width * (2 ^ width * diagonalSum rest))
      _ = 2 * (2 ^ width * (x.val * value rest)) + x.val * x.val +
          2 ^ width * (2 ^ width * (2 * crossSum rest + diagonalSum rest)) := by ring
      _ = (x.val + 2 ^ width * value rest) * (x.val + 2 ^ width * value rest) := by rw [ih]; ring

omit [NeZero width] in
theorem cross_row_spec {ai : Nat} (ai_ : ai < 2 ^ width) {c : Nat} (c_ : c < 2 ^ width) {as ts rest : List (Limb width)}
    (length : ts.length = as.length) (z : Limb width) :
    ∃ row, row.length = as.length + 1 ∧ crossRow ai c as (ts ++ z :: rest) = row ++ rest ∧
      value row = value ts + ai * value as + c := by
  induction as generalizing ts c with
  | nil =>
    have ts_ := eq_nil_of_length_eq_zero length
    subst ts_
    refine ⟨[low c], rfl, rfl, ?_⟩
    rw [value_cons, low_val, Nat.mod_eq_of_lt c_, value_nil]
    omega
  | cons aj as ih =>
    obtain ⟨t, ts, rfl⟩ := exists_cons_of_length_eq_add_one length
    have fits := product_fits ai_ aj.isLt t.isLt c_
    rw [cons_append, crossRow, wide_of_lt fits]
    generalize split : ai * aj.val + t.val + c = v at fits ⊢
    obtain ⟨row, length_, same, sum⟩ := @ih (v / 2 ^ width) (Nat.div_lt_of_lt_mul fits) ts (Nat.succ.inj length)
    refine ⟨low v :: row, congrArg Nat.succ length_, by rw [same]; rfl, ?_⟩
    have lowV := @low_add_high width v
    rw [value_cons, value_cons, value_cons, sum]
    calc (low v : Limb width).val + 2 ^ width * (value ts + ai * value as + v / 2 ^ width)
      _ = ((low v : Limb width).val + 2 ^ width * (v / 2 ^ width)) + 2 ^ width * (value ts + ai * value as) := by ring
      _ = t.val + 2 ^ width * value ts + ai * (aj.val + 2 ^ width * value as) + c := by rw [lowV, ← split]; ring

omit [NeZero width] in
theorem cross_from_spec {a ts : List (Limb width)} (some_ : 0 < a.length) (length : ts.length = a.length) (z : Limb width) :
    ∃ t, t.length + 1 = 2 * a.length ∧ crossFrom a (ts ++ (zeros (a.length - 1) ++ [z])) = t ++ [z] ∧
      value t = value ts + crossSum a := by
  induction a generalizing ts with
  | nil => exact absurd some_ (lt_irrefl 0)
  | cons ai a ih =>
    cases a with
    | nil =>
      obtain ⟨t, rest, rfl⟩ := exists_cons_of_length_eq_add_one length
      have rest_ := eq_nil_of_length_eq_zero (Nat.succ.inj length)
      subst rest_
      exact ⟨[t], rfl, rfl, by simp [crossSum]⟩
    | cons aj a =>
      obtain ⟨t0, ts, rfl⟩ := exists_cons_of_length_eq_add_one length
      have lengthT : ts.length = (aj :: a).length := Nat.succ.inj length
      obtain ⟨row, lengthRow, same, sum⟩ := @cross_row_spec width ai.val ai.isLt 0 (Nat.two_pow_pos width)
        (aj :: a) ts (zeros a.length ++ [z]) lengthT (low 0)
      have shape : t0 :: ts ++ (zeros ((ai :: aj :: a).length - 1) ++ [z]) =
          t0 :: (ts ++ low 0 :: (zeros a.length ++ [z])) := rfl
      obtain ⟨t1, upper, rfl⟩ := exists_cons_of_length_eq_add_one lengthRow
      obtain ⟨t, length_, same_, sum_⟩ := @ih upper (Nat.succ_pos _) (Nat.succ.inj lengthRow)
      refine ⟨t0 :: t1 :: t, ?_, ?_, ?_⟩
      · rw [length_cons, length_cons, length_cons, mul_add, ← length_]
      · rw [shape, crossFrom, same]
        have onward : upper ++ (zeros ((aj :: a).length - 1) ++ [z]) = upper ++ (zeros a.length ++ [z]) := rfl
        rw [cons_append]
        show t0 :: t1 :: crossFrom (aj :: a) (upper ++ (zeros a.length ++ [z])) = _
        rw [← onward, same_]
        rfl
      rw [value_cons, value_cons, sum_, cross_sum_cons ai (aj :: a)]
      rw [value_cons] at sum
      calc t0.val + 2 ^ width * (t1.val + 2 ^ width * (value upper + crossSum (aj :: a)))
        _ = t0.val + 2 ^ width * (t1.val + 2 ^ width * value upper) +
            2 ^ width * (2 ^ width * crossSum (aj :: a)) := by ring
        _ = value (t0 :: ts) + (2 ^ width * (ai.val * value (aj :: a)) + 2 ^ width * (2 ^ width * crossSum (aj :: a))) := by
          rw [sum, value_cons t0 ts]; ring

theorem doubled_bit (x : Nat) {bit : Nat} (bit_ : bit ≤ 1) :
    ((2 * x) % 2 ^ width ||| bit) % 2 ^ width + 2 ^ width * (x / 2 ^ (width - 1)) = 2 * x + bit := by
  rw [@base_even width _, Nat.mul_mod_mul_left]
  have small : x % 2 ^ (width - 1) < 2 ^ (width - 1) := Nat.mod_lt _ (Nat.two_pow_pos _)
  have joined : 2 * (x % 2 ^ (width - 1)) ||| bit = 2 * (x % 2 ^ (width - 1)) + bit := by
    have sum := Nat.two_pow_add_eq_or_of_lt (i := 1) (b := bit) (by omega) (x % 2 ^ (width - 1))
    rw [pow_one] at sum
    exact sum.symm
  have whole := Nat.mod_add_div x (2 ^ (width - 1))
  rw [joined, Nat.mod_eq_of_lt (by omega)]
  calc 2 * (x % 2 ^ (width - 1)) + bit + 2 * 2 ^ (width - 1) * (x / 2 ^ (width - 1))
    _ = 2 * (x % 2 ^ (width - 1) + 2 ^ (width - 1) * (x / 2 ^ (width - 1))) + bit := by ring
    _ = 2 * x + bit := by rw [whole]

theorem double_from_spec {below : Nat} (below_ : below < 2 ^ width) (t : List (Limb width)) (z : Limb width) :
    (doubleFrom below (t ++ [z])).length = t.length + 1 ∧
      value (doubleFrom below (t ++ [z])) = 2 * value t + below / 2 ^ (width - 1) := by
  have even := @base_even width _
  have two := @two_le_base width _
  induction t generalizing below with
  | nil =>
    have bit : below / 2 ^ (width - 1) < 2 := Nat.div_lt_of_lt_mul (by omega)
    refine ⟨rfl, ?_⟩
    show (low (below / 2 ^ (width - 1)) : Limb width).val + 2 ^ width * 0 = 2 * 0 + below / 2 ^ (width - 1)
    rw [low_val, Nat.mod_eq_of_lt (by omega)]
    omega
  | cons x t ih =>
    have bit : below / 2 ^ (width - 1) < 2 := Nat.div_lt_of_lt_mul (by omega)
    obtain ⟨length, sum⟩ := @ih x.val x.isLt
    have shape : doubleFrom below (x :: t ++ [z]) =
        low ((low (2 * x.val) : Limb width).val ||| below / 2 ^ (width - 1)) :: doubleFrom x.val (t ++ [z]) := by
      cases t <;> rfl
    rw [shape]
    refine ⟨congrArg Nat.succ length, ?_⟩
    have limb : (low ((low (2 * x.val) : Limb width).val ||| below / 2 ^ (width - 1)) : Limb width).val +
        2 ^ width * (x.val / 2 ^ (width - 1)) = 2 * x.val + below / 2 ^ (width - 1) :=
      doubled_bit x.val (Nat.le_of_lt_succ bit)
    rw [value_cons, value_cons, sum]
    calc (low ((low (2 * x.val) : Limb width).val ||| below / 2 ^ (width - 1)) : Limb width).val +
          2 ^ width * (2 * value t + x.val / 2 ^ (width - 1))
      _ = ((low ((low (2 * x.val) : Limb width).val ||| below / 2 ^ (width - 1)) : Limb width).val +
          2 ^ width * (x.val / 2 ^ (width - 1))) + 2 ^ width * (2 * value t) := by ring
      _ = 2 * (x.val + 2 ^ width * value t) + below / 2 ^ (width - 1) := by rw [limb]; ring

theorem diagonal_from_spec {c : Nat} (c_ : c ≤ 1) {a t : List (Limb width)} (length : t.length = 2 * a.length) :
    (diagonalFrom c a t).1.length = t.length ∧
      value (diagonalFrom c a t).1 + (2 ^ width) ^ t.length * (diagonalFrom c a t).2 = value t + diagonalSum a + c := by
  have two := @two_le_base width _
  induction a generalizing c t with
  | nil =>
    have t_ := eq_nil_of_length_eq_zero length
    subst t_
    exact ⟨rfl, by simp [diagonalFrom, diagonalSum]⟩
  | cons x a ih =>
    obtain ⟨t0, t, rfl⟩ := exists_cons_of_length_eq_add_one (n := 2 * a.length + 1) length
    obtain ⟨t1, t, rfl⟩ := exists_cons_of_length_eq_add_one (n := 2 * a.length) (Nat.succ.inj length)
    have much : 2 ^ width * 2 ≤ 2 ^ width * 2 ^ width := Nat.mul_le_mul_left _ two
    have fits : x.val * x.val < 2 ^ width * 2 ^ width := Nat.mul_lt_mul'' x.isLt x.isLt
    rw [diagonalFrom, wide_of_lt fits]
    have lowSq := @low_add_high width (x.val * x.val)
    have highSq : (low (x.val * x.val / 2 ^ width) : Limb width).val = x.val * x.val / 2 ^ width :=
      Nat.mod_eq_of_lt (Nat.div_lt_of_lt_mul fits)
    have first : t0.val + (low (x.val * x.val) : Limb width).val + c < 2 ^ width * 2 := by
      have smallT := t0.isLt
      have smallL := (low (x.val * x.val) : Limb width).isLt
      omega
    rw [wide_of_lt (first.trans_le much)]
    have highV : (t0.val + (low (x.val * x.val) : Limb width).val + c) / 2 ^ width ≤ 1 :=
      Nat.le_of_lt_succ (Nat.div_lt_of_lt_mul first)
    have lowV := @low_add_high width (t0.val + (low (x.val * x.val) : Limb width).val + c)
    generalize split : t0.val + (low (x.val * x.val) : Limb width).val + c = v at first highV lowV ⊢
    have second : t1.val + (low (x.val * x.val / 2 ^ width) : Limb width).val + v / 2 ^ width < 2 ^ width * 2 := by
      have smallT := t1.isLt
      have smallL := (low (x.val * x.val / 2 ^ width) : Limb width).isLt
      omega
    rw [wide_of_lt (second.trans_le much)]
    have highU : (t1.val + (low (x.val * x.val / 2 ^ width) : Limb width).val + v / 2 ^ width) / 2 ^ width ≤ 1 :=
      Nat.le_of_lt_succ (Nat.div_lt_of_lt_mul second)
    have lowU := @low_add_high width (t1.val + (low (x.val * x.val / 2 ^ width) : Limb width).val + v / 2 ^ width)
    generalize split_ : t1.val + (low (x.val * x.val / 2 ^ width) : Limb width).val + v / 2 ^ width = u at highU lowU ⊢
    obtain ⟨length_, sum⟩ := ih highU (t := t) (Nat.succ.inj (Nat.succ.inj length))
    generalize diagonalFrom (u / 2 ^ width) a t = result at length_ sum ⊢
    refine ⟨congrArg (· + 2) length_, ?_⟩
    rw [value_cons, value_cons, value_cons, value_cons, length_cons, length_cons, pow_succ', pow_succ', diagonalSum]
    rw [highSq] at split_
    calc (low v : Limb width).val + 2 ^ width * ((low u : Limb width).val + 2 ^ width * value result.1) +
          2 ^ width * (2 ^ width * (2 ^ width) ^ t.length) * result.2
      _ = (low v : Limb width).val + 2 ^ width * (low u : Limb width).val +
          2 ^ width * (2 ^ width * (value result.1 + (2 ^ width) ^ t.length * result.2)) := by ring
      _ = (low v : Limb width).val + 2 ^ width * ((low u : Limb width).val + 2 ^ width * (u / 2 ^ width)) +
          2 ^ width * (2 ^ width * (value t + diagonalSum a)) := by rw [sum]; ring
      _ = ((low v : Limb width).val + 2 ^ width * (v / 2 ^ width)) + 2 ^ width * (t1.val + x.val * x.val / 2 ^ width) +
          2 ^ width * (2 ^ width * (value t + diagonalSum a)) := by rw [lowU, ← split_]; ring
      _ = t0.val + c + ((low (x.val * x.val) : Limb width).val + 2 ^ width * (x.val * x.val / 2 ^ width)) +
          2 ^ width * t1.val + 2 ^ width * (2 ^ width * (value t + diagonalSum a)) := by rw [lowV, ← split]; ring
      _ = t0.val + 2 ^ width * (t1.val + 2 ^ width * value t) +
          (x.val * x.val + 2 ^ width * (2 ^ width * diagonalSum a)) + c := by rw [lowSq]; ring

theorem clear_row_spec {m top : Nat} (m_ : m < 2 ^ width) (top_ : top ≤ 1) {cc : Nat} (cc_ : cc < 2 ^ width)
    {n t : List (Limb width)} (length : t.length = n.length) (x : Limb width) (rest : List (Limb width)) :
    ∃ row y, row.length = n.length ∧ (clearRow m top cc n (t ++ x :: rest)).1 = row ++ y :: rest ∧
      (clearRow m top cc n (t ++ x :: rest)).2.val ≤ 1 ∧
      value row + (2 ^ width) ^ n.length * (y.val + 2 ^ width * (clearRow m top cc n (t ++ x :: rest)).2.val) =
        value t + m * value n + cc + (2 ^ width) ^ n.length * (x.val + top) := by
  have two := @two_le_base width _
  induction n generalizing t cc with
  | nil =>
    have t_ := eq_nil_of_length_eq_zero length
    subst t_
    have bound : x.val + cc + top < 2 ^ width * 2 := by
      have smallX := x.isLt
      omega
    have high : (x.val + cc + top) / 2 ^ width ≤ 1 := Nat.le_of_lt_succ (Nat.div_lt_of_lt_mul bound)
    have kept : (low ((x.val + cc + top) / 2 ^ width) : Limb width).val = (x.val + cc + top) / 2 ^ width :=
      Nat.mod_eq_of_lt (high.trans_lt two)
    have shape : clearRow m top cc [] ([] ++ x :: rest) =
        (low (x.val + cc + top) :: rest, low ((x.val + cc + top) / 2 ^ width)) := by
      rw [nil_append, clearRow, wide_of_lt (bound.trans_le (Nat.mul_le_mul_left _ two))]
    rw [shape]
    refine ⟨[], low (x.val + cc + top), rfl, rfl, ?_, ?_⟩
    · dsimp only
      rw [kept]
      exact high
    have lowV := @low_add_high width (x.val + cc + top)
    dsimp only
    rw [kept, lowV, value_nil, length_nil, pow_zero]
    ring
  | cons y n ih =>
    obtain ⟨t0, t, rfl⟩ := exists_cons_of_length_eq_add_one length
    have fits := product_fits m_ y.isLt t0.isLt cc_
    have lowV := @low_add_high width (m * y.val + t0.val + cc)
    rw [cons_append, clearRow, wide_of_lt fits]
    dsimp only
    generalize split : m * y.val + t0.val + cc = v at fits lowV ⊢
    obtain ⟨row, z, length_, same, top1, sum⟩ := @ih (v / 2 ^ width) (Nat.div_lt_of_lt_mul fits) t (Nat.succ.inj length)
    generalize clearRow m top (v / 2 ^ width) n (t ++ x :: rest) = result at same top1 sum ⊢
    refine ⟨low v :: row, z, congrArg Nat.succ length_, by rw [same]; rfl, top1, ?_⟩
    rw [value_cons, value_cons, value_cons, length_cons, pow_succ']
    calc (low v : Limb width).val + 2 ^ width * value row +
          2 ^ width * (2 ^ width) ^ n.length * (z.val + 2 ^ width * result.2.val)
      _ = (low v : Limb width).val +
          2 ^ width * (value row + (2 ^ width) ^ n.length * (z.val + 2 ^ width * result.2.val)) := by ring
      _ = ((low v : Limb width).val + 2 ^ width * (v / 2 ^ width)) +
          2 ^ width * (value t + m * value n + (2 ^ width) ^ n.length * (x.val + top)) := by rw [sum]; ring
      _ = t0.val + 2 ^ width * value t + m * (y.val + 2 ^ width * value n) + cc +
          2 ^ width * (2 ^ width) ^ n.length * (x.val + top) := by rw [lowV, ← split]; ring

theorem clear_round_spec {mod : MpMod width} (ready : Ready mod) {rounds : Nat} {t : List (Limb width)} {top : Limb width}
    (length : t.length = mod.limbs + (rounds + 1)) (top_ : top.val ≤ 1) :
    let m : Limb width := low ((t.headD (low 0)).val * mod.n0inv.val)
    let result := clearRow m.val top.val 0 mod.n t
    result.1.tail.length = mod.limbs + rounds ∧ result.2.val ≤ 1 ∧
      2 ^ width * (value result.1.tail + (2 ^ width) ^ mod.limbs * result.2.val) =
        value t + (2 ^ width) ^ mod.limbs * top.val + m.val * value mod.n := by
  intro m
  obtain ⟨count, counted⟩ := Nat.exists_eq_succ_of_ne_zero (Nat.pos_iff_ne_zero.mp ready.some_)
  have lengthN := ready.length
  have inverse := ready.inverse
  obtain ⟨t0, front, x, rest, lengthFront, lengthRest, rfl⟩ : ∃ t0 front x rest, (t0 :: front : List (Limb width)).length =
      mod.limbs ∧ (rest : List (Limb width)).length = rounds ∧ t = t0 :: front ++ x :: rest := by
    have front_ : (t.take mod.limbs).length = mod.limbs := by
      rw [length_take]
      omega
    have rest_ : (t.drop mod.limbs).length = rounds + 1 := by
      rw [length_drop]
      omega
    obtain ⟨t0, front, split⟩ := exists_cons_of_length_eq_add_one (front_.trans counted)
    obtain ⟨x, rest, split_⟩ := exists_cons_of_length_eq_add_one rest_
    refine ⟨t0, front, x, rest, split ▸ front_, ?_, ?_⟩
    · rw [split_] at rest_
      exact Nat.succ.inj rest_
    · rw [← split, ← split_, take_append_drop]
  have head : (t0 :: front ++ x :: rest).headD (low 0) = t0 := rfl
  obtain ⟨row, y, lengthRow, same, top1, sum⟩ := @clear_row_spec width _ m.val top.val m.isLt top_ 0 (Nat.two_pow_pos width)
    mod.n (t0 :: front) (lengthFront.trans lengthN.symm) x rest
  intro result
  have result_ : result = clearRow m.val top.val 0 mod.n (t0 :: front ++ x :: rest) := rfl
  rw [← result_] at same top1 sum
  rw [lengthN] at lengthRow sum
  obtain ⟨r0, row, rfl⟩ := exists_cons_of_length_eq_add_one (lengthRow.trans counted)
  have power : (2 ^ width) ^ mod.limbs = 2 ^ width * (2 ^ width) ^ count := by rw [counted, pow_succ']
  -- The lowest limb of the row is 0.
  have cleared := @lowest_zero width (value mod.n) mod.n0inv t0 inverse
  rw [← head] at cleared
  have zero : r0.val = 0 := by
    have parts := congrArg (· % 2 ^ width) sum
    rw [power, value_cons, value_cons] at parts
    have left : r0.val + 2 ^ width * value row + 2 ^ width * (2 ^ width) ^ count * (y.val + 2 ^ width * result.2.val) =
        r0.val + 2 ^ width * (value row + (2 ^ width) ^ count * (y.val + 2 ^ width * result.2.val)) := by ring
    have right : t0.val + 2 ^ width * value front + m.val * value mod.n + 0 +
        2 ^ width * (2 ^ width) ^ count * (x.val + top.val) =
        m.val * value mod.n + t0.val + 2 ^ width * (value front + (2 ^ width) ^ count * (x.val + top.val)) := by ring
    rw [left, right, Nat.add_mul_mod_self_left, Nat.add_mul_mod_self_left, Nat.mod_eq_of_lt r0.isLt] at parts
    exact parts.trans cleared
  have tail_ : result.1.tail = row ++ y :: rest := by
    rw [same]
    rfl
  have lengthRow_ : row.length = count := Nat.succ.inj (lengthRow.trans counted)
  have lengthFront_ : front.length = count := Nat.succ.inj (lengthFront.trans counted)
  rw [tail_]
  refine ⟨?_, top1, ?_⟩
  · rw [length_append, length_cons, lengthRow_, lengthRest, counted]
    omega
  rw [value_append, value_append, lengthRow_, lengthFront, value_cons, value_cons x rest]
  rw [value_cons, zero, zero_add, add_zero] at sum
  rw [power] at sum ⊢
  generalize (2 ^ width) ^ count = high at sum ⊢
  calc 2 ^ width * (value row + high * (y.val + 2 ^ width * value rest) + 2 ^ width * high * result.2.val)
    _ = (2 ^ width * value row + 2 ^ width * high * (y.val + 2 ^ width * result.2.val)) +
        2 ^ width * (2 ^ width * high) * value rest := by ring
    _ = value (t0 :: front) + 2 ^ width * high * (x.val + 2 ^ width * value rest) + 2 ^ width * high * top.val +
        m.val * value mod.n := by rw [sum]; ring

theorem clear_from_spec {mod : MpMod width} (ready : Ready mod) {rounds : Nat} {t : List (Limb width)} {top : Limb width}
    (length : t.length = mod.limbs + rounds) (top_ : top.val ≤ 1) :
    (clearFrom mod rounds (t, top)).1.length = mod.limbs ∧ (clearFrom mod rounds (t, top)).2.val ≤ 1 ∧
      ∃ m < (2 ^ width) ^ rounds, (2 ^ width) ^ rounds * worth (clearFrom mod rounds (t, top)) =
        value t + (2 ^ width) ^ mod.limbs * top.val + m * value mod.n := by
  induction rounds generalizing t top with
  | zero =>
    refine ⟨length, top_, 0, Nat.one_pos, ?_⟩
    show 1 * (value t + (2 ^ width) ^ t.length * top.val) = _
    rw [length, add_zero]
    omega
  | succ rounds ih =>
    obtain ⟨length1, top1, step⟩ := clear_round_spec ready length top_
    rw [clearFrom]
    generalize (low ((t.headD (low 0)).val * mod.n0inv.val) : Limb width) = m1 at length1 top1 step ⊢
    generalize clearRow m1.val top.val 0 mod.n t = result at length1 top1 step ⊢
    obtain ⟨length2, top2, m2, m2_, rest⟩ := ih length1 top1
    refine ⟨length2, top2, m1.val + 2 ^ width * m2, ?_, ?_⟩
    · have small := m1.isLt
      rw [pow_succ']
      calc m1.val + 2 ^ width * m2
        _ < 2 ^ width * (m2 + 1) := by rw [mul_add, mul_one]; omega
        _ ≤ 2 ^ width * (2 ^ width) ^ rounds := Nat.mul_le_mul_left _ m2_
    rw [pow_succ', mul_assoc, rest]
    calc 2 ^ width * (value result.1.tail + (2 ^ width) ^ mod.limbs * result.2.val + m2 * value mod.n)
      _ = 2 ^ width * (value result.1.tail + (2 ^ width) ^ mod.limbs * result.2.val) + 2 ^ width * m2 * value mod.n := by
        ring
      _ = value t + (2 ^ width) ^ mod.limbs * top.val + (m1.val + 2 ^ width * m2) * value mod.n := by rw [step]; ring

theorem montsqr_reduced {mod : MpMod width} (ready : Ready mod) {a : List (Limb width)} (length : a.length = mod.limbs)
    (small : value a * value a < (2 ^ width) ^ mod.limbs * value mod.n) :
    Reduced mod (value a * value a) (montsqr mod a) := by
  have some_ : 0 < a.length := length ▸ ready.some_
  obtain ⟨t, lengthT, crossed, sum⟩ := @cross_from_spec width a (zeros a.length) some_ (zeros_length _) (low 0)
  have start : (zeros (2 * mod.limbs) : List (Limb width)) = zeros a.length ++ (zeros (a.length - 1) ++ [low 0]) := by
    rw [← length]
    show zeros (2 * a.length) = List.replicate a.length (low 0) ++ (List.replicate (a.length - 1) (low 0) ++ List.replicate 1 (low 0))
    rw [← replicate_add, ← replicate_add, zeros]
    exact congrArg (List.replicate · (low 0)) (by omega)
  rw [value_zeros, zero_add] at sum
  obtain ⟨lengthD, doubled⟩ := double_from_spec (Nat.two_pow_pos width) t (low 0)
  rw [sum, Nat.zero_div, add_zero] at doubled
  have lengthD_ : (doubleFrom 0 (t ++ [(low 0 : Limb width)])).length = 2 * a.length := lengthD.trans lengthT
  obtain ⟨lengthQ, squared⟩ := diagonal_from_spec (Nat.zero_le 1) lengthD_
  rw [doubled, add_zero, square_parts] at squared
  unfold montsqr
  rw [start, crossed]
  dsimp only
  generalize diagonalFrom 0 a (doubleFrom 0 (t ++ [(low 0 : Limb width)])) = q at lengthQ squared ⊢
  obtain ⟨q, last⟩ := q
  dsimp only at lengthQ squared ⊢
  -- Nothing carries out of the square.
  have exactly : value q = value a * value a := by
    have bound : value a * value a < (2 ^ width) ^ (2 * a.length) := by
      rw [Nat.two_mul, pow_add]
      exact Nat.mul_lt_mul'' (value_lt a) (value_lt a)
    rw [lengthD_] at squared
    have none_ : last = 0 := by
      by_contra some_
      have one : (2 ^ width) ^ (2 * a.length) * 1 ≤ (2 ^ width) ^ (2 * a.length) * last :=
        Nat.mul_le_mul_left _ (Nat.pos_of_ne_zero some_)
      omega
    rw [none_, mul_zero, add_zero] at squared
    exact squared
  have zero : (low 0 : Limb width).val = 0 := Nat.zero_mod _
  obtain ⟨length_, top, m, few, total⟩ := @clear_from_spec width _ mod ready mod.limbs q (low 0)
    (by rw [lengthQ, lengthD_, length]; omega) (by rw [zero]; exact Nat.zero_le 1)
  rw [zero, mul_zero, add_zero, exactly] at total
  generalize clearFrom mod mod.limbs (q, low 0) = out at length_ top total ⊢
  exact reduced_once ready length_ top small few total

end Square

end ProvenC.Crypto.Montgomery
