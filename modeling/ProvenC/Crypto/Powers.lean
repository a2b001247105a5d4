import ProvenC.Crypto.Reducing

/-!
# Powers

Three ways to a power of a number in Montgomery form.
-/

namespace ProvenC.Crypto.Powers

open List Bytes Lib.Limbs Lib.BigEndian Crypto.Words Crypto.Montgomery
open Crypto.Modulus Crypto.Forms Crypto.Reducing

section Public

variable {width : Nat}

def expBit (exp : List (Limb width)) (i : Nat) : Nat := (exp.getD (i / width) (low 0)).val / 2 ^ (i % width) % 2

def expTop (exp : List (Limb width)) : Nat :=
  (List.range (exp.length * width)).foldl (fun top i => if expBit exp i = 1 then i + 1 else top) 0

def squares (mod : MpMod width) : Nat → List (Limb width) → List (Limb width)
  | 0, acc => acc
  | count + 1, acc => squares mod count (montsqr mod acc)

def oddFrom (mod : MpMod width) (sq : List (Limb width)) : Nat → List (Limb width) → List (List (Limb width))
  | 0, _ => []
  | count + 1, power => power :: oddFrom mod sq count (montmul mod power sq)

/-- Where the window ends: the lowest set bit from `low` on. -/
def lowFrom (exp : List (Limb width)) : Nat → Nat → Nat
  | 0, low => low
  | rounds + 1, low => if expBit exp low = 0 then lowFrom exp rounds (low + 1) else low

/-- The bits of the window below those in `v`. -/
def windowBits (exp : List (Limb width)) (low : Nat) : Nat → Nat → Nat
  | 0, v => v
  | count + 1, v => windowBits exp low count (2 * v ||| expBit exp (low + count))

def slide (mod : MpMod width) (exp : List (Limb width)) (odd : List (List (Limb width))) :
    Nat → Nat → List (Limb width) → Bool → List (Limb width)
  | 0, _, acc, _ => acc
  | _, 0, acc, _ => acc
  | rounds + 1, i + 1, acc, started =>
    if expBit exp i = 0 then slide mod exp odd rounds i (montsqr mod acc) started
    else
      let start := if 3 ≤ i then i - 3 else 0
      let low := lowFrom exp (i - start) start
      let v := windowBits exp low (i + 1 - low) 0
      let acc := if started then squares mod (i + 1 - low) acc else acc
      slide mod exp odd rounds low (montmul mod acc (odd.getD (v / 2) [])) true

def plainWalk (mod : MpMod width) (exp base : List (Limb width)) : Nat → List (Limb width) → Bool → List (Limb width)
  | 0, acc, _ => acc
  | i + 1, acc, started =>
    let acc := if started then montsqr mod acc else acc
    if expBit exp i = 1 then plainWalk mod exp base i (montmul mod acc base) true else plainWalk mod exp base i acc started

end Public

def mpPowWindowLimbs (limbBits : LimbBits) : Nat := mpLimbs limbBits 48

def mpPow {limbBits : LimbBits} (mod : MpMod limbBits.width) (base exp : List (Limb limbBits.width)) :
    List (Limb limbBits.width) :=
  let acc := toMont mod (oneOf mod.limbs)
  let top := expTop exp
  if mod.limbs ≤ mpPowWindowLimbs limbBits ∧ 64 < top then
    slide mod exp (oddFrom mod (montsqr mod base) 8 base) top top acc false
  else plainWalk mod exp base top acc false

section Secret

variable {width : Nat}

def tableFrom (mod : MpMod width) (base : List (Limb width)) : Nat → List (Limb width) → List (List (Limb width))
  | 0, _ => []
  | count + 1, power => power :: tableFrom mod base count (montmul mod power base)

def powerTable (mod : MpMod width) (base : List (Limb width)) (entries : Nat) : List (List (Limb width)) :=
  toMont mod (oneOf mod.limbs) :: tableFrom mod base (entries - 1) base

def maskedRead (w : Nat) : Nat → List (List (Limb width)) → List (Limb width) → List (Limb width)
  | _, [], sel => sel
  | k, entry :: rest, sel =>
    let mask : Limb width := mpMaskZero (low (k ^^^ w))
    maskedRead w (k + 1) rest (List.zipWith (fun s e => low (s.val ||| (e.val &&& mask.val))) sel entry)

/-- The windows of one limb, the lowest `count` of them. -/
def ctLimb (mod : MpMod width) (wbits : Nat) (table : List (List (Limb width))) (limb : Limb width) :
    Nat → List (Limb width) → List (Limb width)
  | 0, acc => acc
  | count + 1, acc =>
    let w := limb.val / 2 ^ (wbits * count) &&& (2 ^ wbits - 1)
    ctLimb mod wbits table limb count
      (montmul mod (squares mod wbits acc) (maskedRead w 0 table (zeros mod.limbs)))

def ctWalk (mod : MpMod width) (wbits : Nat) (base exp : List (Limb width)) : List (Limb width) :=
  let table := powerTable mod base (2 ^ wbits)
  exp.reverse.foldl (fun acc limb => ctLimb mod wbits table limb (width / wbits) acc) (toMont mod (oneOf mod.limbs))

end Secret

def mpCtMax (limbBits : LimbBits) : Nat := mpLimbs limbBits 264

def mpDhMax (limbBits : LimbBits) : Nat := mpLimbs limbBits 512

def mpPowCt {limbBits : LimbBits} (mod : MpMod limbBits.width) (base exp : List (Limb limbBits.width)) :
    Option (List (Limb limbBits.width)) :=
  if mpCtMax limbBits < mod.limbs then none else some (ctWalk mod 4 base exp)

def shortBits (limbBits : LimbBits) (limbs : Nat) : Nat := if limbs * limbBits.bytes ≤ 256 then 4 else 2

/-- `proven_crypto_mp_pow_ct_short`; an entry of the table is the next `limbs` limbs of it. -/
def mpPowCtShort {limbBits : LimbBits} (mod : MpMod limbBits.width) (base exp : List (Limb limbBits.width)) :
    Option (List (Limb limbBits.width)) :=
  if mpDhMax limbBits < mod.limbs ∨ exp.length = 0 then none
  else some (ctWalk mod (shortBits limbBits mod.limbs) base exp)

section Reading

variable {width : Nat} [NeZero width] (exp : List (Limb width))

theorem exp_bit_eq (i : Nat) : expBit exp i = value exp / 2 ^ i % 2 := by
  have inside : i % width < width := Nat.mod_lt _ (Nat.pos_of_neZero width)
  have parts : width * (i / width) + i % width = i := Nat.div_add_mod i width
  unfold expBit
  by_cases place : i / width < exp.length
  · rw [getD_eq_getElem _ _ place, limb_of_value place, ← Nat.toNat_testBit, ← Nat.toNat_testBit,
      Nat.testBit_mod_two_pow, decide_eq_true inside, Bool.true_and, ← pow_mul, Nat.testBit_div_two_pow]
    rw [add_comm, parts]
  have small : value exp < 2 ^ i := by
    refine lt_of_lt_of_le (value_lt exp) ?_
    rw [← pow_mul]
    apply Nat.pow_le_pow_right (by decide)
    calc width * exp.length
      _ ≤ width * (i / width) := Nat.mul_le_mul_left _ (Nat.le_of_not_lt place)
      _ ≤ i := Nat.mul_div_le i width
  rw [getD_eq_default _ _ (Nat.le_of_not_lt place), Nat.div_eq_of_lt small]
  show 0 % 2 ^ width / 2 ^ (i % width) % 2 = 0 % 2
  rw [Nat.zero_mod, Nat.zero_div]

theorem exp_top_spec : value exp < 2 ^ expTop exp := by
  have scan : ∀ bits, value exp % 2 ^ bits <
      2 ^ (List.range bits).foldl (fun top i => if expBit exp i = 1 then i + 1 else top) 0 := by
    intro bits
    induction bits with
    | zero => exact (Nat.mod_one _).trans_lt Nat.one_pos
    | succ bits ih =>
      have less : value exp % 2 ^ bits < 2 ^ bits := Nat.mod_lt _ (Nat.two_pow_pos bits)
      have parts : value exp % 2 ^ (bits + 1) = value exp % 2 ^ bits + 2 ^ bits * expBit exp bits := by
        rw [pow_succ, Nat.mod_mul, exp_bit_eq]
      rw [List.range_succ, foldl_append, foldl_cons, foldl_nil, parts]
      split
      next one =>
        rw [one, pow_succ]
        omega
      rename_i other
      have zero : expBit exp bits = 0 := by
        have bound : expBit exp bits < 2 := Nat.mod_lt _ (by decide)
        omega
      rw [zero, mul_zero, add_zero]
      exact ih
  have whole := scan (exp.length * width)
  rwa [Nat.mod_eq_of_lt (by
    rw [mul_comm, pow_mul]
    exact value_lt exp)] at whole

omit [NeZero width] in
theorem low_from_spec {rounds low : Nat} (set_ : expBit exp (low + rounds) = 1) :
    low ≤ lowFrom exp rounds low ∧ lowFrom exp rounds low ≤ low + rounds ∧ expBit exp (lowFrom exp rounds low) = 1 := by
  induction rounds generalizing low with
  | zero => exact ⟨le_rfl, le_rfl, set_⟩
  | succ rounds ih =>
    rw [lowFrom]
    split
    · obtain ⟨least, most, bit⟩ := @ih (low + 1) (by rw [show low + 1 + rounds = low + (rounds + 1) by omega]; exact set_)
      exact ⟨by omega, by omega, bit⟩
    rename_i bit
    have bound : expBit exp low < 2 := Nat.mod_lt _ (by decide)
    exact ⟨le_rfl, by omega, by omega⟩

theorem window_bits_spec (low count v : Nat) :
    windowBits exp low count v = v * 2 ^ count + value exp / 2 ^ low % 2 ^ count := by
  induction count generalizing v with
  | zero => rw [windowBits, pow_zero, mul_one, Nat.mod_one, add_zero]
  | succ count ih =>
    have bound : expBit exp (low + count) < 2 := Nat.mod_lt _ (by decide)
    have joined : 2 * v ||| expBit exp (low + count) = 2 * v + expBit exp (low + count) := by
      have sum := Nat.two_pow_add_eq_or_of_lt (i := 1) (b := expBit exp (low + count)) (by omega) v
      rw [pow_one] at sum
      exact sum.symm
    have parts : value exp / 2 ^ low % 2 ^ (count + 1) =
        value exp / 2 ^ low % 2 ^ count + 2 ^ count * expBit exp (low + count) := by
      rw [pow_succ, Nat.mod_mul, exp_bit_eq, Nat.div_div_eq_div_mul, ← pow_add]
    rw [windowBits, ih, joined, parts, pow_succ]
    ring

end Reading

section Kept

variable {width : Nat} [NeZero width] {mod : MpMod width} {x : ZMod (value mod.n)}

theorem squares_form (ready : Ready mod) (count : Nat) {y : ZMod (value mod.n)} {acc : List (Limb width)}
    (form : Form mod y acc) : Form mod (y ^ 2 ^ count) (squares mod count acc) := by
  induction count generalizing y acc with
  | zero => rwa [pow_zero, pow_one]
  | succ count ih =>
    have squared := ih (montsqr_form ready form)
    rw [squares, pow_succ', pow_mul, pow_two]
    exact squared

theorem one_form (prepared : Prepared mod) : Form mod 1 (toMont mod (oneOf mod.limbs)) := by
  obtain ⟨length, one⟩ := @one_of_spec width _ mod.limbs prepared.ready.some_
  have form := to_mont_form prepared length
  rwa [one, Nat.cast_one] at form

omit [NeZero width] in
theorem window_power (e low count : Nat) :
    (x ^ (e / 2 ^ (low + count))) ^ 2 ^ count * x ^ (e / 2 ^ low % 2 ^ count) = x ^ (e / 2 ^ low) := by
  rw [← pow_mul, ← pow_add, pow_add 2, ← Nat.div_div_eq_div_mul, mul_comm, Nat.div_add_mod]

theorem odd_from_spec (ready : Ready mod) {base sq : List (Limb width)} (squared : Form mod (x * x) sq) (count : Nat) {j : Nat}
    (power : Form mod (x ^ (2 * j + 1)) base) {k : Nat} (inside : k < count) :
    Form mod (x ^ (2 * (j + k) + 1)) ((oddFrom mod sq count base).getD k []) := by
  induction count generalizing j k base with
  | zero => exact absurd inside (Nat.not_lt_zero k)
  | succ count ih =>
    cases k with
    | zero => exact power
    | succ k =>
      have next := montmul_form ready power squared
      rw [← pow_two, ← pow_add] at next
      have rest := @ih _ (j + 1) next k (Nat.lt_of_succ_lt_succ inside)
      rw [show j + (k + 1) = j + 1 + k by omega]
      exact rest

theorem slide_form (prepared : Prepared mod) {exp base : List (Limb width)} (power : Form mod x base) {rounds i : Nat}
    (enough : i ≤ rounds) {acc : List (Limb width)} {started : Bool} (form : Form mod (x ^ (value exp / 2 ^ i)) acc)
    (fresh : started = false → value exp / 2 ^ i = 0) :
    Form mod (x ^ value exp) (slide mod exp (oddFrom mod (montsqr mod base) 8 base) rounds i acc started) := by
  have ready := prepared.ready
  have squared := montsqr_form ready power
  have first : Form mod (x ^ (2 * 0 + 1)) base := by rwa [mul_zero, zero_add, pow_one]
  induction rounds generalizing i acc started with
  | zero =>
    have none_ := Nat.le_zero.mp enough
    subst none_
    rw [pow_zero, Nat.div_one] at form
    cases started <;> exact form
  | succ rounds ih =>
    cases i with
    | zero =>
      rw [pow_zero, Nat.div_one] at form
      exact form
    | succ i =>
      have halves : value exp / 2 ^ i = 2 * (value exp / 2 ^ (i + 1)) + expBit exp i := by
        rw [exp_bit_eq, pow_succ, ← Nat.div_div_eq_div_mul]
        exact (Nat.div_add_mod _ 2).symm
      rw [slide]
      by_cases clear_ : expBit exp i = 0
      · rw [if_pos clear_]
        rw [clear_, add_zero] at halves
        apply ih (Nat.le_of_succ_le_succ enough)
        · rw [halves, Nat.two_mul, pow_add]
          exact montsqr_form ready form
        intro notStarted
        rw [halves, fresh notStarted]
      rw [if_neg clear_]
      dsimp only
      generalize start_ : (if 3 ≤ i then i - 3 else 0) = start
      have near : start ≤ i ∧ i ≤ start + 3 := by
        rw [← start_]
        split <;> omega
      have bound : expBit exp i < 2 := Nat.mod_lt _ (by decide)
      obtain ⟨least, most, bit⟩ := @low_from_spec width exp (i - start) start (by
        rw [show start + (i - start) = i by omega]
        omega)
      generalize lowFrom exp (i - start) start = low at least most bit ⊢
      have window := window_bits_spec exp low (i + 1 - low) 0
      rw [zero_mul, zero_add] at window
      rw [window]
      have count : low + (i + 1 - low) = i + 1 := by omega
      -- The window is odd and has four bits at most.
      have small : value exp / 2 ^ low % 2 ^ (i + 1 - low) < 16 :=
        lt_of_lt_of_le (Nat.mod_lt _ (Nat.two_pow_pos _)) (Nat.pow_le_pow_right (by decide) (show i + 1 - low ≤ 4 by omega))
      have odd : value exp / 2 ^ low % 2 ^ (i + 1 - low) % 2 = 1 := by
        rw [Nat.mod_mod_of_dvd _ (dvd_pow_self 2 (by omega)), ← exp_bit_eq]
        exact bit
      have entry := odd_from_spec ready squared 8 first (k := value exp / 2 ^ low % 2 ^ (i + 1 - low) / 2) (by omega)
      rw [zero_add, show 2 * (value exp / 2 ^ low % 2 ^ (i + 1 - low) / 2) + 1 =
        value exp / 2 ^ low % 2 ^ (i + 1 - low) by omega] at entry
      have joined := @window_power width mod x (value exp) low (i + 1 - low)
      rw [count] at joined
      apply ih (by omega)
      · cases started with
        | true =>
          rw [if_pos rfl, ← joined]
          exact montmul_form ready (squares_form ready _ form) entry
        | false =>
          rw [if_neg Bool.false_ne_true, ← joined]
          rw [fresh rfl, pow_zero] at form ⊢
          rw [one_pow]
          exact montmul_form ready form entry
      · exact nofun

theorem plain_walk_form (prepared : Prepared mod) {exp base : List (Limb width)} (power : Form mod x base) {i : Nat}
    {acc : List (Limb width)} {started : Bool} (form : Form mod (x ^ (value exp / 2 ^ i)) acc)
    (fresh : started = false → value exp / 2 ^ i = 0) : Form mod (x ^ value exp) (plainWalk mod exp base i acc started) := by
  have ready := prepared.ready
  induction i generalizing acc started with
  | zero =>
    rw [pow_zero, Nat.div_one] at form
    exact form
  | succ i ih =>
    have halves : value exp / 2 ^ i = 2 * (value exp / 2 ^ (i + 1)) + expBit exp i := by
      rw [exp_bit_eq, pow_succ, ← Nat.div_div_eq_div_mul]
      exact (Nat.div_add_mod _ 2).symm
    have doubled : Form mod (x ^ (2 * (value exp / 2 ^ (i + 1)))) (if started then montsqr mod acc else acc) := by
      cases started with
      | true =>
        rw [if_pos rfl, Nat.two_mul, pow_add]
        exact montsqr_form ready form
      | false =>
        rw [if_neg Bool.false_ne_true, fresh rfl]
        rw [fresh rfl] at form
        exact form
    rw [plainWalk]
    by_cases set_ : expBit exp i = 1
    · rw [if_pos set_]
      apply ih
      · rw [halves, set_, pow_succ]
        exact montmul_form ready doubled power
      · exact nofun
    rw [if_neg set_]
    have bound : expBit exp i < 2 := Nat.mod_lt _ (by decide)
    have clear_ : expBit exp i = 0 := by omega
    rw [clear_, add_zero] at halves
    apply ih
    · rw [halves]
      exact doubled
    intro notStarted
    rw [halves, fresh notStarted]

end Kept

section Table

variable {width : Nat} [NeZero width]

theorem masked_entry {w k : Nat} (w_ : w < 2 ^ width) (k_ : k < 2 ^ width) :
    (mpMaskZero (low (k ^^^ w)) : Limb width).val = if k = w then 2 ^ width - 1 else 0 := by
  rw [mask_zero_spec, low_val, Nat.mod_eq_of_lt (Nat.xor_lt_two_pow k_ w_)]
  by_cases same : k = w
  · rw [if_pos same, same, Nat.xor_self, if_pos rfl]
  rw [if_neg same, if_neg]
  intro zero
  exact same (Nat.eq_of_xor_eq_zero zero)

omit [NeZero width] in
theorem unmasked {mask : Limb width} (none_ : mask.val = 0) {sel entry : List (Limb width)} (length : entry.length = sel.length) :
    List.zipWith (fun s e : Limb width => (low (s.val ||| (e.val &&& mask.val)) : Limb width)) sel entry = sel := by
  induction sel generalizing entry with
  | nil => rfl
  | cons s sel ih =>
    obtain ⟨e, entry, rfl⟩ := exists_cons_of_length_eq_add_one length
    rw [zipWith_cons_cons, ih (Nat.succ.inj length), none_, Nat.and_zero, Nat.or_zero, low_of_val]

omit [NeZero width] in
theorem masked_in {mask : Limb width} (ones : mask.val = 2 ^ width - 1) {entry : List (Limb width)} :
    List.zipWith (fun s e : Limb width => (low (s.val ||| (e.val &&& mask.val)) : Limb width)) (zeros entry.length) entry =
      entry := by
  induction entry with
  | nil => rfl
  | cons e entry ih =>
    have zero : (low 0 : Limb width).val = 0 := Nat.zero_mod _
    rw [length_cons, zeros_succ, zipWith_cons_cons, ih, ones, Nat.and_two_pow_sub_one_eq_mod,
      Nat.mod_eq_of_lt e.isLt, zero, Nat.zero_or, low_of_val]

theorem masked_past {w k : Nat} {table : List (List (Limb width))} {sel : List (Limb width)} (past : w < k)
    (small : k + table.length ≤ 2 ^ width) (lengths : ∀ entry ∈ table, entry.length = sel.length) :
    maskedRead w k table sel = sel := by
  induction table generalizing k with
  | nil => rfl
  | cons entry table ih =>
    rw [length_cons] at small
    have none_ : (mpMaskZero (low (k ^^^ w)) : Limb width).val = 0 := by
      rw [masked_entry (by omega) (by omega), if_neg (by omega)]
    rw [maskedRead]
    rw [unmasked none_ (lengths entry mem_cons_self)]
    exact ih (by omega) (by omega) fun other member => lengths other (mem_cons_of_mem _ member)

theorem masked_read_spec {w k limbs : Nat} {table : List (List (Limb width))} {entry : List (Limb width)}
    (wanted : table[w]? = some entry) (small : k + table.length ≤ 2 ^ width) (lengths : ∀ entry ∈ table, entry.length = limbs) :
    maskedRead (k + w) k table (zeros limbs) = entry := by
  induction table generalizing k w with
  | nil => cases wanted
  | cons first table ih =>
    rw [length_cons] at small
    have place : w < table.length + 1 := (List.getElem?_eq_some_iff.mp wanted).1
    have bound : (mpMaskZero (low (k ^^^ (k + w))) : Limb width).val = if k = k + w then 2 ^ width - 1 else 0 :=
      masked_entry (by omega) (by omega)
    rw [maskedRead]
    cases w with
    | zero =>
      cases wanted
      rw [add_zero, if_pos rfl] at bound
      rw [add_zero, ← lengths entry mem_cons_self, masked_in bound]
      exact masked_past (Nat.lt_succ_self k) (by omega) fun other member =>
        (lengths other (mem_cons_of_mem _ member)).trans (lengths entry mem_cons_self).symm
    | succ w =>
      rw [if_neg (by omega)] at bound
      rw [unmasked bound (by rw [lengths first mem_cons_self, zeros_length]), show k + (w + 1) = k + 1 + w by omega]
      exact ih wanted (by omega) fun other member => lengths other (mem_cons_of_mem _ member)

variable {mod : MpMod width} {x : ZMod (value mod.n)}

omit [NeZero width] in
theorem table_from_length (base : List (Limb width)) (count : Nat) (power : List (Limb width)) :
    (tableFrom mod base count power).length = count := by
  induction count generalizing power with
  | zero => rfl
  | succ count ih => exact congrArg Nat.succ (ih _)

theorem table_from_form (ready : Ready mod) {base : List (Limb width)} (form : Form mod x base) (count : Nat) {j : Nat}
    {power : List (Limb width)} (power_ : Form mod (x ^ j) power) {k : Nat} {entry : List (Limb width)}
    (here : (tableFrom mod base count power)[k]? = some entry) : Form mod (x ^ (j + k)) entry := by
  induction count generalizing j k power with
  | zero => cases here
  | succ count ih =>
    cases k with
    | zero =>
      cases here
      exact power_
    | succ k =>
      have next := montmul_form ready power_ form
      rw [← pow_succ] at next
      rw [show j + (k + 1) = j + 1 + k by omega]
      exact ih next here

theorem power_table_form (prepared : Prepared mod) {base : List (Limb width)} (form : Form mod x base) {entries k : Nat}
    {entry : List (Limb width)} (here : (powerTable mod base entries)[k]? = some entry) : Form mod (x ^ k) entry := by
  cases k with
  | zero =>
    cases here
    rw [pow_zero]
    exact one_form prepared
  | succ k =>
    have first : Form mod (x ^ 1) base := by rwa [pow_one]
    rw [add_comm]
    exact table_from_form prepared.ready form _ first here

theorem ct_limb_form (prepared : Prepared mod) {base : List (Limb width)} (form : Form mod x base) {wbits : Nat}
    (small : 2 ^ wbits ≤ 2 ^ width) (limb : Limb width) (count : Nat) {e : Nat} {acc : List (Limb width)}
    (power : Form mod (x ^ e) acc) : Form mod (x ^ (e * 2 ^ (wbits * count) + limb.val % 2 ^ (wbits * count)))
      (ctLimb mod wbits (powerTable mod base (2 ^ wbits)) limb count acc) := by
  have ready := prepared.ready
  induction count generalizing e acc with
  | zero =>
    rw [mul_zero, pow_zero, mul_one, Nat.mod_one, add_zero]
    exact power
  | succ count ih =>
    rw [ctLimb]
    rw [Nat.and_two_pow_sub_one_eq_mod]
    generalize window : limb.val / 2 ^ (wbits * count) % 2 ^ wbits = w
    have bound : w < 2 ^ wbits := by
      rw [← window]
      exact Nat.mod_lt _ (Nat.two_pow_pos wbits)
    have length : (powerTable mod base (2 ^ wbits)).length = 2 ^ wbits := by
      rw [powerTable, length_cons, table_from_length]
      exact Nat.sub_add_cancel (Nat.two_pow_pos wbits)
    obtain ⟨entry, here⟩ : ∃ entry, (powerTable mod base (2 ^ wbits))[w]? = some entry :=
      ⟨_, List.getElem?_eq_getElem (length.symm ▸ bound)⟩
    have entries : ∀ entry ∈ powerTable mod base (2 ^ wbits), entry.length = mod.limbs := by
      intro other member
      obtain ⟨k, place⟩ := mem_iff_getElem?.mp member
      exact (power_table_form prepared form place).length
    have read := masked_read_spec (k := 0) here (by rw [length, zero_add]; exact small) entries
    rw [zero_add] at read
    rw [read]
    have next := montmul_form ready (squares_form ready wbits power) (power_table_form prepared form here)
    rw [← pow_mul, ← pow_add] at next
    have rest := ih next
    have parts : e * 2 ^ (wbits * (count + 1)) + limb.val % 2 ^ (wbits * (count + 1)) =
        (e * 2 ^ wbits + w) * 2 ^ (wbits * count) + limb.val % 2 ^ (wbits * count) := by
      rw [← window, Nat.mul_succ, pow_add, Nat.mod_mul]
      ring
    rw [parts]
    exact rest

theorem ct_walk_form (prepared : Prepared mod) {base : List (Limb width)} (form : Form mod x base) {wbits : Nat}
    (small : 2 ^ wbits ≤ 2 ^ width) (whole : wbits * (width / wbits) = width) (exp : List (Limb width)) :
    Form mod (x ^ value exp) (ctWalk mod wbits base exp) := by
  unfold ctWalk
  induction exp with
  | nil =>
    rw [value_nil, pow_zero]
    exact one_form prepared
  | cons limb exp ih =>
    rw [reverse_cons, foldl_append, foldl_cons, foldl_nil]
    have next := ct_limb_form prepared form small limb (width / wbits) ih
    rw [whole, Nat.mod_eq_of_lt limb.isLt] at next
    rw [value_cons, add_comm, mul_comm]
    exact next

end Table

end ProvenC.Crypto.Powers
