import ProvenC.Random.Uniform

/-!
# The draws are exactly uniform

Both products are the exact one, so `below` is multiply-and-reject over 2^64 draws. A range counts
with it from its low end, and the shuffle's choices are its results.
-/

namespace ProvenC.Random.Exact

open Bytes Lib.Rejection Lib.Shuffling Random.Uniform

variable {build : Build}

theorem halves_product (a0 a1 b0 b1 : Nat) : (2 ^ 32 * a1 + a0) * (2 ^ 32 * b1 + b0) =
      2 ^ 64 * (a1 * b1) + 2 ^ 32 * (a0 * b1 + a1 * b0) + a0 * b0 := by
  ring

theorem half_product_small {x y : Nat} (xSmall : x < 2 ^ 32) (ySmall : y < 2 ^ 32) :
    x * y ≤ (2 ^ 32 - 1) * (2 ^ 32 - 1) :=
  Nat.mul_le_mul (by omega) (by omega)

theorem portable_exact {a b : Nat} (aSmall : a < 2 ^ 64) (bSmall : b < 2 ^ 64) :
    mul64x64Portable a b = (a * b / 2 ^ 64, a * b % 2 ^ 64) := by
  have aParts := Nat.div_add_mod a (2 ^ 32)
  have bParts := Nat.div_add_mod b (2 ^ 32)
  have a0Small := Nat.mod_lt a (show 0 < 2 ^ 32 by decide)
  have b0Small := Nat.mod_lt b (show 0 < 2 ^ 32 by decide)
  have a1Small : a / 2 ^ 32 < 2 ^ 32 := by omega
  have b1Small : b / 2 ^ 32 < 2 ^ 32 := by omega
  have product := halves_product (a % 2 ^ 32) (a / 2 ^ 32) (b % 2 ^ 32) (b / 2 ^ 32)
  rw [aParts, bParts] at product
  have p00Small := half_product_small a0Small b0Small
  have p01Small := half_product_small a0Small b1Small
  have p10Small := half_product_small a1Small b0Small
  have p11Small := half_product_small a1Small b1Small
  have joined (mid low : Nat) : mid * 2 ^ 32 % 2 ^ 64 ||| low % 2 ^ 32 = mid % 2 ^ 32 * 2 ^ 32 + low % 2 ^ 32 := by
    have shifted : mid * 2 ^ 32 % 2 ^ 64 = 2 ^ 32 * (mid % 2 ^ 32) := by omega
    rw [shifted, ← Nat.two_pow_add_eq_or_of_lt (Nat.mod_lt _ (by decide)), mul_comm]
  unfold mul64x64Portable
  simp only [Nat.and_two_pow_sub_one_eq_mod, joined]
  generalize a % 2 ^ 32 * (b % 2 ^ 32) = p00 at *
  generalize a % 2 ^ 32 * (b / 2 ^ 32) = p01 at *
  generalize a / 2 ^ 32 * (b % 2 ^ 32) = p10 at *
  generalize a / 2 ^ 32 * (b / 2 ^ 32) = p11 at *
  rw [product]
  ext
  · omega
  · omega

theorem int128_exact {a b : Nat} (aSmall : a < 2 ^ 64) (bSmall : b < 2 ^ 64) :
    mul64x64Int128 a b = (a * b / 2 ^ 64, a * b % 2 ^ 64) := by
  have small : a * b < 2 ^ 128 := by
    calc a * b < 2 ^ 64 * 2 ^ 64 := Nat.mul_lt_mul'' aSmall bSmall
      _ = 2 ^ 128 := by rw [← pow_add]
  unfold mul64x64Int128
  rw [Nat.mod_eq_of_lt small]

theorem mul_exact {a b : Nat} (aSmall : a < 2 ^ 64) (bSmall : b < 2 ^ 64) :
    mul64x64 build a b = (a * b / 2 ^ 64, a * b % 2 ^ 64) := by
  cases build with
  | int128 => exact int128_exact aSmall bSmall
  | portable => exact portable_exact aSmall bSmall

variable {bound : Nat}

theorem threshold_eq (positive : 0 < bound) (small : bound < 2 ^ 64) :
    (2 ^ 64 - bound) % 2 ^ 64 % bound = 2 ^ 64 % bound := by
  rw [Nat.mod_eq_of_lt (show 2 ^ 64 - bound < 2 ^ 64 by omega)]
  exact (Nat.mod_eq_sub_mod (le_of_lt small)).symm

/-- What one draw comes to, for `bound`. -/
def judged (bound : Nat) (draw : Word) : Option Nat := verdict (2 ^ 64) bound draw.val

theorem loop_judged {bound : Nat} (small : bound < 2 ^ 64) (draw : Word) (draws : List Word) :
    belowLoop build bound (2 ^ 64 % bound) (mul64x64 build draw.val bound) draws =
      firstAccepted (judged bound) (draw :: draws) := by
  induction draws generalizing draw with
  | nil =>
    rw [belowLoop, mul_exact draw.isLt small, firstAccepted, judged, verdict]
    split
    · rfl
    · rfl
  | cons next draws ih =>
    rw [belowLoop, mul_exact draw.isLt small, firstAccepted, judged, verdict]
    split
    · exact ih next
    · rfl

theorem below_judged (positive : 0 < bound) (small : bound < 2 ^ 64) (draws : List Word) :
    below build true bound draws = firstAccepted (judged bound) draws := by
  have allowed : ¬(bound = 0 ∨ ¬true = true) := by
    rintro (zero | invalid)
    · omega
    · exact invalid rfl
  unfold below
  rw [if_neg allowed]
  cases draws with
  | nil => rfl
  | cons draw draws =>
    change (if (mul64x64 build draw.val bound).2 < bound
      then belowLoop build bound ((2 ^ 64 - bound) % 2 ^ 64 % bound) (mul64x64 build draw.val bound)
      else (pure (mul64x64 build draw.val bound).1 : Drawing Nat)) draws = _
    rw [threshold_eq positive small]
    split
    · exact loop_judged small draw draws
    rename_i large
    rw [← @loop_judged build bound small draw draws]
    have reaches := Nat.mod_lt (2 ^ 64) positive
    cases draws <;> (rw [belowLoop, if_neg (by omega)]; rfl)

theorem judged_below {outcome : Nat} {draw : Word} (accepted : judged bound draw = some outcome) :
    outcome < bound := verdict_below draw.isLt accepted

theorem judged_card {outcome : Nat} (positive : 0 < bound) (below : outcome < bound) :
    (Finset.univ.filter fun draw => judged bound draw = some outcome).card = 2 ^ 64 / bound :=
  accepted_card positive (by decide) below

theorem judged_rejected_card (positive : 0 < bound) :
    (Finset.univ.filter fun draw => judged bound draw = none).card = 2 ^ 64 % bound :=
  rejected_card positive (by decide)

variable {high : Int}

theorem span_eq {low : Int} (lowMin : -2 ^ 63 ≤ low) (ordered : low ≤ high) (highMax : high < 2 ^ 63) :
    (unsigned high + (2 ^ 64 - unsigned low)) % 2 ^ 64 = (high - low).toNat := by
  unfold unsigned
  omega

theorem signed_sum {low : Int} {r : Nat} (lowMin : -2 ^ 63 ≤ low) (highMax : low + r < 2 ^ 63) :
    signed ((unsigned low + r) % 2 ^ 64) = low + r := by
  unfold signed unsigned
  split
  · omega
  · omega

def ranged (low high : Int) (draw : Word) : Option Int :=
  if (high - low).toNat = 2 ^ 64 - 1 then some (signed draw.val)
  else (judged ((high - low).toNat + 1) draw).map fun r => signed ((unsigned low + r) % 2 ^ 64)

theorem range_ranged {low : Int} (lowMin : -2 ^ 63 ≤ low) (ordered : low ≤ high) (highMax : high < 2 ^ 63)
    (draws : List Word) : range build true low high draws = firstAccepted (ranged low high) draws := by
  unfold range
  rw [if_neg (by omega), span_eq lowMin ordered highMax]
  by_cases whole : (high - low).toNat = 2 ^ 64 - 1
  · rw [if_pos whole]
    cases draws with
    | nil => rfl
    | cons draw draws =>
      rw [firstAccepted, ranged, if_pos whole]
      rfl
  have judge : ranged low high = fun draw =>
      (judged ((high - low).toNat + 1) draw).map fun r => signed ((unsigned low + r) % 2 ^ 64) := by
    funext draw
    rw [ranged, if_neg whole]
  have small : (high - low).toNat + 1 < 2 ^ 64 := by omega
  rw [if_neg whole, judge, first_accepted_map, Nat.mod_eq_of_lt small]
  change (below build true ((high - low).toNat + 1) draws >>= fun drawn => _) = _
  rw [below_judged (Nat.succ_pos _) small]
  cases firstAccepted (judged ((high - low).toNat + 1)) draws <;> rfl

theorem ranged_within {low value : Int} {draw : Word} (lowMin : -2 ^ 63 ≤ low) (ordered : low ≤ high)
    (highMax : high < 2 ^ 63) (accepted : ranged low high draw = some value) : low ≤ value ∧ value ≤ high := by
  have small := draw.isLt
  unfold ranged at accepted
  split at accepted
  · obtain rfl := Option.some.inj accepted
    unfold signed
    split
    · omega
    · omega
  obtain ⟨r, found, rfl⟩ := Option.map_eq_some_iff.mp accepted
  have inside := judged_below found
  rw [signed_sum lowMin (by omega)]
  omega

theorem ranged_card {low value : Int} (lowMin : -2 ^ 63 ≤ low) (highMax : high < 2 ^ 63)
    (above : low ≤ value) (under : value ≤ high) :
    (Finset.univ.filter fun draw => ranged low high draw = some value).card = 2 ^ 64 / ((high - low).toNat + 1) := by
  by_cases whole : (high - low).toNat = 2 ^ 64 - 1
  · have single : Finset.univ.filter (fun draw => ranged low high draw = some value) =
        {⟨unsigned value, by unfold unsigned; omega⟩} := by
      ext draw
      have small := draw.isLt
      rw [Finset.mem_filter, Finset.mem_singleton, ranged, if_pos whole, Option.some.injEq, Fin.ext_iff]
      dsimp only
      unfold signed unsigned
      split
      all_goals exact ⟨fun ⟨_, same⟩ => by omega, fun same => ⟨Finset.mem_univ _, by omega⟩⟩
    rw [single, Finset.card_singleton, whole, Nat.sub_add_cancel (by decide), Nat.div_self (by decide)]
  rw [← judged_card (Nat.succ_pos _) (show (value - low).toNat < (high - low).toNat + 1 by omega)]
  refine congrArg Finset.card (Finset.filter_congr ?_)
  intro draw _
  rw [ranged, if_neg whole, Option.map_eq_some_iff]
  constructor
  · rintro ⟨r, found, rfl⟩
    have inside := judged_below found
    rw [signed_sum lowMin (by omega), found]
    congr 1
    omega
  intro found
  refine ⟨_, found, ?_⟩
  rw [signed_sum lowMin (by omega)]
  omega

theorem ranged_rejected_card {low : Int} :
    (Finset.univ.filter fun draw => ranged low high draw = none).card = 2 ^ 64 % ((high - low).toNat + 1) := by
  by_cases whole : (high - low).toNat = 2 ^ 64 - 1
  · have nowhere : Finset.univ.filter (fun draw => ranged low high draw = none) = ∅ := by
      apply Finset.filter_eq_empty_iff.mpr
      intro draw _ rejected
      rw [ranged, if_pos whole] at rejected
      cases rejected
    rw [nowhere, Finset.card_empty, whole, Nat.sub_add_cancel (by decide), Nat.mod_self]
  rw [← judged_rejected_card (Nat.succ_pos _)]
  refine congrArg Finset.card (Finset.filter_congr ?_)
  intro draw _
  rw [ranged, if_neg whole, Option.map_eq_none_iff]

theorem drawn_below {i j : Nat} {draws rest : List Word} (small : i + 1 < 2 ^ 64)
    (drawn : below build true ((i + 1) % 2 ^ 64) draws = some (j, rest)) : j ≤ i := by
  rw [Nat.mod_eq_of_lt small, below_judged (Nat.succ_pos i) small] at drawn
  obtain ⟨draw, -, accepted⟩ := first_accepted_mem drawn
  exact Nat.lt_succ_iff.mp (judged_below accepted)

theorem loop_arranged {base count size top : Nat} (cells : Nat → Byte) (room : top + 1 ≤ count)
    (small : count < 2 ^ 64) {draws rest : List Word} {picked : List Nat}
    (drawn : choices build true top draws = some (picked, rest)) :
    Chosen top picked ∧ ∃ cells', shuffleLoop build true base size top cells draws = some (cells', rest) ∧
      Arranged base count size (order top picked) cells cells' := by
  induction top generalizing cells draws picked with
  | zero =>
    obtain ⟨rfl, rfl⟩ := Prod.mk.inj (Option.some.inj drawn)
    exact ⟨trivial, cells, rfl, arranged_refl cells base count size⟩
  | succ i ih =>
    unfold choices at drawn
    obtain ⟨⟨j, middle⟩, first, others⟩ := Option.bind_eq_some_iff.mp drawn
    obtain ⟨⟨later, final⟩, second, last⟩ := Option.bind_eq_some_iff.mp others
    obtain ⟨rfl, rfl⟩ := Prod.mk.inj (Option.some.inj last)
    have jSmall : j ≤ i + 1 := drawn_below (by omega) first
    have continued (cells : Nat → Byte) := ih cells (by omega) second
    obtain ⟨chosen, -⟩ := continued cells
    refine ⟨⟨jSmall, chosen⟩, ?_⟩
    have inside : ∀ place < count, order i later place < count := by
      intro place within
      rcases Nat.lt_or_ge i place with above | under
      · rw [order_above chosen above]
        exact within
      have kept := order_within chosen under
      omega
    unfold shuffleLoop
    by_cases same : j = i + 1
    · obtain ⟨cells', ran, arranged⟩ := (continued cells).2
      refine ⟨cells', ?_, ?_⟩
      · refine Option.bind_eq_some_iff.mpr ⟨(j, middle), first, ?_⟩
        dsimp only
        rw [if_pos same]
        exact ran
      rw [order, same, Equiv.swap_self]
      exact arranged
    obtain ⟨cells', ran, arranged⟩ :=
      (continued (exchangedUp cells (base + (i + 1) * size) (base + j * size) size)).2
    refine ⟨cells', ?_, ?_⟩
    · refine Option.bind_eq_some_iff.mpr ⟨(j, middle), first, ?_⟩
      dsimp only
      rw [if_neg same]
      exact ran
    rw [order]
    exact arranged_trans (arranged_exchange cells (by omega) (by omega) (Ne.symm same)) arranged inside

theorem loop_waits {base size top : Nat} (cells : Nat → Byte) {draws : List Word}
    (waits : choices build true top draws = none) : shuffleLoop build true base size top cells draws = none := by
  induction top generalizing cells draws with
  | zero => cases waits
  | succ i ih =>
    unfold choices at waits
    unfold shuffleLoop
    apply Option.bind_eq_none_iff.mpr
    rintro ⟨j, middle⟩ first
    have later := Option.bind_eq_none_iff.mp waits (j, middle) first
    have rest : choices build true i middle = none := by
      cases found : choices build true i middle with
      | none => rfl
      | some drawn =>
        have never := Option.bind_eq_none_iff.mp later drawn found
        cases never
    dsimp only
    split
    · exact ih cells rest
    · exact ih _ rest

theorem choices_reached {top : Nat} {picked : List Nat} (small : top + 1 < 2 ^ 64) (chosen : Chosen top picked) :
    ∃ draws, choices build true top draws = some (picked, []) := by
  induction top generalizing picked with
  | zero =>
    cases picked with
    | nil => exact ⟨[], rfl⟩
    | cons _ _ => cases chosen
  | succ i ih =>
    cases picked with
    | nil => cases chosen
    | cons j later =>
      obtain ⟨draws, drawn⟩ := ih (by omega) chosen.2
      have many : 0 < (Finset.univ.filter fun draw => judged (i + 1 + 1) draw = some j).card := by
        rw [judged_card (Nat.succ_pos _) (Nat.lt_succ_iff.mpr chosen.1)]
        exact Nat.div_pos (le_of_lt small) (Nat.succ_pos _)
      obtain ⟨draw, there⟩ := Finset.card_pos.mp many
      refine ⟨draw :: draws, ?_⟩
      have first : below build true ((i + 1 + 1) % 2 ^ 64) (draw :: draws) = some (j, draws) := by
        rw [Nat.mod_eq_of_lt small, below_judged (Nat.succ_pos _) small, firstAccepted, (Finset.mem_filter.mp there).2]
      unfold choices
      refine Option.bind_eq_some_iff.mpr ⟨(j, draws), first, ?_⟩
      exact Option.bind_eq_some_iff.mpr ⟨(later, []), drawn, rfl⟩

def Shuffles (build : Build) (base count size : Nat) (cells : Nat → Byte) (draws rest : List Word)
    (picked : List Nat) : Prop :=
  choices build true (count - 1) draws = some (picked, rest) ∧ ∃ cells',
    shuffle build true base count size cells draws = some (cells', rest) ∧
      Arranged base count size (order (count - 1) picked) cells cells'

theorem shuffle_loop {base count size : Nat} (there : base ≠ 0) (sized : size ≠ 0) (cells : Nat → Byte) :
    shuffle build true base count size cells = shuffleLoop build true base size (count - 1) cells := by
  unfold shuffle
  by_cases short : count < 2
  · rw [if_pos (.inr (.inr (.inl short))), show count - 1 = 0 by omega, shuffleLoop]
  rw [if_neg]
  rintro (none | none | none | none)
  · exact there none
  · exact sized none
  · exact short none
  · exact none rfl

theorem shuffles_of_choices {base count size : Nat} (there : base ≠ 0) (sized : size ≠ 0) (small : count < 2 ^ 64)
    {cells : Nat → Byte} {draws rest : List Word} {picked : List Nat}
    (drawn : choices build true (count - 1) draws = some (picked, rest)) :
    Chosen (count - 1) picked ∧ Shuffles build base count size cells draws rest picked := by
  rcases Nat.eq_zero_or_pos count with rfl | positive
  · obtain ⟨rfl, rfl⟩ := Prod.mk.inj (Option.some.inj drawn)
    refine ⟨trivial, rfl, cells, ?_, arranged_refl cells base 0 size⟩
    rw [shuffle_loop there sized]
    rfl
  obtain ⟨chosen, cells', ran, arranged⟩ :=
    @loop_arranged build base count size (count - 1) cells (by omega) small draws rest picked drawn
  rw [← shuffle_loop there sized] at ran
  exact ⟨chosen, drawn, cells', ran, arranged⟩

theorem shuffles_of_run {base count size : Nat} (there : base ≠ 0) (sized : size ≠ 0) (small : count < 2 ^ 64)
    {cells cells' : Nat → Byte} {draws rest : List Word}
    (ran : shuffle build true base count size cells draws = some (cells', rest)) :
    ∃ picked, Chosen (count - 1) picked ∧ Shuffles build base count size cells draws rest picked := by
  cases drawn : choices build true (count - 1) draws with
  | none =>
    have waits := @loop_waits build base size (count - 1) cells draws drawn
    rw [← shuffle_loop there sized, ran] at waits
    cases waits
  | some found =>
    obtain ⟨picked, left⟩ := found
    obtain ⟨chosen, shuffles⟩ := @shuffles_of_choices build base count size there sized small cells draws left picked drawn
    obtain ⟨cells'', again, -⟩ := shuffles.2
    obtain ⟨-, rfl⟩ := Prod.mk.inj (Option.some.inj (ran.symm.trans again))
    exact ⟨picked, chosen, shuffles⟩

/-- Each outcome of `below` has the same number of the 2^64 draws, the others are drawn again; so is
each number of an interval; the choices of a shuffle and the permutations correspond one to one. -/
theorem draws_exactly_uniform (build : Build) :
    (∀ a b, a < 2 ^ 64 → b < 2 ^ 64 → mul64x64Portable a b = mul64x64Int128 a b) ∧ (∀ bound, 0 < bound → bound < 2 ^ 64 →
      (∀ r < bound, (Finset.univ.filter fun draw : Word => below build true bound [draw] = some (r, [])).card =
        2 ^ 64 / bound) ∧
      (∀ draw : Word, (∃ r < bound, ∀ draws, below build true bound (draw :: draws) = some (r, draws)) ∨
        ∀ draws, below build true bound (draw :: draws) = below build true bound draws) ∧
      (∀ n, ∀ r < bound, (Finset.univ.filter fun draws : Fin (n + 1) → Word =>
        below build true bound (List.ofFn draws) = some (r, [])).card = (2 ^ 64 % bound) ^ n * (2 ^ 64 / bound))) ∧
    (∀ low high, -2 ^ 63 ≤ low → low ≤ high → high < 2 ^ 63 →
      (∀ draws value rest, range build true low high draws = some (value, rest) → low ≤ value ∧ value ≤ high) ∧
      (∀ n value, low ≤ value → value ≤ high → (Finset.univ.filter fun draws : Fin (n + 1) → Word =>
        range build true low high (List.ofFn draws) = some (value, [])).card =
          (2 ^ 64 % ((high - low).toNat + 1)) ^ n * (2 ^ 64 / ((high - low).toNat + 1)))) ∧
    (∀ base count size, base ≠ 0 → size ≠ 0 → count < 2 ^ 64 →
      (∀ cells draws cells' rest, shuffle build true base count size cells draws = some (cells', rest) →
        ∃ picked, Chosen (count - 1) picked ∧ Shuffles build base count size cells draws rest picked) ∧
      (∀ cells picked, Chosen (count - 1) picked → ∃ draws, Shuffles build base count size cells draws [] picked) ∧
      ∀ wanted : Equiv.Perm Nat, (∀ place, count - 1 < place → wanted place = place) →
        ∃! picked, Chosen (count - 1) picked ∧ order (count - 1) picked = wanted) := by
  refine ⟨?product, ?bounded, ?interval, ?shuffled⟩
  case product =>
    intro a b aSmall bSmall
    rw [portable_exact aSmall bSmall, int128_exact aSmall bSmall]
  case bounded =>
    intro bound positive small
    refine ⟨?_, ?_, ?_⟩
    · intro r inside
      rw [← judged_card positive inside]
      refine congrArg Finset.card (Finset.filter_congr ?_)
      intro draw _
      rw [below_judged positive small, first_accepted_one]
    · intro draw
      simp only [below_judged positive small]
      cases accepted : judged bound draw with
      | none =>
        right
        intro draws
        rw [firstAccepted, accepted]
      | some r =>
        left
        refine ⟨r, judged_below accepted, ?_⟩
        intro draws
        rw [firstAccepted, accepted]
    intro n r inside
    rw [← judged_card positive inside, ← judged_rejected_card positive, ← sequences_card, sequences]
    refine congrArg Finset.card (Finset.filter_congr ?_)
    intro draws _
    rw [below_judged positive small]
  case interval =>
    intro low high lowMin ordered highMax
    constructor
    · intro draws value rest ran
      rw [range_ranged lowMin ordered highMax] at ran
      obtain ⟨draw, -, accepted⟩ := first_accepted_mem ran
      exact ranged_within lowMin ordered highMax accepted
    intro n value above under
    rw [← ranged_card lowMin highMax above under, ← ranged_rejected_card, ← sequences_card, sequences]
    refine congrArg Finset.card (Finset.filter_congr ?_)
    intro draws _
    rw [range_ranged lowMin ordered highMax]
  case shuffled =>
    intro base count size there sized small
    refine ⟨?_, ?_, ?_⟩
    · intro cells draws cells' rest ran
      exact shuffles_of_run there sized small ran
    · intro cells picked chosen
      have drawn : ∃ draws, choices build true (count - 1) draws = some (picked, []) := by
        by_cases few : count - 1 + 1 < 2 ^ 64
        · exact choices_reached few chosen
        · omega
      obtain ⟨draws, drawn⟩ := drawn
      exact ⟨draws, (shuffles_of_choices there sized small drawn).2⟩
    intro wanted fixed
    exact order_once fixed

end ProvenC.Random.Exact
