import Mathlib

/-!
# Packet number compression

A packet carries the low bytes of its number, as many as tell it from the numbers the peer may not have
acknowledged; the receiver takes the number nearest to the one it expects.
-/

namespace ProvenC.Quic.PacketNumber

def numberEnd : Nat := 2 ^ 62

/-- Where `proven_u64` ends, and its sum, difference and complement. -/
def u64End : Nat := 2 ^ 64

def sum64 (a b : Nat) : Nat := (a + b) % u64End

def difference64 (a b : Nat) : Nat := (a + u64End - b) % u64End

def not64 (a : Nat) : Nat := u64End - 1 - a

/-- The loop of `proven_quic_pn_len`: the first length with room, from `len` on. -/
def pnLenFrom (unacked : Nat) : Nat → Nat → Nat
  | 0, len => len
  | left + 1, len => if unacked ≤ 1 <<< (8 * len - 1) then len else pnLenFrom unacked left (len + 1)

def pnLen (pn largestAckedPlusOne : Nat) : Nat := pnLenFrom (difference64 (sum64 pn 1) largestAckedPlusOne) 3 1

def candidate (expected truncated bits : Nat) : Nat :=
  let mask := difference64 (1 <<< bits) 1
  (expected &&& not64 mask) ||| truncated

def pnDecode (largestPlusOne truncated bits : Nat) : Nat :=
  let expected := largestPlusOne
  let win := 1 <<< bits
  let hwin := win / 2
  let candidate := candidate expected truncated bits
  if sum64 candidate hwin ≤ expected ∧ candidate < difference64 (1 <<< 62) win then sum64 candidate win
  else if candidate > sum64 expected hwin ∧ candidate ≥ win then difference64 candidate win
  else candidate

theorem sum64_exact {a b : Nat} (small : a + b < u64End) : sum64 a b = a + b := Nat.mod_eq_of_lt small

theorem difference64_exact {a b : Nat} (less : b ≤ a) (small : a < u64End) : difference64 a b = a - b := by
  unfold difference64
  rw [show a + u64End - b = a - b + u64End by omega, Nat.add_mod_right]
  exact Nat.mod_eq_of_lt (by omega)

variable {bits : Nat}

theorem complement_mask (fits : bits ≤ 64) : not64 (2 ^ bits - 1) = (2 ^ (64 - bits) - 1) <<< bits := by
  have whole : 2 ^ (64 - bits) * 2 ^ bits = u64End := by
    rw [← Nat.pow_add, Nat.sub_add_cancel fits]
    rfl
  have positive := Nat.two_pow_pos bits
  unfold not64
  rw [Nat.shiftLeft_eq, Nat.sub_mul, whole, one_mul]
  omega

theorem low_cleared {value : Nat} (fits : bits ≤ 64) (small : value < u64End) :
    value &&& not64 (2 ^ bits - 1) = (value / 2 ^ bits) <<< bits := by
  rw [complement_mask fits]
  apply Nat.eq_of_testBit_eq
  intro i
  rw [Nat.testBit_and, Nat.testBit_shiftLeft, Nat.testBit_shiftLeft, Nat.testBit_two_pow_sub_one, Nat.testBit_div_two_pow]
  by_cases high : bits ≤ i
  · rw [decide_eq_true (show i ≥ bits from high), Bool.true_and, Bool.true_and, Nat.sub_add_cancel high]
    by_cases inside : i < 64
    · rw [decide_eq_true (show i - bits < 64 - bits by omega), Bool.and_true]
    have beyond : value < 2 ^ i := lt_of_lt_of_le small (Nat.pow_le_pow_right (by decide) (not_lt.mp inside))
    rw [Nat.testBit_lt_two_pow beyond, Bool.false_and]
  · rw [decide_eq_false (show ¬i ≥ bits from high), Bool.false_and, Bool.and_false, Bool.false_and]

variable {expected : Nat}

theorem candidate_eq {truncated : Nat} (fits : bits < 64) (small : expected < u64End) (low : truncated < 2 ^ bits) :
    candidate expected truncated bits = expected / 2 ^ bits * 2 ^ bits + truncated := by
  have inside : 2 ^ bits < u64End := Nat.pow_lt_pow_right (by decide) fits
  have positive := Nat.two_pow_pos bits
  unfold candidate
  dsimp only
  rw [Nat.one_shiftLeft, difference64_exact positive inside, low_cleared (le_of_lt fits) small,
    ← Nat.shiftLeft_add_eq_or_of_lt low, Nat.shiftLeft_eq]

def Unwrapped (expected truncated bits : Nat) : Prop :=
  candidate expected truncated bits + 1 <<< bits < u64End ∧ expected + 1 <<< bits / 2 < u64End ∧ 1 <<< bits ≤ 1 <<< 62

theorem pn_decode_eq {expected truncated bits : Nat} (some : 1 ≤ bits) (fits : bits ≤ 32)
    (small : expected < numberEnd + 2 ^ 32) (low : truncated < 2 ^ bits) :
    Unwrapped expected truncated bits ∧ ∃ win hwin c, win = 2 ^ bits ∧ win = 2 * hwin ∧ 0 < hwin ∧ win ≤ 2 ^ 32 ∧
      c = expected / win * win + truncated ∧ c % win = truncated ∧ c < expected + win ∧ expected < c + win ∧
      pnDecode expected truncated bits = if c + hwin ≤ expected ∧ c < numberEnd - win then c + win
        else if expected + hwin < c ∧ win ≤ c then c - win else c := by
  have ends : numberEnd = 2 ^ 62 := rfl
  have ends' : u64End = 2 ^ 64 := rfl
  have most : 2 ^ bits ≤ 2 ^ 32 := Nat.pow_le_pow_right (by decide) fits
  have halves : 2 ^ bits = 2 * 2 ^ (bits - 1) := by
    rw [← Nat.pow_succ', Nat.succ_eq_add_one, Nat.sub_add_cancel some]
  have positive := Nat.two_pow_pos (bits - 1)
  have inside : expected < u64End := lt_trans small (by decide)
  have same := candidate_eq (lt_of_le_of_lt fits (by decide)) inside low
  have parts := Nat.div_add_mod expected (2 ^ bits)
  have rest := Nat.mod_lt expected (Nat.two_pow_pos bits)
  rw [mul_comm] at parts
  have below : candidate expected truncated bits < expected + 2 ^ bits := by omega
  have half : 2 ^ bits / 2 = 2 ^ (bits - 1) := by omega
  have remainder : candidate expected truncated bits % 2 ^ bits = truncated := by
    rw [same, Nat.mul_add_mod_of_lt low]
  refine ⟨⟨?_, ?_, ?_⟩, 2 ^ bits, 2 ^ (bits - 1), candidate expected truncated bits, rfl, halves, positive, most, same,
    remainder, below, by omega, ?_⟩
  · rw [Nat.one_shiftLeft]
    omega
  · rw [Nat.one_shiftLeft, half]
    omega
  · rw [Nat.one_shiftLeft, Nat.one_shiftLeft]
    exact le_trans most (by decide)
  unfold pnDecode
  dsimp only
  rw [Nat.one_shiftLeft, Nat.one_shiftLeft, half, sum64_exact (by omega), sum64_exact (by omega), sum64_exact (by omega),
    difference64_exact (by omega) (by omega)]
  refine if_congr Iff.rfl rfl ?_
  by_cases above : candidate expected truncated bits > expected + 2 ^ (bits - 1) ∧
      candidate expected truncated bits ≥ 2 ^ bits
  · rw [if_pos above, if_pos above, difference64_exact above.2 (by omega)]
  · rw [if_neg above, if_neg above]

theorem congruent_apart {win a b : Nat} (same : a % win = b % win) (less : a < b) : a + win ≤ b := by
  have divides : win ∣ b - a := (Nat.modEq_iff_dvd' (le_of_lt less)).mp same
  have apart := Nat.le_of_dvd (Nat.sub_pos_of_lt less) divides
  omega

theorem pn_len_exact {pn acked : Nat} (small : pn < numberEnd) (order : acked ≤ pn) (near : pn + 1 - acked ≤ 2 ^ 31) :
    1 ≤ pnLen pn acked ∧ pnLen pn acked ≤ 4 ∧ pn + 1 - acked ≤ 2 ^ (8 * pnLen pn acked - 1) ∧ pn + 1 < u64End := by
  have room : pn + 1 < u64End := lt_of_le_of_lt small (by decide)
  have lengths : pnLen pn acked = if pn + 1 - acked ≤ 2 ^ 7 then 1 else if pn + 1 - acked ≤ 2 ^ 15 then 2
      else if pn + 1 - acked ≤ 2 ^ 23 then 3 else 4 := by
    unfold pnLen
    rw [sum64_exact room, difference64_exact (by omega) room]
    rfl
  rw [lengths]
  by_cases one : pn + 1 - acked ≤ 2 ^ 7
  · rw [if_pos one]
    exact ⟨by decide, by decide, one, room⟩
  rw [if_neg one]
  by_cases two : pn + 1 - acked ≤ 2 ^ 15
  · rw [if_pos two]
    exact ⟨by decide, by decide, two, room⟩
  rw [if_neg two]
  by_cases three : pn + 1 - acked ≤ 2 ^ 23
  · rw [if_pos three]
    exact ⟨by decide, by decide, three, room⟩
  rw [if_neg three]
  exact ⟨by decide, by decide, near, room⟩

def InWindow (expected hwin pn : Nat) : Prop := expected < pn + hwin ∧ pn ≤ expected + hwin

def Nearest (expected win pn : Nat) : Prop :=
  pn < numberEnd ∧ ∀ other, other < numberEnd → other % win = pn % win → Nat.dist expected pn ≤ Nat.dist expected other

theorem pn_decode_of_window {pn : Nat} (some : 1 ≤ bits) (fits : bits ≤ 32) (small : pn < numberEnd)
    (above : expected < pn + 2 ^ (bits - 1)) (below : pn ≤ expected + 2 ^ (bits - 1)) :
    Unwrapped expected (pn % 2 ^ bits) bits ∧ pnDecode expected (pn % 2 ^ bits) bits = pn := by
  have half : 2 ^ (bits - 1) < 2 ^ 32 := Nat.pow_lt_pow_right (by decide) (by omega)
  obtain ⟨calm, win, hwin, c, width, halves, positive, most, -, remainder, high, low, decoded⟩ :=
    @pn_decode_eq expected (pn % 2 ^ bits) bits some fits (by omega) (Nat.mod_lt _ (Nat.two_pow_pos bits))
  have middle : 2 ^ (bits - 1) = hwin := by
    have doubled : 2 ^ bits = 2 * 2 ^ (bits - 1) := by
      rw [← Nat.pow_succ', Nat.succ_eq_add_one, Nat.sub_add_cancel some]
    omega
  rw [middle] at above below
  rw [← width] at remainder
  refine ⟨calm, ?_⟩
  rw [decoded]
  rcases Nat.lt_trichotomy c pn with less | same | more
  · have apart := congruent_apart remainder less
    have further : ¬c + win < pn := by
      intro less'
      have again : (c + win) % win = pn % win := (Nat.add_mod_right c win).trans remainder
      have beyond := congruent_apart again less'
      omega
    rw [if_pos (by omega)]
    omega
  · rw [if_neg (by omega), if_neg (by omega)]
    exact same
  have apart := congruent_apart remainder.symm more
  have further : ¬pn + win < c := by
    intro more'
    have again : (pn + win) % win = c % win := (Nat.add_mod_right pn win).trans remainder.symm
    have beyond := congruent_apart again more'
    omega
  rw [if_neg (by omega), if_pos (by omega)]
  omega

theorem pn_decode_nearest {truncated : Nat} (some : 1 ≤ bits) (fits : bits ≤ 32)
    (small : expected ≤ numberEnd) (low : truncated < 2 ^ bits) :
    pnDecode expected truncated bits % 2 ^ bits = truncated ∧
      (InWindow expected (2 ^ (bits - 1)) (pnDecode expected truncated bits) ∨
        Nearest expected (2 ^ bits) (pnDecode expected truncated bits)) ∧
      (expected < numberEnd → pnDecode expected truncated bits < numberEnd) ∧ Unwrapped expected truncated bits := by
  obtain ⟨calm, win, hwin, c, width, halves, positive, most, value, remainder, high, near, decoded⟩ :=
    @pn_decode_eq expected truncated bits some fits (by omega) low
  have middle : 2 ^ (bits - 1) = hwin := by
    have doubled : 2 ^ bits = 2 * 2 ^ (bits - 1) := by
      rw [← Nat.pow_succ', Nat.succ_eq_add_one, Nat.sub_add_cancel some]
    omega
  have ends : win ∣ numberEnd := by
    rw [width]
    exact Nat.pow_dvd_pow 2 (by omega)
  rw [middle, ← width, decoded]
  have within : expected < numberEnd → c < numberEnd := by
    intro less
    obtain ⟨windows, whole⟩ := ends
    have before : expected / win < windows := by
      apply Nat.div_lt_of_lt_mul
      rw [← whole]
      exact less
    have next := Nat.mul_le_mul_right win (Nat.succ_le_of_lt before)
    rw [Nat.succ_mul] at next
    rw [← width] at low
    rw [value, whole, mul_comm win]
    omega
  by_cases up : c + hwin ≤ expected ∧ c < numberEnd - win
  · rw [if_pos up]
    refine ⟨by rw [Nat.add_mod_right, remainder], Or.inl ⟨by omega, by omega⟩, fun _ => by omega, calm⟩
  rw [if_neg up]
  by_cases down : expected + hwin < c ∧ win ≤ c
  · rw [if_pos down]
    refine ⟨?_, Or.inl ⟨by omega, by omega⟩, fun less => ?_, calm⟩
    · rw [← Nat.mod_eq_sub_mod down.2, remainder]
    have inside := within less
    omega
  rw [if_neg down]
  refine ⟨remainder, ?_, within, calm⟩
  by_cases window : InWindow expected hwin c
  · exact Or.inl window
  right
  have wide : 2 ^ 32 ≤ numberEnd := by decide
  unfold InWindow at window
  refine ⟨by omega, ?_⟩
  intro other inside same
  unfold Nat.dist
  rcases Nat.lt_trichotomy c other with less | equal | more
  · have apart := congruent_apart same.symm less
    omega
  · rw [equal]
  have apart := congruent_apart same more
  omega

/-- A packet number survives its compression, and whatever arrives is read as the nearest number. -/
theorem packet_numbers_lossless : (∀ pn acked, pn < numberEnd → acked ≤ pn → pn + 1 - acked ≤ 2 ^ 31 →
      1 ≤ pnLen pn acked ∧ pnLen pn acked ≤ 4 ∧ pn + 1 < u64End ∧
      ∀ expected, acked ≤ expected → expected < pn + 2 ^ (8 * pnLen pn acked - 1) →
        Unwrapped expected (pn % 2 ^ (8 * pnLen pn acked)) (8 * pnLen pn acked) ∧
        pnDecode expected (pn % 2 ^ (8 * pnLen pn acked)) (8 * pnLen pn acked) = pn) ∧
    ∀ expected truncated len, 1 ≤ len → len ≤ 4 → expected ≤ numberEnd → truncated < 2 ^ (8 * len) →
      pnDecode expected truncated (8 * len) % 2 ^ (8 * len) = truncated ∧
      (InWindow expected (2 ^ (8 * len - 1)) (pnDecode expected truncated (8 * len)) ∨
        Nearest expected (2 ^ (8 * len)) (pnDecode expected truncated (8 * len))) ∧
      (expected < numberEnd → pnDecode expected truncated (8 * len) < numberEnd) ∧
      Unwrapped expected truncated (8 * len) := by
  constructor
  · intro pn acked small order near
    obtain ⟨some, most, room, fits⟩ := pn_len_exact small order near
    refine ⟨some, most, fits, ?_⟩
    intro expected after before
    exact pn_decode_of_window (by omega) (by omega) small before (by omega)
  intro expected truncated len some most small low
  exact pn_decode_nearest (by omega) (by omega) small low

/-- The last number of the space, sent in two bytes after a thousand unacknowledged. -/
theorem packet_numbers_lossless_last :
    pnDecode (2 ^ 62 - 900) ((2 ^ 62 - 1) % 2 ^ (8 * pnLen (2 ^ 62 - 1) (2 ^ 62 - 1000)))
        (8 * pnLen (2 ^ 62 - 1) (2 ^ 62 - 1000)) = 2 ^ 62 - 1 ∧ pnDecode 3 250 8 % 2 ^ 8 = 250 := by
  refine ⟨((packet_numbers_lossless.1 (2 ^ 62 - 1) (2 ^ 62 - 1000) (by decide) (by decide) (by decide)).2.2.2
    (2 ^ 62 - 900) (by decide) (by decide)).2, ?_⟩
  exact (packet_numbers_lossless.2 3 250 1 (by decide) (by decide) (by decide) (by decide)).1

end ProvenC.Quic.PacketNumber
