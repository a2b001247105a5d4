import ProvenC.Quic.FrameCodec
import ProvenC.Quic.Numbers
import ProvenC.Quic.PacketNumber

/-!
# ACK ranges as bytes (RFC 9000, section 19.3.1)

Ranges of packet numbers from the largest down, each told by the gap above it and its length. As many are
written as there is room for, and the count before them is theirs.
-/

namespace ProvenC.Quic.AckCodec

open List Bytes Lib.Scanning
open Quic.Varint Quic.FrameCodec
open Quic.PacketNumber (difference64 difference64_exact u64End)
open Quic.Numbers (Descending)

/-- The gap before a range below one that begins at `last`. -/
def gapOf (last hi : Nat) : Nat := difference64 (difference64 last hi) 2

/-- The loop of `proven_quic_ack_put_ecn` that counts the further ranges there is room for, with the count's own
length, and their bytes. -/
def ackFit (need room : Nat) : Nat → List (Nat × Nat) → Nat → Nat → Nat × Nat
  | _, [], k, pairs => (k, pairs)
  | last, (lo, hi) :: rest, k, pairs =>
    let add := quicVarintLen (gapOf last hi) + quicVarintLen (difference64 hi lo)
    if room < need + quicVarintLen (k + 1) + pairs + add then (k, pairs)
    else ackFit need room lo rest (k + 1) (pairs + add)

def pairPuts : Nat → List (Nat × Nat) → List Put
  | _, [] => []
  | last, (lo, hi) :: rest => .varint (gapOf last hi) :: .varint (difference64 hi lo) :: pairPuts lo rest

def ecnPuts : Option (Nat × Nat × Nat) → List Put
  | none => []
  | some (ect0, ect1, ce) => [.varint ect0, .varint ect1, .varint ce]

def ecnNeed : Option (Nat × Nat × Nat) → Nat
  | none => 0
  | some (ect0, ect1, ce) => quicVarintLen ect0 + quicVarintLen ect1 + quicVarintLen ce

def ackType (ecn : Option (Nat × Nat × Nat)) : Nat := if ecn.isSome then 0x03 else 0x02

def ackPuts (lo hi : Nat) (further : List (Nat × Nat)) (ackDelay : Nat) (ecn : Option (Nat × Nat × Nat)) : List Put :=
  [.varint (ackType ecn), .varint hi, .varint ackDelay, .varint further.length, .varint (difference64 hi lo)] ++
    pairPuts lo further ++ ecnPuts ecn

/-- `proven_quic_ack_put_ecn`: of ranges `[lo, hi]`, how many are written. -/
def quicAckPutEcn (w : Writer) (ranges : List (Nat × Nat)) (ackDelay : Nat) (ecn : Option (Nat × Nat × Nat)) : Writer × Nat :=
  match ranges with
  | [] => (w, 0)
  | (lo, hi) :: rest =>
    if !w.ok then (w, 0)
    else
      let room := w.cap - w.out.length
      let need := 1 + quicVarintLen hi + quicVarintLen ackDelay + quicVarintLen (difference64 hi lo) + ecnNeed ecn
      let (k, pairs) := ackFit need room lo rest 0 0
      if room < need + quicVarintLen k + pairs then (w, 0)
      else
        let w := runPuts w (ackPuts lo hi (rest.take k) ackDelay ecn)
        (w, if w.ok then k + 1 else 0)

structure AckIter where
  bytes : List Byte
  ok : Bool
  hi : Nat
  lo : Nat
  left : Nat
  first : Bool
deriving DecidableEq, Repr

def quicAckIter (f : QuicFrame) : AckIter :=
  { bytes := f.ranges, ok := true, hi := f.largest, lo := difference64 f.largest f.firstRange, left := f.rangeCount
    first := true }

def quicAckNext (it : AckIter) : AckIter × Option (Nat × Nat) :=
  if it.first then ({ it with first := false }, some (it.lo, it.hi))
  else if it.left = 0 then (it, none)
  else
    match if it.ok then rdPair it.bytes else .short with
    | .got (gap, len) rest =>
      let hi := gapOf it.lo gap
      let lo := difference64 hi len
      ({ it with bytes := rest, hi := hi, lo := lo, left := it.left - 1 }, some (lo, hi))
    | _ => ({ it with ok := false }, none)

/-- Call after call, up to `calls` of them: the ranges given, and whether the last call said there are no more. -/
def ackWalk : Nat → AckIter → List (Nat × Nat) × Bool
  | 0, _ => ([], false)
  | calls + 1, it =>
    match quicAckNext it with
    | (_, none) => ([], true)
    | (it, some range) => (range :: (ackWalk calls it).1, (ackWalk calls it).2)

/-- Ranges below one that begins at `last`. -/
def Below (last : Nat) (ranges : List (Nat × Nat)) : Prop := ∀ range ∈ ranges, range.2 + 2 ≤ last

variable {last : Nat}

theorem gap_exact {other : Nat} (small : last < u64End) (less : other + 2 ≤ last) :
    gapOf last other = last - other - 2 := by
  unfold gapOf
  rw [difference64_exact (by omega) small, difference64_exact (by omega) (by omega)]

theorem walk_first (calls : Nat) {it : AckIter} (first : it.first = true) : ackWalk (calls + 1) it =
      ((it.lo, it.hi) :: (ackWalk calls { it with first := false }).1, (ackWalk calls { it with first := false }).2) := by
  rw [ackWalk, quicAckNext, if_pos first]

theorem walk_done (calls : Nat) {it : AckIter} (notFirst : it.first = false) (none_ : it.left = 0) :
    ackWalk (calls + 1) it = ([], true) := by
  rw [ackWalk, quicAckNext, notFirst, if_neg Bool.false_ne_true, if_pos none_]

variable {rest : List Byte}

theorem walk_pair (calls : Nat) {it : AckIter} {gap len : Nat} (notFirst : it.first = false)
    (ok : it.ok = true) (some_ : it.left ≠ 0) (read : rdPair it.bytes = .got (gap, len) rest)
    (small : it.lo < u64End) (enough : gap + len + 2 ≤ it.lo) : ackWalk (calls + 1) it =
      ((it.lo - gap - 2 - len, it.lo - gap - 2) :: (ackWalk calls
            { it with bytes := rest, hi := it.lo - gap - 2, lo := it.lo - gap - 2 - len, left := it.left - 1 }).1,
        (ackWalk calls
          { it with bytes := rest, hi := it.lo - gap - 2, lo := it.lo - gap - 2 - len, left := it.left - 1 }).2) := by
  have hi : gapOf it.lo gap = it.lo - gap - 2 := gap_exact small (by omega)
  have lo : difference64 (it.lo - gap - 2) len = it.lo - gap - 2 - len := difference64_exact (by omega) (by omega)
  rw [ackWalk, quicAckNext, notFirst, if_neg Bool.false_ne_true, if_neg some_, ok, if_pos rfl, read]
  simp only [hi, lo]

theorem checked_walk (left turns lo : Nat) (input rest : List Byte) (small : lo < u64End)
    (checked : (ackLoop left turns lo input).2 = .got () rest) :
    ∃ taken, input = taken ++ rest ∧ ∀ calls hi, left < calls → ∃ ranges,
      ackWalk calls { bytes := taken, ok := true, hi := hi, lo := lo, left := left, first := false } = (ranges, true) ∧
        ranges.length = left ∧ Descending ranges ∧ Below lo ranges := by
  induction left generalizing turns lo input with
  | zero =>
    cases checked
    refine ⟨[], rfl, fun calls hi more => ⟨[], ?_, rfl, trivial, nofun⟩⟩
    obtain ⟨calls, rfl⟩ : ∃ less, calls = less + 1 := ⟨calls - 1, by omega⟩
    exact walk_done calls rfl rfl
  | succ left ih =>
    rw [ackLoop] at checked
    cases scanned : rdPair input with
    | short => rw [scanned] at checked; cases checked
    | bad fault => rw [scanned] at checked; cases checked
    | got pair between =>
      obtain ⟨gap, len⟩ := pair
      rw [scanned] at checked
      simp only at checked
      split at checked
      · cases checked
      split at checked
      · cases checked
      obtain ⟨taken, rfl, walks⟩ := ih (turns + 1) (lo - gap - 2 - len) between (by omega) checked
      obtain ⟨front, whole⟩ := settled_pair.steady.suffix _ _ _ scanned
      subst whole
      rw [← append_assoc] at scanned
      refine ⟨front ++ taken, (append_assoc _ _ _).symm, fun calls hi more => ?_⟩
      obtain ⟨calls, rfl⟩ : ∃ less, calls = less + 1 := ⟨calls - 1, by omega⟩
      obtain ⟨ranges, walked, length, descending, below⟩ := walks calls (lo - gap - 2) (by omega)
      refine ⟨(lo - gap - 2 - len, lo - gap - 2) :: ranges, ?_, ?_, ⟨?_, below, descending⟩, ?_⟩
      · rw [walk_pair calls rfl rfl (Nat.succ_ne_zero left) (settled_pair.tight _ _ _ _ scanned) small
          (show gap + len + 2 ≤ lo by omega)]
        simp only [Nat.add_sub_cancel, walked]
      · rw [length_cons, length]
      · exact Nat.sub_le _ _
      intro range member
      cases member with
      | head => simp only; omega
      | tail _ inner =>
        have here := below range inner
        omega

variable {input : List Byte}

theorem ack_body_facts {f f' : QuicFrame} {ecn : Bool} (read : ackBody f ecn input = .got f' rest) :
    f'.firstRange ≤ f'.largest ∧ f'.largest ≤ quicVarintMax ∧ ∃ start after,
      (ackLoop f'.rangeCount 0 (f'.largest - f'.firstRange) start).2 = .got () after ∧
        f'.ranges = start.take (start.length - after.length) := by
  obtain ⟨largest, _, largestSmall, -, read⟩ := then_read read
  obtain ⟨ackDelay, _, -, -, read⟩ := then_read read
  obtain ⟨rangeCount, _, -, -, read⟩ := then_read read
  obtain ⟨firstRange, start, -, -, read⟩ := then_read read
  obtain ⟨ordered, read⟩ := guard_scanned read
  obtain ⟨ranges, after, rangesRead, read⟩ := bind_scanned read
  obtain ⟨counts, _, -, read⟩ := bind_scanned read
  cases read
  unfold rdRanges at rangesRead
  cases looped : (ackLoop rangeCount 0 (largest - firstRange) start).2 with
  | short | bad => rw [looped] at rangesRead; cases rangesRead
  | got done between =>
    rw [looped] at rangesRead
    cases rangesRead
    exact ⟨le_of_not_gt ordered, largestSmall, start, _, looped, rfl⟩

theorem accepted_walk {f f' : QuicFrame} {ecn : Bool} (read : ackBody f ecn input = .got f' rest) :
    ∃ ranges, ackWalk (f'.rangeCount + 2) (quicAckIter f') = (ranges, true) ∧ ranges.length = f'.rangeCount + 1 ∧
      Descending ranges ∧ ranges.head? = some (f'.largest - f'.firstRange, f'.largest) := by
  obtain ⟨ordered, small, start, after, looped, bytes⟩ := ack_body_facts read
  have below : f'.largest < u64End := lt_of_le_of_lt small (by decide)
  have first : difference64 f'.largest f'.firstRange = f'.largest - f'.firstRange := difference64_exact ordered below
  obtain ⟨taken, rfl, walks⟩ := checked_walk _ _ _ _ _ (by omega) looped
  rw [length_append, Nat.add_sub_cancel, take_left' rfl] at bytes
  obtain ⟨ranges, walked, length, descending, under⟩ := walks (f'.rangeCount + 1) f'.largest (Nat.lt_succ_self _)
  refine ⟨(f'.largest - f'.firstRange, f'.largest) :: ranges, ?_, ?_, ⟨Nat.sub_le _ _, under, descending⟩, rfl⟩
  · rw [walk_first _ rfl]
    simp only [quicAckIter, first, bytes, walked]
  · rw [length_cons, length]

def pairBytes : Nat → List (Nat × Nat) → List Byte
  | _, [] => []
  | last, (lo, hi) :: rest => quicVarintPut (last - hi - 2) ++ (quicVarintPut (hi - lo) ++ pairBytes lo rest)

variable {ranges : List (Nat × Nat)}

theorem pair_form (small : last ≤ quicVarintMax) (descending : Descending ranges)
    (below : Below last ranges) : formOf (pairPuts last ranges) = some (pairBytes last ranges) := by
  induction ranges generalizing last with
  | nil => rfl
  | cons range rest ih =>
    obtain ⟨lo, hi⟩ := range
    obtain ⟨ordered, under, later⟩ := descending
    have here := below (lo, hi) mem_cons_self
    dsimp only at ordered under here
    have word : last < u64End := lt_of_le_of_lt small (by decide)
    rw [pairPuts, pairBytes, gap_exact word here, difference64_exact ordered (by omega)]
    exact form_varint (by omega) (form_varint (by omega) (ih (by omega) later under))

theorem pair_put {gap len : Nat} (gapSmall : gap ≤ quicVarintMax) (lenSmall : len ≤ quicVarintMax) (more : List Byte) :
    rdPair (quicVarintPut gap ++ (quicVarintPut len ++ more)) = .got (gap, len) more := by
  unfold rdPair
  rw [rd_varint_then gapSmall, rd_varint_then lenSmall]
  rfl

theorem loop_pairs (turns : Nat) (more : List Byte) (small : last ≤ quicVarintMax)
    (descending : Descending ranges) (below : Below last ranges) :
    ackLoop ranges.length turns last (pairBytes last ranges ++ more) = (turns + ranges.length, .got () more) := by
  induction ranges generalizing last turns with
  | nil => rfl
  | cons range rest ih =>
    obtain ⟨lo, hi⟩ := range
    obtain ⟨ordered, under, later⟩ := descending
    have here := below (lo, hi) mem_cons_self
    dsimp only at ordered under here
    have top : last - (last - hi - 2) - 2 = hi := by omega
    have bottom : hi - (hi - lo) = lo := by omega
    rw [length_cons, pairBytes, append_assoc, append_assoc, ackLoop, pair_put (by omega) (by omega)]
    simp only [top, bottom]
    rw [if_neg (by omega), if_neg (by omega), ih (turns + 1) (by omega) later under]
    rw [Nat.add_right_comm, add_assoc]

theorem walk_pairs (calls hi : Nat) (enough : ranges.length < calls)
    (small : last ≤ quicVarintMax) (descending : Descending ranges) (below : Below last ranges) :
    ackWalk calls { bytes := pairBytes last ranges, ok := true, hi := hi, lo := last, left := ranges.length, first := false } =
      (ranges, true) := by
  induction ranges generalizing last calls hi with
  | nil =>
    obtain ⟨calls, rfl⟩ : ∃ less, calls = less + 1 := ⟨calls - 1, by omega⟩
    exact walk_done calls rfl rfl
  | cons range rest ih =>
    obtain ⟨calls, rfl⟩ : ∃ less, calls = less + 1 := ⟨calls - 1, by omega⟩
    obtain ⟨lo, high⟩ := range
    obtain ⟨ordered, under, later⟩ := descending
    have here := below (lo, high) mem_cons_self
    dsimp only at ordered under here
    rw [length_cons] at enough
    have top : last - (last - high - 2) - 2 = high := by omega
    have bottom : high - (high - lo) = lo := by omega
    have word : last < u64End := lt_of_le_of_lt small (by decide)
    have read := @pair_put (last - high - 2) (high - lo) (by omega) (by omega) (pairBytes lo rest)
    have walked := ih calls high (by omega) (by omega) later under
    rw [walk_pair calls rfl rfl (Nat.succ_ne_zero rest.length) read word
      (show last - high - 2 + (high - lo) + 2 ≤ last by omega)]
    simp only [top, bottom, length_cons, Nat.add_sub_cancel, walked]

def Encodable (ackDelay : Nat) (ecn : Option (Nat × Nat × Nat)) : Prop :=
  ackDelay ≤ quicVarintMax ∧ ∀ counts, ecn = some counts →
    counts.1 ≤ quicVarintMax ∧ counts.2.1 ≤ quicVarintMax ∧ counts.2.2 ≤ quicVarintMax

def ecnBytes : Option (Nat × Nat × Nat) → List Byte
  | none => []
  | some (ect0, ect1, ce) => quicVarintPut ect0 ++ (quicVarintPut ect1 ++ quicVarintPut ce)

theorem ecn_form {ackDelay : Nat} {ecn : Option (Nat × Nat × Nat)} (encodable : Encodable ackDelay ecn) :
    formOf (ecnPuts ecn) = some (ecnBytes ecn) := by
  cases ecn with
  | none => rfl
  | some counts =>
    obtain ⟨first, second, third⟩ := encodable.2 counts rfl
    exact form_varint first (form_varint second (form_last_varint third))

def ackBytes (lo hi : Nat) (further : List (Nat × Nat)) (ackDelay : Nat) (ecn : Option (Nat × Nat × Nat)) : List Byte :=
  quicVarintPut (ackType ecn) ++ (quicVarintPut hi ++ (quicVarintPut ackDelay ++ (quicVarintPut further.length ++
    (quicVarintPut (hi - lo) ++ (pairBytes lo further ++ ecnBytes ecn)))))

def ackFrame (lo hi : Nat) (further : List (Nat × Nat)) (ackDelay : Nat) (ecn : Option (Nat × Nat × Nat)) : QuicFrame :=
  { zeroFrame with
    type := ackType ecn, largest := hi, ackDelay := ackDelay, rangeCount := further.length, firstRange := hi - lo
    ranges := pairBytes lo further, ecn := ecn.getD (0, 0, 0) }

theorem below_length (descending : Descending ranges) (below : Below last ranges) : 2 * ranges.length ≤ last := by
  induction ranges generalizing last with
  | nil => exact Nat.zero_le _
  | cons range rest ih =>
    obtain ⟨ordered, under, later⟩ := descending
    have here := below range mem_cons_self
    have rest_ := ih later under
    rw [length_cons]
    omega

section Written

variable {lo hi : Nat} {further : List (Nat × Nat)} {ackDelay : Nat} {ecn : Option (Nat × Nat × Nat)}
  (small : hi ≤ quicVarintMax) (descending : Descending ((lo, hi) :: further)) (encodable : Encodable ackDelay ecn)

include small descending encodable

theorem ack_form : formOf (ackPuts lo hi further ackDelay ecn) = some (ackBytes lo hi further ackDelay ecn) := by
  obtain ⟨ordered, under, later⟩ := descending
  dsimp only at ordered under
  have few := below_length later under
  have typeSmall : ackType ecn ≤ quicVarintMax := by
    unfold ackType
    split <;> decide
  unfold ackPuts ackBytes
  rw [difference64_exact ordered (lt_of_le_of_lt small (by decide)), append_assoc]
  simp only [cons_append, nil_append]
  exact form_varint typeSmall (form_varint small (form_varint encodable.1 (form_varint (by omega) (form_varint (by omega)
    (form_append (pair_form (by omega) later under) (ecn_form encodable))))))

theorem ack_reads (more : List Byte) :
    quicFrameRead (ackBytes lo hi further ackDelay ecn ++ more) = .ok (ackFrame lo hi further ackDelay ecn, more) := by
  obtain ⟨ordered, under, later⟩ := descending
  dsimp only at ordered under
  have few := below_length later under
  have bottom : hi - (hi - lo) = lo := by omega
  have typeSmall : ackType ecn ≤ quicVarintMax := by
    unfold ackType
    split <;> decide
  have ranges (after : List Byte) :
      rdRanges further.length lo (pairBytes lo further ++ after) = .got (pairBytes lo further) after := by
    unfold rdRanges
    rw [loop_pairs 0 after (by omega) later under]
    simp only [length_append, Nat.add_sub_cancel, take_left]
  have body (f : QuicFrame) : ackBody f ecn.isSome (quicVarintPut hi ++ (quicVarintPut ackDelay ++
      (quicVarintPut further.length ++ (quicVarintPut (hi - lo) ++ (pairBytes lo further ++ (ecnBytes ecn ++ more)))))) =
      .got { f with
        largest := hi, ackDelay := ackDelay, rangeCount := further.length, firstRange := hi - lo
        ranges := pairBytes lo further, ecn := ecn.getD (0, 0, 0) } more := by
    unfold ackBody
    rw [rd_varint_then small, rd_varint_then encodable.1, rd_varint_then (by omega), rd_varint_then (by omega),
      if_neg (by omega), bottom, bind_got (ranges _)]
    cases ecn with
    | none => rfl
    | some counts =>
      obtain ⟨first, second, third⟩ := encodable.2 counts rfl
      have read : rdEcn (ecnBytes (some counts) ++ more) = .got counts more := by
        unfold rdEcn ecnBytes
        rw [append_assoc, append_assoc, rd_varint_then first, rd_varint_then second, rd_varint_then third]
        rfl
      rw [Option.isSome_some, cond_true, bind_got read]
      rfl
  unfold ackBytes
  refine frame_read_put typeSmall ?_
  simp only [append_assoc]
  cases ecn with
  | none | some => exact body _

end Written

theorem ack_length (lo hi : Nat) (further : List (Nat × Nat)) (ackDelay : Nat) (ecn : Option (Nat × Nat × Nat)) :
    (ackBytes lo hi further ackDelay ecn).length =
      1 + quicVarintLen hi + quicVarintLen ackDelay + quicVarintLen (hi - lo) + ecnNeed ecn +
        quicVarintLen further.length + (pairBytes lo further).length := by
  have typeLength : quicVarintLen (ackType ecn) = 1 := by
    unfold ackType
    split <;> rfl
  have ecnLength : (ecnBytes ecn).length = ecnNeed ecn := by
    cases ecn with
    | none => rfl
    | some counts =>
      simp only [ecnBytes, ecnNeed, length_append, varint_put_length]
      omega
  unfold ackBytes
  simp only [length_append, varint_put_length, typeLength, ecnLength]
  omega

theorem fit_spec (need room k pairs : Nat) (small : last ≤ quicVarintMax)
    (descending : Descending ranges) (below : Below last ranges) :
    ∃ j ≤ ranges.length, ackFit need room last ranges k pairs = (k + j, pairs + (pairBytes last (ranges.take j)).length) ∧
      (∀ i, 1 ≤ i → i ≤ j → need + quicVarintLen (k + i) + pairs + (pairBytes last (ranges.take i)).length ≤ room) ∧
      (j < ranges.length →
        room < need + quicVarintLen (k + (j + 1)) + pairs + (pairBytes last (ranges.take (j + 1))).length) := by
  induction ranges generalizing last k pairs with
  | nil => exact ⟨0, le_refl 0, rfl, fun i positive least => absurd (positive.trans least) (by decide), nofun⟩
  | cons range rest ih =>
    obtain ⟨lo, hi⟩ := range
    obtain ⟨ordered, under, later⟩ := descending
    have here := below (lo, hi) mem_cons_self
    dsimp only at ordered under here
    have word : last < u64End := lt_of_le_of_lt small (by decide)
    have more (j : Nat) : (pairBytes last (((lo, hi) :: rest).take (j + 1))).length =
        quicVarintLen (last - hi - 2) + quicVarintLen (hi - lo) + (pairBytes lo (rest.take j)).length := by
      rw [take_succ_cons, pairBytes]
      simp only [length_append, varint_put_length]
      omega
    have one := more 0
    rw [take_zero] at one
    simp only [pairBytes, length_nil, add_zero] at one
    rw [ackFit, gap_exact word here, difference64_exact ordered (by omega)]
    split
    next full =>
      refine ⟨0, Nat.zero_le _, rfl, fun i positive least => absurd (positive.trans least) (by decide), fun _ => ?_⟩
      rw [one]
      omega
    rename_i fits
    obtain ⟨j, few, fit, each, next⟩ := ih (k + 1) (pairs + (quicVarintLen (last - hi - 2) + quicVarintLen (hi - lo)))
      (by omega) later under
    refine ⟨j + 1, Nat.succ_le_succ few, ?_, ?_, ?_⟩
    · rw [fit, more]
      congr 1 <;> omega
    · intro i positive least
      obtain ⟨i, rfl⟩ : ∃ less, i = less + 1 := ⟨i - 1, by omega⟩
      rw [more]
      by_cases first : i = 0
      · rw [first, take_zero]
        simp only [pairBytes, length_nil, zero_add]
        omega
      have inner := each i (by omega) (by omega)
      rw [show k + (i + 1) = k + 1 + i by omega]
      omega
    intro less
    rw [length_cons] at less
    have inner := next (by omega)
    rw [more, show k + (j + 1 + 1) = k + 1 + (j + 1) by omega]
    omega

theorem pair_length_mono (last) (ranges : List (Nat × Nat)) {few many : Nat} (ordered : few ≤ many) :
    (pairBytes last (ranges.take few)).length ≤ (pairBytes last (ranges.take many)).length := by
  induction ranges generalizing last few many with
  | nil => rw [take_nil, take_nil]
  | cons range rest ih =>
    obtain ⟨lo, hi⟩ := range
    cases few with
    | zero => exact Nat.zero_le _
    | succ few =>
      obtain ⟨many, rfl⟩ : ∃ less, many = less + 1 := ⟨many - 1, by omega⟩
      have inner := ih lo (Nat.le_of_succ_le_succ ordered)
      rw [take_succ_cons, take_succ_cons, pairBytes, pairBytes]
      simp only [length_append]
      omega

section Fitting

variable {lo hi : Nat} {further : List (Nat × Nat)} (ackDelay : Nat) (ecn : Option (Nat × Nat × Nat))

theorem ack_length_mono (few_ : further.length ≤ quicVarintMax) {few many : Nat} (ordered : few ≤ many) :
    (ackBytes lo hi (further.take few) ackDelay ecn).length ≤ (ackBytes lo hi (further.take many) ackDelay ecn).length := by
  have pairs := pair_length_mono lo further ordered
  have counts : quicVarintLen (further.take few).length ≤ quicVarintLen (further.take many).length := by
    rw [length_take, length_take]
    exact varint_len_mono (by omega) (by omega)
  rw [ack_length, ack_length]
  omega

end Fitting

theorem descending_take (descending : Descending ranges) (m : Nat) : Descending (ranges.take m) := by
  induction ranges generalizing m with
  | nil =>
    rw [take_nil]
    trivial
  | cons range rest ih =>
    cases m with
    | zero => trivial
    | succ m => exact ⟨descending.1, fun next member => descending.2.1 next (mem_of_mem_take member), ih descending.2.2 m⟩

theorem ack_put_spec {w : Writer} {lo hi : Nat} {further : List (Nat × Nat)} {ackDelay : Nat}
    {ecn : Option (Nat × Nat × Nat)} (ok : w.ok = true) (small : hi ≤ quicVarintMax)
    (descending : Descending ((lo, hi) :: further)) (encodable : Encodable ackDelay ecn) : ∃ n ≤ further.length + 1,
      (∀ m, m ≤ further.length → ((ackBytes lo hi (further.take m) ackDelay ecn).length ≤ w.cap - w.out.length ↔ m < n)) ∧
      quicAckPutEcn w ((lo, hi) :: further) ackDelay ecn =
        if n = 0 then (w, 0) else ({ w with out := w.out ++ ackBytes lo hi (further.take (n - 1)) ackDelay ecn }, n) := by
  have ⟨ordered, under, later⟩ := descending
  dsimp only at ordered under
  have few := below_length later under
  have word : hi < u64End := lt_of_le_of_lt small (by decide)
  let room := w.cap - w.out.length
  let need := 1 + quicVarintLen hi + quicVarintLen ackDelay + quicVarintLen (hi - lo) + ecnNeed ecn
  obtain ⟨j, fewer, fit, each, next⟩ := fit_spec need room 0 0 (show lo ≤ quicVarintMax by omega) later under
  have sizes (m : Nat) (less : m ≤ further.length) : (ackBytes lo hi (further.take m) ackDelay ecn).length =
      need + quicVarintLen m + (pairBytes lo (further.take m)).length := by
    rw [ack_length, length_take_of_le less]
  have more {few many : Nat} (ordered : few ≤ many) :=
    @ack_length_mono lo hi further ackDelay ecn (by omega) few many ordered
  simp only [zero_add, add_zero] at fit each next
  rw [quicAckPutEcn, ok, if_neg (by decide), difference64_exact ordered word]
  simp only
  rw [show ackFit (1 + quicVarintLen hi + quicVarintLen ackDelay + quicVarintLen (hi - lo) + ecnNeed ecn)
    (w.cap - w.out.length) lo further 0 0 = (j, (pairBytes lo (further.take j)).length) from fit]
  simp only
  rw [show 1 + quicVarintLen hi + quicVarintLen ackDelay + quicVarintLen (hi - lo) + ecnNeed ecn +
    quicVarintLen j + (pairBytes lo (further.take j)).length = (ackBytes lo hi (further.take j) ackDelay ecn).length from
      (sizes j fewer).symm]
  split
  next full =>
    have none_ : j = 0 := by
      rcases Nat.eq_zero_or_pos j with zero | positive
      · exact zero
      have fits := each j positive (le_refl j)
      rw [← sizes j fewer] at fits
      omega
    subst none_
    refine ⟨0, Nat.zero_le _, fun m less => ⟨fun fits => ?_, nofun⟩, rfl⟩
    have least := more (Nat.zero_le m)
    omega
  rename_i fits
  refine ⟨j + 1, by omega, fun m less => ⟨fun small_ => ?_, fun least => ?_⟩, ?_⟩
  · by_contra beyond
    have over_ := next (by omega)
    rw [← sizes (j + 1) (by omega)] at over_
    have least := more (show j + 1 ≤ m by omega)
    omega
  · have least_ := more (show m ≤ j by omega)
    omega
  have part : Descending ((lo, hi) :: further.take j) := descending_take descending (j + 1)
  rw [puts_fit ok (ack_form small part encodable) (by omega), if_neg (Nat.succ_ne_zero j), if_pos ok, Nat.add_sub_cancel, ok]

theorem ack_put_refused {w : Writer} {lo hi : Nat} {further : List (Nat × Nat)} {ackDelay : Nat}
    {ecn : Option (Nat × Nat × Nat)} (large : ¬(hi ≤ quicVarintMax ∧ Encodable ackDelay ecn)) :
    (quicAckPutEcn w ((lo, hi) :: further) ackDelay ecn).2 = 0 := by
  have refused (k : List (Nat × Nat)) : ∃ put ∈ ackPuts lo hi k ackDelay ecn, put.form = none := by
    have wide {v : Nat} (large : ¬v ≤ quicVarintMax) : (Put.varint v).form = none := if_neg large
    unfold ackPuts
    by_cases number : hi ≤ quicVarintMax
    · by_cases delay : ackDelay ≤ quicVarintMax
      · cases ecn with
        | none => exact absurd ⟨number, delay, nofun⟩ large
        | some counts =>
          by_cases first : counts.1 ≤ quicVarintMax
          · by_cases second : counts.2.1 ≤ quicVarintMax
            · by_cases third : counts.2.2 ≤ quicVarintMax
              · refine absurd ⟨number, delay, fun same is => ?_⟩ large
                cases is
                exact ⟨first, second, third⟩
              · exact ⟨_, mem_append_right _ (by simp [ecnPuts]), wide third⟩
            · exact ⟨_, mem_append_right _ (by simp [ecnPuts]), wide second⟩
          · exact ⟨_, mem_append_right _ (by simp [ecnPuts]), wide first⟩
      · exact ⟨.varint ackDelay, by simp, wide delay⟩
    · exact ⟨.varint hi, by simp, wide number⟩
  rw [quicAckPutEcn]
  split
  · rfl
  simp only
  split
  · rfl
  rw [puts_refused (.inr (refused _))]
  rfl

def ackOf (ranges : List (Nat × Nat)) (ackDelay : Nat) (ecn : Option (Nat × Nat × Nat)) : List Byte :=
  match ranges with
  | [] => []
  | (lo, hi) :: further => ackBytes lo hi further ackDelay ecn

theorem ack_of_walk {ackDelay : Nat} {ecn : Option (Nat × Nat × Nat)}
    (small : ∀ range ∈ ranges, range.2 ≤ quicVarintMax) (descending : Descending ranges)
    (encodable : Encodable ackDelay ecn) (some_ : ranges ≠ []) (more : List Byte) :
    ∃ f, quicFrameRead (ackOf ranges ackDelay ecn ++ more) = .ok (f, more) ∧ f.type = ackType ecn ∧
      f.ackDelay = ackDelay ∧ f.ecn = ecn.getD (0, 0, 0) ∧ f.rangeCount + 1 = ranges.length ∧
      ackWalk (ranges.length + 1) (quicAckIter f) = (ranges, true) := by
  cases ranges with
  | nil => exact absurd rfl some_
  | cons range further =>
    obtain ⟨lo, hi⟩ := range
    have top := small (lo, hi) mem_cons_self
    dsimp only at top
    refine ⟨_, ack_reads top descending encodable more, rfl, rfl, rfl, rfl, ?_⟩
    obtain ⟨ordered, under, later⟩ := descending
    dsimp only at ordered under
    have first : difference64 hi (hi - lo) = lo := by
      rw [difference64_exact (by omega) (lt_of_le_of_lt top (by decide))]
      omega
    rw [walk_first _ rfl]
    simp only [quicAckIter, ackFrame, first, length_cons]
    rw [walk_pairs _ _ (Nat.lt_succ_self _) (by omega) later under]

theorem frame_read_walk {f : QuicFrame} (read : quicFrameRead input = .ok (f, rest))
    (ack : f.type = 0x02 ∨ f.type = 0x03) :
    ∃ ranges, ackWalk (f.rangeCount + 2) (quicAckIter f) = (ranges, true) ∧ ranges.length = f.rangeCount + 1 ∧
      Descending ranges ∧ ranges.head? = some (f.largest - f.firstRange, f.largest) := by
  obtain ⟨type, between, scanned, -⟩ := frame_read_onward read
  unfold frameBody at scanned
  cases typed : frameTypeOf type with
  | none => rw [typed] at scanned; cases scanned
  | some kind =>
    rw [typed] at scanned
    simp only at scanned
    have kept := body_type type _ kind _ _ _ scanned
    have small : type < 31 := (List.getElem?_eq_some_iff.mp typed).1
    have plain : f.type = type := by
      rw [kept]
      simp only
      split
      next streams =>
        rw [kept] at ack
        simp only [if_pos streams] at ack
        omega
      · rfl
    rw [plain] at ack
    have kinds : frameTypeOf 0x02 = some .ack ∧ frameTypeOf 0x03 = some .ackEcn := ⟨rfl, rfl⟩
    cases ack with
    | inl bare =>
      subst bare
      cases typed.symm.trans kinds.1
      exact accepted_walk scanned
    | inr counted =>
      subst counted
      cases typed.symm.trans kinds.2
      exact accepted_walk scanned

/-- The first ranges of a list, as many as fit the room, are written; what is read of them is walked as those ranges. -/
theorem ack_ranges_round_trip :
    (∀ (w : Writer) (ranges : List (Nat × Nat)) (ackDelay : Nat) (ecn : Option (Nat × Nat × Nat)), w.ok = true →
      Descending ranges → let n := (quicAckPutEcn w ranges ackDelay ecn).2
      let small := (∀ range ∈ ranges, range.2 ≤ quicVarintMax) ∧ Encodable ackDelay ecn
      (small → n ≤ ranges.length ∧ (∀ m, 1 ≤ m → m ≤ ranges.length →
          ((ackOf (ranges.take m) ackDelay ecn).length ≤ w.cap - w.out.length ↔ m ≤ n)) ∧
        (n = 0 → (quicAckPutEcn w ranges ackDelay ecn).1 = w) ∧
        (n ≠ 0 → (quicAckPutEcn w ranges ackDelay ecn).1 = { w with out := w.out ++ ackOf (ranges.take n) ackDelay ecn } ∧
          ∀ more, ∃ f, quicFrameRead (ackOf (ranges.take n) ackDelay ecn ++ more) = .ok (f, more) ∧
            f.type = ackType ecn ∧ f.ackDelay = ackDelay ∧ f.ecn = ecn.getD (0, 0, 0) ∧ f.rangeCount + 1 = n ∧
            ackWalk (n + 1) (quicAckIter f) = (ranges.take n, true))) ∧
      (¬small → n = 0)) ∧
    ∀ input rest f, quicFrameRead input = .ok (f, rest) → f.type = 0x02 ∨ f.type = 0x03 →
      ∃ ranges, ackWalk (f.rangeCount + 2) (quicAckIter f) = (ranges, true) ∧ ranges.length = f.rangeCount + 1 ∧
        Descending ranges ∧ ranges.head? = some (f.largest - f.firstRange, f.largest) := by
  refine ⟨fun w ranges ackDelay ecn ok descending => ⟨fun small => ?_, fun large => ?_⟩,
    fun input rest f read ack => frame_read_walk read ack⟩
  · obtain ⟨numbers, encodable⟩ := small
    cases ranges with
    | nil =>
      exact ⟨le_refl 0, fun m positive least => absurd (positive.trans least) (by decide), fun _ => rfl,
        fun some_ => absurd rfl some_⟩
    | cons range further =>
      obtain ⟨lo, hi⟩ := range
      obtain ⟨n, few, most, put⟩ := ack_put_spec ok (numbers (lo, hi) mem_cons_self) descending encodable
      have count : (quicAckPutEcn w ((lo, hi) :: further) ackDelay ecn).2 = n := by
        rw [put]
        split
        next zero =>
          exact zero.symm
        · rfl
      rw [count]
      refine ⟨few, fun m positive least => ?_, fun zero => ?_, fun positive => ?_⟩
      · obtain ⟨m, rfl⟩ : ∃ less, m = less + 1 := ⟨m - 1, by omega⟩
        rw [take_succ_cons]
        exact most m (Nat.le_of_succ_le_succ least)
      · rw [put, if_pos zero]
      obtain ⟨n, rfl⟩ : ∃ less, n = less + 1 := ⟨n - 1, by omega⟩
      have part := descending_take descending (n + 1)
      have walks := ack_of_walk (fun next member => numbers next (mem_of_mem_take member)) part encodable
        (cons_ne_nil _ _)
      rw [length_take_of_le few] at walks
      refine ⟨?_, walks⟩
      rw [put, if_neg positive, take_succ_cons, Nat.add_sub_cancel]
      rfl
  · cases ranges with
    | nil => rfl
    | cons range further =>
      obtain ⟨lo, hi⟩ := range
      refine ack_put_refused fun all => large ⟨fun next member => ?_, all.2⟩
      cases member with
      | head => exact all.1
      | tail _ member =>
        have under := descending.2.1 next member
        have ordered := descending.1
        have top := all.1
        dsimp only at under ordered
        omega

/-- Room for two ranges of three. -/
theorem ack_ranges_round_trip_short : ∃ f, quicFrameRead [0x02, 0x1e, 0x05, 0x01, 0x00, 0x07, 0x02, 0x01] = .ok (f, [0x01]) ∧
    ackWalk 3 (quicAckIter f) = ([(30, 30), (19, 21)], true) := by
  obtain ⟨-, -, -, written⟩ :=
    (ack_ranges_round_trip.1 ⟨[], 8, true⟩ [(30, 30), (19, 21), (2, 4)] 5 none rfl (by simp [Descending])).1
      ⟨by decide, by decide, nofun⟩
  obtain ⟨f, read, -, -, -, -, walked⟩ := (written (by decide)).2 [0x01]
  exact ⟨f, read, walked⟩

end ProvenC.Quic.AckCodec
