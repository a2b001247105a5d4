import ProvenC.Quic.Queues

/-!
# What a send queue keeps

Of a queue's bytes each that was sent is acknowledged, is lost and waits, or is told by nobody but the
packet it was put in.
-/

namespace ProvenC.Quic.Sending

open Bytes Quic.RangeSet Quic.Buffers Quic.Queues

structure Sound (q : SendQ) : Prop where
  baseNext : q.base ≤ q.next
  nextEnd : q.next ≤ q.end_
  lostApart : Apart q.lost
  ackedApart : Apart q.acked
  lostEnds : EndsBy q.lost q.next
  ackedEnds : EndsBy q.acked q.next
  ackedAbove : ∀ r ∈ q.acked, q.base < r.lo

theorem empty_sound : Sound SendQ.empty :=
  ⟨le_rfl, le_rfl, True.intro, True.intro, nofun, nofun, nofun⟩

variable {q : SendQ}

theorem write_sound (sound : Sound q) (junk : Nat → Byte) (p : List Byte) : Sound (sendqWrite junk q p) :=
  ⟨sound.baseNext, sound.nextEnd.trans (Nat.le_add_right _ _), sound.lostApart, sound.ackedApart, sound.lostEnds,
    sound.ackedEnds, sound.ackedAbove⟩

theorem ended_sound (sound : Sound q) (fin : Bool) : Sound { q with fin := fin } :=
  ⟨sound.baseNext, sound.nextEnd, sound.lostApart, sound.ackedApart, sound.lostEnds, sound.ackedEnds, sound.ackedAbove⟩

theorem let_go_sound (q) : Sound { sendqFree q with base := q.next, end_ := q.next } :=
  ⟨le_rfl, le_rfl, True.intro, True.intro, nofun, nofun, nofun⟩

theorem free_sound (sound : Sound q) : Sound (sendqFree q) :=
  ⟨sound.baseNext, sound.nextEnd, True.intro, True.intro, nofun, nofun, nofun⟩

variable {off len : Nat}

theorem send_part (past : ¬off + len ≤ q.base) : q.base ≤ (sendqPart q off len).1 ∧ off ≤ (sendqPart q off len).1 ∧
      (sendqPart q off len).1 + (sendqPart q off len).2 = off + len ∧
      ∀ n, q.base ≤ n → off ≤ n → (sendqPart q off len).1 ≤ n := by
  unfold sendqPart
  split
  next before =>
    exact ⟨le_rfl, before.le, by dsimp only; omega, fun n above _ => above⟩
  rename_i inside
  exact ⟨by dsimp only; omega, le_rfl, rfl, fun n _ above => above⟩

@[simp] theorem acked_next (q) (off len : Nat) (fin : Bool) : (sendqAcked q off len fin).next = q.next := by
  have advanced (q : SendQ) : (sendqAdvance q).next = q.next := by
    unfold sendqAdvance
    split
    · rfl
    · split <;> rfl
  cases fin with
  | false =>
    simp only [sendqAcked, Bool.false_eq_true, if_false]
    split
    · rfl
    · exact advanced _
  | true =>
    simp only [sendqAcked, if_true]
    split
    · rfl
    · exact advanced _

@[simp] theorem lost_next (q) (off len : Nat) (fin : Bool) : (sendqLost q off len fin).next = q.next := by
  unfold sendqLost
  cases fin && !q.finAcked <;> simp only [Bool.false_eq_true, if_false, if_true] <;> split <;> rfl

/-- The queue itself accounts for a byte that was sent: it is acknowledged, or waits in `lost`. -/
def Has (q : SendQ) (n : Nat) : Prop := n < q.base ∨ InSet n q.acked ∨ InSet n q.lost

theorem advance_spec {q : SendQ} (baseNext : q.base ≤ q.next) (nextEnd : q.next ≤ q.end_) (lostApart : Apart q.lost)
    (ackedApart : Apart q.acked) (lostEnds : EndsBy q.lost q.next) (ackedEnds : EndsBy q.acked q.next)
    (above : ∀ r ∈ q.acked, q.base ≤ r.lo) :
    Sound (sendqAdvance q) ∧ (sendqAdvance q).next = q.next ∧ (sendqAdvance q).end_ = q.end_ ∧
      q.base ≤ (sendqAdvance q).base ∧ ∀ n, Has q n → Has (sendqAdvance q) n := by
  unfold sendqAdvance
  split
  next none_ =>
    refine ⟨⟨baseNext, nextEnd, lostApart, ackedApart, lostEnds, ackedEnds, ?_⟩, rfl, rfl, le_rfl, fun n has => has⟩
    rw [none_]
    exact nofun
  rename_i r rest shape
  have low := above r (by rw [shape]; exact List.mem_cons_self)
  rw [shape] at ackedApart ackedEnds
  have full := ackedApart.1
  split
  next here =>
    have ends := ackedEnds r List.mem_cons_self
    refine ⟨⟨ends, nextEnd, lostApart, apart_tail ackedApart, lostEnds, (ends_by_cons.mp ackedEnds).2, ackedApart.2.1⟩,
      rfl, rfl, by dsimp only; omega, ?_⟩
    rintro n (below | acked | lost)
    · exact .inl (by dsimp only; omega)
    · rw [shape] at acked
      rcases in_cons.mp acked with first | later
      · exact .inl first.2
      · exact .inr (.inl later)
    · exact .inr (.inr lost)
  rename_i hole
  refine ⟨⟨baseNext, nextEnd, lostApart, by rw [shape]; exact ackedApart, lostEnds, by rw [shape]; exact ackedEnds, ?_⟩,
    rfl, rfl, le_rfl, fun n has => has⟩
  intro other member
  rw [shape] at member
  rcases List.mem_cons.mp member with rfl | later
  · omega
  have := ackedApart.2.1 other later
  omega

theorem acked_spec (sound : Sound q) (within : off + len ≤ q.next) (fin : Bool) :
    Sound (sendqAcked q off len fin) ∧ (sendqAcked q off len fin).next = q.next ∧
      (sendqAcked q off len fin).end_ = q.end_ ∧ q.base ≤ (sendqAcked q off len fin).base ∧
      ∀ n, Has q n ∨ (off ≤ n ∧ n < off + len) → Has (sendqAcked q off len fin) n := by
  -- The flag is set first, and nothing below reads it.
  have plain (q : SendQ) (sound : Sound q) (within : off + len ≤ q.next) :
      Sound (sendqAcked q off len false) ∧ (sendqAcked q off len false).next = q.next ∧
        (sendqAcked q off len false).end_ = q.end_ ∧ q.base ≤ (sendqAcked q off len false).base ∧
        ∀ n, Has q n ∨ (off ≤ n ∧ n < off + len) → Has (sendqAcked q off len false) n := by
    simp only [sendqAcked, Bool.false_eq_true, if_false]
    split
    next passed =>
      refine ⟨sound, rfl, rfl, le_rfl, ?_⟩
      rintro n (has | inside)
      · exact has
      · exact .inl (by omega)
    rename_i past
    obtain ⟨low, later, end_, inside⟩ := send_part past
    generalize sendqPart q off len = part at low later end_ inside
    obtain ⟨from_, count⟩ := part
    dsimp only at low later end_ inside ⊢
    have members := in_add sound.ackedApart from_ (from_ + count)
    have left := in_remove sound.lostApart from_ (from_ + count)
    obtain ⟨kept, next, ends, base, has⟩ := @advance_spec
      { q with acked := rsetAdd q.acked from_ (from_ + count), lost := rsetRemove q.lost from_ (from_ + count) }
      sound.baseNext sound.nextEnd (remove_apart sound.lostApart _ _) (add_apart sound.ackedApart _ _)
      (remove_ends sound.lostEnds _ _) (add_ends sound.ackedEnds (by rw [end_]; exact within))
      (add_above (fun r member => (sound.ackedAbove r member).le) low)
    refine ⟨kept, next, ends, base, fun n known => has n ?_⟩
    by_cases below : n < q.base
    · exact .inl below
    by_cases acked : from_ ≤ n ∧ n < from_ + count
    · exact .inr (.inl ((members n).mpr (.inr acked)))
    rcases known with (before | acked_ | lost) | piece
    · exact absurd before below
    · exact .inr (.inl ((members n).mpr (.inl acked_)))
    · exact .inr (.inr ((left n).mpr ⟨lost, by omega⟩))
    have := inside n (by omega) piece.1
    omega
  cases fin with
  | false => exact plain q sound within
  | true =>
    have flagged : Sound { q with finAcked := true } :=
      ⟨sound.baseNext, sound.nextEnd, sound.lostApart, sound.ackedApart, sound.lostEnds, sound.ackedEnds, sound.ackedAbove⟩
    exact plain { q with finAcked := true } flagged within

theorem lost_spec (sound : Sound q) (within : off + len ≤ q.next) (fin : Bool) :
    Sound (sendqLost q off len fin) ∧ (sendqLost q off len fin).next = q.next ∧
      (sendqLost q off len fin).acked = q.acked ∧
      ∀ n, Has q n ∨ (off ≤ n ∧ n < off + len) → Has (sendqLost q off len fin) n := by
  have plain (q : SendQ) (sound : Sound q) (within : off + len ≤ q.next) :
      Sound (sendqLost q off len false) ∧ (sendqLost q off len false).next = q.next ∧
        (sendqLost q off len false).acked = q.acked ∧
        ∀ n, Has q n ∨ (off ≤ n ∧ n < off + len) → Has (sendqLost q off len false) n := by
    simp only [sendqLost, Bool.false_and, Bool.false_eq_true, if_false]
    split
    next passed =>
      refine ⟨sound, rfl, rfl, ?_⟩
      rintro n (has | inside)
      · exact has
      · exact .inl (by omega)
    rename_i past
    obtain ⟨low, later, end_, inside⟩ := send_part past
    generalize sendqPart q off len = part at low later end_ inside
    obtain ⟨from_, count⟩ := part
    dsimp only at low later end_ inside ⊢
    have members := in_add sound.lostApart from_ (from_ + count)
    refine ⟨⟨sound.baseNext, sound.nextEnd, add_apart sound.lostApart _ _, sound.ackedApart,
      add_ends sound.lostEnds (by rw [end_]; exact within), sound.ackedEnds, sound.ackedAbove⟩, rfl, rfl, ?_⟩
    rintro n ((below | acked | lost) | piece)
    · exact .inl below
    · exact .inr (.inl acked)
    · exact .inr (.inr ((members n).mpr (.inl lost)))
    by_cases below : n < q.base
    · exact .inl below
    have first := inside n (by omega) piece.1
    exact .inr (.inr ((members n).mpr (.inr ⟨first, by omega⟩)))
  cases flagged : fin && !q.finAcked with
  | false =>
    have same : sendqLost q off len fin = sendqLost q off len false := by
      unfold sendqLost
      rw [flagged, Bool.false_and]
    rw [same]
    exact plain q sound within
  | true =>
    have same : sendqLost q off len fin = sendqLost { q with finLost := true } off len false := by
      unfold sendqLost
      rw [flagged]
      rfl
    have marked : Sound { q with finLost := true } :=
      ⟨sound.baseNext, sound.nextEnd, sound.lostApart, sound.ackedApart, sound.lostEnds, sound.ackedEnds, sound.ackedAbove⟩
    rw [same]
    exact plain { q with finLost := true } marked within

theorem remove_each {lost : List QRange} (apart : Apart lost) (acked : List QRange) (n : Nat) :
    Apart (acked.foldl (fun lost r => rsetRemove lost r.lo r.hi) lost) ∧
      (InSet n lost → InSet n acked ∨ InSet n (acked.foldl (fun lost r => rsetRemove lost r.lo r.hi) lost)) := by
  induction acked generalizing lost with
  | nil => exact ⟨apart, .inr⟩
  | cons r rest ih =>
    obtain ⟨kept, later⟩ := ih (remove_apart apart r.lo r.hi)
    refine ⟨kept, fun waits => ?_⟩
    by_cases inside : r.lo ≤ n ∧ n < r.hi
    · exact .inl (in_cons.mpr (.inl inside))
    rcases later ((in_remove apart r.lo r.hi n).mpr ⟨waits, by omega⟩) with acked | lost
    · exact .inl (in_cons.mpr (.inr acked))
    · exact .inr lost

theorem remove_each_ends {lost : List QRange} {bound : Nat} (ends : EndsBy lost bound) (acked : List QRange) :
    EndsBy (acked.foldl (fun lost r => rsetRemove lost r.lo r.hi) lost) bound := by
  induction acked generalizing lost with
  | nil => exact ends
  | cons r rest ih => exact ih (remove_ends ends r.lo r.hi)

theorem resend_spec (sound : Sound q) : Sound (sendqResendAll q) ∧ ∀ n < q.next, Has (sendqResendAll q) n := by
  have whole : Apart (if q.base < q.next then rsetAdd q.lost q.base q.next else q.lost) ∧
      EndsBy (if q.base < q.next then rsetAdd q.lost q.base q.next else q.lost) q.next ∧
      ∀ n, q.base ≤ n → n < q.next → InSet n (if q.base < q.next then rsetAdd q.lost q.base q.next else q.lost) := by
    split
    · exact ⟨add_apart sound.lostApart _ _, add_ends sound.lostEnds le_rfl,
        fun n low high => (in_add sound.lostApart _ _ n).mpr (.inr ⟨low, high⟩)⟩
    · exact ⟨sound.lostApart, sound.lostEnds, fun n low high => by omega⟩
  obtain ⟨apart, ends, all⟩ := whole
  refine ⟨⟨sound.baseNext, sound.nextEnd, (remove_each apart q.acked 0).1, sound.ackedApart, remove_each_ends ends q.acked,
    sound.ackedEnds, sound.ackedAbove⟩, fun n sent => ?_⟩
  by_cases below : n < q.base
  · exact .inl below
  · exact .inr ((remove_each apart q.acked n).2 (all n (by omega) sent))

theorem sent_spec (sound : Sound q) (within : off + len ≤ q.end_) (fin : Bool) :
    Sound (sendqSent q off len fin) ∧ (sendqSent q off len fin).next = max q.next (off + len) ∧
      ∀ n, Has q n → Has (sendqSent q off len fin) n ∨ (off ≤ n ∧ n < off + len) := by
  have grown : q.next ≤ max q.next (off + len) := le_max_left _ _
  have most : max q.next (off + len) ≤ q.end_ := max_le sound.nextEnd within
  have left := in_remove sound.lostApart off (off + len)
  have plain (n : Nat) (has : Has q n) :
      (n < q.base ∨ InSet n q.acked ∨ InSet n (rsetRemove q.lost off (off + len))) ∨ (off ≤ n ∧ n < off + len) := by
    rcases has with below | acked | lost
    · exact .inl (.inl below)
    · exact .inl (.inr (.inl acked))
    by_cases inside : off ≤ n ∧ n < off + len
    · exact .inr inside
    · exact .inl (.inr (.inr ((left n).mpr ⟨lost, by omega⟩)))
  unfold sendqSent
  cases fin <;>
    exact ⟨⟨sound.baseNext.trans grown, most, remove_apart sound.lostApart _ _, sound.ackedApart,
      remove_ends (ends_by_mono sound.lostEnds grown) _ _, ends_by_mono sound.ackedEnds grown, sound.ackedAbove⟩, rfl, plain⟩

structure Offered (q : SendQ) (limit : Nat) (piece : Piece) : Prop where
  low : q.base ≤ piece.off
  high : piece.off + piece.len ≤ q.end_
  unacked : ∀ n, piece.off ≤ n → n < piece.off + piece.len → ¬ InSet n q.acked
  fresh : piece.fresh = true → piece.off = q.next ∧ piece.off + piece.len ≤ limit
  again : piece.fresh = false → piece.off + piece.len ≤ q.next
  ends : piece.fin = true → piece.off + piece.len = q.end_
  unwrapped : 0 < piece.len → piece.len ≤ sendqContig q piece.off

theorem next_lost_offered (sound : Sound q) {room limit : Nat} {ranges : List QRange} {piece : Piece}
    (ends : EndsBy ranges q.next) (given : sendqNextLost q room ranges = some (some piece)) : Offered q limit piece := by
  induction ranges with
  | nil => cases given
  | cons r rest ih =>
    have bounded := ends_by_cons.mp ends
    have gap := first_gap_spec sound.ackedApart (max r.lo q.base) r.hi
    rw [sendqNextLost] at given
    split at given
    · exact ih bounded.2 given
    rename_i a b found
    rw [found] at gap
    obtain ⟨low, some_, high, free⟩ := gap
    rw [Option.some.injEq] at given
    split at given
    · rw [Option.some.injEq] at given
      subst given
      have short : min (min (b - a) room) (sendqContig q a) ≤ b - a := (min_le_left _ _).trans (min_le_left _ _)
      have written := sound.nextEnd
      refine
        { low := by dsimp only; omega, high := by dsimp only; omega, unacked := fun n from_ below => ?_
          fresh := fun wrong => (by cases wrong), again := fun _ => by dsimp only; omega, ends := fun last => ?_
          unwrapped := fun _ => min_le_right _ _ }
      · dsimp only at from_ below
        exact free n from_ (by omega)
      simp only [Bool.and_eq_true, beq_iff_eq] at last
      exact last.1.2
    · cases given

theorem next_offered (sound : Sound q) {room limit : Nat} {piece : Piece}
    (given : sendqNext q room limit = some piece) : Offered q limit piece := by
  have sent := sound.baseNext
  have written := sound.nextEnd
  unfold sendqNext at given
  split at given
  next decided =>
    subst given
    exact next_lost_offered sound sound.lostEnds decided
  dsimp only at given
  split at given
  next more =>
    rw [Option.some.injEq] at given
    subst given
    have short : min (min (min q.end_ limit - q.next) room) (sendqContig q q.next) ≤ min q.end_ limit - q.next :=
      (min_le_left _ _).trans (min_le_left _ _)
    have bounds : min q.end_ limit ≤ q.end_ ∧ min q.end_ limit ≤ limit := ⟨min_le_left _ _, min_le_right _ _⟩
    refine
      { low := sent, high := by dsimp only; omega, unacked := fun n from_ _ acked => ?_
        fresh := fun _ => ⟨rfl, by dsimp only; omega⟩, again := nofun, ends := fun last => ?_
        unwrapped := fun _ => min_le_right _ _ }
    · have below := in_below sound.ackedEnds acked
      dsimp only at from_
      omega
    simp only [Bool.and_eq_true, beq_iff_eq] at last
    exact last.2
  split at given
  next last =>
    simp only [Bool.and_eq_true, beq_iff_eq] at last
    rw [Option.some.injEq] at given
    subst given
    have all := last.1.1.2
    exact
      { low := by dsimp only; omega, high := by dsimp only; omega, unacked := fun n from_ below => by dsimp only at *; omega
        fresh := nofun, again := fun _ => by dsimp only; omega, ends := fun _ => rfl
        unwrapped := fun some_ => absurd some_ (by dsimp only; omega) }
  · cases given

/-- The ring holds what was written from `base` on. -/
structure Holds (content : Nat → Byte) (q : SendQ) : Prop where
  fits : q.buf.Fits
  length : q.base + q.buf.len = q.end_
  bytes : ∀ i < q.buf.len, q.buf.at i = content (q.base + i)

end ProvenC.Quic.Sending
