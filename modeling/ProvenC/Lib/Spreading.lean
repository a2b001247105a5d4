import ProvenC.Lib.Cells

/-!
# Pieces moved apart in place

A text stands in cells behind room for one head.
-/

namespace ProvenC.Lib.Spreading

open List Lib.Cells

variable {Value : Type}

section Loop

variable (head : Nat → List Value) (gap size length last start : Nat)

/-- Piece `k` goes to its place and its head before it; the last piece is what is left. -/
def spreadPiece (k : Nat) (cells : Nat → Value) : Nat → Value :=
  let piece := if k = last then length - k * size else size
  let dst := start + k * (size + gap)
  storedAll (moved cells (dst + gap) (start + gap + k * size) piece) dst (head k)

/-- The pieces from `k` down to the second. -/
def spread : Nat → (Nat → Value) → Nat → Value
  | 0, cells => cells
  | k + 1, cells => spread k (spreadPiece head gap size length last start (k + 1) cells)

end Loop

/-- Piece `k` of a text. -/
def pieceOf (text : List Value) (size k : Nat) : List Value := (text.drop (k * size)).take size

/-- The pieces from `k` to the last, each behind its head. -/
def piecesFrom (head : Nat → List Value) (text : List Value) (size last k : Nat) : List Value :=
  (List.range' k (last + 1 - k)).flatMap fun j => head j ++ pieceOf text size j

section Spreading

variable {head : Nat → List Value} {text : List Value} {gap size last start : Nat}

theorem pieces_from_cons {k : Nat} (within : k ≤ last) :
    piecesFrom head text size last k = head k ++ (pieceOf text size k ++ piecesFrom head text size last (k + 1)) := by
  unfold piecesFrom
  rw [show last + 1 - k = last + 1 - (k + 1) + 1 by omega, range'_succ, flatMap_cons, append_assoc]

theorem pieces_from_end : piecesFrom head text size last (last + 1) = [] := by
  unfold piecesFrom
  rw [Nat.sub_self]
  rfl

theorem piece_length (k : Nat) : (pieceOf text size k).length = min size (text.length - k * size) := by
  unfold pieceOf
  rw [length_take, length_drop]

theorem take_piece (k : Nat) : text.take ((k + 1) * size) = text.take (k * size) ++ pieceOf text size k := by
  unfold pieceOf
  rw [Nat.succ_mul, take_add]

theorem pieces_length (heads : ∀ k, (head k).length = gap) (covers : last * size ≤ text.length) (ends : text.length ≤ (last + 1) * size)
    (left : Nat) (within : left ≤ last + 1) :
    (piecesFrom head text size last (last + 1 - left)).length = text.length - (last + 1 - left) * size + gap * left := by
  induction left with
  | zero =>
    rw [Nat.sub_zero, pieces_from_end, length_nil, mul_zero]
    omega
  | succ left ih =>
    have further := ih (by omega)
    obtain ⟨k, place⟩ : ∃ k, k = last + 1 - (left + 1) := ⟨_, rfl⟩
    have next : last + 1 - left = k + 1 := by omega
    have grown : (k + 1) * size = k * size + size := Nat.succ_mul k size
    rw [next] at further
    rw [← place, pieces_from_cons (by omega), length_append, length_append, heads, further, piece_length, Nat.mul_succ]
    by_cases isLast : k = last
    · rw [isLast] at grown ⊢
      omega
    have later : (k + 1) * size ≤ last * size := Nat.mul_le_mul_right _ (by omega)
    omega

theorem pieces_joined (text : List Value) (size n : Nat) : (List.range n).flatMap (pieceOf text size) = text.take (n * size) := by
  induction n with
  | zero => rw [zero_mul]; rfl
  | succ n ih => rw [List.range_succ, flatMap_append, ih, take_piece, flatMap_singleton]

/-- The pieces after `k` are where they belong; those up to `k` are where they were. -/
structure Spread (head : Nat → List Value) (text : List Value) (gap size last start : Nat) (cells : Nat → Value) (k : Nat)
    (made : Nat → Value) : Prop where
  below : ∀ i < start, made i = cells i
  left : range made (start + gap) (min text.length ((k + 1) * size)) = text.take ((k + 1) * size)
  done : range made (start + (k + 1) * (size + gap)) (piecesFrom head text size last (k + 1)).length =
    piecesFrom head text size last (k + 1)

variable {cells made : Nat → Value}

theorem spread_start (written : range cells (start + gap) text.length = text) (ends : text.length ≤ (last + 1) * size) :
    Spread head text gap size last start cells last cells := by
  refine ⟨fun _ _ => rfl, ?_, ?_⟩
  · rw [min_eq_left ends, written, take_of_length_le ends]
  rw [pieces_from_end]
  rfl

theorem spread_step (heads : ∀ k, (head k).length = gap) (covers : last * size ≤ text.length) (ends : text.length ≤ (last + 1) * size)
    {k : Nat} (within : k + 1 ≤ last) (spread_ : Spread head text gap size last start cells (k + 1) made) :
    Spread head text gap size last start cells k (spreadPiece head gap size text.length last start (k + 1) made) := by
  obtain ⟨below, left, done⟩ := spread_
  have shifted : (k + 1) * (size + gap) = (k + 1) * size + k * gap + gap := by ring
  have next : (k + 1 + 1) * (size + gap) = (k + 1) * (size + gap) + gap + size := by ring
  have grown : (k + 1 + 1) * size = (k + 1) * size + size := by ring
  have earlier : (k + 1) * size ≤ last * size := Nat.mul_le_mul_right _ within
  have pieceLength : (if k + 1 = last then text.length - (k + 1) * size else size) = (pieceOf text size (k + 1)).length := by
    rw [piece_length]
    split_ifs with isLast
    · rw [isLast] at grown ⊢
      omega
    have later : (k + 1 + 1) * size ≤ last * size := Nat.mul_le_mul_right _ (by omega)
    omega
  have pieceRange : range made (start + gap + (k + 1) * size) (pieceOf text size (k + 1)).length = pieceOf text size (k + 1) := by
    have parts := @range_append _ made (start + gap) ((k + 1) * size) (pieceOf text size (k + 1)).length
    have whole : min text.length ((k + 1 + 1) * size) = (k + 1) * size + (pieceOf text size (k + 1)).length := by
      rw [piece_length]
      omega
    rw [← whole, left, take_piece (k + 1)] at parts
    have frontLength : (text.take ((k + 1) * size)).length = (range made (start + gap) ((k + 1) * size)).length := by
      rw [length_take, range_length]
      omega
    exact (append_inj parts frontLength).2.symm
  unfold spreadPiece
  rw [pieceLength]
  generalize dstFact : start + (k + 1) * (size + gap) = dst
  have headLength := heads (k + 1)
  have outside {i : Nat} (out : i < dst ∨ dst + gap + (pieceOf text size (k + 1)).length ≤ i) :
      storedAll (moved made (dst + gap) (start + gap + (k + 1) * size) (pieceOf text size (k + 1)).length) dst (head (k + 1)) i =
        made i := by
    rw [stored_all_outside _ _ _ (by omega), moved_outside (by omega)]
  refine ⟨fun i small => (outside (by omega)).trans (below i small), ?_, ?_⟩
  · rw [min_eq_right (earlier.trans covers)]
    have same : range (storedAll (moved made (dst + gap) (start + gap + (k + 1) * size) (pieceOf text size (k + 1)).length) dst
        (head (k + 1))) (start + gap) ((k + 1) * size) = range made (start + gap) ((k + 1) * size) :=
      range_eq fun i inside => outside (by omega)
    have parts := @range_append _ made (start + gap) ((k + 1) * size) (min text.length ((k + 1 + 1) * size) - (k + 1) * size)
    rw [Nat.add_sub_cancel' (by omega), left] at parts
    have front := congrArg (List.take ((k + 1) * size)) parts
    rw [take_take, min_eq_left (by omega), take_left' (range_length _ _)] at front
    rw [same, front]
  have headThere := stored_all_range (moved made (dst + gap) (start + gap + (k + 1) * size) (pieceOf text size (k + 1)).length) dst
    (head (k + 1))
  have pieceThere : range (storedAll (moved made (dst + gap) (start + gap + (k + 1) * size) (pieceOf text size (k + 1)).length) dst
      (head (k + 1))) (dst + gap) (pieceOf text size (k + 1)).length = pieceOf text size (k + 1) := by
    refine Eq.trans (range_eq fun i inside => ?_) pieceRange
    rw [stored_all_outside _ _ _ (by omega), moved_inside inside]
  have restThere : range (storedAll (moved made (dst + gap) (start + gap + (k + 1) * size) (pieceOf text size (k + 1)).length) dst
      (head (k + 1))) (dst + gap + (pieceOf text size (k + 1)).length) (piecesFrom head text size last (k + 1 + 1)).length =
      piecesFrom head text size last (k + 1 + 1) := by
    by_cases isLast : k + 1 = last
    · rw [isLast, pieces_from_end]
      rfl
    have later : (k + 1 + 1) * size ≤ last * size := Nat.mul_le_mul_right _ (by omega)
    have full : (pieceOf text size (k + 1)).length = size := by
      rw [piece_length]
      omega
    refine Eq.trans (range_eq fun i _ => ?_) done
    rw [outside (by omega), full]
    congr 1
    omega
  rw [dstFact, pieces_from_cons within, length_append, length_append, range_append, headThere, headLength, range_append,
    pieceThere, restThere]

theorem spread_all (heads : ∀ k, (head k).length = gap) (covers : last * size ≤ text.length)
    (ends : text.length ≤ (last + 1) * size) (written : range cells (start + gap) text.length = text) :
    (∀ i < start, storedAll (spread head gap size text.length last start last cells) start (head 0) i = cells i) ∧
      range (storedAll (spread head gap size text.length last start last cells) start (head 0)) start
        (piecesFrom head text size last 0).length = piecesFrom head text size last 0 := by
  have all (k : Nat) (within : k ≤ last) {made : Nat → Value} (spread_ : Spread head text gap size last start cells k made) :
      Spread head text gap size last start cells 0 (spread head gap size text.length last start k made) := by
    induction k generalizing made with
    | zero => exact spread_
    | succ k ih => exact ih (by omega) (spread_step heads covers ends within spread_)
  obtain ⟨below, left, done⟩ := all last (le_refl last) (spread_start written ends)
  generalize spread head gap size text.length last start last cells = made at *
  have headLength := heads 0
  rw [zero_add, one_mul] at left done
  have outside {i : Nat} (out : i < start ∨ start + gap ≤ i) : storedAll made start (head 0) i = made i :=
    stored_all_outside _ _ _ (by omega)
  refine ⟨fun i small => (outside (Or.inl small)).trans (below i small), ?_⟩
  have headThere := stored_all_range made start (head 0)
  have firstPiece : pieceOf text size 0 = text.take size := by rw [pieceOf, zero_mul, drop_zero]
  have pieceThere : range (storedAll made start (head 0)) (start + gap) (pieceOf text size 0).length = pieceOf text size 0 := by
    rw [firstPiece, length_take, Nat.min_comm]
    exact Eq.trans (range_eq fun i _ => outside (by omega)) left
  have restThere : range (storedAll made start (head 0)) (start + gap + (pieceOf text size 0).length)
      (piecesFrom head text size last 1).length = piecesFrom head text size last 1 := by
    by_cases only : last = 0
    · rw [only, pieces_from_end]
      rfl
    have full : (pieceOf text size 0).length = size := by
      have several : 1 * size ≤ last * size := Nat.mul_le_mul_right _ (by omega)
      rw [piece_length]
      omega
    refine Eq.trans (range_eq fun i _ => ?_) done
    rw [outside (by omega), full]
    congr 1
    omega
  rw [pieces_from_cons (Nat.zero_le last), length_append, length_append, range_append, headThere, headLength, range_append,
    pieceThere, restThere]

end Spreading

end ProvenC.Lib.Spreading
