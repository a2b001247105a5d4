import ProvenC.Hpack.Coding
import ProvenC.Hpack.Encoder
import ProvenC.Lib.Appending

/-!
# Integers and strings in the output

A short string is coded in place, behind the byte its length will take, and given up where that stops being shorter: what
was stored by then lies where the plain form goes.
-/

namespace ProvenC.Hpack.Writing

open Bytes Lib.Cells Lib.Appending
open Hpack.Integer Hpack.Huffman Hpack.Coding Hpack.Encoder

/-- `hp_put_int` at the place of the output. -/
def putInt (out : Output Byte) (width first v : Nat) : Output Byte := put out (hpPutInt width first v)

def putPlain (out : Output Byte) (s : List Byte) : Output Byte := put (putInt out 7 0 s.length) s

/-- `hp_put_string` with what it stores. -/
def hpPutStringInto (out : Output Byte) (s : List Byte) : Output Byte :=
  if 2 ≤ s.length ∧ s.length ≤ 127 then
    let (coded, bytes) := hpHuffmanWrite s (s.length - 1)
    let cells := storedAll out.cells (out.place + 1) bytes
    if coded ≠ 0 then ⟨stored cells out.place (byteOf (128 + coded)), out.place + (1 + coded)⟩
    else putPlain ⟨cells, out.place⟩ s
  else if 127 < s.length then
    let coded := hpackHuffmanSize s
    if coded < s.length then
      let out := putInt out 7 128 coded
      let (coded, bytes) := hpHuffmanWrite s coded
      ⟨storedAll out.cells out.place bytes, out.place + coded⟩
    else putPlain out s
  else putPlain out s

theorem put_int_rest_length (left extra : Nat) {v : Nat} (fits : v < 128 ^ (left + 1)) :
    (hpPutIntRest (left + extra) v).length ≤ left + 1 := by
  induction left generalizing v with
  | zero =>
    have small : ¬128 ≤ v := by
      rw [Nat.zero_add, pow_one] at fits
      omega
    cases extra with
    | zero => exact Nat.le_refl _
    | succ extra =>
      rw [Nat.zero_add, hpPutIntRest, if_neg small]
      exact Nat.le_refl _
  | succ left ih =>
    rw [Nat.add_right_comm left 1 extra, hpPutIntRest]
    split
    · have less := @ih (v / 128) (by rw [pow_succ] at fits; omega)
      rw [List.length_cons]
      omega
    rw [List.length_singleton]
    omega

theorem put_int_length {width first v : Nat} (fits : v < hpIntLimit width) :
    (hpPutInt width first v).length ≤ hpIntSize := by
  have size : hpIntSize = 6 := rfl
  unfold hpIntLimit at fits
  unfold hpPutInt
  simp only
  split
  · rw [List.length_singleton]
    omega
  have rest : (hpPutIntRest 9 (v - (2 ^ width - 1))).length ≤ 5 :=
    put_int_rest_length 4 5 (by norm_num at fits ⊢; omega)
  rw [List.length_cons, size]
  omega

theorem put_int_nothing {width first : Nat} (wide : 0 < 2 ^ width - 1) : (hpPutInt width first 0).length = 1 := by
  unfold hpPutInt
  simp only
  rw [if_pos wide, List.length_singleton]

theorem wrote_int (out : Output Byte) {width first v : Nat} (fits : v < hpIntLimit width) :
    Wrote out (putInt out width first v) (hpPutInt width first v) hpIntSize :=
  (wrote_put out _).further (put_int_length fits)

theorem wrote_plain (out : Output Byte) {s : List Byte} (short : s.length < hpIntLimit 7) :
    Wrote out (putPlain out s) (hpPutInt 7 0 s.length ++ s) (hpIntSize + s.length) :=
  (wrote_int out short).next (wrote_put _ s)

theorem wrote_string (out : Output Byte) {s : List Byte} (short : s.length < hpIntLimit 7) :
    Wrote out (hpPutStringInto out s) (hpPutString s) (hpIntSize + s.length) := by
  have size : hpIntSize = 6 := rfl
  unfold hpPutStringInto hpPutString
  simp only
  split
  next some_ =>
    obtain ⟨within, result, same⟩ := huffman_write_spec s (s.length - 1)
    have spec := huffman_put_spec s (s.length - 1)
    have nonzero : 0 < hpackHuffmanSize s := huffman_size_positive (by rintro rfl; simp at some_)
    by_cases shorter : hpackHuffmanSize s ≤ s.length - 1
    · rw [if_pos shorter] at result spec
      have length := spec.1
      rw [result, same shorter, length, if_pos (by omega), if_pos (by omega)]
      have inside : ∀ i, i < out.place ∨ out.place + (hpIntSize + s.length) ≤ i →
          stored (storedAll out.cells (out.place + 1) (hpHuffmanPut s (s.length - 1))) out.place
            (byteOf (128 + hpackHuffmanSize s)) i = out.cells i := by
        intro i away
        rw [stored, Function.update_of_ne (by omega), stored_all_outside _ _ _ (by omega)]
      refine ⟨?_, ?_, ?_, inside⟩
      · simp only [List.length_cons, length]
        omega
      · simp only [List.length_cons]
        rw [range_succ, stored, Function.update_self]
        congr 1
        refine Eq.trans (range_eq fun i _ => ?_) (stored_all_range out.cells (out.place + 1) _)
        exact Function.update_of_ne (by omega) _ _
      rw [List.length_cons, length]
      omega
    rw [if_neg shorter] at result spec
    rw [result, spec, if_neg (by simp), if_neg (by simp)]
    refine @Wrote.instead _ out _ _ _ _ (wrote_plain _ short) fun i away => ?_
    exact stored_all_outside _ _ _ (by omega)
  split
  · split
    next shorter =>
      obtain ⟨-, result, same⟩ := huffman_write_spec s (hpackHuffmanSize s)
      rw [if_pos (Nat.le_refl _)] at result
      have length := coded_length s
      unfold coded at length
      rw [result, same (Nat.le_refl _)]
      have behind := wrote_put (putInt out 7 128 (hpackHuffmanSize s)) (hpHuffmanPut s (hpackHuffmanSize s))
      unfold put at behind
      rw [length] at behind
      refine (wrote_int out (by omega)).next (behind.further ?_)
      omega
    · exact wrote_plain out short
  · exact wrote_plain out short

end ProvenC.Hpack.Writing
