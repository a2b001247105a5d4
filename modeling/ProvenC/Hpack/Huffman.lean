import ProvenC.Hpack.Tables
import ProvenC.Lib.BitString

/-!
# Huffman coding of strings

The writer gathers codes in a 64-bit register and lets them go four bytes at a time; the reader keeps up
to 64 bits and finds a short code by one look in a table, a longer one by its length.
-/

namespace ProvenC.Hpack.Huffman

open List Bytes Lib.BitString
open Hpack.Tables

def huffmanCode (byte : Byte) : Nat := (hpackHuffman.getD byte.val (0, 0)).1
def huffmanBits (byte : Byte) : Nat := (hpackHuffman.getD byte.val (0, 0)).2

/-- `proven_hpack_huffman_size`: how many bytes `text` takes coded. -/
def hpackHuffmanSize (text : List Byte) : Nat :=
  ((text.map huffmanBits).sum + 7) / 8

/-- What `hp_huffman_put` carries along: its register and the bytes written so far. -/
structure PutState where
  acc : Nat
  held : Nat
  out : List Byte

def huffmanPutByte (limit : Nat) (state : PutState) (byte : Byte) : Option PutState :=
  let acc := (state.acc * 2 ^ huffmanBits byte + huffmanCode byte) % 2 ^ 64
  let held := state.held + huffmanBits byte
  if 32 ≤ held then
    if limit - state.out.length < 4 then none
    else
      let w := acc / 2 ^ (held - 32) % 2 ^ 32
      some { acc := acc
             held := held - 32
             out := state.out ++ [byteOf (w / 2 ^ 24), byteOf (w / 2 ^ 16), byteOf (w / 2 ^ 8), byteOf w] }
  else some { acc := acc, held := held, out := state.out }

def huffmanPutAll (limit : Nat) : PutState → List Byte → Option PutState
  | state, [] => some state
  | state, byte :: rest =>
    match huffmanPutByte limit state byte with
    | none => none
    | some next => huffmanPutAll limit next rest

/-- The whole bytes left in the register, highest first; `spare` bits stay below them. -/
def huffmanFlush (acc spare : Nat) : Nat → List Byte
  | 0 => []
  | whole + 1 => byteOf (acc / 2 ^ (8 * whole + spare)) :: huffmanFlush acc spare whole

def huffmanPad (acc held : Nat) : List Byte :=
  if 0 < held then [byteOf (acc * 2 ^ (8 - held) % 2 ^ 8 + 255 / 2 ^ held)] else []

/-- `hp_huffman_put`: the coded form of `text` when it takes at most `limit` bytes, and
nothing otherwise. -/
def hpHuffmanPut (text : List Byte) (limit : Nat) : List Byte :=
  match huffmanPutAll limit { acc := 0, held := 0, out := [] } text with
  | none => []
  | some state =>
    if limit - state.out.length < (state.held + 7) / 8 then []
    else state.out ++ huffmanFlush state.acc (state.held % 8) (state.held / 8) ++ huffmanPad state.acc (state.held % 8)

def huffmanRefill : List Byte → Nat → Nat → List Byte × Nat × Nat
  | [], acc, bits => ([], acc, bits)
  | byte :: rest, acc, bits =>
    if bits ≤ 56 then huffmanRefill rest ((acc * 2 ^ 8 + byte.val) % 2 ^ 64) (bits + 8)
    else (byte :: rest, acc, bits)

def huffmanNext (acc bits : Nat) : Nat :=
  if 8 ≤ bits then acc / 2 ^ (bits - 8) % 256
  else (acc * 2 ^ (8 - bits) + 255 / 2 ^ bits) % 256

/-- Whether the next `n` bits are a code of that length: its symbol. -/
def huffmanOfLength (acc bits n : Nat) : Option Nat :=
  let code := acc / 2 ^ (bits - n) % 2 ^ n
  let first := hpackHuffmanFirst.getD n 0
  if hpackHuffmanCount.getD n 0 ≠ 0 ∧ first ≤ code ∧ code - first < hpackHuffmanCount.getD n 0 then
    some (hpackHuffmanSorted.getD (hpackHuffmanOffset.getD n 0 + (code - first)) 0)
  else none

def huffmanLonger (acc bits : Nat) : Nat → Nat → Option (Nat × Nat)
  | 0, _ => none
  | tries + 1, n =>
    if n ≤ bits then
      match huffmanOfLength acc bits n with
      | some symbol => some (symbol, n)
      | none => huffmanLonger acc bits tries (n + 1)
    else none

def huffmanSymbol (acc bits : Nat) : Option (Nat × Nat) :=
  let quick := hpackHuffmanFast.getD (huffmanNext acc bits) 0
  if quick ≠ 0 ∧ quick % 16 ≤ bits then some (quick / 16, quick % 16)
  else huffmanLonger acc bits 22 9

/-- The loop of `proven_hpack_huffman_decode`. -/
def huffmanDecodeLoop : Nat → List Byte → Nat → Nat → Nat → Except ProvenErr (List Byte)
  | 0, _, _, _, _ => .error .invalidFormat
  | fuel + 1, input, acc, bits, room =>
    let (input, acc, bits) := huffmanRefill input acc bits
    if bits = 0 then .ok []
    else
      match huffmanSymbol acc bits with
      | none =>
        -- No code here: thirty bits that are none, or the end of the string and its padding.
        if 30 ≤ bits ∨ input ≠ [] then .error .invalidFormat
        else if 7 < bits ∨ acc % 2 ^ bits ≠ 2 ^ bits - 1 then .error .invalidFormat
        else .ok []
      | some (symbol, used) =>
        if symbol = 256 then .error .invalidFormat
        else if room = 0 then .error .outOfBounds
        else
          match huffmanDecodeLoop fuel input acc (bits - used) (room - 1) with
          | .error e => .error e
          | .ok text => .ok (byteOf symbol :: text)

/-- `proven_hpack_huffman_decode` into an output with `room` bytes left: the bytes appended. -/
def hpackHuffmanDecode (coded : List Byte) (room : Nat) : Except ProvenErr (List Byte) :=
  huffmanDecodeLoop (8 * coded.length + 1) coded 0 0 room

theorem code_entry (byte : Byte) : ((huffmanCode byte, huffmanBits byte), byte.val) ∈ hpackHuffman.zipIdx := by
  have length : hpackHuffman.length = 257 := by decide +kernel
  have inside : byte.val < hpackHuffman.length := by omega
  rw [mem_zipIdx_iff_getElem?, huffmanCode, huffmanBits, getD_eq_getElem?_getD, List.getElem?_eq_getElem inside]
  rfl

theorem code_shapes : ∀ entry ∈ hpackHuffman, 5 ≤ entry.2 ∧ entry.2 ≤ 30 ∧ entry.1 < 2 ^ entry.2 := by
  decide +kernel

theorem huffman_code_shape (byte : Byte) :
    5 ≤ huffmanBits byte ∧ huffmanBits byte ≤ 30 ∧ huffmanCode byte < 2 ^ huffmanBits byte :=
  code_shapes _ (fst_mem_of_mem_zipIdx (code_entry byte))

def codeBits (byte : Byte) : List Bool := bitsOfNat (huffmanBits byte) (huffmanCode byte)

def textBits (text : List Byte) : List Bool := text.flatMap codeBits

@[simp] theorem text_bits_nil : textBits [] = [] := rfl

@[simp] theorem text_bits_cons (byte : Byte) (rest : List Byte) :
    textBits (byte :: rest) = codeBits byte ++ textBits rest := rfl

@[simp] theorem text_bits_append (left right : List Byte) :
    textBits (left ++ right) = textBits left ++ textBits right := by
  simp [textBits]

theorem text_bits_length (text : List Byte) : (textBits text).length = (text.map huffmanBits).sum := by
  induction text with
  | nil => rfl
  | cons byte rest ih => simp [ih, codeBits]

structure PutHolds (limit : Nat) (seen : List Byte) (state : PutState) : Prop where
  bits : bitsOfBytes state.out ++ bitsOfNat state.held state.acc = textBits seen
  held_lt : state.held < 32
  out_le : state.out.length ≤ limit

theorem bits_of_word (w : Nat) : bitsOfBytes [byteOf (w / 2 ^ 24), byteOf (w / 2 ^ 16), byteOf (w / 2 ^ 8), byteOf w] =
      bitsOfNat 32 w := by
  have step (low : Nat) : bitsOfNat 8 (byteOf (w / 2 ^ low)).val = bitsOfNat 8 (w / 2 ^ low) :=
    bits_of_nat_mod 8 _
  have last : bitsOfNat 8 (byteOf w).val = bitsOfNat 8 w := bits_of_nat_mod 8 w
  simp only [bits_of_bytes_cons, bits_of_bytes_nil, append_nil, step, last]
  rw [bits_of_nat_add 8 24, bits_of_nat_add 8 16, bits_of_nat_add 8 8]

theorem put_byte_holds {limit : Nat} {seen : List Byte} {state next : PutState} {byte : Byte}
    (holds : PutHolds limit seen state) (put : huffmanPutByte limit state byte = some next) :
    PutHolds limit (seen ++ [byte]) next := by
  obtain ⟨-, longest, fits⟩ := huffman_code_shape byte
  have heldLt := holds.held_lt
  have register : bitsOfNat (state.held + huffmanBits byte)
      ((state.acc * 2 ^ huffmanBits byte + huffmanCode byte) % 2 ^ 64) =
        bitsOfNat state.held state.acc ++ codeBits byte := by
    rw [bits_of_nat_mod_of_le _ (by omega), bits_of_nat_shift_add _ _ _ _ fits, codeBits]
  have whole : bitsOfBytes state.out ++ bitsOfNat (state.held + huffmanBits byte)
      ((state.acc * 2 ^ huffmanBits byte + huffmanCode byte) % 2 ^ 64) = textBits (seen ++ [byte]) := by
    rw [register, ← append_assoc, holds.bits]
    simp
  unfold huffmanPutByte at put
  simp only at put
  split at put
  next enough =>
    split at put
    · contradiction
    · cases put
      refine ⟨?_, by simp only; omega, by simp only [length_append, length_cons, length_nil]; omega⟩
      simp only [bits_of_bytes_append, bits_of_word, append_assoc]
      rw [bits_of_nat_mod, ← bits_of_nat_add, Nat.add_sub_cancel' enough]
      exact whole
  · cases put
    exact ⟨whole, by simp only; omega, holds.out_le⟩

theorem put_byte_none {limit : Nat} {seen : List Byte} {state : PutState} {byte : Byte}
    (holds : PutHolds limit seen state) (put : huffmanPutByte limit state byte = none) :
    8 * limit < (textBits (seen ++ [byte])).length := by
  have length := congrArg List.length holds.bits
  simp only [length_append, bits_of_bytes_length, bits_of_nat_length] at length
  simp only [text_bits_append, length_append, text_bits_cons, text_bits_nil, append_nil, codeBits, bits_of_nat_length]
  unfold huffmanPutByte at put
  simp only at put
  split at put
  · split at put
    · omega
    · contradiction
  · contradiction

theorem put_all_holds {limit : Nat} (text seen : List Byte) (state : PutState) (holds : PutHolds limit seen state) :
    match huffmanPutAll limit state text with
    | some last => PutHolds limit (seen ++ text) last
    | none => 8 * limit < (textBits (seen ++ text)).length := by
  induction text generalizing seen state with
  | nil => simpa [huffmanPutAll] using holds
  | cons byte rest ih =>
    simp only [huffmanPutAll]
    cases put : huffmanPutByte limit state byte with
    | none =>
      have exceeds := put_byte_none holds put
      simp only [text_bits_append, length_append, text_bits_cons, text_bits_nil, length_nil] at exceeds ⊢
      omega
    | some next =>
      have later := ih (seen ++ [byte]) next (put_byte_holds holds put)
      simpa using later

theorem flush_bits (acc spare whole : Nat) :
    bitsOfBytes (huffmanFlush acc spare whole) = bitsOfNat (8 * whole) (acc / 2 ^ spare) := by
  induction whole with
  | zero => rfl
  | succ whole ih =>
    rw [huffmanFlush, bits_of_bytes_cons, ih, Nat.mul_succ, add_comm (8 * whole) 8,
      bits_of_nat_add, Nat.div_div_eq_div_mul, ← pow_add, add_comm spare]
    exact congrArg (· ++ _) (bits_of_nat_mod 8 _)

@[simp] theorem flush_length (acc spare whole : Nat) : (huffmanFlush acc spare whole).length = whole := by
  induction whole with
  | zero => rfl
  | succ whole ih => simp [huffmanFlush, ih]

theorem byte_ones (spare : Nat) (bound : spare < 8) : 255 / 2 ^ spare = 2 ^ (8 - spare) - 1 := by
  interval_cases spare <;> rfl

theorem pad_bits (acc spare : Nat) (bound : spare < 8) : bitsOfBytes (huffmanPad acc spare) =
      bitsOfNat spare acc ++ List.replicate ((8 - spare) % 8) true := by
  unfold huffmanPad
  split
  next positive =>
    have ones : 2 ^ (8 - spare) - 1 < 2 ^ (8 - spare) := Nat.sub_lt (Nat.two_pow_pos _) Nat.one_pos
    have value : bitsOfNat 8 (acc * 2 ^ (8 - spare) % 2 ^ 8 + 255 / 2 ^ spare) =
        bitsOfNat 8 (acc * 2 ^ (8 - spare) + (2 ^ (8 - spare) - 1)) := by
      rw [byte_ones spare bound, ← bits_of_nat_mod 8 (_ % 2 ^ 8 + _), Nat.mod_add_mod, bits_of_nat_mod]
    have split := bits_of_nat_shift_add spare (8 - spare) acc _ ones
    rw [Nat.add_sub_cancel' (le_of_lt bound), ← value] at split
    rw [bits_of_bytes_cons, bits_of_bytes_nil, append_nil,
      Nat.mod_eq_of_lt (show 8 - spare < 8 by omega), ← bits_of_nat_ones (8 - spare), ← split]
    exact bits_of_nat_mod 8 _
  have zero : spare = 0 := by omega
  subst zero
  rfl

@[simp] theorem pad_length (acc spare : Nat) : (huffmanPad acc spare).length = if 0 < spare then 1 else 0 := by
  unfold huffmanPad
  split <;> rfl

theorem huffman_put_spec (text : List Byte) (limit : Nat) : if hpackHuffmanSize text ≤ limit then
      (hpHuffmanPut text limit).length = hpackHuffmanSize text ∧
        ∃ padding, padding < 8 ∧ bitsOfBytes (hpHuffmanPut text limit) = textBits text ++ List.replicate padding true
    else hpHuffmanPut text limit = [] := by
  have start : PutHolds limit [] { acc := 0, held := 0, out := [] } := ⟨rfl, by decide, Nat.zero_le _⟩
  have all : match huffmanPutAll limit { acc := 0, held := 0, out := [] } text with
      | some last => PutHolds limit text last
      | none => 8 * limit < (textBits text).length := put_all_holds text [] _ start
  have size : hpackHuffmanSize text = ((textBits text).length + 7) / 8 := by
    rw [hpackHuffmanSize, text_bits_length]
  unfold hpHuffmanPut
  cases put : huffmanPutAll limit { acc := 0, held := 0, out := [] } text with
  | none =>
    rw [put] at all
    have exceeds : 8 * limit < (textBits text).length := by simpa using all
    rw [if_neg (by omega)]
  | some state =>
    rw [put] at all
    have holds : PutHolds limit text state := by simpa using all
    have length := congrArg List.length holds.bits
    simp only [length_append, bits_of_bytes_length, bits_of_nat_length] at length
    by_cases fits : hpackHuffmanSize text ≤ limit
    · rw [if_pos fits]
      simp only
      rw [if_neg (by omega)]
      constructor
      · simp only [length_append, flush_length, pad_length]
        split <;> omega
      refine ⟨(8 - state.held % 8) % 8, Nat.mod_lt _ (by decide), ?_⟩
      rw [bits_of_bytes_append, bits_of_bytes_append, flush_bits,
        pad_bits _ _ (Nat.mod_lt _ (by decide)), ← append_assoc, append_assoc _ _
          (bitsOfNat _ _), ← bits_of_nat_add, Nat.div_add_mod, holds.bits]
    rw [if_neg fits]
    simp only
    by_cases short : limit - state.out.length < (state.held + 7) / 8
    · rw [if_pos short]
    have outLe := holds.out_le
    omega

theorem refill_spec (input : List Byte) (acc bits : Nat) (bound : bits ≤ 64) : let after := huffmanRefill input acc bits
    bitsOfNat after.2.2 after.2.1 ++ bitsOfBytes after.1 = bitsOfNat bits acc ++ bitsOfBytes input ∧
      after.2.2 ≤ 64 ∧ (after.1 = [] ∨ 57 ≤ after.2.2) := by
  induction input generalizing acc bits with
  | nil => simp [huffmanRefill, bound]
  | cons byte rest ih =>
    simp only [huffmanRefill]
    split
    next room =>
      obtain ⟨same, le, more⟩ := ih ((acc * 2 ^ 8 + byte.val) % 2 ^ 64) (bits + 8) (by omega)
      refine ⟨?_, le, more⟩
      rw [same, bits_of_nat_mod_of_le _ (by omega), bits_of_nat_shift_add _ _ _ _ byte.isLt,
        append_assoc, bits_of_bytes_cons]
    rename_i full
    exact ⟨rfl, bound, Or.inr (by simp only; omega)⟩

theorem huffman_next_bits (acc bits : Nat) : huffmanNext acc bits =
      natOfBits ((bitsOfNat bits acc ++ List.replicate 8 true).take 8) := by
  unfold huffmanNext
  split
  next enough =>
    rw [take_append_of_le_length (by simpa using enough), bits_of_nat_take acc enough, nat_of_bits_of_nat]
    rfl
  rename_i short
  have ones : 2 ^ (8 - bits) - 1 < 2 ^ (8 - bits) := Nat.sub_lt (Nat.two_pow_pos _) Nat.one_pos
  rw [take_append, bits_of_nat_length, take_of_length_le (by simp; omega),
    take_replicate, min_eq_left (by omega), ← bits_of_nat_ones,
    ← bits_of_nat_shift_add _ _ _ _ ones, nat_of_bits_of_nat, Nat.add_sub_cancel' (by omega),
    byte_ones bits (by omega)]
  rfl

/-- The symbol a code of `n` bits names, as the canonical tables have it. -/
def codeSymbol (n code : Nat) : Option Nat :=
  let first := hpackHuffmanFirst.getD n 0
  if hpackHuffmanCount.getD n 0 ≠ 0 ∧ first ≤ code ∧ code - first < hpackHuffmanCount.getD n 0 then
    some (hpackHuffmanSorted.getD (hpackHuffmanOffset.getD n 0 + (code - first)) 0)
  else none

theorem huffman_of_length_bits (acc bits n : Nat) (bound : n ≤ bits) :
    huffmanOfLength acc bits n = codeSymbol n (natOfBits ((bitsOfNat bits acc).take n)) := by
  rw [bits_of_nat_take acc bound, nat_of_bits_of_nat]
  rfl

theorem short_codes : ∀ entry ∈ hpackHuffman.zipIdx, entry.1.2 ≤ 8 →
    (hpackHuffmanFast.drop (entry.1.1 * 2 ^ (8 - entry.1.2))).take (2 ^ (8 - entry.1.2)) =
      List.replicate (2 ^ (8 - entry.1.2)) (entry.2 * 16 + entry.1.2) := by
  decide +kernel

theorem long_codes : ∀ entry ∈ hpackHuffman.zipIdx, 8 < entry.1.2 → 254 ≤ entry.1.1 / 2 ^ (entry.1.2 - 8) ∧
      hpackHuffmanFirst.getD entry.1.2 0 ≤ entry.1.1 ∧ codeSymbol entry.1.2 entry.1.1 = some entry.2 := by
  decide +kernel

theorem canonical_order : ∀ longer < 31, ∀ shorter < longer,
    hpackHuffmanCount.getD longer 0 ≠ 0 → hpackHuffmanCount.getD shorter 0 ≠ 0 →
      (hpackHuffmanFirst.getD shorter 0 + hpackHuffmanCount.getD shorter 0) *
        2 ^ (longer - shorter) ≤ hpackHuffmanFirst.getD longer 0 := by
  decide +kernel

theorem fast_of_short (byte : Byte) (isShort : huffmanBits byte ≤ 8) (low : Nat)
    (bound : low < 2 ^ (8 - huffmanBits byte)) :
    hpackHuffmanFast.getD (huffmanCode byte * 2 ^ (8 - huffmanBits byte) + low) 0 = byte.val * 16 + huffmanBits byte := by
  have run := congrArg (·[low]?) (short_codes _ (code_entry byte) isShort)
  simp only [List.getElem?_take, bound, if_true, List.getElem?_drop, List.getElem?_replicate] at run
  rw [getD_eq_getElem?_getD, run]
  rfl

theorem long_code (byte : Byte) (isLong : 8 < huffmanBits byte) : 254 ≤ huffmanCode byte / 2 ^ (huffmanBits byte - 8) ∧
      hpackHuffmanFirst.getD (huffmanBits byte) 0 ≤ huffmanCode byte ∧
      codeSymbol (huffmanBits byte) (huffmanCode byte) = some byte.val :=
  long_codes _ (code_entry byte) isLong

theorem fast_of_long (byte : Byte) (isLong : 8 < huffmanBits byte) :
    hpackHuffmanFast.getD (huffmanCode byte / 2 ^ (huffmanBits byte - 8)) 0 = 0 := by
  have high := (long_code byte isLong).1
  have low : huffmanCode byte / 2 ^ (huffmanBits byte - 8) < 2 ^ 8 := by
    rw [Nat.div_lt_iff_lt_mul (Nat.two_pow_pos _), ← pow_add, Nat.add_sub_cancel' (by omega)]
    exact (huffman_code_shape byte).2.2
  have zeros : hpackHuffmanFast.getD 254 0 = 0 ∧ hpackHuffmanFast.getD 255 0 = 0 := by
    decide +kernel
  rcases (by omega : huffmanCode byte / 2 ^ (huffmanBits byte - 8) = 254 ∨
    huffmanCode byte / 2 ^ (huffmanBits byte - 8) = 255) with same | same
  · rw [same]; exact zeros.1
  · rw [same]; exact zeros.2

theorem none_of_shorter (byte : Byte) (isLong : 8 < huffmanBits byte) (n : Nat) (bound : n < huffmanBits byte) :
    codeSymbol n (huffmanCode byte / 2 ^ (huffmanBits byte - n)) = none := by
  obtain ⟨-, first, found⟩ := long_code byte isLong
  have present : hpackHuffmanCount.getD (huffmanBits byte) 0 ≠ 0 := by
    intro absent
    rw [codeSymbol, absent] at found
    simp at found
  unfold codeSymbol
  rw [if_neg]
  rintro ⟨some_n, above, below⟩
  have order := canonical_order _ (by have := huffman_code_shape byte; omega) n bound present some_n
  have reached := (Nat.le_div_iff_mul_le (Nat.two_pow_pos (huffmanBits byte - n))).mpr
    (order.trans first)
  omega

theorem longer_finds {acc bits length symbol : Nat} (tries n : Nat) (reach : length < n + tries)
    (from_n : n ≤ length) (present : length ≤ bits) (before : ∀ m, n ≤ m → m < length → huffmanOfLength acc bits m = none)
    (found : huffmanOfLength acc bits length = some symbol) : huffmanLonger acc bits tries n = some (symbol, length) := by
  induction tries generalizing n with
  | zero => omega
  | succ tries ih =>
    rw [huffmanLonger, if_pos (by omega)]
    by_cases here : n = length
    · subst here
      rw [found]
    rw [before n (le_refl _) (by omega)]
    exact ih (n + 1) (by omega) (by omega) (fun m lower upper => before m (by omega) upper)

theorem code_bits_nat (byte : Byte) : natOfBits (codeBits byte) = huffmanCode byte := by
  rw [codeBits, nat_of_bits_of_nat, Nat.mod_eq_of_lt (huffman_code_shape byte).2.2]

@[simp] theorem code_bits_length (byte : Byte) : (codeBits byte).length = huffmanBits byte := by
  simp [codeBits]

theorem symbol_of_code {acc bits : Nat} {byte : Byte} {tail : List Bool}
    (held : bitsOfNat bits acc = codeBits byte ++ tail) : huffmanSymbol acc bits = some (byte.val, huffmanBits byte) := by
  obtain ⟨shortest, longest, -⟩ := huffman_code_shape byte
  have length := congrArg List.length held
  simp only [bits_of_nat_length, length_append, code_bits_length] at length
  have next := huffman_next_bits acc bits
  rw [held, append_assoc] at next
  unfold huffmanSymbol
  by_cases isShort : huffmanBits byte ≤ 8
  · -- The table names the symbol whatever the bits after the code are.
    rw [take_append, code_bits_length, take_of_length_le (by simpa using isShort),
      nat_of_bits_append, code_bits_nat] at next
    have width : ((tail ++ List.replicate 8 true).take (8 - huffmanBits byte)).length = 8 - huffmanBits byte := by
      simp only [length_take, length_append, length_replicate]
      omega
    have low := nat_of_bits_lt ((tail ++ List.replicate 8 true).take (8 - huffmanBits byte))
    rw [width] at low next
    have entry := fast_of_short byte isShort _ low
    rw [← next] at entry
    simp only [entry]
    have remainder : (byte.val * 16 + huffmanBits byte) % 16 = huffmanBits byte := by omega
    have quotient : (byte.val * 16 + huffmanBits byte) / 16 = byte.val := by omega
    rw [remainder, quotient, if_pos ⟨by omega, by omega⟩]
  -- The table has nothing, and neither has any shorter length.
  have isLong : 8 < huffmanBits byte := by omega
  have codeTake (n : Nat) (bound : n ≤ huffmanBits byte) : natOfBits ((bitsOfNat bits acc).take n) =
        huffmanCode byte / 2 ^ (huffmanBits byte - n) := by
    rw [held, take_append_of_le_length (by simpa using bound), codeBits,
      bits_of_nat_take _ bound, nat_of_bits_of_nat, Nat.mod_eq_of_lt]
    rw [Nat.div_lt_iff_lt_mul (Nat.two_pow_pos _), ← pow_add, Nat.add_sub_cancel' bound]
    exact (huffman_code_shape byte).2.2
  have entry : hpackHuffmanFast.getD (huffmanNext acc bits) 0 = 0 := by
    rw [next, take_append_of_le_length (by simp; omega),
      ← @take_append_of_le_length _ _ tail _ (by simp; omega), ← held,
      codeTake 8 (by omega)]
    exact fast_of_long byte isLong
  simp only [entry]
  rw [if_neg (by simp)]
  apply longer_finds 22 9 (by omega) (by omega) (by omega)
  · intro m lower upper
    rw [huffman_of_length_bits acc bits m (by omega), codeTake m (by omega)]
    exact none_of_shorter byte isLong m upper
  rw [huffman_of_length_bits acc bits _ (by omega), codeTake _ (le_refl _), Nat.sub_self,
    pow_zero, Nat.div_one]
  exact (long_code byte isLong).2.2

theorem symbol_of_padding {acc bits : Nat} (bound : bits < 8) (held : bitsOfNat bits acc = List.replicate bits true) :
    huffmanSymbol acc bits = none := by
  have next : huffmanNext acc bits = 255 := by
    rw [huffman_next_bits, held, ← replicate_add, take_replicate, min_eq_left (by omega), nat_of_bits_ones]
    rfl
  have entry : hpackHuffmanFast.getD 255 0 = 0 := by decide +kernel
  unfold huffmanSymbol
  rw [next, entry]
  simp only [ne_eq, not_true_eq_false, false_and, if_false]
  rw [huffmanLonger, if_neg (by omega)]

theorem decode_loop_reads (text : List Byte) (fuel : Nat) (input : List Byte)
    (acc bits padding room : Nat) (fuelEnough : text.length < fuel) (bound : bits ≤ 64)
    (padded : padding < 8) (fits : text.length ≤ room) (held : bitsOfNat bits acc ++ bitsOfBytes input =
      textBits text ++ List.replicate padding true) : huffmanDecodeLoop fuel input acc bits room = .ok text := by
  induction text generalizing fuel input acc bits room with
  | nil =>
    obtain ⟨fuel, rfl⟩ : ∃ less, fuel = less + 1 := ⟨fuel - 1, by simp at fuelEnough; omega⟩
    obtain ⟨same, le, more⟩ := refill_spec input acc bits bound
    rw [huffmanDecodeLoop]
    generalize huffmanRefill input acc bits = after at same le more
    obtain ⟨input', acc', bits'⟩ := after
    simp only at same le more ⊢
    rw [held, text_bits_nil, nil_append] at same
    have length := congrArg List.length same
    simp only [length_append, bits_of_nat_length, bits_of_bytes_length, length_replicate] at length
    have used : input' = [] := by
      rcases more with done | many
      · exact done
      · omega
    subst used
    simp only [length_nil, mul_zero, add_zero] at length
    rw [length] at same ⊢
    rw [bits_of_bytes_nil, append_nil] at same
    by_cases empty : padding = 0
    · rw [if_pos empty]
    have ones : acc' % 2 ^ padding = 2 ^ padding - 1 := by
      rw [← nat_of_bits_of_nat, same, nat_of_bits_ones]
    rw [if_neg empty, symbol_of_padding padded same]
    simp only
    rw [if_neg (by simp; omega), if_neg (by simp [ones]; omega)]
  | cons byte rest ih =>
    obtain ⟨fuel, rfl⟩ : ∃ less, fuel = less + 1 := ⟨fuel - 1, by simp at fuelEnough; omega⟩
    obtain ⟨shortest, longest, -⟩ := huffman_code_shape byte
    obtain ⟨same, le, more⟩ := refill_spec input acc bits bound
    rw [huffmanDecodeLoop]
    generalize huffmanRefill input acc bits = after at same le more
    obtain ⟨input', acc', bits'⟩ := after
    simp only at same le more ⊢
    rw [held, text_bits_cons, append_assoc] at same
    have length := congrArg List.length same
    simp only [length_append, bits_of_nat_length, bits_of_bytes_length, code_bits_length] at length
    have present : huffmanBits byte ≤ bits' := by
      rcases more with done | many
      · subst done
        simp only [length_nil] at length
        omega
      · omega
    have front : (bitsOfNat bits' acc').take (huffmanBits byte) = codeBits byte := by
      have taken := congrArg (List.take (huffmanBits byte)) same
      rwa [take_append_of_le_length (by simpa using present), take_left' (code_bits_length byte)] at taken
    have register : bitsOfNat bits' acc' = codeBits byte ++ (bitsOfNat bits' acc').drop (huffmanBits byte) := by
      rw [← front, take_append_drop]
    rw [if_neg (by omega), symbol_of_code register]
    simp only
    have byteLt := byte.isLt
    simp only [length_cons] at fits fuelEnough
    rw [if_neg (by omega), if_neg (by omega)]
    have later := ih fuel input' acc' (bits' - huffmanBits byte) (room - 1) (by omega) (by omega)
      (by omega) (by
        have dropped := congrArg (List.drop (huffmanBits byte)) same
        rwa [drop_append_of_le_length (by simpa using present), bits_of_nat_drop _ present,
          drop_left' (code_bits_length byte)] at dropped)
    rw [later]
    simp only [byte_of_val_eq]

theorem huffman_roundtrip (text coded : List Byte) (padding room : Nat) (padded : padding < 8)
    (bits : bitsOfBytes coded = textBits text ++ List.replicate padding true) (fits : text.length ≤ room) :
    hpackHuffmanDecode coded room = .ok text := by
  have atLeast : text.length ≤ (textBits text).length := by
    clear bits fits
    induction text with
    | nil => simp
    | cons byte rest ih =>
      have shape := huffman_code_shape byte
      simp only [length_cons, text_bits_cons, length_append, code_bits_length]
      omega
  have length := congrArg List.length bits
  simp only [bits_of_bytes_length, length_append, length_replicate] at length
  exact decode_loop_reads text _ coded 0 0 padding room (by omega) (by omega) padded fits bits

example : hpHuffmanPut (ascii "www.example.com") 12 =
    [0xf1, 0xe3, 0xc2, 0xe5, 0xf2, 0x3a, 0x6b, 0xa0, 0xab, 0x90, 0xf4, 0xff] := by decide +kernel

example : hpackHuffmanDecode
    [0xf1, 0xe3, 0xc2, 0xe5, 0xf2, 0x3a, 0x6b, 0xa0, 0xab, 0x90, 0xf4, 0xff] 15 =
      .ok (ascii "www.example.com") := by decide +kernel

end ProvenC.Hpack.Huffman
