import ProvenC.Hpack.Huffman

/-!
# One coded form for each string

The reader takes exactly what the writer writes: the codes of a string, and then fewer than eight
ones. So a string has one coded form and a coded form one string.
-/

namespace ProvenC.Hpack.Coding

open List Bytes Lib.BitString
open Hpack.Tables Hpack.Huffman

/-- `proven_hpack_huffman_encode` into an output with `room` bytes left: the bytes appended. -/
def hpackHuffmanEncode (text : List Byte) (room : Nat) : Except ProvenErr (List Byte) :=
  let need := hpackHuffmanSize text
  if room < need then .error .outOfBounds else .ok (hpHuffmanPut text need)

/-- The loop of `hp_huffman_put`: the state it ends in, as an error when it was given up there. -/
def huffmanWriteAll (limit : Nat) : PutState → List Byte → Except PutState PutState
  | state, [] => .ok state
  | state, byte :: rest =>
    match huffmanPutByte limit state byte with
    | none => .error state
    | some next => huffmanWriteAll limit next rest

/-- `hp_huffman_put` with what it stores, one byte after another from the start of `out`: what
it returns, and the bytes stored by then. -/
def hpHuffmanWrite (text : List Byte) (limit : Nat) : Nat × List Byte :=
  match huffmanWriteAll limit { acc := 0, held := 0, out := [] } text with
  | .error state => (0, state.out)
  | .ok state =>
    if limit - state.out.length < (state.held + 7) / 8 then (0, state.out)
    else
      let out := state.out ++ huffmanFlush state.acc (state.held % 8) (state.held / 8) ++
        huffmanPad state.acc (state.held % 8)
      (out.length, out)

theorem write_all_put (limit : Nat) (text : List Byte) (state : PutState) : huffmanPutAll limit state text =
      match huffmanWriteAll limit state text with
      | .error _ => none
      | .ok last => some last := by
  induction text generalizing state with
  | nil => rfl
  | cons byte rest ih =>
    simp only [huffmanPutAll, huffmanWriteAll]
    cases put : huffmanPutByte limit state byte with
    | none => rfl
    | some next => exact ih next

theorem write_all_within {limit : Nat} (text seen : List Byte) (state : PutState) (holds : PutHolds limit seen state) :
    match huffmanWriteAll limit state text with
    | .error last => last.out.length ≤ limit
    | .ok last => PutHolds limit (seen ++ text) last := by
  induction text generalizing seen state with
  | nil => simpa [huffmanWriteAll] using holds
  | cons byte rest ih =>
    simp only [huffmanWriteAll]
    cases put : huffmanPutByte limit state byte with
    | none => exact holds.out_le
    | some next =>
      have later := ih (seen ++ [byte]) next (put_byte_holds holds put)
      simpa using later

theorem huffman_write_spec (text : List Byte) (limit : Nat) : (hpHuffmanWrite text limit).2.length ≤ limit ∧
      (hpHuffmanWrite text limit).1 = (if hpackHuffmanSize text ≤ limit then hpackHuffmanSize text else 0) ∧
      (hpackHuffmanSize text ≤ limit → (hpHuffmanWrite text limit).2 = hpHuffmanPut text limit) := by
  have start : PutHolds limit [] { acc := 0, held := 0, out := [] } := ⟨rfl, by decide, Nat.zero_le _⟩
  have within := write_all_within text [] _ start
  have same := write_all_put limit text { acc := 0, held := 0, out := [] }
  have spec := huffman_put_spec text limit
  have size : hpackHuffmanSize text = ((textBits text).length + 7) / 8 := by
    rw [hpackHuffmanSize, text_bits_length]
  unfold hpHuffmanPut at spec ⊢
  unfold hpHuffmanWrite
  rw [same] at spec ⊢
  cases wrote : huffmanWriteAll limit { acc := 0, held := 0, out := [] } text with
  | error state =>
    rw [wrote] at within spec same
    have all := put_all_holds text [] _ start
    rw [same] at all
    have exceeds : 8 * limit < (textBits text).length := by simpa using all
    have long : ¬hpackHuffmanSize text ≤ limit := by omega
    exact ⟨within, (if_neg long).symm, fun fits => absurd fits long⟩
  | ok state =>
    rw [wrote] at within spec
    have holds : PutHolds limit text state := by simpa using within
    have length := congrArg List.length holds.bits
    simp only [length_append, bits_of_bytes_length, bits_of_nat_length] at length
    have outLe := holds.out_le
    simp only at spec ⊢
    by_cases short : limit - state.out.length < (state.held + 7) / 8
    · have long : ¬hpackHuffmanSize text ≤ limit := by omega
      simp only [if_pos short, if_neg long]
      exact ⟨outLe, trivial, fun fits => absurd fits long⟩
    have fits : hpackHuffmanSize text ≤ limit := by omega
    rw [if_pos fits, if_neg short] at spec
    simp only [if_neg short, if_pos fits]
    exact ⟨le_trans (le_of_eq spec.1) fits, spec.1, fun _ => trivial⟩

/-- The coded form of a string, as `proven_hpack_huffman_encode` writes it where there is room. -/
def coded (text : List Byte) : List Byte := hpHuffmanPut text (hpackHuffmanSize text)

theorem coded_length (text : List Byte) : (coded text).length = hpackHuffmanSize text := by
  have spec := huffman_put_spec text (hpackHuffmanSize text)
  rw [if_pos (le_refl _)] at spec
  exact spec.1

theorem coded_bits (text : List Byte) :
    ∃ padding, padding < 8 ∧ bitsOfBytes (coded text) = textBits text ++ List.replicate padding true := by
  have spec := huffman_put_spec text (hpackHuffmanSize text)
  rw [if_pos (le_refl _)] at spec
  exact spec.2

theorem huffman_encode_eq (text : List Byte) (room : Nat) :
    hpackHuffmanEncode text room = if room < hpackHuffmanSize text then .error .outOfBounds else .ok (coded text) := rfl

theorem fast_codes : ∀ index < 256, hpackHuffmanFast.getD index 0 ≠ 0 →
    1 ≤ hpackHuffmanFast.getD index 0 % 16 ∧ hpackHuffmanFast.getD index 0 % 16 ≤ 8 ∧
      hpackHuffmanFast.getD index 0 / 16 < 256 ∧ hpackHuffman.getD (hpackHuffmanFast.getD index 0 / 16) (0, 0) =
        (index / 2 ^ (8 - hpackHuffmanFast.getD index 0 % 16), hpackHuffmanFast.getD index 0 % 16) := by
  decide +kernel

theorem sorted_codes : ∀ n < 31, ∀ place < hpackHuffmanCount.getD n 0,
    let symbol := hpackHuffmanSorted.getD (hpackHuffmanOffset.getD n 0 + place) 0
    symbol ≤ 256 ∧ (symbol < 256 → hpackHuffman.getD symbol (0, 0) = (hpackHuffmanFirst.getD n 0 + place, n)) := by
  decide +kernel

theorem code_symbol_sound {n code symbol : Nat} (short : n < 31) (found : codeSymbol n code = some symbol) :
    symbol ≤ 256 ∧ (symbol < 256 → hpackHuffman.getD symbol (0, 0) = (code, n)) := by
  unfold codeSymbol at found
  simp only at found
  split at found
  next inside =>
    obtain ⟨-, first, less⟩ := inside
    have entry := sorted_codes n short _ less
    cases found
    rw [Nat.add_sub_cancel' first] at entry
    exact entry
  · contradiction

theorem huffman_longer_sound {acc bits symbol used : Nat} (tries n : Nat) (short : n + tries ≤ 31)
    (found : huffmanLonger acc bits tries n = some (symbol, used)) :
    n ≤ used ∧ used < 31 ∧ used ≤ bits ∧ huffmanOfLength acc bits used = some symbol := by
  induction tries generalizing n with
  | zero => simp [huffmanLonger] at found
  | succ tries ih =>
    rw [huffmanLonger] at found
    split at found
    next present =>
      cases here : huffmanOfLength acc bits n with
      | some symbol' =>
        rw [here] at found
        cases found
        exact ⟨le_refl _, by omega, present, here⟩
      | none =>
        rw [here] at found
        obtain ⟨from_n, rest⟩ := ih (n + 1) (by omega) found
        exact ⟨by omega, rest⟩
    · contradiction

theorem huffman_symbol_sound {acc bits symbol used : Nat} (found : huffmanSymbol acc bits = some (symbol, used)) :
    symbol ≤ 256 ∧ (symbol < 256 → used ≤ bits ∧ huffmanBits (byteOf symbol) = used ∧
      (bitsOfNat bits acc).take used = codeBits (byteOf symbol)) := by
  have named {n code : Nat} (less : symbol < 256) (entry : hpackHuffman.getD symbol (0, 0) = (code, n)) :
      huffmanBits (byteOf symbol) = n ∧ codeBits (byteOf symbol) = bitsOfNat n code := by
    have value : (byteOf symbol).val = symbol := Nat.mod_eq_of_lt less
    have bits : huffmanBits (byteOf symbol) = n := by rw [huffmanBits, value, entry]
    have code' : huffmanCode (byteOf symbol) = code := by rw [huffmanCode, value, entry]
    exact ⟨bits, by rw [codeBits, bits, code']⟩
  unfold huffmanSymbol at found
  simp only at found
  split at found
  · -- The table: the code stands at the front of the eight bits, whatever filled them out.
    rename_i quick
    obtain ⟨present, enough⟩ := quick
    have next := huffman_next_bits acc bits
    have inside : huffmanNext acc bits < 256 := by
      rw [next]
      have less := nat_of_bits_lt ((bitsOfNat bits acc ++ List.replicate 8 true).take 8)
      rwa [length_take, min_eq_left (by simp)] at less
    obtain ⟨-, width, less, entry⟩ := fast_codes _ inside present
    cases found
    refine ⟨le_of_lt less, fun _ => ⟨enough, (named less entry).1, ?_⟩⟩
    rw [(named less entry).2]
    have front : (bitsOfNat bits acc).take (hpackHuffmanFast.getD (huffmanNext acc bits) 0 % 16) =
        (bitsOfNat 8 (huffmanNext acc bits)).take (hpackHuffmanFast.getD (huffmanNext acc bits) 0 % 16) := by
      have eight : ((bitsOfNat bits acc ++ List.replicate 8 true).take 8).length = 8 := by simp
      have whole : bitsOfNat 8 (huffmanNext acc bits) = (bitsOfNat bits acc ++ List.replicate 8 true).take 8 := by
        have back := bits_of_nat_of_bits ((bitsOfNat bits acc ++ List.replicate 8 true).take 8)
        rwa [eight, ← next] at back
      rw [whole, take_take, min_eq_left width, take_append_of_le_length (by simpa using enough)]
    rw [front, bits_of_nat_take _ width]
  -- A longer code, by its length.
  obtain ⟨-, short, present, here⟩ := huffman_longer_sound 22 9 (by decide) found
  rw [huffman_of_length_bits acc bits used present] at here
  obtain ⟨most, entry⟩ := code_symbol_sound short here
  refine ⟨most, fun less => ⟨present, (named less (entry less)).1, ?_⟩⟩
  rw [(named less (entry less)).2]
  have back := bits_of_nat_of_bits ((bitsOfNat bits acc).take used)
  rw [length_take, bits_of_nat_length, min_eq_left present] at back
  exact back.symm

theorem decode_loop_sound (text : List Byte) (fuel : Nat) (input : List Byte) (acc bits room : Nat)
    (bound : bits ≤ 64) (read : huffmanDecodeLoop fuel input acc bits room = .ok text) :
    text.length ≤ room ∧ ∃ padding, padding < 8 ∧
      bitsOfNat bits acc ++ bitsOfBytes input = textBits text ++ List.replicate padding true := by
  induction fuel generalizing text input acc bits room with
  | zero => simp [huffmanDecodeLoop] at read
  | succ fuel ih =>
    obtain ⟨same, le, more⟩ := refill_spec input acc bits bound
    rw [huffmanDecodeLoop] at read
    generalize huffmanRefill input acc bits = after at same le more read
    obtain ⟨input', acc', bits'⟩ := after
    simp only at same le more read
    split at read
    · -- Nothing is left.
      rename_i zero
      cases read
      subst zero
      have used : input' = [] := by
        cases more with
        | inl used => exact used
        | inr many => omega
      refine ⟨Nat.zero_le _, 0, by decide, ?_⟩
      rw [← same, used]
      rfl
    · cases found : huffmanSymbol acc' bits' with
      | none =>
        -- The padding.
        rw [found] at read
        simp only at read
        split at read
        · contradiction
        rename_i last
        have used : input' = [] := by
          by_contra left
          exact last (Or.inr left)
        split at read
        · contradiction
        rename_i ones
        cases read
        have few : bits' ≤ 7 := by
          by_contra many
          exact ones (Or.inl (by omega))
        have all : acc' % 2 ^ bits' = 2 ^ bits' - 1 := by
          by_contra other
          exact ones (Or.inr other)
        refine ⟨Nat.zero_le _, bits', by omega, ?_⟩
        rw [← same, used, bits_of_bytes_nil, append_nil, ← bits_of_nat_mod, all, bits_of_nat_ones]
        rfl
      | some hit =>
        obtain ⟨symbol, used⟩ := hit
        rw [found] at read
        simp only at read
        obtain ⟨most, sound⟩ := huffman_symbol_sound found
        split at read
        · contradiction
        rename_i notEos
        obtain ⟨present, width, front⟩ := sound (by omega)
        split at read
        · contradiction
        rename_i left
        cases later : huffmanDecodeLoop fuel input' acc' (bits' - used) (room - 1) with
        | error e =>
          rw [later] at read
          contradiction
        | ok rest =>
          rw [later] at read
          cases read
          obtain ⟨fits, padding, small, bitsOf⟩ := ih rest input' acc' _ _ (by omega) later
          refine ⟨by simp only [length_cons]; omega, padding, small, ?_⟩
          rw [← same, text_bits_cons, append_assoc, ← bitsOf, ← front, ← bits_of_nat_drop acc' present,
            ← append_assoc, take_append_drop]

theorem huffman_decode_sound {input text : List Byte} {room : Nat} (read : hpackHuffmanDecode input room = .ok text) :
    text.length ≤ room ∧ ∃ padding, padding < 8 ∧ bitsOfBytes input = textBits text ++ List.replicate padding true :=
  decode_loop_sound text _ input 0 0 room (by decide) read

theorem coded_unique {input text : List Byte} {padding : Nat} (small : padding < 8)
    (bits : bitsOfBytes input = textBits text ++ List.replicate padding true) : input = coded text := by
  obtain ⟨padding', small', bits'⟩ := coded_bits text
  have length := congrArg List.length bits
  have length' := congrArg List.length bits'
  simp only [length_append, bits_of_bytes_length, length_replicate] at length length'
  have same : padding = padding' := by omega
  subst same
  exact bits_of_bytes_injective _ _ (bits.trans bits'.symm)

theorem huffman_decode_iff (input text : List Byte) (room : Nat) :
    hpackHuffmanDecode input room = .ok text ↔ text.length ≤ room ∧ input = coded text := by
  constructor
  · intro read
    obtain ⟨fits, padding, small, bits⟩ := huffman_decode_sound read
    exact ⟨fits, coded_unique small bits⟩
  rintro ⟨fits, rfl⟩
  obtain ⟨padding, small, bits⟩ := coded_bits text
  exact huffman_roundtrip text _ padding room small bits fits

theorem huffman_size_positive {text : List Byte} (some : text ≠ []) : 0 < hpackHuffmanSize text := by
  cases text with
  | nil => exact absurd rfl some
  | cons byte rest =>
    have shape := huffman_code_shape byte
    rw [hpackHuffmanSize, map_cons, List.sum_cons]
    omega

/-- A string is written in the length announced and read back; what is read is what is written, so that
writing it again gives the same bytes; and a writer with a limit stays within it, and is given up exactly
where the coded form does not fit. -/
theorem huffman_coding_exact : (∀ text room free, hpackHuffmanSize text ≤ room → text.length ≤ free → ∃ bytes,
      hpackHuffmanEncode text room = .ok bytes ∧ bytes.length = hpackHuffmanSize text ∧
        hpackHuffmanDecode bytes free = .ok text) ∧
    (∀ input, (∃ room text, hpackHuffmanDecode input room = .ok text) ↔ ∃ text padding, padding < 8 ∧
      bitsOfBytes input = textBits text ++ List.replicate padding true) ∧
    (∀ input text room free, hpackHuffmanDecode input free = .ok text → hpackHuffmanSize text ≤ room →
      hpackHuffmanEncode text room = .ok input) ∧
    ∀ text limit, (hpHuffmanWrite text limit).1 = (if hpackHuffmanSize text ≤ limit then hpackHuffmanSize text else 0) ∧
      ((hpHuffmanWrite text limit).1 ≠ 0 ↔ text ≠ [] ∧ hpackHuffmanSize text ≤ limit) ∧
      (hpHuffmanWrite text limit).2.length ≤ limit ∧
      (hpackHuffmanSize text ≤ limit → hpackHuffmanEncode text limit = .ok (hpHuffmanWrite text limit).2) := by
  refine ⟨?_, ?_, ?_, ?_⟩
  · intro text room free fits holds
    refine ⟨coded text, ?_, coded_length text, (huffman_decode_iff _ text free).mpr ⟨holds, rfl⟩⟩
    rw [huffman_encode_eq, if_neg (not_lt.mpr fits)]
  · intro input
    constructor
    · rintro ⟨room, text, read⟩
      exact ⟨text, (huffman_decode_sound read).2⟩
    rintro ⟨text, padding, small, bits⟩
    exact ⟨text.length, text, huffman_roundtrip text input padding _ small bits (le_refl _)⟩
  · intro input text room free read fits
    rw [huffman_encode_eq, if_neg (not_lt.mpr fits), ← ((huffman_decode_iff input text free).mp read).2]
  intro text limit
  obtain ⟨within, length, same⟩ := huffman_write_spec text limit
  refine ⟨length, ?_, within, ?_⟩
  · rw [length]
    by_cases fits : hpackHuffmanSize text ≤ limit
    · rw [if_pos fits]
      constructor
      · intro positive
        refine ⟨?_, fits⟩
        rintro rfl
        exact positive rfl
      rintro ⟨some, -⟩
      exact ne_of_gt (huffman_size_positive some)
    rw [if_neg fits]
    constructor
    · intro positive
      exact absurd rfl positive
    rintro ⟨-, fits'⟩
    exact absurd fits' fits
  intro fits
  rw [huffman_encode_eq, if_neg (not_lt.mpr fits), same fits]
  have spec := huffman_put_spec text limit
  rw [if_pos fits] at spec
  obtain ⟨-, padding, small, bits⟩ := spec
  rw [coded_unique small bits]

theorem huffman_coding_exact_example :
    hpackHuffmanDecode [0xf1, 0xe3, 0xc2, 0xe5, 0xf2, 0x3a, 0x6b, 0xa0, 0xab, 0x90, 0xf4, 0xff] 15 =
        .ok (ascii "www.example.com") ∧ hpackHuffmanEncode (ascii "www.example.com") 12 =
        .ok [0xf1, 0xe3, 0xc2, 0xe5, 0xf2, 0x3a, 0x6b, 0xa0, 0xab, 0x90, 0xf4, 0xff] := by
  have read : hpackHuffmanDecode [0xf1, 0xe3, 0xc2, 0xe5, 0xf2, 0x3a, 0x6b, 0xa0, 0xab, 0x90, 0xf4, 0xff] 15 =
      .ok (ascii "www.example.com") := by decide +kernel
  exact ⟨read, huffman_coding_exact.2.2.1 _ _ 12 15 read (by decide +kernel)⟩

/-- The coded form of the empty string takes nothing, fits any limit, and its length is zero. -/
theorem huffman_put_of_nothing : hpackHuffmanSize [] ≤ 0 ∧ (hpHuffmanWrite [] 0).1 = 0 ∧
    ¬∀ text limit, (hpHuffmanWrite text limit).1 ≠ 0 ↔ hpackHuffmanSize text ≤ limit := by
  refine ⟨by decide, by decide, ?_⟩
  intro all
  exact (all [] 0).mpr (by decide) (by decide)

end ProvenC.Hpack.Coding
