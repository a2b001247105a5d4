import ProvenC.Hpack.Encoder

/-!
# The decoder follows the encoder

The encoder's table is the newest part of the decoder's at every field line, so an index the encoder
writes names the same entry on the other side, and both tables take the same insertions.
-/

namespace ProvenC.Hpack.Synchrony

open List Bytes Lib.Fifo Lib.BitString
open Hpack.Tables Hpack.Table Hpack.Integer Hpack.Huffman
open Hpack.Decoder Hpack.Encoder

def hpStringLimit : Nat := hpIntLimit 7

variable {scratch used : Nat}

theorem string_of_parts {n : Nat} {head : Byte} {tail rest : List Byte}
    (length : hpInt 7 (head :: tail) = some (n, rest)) (enough : n ≤ rest.length) : hpString scratch used (head :: tail) =
      if head.val < 128 then .ok (rest.take n, rest.drop n, used) else
        match hpackHuffmanDecode (rest.take n) (scratch - used) with
        | .error e => .error e
        | .ok text => .ok (text, rest.drop n, used + text.length) := by
  simp only [hpString, List.head?_cons, orFail, length, bind, Except.bind]
  rw [if_neg (by omega)]
  split
  · rfl
  · cases hpackHuffmanDecode (rest.take n) (scratch - used) <;> rfl

theorem string_plain (scratch used : Nat) (s suffix : List Byte) (short : s.length < hpStringLimit) :
    hpString scratch used (hpPutInt 7 0 s.length ++ s ++ suffix) = .ok (s, suffix, used) := by
  obtain ⟨head, tail, form, low, high⟩ := put_int_head 7 0 s.length (by decide) rfl (by decide)
  have read := int_roundtrip (s ++ suffix) (show 7 ≤ 8 by decide) (show 0 % 2 ^ 7 = 0 from rfl) short
  rw [form, cons_append] at read
  rw [append_assoc, form, cons_append, string_of_parts read (by simp)]
  norm_num at high
  rw [if_pos high, take_left, drop_left]

theorem string_coded {head : Byte} {tail coded text suffix : List Byte}
    (length : hpInt 7 (head :: tail) = some (coded.length, coded ++ suffix))
    (high : 128 ≤ head.val) (padding : Nat) (padded : padding < 8)
    (bits : bitsOfBytes coded = textBits text ++ List.replicate padding true) (room : text.length ≤ scratch - used) :
    hpString scratch used (head :: tail) = .ok (text, suffix, used + text.length) := by
  rw [string_of_parts length (by simp), if_neg (by omega), take_left, drop_left,
    huffman_roundtrip text coded padding _ padded bits room]

theorem string_roundtrip (scratch used : Nat) (s suffix : List Byte)
    (short : s.length < hpStringLimit) (room : s.length ≤ scratch - used) :
    ∃ after, used ≤ after ∧ after ≤ used + s.length ∧
      hpString scratch used (hpPutString s ++ suffix) = .ok (s, suffix, after) := by
  have plain := string_plain scratch used s suffix short
  have plainOk : ∃ after, used ≤ after ∧ after ≤ used + s.length ∧
      hpString scratch used (hpPutInt 7 0 s.length ++ s ++ suffix) = .ok (s, suffix, after) :=
    ⟨used, le_refl _, Nat.le_add_right _ _, plain⟩
  unfold hpPutString
  simp only
  split
  next small =>
    split
    next coded =>
      -- In place behind its one length byte.
      have spec := huffman_put_spec s (s.length - 1)
      split at spec
      next fits =>
        obtain ⟨length, padding, padded, bits⟩ := spec
        refine ⟨used + s.length, by omega, le_refl _, ?_⟩
        have byte : (byteOf (128 + (hpHuffmanPut s (s.length - 1)).length)).val =
            128 + (hpHuffmanPut s (s.length - 1)).length := by
          rw [byte_of_val]; omega
        refine string_coded ?_ (by omega) padding padded bits room
        rw [hpInt]
        simp only [byte]
        rw [if_neg (by omega)]
        congr 2
        omega
      rw [spec] at coded
      simp at coded
    · exact plainOk
  split
  · split
    next shorter =>
      have spec := huffman_put_spec s (hpackHuffmanSize s)
      rw [if_pos (le_refl _)] at spec
      obtain ⟨length, padding, padded, bits⟩ := spec
      obtain ⟨head, tail, form, low, -⟩ :=
        put_int_head 7 128 (hpackHuffmanSize s) (by decide) rfl (by decide)
      have read := int_roundtrip (hpHuffmanPut s (hpackHuffmanSize s) ++ suffix)
        (show 7 ≤ 8 by decide) (show 128 % 2 ^ 7 = 0 from rfl)
        (lt_trans shorter short)
      rw [form, cons_append] at read
      refine ⟨used + s.length, by omega, le_refl _, ?_⟩
      rw [append_assoc, form, cons_append]
      refine string_coded ?_ low padding padded bits room
      rw [length]
      exact read
    · exact plainOk
  · exact plainOk

def fieldAt (table : HpTable) (index : Nat) : Option Field :=
  if index = 0 then none
  else if index ≤ hpackStaticCount then staticField index
  else hpAt table (index - hpackStaticCount - 1)

def Found (table : HpTable) (field : Field) (found : Nat × Nat) : Prop :=
  (found.1 ≠ 0 → fieldAt table found.1 = some field) ∧
    (found.2 ≠ 0 → ∃ value, fieldAt table found.2 = some ⟨field.name, value⟩)

theorem static_names_sound : ∀ entry ∈ hpackStaticNames, 1 ≤ entry.2 ∧ entry.1 + entry.2 ≤ hpackStaticCount ∧
      ∀ k ∈ List.range' entry.1 entry.2, hpStaticName k = hpStaticName entry.1 := by
  decide +kernel

theorem static_field_at (table : HpTable) {k : Nat} (inside : k < hpackStaticCount) :
    fieldAt table (k + 1) = some ⟨hpStaticName k, hpStaticValue k⟩ := by
  have bound : k < hpackStatic.length := inside
  simp only [fieldAt, staticField, hpStaticName, hpStaticValue, Nat.add_sub_cancel]
  rw [if_neg (by omega), if_pos (by omega), getD_eq_getElem?_getD,
    List.getElem?_eq_getElem bound, Option.map_some, Option.getD_some]

theorem static_named_sound {name : List Byte} {first count : Nat} (named : staticNamed name = some (first, count)) :
    first < hpackStaticCount ∧ hpStaticName first = name ∧
      ∀ k ∈ List.range' first count, k < hpackStaticCount ∧ hpStaticName k = name := by
  unfold staticNamed at named
  split at named
  · have same : hpStaticName first = name := by simpa using List.find?_some named
    have member := mem_of_mem_drop (mem_of_mem_take (mem_of_find?_eq_some named))
    obtain ⟨positive, bound, names⟩ := static_names_sound _ member
    refine ⟨by omega, same, fun k inside => ⟨?_, (names k inside).trans same⟩⟩
    obtain ⟨_, _⟩ := mem_range'_1.mp inside
    omega
  · cases named

theorem search_static_sound (table : HpTable) (name value : List Byte) :
    Found table ⟨name, value⟩ (searchStatic name value) := by
  unfold searchStatic
  split
  · exact ⟨fun none => absurd rfl none, fun none => absurd rfl none⟩
  rename_i first count named
  obtain ⟨inside, same, others⟩ := static_named_sound named
  have byName : fieldAt table (first + 1) = some ⟨name, hpStaticValue first⟩ := by
    rw [static_field_at table inside, same]
  split
  · exact ⟨fun none => absurd rfl none, fun _ => ⟨_, byName⟩⟩
  rename_i k found
  have sameValue : hpStaticValue k = value := by simpa using List.find?_some found
  obtain ⟨bound, sameName⟩ := others k (mem_of_find?_eq_some found)
  refine ⟨fun _ => ?_, fun _ => ⟨_, byName⟩⟩
  rw [static_field_at table bound, sameName, sameValue]

theorem dynamic_field_at (table : HpTable) {k : Nat} {entry : Field} (here : table.entries.reverse[k]? = some entry) :
    fieldAt table (hpackStaticCount + k + 1) = some entry := by
  simp only [fieldAt, hpAt]
  rw [if_neg (by omega), if_neg (by omega), show hpackStaticCount + k + 1 - hpackStaticCount - 1 = k by omega, here]

theorem search_dynamic_sound (table : HpTable) (reserve : Nat) (field : Field) (older : List Field)
    (k : Nat) (found : Nat × Nat) (part : ∀ j, older[j]? = table.entries.reverse[k + j]?)
    (sound : Found table field found) :
    Found table field (searchDynamic reserve field.name field.value older k found) := by
  induction older generalizing k found with
  | nil => exact sound
  | cons entry older ih =>
    obtain ⟨whole, byName⟩ := found
    have here : fieldAt table (hpackStaticCount + k + 1) = some entry :=
      dynamic_field_at table (by simpa using (part 0).symm)
    have next : ∀ j, older[j]? = table.entries.reverse[k + 1 + j]? := by
      intro j
      have step := part (j + 1)
      rwa [List.getElem?_cons_succ, show k + (j + 1) = k + 1 + j by omega] at step
    rw [searchDynamic]
    split
    · split
      · exact ih (k + 1) _ next sound
      rename_i named
      have sameName : entry.name = field.name := not_not.mp named
      apply ih (k + 1) _ next
      constructor
      · dsimp only
        split
        next sameValue =>
          intro _
          rw [here]
          exact congrArg some (Field.ext sameName sameValue)
        · exact sound.1
      dsimp only
      split
      · intro _
        exact ⟨entry.value, by rw [here, ← sameName]⟩
      · exact sound.2
    · exact sound

theorem search_sound (table : HpTable) (header : Field × Bool) : Found table header.1 (searchField table header) :=
  search_dynamic_sound table _ header.1 _ 0 _ (fun j => by rw [zero_add])
    (search_static_sound table header.1.name header.1.value)

variable {table : HpTable}

theorem field_at_bound {index : Nat} {field : Field} (found : fieldAt table index = some field) :
    0 < index ∧ index ≤ hpackStaticCount + table.count := by
  unfold fieldAt at found
  split at found
  · cases found
  split at found
  · omega
  have inside := hp_at_lt found
  omega

variable {right : HpTable}

theorem field_at_suffix {left : HpTable} (suffix : left.entries <:+ right.entries)
    {index : Nat} {field : Field} (found : fieldAt left index = some field) : fieldAt right index = some field := by
  unfold fieldAt at found ⊢
  split at found
  · cases found
  rename_i positive
  rw [if_neg positive]
  split at found
  next static =>
    rw [if_pos static, found]
  rename_i dynamic
  rw [if_neg dynamic, hp_at_suffix suffix found]

theorem count_le_size (table : HpTable) : 32 * table.count ≤ table.size := by
  unfold HpTable.count HpTable.size
  induction table.entries with
  | nil => exact le_refl _
  | cons entry rest ih =>
    have here : 32 ≤ fieldSize entry := by simp [fieldSize, hpackEntryOverhead]
    rw [length_cons, total_cons]
    omega

theorem keep_room {text : List Byte} (room : used + text.length ≤ scratch) :
    hpKeep scratch used text = .ok (used + text.length) := by
  rw [hpKeep, if_neg (by omega)]

theorem indexed_roundtrip {index : Nat} {field : Field}
    (suffix : List Byte) (found : fieldAt table index = some field) (small : index < hpIntLimit 7)
    (room : used + field.name.length + field.value.length ≤ scratch) :
    ∃ after, used ≤ after ∧ after ≤ used + field.name.length + field.value.length ∧
      decodeIndexed table scratch used (hpPutInt 7 128 index ++ suffix) =
        .ok { field := field, insert := false, never := false, rest := suffix, used := after } := by
  have read := int_roundtrip suffix (show 7 ≤ 8 by decide) (show 128 % 2 ^ 7 = 0 from rfl) small
  unfold fieldAt at found
  unfold decodeIndexed
  simp only [read, orFail, bind, Except.bind]
  split at found
  · cases found
  rename_i positive
  rw [if_neg positive]
  split at found
  next static =>
    refine ⟨used, le_refl _, by omega, ?_⟩
    rw [if_pos static, found]
  rename_i dynamic
  refine ⟨used + field.name.length + field.value.length, by omega, le_refl _, ?_⟩
  rw [if_neg dynamic, found]
  simp only [keep_room (show used + field.name.length ≤ scratch by omega), keep_room room]

theorem name_roundtrip {byName : Nat} {name : List Byte}
    (rest : List Byte) (found : byName ≠ 0 → ∃ value, fieldAt table byName = some ⟨name, value⟩)
    (short : name.length < hpStringLimit) (room : used + name.length ≤ scratch) :
    ∃ after, used ≤ after ∧ after ≤ used + name.length ∧
      decodeName table scratch used byName (namePart byName name ++ rest) = .ok (name, rest, after) := by
  unfold decodeName namePart
  split
  · exact string_roundtrip scratch used name rest short (by omega)
  rename_i indexed
  obtain ⟨value, found⟩ := found indexed
  unfold fieldAt at found
  rw [if_neg indexed] at found
  rw [nil_append]
  split at found
  next static =>
    refine ⟨used, le_refl _, by omega, ?_⟩
    rw [if_pos static, found]
    rfl
  rename_i dynamic
  refine ⟨used + name.length, by omega, le_refl _, ?_⟩
  rw [if_neg dynamic, found]
  simp only [orFail, bind, Except.bind, keep_room room]

theorem literal_roundtrip {byName width first : Nat} {b : Byte}
    {field : Field} (suffix : List Byte) (form : (if b.val / 64 % 2 = 1 then 6 else 4) = width)
    (aligned : first % 2 ^ width = 0) (narrow : width ≤ 8) (small : byName < hpIntLimit width)
    (found : byName ≠ 0 → ∃ value, fieldAt table byName = some ⟨field.name, value⟩)
    (shortName : field.name.length < hpStringLimit) (shortValue : field.value.length < hpStringLimit)
    (room : used + field.name.length + field.value.length ≤ scratch) :
    ∃ after, used ≤ after ∧ after ≤ used + field.name.length + field.value.length ∧ decodeLiteral table scratch used b
          (hpPutInt width first byName ++ namePart byName field.name ++ hpPutString field.value ++ suffix) =
        .ok { field := field, insert := decide (b.val / 64 % 2 = 1), never := decide (b.val / 16 = 1)
              rest := suffix, used := after } := by
  obtain ⟨middle, _, _, name⟩ := name_roundtrip (hpPutString field.value ++ suffix) found shortName
    (show used + field.name.length ≤ scratch by omega)
  obtain ⟨after, _, _, value⟩ := string_roundtrip scratch middle field.value suffix shortValue (by omega)
  have read := int_roundtrip (namePart byName field.name ++ (hpPutString field.value ++ suffix))
    narrow aligned small
  refine ⟨after, by omega, by omega, ?_⟩
  unfold decodeLiteral
  simp only [form, append_assoc, read, orFail, bind, Except.bind, name, value]

def Bounded (table : HpTable) : Prop := table.size ≤ table.max ∧ table.max ≤ hpackTableCeiling

theorem index_readable {index : Nat} {field : Field} (bounded : Bounded table)
    (found : fieldAt table index = some field) (width : Nat) : index < hpIntLimit width := by
  obtain ⟨_, _⟩ := bounded
  have few := count_le_size table
  have bound := (field_at_bound found).2
  have positive : 0 < 2 ^ width := Nat.two_pow_pos width
  simp only [hpIntLimit, hpackTableCeiling, hpackStaticCount] at *
  omega

def neverIndexed (header : Field × Bool) : Bool := reserveOf header = 2

theorem field_roundtrip {left right : HpTable} {scratch used : Nat} (header : Field × Bool)
    (suffix : List Byte) (bounded : Bounded left) (newest : left.entries <:+ right.entries)
    (shortName : header.1.name.length < hpStringLimit) (shortValue : header.1.value.length < hpStringLimit)
    (room : used + header.1.name.length + header.1.value.length ≤ scratch) :
    ∃ head tail insert after, (encodeField left header).1 = head :: tail ∧ head.val / 32 ≠ 1 ∧
      after ≤ used + header.1.name.length + header.1.value.length ∧
      decodeLine right scratch used head ((encodeField left header).1 ++ suffix) =
        .ok { field := header.1, insert := insert, never := neverIndexed header, rest := suffix
              used := after } ∧
      (insert = true → fieldSize header.1 ≤ left.max) ∧
      (encodeField left header).2 =
        if insert then hpTableAdd left header.1.name header.1.value else left := by
  obtain ⟨wholeFound, nameFound⟩ := search_sound left header
  unfold encodeField
  generalize searchField left header = found at wholeFound nameFound ⊢
  dsimp only
  split
  next indexed =>
    have whole := wholeFound indexed.1
    obtain ⟨head, tail, form, low, high⟩ := put_int_head 7 128 found.1 (by decide) rfl (by decide)
    obtain ⟨after, _, bound, read⟩ := indexed_roundtrip suffix (field_at_suffix newest whole)
      (index_readable bounded whole 7) room
    norm_num at high
    have plain : neverIndexed header = false := by simp [neverIndexed, indexed.2]
    refine ⟨head, tail, false, after, form, by omega, bound, ?_, by simp, rfl⟩
    rw [decodeLine, if_pos low, plain]
    exact read
  have small : ∀ width, found.2 < hpIntLimit width := by
    intro width
    by_cases none : found.2 = 0
    · rw [none]
      exact lt_of_lt_of_le (by decide) (Nat.le_add_left (2 ^ 35) (2 ^ width - 1))
    obtain ⟨value, named⟩ := nameFound none
    exact index_readable bounded named width
  have nameRight : found.2 ≠ 0 → ∃ value, fieldAt right found.2 = some ⟨header.1.name, value⟩ := by
    intro named
    obtain ⟨value, inLeft⟩ := nameFound named
    exact ⟨value, field_at_suffix newest inLeft⟩
  unfold literalHead
  split
  next remembered =>
    have both : reserveOf header = 0 ∧ fieldSize header.1 ≤ left.max := by
      simpa [enters] using remembered
    obtain ⟨head, tail, form, low, high⟩ := put_int_head 6 64 found.2 (by decide) rfl (by decide)
    norm_num at high
    have literal : head.val / 64 % 2 = 1 := by omega
    obtain ⟨after, _, bound, read⟩ := literal_roundtrip suffix (if_pos literal)
      (show 64 % 2 ^ 6 = 0 from rfl) (by decide) (small 6) nameRight shortName shortValue room
    have plain : neverIndexed header = false := by simp [neverIndexed, both.1]
    refine ⟨head, _, true, after, by rw [form]; rfl, by omega, bound, ?_, fun _ => both.2, rfl⟩
    rw [decodeLine, if_neg (by omega), read, plain]
    simp only [decide_eq_true literal, decide_eq_false (show ¬ head.val / 16 = 1 by omega)]
  have narrow : (if reserveOf header = 2 then 16 else 0) % 2 ^ 4 = 0 := by split <;> rfl
  obtain ⟨head, tail, form, low, high⟩ :=
    put_int_head 4 (if reserveOf header = 2 then 16 else 0) found.2 (by decide) narrow
      (by split <;> decide)
  norm_num at high
  have literal : ¬ head.val / 64 % 2 = 1 := by split at high <;> omega
  have never : decide (head.val / 16 = 1) = neverIndexed header := by
    unfold neverIndexed
    rw [decide_eq_decide]
    by_cases secret : reserveOf header = 2
    · rw [if_pos secret] at low high
      omega
    rw [if_neg secret] at high
    omega
  obtain ⟨after, _, bound, read⟩ := literal_roundtrip suffix (if_neg literal) narrow (by decide)
    (small 4) nameRight shortName shortValue room
  refine ⟨head, _, false, after, by rw [form]; rfl, ?_, bound, ?_, by simp, rfl⟩
  · split at high <;> omega
  · rw [decodeLine, if_neg (by split at high <;> omega), read, never, decide_eq_false literal]

structure Follows (left right : HpTable) : Prop where
  bounded : Bounded left
  max : left.max ≤ right.max
  newest : left.entries <:+ right.entries

theorem follows_insert {left : HpTable} (follows : Follows left right) {field : Field}
    {insert : Bool} (fits : insert = true → fieldSize field ≤ left.max) :
    Follows (if insert then hpTableAdd left field.name field.value else left)
      (if insert then hpTableAdd right field.name field.value else right) := by
  cases insert with
  | false => exact follows
  | true =>
    simp only [if_true]
    refine ⟨⟨?_, ?_⟩, ?_, ?_⟩
    · rw [add_max]
      exact add_size left field.name field.value
    · rw [add_max]
      exact follows.bounded.2
    · rw [add_max, add_max]
      exact follows.max
    · exact add_suffix field.name field.value follows.max (fits rfl) follows.newest

def listText (headers : List (Field × Bool)) : Nat :=
  (headers.map fun header => header.1.name.length + header.1.value.length).sum

def listSize (headers : List (Field × Bool)) : Nat :=
  (headers.map fun header => fieldSize header.1).sum

def received (header : Field × Bool) : Field × Bool := (header.1, neverIndexed header)

def Readable (headers : List (Field × Bool)) : Prop :=
  ∀ header ∈ headers, header.1.name.length < hpStringLimit ∧ header.1.value.length < hpStringLimit

/-- The room a decoding still has is enough for `headers`. -/
structure HasRoom (cap : Capacity) (s : Decoding) (headers : List (Field × Bool)) : Prop where
  fields : s.out.length + headers.length ≤ cap.headerCap
  scratch : s.used + listText headers ≤ cap.scratch
  list : cap.maxList = 0 ∨ s.list + listSize headers ≤ cap.maxList

theorem take_line_room {cap : Capacity} {s : Decoding} {header : Field × Bool}
    {rest : List (Field × Bool)} (notOver : s.isOver = false) (room : HasRoom cap s (header :: rest))
    {line : Line} (field : line.field = header.1)
    (used : line.used ≤ s.used + header.1.name.length + header.1.value.length) : (takeLine cap s line).isOver = false ∧
      (takeLine cap s line).out = s.out ++ [(line.field, line.never)] ∧ HasRoom cap (takeLine cap s line) rest := by
  obtain ⟨fields, scratch, list⟩ := room
  simp only [listText, listSize, map_cons, List.sum_cons, length_cons] at fields scratch list
  have within : (s.isOver || (cap.maxList != 0 && decide (cap.maxList < s.list + fieldSize line.field)) ||
      s.out.length == cap.headerCap) = false := by
    rw [notOver, field]
    simp only [Bool.false_or, Bool.or_eq_false_iff, Bool.and_eq_false_iff, decide_eq_false_iff_not,
      bne_eq_false_iff_eq, beq_eq_false_iff_ne]
    exact ⟨by omega, by omega⟩
  unfold takeLine
  simp only [within]
  refine ⟨trivial, rfl, ⟨?_, ?_, ?_⟩⟩
  · simp only [Bool.false_eq_true, if_false, length_append, length_singleton]
    omega
  · simp only [listText]
    omega
  rw [field]
  simp only [listSize]
  omega

theorem turn_takes (cap : Capacity) (limit : Nat) {s : Decoding} {b : Byte} {line : Line}
    (notOwed : s.updateOwed = false) (notOver : s.isOver = false) (notUpdate : b.val / 32 ≠ 1)
    (read : decodeLine s.table cap.scratch s.used b s.rest = .ok line) :
    decodeTurn cap limit s b = some (takeLine cap s line) := by
  unfold decodeTurn
  rw [if_neg notUpdate, notOwed, notOver]
  simp only [Bool.false_eq_true, if_false, read]

theorem lines_roundtrip {cap : Capacity} {limit : Nat} (headers : List (Field × Bool))
    (readable : Readable headers) {left : HpTable} {s : Decoding} {fuel : Nat}
    (rest : s.rest = (encodeFields left headers).1) (enough : s.rest.length < fuel)
    (notOwed : s.updateOwed = false) (notOver : s.isOver = false) (room : HasRoom cap s headers)
    (follows : Follows left s.table) : ∃ last, decodeLoop cap limit fuel s = (last, true) ∧ last.isOver = false ∧
      last.updateOwed = false ∧ last.out = s.out ++ headers.map received ∧
      last.table.max = s.table.max ∧ Follows (encodeFields left headers).2 last.table := by
  induction headers generalizing left s fuel with
  | nil =>
    obtain ⟨fuel, rfl⟩ : ∃ n, fuel = n + 1 := ⟨fuel - 1, by omega⟩
    refine ⟨s, ?_, notOver, notOwed, by simp, rfl, follows⟩
    rw [decodeLoop, rest]
    rfl
  | cons header headers ih =>
    obtain ⟨fuel, rfl⟩ : ∃ n, fuel = n + 1 := ⟨fuel - 1, by omega⟩
    obtain ⟨shortName, shortValue⟩ := readable header (mem_cons_self ..)
    have scratch := room.scratch
    simp only [listText, map_cons, List.sum_cons] at scratch
    obtain ⟨head, tail, insert, after, form, notUpdate, bound, read, fits, entered⟩ :=
      @field_roundtrip left s.table cap.scratch s.used header
        (encodeFields (encodeField left header).2 headers).1 follows.bounded follows.newest
        shortName shortValue (by omega)
    have whole : s.rest = (encodeField left header).1 ++ (encodeFields (encodeField left header).2 headers).1 := rest
    have front : s.rest = head :: (tail ++ (encodeFields (encodeField left header).2 headers).1) := by
      rw [whole, form, cons_append]
    have turn := turn_takes cap limit notOwed notOver notUpdate (whole ▸ read)
    generalize taken : Line.mk header.1 insert (neverIndexed header)
      (encodeFields (encodeField left header).2 headers).1 after = line at turn
    obtain ⟨stillIn, out, roomLeft⟩ := @take_line_room cap s header headers notOver room line
      (by rw [← taken]) (by rw [← taken]; exact bound)
    have length := congrArg List.length front
    simp only [length_cons, length_append] at length
    obtain ⟨last, run, lastOver, lastOwed, lastOut, lastMax, lastFollows⟩ :=
      @ih (fun other member => readable other (mem_cons_of_mem _ member))
        (encodeField left header).2 (takeLine cap s line) fuel (by rw [takeLine, ← taken])
        (by rw [takeLine, ← taken]; simp only; omega) notOwed stillIn roomLeft
        (by rw [entered, takeLine, ← taken]; exact follows_insert follows fits)
    refine ⟨last, ?_, lastOver, lastOwed, ?_, ?_, lastFollows⟩
    · rw [decodeLoop, front]
      simp only [turn]
      exact run
    · rw [lastOut, out, append_assoc, ← taken]
      rfl
    rw [lastMax, takeLine, ← taken]
    cases insert <;> simp

def resized (table : HpTable) (size : Nat) : HpTable :=
  hpTableShrinkTo { table with max := size } size

theorem loop_resizes (cap : Capacity) {limit size fuel : Nat} {s : Decoding} {rest : List Byte}
    (front : s.rest = hpPutInt 5 32 size ++ rest) (first : s.begun = false) (notOver : s.isOver = false)
    (within : size ≤ limit) (ceiling : limit ≤ hpackTableCeiling) (enough : s.rest.length < fuel) :
    ∃ fuelLeft, rest.length < fuelLeft ∧ decodeLoop cap limit fuel s = decodeLoop cap limit fuelLeft
          { s with table := resized s.table size, updateOwed := false, rest := rest } := by
  obtain ⟨head, tail, form, low, high⟩ := put_int_head 5 32 size (by decide) rfl (by decide)
  have small : size < hpIntLimit 5 := by
    simp only [hpIntLimit, hpackTableCeiling] at *
    omega
  have read := int_roundtrip rest (show 5 ≤ 8 by decide) (show 32 % 2 ^ 5 = 0 from rfl) small
  norm_num at high
  have turn : decodeTurn cap limit s head =
      some { s with table := resized s.table size, updateOwed := false, rest := rest } := by
    unfold decodeTurn
    rw [if_pos (by omega), first, notOver]
    simp only [Bool.false_eq_true, if_false, front, read]
    rw [if_neg (by omega)]
    rfl
  obtain ⟨left, rfl⟩ : ∃ n, fuel = n + 1 := ⟨fuel - 1, by omega⟩
  have shape : s.rest = head :: (tail ++ rest) := by rw [front, form, cons_append]
  have length := congrArg List.length shape
  simp only [length_cons, length_append] at length
  refine ⟨left, by omega, ?_⟩
  rw [decodeLoop, shape]
  simp only [turn]

theorem resized_newest {left : List Field} {size : Nat} (newest : left <:+ right.entries)
    (fits : total fieldSize left ≤ size) : left <:+ (resized right size).entries :=
  suffix_evict_to fieldSize newest fits

/-- Between two blocks. The encoder either owes nothing, and both tables have one size, or what
it holds is within the smallest size it will announce. -/
structure InStep (c : HpackEncoder) (d : HpackDecoder) : Prop where
  alive : d.failed = false
  told : d.limit = c.peerMax
  ceiling : c.peerMax ≤ hpackTableCeiling
  inForce : c.table.max = min c.ownMax c.peerMax
  newest : c.table.entries <:+ d.table.entries
  bounded : c.table.size ≤ c.table.max
  owed : if c.announce then c.announceLow ≤ c.table.max ∧ c.table.size ≤ c.announceLow
    else d.table.max = c.table.max ∧ d.updateOwed = false

theorem shrink_size_le (table : HpTable) (max : Nat) : (hpTableShrinkTo table max).size ≤ table.size :=
  total_suffix_le fieldSize (evict_to_suffix fieldSize max table.entries)

theorem lowest_le (fresh : Prop) [Decidable fresh] (now low : Nat) : (if fresh ∨ now < low then now else low) ≤ now := by
  split
  · exact le_refl now
  rename_i lower
  exact le_of_not_gt (not_or.mp lower).2

variable {c : HpackEncoder} {d : HpackDecoder}

theorem in_step_change (step : InStep c d) {bytes : Nat} (small : bytes ≤ hpackTableCeiling) :
    InStep (hpackEncoderSetPeerTableBytes c bytes) (hpackDecoderSetMaxTableBytes d bytes) := by
  obtain ⟨alive, told, ceiling, inForce, newest, bounded, owed⟩ := step
  have decoder : hpackDecoderSetMaxTableBytes d bytes =
      { d with limit := bytes, updateOwed := if bytes < d.table.max then true else d.updateOwed } := by
    rw [hpackDecoderSetMaxTableBytes, if_neg (by omega)]
  rw [decoder]
  unfold hpackEncoderSetPeerTableBytes
  simp only
  split
  next same =>
    refine ⟨alive, rfl, small, same.symm, newest, bounded, ?_⟩
    split
    next announced =>
      rwa [if_pos announced] at owed
    rename_i settled
    rw [if_neg settled] at owed
    refine ⟨owed.1, ?_⟩
    rw [if_neg (by omega)]
    exact owed.2
  refine ⟨alive, rfl, small, rfl, (evict_to_suffix fieldSize _ _).trans newest,
    shrink_size _ _, ?_⟩
  rw [if_pos rfl]
  refine ⟨lowest_le _ _ _, ?_⟩
  split
  · exact shrink_size _ _
  rename_i lower
  have announced : c.announce = true := by
    cases flag : c.announce
    · exact absurd (.inl flag) lower
    · rfl
  rw [if_pos announced] at owed
  exact (shrink_size_le _ _).trans owed.2

structure Adequate (cap : Capacity) (headers : List (Field × Bool)) : Prop where
  fields : headers.length ≤ cap.headerCap
  scratch : listText headers ≤ cap.scratch
  list : cap.maxList = 0 ∨ listSize headers ≤ cap.maxList

theorem updates_roundtrip (step : InStep c d) (cap : Capacity)
    (lines : List Byte) {fuel : Nat} (enough : (sizeUpdates c ++ lines).length < fuel) :
    ∃ s fuelLeft, decodeLoop cap d.limit fuel (decodeStart d (sizeUpdates c ++ lines)) =
        decodeLoop cap d.limit fuelLeft s ∧
      s.rest = lines ∧ lines.length < fuelLeft ∧ s.updateOwed = false ∧ s.isOver = false ∧
      s.used = 0 ∧ s.list = 0 ∧ s.out = [] ∧ s.table.max = c.table.max ∧ Follows c.table s.table := by
  obtain ⟨alive, told, ceiling, inForce, newest, bounded, owed⟩ := step
  have limitCeiling : d.limit ≤ hpackTableCeiling := told ▸ ceiling
  have within : c.table.max ≤ d.limit := by omega
  have fine : Bounded c.table := ⟨bounded, by omega⟩
  unfold sizeUpdates at enough ⊢
  split at owed
  next announced =>
    rw [if_pos announced, append_assoc] at enough
    rw [if_pos announced, append_assoc]
    obtain ⟨low, fits⟩ := owed
    split at enough
    next two =>
      rw [if_pos two]
      obtain ⟨between, shorter, smallest⟩ := @loop_resizes cap d.limit c.announceLow fuel
        (decodeStart d _) _ rfl rfl rfl (by omega) limitCeiling enough
      obtain ⟨fuelLeft, shortest, final⟩ := @loop_resizes cap d.limit c.table.max between
        { decodeStart d _ with
          table := resized d.table c.announceLow, updateOwed := false, rest := _ }
        lines rfl rfl rfl within limitCeiling shorter
      exact ⟨_, fuelLeft, smallest.trans final, rfl, shortest, rfl, rfl, rfl, rfl, rfl, rfl,
        ⟨fine, le_refl _, resized_newest (resized_newest newest fits) bounded⟩⟩
    rename_i one
    rw [if_neg one]
    obtain ⟨fuelLeft, shortest, final⟩ := @loop_resizes cap d.limit c.table.max fuel
      (decodeStart d _) lines rfl rfl rfl within limitCeiling enough
    exact ⟨_, fuelLeft, final, rfl, shortest, rfl, rfl, rfl, rfl, rfl, rfl,
      ⟨fine, le_refl _, resized_newest newest bounded⟩⟩
  rename_i settled
  rw [if_neg settled] at enough ⊢
  exact ⟨decodeStart d lines, fuel, rfl, rfl, enough, owed.2, rfl, rfl, rfl, rfl, owed.1,
    ⟨fine, le_of_eq owed.1.symm, newest⟩⟩

theorem encode_fields_max (headers : List (Field × Bool)) (table : HpTable) :
    (encodeFields table headers).2.max = table.max := by
  induction headers generalizing table with
  | nil => rfl
  | cons header headers ih =>
    refine (ih (encodeField table header).2).trans ?_
    unfold encodeField
    dsimp only
    split
    · rfl
    split
    · exact add_max ..
    · rfl

theorem block_roundtrip (step : InStep c d)
    {headers : List (Field × Bool)} {cap : Capacity} {room : Nat} (readable : Readable headers)
    (adequate : Adequate cap headers) (enough : hpackEncodeBound headers ≤ room) :
    ∃ block after, hpackEncode c headers room = .ok (block, after) ∧
      ∃ next, hpackDecodeMarked d block cap = (next, .ok (headers.map received)) ∧ InStep after next := by
  obtain ⟨s, fuelLeft, updates, rest, enoughLeft, notOwed, notOver, used, list, out, max, follows⟩ :=
    updates_roundtrip step cap (encodeFields c.table headers).1
      (show (sizeUpdates c ++ (encodeFields c.table headers).1).length <
        decodeFuel (sizeUpdates c ++ (encodeFields c.table headers).1) by unfold decodeFuel; omega)
  have roomHere : HasRoom cap s headers := by
    refine ⟨?_, ?_, ?_⟩
    · rw [out, length_nil, zero_add]
      exact adequate.fields
    · rw [used, zero_add]
      exact adequate.scratch
    rw [list, zero_add]
    exact adequate.list
  obtain ⟨last, run, lastOver, lastOwed, lastOut, lastMax, lastFollows⟩ :=
    @lines_roundtrip cap d.limit headers readable c.table s fuelLeft rest (rest ▸ enoughLeft)
      notOwed notOver roomHere follows
  refine ⟨sizeUpdates c ++ (encodeFields c.table headers).1,
    { c with table := (encodeFields c.table headers).2, announce := false }, ?_,
    { d with table := last.table, updateOwed := last.updateOwed, failed := false }, ?_, ?_⟩
  · unfold hpackEncode
    rw [if_neg (by omega)]
  · unfold hpackDecodeMarked
    rw [step.alive, updates, run]
    simp only [Bool.false_eq_true, if_false, Bool.not_true, lastOver, lastOut, out, nil_append]
  have tableMax := encode_fields_max headers c.table
  refine ⟨rfl, step.told, step.ceiling, tableMax.trans step.inForce, lastFollows.newest, lastFollows.bounded.1, ?_⟩
  simp only [Bool.false_eq_true, if_false]
  exact ⟨by rw [lastMax, max, tableMax], lastOwed⟩

/-- What happens on one direction of a connection, at both ends in this order: the peer changes
its table's size, or a list is sent as one block into `room` bytes and read with `cap`. -/
inductive Event where
  | change (bytes : Nat)
  | block (headers : List (Field × Bool)) (cap : Capacity) (room : Nat)

def exchange (c : HpackEncoder) (d : HpackDecoder) (headers : List (Field × Bool)) (cap : Capacity)
    (room : Nat) : Except ProvenErr (HpackEncoder × HpackDecoder × List (Field × Bool)) :=
  match hpackEncode c headers room with
  | .error e => .error e
  | .ok (block, after) =>
    match hpackDecodeMarked d block cap with
    | (_, .error e) => .error e
    | (next, .ok out) => .ok (after, next, out)

/-- Every block of a run is decoded to its list, each field marked as `told` says, and after it
the encoder's table is the newest part of the decoder's. -/
def Synchronised (told : Field × Bool → Bool) : HpackEncoder → HpackDecoder → List Event → Prop
  | _, _, [] => True
  | c, d, .change bytes :: events =>
    Synchronised told (hpackEncoderSetPeerTableBytes c bytes) (hpackDecoderSetMaxTableBytes d bytes) events
  | c, d, .block headers cap room :: events =>
    match exchange c d headers cap room with
    | .error _ => False
    | .ok (after, next, out) =>
      out = headers.map (fun header => (header.1, told header)) ∧
        after.table.entries <:+ next.table.entries ∧ Synchronised told after next events

instance decidableSynchronised (told : Field × Bool → Bool) :
    (c : HpackEncoder) → (d : HpackDecoder) → (events : List Event) → Decidable (Synchronised told c d events)
  | _, _, [] => isTrue trivial
  | c, d, .change bytes :: events =>
    decidableSynchronised told (hpackEncoderSetPeerTableBytes c bytes)
      (hpackDecoderSetMaxTableBytes d bytes) events
  | c, d, .block headers cap room :: events =>
    match run : exchange c d headers cap room with
    | .error _ => isFalse (by simp only [Synchronised, run, not_false_eq_true])
    | .ok (after, next, out) =>
      have := decidableSynchronised told after next events
      decidable_of_iff (out = headers.map (fun header => (header.1, told header)) ∧
        after.table.entries <:+ next.table.entries ∧ Synchronised told after next events)
        (by simp only [Synchronised, run])

def Event.Roomy : Event → Prop
  | .change _ => True
  | .block headers cap room => Adequate cap headers ∧ hpackEncodeBound headers ≤ room

instance (event : Event) : Decidable event.Roomy :=
  match event with
  | .change _ => isTrue trivial
  | .block headers cap room =>
    decidable_of_iff ((headers.length ≤ cap.headerCap ∧ listText headers ≤ cap.scratch ∧
        (cap.maxList = 0 ∨ listSize headers ≤ cap.maxList)) ∧ hpackEncodeBound headers ≤ room)
      ⟨fun ⟨⟨fields, scratch, list⟩, bound⟩ => ⟨⟨fields, scratch, list⟩, bound⟩,
        fun ⟨⟨fields, scratch, list⟩, bound⟩ => ⟨⟨fields, scratch, list⟩, bound⟩⟩

def Event.WithinLimits : Event → Prop
  | .change bytes => bytes ≤ hpackTableCeiling
  | .block headers _ _ => Readable headers

instance (event : Event) : Decidable event.WithinLimits :=
  match event with
  | .change bytes => inferInstanceAs (Decidable (bytes ≤ hpackTableCeiling))
  | .block headers _ _ => inferInstanceAs (Decidable (∀ header ∈ headers,
      header.1.name.length < hpStringLimit ∧ header.1.value.length < hpStringLimit))

theorem in_step_run (events : List Event) (step : InStep c d)
    (roomy : ∀ event ∈ events, event.Roomy) (limits : ∀ event ∈ events, event.WithinLimits) :
    Synchronised neverIndexed c d events := by
  induction events generalizing c d with
  | nil => trivial
  | cons event events ih =>
    have roomyHere := roomy event (mem_cons_self ..)
    have limitsHere := limits event (mem_cons_self ..)
    have roomyRest := fun other member => roomy other (mem_cons_of_mem event member)
    have limitsRest := fun other member => limits other (mem_cons_of_mem event member)
    cases event with
    | change bytes => exact ih (in_step_change step limitsHere) roomyRest limitsRest
    | block headers cap room =>
      obtain ⟨block, after, encoded, next, decoded, stepNext⟩ :=
        block_roundtrip step limitsHere roomyHere.1 roomyHere.2
      have run : exchange c d headers cap room = .ok (after, next, headers.map received) := by
        simp only [exchange, encoded, decoded]
      simp only [Synchronised, run]
      exact ⟨rfl, stepNext.newest, ih stepNext roomyRest limitsRest⟩

def linked (own bytes : Nat) : Except ProvenErr (HpackEncoder × HpackDecoder) := do
  let c ← hpackEncoderCreate own
  let d ← hpackDecoderCreate bytes
  .ok (hpackEncoderSetPeerTableBytes c bytes, d)

def RunsInStep (told : Field × Bool → Bool) (own bytes : Nat) (events : List Event) : Prop :=
  ∀ pair, linked own bytes = .ok pair → Synchronised told pair.1 pair.2 events

theorem in_step_start {own bytes : Nat}
    (encoder : hpackEncoderCreate own = .ok c) (decoder : hpackDecoderCreate bytes = .ok d)
    (known : bytes ≤ hpackDefaultTableBytes ∨ own ≠ hpackDefaultTableBytes) :
    InStep (hpackEncoderSetPeerTableBytes c bytes) d := by
  unfold hpackEncoderCreate at encoder
  unfold hpackDecoderCreate at decoder
  split at encoder
  · cases encoder
  split at decoder
  · cases decoder
  rename_i small
  cases encoder
  cases decoder
  unfold hpackEncoderSetPeerTableBytes
  dsimp only
  split
  next same =>
    refine ⟨rfl, rfl, Nat.le_of_not_lt small, same.symm, suffix_refl _, Nat.zero_le _, ?_⟩
    dsimp only
    split
    next announced =>
      refine ⟨?_, Nat.zero_le _⟩
      split <;> omega
    rename_i settled
    have full : min own hpackDefaultTableBytes = hpackDefaultTableBytes := by simpa using settled
    exact ⟨by omega, rfl⟩
  refine ⟨rfl, rfl, Nat.le_of_not_lt small, rfl, suffix_refl _, Nat.zero_le _, ?_⟩
  rw [if_pos rfl]
  refine ⟨?_, Nat.zero_le _⟩
  exact lowest_le _ _ _

/-- An encoder and a decoder that are told the same sizes at the same points stay in step over
any run: every list comes out as it went in, marked where it was marked and where its name is
one never to be indexed. -/
theorem hpack_synchrony (own bytes : Nat)
    (known : bytes ≤ hpackDefaultTableBytes ∨ own ≠ hpackDefaultTableBytes) (events : List Event)
    (roomy : ∀ event ∈ events, event.Roomy) (limits : ∀ event ∈ events, event.WithinLimits) :
    RunsInStep neverIndexed own bytes events := by
  intro pair made
  unfold linked at made
  cases encoder : hpackEncoderCreate own with
  | error e => simp [encoder, bind, Except.bind] at made
  | ok c =>
    cases decoder : hpackDecoderCreate bytes with
    | error e => simp [encoder, decoder, bind, Except.bind] at made
    | ok d =>
      simp only [encoder, decoder, bind, Except.bind, Except.ok.injEq] at made
      rw [← made]
      exact in_step_run events (in_step_start encoder decoder known) roomy limits

def plainCapacity : Capacity := { headerCap := 4, scratch := 1024, maxList := 0 }

def pathField : Field := ⟨ascii ":path", ascii "/a"⟩

def secretField : Field := ⟨ascii "authorization", ascii "x"⟩

def dippingRun : List Event :=
  [.block [(pathField, false)] plainCapacity 1024, .change 10, .change 4096,
    .block [(pathField, false), (pathField, true), (secretField, false)] plainCapacity 1024,
    .block [(pathField, false)] plainCapacity 1024]

theorem hpack_synchrony_dipping : RunsInStep neverIndexed 4096 4096 dippingRun :=
  hpack_synchrony 4096 4096 (.inl (by decide)) dippingRun (by decide) (by decide)

theorem put_string_over (scratch used : Nat) (s suffix : List Byte) (long : hpStringLimit ≤ s.length)
    (uncoded : s.length ≤ hpackHuffmanSize s) :
    hpString scratch used (hpPutString s ++ suffix) = .error .invalidFormat := by
  have many : 127 < s.length := lt_of_lt_of_le (by decide) long
  have form : hpPutString s = hpPutInt 7 0 s.length ++ s := by
    unfold hpPutString
    simp only
    rw [if_neg (by omega), if_pos many, if_neg (by omega)]
  obtain ⟨head, tail, front, -, -⟩ := put_int_head 7 0 s.length (by decide) rfl (by decide)
  have unread := int_over (s ++ suffix) (show 7 ≤ 8 by decide) (show 0 % 2 ^ 7 = 0 from rfl) long
  rw [front, cons_append] at unread
  rw [form, append_assoc, front, cons_append, hpString]
  simp only [List.head?_cons, orFail, unread, bind, Except.bind]

def freshEncoder : HpackEncoder :=
  { table := ⟨[], 4096⟩, ownMax := 4096, peerMax := 4096, announceLow := 0, announce := false }

def freshDecoder : HpackDecoder :=
  { table := ⟨[], 4096⟩, limit := 4096, updateOwed := false, failed := false }

theorem block_over (value : List Byte) (cap : Capacity) (room : Nat) (long : hpStringLimit ≤ value.length)
    (uncoded : value.length ≤ hpackHuffmanSize value) (bound : hpackEncodeBound [(⟨[], value⟩, false)] ≤ room) :
    exchange freshEncoder freshDecoder [(⟨[], value⟩, false)] cap room = .error .invalidFormat := by
  have many : 4096 < value.length := lt_of_lt_of_le (by decide) long
  have notKept : enters freshEncoder.table (⟨[], value⟩, false) = false := by
    refine decide_eq_false fun both => ?_
    have fits : fieldSize ⟨[], value⟩ ≤ 4096 := both.2
    simp only [fieldSize] at fits
    omega
  have lines : (encodeFields freshEncoder.table [(⟨[], value⟩, false)]).1 = 0 :: 0 :: (hpPutString value ++ []) := by
    have search : searchField freshEncoder.table (⟨[], value⟩, false) = (0, 0) := rfl
    have kind : reserveOf (⟨[], value⟩, false) = 0 := rfl
    simp only [encodeFields, encodeField, search, literalHead, notKept, kind]
    rfl
  have name : hpString cap.scratch 0 (0 :: (hpPutString value ++ [])) = .ok ([], hpPutString value ++ [], 0) :=
    string_plain cap.scratch 0 [] (hpPutString value ++ []) (by decide)
  have index : hpInt 4 (0 :: 0 :: (hpPutString value ++ [])) = some (0, 0 :: (hpPutString value ++ [])) := rfl
  have failed := put_string_over cap.scratch 0 value [] long uncoded
  have turn : decodeTurn cap 4096 (decodeStart freshDecoder (0 :: 0 :: (hpPutString value ++ []))) 0 = none := by
    have form : (if (0 : Byte).val / 64 % 2 = 1 then 6 else 4) = 4 := rfl
    have line : decodeLine freshDecoder.table cap.scratch 0 0 (0 :: 0 :: (hpPutString value ++ [])) =
        .error .invalidFormat := by
      rw [decodeLine, if_neg (by decide), decodeLiteral]
      simp only [form, index, orFail, bind, Except.bind, decodeName, if_true, name, failed]
    have settled : freshDecoder.updateOwed = false := rfl
    unfold decodeTurn decodeStart
    rw [if_neg (by decide)]
    simp only [settled, Bool.false_eq_true, if_false, line]
  have encoded : hpackEncode freshEncoder [(⟨[], value⟩, false)] room =
      .ok ((encodeFields freshEncoder.table [(⟨[], value⟩, false)]).1,
        { freshEncoder with table := (encodeFields freshEncoder.table [(⟨[], value⟩, false)]).2 }) := by
    rw [hpackEncode, if_neg (by omega)]
    rfl
  have decoded : (hpackDecodeMarked freshDecoder (0 :: 0 :: (hpPutString value ++ [])) cap).2 =
      .error .invalidFormat := by
    have stopped : decodeLoop cap freshDecoder.limit (decodeFuel (0 :: 0 :: (hpPutString value ++ [])))
        (decodeStart freshDecoder (0 :: 0 :: (hpPutString value ++ []))) =
          (decodeStart freshDecoder (0 :: 0 :: (hpPutString value ++ [])), false) := by
      have front : (decodeStart freshDecoder (0 :: 0 :: (hpPutString value ++ []))).rest =
        0 :: 0 :: (hpPutString value ++ []) := rfl
      rw [decodeFuel, decodeLoop, front]
      simp only [show freshDecoder.limit = 4096 from rfl, turn]
    unfold hpackDecodeMarked
    rw [if_neg (by decide), stopped]
    rfl
  rw [lines] at encoded
  unfold exchange
  simp only [encoded]
  cases both : hpackDecodeMarked freshDecoder (0 :: 0 :: (hpPutString value ++ [])) cap with
  | mk next out =>
    rw [both] at decoded
    dsimp only at decoded
    rw [decoded]

def valueRun (value : List Byte) : List Event :=
  [.block [(⟨[], value⟩, false)] { headerCap := 1, scratch := value.length, maxList := 0 }
    (hpackEncodeBound [(⟨[], value⟩, false)])]

theorem linked_fresh : linked 4096 4096 = .ok (freshEncoder, freshDecoder) := by decide

theorem value_run_roomy (value : List Byte) : ∀ event ∈ valueRun value, event.Roomy := by
  simp [valueRun, Event.Roomy]
  exact ⟨le_refl 1, by simp [listText], .inl rfl⟩

theorem value_run_over (value : List Byte) (long : hpStringLimit ≤ value.length)
    (uncoded : value.length ≤ hpackHuffmanSize value) : ¬ RunsInStep neverIndexed 4096 4096 (valueRun value) := by
  intro runs
  have synchronised := runs _ linked_fresh
  unfold valueRun Synchronised at synchronised
  rw [block_over value _ _ long uncoded (le_refl _)] at synchronised
  exact synchronised

def zeros (n : Nat) : List Byte := List.replicate n 0

theorem zeros_uncoded (n : Nat) : (zeros n).length ≤ hpackHuffmanSize (zeros n) := by
  have bits : huffmanBits 0 = 13 := by decide
  rw [hpackHuffmanSize, zeros, length_replicate, map_replicate, sum_replicate_nat, bits]
  omega

theorem zeros_run_over (n : Nat) (long : hpStringLimit ≤ n) : ¬ RunsInStep neverIndexed 4096 4096 (valueRun (zeros n)) :=
  value_run_over (zeros n) (by rw [zeros, length_replicate]; exact long) (zeros_uncoded n)

def secretRun : List Event := [.block [(secretField, false)] plainCapacity 1024]

def loweredRun : List Event := [.change 5000, .block [(pathField, false)] plainCapacity 1024]

def raisedRun : List Event :=
  [.change 100, .change (hpackTableCeiling + 1), .block [] plainCapacity 1024]

/-- The marks of the names never to be indexed are added; a decoder made larger than the
encoder takes for granted is owed an update nobody announces; a size the decoder does not take
is one the encoder does; and a length has a limit. -/
theorem hpack_synchrony_bounds : ((∀ event ∈ secretRun, event.Roomy) ∧ ¬ RunsInStep Prod.snd 4096 4096 secretRun) ∧
      ((∀ event ∈ loweredRun, event.Roomy) ∧ ¬ RunsInStep neverIndexed 4096 8192 loweredRun) ∧
      ((∀ event ∈ raisedRun, event.Roomy) ∧ ¬ RunsInStep neverIndexed 4096 4096 raisedRun) ∧
      ((∀ event ∈ valueRun (zeros hpStringLimit), event.Roomy) ∧
        ¬ RunsInStep neverIndexed 4096 4096 (valueRun (zeros hpStringLimit))) := by
  refine ⟨⟨by decide, fun runs => ?_⟩, ⟨by decide, fun runs => ?_⟩, ⟨by decide, fun runs => ?_⟩,
    ⟨value_run_roomy _, zeros_run_over hpStringLimit (le_refl _)⟩⟩
  · exact absurd (runs _ linked_fresh) (by decide +kernel)
  · exact absurd (runs (hpackEncoderSetPeerTableBytes freshEncoder 8192,
      { freshDecoder with table := ⟨[], 8192⟩, limit := 8192 }) (by decide)) (by decide +kernel)
  · exact absurd (runs _ linked_fresh) (by decide)

end ProvenC.Hpack.Synchrony
