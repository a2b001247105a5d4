import ProvenC.Hpack.Decoder
import ProvenC.Lib.Outcome

/-!
# The receiver's limits do not reach the table

How many fields there is room for, how much scratch, and how long a list may be decide what is given
out.
-/

namespace ProvenC.Hpack.Independence

open Bytes Lib.Outcome
open Hpack.Tables Hpack.Table Hpack.Integer Hpack.Huffman Hpack.Decoder

variable {input : List Byte} {table : HpTable}

theorem huffman_loop_room (fuel : Nat) {text : List Byte} {acc bits room : Nat}
    (decoded : huffmanDecodeLoop fuel input acc bits room = .ok text) (room' : Nat) :
    huffmanDecodeLoop fuel input acc bits room' = if text.length ≤ room' then .ok text else .error .outOfBounds := by
  induction fuel generalizing input text acc bits room room' with
  | zero => cases decoded
  | succ fuel ih =>
    rw [huffmanDecodeLoop] at decoded ⊢
    simp only at decoded ⊢
    split at decoded
    next nothing =>
      cases decoded
      rw [if_pos nothing]
      exact (if_pos (Nat.zero_le _)).symm
    rename_i something
    rw [if_neg something]
    cases found : huffmanSymbol (huffmanRefill input acc bits).2.1 (huffmanRefill input acc bits).2.2 with
    | none =>
      rw [found] at decoded
      simp only at decoded ⊢
      split at decoded
      · cases decoded
      rename_i ended
      rw [if_neg ended]
      split at decoded
      · cases decoded
      rename_i padded
      cases decoded
      rw [if_neg padded]
      exact (if_pos (Nat.zero_le _)).symm
    | some entry =>
      obtain ⟨symbol, used⟩ := entry
      rw [found] at decoded
      simp only at decoded ⊢
      split at decoded
      · cases decoded
      rename_i notEos
      rw [if_neg notEos]
      split at decoded
      · cases decoded
      split at decoded
      · cases decoded
      rename_i rest later
      cases decoded
      rw [List.length_cons]
      by_cases none_ : room' = 0
      · rw [if_pos none_, if_neg (by omega)]
      rw [if_neg none_, ih later (room' - 1)]
      by_cases fits : rest.length ≤ room' - 1
      · rw [if_pos fits, if_pos (by omega)]
      · rw [if_neg fits, if_neg (by omega)]

theorem keep_needs (scratch used : Nat) (text : List Byte) :
    hpKeep scratch used text = if text.length ≤ scratch - used then .ok (used + text.length) else .error .outOfBounds := by
  unfold hpKeep
  by_cases room : text.length ≤ scratch - used
  · rw [if_pos room, if_neg (by omega)]
  · rw [if_neg room, if_pos (by omega)]

theorem int_rest_shorter {left shift v value : Nat} {rest : List Byte} (read : hpIntRest left shift v input = some (value, rest)) :
    rest.length < input.length := by
  induction left generalizing shift v input with
  | zero => cases read
  | succ left ih =>
    cases input with
    | nil => cases read
    | cons b tail =>
      rw [hpIntRest] at read
      split at read
      · cases read
        exact Nat.lt_succ_self _
      · exact Nat.lt_succ_of_lt (ih read)

theorem int_shorter {width value : Nat} {rest : List Byte} (read : hpInt width input = some (value, rest)) :
    rest.length < input.length := by
  cases input with
  | nil => cases read
  | cons b tail =>
    rw [hpInt] at read
    split at read
    · exact Nat.lt_succ_of_lt (int_rest_shorter read)
    · cases read
      exact Nat.lt_succ_self _

theorem or_fail_some {α : Type} {value : Option α} {a : α} (read : orFail value = .ok a) : value = some a := by
  cases value with
  | none => cases read
  | some a => cases read; rfl

theorem string_needs {big from_ after : Nat} {text rest : List Byte} (read : hpString big from_ input = .ok (text, rest, after)) :
    rest.length < input.length ∧ ∃ need ≤ text.length, after = from_ + need ∧ ∀ scratch used, hpString scratch used input =
      if need ≤ scratch - used then .ok (text, rest, used + need) else .error .outOfBounds := by
  unfold hpString at read
  obtain ⟨b, head, read⟩ := bind_ok read
  obtain ⟨⟨n, tail⟩, int, read⟩ := bind_ok read
  have less := int_shorter (or_fail_some int)
  have dropped : (tail.drop n).length < input.length := List.length_drop ▸ by omega
  simp only at read
  split at read
  · cases read
  rename_i inside
  split at read
  next plain =>
    cases read
    refine ⟨dropped, 0, Nat.zero_le _, rfl, fun scratch used => ?_⟩
    unfold hpString
    rw [head, ok_bind, int, ok_bind]
    simp only
    rw [if_neg inside, if_pos plain, if_pos (Nat.zero_le _), Nat.add_zero]
  rename_i coded
  obtain ⟨text', decoded, read⟩ := bind_ok read
  cases read
  refine ⟨dropped, text.length, le_refl _, rfl, fun scratch used => ?_⟩
  unfold hpString
  rw [head, ok_bind, int, ok_bind]
  simp only
  rw [if_neg inside, if_neg coded]
  unfold hpackHuffmanDecode at decoded ⊢
  rw [huffman_loop_room _ decoded]
  split <;> rfl

theorem name_needs {big from_ after index : Nat} {name rest : List Byte}
    (read : decodeName table big from_ index input = .ok (name, rest, after)) :
    rest.length ≤ input.length ∧ ∃ need ≤ name.length, after = from_ + need ∧ ∀ scratch used, decodeName table scratch used index input =
      if need ≤ scratch - used then .ok (name, rest, used + need) else .error .outOfBounds := by
  unfold decodeName at read ⊢
  split at read
  next zero =>
    simp only [if_pos zero]
    exact (string_needs read).imp_left le_of_lt
  rename_i indexed
  simp only [if_neg indexed]
  split at read
  next static =>
    simp only [if_pos static]
    obtain ⟨field, found, read⟩ := bind_ok read
    cases read
    refine ⟨le_refl _, 0, Nat.zero_le _, rfl, fun scratch used => ?_⟩
    simp only [found]
    rw [if_pos (Nat.zero_le _)]
    rfl
  rename_i dynamic
  simp only [if_neg dynamic]
  obtain ⟨entry, found, read⟩ := bind_ok read
  obtain ⟨kept, keeps, read⟩ := bind_ok read
  cases read
  rw [keep_needs] at keeps
  split at keeps
  · cases keeps
    refine ⟨le_refl _, entry.name.length, le_refl _, rfl, fun scratch used => ?_⟩
    simp only [found, ok_bind]
    rw [keep_needs]
    split <;> rfl
  · cases keeps

/-- A line takes the same of any scratch, and is out of bounds where that is not there. -/
theorem line_needs {big from_ : Nat} {b : Byte} {line : Line} (read : decodeLine table big from_ b input = .ok line) :
    line.rest.length < input.length ∧ ∃ need ≤ line.field.name.length + line.field.value.length, line.used = from_ + need ∧
      ∀ scratch used, decodeLine table scratch used b input =
        if need ≤ scratch - used then .ok { line with used := used + need } else .error .outOfBounds := by
  unfold decodeLine at read
  split at read
  next high =>
    unfold decodeIndexed at read
    obtain ⟨⟨index, rest⟩, int, read⟩ := bind_ok read
    simp only at read
    simp only [decodeLine, if_pos high, decodeIndexed, int, ok_bind]
    split at read
    · cases read
    rename_i positive
    simp only [if_neg positive]
    split at read
    next static =>
      obtain ⟨field, found, read⟩ := bind_ok read
      cases read
      refine ⟨int_shorter (or_fail_some int), 0, Nat.zero_le _, rfl, fun scratch used => ?_⟩
      rw [if_pos static, found, if_pos (Nat.zero_le _)]
      rfl
    rename_i dynamic
    obtain ⟨entry, found, read⟩ := bind_ok read
    obtain ⟨between, keepsName, read⟩ := bind_ok read
    obtain ⟨after, keepsValue, read⟩ := bind_ok read
    cases read
    rw [keep_needs] at keepsName
    split at keepsName
    · cases keepsName
      rw [keep_needs] at keepsValue
      split at keepsValue
      · cases keepsValue
        refine ⟨int_shorter (or_fail_some int), entry.name.length + entry.value.length, le_refl _, add_assoc _ _ _, fun scratch used => ?_⟩
        rw [if_neg dynamic, found, ok_bind, keep_needs]
        by_cases first : entry.name.length ≤ scratch - used
        · rw [if_pos first, ok_bind, keep_needs]
          by_cases second : entry.value.length ≤ scratch - (used + entry.name.length)
          · rw [if_pos second, if_pos (by omega), ← add_assoc]
            rfl
          rw [if_neg second, if_neg (by omega)]
          rfl
        rw [if_neg first, if_neg (by omega)]
        rfl
      · cases keepsValue
    · cases keepsName
  rename_i low
  unfold decodeLiteral at read
  simp only at read
  obtain ⟨⟨index, rest⟩, int, read⟩ := bind_ok read
  simp only at read
  obtain ⟨⟨name, between, middle⟩, nameRead, read⟩ := bind_ok read
  obtain ⟨⟨value, last, after⟩, valueRead, read⟩ := bind_ok read
  cases read
  obtain ⟨nameLess, n, nameMost, rfl, nameNeeds⟩ := name_needs nameRead
  obtain ⟨valueLess, m, valueMost, rfl, valueNeeds⟩ := string_needs valueRead
  refine ⟨valueLess.trans_le (nameLess.trans (le_of_lt (int_shorter (or_fail_some int)))), n + m, Nat.add_le_add nameMost valueMost, add_assoc _ _ _, fun scratch used => ?_⟩
  simp only [decodeLine, if_neg low, decodeLiteral, int, ok_bind, nameNeeds]
  by_cases first : n ≤ scratch - used
  · rw [if_pos first]
    simp only [ok_bind, valueNeeds]
    by_cases second : m ≤ scratch - (used + n)
    · rw [if_pos second, if_pos (by omega), ← add_assoc]
      rfl
    rw [if_neg second, if_neg (by omega)]
    rfl
  rw [if_neg first, if_neg (by omega)]
  rfl

structure SameLine (line line' : Line) : Prop where
  field : line.field = line'.field
  insert : line.insert = line'.insert
  never : line.never = line'.never
  rest : line.rest = line'.rest

theorem line_room {table : HpTable} {scratch used scratch' used' : Nat} {b : Byte} {input : List Byte} {line : Line}
    (read : decodeLine table scratch used b input = .ok line)
    (enough : line.field.name.length + line.field.value.length ≤ scratch' - used') :
    ∃ line', decodeLine table scratch' used' b input = .ok line' ∧ SameLine line line' ∧
      line'.used ≤ used' + (line.field.name.length + line.field.value.length) := by
  obtain ⟨-, need, most, -, needs⟩ := line_needs read
  refine ⟨{ line with used := used' + need }, ?_, ⟨rfl, rfl, rfl, rfl⟩, Nat.add_le_add_left most used'⟩
  rw [needs, if_pos (most.trans enough)]

variable {cap : Capacity} {limit : Nat} {s : Decoding}

theorem turn_cases {next : Decoding} {b : Byte} (turned : decodeTurn cap limit s b = some next) :
    (b.val / 32 = 1 ∧ s.begun = false ∧ ∃ size rest, hpInt 5 s.rest = some (size, rest) ∧ size ≤ limit ∧
      next = { s with table := hpTableShrinkTo { s.table with max := size } size, updateOwed := false, rest := rest
                      used := if s.isOver then 0 else s.used }) ∨
    (b.val / 32 ≠ 1 ∧ s.updateOwed = false ∧
      ((∃ line, decodeLine s.table cap.scratch (if s.isOver then 0 else s.used) b s.rest = .ok line ∧
        next = takeLine cap s line) ∨
      (s.isOver = false ∧ next = { s with begun := true, isOver := true }))) := by
  unfold decodeTurn at turned
  simp only at turned
  split at turned
  next update =>
    left
    split at turned
    · cases turned
    rename_i first
    split at turned
    · cases turned
    rename_i size rest int
    split at turned
    · cases turned
    rename_i within
    cases turned
    exact ⟨update, Bool.eq_false_iff.mpr first, size, rest, int, le_of_not_gt within, rfl⟩
  rename_i notUpdate
  right
  split at turned
  · cases turned
  rename_i notOwed
  refine ⟨notUpdate, Bool.eq_false_iff.mpr notOwed, ?_⟩
  split at turned
  next line read =>
    cases turned
    exact .inl ⟨line, read, rfl⟩
  · split at turned
    · cases turned
    rename_i notOver
    cases turned
    right
    exact ⟨Bool.eq_false_iff.mpr notOver, rfl⟩
  · cases turned

theorem turn_list {next : Decoding} {b : Byte} (turned : decodeTurn cap limit s b = some next) : s.list ≤ next.list := by
  obtain ⟨-, -, size, rest, -, -, rfl⟩ | ⟨-, -, ⟨line, -, rfl⟩ | ⟨-, rfl⟩⟩ := turn_cases turned
  · exact le_refl _
  · exact Nat.le_add_right _ _
  · exact le_refl _

theorem loop_list (fuel : Nat) {last : Decoding} {whole : Bool}
    (ran : decodeLoop cap limit fuel s = (last, whole)) : s.list ≤ last.list := by
  induction fuel generalizing s with
  | zero =>
    cases ran
    exact le_refl _
  | succ fuel ih =>
    rw [decodeLoop] at ran
    split at ran
    · cases ran
      exact le_refl _
    split at ran
    · cases ran
      exact le_refl _
    rename_i turned
    exact (turn_list turned).trans (ih ran)

structure Beside (cap : Capacity) (total : Nat) (s s' : Decoding) : Prop where
  table : s'.table = s.table
  owed : s'.updateOwed = s.updateOwed
  rest : s'.rest = s.rest
  notOver : s'.isOver = false
  begun : s'.begun = s.begun ∨ ∃ b tail, s.rest = b :: tail ∧ b.val / 32 ≠ 1
  scratch : s'.used + total ≤ s.list + cap.scratch
  fields : s'.out.length + total ≤ s.list + cap.headerCap

theorem take_beside {cap' : Capacity} {total : Nat} {s' : Decoding} {line line' : Line}
    (beside : Beside cap' total s s') (unlimited : cap'.maxList = 0) (same : SameLine line line')
    (used : line'.used ≤ s'.used + (line.field.name.length + line.field.value.length))
    (few : s.list + fieldSize line.field ≤ total) : Beside cap' total (takeLine cap s line) (takeLine cap' s' line') := by
  have size : fieldSize line.field = line.field.name.length + line.field.value.length + 32 := rfl
  have fields := beside.fields
  have scratch := beside.scratch
  have within : (s'.isOver || (cap'.maxList != 0 && decide (cap'.maxList < s'.list + fieldSize line'.field)) ||
      s'.out.length == cap'.headerCap) = false := by
    rw [beside.notOver, unlimited]
    have different : s'.out.length ≠ cap'.headerCap := by omega
    simp [different]
  constructor
  · simp only [takeLine, ← same.field, ← same.insert, beside.table]
  · exact beside.owed
  · exact same.rest.symm
  · exact within
  · exact .inl rfl
  · simp only [takeLine]
    omega
  simp only [takeLine]
  rw [within, if_neg Bool.false_ne_true, List.length_append, List.length_singleton]
  omega

theorem loop_beside {cap' : Capacity} (unlimited : cap'.maxList = 0) (fuel : Nat) {s' last : Decoding}
    (ran : decodeLoop cap limit fuel s = (last, true)) (beside : Beside cap' last.list s s') {fuel' : Nat}
    (enough : fuel ≤ fuel') :
    ∃ last', decodeLoop cap' limit fuel' s' = (last', true) ∧ last'.isOver = false ∧ last'.table = last.table ∧
      last'.updateOwed = last.updateOwed := by
  induction fuel generalizing s s' fuel' with
  | zero => cases ran
  | succ fuel ih =>
    obtain ⟨fuel', rfl⟩ : ∃ n, fuel' = n + 1 := ⟨fuel' - 1, by omega⟩
    rw [decodeLoop] at ran
    split at ran
    next ended =>
      cases ran
      refine ⟨s', ?_, beside.notOver, beside.table, beside.owed⟩
      rw [decodeLoop, beside.rest, ended]
    rename_i b tail front
    split at ran
    · cases ran
    rename_i next turned
    have goes {next' : Decoding} (turned' : decodeTurn cap' limit s' b = some next')
        (beside' : Beside cap' last.list next next') :
        ∃ last', decodeLoop cap' limit (fuel' + 1) s' = (last', true) ∧ last'.isOver = false ∧
          last'.table = last.table ∧ last'.updateOwed = last.updateOwed := by
      rw [decodeLoop, beside.rest, front]
      simp only
      rw [turned']
      exact ih ran beside' (Nat.le_of_succ_le_succ enough)
    obtain ⟨update, first, size, rest, int, within, rfl⟩ | ⟨notUpdate, notOwed, ⟨line, read, rfl⟩ | ⟨notOver, rfl⟩⟩ :=
      turn_cases turned
    · have first' : s'.begun = false := by
        rcases beside.begun with same | ⟨b', tail', front', notUpdate⟩
        · rw [same, first]
        rw [front] at front'
        cases front'
        exact absurd update notUpdate
      refine @goes
        { s' with table := hpTableShrinkTo { s'.table with max := size } size, updateOwed := false, rest := rest }
        ?_ ⟨?_, rfl, rfl, beside.notOver, .inl ?_, beside.scratch, beside.fields⟩
      · unfold decodeTurn
        simp only
        rw [if_pos update, first', if_neg Bool.false_ne_true, beside.rest, int]
        simp only
        rw [if_neg (not_lt.mpr within), beside.notOver, if_neg Bool.false_ne_true]
      · simp only [beside.table]
      · exact first'.trans first.symm
    · have few : s.list + fieldSize line.field ≤ last.list := loop_list fuel ran
      have size : fieldSize line.field = line.field.name.length + line.field.value.length + 32 := rfl
      have scratch := beside.scratch
      obtain ⟨line', read', same, used⟩ := @line_room _ _ _ cap'.scratch s'.used _ _ _ read (by omega)
      refine goes ?_ (take_beside beside unlimited same used few)
      unfold decodeTurn
      simp only
      rw [if_neg notUpdate, beside.owed, notOwed, if_neg Bool.false_ne_true, beside.notOver,
        if_neg Bool.false_ne_true, beside.table, beside.rest, read']
    exact ih ran ⟨beside.table, beside.owed, beside.rest, beside.notOver, .inr ⟨b, tail, front, notUpdate⟩,
      beside.scratch, beside.fields⟩ (Nat.le_of_succ_le enough)

theorem decode_roomy {d : HpackDecoder} {block : List Byte} (works : d.failed = false)
    (whole : (hpackDecodeMarked d block cap).1.failed = false) :
    ∃ room, ∀ large : Capacity, room ≤ large.headerCap → room ≤ large.scratch → large.maxList = 0 →
      ∃ fields, hpackDecodeMarked d block large = ((hpackDecodeMarked d block cap).1, .ok fields) := by
  unfold hpackDecodeMarked at whole ⊢
  rw [works, if_neg Bool.false_ne_true] at whole ⊢
  cases ran : decodeLoop cap d.limit (decodeFuel block) (decodeStart d block) with
  | mk last read =>
    rw [ran] at whole
    obtain rfl : read = true := by simpa using whole
    refine ⟨last.list, fun large fields scratch unlimited => ?_⟩
    have beside : Beside large last.list (decodeStart d block) (decodeStart d block) :=
      ⟨rfl, rfl, rfl, rfl, .inl rfl, by simpa [decodeStart] using scratch, by simpa [decodeStart] using fields⟩
    obtain ⟨last', ran', notOver, table, owed⟩ := loop_beside unlimited _ ran beside (le_refl _)
    refine ⟨last'.out, ?_⟩
    rw [if_neg Bool.false_ne_true, ran']
    simp only [table, owed, notOver]
    rfl

/-- Whatever the room and the limits, two decodings of a block that do not fail leave the same table, and it is the one
that a decoding with room for everything leaves, which gives all of the list out. -/
theorem table_independence (d : HpackDecoder) (block : List Byte) (cap cap' : Capacity) :
    ((hpackDecodeMarked d block cap).1.failed = true ∨ (hpackDecodeMarked d block cap').1.failed = true ∨
      ((hpackDecodeMarked d block cap).1.table = (hpackDecodeMarked d block cap').1.table ∧
        (hpackDecodeMarked d block cap).1.updateOwed = (hpackDecodeMarked d block cap').1.updateOwed)) ∧
    ((∃ fields, (hpackDecodeMarked d block cap).2 = .ok fields) ∨ (hpackDecodeMarked d block cap).2 = .error .outOfBounds →
      ∃ room, ∀ large : Capacity, room ≤ large.headerCap → room ≤ large.scratch → large.maxList = 0 →
        ∃ fields, hpackDecodeMarked d block large = ((hpackDecodeMarked d block cap).1, .ok fields)) := by
  cases works : d.failed with
  | true =>
    have same (cap : Capacity) : hpackDecodeMarked d block cap = (d, .error .invalidFormat) := by
      unfold hpackDecodeMarked
      rw [works, if_pos rfl]
    rw [same]
    refine ⟨.inl works, ?_⟩
    rintro (⟨fields, answered⟩ | answered) <;> cases answered
  | false =>
    constructor
    · cases first : (hpackDecodeMarked d block cap).1.failed with
      | true => exact .inl rfl
      | false =>
        cases second : (hpackDecodeMarked d block cap').1.failed with
        | true => exact .inr (.inl rfl)
        | false =>
          obtain ⟨room, roomy⟩ := decode_roomy works first
          obtain ⟨room', roomy'⟩ := decode_roomy works second
          let large : Capacity := ⟨max room room', max room room', 0⟩
          obtain ⟨fields, decoded⟩ := roomy large (Nat.le_max_left _ _) (Nat.le_max_left _ _) rfl
          obtain ⟨fields', decoded'⟩ := roomy' large (Nat.le_max_right _ _) (Nat.le_max_right _ _) rfl
          have same := congrArg Prod.fst (decoded.symm.trans decoded')
          simp only at same
          rw [same]
          exact .inr (.inr ⟨rfl, rfl⟩)
    intro answered
    refine decode_roomy works ?_
    unfold hpackDecodeMarked at answered ⊢
    rw [works, if_neg Bool.false_ne_true] at answered ⊢
    cases whole : (decodeLoop cap d.limit (decodeFuel block) (decodeStart d block)).2 with
    | true => simp only [whole, Bool.not_true]
    | false =>
      simp only [whole, Bool.not_false, if_true] at answered
      rcases answered with ⟨fields, answered⟩ | answered <;> cases answered

/-- A literal whose name is taken from an entry, with no room for it the first time: the entry is added once. -/
theorem table_independence_short : ∃ room, ∀ large : Capacity, room ≤ large.headerCap → room ≤ large.scratch →
    large.maxList = 0 → ∃ fields, hpackDecodeMarked ⟨⟨[⟨[1, 2], [3]⟩], 4096⟩, 4096, false, false⟩ [0xbe, 0x7e, 0x01, 0x09]
      large = (⟨⟨[⟨[1, 2], [3]⟩, ⟨[1, 2], [9]⟩], 4096⟩, 4096, false, false⟩, .ok fields) :=
  (table_independence ⟨⟨[⟨[1, 2], [3]⟩], 4096⟩, 4096, false, false⟩ [0xbe, 0x7e, 0x01, 0x09] ⟨8, 4, 0⟩ ⟨8, 4, 0⟩).2
    (.inr (by decide +kernel))

end ProvenC.Hpack.Independence
