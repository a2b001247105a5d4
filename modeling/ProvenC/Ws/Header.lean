import ProvenC.Ws.Frame

/-!
# Frame headers on the wire

A header is four fields: the first byte, the second with the mask bit and a short length, the extended
length, the mask.
-/

namespace ProvenC.Ws.Header

open List Bytes Lib.BigEndian Ws.Frame
open H2.Frame (byteAt)

inductive LengthForm where
  | short
  | medium
  | long

namespace LengthForm

def field (length : Nat) : LengthForm → Nat
  | short => length
  | medium => 126
  | long => 127

def bytes (length : Nat) : LengthForm → List Byte
  | short => []
  | medium => bigEndianBytes 2 length
  | long => bigEndianBytes 8 length

def Holds (length : Nat) : LengthForm → Prop
  | short => length < 126
  | medium => length < 2 ^ 16
  | long => length < 2 ^ 63

def Shortest (length : Nat) : LengthForm → Prop
  | short => length < 126
  | medium => 126 ≤ length ∧ length < 2 ^ 16
  | long => 2 ^ 16 ≤ length ∧ length < 2 ^ 63

end LengthForm

def firstByte (f : WsFrame) : Byte :=
  byteOf ((if f.fin then 128 else 0) + (if f.rsv1 then 64 else 0) + f.opcode.code)

def secondByte (form : LengthForm) (f : WsFrame) : Byte := byteOf ((if f.masked then 128 else 0) + form.field f.length)

def frontBytes (form : LengthForm) (f : WsFrame) : List Byte :=
  firstByte f :: secondByte form f :: form.bytes f.length

def maskBytes (f : WsFrame) : List Byte := if f.masked then f.mask else []

def headerBytes (form : LengthForm) (f : WsFrame) : List Byte := frontBytes form f ++ maskBytes f

/-- What a header may say: a control frame is whole and short, the reserved bit stands only at the
beginning of a message, and where there is no mask it is zero. -/
structure WellFormed (f : WsFrame) : Prop where
  whole : f.opcode.control = true → f.fin = true
  small : f.opcode.control = true → f.length ≤ wsMaxControl
  beginning : f.rsv1 = true → f.opcode.control = false ∧ f.opcode ≠ .continuation
  four : f.mask.length = 4
  plain : f.masked = false → f.mask = noMask

def Heads (f : WsFrame) (data rest : List Byte) : Prop :=
  WellFormed f ∧ ∃ form : LengthForm, form.Shortest f.length ∧ data = headerBytes form f ++ rest

def Begun (data : List Byte) : Prop :=
  ∃ (f : WsFrame) (form : LengthForm) (more : List Byte), WellFormed f ∧ form.Holds f.length ∧
    (f.opcode.control = true → form.field f.length ≤ wsMaxControl) ∧ more ≠ [] ∧
    (data ++ more = frontBytes form f ∨ (form.Shortest f.length ∧ data ++ more = headerBytes form f))

variable {f : WsFrame} {form : LengthForm} {data rest : List Byte}

theorem first_byte_fields (f : WsFrame) :
    (firstByte f).val / 16 % 4 = 0 ∧ wsOpcodeOf ((firstByte f).val % 16) = some f.opcode ∧
      decide ((firstByte f).val / 128 = 1) = f.fin ∧ decide ((firstByte f).val / 64 % 2 = 1) = f.rsv1 := by
  unfold firstByte
  cases f.fin <;> cases f.rsv1 <;> cases f.opcode <;> decide

variable {op : WsOpcode}

theorem opcode_of_code {code : Nat} (known : wsOpcodeOf code = some op) : op.code = code := by
  unfold wsOpcodeOf at known
  split at known <;> cases known <;> rfl

theorem byte_of_parts {b : Byte} {value : Nat} (same : b.val = value) : byteOf value = b := by
  rw [← same]
  exact byte_of_val_eq b

theorem first_byte_of {b : Byte} (reserved : b.val / 16 % 4 = 0)
    (known : wsOpcodeOf (b.val % 16) = some op) (fin : f.fin = decide (b.val / 128 = 1))
    (rsv1 : f.rsv1 = decide (b.val / 64 % 2 = 1)) (opcode : f.opcode = op) : firstByte f = b := by
  have code := opcode_of_code known
  have small := b.isLt
  unfold firstByte
  refine byte_of_parts ?_
  rw [fin, rsv1, opcode, code]
  simp only [decide_eq_true_eq]
  split_ifs <;> omega

theorem field_small (holds : form.Holds f.length) : form.field f.length < 128 := by
  cases form with
  | short => exact lt_trans holds (by decide)
  | medium => exact (by decide : 126 < 128)
  | long => exact (by decide : 127 < 128)

theorem second_byte_fields (holds : form.Holds f.length) :
    (secondByte form f).val % 128 = form.field f.length ∧ decide ((secondByte form f).val / 128 = 1) = f.masked := by
  have small := field_small holds
  unfold secondByte
  rw [byte_of_val]
  cases f.masked with
  | false =>
    rw [if_neg (by decide)]
    exact ⟨by omega, decide_eq_false (by omega)⟩
  | true =>
    rw [if_pos rfl]
    exact ⟨by omega, decide_eq_true (by omega)⟩

theorem second_byte_of {b : Byte} (field : form.field f.length = b.val % 128) (masked : f.masked = decide (b.val / 128 = 1)) :
    secondByte form f = b := by
  have small := b.isLt
  unfold secondByte
  refine byte_of_parts ?_
  rw [field, masked]
  simp only [decide_eq_true_eq]
  split_ifs <;> omega

theorem shortest_holds (shortest : form.Shortest f.length) : form.Holds f.length := by
  cases form with
  | short => exact shortest
  | medium | long => exact shortest.2

theorem length_read (holds : form.Holds f.length) (rest : List Byte) : (form.Shortest f.length →
      wsLengthOf (form.field f.length) (form.bytes f.length ++ rest) = .ok (f.length, (form.bytes f.length).length)) ∧
    (¬ form.Shortest f.length → wsLengthOf (form.field f.length) (form.bytes f.length ++ rest) = .error .invalidFormat) := by
  cases form with
  | short =>
    refine ⟨fun _ => ?_, fun longer => absurd holds longer⟩
    have small : f.length < 126 := holds
    unfold wsLengthOf LengthForm.field LengthForm.bytes
    dsimp only
    rw [if_neg (by omega), if_neg (by omega)]
    rfl
  | medium =>
    have small : f.length < 2 ^ 16 := holds
    have size := big_endian_bytes_length 2 f.length
    have number : bigEndian (bigEndianBytes 2 f.length) = f.length := big_endian_of_bytes (by omega)
    unfold wsLengthOf LengthForm.field LengthForm.bytes LengthForm.Shortest
    dsimp only
    rw [if_pos rfl, length_append, if_neg (by omega), take_left' size, number, size]
    exact ⟨fun shortest => if_neg (by omega), fun longer => if_pos (by omega)⟩
  | long =>
    have small : f.length < 2 ^ 63 := holds
    have size := big_endian_bytes_length 8 f.length
    have number : bigEndian (bigEndianBytes 8 f.length) = f.length := big_endian_of_bytes (by omega)
    have top : byteAt (bigEndianBytes 8 f.length ++ rest) 0 / 128 ≠ 1 := by
      cases spelled : bigEndianBytes 8 f.length with
      | nil => rw [spelled] at size; cases size
      | cons b later =>
        rw [spelled] at size number
        have seven : later.length = 7 := Nat.succ.inj size
        rw [big_endian_head, seven] at number
        have first : byteAt (b :: later ++ rest) 0 = b.val := rfl
        rw [first]
        omega
    unfold wsLengthOf LengthForm.field LengthForm.bytes LengthForm.Shortest
    dsimp only
    rw [if_neg (by decide), if_pos rfl, length_append, if_neg (by omega), if_neg top, if_neg (by omega),
      take_left' size, number, size]
    exact ⟨fun shortest => if_neg (by omega), fun longer => if_pos (by omega)⟩

theorem length_part {more : List Byte} (holds : form.Holds f.length) (some_ : more ≠ [])
    (part : data ++ more = form.bytes f.length) : wsLengthOf (form.field f.length) data = .error .needMore := by
  have positive := length_pos_iff.mpr some_
  have sizes := congrArg List.length part
  rw [length_append] at sizes
  cases form with
  | short =>
    have nothing : (LengthForm.short.bytes f.length).length = 0 := rfl
    omega
  | medium =>
    have size : (LengthForm.medium.bytes f.length).length = 2 := big_endian_bytes_length 2 f.length
    unfold wsLengthOf LengthForm.field
    dsimp only
    rw [if_pos rfl, if_pos (by omega)]
  | long =>
    have size : (LengthForm.long.bytes f.length).length = 8 := big_endian_bytes_length 8 f.length
    have small : f.length < 2 ^ 63 := holds
    have number : bigEndian (LengthForm.long.bytes f.length) = f.length := big_endian_of_bytes (by omega)
    unfold wsLengthOf LengthForm.field
    dsimp only
    rw [if_neg (by decide), if_pos rfl]
    cases data with
    | nil => rw [if_pos (by decide)]
    | cons b later =>
      have first : byteAt (b :: later) 0 = b.val := rfl
      rw [length_cons] at sizes
      rw [← part, cons_append, big_endian_head, length_append, show later.length + more.length = 7 by omega] at number
      rw [length_cons, if_neg (by omega), first, if_neg (by omega), if_pos (by omega)]

theorem length_of_read {short length extended : Nat} (seven : short < 128) (read : wsLengthOf short data = .ok (length, extended)) :
    ∃ form : LengthForm, form.Shortest length ∧ form.field length = short ∧ data.take extended = form.bytes length ∧
      extended = (form.bytes length).length ∧ extended ≤ data.length := by
  unfold wsLengthOf at read
  by_cases medium : short = 126
  · rw [if_pos medium] at read
    by_cases part : data.length < 2
    · rw [if_pos part] at read
      cases read
    rw [if_neg part] at read
    dsimp only at read
    have two : (data.take 2).length = 2 := by rw [length_take]; omega
    have bound := big_endian_lt (data.take 2)
    have again := bytes_of_big_endian (data.take 2)
    rw [two] at bound again
    by_cases longer : bigEndian (data.take 2) < 126
    · rw [if_pos longer] at read
      cases read
    rw [if_neg longer] at read
    cases read
    exact ⟨.medium, ⟨by omega, by omega⟩, medium.symm, again.symm, (big_endian_bytes_length 2 _).symm, by omega⟩
  rw [if_neg medium] at read
  by_cases long : short = 127
  · rw [if_pos long] at read
    by_cases none_ : data.length < 1
    · rw [if_pos none_] at read
      cases read
    rw [if_neg none_] at read
    by_cases top : byteAt data 0 / 128 = 1
    · rw [if_pos top] at read
      cases read
    rw [if_neg top] at read
    by_cases part : data.length < 8
    · rw [if_pos part] at read
      cases read
    rw [if_neg part] at read
    dsimp only at read
    have eight : (data.take 8).length = 8 := by rw [length_take]; omega
    have again := bytes_of_big_endian (data.take 8)
    have bound : bigEndian (data.take 8) < 2 ^ 63 := by
      cases data with
      | nil => exact absurd Nat.one_pos none_
      | cons b later =>
        have first : byteAt (b :: later) 0 = b.val := rfl
        have small := b.isLt
        rw [first] at top
        rw [length_cons] at part
        have seven : (later.take 7).length = 7 := by rw [length_take]; omega
        have rest := big_endian_lt (later.take 7)
        rw [take_succ_cons, big_endian_head, seven]
        rw [seven] at rest
        omega
    rw [eight] at again
    by_cases longer : bigEndian (data.take 8) < 65536
    · rw [if_pos longer] at read
      cases read
    rw [if_neg longer] at read
    cases read
    exact ⟨.long, ⟨by omega, bound⟩, long.symm, again.symm, (big_endian_bytes_length 8 _).symm, by omega⟩
  rw [if_neg long] at read
  cases read
  exact ⟨.short, show short < 126 by omega, rfl, rfl, rfl, Nat.zero_le _⟩

theorem length_of_part {short : Nat} (waits : wsLengthOf short data = .error .needMore) :
    ∃ (form : LengthForm) (length : Nat) (more : List Byte), form.Holds length ∧ form.field length = short ∧
      126 ≤ short ∧ more ≠ [] ∧ data ++ more = form.bytes length := by
  have filled : ∀ {count : Nat}, data.length < count → ∃ more : List Byte, more ≠ [] ∧ (data ++ more).length = count := by
    intro count short_
    refine ⟨List.replicate (count - data.length) 0, ?_, ?_⟩
    · intro nothing
      have zero := congrArg List.length nothing
      rw [length_replicate, length_nil] at zero
      omega
    rw [length_append, length_replicate]
    omega
  unfold wsLengthOf at waits
  by_cases medium : short = 126
  · rw [if_pos medium] at waits
    by_cases part : data.length < 2
    · obtain ⟨more, some_, two⟩ := filled part
      have bound := big_endian_lt (data ++ more)
      have again := bytes_of_big_endian (data ++ more)
      rw [two] at bound again
      exact ⟨.medium, _, more, bound, medium.symm, by omega, some_, again.symm⟩
    rw [if_neg part] at waits
    dsimp only at waits
    split_ifs at waits
    cases waits
  rw [if_neg medium] at waits
  by_cases long : short = 127
  · rw [if_pos long] at waits
    by_cases part : data.length < 8
    · have top : data = [] ∨ byteAt data 0 / 128 ≠ 1 := by
        by_cases none_ : data.length < 1
        · exact .inl (length_eq_zero_iff.mp (by omega))
        rw [if_neg none_] at waits
        refine .inr fun set_ => ?_
        rw [if_pos set_] at waits
        cases waits
      have filledLow : ∃ more : List Byte, more ≠ [] ∧ (data ++ more).length = 8 ∧ bigEndian (data ++ more) < 2 ^ 63 := by
        obtain ⟨more, some_, eight⟩ := filled part
        cases data with
        | nil => exact ⟨List.replicate 8 0, by decide, by decide, by decide⟩
        | cons b later =>
          have low := top.resolve_left (cons_ne_nil _ _)
          have first : byteAt (b :: later) 0 = b.val := rfl
          have small := b.isLt
          rw [first] at low
          refine ⟨more, some_, eight, ?_⟩
          have rest := big_endian_lt (later ++ more)
          rw [cons_append, length_cons] at eight
          rw [show (later ++ more).length = 7 by omega] at rest
          rw [cons_append, big_endian_head, show (later ++ more).length = 7 by omega]
          omega
      obtain ⟨more, some_, eight, bound⟩ := filledLow
      have again := bytes_of_big_endian (data ++ more)
      rw [eight] at again
      exact ⟨.long, _, more, bound, long.symm, by omega, some_, again.symm⟩
    rw [if_neg (by omega), if_neg part] at waits
    dsimp only at waits
    split_ifs at waits <;> cases waits
  rw [if_neg long] at waits
  cases waits

theorem code_le (op : WsOpcode) : op.code < 16 := by
  cases op <;> decide

theorem parse_fields (wellFormed : WellFormed f) (holds : form.Holds f.length)
    (small : f.opcode.control = true → form.field f.length ≤ wsMaxControl) (tail : List Byte) :
    wsFrameParse (firstByte f :: secondByte form f :: tail) = match wsLengthOf (form.field f.length) tail with
      | .error err => .error err
      | .ok (length, extended) =>
        if f.masked then
          if tail.length < extended + 4 then .error .needMore
          else .ok ({ f with mask := (tail.drop extended).take 4, length := length }, extended + 6)
        else .ok ({ f with length := length }, extended + 2) := by
  obtain ⟨reserved, known, fin, rsv1⟩ := first_byte_fields f
  obtain ⟨field, masked⟩ := second_byte_fields holds
  have first : byteAt (firstByte f :: secondByte form f :: tail) 0 = (firstByte f).val := rfl
  have second : byteAt (firstByte f :: secondByte form f :: tail) 1 = (secondByte form f).val := rfl
  have allowed : ¬ (f.rsv1 = true ∧ (f.opcode.control = true ∨ f.opcode = .continuation)) := by
    rintro ⟨set_, control | continuation⟩
    · rw [(wellFormed.beginning set_).1] at control
      cases control
    · exact (wellFormed.beginning set_).2 continuation
  have whole : ¬ (f.opcode.control = true ∧ ¬ f.fin = true) := fun ⟨control, broken⟩ => broken (wellFormed.whole control)
  have short : ¬ (f.opcode.control = true ∧ wsMaxControl < form.field f.length) :=
    fun ⟨control, large⟩ => not_lt.mpr (small control) large
  unfold wsFrameParse
  dsimp only
  rw [length_cons, length_cons, if_neg (by omega), first, second, if_neg (by omega), known]
  dsimp only
  rw [fin, rsv1, field, masked, if_neg allowed, if_neg whole, if_neg (by omega), if_neg short]
  simp only [drop_succ_cons, drop_zero]
  cases wsLengthOf (form.field f.length) tail with
  | error err => rfl
  | ok read =>
    obtain ⟨length, extended⟩ := read
    dsimp only
    have skip : (firstByte f :: secondByte form f :: tail).drop (2 + extended) = tail.drop extended := by
      rw [add_comm, drop_succ_cons, drop_succ_cons]
    rw [skip]
    cases isMasked : f.masked with
    | true =>
      rw [if_pos rfl, if_pos rfl, show 2 + extended + 4 = extended + 6 by omega]
      by_cases part : tail.length < extended + 4
      · rw [if_pos part, if_pos (by omega)]
      · rw [if_neg part, if_neg (by omega)]
    | false =>
      rw [if_neg (by decide), if_neg (by decide), wellFormed.plain isMasked, add_comm]

theorem front_cons (form : LengthForm) (f : WsFrame) (rest : List Byte) :
    headerBytes form f ++ rest = firstByte f :: secondByte form f :: (form.bytes f.length ++ (maskBytes f ++ rest)) := by
  unfold headerBytes frontBytes
  rw [append_assoc, cons_append, cons_append]

theorem shortest_field (shortest : form.Shortest f.length) (control : f.length ≤ wsMaxControl) :
    form.field f.length ≤ wsMaxControl := by
  have bound : wsMaxControl = 125 := rfl
  cases form with
  | short => exact control
  | medium =>
    have large : 126 ≤ f.length := shortest.1
    omega
  | long =>
    have large : 2 ^ 16 ≤ f.length := shortest.1
    omega

theorem length_of_field {length short : Nat} (shortest : form.Shortest length) (field : form.field length = short)
    (small : short ≤ wsMaxControl) : length ≤ wsMaxControl := by
  have bound : wsMaxControl = 125 := rfl
  rw [← field, bound] at small
  cases form with
  | short => exact small
  | medium => exact absurd small (show ¬ 126 ≤ 125 by decide)
  | long => exact absurd small (show ¬ 127 ≤ 125 by decide)

theorem mask_length (wellFormed : WellFormed f) : (maskBytes f).length = if f.masked then 4 else 0 := by
  unfold maskBytes
  cases f.masked with
  | true => exact wellFormed.four
  | false => rfl

theorem parse_heads (heads : Heads f data rest) : ∃ n, wsFrameParse data = .ok (f, n) ∧ data.drop n = rest := by
  obtain ⟨wellFormed, form, shortest, rfl⟩ := heads
  have parsed := parse_fields wellFormed (shortest_holds shortest)
    (fun control => shortest_field shortest (wellFormed.small control)) (form.bytes f.length ++ (maskBytes f ++ rest))
  rw [(length_read (shortest_holds shortest) _).1 shortest, ← front_cons] at parsed
  dsimp only at parsed
  refine ⟨(headerBytes form f).length, ?_, drop_left⟩
  have size : (headerBytes form f).length = 2 + (form.bytes f.length).length + (maskBytes f).length := by
    unfold headerBytes frontBytes
    rw [length_append, length_cons, length_cons]
    omega
  rw [parsed, size, mask_length wellFormed]
  cases masked : f.masked with
  | true =>
    have mask : maskBytes f = f.mask := by
      unfold maskBytes
      rw [masked]
      rfl
    rw [if_pos rfl, if_pos rfl, drop_left, mask, take_left' wellFormed.four, length_append, length_append,
      wellFormed.four, if_neg (by omega), show (form.bytes f.length).length + 6 = 2 + (form.bytes f.length).length + 4 by omega,
      ← masked]
  | false =>
    rw [if_neg (by decide), if_neg (by decide), add_comm _ 2, add_zero (2 + _), ← masked]

def FirstFine (b0 : Byte) (op : WsOpcode) : Prop :=
  b0.val / 16 % 4 = 0 ∧ wsOpcodeOf (b0.val % 16) = some op ∧
    ¬ (decide (b0.val / 64 % 2 = 1) = true ∧ (op.control = true ∨ op = .continuation)) ∧
    ¬ (op.control = true ∧ ¬ decide (b0.val / 128 = 1) = true)

variable {b0 : Byte}

theorem parse_first {later : List Byte} (passed : wsFrameParse (b0 :: later) ≠ .error .invalidFormat) :
    ∃ op, FirstFine b0 op ∧ (later = [] → wsFrameParse (b0 :: later) = .error .needMore) := by
  have first : byteAt (b0 :: later) 0 = b0.val := rfl
  unfold wsFrameParse at passed ⊢
  dsimp only at passed ⊢
  rw [length_cons, if_neg (by omega), first] at passed ⊢
  by_cases reserved : b0.val / 16 % 4 = 0
  · rw [if_neg (by omega)] at passed ⊢
    cases known : wsOpcodeOf (b0.val % 16) with
    | none =>
      rw [known] at passed
      exact absurd rfl passed
    | some op =>
      rw [known] at passed
      dsimp only at passed ⊢
      have allowed : ¬ (decide (b0.val / 64 % 2 = 1) = true ∧ (op.control = true ∨ op = .continuation)) := by
        intro refused
        rw [if_pos refused] at passed
        exact passed rfl
      have whole : ¬ (op.control = true ∧ ¬ decide (b0.val / 128 = 1) = true) := by
        intro refused
        rw [if_pos refused, ite_self] at passed
        exact passed rfl
      refine ⟨op, ⟨reserved, known, allowed, whole⟩, ?_⟩
      intro alone
      rw [if_neg allowed, if_neg whole, alone, if_pos (by decide)]
  rw [if_pos reserved] at passed
  exact absurd rfl passed

def frameOf (b0 b1 : Byte) (op : WsOpcode) (length : Nat) (mask : List Byte) : WsFrame :=
  { fin := decide (b0.val / 128 = 1)
    opcode := op
    masked := decide (b1.val / 128 = 1)
    mask := mask
    length := length
    rsv1 := decide (b0.val / 64 % 2 = 1) }

theorem frame_of_well_formed {b1 : Byte} {length : Nat} {mask : List Byte} (fine : FirstFine b0 op)
    (small : op.control = true → length ≤ wsMaxControl) (four : mask.length = 4)
    (plain : decide (b1.val / 128 = 1) = false → mask = noMask) : WellFormed (frameOf b0 b1 op length mask) where
  whole := fun control => by_contra fun broken => fine.2.2.2 ⟨control, broken⟩
  small := small
  beginning := fun set_ =>
    ⟨Bool.eq_false_iff.mpr fun control => fine.2.2.1 ⟨set_, .inl control⟩, fun same => fine.2.2.1 ⟨set_, .inr same⟩⟩
  four := four
  plain := plain

theorem frame_of_first (fine : FirstFine b0 op) (b1 : Byte) (length : Nat) (mask : List Byte) :
    firstByte (frameOf b0 b1 op length mask) = b0 := first_byte_of fine.1 fine.2.1 rfl rfl rfl

theorem parse_second {b1 : Byte} {tail : List Byte} (passed : wsFrameParse (b0 :: b1 :: tail) ≠ .error .invalidFormat) :
    ∃ op, FirstFine b0 op ∧ (op.control = true → b1.val % 128 ≤ wsMaxControl) ∧ wsFrameParse (b0 :: b1 :: tail) =
        match wsLengthOf (b1.val % 128) tail with
        | .error err => .error err
        | .ok (length, extended) =>
          if decide (b1.val / 128 = 1) then
            if tail.length < extended + 4 then .error .needMore
            else .ok (frameOf b0 b1 op length ((tail.drop extended).take 4), extended + 6)
          else .ok (frameOf b0 b1 op length noMask, extended + 2) := by
  obtain ⟨op, fine, _⟩ := parse_first passed
  refine ⟨op, fine, ?_⟩
  obtain ⟨reserved, known, allowed, whole⟩ := fine
  have first : byteAt (b0 :: b1 :: tail) 0 = b0.val := rfl
  have second : byteAt (b0 :: b1 :: tail) 1 = b1.val := rfl
  have further : wsFrameParse (b0 :: b1 :: tail) =
      if op.control ∧ wsMaxControl < b1.val % 128 then .error .invalidFormat
      else
        match wsLengthOf (b1.val % 128) tail with
        | .error err => .error err
        | .ok (length, extended) =>
          if decide (b1.val / 128 = 1) then
            if tail.length < extended + 4 then .error .needMore
            else .ok (frameOf b0 b1 op length ((tail.drop extended).take 4), extended + 6)
          else .ok (frameOf b0 b1 op length noMask, extended + 2) := by
    unfold wsFrameParse
    dsimp only
    rw [length_cons, length_cons, if_neg (by omega), first, second, if_neg (by omega), known]
    dsimp only
    rw [if_neg allowed, if_neg whole, if_neg (by omega)]
    simp only [drop_succ_cons, drop_zero]
    refine if_congr Iff.rfl rfl ?_
    cases wsLengthOf (b1.val % 128) tail with
    | error err => rfl
    | ok read =>
      obtain ⟨length, extended⟩ := read
      dsimp only
      have skip : (b0 :: b1 :: tail).drop (2 + extended) = tail.drop extended := by
        rw [add_comm, drop_succ_cons, drop_succ_cons]
      unfold frameOf
      rw [skip, show 2 + extended + 4 = extended + 6 by omega, add_comm 2]
      cases isMasked : decide (b1.val / 128 = 1) with
      | true =>
        rw [if_pos rfl, if_pos rfl]
        by_cases part : tail.length < extended + 4
        · rw [if_pos part, if_pos (by omega)]
        · rw [if_neg part, if_neg (by omega)]
      | false => rw [if_neg (by decide), if_neg (by decide)]
  rw [further] at passed ⊢
  by_cases refused : op.control = true ∧ wsMaxControl < b1.val % 128
  · rw [if_pos refused] at passed
    exact absurd rfl passed
  rw [if_neg refused]
  exact ⟨fun control => not_lt.mp fun large => refused ⟨control, large⟩, rfl⟩

theorem heads_of_parse {n : Nat} (parsed : wsFrameParse data = .ok (f, n)) :
    Heads f data (data.drop n) ∧ 2 ≤ n ∧ n ≤ data.length := by
  cases data with
  | nil => cases parsed
  | cons b0 later =>
    cases later with
    | nil =>
      obtain ⟨op, _, waits⟩ := parse_first (show wsFrameParse [b0] ≠ _ by rw [parsed]; exact nofun)
      rw [waits rfl] at parsed
      cases parsed
    | cons b1 tail =>
      obtain ⟨op, fine, control, said⟩ := parse_second (by rw [parsed]; exact nofun)
      have seven : b1.val % 128 < 128 := Nat.mod_lt _ (by decide)
      rw [said] at parsed
      cases read : wsLengthOf (b1.val % 128) tail with
      | error err => rw [read] at parsed; cases parsed
      | ok got =>
        obtain ⟨length, extended⟩ := got
        rw [read] at parsed
        dsimp only at parsed
        obtain ⟨form, shortest, field, bytes, size, inside⟩ := length_of_read seven read
        have small : op.control = true → length ≤ wsMaxControl := fun isControl =>
          length_of_field shortest field (control isControl)
        have headed : ∀ mask, WellFormed (frameOf b0 b1 op length mask) →
            (tail.drop extended).take (maskBytes (frameOf b0 b1 op length mask)).length =
              maskBytes (frameOf b0 b1 op length mask) →
            Heads (frameOf b0 b1 op length mask) (b0 :: b1 :: tail)
              (tail.drop (extended + (maskBytes (frameOf b0 b1 op length mask)).length)) := by
          intro mask wellFormed masks
          refine ⟨wellFormed, form, shortest, ?_⟩
          rw [front_cons, frame_of_first fine, second_byte_of field rfl]
          have parts : tail = tail.take extended ++ tail.drop extended := (take_append_drop _ _).symm
          have later := (take_append_drop (maskBytes (frameOf b0 b1 op length mask)).length (tail.drop extended)).symm
          rw [masks, drop_drop] at later
          rw [← later, show (frameOf b0 b1 op length mask).length = length from rfl, ← bytes, ← parts]
        cases isMasked : decide (b1.val / 128 = 1) with
        | false =>
          rw [isMasked, if_neg (by decide)] at parsed
          cases parsed
          have none_ : maskBytes (frameOf b0 b1 op length noMask) = [] := if_neg (by rw [frameOf]; simp [isMasked])
          have heads := headed noMask (frame_of_well_formed fine small rfl fun _ => rfl) (by rw [none_]; rfl)
          rw [none_] at heads
          rw [drop_succ_cons, drop_succ_cons, length_cons, length_cons]
          exact ⟨heads, by omega, by omega⟩
        | true =>
          rw [isMasked, if_pos rfl] at parsed
          by_cases part : tail.length < extended + 4
          · rw [if_pos part] at parsed
            cases parsed
          rw [if_neg part] at parsed
          cases parsed
          have four : ((tail.drop extended).take 4).length = 4 := by
            rw [length_take, length_drop]
            omega
          have mask : maskBytes (frameOf b0 b1 op length ((tail.drop extended).take 4)) = (tail.drop extended).take 4 :=
            if_pos isMasked
          have heads := headed _ (frame_of_well_formed fine small four fun plain => by rw [isMasked] at plain; cases plain)
            (by rw [mask, four])
          rw [mask, four] at heads
          rw [show extended + 6 = extended + 4 + 1 + 1 by omega, drop_succ_cons, drop_succ_cons,
            length_cons, length_cons]
          exact ⟨heads, by omega, by omega⟩

theorem begun_of_parse (waits : wsFrameParse data = .error .needMore) : Begun data := by
  cases data with
  | nil =>
    have fine : FirstFine 0x81 .text := ⟨by decide, by decide, by decide, by decide⟩
    exact ⟨frameOf 0x81 0 .text 0 noMask, .short, frontBytes .short (frameOf 0x81 0 .text 0 noMask),
      frame_of_well_formed fine (fun _ => Nat.zero_le _) rfl (fun _ => rfl), (by decide : 0 < 126), (fun _ => Nat.zero_le _),
      cons_ne_nil _ _, Or.inl (nil_append _)⟩
  | cons b0 later =>
    cases later with
    | nil =>
      obtain ⟨op, fine, _⟩ := parse_first (show wsFrameParse [b0] ≠ _ by rw [waits]; exact nofun)
      refine ⟨frameOf b0 0 op 0 noMask, .short, [secondByte .short (frameOf b0 0 op 0 noMask)],
        frame_of_well_formed fine (fun _ => Nat.zero_le _) rfl (fun _ => rfl), (by decide : 0 < 126), (fun _ => Nat.zero_le _),
        cons_ne_nil _ _, Or.inl ?_⟩
      unfold frontBytes
      rw [frame_of_first fine]
      rfl
    | cons b1 tail =>
      obtain ⟨op, fine, control, said⟩ := parse_second (by rw [waits]; exact nofun)
      have seven : b1.val % 128 < 128 := Nat.mod_lt _ (by decide)
      have bound : wsMaxControl = 125 := rfl
      rw [said] at waits
      cases read : wsLengthOf (b1.val % 128) tail with
      | error err =>
        rw [read] at waits
        cases waits
        obtain ⟨form, length, more, holds, field, large, some_, part⟩ := length_of_part read
        have notControl : op.control = true → length ≤ wsMaxControl := by
          intro isControl
          have limit := control isControl
          omega
        refine ⟨frameOf b0 b1 op length noMask, form, more, frame_of_well_formed fine notControl rfl (fun _ => rfl), holds,
          fun isControl => ?_, some_, Or.inl ?_⟩
        · show form.field length ≤ wsMaxControl
          rw [field]
          exact control isControl
        unfold frontBytes
        rw [frame_of_first fine, second_byte_of field rfl, cons_append, cons_append, part]
        rfl
      | ok got =>
        obtain ⟨length, extended⟩ := got
        rw [read] at waits
        dsimp only at waits
        obtain ⟨form, shortest, field, bytes, size, inside⟩ := length_of_read seven read
        cases isMasked : decide (b1.val / 128 = 1) with
        | false =>
          rw [isMasked, if_neg (by decide)] at waits
          cases waits
        | true =>
          rw [isMasked, if_pos rfl] at waits
          by_cases part : tail.length < extended + 4
          · have short : (tail.drop extended).length < 4 := by
              rw [length_drop]
              omega
            have small : op.control = true → length ≤ wsMaxControl := fun isControl =>
              length_of_field shortest field (control isControl)
            have filled : (tail.drop extended ++ List.replicate (4 - (tail.drop extended).length) 0).length = 4 := by
              rw [length_append, length_replicate]
              omega
            refine ⟨frameOf b0 b1 op length (tail.drop extended ++ List.replicate (4 - (tail.drop extended).length) 0), form,
              List.replicate (4 - (tail.drop extended).length) 0,
              frame_of_well_formed fine small filled (fun plain => by rw [isMasked] at plain; cases plain),
              shortest_holds shortest, fun isControl => ?_, ?_, Or.inr ⟨shortest, ?_⟩⟩
            · show form.field length ≤ wsMaxControl
              rw [field]
              exact control isControl
            · intro nothing
              have zero := congrArg List.length nothing
              rw [length_replicate, length_nil] at zero
              omega
            have header := front_cons form (frameOf b0 b1 op length
              (tail.drop extended ++ List.replicate (4 - (tail.drop extended).length) 0)) []
            rw [append_nil, append_nil, frame_of_first fine, second_byte_of field rfl] at header
            have masks : maskBytes (frameOf b0 b1 op length
              (tail.drop extended ++ List.replicate (4 - (tail.drop extended).length) 0)) = _ := if_pos isMasked
            rw [header, masks, cons_append, cons_append]
            show b0 :: b1 :: (tail ++ _) = b0 :: b1 :: (form.bytes length ++ (tail.drop extended ++ _))
            rw [← bytes, ← append_assoc, take_append_drop]
          rw [if_neg part] at waits
          cases waits

theorem parse_first_byte (wellFormed : WellFormed f) : wsFrameParse [firstByte f] = .error .needMore := by
  obtain ⟨reserved, known, fin, rsv1⟩ := first_byte_fields f
  have first : byteAt [firstByte f] 0 = (firstByte f).val := rfl
  have allowed : ¬ (f.rsv1 = true ∧ (f.opcode.control = true ∨ f.opcode = .continuation)) := by
    rintro ⟨set_, control | continuation⟩
    · rw [(wellFormed.beginning set_).1] at control
      cases control
    · exact (wellFormed.beginning set_).2 continuation
  have whole : ¬ (f.opcode.control = true ∧ ¬ f.fin = true) := fun ⟨control, broken⟩ => broken (wellFormed.whole control)
  unfold wsFrameParse
  dsimp only
  rw [length_singleton, first, if_neg (by decide), if_neg (by omega), known]
  dsimp only
  rw [fin, rsv1, if_neg allowed, if_neg whole, if_pos (by decide)]

theorem parse_of_begun (begun : Begun data) : wsFrameParse data = .error .needMore := by
  obtain ⟨f, form, more, wellFormed, holds, small, some_, part⟩ := begun
  have front : ∃ tail, data ++ more = firstByte f :: secondByte form f :: tail := by
    rcases part with part | ⟨_, part⟩
    · exact ⟨_, part⟩
    have header := front_cons form f []
    rw [append_nil] at header
    exact ⟨_, part.trans header⟩
  obtain ⟨after, front⟩ := front
  cases data with
  | nil => rfl
  | cons b0 later =>
    obtain ⟨rfl, front'⟩ := List.cons.inj front
    cases later with
    | nil => exact parse_first_byte wellFormed
    | cons b1 tail =>
      obtain ⟨rfl, _⟩ := List.cons.inj front'
      rw [parse_fields wellFormed holds small]
      have lengthPart : ∀ more' : List Byte, more' ≠ [] → tail ++ more' = form.bytes f.length →
          wsLengthOf (form.field f.length) tail = .error .needMore := fun more' some' whole => length_part holds some' whole
      rcases part with part | ⟨shortest, part⟩
      · unfold frontBytes at part
        rw [cons_append, cons_append] at part
        rw [lengthPart more some_ (List.cons.inj (List.cons.inj part).2).2]
      have header := front_cons form f []
      rw [append_nil, append_nil] at header
      rw [header, cons_append, cons_append] at part
      have whole := (List.cons.inj (List.cons.inj part).2).2
      rcases append_eq_append_iff.mp whole with ⟨missing, bytes, rest⟩ | ⟨found, tailSplit, masks⟩
      · by_cases nothing : missing = []
        · rw [nothing, append_nil] at bytes
          rw [nothing, nil_append] at rest
          have read := (length_read holds []).1 shortest
          rw [append_nil, bytes] at read
          rw [read]
          have sizes := congrArg List.length rest
          rw [mask_length wellFormed] at sizes
          have positive := length_pos_iff.mpr some_
          dsimp only
          cases isMasked : f.masked with
          | true => rw [if_pos rfl, if_pos (by omega)]
          | false =>
            rw [isMasked, if_neg (by decide)] at sizes
            omega
        · rw [lengthPart missing nothing bytes.symm]
      have read := (length_read holds found).1 shortest
      rw [← tailSplit] at read
      rw [read]
      have sizes := congrArg List.length masks
      rw [mask_length wellFormed, length_append] at sizes
      have positive := length_pos_iff.mpr some_
      have long := congrArg List.length tailSplit
      rw [length_append] at long
      dsimp only
      cases isMasked : f.masked with
      | true =>
        rw [isMasked, if_pos rfl] at sizes
        rw [if_pos rfl, if_pos (by omega)]
      | false =>
        rw [isMasked, if_neg (by decide)] at sizes
        omega

end ProvenC.Ws.Header
