import ProvenC.Ws.Pieces

/-!
# Frame headers written

The writer appends the header of a frame it is given field by field, with any byte for an opcode and any
number for a length.
-/

namespace ProvenC.Ws.Writing

open List Bytes Lib.BigEndian Ws.Frame Ws.Header

/-- `proven_ws_frame_t` as the writer is given it. -/
structure FrameFields where
  fin : Bool
  opcode : Byte
  masked : Bool
  mask : List.Vector Byte 4
  length : Nat
  rsv1 : Bool

/-- `frame->opcode & 0x08` -/
def FrameFields.control (frame : FrameFields) : Bool := frame.opcode.val / 8 % 2 = 1

def wsLengthBytes (maskBit length : Nat) : List Byte :=
  if length < 126 then [byteOf (maskBit ||| length)]
  else if length < 65536 then [byteOf (maskBit ||| 126), byteOf (length >>> 8), byteOf length]
  else byteOf (maskBit ||| 127) :: [56, 48, 40, 32, 24, 16, 8, 0].map fun shift => byteOf (length >>> shift)

/-- The bytes `h` of `proven_ws_frame_write`. -/
def wsHeaderOf (frame : FrameFields) : List Byte :=
  byteOf ((if frame.fin then 0x80 else 0) ||| (if frame.rsv1 then 0x40 else 0) ||| frame.opcode.val) ::
    (wsLengthBytes (if frame.masked then 0x80 else 0) frame.length ++ if frame.masked then frame.mask.toList else [])

/-- `proven_ws_frame_write`, on a buffer of `cap` bytes of which `out` are written. -/
def wsFrameWrite (cap : Nat) (out : List Byte) (frame : FrameFields) : Except ProvenErr (List Byte) :=
  if cap < out.length then .error .invalidArg
  else
    match wsOpcodeOf frame.opcode.val with
    | none => .error .invalidArg
    | some opcode =>
      if frame.length >>> 63 ≠ 0 then .error .invalidArg
      else if frame.control ∧ (¬ frame.fin ∨ wsMaxControl < frame.length) then .error .invalidArg
      else if frame.rsv1 ∧ (frame.control ∨ opcode = .continuation) then .error .invalidArg
      else if cap - out.length < (wsHeaderOf frame).length then .error .outOfBounds
      else .ok (out ++ wsHeaderOf frame)

def maskPieces (mask : List Byte) : Nat → List (List Byte) → List (List Byte)
  | _, [] => []
  | offset, piece :: pieces => wsMask piece mask offset :: maskPieces mask (offset + piece.length) pieces

structure Same (frame : FrameFields) (f : WsFrame) : Prop where
  fin : f.fin = frame.fin
  opcode : f.opcode.code = frame.opcode.val
  masked : f.masked = frame.masked
  mask : f.mask = if frame.masked then frame.mask.toList else noMask
  length : f.length = frame.length
  rsv1 : f.rsv1 = frame.rsv1

variable {frame : FrameFields} {f : WsFrame} {cap : Nat} {out : List Byte}

def formOf (length : Nat) : LengthForm := if length < 126 then .short else if length < 65536 then .medium else .long

theorem form_shortest {length : Nat} (small : length < 2 ^ 63) : (formOf length).Shortest length := by
  unfold formOf
  by_cases short : length < 126
  · rw [if_pos short]
    exact short
  rw [if_neg short]
  by_cases medium : length < 65536
  · rw [if_pos medium]
    exact ⟨le_of_not_gt short, medium⟩
  rw [if_neg medium]
  exact ⟨le_of_not_gt medium, small⟩

theorem shortest_form {form : LengthForm} {length : Nat} (shortest : form.Shortest length) : formOf length = form := by
  unfold formOf
  cases form with
  | short => exact if_pos shortest
  | medium => exact (if_neg (not_lt.mpr shortest.1)).trans (if_pos shortest.2)
  | long =>
    have large : 2 ^ 16 ≤ length := shortest.1
    rw [if_neg (by omega), if_neg (by omega)]

theorem first_byte_or (same : Same frame f) :
    byteOf ((if frame.fin then 0x80 else 0) ||| (if frame.rsv1 then 0x40 else 0) ||| frame.opcode.val) = firstByte f := by
  unfold firstByte
  rw [← same.opcode, ← same.fin, ← same.rsv1]
  cases f.fin <;> cases f.rsv1 <;> cases f.opcode <;> decide

theorem mask_bit_or {field : Nat} (masked : Bool) (small : field < 128) :
    (if masked then 0x80 else 0) ||| field = (if masked then 128 else 0) + field := by
  cases masked with
  | false => rw [if_neg (by decide), Nat.zero_or, zero_add]
  | true => exact (Nat.two_pow_add_eq_or_of_lt (i := 7) small 1).symm

theorem byte_of_nat (value : Nat) : Fin.ofNat 256 value = byteOf value := rfl

theorem length_bytes_form (masked : Bool) (length : Nat) (small : length < 2 ^ 63) :
    wsLengthBytes (if masked then 0x80 else 0) length =
      byteOf ((if masked then 128 else 0) + (formOf length).field length) :: (formOf length).bytes length := by
  have shortest := form_shortest small
  unfold wsLengthBytes formOf
  by_cases short : length < 126
  · rw [if_pos short, if_pos short, mask_bit_or masked (by omega)]
    rfl
  rw [if_neg short, if_neg short]
  by_cases medium : length < 65536
  · rw [if_pos medium, if_pos medium, mask_bit_or masked (by decide), Nat.shiftRight_eq_div_pow]
    rfl
  rw [if_neg medium, if_neg medium, mask_bit_or masked (by decide)]
  simp only [LengthForm.bytes, LengthForm.field, bigEndianBytes, byte_of_nat, List.map, Nat.shiftRight_eq_div_pow,
    Nat.div_div_eq_div_mul, Nat.reduceMul, Nat.reducePow, Nat.div_one, nil_append, cons_append]

theorem header_of_same (same : Same frame f) (small : frame.length < 2 ^ 63) :
    wsHeaderOf frame = headerBytes (formOf f.length) f := by
  unfold wsHeaderOf headerBytes frontBytes secondByte maskBytes
  rw [first_byte_or same, length_bytes_form frame.masked frame.length small, same.length, same.masked, same.mask]
  cases frame.masked <;> rfl

theorem fields_of_write {out' : List Byte} (wrote : wsFrameWrite cap out frame = .ok out') :
    ∃ f : WsFrame, Same frame f ∧ WellFormed f ∧ frame.length < 2 ^ 63 ∧ out' = out ++ wsHeaderOf frame := by
  unfold wsFrameWrite at wrote
  by_cases outside : cap < out.length
  · rw [if_pos outside] at wrote
    cases wrote
  rw [if_neg outside] at wrote
  cases known : wsOpcodeOf frame.opcode.val with
  | none =>
    rw [known] at wrote
    cases wrote
  | some opcode =>
    rw [known] at wrote
    dsimp only at wrote
    by_cases large : frame.length >>> 63 ≠ 0
    · rw [if_pos large] at wrote
      cases wrote
    rw [if_neg large] at wrote
    by_cases broken : frame.control ∧ (¬ frame.fin ∨ wsMaxControl < frame.length)
    · rw [if_pos broken] at wrote
      cases wrote
    rw [if_neg broken] at wrote
    by_cases reserved : frame.rsv1 ∧ (frame.control ∨ opcode = .continuation)
    · rw [if_pos reserved] at wrote
      cases wrote
    rw [if_neg reserved] at wrote
    by_cases full : cap - out.length < (wsHeaderOf frame).length
    · rw [if_pos full] at wrote
      cases wrote
    rw [if_neg full] at wrote
    cases wrote
    have code := opcode_of_code known
    have control : opcode.control = frame.control := by
      unfold WsOpcode.control FrameFields.control
      rw [code]
    rw [Nat.shiftRight_eq_div_pow] at large
    refine ⟨⟨frame.fin, opcode, frame.masked, if frame.masked then frame.mask.toList else noMask, frame.length, frame.rsv1⟩,
      ⟨rfl, code, rfl, rfl, rfl, rfl⟩, ⟨fun isControl => ?_, fun isControl => ?_, fun set_ => ?_, ?_, fun plain => ?_⟩,
      by omega, rfl⟩
    · rw [control] at isControl
      by_contra split
      exact broken ⟨isControl, .inl split⟩
    · rw [control] at isControl
      exact le_of_not_gt fun longer => broken ⟨isControl, .inr longer⟩
    · refine ⟨?_, fun isContinuation => reserved ⟨set_, .inr isContinuation⟩⟩
      show opcode.control = false
      rw [control]
      exact Bool.eq_false_iff.mpr fun isControl => reserved ⟨set_, .inl isControl⟩
    · show (if frame.masked then frame.mask.toList else noMask).length = 4
      split_ifs
      · exact frame.mask.toList_length
      · rfl
    have none_ : frame.masked = false := plain
    show (if frame.masked then frame.mask.toList else noMask) = noMask
    rw [none_]
    rfl

theorem write_of_fields (same : Same frame f) (wellFormed : WellFormed f) (small : frame.length < 2 ^ 63)
    (room : out.length + (wsHeaderOf frame).length ≤ cap) : wsFrameWrite cap out frame = .ok (out ++ wsHeaderOf frame) := by
  have known : wsOpcodeOf frame.opcode.val = some f.opcode := by
    rw [← same.opcode]
    cases f.opcode <;> rfl
  have control : f.opcode.control = frame.control := by
    unfold WsOpcode.control FrameFields.control
    rw [same.opcode]
  unfold wsFrameWrite
  rw [if_neg (by omega), known]
  dsimp only
  rw [Nat.shiftRight_eq_div_pow, if_neg (by omega), if_neg, if_neg, if_neg (by omega)]
  · rintro ⟨set_, isControl | isContinuation⟩
    all_goals rw [← same.rsv1] at set_
    · rw [← control, (wellFormed.beginning set_).1] at isControl
      cases isControl
    · exact (wellFormed.beginning set_).2 isContinuation
  rintro ⟨isControl, split | longer⟩
  all_goals rw [← control] at isControl
  · exact split (same.fin ▸ wellFormed.whole isControl)
  rw [← same.length] at longer
  exact absurd (wellFormed.small isControl) (not_le.mpr longer)

theorem byte_xor_twice (b key : Byte) : b ^^^ key ^^^ key = b := by
  have small : b.val ^^^ key.val < 256 := Nat.xor_lt_two_pow (n := 8) b.isLt key.isLt
  refine Fin.ext ?_
  rw [Fin.xor_val, Fin.xor_val, Nat.mod_eq_of_lt small, Nat.xor_assoc, Nat.xor_self, Nat.xor_zero, Nat.mod_eq_of_lt b.isLt]

theorem mask_append (mask : List Byte) (offset : Nat) (front back : List Byte) :
    wsMask (front ++ back) mask offset = wsMask front mask offset ++ wsMask back mask (offset + front.length) := by
  unfold wsMask
  rw [mapIdx_append]
  congr 2
  funext i b
  rw [add_assoc, add_comm i]

theorem mask_pieces (mask : List Byte) (offset : Nat) (pieces : List (List Byte)) :
    (maskPieces mask offset pieces).flatten = wsMask pieces.flatten mask offset := by
  induction pieces generalizing offset with
  | nil => rfl
  | cons piece pieces ih =>
    rw [maskPieces, flatten_cons, flatten_cons, ih, mask_append]

theorem mask_twice (mask : List Byte) (offset : Nat) (data : List Byte) : wsMask (wsMask data mask offset) mask offset = data := by
  unfold wsMask
  rw [mapIdx_mapIdx]
  refine ext_getElem (by rw [length_mapIdx]) fun i _ _ => ?_
  rw [getElem_mapIdx]
  exact byte_xor_twice _ _

theorem parse_header (wellFormed : WellFormed f) {form : LengthForm} (shortest : form.Shortest f.length) (rest : List Byte) :
    wsFrameParse (headerBytes form f ++ rest) = .ok (f, (headerBytes form f).length) := by
  have heads : Heads f (headerBytes form f ++ rest) rest := ⟨wellFormed, form, shortest, rfl⟩
  obtain ⟨n, parsed, dropped⟩ := parse_heads heads
  obtain ⟨_, _, inside⟩ := heads_of_parse parsed
  have sizes := congrArg List.length dropped
  rw [length_drop, length_append] at sizes
  rw [length_append] at inside
  rw [parsed, show n = (headerBytes form f).length by omega]

theorem parse_front (wellFormed : WellFormed f) {form : LengthForm} (shortest : form.Shortest f.length) {front more : List Byte}
    (cut : front ++ more = headerBytes form f) (some_ : more ≠ []) : wsFrameParse front = .error .needMore :=
  parse_of_begun ⟨f, form, more, wellFormed, shortest_holds shortest,
    fun control => shortest_field shortest (wellFormed.small control), some_, .inr ⟨shortest, cut⟩⟩

def fieldsOf (f : WsFrame) : FrameFields :=
  { fin := f.fin, opcode := byteOf f.opcode.code, masked := f.masked, mask := List.Vector.ofFn fun i => f.mask.getD i 0,
    length := f.length, rsv1 := f.rsv1 }

theorem fields_same (wellFormed : WellFormed f) : Same (fieldsOf f) f := by
  refine ⟨rfl, ?_, rfl, ?_, rfl, rfl⟩
  · show f.opcode.code = (byteOf f.opcode.code).val
    have small := code_le f.opcode
    rw [byte_of_val, Nat.mod_eq_of_lt (by omega)]
  show f.mask = if f.masked then (List.Vector.ofFn fun i : Fin 4 => f.mask.getD i 0).toList else noMask
  by_cases masked : f.masked = true
  · rw [if_pos masked]
    obtain ⟨a, b, c, d, four⟩ : ∃ a b c d, f.mask = [a, b, c, d] := by
      match f.mask, wellFormed.four with
      | [a, b, c, d], _ => exact ⟨a, b, c, d, rfl⟩
    rw [four]
    rfl
  rw [if_neg masked]
  exact wellFormed.plain (Bool.eq_false_iff.mpr masked)

/-- What is written is read back, and a part of it waited for; what is read is what the writer writes,
its length in the shortest form; and a payload masked twice is as it was, however it is cut. -/
theorem ws_frame_headers :
    (∀ (cap : Nat) (out out' : List Byte) (frame : FrameFields), wsFrameWrite cap out frame = .ok out' →
      ∃ (header : List Byte) (f : WsFrame), out' = out ++ header ∧ Same frame f ∧
        (∀ rest, wsFrameParse (header ++ rest) = .ok (f, header.length)) ∧
        ∀ front more, front ++ more = header → more ≠ [] → wsFrameParse front = .error .needMore) ∧
    (∀ (cap : Nat) (out : List Byte) (frame : FrameFields), frame.length < 2 ^ 63 → (wsOpcodeOf frame.opcode.val).isSome →
      (frame.control = true → frame.fin = true ∧ frame.length ≤ wsMaxControl) →
      (frame.rsv1 = true → frame.control = false ∧ frame.opcode.val ≠ 0) → out.length + (wsHeaderOf frame).length ≤ cap →
      ∃ out', wsFrameWrite cap out frame = .ok out') ∧
    (∀ (data : List Byte) (f : WsFrame) (n : Nat), wsFrameParse data = .ok (f, n) →
      wsFrameWrite n [] (fieldsOf f) = .ok (data.take n) ∧
        ∃ form : LengthForm, form.Shortest f.length ∧ data.take n = headerBytes form f) ∧
    ∀ (mask : List Byte) (offset : Nat) (pieces again : List (List Byte)),
      again.flatten = (maskPieces mask offset pieces).flatten → (maskPieces mask offset again).flatten = pieces.flatten := by
  refine ⟨fun cap out out' frame wrote => ?_, fun cap out frame small known control beginning room => ?_,
    fun data f n parsed => ?_, fun mask offset pieces again same => ?_⟩
  · obtain ⟨f, same, wellFormed, small, rfl⟩ := fields_of_write wrote
    have shortest : (formOf f.length).Shortest f.length := form_shortest (same.length ▸ small)
    rw [header_of_same same small]
    exact ⟨_, f, rfl, same, parse_header wellFormed shortest, fun front more cut some_ => parse_front wellFormed shortest cut some_⟩
  · obtain ⟨opcode, isKnown⟩ := Option.isSome_iff_exists.mp known
    have code := opcode_of_code isKnown
    have isControl : opcode.control = frame.control := by
      unfold WsOpcode.control FrameFields.control
      rw [code]
    refine ⟨_, write_of_fields (f := ⟨frame.fin, opcode, frame.masked, if frame.masked then frame.mask.toList else noMask,
      frame.length, frame.rsv1⟩) ⟨rfl, code, rfl, rfl, rfl, rfl⟩ ⟨fun is => ?_, fun is => ?_, fun set_ => ?_, ?_, fun plain => ?_⟩
      small room⟩
    · exact (control (isControl ▸ is)).1
    · exact (control (isControl ▸ is)).2
    · refine ⟨isControl.trans (beginning set_).1, fun isContinuation => (beginning set_).2 ?_⟩
      have zero : opcode = .continuation := isContinuation
      rw [← code, zero]
      rfl
    · show (if frame.masked then frame.mask.toList else noMask).length = 4
      split_ifs
      · exact frame.mask.toList_length
      · rfl
    have none_ : frame.masked = false := plain
    show (if frame.masked then frame.mask.toList else noMask) = noMask
    rw [none_]
    rfl
  · obtain ⟨⟨wellFormed, form, shortest, split⟩, _, inside⟩ := heads_of_parse parsed
    have taken : data.take n = headerBytes form f :=
      append_cancel_right ((take_append_drop n data).trans split)
    have same := fields_same wellFormed
    have holds : f.length < 2 ^ 63 := by
      have whole := shortest_holds shortest
      cases form with
      | short | medium => exact lt_trans whole (by decide)
      | long => exact whole
    have header : wsHeaderOf (fieldsOf f) = data.take n := by
      rw [header_of_same same holds, shortest_form shortest, taken]
    refine ⟨?_, form, shortest, taken⟩
    rw [write_of_fields same wellFormed holds, header, nil_append]
    rw [header, length_nil, zero_add]
    exact length_take_le n data
  · rw [mask_pieces, same, mask_pieces, mask_twice]

/-- A masked text of two hundred bytes. -/
theorem ws_frame_headers_two_hundred : ∃ (header : List Byte) (f : WsFrame),
      ([0x81, 0xFE, 0, 0xC8, 1, 2, 3, 4] : List Byte) = [] ++ header ∧ f.length = 200 ∧
        (∀ rest, wsFrameParse (header ++ rest) = .ok (f, header.length)) ∧
        wsFrameParse (header.take 7) = .error .needMore := by
  obtain ⟨header, f, out, same, parsed, waits⟩ := ws_frame_headers.1 20 [] [0x81, 0xFE, 0, 0xC8, 1, 2, 3, 4]
    { fin := true, opcode := 1, masked := true, mask := ⟨[1, 2, 3, 4], rfl⟩, length := 200, rsv1 := false } (by decide)
  refine ⟨header, f, out, same.length, parsed, waits (header.take 7) (header.drop 7) (take_append_drop _ _) ?_⟩
  rw [nil_append] at out
  rw [← out]
  decide

end ProvenC.Ws.Writing
