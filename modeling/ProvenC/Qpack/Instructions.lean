import ProvenC.Hpack.Coding
import ProvenC.Qpack.Integer
import ProvenC.Qpack.Table

/-!
# Instructions on the encoder stream

Each is read from the front of what there is and carried out once it is whole; until then it changes nothing.
One that is carried out is never longer than what the decoder holds back.
-/

namespace ProvenC.Qpack.Instructions

open List Bytes Lib.Scanning
open Hpack.Huffman Hpack.Coding
open Qpack.Integer Qpack.Table

def qpIbMax (d : Decoder) : Nat := d.maxCap * 4 + 64

/-- What `qp_enc_string` makes of the bytes of a string: the string, and how much of `tmp` is used then. -/
def qpEncText (d : Decoder) (huffman copy : Bool) (tmpAt : Nat) (raw : List Byte) : Scanner Byte Unit (List Byte × Nat) :=
  if huffman then
    match hpackHuffmanDecode raw (d.maxCap - tmpAt) with
    | .ok text => pure (text, tmpAt + text.length)
    | .error _ => fail ()
  else if copy then
    if d.maxCap - tmpAt < raw.length then fail () else pure (raw, tmpAt + raw.length)
  else
    if d.maxCap < raw.length then fail () else pure (raw, tmpAt)

def qpEncString (d : Decoder) (width hbit : Nat) (copy : Bool) (tmpAt : Nat) : Scanner Byte Unit (List Byte × Nat) := do
  let byte ← peek
  let n ← qpIntMore width
  if qpIbMax d < n then fail ()
  else do
    let raw ← count n
    qpEncText d (byte.val &&& hbit ≠ 0) copy tmpAt raw

def inserted (d : Decoder) (name value : List Byte) : Scanner Byte Unit Decoder :=
  match qpInsert d name value with
  | none => fail ()
  | some d => pure d

def insertValue (d : Decoder) (name : List Byte) (tmpAt : Nat) : Scanner Byte Unit Decoder := do
  let value ← qpEncString d 7 0x80 false tmpAt
  inserted d name value.1

def insertNameReference (d : Decoder) (isStatic : Bool) : Scanner Byte Unit Decoder := do
  let v ← qpIntMore 6
  if isStatic then
    if qpackStaticCount ≤ v then fail ()
    else insertValue d (qpackStatic.getD v ([], [])).1 0
  else if d.inserts ≤ v then fail ()
  else
    match qpEntry d (d.inserts - 1 - v) with
    | none => fail ()
    | some e => insertValue d (qpRingCopy d e.place e.nlen) e.nlen

def insertLiteralName (d : Decoder) : Scanner Byte Unit Decoder := do
  let name ← qpEncString d 5 0x20 true 0
  insertValue d name.1 name.2

def setCapacity (d : Decoder) : Scanner Byte Unit Decoder := do
  let v ← qpIntMore 5
  if d.maxCap < v then fail ()
  else
    let d := if 0 < v then qpMakeTable d else d
    let d := { d with cap := v }
    pure (qpEvictTo d d.cap)

def duplicate (d : Decoder) : Scanner Byte Unit Decoder := do
  let v ← qpIntMore 5
  if d.inserts ≤ v then fail ()
  else
    match qpEntry d (d.inserts - 1 - v) with
    | none => fail ()
    | some e =>
      let tmp := qpRingCopy d e.place (e.nlen + e.vlen)
      inserted d (tmp.take e.nlen) ((tmp.drop e.nlen).take e.vlen)

def qpEncInstr (d : Decoder) : Scanner Byte Unit Decoder := do
  let b ← peek
  if b.val &&& 0x80 ≠ 0 then
    if d.ring = [] then fail () else insertNameReference d (b.val &&& 0x40 ≠ 0)
  else if b.val &&& 0x40 ≠ 0 then
    if d.ring = [] then fail () else insertLiteralName d
  else if b.val &&& 0x20 ≠ 0 then setCapacity d
  else duplicate d

variable (d : Decoder)
include d

theorem settled_enc_text (huffman copy : Bool) (tmpAt : Nat) (raw : List Byte) :
    Settled (qpEncText d huffman copy tmpAt raw) := by
  unfold qpEncText
  refine settled_ite ?_ (settled_ite ?_ ?_)
  · cases hpackHuffmanDecode raw (d.maxCap - tmpAt) with
    | ok text => exact settled_pure _
    | error e => exact settled_fail ()
  · exact settled_ite (settled_fail ()) (settled_pure _)
  · exact settled_ite (settled_fail ()) (settled_pure _)

theorem enc_string_scans (width hbit : Nat) (copy : Bool) (tmpAt : Nat) :
    Settled (qpEncString d width hbit copy tmpAt) ∧ Consumes (qpEncString d width hbit copy tmpAt) := by
  have afterLength (byte : Byte) (n : Nat) : Settled (if qpIbMax d < n then fail () else do
      let raw ← count n
      qpEncText d (byte.val &&& hbit ≠ 0) copy tmpAt raw) :=
    settled_ite (settled_fail ()) (settled_bind (settled_count n) fun raw => settled_enc_text d _ copy tmpAt raw)
  have consumes (byte : Byte) := consumes_bind_first (consumes_int_more width) fun n => (afterLength byte n).steady
  constructor
  · exact settled_peek_bind (fun byte => settled_bind (settled_int_more width) (afterLength byte)) consumes
  · exact consumes_bind steady_peek consumes

theorem settled_inserted (name value : List Byte) : Settled (inserted d name value) := by
  unfold inserted
  cases qpInsert d name value with
  | none => exact settled_fail ()
  | some d => exact settled_pure d

theorem settled_insert_value (name : List Byte) (tmpAt : Nat) : Settled (insertValue d name tmpAt) :=
  settled_bind (enc_string_scans d 7 0x80 false tmpAt).1 fun value => settled_inserted d name value.1

omit d in
theorem after_integer_scans {width : Nat} {later : Nat → Scanner Byte Unit Decoder} (further : ∀ v, Settled (later v)) :
    Settled (qpIntMore width >>= later) ∧ Consumes (qpIntMore width >>= later) :=
  ⟨settled_bind (settled_int_more width) further,
    consumes_bind_first (consumes_int_more width) fun v => (further v).steady⟩

theorem name_reference_scans (isStatic : Bool) :
    Settled (insertNameReference d isStatic) ∧ Consumes (insertNameReference d isStatic) := by
  apply after_integer_scans
  intro v
  refine settled_ite (settled_ite (settled_fail ()) (settled_insert_value d _ 0)) (settled_ite (settled_fail ()) ?_)
  cases qpEntry d (d.inserts - 1 - v) with
  | none => exact settled_fail ()
  | some e => exact settled_insert_value d _ e.nlen

theorem literal_name_scans : Settled (insertLiteralName d) ∧ Consumes (insertLiteralName d) := by
  obtain ⟨settled, consumes⟩ := enc_string_scans d 5 0x20 true 0
  have further (name : List Byte × Nat) : Settled (insertValue d name.1 name.2) := settled_insert_value d name.1 name.2
  exact ⟨settled_bind settled further, consumes_bind_first consumes fun name => (further name).steady⟩

theorem set_capacity_scans : Settled (setCapacity d) ∧ Consumes (setCapacity d) := by
  apply after_integer_scans
  intro v
  exact settled_ite (settled_fail ()) (settled_pure _)

theorem duplicate_scans : Settled (duplicate d) ∧ Consumes (duplicate d) := by
  apply after_integer_scans
  intro v
  refine settled_ite (settled_fail ()) ?_
  cases qpEntry d (d.inserts - 1 - v) with
  | none => exact settled_fail ()
  | some e => exact settled_inserted d _ _

theorem enc_instr_scans : Settled (qpEncInstr d) ∧ Consumes (qpEncInstr d) := by
  have consumes (b : Byte) : Consumes (if b.val &&& 0x80 ≠ 0 then
        if d.ring = [] then fail () else insertNameReference d (b.val &&& 0x40 ≠ 0)
      else if b.val &&& 0x40 ≠ 0 then
        if d.ring = [] then fail () else insertLiteralName d
      else if b.val &&& 0x20 ≠ 0 then setCapacity d
      else duplicate d) := by
    refine consumes_ite (consumes_ite (consumes_fail ()) (name_reference_scans d _).2) ?_
    refine consumes_ite (consumes_ite (consumes_fail ()) (literal_name_scans d).2) ?_
    exact consumes_ite (set_capacity_scans d).2 (duplicate_scans d).2
  refine ⟨settled_peek_bind (fun b => ?_) consumes, consumes_bind steady_peek consumes⟩
  refine settled_ite (settled_ite (settled_fail ()) (name_reference_scans d _).1) ?_
  refine settled_ite (settled_ite (settled_fail ()) (literal_name_scans d).1) ?_
  exact settled_ite (set_capacity_scans d).1 (duplicate_scans d).1

omit d

variable {d : Decoder} {input rest : List Byte}

theorem enc_text_length {huffman copy : Bool} {tmpAt : Nat} {raw : List Byte}
    {string : List Byte × Nat} (scanned : qpEncText d huffman copy tmpAt raw input = .got string rest) :
    rest = input ∧ 8 * raw.length ≤ 30 * string.1.length + 7 := by
  unfold qpEncText at scanned
  split at scanned
  · cases decoded : hpackHuffmanDecode raw (d.maxCap - tmpAt) with
    | error e => rw [decoded] at scanned; cases scanned
    | ok text =>
      rw [decoded] at scanned
      cases scanned
      obtain ⟨-, padding, small, bits⟩ := huffman_decode_sound decoded
      have length := congrArg List.length bits
      have most (text : List Byte) : (textBits text).length ≤ 30 * text.length := by
        induction text with
        | nil => exact le_refl 0
        | cons byte tail ih =>
          have shape := huffman_code_shape byte
          rw [text_bits_cons, length_append, code_bits_length, length_cons]
          omega
      have few := most text
      simp only [Lib.BitString.bits_of_bytes_length, length_append, length_replicate] at length
      exact ⟨rfl, by simp only; omega⟩
  split at scanned
  all_goals obtain ⟨-, taken⟩ := guard_scanned scanned
  · cases taken
    exact ⟨rfl, by simp only; omega⟩
  · cases taken
    exact ⟨rfl, by simp only; omega⟩

theorem enc_string_length {width hbit tmpAt : Nat} {copy : Bool}
    {string : List Byte × Nat} (scanned : qpEncString d width hbit copy tmpAt input = .got string rest) :
    8 * input.length ≤ 8 * rest.length + 30 * string.1.length + 87 := by
  obtain ⟨byte, input', peeked, scanned⟩ := bind_scanned scanned
  rw [peek_scanned peeked] at scanned
  obtain ⟨n, afterInt, read, scanned⟩ := bind_scanned scanned
  obtain ⟨-, scanned⟩ := guard_scanned scanned
  obtain ⟨raw, afterRaw, counted, scanned⟩ := bind_scanned scanned
  obtain ⟨same, few⟩ := enc_text_length scanned
  obtain ⟨length, whole⟩ := count_got counted
  have ten := (int_suffix (int_more_got read)).2.2
  rw [whole, length_append, ← same] at ten
  omega

/-- What carrying out an instruction leaves alone, and that it keeps the capacity within the announced one. -/
structure Carried (d d' : Decoder) : Prop where
  maxCap : d'.maxCap = d.maxCap
  cap : d.cap ≤ d.maxCap → d'.cap ≤ d'.maxCap
  inserts : d'.inserts ≤ d.inserts + 1

variable {d' : Decoder}

theorem inserted_facts {name value : List Byte} (scanned : inserted d name value input = .got d' rest) :
    rest = input ∧ name.length + value.length + 32 ≤ d.cap ∧ Carried d d' := by
  unfold inserted at scanned
  cases put : qpInsert d name value with
  | none => rw [put] at scanned; cases scanned
  | some d'' =>
    rw [put] at scanned
    cases scanned
    obtain ⟨fits, maxCap, cap, inserts⟩ := insert_facts put
    exact ⟨rfl, fits, maxCap, by rw [maxCap, cap]; exact id, le_of_eq inserts⟩

theorem insert_value_facts {name : List Byte} {tmpAt : Nat} (scanned : insertValue d name tmpAt input = .got d' rest) :
    8 * input.length + 30 * name.length + 960 ≤ 8 * rest.length + 30 * d.cap + 87 ∧ Carried d d' := by
  obtain ⟨value, between, read, scanned⟩ := bind_scanned scanned
  obtain ⟨rfl, fits, carried⟩ := inserted_facts scanned
  have length := enc_string_length read
  exact ⟨by omega, carried⟩

theorem name_reference_facts {isStatic : Bool} (room : d.cap ≤ d.maxCap)
    (scanned : insertNameReference d isStatic input = .got d' rest) :
    input.length ≤ rest.length + qpIbMax d ∧ Carried d d' := by
  obtain ⟨v, between, read, scanned⟩ := bind_scanned scanned
  have ten := (int_suffix (int_more_got read)).2.2
  have counted {name : List Byte} {tmpAt : Nat} (rest_ : insertValue d name tmpAt between = .got d' rest) :
      input.length ≤ rest.length + qpIbMax d ∧ Carried d d' := by
    obtain ⟨length, carried⟩ := insert_value_facts rest_
    unfold qpIbMax
    exact ⟨by omega, carried⟩
  split at scanned
  · exact counted (guard_scanned scanned).2
  obtain ⟨-, scanned⟩ := guard_scanned scanned
  cases entry : qpEntry d (d.inserts - 1 - v) with
  | none => rw [entry] at scanned; cases scanned
  | some e =>
    rw [entry] at scanned
    exact counted scanned

theorem literal_name_facts (room : d.cap ≤ d.maxCap)
    (scanned : insertLiteralName d input = .got d' rest) : input.length ≤ rest.length + qpIbMax d ∧ Carried d d' := by
  obtain ⟨name, between, read, scanned⟩ := bind_scanned scanned
  obtain ⟨length, carried⟩ := insert_value_facts scanned
  have first := enc_string_length read
  unfold qpIbMax
  exact ⟨by omega, carried⟩

theorem set_capacity_facts
    (scanned : setCapacity d input = .got d' rest) : input.length ≤ rest.length + qpIbMax d ∧ Carried d d' := by
  obtain ⟨v, between, read, scanned⟩ := bind_scanned scanned
  have ten := (int_suffix (int_more_got read)).2.2
  obtain ⟨within, scanned⟩ := guard_scanned scanned
  cases scanned
  have made : Framed d (if 0 < v then qpMakeTable d else d) := by
    split
    · exact make_framed d
    · exact framed_refl d
  generalize (if 0 < v then qpMakeTable d else d) = d' at made
  have framed := evict_framed v d'.count { d' with cap := v }
  unfold qpIbMax
  refine ⟨by omega, framed.maxCap.trans made.maxCap, fun _ => ?_, ?_⟩
  · exact (le_of_eq framed.cap).trans ((not_lt.mp within).trans (le_of_eq (framed.maxCap.trans made.maxCap).symm))
  · exact Nat.le_succ_of_le (le_of_eq (framed.inserts.trans made.inserts))

theorem duplicate_facts
    (scanned : duplicate d input = .got d' rest) : input.length ≤ rest.length + qpIbMax d ∧ Carried d d' := by
  obtain ⟨v, between, read, scanned⟩ := bind_scanned scanned
  have ten := (int_suffix (int_more_got read)).2.2
  obtain ⟨-, scanned⟩ := guard_scanned scanned
  cases entry : qpEntry d (d.inserts - 1 - v) with
  | none => rw [entry] at scanned; cases scanned
  | some e =>
    rw [entry] at scanned
    obtain ⟨rfl, -, carried⟩ := inserted_facts scanned
    unfold qpIbMax
    exact ⟨by omega, carried⟩

theorem enc_instr_facts (room : d.cap ≤ d.maxCap)
    (scanned : qpEncInstr d input = .got d' rest) : input.length ≤ rest.length + qpIbMax d ∧ Carried d d' := by
  obtain ⟨b, input', peeked, scanned⟩ := bind_scanned scanned
  rw [peek_scanned peeked] at scanned
  split at scanned
  · exact name_reference_facts room (guard_scanned scanned).2
  split at scanned
  · exact literal_name_facts room (guard_scanned scanned).2
  split at scanned
  · exact set_capacity_facts scanned
  · exact duplicate_facts scanned

end ProvenC.Qpack.Instructions
