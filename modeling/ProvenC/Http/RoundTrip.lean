import ProvenC.Http.Stable
import ProvenC.Http.Writer

/-!
# What the writers write is read back

What a writer accepts is what the parser's grammar lets stand in that place, so a written head
has one reading: the one it was given.
-/

namespace ProvenC.Http.RoundTrip

open List Bytes Lib.Scanning Http.Head Http.Stable Http.Writer

theorem full_stays (pieces : List (List Byte)) {w : HttpW} (full : w.full = true) :
    (pieces.foldl httpPut w).full = true := by
  induction pieces generalizing w with
  | nil => exact full
  | cons piece pieces ih =>
    apply ih
    unfold httpPut
    rw [if_pos (.inl full)]

variable {out : List Byte}

theorem end_of_puts (pieces : List (List Byte)) {w : HttpW}
    (ended : httpWEnd (pieces.foldl httpPut w) = .ok out) : out = w.text ++ pieces.flatten := by
  induction pieces generalizing w with
  | nil =>
    unfold httpWEnd at ended
    split at ended
    · cases ended
    · cases ended
      rw [flatten_nil, append_nil, foldl_nil]
  | cons piece pieces ih =>
    rw [foldl_cons] at ended
    by_cases refused : w.full = true ∨ w.size - w.text.length < piece.length
    · have full : (httpPut w piece).full = true := by
        unfold httpPut
        rw [if_pos refused]
      unfold httpWEnd at ended
      rw [if_pos (full_stays pieces full)] at ended
      cases ended
    have whole := ih ended
    unfold httpPut at whole
    rw [if_neg refused] at whole
    rw [whole, append_assoc, flatten_cons]

theorem begin_text {size : Nat} {text : List Byte} {w : HttpW} (begun : httpWBegin size text = some w) :
    w.text = text := by
  unfold httpWBegin at begun
  split at begun
  · cases begun
  · cases begun
    rfl

structure Sound (field : HttpHeader) : Prop where
  name : httpIsToken field.name = true
  value : field.value.all httpIsFieldByte = true
  inside : owsOutside field.value = false

def requestLine (method target : List Byte) : List Byte :=
  method ++ space :: (target ++ ascii " HTTP/1.1\r\n")

def statusLine (status : Nat) (reason : List Byte) : List Byte :=
  ascii "HTTP/1.1 " ++ (u64Text status 10 ++ space :: (reasonWritten status reason ++ crlf))

def fieldText (field : HttpHeader) : List Byte :=
  field.name ++ colon :: space :: (field.value ++ crlf)

def fieldsText (fields : List HttpHeader) : List Byte := (fields.map fieldText).flatten ++ crlf

variable {method target : List Byte}

theorem request_line_written {size : Nat} {text : List Byte}
    (written : httpWriteRequestLine size text method target = .ok out) :
    httpIsToken method = true ∧ target ≠ [] ∧ target.all httpIsTargetByte = true ∧
      out = text ++ requestLine method target := by
  unfold httpWriteRequestLine at written
  split at written
  · cases written
  rename_i w begun
  split_ifs at written with wrong bad
  have puts := end_of_puts [method, ascii " ", target, ascii " HTTP/1.1\r\n"] written
  rw [begin_text begun] at puts
  push Not at wrong
  refine ⟨by simpa using wrong.1, wrong.2, by simpa using bad, ?_⟩
  rw [puts]
  simp only [flatten_cons, flatten_nil, append_nil]
  rfl

variable {status : Nat} {reason : List Byte}

theorem status_line_written {size : Nat} {text : List Byte}
    (written : httpWriteStatusLine size text status reason = .ok out) :
    100 ≤ status ∧ status ≤ 999 ∧ reason.all httpIsFieldByte = true ∧ out = text ++ statusLine status reason := by
  unfold httpWriteStatusLine at written
  split at written
  · cases written
  rename_i w begun
  split_ifs at written with wrong bad
  have puts := end_of_puts
    [ascii "HTTP/1.1 ", u64Text status 10, ascii " ", reasonWritten status reason, ascii "\r\n"] written
  rw [begin_text begun] at puts
  push Not at wrong
  refine ⟨wrong.1, wrong.2, by simpa using bad, ?_⟩
  rw [puts]
  simp only [flatten_cons, flatten_nil, append_nil]
  rfl

theorem digit_shape (d : Nat) (small : d < 10) :
    httpDigits.getD d 0 = byteOf (48 + d) ∧ httpIsFieldByte (httpDigits.getD d 0) = true ∧
      httpIsOws (httpDigits.getD d 0) = false := by
  interval_cases d <;> decide

theorem digits_up_shape (room v : Nat) : ∀ c ∈ digitsUp 10 room v, httpIsFieldByte c = true ∧ httpIsOws c = false := by
  induction room generalizing v with
  | zero =>
    intro c among
    cases among
  | succ room ih =>
    intro c among
    rw [digitsUp, mem_cons] at among
    rcases among with rfl | later
    · exact (digit_shape (v % 10) (Nat.mod_lt v (by decide))).2
    split at later
    · cases later
    · exact ih (v / 10) c later

theorem sound_number {name : List Byte} (token : httpIsToken name = true) (v : Nat) : Sound ⟨name, u64Text v 10⟩ := by
  have shape : ∀ c ∈ u64Text v 10, httpIsFieldByte c = true ∧ httpIsOws c = false := by
    intro c among
    exact digits_up_shape 20 v c (mem_reverse.mp among)
  constructor
  · exact token
  · rw [all_eq_true]
    intro c among
    exact (shape c among).1
  unfold owsOutside
  rw [Bool.or_eq_false_iff]
  constructor
  · cases head : (u64Text v 10).head? with
    | none => rfl
    | some c => exact (shape c (mem_of_head? head)).2
  · cases last : (u64Text v 10).getLast? with
    | none => rfl
    | some c => exact (shape c (mem_of_getLast? last)).2

theorem field_written {size : Nat} {text : List Byte} {call : HeaderCall}
    (written : writeField size text call = .ok out) : Sound call.field ∧ out = text ++ fieldText call.field := by
  cases call with
  | text name value =>
    change httpWriteHeader size text name value = .ok out at written
    unfold httpWriteHeader at written
    split at written
    · cases written
    rename_i w begun
    split_ifs at written with wrong bad spaced
    have puts := end_of_puts [name, ascii ": ", value, ascii "\r\n"] written
    rw [begin_text begun] at puts
    have sound : Sound ⟨name, value⟩ :=
      ⟨(Bool.not_eq_false _).mp wrong, (Bool.not_eq_false _).mp bad, (Bool.not_eq_true _).mp spaced⟩
    refine ⟨sound, ?_⟩
    rw [puts]
    simp only [flatten_cons, flatten_nil, append_nil]
    rfl
  | number name value =>
    change httpWriteHeaderU64 size text name value = .ok out at written
    unfold httpWriteHeaderU64 at written
    split at written
    · cases written
    rename_i w begun
    split_ifs at written with wrong
    have puts := end_of_puts [name, ascii ": ", u64Text value 10, ascii "\r\n"] written
    rw [begin_text begun] at puts
    refine ⟨sound_number (by simpa using wrong) value, ?_⟩
    rw [puts]
    simp only [flatten_cons, flatten_nil, append_nil]
    rfl

theorem head_end_written {size : Nat} {text : List Byte} (written : httpWriteHeadEnd size text = .ok out) :
    out = text ++ crlf := by
  unfold httpWriteHeadEnd at written
  split at written
  · cases written
  rename_i w begun
  have puts := end_of_puts [ascii "\r\n"] written
  rw [begin_text begun] at puts
  rw [puts, flatten_singleton]
  rfl

theorem fields_written {size : Nat} {text : List Byte} (calls : List HeaderCall)
    (written : writeFields size text calls = .ok out) :
    (∀ field ∈ calls.map HeaderCall.field, Sound field) ∧ out = text ++ fieldsText (calls.map HeaderCall.field) := by
  induction calls generalizing text with
  | nil =>
    refine ⟨fun field among => (not_mem_nil among).elim, ?_⟩
    rw [head_end_written written]
    rfl
  | cons call calls ih =>
    rw [writeFields] at written
    cases first : writeField size text call with
    | error fault =>
      rw [first] at written
      cases written
    | ok longer =>
      rw [first] at written
      obtain ⟨sound, rfl⟩ := field_written first
      obtain ⟨others, whole⟩ := ih written
      constructor
      · intro field among
        rw [map_cons, mem_cons] at among
        rcases among with rfl | later
        · exact sound
        · exact others field later
      rw [whole]
      simp only [fieldsText, map_cons, flatten_cons, append_assoc]

theorem expect_reads (lit rest : List Byte) : httpExpect lit (lit ++ rest) = .got () rest := by
  induction lit with
  | nil => rfl
  | cons byte lit ih =>
    rw [httpExpect, cons_append, bind_got (next_cons byte _), if_neg (fun wrong => wrong rfl)]
    exact ih

theorem end_line_reads {Value : Type} (value : Value) (rest : List Byte) :
    endLine value (lineFeed :: rest) = .got value rest := by
  unfold endLine
  rw [bind_got (next_cons lineFeed rest), if_neg (fun wrong => wrong rfl)]
  rfl

theorem token_parts {s : List Byte} (token : httpIsToken s = true) : s ≠ [] ∧ ∀ c ∈ s, httpIsTchar c = true := by
  unfold httpIsToken at token
  rw [Bool.and_eq_true, all_eq_true] at token
  refine ⟨fun empty => ?_, token.2⟩
  rw [empty] at token
  cases token.1

theorem ows_reads {value : List Byte} (inside : owsOutside value = false) (rest : List Byte) :
    (span httpIsOws : Reading (List Byte)) (space :: (value ++ carriageReturn :: rest)) =
      .got [space] (value ++ carriageReturn :: rest) := by
  have only : ∀ c ∈ [space], httpIsOws c = true := by
    intro c among
    rw [mem_singleton.mp among]
    rfl
  cases value with
  | nil => exact span_run only (by decide : httpIsOws carriageReturn = false)
  | cons first others =>
    have starts : httpIsOws first = false := by
      unfold owsOutside at inside
      rw [Bool.or_eq_false_iff] at inside
      exact inside.1
    exact span_run only starts

theorem trim_sound {value : List Byte} (inside : owsOutside value = false) : trimEnd value = value := by
  unfold trimEnd
  rw [rdropWhile_eq_self_iff]
  intro nonempty
  unfold owsOutside at inside
  rw [Bool.or_eq_false_iff, List.getLast?_eq_some_getLast nonempty] at inside
  rw [Bool.not_eq_true]
  exact inside.2

theorem field_reads {field : HttpHeader} (sound : Sound field) (rest : List Byte) :
    httpField (fieldText field ++ rest) = .got (some field) rest := by
  obtain ⟨name, value⟩ := field
  obtain ⟨token, bytes, inside⟩ := sound
  obtain ⟨named, tchars⟩ := token_parts token
  cases name with
  | nil => exact absurd rfl named
  | cons first others =>
    have shape : fieldText ⟨first :: others, value⟩ ++ rest =
        (first :: others) ++ colon :: space :: (value ++ carriageReturn :: lineFeed :: rest) := by
      simp only [fieldText, crlf, append_assoc, cons_append, nil_append]
    have notReturn : first ≠ carriageReturn := by
      rintro rfl
      have wrong := tchars carriageReturn mem_cons_self
      revert wrong
      decide
    have peeked : (peek : Reading Byte) ((first :: others) ++ colon :: space :: (value ++ carriageReturn :: lineFeed :: rest)) =
        .got first ((first :: others) ++ colon :: space :: (value ++ carriageReturn :: lineFeed :: rest)) := rfl
    rw [shape]
    unfold httpField
    rw [bind_got peeked, if_neg notReturn, bind_got (span_run tchars (by decide)),
      bind_got (next_cons colon _), if_neg (by simp), bind_got (ows_reads inside _),
      bind_got (span_run (all_eq_true.mp bytes) (by decide)), bind_got (next_cons carriageReturn _),
      if_neg (fun wrong => wrong rfl), trim_sound inside]
    exact end_line_reads _ rest

theorem no_field_reads (rest : List Byte) : httpField (crlf ++ rest) = .got none rest := by
  unfold httpField
  change (peek >>= _) (carriageReturn :: lineFeed :: rest) = _
  rw [bind_got (peek_cons carriageReturn _), if_pos rfl, bind_got (next_cons carriageReturn _)]
  exact end_line_reads none rest

theorem fields_read (cap : Nat) (fields before : List HttpHeader) (sound : ∀ field ∈ fields, Sound field) :
    httpFieldsOf false cap before (fieldsText fields) =
      if fields = [] ∨ before.length + fields.length ≤ cap then .got (before ++ fields) [] else .bad .outOfBounds := by
  induction fields generalizing before with
  | nil =>
    have line : httpField (fieldsText []) = .got none [] := no_field_reads []
    rw [fields_end line, if_pos (.inl rfl), append_nil]
  | cons field fields ih =>
    have shape : fieldsText (field :: fields) = fieldText field ++ fieldsText fields := by
      simp only [fieldsText, map_cons, flatten_cons, append_assoc]
    have line := field_reads (sound field mem_cons_self) (fieldsText fields)
    rw [shape, fields_step line, if_neg (by simp)]
    by_cases full : cap ≤ before.length
    · rw [if_pos full, if_neg]
      simp only [length_cons, reduceCtorEq, false_or]
      omega
    rw [if_neg full, ih (before ++ [field]) fun other among => sound other (mem_cons_of_mem _ among)]
    simp only [length_append, length_cons, length_nil, append_assoc, cons_append, nil_append, reduceCtorEq, false_or]
    by_cases fits : before.length + (fields.length + 1) ≤ cap
    · rw [if_pos (.inr (by omega)), if_pos fits]
    rw [if_neg fits, if_neg]
    rintro (empty | room)
    · rw [empty, length_nil] at fits
      omega
    · omega

theorem fields_read_whole (cap : Nat) (fields : List HttpHeader) (sound : ∀ field ∈ fields, Sound field) :
    httpFields cap (fieldsText fields) = if fields.length ≤ cap then .got fields [] else .bad .outOfBounds := by
  have read := fields_read cap fields [] sound
  have same : (fields = [] ∨ ([] : List HttpHeader).length + fields.length ≤ cap) ↔ fields.length ≤ cap := by
    constructor
    · rintro (rfl | fits)
      · exact Nat.zero_le cap
      · exact zero_add fields.length ▸ fits
    intro fits
    exact .inr ((zero_add fields.length).symm ▸ fits)
  simp only [same, nil_append] at read
  exact read

theorem version_reads (rest : List Byte) : httpVersion (ascii "HTTP/1.1" ++ rest) = .got 1 rest := by
  unfold httpVersion
  have split_ : ascii "HTTP/1.1" ++ rest = ascii "HTTP/" ++ byteOf 49 :: dot :: byteOf 49 :: rest := rfl
  rw [split_, bind_got (expect_reads (ascii "HTTP/") _)]
  rfl

theorem head_of_fields {Head : Type} (cap : Nat) (fields : List HttpHeader) (sound : ∀ field ∈ fields, Sound field)
    (head : List HttpHeader → Head) :
    (do let headers ← httpFields cap
        pure (head headers) : Reading Head) (fieldsText fields) =
      if fields.length ≤ cap then .got (head fields) [] else .bad .outOfBounds := by
  rw [bind_apply, fields_read_whole cap fields sound]
  split <;> rfl

theorem request_reads (cap : Nat) (token : httpIsToken method = true)
    (nonempty : target ≠ []) (visible : target.all httpIsTargetByte = true) (fields : List HttpHeader)
    (sound : ∀ field ∈ fields, Sound field) : requestHead cap (requestLine method target ++ fieldsText fields) =
      if fields.length ≤ cap then .got ⟨httpMethodFromText method, method, target, 1, fields⟩ []
      else .bad .outOfBounds := by
  obtain ⟨named, tchars⟩ := token_parts token
  cases method with
  | nil => exact absurd rfl named
  | cons first others =>
    have shape : requestLine (first :: others) target ++ fieldsText fields =
        (first :: others) ++ space :: (target ++ space :: (ascii "HTTP/1.1" ++ (crlf ++ fieldsText fields))) := by
      have tail : ascii " HTTP/1.1\r\n" = space :: (ascii "HTTP/1.1" ++ crlf) := rfl
      rw [requestLine, tail]
      simp only [append_assoc, cons_append]
    have notReturn : first ≠ carriageReturn := by
      rintro rfl
      have wrong := tchars carriageReturn mem_cons_self
      revert wrong
      decide
    have skipped (rest : List Byte) : skipEmptyLines ((first :: others) ++ rest) = .got () ((first :: others) ++ rest) :=
      skip_other notReturn (others ++ rest)
    rw [shape]
    unfold requestHead
    rw [bind_got (skipped _), bind_got (span_run tchars (by decide)), bind_got (next_cons space _),
      if_neg (by simp), bind_got (span_run (all_eq_true.mp visible) (by decide)), bind_got (next_cons space _),
      if_neg (by simp [nonempty]), bind_got (version_reads _), bind_got (expect_reads crlf _)]
    exact head_of_fields cap fields sound _

theorem phrases_sound : reasonPhrases.all (fun entry => entry.2.all httpIsFieldByte) = true := by decide +kernel

theorem reason_sound (bytes : reason.all httpIsFieldByte = true) :
    ∀ c ∈ reasonWritten status reason, httpIsFieldByte c = true := by
  unfold reasonWritten
  split
  · exact all_eq_true.mp bytes
  unfold httpReasonPhrase
  split
  next entry found =>
    have sound := all_eq_true.mp phrases_sound entry (mem_of_find?_eq_some found)
    exact all_eq_true.mp sound
  · exact all_eq_true.mp (by decide +kernel)

theorem status_text (low : 100 ≤ status) (high : status ≤ 999) :
    u64Text status 10 = [byteOf (48 + status / 100), byteOf (48 + status / 10 % 10), byteOf (48 + status % 10)] := by
  have hundreds : status / 10 / 10 = status / 100 := by omega
  have small : status / 100 % 10 = status / 100 := by omega
  unfold u64Text
  rw [digitsUp, if_neg (by omega), digitsUp, if_neg (by omega), digitsUp, if_pos (by omega), hundreds, small,
    (digit_shape _ (by omega)).1, (digit_shape _ (by omega)).1, (digit_shape _ (by omega)).1]
  rfl

theorem digit_reads {left d : Nat} (small : d < 10) (rest : List Byte) :
    statusDigits (left + 1) status (byteOf (48 + d) :: rest) = statusDigits left (status * 10 + d) rest := by
  have value : (byteOf (48 + d)).val = 48 + d := by
    rw [byte_of_val]
    omega
  have digit : isDigit (byteOf (48 + d)) = true := by
    unfold isDigit
    rw [value, Bool.and_eq_true, decide_eq_true_eq, decide_eq_true_eq]
    omega
  rw [statusDigits, bind_got (next_cons _ rest), if_neg (by rw [digit]; decide), value]
  rw [show 48 + d - 48 = d by omega]

theorem status_reads (low : 100 ≤ status) (high : status ≤ 999) (rest : List Byte) :
    statusDigits 3 0 (u64Text status 10 ++ rest) = .got status rest := by
  rw [status_text low high]
  change statusDigits 3 0 (byteOf (48 + status / 100) :: byteOf (48 + status / 10 % 10) :: byteOf (48 + status % 10) :: rest) = _
  rw [digit_reads (by omega), digit_reads (by omega), digit_reads (by omega)]
  rw [show ((0 * 10 + status / 100) * 10 + status / 10 % 10) * 10 + status % 10 = status by omega]
  rfl

theorem response_reads (cap : Nat) (low : 100 ≤ status) (high : status ≤ 999)
    (bytes : reason.all httpIsFieldByte = true) (fields : List HttpHeader) (sound : ∀ field ∈ fields, Sound field) :
    responseHead cap (statusLine status reason ++ fieldsText fields) =
      if fields.length ≤ cap then .got ⟨status, reasonWritten status reason, 1, fields⟩ [] else .bad .outOfBounds := by
  have shape : statusLine status reason ++ fieldsText fields = ascii "HTTP/1.1" ++ ([space] ++ (u64Text status 10 ++
        space :: (reasonWritten status reason ++ carriageReturn :: lineFeed :: fieldsText fields))) := by
    have front : ascii "HTTP/1.1 " = ascii "HTTP/1.1" ++ [space] := rfl
    rw [statusLine, front, crlf]
    simp only [append_assoc, cons_append, nil_append]
  have phrase : reasonPhrase (space :: (reasonWritten status reason ++ carriageReturn :: lineFeed :: fieldsText fields)) =
      .got (reasonWritten status reason) (crlf ++ fieldsText fields) := by
    unfold reasonPhrase
    rw [bind_got (peek_cons space _), if_pos rfl, bind_got (next_cons space _)]
    exact span_run (reason_sound bytes) (by decide)
  rw [shape]
  unfold responseHead
  rw [bind_got (version_reads _), bind_got (expect_reads [space] _), bind_got (status_reads low high _),
    if_neg (by omega), bind_got phrase, bind_got (expect_reads crlf _)]
  exact head_of_fields cap fields sound _

theorem parse_reads {Head : Type} {head : Reading Head} (steady : Steady head) {text : List Byte} {value : Head}
    {fits : Prop} [Decidable fits] (read : head text = if fits then .got value [] else .bad .outOfBounds)
    (maxHeadBytes : Nat) : parseHead head text maxHeadBytes =
      if fits ∧ text.length ≤ headLimit maxHeadBytes then .ok (value, text.length) else .error .outOfBounds := by
  unfold parseHead
  by_cases short : text.length ≤ headLimit maxHeadBytes
  · rw [take_of_length_le short, read]
    by_cases room : fits
    · simp only [if_pos room, if_pos (And.intro room short), length_nil, Nat.sub_zero]
    have both : ¬ (fits ∧ text.length ≤ headLimit maxHeadBytes) := fun both => room both.1
    simp only [if_neg room, if_neg both]
  have both : ¬ (fits ∧ text.length ≤ headLimit maxHeadBytes) := fun both => short both.2
  rw [if_neg both]
  cases outcome : head (text.take (headLimit maxHeadBytes)) with
  | short =>
    rw [if_pos (by omega)]
  | bad fault =>
    have always := steady.bad _ (text.drop (headLimit maxHeadBytes)) fault outcome
    rw [take_append_drop, read] at always
    split at always
    · cases always
    · cases always
      rfl
  | got other rest =>
    have always := steady.got _ (text.drop (headLimit maxHeadBytes)) other rest outcome
    rw [take_append_drop, read] at always
    split at always
    · injection always with _ nothing
      have dropped := congrArg List.length (append_eq_nil_iff.mp nothing.symm).2
      rw [length_drop, length_nil] at dropped
      omega
    · cases always

theorem written_request {size : Nat} {before : List Byte} {calls : List HeaderCall}
    (accepted : writeRequest size before method target calls = .ok out) :
    ∃ written, out = before ++ written ∧ ∀ headerCap maxHeadBytes, httpParseRequest written headerCap maxHeadBytes =
        if calls.length ≤ headerCap ∧ written.length ≤ headLimit maxHeadBytes then
          .ok (⟨httpMethodFromText method, method, target, 1, calls.map HeaderCall.field⟩, written.length)
        else .error .outOfBounds := by
  unfold writeRequest at accepted
  cases line : httpWriteRequestLine size before method target with
  | error fault =>
    rw [line] at accepted
    cases accepted
  | ok text =>
    rw [line] at accepted
    obtain ⟨token, nonempty, visible, rfl⟩ := request_line_written line
    obtain ⟨sound, whole⟩ := fields_written calls accepted
    refine ⟨requestLine method target ++ fieldsText (calls.map HeaderCall.field), ?_, fun headerCap maxHeadBytes => ?_⟩
    · rw [whole, append_assoc]
    have read := request_reads headerCap token nonempty visible _ sound
    rw [length_map] at read
    exact parse_reads (steady_request headerCap) read maxHeadBytes

theorem written_response {size : Nat} {before : List Byte} {calls : List HeaderCall}
    (accepted : writeResponse size before status reason calls = .ok out) :
    ∃ written, out = before ++ written ∧ ∀ headerCap maxHeadBytes, httpParseResponse written headerCap maxHeadBytes =
        if calls.length ≤ headerCap ∧ written.length ≤ headLimit maxHeadBytes then
          .ok (⟨status, reasonWritten status reason, 1, calls.map HeaderCall.field⟩, written.length)
        else .error .outOfBounds := by
  unfold writeResponse at accepted
  cases line : httpWriteStatusLine size before status reason with
  | error fault =>
    rw [line] at accepted
    cases accepted
  | ok text =>
    rw [line] at accepted
    obtain ⟨low, high, bytes, rfl⟩ := status_line_written line
    obtain ⟨sound, whole⟩ := fields_written calls accepted
    refine ⟨statusLine status reason ++ fieldsText (calls.map HeaderCall.field), ?_, fun headerCap maxHeadBytes => ?_⟩
    · rw [whole, append_assoc]
    have read := response_reads headerCap low high bytes _ sound
    rw [length_map] at read
    exact parse_reads (steady_response headerCap) read maxHeadBytes

/-- A head the writers accept, after whatever was in the buffer before, is parsed to what they
were given, all of it and nothing more; short of the room for its fields or of its length, it is
refused as too large and never read as something else. -/
theorem written_heads_read :
    (∀ size before method target calls out, writeRequest size before method target calls = .ok out →
      ∃ written, out = before ++ written ∧ ∀ headerCap maxHeadBytes, httpParseRequest written headerCap maxHeadBytes =
          if calls.length ≤ headerCap ∧ written.length ≤ headLimit maxHeadBytes then
            .ok (⟨httpMethodFromText method, method, target, 1, calls.map HeaderCall.field⟩, written.length)
          else .error .outOfBounds) ∧
    (∀ size before status reason calls out, writeResponse size before status reason calls = .ok out →
      ∃ written, out = before ++ written ∧ ∀ headerCap maxHeadBytes, httpParseResponse written headerCap maxHeadBytes =
          if calls.length ≤ headerCap ∧ written.length ≤ headLimit maxHeadBytes then
            .ok (⟨status, reasonWritten status reason, 1, calls.map HeaderCall.field⟩, written.length)
          else .error .outOfBounds) :=
  ⟨fun _ _ _ _ _ _ accepted => written_request accepted, fun _ _ _ _ _ _ accepted => written_response accepted⟩

def putCalls : List HeaderCall :=
  [.number (ascii "Content-Length") 70, .text (ascii "Host") (ascii "h")]

def putText : List Byte := ascii "PUT /a HTTP/1.1\r\nContent-Length: 70\r\nHost: h\r\n\r\n"

def notFoundText : List Byte := ascii "HTTP/1.1 404 Not Found\r\n\r\n"

/-- A request with a body's length and a name, and a response without a phrase of its own. -/
theorem written_heads_read_short : httpParseRequest putText 2 0 =
        .ok (⟨.put, ascii "PUT", ascii "/a", 1, [⟨ascii "Content-Length", ascii "70"⟩, ⟨ascii "Host", ascii "h"⟩]⟩, 48) ∧
      httpParseResponse notFoundText 0 0 = .ok (⟨404, ascii "Not Found", 1, []⟩, 26) := by
  obtain ⟨request, same, parsed⟩ :=
    written_heads_read.1 100 [] (ascii "PUT") (ascii "/a") putCalls putText (by decide +kernel)
  obtain ⟨response, same', parsed'⟩ :=
    written_heads_read.2 100 [] 404 [] [] notFoundText (by decide +kernel)
  rw [nil_append] at same same'
  subst same same'
  constructor
  · rw [parsed 2 0, if_pos (by decide +kernel)]
    decide +kernel
  rw [parsed' 0 0, if_pos (by decide +kernel)]
  decide +kernel

end ProvenC.Http.RoundTrip
