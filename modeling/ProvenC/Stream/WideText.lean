import ProvenC.Stream.WideLines

/-!
# Texts through a stream

A text that is written, read in any chunks and asked for in any order of lines and units comes out as it
was, up to what is malformed after it.
-/

namespace ProvenC.Stream.WideText

open Bytes Lib.Cells Lib.Lines Lib.Runs Lib.Unicode Text.Utf
open Text.Decoding Text.Conversion Text.Streams Text.Cuts Stream.Wide
open Stream.Staging Stream.Characters Stream.WideLines
open Stream.Reader (Inner fromView)

def collect (sink bytes : List Byte) : Option ProvenErr × List Byte := (none, sink ++ bytes)

def written (marked : Bool) (enc : TextEncoding) (text : List Unit16) : Option ProvenErr × List Byte :=
  match if marked then writeBom collect [] enc else (none, []) with
  | (none, sink) => writeU16 collect sink text enc
  | (some e, sink) => (some e, sink)

variable {enc : TextEncoding}

theorem write_loop_wide (wide : enc ≠ .utf8) {rounds : Nat} {text : List Unit16}
    (enough : text.length ≤ rounds) (sink : List Byte) :
    writeLoop collect enc rounds sink text = (none, sink ++ text.flatMap (bytesOfUnit enc)) := by
  induction rounds generalizing text sink with
  | zero =>
    obtain rfl := List.eq_nil_of_length_eq_zero (Nat.le_zero.mp enough)
    rw [writeLoop, List.flatMap_nil, List.append_nil]
  | succ rounds ih =>
    cases text with
    | nil => rw [writeLoop, List.flatMap_nil, List.append_nil]
    | cons first more =>
      have chunk : nextChunk enc (first :: more) = .ok (((first :: more).take (sizeofChunk / 2)).flatMap (bytesOfUnit enc),
          ((first :: more).take (sizeofChunk / 2)).length) := if_neg wide
      have half : sizeofChunk / 2 = 128 := rfl
      have taken : ((first :: more).take (sizeofChunk / 2)).length = min 128 (more.length + 1) := by
        rw [List.length_take, List.length_cons, half]
      rw [List.length_cons] at enough
      rw [writeLoop, chunk]
      dsimp only [collect]
      rw [ih (by rw [List.length_drop, List.length_cons, taken]; omega), List.append_assoc, ← List.flatMap_append]
      congr 3
      rw [taken, half]
      by_cases short : more.length + 1 ≤ 128
      · rw [Nat.min_eq_right short, List.take_of_length_le (by rw [List.length_cons]; exact short),
          List.drop_of_length_le (by rw [List.length_cons]), List.append_nil]
      · rw [Nat.min_eq_left (by omega), List.take_append_drop]

variable {cps : List Nat}

theorem next_chunk_narrow (scalars : Scalars cps) (some_ : cps ≠ []) : ∃ taken later, cps = taken ++ later ∧ taken ≠ [] ∧
      nextChunk .utf8 (utf16Text cps) = .ok (utf8Text taken, (utf16Text taken).length) := by
  have stuck : Stuck utf16Decode [] := fun cp len whole => by cases whole
  obtain ⟨taken, later, split, took⟩ := @convert_front _ _ _ _ (fun cp => utf8Put cp (utf8Width cp)) (utf16Text cps)
    utf16_decodes [] stuck cps scalars (List.append_nil _).symm (List.replicate sizeofChunk (0 : Byte))
  rw [← utf16ToUtf8Partial, List.length_replicate] at took
  have puts : taken.flatMap (fun cp => utf8Put cp (utf8Width cp)) = utf8Text taken := by
    rw [utf8Text, List.flatMap_def, List.flatMap_def]
    congr 1
    apply List.map_congr_left
    intro cp among
    exact utf8_put_of (scalars cp (by rw [split]; exact List.mem_append_left _ among))
  have out := took.out
  rw [puts] at out
  refine ⟨taken, later, split, ?_, ?_⟩
  · -- the chunk has room for any character
    rintro rfl
    rcases took.ended with ⟨last, -⟩ | ⟨cp, more, next, full, -⟩
    · exact some_ (by rw [split, last]; rfl)
    have short := put_short cp (scalars cp (by rw [split, next]; exact List.mem_cons_self))
    have small : (utf16Of cp).length ≤ 2 := by
      unfold utf16Of
      split <;> simp
    rw [took.written, List.flatMap_nil, List.length_nil] at full
    have room : sizeofChunk = 256 := rfl
    omega
  rw [nextChunk, if_pos rfl]
  dsimp only
  have verdict : (utf16ToUtf8Partial (utf16Text cps) (List.replicate sizeofChunk 0)).err = none ∨
      (utf16ToUtf8Partial (utf16Text cps) (List.replicate sizeofChunk 0)).err = some .outOfBounds := by
    rcases took.ended with ⟨-, err⟩ | ⟨cp, more, -, -, err⟩
    · exact .inl err
    · exact .inr err
  have consumed := took.consumed
  rcases verdict with err | err
  all_goals
    rw [err]
    dsimp only
    rw [out, consumed]
    rfl

theorem write_loop_narrow {rounds : Nat} (scalars : Scalars cps)
    (enough : (utf16Text cps).length ≤ rounds) (sink : List Byte) :
    writeLoop collect .utf8 rounds sink (utf16Text cps) = (none, sink ++ utf8Text cps) := by
  induction rounds generalizing cps sink with
  | zero =>
    have none_ : cps = [] := by
      by_contra some_
      have positive := text_length_positive some_
      omega
    rw [none_, utf16Text, List.flatMap_nil, writeLoop, utf8Text, List.flatMap_nil, List.append_nil]
  | succ rounds ih =>
    by_cases none_ : cps = []
    · rw [none_, utf16Text, List.flatMap_nil, writeLoop, utf8Text, List.flatMap_nil, List.append_nil]
    obtain ⟨taken, later, split, some_, chunk⟩ := next_chunk_narrow scalars none_
    have positive := text_length_positive some_
    obtain ⟨first, more, text⟩ := List.exists_cons_of_ne_nil (List.length_pos_iff.mp (text_length_positive none_))
    have joined : utf16Text cps = utf16Text taken ++ utf16Text later := by
      rw [split, utf16Text, utf16Text, utf16Text, List.flatMap_append]
    rw [text] at chunk
    rw [text, writeLoop, chunk]
    dsimp only [collect]
    rw [← text, joined, List.drop_left]
    rw [joined, List.length_append] at enough
    rw [ih (fun cp among => scalars cp (by rw [split]; exact List.mem_append_right _ among)) (by omega),
      List.append_assoc, split, utf8Text, utf8Text, utf8Text, List.flatMap_append]

theorem write_u16_collects (concrete : enc ≠ .auto) (scalars : Scalars cps)
    (fits : (utf8Text cps).length < sizeEnd) (sink : List Byte) :
    writeU16 collect sink (utf16Text cps) enc = (none, sink ++ cps.flatMap (form enc)) := by
  have valid := (utf16_to_utf8_size_iff (utf16Text cps) _).mpr ⟨cps, scalars, rfl, rfl, fits⟩
  rw [writeU16, if_neg concrete, valid]
  dsimp only
  by_cases narrow : enc = .utf8
  · rw [narrow, write_loop_narrow scalars (le_refl _)]
    rfl
  rw [write_loop_wide narrow (le_refl _), utf16Text, List.flatMap_assoc]
  congr 3
  funext cp
  exact (form_wide narrow cp).symm

theorem written_bytes (concrete : enc ≠ .auto) (marked : Bool)
    (scalars : Scalars cps) (fits : (utf8Text cps).length < sizeEnd) : written marked enc (utf16Text cps) =
      (none, (if marked then bomBytes enc else []) ++ cps.flatMap (form enc)) := by
  unfold written
  cases marked with
  | true =>
    rw [if_pos rfl, if_pos rfl, writeBom, if_neg concrete]
    dsimp only [collect]
    rw [write_u16_collects concrete scalars fits, List.nil_append]
  | false =>
    rw [if_neg Bool.false_ne_true, if_neg Bool.false_ne_true]
    exact write_u16_collects concrete scalars fits []

variable {Behind : Type} (inner : Inner Behind)

def textOf (w : World Behind) : List Nat × List Byte :=
  readText (decodeBytes (encoding inner w.s w.behind)) ((encoded inner w.s w.behind).length + 1) (encoded inner w.s w.behind)

def pending (w : World Behind) : List Unit16 := unread w.s (textOf inner w).1

def Spoilt (w : World Behind) : Prop := (textOf inner w).2 ≠ []

def Careful (w : World Behind) (c : Call) : Prop :=
  c = .readLine → Spoilt inner w → pending inner w = [] ∨ newline ∈ pending inner w ∨ w.s.cap < (pending inner w).length

instance (w : World Behind) (c : Call) : Decidable (Careful inner w c) :=
  inferInstanceAs (Decidable (c = .readLine → (textOf inner w).2 ≠ [] →
    pending inner w = [] ∨ newline ∈ pending inner w ∨ w.s.cap < (pending inner w).length))

def outcomes (w : World Behind) : List Call → Option (List Outcome × World Behind)
  | [] => some ([], w)
  | c :: calls =>
    match call inner w c with
    | none => none
    | some (outcome, w) =>
      match outcomes w calls with
      | none => none
      | some (later, w) => some (outcome :: later, w)

inductive Serves (spoilt : Prop) (size : Nat) : List Call → List Unit16 → List Outcome → List Unit16 → Prop
  | nil (text : List Unit16) : Serves spoilt size [] text [] text
  | cons (c : Call) (calls : List Call) (text rest left : List Unit16) (outcome : Outcome) (later : List Outcome) :
      Meets spoilt size c text outcome rest → Serves spoilt size calls rest later left →
      Serves spoilt size (c :: calls) text (outcome :: later) left

variable {inner}

variable {w : World Behind} {tail : List Byte}

theorem text_of_sound (sound : Sound inner w.s w.behind enc cps tail) : textOf inner w = (cps, tail) := by
  have scalars := sound.supplied.scalars
  unfold textOf
  rw [sound.supplied.encoding, sound.supplied.encoded]
  apply read_text_of (text_streams enc) scalars sound.supplied.stuck
  have shorter := scalars_length (text_streams enc).toDecodesForm cps
  rw [List.length_append]
  omega

theorem call_right (steady : Steady inner) (sound : Sound inner w.s w.behind enc cps tail) (c : Call) :
    ∃ outcome w' cps', call inner w c = some (outcome, w') ∧
      Right inner c w.s enc cps tail outcome w'.s w'.behind cps' := by
  cases c with
  | readLine =>
    obtain ⟨outcome, s', behind', cps', ran, right⟩ := line_right steady sound
    exact ⟨outcome, ⟨s', behind'⟩, cps', by rw [call, ran]; rfl, right⟩
  | read cap =>
    obtain ⟨outcome, s', behind', cps', ran, right⟩ := read_right steady sound cap
    exact ⟨outcome, ⟨s', behind'⟩, cps', by rw [call, ran]; rfl, right⟩

theorem meets_iff_careful (steady : Steady inner) (sound : Sound inner w.s w.behind enc cps tail) (c : Call) :
    ∃ outcome w', call inner w c = some (outcome, w') ∧
      (Meets (Spoilt inner w) w.s.cap c (pending inner w) outcome (pending inner w') ↔ Careful inner w c) := by
  obtain ⟨outcome, w', cps', ran, right⟩ := call_right steady sound c
  have before := text_of_sound sound
  have after := text_of_sound right.sound
  have gives := right.gives
  refine ⟨outcome, w', ran, ?_⟩
  unfold Careful Spoilt pending
  rw [before, after]
  generalize unread w.s cps = text at gives
  generalize unread w'.s cps' = rest at gives
  constructor
  · intro meets line spoilt
    cases meets with
    | line _ some_ ends fits =>
      rcases ends with there | clean
      · exact .inr (.inl there)
      · exact absurd spoilt clean
    | tooLong _ long =>
      right; right
      have shorter : (content newline text).length ≤ text.length := (List.takeWhile_prefix _).length_le
      omega
    | units | refused => cases line
    | ended | malformed => exact .inl rfl
  intro careful
  cases gives with
  | meets _ _ _ _ meets => exact meets
  | cut _ spoilt some_ plain fits =>
    rcases careful rfl spoilt with empty | there | long
    · exact absurd empty some_
    · exact absurd there plain
    · omega

theorem run_serves (steady : Steady inner) {calls : List Call} (sound : Sound inner w.s w.behind enc cps tail) (careful : Along (next inner) (Careful inner) w calls) :
    ∃ later w', outcomes inner w calls = some (later, w') ∧
      Serves (tail ≠ []) w.s.cap calls (unread w.s cps) later (pending inner w') ∧ ∀ outcome ∈ later, Whole outcome.val := by
  induction calls generalizing w cps with
  | nil =>
    refine ⟨[], w, rfl, ?_, fun _ none_ => absurd none_ List.not_mem_nil⟩
    unfold pending
    rw [text_of_sound sound]
    exact Serves.nil _
  | cons c calls ih =>
    obtain ⟨now, rest⟩ := along_cons.mp careful
    obtain ⟨outcome, w₁, cps₁, ran, right⟩ := call_right steady sound c
    obtain ⟨outcome', w₁', ran', exact_⟩ := meets_iff_careful steady sound c
    rw [ran] at ran'
    obtain ⟨rfl, rfl⟩ := Prod.mk.inj (Option.some.inj ran')
    have meets := exact_.mpr now
    unfold Spoilt pending at meets
    rw [text_of_sound sound, text_of_sound right.sound] at meets
    have onward : next inner w c = w₁ := by
      unfold next
      rw [ran]
      rfl
    rw [onward] at rest
    obtain ⟨later, w', runs, serves, wholes⟩ := ih right.sound rest
    rw [right.size] at serves
    refine ⟨outcome :: later, w', ?_, Serves.cons c calls _ _ _ outcome later meets serves, ?_⟩
    · rw [outcomes, ran]
      dsimp only
      rw [runs]
    · exact List.forall_mem_cons.mpr ⟨right.whole, wholes⟩

/-- How a reader is opened on bytes in `enc`: told so, or to look for the mark, which it finds, or finds none. -/
def Opens (marked : Bool) (enc opening : TextEncoding) (bytes : List Byte) : Prop :=
  (marked = true ∧ opening = .auto) ∨ (marked = false ∧ opening = enc) ∨
    (marked = false ∧ opening = .auto ∧ bomOf bytes = (enc, 0))

theorem bom_of_mark (concrete : enc ≠ .auto) (bytes : List Byte) :
    bomOf (bomBytes enc ++ bytes) = (enc, (bomBytes enc).length) := by
  cases enc with
  | auto => exact absurd rfl concrete
  | utf8 => exact if_pos rfl
  | utf16le =>
    refine (if_neg ?_).trans (if_pos rfl)
    intro same
    exact absurd (List.cons.inj same).1 (by decide)
  | utf16be =>
    refine (if_neg ?_).trans ((if_neg ?_).trans (if_pos rfl))
    all_goals
      intro same
      exact absurd (List.cons.inj same).1 (by decide)

theorem opened_sound {enc opening : TextEncoding} (concrete : enc ≠ .auto) {marked : Bool} {cps : List Nat}
    (scalars : Scalars cps) {tail : List Byte} (stuck : Stuck (decodeBytes enc) tail) {behind : Behind}
    (source : inner.text behind = (if marked then bomBytes enc else []) ++ cps.flatMap (form enc) ++ tail)
    (opens : Opens marked enc opening (inner.text behind)) {buf : Nat → Unit16} {raw : Nat → Byte} {cap : Nat}
    {w : World Behind} (starts : opened behind opening buf raw cap = some w) :
    Sound inner w.s w.behind enc cps tail ∧ unread w.s cps = utf16Text cps ∧ w.s.cap = cap := by
  unfold opened at starts
  split at starts
  · cases starts
  rename_i room
  obtain rfl := Option.some.inj starts
  have bytes : ∀ s : U16Reader, s.rawPos = 0 → s.rawLen = 0 → stream inner s behind = inner.text behind := by
    intro s pos len
    unfold stream staged
    rw [pos, len]
    rfl
  refine ⟨⟨⟨Nat.le_refl _, Nat.zero_le _, ?_, scalars, stuck, ?_, ?_, units_nil, ?_, ?_⟩, Nat.not_lt.mp room,
    Nat.le_refl _, Nat.zero_le _, units_nil⟩, rfl, rfl⟩
  · intro eof
    cases eof
  · unfold encoding
    rw [bytes _ rfl rfl]
    dsimp only
    rcases opens with ⟨rfl, rfl⟩ | ⟨rfl, rfl⟩ | ⟨rfl, rfl, mark⟩
    · rw [if_neg (by decide), source, if_pos rfl, List.append_assoc, bom_of_mark concrete]
    · rw [if_pos (decide_eq_true concrete)]
    · rw [if_neg (by decide), mark]
  · unfold encoded
    rw [bytes _ rfl rfl]
    dsimp only
    rcases opens with ⟨rfl, rfl⟩ | ⟨rfl, rfl⟩ | ⟨rfl, rfl, mark⟩
    · rw [if_neg (by decide), source, if_pos rfl, List.append_assoc, bom_of_mark concrete, List.drop_left]
    · rw [if_pos (decide_eq_true concrete), source, if_neg Bool.false_ne_true, List.nil_append]
    · rw [if_neg (by decide), mark, List.drop_zero, source, if_neg Bool.false_ne_true, List.nil_append]
  · intro u more none_
    cases none_
  intro broken
  exact absurd rfl broken

theorem view_steady : Steady fromView := by
  intro left space _ failed
  unfold fromView at failed
  dsimp only at failed
  split at failed
  · exact failed.2 rfl
  · exact failed.1 rfl

end ProvenC.Stream.WideText
