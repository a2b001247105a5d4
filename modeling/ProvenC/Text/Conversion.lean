import ProvenC.Text.Decoding

/-!
# Conversions are inverse

The measuring pass succeeds on texts only, with the length of the other form; the conversion then writes
that form, and the conversion back gives the text again.
-/

namespace ProvenC.Text.Conversion

open List Bytes Lib.Unicode Text.Utf Text.Decoding

variable {α β : Type}

structure DecodesForm (decode : List α → Decoded) (form : Nat → List α) : Prop where
  whole : ∀ cp rest, IsScalar cp → decode (form cp ++ rest) = .whole cp (form cp).length
  found : ∀ s cp len, decode s = .whole cp len → IsScalar cp ∧ len = (form cp).length ∧ s = form cp ++ s.drop len
  positive : ∀ cp, 0 < (form cp).length

theorem utf8_decodes : DecodesForm utf8DecodeSpan utf8Of where
  whole := fun _ rest scalar => decode_utf8_of scalar rest
  found := fun _ _ _ found => decode_utf8_whole found
  positive := utf8_of_positive

theorem utf16_decodes : DecodesForm utf16Decode utf16Of where
  whole := fun _ rest scalar => decode_utf16_of scalar rest
  found := fun _ _ _ found => decode_utf16_whole found
  positive := utf16_of_positive

variable {decode : List α → Decoded} {form : Nat → List α} {put : Nat → List β} {src : List α}

theorem drop_form {i : Nat} {cp : Nat} {rest : List α} (here : src.drop i = form cp ++ rest) :
    src.drop (i + (form cp).length) = rest := by
  rw [← drop_drop, here, drop_left]

variable (decodes : DecodesForm decode form)
include decodes

theorem form_inside {i cp : Nat} {rest : List α} (here : src.drop i = form cp ++ rest) : i < src.length := by
  by_contra beyond
  rw [drop_eq_nil_of_le (not_lt.mp beyond)] at here
  have positive := decodes.positive cp
  have empty := congrArg List.length here
  rw [length_append, length_nil] at empty
  omega

omit decodes in
theorem put_at_length {out : List β} {place : Nat} {items : List β} (fits : place + items.length ≤ out.length) :
    (putAt out place items).length = out.length := by
  unfold putAt
  rw [length_append, length_append, length_take, length_drop]
  omega

omit decodes in
theorem put_at_append {out : List β} {place : Nat} {first second : List β} (fits : place + first.length ≤ out.length) :
    putAt (putAt out place first) (place + first.length) second = putAt out place (first ++ second) := by
  have front : (out.take place ++ first).length = place + first.length := by
    rw [length_append, length_take]
    omega
  have taken : (putAt out place first).take (place + first.length) = out.take place ++ first := by
    unfold putAt
    rw [← front, take_left]
  have left : (putAt out place first).drop (place + first.length + second.length) =
      out.drop (place + (first ++ second).length) := by
    unfold putAt
    rw [← drop_drop, ← front, drop_left, front, drop_drop, length_append, add_assoc]
  unfold putAt at taken left ⊢
  rw [taken, left, append_assoc (List.take place out)]

omit decodes in
theorem put_at_start (out items : List β) : putAt out 0 items = items ++ out.drop items.length := by
  unfold putAt
  rw [take_zero, nil_append, zero_add]

theorem convert_text (cps : List Nat) (scalars : Scalars cps) :
    ∀ left (st : UtfStep β), st.err = none → src.drop st.consumed = cps.flatMap form → cps.length ≤ left →
      st.consumed ≤ src.length → st.written + (cps.flatMap put).length ≤ st.out.length →
      convertLoop decode put src left st =
        { err := none, consumed := src.length, written := st.written + (cps.flatMap put).length
          out := putAt st.out st.written (cps.flatMap put) } := by
  induction cps with
  | nil =>
    intro left st fine here _ within _
    have ended : st.consumed = src.length := by
      have length := congrArg List.length here
      rw [length_drop, flatMap_nil, length_nil] at length
      omega
    have same : st = { err := none, consumed := src.length, written := st.written + (List.flatMap put []).length
                       out := putAt st.out st.written (List.flatMap put []) } := by
      have out : putAt st.out st.written [] = st.out := by
        unfold putAt
        rw [append_nil, length_nil, add_zero, take_append_drop]
      rw [flatMap_nil, out]
      cases st
      dsimp only at fine ended ⊢
      rw [fine, ended, length_nil, add_zero]
    cases left with
    | zero => exact same
    | succ left =>
      rw [convertLoop, if_neg (by omega)]
      exact same
  | cons cp cps ih =>
    intro left st fine here enough within room
    obtain ⟨scalar, later⟩ := forall_mem_cons.mp scalars
    rw [flatMap_cons] at here room
    rw [length_append] at room
    cases left with
    | zero => cases enough
    | succ left =>
      have inside := form_inside decodes here
      have rest := drop_form here
      rw [convertLoop, if_pos inside, here, decodes.whole cp _ scalar]
      dsimp only
      rw [if_neg (by omega)]
      have bound : st.consumed + (form cp).length ≤ src.length := by
        have length := congrArg List.length here
        rw [length_drop, length_append] at length
        omega
      have further := ih later left
        { err := st.err, consumed := st.consumed + (form cp).length, written := st.written + (put cp).length
          out := putAt st.out st.written (put cp) } fine rest (by rw [length_cons] at enough; omega) bound
        (by dsimp only; rw [put_at_length (by omega)]; omega)
      rw [further]
      dsimp only
      rw [put_at_append (by omega), flatMap_cons, length_append, add_assoc]

theorem scalars_length (cps : List Nat) : cps.length ≤ (cps.flatMap form).length := by
  induction cps with
  | nil => exact le_refl _
  | cons cp cps ih =>
    have positive := decodes.positive cp
    rw [flatMap_cons, length_append, length_cons]
    omega

variable {cps : List Nat}

theorem convert_whole (scalars : Scalars cps)
    (text : src = cps.flatMap form) {out : List β} (room : (cps.flatMap put).length ≤ out.length) :
    convertLoop decode put src src.length { err := none, consumed := 0, written := 0, out := out } =
      { err := none, consumed := src.length, written := (cps.flatMap put).length
        out := cps.flatMap put ++ out.drop (cps.flatMap put).length } := by
  have enough := scalars_length decodes cps
  rw [← text] at enough
  rw [convert_text decodes cps scalars src.length { err := none, consumed := 0, written := 0, out := out } rfl text
    enough (Nat.zero_le _) (by dsimp only; omega)]
  dsimp only
  rw [put_at_start, zero_add]

/-- The characters from `i` on, where every one is whole. -/
def readAll (decode : List α → Decoded) (src : List α) : Nat → Nat → Option (List Nat)
  | 0, _ => some []
  | left + 1, i =>
    if i < src.length then
      match decode (src.drop i) with
      | .whole cp len => (readAll decode src left (i + len)).map (cp :: ·)
      | _ => none
    else some []

theorem read_all_text : ∀ left i cps, src.length ≤ i + left → readAll decode src left i = some cps →
      Scalars cps ∧ src.drop i = cps.flatMap form := by
  intro left
  induction left with
  | zero =>
    intro i cps enough found
    cases found
    exact ⟨fun _ among => absurd among not_mem_nil, drop_eq_nil_of_le enough⟩
  | succ left ih =>
    intro i cps enough found
    rw [readAll] at found
    by_cases inside : i < src.length
    · rw [if_pos inside] at found
      cases decoded : decode (src.drop i) with
      | more => rw [decoded] at found; cases found
      | bad span => rw [decoded] at found; cases found
      | whole cp len =>
        rw [decoded] at found
        dsimp only at found
        obtain ⟨later, laterFound, rfl⟩ := Option.map_eq_some_iff.mp found
        obtain ⟨scalar, long, here⟩ := decodes.found _ _ _ decoded
        have positive := decodes.positive cp
        obtain ⟨scalars, rest⟩ := ih (i + len) later (by omega) laterFound
        rw [drop_drop, rest] at here
        exact ⟨forall_mem_cons.mpr ⟨scalar, scalars⟩, here⟩
    rw [if_neg inside] at found
    cases found
    exact ⟨fun _ among => absurd among not_mem_nil, drop_eq_nil_of_le (not_lt.mp inside)⟩

theorem read_all_of_text (cps : List Nat) (scalars : Scalars cps) :
    ∀ left i, src.drop i = cps.flatMap form → cps.length ≤ left → readAll decode src left i = some cps := by
  induction cps with
  | nil =>
    intro left i here _
    have ended := drop_eq_nil_iff.mp here
    cases left with
    | zero => rfl
    | succ left => rw [readAll, if_neg (by omega)]
  | cons cp cps ih =>
    intro left i here enough
    obtain ⟨scalar, later⟩ := forall_mem_cons.mp scalars
    rw [flatMap_cons] at here
    rw [length_cons] at enough
    obtain ⟨left, rfl⟩ := Nat.exists_eq_add_of_le' (lt_of_lt_of_le (Nat.succ_pos _) enough)
    rw [readAll, if_pos (form_inside decodes here), here, decodes.whole cp _ scalar]
    dsimp only
    rw [ih later left _ (drop_form here) (by omega)]
    rfl

theorem read_all_iff (cps : List Nat) :
    readAll decode src src.length 0 = some cps ↔ Scalars cps ∧ src = cps.flatMap form := by
  constructor
  · intro found
    have text := read_all_text decodes src.length 0 cps (by omega) found
    rwa [drop_zero] at text
  intro text
  obtain ⟨scalars, text⟩ := text
  have enough := scalars_length decodes cps
  rw [← text] at enough
  exact read_all_of_text decodes cps scalars src.length 0 text enough

omit decodes

theorem utf8_width_of {cp : Nat} (scalar : IsScalar cp) : utf8Width cp = (utf8Of cp).length := by
  unfold IsScalar at scalar
  unfold utf8Width utf8Of
  split_ifs <;> rfl

theorem units_of (cp : Nat) : (if 0x10000 ≤ cp then 2 else 1) = (utf16Of cp).length := by
  unfold utf16Of
  by_cases pair : 0x10000 ≤ cp
  · rw [if_pos pair, if_neg (by omega)]
    rfl
  rw [if_neg pair, if_pos (by omega)]
  rfl

theorem decode_next_inside {s : List Byte} {pos : Nat} (inside : pos < s.length) : utf8DecodeNext s pos =
      match utf8DecodeSpan (s.drop pos) with
      | .whole cp len => { err := none, cp := cp, len := len }
      | .more => { err := some .needMore, cp := 0, len := s.length - pos }
      | .bad span => { err := some .invalidEncoding, cp := 0, len := span } := by
  unfold utf8DecodeNext
  exact (if_neg (by omega)).trans (if_neg (by omega))

theorem validate_reads (s : List Byte) :
    ∀ left pos, pos ≤ s.length → (validateFrom s left pos = .ok () ↔ (readAll utf8DecodeSpan s left pos).isSome) := by
  intro left
  induction left with
  | zero => exact fun _ _ => ⟨fun _ => rfl, fun _ => rfl⟩
  | succ left ih =>
    intro pos within
    rw [validateFrom, readAll]
    by_cases inside : pos < s.length
    · rw [if_pos inside, if_pos inside, decode_next_inside inside]
      cases decoded : utf8DecodeSpan (s.drop pos) with
      | more => exact iff_of_false nofun nofun
      | bad span => exact iff_of_false nofun nofun
      | whole cp len =>
        obtain ⟨_, long, here⟩ := decode_utf8_whole decoded
        have short := congrArg List.length here
        rw [length_append, length_drop] at short
        have further := ih (pos + len) (by omega)
        dsimp only
        rw [Option.isSome_map]
        exact further
    rw [if_neg inside, if_neg inside]
    exact ⟨fun _ => rfl, fun _ => rfl⟩

theorem utf8_validate_text (s : List Byte) : utf8Validate s = .ok () ↔ Utf8Text s := by
  unfold utf8Validate
  rw [validate_reads s s.length 0 (Nat.zero_le _), Option.isSome_iff_exists, text_iff_scalars]
  exact exists_congr fun cps => read_all_iff utf8_decodes cps

theorem utf16_size_reads (src : List Byte) : ∀ left i value, utf16SizeLoop src left i value =
      match readAll utf8DecodeSpan src left i with
      | some cps => .ok (value + (utf16Text cps).length)
      | none => .error .invalidEncoding := by
  intro left
  induction left with
  | zero => exact fun _ _ => rfl
  | succ left ih =>
    intro i value
    rw [utf16SizeLoop, readAll]
    by_cases inside : i < src.length
    · rw [if_pos inside, if_pos inside]
      cases decoded : utf8DecodeSpan (src.drop i) with
      | more => rfl
      | bad span => rfl
      | whole cp len =>
        dsimp only
        rw [ih, units_of]
        cases readAll utf8DecodeSpan src left (i + len) with
        | none => rfl
        | some cps =>
          dsimp only [Option.map_some]
          rw [utf16Text, utf16Text, flatMap_cons, length_append, add_assoc]
    rw [if_neg inside, if_neg inside]
    rfl

theorem utf8_size_reads (src : List Unit16) : ∀ left i value v, value < sizeEnd → (utf8SizeLoop src left i value = .ok v ↔
      ∃ cps, readAll utf16Decode src left i = some cps ∧ v = value + (utf8Text cps).length ∧ v < sizeEnd) := by
  intro left
  induction left with
  | zero =>
    intro i value v small
    constructor
    · intro found
      cases found
      exact ⟨[], rfl, rfl, small⟩
    rintro ⟨cps, found, rfl, _⟩
    cases found
    rfl
  | succ left ih =>
    intro i value v small
    rw [utf8SizeLoop, readAll]
    by_cases inside : i < src.length
    · rw [if_pos inside, if_pos inside]
      cases decoded : utf16Decode (src.drop i) with
      | more => exact iff_of_false nofun nofun
      | bad span => exact iff_of_false nofun nofun
      | whole cp len =>
        obtain ⟨scalar, _, _⟩ := decode_utf16_whole decoded
        dsimp only
        rw [utf8_width_of scalar]
        have longer : ∀ cps, (utf8Text (cp :: cps)).length = (utf8Of cp).length + (utf8Text cps).length := by
          intro cps
          rw [utf8Text, flatMap_cons, length_append, utf8Text]
        by_cases far : sizeEnd ≤ value + (utf8Of cp).length
        · rw [if_pos far]
          constructor
          · exact fun wrong => nomatch wrong
          rintro ⟨_, found, rfl, fits⟩
          obtain ⟨cps, _, rfl⟩ := Option.map_eq_some_iff.mp found
          have long := longer cps
          omega
        rw [if_neg far, ih _ _ _ (not_le.mp far)]
        constructor
        · rintro ⟨cps, found, rfl, fits⟩
          refine ⟨cp :: cps, by rw [found]; rfl, ?_, fits⟩
          rw [longer, add_assoc]
        rintro ⟨_, found, rfl, fits⟩
        obtain ⟨cps, before, rfl⟩ := Option.map_eq_some_iff.mp found
        rw [longer] at fits ⊢
        exact ⟨cps, before, by omega, fits⟩
    rw [if_neg inside, if_neg inside]
    constructor
    · intro found
      cases found
      exact ⟨[], rfl, rfl, small⟩
    rintro ⟨cps, found, rfl, _⟩
    cases found
    rfl

theorem utf8_to_utf16_size_iff (s : List Byte) (need : Nat) :
    utf8ToUtf16Size s = .ok need ↔ ∃ cps, Scalars cps ∧ s = utf8Text cps ∧ need = (utf16Text cps).length := by
  unfold utf8ToUtf16Size
  rw [utf16_size_reads]
  constructor
  · intro found
    cases read : readAll utf8DecodeSpan s s.length 0 with
    | none => rw [read] at found; cases found
    | some cps =>
      rw [read] at found
      dsimp only at found
      obtain ⟨scalars, text⟩ := (read_all_iff utf8_decodes cps).mp read
      refine ⟨cps, scalars, text, ?_⟩
      rw [← Except.ok.inj found, zero_add]
  rintro ⟨cps, scalars, text, rfl⟩
  rw [(read_all_iff utf8_decodes cps).mpr ⟨scalars, text⟩]
  dsimp only
  rw [zero_add]

theorem utf16_to_utf8_size_iff (u : List Unit16) (need : Nat) : utf16ToUtf8Size u = .ok need ↔
      ∃ cps, Scalars cps ∧ u = utf16Text cps ∧ need = (utf8Text cps).length ∧ need < sizeEnd := by
  unfold utf16ToUtf8Size
  rw [utf8_size_reads u u.length 0 0 need (by decide)]
  refine exists_congr fun cps => ?_
  rw [read_all_iff utf16_decodes, and_assoc, zero_add]
  rfl

structure Inverse (form : Nat → List α) (other : Nat → List β) (size : List α → Except ProvenErr Nat)
    (convert : List α → List β → Converted β) (back : List β → List α → Converted α)
    (src : List α) (out : List β) (again : List α) : Prop where
  written : ∀ cps, Scalars cps → src = cps.flatMap form → (cps.flatMap other).length ≤ out.length →
    size src = .ok (cps.flatMap other).length ∧
    convert src out = { err := none, written := (cps.flatMap other).length
                        out := cps.flatMap other ++ out.drop (cps.flatMap other).length } ∧
    (src.length ≤ again.length →
      back (cps.flatMap other) again = { err := none, written := src.length, out := src ++ again.drop src.length })
  refused : (∀ cps, Scalars cps → src = cps.flatMap form → out.length < (cps.flatMap other).length) →
    ∃ err, convert src out = { err := some err, written := 0, out := out }
  measured : ∀ need, size src = .ok need → ∃ cps, Scalars cps ∧ src = cps.flatMap form ∧ need = (cps.flatMap other).length

theorem utf8_to_utf16_written (scalars : Scalars cps) {out : List Unit16} (room : (utf16Text cps).length ≤ out.length) :
    utf8ToUtf16 (utf8Text cps) out =
      { err := none, written := (utf16Text cps).length, out := utf16Text cps ++ out.drop (utf16Text cps).length } := by
  have sized := (utf8_to_utf16_size_iff (utf8Text cps) _).mpr ⟨cps, scalars, rfl, rfl⟩
  have same : cps.flatMap utf16Put = utf16Text cps := flatMap_congr fun cp _ => utf16_put_of cp
  have converted : convertLoop utf8DecodeSpan utf16Put (utf8Text cps) (utf8Text cps).length
      { err := none, consumed := 0, written := 0, out } =
      _ := convert_whole utf8_decodes scalars rfl (by rw [same]; exact room)
  rw [same] at converted
  unfold utf8ToUtf16 utf8ToUtf16Partial
  rw [sized, converted]
  dsimp only
  rw [if_neg (not_lt.mpr room)]
  rfl

theorem utf16_to_utf8_written (scalars : Scalars cps) {out : List Byte}
    (room : (utf8Text cps).length ≤ out.length) (outSmall : out.length < sizeEnd) : utf16ToUtf8 (utf16Text cps) out =
      { err := none, written := (utf8Text cps).length, out := utf8Text cps ++ out.drop (utf8Text cps).length } := by
  have sized := (utf16_to_utf8_size_iff (utf16Text cps) _).mpr ⟨cps, scalars, rfl, rfl, lt_of_le_of_lt room outSmall⟩
  have same : cps.flatMap (fun cp => utf8Put cp (utf8Width cp)) = utf8Text cps :=
    flatMap_congr fun cp among => utf8_put_of (scalars cp among)
  have converted : convertLoop utf16Decode (fun cp => utf8Put cp (utf8Width cp)) (utf16Text cps)
      (utf16Text cps).length { err := none, consumed := 0, written := 0, out } =
      _ := convert_whole utf16_decodes scalars rfl (by rw [same]; exact room)
  rw [same] at converted
  unfold utf16ToUtf8 utf16ToUtf8Partial
  rw [sized, converted]
  dsimp only
  rw [if_neg (not_lt.mpr room)]
  rfl

theorem utf8_inverse (s : List Byte) (out : List Unit16) (again : List Byte) (againSmall : again.length < sizeEnd) :
    Inverse utf8Of utf16Of utf8ToUtf16Size utf8ToUtf16 utf16ToUtf8 s out again where
  written := by
    rintro cps scalars rfl room
    refine ⟨(utf8_to_utf16_size_iff _ _).mpr ⟨cps, scalars, rfl, rfl⟩, utf8_to_utf16_written scalars room, ?_⟩
    intro roomBack
    exact utf16_to_utf8_written scalars roomBack againSmall
  refused := by
    intro tooSmall
    unfold utf8ToUtf16
    cases sized : utf8ToUtf16Size s with
    | error err => exact ⟨err, rfl⟩
    | ok need =>
      obtain ⟨cps, scalars, text, rfl⟩ := (utf8_to_utf16_size_iff s need).mp sized
      have short : out.length < (utf16Text cps).length := tooSmall cps scalars text
      dsimp only
      rw [if_pos short]
      exact ⟨_, rfl⟩
  measured := fun need sized => (utf8_to_utf16_size_iff s need).mp sized

theorem utf16_inverse (u : List Unit16) (out : List Byte) (again : List Unit16) (outSmall : out.length < sizeEnd) :
    Inverse utf16Of utf8Of utf16ToUtf8Size utf16ToUtf8 utf8ToUtf16 u out again where
  written := by
    rintro cps scalars rfl room
    refine ⟨(utf16_to_utf8_size_iff _ _).mpr ⟨cps, scalars, rfl, rfl, lt_of_le_of_lt room outSmall⟩,
      utf16_to_utf8_written scalars room outSmall, ?_⟩
    intro roomBack
    exact utf8_to_utf16_written scalars roomBack
  refused := by
    intro tooSmall
    unfold utf16ToUtf8
    cases sized : utf16ToUtf8Size u with
    | error err => exact ⟨err, rfl⟩
    | ok need =>
      obtain ⟨cps, scalars, text, rfl, _⟩ := (utf16_to_utf8_size_iff u need).mp sized
      have short : out.length < (utf8Text cps).length := tooSmall cps scalars text
      dsimp only
      rw [if_pos short]
      exact ⟨_, rfl⟩
  measured := by
    intro need sized
    obtain ⟨cps, scalars, text, measured, _⟩ := (utf16_to_utf8_size_iff u need).mp sized
    exact ⟨cps, scalars, text, measured⟩

theorem decode_next_iff (s : List Byte) (pos : Nat) :
    (utf8DecodeNext s pos).err = none ↔ pos ≤ s.length ∧ ∃ char rest, Utf8Char char ∧ s.drop pos = char ++ rest := by
  by_cases inside : pos < s.length
  · rw [decode_next_inside inside]
    constructor
    · intro fine
      cases decoded : utf8DecodeSpan (s.drop pos) with
      | more | bad => rw [decoded] at fine; cases fine
      | whole cp len =>
        obtain ⟨scalar, _, here⟩ := decode_utf8_whole decoded
        exact ⟨le_of_lt inside, utf8Of cp, _, utf8_of_char scalar, here⟩
    rintro ⟨_, char, rest, isChar, here⟩
    obtain ⟨cp, scalar, rfl⟩ := char_utf8_of isChar
    rw [here, decode_utf8_of scalar]
  constructor
  · intro fine
    unfold utf8DecodeNext at fine
    by_cases beyond : s.length < pos
    · rw [if_pos beyond] at fine
      cases fine
    rw [if_neg beyond, if_pos (by omega)] at fine
    cases fine
  rintro ⟨_, char, rest, isChar, here⟩
  obtain ⟨cp, _, rfl⟩ := char_utf8_of isChar
  exact absurd (form_inside utf8_decodes here) inside

/-- UTF-8 and UTF-16 texts are each other's exact forms. -/
theorem utf_conversions_exact (s : List Byte) (u : List Unit16) (pos : Nat) (bytes : List Byte) (units : List Unit16)
    (bytesSmall : bytes.length < sizeEnd) : (utf8Validate s = .ok () ↔ Utf8Text s) ∧
    ((utf8DecodeNext s pos).err = none ↔ pos ≤ s.length ∧ ∃ char rest, Utf8Char char ∧ s.drop pos = char ++ rest) ∧
    (∀ cp rest, IsScalar cp → s.drop pos = utf8Of cp ++ rest →
      utf8DecodeNext s pos = { err := none, cp := cp, len := (utf8Of cp).length }) ∧
    (Utf8Text s ↔ ∃ cps, Scalars cps ∧ s = utf8Text cps) ∧
    Inverse utf8Of utf16Of utf8ToUtf16Size utf8ToUtf16 utf16ToUtf8 s units bytes ∧
    Inverse utf16Of utf8Of utf16ToUtf8Size utf16ToUtf8 utf8ToUtf16 u bytes units := by
  refine ⟨utf8_validate_text s, decode_next_iff s pos, ?_, text_iff_scalars s, utf8_inverse s units bytes bytesSmall,
    utf16_inverse u bytes units bytesSmall⟩
  intro cp rest scalar here
  rw [decode_next_inside (form_inside utf8_decodes here), here, decode_utf8_of scalar]

/-- A character above U+FFFF, with room on both sides. -/
theorem utf_conversions_pair :
    utf8ToUtf16 [0xF0, 0x9F, 0x98, 0x80] [0, 0, 7] = { err := none, written := 2, out := [0xD83D, 0xDE00, 7] } ∧
    utf16ToUtf8 [0xD83D, 0xDE00] [1, 2, 3, 4, 5] = { err := none, written := 4, out := [0xF0, 0x9F, 0x98, 0x80, 5] } := by
  have exact_ := utf_conversions_exact [0xF0, 0x9F, 0x98, 0x80] [] 0 [1, 2, 3, 4, 5] [0, 0, 7] (by decide)
  obtain ⟨_, _, _, _, inverse, _⟩ := exact_
  obtain ⟨_, there, back⟩ := inverse.written [0x1F600] (by decide) (by decide) (by decide)
  exact ⟨there, back (by decide)⟩

end ProvenC.Text.Conversion
