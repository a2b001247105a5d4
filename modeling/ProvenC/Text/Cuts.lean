import ProvenC.Text.Streams

/-!
# Parts of a text

What a partial conversion takes when the source goes on with something that is no character, or the room
ends; and where the units of a text may be cut.
-/

namespace ProvenC.Text.Cuts

open List Bytes Lib.Unicode Text.Utf Text.Decoding Text.Conversion
open Text.Streams

variable {α β : Type} {decode : List α → Decoded} {form : Nat → List α} {put : Nat → List β} {src : List α}

def tailErr (decode : List α → Decoded) (tail : List α) : Option ProvenErr :=
  if tail = [] then none
  else
    match decode tail with
    | .bad _ => some .invalidEncoding
    | _ => some .needMore

/-- What a conversion took: the characters before `later`, which did not fit or were none. -/
structure Taken (decode : List α → Decoded) (put : Nat → List β) (done : List Nat) (later : List Nat)
    (tail : List α) (room : Nat) (form : Nat → List α) (st : UtfStep β) : Prop where
  consumed : st.consumed = (done.flatMap form).length
  written : st.written = (done.flatMap put).length
  out : st.out.take st.written = done.flatMap put
  fits : st.written ≤ room
  ended : (later = [] ∧ st.err = tailErr decode tail) ∨
    ∃ cp more, later = cp :: more ∧ room < st.written + (put cp).length ∧ st.err = some .outOfBounds

theorem put_at_take {out items : List β} {place : Nat} (inside : place ≤ out.length) :
    (putAt out place items).take (place + items.length) = out.take place ++ items := by
  unfold putAt
  have front : (out.take place ++ items).length = place + items.length := by
    rw [length_append, length_take]
    omega
  rw [← front, take_left]

theorem convert_takes (decodes : DecodesForm decode form) {tail : List α} (stuck : ∀ cp len, decode tail ≠ .whole cp len)
    (cps : List Nat) (scalars : Scalars cps) :
    ∀ left (st : UtfStep β) done, st.err = none → st.consumed = (done.flatMap form).length →
      st.written = (done.flatMap put).length → st.out.take st.written = done.flatMap put →
      st.written ≤ st.out.length → src = done.flatMap form ++ (cps.flatMap form ++ tail) →
      src.length ≤ st.consumed + left → ∃ taken later, cps = taken ++ later ∧
        Taken decode put (done ++ taken) later tail st.out.length form (convertLoop decode put src left st) := by
  induction cps with
  | nil =>
    intro left st done fine consumed written out fits whole enough
    have here : src.drop st.consumed = tail := by
      rw [whole, consumed, drop_left, flatMap_nil, nil_append]
    refine ⟨[], [], rfl, ?_⟩
    rw [append_nil]
    cases left with
    | zero =>
      rw [whole, length_append, ← consumed, flatMap_nil, nil_append] at enough
      have none_left : tail = [] := eq_nil_of_length_eq_zero (by omega)
      exact ⟨consumed, written, out, fits, Or.inl ⟨rfl, by rw [tailErr, if_pos none_left]; exact fine⟩⟩
    | succ left =>
      rw [convertLoop]
      by_cases some_ : tail = []
      · have ended : ¬st.consumed < src.length := by
          have lengths := congrArg List.length here
          rw [length_drop, some_, length_nil] at lengths
          omega
        rw [if_neg ended]
        exact ⟨consumed, written, out, fits, Or.inl ⟨rfl, by rw [fine, tailErr, if_pos some_]⟩⟩
      have inside : st.consumed < src.length := by
        have lengths := congrArg List.length here
        rw [length_drop] at lengths
        have positive := length_pos_iff.mpr some_
        omega
      rw [if_pos inside, here]
      have same : tailErr decode tail = match decode tail with
          | .bad _ => some .invalidEncoding
          | _ => some .needMore := if_neg some_
      cases decoded : decode tail with
      | whole cp len => exact absurd decoded (stuck cp len)
      | bad span => exact ⟨consumed, written, out, fits, Or.inl ⟨rfl, by rw [same, decoded]⟩⟩
      | more => exact ⟨consumed, written, out, fits, Or.inl ⟨rfl, by rw [same, decoded]⟩⟩
  | cons cp cps ih =>
    intro left st done fine consumed written out fits whole enough
    obtain ⟨scalar, later⟩ := forall_mem_cons.mp scalars
    have here : src.drop st.consumed = form cp ++ (cps.flatMap form ++ tail) := by
      rw [whole, consumed, drop_left, flatMap_cons, append_assoc]
    cases left with
    | zero =>
      have positive := decodes.positive cp
      rw [whole, length_append, ← consumed, flatMap_cons, append_assoc, length_append] at enough
      omega
    | succ left =>
      rw [convertLoop, if_pos (form_inside decodes here), here, decodes.whole cp _ scalar]
      dsimp only
      by_cases full : st.out.length - st.written < (put cp).length
      · rw [if_pos full]
        refine ⟨[], cp :: cps, rfl, ?_⟩
        rw [append_nil]
        exact ⟨consumed, written, out, fits, Or.inr ⟨cp, cps, rfl, by dsimp only; omega, rfl⟩⟩
      rw [if_neg full]
      have positive := decodes.positive cp
      have length := put_at_length (show st.written + (put cp).length ≤ st.out.length by omega)
      obtain ⟨taken, rest, split, ends⟩ := ih later left
        { err := st.err, consumed := st.consumed + (form cp).length, written := st.written + (put cp).length
          out := putAt st.out st.written (put cp) } (done ++ [cp]) fine
        (by rw [flatMap_append, length_append, ← consumed, flatMap_singleton])
        (by rw [flatMap_append, length_append, ← written, flatMap_singleton])
        (by rw [put_at_take fits, out, flatMap_append, flatMap_singleton])
        (by dsimp only; rw [length]; omega)
        (by rw [whole, flatMap_append, flatMap_singleton, flatMap_cons, append_assoc, append_assoc])
        (by dsimp only; omega)
      rw [length] at ends
      refine ⟨cp :: taken, rest, by rw [split]; rfl, ?_⟩
      rw [append_cons]
      exact ends

theorem convert_front (decodes : DecodesForm decode form) {tail : List α} (stuck : ∀ cp len, decode tail ≠ .whole cp len)
    {cps : List Nat} (scalars : Scalars cps) (whole : src = cps.flatMap form ++ tail) (out : List β) :
    ∃ taken later, cps = taken ++ later ∧ Taken decode put taken later tail out.length form
      (convertLoop decode put src src.length { err := none, consumed := 0, written := 0, out := out }) :=
  convert_takes decodes stuck cps scalars src.length { err := none, consumed := 0, written := 0, out := out } [] rfl rfl rfl
    (take_zero ..) (Nat.zero_le _) (by rw [whole]; rfl) (by dsimp only; omega)

def isHigh (u : Unit16) : Prop := 0xD800 ≤ u.val ∧ u.val ≤ 0xDBFF

instance (u : Unit16) : Decidable (isHigh u) := inferInstanceAs (Decidable (_ ∧ _))

def Units (units : List Unit16) : Prop := ∃ cps, Scalars cps ∧ units = utf16Text cps

theorem low_not_high {u : Unit16} (low : 0xDC00 ≤ u.val) : ¬isHigh u := by
  unfold isHigh
  omega

theorem utf16_of_cases {cp : Nat} (scalar : IsScalar cp) :
    (∃ u, utf16Of cp = [u] ∧ ¬isHigh u) ∨ ∃ u v, utf16Of cp = [u, v] ∧ isHigh u ∧ 0xDC00 ≤ v.val := by
  unfold IsScalar at scalar
  unfold utf16Of isHigh
  by_cases one : cp < 0x10000
  · left
    rw [if_pos one]
    refine ⟨_, rfl, ?_⟩
    rw [unit16_val]
    omega
  right
  rw [if_neg one]
  refine ⟨_, _, rfl, ?_, ?_⟩
  · rw [unit16_val]
    omega
  rw [unit16_val]
  omega

theorem units_nil : Units [] := ⟨[], fun _ among => absurd among not_mem_nil, rfl⟩

theorem units_append {first second : List Unit16} (one : Units first) (two : Units second) : Units (first ++ second) := by
  obtain ⟨cps, scalars, rfl⟩ := one
  obtain ⟨cps', scalars', rfl⟩ := two
  refine ⟨cps ++ cps', ?_, by rw [utf16Text, utf16Text, utf16Text, flatMap_append]⟩
  intro cp among
  rcases mem_append.mp among with among | among
  · exact scalars cp among
  · exact scalars' cp among

theorem units_text {cps : List Nat} (scalars : Scalars cps) : Units (utf16Text cps) := ⟨cps, scalars, rfl⟩

theorem units_cut {units : List Unit16} (text : Units units) {first second : List Unit16}
    (split : units = first ++ second) (whole : ∀ u, first.getLast? = some u → ¬isHigh u) :
    Units first ∧ Units second := by
  obtain ⟨cps, scalars, rfl⟩ := text
  induction cps generalizing first with
  | nil =>
    obtain ⟨rfl, rfl⟩ := append_eq_nil_iff.mp split.symm
    exact ⟨units_nil, units_nil⟩
  | cons cp cps ih =>
    obtain ⟨scalar, later⟩ := forall_mem_cons.mp scalars
    rw [utf16Text, flatMap_cons] at split
    have character : Units (utf16Of cp) := ⟨[cp], by simpa [Scalars] using scalar, by simp [utf16Text]⟩
    cases first with
    | nil =>
      refine ⟨units_nil, ?_⟩
      rw [nil_append] at split
      rw [← split]
      exact units_append character (units_text later)
    | cons u first =>
      rcases utf16_of_cases scalar with ⟨v, same, -⟩ | ⟨v, w, same, high, -⟩
      · rw [same, singleton_append, cons_append] at split
        obtain ⟨rfl, rest⟩ := List.cons.inj split
        rw [same] at character
        have whole' : ∀ x, first.getLast? = some x → ¬isHigh x := by
          intro x last
          apply whole x
          rw [List.getLast?_cons, last]
          rfl
        obtain ⟨front, back⟩ := ih whole' later rest
        exact ⟨units_append character front, back⟩
      rw [same, cons_append, singleton_append, cons_append] at split
      obtain ⟨rfl, rest⟩ := List.cons.inj split
      cases first with
      | nil => exact absurd high (whole v rfl)
      | cons x first =>
        rw [cons_append] at rest
        obtain ⟨rfl, further⟩ := List.cons.inj rest
        rw [same] at character
        have whole' : ∀ y, first.getLast? = some y → ¬isHigh y := by
          intro y last
          apply whole y
          rw [List.getLast?_cons, List.getLast?_cons, last]
          rfl
        obtain ⟨front, back⟩ := ih whole' later further
        exact ⟨units_append character front, back⟩

theorem units_last {units : List Unit16} (text : Units units) : ∀ u, units.getLast? = some u → ¬isHigh u := by
  obtain ⟨cps, scalars, rfl⟩ := text
  intro u last
  rcases eq_nil_or_concat cps with rfl | ⟨front, cp, rfl⟩
  · cases last
  have scalar := scalars cp (by simp)
  rw [concat_eq_append, utf16Text, flatMap_append, flatMap_singleton] at last
  rcases utf16_of_cases scalar with ⟨v, same, plain⟩ | ⟨v, w, same, -, low⟩
  · rw [same, List.getLast?_append, List.getLast?_singleton] at last
    obtain rfl := Option.some.inj last
    exact plain
  rw [same, List.getLast?_append, List.getLast?_cons, List.getLast?_singleton] at last
  obtain rfl := Option.some.inj last
  exact low_not_high low

theorem units_before {units front back : List Unit16} (text : Units units) {c : Unit16} (split : units = front ++ c :: back)
    (plain : c.val < 0xDC00) : ∀ u, front.getLast? = some u → ¬isHigh u := by
  obtain ⟨cps, scalars, rfl⟩ := text
  induction cps generalizing front with
  | nil =>
    obtain ⟨rfl, -⟩ := append_eq_nil_iff.mp split.symm
    intro u last
    cases last
  | cons cp cps ih =>
    obtain ⟨scalar, later⟩ := forall_mem_cons.mp scalars
    rw [utf16Text, flatMap_cons] at split
    -- a character that ends before the place leaves the question to what follows it
    have onward : ∀ (v : Unit16) (first : List Unit16), ¬isHigh v → utf16Text cps = first ++ c :: back →
        ∀ u, (v :: first).getLast? = some u → ¬isHigh u := by
      intro v first low rest u last
      rw [List.getLast?_cons] at last
      cases ends : first.getLast? with
      | none =>
        rw [ends] at last
        obtain rfl := Option.some.inj last
        exact low
      | some x =>
        rw [ends] at last
        obtain rfl := Option.some.inj last
        exact ih later rest x ends
    intro u last
    cases front with
    | nil => cases last
    | cons x front =>
      rcases utf16_of_cases scalar with ⟨v, same, low⟩ | ⟨v, w, same, high, low⟩
      · rw [same, singleton_append, cons_append] at split
        obtain ⟨rfl, rest⟩ := List.cons.inj split
        exact onward v front low rest u last
      rw [same, cons_append, singleton_append, cons_append] at split
      obtain ⟨rfl, rest⟩ := List.cons.inj split
      cases front with
      | nil =>
        -- the second half of a pair is what it cannot be
        rw [nil_append] at rest
        obtain ⟨rfl, -⟩ := List.cons.inj rest
        exact absurd low (Nat.not_le_of_lt plain)
      | cons y front =>
        rw [cons_append] at rest
        obtain ⟨rfl, further⟩ := List.cons.inj rest
        rw [List.getLast?_cons_cons] at last
        exact onward w front (low_not_high low) further u last

theorem text_cut {cps : List Nat} (scalars : Scalars cps) {first second : List Unit16}
    (split : utf16Text cps = first ++ second) (whole : ∀ u, first.getLast? = some u → ¬isHigh u) :
    ∃ front back, cps = front ++ back ∧ first = utf16Text front ∧ second = utf16Text back := by
  obtain ⟨⟨front, front_scalars, rfl⟩, back, back_scalars, rfl⟩ := units_cut (units_text scalars) split whole
  refine ⟨front, back, ?_, rfl, rfl⟩
  have joined : utf16Text cps = utf16Text (front ++ back) := by
    rw [split, utf16Text, utf16Text, utf16Text, flatMap_append]
  have both : Scalars (front ++ back) := by
    intro cp among
    rcases mem_append.mp among with among | among
    · exact front_scalars cp among
    · exact back_scalars cp among
  have stuck : Stuck utf16Decode [] := fun cp len whole => by cases whole
  have one := @read_text_of _ _ _ utf16_streams cps scalars [] stuck (cps.length + (front ++ back).length + 1) (by omega)
  have two := @read_text_of _ _ _ utf16_streams (front ++ back) both [] stuck (cps.length + (front ++ back).length + 1)
    (by omega)
  rw [← utf16Text, joined] at one
  exact congrArg Prod.fst (one.symm.trans two)

end ProvenC.Text.Cuts
