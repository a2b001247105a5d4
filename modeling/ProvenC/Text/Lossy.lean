import ProvenC.Text.Streams

/-!
# Lossy conversions

What cannot be decoded becomes U+FFFD. `Repaired` is the text that comes of it: the characters, and one
replacement for each part that the rule of the source's form calls broken.
-/

namespace ProvenC.Text.Lossy

open List Bytes Lib.Unicode Text.Utf Text.Decoding Text.Conversion
open Text.Prefixes Text.Streams

variable {α β : Type}

def utf8LossyStep (s : List Byte) : Nat × Nat :=
  match utf8DecodeSpan s with
  | .whole cp len => (cp, len)
  | .more => (0xFFFD, s.length)
  | .bad span => (0xFFFD, span)

def utf16LossyStep (s : List Unit16) : Nat × Nat :=
  match utf16Decode s with
  | .whole cp len => (cp, len)
  | .more => (0xFFFD, 1)
  | .bad _ => (0xFFFD, 1)

/-- The loop of both runs: without `out` it measures. Each round takes a unit at least. -/
def lossyRun (step : List α → Nat × Nat) (put : Nat → List β) (src : List α) :
    Nat → Nat → Nat → Option (List β) → Except ProvenErr Nat × Option (List β)
  | 0, _, w, out => (.ok w, out)
  | left + 1, i, w, out =>
    if i < src.length then
      let round := step (src.drop i)
      let out := out.map fun buffer => putAt buffer w (put round.1)
      if sizeEnd ≤ w + (put round.1).length then (.error .overflow, out)
      else lossyRun step put src left (i + round.2) (w + (put round.1).length) out
    else (.ok w, out)

def utf8ToUtf16LossyRun (src : List Byte) (out : Option (List Unit16)) : Except ProvenErr Nat × Option (List Unit16) :=
  lossyRun utf8LossyStep utf16Put src src.length 0 0 out

def utf16ToUtf8LossyRun (src : List Unit16) (out : Option (List Byte)) : Except ProvenErr Nat × Option (List Byte) :=
  lossyRun utf16LossyStep (fun cp => utf8Put cp (utf8Width cp)) src src.length 0 0 out

def utf8ToUtf16LossySize (src : List Byte) : Except ProvenErr Nat := (utf8ToUtf16LossyRun src none).1

def utf16ToUtf8LossySize (src : List Unit16) : Except ProvenErr Nat := (utf16ToUtf8LossyRun src none).1

def lossyWith (run : List α → Option (List β) → Except ProvenErr Nat × Option (List β)) (src : List α) (out : List β) :
    Converted β :=
  match (run src none).1 with
  | .error err => { err := some err, written := 0, out := out }
  | .ok need =>
    if out.length < need then { err := some .outOfBounds, written := 0, out := out }
    else if need = 0 then { err := none, written := 0, out := out }
    else
      match run src (some out) with
      | (.error err, after) => { err := some err, written := 0, out := after.getD out }
      | (.ok n, after) => { err := none, written := n, out := after.getD out }

def utf8ToUtf16Lossy (src : List Byte) (out : List Unit16) : Converted Unit16 := lossyWith utf8ToUtf16LossyRun src out

def utf16ToUtf8Lossy (src : List Unit16) (out : List Byte) : Converted Byte := lossyWith utf16ToUtf8LossyRun src out

/-- The text a source is read as: `broken` says how many units one replacement stands for. -/
inductive Repaired (form : Nat → List α) (broken : List α → Nat → Prop) : List α → List Nat → Prop where
  | nothing : Repaired form broken [] []
  | char {cp : Nat} {rest : List α} {cps : List Nat} (scalar : IsScalar cp) (later : Repaired form broken rest cps) :
      Repaired form broken (form cp ++ rest) (cp :: cps)
  | bad {items : List α} {n : Nat} {cps : List Nat} (isBad : broken items n) (later : Repaired form broken (items.drop n) cps) :
      Repaired form broken items (0xFFFD :: cps)

def NoneBegins (form : Nat → List α) (items : List α) : Prop := ∀ cp, IsScalar cp → ¬ form cp <+: items

def Begins (part : List Byte) : Prop := part ≠ [] ∧ ∃ cp more, IsScalar cp ∧ more ≠ [] ∧ utf8Of cp = part ++ more

structure Subpart (s : List Byte) (n : Nat) : Prop where
  none_begins : NoneBegins utf8Of s
  inside : 0 < n ∧ n ≤ s.length
  part : n = 1 ∨ Begins (s.take n)
  maximal : ∀ m, n < m → m ≤ s.length → ¬ Begins (s.take m)

def IsSurrogate (u : Unit16) : Prop := 0xD800 ≤ u.val ∧ u.val ≤ 0xDFFF

structure Unpaired (s : List Unit16) (n : Nat) : Prop where
  one : n = 1
  surrogate : ∃ u rest, s = u :: rest ∧ IsSurrogate u ∧
    (0xDC00 ≤ u.val ∨ ∀ v more, rest = v :: more → ¬ (0xDC00 ≤ v.val ∧ v.val ≤ 0xDFFF))
  none_begins : NoneBegins utf16Of s

theorem rest_bad_at {left i lo hi value span : Nat} {bytes : List Byte} (bad : utf8Rest left i lo hi value bytes = .bad span) :
    ∃ k, span = i + k ∧ k < bytes.length ∧ utf8Rest left i lo hi value (bytes.take k) = .more ∧
      utf8Rest left i lo hi value (bytes.take (k + 1)) = .bad span := by
  induction left generalizing i lo hi value bytes with
  | zero => cases bad
  | succ left ih =>
    cases bytes with
    | nil => cases bad
    | cons b rest =>
      rw [utf8_rest_cons] at bad
      by_cases outside : b.val < lo ∨ hi < b.val
      · rw [if_pos outside] at bad
        refine ⟨0, ?_, Nat.zero_lt_succ _, rfl, ?_⟩
        · cases bad
          rfl
        rw [take_succ_cons, utf8_rest_cons, if_pos outside]
        exact bad
      rw [if_neg outside] at bad
      obtain ⟨k, same, inside, more, still⟩ := ih bad
      refine ⟨k + 1, by omega, Nat.succ_lt_succ inside, ?_, ?_⟩
      all_goals rw [take_succ_cons, utf8_rest_cons, if_neg outside]
      · exact more
      · exact still

theorem decode_bad_at {s : List Byte} {span : Nat} (bad : utf8DecodeSpan s = .bad span) :
    0 < span ∧ span ≤ s.length ∧ (span = 1 ∨ utf8DecodeSpan (s.take span) = .more) ∧
      utf8DecodeSpan (s.take (span + 1)) = .bad span := by
  cases s with
  | nil => cases bad
  | cons b rest =>
    have follows : ∀ {left lo hi value : Nat}, utf8Rest left 1 lo hi value rest = .bad span →
        (∀ part, utf8DecodeSpan (b :: part) = utf8Rest left 1 lo hi value part) →
        0 < span ∧ span ≤ (b :: rest).length ∧ (span = 1 ∨ utf8DecodeSpan ((b :: rest).take span) = .more) ∧
          utf8DecodeSpan ((b :: rest).take (span + 1)) = .bad span := by
      intro left lo hi value bad_ there
      obtain ⟨k, rfl, inside, more, still⟩ := rest_bad_at bad_
      rw [length_cons, add_comm 1 k, take_succ_cons, take_succ_cons, there, there]
      exact ⟨Nat.succ_pos k, by omega, .inr more, by rw [still, add_comm]⟩
    have alone : (∀ part, utf8DecodeSpan (b :: part) = .bad 1) →
        0 < span ∧ span ≤ (b :: rest).length ∧ (span = 1 ∨ utf8DecodeSpan ((b :: rest).take span) = .more) ∧
          utf8DecodeSpan ((b :: rest).take (span + 1)) = .bad span := by
      intro there
      rw [there] at bad
      cases bad
      exact ⟨Nat.one_pos, by rw [length_cons]; omega, .inl rfl, by rw [take_succ_cons, there]⟩
    have by_lead : ∀ part, utf8DecodeSpan (b :: part) = utf8DecodeSpan (b :: part) := fun _ => rfl
    conv at by_lead => enter [part]; rhs; rw [utf8DecodeSpan]
    by_cases one : b.val < 0x80
    · rw [by_lead, if_pos one] at bad
      cases bad
    simp only [if_neg one] at by_lead
    by_cases stray : b.val < 0xC2
    · simp only [if_pos stray] at by_lead
      exact alone by_lead
    simp only [if_neg stray] at by_lead
    by_cases two : b.val < 0xE0
    · simp only [if_pos two] at by_lead
      exact follows (by rw [← by_lead]; exact bad) by_lead
    simp only [if_neg two] at by_lead
    by_cases three : b.val < 0xF0
    · simp only [if_pos three] at by_lead
      exact follows (by rw [← by_lead]; exact bad) by_lead
    simp only [if_neg three] at by_lead
    by_cases four : b.val < 0xF5
    · simp only [if_pos four] at by_lead
      exact follows (by rw [← by_lead]; exact bad) by_lead
    simp only [if_neg four] at by_lead
    exact alone by_lead

theorem none_begins_stuck {decode : List α → Decoded} {form : Nat → List α} (decodes : DecodesForm decode form) {items : List α}
    (stuck : Stuck decode items) : NoneBegins form items := by
  rintro cp scalar ⟨rest, rfl⟩
  exact stuck _ _ (decodes.whole cp rest scalar)

structure StepsBy (decode : List α → Decoded) (step : List α → Nat × Nat) (form : Nat → List α)
    (broken : List α → Nat → Prop) : Prop extends DecodesForm decode form where
  step : ∀ s, s ≠ [] → (∃ cp rest, IsScalar cp ∧ s = form cp ++ rest ∧ step s = (cp, (form cp).length)) ∨
    ∃ n, broken s n ∧ step s = (0xFFFD, n)
  apart : ∀ s n, broken s n → NoneBegins form s ∧ 0 < n ∧ n ≤ s.length
  once : ∀ s n m, broken s n → broken s m → n = m

theorem begins_front {part : List Byte} (begins : Begins part) : Utf8Prefix part := by
  obtain ⟨-, cp, more, scalar, -, whole⟩ := begins
  refine ⟨more, ?_⟩
  have isText := (@text_after_char cp [] scalar).mpr Utf8Text.nil
  rw [append_nil] at isText
  rw [← whole]
  exact isText

theorem more_begins {part : List Byte} (some_ : part ≠ []) (waits : utf8DecodeSpan part = .more) : Begins part := by
  obtain ⟨more, cp, moreSome, scalar, whole⟩ := decode_more_completes some_ waits
  exact ⟨some_, cp, more, scalar, moreSome, whole.symm⟩

theorem subpart_le {s : List Byte} {n m : Nat} (one : Subpart s n) (two : Subpart s m) : n ≤ m := by
  by_contra longer
  rcases one.part with rfl | begins
  · have positive := two.inside.1
    omega
  · exact two.maximal n (not_le.mp longer) one.inside.2 begins

theorem utf8_steps : StepsBy utf8DecodeSpan utf8LossyStep utf8Of Subpart where
  toDecodesForm := utf8_decodes
  apart := fun _ _ isBad => ⟨isBad.none_begins, isBad.inside⟩
  once := fun _ _ _ one two => le_antisymm (subpart_le one two) (subpart_le two one)
  step := by
    intro s some_
    have positive := length_pos_iff.mpr some_
    unfold utf8LossyStep
    cases decoded : utf8DecodeSpan s with
    | whole cp len =>
      obtain ⟨scalar, rfl, split⟩ := decode_utf8_whole decoded
      exact .inl ⟨cp, _, scalar, split, rfl⟩
    | more =>
      refine .inr ⟨s.length, ⟨none_begins_stuck utf8_decodes ?_, ⟨positive, le_refl _⟩, .inr ?_, ?_⟩, rfl⟩
      · intro cp len whole
        rw [decoded] at whole
        cases whole
      · rw [take_length]
        exact more_begins some_ decoded
      intro m longer inside
      omega
    | bad span =>
      obtain ⟨some_span, inside, part, still⟩ := decode_bad_at decoded
      refine .inr ⟨span, ⟨none_begins_stuck utf8_decodes ?_, ⟨some_span, inside⟩, ?_, ?_⟩, rfl⟩
      · intro cp len whole
        rw [decoded] at whole
        cases whole
      · refine part.imp id fun waits => more_begins ?_ waits
        intro nothing
        rcases take_eq_nil_iff.mp nothing with zero | empty
        · omega
        · exact some_ empty
      intro m longer within begins
      have bad := decode_bad_stable still ((s.take m).drop (span + 1))
      have joined : s.take (span + 1) ++ (s.take m).drop (span + 1) = s.take m := by
        have cut := take_append_drop (span + 1) (s.take m)
        rw [take_take, min_eq_left longer] at cut
        exact cut
      rw [joined] at bad
      exact decode_bad_begins bad (begins_front begins)

theorem utf16_steps : StepsBy utf16Decode utf16LossyStep utf16Of Unpaired where
  toDecodesForm := utf16_decodes
  apart := by
    rintro s n ⟨rfl, ⟨u, rest, rfl, -⟩, none_begins⟩
    exact ⟨none_begins, Nat.one_pos, Nat.succ_pos _⟩
  once := fun _ _ _ one two => one.one.trans two.one.symm
  step := by
    intro s some_
    have unpaired : Stuck utf16Decode s → Unpaired s 1 := by
      intro stuck
      refine ⟨rfl, ?_, none_begins_stuck utf16_decodes stuck⟩
      cases s with
      | nil => exact absurd rfl some_
      | cons u rest =>
        unfold Stuck utf16Decode at stuck
        dsimp only at stuck
        split_ifs at stuck with plain low
        · exact absurd rfl (stuck _ _)
        · exact ⟨u, rest, rfl, ⟨by omega, by omega⟩, .inl low⟩
        refine ⟨u, rest, rfl, ⟨by omega, by omega⟩, .inr ?_⟩
        rintro v more rfl pair
        dsimp only at stuck
        rw [if_neg (by omega)] at stuck
        exact stuck _ _ rfl
    unfold utf16LossyStep
    cases decoded : utf16Decode s with
    | whole cp len =>
      obtain ⟨scalar, rfl, split⟩ := decode_utf16_whole decoded
      exact .inl ⟨cp, _, scalar, split, rfl⟩
    | more | bad => exact .inr ⟨1, unpaired fun cp len whole => (by rw [decoded] at whole; cases whole), rfl⟩

variable {decode : List α → Decoded} {step : List α → Nat × Nat} {form : Nat → List α} {broken : List α → Nat → Prop}
variable {put other : Nat → List β} {src : List α} {cps : List Nat}

theorem repaired_cases (repaired : Repaired form broken src cps) : (src = [] ∧ cps = []) ∨
    (∃ cp rest later, IsScalar cp ∧ src = form cp ++ rest ∧ cps = cp :: later ∧ Repaired form broken rest later) ∨
    ∃ n later, broken src n ∧ cps = 0xFFFD :: later ∧ Repaired form broken (src.drop n) later := by
  cases repaired with
  | nothing => exact .inl ⟨rfl, rfl⟩
  | char scalar later => exact .inr (.inl ⟨_, _, _, scalar, rfl, rfl, later⟩)
  | bad isBad later => exact .inr (.inr ⟨_, _, isBad, rfl, later⟩)

theorem repaired_unique (steps : StepsBy decode step form broken) (one : Repaired form broken src cps) :
    ∀ {others : List Nat}, Repaired form broken src others → cps = others := by
  induction one with
  | nothing =>
    intro others two
    rcases repaired_cases two with ⟨-, rfl⟩ | ⟨cp, rest, later, -, same, -⟩ | ⟨n, later, isBad, -⟩
    · rfl
    · have positive := steps.positive cp
      have empty := congrArg List.length same
      rw [length_append, length_nil] at empty
      omega
    obtain ⟨-, positive, inside⟩ := steps.apart _ _ isBad
    rw [length_nil] at inside
    omega
  | @char cp rest cps scalar later ih =>
    intro others two
    rcases repaired_cases two with ⟨same, -⟩ | ⟨cp', rest', later', scalar', same, rfl, repaired⟩ | ⟨n, later', isBad, -⟩
    · have positive := steps.positive cp
      have empty := congrArg List.length same
      rw [length_append, length_nil] at empty
      omega
    · have found := steps.whole cp rest scalar
      rw [same, steps.whole cp' rest' scalar'] at found
      obtain ⟨rfl, -⟩ := Decoded.whole.inj found
      obtain rfl := append_cancel_left same
      rw [ih repaired]
    · exact absurd (prefix_append _ _) ((steps.apart _ _ isBad).1 cp scalar)
  | @bad items n cps isBad later ih =>
    intro others two
    obtain ⟨apart, positive, inside⟩ := steps.apart _ _ isBad
    rcases repaired_cases two with ⟨rfl, -⟩ | ⟨cp', rest', later', scalar', rfl, rfl, -⟩ | ⟨m, later', isBad', rfl, repaired⟩
    · rw [length_nil] at inside
      omega
    · exact absurd (prefix_append _ _) (apart cp' scalar')
    obtain rfl := steps.once _ _ _ isBad isBad'
    rw [ih repaired]

theorem repaired_text (scalars : Scalars cps) : Repaired form broken (cps.flatMap form) cps := by
  induction cps with
  | nil => exact Repaired.nothing
  | cons cp cps ih =>
    obtain ⟨scalar, later⟩ := forall_mem_cons.mp scalars
    rw [flatMap_cons]
    exact Repaired.char scalar (ih later)

theorem repaired_length (steps : StepsBy decode step form broken) {k : Nat} (one : (other 0xFFFD).length ≤ k)
    (ratio : ∀ cp, IsScalar cp → (other cp).length ≤ k * (form cp).length) (repaired : Repaired form broken src cps) :
    (cps.flatMap other).length ≤ k * src.length := by
  induction repaired with
  | nothing => exact Nat.zero_le _
  | char scalar later ih =>
    have here := ratio _ scalar
    rw [flatMap_cons, length_append, length_append, mul_add]
    omega
  | @bad items n cps isBad later ih =>
    obtain ⟨-, positive, inside⟩ := steps.apart _ _ isBad
    rw [length_drop] at ih
    have split : k * items.length = k * (items.length - n) + k * n := by
      rw [← mul_add, Nat.sub_add_cancel inside]
    have least := Nat.le_mul_of_pos_right k positive
    rw [flatMap_cons, length_append]
    omega

/-- What a run from `w` on answers and writes for a text. -/
def Writes (run : Option (List β) → Except ProvenErr Nat × Option (List β)) (w : Nat) (units : List β) : Prop :=
  (∀ out, (run out).1 = if w + units.length < sizeEnd then .ok (w + units.length) else .error .overflow) ∧
    ∀ buffer, w + units.length < sizeEnd → w + units.length ≤ buffer.length →
      (run (some buffer)).2 = some (putAt buffer w units)

theorem run_writes (steps : StepsBy decode step form broken) (puts : ∀ cp, IsScalar cp → put cp = other cp) (src : List α) :
    ∀ left i, src.length ≤ i + left → ∃ cps, Scalars cps ∧ Repaired form broken (src.drop i) cps ∧
      ∀ w, w < sizeEnd → Writes (lossyRun step put src left i w) w (cps.flatMap other) := by
  have ended : ∀ w, w < sizeEnd → Writes (fun out : Option (List β) => (.ok w, out)) w [] := by
    intro w small
    refine ⟨fun out => ?_, fun buffer _ _ => ?_⟩
    · rw [length_nil, add_zero, if_pos small]
    · rw [putAt, length_nil, add_zero, append_nil, take_append_drop]
  intro left
  induction left with
  | zero =>
    intro i enough
    refine ⟨[], nofun, ?_, ended⟩
    rw [drop_eq_nil_of_le (show src.length ≤ i from enough)]
    exact Repaired.nothing
  | succ left ih =>
    intro i enough
    by_cases inside : i < src.length
    · have round : ∀ cp n, IsScalar cp → 0 < n → step (src.drop i) = (cp, n) →
          (∀ cps, Repaired form broken (src.drop (i + n)) cps → Repaired form broken (src.drop i) (cp :: cps)) →
          ∃ cps, Scalars cps ∧ Repaired form broken (src.drop i) cps ∧
            ∀ w, w < sizeEnd → Writes (lossyRun step put src (left + 1) i w) w (cps.flatMap other) := by
        intro cp n scalar positive stepped repairs
        obtain ⟨cps, scalars, repaired, writes⟩ := ih (i + n) (by omega)
        refine ⟨cp :: cps, forall_mem_cons.mpr ⟨scalar, scalars⟩, repairs cps repaired, fun w small => ?_⟩
        have here : ∀ out, lossyRun step put src (left + 1) i w out =
            if sizeEnd ≤ w + (other cp).length then (.error .overflow, out.map fun buffer => putAt buffer w (other cp))
            else lossyRun step put src left (i + n) (w + (other cp).length) (out.map fun buffer => putAt buffer w (other cp)) := by
          intro out
          rw [lossyRun, if_pos inside, stepped]
          dsimp only
          rw [puts cp scalar]
        rw [flatMap_cons]
        refine ⟨fun out => ?_, fun buffer fits room => ?_⟩
        · rw [here, length_append, ← add_assoc]
          by_cases far : sizeEnd ≤ w + (other cp).length
          · rw [if_pos far, if_neg (by omega)]
          rw [if_neg far]
          exact (writes _ (not_le.mp far)).1 _
        rw [length_append, ← add_assoc] at fits room
        have one : w + (other cp).length ≤ buffer.length := by omega
        rw [here, if_neg (by omega), Option.map_some, (writes _ (by omega)).2 _ fits (by rw [put_at_length one]; exact room),
          put_at_append one]
      rcases steps.step (src.drop i) (by rw [Ne, drop_eq_nil_iff]; omega) with ⟨cp, rest, scalar, here, stepped⟩ | ⟨n, isBad, stepped⟩
      · refine round cp _ scalar (steps.positive cp) stepped fun cps later => ?_
        rw [drop_form here] at later
        rw [here]
        exact Repaired.char scalar later
      refine round 0xFFFD n (by decide) (steps.apart _ _ isBad).2.1 stepped fun cps later => ?_
      rw [← drop_drop] at later
      exact Repaired.bad isBad later
    refine ⟨[], nofun, ?_, fun w small => ?_⟩
    · rw [drop_eq_nil_of_le (not_lt.mp inside)]
      exact Repaired.nothing
    have stays : lossyRun step put src (left + 1) i w = fun out => (.ok w, out) := by
      funext out
      rw [lossyRun, if_neg inside]
    rw [stays]
    exact ended w small

def answer (units out : List β) : Converted β :=
  if units.length < sizeEnd then
    if out.length < units.length then { err := some .outOfBounds, written := 0, out := out }
    else { err := none, written := units.length, out := units ++ out.drop units.length }
  else { err := some .overflow, written := 0, out := out }

def measured (units : List β) : Except ProvenErr Nat := if units.length < sizeEnd then .ok units.length else .error .overflow

theorem lossy_answers {run : List α → Option (List β) → Except ProvenErr Nat × Option (List β)} {units : List β}
    (writes : Writes (run src) 0 units) (out : List β) : (run src none).1 = measured units ∧ lossyWith run src out = answer units out := by
  obtain ⟨counts, fills⟩ := writes
  simp only [zero_add] at counts fills
  refine ⟨counts none, ?_⟩
  unfold lossyWith answer
  rw [counts]
  by_cases fits : units.length < sizeEnd
  · rw [if_pos fits, if_pos fits]
    dsimp only
    by_cases full : out.length < units.length
    · rw [if_pos full, if_pos full]
    rw [if_neg full, if_neg full]
    by_cases nothing : units.length = 0
    · rw [if_pos nothing, eq_nil_of_length_eq_zero nothing]
      rfl
    rw [if_neg nothing]
    have said := counts (some out)
    have left := fills out fits (not_lt.mp full)
    rw [if_pos fits] at said
    cases ran : run src (some out) with
    | mk err after =>
      rw [ran] at said left
      dsimp only at said left
      rw [said, left, put_at_start]
      rfl
  · rw [if_neg fits, if_neg fits]

structure LossyExact (form : Nat → List α) (other : Nat → List β) (broken : List α → Nat → Prop) (k : Nat)
    (size strictSize : List α → Except ProvenErr Nat) (convert strict : List α → List β → Converted β)
    (src : List α) (out : List β) : Prop where
  text : ∃ cps, Scalars cps ∧ Repaired form broken src cps ∧ (cps.flatMap other).length ≤ k * src.length ∧
    size src = measured (cps.flatMap other) ∧ convert src out = answer (cps.flatMap other) out
  only : ∀ cps others, Repaired form broken src cps → Repaired form broken src others → cps = others
  agrees : ∀ cps, Scalars cps → src = cps.flatMap form → size src = strictSize src ∧ convert src out = strict src out

theorem lossy_exact (steps : StepsBy decode step form broken) (puts : ∀ cp, IsScalar cp → put cp = other cp) {k : Nat}
    (one : (other 0xFFFD).length ≤ k) (ratio : ∀ cp, IsScalar cp → (other cp).length ≤ k * (form cp).length)
    {strictSize : List α → Except ProvenErr Nat} {strict : List α → List β → Converted β} (src : List α) (out : List β)
    (same : ∀ cps, Scalars cps → src = cps.flatMap form → (cps.flatMap other).length ≤ k * src.length →
      strictSize src = measured (cps.flatMap other) ∧ strict src out = answer (cps.flatMap other) out) :
    LossyExact form other broken k (fun src => (lossyRun step put src src.length 0 0 none).1) strictSize
      (lossyWith fun src => lossyRun step put src src.length 0 0) strict src out := by
  obtain ⟨cps, scalars, repaired, writes⟩ := run_writes steps puts src src.length 0 (by omega)
  rw [drop_zero] at repaired
  have answers := @lossy_answers _ _ _ (fun src => lossyRun step put src src.length 0 0) _ (writes 0 (by decide)) out
  refine ⟨⟨cps, scalars, repaired, repaired_length steps one ratio repaired, answers⟩,
    fun _ _ one two => repaired_unique steps one two, ?_⟩
  rintro others otherScalars rfl
  obtain rfl := repaired_unique steps repaired (repaired_text otherScalars)
  obtain ⟨sized, converted⟩ := same cps scalars rfl (repaired_length steps one ratio repaired)
  exact ⟨answers.1.trans sized.symm, answers.2.trans converted.symm⟩

theorem strict_overflow {src : List Unit16} (cps : List Nat) (scalars : Scalars cps) : ∀ left i value, src.drop i = utf16Text cps →
    src.length ≤ i + left → value < sizeEnd → sizeEnd ≤ value + (utf8Text cps).length →
      utf8SizeLoop src left i value = .error .overflow := by
  induction cps with
  | nil =>
    intro left i value here enough small far
    rw [utf8Text, flatMap_nil, length_nil] at far
    omega
  | cons cp cps ih =>
    intro left i value here enough small far
    obtain ⟨scalar, later⟩ := forall_mem_cons.mp scalars
    rw [utf16Text, flatMap_cons] at here
    have inside := form_inside utf16_decodes here
    cases left with
    | zero => omega
    | succ left =>
      have positive := utf16_of_positive cp
      rw [utf8Text, flatMap_cons, length_append] at far
      rw [utf8SizeLoop, if_pos inside, here, decode_utf16_of scalar]
      dsimp only
      rw [utf8_width_of scalar]
      by_cases now : sizeEnd ≤ value + (utf8Of cp).length
      · rw [if_pos now]
      rw [if_neg now]
      exact ih later left _ _ (drop_form here) (by omega) (not_le.mp now) (by rw [utf8Text]; omega)

theorem lossy_conversions_exact (s : List Byte) (u : List Unit16) (units : List Unit16) (bytes : List Byte)
    (sSmall : s.length < sizeEnd) (bytesSmall : bytes.length < sizeEnd) :
    LossyExact utf8Of utf16Of Subpart 1 utf8ToUtf16LossySize utf8ToUtf16Size utf8ToUtf16Lossy utf8ToUtf16 s units ∧
    LossyExact utf16Of utf8Of Unpaired 3 utf16ToUtf8LossySize utf16ToUtf8Size utf16ToUtf8Lossy utf16ToUtf8 u bytes := by
  constructor
  · refine lossy_exact utf8_steps (fun cp _ => utf16_put_of cp) (by decide) (fun cp _ => ?_) s units ?_
    · unfold utf8Of utf16Of
      split_ifs <;> first | omega | simp
    intro cps scalars same short
    have fits : (cps.flatMap utf16Of).length < sizeEnd := by omega
    have sized := (utf8_to_utf16_size_iff s _).mpr ⟨cps, scalars, same, rfl⟩
    rw [utf16Text] at sized
    refine ⟨by rw [sized, measured, if_pos fits], ?_⟩
    rw [answer, if_pos fits]
    by_cases full : units.length < (cps.flatMap utf16Of).length
    · rw [if_pos full, utf8ToUtf16, sized]
      dsimp only
      rw [if_pos full]
    rw [if_neg full, same]
    exact utf8_to_utf16_written scalars (not_lt.mp full)
  refine lossy_exact utf16_steps (fun _ scalar => utf8_put_of scalar) (by decide) (fun cp _ => ?_) u bytes ?_
  · unfold utf8Of utf16Of
    split_ifs <;> first | omega | simp
  intro cps scalars same _
  by_cases fits : (cps.flatMap utf8Of).length < sizeEnd
  · have sized := (utf16_to_utf8_size_iff u _).mpr ⟨cps, scalars, same, rfl, fits⟩
    rw [utf8Text] at sized
    refine ⟨by rw [sized, measured, if_pos fits], ?_⟩
    rw [answer, if_pos fits]
    by_cases full : bytes.length < (cps.flatMap utf8Of).length
    · rw [if_pos full, utf16ToUtf8, sized]
      dsimp only
      rw [if_pos full]
    rw [if_neg full, same]
    exact utf16_to_utf8_written scalars (not_lt.mp full) bytesSmall
  have sized : utf16ToUtf8Size u = .error .overflow :=
    strict_overflow cps scalars u.length 0 0 same (by omega) (by decide) (by rw [utf8Text]; omega)
  refine ⟨by rw [sized, measured, if_neg fits], ?_⟩
  rw [answer, if_neg fits, utf16ToUtf8, sized]

theorem lossy_conversions_cut : utf8ToUtf16Lossy [0x41, 0xE2, 0x82] [0, 0, 7] = { err := none, written := 2, out := [0x41, 0xFFFD, 7] } ∧
    LossyExact utf8Of utf16Of Subpart 1 utf8ToUtf16LossySize utf8ToUtf16Size utf8ToUtf16Lossy utf8ToUtf16
      [0x41, 0xE2, 0x82] [0, 0, 7] :=
  ⟨by decide, (lossy_conversions_exact _ [] _ [] (by decide) (by decide)).1⟩

end ProvenC.Text.Lossy
