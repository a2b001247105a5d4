import ProvenC.Text.Cuts

/-!
# Converting in pieces

Text arrives in pieces, each with a buffer of its own. What a partial conversion leaves of a piece is
carried before the next one. However the text is cut, what comes out is what one call would write.
-/

namespace ProvenC.Text.Carried

open List Bytes Lib.Unicode Text.Utf Text.Decoding Text.Conversion
open Text.Prefixes Text.Streams Text.Cuts

variable {α β : Type}

/-- What came of the calls so far: `err` is what the last one answered. -/
structure Driven (α β : Type) where
  units : List β
  consumed : Nat
  carry : List α
  err : Option ProvenErr

def Driven.start : Driven α β := { units := [], consumed := 0, carry := [], err := none }

def drive (convert : List α → List β → UtfStep β) (d : Driven α β) : List (List α × List β) → Driven α β
  | [] => d
  | (piece, out) :: turns =>
    let src := d.carry ++ piece
    let st := convert src out
    let next : Driven α β :=
      { units := d.units ++ st.out.take st.written, consumed := d.consumed + st.consumed, carry := src.drop st.consumed
        err := st.err }
    if st.err = some .invalidEncoding then next else drive convert next turns

def arriving (turns : List (List α × List β)) : List α := turns.flatMap Prod.fst

structure Converts (decode : List α → Decoded) (form : Nat → List α) (put other : Nat → List β) : Prop
    extends Streamed decode form where
  puts : ∀ cp, IsScalar cp → put cp = other cp
  ratio : ∀ cp, IsScalar cp → (other cp).length ≤ 3 * (form cp).length
  short : ∀ cp, (other cp).length ≤ 4
  waits : ∀ tail, tail ≠ [] → decode tail = .more → ∃ cp more, IsScalar cp ∧ more ≠ [] ∧ form cp = tail ++ more

structure CallExact (form : Nat → List α) (other : Nat → List β) (src : List α) (room : Nat) (st : UtfStep β) : Prop where
  boundary : ∃ done, Scalars done ∧ src.take st.consumed = done.flatMap form ∧ st.consumed ≤ src.length ∧
    st.out.take st.written = done.flatMap other ∧ st.written = (done.flatMap other).length ∧ st.written ≤ room
  needMore : st.err = some .needMore → src.drop st.consumed ≠ [] ∧
    ∃ cp more, IsScalar cp ∧ more ≠ [] ∧ form cp = src.drop st.consumed ++ more
  moves : st.err = some .outOfBounds → 4 ≤ room → 0 < st.consumed
  roomy : src.length * 3 ≤ room → st.err ≠ some .outOfBounds

structure SameAsOne (convert : List α → List β → UtfStep β) (turns : List (List α × List β)) (st : UtfStep β) : Prop where
  before : (drive convert .start turns).units <+: st.out.take st.written ∧ (drive convert .start turns).consumed ≤ st.consumed
  same : (drive convert .start turns).err ≠ some .outOfBounds →
    (drive convert .start turns).units = st.out.take st.written ∧ (drive convert .start turns).consumed = st.consumed ∧
      (drive convert .start turns).err = st.err
  ends : ∀ out : List β, st.written ≤ (drive convert .start turns).units.length + out.length →
    (drive convert .start (turns ++ [([], out)])).err ≠ some .outOfBounds

variable {decode : List α → Decoded} {form : Nat → List α} {put other : Nat → List β}

def loopOf (decode : List α → Decoded) (put : Nat → List β) (src : List α) (out : List β) : UtfStep β :=
  convertLoop decode put src src.length { err := none, consumed := 0, written := 0, out := out }

theorem puts_all (converts : Converts decode form put other) {cps : List Nat} (scalars : Scalars cps) :
    cps.flatMap put = cps.flatMap other := flatMap_congr fun cp among => converts.puts cp (scalars cp among)

theorem characters_then_stuck (streamed : Streamed decode form) : ∀ (n : Nat) (src : List α), src.length ≤ n →
    ∃ cps tail, Scalars cps ∧ src = cps.flatMap form ++ tail ∧ Stuck decode tail
  | n, src, within => by
    cases decoded : decode src with
    | more | bad => exact ⟨[], src, nofun, rfl, fun cp len whole => by rw [decoded] at whole; cases whole⟩
    | whole cp len =>
      obtain ⟨scalar, long, split⟩ := streamed.found _ _ _ decoded
      have positive := streamed.positive cp
      have lengths := congrArg List.length split
      rw [length_append] at lengths
      cases n with
      | zero => omega
      | succ n =>
        obtain ⟨cps, tail, scalars, later, stuck⟩ := characters_then_stuck streamed n (src.drop len) (by omega)
        refine ⟨cp :: cps, tail, forall_mem_cons.mpr ⟨scalar, scalars⟩, ?_, stuck⟩
        rw [flatMap_cons, append_assoc, ← later]
        exact split

theorem flat_length_le (cps : List Nat) (ratio : ∀ cp ∈ cps, (other cp).length ≤ 3 * (form cp).length) :
    (cps.flatMap other).length ≤ (cps.flatMap form).length * 3 := by
  induction cps with
  | nil => exact Nat.zero_le _
  | cons cp cps ih =>
    obtain ⟨here, later⟩ := forall_mem_cons.mp ratio
    have rest := ih later
    rw [flatMap_cons, flatMap_cons, length_append, length_append]
    omega

/-- One call on a text: the characters it takes, and what is left of it. -/
theorem call_takes (converts : Converts decode form put other) {src tail : List α} {cps : List Nat} (scalars : Scalars cps)
    (stuck : Stuck decode tail) (whole : src = cps.flatMap form ++ tail) (out : List β) :
    ∃ taken later, cps = taken ++ later ∧ (loopOf decode put src out).consumed = (taken.flatMap form).length ∧
      (loopOf decode put src out).written = (taken.flatMap other).length ∧
      (loopOf decode put src out).out.take (loopOf decode put src out).written = taken.flatMap other ∧
      src.drop (loopOf decode put src out).consumed = later.flatMap form ++ tail ∧ (taken.flatMap other).length ≤ out.length ∧
      ((later = [] ∧ (loopOf decode put src out).err = tailErr decode tail) ∨
        ∃ cp more, later = cp :: more ∧ out.length < (taken.flatMap other).length + (other cp).length ∧
          (loopOf decode put src out).err = some .outOfBounds) := by
  obtain ⟨taken, later, split, ends⟩ := @convert_front _ _ _ _ put _ converts.toDecodesForm tail stuck cps scalars whole out
  have parts : Scalars taken ∧ Scalars later := by
    rw [split] at scalars
    exact forall_mem_append.mp scalars
  have same := puts_all converts parts.1
  have written := ends.written
  have units := ends.out
  have fits := ends.fits
  rw [same] at written units
  refine ⟨taken, later, split, ends.consumed, written, units, ?_, written ▸ fits, ?_⟩
  · rw [loopOf, ends.consumed, whole, split, flatMap_append, append_assoc, drop_left]
  rcases ends.ended with done | ⟨cp, more, rfl, full, err⟩
  · exact Or.inl done
  rw [written, converts.puts cp (parts.2 cp mem_cons_self)] at full
  exact Or.inr ⟨cp, more, rfl, full, err⟩

theorem call_exact (converts : Converts decode form put other) (src : List α) (out : List β) :
    CallExact form other src out.length (loopOf decode put src out) := by
  obtain ⟨cps, tail, scalars, whole, stuck⟩ := characters_then_stuck converts.toStreamed src.length src (le_refl _)
  obtain ⟨taken, later, split, consumed, written, units, left, fits, ended⟩ := call_takes converts scalars stuck whole out
  have parts : Scalars taken ∧ Scalars later := by
    rw [split] at scalars
    exact forall_mem_append.mp scalars
  rw [split, flatMap_append, append_assoc] at whole
  have inside : (loopOf decode put src out).consumed ≤ src.length := by
    rw [consumed, whole, length_append]
    exact Nat.le_add_right _ _
  refine ⟨⟨taken, parts.1, ?_, inside, units, written, written ▸ fits⟩, fun err => ?_, fun err roomy => ?_, fun roomy err => ?_⟩
  · rw [consumed, whole, take_left]
  · rcases ended with ⟨rfl, tailed⟩ | ⟨cp, more, rfl, full, wrong⟩
    · rw [err, tailErr] at tailed
      by_cases nothing : tail = []
      · rw [if_pos nothing] at tailed
        cases tailed
      rw [if_neg nothing] at tailed
      rw [flatMap_nil, nil_append] at left
      rw [left]
      cases decoded : decode tail with
      | whole cp len => exact absurd decoded (stuck cp len)
      | bad span => rw [decoded] at tailed; cases tailed
      | more => exact ⟨nothing, converts.waits tail nothing decoded⟩
    rw [err] at wrong
    cases wrong
  · rcases ended with ⟨rfl, tailed⟩ | ⟨cp, more, rfl, full, -⟩
    · rw [err, tailErr] at tailed
      split_ifs at tailed
      cases decoded : decode tail <;> rw [decoded] at tailed <;> cases tailed
    have short := converts.short cp
    rw [consumed]
    cases taken with
    | nil =>
      rw [flatMap_nil, length_nil] at full
      omega
    | cons first taken =>
      have positive := converts.positive first
      rw [flatMap_cons, length_append]
      omega
  rcases ended with ⟨rfl, tailed⟩ | ⟨cp, more, rfl, full, -⟩
  · rw [err, tailErr] at tailed
    split_ifs at tailed
    cases decoded : decode tail <;> rw [decoded] at tailed <;> cases tailed
  have first := flat_length_le taken fun cp among => converts.ratio cp (parts.1 cp among)
  have next := converts.ratio cp (parts.2 cp mem_cons_self)
  rw [whole, length_append, length_append, flatMap_cons, length_append] at roomy
  omega

structure Kept (decode : List α → Decoded) (form : Nat → List α) (other : Nat → List β) (text : List α)
    (done : List Nat) (d : Driven α β) : Prop where
  scalars : Scalars done
  text : text = done.flatMap form ++ d.carry
  units : d.units = done.flatMap other
  consumed : d.consumed = (done.flatMap form).length
  stuck : d.err ≠ some .outOfBounds → Stuck decode d.carry ∧ d.err = tailErr decode d.carry

theorem start_carried (streamed : Streamed decode form) :
    Kept decode form other ([] : List α) [] (Driven.start : Driven α β) where
  scalars := nofun
  text := rfl
  units := rfl
  consumed := rfl
  stuck := fun _ => ⟨fun cp len whole => (by rw [Driven.start, streamed.nothing] at whole; cases whole), rfl⟩

/-- Some of the text may not have been looked at, but only after malformed text. -/
theorem drive_carried (converts : Converts decode form put other) (turns : List (List α × List β)) :
    ∀ {text : List α} {done : List Nat} {d : Driven α β}, Kept decode form other text done d →
      ∃ text' rest done', text ++ arriving turns = text' ++ rest ∧
        Kept decode form other text' done' (drive (loopOf decode put) d turns) ∧
        (rest ≠ [] → (drive (loopOf decode put) d turns).err = some .invalidEncoding) := by
  induction turns with
  | nil =>
    intro text done d carried
    exact ⟨text, [], done, by rw [arriving, flatMap_nil], carried, fun wrong => absurd rfl wrong⟩
  | cons turn turns ih =>
    intro text done d carried
    obtain ⟨piece, out⟩ := turn
    obtain ⟨cps, tail, scalars, whole, stuck⟩ := characters_then_stuck converts.toStreamed (d.carry ++ piece).length _ (le_refl _)
    obtain ⟨taken, later, split, consumed, written, units, left, fits, ended⟩ := call_takes converts scalars stuck whole out
    have parts : Scalars taken ∧ Scalars later := by
      rw [split] at scalars
      exact forall_mem_append.mp scalars
    have next : Kept decode form other (text ++ piece) (done ++ taken)
        { units := d.units ++ (loopOf decode put (d.carry ++ piece) out).out.take (loopOf decode put (d.carry ++ piece) out).written
          consumed := d.consumed + (loopOf decode put (d.carry ++ piece) out).consumed
          carry := (d.carry ++ piece).drop (loopOf decode put (d.carry ++ piece) out).consumed
          err := (loopOf decode put (d.carry ++ piece) out).err } := by
      refine ⟨forall_mem_append.mpr ⟨carried.scalars, parts.1⟩, ?_, ?_, ?_, fun fine => ?_⟩
      · dsimp only
        rw [left, carried.text, append_assoc, whole, split, flatMap_append, flatMap_append, append_assoc, append_assoc]
      · dsimp only
        rw [units, carried.units, flatMap_append]
      · dsimp only
        rw [consumed, carried.consumed, flatMap_append, length_append]
      dsimp only at fine ⊢
      rcases ended with ⟨rfl, tailed⟩ | ⟨cp, more, rfl, full, err⟩
      · rw [left, flatMap_nil, nil_append]
        exact ⟨stuck, tailed⟩
      · exact absurd err fine
    have joined : text ++ arriving ((piece, out) :: turns) = text ++ piece ++ arriving turns := by
      rw [arriving, flatMap_cons, append_assoc]
      rfl
    rw [drive]
    by_cases stops : (loopOf decode put (d.carry ++ piece) out).err = some .invalidEncoding
    · rw [if_pos stops]
      exact ⟨text ++ piece, arriving turns, done ++ taken, joined, next, fun _ => stops⟩
    rw [if_neg stops]
    obtain ⟨text', rest, done', same, there, bad⟩ := ih next
    exact ⟨text', rest, done', joined.trans same, there, bad⟩

theorem drive_append (convert : List α → List β → UtfStep β) (more : List (List α × List β)) :
    ∀ (turns : List (List α × List β)) {d : Driven α β}, d.err ≠ some .invalidEncoding → drive convert d (turns ++ more) =
        if (drive convert d turns).err = some .invalidEncoding then drive convert d turns
        else drive convert (drive convert d turns) more
  | [], d, fine => by rw [drive, if_neg fine, nil_append]
  | (piece, out) :: turns, d, fine => by
    rw [cons_append, drive, drive]
    by_cases stops : (convert (d.carry ++ piece) out).err = some .invalidEncoding
    · rw [if_pos stops, if_pos stops, if_pos stops]
    · rw [if_neg stops, if_neg stops, drive_append convert more turns stops]

theorem nothing_before_stuck (streamed : Streamed decode form) {cps : List Nat} (scalars : Scalars cps) {tail : List α}
    (stuck : Stuck decode (cps.flatMap form ++ tail)) : cps = [] := by
  cases cps with
  | nil => rfl
  | cons cp cps =>
    rw [flatMap_cons, append_assoc] at stuck
    exact absurd (streamed.whole cp _ (scalars cp mem_cons_self)) (stuck _ _)

theorem tail_err_bad {tail : List α} (streamed : Streamed decode form) (bad : tailErr decode tail = some .invalidEncoding) (more : List α) :
    Stuck decode (tail ++ more) ∧ tailErr decode (tail ++ more) = some .invalidEncoding := by
  unfold tailErr at bad
  by_cases nothing : tail = []
  · rw [if_pos nothing] at bad
    cases bad
  rw [if_neg nothing] at bad
  cases decoded : decode tail with
  | whole | more => rw [decoded] at bad; cases bad
  | bad span =>
    obtain ⟨span', still⟩ := streamed.badStays _ more _ decoded
    refine ⟨fun cp len whole => (by rw [still] at whole; cases whole), ?_⟩
    rw [tailErr, if_neg (by intro wrong; exact nothing (append_eq_nil_iff.mp wrong).1), still]

theorem same_as_one (converts : Converts decode form put other) (turns : List (List α × List β)) (whole : List β)
    (roomy : (loopOf decode put (arriving turns) whole).err ≠ some .outOfBounds) :
    SameAsOne (loopOf decode put) turns (loopOf decode put (arriving turns) whole) := by
  obtain ⟨text, rest, done, same, carried, bad⟩ := drive_carried converts turns (start_carried converts.toStreamed)
  generalize reached : drive (loopOf decode put) .start turns = d at carried bad
  obtain ⟨cps, tail, scalars, ahead, stuck⟩ := characters_then_stuck converts.toStreamed (d.carry ++ rest).length _ (le_refl _)
  have all_ : arriving turns = (done ++ cps).flatMap form ++ tail := by
    rw [← nil_append (arriving turns), same, carried.text, append_assoc, ahead, flatMap_append, append_assoc]
  obtain ⟨taken, later, split, consumed, written, units, -, -, ended⟩ :=
    call_takes converts (forall_mem_append.mpr ⟨carried.scalars, scalars⟩) stuck all_ whole
  rcases ended with ⟨rfl, tailed⟩ | ⟨cp, more, rfl, full, err⟩
  · rw [append_nil] at split
    subst split
    have prefix_ : d.units <+: (done ++ cps).flatMap other := by
      rw [carried.units, flatMap_append]
      exact prefix_append _ _
    constructor
    · rw [reached, units, consumed, carried.consumed, @flatMap_append _ _ done cps form, length_append]
      exact ⟨prefix_, Nat.le_add_right _ _⟩
    · intro fine
      rw [reached] at fine ⊢
      obtain ⟨carry_stuck, err⟩ := carried.stuck fine
      have none_left : cps = [] ∧ tailErr decode tail = tailErr decode d.carry := by
        by_cases rest_nil : rest = []
        · rw [rest_nil, append_nil] at ahead
          rw [ahead] at carry_stuck
          have nothing := nothing_before_stuck converts.toStreamed scalars carry_stuck
          rw [nothing, flatMap_nil, nil_append] at ahead
          exact ⟨nothing, by rw [ahead]⟩
        rw [bad rest_nil] at err
        obtain ⟨still, tailed'⟩ := tail_err_bad converts.toStreamed err.symm rest
        rw [ahead] at still tailed'
        have nothing := nothing_before_stuck converts.toStreamed scalars still
        rw [nothing, flatMap_nil, nil_append] at tailed'
        exact ⟨nothing, tailed'.trans err⟩
      obtain ⟨rfl, tails⟩ := none_left
      rw [append_nil] at units consumed
      exact ⟨by rw [carried.units, units], by rw [carried.consumed, consumed], by rw [err, tailed, tails]⟩
    intro out enough
    rw [reached, written] at enough
    rw [drive_append _ _ _ (by exact nofun), reached]
    by_cases stops : d.err = some .invalidEncoding
    · rw [if_pos stops, stops]
      exact nofun
    rw [if_neg stops]
    have rest_nil : rest = [] := by
      by_contra some_
      exact stops (bad some_)
    rw [rest_nil] at ahead
    obtain ⟨taken, later, split, -, -, -, -, -, ended⟩ := call_takes converts scalars stuck ahead out
    have answer : (drive (loopOf decode put) d [([], out)]).err = (loopOf decode put (d.carry ++ []) out).err := by
      rw [drive, drive, ite_self]
    rw [answer]
    rcases ended with ⟨-, tailed'⟩ | ⟨cp, more, rfl, full, -⟩
    · rw [tailed', ← tailed]
      exact roomy
    rw [split, carried.units, flatMap_append, flatMap_append, flatMap_cons, length_append,
      length_append, length_append] at enough
    omega
  · exact absurd err roomy

theorem utf8_converts : Converts utf8DecodeSpan utf8Of utf16Put utf16Of where
  toStreamed := utf8_streams
  puts := fun cp _ => utf16_put_of cp
  ratio := fun cp _ => by
    have positive := utf8_of_positive cp
    have two : (utf16Of cp).length ≤ 2 := by
      unfold utf16Of
      split_ifs <;> simp
    omega
  short := fun cp => by
    unfold utf16Of
    split_ifs <;> simp
  waits := fun tail some_ more => by
    obtain ⟨rest, cp, restSome, scalar, split⟩ := decode_more_completes some_ more
    exact ⟨cp, rest, scalar, restSome, split.symm⟩

theorem utf16_waits {tail : List Unit16} (some_ : tail ≠ []) (waits : utf16Decode tail = .more) :
    ∃ cp more, IsScalar cp ∧ more ≠ [] ∧ utf16Of cp = tail ++ more := by
  have short := utf16_more_short waits
  match tail, some_, short, waits with
  | [u], _, _, waits =>
    unfold utf16Decode at waits
    dsimp only at waits
    split_ifs at waits with plain low
    have whole : utf16Decode [u, unit16 0xDC00] = .whole (0x10000 + ((u.val - 0xD800) <<< 10) + (0xDC00 - 0xDC00)) 2 := by
      unfold utf16Decode
      dsimp only
      rw [if_neg plain, if_neg low, if_neg (by decide)]
      rfl
    obtain ⟨scalar, -, split⟩ := decode_utf16_whole whole
    exact ⟨_, [unit16 0xDC00], scalar, cons_ne_nil _ _, (append_nil _).symm.trans split.symm⟩

theorem utf16_converts : Converts utf16Decode utf16Of (fun cp => utf8Put cp (utf8Width cp)) utf8Of where
  toStreamed := utf16_streams
  puts := fun _ scalar => utf8_put_of scalar
  ratio := fun cp _ => by
    unfold utf8Of utf16Of
    split_ifs <;> simp
  short := fun cp => by
    unfold utf8Of
    split_ifs <;> simp
  waits := fun _ some_ more => utf16_waits some_ more

structure SplitIndependent (form : Nat → List α) (other : Nat → List β) (convert : List α → List β → UtfStep β) : Prop where
  call : ∀ src out, CallExact form other src out.length (convert src out)
  pieces : ∀ turns whole, (convert (arriving turns) whole).err ≠ some .outOfBounds →
    SameAsOne convert turns (convert (arriving turns) whole)

theorem partial_conversions_split_independent :
    SplitIndependent utf8Of utf16Of utf8ToUtf16Partial ∧ SplitIndependent utf16Of utf8Of utf16ToUtf8Partial :=
  ⟨⟨call_exact utf8_converts, same_as_one utf8_converts⟩, ⟨call_exact utf16_converts, same_as_one utf16_converts⟩⟩

end ProvenC.Text.Carried
