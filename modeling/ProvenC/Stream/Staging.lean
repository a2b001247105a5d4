import ProvenC.Stream.Wide

/-!
# Decoding what is staged

What a decode of the staged bytes takes: whole characters that fit, or none and why; and what a read of the
source adds.
-/

namespace ProvenC.Stream.Staging

open List Bytes Lib.Cells Lib.Unicode Text.Utf Text.Decoding
open Text.Conversion Text.Streams Text.Cuts Stream.Wide
open Stream.Reader (Read Inner Delivers)

/-- What a decode does of the characters `whole` and the `part` of one after them. -/
inductive Takes (enc : TextEncoding) (whole : List Nat) (part : List Byte) (cap : Nat) : DecodeStep → Prop
  | characters (err : Option ProvenErr) (taken rest : List Nat) : whole = taken ++ rest → taken ≠ [] →
      (utf16Text taken).length ≤ cap →
      Takes enc whole part cap ⟨err, (taken.flatMap (form enc)).length, utf16Text taken⟩
  | wide (cp : Nat) (more : List Nat) : whole = cp :: more → cap < (utf16Of cp).length →
      Takes enc whole part cap ⟨some .outOfBounds, 0, []⟩
  | malformed (span : Nat) : whole = [] → decodeBytes enc part = .bad span →
      Takes enc whole part cap ⟨some .invalidEncoding, 0, []⟩
  | waiting (err : Option ProvenErr) : whole = [] → decodeBytes enc part = .more → err ≠ some .invalidEncoding →
      err ≠ some .outOfBounds → Takes enc whole part cap ⟨err, 0, []⟩

theorem stuck_cases {α : Type} {decode : List α → Decoded} {tail : List α} (stuck : Stuck decode tail) :
    decode tail = .more ∨ ∃ span, decode tail = .bad span := by
  cases decoded : decode tail with
  | whole cp len => exact absurd decoded (stuck cp len)
  | more => exact Or.inl rfl
  | bad span => exact Or.inr ⟨span, rfl⟩

theorem tail_err_more {α : Type} {decode : List α → Decoded} {tail : List α} (more : decode tail = .more) :
    tailErr decode tail ≠ some .invalidEncoding ∧ tailErr decode tail ≠ some .outOfBounds := by
  unfold tailErr
  rw [more]
  split <;> decide

theorem tail_err_bad {α : Type} {decode : List α → Decoded} {tail : List α} (nothing : decode [] = .more) {span : Nat}
    (bad : decode tail = .bad span) : tailErr decode tail = some .invalidEncoding := by
  have some_ : tail ≠ [] := by
    rintro rfl
    rw [nothing] at bad
    cases bad
  rw [tailErr, if_neg some_, bad]

variable {whole : List Nat} {part : List Byte}

theorem narrow_takes (scalars : Scalars whole) (stuck : Stuck utf8DecodeSpan part) (cap : Nat) (st : UtfStep Unit16)
    (ran : utf8ToUtf16Partial (whole.flatMap utf8Of ++ part) (List.replicate cap 0) = st) :
    Takes .utf8 whole part cap ⟨st.err, st.consumed, st.out.take st.written⟩ := by
  obtain ⟨taken, later, split, took⟩ := @convert_front _ _ _ _ utf16Put _ utf8_decodes part stuck whole scalars rfl
    (List.replicate cap (0 : Unit16))
  rw [← utf8ToUtf16Partial, ran, length_replicate] at took
  have puts : ∀ cps, cps.flatMap utf16Put = utf16Text cps := fun cps =>
    congrArg (fun put => cps.flatMap put) (funext utf16_put_of)
  have consumed := took.consumed
  have written := took.written
  have out := took.out
  have fits := took.fits
  rw [puts] at out written
  rw [out, consumed]
  by_cases some_ : taken = []
  · rw [some_] at split written ⊢
    rcases took.ended with ⟨last, err⟩ | ⟨cp, more, next, full, err⟩
    · rw [last] at split
      rcases stuck_cases stuck with waits | ⟨span, bad⟩
      · obtain ⟨fine, room⟩ := tail_err_more waits
        rw [err]
        exact Takes.waiting _ split waits fine room
      rw [err, tail_err_bad rfl bad]
      exact Takes.malformed span split bad
    rw [written, utf16_put_of] at full
    rw [err]
    refine Takes.wide cp more (split.trans next) ?_
    rw [utf16Text, flatMap_nil, length_nil, zero_add] at full
    exact full
  refine Takes.characters _ taken later split some_ ?_
  rw [← written]
  exact fits

theorem put_short (cp : Nat) (scalar : IsScalar cp) : (utf8Put cp (utf8Width cp)).length ≤ 3 * (utf16Of cp).length := by
  rw [utf8_put_of scalar]
  unfold utf8Of utf16Of
  split_ifs
  all_goals simp only [length_cons, length_nil]
  all_goals omega

variable {cps : List Nat}

theorem puts_short (scalars : Scalars cps) :
    (cps.flatMap fun cp => utf8Put cp (utf8Width cp)).length ≤ 3 * (utf16Text cps).length := by
  induction cps with
  | nil => exact Nat.zero_le _
  | cons cp cps ih =>
    obtain ⟨scalar, later⟩ := forall_mem_cons.mp scalars
    have here := put_short cp scalar
    have rest := ih later
    rw [utf16Text] at rest ⊢
    rw [flatMap_cons, flatMap_cons, length_append, length_append]
    omega

theorem window_validated {units : List Unit16} (scalars : Scalars cps) {tail : List Unit16}
    (stuck : Stuck utf16Decode tail) (split : units = utf16Text cps ++ tail) {room : Nat} (small : 3 * units.length ≤ room)
    (v : UtfStep Byte) (ran : utf16ToUtf8Partial units (List.replicate room 0) = v) :
    v.consumed = (utf16Text cps).length ∧ v.err = tailErr utf16Decode tail := by
  obtain ⟨taken, later, parts, took⟩ := @convert_front _ _ _ _ (fun cp => utf8Put cp (utf8Width cp)) _ utf16_decodes
    tail stuck cps scalars split (List.replicate room (0 : Byte))
  rw [← utf16ToUtf8Partial, ran, length_replicate] at took
  rcases took.ended with ⟨last, err⟩ | ⟨cp, more, next, full, err⟩
  · rw [last, append_nil] at parts
    rw [parts]
    exact ⟨took.consumed, err⟩
  -- the characters taken and the next one are of the units, which fit
  exfalso
  have fits := puts_short scalars
  rw [parts, next, utf16Text, flatMap_append, flatMap_cons, length_append, length_append] at fits
  rw [took.written] at full
  have lengths := congrArg List.length split
  rw [parts, next, utf16Text, length_append] at lengths
  omega

variable {enc : TextEncoding}

theorem pairs_of_form (wide : enc ≠ .utf8) (cps : List Nat) (part : List Byte) :
    pairs enc (cps.flatMap (form enc) ++ part) = utf16Text cps ++ pairs enc part := by
  have same : cps.flatMap (form enc) = (utf16Text cps).flatMap (bytesOfUnit enc) := by
    rw [utf16Text, flatMap_assoc]
    exact congrArg (fun put => cps.flatMap put) (funext fun cp => form_wide wide cp)
  rw [same, pairs_units]

theorem form_length_wide (wide : enc ≠ .utf8) (cps : List Nat) :
    (cps.flatMap (form enc)).length = 2 * (utf16Text cps).length := by
  have same : cps.flatMap (form enc) = (utf16Text cps).flatMap (bytesOfUnit enc) := by
    rw [utf16Text, flatMap_assoc]
    exact congrArg (fun put => cps.flatMap put) (funext fun cp => form_wide wide cp)
  rw [same, unit_bytes_length]

theorem text_length_positive (some_ : cps ≠ []) : 0 < (utf16Text cps).length := by
  obtain ⟨cp, more, rfl⟩ := exists_cons_of_ne_nil some_
  have positive := utf16_of_positive cp
  rw [utf16Text, flatMap_cons, length_append]
  omega

theorem cut_takes (wide : enc ≠ .utf8) {front back : List Nat}
    (split : whole = front ++ back) (scalars : Scalars front) {cap : Nat} (room : 0 < cap)
    (long : (utf16Text front).length = cap + 1) {take : Nat}
    (chosen : take = if cap > 0 ∧ isHigh ((utf16Text front).getD (cap - 1) 0) then cap - 1 else cap) :
    Takes enc whole part cap ⟨some .outOfBounds, 2 * take, (utf16Text front).take take⟩ := by
  have parts := (take_append_drop take (utf16Text front)).symm
  have small : take ≤ cap := by
    rw [chosen]
    split <;> omega
  have whole_last : ∀ u, ((utf16Text front).take take).getLast? = some u → ¬isHigh u := by
    rw [chosen]
    split
    next both =>
      -- what is before the first half of a pair is not one
      have inside : cap - 1 < (utf16Text front).length := by omega
      rw [getD_eq_getElem _ _ inside] at both
      have around : utf16Text front =
          (utf16Text front).take (cap - 1) ++ (utf16Text front)[cap - 1] :: (utf16Text front).drop (cap - 1 + 1) := by
        rw [← drop_eq_getElem_cons inside, take_append_drop]
      apply units_before (units_text scalars) around
      have high := both.2
      unfold isHigh at high
      omega
    rename_i plain
    intro u last
    have inside : cap - 1 < (utf16Text front).length := by omega
    rw [show cap = cap - 1 + 1 by omega, take_add_one, List.getElem?_eq_getElem inside, List.getLast?_append] at last
    obtain rfl := Option.some.inj last
    intro high
    apply plain
    rw [getD_eq_getElem _ _ inside]
    exact ⟨room, high⟩
  obtain ⟨taken, rest, same, units, -⟩ := text_cut scalars parts whole_last
  have length : take = (utf16Text taken).length := by
    rw [← units, length_take]
    omega
  by_cases some_ : taken = []
  · -- the first unit is the first half of a pair
    rw [some_] at length units
    have zero : take = 0 := length
    rw [zero, take_zero]
    have one : cap = 1 := by
      rw [zero] at chosen
      split at chosen <;> omega
    have high : isHigh ((utf16Text front).getD (cap - 1) 0) := by
      rw [zero] at chosen
      split at chosen
      next both =>
        exact both.2
      · omega
    obtain ⟨cp, more, rfl⟩ : ∃ cp more, front = cp :: more := by
      apply exists_cons_of_ne_nil
      rintro rfl
      cases long
    refine Takes.wide cp (more ++ back) split ?_
    rcases utf16_of_cases (forall_mem_cons.mp scalars).1 with ⟨u, unit, plain⟩ | ⟨u, v, pair, -⟩
    · rw [utf16Text, flatMap_cons, unit, one, singleton_append, Nat.sub_self, getD_cons_zero] at high
      exact absurd high plain
    rw [pair, one]
    exact Nat.lt_succ_self 1
  rw [units, length, ← form_length_wide wide]
  refine Takes.characters _ taken (rest ++ back) ?_ some_ (by omega)
  rw [split, same, append_assoc]

theorem wide_takes (wide : enc ≠ .utf8) (scalars : Scalars whole) (stuck : Stuck (decodeBytes enc) part) {bytes : List Byte}
    (staged_ : bytes = whole.flatMap (form enc) ++ part) (within : bytes.length ≤ sizeofRaw) {cap : Nat} (room : 0 < cap) :
    Takes enc whole part cap (decodeWide enc bytes cap) := by
  have units : pairs enc bytes = utf16Text whole ++ pairs enc part := by rw [staged_, pairs_of_form wide]
  have count : (pairs enc bytes).length = bytes.length / 2 := pairs_length enc bytes
  have behind_stuck : Stuck utf16Decode (pairs enc part) := by
    intro cp len found
    apply stuck cp (2 * len)
    rw [decode_bytes_wide wide, found]
  unfold decodeWide
  extract_lets n m window v take err
  have top : m ≤ n := by
    change (if cap < n then cap + 1 else n) ≤ n
    split <;> omega
  have seen : window.length = m := by
    change ((pairs enc bytes).take m).length = m
    rw [length_take, count]
    omega
  have cut : window ++ (pairs enc bytes).drop m = utf16Text whole ++ pairs enc part := by
    rw [← units]
    exact take_append_drop m (pairs enc bytes)
  obtain ⟨front, back, tail, split, shown, tail_stuck, ahead, bad_last⟩ :=
    arrived_split utf16_streams scalars behind_stuck cut
  change window = utf16Text front ++ tail at shown
  have front_scalars : Scalars front := fun cp among => scalars cp (by rw [split]; exact mem_append_left _ among)
  have kilo : sizeofRaw = 1024 := rfl
  obtain ⟨consumed, verdict⟩ := window_validated front_scalars tail_stuck shown
    (show 3 * window.length ≤ sizeofRaw / 2 * 3 by omega) v rfl
  have lengths := congrArg List.length shown
  rw [seen, length_append] at lengths
  split
  next beyond =>
    have big : m ≤ cap + 1 := by
      change (if cap < n then cap + 1 else n) ≤ cap + 1
      split <;> omega
    have none_left : tail = [] := eq_nil_of_length_eq_zero (by omega)
    rw [none_left, append_nil] at shown
    rw [shown]
    have chosen : take = if cap > 0 ∧ isHigh ((utf16Text front).getD (cap - 1) 0) then cap - 1 else cap := by
      rw [← shown]
    exact cut_takes wide split front_scalars room (by omega) chosen
  rename_i inside
  have taken : window.take v.consumed = utf16Text front := by rw [shown, consumed, take_left]
  by_cases some_ : front = []
  · rw [some_] at split consumed shown lengths
    rw [nil_append] at split
    rw [utf16Text, flatMap_nil, length_nil] at consumed lengths
    rw [consumed, take_zero, mul_zero]
    rcases stuck_cases tail_stuck with more | ⟨span, bad⟩
    · have short := utf16_more_short more
      have all : ¬cap < n := by
        intro beyond
        have larger : m = cap + 1 := if_pos beyond
        omega
      have whole_window : m = n := if_neg all
      -- every staged unit is in the window, so no character is behind it
      rw [drop_eq_nil_of_le (by omega), append_nil] at ahead
      have none_left : back = [] := by
        by_contra further
        obtain ⟨cp, rest, rfl⟩ := exists_cons_of_ne_nil further
        rw [flatMap_cons, append_assoc] at ahead
        have scalar : IsScalar cp := scalars cp (by rw [split]; exact mem_cons_self)
        apply tail_stuck cp (utf16Of cp).length
        rw [ahead]
        exact utf16_streams.whole cp _ scalar
      rw [none_left, flatMap_nil, nil_append] at ahead
      obtain ⟨fine, space⟩ := tail_err_more more
      have decided : err ≠ some .invalidEncoding ∧ err ≠ some .outOfBounds := by
        change (if v.err = some .invalidEncoding then _ else _) ≠ _ ∧ (if v.err = some .invalidEncoding then _ else _) ≠ _
        rw [verdict, if_neg fine, if_neg (fun both => all both.2)]
        split <;> decide
      refine Takes.waiting err (split.trans none_left) ?_ decided.1 decided.2
      rw [decode_bytes_wide wide, ← ahead, more]
    have none_left := bad_last span bad
    rw [none_left, flatMap_nil, nil_append] at ahead
    have decided : err = some .invalidEncoding :=
      if_pos (by rw [verdict]; exact tail_err_bad rfl bad)
    rw [decided]
    refine Takes.malformed span (split.trans none_left) ?_
    rw [decode_bytes_wide wide, ← ahead, utf16_bad_stays bad]
  rw [taken, consumed, ← form_length_wide wide]
  exact Takes.characters _ front back split some_ (by omega)

theorem decode_raw_takes {s : U16Reader} {whole : List Nat} (scalars : Scalars whole) {part : List Byte}
    (stuck : Stuck (decodeBytes s.enc) part) (arrived : staged s = whole.flatMap (form s.enc) ++ part)
    (within : (staged s).length ≤ sizeofRaw) {cap : Nat} (room : 0 < cap) :
    Takes s.enc whole part cap (u16rDecodeRaw s cap) := by
  unfold u16rDecodeRaw
  by_cases narrow : s.enc = .utf8
  · rw [if_pos narrow]
    rw [narrow] at stuck arrived ⊢
    rw [arrived]
    exact narrow_takes scalars stuck cap _ rfl
  rw [if_neg narrow]
  exact wide_takes narrow scalars stuck arrived within room

variable {Behind : Type} {inner : Inner Behind}

def Steady (inner : Inner Behind) : Prop := ∀ behind space, 0 < space → ¬(inner.readFn behind space).1.failed

variable (inner) in
structure Fetched (s : U16Reader) (behind : Behind) (more : Bool) (s' : U16Reader) (behind' : Behind) : Prop where
  same : ∃ raw rawPos rawLen eof, s' = { s with raw, rawPos, rawLen, eof }
  order : s'.rawPos ≤ s'.rawLen
  within : s'.rawLen ≤ sizeofRaw
  arrived : ∃ got, staged s' = staged s ++ got ∧ inner.text behind = got ++ inner.text behind' ∧
    if more then got ≠ [] else got = [] ∧ inner.text behind' = []
  ended : s'.eof = true → inner.text behind' = []

theorem staged_length (s : U16Reader) : (staged s).length = s.rawLen - s.rawPos := range_length _ _

theorem compact_raw_staged (s : U16Reader) (order : s.rawPos ≤ s.rawLen) :
    (compactRaw s).rawPos = 0 ∧ (compactRaw s).rawLen = s.rawLen - s.rawPos ∧ staged (compactRaw s) = staged s ∧
      ∃ raw rawPos rawLen, compactRaw s = { s with raw, rawPos, rawLen } := by
  unfold compactRaw
  split
  · refine ⟨rfl, rfl, ?_, _, _, _, rfl⟩
    unfold staged
    dsimp only
    split
    · have copied := @range_moved _ s.raw 0 s.rawPos (s.rawLen - s.rawPos)
      rw [zero_add] at copied
      exact copied
    rename_i none_
    rw [show s.rawLen - s.rawPos = 0 by omega]
    rfl
  rename_i start
  exact ⟨by omega, by omega, rfl, _, _, _, rfl⟩

theorem read_raw_running {s : U16Reader} {behind after : Behind} {r : Read} (running : ¬s.eof = true)
    (space : (compactRaw s).rawLen ≠ sizeofRaw)
    (asked : inner.readFn behind (sizeofRaw - (compactRaw s).rawLen) = (r, after)) : u16rReadRaw inner s behind =
      let s := { compactRaw s with
        raw := storedAll (compactRaw s).raw (compactRaw s).rawLen r.bytes
        rawLen := (compactRaw s).rawLen + r.bytes.length }
      if r.ends then (decide (r.bytes.length > 0), { s with eof := true }, after)
      else
        match r.err with
        | some e => (false, { s with err := some e }, after)
        | none => (true, s, after) := by
  unfold u16rReadRaw
  rw [if_neg running]
  refine (if_neg space).trans ?_
  rw [asked] <;> rfl

theorem raw_fetched {s s' : U16Reader} {behind behind' : Behind} {more : Bool} (steady : Steady inner)
    (order : s.rawPos ≤ s.rawLen) (short : (staged s).length < sizeofRaw) (within : s.rawLen ≤ sizeofRaw)
    (ended : s.eof = true → inner.text behind = []) (ran : u16rReadRaw inner s behind = (more, s', behind')) :
    Fetched inner s behind more s' behind' := by
  by_cases eof : s.eof = true
  · rw [u16rReadRaw, if_pos eof] at ran
    obtain ⟨rfl, rfl, rfl⟩ := ran
    refine ⟨⟨_, _, _, _, rfl⟩, order, within, ⟨[], (append_nil _).symm, rfl, ?_⟩, ended⟩
    exact ⟨rfl, ended eof⟩
  obtain ⟨start, length, kept, raw, rawPos, rawLen, same⟩ := compact_raw_staged s order
  rw [staged_length] at short
  cases asked : inner.readFn behind (sizeofRaw - (compactRaw s).rawLen) with
  | mk r after =>
    have space : 0 < sizeofRaw - (compactRaw s).rawLen := by omega
    have delivers := inner.delivers behind _ space
    have alive := steady behind _ space
    rw [asked] at delivers alive
    dsimp only at delivers alive
    rw [read_raw_running eof (by omega) asked] at ran
    have arrived : range (storedAll (compactRaw s).raw (compactRaw s).rawLen r.bytes) (compactRaw s).rawPos
        ((compactRaw s).rawLen + r.bytes.length - (compactRaw s).rawPos) = staged s ++ r.bytes := by
      rw [start, Nat.sub_zero, range_append, zero_add, stored_all_range, ← kept]
      congr 1
      unfold staged
      rw [start, Nat.sub_zero]
      apply range_eq
      intro i inside
      exact stored_all_outside _ _ _ (Or.inl (by omega))
    have room := delivers.within
    have delivered := delivers.delivered alive
    split at ran
    next ends =>
      obtain ⟨rfl, rfl, rfl⟩ := ran
      refine ⟨⟨_, _, _, _, by rw [same]⟩, ?_, ?_, ⟨r.bytes, arrived, delivered, ?_⟩, fun _ => delivers.ended ends⟩
      · dsimp only
        omega
      · dsimp only
        omega
      by_cases some_ : r.bytes = []
      · rw [some_, if_neg (by decide)]
        exact ⟨rfl, delivers.ended ends⟩
      rw [if_pos (decide_eq_true (length_pos_iff.mpr some_))]
      exact some_
    rename_i goes
    cases verdict : r.err with
    | some e =>
      exfalso
      refine alive ⟨by rw [verdict]; exact Option.some_ne_none e, ?_⟩
      intro eof
      exact goes (Or.inl eof)
    | none =>
      rw [verdict] at ran
      obtain ⟨rfl, rfl, rfl⟩ := ran
      refine ⟨⟨_, _, _, _, by rw [same]⟩, ?_, ?_, ⟨r.bytes, arrived, delivered, ?_⟩, ?_⟩
      · dsimp only
        omega
      · dsimp only
        omega
      · rw [if_pos rfl]
        intro empty
        exact goes (Or.inr ⟨verdict, by rw [empty]; rfl⟩)
      intro over_
      rw [same] at over_
      exact absurd over_ eof

end ProvenC.Stream.Staging
