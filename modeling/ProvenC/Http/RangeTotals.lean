import ProvenC.Http.Ranges

/-!
# What a list of ranges is answered with

The loop reads exactly the lists of ranges and admits them one after another.
-/

namespace ProvenC.Http.RangeTotals

open List Bytes Lib.Cells Lib.Intervals Lib.Outcome Http.Head Http.Framing
open Http.Ranges

theorem spec_text_head {text rest : List Byte} {spec : HttpRangeSpec} (isSpec : SpecText text spec) :
    ∃ c later, text ++ rest = c :: later ∧ httpIsOws c = false ∧ c ≠ comma := by
  have plain {d : Byte} (digit : isDigit d = true) : httpIsOws d = false ∧ d ≠ comma := by
    simp only [isDigit, Bool.and_eq_true, decide_eq_true_eq] at digit
    refine ⟨?_, ?_⟩
    · simp only [httpIsOws, Bool.or_eq_false_iff, decide_eq_false_iff_not]
      omega
    rintro rfl
    exact absurd digit (by decide)
  cases isSpec with
  | @between first last a b from_ until_ forward =>
    obtain ⟨d, later, shape, digit⟩ := @digit_head first (dash :: last ++ rest) a from_
    exact ⟨d, later, by rw [append_assoc, shape], plain digit⟩
  | @onwards first a from_ =>
    obtain ⟨d, later, shape, digit⟩ := @digit_head first ([dash] ++ rest) a from_
    exact ⟨d, later, by rw [append_assoc, shape], plain digit⟩
  | @suffix last b count => exact ⟨dash, last ++ rest, rfl, rfl, by decide⟩

variable {size cap : Nat}

variable {spec : HttpRangeSpec}

theorem loop_spec {blank text tail rest : List Byte} {more : Bool} (isBlank : Blank blank)
    (isSpec : SpecText text spec) (trailing : Trailing tail rest more) (turns : Nat) (state : Progress) :
    rangeLoop size cap (turns + 1) (blank ++ (text ++ tail)) state =
      (admitSpec size cap state spec >>= fun state => if more then rangeLoop size cap turns rest state else .ok state) := by
  obtain ⟨c, later, shape, other, noComma⟩ := @spec_text_head text tail spec isSpec
  have stop : (c :: later).dropWhile httpIsOws = c :: later := dropWhile_cons_of_neg (by rw [other]; exact Bool.false_ne_true)
  rw [rangeLoop, blank_skipped isBlank, shape, stop]
  dsimp only
  rw [if_neg noComma, ← shape, read_spec isSpec trailing]
  rfl

variable {body : List Byte} {specs : List HttpRangeSpec}

theorem loop_elements (elements : Elements body specs) (turns : Nat) (enough : body.length < turns) (state : Progress) :
    rangeLoop size cap turns body state = specs.foldlM (admitSpec size cap) state := by
  induction elements generalizing turns state with
  | @done blank isBlank =>
    obtain ⟨turns, rfl⟩ := Nat.exists_eq_add_one.mpr (Nat.zero_lt_of_lt enough)
    rw [rangeLoop, blank_only isBlank]
    rfl
  | @empty blank rest specs isBlank later ih =>
    obtain ⟨turns, rfl⟩ := Nat.exists_eq_add_one.mpr (Nat.zero_lt_of_lt enough)
    have stop : (comma :: rest).dropWhile httpIsOws = comma :: rest := rfl
    rw [length_append, length_cons] at enough
    rw [rangeLoop, blank_skipped isBlank, stop]
    dsimp only
    rw [if_pos rfl]
    exact ih turns (by omega) state
  | @last blank text blank' spec isBlank isSpec isBlank' =>
    obtain ⟨turns, rfl⟩ := Nat.exists_eq_add_one.mpr (Nat.zero_lt_of_lt enough)
    rw [loop_spec isBlank isSpec ⟨blank', isBlank', .inl ⟨rfl, rfl, rfl⟩⟩, foldlM_cons]
    rfl
  | @more blank text blank' rest spec specs isBlank isSpec isBlank' later ih =>
    obtain ⟨turns, rfl⟩ := Nat.exists_eq_add_one.mpr (Nat.zero_lt_of_lt enough)
    simp only [length_append, length_cons] at enough
    rw [loop_spec isBlank isSpec ⟨blank', isBlank', .inr ⟨rfl, rfl⟩⟩, foldlM_cons]
    have further (state : Progress) : rangeLoop size cap turns rest state = specs.foldlM (admitSpec size cap) state :=
      ih turns (by omega) state
    simp only [if_true, further]

variable {state : Progress}

theorem loop_read (turns : Nat) {state' : Progress}
    (read : rangeLoop size cap turns body state = .ok state') : ∃ specs, Elements body specs := by
  induction turns generalizing body state with
  | zero => cases read
  | succ turns ih =>
    obtain ⟨blank, isBlank, split⟩ := blank_apart body
    rw [rangeLoop] at read
    cases left : body.dropWhile httpIsOws with
    | nil =>
      rw [left, append_nil] at split
      rw [split]
      exact ⟨[], Elements.done isBlank⟩
    | cons c rest =>
      rw [left] at read split
      dsimp only at read
      by_cases isComma : c = comma
      · rw [if_pos isComma] at read
        obtain ⟨specs, later⟩ := ih read
        rw [split, isComma]
        exact ⟨specs, Elements.empty isBlank later⟩
      rw [if_neg isComma] at read
      obtain ⟨⟨spec, rest', more⟩, got, read⟩ := bind_ok read
      obtain ⟨state₁, _, read⟩ := bind_ok read
      obtain ⟨text, tail, shape, isSpec, blank', isBlank', ending⟩ := spec_read got
      rcases ending with ⟨rfl, rfl, rfl⟩ | ⟨rfl, rfl⟩
      · rw [split, shape]
        exact ⟨[spec], Elements.last isBlank isSpec isBlank'⟩
      rw [if_pos rfl] at read
      obtain ⟨specs, later⟩ := ih read
      rw [split, shape]
      exact ⟨spec :: specs, Elements.more isBlank isSpec isBlank' later⟩

theorem resolve_none (none_ : resolve size spec = none) (x : Nat) : ¬ Asks size spec x := by
  unfold Asks
  cases spec with
  | between a b forward =>
    rw [resolve] at none_
    split_ifs at none_
    omega
  | onwards a =>
    rw [resolve] at none_
    split_ifs at none_
    omega
  | suffix b =>
    rw [resolve] at none_
    split_ifs at none_
    omega

theorem resolve_some {r : HttpRange} (some_ : resolve size spec = some r) :
    r.first ≤ r.last ∧ r.last < size ∧ ∀ x, Asks size spec x ↔ r.Covers x := by
  unfold Asks Stretch.Covers
  cases spec with
  | between a b forward =>
    rw [resolve] at some_
    split_ifs at some_ with beyond inside
    · cases some_
      exact ⟨forward, inside, fun x => by dsimp only; omega⟩
    · cases some_
      exact ⟨by dsimp only; omega, by dsimp only; omega, fun x => by dsimp only; omega⟩
  | onwards a =>
    rw [resolve] at some_
    split_ifs at some_
    cases some_
    exact ⟨by dsimp only; omega, by dsimp only; omega, fun x => by dsimp only; omega⟩
  | suffix b =>
    rw [resolve] at some_
    split_ifs at some_ with nothing whole
    · cases some_
      exact ⟨by dsimp only; omega, by dsimp only; omega, fun x => by dsimp only; omega⟩
    · cases some_
      exact ⟨by dsimp only; omega, by dsimp only; omega, fun x => by dsimp only; omega⟩

theorem asked_none (none_ : resolve size spec = none) : bytesAsked size spec = 0 := by
  unfold bytesAsked
  rw [Finset.card_eq_zero, Finset.filter_eq_empty_iff]
  exact fun x _ => resolve_none none_ x

theorem asked_some {spec : HttpRangeSpec} {r : HttpRange} (some_ : resolve size spec = some r) :
    bytesAsked size spec = r.last - r.first + 1 := by
  obtain ⟨proper, inside, asks⟩ := resolve_some some_
  have same : (Finset.range size).filter (Asks size spec) = Finset.Icc r.first r.last := by
    ext x
    rw [Finset.mem_filter, Finset.mem_range, Finset.mem_Icc, asks]
    unfold Stretch.Covers
    omega
  unfold bytesAsked
  rw [same, Nat.card_Icc]
  omega

/-- There are at most `cap` ranges, and no running total, cut to 64 bits, is above the size. -/
def Fits (size cap : Nat) (specs : List HttpRangeSpec) : Prop :=
  specs.length ≤ cap ∧ ∀ done, done <+: specs → total size done % 2 ^ 64 ≤ size

structure Reached (size cap : Nat) (done : List HttpRangeSpec) (state : Progress) : Prop where
  specs : state.specs = done.length
  ranges : range state.ranges 0 state.n = done.filterMap (resolve size)
  asked : state.asked = total size done % 2 ^ 64
  fits : Fits size cap done

theorem total_snoc (done : List HttpRangeSpec) (spec : HttpRangeSpec) :
    total size (done ++ [spec]) = total size done + bytesAsked size spec := by
  unfold total
  rw [map_append, List.sum_append, map_singleton, sum_singleton]

variable {done : List HttpRangeSpec}

theorem fits_snoc (fits : Fits size cap done) (spec : HttpRangeSpec) :
    Fits size cap (done ++ [spec]) ↔ done.length + 1 ≤ cap ∧ total size (done ++ [spec]) % 2 ^ 64 ≤ size := by
  unfold Fits
  rw [length_append, length_singleton]
  refine and_congr Iff.rfl ⟨fun all => all _ (prefix_refl _), fun last front isFront => ?_⟩
  rcases prefix_concat_iff.mp isFront with rfl | earlier
  · exact last
  · exact fits.2 front earlier

theorem fits_front {front : List HttpRangeSpec} (isFront : front <+: specs) (fits : Fits size cap specs) :
    Fits size cap front :=
  ⟨isFront.length_le.trans fits.1, fun done earlier => fits.2 done (earlier.trans isFront)⟩

theorem admit_reached (word : size < 2 ^ 64) (reached : Reached size cap done state) (spec : HttpRangeSpec) :
    (Fits size cap (done ++ [spec]) → ∃ state', admitSpec size cap state spec = .ok state' ∧ Reached size cap (done ++ [spec]) state') ∧
      (¬ Fits size cap (done ++ [spec]) → admitSpec size cap state spec = .error .unsupported) := by
  have fits := fits_snoc reached.fits spec
  have grown := @total_snoc size done spec
  unfold admitSpec
  rw [reached.specs]
  dsimp only
  by_cases crowded : cap < done.length + 1
  · rw [if_pos crowded]
    refine ⟨fun fitting => ?_, fun _ => rfl⟩
    have room := (fits.mp fitting).1
    omega
  rw [if_neg crowded]
  cases resolved : resolve size spec with
  | none =>
    rw [asked_none resolved, add_zero] at grown
    dsimp only
    have fitting : Fits size cap (done ++ [spec]) := by
      rw [fits, grown]
      exact ⟨le_of_not_gt crowded, reached.fits.2 done (prefix_refl _)⟩
    refine ⟨fun _ => ⟨_, rfl, ?_, ?_, ?_, fitting⟩, fun not => absurd fitting not⟩
    · rw [length_append, length_singleton]
    · rw [filterMap_append, filterMap_cons_none resolved, filterMap_nil, append_nil]
      exact reached.ranges
    rw [grown]
    exact reached.asked
  | some r =>
    obtain ⟨proper, inside, _⟩ := resolve_some resolved
    have asked : (state.asked + (r.last - r.first + 1)) % 2 ^ 64 = total size (done ++ [spec]) % 2 ^ 64 := by
      rw [grown, asked_some resolved, reached.asked, Nat.mod_add_mod]
    dsimp only
    rw [asked]
    -- the first range alone cannot ask for more than there is, so that the guard on their number says nothing
    have alone (first : done.length = 0) : total size (done ++ [spec]) % 2 ^ 64 ≤ size := by
      rw [eq_nil_of_length_eq_zero first, nil_append]
      have one : total size [spec] = r.last - r.first + 1 := by
        unfold total
        rw [map_singleton, sum_singleton, asked_some resolved]
      rw [one, Nat.mod_eq_of_lt (by omega)]
      omega
    by_cases above : size < total size (done ++ [spec]) % 2 ^ 64
    · have several : 1 < done.length + 1 := by
        by_contra single
        have within := alone (by omega)
        omega
      rw [if_pos ⟨above, several⟩]
      refine ⟨fun fitting => ?_, fun _ => rfl⟩
      have within := (fits.mp fitting).2
      omega
    have fitting : Fits size cap (done ++ [spec]) := fits.mpr ⟨le_of_not_gt crowded, le_of_not_gt above⟩
    rw [if_neg fun both => above both.1]
    refine ⟨fun _ => ⟨_, rfl, ?_, ?_, rfl, fitting⟩, fun not => absurd fitting not⟩
    · rw [length_append, length_singleton]
    · rw [range_stored, reached.ranges, filterMap_append, filterMap_cons_some resolved, filterMap_nil]

theorem run_reached (word : size < 2 ^ 64) (rest : List HttpRangeSpec) (reached : Reached size cap done state) :
    (Fits size cap (done ++ rest) → ∃ state', rest.foldlM (admitSpec size cap) state = .ok state' ∧ Reached size cap (done ++ rest) state') ∧
      (¬ Fits size cap (done ++ rest) → rest.foldlM (admitSpec size cap) state = .error .unsupported) := by
  induction rest generalizing done state with
  | nil =>
    rw [append_nil]
    exact ⟨fun _ => ⟨state, rfl, reached⟩, fun not => absurd reached.fits not⟩
  | cons spec rest ih =>
    obtain ⟨admitted, refused⟩ := admit_reached word reached spec
    have shape : done ++ spec :: rest = done ++ [spec] ++ rest := by rw [append_assoc, singleton_append]
    rw [foldlM_cons, shape]
    by_cases fits : Fits size cap (done ++ [spec])
    · obtain ⟨state', next, reached'⟩ := admitted fits
      rw [next]
      exact ih reached'
    rw [refused fits]
    exact ⟨fun whole => absurd (fits_front (prefix_append _ _) whole) fits, fun _ => rfl⟩

variable {fault : ProvenErr}

theorem maybe_fault {here : Bool} {s : List Byte} (failed : maybeU64 here s = .error fault) : fault = .invalidFormat := by
  unfold maybeU64 at failed
  split_ifs at failed
  · cases taken : httpTakeU64 s with
    | none =>
      rw [taken] at failed
      cases failed
      rfl
    | some pair =>
      rw [taken] at failed
      cases failed

theorem spec_of_fault {a b : Option Nat} (failed : specOf a b = .error fault) : fault = .invalidFormat := by
  cases a with
  | none =>
    cases b with
    | none =>
      cases failed
      rfl
    | some b => cases failed
  | some a =>
    cases b with
    | none => cases failed
    | some b =>
      rw [specOf] at failed
      split_ifs at failed
      cases failed
      rfl

theorem after_fault {s : List Byte} (failed : afterSpec s = .error fault) : fault = .invalidFormat := by
  unfold afterSpec at failed
  cases left : s.dropWhile httpIsOws with
  | nil =>
    rw [left] at failed
    cases failed
  | cons c rest =>
    rw [left] at failed
    dsimp only at failed
    split_ifs at failed
    cases failed
    rfl

theorem read_fault {s : List Byte} (failed : readSpec s = .error fault) : fault = .invalidFormat := by
  unfold readSpec at failed
  rcases bind_fault failed with first | ⟨⟨a, s₁⟩, _, failed⟩
  · exact maybe_fault first
  dsimp only at failed
  split_ifs at failed
  · cases failed
    rfl
  rcases bind_fault failed with second | ⟨⟨b, s₂⟩, _, failed⟩
  · exact maybe_fault second
  rcases bind_fault failed with third | ⟨spec, _, failed⟩
  · exact spec_of_fault third
  rcases bind_fault failed with fourth | ⟨⟨s₃, more⟩, _, failed⟩
  · exact after_fault fourth
  · cases failed

theorem admit_fault (failed : admitSpec size cap state spec = .error fault) : fault = .unsupported := by
  unfold admitSpec at failed
  dsimp only at failed
  split_ifs at failed
  · cases failed
    rfl
  · cases resolved : resolve size spec with
    | none =>
      rw [resolved] at failed
      cases failed
    | some r =>
      rw [resolved] at failed
      dsimp only at failed
      split_ifs at failed
      cases failed
      rfl

theorem loop_fault (turns : Nat)
    (failed : rangeLoop size cap turns body state = .error fault) : fault = .invalidFormat ∨ fault = .unsupported := by
  induction turns generalizing body state with
  | zero =>
    cases failed
    exact .inl rfl
  | succ turns ih =>
    rw [rangeLoop] at failed
    cases left : body.dropWhile httpIsOws with
    | nil =>
      rw [left] at failed
      cases failed
    | cons c rest =>
      rw [left] at failed
      dsimp only at failed
      split_ifs at failed
      · exact ih failed
      rcases bind_fault failed with first | ⟨⟨spec, rest', more⟩, _, failed⟩
      · exact .inl (read_fault first)
      rcases bind_fault failed with second | ⟨state', _, failed⟩
      · exact .inr (admit_fault second)
      split_ifs at failed
      exact ih failed

structure Answers (size : Nat) (specs : List HttpRangeSpec) (result : List HttpRange) : Prop where
  some_ : result ≠ []
  proper : ∀ r ∈ result, r.first ≤ r.last
  inside : ∀ r ∈ result, r.last < size
  ascending : result.Pairwise fun a b => a.first < b.first
  apart : result.Pairwise fun a b => a.last + 1 < b.first
  union : ∀ x, (∃ r ∈ result, r.first ≤ x ∧ x ≤ r.last) ↔ ∃ spec ∈ specs, Asks size spec x

theorem settled_answers {ranges : Nat → HttpRange} {n : Nat} (some_ : n ≠ 0)
    (resolved : range ranges 0 n = specs.filterMap (resolve size)) : Answers size specs (settled ranges n) := by
  obtain ⟨rounds, rfl⟩ := Nat.exists_eq_succ_of_ne_zero some_
  have each (r : HttpRange) (among : r ∈ range ranges 0 (rounds + 1)) : r.first ≤ r.last ∧ r.last < size := by
    rw [resolved] at among
    obtain ⟨spec, _, from_⟩ := mem_filterMap.mp among
    obtain ⟨proper, inside, _⟩ := resolve_some from_
    exact ⟨proper, inside⟩
  obtain ⟨ordered, same⟩ := @arrange_sorts _ Stretch.first ranges rounds
  have joined := join_all (arrange Stretch.first ranges rounds) rounds (fun r among => (each r (same.mem_iff.mp among)).1) ordered
  have shape : settled ranges (rounds + 1) =
      range (joinAll (arrange Stretch.first ranges rounds) rounds).2 0 ((joinAll (arrange Stretch.first ranges rounds) rounds).1 + 1) := rfl
  rw [shape]
  refine ⟨?_, joined.proper, fun r among => ?_, ?_, joined.apart, fun x => ?_⟩
  · intro empty
    have length := congrArg List.length empty
    rw [range_length] at length
    cases length
  · obtain ⟨j, inside, last⟩ := joined.bound r among
    rw [last]
    exact (each _ (same.mem_iff.mp (range_get _ (by omega)))).2
  · refine joined.apart.imp_of_mem fun {a b} amongA _ far => ?_
    have proper := joined.proper a amongA
    unfold Gapped at far
    omega
  refine (joined.covers x).trans ?_
  constructor
  · rintro ⟨r, among, covers⟩
    rw [same.mem_iff, resolved] at among
    obtain ⟨spec, listed, from_⟩ := mem_filterMap.mp among
    exact ⟨spec, listed, ((resolve_some from_).2.2 x).mpr covers⟩
  rintro ⟨spec, listed, asks⟩
  cases from_ : resolve size spec with
  | none => exact absurd asks (resolve_none from_ x)
  | some r =>
    refine ⟨r, ?_, ((resolve_some from_).2.2 x).mp asks⟩
    rw [same.mem_iff, resolved]
    exact mem_filterMap.mpr ⟨spec, listed, from_⟩

theorem none_asks : specs.filterMap (resolve size) = [] ↔ ∀ spec ∈ specs, ∀ x, ¬ Asks size spec x := by
  rw [filterMap_eq_nil_iff]
  refine forall₂_congr fun spec listed => ⟨resolve_none, fun nothing => ?_⟩
  cases from_ : resolve size spec with
  | none => rfl
  | some r =>
    obtain ⟨proper, _, asks⟩ := resolve_some from_
    exact absurd ((asks r.first).mpr ⟨le_refl _, proper⟩) (nothing r.first)

theorem unit_byte : ∀ c : Byte, toLower c ∈ bytesUnit.map toLower → httpIsTchar c = true ∧ httpIsOws c = false := by
  decide +kernel

theorem unit_shape {unit : List Byte} (isUnit : eqAsciiCi unit bytesUnit = true) :
    unit ≠ [] ∧ ∀ c ∈ unit, httpIsTchar c = true ∧ httpIsOws c = false := by
  have same : unit.map toLower = bytesUnit.map toLower := beq_iff_eq.mp isUnit
  refine ⟨?_, fun c among => unit_byte c ?_⟩
  · rintro rfl
    cases same
  rw [← same]
  exact mem_map_of_mem among

theorem nothing_reached (ranges : Nat → HttpRange) (cap : Nat) : Reached size cap [] ⟨ranges, 0, 0, 0⟩ := by
  refine ⟨rfl, rfl, rfl, Nat.zero_le _, fun done front => ?_⟩
  rw [prefix_nil.mp front]
  exact Nat.zero_le _

theorem field_loop {value : List Byte} (field : RangeField value specs) (ranges : Nat → HttpRange) (room : cap ≠ 0) :
    httpRangeParseList value size ranges cap = (specs.foldlM (admitSpec size cap) ⟨ranges, 0, 0, 0⟩ >>= fun state =>
        if state.specs = 0 then .error .invalidFormat else if state.n = 0 then .error .outOfBounds
        else .ok (settled state.ranges state.n)) := by
  obtain ⟨⟨lead, unit, body, isBlank, isUnit, elements, rfl⟩, _⟩ := field
  obtain ⟨some_, letters⟩ := unit_shape isUnit
  have start : (lead ++ (unit ++ equals :: body)).dropWhile httpIsOws = unit ++ equals :: body := by
    rw [blank_skipped isBlank]
    obtain ⟨c, rest, rfl⟩ := exists_cons_of_ne_nil some_
    rw [cons_append, dropWhile_cons_of_neg]
    rw [(letters c (mem_cons_self ..)).2]
    exact Bool.false_ne_true
  have tchars : ∀ c ∈ unit, httpIsTchar c = true := fun c among => (letters c among).1
  have unitTaken : (unit ++ equals :: body).takeWhile httpIsTchar = unit := by
    rw [takeWhile_append_of_pos tchars, takeWhile_cons_of_neg (by decide), append_nil]
  have unitDropped : (unit ++ equals :: body).dropWhile httpIsTchar = equals :: body := by
    rw [dropWhile_append_of_pos tchars, dropWhile_cons_of_neg (by decide)]
  have placed : ¬ (unit = [] ∨ (equals :: body).head? ≠ some equals) := by
    rintro (empty | other)
    · exact some_ empty
    · exact other rfl
  have enough : body.length < (equals :: body).length := Nat.lt_succ_self _
  unfold httpRangeParseList
  rw [if_neg room]
  dsimp only
  rw [start, unitTaken, unitDropped, if_neg placed, isUnit, Bool.not_true, if_neg Bool.false_ne_true, drop_one,
    tail_cons, loop_elements elements _ enough]

theorem field_read {value : List Byte} {ranges : Nat → HttpRange}
    (answered : httpRangeParseList value size ranges cap = .error .outOfBounds ∨
      ∃ result, httpRangeParseList value size ranges cap = .ok result) : cap ≠ 0 ∧ ∃ specs, RangeField value specs := by
  unfold httpRangeParseList at answered
  by_cases none_ : cap = 0
  · rw [if_pos none_] at answered
    rcases answered with wrong | ⟨result, wrong⟩
    · cases wrong
    · cases wrong
  refine ⟨none_, ?_⟩
  rw [if_neg none_] at answered
  dsimp only at answered
  by_cases misplaced : (value.dropWhile httpIsOws).takeWhile httpIsTchar = [] ∨
      ((value.dropWhile httpIsOws).dropWhile httpIsTchar).head? ≠ some equals
  · rw [if_pos misplaced] at answered
    rcases answered with wrong | ⟨result, wrong⟩
    · cases wrong
    · cases wrong
  rw [if_neg misplaced] at answered
  by_cases isUnit : eqAsciiCi ((value.dropWhile httpIsOws).takeWhile httpIsTchar) bytesUnit = true
  · rw [isUnit, Bool.not_true, if_neg Bool.false_ne_true] at answered
    obtain ⟨body, shape⟩ : ∃ body, (value.dropWhile httpIsOws).dropWhile httpIsTchar = equals :: body := by
      cases left : (value.dropWhile httpIsOws).dropWhile httpIsTchar with
      | nil =>
        rw [left] at misplaced
        exact absurd (.inr (by decide)) misplaced
      | cons c body =>
        rw [left, List.head?_cons] at misplaced
        have same : c = equals := by
          by_contra other
          exact misplaced (.inr fun same => other (Option.some.inj same))
        exact ⟨body, by rw [same]⟩
    rw [shape, drop_one, tail_cons] at answered
    cases read : rangeLoop size cap (equals :: body).length body ⟨ranges, 0, 0, 0⟩ with
    | error fault =>
      rw [read, error_bind] at answered
      rcases answered with failed | ⟨result, wrong⟩
      · cases failed
        rcases loop_fault _ read with wrong | wrong
        · cases wrong
        · cases wrong
      · cases wrong
    | ok state =>
      obtain ⟨specs, elements⟩ := loop_read _ read
      obtain ⟨lead, isBlank, split⟩ := blank_apart value
      refine ⟨specs, ⟨lead, _, body, isBlank, isUnit, elements, ?_⟩, ?_⟩
      · rw [← shape, takeWhile_append_dropWhile]
        exact split
      rintro rfl
      have enough : body.length < (equals :: body).length := Nat.lt_succ_self _
      rw [loop_elements elements _ enough] at answered
      rcases answered with wrong | ⟨result, wrong⟩
      · cases wrong
      · cases wrong
  rw [Bool.not_eq_true] at isUnit
  rw [isUnit, Bool.not_false, if_pos rfl] at answered
  rcases answered with wrong | ⟨result, wrong⟩
  · cases wrong
  · cases wrong

theorem field_answered (word : size < 2 ^ 64) {value : List Byte} (field : RangeField value specs)
    (ranges : Nat → HttpRange) (room : cap ≠ 0) :
    (¬ Fits size cap specs → httpRangeParseList value size ranges cap = .error .unsupported) ∧
      (Fits size cap specs → (∀ spec ∈ specs, ∀ x, ¬ Asks size spec x) →
        httpRangeParseList value size ranges cap = .error .outOfBounds) ∧
      (Fits size cap specs → (∃ spec ∈ specs, ∃ x, Asks size spec x) →
        ∃ result, httpRangeParseList value size ranges cap = .ok result ∧ Answers size specs result) := by
  obtain ⟨admitted, refused⟩ := run_reached word specs (@nothing_reached size ranges cap)
  rw [nil_append] at admitted refused
  rw [field_loop field ranges room]
  refine ⟨fun not => ?_, fun fits nothing => ?_, fun fits something => ?_⟩
  · rw [refused not]
    rfl
  · obtain ⟨state, run, reached⟩ := admitted fits
    have some_ : state.specs ≠ 0 := by
      rw [reached.specs]
      exact fun none_ => field.some_ (eq_nil_of_length_eq_zero none_)
    have empty : state.n = 0 := by
      rw [← @range_length _ state.ranges 0 state.n, reached.ranges, none_asks.mpr nothing]
      rfl
    rw [run, ok_bind, if_neg some_, if_pos empty]
  obtain ⟨state, run, reached⟩ := admitted fits
  have some_ : state.specs ≠ 0 := by
    rw [reached.specs]
    exact fun none_ => field.some_ (eq_nil_of_length_eq_zero none_)
  have filled : state.n ≠ 0 := by
    intro empty
    have resolved := reached.ranges
    rw [empty] at resolved
    obtain ⟨spec, listed, x, asks⟩ := something
    exact none_asks.mp resolved.symm spec listed x asks
  rw [run, ok_bind, if_neg some_, if_neg filled]
  exact ⟨_, rfl, settled_answers filled reached.ranges⟩

theorem total_nothing (nothing : ∀ spec ∈ specs, ∀ x, ¬ Asks size spec x) : total size specs = 0 := by
  unfold total
  rw [sum_eq_zero_iff]
  intro count among
  obtain ⟨spec, listed, rfl⟩ := mem_map.mp among
  exact asked_none (filterMap_eq_nil_iff.mp (none_asks.mpr nothing) spec listed)

theorem fits_nothing (nothing : ∀ spec ∈ specs, ∀ x, ¬ Asks size spec x) : Fits size cap specs ↔ specs.length ≤ cap := by
  refine ⟨fun fits => fits.1, fun room => ⟨room, fun done front => ?_⟩⟩
  rw [total_nothing fun spec listed => nothing spec (front.subset listed)]
  exact Nat.zero_le _

/-- A field is refused, or reported unsatisfiable, which says that it is a list of ranges none of which overlaps the
representation, or answered; and several ranges that ask for more bytes than there are are refused. -/
structure WellAnswered (value : List Byte) (size : Nat) (ranges : Nat → HttpRange) (cap : Nat) : Prop where
  unsatisfiable : httpRangeParseList value size ranges cap = .error .outOfBounds ↔
    ∃ specs, RangeField value specs ∧ ∀ spec ∈ specs, ∀ x, ¬ Asks size spec x
  answered : ∀ result, httpRangeParseList value size ranges cap = .ok result →
    (∃ specs, RangeField value specs) ∧ ∀ specs, RangeField value specs → Answers size specs result
  bounded : ∀ specs, RangeField value specs → 1 < specs.length → size < total size specs →
    httpRangeParseList value size ranges cap = .error .unsupported

/-- A field of more than `cap` ranges is refused before it is known that none of them overlaps, and a total that ran
past a word's end may be small again. -/
theorem ranges_well_answered (value : List Byte) (size : Nat) (word : size < 2 ^ 64) (ranges : Nat → HttpRange) (cap : Nat) :
    WellAnswered value size ranges cap ↔ ∀ specs, RangeField value specs →
        ((∀ spec ∈ specs, ∀ x, ¬ Asks size spec x) → specs.length ≤ cap) ∧
          (1 < specs.length → size < total size specs → cap ≠ 0 ∧ ¬ Fits size cap specs) := by
  constructor
  · intro well specs field
    refine ⟨fun nothing => ?_, fun several above => ?_⟩
    · by_contra crowded
      have reported := well.unsatisfiable.mpr ⟨specs, field, nothing⟩
      have room := (field_read (.inl reported)).1
      have refused := (field_answered word field ranges room).1 fun fits => crowded ((fits_nothing nothing).mp fits)
      rw [refused] at reported
      cases reported
    have refused := well.bounded specs field several above
    have room : cap ≠ 0 := by
      rintro rfl
      cases refused
    refine ⟨room, fun fits => ?_⟩
    obtain ⟨_, none_, some_⟩ := field_answered word field ranges room
    by_cases nothing : ∀ spec ∈ specs, ∀ x, ¬ Asks size spec x
    · rw [total_nothing nothing] at above
      exact absurd above (Nat.not_lt_zero _)
    simp only [not_forall, not_not] at nothing
    obtain ⟨spec, listed, x, asks⟩ := nothing
    obtain ⟨result, answer, _⟩ := some_ fits ⟨spec, listed, x, asks⟩
    rw [answer] at refused
    cases refused
  intro allowed
  refine ⟨⟨fun reported => ?_, ?_⟩, fun result answer => ?_, fun specs field several above => ?_⟩
  · obtain ⟨room, specs, field⟩ := field_read (.inl reported)
    obtain ⟨crowded, _, some_⟩ := field_answered word field ranges room
    refine ⟨specs, field, ?_⟩
    by_contra something
    simp only [not_forall, not_not] at something
    obtain ⟨spec, listed, x, asks⟩ := something
    by_cases fits : Fits size cap specs
    · obtain ⟨result, answer, _⟩ := some_ fits ⟨spec, listed, x, asks⟩
      rw [answer] at reported
      cases reported
    rw [crowded fits] at reported
    cases reported
  · rintro ⟨specs, field, nothing⟩
    have within := (allowed specs field).1 nothing
    have length := length_pos_of_ne_nil field.some_
    exact (field_answered word field ranges (by omega)).2.1 ((fits_nothing nothing).mpr within) nothing
  · obtain ⟨room, specs, field⟩ := field_read (.inr ⟨result, answer⟩)
    refine ⟨⟨specs, field⟩, fun specs field => ?_⟩
    obtain ⟨crowded, none_, some_⟩ := field_answered word field ranges room
    have fits : Fits size cap specs := by
      by_contra not
      rw [crowded not] at answer
      cases answer
    have something : ∃ spec ∈ specs, ∃ x, Asks size spec x := by
      by_contra nothing
      rw [none_ fits fun spec listed x asks => nothing ⟨spec, listed, x, asks⟩] at answer
      cases answer
    obtain ⟨result', answer', answers⟩ := some_ fits something
    rw [answer'] at answer
    cases answer
    exact answers
  obtain ⟨room, crowded⟩ := (allowed specs field).2 several above
  exact (field_answered word field ranges room).1 crowded

theorem ranges_well_answered_hundred : WellAnswered (ascii "bytes=0-9,-5") 100 (fun _ => ⟨0, 0⟩) 4 ↔
      ∀ specs, RangeField (ascii "bytes=0-9,-5") specs → ((∀ spec ∈ specs, ∀ x, ¬ Asks 100 spec x) → specs.length ≤ 4) ∧
          (1 < specs.length → 100 < total 100 specs → 4 ≠ 0 ∧ ¬ Fits 100 4 specs) :=
  ranges_well_answered (ascii "bytes=0-9,-5") 100 (by decide) (fun _ => ⟨0, 0⟩) 4

/-- All of a representation of 2^64 - 1 bytes, and its first byte once more. -/
theorem whole_and_first_answered : ¬ WellAnswered (ascii "bytes=0-,0-0") (2 ^ 64 - 1) (fun _ => ⟨0, 0⟩) 2 := by
  intro well
  have zero : Denotes (ascii "0") 0 := ⟨cons_ne_nil _ _, by decide +kernel, rfl, Nat.two_pow_pos 64⟩
  have nothing : Blank [] := by
    intro c among
    cases among
  have field : RangeField (ascii "bytes=0-,0-0") [.onwards 0, .between 0 0 (le_refl 0)] := by
    refine ⟨⟨[], bytesUnit, ascii "0-,0-0", nothing, by decide, ?_, by decide⟩, cons_ne_nil _ _⟩
    have last := @Elements.last [] _ [] _ nothing (SpecText.between zero zero (le_refl 0)) nothing
    exact @Elements.more [] _ [] _ _ _ nothing (SpecText.onwards zero) nothing last
  have asked : total (2 ^ 64 - 1) [.onwards 0, .between 0 0 (le_refl 0)] = 2 ^ 64 := by
    unfold total
    rw [map_cons, map_singleton, List.sum_cons, sum_singleton,
      @asked_some _ _ ⟨0, 2 ^ 64 - 2⟩ (by decide +kernel), @asked_some _ _ ⟨0, 0⟩ (by decide +kernel)]
    decide +kernel
  have refused := well.bounded _ field (by decide) (by omega)
  have answered : httpRangeParseList (ascii "bytes=0-,0-0") (2 ^ 64 - 1) (fun _ => ⟨0, 0⟩) 2 = .ok [⟨0, 2 ^ 64 - 2⟩] := by
    decide +kernel
  rw [answered] at refused
  cases refused

end ProvenC.Http.RangeTotals
