import ProvenC.Http.Framing
import ProvenC.Lib.Intervals
import ProvenC.Lib.Outcome

/-!
# Lists of ranges

`proven_http_range_parse_list`: the ranges of a request's Range field are read one after another, cut to
the representation and counted up in a word of 64 bits, then put in order and joined.
-/

namespace ProvenC.Http.Ranges

open List Bytes Lib.Cells Lib.Intervals Lib.Outcome Http.Head Http.Framing

abbrev HttpRange := Stretch

def dash : Byte := 45

def equals : Byte := 61

def bytesUnit : List Byte := ascii "bytes"

/-- The digits at the front, after those read into `n`. -/
def u64Digits : Nat → List Byte → Option (Nat × List Byte)
  | n, [] => some (n, [])
  | n, c :: rest =>
    if isDigit c then
      if (2 ^ 64 - 1 - (c.val - 48)) / 10 < n then none else u64Digits (n * 10 + (c.val - 48)) rest
    else some (n, c :: rest)

def httpTakeU64 (s : List Byte) : Option (Nat × List Byte) :=
  match u64Digits 0 s with
  | none => none
  | some (n, rest) => if rest.length = s.length then none else some (n, rest)

/-- `a-b`, `a-` or `-b`. -/
inductive HttpRangeSpec where
  | between (a b : Nat) (forward : a ≤ b)
  | onwards (a : Nat)
  | suffix (b : Nat)
  deriving DecidableEq, Repr

def maybeU64 (here : Bool) (s : List Byte) : Except ProvenErr (Option Nat × List Byte) :=
  if here then
    match httpTakeU64 s with
    | none => .error .invalidFormat
    | some (n, rest) => .ok (some n, rest)
  else .ok (none, s)

def specOf : Option Nat → Option Nat → Except ProvenErr HttpRangeSpec
  | none, none => .error .invalidFormat
  | some a, none => .ok (.onwards a)
  | none, some b => .ok (.suffix b)
  | some a, some b => if backward : b < a then .error .invalidFormat else .ok (.between a b (Nat.le_of_not_lt backward))

def afterSpec (s : List Byte) : Except ProvenErr (List Byte × Bool) :=
  match s.dropWhile httpIsOws with
  | [] => .ok ([], false)
  | c :: rest => if c = comma then .ok (rest, true) else .error .invalidFormat

def readSpec (s : List Byte) : Except ProvenErr (HttpRangeSpec × List Byte × Bool) := do
  let (a, s) ← maybeU64 (s.head? != some dash) s
  if s.head? ≠ some dash then .error .invalidFormat
  else do
    let (b, s) ← maybeU64 ((s.drop 1).head?.any isDigit) (s.drop 1)
    let spec ← specOf a b
    let (s, more) ← afterSpec s
    .ok (spec, s, more)

structure Progress where
  ranges : Nat → HttpRange
  n : Nat
  specs : Nat
  asked : Nat

/-- A range against the size: a suffix of `b` bytes, or `a` to `b` cut to the end. -/
def resolve (size : Nat) : HttpRangeSpec → Option HttpRange
  | .suffix b => if b = 0 ∨ size = 0 then none else some ⟨if size ≤ b then 0 else size - b, size - 1⟩
  | .onwards a => if size ≤ a then none else some ⟨a, size - 1⟩
  | .between a b _ => if size ≤ a then none else some ⟨a, if b < size then b else size - 1⟩

def admitSpec (size cap : Nat) (state : Progress) (spec : HttpRangeSpec) : Except ProvenErr Progress :=
  let specs := state.specs + 1
  if cap < specs then .error .unsupported
  else
    match resolve size spec with
    | none => .ok { state with specs := specs }
    | some r =>
      let asked := (state.asked + (r.last - r.first + 1)) % 2 ^ 64
      if size < asked ∧ 1 < specs then .error .unsupported
      else .ok ⟨stored state.ranges state.n r, state.n + 1, specs, asked⟩

def rangeLoop (size cap : Nat) : Nat → List Byte → Progress → Except ProvenErr Progress
  | 0, _, _ => .error .invalidFormat
  | turns + 1, s, state =>
    match s.dropWhile httpIsOws with
    | [] => .ok state
    | c :: rest =>
      if c = comma then rangeLoop size cap turns rest state
      else do
        let (spec, rest, more) ← readSpec (c :: rest)
        let state ← admitSpec size cap state spec
        if more then rangeLoop size cap turns rest state else .ok state

def settled (ranges : Nat → HttpRange) (n : Nat) : List HttpRange :=
  let joined := joinAll (arrange Stretch.first ranges (n - 1)) (n - 1)
  range joined.2 0 (joined.1 + 1)

/-- `proven_http_range_parse_list` with the caller's array; the ranges are the first `count` of it. -/
def httpRangeParseList (value : List Byte) (size : Nat) (ranges : Nat → HttpRange) (cap : Nat) :
    Except ProvenErr (List HttpRange) :=
  if cap = 0 then .error .invalidArg
  else
    let field := value.dropWhile httpIsOws
    let unit := field.takeWhile httpIsTchar
    let rest := field.dropWhile httpIsTchar
    if unit = [] ∨ rest.head? ≠ some equals then .error .invalidFormat
    else if !eqAsciiCi unit bytesUnit then .error .unsupported
    else do
      let state ← rangeLoop size cap rest.length (rest.drop 1) ⟨ranges, 0, 0, 0⟩
      if state.specs = 0 then .error .invalidFormat
      else if state.n = 0 then .error .outOfBounds
      else .ok (settled state.ranges state.n)

inductive SpecText : List Byte → HttpRangeSpec → Prop
  | between {first last : List Byte} {a b : Nat} (from_ : Denotes first a) (until_ : Denotes last b) (forward : a ≤ b) :
      SpecText (first ++ dash :: last) (.between a b forward)
  | onwards {first : List Byte} {a : Nat} (from_ : Denotes first a) : SpecText (first ++ [dash]) (.onwards a)
  | suffix {last : List Byte} {b : Nat} (count : Denotes last b) : SpecText (dash :: last) (.suffix b)

def Blank (text : List Byte) : Prop := ∀ c ∈ text, httpIsOws c = true

inductive Elements : List Byte → List HttpRangeSpec → Prop
  | done {blank : List Byte} (isBlank : Blank blank) : Elements blank []
  | empty {blank rest : List Byte} {specs : List HttpRangeSpec} (isBlank : Blank blank) (later : Elements rest specs) :
      Elements (blank ++ comma :: rest) specs
  | last {blank text blank' : List Byte} {spec : HttpRangeSpec} (isBlank : Blank blank) (isSpec : SpecText text spec)
      (isBlank' : Blank blank') : Elements (blank ++ (text ++ blank')) [spec]
  | more {blank text blank' rest : List Byte} {spec : HttpRangeSpec} {specs : List HttpRangeSpec} (isBlank : Blank blank)
      (isSpec : SpecText text spec) (isBlank' : Blank blank') (later : Elements rest specs) :
      Elements (blank ++ (text ++ (blank' ++ comma :: rest))) (spec :: specs)

structure RangeField (value : List Byte) (specs : List HttpRangeSpec) : Prop where
  listed : ∃ lead unit body, Blank lead ∧ eqAsciiCi unit bytesUnit = true ∧ Elements body specs ∧
    value = lead ++ (unit ++ equals :: body)
  some_ : specs ≠ []

/-- The positions of a representation of `size` bytes that a range asks for. -/
def Asks (size : Nat) (spec : HttpRangeSpec) (x : Nat) : Prop :=
  x < size ∧
    match spec with
    | .between a b _ => a ≤ x ∧ x ≤ b
    | .onwards a => a ≤ x
    | .suffix b => size ≤ x + b

instance (size : Nat) (spec : HttpRangeSpec) : DecidablePred (Asks size spec) := fun x => by
  unfold Asks
  cases spec <;> infer_instance

def bytesAsked (size : Nat) (spec : HttpRangeSpec) : Nat := ((Finset.range size).filter (Asks size spec)).card

def total (size : Nat) (specs : List HttpRangeSpec) : Nat := (specs.map (bytesAsked size)).sum

theorem u64_digits (digits rest : List Byte) (n : Nat) (all : ∀ d ∈ digits, isDigit d = true)
    (stop : rest.head?.any isDigit = false) : u64Digits n (digits ++ rest) = match lengthDigits n digits with
      | .error _ => none
      | .ok value => some (value, rest) := by
  induction digits generalizing n with
  | nil =>
    rw [lengthDigits, nil_append]
    cases rest with
    | nil => rfl
    | cons c rest =>
      have other : isDigit c = false := stop
      rw [u64Digits, other, if_neg Bool.false_ne_true]
  | cons d digits ih =>
    have digit : isDigit d = true := all d (mem_cons_self ..)
    rw [cons_append, u64Digits, if_pos digit, lengthDigits, digit, Bool.not_true, if_neg Bool.false_ne_true]
    dsimp only
    split_ifs with large
    · rfl
    · exact ih _ fun e among => all e (mem_cons_of_mem _ among)

theorem digits_apart (s : List Byte) :
    ∃ digits rest, s = digits ++ rest ∧ (∀ d ∈ digits, isDigit d = true) ∧ rest.head?.any isDigit = false := by
  refine ⟨s.takeWhile isDigit, s.dropWhile isDigit, takeWhile_append_dropWhile.symm, fun d among => ?_, ?_⟩
  · exact mem_takeWhile_imp among
  · cases later : s.dropWhile isDigit with
    | nil => rfl
    | cons c rest =>
      have some_ : s.dropWhile isDigit ≠ [] := by
        rw [later]
        exact cons_ne_nil _ _
      have stopped := head_dropWhile_not isDigit some_
      simp only [later, head_cons] at stopped
      exact stopped

variable {rest : List Byte}

theorem take_number {text : List Byte} {n : Nat} (number : Denotes text n) (stop : rest.head?.any isDigit = false) :
    httpTakeU64 (text ++ rest) = some (n, rest) := by
  have value := (length_denotes number.some_ n).mpr number
  have longer := length_pos_of_ne_nil number.some_
  unfold httpTakeU64
  rw [u64_digits text rest 0 number.digits stop, value]
  dsimp only
  rw [length_append, if_neg (by omega)]

theorem taken_number {s : List Byte} {n : Nat} (taken : httpTakeU64 s = some (n, rest)) :
    ∃ text, Denotes text n ∧ s = text ++ rest ∧ rest.head?.any isDigit = false := by
  obtain ⟨digits, after, rfl, all, stop⟩ := digits_apart s
  unfold httpTakeU64 at taken
  rw [u64_digits digits after 0 all stop] at taken
  cases value : lengthDigits 0 digits with
  | error fault =>
    rw [value] at taken
    cases taken
  | ok m =>
    rw [value] at taken
    dsimp only at taken
    split_ifs at taken with none_
    cases taken
    have some_ : digits ≠ [] := by
      rintro rfl
      exact none_ rfl
    exact ⟨digits, (length_denotes some_ n).mp value, rfl, stop⟩

theorem digit_head {text rest : List Byte} {n : Nat} (number : Denotes text n) :
    ∃ d later, text ++ rest = d :: later ∧ isDigit d = true := by
  obtain ⟨d, more, rfl⟩ := exists_cons_of_ne_nil number.some_
  exact ⟨d, more ++ rest, rfl, number.digits d (mem_cons_self ..)⟩

theorem digit_not_dash {d : Byte} (digit : isDigit d = true) : d ≠ dash := by
  rintro rfl
  exact absurd digit (by decide)

theorem maybe_number {text : List Byte} {n : Nat} (number : Denotes text n) (stop : rest.head?.any isDigit = false) :
    maybeU64 true (text ++ rest) = .ok (some n, rest) := by
  unfold maybeU64
  rw [if_pos rfl, take_number number stop]

def Trailing (tail rest : List Byte) (more : Bool) : Prop :=
  ∃ blank, Blank blank ∧ (tail = blank ∧ rest = [] ∧ more = false ∨ tail = blank ++ comma :: rest ∧ more = true)

theorem blank_skipped {blank : List Byte} (isBlank : Blank blank) (rest : List Byte) :
    (blank ++ rest).dropWhile httpIsOws = rest.dropWhile httpIsOws := dropWhile_append_of_pos isBlank

theorem blank_only {blank : List Byte} (isBlank : Blank blank) : blank.dropWhile httpIsOws = [] :=
  dropWhile_eq_nil_iff.mpr isBlank

theorem blank_apart (s : List Byte) : ∃ blank, Blank blank ∧ s = blank ++ s.dropWhile httpIsOws :=
  ⟨s.takeWhile httpIsOws, fun _ among => mem_takeWhile_imp among, takeWhile_append_dropWhile.symm⟩

theorem after_spec (tail rest : List Byte) (more : Bool) : afterSpec tail = .ok (rest, more) ↔ Trailing tail rest more := by
  constructor
  · intro read
    obtain ⟨blank, isBlank, split⟩ := blank_apart tail
    unfold afterSpec at read
    refine ⟨blank, isBlank, ?_⟩
    cases left : tail.dropWhile httpIsOws with
    | nil =>
      rw [left] at read split
      cases read
      rw [append_nil] at split
      exact Or.inl ⟨split, rfl, rfl⟩
    | cons c later =>
      rw [left] at read split
      dsimp only at read
      split_ifs at read with isComma
      cases read
      rw [isComma] at split
      exact Or.inr ⟨split, rfl⟩
  rintro ⟨blank, isBlank, ⟨rfl, rfl, rfl⟩ | ⟨rfl, rfl⟩⟩
  · unfold afterSpec
    rw [blank_only isBlank]
  unfold afterSpec
  have stop : (comma :: rest).dropWhile httpIsOws = comma :: rest := rfl
  rw [blank_skipped isBlank, stop]
  dsimp only
  rw [if_pos rfl]

theorem ows_not_digit {c : Byte} (isOws : httpIsOws c = true) : isDigit c = false := by
  simp only [httpIsOws, Bool.or_eq_true, decide_eq_true_eq] at isOws
  simp only [isDigit, Bool.and_eq_false_iff, decide_eq_false_iff_not]
  omega

theorem trailing_no_digit {tail : List Byte} {more : Bool} (trailing : Trailing tail rest more) :
    tail.head?.any isDigit = false := by
  obtain ⟨blank, isBlank, ⟨rfl, _, _⟩ | ⟨rfl, _⟩⟩ := trailing
  · cases tail with
    | nil => rfl
    | cons c later => exact ows_not_digit (isBlank c (mem_cons_self ..))
  · cases blank with
    | nil => rfl
    | cons c later => exact ows_not_digit (isBlank c (mem_cons_self ..))

theorem read_spec {text tail : List Byte} {spec : HttpRangeSpec} {more : Bool} (isSpec : SpecText text spec)
    (trailing : Trailing tail rest more) : readSpec (text ++ tail) = .ok (spec, rest, more) := by
  have after := (after_spec tail rest more).mpr trailing
  have stop := trailing_no_digit trailing
  cases isSpec with
  | @between first last a b from_ until_ forward =>
    obtain ⟨d, later, shape, digit⟩ := @digit_head first (dash :: (last ++ tail)) a from_
    have isFirst : ((first ++ (dash :: (last ++ tail))).head? != some dash) = true := by
      rw [shape, List.head?_cons]
      exact bne_iff_ne.mpr fun same => digit_not_dash digit (Option.some.inj same)
    obtain ⟨e, later', shape', digit'⟩ := @digit_head last tail b until_
    have isLast : (((dash :: (last ++ tail)).drop 1).head?.any isDigit) = true := by
      rw [drop_one, tail_cons, shape']
      exact digit'
    rw [append_assoc, cons_append]
    unfold readSpec
    rw [isFirst, maybe_number from_ rfl]
    simp only [bind, Except.bind, List.head?_cons, ne_eq, not_true_eq_false, if_false]
    rw [isLast, drop_one, tail_cons, maybe_number until_ stop]
    simp only [specOf, dif_neg (not_lt.mpr forward), after]
  | @onwards first a from_ =>
    obtain ⟨d, later, shape, digit⟩ := @digit_head first (dash :: tail) a from_
    have isFirst : ((first ++ (dash :: tail)).head? != some dash) = true := by
      rw [shape, List.head?_cons]
      exact bne_iff_ne.mpr fun same => digit_not_dash digit (Option.some.inj same)
    have none_ : (((dash :: tail).drop 1).head?.any isDigit) = false := stop
    rw [append_assoc, singleton_append]
    unfold readSpec
    rw [isFirst, maybe_number from_ rfl]
    simp only [bind, Except.bind, List.head?_cons, ne_eq, not_true_eq_false, if_false]
    rw [none_]
    simp only [maybeU64, Bool.false_eq_true, if_false, drop_one, tail_cons, specOf, after]
  | @suffix last b count =>
    obtain ⟨e, later', shape', digit'⟩ := @digit_head last tail b count
    have isLast : (((dash :: (last ++ tail)).drop 1).head?.any isDigit) = true := by
      rw [drop_one, tail_cons, shape']
      exact digit'
    have none_ : ((dash :: (last ++ tail)).head? != some dash) = false := rfl
    rw [cons_append]
    unfold readSpec
    rw [none_]
    simp only [bind, Except.bind, maybeU64, Bool.false_eq_true, if_false, List.head?_cons, ne_eq, not_true_eq_false]
    rw [isLast, drop_one, tail_cons, if_pos rfl, take_number count stop]
    simp only [specOf, after]

theorem maybe_taken {here : Bool} {s : List Byte} {n : Option Nat} (taken : maybeU64 here s = .ok (n, rest)) :
    (here = false ∧ n = none ∧ rest = s) ∨ ∃ text value, here = true ∧ n = some value ∧ Denotes text value ∧ s = text ++ rest := by
  unfold maybeU64 at taken
  cases here with
  | false =>
    cases taken
    exact Or.inl ⟨rfl, rfl, rfl⟩
  | true =>
    rw [if_pos rfl] at taken
    cases got : httpTakeU64 s with
    | none =>
      rw [got] at taken
      cases taken
    | some pair =>
      obtain ⟨value, later⟩ := pair
      rw [got] at taken
      cases taken
      obtain ⟨text, number, split, _⟩ := taken_number got
      exact Or.inr ⟨text, value, rfl, rfl, number, split⟩

theorem spec_read {s : List Byte} {spec : HttpRangeSpec} {more : Bool} (read : readSpec s = .ok (spec, rest, more)) :
    ∃ text tail, s = text ++ tail ∧ SpecText text spec ∧ Trailing tail rest more := by
  unfold readSpec at read
  obtain ⟨⟨a, s₁⟩, gotA, read⟩ := bind_ok read
  dsimp only at read
  split_ifs at read with noDash
  obtain ⟨s₂, rfl⟩ : ∃ s₂, s₁ = dash :: s₂ := by
    cases s₁ with
    | nil => exact absurd (show ([] : List Byte).head? ≠ some dash by decide) noDash
    | cons c s₂ =>
      rw [List.head?_cons, Ne, not_not, Option.some.injEq] at noDash
      exact ⟨s₂, by rw [noDash]⟩
  rw [drop_one, tail_cons] at read
  obtain ⟨⟨b, tail⟩, gotB, read⟩ := bind_ok read
  obtain ⟨spec', made, read⟩ := bind_ok read
  obtain ⟨⟨rest', more'⟩, after, read⟩ := bind_ok read
  cases read
  have trailing := (after_spec tail _ _).mp after
  rcases maybe_taken gotA with ⟨_, rfl, same⟩ | ⟨first, m, _, rfl, from_, rfl⟩
  · rcases maybe_taken gotB with ⟨_, rfl, _⟩ | ⟨last, k, _, rfl, until_, rfl⟩
    · cases made
    · cases made
      exact ⟨dash :: last, tail, same.symm, SpecText.suffix until_, trailing⟩
  rcases maybe_taken gotB with ⟨_, rfl, rfl⟩ | ⟨last, k, _, rfl, until_, rfl⟩
  · cases made
    exact ⟨first ++ [dash], tail, by rw [append_assoc, singleton_append], SpecText.onwards from_, trailing⟩
  unfold specOf at made
  dsimp only at made
  split_ifs at made with backward
  cases made
  exact ⟨first ++ dash :: last, tail, by rw [append_assoc, cons_append],
    SpecText.between from_ until_ (Nat.le_of_not_lt backward), trailing⟩

end ProvenC.Http.Ranges
