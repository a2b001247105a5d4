import ProvenC.Http.DateDays

/-!
# The three forms of a date

What is written is read back, piece by piece, and what is read was written so.
-/

namespace ProvenC.Http.DateForms

open List Bytes Lib.Calendar Http.Dates Http.DateDays

section Pieces

variable {Value Next : Type}

theorem bind_read {first : Reading Value} {s s' : List Byte} {value : Value} (later : Value → Reading Next)
    (read : first s = some (value, s')) : (first >>= later) s = later value s' := by
  change (first s >>= fun outcome => later outcome.1 outcome.2) = later value s'
  rw [read]
  rfl

theorem bind_taken {first : Reading Value} {later : Value → Reading Next} {s : List Byte} {outcome : Next × List Byte}
    (read : (first >>= later) s = some outcome) : ∃ value s', first s = some (value, s') ∧ later value s' = some outcome := by
  change (first s >>= fun outcome => later outcome.1 outcome.2) = some outcome at read
  cases taken : first s with
  | none =>
    rw [taken] at read
    cases read
  | some pair =>
    rw [taken] at read
    exact ⟨pair.1, pair.2, rfl, read⟩

end Pieces

theorem lit_read (lit rest : List Byte) : httpDpLit lit (lit ++ rest) = some ((), rest) := by
  induction lit with
  | nil => rfl
  | cons c lit ih =>
    rw [cons_append, httpDpLit]
    dsimp only
    rw [if_neg (not_not_intro rfl), ih]

theorem lit_read_end (lit : List Byte) : httpDpLit lit lit = some ((), []) := by
  have read := lit_read lit []
  rw [append_nil] at read
  exact read

variable {rest : List Byte}

theorem lit_taken {lit s : List Byte} (read : httpDpLit lit s = some ((), rest)) : s = lit ++ rest := by
  induction lit generalizing s with
  | nil =>
    cases read
    rfl
  | cons c lit ih =>
    cases s with
    | nil => cases read
    | cons c' s =>
      rw [httpDpLit] at read
      dsimp only at read
      split_ifs at read with same
      rw [not_not.mp same, ih read, cons_append]

/-- The last `width` digits of a number. -/
def padded : Nat → Nat → List Byte
  | 0, _ => []
  | width + 1, n => digit (n / 10 ^ width % 10) :: padded width n

theorem padded_add (width a n : Nat) : padded width (a * 10 ^ width + n) = padded width n := by
  induction width generalizing a with
  | zero => rfl
  | succ width ih =>
    have shifted : a * 10 ^ (width + 1) + n = a * 10 * 10 ^ width + n := by ring
    rw [shifted, padded, padded, ih, add_comm, Nat.add_mul_div_right _ _ (by positivity), Nat.add_mul_mod_self_right]

variable {n : Nat}

theorem digit_val (small : n < 10) : (digit n).val = 48 + n := by
  unfold digit byteOf
  exact Nat.mod_eq_of_lt (by omega)

theorem digit_of {c : Byte} (low : 48 ≤ c.val) (high : c.val ≤ 57) : digit (c.val - 48) = c :=
  Fin.ext (by rw [digit_val (by omega)]; omega)

theorem num_read (width n : Nat) (rest : List Byte) (v : Nat) :
    dpNumFrom v width (padded width n ++ rest) = some (v * 10 ^ width + n % 10 ^ width, rest) := by
  induction width generalizing v with
  | zero => rw [padded, nil_append, dpNumFrom, pow_zero, Nat.mod_one, mul_one, add_zero]
  | succ width ih =>
    have small : n / 10 ^ width % 10 < 10 := Nat.mod_lt _ (by decide)
    have value := digit_val small
    rw [padded, cons_append, dpNumFrom]
    dsimp only
    rw [value, if_neg (by omega), Nat.add_sub_cancel_left, ih, Nat.mod_pow_succ]
    congr 2
    ring

theorem num_taken {width v w : Nat} {s : List Byte} (read : dpNumFrom v width s = some (w, rest)) :
    ∃ n < 10 ^ width, w = v * 10 ^ width + n ∧ s = padded width n ++ rest := by
  induction width generalizing v s with
  | zero =>
    cases read
    exact ⟨0, by decide, by ring, rfl⟩
  | succ width ih =>
    cases s with
    | nil => cases read
    | cons c s =>
      rw [dpNumFrom] at read
      dsimp only at read
      split_ifs at read with other
      obtain ⟨n, small, value, rfl⟩ := ih read
      have positive : 0 < 10 ^ width := by positivity
      have front : ((c.val - 48) * 10 ^ width + n) / 10 ^ width % 10 = c.val - 48 := by
        rw [add_comm, Nat.add_mul_div_right _ _ positive, Nat.div_eq_of_lt small, zero_add]
        exact Nat.mod_eq_of_lt (by omega)
      have bounded : (c.val - 48) * 10 ^ width ≤ 9 * 10 ^ width := Nat.mul_le_mul_right _ (by omega)
      refine ⟨(c.val - 48) * 10 ^ width + n, by rw [pow_succ]; omega, by rw [value]; ring, ?_⟩
      rw [padded, front, padded_add, digit_of (by omega) (by omega), cons_append]

theorem two_digits (small : n < 100) : twoDigits n = padded 2 n := by
  have tens : n / 10 % 10 = n / 10 := Nat.mod_eq_of_lt (by omega)
  rw [padded, padded, padded, pow_zero, Nat.div_one, pow_one, tens]
  rfl

theorem four_digits (n : Nat) : fourDigits n = padded 4 n := by
  rw [padded, padded, padded, padded, padded, pow_zero, Nat.div_one, pow_one]
  rfl

theorem two_read (small : n < 100) (rest : List Byte) : httpDpNum 2 (twoDigits n ++ rest) = some (n, rest) := by
  rw [two_digits small, httpDpNum, num_read, zero_mul, zero_add, @Nat.mod_eq_of_lt n (10 ^ 2) small]

theorem two_taken {s : List Byte} (read : httpDpNum 2 s = some (n, rest)) : n < 100 ∧ s = twoDigits n ++ rest := by
  obtain ⟨m, small, value, rfl⟩ := num_taken read
  rw [zero_mul, zero_add] at value
  rw [value, two_digits small]
  exact ⟨small, rfl⟩

theorem four_read (small : n < 10000) (rest : List Byte) : httpDpNum 4 (fourDigits n ++ rest) = some (n, rest) := by
  rw [four_digits, httpDpNum, num_read, zero_mul, zero_add, @Nat.mod_eq_of_lt n (10 ^ 4) small]

theorem four_read_end (small : n < 10000) : httpDpNum 4 (fourDigits n) = some (n, []) := by
  have read := four_read small []
  rw [append_nil] at read
  exact read

theorem four_taken {s : List Byte} (read : httpDpNum 4 s = some (n, rest)) : n < 10000 ∧ s = fourDigits n ++ rest := by
  obtain ⟨m, small, value, rfl⟩ := num_taken read
  rw [zero_mul, zero_add] at value
  rw [value, four_digits]
  exact ⟨small, rfl⟩

theorem name_read {names : List (List Byte)} {i : Nat} (three : (names.getD i []).length = 3)
    (first : names.findIdx? (· == names.getD i []) = some i) (rest : List Byte) :
    httpDpName3 names (names.getD i [] ++ rest) = some (i, rest) := by
  unfold httpDpName3
  rw [length_append, three, if_neg (by omega), ← three, take_left, first, drop_left]

theorem name_taken {names : List (List Byte)} {i : Nat} {s : List Byte} (read : httpDpName3 names s = some (i, rest)) :
    i < names.length ∧ s = names.getD i [] ++ rest := by
  unfold httpDpName3 at read
  split_ifs at read
  cases found : names.findIdx? (· == s.take 3) with
  | none =>
    rw [found] at read
    cases read
  | some j =>
    rw [found] at read
    cases read
    obtain ⟨inside, same, _⟩ := List.findIdx?_eq_some_iff_getElem.mp found
    have name : names.getD i [] = s.take 3 := by
      rw [getD_eq_getElem _ _ inside]
      exact beq_iff_eq.mp same
    rw [name, take_append_drop]
    exact ⟨inside, rfl⟩

theorem wkday_names : ∀ i < 7, (httpWkday.getD i []).length = 3 ∧ httpWkday.findIdx? (· == httpWkday.getD i []) = some i := by
  decide +kernel

theorem month_names : ∀ i < 12, (httpMonth.getD i []).length = 3 ∧ httpMonth.findIdx? (· == httpMonth.getD i []) = some i := by
  decide +kernel

theorem clock_read {hh mi ss : Nat} (hours : hh < 100) (minutes : mi < 100) (seconds : ss < 100) (rest : List Byte) :
    httpDpTime (clockText hh mi ss ++ rest) = some ((hh, mi, ss), rest) := by
  unfold httpDpTime clockText
  simp only [append_assoc]
  rw [bind_read _ (two_read hours _), bind_read _ (lit_read _ _), bind_read _ (two_read minutes _), bind_read _ (lit_read _ _),
    bind_read _ (two_read seconds _)]
  rfl

theorem clock_taken {time : Nat × Nat × Nat} {s : List Byte} (read : httpDpTime s = some (time, rest)) :
    s = clockText time.1 time.2.1 time.2.2 ++ rest := by
  unfold httpDpTime at read
  obtain ⟨hh, s₁, hours, read⟩ := bind_taken read
  obtain ⟨_, s₂, colon, read⟩ := bind_taken read
  obtain ⟨mi, s₃, minutes, read⟩ := bind_taken read
  obtain ⟨_, s₄, colon', read⟩ := bind_taken read
  obtain ⟨ss, s₅, seconds, read⟩ := bind_taken read
  cases read
  rw [(two_taken hours).2, lit_taken colon, (two_taken minutes).2, lit_taken colon', (two_taken seconds).2]
  unfold clockText
  simp only [append_assoc]

def rfc850Text (wd y m d hh mi ss : Nat) : List Byte :=
  httpWeekday.getD wd [] ++ ascii ", " ++ twoDigits d ++ ascii "-" ++ httpMonth.getD (m - 1) [] ++ ascii "-" ++ twoDigits (y % 100) ++
    ascii " " ++ clockText hh mi ss ++ ascii " GMT"

def asctimeText (wd y m d hh mi ss : Nat) : List Byte :=
  httpWkday.getD wd [] ++ ascii " " ++ httpMonth.getD (m - 1) [] ++ ascii " " ++
    (if d < 10 then ascii " " ++ [digit d] else twoDigits d) ++ ascii " " ++ clockText hh mi ss ++ ascii " " ++ fourDigits y

structure Moment where
  date : CivilDate
  hh : Nat
  mi : Nat
  ss : Nat
  isHour : hh ≤ 23
  isMinute : mi ≤ 59
  isSecond : ss ≤ 60

variable (moment : Moment)

theorem day_small (date : CivilDate) : date.day < 100 := by
  have length : monthDays date.year date.month ≤ 31 := by
    unfold monthDays
    split_ifs <;> omega
  have isDay := date.isDay
  omega

theorem weekday_small (date : CivilDate) : date.weekday < 7 := Nat.mod_lt _ (by decide)

theorem month_read (date : CivilDate) (rest : List Byte) :
    httpDpName3 httpMonth (httpMonth.getD (date.month - 1) [] ++ rest) = some (date.month - 1, rest) := by
  have month := date.isMonth
  obtain ⟨three, first⟩ := month_names (date.month - 1) (by omega)
  exact name_read three first rest

theorem wkday_read (date : CivilDate) (rest : List Byte) :
    httpDpName3 httpWkday (httpWkday.getD date.weekday [] ++ rest) = some (date.weekday, rest) := by
  obtain ⟨three, first⟩ := wkday_names date.weekday (weekday_small date)
  exact name_read three first rest

def Moment.imf : List Byte :=
  imfText moment.date.weekday moment.date.year moment.date.month moment.date.day moment.hh moment.mi moment.ss

def Moment.rfc850 : List Byte :=
  rfc850Text moment.date.weekday moment.date.year moment.date.month moment.date.day moment.hh moment.mi moment.ss

def Moment.asctime : List Byte :=
  asctimeText moment.date.weekday moment.date.year moment.date.month moment.date.day moment.hh moment.mi moment.ss

def Moment.fields (y : Nat) (twoDigitYear : Bool) : Fields :=
  ⟨moment.date.weekday, moment.date.day, moment.date.month, y, (moment.hh, moment.mi, moment.ss), twoDigitYear⟩

variable {moment}

theorem clock_small : moment.hh < 100 ∧ moment.mi < 100 ∧ moment.ss < 100 := by
  have hours := moment.isHour
  have minutes := moment.isMinute
  have seconds := moment.isSecond
  omega

theorem month_back : moment.date.month - 1 + 1 = moment.date.month := Nat.sub_add_cancel moment.date.isMonth.1

theorem imf_fields (years : moment.date.year < 10000) : readImf moment.imf = some (moment.fields moment.date.year false, []) := by
  obtain ⟨hours, minutes, seconds⟩ := @clock_small moment
  unfold readImf Moment.imf imfText
  simp only [append_assoc]
  rw [bind_read _ (wkday_read _ _), bind_read _ (lit_read _ _), bind_read _ (two_read (day_small _) _), bind_read _ (lit_read _ _),
    bind_read _ (month_read _ _), bind_read _ (lit_read _ _), bind_read _ (four_read years _), bind_read _ (lit_read _ _),
    bind_read _ (clock_read hours minutes seconds _)]
  rw [bind_read _ (lit_read_end _), month_back]
  rfl

theorem rfc850_fields : readRfc850 moment.date.weekday (moment.rfc850.drop (httpWeekday.getD moment.date.weekday []).length) =
    some (moment.fields (moment.date.year % 100) true, []) := by
  obtain ⟨hours, minutes, seconds⟩ := @clock_small moment
  have century : moment.date.year % 100 < 100 := Nat.mod_lt _ (by decide)
  unfold readRfc850 Moment.rfc850 rfc850Text
  simp only [append_assoc]
  rw [drop_left, bind_read _ (lit_read _ _), bind_read _ (two_read (day_small _) _), bind_read _ (lit_read _ _),
    bind_read _ (month_read _ _), bind_read _ (lit_read _ _), bind_read _ (two_read century _), bind_read _ (lit_read _ _),
    bind_read _ (clock_read hours minutes seconds _)]
  rw [bind_read _ (lit_read_end _), month_back]
  rfl

theorem day_read {d : Nat} (small : d < 100) (rest : List Byte) :
    dpDay ((if d < 10 then ascii " " ++ [digit d] else twoDigits d) ++ rest) = some (d, rest) := by
  by_cases one : d < 10
  · have shape : ascii " " ++ [digit d] ++ rest = 32 :: (padded 1 d ++ rest) := by
      rw [padded, padded, pow_zero, Nat.div_one, Nat.mod_eq_of_lt one]
      rfl
    rw [if_pos one, shape, dpDay, if_pos rfl, httpDpNum, num_read, zero_mul, zero_add, @Nat.mod_eq_of_lt d (10 ^ 1) one]
  have shape : twoDigits d ++ rest = digit (d / 10) :: (digit (d % 10) :: rest) := rfl
  have other : digit (d / 10) ≠ 32 := by
    intro same
    have value := digit_val (show d / 10 < 10 by omega)
    rw [same] at value
    have spaceValue : (32 : Byte).val = 32 := rfl
    omega
  rw [if_neg one]
  unfold dpDay
  rw [shape]
  dsimp only
  rw [if_neg other, ← shape]
  exact two_read small rest

theorem asctime_fields (years : moment.date.year < 10000) :
    readAsctime moment.asctime = some (moment.fields moment.date.year false, []) := by
  obtain ⟨hours, minutes, seconds⟩ := @clock_small moment
  unfold readAsctime Moment.asctime asctimeText
  simp only [append_assoc]
  rw [bind_read _ (wkday_read _ _), bind_read _ (lit_read _ _), bind_read _ (month_read _ _), bind_read _ (lit_read _ _),
    bind_read _ (day_read (day_small _) _), bind_read _ (lit_read _ _),
    bind_read _ (clock_read hours minutes seconds _), bind_read _ (lit_read _ _)]
  rw [bind_read _ (four_read_end years), month_back]
  rfl

theorem imf_taken {text : List Byte} {fields : Fields} (read : readImf text = some (fields, [])) :
    fields.twoDigitYear = false ∧
      text = imfText fields.wd fields.y fields.m fields.d fields.time.1 fields.time.2.1 fields.time.2.2 := by
  unfold readImf at read
  obtain ⟨wd, s₁, wkday, read⟩ := bind_taken read
  obtain ⟨_, s₂, comma, read⟩ := bind_taken read
  obtain ⟨d, s₃, day, read⟩ := bind_taken read
  obtain ⟨_, s₄, blank, read⟩ := bind_taken read
  obtain ⟨m, s₅, month, read⟩ := bind_taken read
  obtain ⟨_, s₆, blank', read⟩ := bind_taken read
  obtain ⟨y, s₇, year, read⟩ := bind_taken read
  obtain ⟨_, s₈, blank'', read⟩ := bind_taken read
  obtain ⟨time, s₉, clock, read⟩ := bind_taken read
  obtain ⟨_, s₁₀, zone, read⟩ := bind_taken read
  cases read
  refine ⟨rfl, ?_⟩
  rw [(name_taken wkday).2, lit_taken comma, (two_taken day).2, lit_taken blank, (name_taken month).2, lit_taken blank',
    (four_taken year).2, lit_taken blank'', clock_taken clock, lit_taken zone]
  unfold imfText
  simp only [append_assoc, append_nil, Nat.add_sub_cancel]

def inName (c : Byte) : Bool := c != 44 && c != 32

theorem name_apart {name : List Byte} {c : Byte} (inside : ∀ d ∈ name, inName d = true) (stop : inName c = false) :
    (name ++ c :: rest).takeWhile inName = name := by
  rw [takeWhile_append_of_pos inside, takeWhile_cons_of_neg (by rw [stop]; exact Bool.false_ne_true), append_nil]

theorem wkday_bytes : ∀ i < 7, ∀ d ∈ httpWkday.getD i [], inName d = true := by decide +kernel

theorem weekday_bytes : ∀ i < 7, ∀ d ∈ httpWeekday.getD i [], inName d = true := by decide +kernel

theorem weekday_lengths : ∀ i < 7, 6 ≤ (httpWeekday.getD i []).length := by decide +kernel

theorem weekday_named : ∀ i < 7, weekdayNamed (httpWeekday.getD i []) = some i := by decide +kernel

theorem imf_form (years : moment.date.year < 10000) : readForm moment.imf = some (moment.fields moment.date.year false, []) := by
  have small := weekday_small moment.date
  have three := (wkday_names _ small).1
  obtain ⟨rest, shape⟩ : ∃ rest, moment.imf = httpWkday.getD moment.date.weekday [] ++ 44 :: rest := by
    unfold Moment.imf imfText
    simp only [append_assoc]
    exact ⟨_, rfl⟩
  have name : moment.imf.takeWhile inName = httpWkday.getD moment.date.weekday [] := by
    rw [shape]
    exact name_apart (wkday_bytes _ small) rfl
  have left : moment.imf.drop (httpWkday.getD moment.date.weekday []).length = 44 :: rest := by
    rw [shape, drop_left]
  unfold readForm
  rw [show (fun c : Byte => c != 44 && c != 32) = inName from rfl, name]
  dsimp only
  rw [left]
  dsimp only
  rw [if_pos ⟨rfl, three⟩]
  exact imf_fields years

theorem rfc850_form : readForm moment.rfc850 = some (moment.fields (moment.date.year % 100) true, []) := by
  have small := weekday_small moment.date
  have longer := weekday_lengths _ small
  obtain ⟨rest, shape⟩ : ∃ rest, moment.rfc850 = httpWeekday.getD moment.date.weekday [] ++ 44 :: rest := by
    unfold Moment.rfc850 rfc850Text
    simp only [append_assoc]
    exact ⟨_, rfl⟩
  have name : moment.rfc850.takeWhile inName = httpWeekday.getD moment.date.weekday [] := by
    rw [shape]
    exact name_apart (weekday_bytes _ small) rfl
  have left : moment.rfc850.drop (httpWeekday.getD moment.date.weekday []).length = 44 :: rest := by
    rw [shape, drop_left]
  have fields := @rfc850_fields moment
  rw [left] at fields
  unfold readForm
  rw [show (fun c : Byte => c != 44 && c != 32) = inName from rfl, name]
  dsimp only
  rw [left]
  dsimp only
  rw [if_neg (by omega), if_pos rfl, weekday_named _ small]
  exact fields

theorem asctime_form (years : moment.date.year < 10000) :
    readForm moment.asctime = some (moment.fields moment.date.year false, []) := by
  have small := weekday_small moment.date
  obtain ⟨rest, shape⟩ : ∃ rest, moment.asctime = httpWkday.getD moment.date.weekday [] ++ 32 :: rest := by
    unfold Moment.asctime asctimeText
    simp only [append_assoc]
    exact ⟨_, rfl⟩
  have name : moment.asctime.takeWhile inName = httpWkday.getD moment.date.weekday [] := by
    rw [shape]
    exact name_apart (wkday_bytes _ small) rfl
  have left : moment.asctime.drop (httpWkday.getD moment.date.weekday []).length = 32 :: rest := by
    rw [shape, drop_left]
  have other : ¬ (32 : Byte) = 44 := by decide
  unfold readForm
  rw [show (fun c : Byte => c != 44 && c != 32) = inName from rfl, name]
  dsimp only
  rw [left]
  dsimp only
  rw [if_neg fun both => other both.1, if_neg other]
  exact asctime_fields years

theorem name_found (name : List Byte) (places : List Nat) (found : Option Nat) {wd : Nat}
    (last : places.foldl (fun found i => if httpWeekday.getD i [] = name then some i else found) found = some wd) :
    found = some wd ∨ ∃ i ∈ places, httpWeekday.getD i [] = name := by
  induction places generalizing found with
  | nil => exact Or.inl last
  | cons i places ih =>
    rcases ih _ last with here | ⟨j, among, same⟩
    · dsimp only at here
      split_ifs at here with same
      · exact Or.inr ⟨i, mem_cons_self .., same⟩
      · exact Or.inl here
    · exact Or.inr ⟨j, mem_cons_of_mem _ among, same⟩

theorem named_long {name : List Byte} {wd : Nat} (named : weekdayNamed name = some wd) : 6 ≤ name.length := by
  unfold weekdayNamed at named
  rcases name_found name _ none named with wrong | ⟨i, among, rfl⟩
  · cases wrong
  · exact weekday_lengths i (mem_range.mp among)

theorem asctime_blank {text : List Byte} {outcome : Fields × List Byte} (read : readAsctime text = some outcome) :
    text[3]? = some 32 := by
  unfold readAsctime at read
  obtain ⟨wd, s₁, wkday, read⟩ := bind_taken read
  obtain ⟨_, s₂, blank, _⟩ := bind_taken read
  obtain ⟨inside, rfl⟩ := name_taken wkday
  have three := (wkday_names wd inside).1
  rw [lit_taken blank, List.getElem?_append_right (by omega), three]
  rfl

theorem read_imf {text : List Byte} {fields : Fields} (comma : text[3]? = some 44) (read : readForm text = some (fields, [])) :
    readImf text = some (fields, []) := by
  have whole : text = text.takeWhile inName ++ text.drop (text.takeWhile inName).length := by
    have front : text.take (text.takeWhile inName).length = text.takeWhile inName :=
      (prefix_iff_eq_take.mp (List.takeWhile_prefix inName)).symm
    rw [← front, length_take, min_eq_left (List.takeWhile_prefix inName).length_le, take_append_drop]
  have inside : ∀ d ∈ text.takeWhile inName, inName d = true := fun _ among => mem_takeWhile_imp among
  unfold readForm at read
  rw [show (fun c : Byte => c != 44 && c != 32) = inName from rfl] at read
  dsimp only at read
  generalize text.takeWhile inName = name at *
  cases left : text.drop name.length with
  | nil =>
    rw [left] at read
    cases read
  | cons c rest =>
    rw [left] at read whole
    dsimp only at read
    by_cases isImf : c = 44 ∧ name.length = 3
    · rw [if_pos isImf] at read
      exact read
    rw [if_neg isImf] at read
    by_cases isComma : c = 44
    · rw [if_pos isComma] at read
      cases named : weekdayNamed name with
      | none =>
        rw [named] at read
        cases read
      | some wd =>
        -- the fourth byte is one of the name, which has no comma
        have longer := named_long named
        rw [whole, List.getElem?_append_left (by omega)] at comma
        exact absurd (inside _ (mem_of_getElem? comma)) (by decide)
    rw [if_neg isComma] at read
    have blank := asctime_blank read
    rw [comma] at blank
    exact absurd (Option.some.inj blank) (by decide)

end ProvenC.Http.DateForms
