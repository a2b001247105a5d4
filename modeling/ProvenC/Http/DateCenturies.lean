import ProvenC.Http.DateForms

/-!
# Dates there and back

A time is written in the first form and read back to its second from each of the three; what is read in
the first form was written from the date and time it says.
-/

namespace ProvenC.Http.DateCenturies

open Bytes Lib.Calendar Http.Dates Http.DateDays Http.DateForms

def second (moment : Moment) : Nat :=
  (moment.date.number - epoch) * 86400 + moment.hh * 3600 + moment.mi * 60 + moment.ss

structure Accepted (text : List Byte) (now : Int) (moment : Moment) (y : Nat) (twoDigitYear : Bool) : Prop where
  read : readForm text = some (moment.fields y twoDigitYear, [])
  year : (if twoDigitYear then fullYear now y else y) = moment.date.year
  range : 1970 ≤ moment.date.year ∧ moment.date.year ≤ 9999
  fits : second moment ≤ maxEpochSec

theorem weekday_of_days (date : CivilDate) (later : 1970 ≤ date.year) :
    (httpDaysFromCivil date.year date.month date.day + 4) % 7 = date.weekday := by
  have days := days_from_civil date later
  unfold CivilDate.weekday
  unfold epoch at days
  omega

theorem days_of_date (date : CivilDate) (later : 1970 ≤ date.year) :
    httpDaysFromCivil date.year date.month date.day = date.number - epoch := by
  have days := days_from_civil date later
  omega

variable {text : List Byte} {now : Int} {moment : Moment} {y : Nat} {twoDigitYear : Bool}

theorem accepted_parse (accepted : Accepted text now moment y twoDigitYear) :
    httpDateParse text now = .ok (second moment * nsPerSec : Nat) := by
  obtain ⟨read, year, range, fits⟩ := accepted
  have month := moment.date.isMonth
  have isDay := moment.date.isDay
  have hours := moment.isHour
  have minutes := moment.isMinute
  have seconds := moment.isSecond
  have length := month_days moment.date
  unfold httpDateParse
  rw [read]
  dsimp only [Moment.fields]
  rw [if_neg (not_not_intro rfl), year, length, if_neg (by omega), if_neg (by omega), weekday_of_days _ range.1,
    if_neg (not_not_intro rfl), days_of_date _ range.1]
  unfold second at fits
  rw [if_neg (by omega)]
  rfl

theorem parse_accepted {value : Int} (parsed : httpDateParse text now = .ok value) :
    ∃ moment y twoDigitYear, Accepted text now moment y twoDigitYear ∧ value = (second moment * nsPerSec : Nat) := by
  unfold httpDateParse at parsed
  cases read : readForm text with
  | none =>
    rw [read] at parsed
    cases parsed
  | some outcome =>
    obtain ⟨⟨wd, d, m, y, ⟨hh, mi, ss⟩, twoDigitYear⟩, left⟩ := outcome
    rw [read] at parsed
    dsimp only at parsed
    obtain ⟨year, yearFact⟩ : ∃ year, (if twoDigitYear = true then fullYear now y else y) = year := ⟨_, rfl⟩
    rw [yearFact] at parsed
    split_ifs at parsed with whole dated timed named large
    simp only [not_or, not_lt] at dated timed
    have months : httpDaysInMonth year m = monthDays year m :=
      month_days ⟨year, m, 1, by omega, by omega, by unfold monthDays; split_ifs <;> omega⟩
    obtain ⟨date, shape⟩ : ∃ date : CivilDate, date.year = year ∧ date.month = m ∧ date.day = d :=
      ⟨⟨year, m, d, by omega, by omega, by omega⟩, rfl, rfl, rfl⟩
    obtain ⟨isYear, isMonth, isDay⟩ := shape
    have weekday := weekday_of_days date (by omega)
    have days := days_of_date date (by omega)
    rw [isYear, isMonth, isDay] at weekday days
    rw [not_not, weekday] at named
    rw [days] at parsed large
    cases parsed
    refine ⟨⟨date, hh, mi, ss, by omega, by omega, by omega⟩, y, twoDigitYear, ⟨?_, ?_, ?_, ?_⟩, rfl⟩
    · rw [read, not_not.mp whole]
      unfold Moment.fields
      rw [isMonth, isDay, named]
    · rw [isYear]
      exact yearFact
    · rw [isYear]
      exact ⟨dated.1, dated.2.1⟩
    unfold second
    exact Nat.le_of_not_lt large

theorem format_moment {wall : Int} (moment : Moment) (later : epoch ≤ moment.date.number) (plain : moment.ss < 60)
    (inSecond : wall / nsPerSec = second moment) : httpDateFormat wall = .ok moment.imf := by
  have hours := moment.isHour
  have minutes := moment.isMinute
  have positive : 0 ≤ wall := by
    by_contra negative
    have floor : wall / nsPerSec < 0 := Int.ediv_neg_of_neg_of_pos (by omega) (by decide)
    omega
  have seconds : wall.toNat / nsPerSec = second moment := by
    unfold nsPerSec at inSecond ⊢
    omega
  have days : second moment / 86400 = moment.date.number - epoch := by
    unfold second
    omega
  have inDay : second moment % 86400 = moment.hh * 3600 + moment.mi * 60 + moment.ss := by
    unfold second
    omega
  have civil := civil_from_days moment.date (show moment.date.number = moment.date.number - epoch + epoch by omega)
  have weekday : (moment.date.number - epoch + 4) % 7 = moment.date.weekday := by
    unfold CivilDate.weekday
    unfold epoch at later ⊢
    omega
  unfold httpDateFormat
  rw [if_neg (by omega), seconds]
  dsimp only
  rw [days, inDay, civil]
  dsimp only
  rw [weekday, show (moment.hh * 3600 + moment.mi * 60 + moment.ss) / 3600 = moment.hh by omega,
    show (moment.hh * 3600 + moment.mi * 60 + moment.ss) / 60 % 60 = moment.mi by omega,
    show (moment.hh * 3600 + moment.mi * 60 + moment.ss) % 60 = moment.ss by omega]
  rfl

def IsDate (wall : Int) (date : CivilDate) : Prop := (date.number : Int) = epoch + wall / nsPerSec / 86400

def YearOf (now : Int) (year : Nat) : Prop :=
  (yearStart year : Int) ≤ epoch + now / nsPerSec / 86400 ∧ epoch + now / nsPerSec / 86400 < (yearStart (year + 1) : Int)

theorem year_of_past {year : Nat} (yearOf : YearOf now year) (past : now < 0) : year ≤ 1969 := by
  by_contra later
  have starts : yearStart 1970 ≤ yearStart year := begins_mono yearDays 1 (by omega)
  have floor : now / nsPerSec / 86400 < 0 :=
    Int.ediv_neg_of_neg_of_pos (Int.ediv_neg_of_neg_of_pos past (by decide)) (by decide)
  rw [epoch_year] at starts
  have below := yearOf.1
  omega

theorem year_of_present {year : Nat} (yearOf : YearOf now year) (present : ¬ now < 0) :
    (httpCivilFromDays (now.toNat / nsPerSec / 86400)).1 = year := by
  obtain ⟨date, number⟩ := date_of_day (now.toNat / nsPerSec / 86400 + epoch)
  obtain ⟨below, above⟩ := day_in_year date
  have days : now / nsPerSec / 86400 = (now.toNat / nsPerSec / 86400 : Nat) := by
    rw [Int.natCast_ediv, Int.natCast_ediv, Int.toNat_of_nonneg (by omega)]
    rfl
  obtain ⟨yearBelow, yearAbove⟩ := yearOf
  rw [days] at yearBelow yearAbove
  rw [civil_from_days date number]
  exact step_unique yearDays 1 below above (show yearStart year ≤ date.number by omega) (show date.number < yearStart (year + 1) by omega)

theorem full_year {year y : Nat} (yearOf : YearOf now year) (later : 1970 ≤ y) (notAfter : y ≤ year + 49) (notBefore : year ≤ y + 49) :
    fullYear now (y % 100) = y ↔ y / 100 ≤ year / 100 := by
  unfold fullYear
  by_cases past : now < 0
  · have early := year_of_past yearOf past
    have first : (httpCivilFromDays (0 / 86400)).1 = 1970 := by decide +kernel
    rw [if_pos past, first]
    dsimp only
    split_ifs <;> omega
  rw [if_neg past, year_of_present yearOf past]
  dsimp only
  split_ifs <;> omega

def momentOf (wall : Int) (date : CivilDate) : Moment where
  date := date
  hh := (wall / nsPerSec).toNat % 86400 / 3600
  mi := (wall / nsPerSec).toNat / 60 % 60
  ss := (wall / nsPerSec).toNat % 60
  isHour := by omega
  isMinute := by omega
  isSecond := by omega

def wholeSecond (wall : Int) : Int := wall / nsPerSec * nsPerSec

/-- A time written and read back, the other two forms of it read, and a text of the first form that is accepted. -/
structure WellDated (wall now : Int) : Prop where
  imf : ∃ text, httpDateFormat wall = .ok text ∧ httpDateParse text now = .ok (wholeSecond wall)
  asctime : ∀ date, IsDate wall date → httpDateParse (momentOf wall date).asctime now = .ok (wholeSecond wall)
  rfc850 : ∀ date year, IsDate wall date → YearOf now year → date.year ≤ year + 49 → year ≤ date.year + 49 →
    httpDateParse (momentOf wall date).rfc850 now = .ok (wholeSecond wall)
  back : ∀ text value, text[3]? = some 44 → httpDateParse text now = .ok value →
    ∃ moment, text = moment.imf ∧ value = (second moment * nsPerSec : Nat) ∧ (moment.ss < 60 → httpDateFormat value = .ok text)

section Moments

variable {wall : Int} {date : CivilDate}

variable (positive : 0 ≤ wall)
include positive

theorem moment_second (isDate : IsDate wall date) :
    wall / nsPerSec = second (momentOf wall date) ∧ epoch ≤ date.number := by
  have floor : 0 ≤ wall / nsPerSec := Int.ediv_nonneg positive (by decide)
  unfold IsDate at isDate
  unfold second momentOf
  dsimp only
  generalize wall / nsPerSec = sec at *
  omega

theorem moment_fits (word : wall < 2 ^ 63) (isDate : IsDate wall date) :
    second (momentOf wall date) ≤ maxEpochSec ∧ 1970 ≤ date.year ∧ date.year ≤ 9999 := by
  obtain ⟨same, later⟩ := moment_second positive isDate
  have fits : second (momentOf wall date) ≤ maxEpochSec := by
    unfold nsPerSec at same
    unfold maxEpochSec nsPerSec
    omega
  obtain ⟨below, above⟩ := day_in_year date
  refine ⟨fits, ?_, ?_⟩
  · by_contra early
    have starts : yearStart (date.year + 1) ≤ yearStart 1970 := begins_mono yearDays 1 (by omega)
    rw [epoch_year] at starts
    omega
  by_contra late
  have starts : yearStart 10000 ≤ yearStart date.year := begins_mono yearDays 1 (by omega)
  have far : yearStart 10000 = 3652059 := by
    rw [year_start]
  unfold maxEpochSec nsPerSec second at fits
  have inDate : (momentOf wall date).date = date := rfl
  rw [inDate] at fits
  unfold epoch at fits
  omega

theorem whole_second (isDate : IsDate wall date) :
    ((second (momentOf wall date) * nsPerSec : Nat) : Int) = wholeSecond wall := by
  unfold wholeSecond
  rw [(moment_second positive isDate).1, Nat.cast_mul]

theorem date_there : ∃ date, IsDate wall date := by
  obtain ⟨date, number⟩ := date_of_day (epoch + (wall / nsPerSec / 86400).toNat)
  have floor : 0 ≤ wall / nsPerSec / 86400 := Int.ediv_nonneg (Int.ediv_nonneg positive (by decide)) (by decide)
  refine ⟨date, ?_⟩
  unfold IsDate
  omega

theorem asctime_parse (word : wall < 2 ^ 63) (isDate : IsDate wall date) :
    httpDateParse (momentOf wall date).asctime now = .ok (wholeSecond wall) := by
  obtain ⟨fits, from_, until_⟩ := moment_fits positive word isDate
  rw [← whole_second positive isDate]
  exact accepted_parse ⟨asctime_form (Nat.lt_succ_of_le until_), rfl, ⟨from_, until_⟩, fits⟩

theorem imf_parse (word : wall < 2 ^ 63) (isDate : IsDate wall date) :
    httpDateFormat wall = .ok (momentOf wall date).imf ∧ httpDateParse (momentOf wall date).imf now = .ok (wholeSecond wall) := by
  obtain ⟨fits, from_, until_⟩ := moment_fits positive word isDate
  obtain ⟨same, later⟩ := moment_second positive isDate
  constructor
  · exact format_moment _ later (Nat.mod_lt _ (by decide)) same
  rw [← whole_second positive isDate]
  exact accepted_parse ⟨imf_form (Nat.lt_succ_of_le until_), rfl, ⟨from_, until_⟩, fits⟩

omit positive

theorem year_not_before {date : CivilDate} (later : 1970 ≤ date.year) : epoch ≤ date.number := by
  have starts : yearStart 1970 ≤ yearStart date.year := begins_mono yearDays 1 later
  have below := (day_in_year date).1
  rw [epoch_year] at starts
  omega

theorem same_year {moment moment' : Moment} (later : epoch ≤ moment.date.number) (later' : epoch ≤ moment'.date.number)
    (clock : (moment'.hh, moment'.mi, moment'.ss) = (moment.hh, moment.mi, moment.ss)) (seconds : second moment' = second moment) :
    moment.date.year = moment'.date.year := by
  simp only [Prod.mk.injEq] at clock
  obtain ⟨hours, minutes, secs⟩ := clock
  unfold second at seconds
  rw [hours, minutes, secs] at seconds
  have number : moment.date.number = moment'.date.number - epoch + epoch := by omega
  have civil := civil_from_days moment.date number
  have civil' := civil_from_days moment'.date (show moment'.date.number = moment'.date.number - epoch + epoch by omega)
  exact congrArg Prod.fst (civil.symm.trans civil')

theorem rfc850_parse (positive : 0 ≤ wall) (word : wall < 2 ^ 63) (isDate : IsDate wall date) :
    httpDateParse (momentOf wall date).rfc850 now = .ok (wholeSecond wall) ↔ fullYear now (date.year % 100) = date.year := by
  obtain ⟨fits, from_, until_⟩ := moment_fits positive word isDate
  rw [← whole_second positive isDate]
  constructor
  · intro parsed
    obtain ⟨moment, y, twoDigitYear, accepted, same⟩ := parse_accepted parsed
    obtain ⟨read, year, range, _⟩ := accepted
    rw [rfc850_form] at read
    have fields : (momentOf wall date).fields (date.year % 100) true = moment.fields y twoDigitYear :=
      congrArg Prod.fst (Option.some.inj read)
    have clock : ((momentOf wall date).hh, (momentOf wall date).mi, (momentOf wall date).ss) = (moment.hh, moment.mi, moment.ss) :=
      congrArg Fields.time fields
    have seconds : second (momentOf wall date) = second moment :=
      Nat.eq_of_mul_eq_mul_right (by decide) (Int.natCast_inj.mp same)
    rw [← show date.year % 100 = y from congrArg Fields.y fields, ← show true = twoDigitYear from congrArg Fields.twoDigitYear fields,
      if_pos rfl] at year
    rw [year]
    exact same_year (year_not_before range.1) (moment_second positive isDate).2 clock seconds
  intro found
  exact accepted_parse ⟨rfc850_form, (if_pos rfl).trans found, ⟨from_, until_⟩, fits⟩

end Moments

theorem imf_back {text : List Byte} {value : Int} (comma : text[3]? = some 44) (parsed : httpDateParse text now = .ok value) :
    ∃ moment, text = Moment.imf moment ∧ value = (second moment * nsPerSec : Nat) ∧
      (moment.ss < 60 → httpDateFormat value = .ok text) := by
  obtain ⟨moment, y, twoDigitYear, ⟨read, year, range, _⟩, same⟩ := parse_accepted parsed
  obtain ⟨four, shape⟩ := imf_taken (read_imf comma read)
  have notTwo : twoDigitYear = false := four
  subst notTwo
  have years : y = moment.date.year := year
  subst years
  have written : text = moment.imf := shape
  refine ⟨moment, written, same, fun plain => ?_⟩
  have inSecond : value / nsPerSec = second moment := by
    rw [same, Nat.cast_mul]
    exact Int.mul_ediv_cancel _ (by decide)
  rw [written]
  exact format_moment moment (year_not_before range.1) plain inSecond

/-- The form with two digits of the year fails for the years after the end of the reference time's century. -/
theorem date_well_dated (wall now : Int) (positive : 0 ≤ wall) (word : wall < 2 ^ 63) : WellDated wall now ↔
      ∀ date year, IsDate wall date → YearOf now year → date.year ≤ year + 49 → year ≤ date.year + 49 →
        date.year / 100 ≤ year / 100 := by
  constructor
  · intro well date year isDate yearOf notAfter notBefore
    have parsed := well.rfc850 date year isDate yearOf notAfter notBefore
    have later := (moment_fits positive word isDate).2.1
    exact (full_year yearOf later notAfter notBefore).mp ((rfc850_parse positive word isDate).mp parsed)
  intro early
  refine ⟨?_, fun date isDate => asctime_parse positive word isDate, fun date year isDate yearOf notAfter notBefore => ?_,
    fun text value comma parsed => imf_back comma parsed⟩
  · obtain ⟨date, isDate⟩ := date_there positive
    exact ⟨_, imf_parse positive word isDate⟩
  have later := (moment_fits positive word isDate).2.1
  have found := (full_year yearOf later notAfter notBefore).mpr (early date year isDate yearOf notAfter notBefore)
  exact (rfc850_parse positive word isDate).mpr found

theorem date_well_dated_1994 : WellDated 784111777000000000 0 ↔
      ∀ date year, IsDate 784111777000000000 date → YearOf 0 year → date.year ≤ year + 49 → year ≤ date.year + 49 →
        date.year / 100 ≤ year / 100 :=
  date_well_dated 784111777000000000 0 (by decide) (by decide)

def newYear2001 : CivilDate := ⟨2001, 1, 1, by decide, by decide, by decide⟩

theorem new_year_2001 : newYear2001.number = 730485 := by
  unfold CivilDate.number newYear2001
  rw [year_start, (month_start 2001).1]
  rfl

/-- The first of January 2001 out of 1999. -/
theorem next_century_refused : ¬ WellDated 978307200000000000 915148800000000000 := by
  intro well
  have starts : yearStart 1999 = 729754 ∧ yearStart 2000 = 730119 := ⟨by rw [year_start], by rw [year_start]⟩
  have yearOf : YearOf 915148800000000000 1999 := by
    unfold YearOf
    rw [starts.1, starts.2]
    decide
  have isDate : IsDate 978307200000000000 newYear2001 := by
    unfold IsDate
    rw [new_year_2001]
    decide
  have parsed := well.rfc850 newYear2001 1999 isDate yearOf (by decide) (by decide)
  have weekday : newYear2001.weekday = 1 := by
    unfold CivilDate.weekday
    rw [new_year_2001]
  have text : (momentOf 978307200000000000 newYear2001).rfc850 = rfc850Text 1 2001 1 1 0 0 0 := by
    have clock : (momentOf 978307200000000000 newYear2001).hh = 0 ∧ (momentOf 978307200000000000 newYear2001).mi = 0 ∧
        (momentOf 978307200000000000 newYear2001).ss = 0 := ⟨by decide, by decide, by decide⟩
    unfold Moment.rfc850
    rw [clock.1, clock.2.1, clock.2.2, show (momentOf 978307200000000000 newYear2001).date = newYear2001 from rfl, weekday]
    rfl
  have refused : httpDateParse (rfc850Text 1 2001 1 1 0 0 0) 915148800000000000 = .error .invalidFormat := by decide +kernel
  rw [text, refused] at parsed
  cases parsed

end ProvenC.Http.DateCenturies
