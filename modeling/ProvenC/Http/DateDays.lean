import ProvenC.Http.Dates

/-!
# The arithmetic of days

Counting the years from March puts the leap day last; what is left of a day after its era, its year, its
month is found by divisions.
-/

namespace ProvenC.Http.DateDays

open Bytes Lib.Calendar Http.Dates

def epoch : Nat := 719162

theorem epoch_year : yearStart 1970 = epoch := by
  rw [year_start]
  decide

structure FromMarch (date : CivilDate) (year day : Nat) : Prop where
  year : year = date.year - if date.month ≤ 2 then 1 else 0
  day : day = (153 * (if 2 < date.month then date.month - 3 else date.month + 9) + 2) / 5 + date.day - 1

theorem month_days (date : CivilDate) : httpDaysInMonth date.year date.month = monthDays date.year date.month := by
  have month := date.isMonth
  have each : ∀ m < 13, m ≠ 2 → [31, 28, 31, 30, 31, 30, 31, 31, 30, 31, 30, 31].getD (m - 1) 0 =
      (if m = 0 then 31 else if m = 4 ∨ m = 6 ∨ m = 9 ∨ m = 11 then 30 else 31) := by decide
  unfold httpDaysInMonth monthDays
  by_cases february : date.month = 2
  · rw [if_pos february, february]
    by_cases leap : IsLeap date.year
    · rw [if_pos leap, if_pos ⟨rfl, decide_eq_true leap⟩]
    rw [if_neg leap, if_neg fun both => leap (of_decide_eq_true both.2)]
    rfl
  · rw [if_neg february, if_neg fun both => february both.1, each _ (by omega) february, if_neg (by omega)]

def marchStart (year : Nat) : Nat := 365 * year + year / 4 - year / 100 + year / 400

theorem year_march (y : Nat) (isYear : 1 ≤ y) :
    yearStart y + 306 + 59 + leapDay y = marchStart y ∧ yearStart y = marchStart (y - 1) := by
  obtain ⟨years, rfl⟩ := Nat.exists_eq_add_of_le' isYear
  have leapDays := leap_day_quotients years
  have fours : years / 4 ≤ (years + 1) / 4 := Nat.div_le_div_right (Nat.le_succ years)
  have hundreds : years / 100 ≤ (years + 1) / 100 := Nat.div_le_div_right (Nat.le_succ years)
  have fourHundreds : years / 400 ≤ (years + 1) / 400 := Nat.div_le_div_right (Nat.le_succ years)
  have before : years / 100 ≤ years / 4 := Nat.div_le_div_left (by decide) (by decide)
  have after : (years + 1) / 100 - years / 100 ≤ (years + 1) / 4 - years / 4 := by omega
  rw [year_start, Nat.add_sub_cancel, marchStart, marchStart]
  refine ⟨?_, rfl⟩
  generalize years / 4 = a at *
  generalize years / 100 = b at *
  generalize years / 400 = c at *
  generalize (years + 1) / 4 = a' at *
  generalize (years + 1) / 100 = b' at *
  generalize (years + 1) / 400 = c' at *
  omega

theorem month_from_march (y m : Nat) (low : 3 ≤ m) (high : m ≤ 12) :
    monthStart y m = 59 + leapDay y + (153 * (m - 3) + 2) / 5 := by
  obtain ⟨_, _, s3, s4, s5, s6, s7, s8, s9, s10, s11, s12, _⟩ := month_start y
  have each : m = 3 ∨ m = 4 ∨ m = 5 ∨ m = 6 ∨ m = 7 ∨ m = 8 ∨ m = 9 ∨ m = 10 ∨ m = 11 ∨ m = 12 := by omega
  rcases each with rfl | rfl | rfl | rfl | rfl | rfl | rfl | rfl | rfl | rfl
  · exact s3
  · rw [s4]; omega
  · rw [s5]; omega
  · rw [s6]; omega
  · rw [s7]; omega
  · rw [s8]; omega
  · rw [s9]; omega
  · rw [s10]; omega
  · rw [s11]; omega
  · rw [s12]; omega

variable {day : Nat}

theorem from_march (date : CivilDate) {year : Nat} (counted : FromMarch date year day) :
    date.number + 306 = marchStart year + day ∧ day ≤ 365 ∧ (day = 365 → IsLeap (year + 1)) := by
  obtain ⟨yearFact, dayFact⟩ := counted
  obtain ⟨y, m, d, isYear, isMonth, isDay⟩ := date
  obtain ⟨march, january⟩ := year_march y isYear
  obtain ⟨s1, s2, s3, s4, s5, s6, s7, s8, s9, s10, s11, s12, _⟩ := month_start y
  obtain ⟨low, high⟩ := isMonth
  unfold CivilDate.number
  dsimp only at *
  by_cases winter : m ≤ 2
  · rw [if_pos winter] at yearFact
    rw [if_neg (by omega)] at dayFact
    rw [← yearFact] at january
    have next : year + 1 = y := by omega
    by_cases february : m = 2
    · subst february
      have length : monthDays y 2 = if IsLeap y then 29 else 28 := rfl
      rw [length] at isDay
      rw [s2, january, next]
      split_ifs at isDay with leap
      · exact ⟨by omega, by omega, fun _ => leap⟩
      · exact ⟨by omega, by omega, fun _ => by omega⟩
    have january_ : m = 1 := by omega
    subst january_
    have length : monthDays y 1 = 31 := rfl
    rw [s1, january]
    exact ⟨by omega, by omega, fun _ => by omega⟩
  rw [if_neg winter] at yearFact
  rw [if_pos (by omega)] at dayFact
  have same : year = y := yearFact
  subst same
  have length : monthDays year m ≤ 31 := by
    unfold monthDays
    split_ifs <;> omega
  rw [← march]
  rw [month_from_march year m (by omega) high]
  exact ⟨by omega, by omega, fun _ => by omega⟩

theorem days_from_civil (date : CivilDate) (later : 1970 ≤ date.year) :
    httpDaysFromCivil date.year date.month date.day + epoch = date.number := by
  obtain ⟨number, _, _⟩ := from_march date ⟨rfl, rfl⟩
  have inYear := (day_in_year date).1
  have start : epoch ≤ yearStart date.year := epoch_year ▸ begins_mono yearDays 1 later
  unfold httpDaysFromCivil
  unfold marchStart at number
  unfold epoch at *
  dsimp only
  generalize (153 * (if 2 < date.month then date.month - 3 else date.month + 9) + 2) / 5 + date.day - 1 = day at *
  generalize (date.year - if date.month ≤ 2 then 1 else 0) = year at *
  omega

theorem early_leap {c q y : Nat} (cSmall : c < 4) (qSmall : q < 25) (ySmall : y < 4) (inYear : day ≤ 365)
    (last : day = 365 → y = 3) :
    (24 * c + q + 365 * y + day) / 1460 ≤ day ∧ day ≤ 364 + (24 * c + q + 365 * y + day) / 1460 := by
  by_cases isLast : day = 365
  · have third := last isLast
    omega
  by_cases first : day = 0
  · omega
  · omega

theorem last_of_era {c q y : Nat} (cSmall : c < 4) (qSmall : q < 25) (ySmall : y < 4) (inYear : day ≤ 365)
    (last : day = 365 → y = 3 ∧ (q < 24 ∨ c = 3)) :
    (1461 * q + 365 * y + day) / 36524 = (36524 * c + 1461 * q + 365 * y + day) / 146096 := by
  by_cases whole : q = 24 ∧ y = 3 ∧ day = 365
  · have lastCentury := (last whole.2.2).2
    obtain ⟨rfl, rfl, rfl⟩ := whole
    have third : c = 3 := by omega
    rw [third]
  have inside : 1461 * q + 365 * y + day < 36524 := by omega
  rw [Nat.div_eq_of_lt inside, Nat.div_eq_of_lt (by omega)]

theorem year_parts {yoe : Nat} (inEra : yoe < 400) : ∃ c q y, yoe = 100 * c + 4 * q + y ∧ c < 4 ∧ q < 25 ∧ y < 4 :=
  ⟨yoe / 100, yoe % 100 / 4, yoe % 4, by omega, by omega, by omega, by omega⟩

theorem year_of_era {yoe day : Nat} (inEra : yoe < 400) (inYear : day ≤ 365) (leap : day = 365 → IsLeap (yoe + 1)) {doe : Nat}
    (counted : doe = yoe * 365 + yoe / 4 - yoe / 100 + day) :
    doe < 146097 ∧ (doe - doe / 1460 + doe / 36524 - doe / 146096) / 365 = yoe := by
  obtain ⟨c, q, y, shape, cSmall, qSmall, ySmall⟩ := year_parts inEra
  have last : day = 365 → y = 3 ∧ (q < 24 ∨ c = 3) := by
    intro isLast
    have isLeap := leap isLast
    unfold IsLeap at isLeap
    omega
  have fours : yoe / 4 = 25 * c + q := by
    clear leap last counted
    omega
  have hundreds : yoe / 100 = c := by
    clear leap last counted
    omega
  rw [fours, hundreds] at counted
  have days : doe = 36524 * c + 1461 * q + 365 * y + day := by
    clear leap last fours hundreds
    omega
  clear leap counted fours hundreds
  have small : doe < 146097 := by omega
  have fourYears : doe = 24 * c + q + 365 * y + day + 1460 * (25 * c + q) := by omega
  have century : doe = 1461 * q + 365 * y + day + 36524 * c := by omega
  have byFour : doe / 1460 = 25 * c + q + (24 * c + q + 365 * y + day) / 1460 := by
    rw [fourYears, Nat.add_mul_div_left _ _ (by decide), add_comm]
  have byHundred : doe / 36524 = c + (1461 * q + 365 * y + day) / 36524 := by
    rw [century, Nat.add_mul_div_left _ _ (by decide), add_comm]
  obtain ⟨enough, within⟩ := early_leap cSmall qSmall ySmall inYear fun isLast => (last isLast).1
  have byEra := last_of_era cSmall qSmall ySmall inYear last
  rw [← days] at byEra
  rw [byFour, byHundred, byEra]
  generalize (24 * c + q + 365 * y + day) / 1460 = early at *
  generalize doe / 146096 = eras at *
  clear byEra byFour byHundred fourYears century last
  have sum : doe - (25 * c + q + early) + (c + eras) - eras = day - early + 365 * yoe := by omega
  refine ⟨small, ?_⟩
  rw [sum, Nat.add_mul_div_left _ _ (by decide), Nat.div_eq_of_lt (by omega), zero_add]

def marchMonth (m : Nat) : Nat := if 2 < m then m - 3 else m + 9

theorem month_length (y m : Nat) (low : 1 ≤ m) (high : m ≤ 12) :
    (153 * marchMonth m + 2) / 5 + monthDays y m ≤ (153 * (marchMonth m + 1) + 2) / 5 := by
  have february : monthDays y 2 ≤ 29 := by
    unfold monthDays
    rw [if_pos rfl]
    split_ifs
    · exact le_refl 29
    · exact Nat.le_succ 28
  have other : ∀ k < 13, k ≠ 2 → k ≠ 0 → (153 * marchMonth k + 2) / 5 +
      (if k = 4 ∨ k = 6 ∨ k = 9 ∨ k = 11 then 30 else 31) ≤ (153 * (marchMonth k + 1) + 2) / 5 := by decide
  by_cases isFebruary : m = 2
  · subst isFebruary
    exact (Nat.add_le_add_left february _).trans (by decide)
  unfold monthDays
  rw [if_neg isFebruary]
  exact other m (by omega) isFebruary (by omega)

theorem month_of_day {y m d : Nat} (low : 1 ≤ m) (high : m ≤ 12) (isDay : 1 ≤ d ∧ d ≤ monthDays y m)
    (counted : day = (153 * marchMonth m + 2) / 5 + d - 1) :
    (5 * day + 2) / 153 = marchMonth m ∧ day - (153 * marchMonth m + 2) / 5 + 1 = d := by
  have length := month_length y m low high
  generalize marchMonth m = month at *
  exact ⟨by omega, by omega⟩

theorem march_month (m : Nat) (low : 1 ≤ m) (high : m ≤ 12) :
    (if marchMonth m < 10 then marchMonth m + 3 else marchMonth m - 9) = m := by
  unfold marchMonth
  split_ifs <;> omega

/-- The year, the month and the day of the `n`th day from the first of March of the year 0. -/
def civilOf (n : Nat) : Nat × Nat × Nat :=
  let era := n / 146097
  let doe := n - era * 146097
  let yoe := (doe - doe / 1460 + doe / 36524 - doe / 146096) / 365
  let doy := doe - (365 * yoe + yoe / 4 - yoe / 100)
  let mp := (5 * doy + 2) / 153
  let m := if mp < 10 then mp + 3 else mp - 9
  (yoe + era * 400 + if m ≤ 2 then 1 else 0, m, doy - (153 * mp + 2) / 5 + 1)

theorem civil_parts (date : CivilDate) {n : Nat} (counted : date.number + 306 = n) :
    ∃ year day, FromMarch date year day ∧ day ≤ 365 ∧ n / 146097 = year / 400 ∧
      n - n / 146097 * 146097 = year % 400 * 365 + year % 400 / 4 - year % 400 / 100 + day ∧
      ∀ doe, doe = year % 400 * 365 + year % 400 / 4 - year % 400 / 100 + day →
        (doe - doe / 1460 + doe / 36524 - doe / 146096) / 365 = year % 400 := by
  obtain ⟨day, dayFact⟩ : ∃ day, day = (153 * (if 2 < date.month then date.month - 3 else date.month + 9) + 2) / 5 + date.day - 1 :=
    ⟨_, rfl⟩
  obtain ⟨year, yearFact⟩ : ∃ year, year = date.year - if date.month ≤ 2 then 1 else 0 := ⟨_, rfl⟩
  obtain ⟨number, inYear, leap⟩ := from_march date ⟨yearFact, dayFact⟩
  have yearOfEra (doe : Nat) := @year_of_era (year % 400) day (Nat.mod_lt _ (by decide)) inYear
    (fun isLast => by
      have isLeap := leap isLast
      unfold IsLeap at isLeap ⊢
      omega) doe
  have inEra := (yearOfEra _ rfl).1
  have quarters : year / 4 = 100 * (year / 400) + year % 400 / 4 := by omega
  have centuries : year / 100 = 4 * (year / 400) + year % 400 / 100 := by omega
  have days : n = year / 400 * 146097 + (year % 400 * 365 + year % 400 / 4 - year % 400 / 100 + day) := by
    unfold marchStart at number
    omega
  exact ⟨year, day, ⟨yearFact, dayFact⟩, inYear, by omega, by omega, fun doe isDoe => (yearOfEra doe isDoe).2⟩

theorem civil_of (date : CivilDate) {n : Nat} (counted : date.number + 306 = n) : civilOf n = (date.year, date.month, date.day) := by
  obtain ⟨year, day, ⟨yearFact, dayFact⟩, _, era, doe, yoe⟩ := civil_parts date counted
  have doy : year % 400 * 365 + year % 400 / 4 - year % 400 / 100 + day -
      (365 * (year % 400) + year % 400 / 4 - year % 400 / 100) = day := by omega
  have whole : year % 400 + year / 400 * 400 = year := Nat.mod_add_div' year 400
  obtain ⟨low, high⟩ := date.isMonth
  have isYear := date.isYear
  obtain ⟨month, dayOfMonth⟩ := month_of_day low high date.isDay dayFact
  unfold civilOf
  dsimp only
  rw [doe, yoe _ rfl, era, doy, whole, month, march_month _ low high, dayOfMonth]
  have back : (year + if date.month ≤ 2 then 1 else 0) = date.year := by
    split_ifs at yearFact ⊢ <;> omega
  rw [back]

theorem civil_from_days (date : CivilDate) {z : Nat} (counted : date.number = z + epoch) :
    httpCivilFromDays z = (date.year, date.month, date.day) :=
  civil_of date (show date.number + 306 = z + 719468 by unfold epoch at counted; omega)

end ProvenC.Http.DateDays
