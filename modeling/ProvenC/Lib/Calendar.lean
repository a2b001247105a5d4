import Mathlib

/-!
# The Gregorian calendar

Days are counted from the first of January of the year 1, a Monday. A year is as long as its months, a date is one
of the days of its month, and every day has a date.
-/

namespace ProvenC.Lib.Calendar

section Steps

variable (length : Nat → Nat) (start : Nat)

/-- Where step `k` begins, when the steps from `start` on follow one another. -/
def begins (k : Nat) : Nat := ∑ j ∈ Finset.Ico start k, length j

theorem begins_succ {k : Nat} (later : start ≤ k) : begins length start (k + 1) = begins length start k + length k :=
  Finset.sum_Ico_succ_top later _

theorem begins_mono {k k' : Nat} (later : k ≤ k') : begins length start k ≤ begins length start k' :=
  Finset.sum_le_sum_of_subset (Finset.Ico_subset_Ico (le_refl _) later)

theorem step_around {n k : Nat} (before : n < begins length start k) :
    ∃ j, start ≤ j ∧ j < k ∧ begins length start j ≤ n ∧ n < begins length start (j + 1) := by
  induction k with
  | zero =>
    rw [begins, Finset.Ico_eq_empty_of_le (Nat.zero_le _), Finset.sum_empty] at before
    cases before
  | succ k ih =>
    by_cases earlier : n < begins length start k
    · obtain ⟨j, fromStart, below, holds⟩ := ih earlier
      exact ⟨j, fromStart, by omega, holds⟩
    refine ⟨k, ?_, Nat.lt_succ_self k, Nat.le_of_not_lt earlier, before⟩
    by_contra outside
    rw [begins, Finset.Ico_eq_empty_of_le (by omega), Finset.sum_empty] at before
    cases before

theorem step_unique {n k k' : Nat} (k_below : begins length start k ≤ n) (k_above : n < begins length start (k + 1))
    (k'_below : begins length start k' ≤ n) (k'_above : n < begins length start (k' + 1)) : k = k' := by
  rcases Nat.lt_trichotomy k k' with less | same | greater
  · have later := begins_mono length start (show k + 1 ≤ k' from less)
    omega
  · exact same
  have later := begins_mono length start (show k' + 1 ≤ k from greater)
  omega

end Steps

def IsLeap (year : Nat) : Prop := year % 4 = 0 ∧ year % 100 ≠ 0 ∨ year % 400 = 0

instance (year : Nat) : Decidable (IsLeap year) := by
  unfold IsLeap
  infer_instance

def monthDays (year month : Nat) : Nat :=
  if month = 2 then if IsLeap year then 29 else 28
  else if month = 4 ∨ month = 6 ∨ month = 9 ∨ month = 11 then 30
  else 31

def monthStart (year : Nat) : Nat → Nat := begins (monthDays year) 1

def yearDays (year : Nat) : Nat := monthStart year 13

def yearStart : Nat → Nat := begins yearDays 1

def leapDay (year : Nat) : Nat := if IsLeap year then 1 else 0

theorem month_start (year : Nat) :
    monthStart year 1 = 0 ∧ monthStart year 2 = 31 ∧ monthStart year 3 = 59 + leapDay year ∧ monthStart year 4 = 90 + leapDay year ∧
      monthStart year 5 = 120 + leapDay year ∧ monthStart year 6 = 151 + leapDay year ∧ monthStart year 7 = 181 + leapDay year ∧
      monthStart year 8 = 212 + leapDay year ∧ monthStart year 9 = 243 + leapDay year ∧ monthStart year 10 = 273 + leapDay year ∧
      monthStart year 11 = 304 + leapDay year ∧ monthStart year 12 = 334 + leapDay year ∧ monthStart year 13 = 365 + leapDay year := by
  have step (k : Nat) (later : 1 ≤ k) : monthStart year (k + 1) = monthStart year k + monthDays year k :=
    begins_succ (monthDays year) 1 later
  have first : monthStart year 1 = 0 := rfl
  have second := step 2 (by decide)
  have others := And.intro (step 1 (by decide)) (And.intro (step 3 (by decide)) (And.intro (step 4 (by decide))
    (And.intro (step 5 (by decide)) (And.intro (step 6 (by decide)) (And.intro (step 7 (by decide)) (And.intro (step 8 (by decide))
      (And.intro (step 9 (by decide)) (And.intro (step 10 (by decide)) (And.intro (step 11 (by decide)) (step 12 (by decide)))))))))))
  simp only [monthDays] at second others
  unfold leapDay
  norm_num at second others ⊢
  split_ifs at second ⊢
  · omega
  · omega

theorem year_days (year : Nat) : yearDays year = 365 + leapDay year := (month_start year).2.2.2.2.2.2.2.2.2.2.2.2

theorem leap_day_quotients (years : Nat) :
    leapDay (years + 1) = ((years + 1) / 4 - years / 4) - ((years + 1) / 100 - years / 100) + ((years + 1) / 400 - years / 400) := by
  unfold leapDay
  by_cases four : (years + 1) % 4 = 0
  · by_cases hundred : (years + 1) % 100 = 0
    · by_cases fourHundred : (years + 1) % 400 = 0
      · rw [if_pos (show IsLeap (years + 1) from Or.inr fourHundred)]
        omega
      rw [if_neg (by unfold IsLeap; omega)]
      omega
    rw [if_pos (show IsLeap (years + 1) from Or.inl ⟨four, hundred⟩)]
    omega
  rw [if_neg (by unfold IsLeap; omega)]
  omega

theorem year_start (years : Nat) : yearStart (years + 1) = 365 * years + years / 4 - years / 100 + years / 400 := by
  induction years with
  | zero => rfl
  | succ years ih =>
    have step : yearStart (years + 1 + 1) = yearStart (years + 1) + yearDays (years + 1) :=
      begins_succ yearDays 1 (Nat.le_add_left 1 years)
    rw [step, ih, year_days, leap_day_quotients]
    omega

structure CivilDate where
  year : Nat
  month : Nat
  day : Nat
  isYear : 1 ≤ year
  isMonth : 1 ≤ month ∧ month ≤ 12
  isDay : 1 ≤ day ∧ day ≤ monthDays year month

def CivilDate.number (date : CivilDate) : Nat := yearStart date.year + monthStart date.year date.month + (date.day - 1)

def CivilDate.weekday (date : CivilDate) : Nat := (date.number + 1) % 7

theorem day_in_year (date : CivilDate) : yearStart date.year ≤ date.number ∧ date.number < yearStart (date.year + 1) := by
  have step : yearStart (date.year + 1) = yearStart date.year + yearDays date.year := begins_succ yearDays 1 date.isYear
  have month : monthStart date.year (date.month + 1) = monthStart date.year date.month + monthDays date.year date.month :=
    begins_succ (monthDays date.year) 1 date.isMonth.1
  have within : monthStart date.year (date.month + 1) ≤ monthStart date.year 13 :=
    begins_mono (monthDays date.year) 1 (by have := date.isMonth.2; omega)
  have day := date.isDay
  unfold CivilDate.number yearDays at *
  omega

theorem date_of_day (n : Nat) : ∃ date : CivilDate, date.number = n := by
  have later : n < yearStart (n + 1 + 1) := by
    rw [year_start]
    omega
  obtain ⟨year, isYear, _, yearBelow, yearAbove⟩ := step_around yearDays 1 later
  have step : begins yearDays 1 (year + 1) = begins yearDays 1 year + yearDays year := begins_succ yearDays 1 isYear
  have within : n - begins yearDays 1 year < begins (monthDays year) 1 13 := by
    have length : yearDays year = begins (monthDays year) 1 13 := rfl
    omega
  obtain ⟨month, isMonth, small, monthBelow, monthAbove⟩ := step_around (monthDays year) 1 within
  have step' : begins (monthDays year) 1 (month + 1) = begins (monthDays year) 1 month + monthDays year month :=
    begins_succ (monthDays year) 1 isMonth
  refine ⟨⟨year, month, n - begins yearDays 1 year - begins (monthDays year) 1 month + 1, isYear, ⟨isMonth, by omega⟩,
    ⟨by omega, by omega⟩⟩, ?_⟩
  unfold CivilDate.number yearStart monthStart
  dsimp only
  omega

theorem date_unique {date date' : CivilDate} (same : date.number = date'.number) :
    date.year = date'.year ∧ date.month = date'.month ∧ date.day = date'.day := by
  obtain ⟨below, above⟩ := day_in_year date
  obtain ⟨below', above'⟩ := day_in_year date'
  obtain ⟨year, month, day, isYear, isMonth, isDay⟩ := date
  obtain ⟨year', month', day', isYear', isMonth', isDay'⟩ := date'
  have years : year = year' := step_unique yearDays 1 below above (same ▸ below') (same ▸ above')
  subst years
  have within : monthStart year month + (day - 1) = monthStart year month' + (day' - 1) := by
    unfold CivilDate.number at same
    dsimp only at same
    omega
  have step : monthStart year (month + 1) = monthStart year month + monthDays year month := begins_succ (monthDays year) 1 isMonth.1
  have step' : monthStart year (month' + 1) = monthStart year month' + monthDays year month' := begins_succ (monthDays year) 1 isMonth'.1
  have months : month = month' :=
    step_unique (monthDays year) 1 (Nat.le_add_right (monthStart year month) (day - 1))
      (show monthStart year month + (day - 1) < monthStart year (month + 1) by omega)
      (show monthStart year month' ≤ monthStart year month + (day - 1) by omega)
      (show monthStart year month + (day - 1) < monthStart year (month' + 1) by omega)
  subst months
  have days : day = day' := by omega
  exact ⟨rfl, rfl, days⟩

def Follows (date next : CivilDate) : Prop :=
  next.year = date.year ∧ next.month = date.month ∧ next.day = date.day + 1 ∨
    date.day = monthDays date.year date.month ∧ next.day = 1 ∧
      (next.year = date.year ∧ next.month = date.month + 1 ∨ date.month = 12 ∧ next.year = date.year + 1 ∧ next.month = 1)

theorem next_date (date : CivilDate) : ∃ next, Follows date next ∧ next.number = date.number + 1 := by
  obtain ⟨year, month, day, isYear, isMonth, isDay⟩ := date
  have step : monthStart year (month + 1) = monthStart year month + monthDays year month := begins_succ (monthDays year) 1 isMonth.1
  have aDay (y m : Nat) : 1 ≤ monthDays y m := by
    unfold monthDays
    split_ifs <;> decide
  by_cases inMonth : day < monthDays year month
  · refine ⟨⟨year, month, day + 1, isYear, isMonth, ⟨Nat.le_add_left 1 day, inMonth⟩⟩, Or.inl ⟨rfl, rfl, rfl⟩, ?_⟩
    unfold CivilDate.number
    dsimp only
    omega
  have last : day = monthDays year month := by omega
  by_cases inYear : month < 12
  · refine ⟨⟨year, month + 1, 1, isYear, ⟨Nat.le_add_left 1 month, inYear⟩, ⟨le_refl 1, aDay _ _⟩⟩,
      Or.inr ⟨last, rfl, Or.inl ⟨rfl, rfl⟩⟩, ?_⟩
    unfold CivilDate.number
    dsimp only
    omega
  have december : month = 12 := by omega
  have length : yearStart (year + 1) = yearStart year + yearDays year := begins_succ yearDays 1 isYear
  have whole : yearDays year = monthStart year (month + 1) := by rw [december]; rfl
  refine ⟨⟨year + 1, 1, 1, Nat.le_add_left 1 year, ⟨le_refl 1, by decide⟩, ⟨le_refl 1, aDay _ _⟩⟩,
    Or.inr ⟨last, rfl, Or.inr ⟨december, rfl, rfl⟩⟩, ?_⟩
  have first := (month_start (year + 1)).1
  unfold CivilDate.number
  dsimp only
  omega

theorem follows_of_number {date next : CivilDate} (number : next.number = date.number + 1) : Follows date next := by
  obtain ⟨next', follows, number'⟩ := next_date date
  obtain ⟨year, month, day⟩ := date_unique (number.trans number'.symm)
  unfold Follows
  rw [year, month, day]
  exact follows

end ProvenC.Lib.Calendar
