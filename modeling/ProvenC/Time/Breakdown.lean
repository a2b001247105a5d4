import ProvenC.Http.DateDays

/-!
# The calendar breakdown of a time

A time is a signed count of nanoseconds from the epoch. Divisions round towards zero, so a time before the
epoch is corrected by one second, by one day; additions that leave the 64 bits have no value.
-/

namespace ProvenC.Time.Breakdown

open Lib.Calendar Http.DateDays

/-- A value a `proven_i64` can hold. -/
def Wide (v : Int) : Prop := -2 ^ 63 ≤ v ∧ v < 2 ^ 63

instance (v : Int) : Decidable (Wide v) := by
  unfold Wide
  infer_instance

def i64 (v : Int) : Option Int := if Wide v then some v else none

structure Datetime where
  year : Int
  month : Nat
  day : Nat
  hour : Nat
  min : Nat
  sec : Nat
  ms : Nat
  weekday : Nat

def quotient (v : Int) (divisor : Nat) : Int := v.tdiv divisor

def remainder (v : Int) (divisor : Nat) : Int := v.tmod divisor

def toU8 (v : Int) : Nat := (v % 2 ^ 8).toNat

def toU32 (v : Int) : Nat := (v % 2 ^ 32).toNat

def toI32 (v : Int) : Int := v.bmod (2 ^ 32)

def floored (value : Int) (divisor : Nat) : Option (Int × Int) :=
  let whole := quotient value divisor
  let rest := remainder value divisor
  if rest < 0 then do
    let rest ← i64 (rest + divisor)
    let whole ← i64 (whole - 1)
    some (whole, rest)
  else some (whole, rest)

/-- The year from March and the day of it, of day `z` from the first of March of the year 0. -/
def yearOfDays (z : Int) : Option (Int × Int) := do
  let shifted ← if 0 ≤ z then some z else i64 (z - 146096)
  let era := quotient shifted 146097
  let eraDays ← i64 (era * 146097)
  let doe ← i64 (z - eraDays)
  let days ← i64 (doe - quotient doe 1460)
  let days ← i64 (days + quotient doe 36524)
  let days ← i64 (days - quotient doe 146096)
  let yoe := quotient days 365
  let eraYears ← i64 (era * 400)
  let y ← i64 (yoe + eraYears)
  let yearDays ← i64 (365 * yoe)
  let yearDays ← i64 (yearDays + quotient yoe 4)
  let yearDays ← i64 (yearDays - quotient yoe 100)
  let doy ← i64 (doe - yearDays)
  some (y, doy)

def monthOfDays (y doy : Int) : Option (Int × Int × Int) := do
  let fifths ← i64 (5 * doy)
  let fifths ← i64 (fifths + 2)
  let mp := quotient fifths 153
  let before ← i64 (153 * mp)
  let before ← i64 (before + 2)
  let d ← i64 (doy - quotient before 5)
  let d ← i64 (d + 1)
  let m ← if mp < 10 then i64 (mp + 3) else i64 (mp - 9)
  let y ← i64 (y + if m ≤ 2 then 1 else 0)
  some (y, m, d)

def weekdayOf (days : Int) : Option Int := do
  let w ← i64 (days + 4)
  let w := remainder w 7
  if w < 0 then i64 (w + 7) else some w

def timeBreakdown (timeNs : Int) : Option Datetime := do
  let (seconds, nsec) ← floored timeNs 1000000000
  let ms := toU32 (quotient nsec 1000000)
  let (days, rem) ← floored seconds 86400
  let z ← i64 (days + 719468)
  let (y, doy) ← yearOfDays z
  let (y, m, d) ← monthOfDays y doy
  let w ← weekdayOf days
  some ⟨toI32 y, toU8 m, toU8 d, toU8 (quotient rem 3600), toU8 (quotient (remainder rem 3600) 60), toU8 (remainder rem 60), ms, toU8 w⟩

theorem i64_bind {α : Type} {v : Int} (f : Int → Option α) (wide : Wide v) : (i64 v >>= f) = f v := by
  unfold i64
  rw [if_pos wide]
  rfl

theorem nat_bind {α : Type} {v : Int} (f : Int → Option α) (n : Nat) (same : v = n) (small : n < 2 ^ 63) :
    (i64 v >>= f) = f n := by
  subst same
  exact i64_bind f ⟨by omega, by omega⟩

theorem known_bind {α β : Type} {o : Option α} {a : α} (f : α → Option β) (known : o = some a) : (o >>= f) = f a := by
  subst known
  rfl

theorem quotient_nat (n divisor : Nat) : quotient n divisor = ((n / divisor : Nat) : Int) := rfl

theorem remainder_nat (n divisor : Nat) : remainder n divisor = ((n % divisor : Nat) : Int) := rfl

theorem floored_eq {value : Int} {divisor : Nat} (wide : Wide value) (low : 2 ≤ divisor) (high : divisor < 2 ^ 62) :
    floored value divisor = some (value / divisor, value % divisor) := by
  have positive : (0 : Int) < divisor := by omega
  have whole := Int.tdiv_eq_ediv (a := value) (b := divisor)
  have rest := Int.tmod_eq_emod (a := value) (b := divisor)
  have isRest := Int.emod_nonneg value positive.ne'
  have restSmall := Int.emod_lt_of_pos value positive
  rw [Int.sign_eq_one_of_pos positive] at whole
  unfold floored quotient remainder
  by_cases exactly : 0 ≤ value ∨ (divisor : Int) ∣ value
  · rw [if_pos exactly, add_zero] at whole
    rw [if_pos exactly, Nat.cast_zero, sub_zero] at rest
    rw [whole, rest, if_neg (Int.not_lt.mpr isRest)]
  rw [if_neg exactly] at whole rest
  have negative : value < 0 := Int.not_le.mp fun nonneg => exactly (Or.inl nonneg)
  rw [Int.natAbs_natCast] at rest
  have below : -2 ^ 63 ≤ value / divisor := (Int.le_ediv_iff_mul_le positive).mpr (by unfold Wide at wide; nlinarith)
  have above : value / divisor < 0 := Int.ediv_neg_of_neg_of_pos negative positive
  rw [whole, rest, if_pos (by omega), Int.sub_add_cancel, i64_bind _ ⟨by omega, by omega⟩, Int.add_sub_cancel,
    i64_bind _ ⟨below, by omega⟩]

theorem year_of_days {n year doe day : Nat} (small : n < 2 ^ 40) (era : n / 146097 = year / 400)
    (isDoe : n - n / 146097 * 146097 = doe) (parts : doe = year % 400 * 365 + year % 400 / 4 - year % 400 / 100 + day)
    (inYear : day ≤ 365) (yoe : (doe - doe / 1460 + doe / 36524 - doe / 146096) / 365 = year % 400) :
    yearOfDays n = some ((year : Int), (day : Int)) := by
  have doeSmall : doe < 146463 := by omega
  have quarter : doe / 146096 ≤ doe / 36524 := Nat.div_le_div_left (by decide) (by decide)
  have most : doe / 1460 ≤ doe := Nat.div_le_self doe 1460
  have more : doe / 36524 ≤ doe := Nat.div_le_self doe 36524
  have whole : year % 400 + year / 400 * 400 = year := Nat.mod_add_div' year 400
  have yearSmall : year / 400 < 2 ^ 40 := era ▸ (Nat.div_le_self n 146097).trans_lt small
  unfold yearOfDays
  rw [if_pos (Int.natCast_nonneg n), show ∀ f : Int → Option (Int × Int), (some (n : Int) >>= f) = f n from fun _ => rfl]
  simp only [quotient_nat]
  refine (nat_bind _ (n / 146097 * 146097) (by omega) (by omega)).trans ?_
  refine (nat_bind _ doe (by omega) (by omega)).trans ?_
  simp only [quotient_nat]
  rw [era]
  clear era isDoe small
  generalize doe / 1460 = a at *
  generalize doe / 36524 = b at *
  generalize doe / 146096 = c at *
  refine (nat_bind _ (doe - a) (by omega) (by omega)).trans ?_
  refine (nat_bind _ (doe - a + b) (by omega) (by omega)).trans ?_
  refine (nat_bind _ (doe - a + b - c) (by omega) (by omega)).trans ?_
  simp only [quotient_nat]
  rw [yoe]
  have yoeSmall : year % 400 < 400 := Nat.mod_lt _ (by decide)
  have hundreds : year % 400 / 100 ≤ year % 400 / 4 := Nat.div_le_div_left (by decide) (by decide)
  have fours : year % 400 / 4 ≤ year % 400 := Nat.div_le_self _ 4
  clear yoe quarter most more
  generalize year / 400 = era at *
  generalize year % 400 = yoe at *
  generalize yoe / 4 = e at *
  generalize yoe / 100 = f at *
  refine (nat_bind _ (era * 400) (by omega) (by omega)).trans ?_
  refine (nat_bind _ year (by omega) (by omega)).trans ?_
  refine (nat_bind _ (365 * yoe) (by omega) (by omega)).trans ?_
  refine (nat_bind _ (365 * yoe + e) (by omega) (by omega)).trans ?_
  refine (nat_bind _ (365 * yoe + e - f) (by omega) (by omega)).trans ?_
  exact nat_bind _ day (by omega) (by omega)

theorem month_of_days (date : CivilDate) {year day : Nat} (counted : FromMarch date year day) (inYear : day ≤ 365) (small : year < 2 ^ 50) :
    monthOfDays year day = some ((date.year : Int), (date.month : Int), (date.day : Int)) := by
  obtain ⟨yearFact, dayFact⟩ := counted
  obtain ⟨low, high⟩ := date.isMonth
  have isYear := date.isYear
  obtain ⟨month, dayOfMonth⟩ := month_of_day low high date.isDay dayFact
  have lastMonth := march_month _ low high
  have isDay := date.isDay.1
  unfold monthOfDays
  refine (nat_bind _ (5 * day) (by omega) (by omega)).trans ?_
  refine (nat_bind _ (5 * day + 2) (by omega) (by omega)).trans ?_
  simp only [quotient_nat, month]
  have before : (153 * marchMonth date.month + 2) / 5 ≤ day := by
    change day = (153 * marchMonth date.month + 2) / 5 + date.day - 1 at dayFact
    omega
  clear dayFact month
  generalize marchMonth date.month = mp at *
  have mpSmall : mp < 22 := by omega
  refine (nat_bind _ (153 * mp) (by omega) (by omega)).trans ?_
  refine (nat_bind _ (153 * mp + 2) (by omega) (by omega)).trans ?_
  simp only [quotient_nat]
  refine (nat_bind _ (day - (153 * mp + 2) / 5) (by omega) (by omega)).trans ?_
  refine (nat_bind _ date.day (by omega) (by omega)).trans ?_
  have finish : (do
      let y ← i64 (year + if (date.month : Int) ≤ 2 then 1 else 0)
      some (y, (date.month : Int), (date.day : Int))) = some ((date.year : Int), (date.month : Int), (date.day : Int)) :=
    nat_bind _ date.year (by split_ifs at yearFact ⊢ <;> omega) (by split_ifs at yearFact <;> omega)
  split_ifs at lastMonth with early
  · rw [if_pos (by omega)]
    exact (nat_bind _ date.month (by omega) (by omega)).trans finish
  rw [if_neg (by omega)]
  exact (nat_bind _ date.month (by omega) (by omega)).trans finish

theorem weekday_of {days : Int} (wide : Wide (days + 4)) : weekdayOf days = some ((days + 4) % 7) := by
  have rest := Int.tmod_eq_emod (a := days + 4) (b := 7)
  have isRest := Int.emod_nonneg (days + 4) (show (7 : Int) ≠ 0 by decide)
  have restSmall := Int.emod_lt_of_pos (days + 4) (show (0 : Int) < 7 by decide)
  unfold weekdayOf
  refine (i64_bind _ wide).trans ?_
  change (if (days + 4).tmod 7 < 0 then i64 ((days + 4).tmod 7 + 7) else some ((days + 4).tmod 7)) = _
  by_cases exactly : 0 ≤ days + 4 ∨ (7 : Int) ∣ days + 4
  · rw [if_pos exactly, Nat.cast_zero, sub_zero] at rest
    rw [rest, if_neg (Int.not_lt.mpr isRest)]
  rw [if_neg exactly, show ((Int.natAbs 7 : Nat) : Int) = 7 from rfl] at rest
  rw [rest, if_pos (by omega), Int.sub_add_cancel]
  exact if_pos ⟨by omega, by omega⟩

theorem narrow {n : Nat} (small : n < 2 ^ 8) : toU8 n = n := by
  unfold toU8
  omega

def dayNs : Int := 86400 * 1000000000

def millis (date : CivilDate) (hour min sec ms : Nat) : Int :=
  (((date.number : Int) - epoch) * 86400 + hour * 3600 + min * 60 + sec) * 1000 + ms

structure Names (timeNs : Int) (dt : Datetime) (date : CivilDate) : Prop where
  year : dt.year = date.year
  month : dt.month = date.month
  day : dt.day = date.day
  weekday : dt.weekday = date.weekday
  hour : dt.hour < 24
  min : dt.min < 60
  sec : dt.sec < 60
  ms : dt.ms < 1000
  distance : millis date dt.hour dt.min dt.sec dt.ms = timeNs / 1000000
  counted : (date.number : Int) - epoch = timeNs / dayNs

theorem breakdown_names {timeNs : Int} (wide : Wide timeNs) :
    ∃ dt date, timeBreakdown timeNs = some dt ∧ Names timeNs dt date := by
  obtain ⟨low, high⟩ := wide
  obtain ⟨seconds, isSeconds⟩ : ∃ seconds, seconds = timeNs / 1000000000 := ⟨_, rfl⟩
  obtain ⟨nsec, isNsec⟩ : ∃ nsec : Nat, (nsec : Int) = timeNs % 1000000000 := ⟨(timeNs % 1000000000).toNat, by omega⟩
  obtain ⟨days, isDays⟩ : ∃ days, days = seconds / 86400 := ⟨_, rfl⟩
  obtain ⟨rem, isRem⟩ : ∃ rem : Nat, (rem : Int) = seconds % 86400 := ⟨(seconds % 86400).toNat, by omega⟩
  have secondsWide : -9223372037 ≤ seconds ∧ seconds ≤ 9223372037 := by omega
  have daysWide : -106752 ≤ days ∧ days ≤ 106752 := by omega
  obtain ⟨n, isDay⟩ : ∃ n : Nat, (n : Int) + 306 = days + 719468 := ⟨(days + 719162).toNat, by omega⟩
  obtain ⟨date, number⟩ := date_of_day n
  have counted : date.number + 306 = n + 306 := by rw [number]
  obtain ⟨year, day, march, inYear, era, doe, yoe⟩ := civil_parts date counted
  have yearSmall : year < 2 ^ 20 := by omega
  have dateSmall : date.year < 2 ^ 30 := by
    have isYear := march.year
    split_ifs at isYear <;> omega
  have byDays := year_of_days (n := n + 306) (by omega) era rfl doe inYear (yoe _ doe)
  have byMonth := month_of_days date march inYear (by omega)
  have wideYear : toI32 date.year = date.year := by
    unfold toI32
    exact Int.bmod_eq_of_le (by omega) (by omega)
  have month := date.isMonth.2
  have inMonth : date.day < 2 ^ 8 := by
    have isDay := date.isDay.2
    unfold monthDays at isDay
    split_ifs at isDay <;> omega
  have weekday : (date.weekday : Int) = (days + 4) % 7 := by
    unfold CivilDate.weekday
    omega
  have ofWeek : date.weekday < 7 := Nat.mod_lt _ (by decide)
  refine ⟨⟨date.year, date.month, date.day, rem / 3600, rem % 3600 / 60, rem % 60, nsec / 1000000, date.weekday⟩, date, ?_,
    ⟨rfl, rfl, rfl, rfl, by dsimp only; omega, by dsimp only; omega, by dsimp only; omega, by dsimp only; omega, ?_, ?_⟩⟩
  · have onDay : ((n + 306 : Nat) : Int) = days + 719468 := by omega
    unfold timeBreakdown
    refine (known_bind _ (floored_eq ⟨low, high⟩ (by decide) (by decide))).trans ?_
    dsimp only
    rw [show timeNs / ((1000000000 : Nat) : Int) = seconds from isSeconds.symm,
      show timeNs % ((1000000000 : Nat) : Int) = nsec from isNsec.symm]
    refine (known_bind _ (floored_eq ⟨by omega, by omega⟩ (by decide) (by decide))).trans ?_
    dsimp only
    rw [show seconds / ((86400 : Nat) : Int) = days from isDays.symm, show seconds % ((86400 : Nat) : Int) = rem from isRem.symm]
    refine (nat_bind _ (n + 306) onDay.symm (by omega)).trans ?_
    refine (known_bind _ byDays).trans ?_
    refine (known_bind _ byMonth).trans ?_
    refine (known_bind _ (weekday_of ⟨by omega, by omega⟩)).trans ?_
    dsimp only
    rw [← weekday, wideYear]
    simp only [quotient_nat, remainder_nat]
    rw [narrow (by omega), narrow (by omega), narrow (by omega), narrow (by omega), narrow (by omega), narrow (by omega),
      show toU32 ((nsec / 1000000 : Nat) : Int) = nsec / 1000000 by unfold toU32; omega]
  · unfold millis epoch
    dsimp only
    omega
  unfold epoch dayNs
  omega

/-- A breakdown never overflows and names the one date and time of day at its distance from the epoch. The dates of
consecutive days are consecutive. -/
theorem breakdown_exact {timeNs : Int} (wide : Wide timeNs) :
    ∃ dt date, timeBreakdown timeNs = some dt ∧ Names timeNs dt date ∧
      (∀ (other : CivilDate) (hour min sec ms : Nat), hour < 24 → min < 60 → sec < 60 → ms < 1000 →
        millis other hour min sec ms = timeNs / 1000000 →
          (other.year, other.month, other.day) = (date.year, date.month, date.day) ∧
            hour = dt.hour ∧ min = dt.min ∧ sec = dt.sec ∧ ms = dt.ms) ∧
      ∀ (later : Int) (dt' : Datetime) (date' : CivilDate), timeBreakdown later = some dt' → Names later dt' date' →
        later / dayNs = timeNs / dayNs + 1 → Follows date date' ∧ dt'.weekday = (dt.weekday + 1) % 7 := by
  obtain ⟨dt, date, result, names⟩ := breakdown_names wide
  refine ⟨dt, date, result, names, ?_, ?_⟩
  · intro other hour min sec ms hourSmall minSmall secSmall msSmall distance
    have same := names.distance
    have smallHour := names.hour
    have smallMin := names.min
    have smallSec := names.sec
    have smallMs := names.ms
    unfold millis at distance same
    have sameDay : other.number = date.number := by omega
    obtain ⟨year, month, day⟩ := date_unique sameDay
    exact ⟨by rw [year, month, day], by omega, by omega, by omega, by omega⟩
  intro later dt' date' _ names' next
  have counted := names.counted
  have counted' := names'.counted
  have number : date'.number = date.number + 1 := by omega
  refine ⟨follows_of_number number, ?_⟩
  rw [names'.weekday, names.weekday]
  unfold CivilDate.weekday
  omega

theorem breakdown_before_epoch : ∃ dt date, timeBreakdown (-1) = some dt ∧ Names (-1) dt date :=
  let ⟨dt, date, result, names, _⟩ := breakdown_exact (show Wide (-1) by decide)
  ⟨dt, date, result, names⟩

/-- The two calendars of the program agree: a date header says what the breakdown of its time says. -/
theorem header_says_breakdown {wall : Int} (started : 0 ≤ wall) (wide : Wide wall) :
    ∃ dt, timeBreakdown wall = some dt ∧ Http.Dates.httpDateFormat wall =
      .ok (Http.Dates.imfText dt.weekday dt.year.toNat dt.month dt.day dt.hour dt.min dt.sec) := by
  obtain ⟨dt, date, result, year, month, day, weekday, hour, min, sec, ms, distance, counted⟩ := breakdown_names wide
  unfold millis at distance
  unfold dayNs at counted
  have days : date.number = wall.toNat / 1000000000 / 86400 + epoch := by omega
  have ofWeek : (wall.toNat / 1000000000 / 86400 + 4) % 7 = dt.weekday := by
    unfold CivilDate.weekday epoch at *
    omega
  have tod : wall.toNat / 1000000000 % 86400 = dt.hour * 3600 + dt.min * 60 + dt.sec := by omega
  have clock : (dt.hour * 3600 + dt.min * 60 + dt.sec) / 3600 = dt.hour ∧
      (dt.hour * 3600 + dt.min * 60 + dt.sec) / 60 % 60 = dt.min ∧ (dt.hour * 3600 + dt.min * 60 + dt.sec) % 60 = dt.sec := by omega
  refine ⟨dt, result, ?_⟩
  unfold Http.Dates.httpDateFormat Http.Dates.nsPerSec
  rw [if_neg (by omega)]
  dsimp only
  rw [civil_from_days date days, tod, ofWeek, clock.1, clock.2.1, clock.2.2, year, month, day]
  rfl

theorem header_says_breakdown_last : ∃ dt, timeBreakdown (2 ^ 63 - 1) = some dt ∧ Http.Dates.httpDateFormat (2 ^ 63 - 1) =
    .ok (Http.Dates.imfText dt.weekday dt.year.toNat dt.month dt.day dt.hour dt.min dt.sec) :=
  header_says_breakdown (by decide) (by decide)

end ProvenC.Time.Breakdown
