import Osix.Kern.Mktime
import Mathlib.Tactic.IntervalCases

/-!
# The calendar of a time

`gmtime` of `lib/libc/time.c`. It asks the leap-year test about the year itself, where `mktime`
asks about the years since 1900, so that 2000 is a year of 365 days here. The day of the month
counts from 0 before that, and as it should afterwards, except on the last day of a month.
-/

namespace Osix.Time

/-- The loop over the years. -/
def yearLoop (t year : ℤ) : ℤ × ℤ :=
  if daysInYear year ≤ t then yearLoop (t - daysInYear year) (year + 1) else (t, year)
termination_by t.toNat
decreasing_by
  have positive : 0 < daysInYear year := by
    unfold daysInYear
    split <;> decide
  omega

/-- The loop over the months, which can leave the table. -/
def monthLoop (leap : Bool) : List ℤ → ℤ → ℤ → Option (ℤ × ℤ)
  | [], _, _ => none
  | days :: rest, month, t =>
      let days := days + if leap ∧ month = 1 then 1 else 0
      if days ≤ t then monthLoop leap rest (month + 1) (t - days) else some (month, t)

/-- `gmtime`, for a pointer that is not null. -/
def gmtime (time : ℤ) : Option Tm := do
  let sec := time.tmod 60
  let t := time.tdiv 60
  let min := t.tmod 60
  let t := t.tdiv 60
  let hour := t.tmod 24
  let t := t.tdiv 24
  let (t, year) := yearLoop t 1970
  let leap := isLeapYear year
  let (month, t) ← monthLoop leap daysInMonth 0 t
  let yday := t - 1 + (daysInMonth.take month.toNat).sum
  return {
    sec := sec
    min := min
    hour := hour
    mday := t
    mon := month
    year := year - 1900
    wday := (t + 5).tmod 7
    yday := if 2 ≤ month ∧ leap then yday + 1 else yday
    isdst := 0 }

/-! ## The years of the code -/

/-- The leap years of `gmtime`. -/
def seemsLeap (year : ℕ) : Bool := Gregorian.isLeap year && year ≠ 2000

theorem isLeapYear_unshifted {year : ℕ} (from1970 : 1970 ≤ year) (before2100 : year < 2100) :
    isLeapYear year = seemsLeap year := by
  have isSum : (year : ℤ) + 1900 = ((year + 1900 : ℕ) : ℤ) := by omega
  rw [Bool.eq_iff_iff]
  simp only [isLeapYear, seemsLeap, Gregorian.isLeap, Bool.and_eq_true, decide_eq_true_eq, ne_eq,
    ← Int.dvd_iff_tmod_eq_zero]
  rw [isSum, int32_nat (by omega)]
  omega

/-- The days before a year since 1970, as `gmtime` counts them. -/
def seemsBefore (year : ℕ) : ℤ :=
  Gregorian.daysBeforeYear year - epoch - if 2000 < year then 1 else 0

theorem seemsBefore_succ {year : ℕ} (from1970 : 1970 ≤ year) (before2100 : year < 2100) :
    seemsBefore (year + 1) = seemsBefore year + daysInYear year := by
  have next := @Gregorian.daysBeforeYear_succ year (by omega)
  have isLeap2000 : Gregorian.isLeap 2000 = true := by decide
  unfold seemsBefore daysInYear
  rw [isLeapYear_unshifted from1970 before2100, seemsLeap, next, Gregorian.yearDays]
  by_cases is2000 : year = 2000
  · subst is2000
    simp [isLeap2000]
    omega
  · have sameSide : 2000 < year + 1 ↔ 2000 < year := by omega
    simp only [is2000, sameSide, ne_eq, not_false_eq_true, decide_true, Bool.and_true]
    split <;> omega

theorem lt_of_seemsBefore {year : ℕ} (small : seemsBefore year < 25000) : year < 2100 := by
  by_contra late
  have later := Gregorian.daysBeforeYear_mono (by decide) (Nat.le_of_not_lt late)
  have isLater : Gregorian.daysBeforeYear 2100 = epoch + 47482 := by decide
  unfold seemsBefore at small
  split at small <;> omega

/-- The loop ends in the year to which the day belongs. -/
theorem yearLoop_spec {t : ℤ} {year : ℕ} (notNegative : 0 ≤ t) (from1970 : 1970 ≤ year)
    (small : seemsBefore year + t < 25000) :
    ∃ (year' : ℕ) (t' : ℤ), yearLoop t year = (t', (year' : ℤ)) ∧ 1970 ≤ year' ∧
      year' < 2100 ∧ 0 ≤ t' ∧ t' < daysInYear year' ∧
      seemsBefore year' + t' = seemsBefore year + t := by
  induction isSize : t.toNat using Nat.strongRecOn generalizing t year with
  | ind size ih =>
      have before2100 : year < 2100 := lt_of_seemsBefore (by omega)
      rw [yearLoop]
      split
      case isTrue longer =>
        have next := seemsBefore_succ from1970 before2100
        have positive : 365 ≤ daysInYear year := by
          unfold daysInYear
          split <;> decide
        have isNext : (year : ℤ) + 1 = ((year + 1 : ℕ) : ℤ) := by omega
        obtain ⟨year', t', isLoop, later, early, notNegative', inYear, sameDay⟩ :=
          @ih (t - daysInYear year).toNat (by omega) (t - daysInYear year) (year + 1)
            (by omega) (by omega) (by omega) rfl
        rw [isNext]
        exact ⟨year', t', isLoop, later, early, notNegative', inYear, by omega⟩
      case isFalse inYear =>
        exact ⟨year, t, rfl, from1970, before2100, notNegative, by omega, rfl⟩

theorem daysInMonth_drop {leap : Bool} {month : ℕ} (isMonth : month < 12) :
    ∃ days, daysInMonth.drop month = days :: daysInMonth.drop (month + 1) ∧
      days + (if leap = true ∧ (month : ℤ) = 1 then 1 else 0) =
        (Gregorian.monthDays leap month : ℤ) := by
  interval_cases month <;> cases leap <;> exact ⟨_, rfl, rfl⟩

theorem daysInMonth_take {month : ℕ} (isMonth : month ≤ 12) :
    (daysInMonth.take month).sum = Gregorian.daysBeforeMonth false month := by
  interval_cases month <;> rfl

/-- The loop ends in the month to which the day of the year belongs. -/
theorem monthLoop_spec {leap : Bool} {month : ℕ} {t : ℤ} (isMonth : month ≤ 12)
    (notNegative : 0 ≤ t)
    (inYear : Gregorian.daysBeforeMonth leap month + t < Gregorian.daysBeforeMonth leap 12) :
    ∃ (month' : ℕ) (t' : ℤ),
      monthLoop leap (daysInMonth.drop month) month t = some ((month' : ℤ), t') ∧ month' < 12 ∧
        0 ≤ t' ∧ t' < Gregorian.monthDays leap month' ∧
        Gregorian.daysBeforeMonth leap month' + t' =
          Gregorian.daysBeforeMonth leap month + t := by
  induction isRest : 12 - month generalizing month t with
  | zero =>
      have isLast : month = 12 := by omega
      subst isLast
      omega
  | succ rest ih =>
      obtain ⟨days, isDrop, isDays⟩ := @daysInMonth_drop leap month (by omega)
      rw [isDrop, monthLoop]
      simp only [isDays]
      split
      case isTrue longer =>
        have isNext : (month : ℤ) + 1 = ((month + 1 : ℕ) : ℤ) := by omega
        have next : Gregorian.daysBeforeMonth leap (month + 1) =
          Gregorian.daysBeforeMonth leap month + Gregorian.monthDays leap month := rfl
        obtain ⟨month', t', isLoop, isMonth', notNegative', inMonth, sameDay⟩ :=
          @ih (month + 1) (t - Gregorian.monthDays leap month) (by omega) (by omega) (by omega)
            (by omega)
        rw [isNext]
        exact ⟨month', t', isLoop, isMonth', notNegative', inMonth, by omega⟩
      case isFalse inMonth =>
        exact ⟨month, t, rfl, by omega, notNegative, by omega, rfl⟩

/-! ## The fields -/

/-- The year, the month and the day from 0 that `gmtime` finds, and the fields it makes of them. -/
theorem gmtime_spec {time : ℤ} {days : ℕ} (notNegative : 0 ≤ time)
    (isDays : time / 86400 = days) (small : days < 25000) :
    ∃ (year month day : ℕ), 1970 ≤ year ∧ year < 2100 ∧ month < 12 ∧
      day < Gregorian.monthDays (seemsLeap year) month ∧
      seemsBefore year + Gregorian.daysBeforeMonth (seemsLeap year) month + day = days ∧
      gmtime time = some {
        sec := time % 60
        min := time / 60 % 60
        hour := time / 3600 % 24
        mday := day
        mon := month
        year := year - 1900
        wday := (day + 5) % 7
        yday := day - 1 + Gregorian.daysBeforeMonth (seemsLeap year) month
        isdst := 0 } := by
  have isStart : seemsBefore 1970 = 0 := by decide
  obtain ⟨year, t, isYears, from1970, before2100, notNegativeDay, inYear, sameDay⟩ :=
    @yearLoop_spec days 1970 (by omega) (by decide) (by omega)
  have isLeap : isLeapYear year = seemsLeap year := isLeapYear_unshifted from1970 before2100
  have yearLength : Gregorian.daysBeforeMonth (seemsLeap year) 12 = daysInYear year := by
    unfold daysInYear
    rw [isLeap]
    cases seemsLeap year <;> rfl
  have noMonth : Gregorian.daysBeforeMonth (seemsLeap year) 0 = 0 := rfl
  obtain ⟨month, t', isMonths, isMonth, notNegativeDay', inMonth, sameDay'⟩ :=
    @monthLoop_spec (seemsLeap year) 0 t (by decide) notNegativeDay (by omega)
  obtain ⟨day, rfl⟩ := Int.eq_ofNat_of_zero_le notNegativeDay'
  refine ⟨year, month, day, from1970, before2100, isMonth, by omega, by omega, ?_⟩
  have isMinutes : time.tdiv 60 = time / 60 := Int.tdiv_eq_ediv_of_nonneg notNegative
  have isHours : (time / 60).tdiv 60 = time / 3600 := by
    rw [Int.tdiv_eq_ediv_of_nonneg (by omega)]
    omega
  have isDay : (time / 3600).tdiv 24 = days := by
    rw [Int.tdiv_eq_ediv_of_nonneg (by omega)]
    omega
  have yearDay : (if (2 : ℤ) ≤ month ∧ seemsLeap year = true then
      (day : ℤ) - 1 + (daysInMonth.take (month : ℤ).toNat).sum + 1
    else (day : ℤ) - 1 + (daysInMonth.take (month : ℤ).toNat).sum) =
      day - 1 + Gregorian.daysBeforeMonth (seemsLeap year) month := by
    rw [Int.toNat_natCast, daysInMonth_take (Nat.le_of_lt isMonth)]
    rcases seemsLeap year
    · simp
    · have leapMonths := daysBeforeMonth_leap (Nat.le_of_lt isMonth)
      by_cases late : 1 < month
      · rw [if_pos late] at leapMonths
        rw [if_pos ⟨by omega, rfl⟩]
        omega
      · rw [if_neg late] at leapMonths
        rw [if_neg (by omega)]
        omega
  rw [noMonth] at sameDay'
  have isFirst : ((1970 : ℕ) : ℤ) = 1970 := rfl
  rw [isFirst] at isYears
  have isList : daysInMonth.drop 0 = daysInMonth := rfl
  have isJanuary : ((0 : ℕ) : ℤ) = 0 := rfl
  rw [isList, isJanuary] at isMonths
  simp only [gmtime, isMinutes, isHours, isDay, isYears, isLeap, isMonths, yearDay,
    Option.bind_eq_bind, Option.bind_some, Option.pure_def, Option.some.injEq, Tm.mk.injEq]
  rw [Int.tmod_eq_emod_of_nonneg notNegative, Int.tmod_eq_emod_of_nonneg (by omega),
    Int.tmod_eq_emod_of_nonneg (by omega), Int.tmod_eq_emod_of_nonneg (by omega)]
  exact ⟨rfl, rfl, rfl, trivial, trivial, trivial, rfl, trivial, trivial⟩

/-! ## The date that is meant -/

theorem monthDays_seemsLeap (year month : ℕ) :
    Gregorian.monthDays (seemsLeap year) month ≤
      Gregorian.monthDays (Gregorian.isLeap year) month := by
  have shorter : ∀ leap, Gregorian.monthDays false month ≤ Gregorian.monthDays leap month := by
    intro leap
    cases leap
    · exact Nat.le_refl _
    · unfold Gregorian.monthDays
      split <;> decide
  unfold seemsLeap
  cases Gregorian.isLeap year
  · exact Nat.le_refl _
  · rw [Bool.true_and]
    rcases decide (year ≠ 2000) with _ | _
    · exact shorter true
    · exact Nat.le_refl _

/-- Up to February 2000 the code and the calendar agree on the days before a month. -/
theorem seems_early {year month : ℕ} (early : year < 2000 ∨ year = 2000 ∧ month ≤ 1) :
    seemsBefore year + Gregorian.daysBeforeMonth (seemsLeap year) month + epoch =
      Gregorian.daysBeforeYear year +
        Gregorian.daysBeforeMonth (Gregorian.isLeap year) month := by
  have notLater : ¬ 2000 < year := by omega
  have sameMonths : Gregorian.daysBeforeMonth (seemsLeap year) month =
      Gregorian.daysBeforeMonth (Gregorian.isLeap year) month := by
    rcases early with earlier | ⟨rfl, february⟩
    · have not2000 : year ≠ 2000 := Nat.ne_of_lt earlier
      simp [seemsLeap, not2000]
    · have leapMonths := @daysBeforeMonth_leap month (by omega)
      rw [if_neg (by omega)] at leapMonths
      exact leapMonths.symm
  rw [sameMonths, seemsBefore, if_neg notLater]
  omega

/-- From March 2000 on the code has a day less. -/
theorem seems_late {year month : ℕ} (isMonth : month < 12)
    (late : ¬ (year < 2000 ∨ year = 2000 ∧ month ≤ 1)) :
    seemsBefore year + Gregorian.daysBeforeMonth (seemsLeap year) month + epoch + 1 =
      Gregorian.daysBeforeYear year +
        Gregorian.daysBeforeMonth (Gregorian.isLeap year) month := by
  by_cases is2000 : year = 2000
  · subst is2000
    have leapMonths := daysBeforeMonth_leap (Nat.le_of_lt isMonth)
    have isLeap2000 : Gregorian.isLeap 2000 = true := by decide
    have seems2000 : seemsLeap 2000 = false := by decide
    rw [if_pos (by omega)] at leapMonths
    rw [seemsBefore, if_neg (by decide), isLeap2000, seems2000]
    omega
  · have isLater : 2000 < year := by omega
    rw [seemsBefore, if_pos isLater]
    simp only [seemsLeap, ne_eq, is2000, not_false_eq_true, decide_true, Bool.and_true]
    omega

/-- In the rest of 2000 the code has a day less before a month, and later it has not. -/
theorem seems_months {year month : ℕ} (isMonth : month < 12)
    (late : ¬ (year < 2000 ∨ year = 2000 ∧ month ≤ 1)) :
    Gregorian.daysBeforeMonth (seemsLeap year) month =
      Gregorian.daysBeforeMonth (Gregorian.isLeap year) month ↔ 2001 ≤ year := by
  have isLate := seems_late isMonth late
  unfold seemsBefore at isLate
  split at isLate <;> omega

/--
The day that is found is one too few, or it is right but not the last one of its month, or it
is the day before the first one of the next month.
-/
theorem found_cases {date : Gregorian.Date} {year month day : ℕ} (from1970 : 1970 ≤ year)
    (isMonth : month < 12) (inMonth : day < Gregorian.monthDays (seemsLeap year) month)
    (found : seemsBefore year + Gregorian.daysBeforeMonth (seemsLeap year) month + day + epoch =
      date.ordinal) :
    (date.year ≤ 2000 ∧ date.day = day + 1) ∨
      (date.year = year ∧ date.month = month ∧ date.day = day ∧
        day < Gregorian.monthDays (Gregorian.isLeap year) month ∧
        ¬ (year < 2000 ∨ year = 2000 ∧ month ≤ 1)) ∨
      (day = 0 ∧ date.day = Gregorian.monthDays (Gregorian.isLeap date.year) date.month) := by
  have inMonth' := Nat.lt_of_lt_of_le inMonth (monthDays_seemsLeap year month)
  by_cases early : year < 2000 ∨ year = 2000 ∧ month ≤ 1
  · have isEarly := seems_early early
    let same : Gregorian.Date :=
      ⟨year, month, day + 1, by omega, isMonth, Nat.le_add_left 1 day, inMonth'⟩
    have isSame : date = same := by
      apply Gregorian.Date.ordinal_injective
      change date.ordinal = Gregorian.daysBeforeYear year +
        Gregorian.daysBeforeMonth (Gregorian.isLeap year) month + (day + 1 - 1)
      omega
    refine Or.inl ⟨?_, ?_⟩
    · rw [isSame]
      change year ≤ 2000
      omega
    · rw [isSame]
  · have isLate := seems_late isMonth early
    by_cases isZero : day = 0
    · refine Or.inr (Or.inr ⟨isZero, ?_⟩)
      by_contra notLast
      have goesOn := Nat.lt_of_le_of_ne date.inMonth notLast
      let first : Gregorian.Date := ⟨year, month, 1, by omega, isMonth, Nat.le_refl 1, by omega⟩
      let next : Gregorian.Date :=
        ⟨date.year, date.month, date.day + 1, date.yearPos, date.isMonth,
          Nat.le_add_left 1 _, goesOn⟩
      have isFirst : next = first := by
        apply Gregorian.Date.ordinal_injective
        have dayPos := date.dayPos
        unfold Gregorian.Date.ordinal at found
        change Gregorian.daysBeforeYear date.year +
          Gregorian.daysBeforeMonth (Gregorian.isLeap date.year) date.month + (date.day + 1 - 1) =
          Gregorian.daysBeforeYear year +
            Gregorian.daysBeforeMonth (Gregorian.isLeap year) month + (1 - 1)
        omega
      have sameDay : date.day + 1 = 1 := congrArg Gregorian.Date.day isFirst
      exact absurd date.dayPos (by omega)
    · let same : Gregorian.Date :=
        ⟨year, month, day, by omega, isMonth, by omega, Nat.le_of_lt inMonth'⟩
      have isSame : date = same := by
        apply Gregorian.Date.ordinal_injective
        change date.ordinal = Gregorian.daysBeforeYear year +
          Gregorian.daysBeforeMonth (Gregorian.isLeap year) month + (day - 1)
        omega
      rw [isSame]
      exact Or.inr (Or.inl ⟨rfl, rfl, rfl, inMonth', early⟩)

/-! ## Times and moments -/

namespace Moment

variable {moment : Moment}

/-- Every time that is not negative is that of a moment before the rollover. -/
theorem exists_of_time {time : ℕ} (small : time < 2 ^ 31) :
    ∃ moment : Moment, moment.Before rollover ∧ moment.seconds = time := by
  obtain ⟨date, isDate⟩ := Gregorian.Date.exists_date (epoch + time / 86400)
  have fromEpoch : 1970 ≤ date.year := by
    by_contra earlier
    have before : date.Before ⟨1970, 0, 1, by decide, by decide, by decide, by decide⟩ :=
      Or.inl (Nat.lt_of_not_le earlier)
    have less := Gregorian.Date.ordinal_lt_of_before before
    have isEpoch : Gregorian.Date.ordinal
      ⟨1970, 0, 1, by decide, by decide, by decide, by decide⟩ = epoch := by decide
    omega
  have notLater : date.year ≤ 2038 := by
    by_contra later
    have after : rollover.date.Before date := Or.inl (Nat.lt_of_not_le later)
    have greater := Gregorian.Date.ordinal_lt_of_before after
    have isRollover : rollover.date.ordinal = epoch + 24855 := by decide
    omega
  let moment : Moment :=
    ⟨date, time / 3600 % 24, time / 60 % 60, time % 60, fromEpoch, by omega, by omega, by omega,
      by omega⟩
  have isTime : moment.seconds = time := by
    change (date.ordinal - epoch) * 86400 + (time % 60 + time / 60 % 60 * 60 +
      time / 3600 % 24 * 3600) = time
    omega
  refine ⟨moment, before_of_seconds_lt ?_, isTime⟩
  rw [isTime, seconds_rollover]
  exact small

/-- A date from 2001 on that is not the last one of its month, which begins on a Saturday. -/
def Fits (moment : Moment) : Prop :=
  2001 ≤ moment.date.year ∧
    moment.date.day < Gregorian.monthDays (Gregorian.isLeap moment.date.year) moment.date.month ∧
    moment.date.monthBegin.weekday = 6

/-- `gmtime` finds the fields of a moment, from which `mktime` returns to it. -/
def Inverted (moment : Moment) : Prop :=
  ∃ tm, gmtime moment.seconds = some tm ∧ mktime (some tm) = some (moment.seconds : ℤ) ∧
    tm = moment.tm

theorem weekday_iff {date : Gregorian.Date} :
    (date.day + 5) % 7 = date.weekday ↔ date.monthBegin.weekday = 6 := by
  have dayPos := date.dayPos
  have isWeekday : date.monthBegin.weekday < 7 := Nat.mod_lt _ (by decide)
  rw [Gregorian.Date.weekday_eq date]
  omega

theorem inverted_iff (before : moment.Before rollover) : moment.Inverted ↔ moment.Fits := by
  have afterEpoch := moment.epoch_le
  have timeOfDay := moment.timeOfDay_lt
  have small := seconds_lt_of_before before
  rw [seconds_rollover] at small
  have isSeconds : moment.seconds =
    (moment.date.ordinal - epoch) * 86400 + moment.timeOfDay := rfl
  obtain ⟨year, month, day, from1970, before2100, isMonth, inMonth, found, isTm⟩ :=
    @gmtime_spec moment.seconds (moment.date.ordinal - epoch) (by omega) (by omega) (by omega)
  have cases := @found_cases moment.date year month day from1970 isMonth inMonth (by omega)
  have isInverted : moment.Inverted ↔ gmtime moment.seconds = some moment.tm := by
    constructor
    · rintro ⟨tm, isTm, -, rfl⟩
      exact isTm
    · intro isTm
      exact ⟨moment.tm, isTm, mktime_of_before before, rfl⟩
  rw [isInverted, isTm, Option.some.injEq]
  rcases cases with ⟨early, oneLess⟩ | ⟨rfl, rfl, rfl, notLast, late⟩ | ⟨noDay, isLast⟩
  · refine iff_of_false (fun same => ?_) (fun fits => ?_)
    · have sameDay : (day : ℤ) = moment.date.day := congrArg Tm.mday same
      omega
    · exact absurd fits.1 (by omega)
  · have dayPos := moment.date.dayPos
    have hourLt := moment.hourLt
    have minLt := moment.minLt
    have secLt := moment.secLt
    have isTimeOfDay : moment.timeOfDay = moment.sec + moment.min * 60 + moment.hour * 3600 := rfl
    have sameWeekday : ((moment.date.day : ℤ) + 5) % 7 = moment.date.weekday ↔
        moment.date.monthBegin.weekday = 6 := by
      rw [← weekday_iff]
      omega
    have sameYearDay : (moment.date.day : ℤ) - 1 +
        Gregorian.daysBeforeMonth (seemsLeap moment.date.year) moment.date.month =
          moment.date.yearDay ↔ 2001 ≤ moment.date.year := by
      rw [← seems_months isMonth late, Gregorian.Date.yearDay]
      omega
    simp only [tm, Tm.mk.injEq, sameWeekday, sameYearDay, Fits]
    constructor
    · rintro ⟨-, -, -, -, -, -, saturday, after2000, -⟩
      exact ⟨after2000, notLast, saturday⟩
    · rintro ⟨after2000, -, saturday⟩
      exact ⟨by omega, by omega, by omega, trivial, trivial, trivial, saturday, after2000, trivial⟩
  · refine iff_of_false (fun same => ?_) (fun fits => ?_)
    · have sameDay : (day : ℤ) = moment.date.day := congrArg Tm.mday same
      have dayPos := moment.date.dayPos
      omega
    · exact absurd fits.2.1 (by omega)

end Moment

/--
Every time before the rollover is that of a moment, and `gmtime` is inverse to `mktime` there
if and only if the date is one from 2001 on that is not the last one of its month, and the
month begins on a Saturday.
-/
theorem gmtime_inverted (time : ℕ) (small : time < 2 ^ 31) :
    ∃ moment : Moment, moment.seconds = time ∧ (moment.Inverted ↔ moment.Fits) := by
  obtain ⟨moment, before, isTime⟩ := Moment.exists_of_time small
  exact ⟨moment, isTime, Moment.inverted_iff before⟩

theorem gmtime_inverted_billion : 1000000000 < 2 ^ 31 ∧
    ∃ moment : Moment, moment.seconds = 1000000000 ∧ (moment.Inverted ↔ moment.Fits) :=
  ⟨by decide, gmtime_inverted 1000000000 (by decide)⟩

/-- At the beginning of 1970 the day of the month is 0. -/
theorem not_gmtime_inverted : ¬ ∀ time < 2 ^ 31,
    ∃ moment : Moment, moment.seconds = time ∧ moment.Inverted := by
  intro all
  obtain ⟨moment, isTime, inverted⟩ := all 0 (by decide)
  have before : moment.Before Moment.rollover := by
    apply Moment.before_of_seconds_lt
    rw [isTime]
    decide
  obtain ⟨after2000, -⟩ := (Moment.inverted_iff before).mp inverted
  have later : ({ Moment.rollover with
      date := ⟨1971, 0, 1, by decide, by decide, by decide, by decide⟩
      fromEpoch := by decide
      isInt := by decide } : Moment).Before moment :=
    Or.inl (Or.inl (Nat.lt_of_lt_of_le (by decide) after2000))
  have positive := Moment.seconds_lt_of_before later
  omega

end Osix.Time
