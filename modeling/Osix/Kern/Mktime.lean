import Osix.Basic
import Osix.Lib.Gregorian
import Mathlib.Tactic.Common

/-!
# The time of the calendar

`mktime`, which `sys/libkern/mktime.c` and `lib/libc/time.c` have with the same text, and the
clock that `sys/i386/rtc.c` reads from the CMOS at boot. An `int` and a `time_t` have 32 bits and
wrap around. A sum of products may as well be reduced once, at its end.
-/

namespace Osix.Time

/-- `struct tm`. -/
structure Tm where
  sec : ℤ
  min : ℤ
  hour : ℤ
  mday : ℤ
  mon : ℤ
  year : ℤ
  wday : ℤ
  yday : ℤ
  isdst : ℤ
deriving DecidableEq

/-- A number in 32 bits. -/
def int32 (value : ℤ) : ℤ := value.bmod (2 ^ 32)

/-- `days_in_month`. -/
def daysInMonth : List ℤ := [31, 28, 31, 30, 31, 30, 31, 31, 30, 31, 30, 31]

/-- `is_leap_year`, for a year since 1900. -/
def isLeapYear (year : ℤ) : Bool :=
  year.tmod 4 = 0 ∧ (year.tmod 100 ≠ 0 ∨ (int32 (year + 1900)).tmod 400 = 0)

def daysInYear (year : ℤ) : ℤ := if isLeapYear year then 366 else 365

/-- The loop over the months before `m`, which can leave the table. -/
def addMonths : ℕ → ℤ → Option ℤ
  | 0, result => some result
  | m + 1, result => (daysInMonth[m]?).bind fun days => addMonths m (result + days)

/-- The loop over the years from `y` on. -/
def addYears : ℕ → ℤ → ℤ → ℤ
  | 0, _, result => result
  | count + 1, y, result => addYears count (y + 1) (result + daysInYear y)

def mktime : Option Tm → Option ℤ
  | none => some 0
  | some tm => do
      let result ← addMonths tm.mon.toNat (tm.mday - 1)
      let result := if 1 < tm.mon ∧ daysInYear tm.year = 366 then result + 1 else result
      let result := addYears (tm.year - 70).toNat 70 result
      let result := result * (60 * 60 * 24)
      return int32 (result + (tm.sec + tm.min * 60 + tm.hour * (60 * 60)))

theorem mktime_some {tm : Tm} {months result : ℤ}
    (isMonths : addMonths tm.mon.toNat (tm.mday - 1) = some months)
    (isResult : (if 1 < tm.mon ∧ daysInYear tm.year = 366 then months + 1 else months) = result) :
    mktime (some tm) = some (int32 (addYears (tm.year - 70).toNat 70 result * (60 * 60 * 24) +
      (tm.sec + tm.min * 60 + tm.hour * (60 * 60)))) := by
  subst isResult
  simp only [mktime, isMonths, Option.bind_eq_bind, Option.bind_some, Option.pure_def]

/-! ## Civil times -/

/-- The number of the first of January 1970. -/
def epoch : ℕ := 719162

/-- A date and a time of day from 1970 on, with a `tm_year` that is an `int`. -/
structure Moment where
  date : Gregorian.Date
  hour : ℕ
  min : ℕ
  sec : ℕ
  fromEpoch : 1970 ≤ date.year
  isInt : date.year ≤ 2 ^ 31 - 1 + 1900
  hourLt : hour < 24
  minLt : min < 60
  secLt : sec < 60

namespace Moment

/-- The fields as `time.h` documents them. -/
def tm (moment : Moment) : Tm where
  sec := moment.sec
  min := moment.min
  hour := moment.hour
  mday := moment.date.day
  mon := moment.date.month
  year := moment.date.year - 1900
  wday := moment.date.weekday
  yday := moment.date.yearDay
  isdst := 0

def timeOfDay (moment : Moment) : ℕ := moment.sec + moment.min * 60 + moment.hour * 3600

/-- The seconds since the beginning of 1970. -/
def seconds (moment : Moment) : ℕ := (moment.date.ordinal - epoch) * 86400 + moment.timeOfDay

def Before (left right : Moment) : Prop :=
  left.date.Before right.date ∨ left.date = right.date ∧
    (left.hour < right.hour ∨ left.hour = right.hour ∧
      (left.min < right.min ∨ left.min = right.min ∧ left.sec < right.sec))

/-- 2038-01-19 03:14:08. -/
def rollover : Moment where
  date := ⟨2038, 0, 19, by decide, by decide, by decide, by decide⟩
  hour := 3
  min := 14
  sec := 8
  fromEpoch := by decide
  isInt := by decide
  hourLt := by decide
  minLt := by decide
  secLt := by decide

/-- The first year that 400 divides and that is not an `int` itself. -/
def lostLeapYear : ℕ := 2147484000

/-- The leap day of the year 2147484000 is not over yet. -/
def Counted (moment : Moment) : Prop :=
  moment.date.year < lostLeapYear ∨ moment.date.year = lostLeapYear ∧ moment.date.month ≤ 1

end Moment

/-! ## The two loops -/

theorem addMonths_eq {month : ℕ} (isMonth : month ≤ 12) (result : ℤ) :
    addMonths month result = some (result + Gregorian.daysBeforeMonth false month) := by
  induction month generalizing result with
  | zero => simp [addMonths, Gregorian.daysBeforeMonth]
  | succ month ih =>
      have inTable : ∀ m < 12, daysInMonth[m]? = some (Gregorian.monthDays false m : ℤ) := by
        decide
      rw [addMonths, inTable month (by omega), Option.bind_some, ih (by omega),
        Gregorian.daysBeforeMonth]
      congr 1
      omega

theorem daysBeforeMonth_leap {month : ℕ} (isMonth : month ≤ 12) :
    Gregorian.daysBeforeMonth true month =
      Gregorian.daysBeforeMonth false month + if 1 < month then 1 else 0 := by
  revert month
  decide

theorem int32_nat {value : ℕ} (small : value < 2 ^ 31) : int32 value = value := by
  apply Int.bmod_eq_of_le <;> omega

theorem int32_year {year : ℕ} (large : 2 ^ 31 ≤ year) (isInt : year ≤ 2 ^ 31 - 1 + 1900) :
    int32 year = year - 2 ^ 32 := by
  rw [int32, Int.bmod_eq_iff (by decide)]
  omega

/-- In a century that is no `int`, the sum `year + 1900` wraps and is not divided by 400. -/
theorem isLeapYear_eq {year : ℕ} (from1900 : 1900 ≤ year) (isInt : year ≤ 2 ^ 31 - 1 + 1900) :
    isLeapYear (year - 1900) = true ↔
      Gregorian.isLeap year = true ∧ ¬ (2 ^ 31 ≤ year ∧ year % 400 = 0) := by
  have isYear : (year : ℤ) - 1900 + 1900 = year := by omega
  simp only [isLeapYear, Gregorian.isLeap, decide_eq_true_eq, ne_eq, isYear,
    ← Int.dvd_iff_tmod_eq_zero]
  by_cases small : year < 2 ^ 31
  · rw [int32_nat small]
    omega
  · rw [int32_year (by omega) isInt]
    omega

/-! ## The count of the years -/

/-- The leap days that are lost before a year. -/
def lostBefore (year : ℕ) : ℕ := (year - 1) / 400 - (2 ^ 31 - 1) / 400

theorem daysInYear_eq {year : ℕ} (from1900 : 1900 ≤ year) (isInt : year ≤ 2 ^ 31 - 1 + 1900) :
    daysInYear (year - 1900) + lostBefore (year + 1) =
      Gregorian.yearDays year + lostBefore year := by
  have isLeap := isLeapYear_eq from1900 isInt
  have isLeap' : Gregorian.isLeap year = true ↔
      year % 4 = 0 ∧ (year % 100 ≠ 0 ∨ year % 400 = 0) := by
    simp [Gregorian.isLeap]
  unfold daysInYear Gregorian.yearDays lostBefore
  by_cases leap : Gregorian.isLeap year = true
  · rw [if_pos leap]
    by_cases lost : 2 ^ 31 ≤ year ∧ year % 400 = 0
    · rw [if_neg (by rw [isLeap]; exact fun both => both.2 lost)]
      omega
    · rw [if_pos (isLeap.mpr ⟨leap, lost⟩)]
      omega
  · rw [if_neg leap, if_neg (by rw [isLeap]; exact fun both => leap both.1)]
    rw [isLeap'] at leap
    omega

theorem addYears_eq {count year : ℕ} (from1900 : 1900 ≤ year)
    (isInt : year + count ≤ 2 ^ 31 + 1900) (result : ℤ) :
    addYears count (year - 1900) result + lostBefore (year + count) +
        Gregorian.daysBeforeYear year =
      result + lostBefore year + Gregorian.daysBeforeYear (year + count) := by
  induction count generalizing year result with
  | zero => rw [addYears, Nat.add_zero]
  | succ count ih =>
      have isNext : (year : ℤ) - 1900 + 1 = ((year + 1 : ℕ) : ℤ) - 1900 := by omega
      have sameYear : year + (count + 1) = year + 1 + count := by omega
      have rest := @ih (year + 1) (by omega) (by omega) (result + daysInYear (year - 1900))
      have first := daysInYear_eq from1900 (by omega)
      have days := @Gregorian.daysBeforeYear_succ year (by omega)
      rw [addYears, isNext, sameYear]
      omega

namespace Moment

/-- The leap days that `mktime` misses up to a date. -/
def lost (moment : Moment) : ℕ :=
  lostBefore moment.date.year +
    if 1 < moment.date.month ∧ 2 ^ 31 ≤ moment.date.year ∧ moment.date.year % 400 = 0 then 1 else 0

theorem epoch_le (moment : Moment) : epoch ≤ moment.date.ordinal := by
  have later := Gregorian.daysBeforeYear_mono (by decide) moment.fromEpoch
  have isEpoch : Gregorian.daysBeforeYear 1970 = epoch := by decide
  unfold Gregorian.Date.ordinal
  omega

/-- The days up to a date in its year, as the code counts them. -/
theorem inYear (moment : Moment) :
    (if 1 < moment.tm.mon ∧ daysInYear moment.tm.year = 366 then
      moment.tm.mday - 1 + Gregorian.daysBeforeMonth false moment.date.month + 1
    else moment.tm.mday - 1 + Gregorian.daysBeforeMonth false moment.date.month) +
        moment.lost =
      lostBefore moment.date.year + ((moment.date.day : ℤ) - 1) +
        Gregorian.daysBeforeMonth (Gregorian.isLeap moment.date.year) moment.date.month := by
  have fromEpoch := moment.fromEpoch
  have isMonth : moment.date.month ≤ 12 := Nat.le_of_lt moment.date.isMonth
  have isLeap := @isLeapYear_eq moment.date.year (by omega) moment.isInt
  have isFull : daysInYear moment.tm.year = 366 ↔ isLeapYear (moment.date.year - 1900) = true := by
    change (if isLeapYear (moment.date.year - 1900) then (366 : ℤ) else 365) = 366 ↔ _
    split <;> simp_all
  have isDay : moment.tm.mday = moment.date.day := rfl
  have isTaken : 1 < moment.tm.mon ∧ daysInYear moment.tm.year = 366 ↔
      1 < moment.date.month ∧ Gregorian.isLeap moment.date.year = true ∧
        ¬ (2 ^ 31 ≤ moment.date.year ∧ moment.date.year % 400 = 0) := by
    rw [isFull, isLeap]
    exact and_congr Int.ofNat_lt Iff.rfl
  rw [isDay, lost]
  rcases leap : Gregorian.isLeap moment.date.year
  · have noCentury : ¬ moment.date.year % 400 = 0 := by
      intro century
      rw [Gregorian.isLeap, decide_eq_false_iff_not] at leap
      omega
    rw [if_neg (mt isTaken.mp (by simp [leap])), if_neg (by tauto)]
    omega
  · have leapMonths := daysBeforeMonth_leap isMonth
    by_cases late : 1 < moment.date.month
    · rw [if_pos late] at leapMonths
      by_cases isLost : 2 ^ 31 ≤ moment.date.year ∧ moment.date.year % 400 = 0
      · rw [if_neg (mt isTaken.mp (by tauto)), if_pos ⟨late, isLost⟩]
        omega
      · rw [if_pos (isTaken.mpr ⟨late, leap, isLost⟩), if_neg (by tauto)]
        omega
    · rw [if_neg late] at leapMonths
      rw [if_neg (mt isTaken.mp (by tauto)), if_neg (by tauto)]
      omega

theorem mktime_eq (moment : Moment) :
    mktime (some moment.tm) = some (int32 (moment.seconds - moment.lost * 86400)) := by
  have fromEpoch := moment.fromEpoch
  have isInt := moment.isInt
  have dayPos := moment.date.dayPos
  have afterEpoch := moment.epoch_le
  have isMonth : moment.date.month ≤ 12 := Nat.le_of_lt moment.date.isMonth
  have isCount : ((moment.date.year : ℤ) - 1900 - 70).toNat = moment.date.year - 1970 := by omega
  have sameYear : 1970 + (moment.date.year - 1970) = moment.date.year := by omega
  have years := @addYears_eq (moment.date.year - 1970) 1970 (by decide) (by omega)
  have isEpoch : Gregorian.daysBeforeYear 1970 = epoch := by decide
  have noneLost : lostBefore 1970 = 0 := by decide
  have isFirst : ((1970 : ℕ) : ℤ) - 1900 = 70 := by decide
  rw [sameYear, isFirst, isEpoch, noneLost] at years
  have isOrdinal : moment.date.ordinal = Gregorian.daysBeforeYear moment.date.year +
    Gregorian.daysBeforeMonth (Gregorian.isLeap moment.date.year) moment.date.month +
      (moment.date.day - 1) := rfl
  have months : addMonths moment.tm.mon.toNat (moment.tm.mday - 1) =
      some (moment.tm.mday - 1 + Gregorian.daysBeforeMonth false moment.date.month) :=
    addMonths_eq isMonth _
  -- The days up to the date in its year, as the code counts them.
  obtain ⟨result, isResult, inYear⟩ : ∃ result : ℤ,
      (if 1 < moment.tm.mon ∧ daysInYear moment.tm.year = 366 then
        moment.tm.mday - 1 + Gregorian.daysBeforeMonth false moment.date.month + 1
      else moment.tm.mday - 1 + Gregorian.daysBeforeMonth false moment.date.month) = result ∧
      result + moment.lost = lostBefore moment.date.year + ((moment.date.day : ℤ) - 1) +
        Gregorian.daysBeforeMonth (Gregorian.isLeap moment.date.year) moment.date.month :=
    ⟨_, rfl, moment.inYear⟩
  have isDays : addYears (moment.tm.year - 70).toNat 70 result =
      ((moment.date.ordinal - epoch : ℕ) : ℤ) - moment.lost := by
    have total := years result
    have isYear : moment.tm.year = moment.date.year - 1900 := rfl
    rw [isYear, isCount]
    omega
  have isSum : (((moment.date.ordinal - epoch : ℕ) : ℤ) - moment.lost) * (60 * 60 * 24) +
      (moment.tm.sec + moment.tm.min * 60 + moment.tm.hour * (60 * 60)) =
      moment.seconds - moment.lost * 86400 := by
    unfold seconds timeOfDay tm
    dsimp only
    omega
  refine (mktime_some months isResult).trans ?_
  rw [isDays, isSum]

theorem lost_eq_zero (moment : Moment) : moment.lost = 0 ↔ moment.Counted := by
  unfold lost Counted lostBefore lostLeapYear
  split <;> omega

theorem lost_le (moment : Moment) : moment.lost ≤ 5 := by
  have isInt := moment.isInt
  unfold lost lostBefore
  split <;> omega

/-- The time is right modulo `2 ^ 32` as long as no leap day is missed. -/
theorem mktime_iff (moment : Moment) :
    mktime (some moment.tm) = some (int32 moment.seconds) ↔ moment.Counted := by
  have few := moment.lost_le
  rw [mktime_eq, Option.some.injEq, int32, int32, Int.bmod_eq_bmod_iff_bmod_sub_eq_zero,
    ← Int.dvd_iff_bmod_eq_zero, ← lost_eq_zero]
  have isLost : (moment.seconds : ℤ) - moment.lost * 86400 - moment.seconds =
      -((moment.lost * 86400 : ℕ) : ℤ) := by
    omega
  rw [isLost, Int.dvd_neg, Int.natCast_dvd_natCast]
  have isZero : ∀ lost < 6, 2 ^ 32 ∣ lost * 86400 ↔ lost = 0 := by decide
  exact isZero moment.lost (Nat.lt_succ_of_le few)

/-! ## Before 2038 -/

variable {left right moment : Moment}

theorem timeOfDay_lt (moment : Moment) : moment.timeOfDay < 86400 := by
  have hourLt := moment.hourLt
  have minLt := moment.minLt
  have secLt := moment.secLt
  unfold timeOfDay
  omega

theorem Before.trans {other : Moment} (before : left.Before right)
    (after : right.Before other) : left.Before other := by
  rcases before with dateBefore | ⟨sameDate, timeBefore⟩
  · rcases after with dateAfter | ⟨sameDate', -⟩
    · refine Or.inl ?_
      rw [Gregorian.Date.before_iff_ordinal_lt] at dateBefore dateAfter ⊢
      exact Nat.lt_trans dateBefore dateAfter
    · exact Or.inl (sameDate' ▸ dateBefore)
  · rcases after with dateAfter | ⟨sameDate', timeAfter⟩
    · exact Or.inl (sameDate ▸ dateAfter)
    · exact Or.inr ⟨sameDate.trans sameDate', by omega⟩

theorem seconds_lt_of_before (before : left.Before right) : left.seconds < right.seconds := by
  have leftEpoch := left.epoch_le
  have leftDay := left.timeOfDay_lt
  unfold seconds
  rcases before with dateBefore | ⟨sameDate, timeBefore⟩
  · have later := Gregorian.Date.ordinal_lt_of_before dateBefore
    omega
  · have minLt := left.minLt
    have secLt := left.secLt
    rw [sameDate]
    unfold timeOfDay
    omega

theorem before_of_seconds_lt (less : left.seconds < right.seconds) : left.Before right := by
  have leftEpoch := left.epoch_le
  have rightEpoch := right.epoch_le
  have leftDay := left.timeOfDay_lt
  have rightDay := right.timeOfDay_lt
  unfold seconds at less
  rcases Gregorian.Date.before_trichotomy left.date right.date with before | same | after
  · exact Or.inl before
  · have leftMin := left.minLt
    have leftSec := left.secLt
    have rightMin := right.minLt
    have rightSec := right.secLt
    rw [same, timeOfDay, timeOfDay] at less
    exact Or.inr ⟨same, by omega⟩
  · have later := Gregorian.Date.ordinal_lt_of_before after
    omega

theorem year_le_of_before (before : moment.Before rollover) : moment.date.year ≤ 2038 := by
  rcases before with dateBefore | ⟨sameDate, -⟩
  · rcases dateBefore with yearBefore | ⟨sameYear, -⟩
    · exact Nat.le_of_lt yearBefore
    · exact Nat.le_of_eq sameYear
  · rw [sameDate]
    exact Nat.le_refl _

theorem seconds_rollover : rollover.seconds = 2 ^ 31 := by decide

/-- Before the rollover the count is exact. -/
theorem mktime_of_before (before : moment.Before rollover) :
    mktime (some moment.tm) = some (moment.seconds : ℤ) := by
  have small := seconds_lt_of_before before
  rw [seconds_rollover] at small
  have counted : moment.Counted := by
    have notLater := year_le_of_before before
    exact Or.inl (Nat.lt_of_le_of_lt notLater (by decide))
  rw [(mktime_iff moment).mpr counted, int32_nat small]

end Moment

/-! ## The clock of the CMOS -/

/-- `rtc_bcd2bin`. -/
def rtcBcd2bin (bcd : ℕ) : ℕ := (bcd &&& 0x0F) + (bcd >>> 4) * 10

/-- `rtc_read_clock`, which reads seven registers from the read `now` on. -/
def rtcReadClock (cmosRead : ℕ → ℕ → ℕ) (now : ℕ) : Tm where
  sec := rtcBcd2bin (cmosRead now 0x0)
  min := rtcBcd2bin (cmosRead (now + 1) 0x2)
  hour := rtcBcd2bin (cmosRead (now + 2) 0x4)
  mday := rtcBcd2bin (cmosRead (now + 3) 0x7)
  mon := rtcBcd2bin (cmosRead (now + 4) 0x8) - 1
  year := rtcBcd2bin (cmosRead (now + 5) 0x9) + rtcBcd2bin (cmosRead (now + 6) 0x32) * 100 - 1900
  wday := 0
  yday := 0
  isdst := 0

/-- `rtc_read`: the time that is set, and the number of the next read. -/
def rtcRead (cmosRead : ℕ → ℕ → ℕ) : ℕ → ℕ → Option (ℤ × ℕ)
  | 0, _ => none
  | fuel + 1, now => do
      let time1 ← mktime (some (rtcReadClock cmosRead now))
      let time2 ← mktime (some (rtcReadClock cmosRead (now + 7)))
      if time1 ≠ time2 then rtcRead cmosRead fuel (now + 14) else return (time1, now + 14)

/-- Two readings that are equal end the loop. -/
theorem rtcRead_of_same {cmosRead : ℕ → ℕ → ℕ} {fuel now : ℕ} {time : ℤ}
    (isFirst : mktime (some (rtcReadClock cmosRead now)) = some time)
    (isSecond : mktime (some (rtcReadClock cmosRead (now + 7))) = some time) :
    rtcRead cmosRead (fuel + 1) now = some (time, now + 14) := by
  simp [rtcRead, isFirst, isSecond]

/-- Two decimal digits. -/
def bcd (value : ℕ) : ℕ := value / 10 * 16 + value % 10

/-- The register at an address, while the clock shows this moment. -/
def register (moment : Moment) (address : ℕ) : ℕ :=
  if address = 0x0 then bcd moment.sec
  else if address = 0x2 then bcd moment.min
  else if address = 0x4 then bcd moment.hour
  else if address = 0x7 then bcd moment.date.day
  else if address = 0x8 then bcd (moment.date.month + 1)
  else if address = 0x9 then bcd (moment.date.year % 100)
  else if address = 0x32 then bcd (moment.date.year / 100)
  else 0

/-- What the clock shows at each read. -/
abbrev Clock := ℕ → Moment

namespace Clock

/-- `cmos_read`. -/
def cmosRead (clock : Clock) (now address : ℕ) : ℕ := register (clock now) address

/-- The clock shows moments before the rollover. -/
def InTime (clock : Clock) : Prop := ∀ now, (clock now).Before Moment.rollover

/-- While it is read twice the clock is updated once at most. -/
def Slow (clock : Clock) : Prop :=
  ∀ now, ∃ update, (∀ index < 14, index < update → clock (now + index) = clock now) ∧
    ∀ index < 14, update ≤ index → clock (now + index) = clock (now + 13)

end Clock

theorem rtcBcd2bin_bcd {value : ℕ} (small : value < 100) : rtcBcd2bin (bcd value) = value := by
  revert value
  decide

namespace Clock

variable {clock : Clock}

/-- A reading during which nothing is updated. -/
theorem mktime_reading (inTime : clock.InTime) {now index : ℕ}
    (still : ∀ read < 7, clock (now + read) = clock index) :
    mktime (some (rtcReadClock clock.cmosRead now)) = some ((clock index).seconds : ℤ) := by
  have before := inTime index
  have notLater := Moment.year_le_of_before before
  have inMonth := (clock index).date.inMonth
  have isMonth := (clock index).date.isMonth
  have isDay : (clock index).date.day < 100 := by
    have atMost : ∀ leap, ∀ month < 12, Gregorian.monthDays leap month < 100 := by decide
    exact Nat.lt_of_le_of_lt inMonth (atMost _ _ isMonth)
  have isHour := (clock index).hourLt
  have isMin := (clock index).minLt
  have isSec := (clock index).secLt
  have sameFields : rtcReadClock clock.cmosRead now =
      { (clock index).tm with wday := 0, yday := 0 } := by
    have isFirst : clock now = clock index := still 0 (by decide)
    simp only [rtcReadClock, cmosRead, isFirst, still, Nat.reduceLT, register, if_true,
      Nat.reduceEqDiff, if_false, Moment.tm, Tm.mk.injEq]
    rw [rtcBcd2bin_bcd (by omega), rtcBcd2bin_bcd (by omega), rtcBcd2bin_bcd (by omega),
      rtcBcd2bin_bcd isDay, rtcBcd2bin_bcd (by omega), rtcBcd2bin_bcd (by omega),
      rtcBcd2bin_bcd (by omega)]
    exact ⟨rfl, rfl, rfl, rfl, by omega, by omega, trivial, trivial, trivial⟩
  rw [sameFields]
  exact Moment.mktime_of_before before

/-- One of the two readings is not interrupted by an update. -/
theorem mktime_pair (inTime : clock.InTime) (slow : clock.Slow) (now : ℕ) :
    (∃ index, now ≤ index ∧ index < now + 14 ∧
      (mktime (some (rtcReadClock clock.cmosRead now)) = some ((clock index).seconds : ℤ) ∨
        mktime (some (rtcReadClock clock.cmosRead (now + 7))) =
          some ((clock index).seconds : ℤ))) := by
  obtain ⟨update, before, after⟩ := slow now
  by_cases late : 7 ≤ update
  · refine ⟨now, Nat.le_refl _, by omega, Or.inl (mktime_reading inTime ?_)⟩
    intro read inReading
    exact before read (by omega) (by omega)
  · refine ⟨now + 13, by omega, by omega, Or.inr (mktime_reading inTime ?_)⟩
    intro read inReading
    rw [Nat.add_assoc]
    exact after (7 + read) (by omega) (by omega)

/-- The time that is set is that of a moment which was shown during the last two readings. -/
theorem rtcRead_shown (inTime : clock.InTime) (slow : clock.Slow) {fuel now next : ℕ} {time : ℤ}
    (isRead : rtcRead clock.cmosRead fuel now = some (time, next)) :
    ∃ index, now ≤ index ∧ index < next ∧ next ≤ index + 14 ∧
      time = (clock index).seconds := by
  induction fuel generalizing now with
  | zero => contradiction
  | succ fuel ih =>
      simp only [rtcRead, Option.bind_eq_bind, Option.bind_eq_some_iff] at isRead
      obtain ⟨time1, isFirst, time2, isSecond, isRead⟩ := isRead
      split at isRead
      · obtain ⟨index, later, before, close, isTime⟩ := ih isRead
        exact ⟨index, by omega, before, close, isTime⟩
      · rename_i same
        cases isRead
        obtain ⟨index, later, before, shown⟩ := mktime_pair inTime slow now
        refine ⟨index, later, before, by omega, ?_⟩
        rw [isFirst, isSecond, Option.some.injEq, Option.some.injEq] at shown
        rcases shown with isTime | isTime
        · exact isTime
        · exact (not_not.mp same).trans isTime

/-- Without an update the first two readings are enough. -/
theorem rtcRead_still (inTime : clock.InTime) {fuel now : ℕ}
    (still : ∀ index < 14, clock (now + index) = clock now) :
    rtcRead clock.cmosRead (fuel + 1) now = some (((clock now).seconds : ℤ), now + 14) := by
  have isFirst : mktime (some (rtcReadClock clock.cmosRead now)) =
      some ((clock now).seconds : ℤ) := by
    apply mktime_reading inTime
    intro read inReading
    exact still read (by omega)
  have isSecond : mktime (some (rtcReadClock clock.cmosRead (now + 7))) =
      some ((clock now).seconds : ℤ) := by
    apply mktime_reading inTime
    intro read inReading
    rw [Nat.add_assoc]
    exact still (7 + read) (by omega)
  exact rtcRead_of_same isFirst isSecond

end Clock

/-! ## The Gregorian count -/

/--
`mktime` counts the seconds modulo `2 ^ 32` up to the first leap year that is lost; before the
rollover the count is exact and increases with the date, and the clock is set to a moment that
the CMOS has shown during the last two readings.
-/
theorem mktime_gregorian :
    (∀ moment : Moment,
      mktime (some moment.tm) = some (int32 moment.seconds) ↔ moment.Counted) ∧
    (∀ left right : Moment, left.Before right → right.Before Moment.rollover →
      mktime (some left.tm) = some (left.seconds : ℤ) ∧
        mktime (some right.tm) = some (right.seconds : ℤ) ∧ left.seconds < right.seconds) ∧
    ∀ (clock : Clock) (now : ℕ), clock.InTime → clock.Slow →
      (∀ fuel time next, rtcRead clock.cmosRead fuel now = some (time, next) →
        ∃ index, now ≤ index ∧ index < next ∧ next ≤ index + 14 ∧
          time = (clock index).seconds) ∧
      ((∀ index < 14, clock (now + index) = clock now) →
        ∀ fuel, rtcRead clock.cmosRead (fuel + 1) now =
          some (((clock now).seconds : ℤ), now + 14)) := by
  refine ⟨Moment.mktime_iff, ?_, ?_⟩
  · intro left right before beforeRollover
    exact ⟨Moment.mktime_of_before (before.trans beforeRollover),
      Moment.mktime_of_before beforeRollover, Moment.seconds_lt_of_before before⟩
  · intro clock now inTime slow
    exact ⟨fun fuel time next => Clock.rtcRead_shown inTime slow,
      fun still fuel => Clock.rtcRead_still inTime still⟩

/-- The last second of 1999. -/
def lastSecond : Moment where
  date := ⟨1999, 11, 31, by decide, by decide, by decide, by decide⟩
  hour := 23
  min := 59
  sec := 59
  fromEpoch := by decide
  isInt := by decide
  hourLt := by decide
  minLt := by decide
  secLt := by decide

theorem january_isMonth : 0 < 12 := Nat.succ_pos _
theorem midnight_hour : 0 < 24 := Nat.succ_pos _
theorem midnight_sixtieth : 0 < 60 := Nat.succ_pos _

/-- The first second of 2000. -/
def firstSecond : Moment where
  date := ⟨2000, 0, 1, by decide, january_isMonth, Nat.one_pos, by decide⟩
  hour := 0
  min := 0
  sec := 0
  fromEpoch := by decide
  isInt := by decide
  hourLt := midnight_hour
  minLt := midnight_sixtieth
  secLt := midnight_sixtieth

/-- A clock that is updated before its read 20. -/
def newYear : Clock := fun now => if now < 20 then lastSecond else firstSecond

/--
The update falls into the second reading from read 10 on, which shows 2000-01-01 23:59:59, so
that the clock is read twice more.
-/
theorem mktime_gregorian_newYear :
    rtcRead newYear.cmosRead 2 10 = some (946684800, 38) ∧
      (∃ index, 10 ≤ index ∧ index < 38 ∧ 38 ≤ index + 14 ∧
        (946684800 : ℤ) = (newYear index).seconds) ∧
      rtcRead newYear.cmosRead 1 24 = some (((newYear 24).seconds : ℤ), 38) := by
  have inTime : newYear.InTime := by
    intro now
    rw [newYear]
    split
    · exact Or.inl (Or.inl (by decide))
    · exact Or.inl (Or.inl (by decide))
  have slow : newYear.Slow := by
    intro now
    refine ⟨20 - now, ?_, ?_⟩
    · intro index _ before
      rw [newYear, newYear, if_pos (by omega), if_pos (by omega)]
    · intro index _ after
      rw [newYear, newYear, if_neg (by omega), if_neg (by omega)]
  have isRead : rtcRead newYear.cmosRead 2 10 = some (946684800, 38) := by decide
  have still : ∀ index < 14, newYear (24 + index) = newYear 24 := by
    intro index _
    rw [newYear, newYear, if_neg (by omega), if_neg (by omega)]
  exact ⟨isRead, (mktime_gregorian.2.2 newYear 10 inTime slow).1 2 _ _ isRead,
    (mktime_gregorian.2.2 newYear 24 inTime slow).2 still 0⟩

/-- The first of March of the first year whose leap day is lost. -/
def firstLost : Moment where
  date := ⟨2147484000, 2, 1, by decide, by decide, Nat.one_pos, by decide⟩
  hour := 0
  min := 0
  sec := 0
  fromEpoch := by decide
  isInt := by decide
  hourLt := midnight_hour
  minLt := midnight_sixtieth
  secLt := midnight_sixtieth

theorem not_mktime_gregorian : ¬ ∀ moment : Moment,
    mktime (some moment.tm) = some (int32 moment.seconds) := by
  intro all
  rcases (Moment.mktime_iff firstLost).mp (all firstLost) with earlier | ⟨-, february⟩
  · exact absurd earlier (by decide)
  · exact absurd february (by decide)

end Osix.Time
