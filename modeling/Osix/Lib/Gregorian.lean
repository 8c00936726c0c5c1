import Mathlib.Order.Monotone.Basic

/-!
# The Gregorian calendar

Dates with their number of days since the first day of year 1, in closed form. Dates are ordered
as their numbers are, every number belongs to exactly one date, and the days of the week follow
each other from a Monday.
-/

namespace Gregorian

/-! ## Years and months -/

/-- Every fourth year is a leap year, except the centuries that 400 does not divide. -/
def isLeap (year : ℕ) : Bool := year % 4 = 0 ∧ (year % 100 ≠ 0 ∨ year % 400 = 0)

def yearDays (year : ℕ) : ℕ := if isLeap year then 366 else 365

/-- The days of a month; the months are counted from 0. -/
def monthDays (leap : Bool) : ℕ → ℕ
  | 0 => 31
  | 1 => if leap then 29 else 28
  | 2 => 31
  | 3 => 30
  | 4 => 31
  | 5 => 30
  | 6 => 31
  | 7 => 31
  | 8 => 30
  | 9 => 31
  | 10 => 30
  | 11 => 31
  | _ => 0

/-- The days before a month. -/
def daysBeforeMonth (leap : Bool) : ℕ → ℕ
  | 0 => 0
  | month + 1 => daysBeforeMonth leap month + monthDays leap month

/-- The days before a year since the beginning of year 1. -/
def daysBeforeYear (year : ℕ) : ℕ :=
  365 * (year - 1) + (year - 1) / 4 - (year - 1) / 100 + (year - 1) / 400

theorem daysBeforeYear_succ {year : ℕ} (positive : 1 ≤ year) :
    daysBeforeYear (year + 1) = daysBeforeYear year + yearDays year := by
  obtain ⟨year, rfl⟩ := Nat.exists_eq_add_of_le' positive
  have fourths := @Nat.succ_div year 4
  have centuries := @Nat.succ_div year 100
  have fourCenturies := @Nat.succ_div year 400
  have fewer : year / 100 ≤ year / 4 := Nat.div_le_div_left (by decide) (by decide)
  have centuryIsFourth : 100 ∣ year + 1 → 4 ∣ year + 1 := Nat.dvd_trans (by decide)
  have fourIsCentury : 400 ∣ year + 1 → 100 ∣ year + 1 := Nat.dvd_trans (by decide)
  unfold daysBeforeYear yearDays isLeap
  simp only [Nat.add_sub_cancel, decide_eq_true_eq, ← Nat.dvd_iff_mod_eq_zero, fourths, centuries,
    fourCenturies, ne_eq]
  by_cases isFourth : 4 ∣ year + 1
  · by_cases isCentury : 100 ∣ year + 1
    · by_cases isFourCentury : 400 ∣ year + 1
      · simp only [isFourth, isCentury, isFourCentury, if_true, not_true, or_true, and_true]
        omega
      · simp only [isFourth, isCentury, isFourCentury, if_true, if_false, not_true, or_false,
          and_false]
        omega
    · have notFour : ¬ 400 ∣ year + 1 := mt fourIsCentury isCentury
      simp only [isFourth, isCentury, notFour, if_true, if_false, not_false_eq_true, true_or,
        and_true]
      omega
  · have notCentury : ¬ 100 ∣ year + 1 := mt centuryIsFourth isFourth
    have notFour : ¬ 400 ∣ year + 1 := mt fourIsCentury notCentury
    simp only [isFourth, notCentury, notFour, if_false, false_and]
    omega

theorem daysBeforeYear_mono {left right : ℕ} (positive : 1 ≤ left) (le : left ≤ right) :
    daysBeforeYear left ≤ daysBeforeYear right := by
  induction right, le using Nat.le_induction with
  | base => exact Nat.le_refl _
  | succ right le ih =>
      rw [daysBeforeYear_succ (Nat.le_trans positive le)]
      exact Nat.le_add_right_of_le ih

theorem daysBeforeMonth_twelve (year : ℕ) :
    daysBeforeMonth (isLeap year) 12 = yearDays year := by
  unfold yearDays
  cases isLeap year <;> rfl

theorem daysBeforeMonth_mono (leap : Bool) : Monotone (daysBeforeMonth leap) :=
  monotone_nat_of_le_succ fun _ => Nat.le_add_right _ _

/-- A month ends before the next one begins, and the last one with the year. -/
theorem daysBeforeMonth_add_le {leap : Bool} {month later : ℕ} (before : month < later) :
    daysBeforeMonth leap month + monthDays leap month ≤ daysBeforeMonth leap later :=
  daysBeforeMonth_mono leap before

theorem monthDays_pos (leap : Bool) {month : ℕ} (isMonth : month < 12) :
    28 ≤ monthDays leap month := by
  cases leap <;> (revert month; decide)

/-! ## Dates -/

structure Date where
  year : ℕ
  month : ℕ
  day : ℕ
  yearPos : 1 ≤ year
  isMonth : month < 12
  dayPos : 1 ≤ day
  inMonth : day ≤ monthDays (isLeap year) month

namespace Date

/-- The number of days since the beginning of year 1. -/
def ordinal (date : Date) : ℕ :=
  daysBeforeYear date.year + daysBeforeMonth (isLeap date.year) date.month + (date.day - 1)

/-- The day of the year, from 0. -/
def yearDay (date : Date) : ℕ :=
  daysBeforeMonth (isLeap date.year) date.month + (date.day - 1)

/-- The day of the week, from 0 for Sunday. -/
def weekday (date : Date) : ℕ := (date.ordinal + 1) % 7

/-- The first day of the same month. -/
def monthBegin (date : Date) : Date where
  year := date.year
  month := date.month
  day := 1
  yearPos := date.yearPos
  isMonth := date.isMonth
  dayPos := Nat.le_refl 1
  inMonth := Nat.le_trans date.dayPos date.inMonth

/-- A date is before another one. -/
def Before (left right : Date) : Prop :=
  left.year < right.year ∨ left.year = right.year ∧
    (left.month < right.month ∨ left.month = right.month ∧ left.day < right.day)

instance (left right : Date) : Decidable (left.Before right) := by
  unfold Before
  infer_instance

variable {left right : Date}

theorem yearDay_lt (date : Date) : date.yearDay < yearDays date.year := by
  have inMonth := date.inMonth
  have inYear := @daysBeforeMonth_add_le (isLeap date.year) date.month 12 date.isMonth
  have dayPos := date.dayPos
  rw [daysBeforeMonth_twelve] at inYear
  unfold yearDay
  omega

theorem ordinal_lt_of_before (before : left.Before right) : left.ordinal < right.ordinal := by
  have inYear := left.yearDay_lt
  have leftDay := left.dayPos
  have inMonth := left.inMonth
  unfold yearDay at inYear
  unfold ordinal
  rcases before with yearBefore | ⟨sameYear, monthBefore | ⟨sameMonth, dayBefore⟩⟩
  · have next := daysBeforeYear_succ left.yearPos
    have later := daysBeforeYear_mono (Nat.le_add_left 1 _) yearBefore
    omega
  · have later := @daysBeforeMonth_add_le (isLeap left.year) _ _ monthBefore
    rw [← sameYear]
    omega
  · rw [← sameYear, ← sameMonth]
    omega

theorem before_trichotomy (left right : Date) :
    left.Before right ∨ left = right ∨ right.Before left := by
  obtain ⟨year, month, day⟩ := left
  obtain ⟨year', month', day'⟩ := right
  simp only [Before, mk.injEq]
  omega

theorem before_iff_ordinal_lt : left.Before right ↔ left.ordinal < right.ordinal := by
  constructor
  · exact ordinal_lt_of_before
  · intro less
    rcases before_trichotomy left right with before | rfl | after
    · exact before
    · exact absurd less (Nat.lt_irrefl _)
    · exact absurd (ordinal_lt_of_before after) (Nat.lt_asymm less)

theorem ordinal_injective : Function.Injective ordinal := by
  intro left right same
  rcases before_trichotomy left right with before | isSame | after
  · exact absurd same (Nat.ne_of_lt (ordinal_lt_of_before before))
  · exact isSame
  · exact absurd same (Nat.ne_of_gt (ordinal_lt_of_before after))

/-- The next day is in the same month, in the next one, or in the next year. -/
theorem exists_next (date : Date) : ∃ next : Date, next.ordinal = date.ordinal + 1 := by
  obtain ⟨year, month, day, yearPos, isMonth, dayPos, inMonth⟩ := date
  by_cases lastDay : day < monthDays (isLeap year) month
  · refine ⟨⟨year, month, day + 1, yearPos, isMonth, Nat.le_add_left 1 _, lastDay⟩, ?_⟩
    simp only [ordinal]
    omega
  · by_cases lastMonth : month + 1 < 12
    · have isFirst := monthDays_pos (isLeap year) lastMonth
      refine ⟨⟨year, month + 1, 1, yearPos, lastMonth, Nat.le_refl 1, by omega⟩, ?_⟩
      simp only [ordinal, daysBeforeMonth]
      omega
    · have isFirst := monthDays_pos (isLeap (year + 1)) (show 0 < 12 by decide)
      refine ⟨⟨year + 1, 0, 1, by omega, by omega, Nat.le_refl 1, by omega⟩, ?_⟩
      have isDecember : month = 11 := by omega
      subst isDecember
      have wholeYear : daysBeforeMonth (isLeap year) 11 + monthDays (isLeap year) 11 =
          yearDays year := daysBeforeMonth_twelve year
      have noMonth : daysBeforeMonth (isLeap (year + 1)) 0 = 0 := rfl
      simp only [ordinal, daysBeforeYear_succ yearPos, noMonth]
      omega

theorem exists_date (count : ℕ) : ∃ date : Date, date.ordinal = count := by
  induction count with
  | zero => exact ⟨⟨1, 0, 1, by decide, by decide, by decide, by decide⟩, rfl⟩
  | succ count ih =>
      obtain ⟨date, rfl⟩ := ih
      exact exists_next date

/-- Within a month the days of the week follow the days. -/
theorem weekday_eq (date : Date) :
    date.weekday = (date.monthBegin.weekday + (date.day - 1)) % 7 := by
  unfold weekday ordinal monthBegin
  dsimp only
  omega

end Date

end Gregorian
