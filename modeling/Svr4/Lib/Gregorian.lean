import Mathlib.Logic.Basic

/-!
# The Gregorian calendar

The calendar is the proleptic one: its rule of leap years holds for every year, and there
is a year 0.  Days are numbered from 1 January 1970, months of a year from 0, and days of
a month or of a year from 0.
-/

namespace Svr4
namespace Gregorian

/-!
## Years
-/

def LeapYear (y : Int) : Prop :=
  (y % 4 = 0 ∧ y % 100 ≠ 0) ∨ y % 400 = 0

instance (y : Int) : Decidable (LeapYear y) :=
  inferInstanceAs (Decidable ((y % 4 = 0 ∧ y % 100 ≠ 0) ∨ y % 400 = 0))

def yearLength (y : Int) : Int := if LeapYear y then 366 else 365

def yearStart (y : Int) : Int :=
  365 * (y - 1970) + ((y - 1) / 4 - (y - 1) / 100 + (y - 1) / 400 - 477)

theorem yearStart_epoch : yearStart 1970 = 0 := by
  decide

theorem yearLength_cases (y : Int) : yearLength y = 365 ∨ yearLength y = 366 := by
  unfold yearLength
  split
  · exact Or.inr rfl
  · exact Or.inl rfl

theorem yearLength_pos (y : Int) : 0 < yearLength y := by
  cases yearLength_cases y with
  | inl h => omega
  | inr h => omega

theorem yearStart_succ (y : Int) : yearStart (y + 1) = yearStart y + yearLength y := by
  unfold yearStart yearLength
  by_cases h : LeapYear y
  · rw [if_pos h]
    unfold LeapYear at h
    omega
  · rw [if_neg h]
    unfold LeapYear at h
    omega

theorem yearStart_add (y : Int) (n : Nat) : yearStart y + yearLength y ≤ yearStart (y + 1 + n) := by
  induction n with
  | zero => simp [yearStart_succ]
  | succ n ih =>
    have hstep := yearStart_succ (y + 1 + n)
    have hpos := yearLength_pos (y + 1 + n)
    have hsum : y + 1 + ((n + 1 : Nat) : Int) = y + 1 + n + 1 := by omega
    rw [hsum]
    omega

/-- A later year begins after the whole of an earlier one. -/
theorem yearStart_of_lt {y z : Int} (h : y < z) : yearStart y + yearLength y ≤ yearStart z := by
  have hadd := yearStart_add y (z - y - 1).toNat
  have hsum : y + 1 + ((z - y - 1).toNat : Int) = z := by omega
  rwa [hsum] at hadd

/-- The year of a day: by the mean length of a year it is one of three. -/
def yearOf (n : Int) : Int :=
  let y := 1970 + 400 * n / 146097
  if n < yearStart y then y - 1
  else if n < yearStart (y + 1) then y
  else y + 1

theorem yearOf_spec (n : Int) :
    yearStart (yearOf n) ≤ n ∧ n < yearStart (yearOf n) + yearLength (yearOf n) := by
  rw [← yearStart_succ]
  unfold yearOf
  dsimp only
  split
  · rename_i hlt
    rw [Int.sub_add_cancel]
    constructor
    · unfold yearStart
      omega
    · exact hlt
  · rename_i hge
    split
    · rename_i hlt
      exact ⟨Int.not_lt.mp hge, hlt⟩
    · rename_i hge'
      constructor
      · exact Int.not_lt.mp hge'
      · unfold yearStart
        omega

theorem yearOf_unique {n y : Int} (hle : yearStart y ≤ n)
    (hlt : n < yearStart y + yearLength y) : yearOf n = y := by
  have hspec := yearOf_spec n
  rcases Int.lt_trichotomy (yearOf n) y with hbelow | heq | habove
  · have hnext := yearStart_of_lt hbelow
    omega
  · exact heq
  · have hnext := yearStart_of_lt habove
    omega

/-!
## Months
-/

def monthLength (y : Int) (m : Nat) : Int :=
  if m = 1 then (if LeapYear y then 29 else 28)
  else if m = 3 ∨ m = 5 ∨ m = 8 ∨ m = 10 then 30
  else 31

def monthStart (y : Int) : Nat → Int
  | 0 => 0
  | m + 1 => monthStart y m + monthLength y m

theorem monthLength_bounds (y : Int) (m : Nat) : 28 ≤ monthLength y m ∧ monthLength y m ≤ 31 := by
  unfold monthLength
  repeat' split
  all_goals omega

theorem monthStart_twelve (y : Int) : monthStart y 12 = yearLength y := by
  unfold yearLength
  by_cases h : LeapYear y
  · simp [monthStart, monthLength, h]
  · simp [monthStart, monthLength, h]

theorem monthStart_add (y : Int) (m n : Nat) :
    monthStart y m + monthLength y m ≤ monthStart y (m + 1 + n) := by
  induction n with
  | zero => exact Int.le_refl _
  | succ n ih =>
    have hpos := monthLength_bounds y (m + 1 + n)
    show _ ≤ monthStart y (m + 1 + n) + monthLength y (m + 1 + n)
    omega

theorem monthStart_of_lt (y : Int) {m n : Nat} (h : m < n) :
    monthStart y m + monthLength y m ≤ monthStart y n := by
  have hadd := monthStart_add y m (n - m - 1)
  have hsum : m + 1 + (n - m - 1) = n := by omega
  rwa [hsum] at hadd

theorem monthStart_nonneg (y : Int) (m : Nat) : 0 ≤ monthStart y m := by
  induction m with
  | zero => exact Int.le_refl 0
  | succ m ih =>
    have hpos := monthLength_bounds y m
    show 0 ≤ monthStart y m + monthLength y m
    omega

/-!
## Dates
-/

/-- A day of the calendar. -/
structure Date where
  year : Int
  month : Nat
  day : Int
  month_lt : month < 12
  day_nonneg : 0 ≤ day
  day_lt : day < monthLength year month

namespace Date

def yearDay (d : Date) : Int := monthStart d.year d.month + d.day

def number (d : Date) : Int := yearStart d.year + d.yearDay

theorem yearDay_nonneg (d : Date) : 0 ≤ d.yearDay := by
  have hstart := monthStart_nonneg d.year d.month
  have hday := d.day_nonneg
  unfold yearDay
  omega

theorem yearDay_lt (d : Date) : d.yearDay < yearLength d.year := by
  have hle := monthStart_of_lt d.year d.month_lt
  have hday := d.day_lt
  rw [monthStart_twelve] at hle
  unfold yearDay
  omega

end Date

/-!
## Days of the week
-/

/-- From Sunday on; 1 January 1970 is a Thursday. -/
def weekday (n : Int) : Int := (n + 4) % 7

theorem weekday_bounds (n : Int) : 0 ≤ weekday n ∧ weekday n < 7 := by
  unfold weekday
  omega

/-- The first day of a month, from 1, on a week day; its first day has number `n`. -/
def firstWeekday (n d : Int) : Int := 1 + (d - weekday n) % 7

def laterWeeks (len : Int) : Nat → Int → Int
  | 0, day => day
  | k + 1, day => if day + 7 > len then day else laterWeeks len k (day + 7)

theorem firstWeekday_bounds (n d : Int) : 1 ≤ firstWeekday n d ∧ firstWeekday n d ≤ 7 := by
  unfold firstWeekday
  omega

theorem laterWeeks_bounds (len : Int) (k : Nat) (day : Int) :
    day ≤ laterWeeks len k day ∧ laterWeeks len k day ≤ day + 7 * k := by
  induction k generalizing day with
  | zero => simp [laterWeeks]
  | succ k ih =>
    rw [laterWeeks]
    have hnext := ih (day + 7)
    split <;> omega

end Gregorian
end Svr4
