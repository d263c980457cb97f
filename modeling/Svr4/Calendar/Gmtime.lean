import Svr4.Lib.Gregorian
import Svr4.Calendar.Model

/-!
# The date of a time

`gmtime` shows the Gregorian date of a time, with its week day and its day of the
year.
-/

namespace Svr4
namespace Calendar

open Gregorian

/-!
## Leap years
-/

theorem tmod_eq_zero_iff (y k : Int) : y.tmod k = 0 ↔ y % k = 0 :=
  Int.dvd_iff_tmod_eq_zero.symm.trans Int.dvd_iff_emod_eq_zero

theorem isleap_iff (y : Int) : isleap y = true ↔ LeapYear y := by
  unfold isleap LeapYear
  simp only [Bool.or_eq_true, Bool.and_eq_true, beq_iff_eq, bne_iff_ne, ne_eq, tmod_eq_zero_iff]

theorem yearLengths_isleap (y : Int) : yearLengths (isleap y) = yearLength y := by
  unfold yearLengths yearLength
  by_cases h : LeapYear y
  · rw [if_pos h, if_pos ((isleap_iff y).mpr h)]
  · rw [if_neg h, if_neg (mt (isleap_iff y).mp h)]

theorem monLengths_isleap (y : Int) :
    monLengths (isleap y) = (List.range' 0 12).map (monthLength y) := by
  unfold monLengths
  by_cases h : LeapYear y
  · rw [if_pos ((isleap_iff y).mpr h)]
    simp [List.range', monthLength, h]
  · rw [if_neg (mt (isleap_iff y).mp h)]
    simp [List.range', monthLength, h]

/-!
## The loops
-/

variable {days rem y : Int}

theorem borrowDays_spec (hlt : rem < secsPerDay) :
    (borrowDays days rem).1 * secsPerDay + (borrowDays days rem).2 = days * secsPerDay + rem ∧
      0 ≤ (borrowDays days rem).2 ∧ (borrowDays days rem).2 < secsPerDay := by
  fun_induction borrowDays days rem with
  | case1 days rem hneg ih =>
    have hsum := ih (by unfold secsPerDay at *; omega)
    refine ⟨?_, hsum.2⟩
    rw [hsum.1]
    unfold secsPerDay
    omega
  | case2 days rem hnonneg => exact ⟨rfl, Int.not_lt.mp hnonneg, hlt⟩

theorem carryDays_of_lt (hlt : rem < secsPerDay) : carryDays days rem = (days, rem) := by
  rw [carryDays, if_neg (Int.not_le.mpr hlt)]

theorem yearsUp_spec (hdays : 0 ≤ days) :
    yearStart (yearsUp y days).1 + (yearsUp y days).2 = yearStart y + days ∧
      0 ≤ (yearsUp y days).2 ∧ (yearsUp y days).2 < yearLength (yearsUp y days).1 := by
  fun_induction yearsUp y days with
  | case1 y days hlt => exact ⟨rfl, hdays, by rwa [← yearLengths_isleap]⟩
  | case2 y days hge ih =>
    rw [yearLengths_isleap] at ih hge
    have hsum := ih (by omega)
    rw [yearStart_succ] at hsum
    rw [yearLengths_isleap]
    exact ⟨by omega, hsum.2⟩

theorem yearStart_pred (y : Int) : yearStart y = yearStart (y - 1) + yearLength (y - 1) := by
  have hsucc := yearStart_succ (y - 1)
  rwa [Int.sub_add_cancel] at hsucc

theorem yearsDown_spec (hdays : days < 0) :
    yearStart (yearsDown y days).1 + (yearsDown y days).2 = yearStart y + days ∧
      0 ≤ (yearsDown y days).2 ∧ (yearsDown y days).2 < yearLength (yearsDown y days).1 := by
  fun_induction yearsDown y days with
  | case1 y days hneg ih =>
    rw [yearLengths_isleap] at ih hneg
    have hsum := ih hneg
    rw [yearLengths_isleap]
    have hpred := yearStart_pred y
    exact ⟨by omega, hsum.2⟩
  | case2 y days hnonneg =>
    rw [yearLengths_isleap] at hnonneg ⊢
    have hpred := yearStart_pred y
    dsimp only
    exact ⟨by omega, by omega, by omega⟩

/-- The loop over the months from month `m` on stops in the month of the day. -/
theorem monthsUp_spec (y : Int) {m n : Nat} (hdays : 0 ≤ days)
    (hlt : monthStart y m + days < monthStart y (m + n)) :
    ∃ k : Nat, k < m + n ∧ (monthsUp ((List.range' m n).map (monthLength y)) m days).1 = k ∧
      monthStart y k + (monthsUp ((List.range' m n).map (monthLength y)) m days).2 =
        monthStart y m + days ∧ 0 ≤ (monthsUp ((List.range' m n).map (monthLength y)) m days).2 ∧
      (monthsUp ((List.range' m n).map (monthLength y)) m days).2 < monthLength y k := by
  induction n generalizing m days with
  | zero =>
    rw [Nat.add_zero] at hlt
    omega
  | succ n ih =>
    rw [List.range'_succ, List.map_cons, monthsUp]
    by_cases hge : days ≥ monthLength y m
    · rw [if_pos hge]
      have hstart : monthStart y (m + 1) = monthStart y m + monthLength y m := rfl
      have hnext : monthStart y (m + 1) + (days - monthLength y m) < monthStart y (m + 1 + n) := by
        rw [hstart, Nat.add_assoc m 1 n, Nat.add_comm 1 n]
        omega
      rcases ih (Int.sub_nonneg.mpr hge) hnext with ⟨k, hk, hmon, hsum, hrest⟩
      refine ⟨k, by omega, hmon, ?_, hrest⟩
      rw [show ((m : Int) + 1) = ((m + 1 : Nat) : Int) from rfl, hsum, hstart]
      omega
    · rw [if_neg hge]
      exact ⟨m, by omega, rfl, rfl, hdays, Int.not_le.mp hge⟩

/-!
## The fields
-/

/-- The fields are those of the instant that is so many seconds after the epoch. -/
structure Tm.Shows (tm : Tm) (t : Int) : Prop where
  date : ∃ d : Date, d.number = t / 86400 ∧
    tm.tmYear.toInt = d.year - 1900 ∧ tm.tmMon.toInt = d.month ∧
    tm.tmMday.toInt = d.day + 1 ∧ tm.tmYday.toInt = d.yearDay
  wday : tm.tmWday.toInt = weekday (t / 86400)
  hour : tm.tmHour.toInt = t % 86400 / 3600
  min : tm.tmMin.toInt = t % 3600 / 60
  sec : tm.tmSec.toInt = t % 60
  isdst : tm.tmIsdst = 0

theorem toInt_ofInt_of_fits {x : Int} (hlo : -2147483648 ≤ x) (hhi : x < 2147483648) :
    (Int32.ofInt x).toInt = x :=
  Int32.toInt_ofInt_of_le hlo hhi

theorem split_days (t : Int) :
    (let b := borrowDays (t.tdiv secsPerDay) (t.tmod secsPerDay + 0)
     carryDays b.1 b.2) = (t / 86400, t % 86400) := by
  have hdiv := Int.mul_tdiv_add_tmod t 86400
  have hlt : t.tmod secsPerDay + 0 < secsPerDay := by
    rw [Int.add_zero]
    exact Int.tmod_lt_of_pos t (by decide)
  have hspec := @borrowDays_spec (t.tdiv secsPerDay) _ hlt
  rw [carryDays_of_lt hspec.2.2]
  generalize borrowDays (t.tdiv secsPerDay) (t.tmod secsPerDay + 0) = b at hspec
  unfold secsPerDay at hspec
  rcases b with ⟨days, rem⟩
  exact Prod.ext (show days = _ by omega) (show rem = _ by omega)

theorem years_spec (days : Int) :
    let y := if days ≥ 0 then yearsUp epochYear days else yearsDown epochYear days
    yearStart y.1 + y.2 = days ∧ 0 ≤ y.2 ∧ y.2 < yearLength y.1 := by
  have hepoch : yearStart epochYear = 0 := yearStart_epoch
  by_cases h : days ≥ 0
  · have hspec := yearsUp_spec (y := epochYear) h
    rw [hepoch, Int.zero_add] at hspec
    simpa only [if_pos h] using hspec
  · have hspec := yearsDown_spec (y := epochYear) (Int.not_le.mp h)
    rw [hepoch, Int.zero_add] at hspec
    simpa only [if_neg h] using hspec

theorem months_spec {yday : Int} (hnonneg : 0 ≤ yday) (hlt : yday < yearLength y) :
    ∃ d : Date, d.year = y ∧ d.yearDay = yday ∧
      monthsUp (monLengths (isleap y)) 0 yday = ((d.month : Int), d.day) := by
  have hyear : monthStart y 0 + yday < monthStart y (0 + 12) := by
    rw [Nat.zero_add, monthStart_twelve]
    show 0 + yday < _
    omega
  rcases monthsUp_spec y hnonneg hyear with ⟨k, hk, hmon, hsum, hday, hdaylt⟩
  rw [← monLengths_isleap] at hmon hsum hday hdaylt
  have hzero : ((0 : Nat) : Int) = 0 := rfl
  refine ⟨⟨y, k, _, hk, hday, hdaylt⟩, rfl, ?_, Prod.ext hmon rfl⟩
  have hstart : monthStart y 0 = 0 := rfl
  exact hsum.trans (by omega)

theorem week_mod (x : Int) : (if x.tmod daysPerWeek < 0 then x.tmod daysPerWeek + daysPerWeek
      else x.tmod daysPerWeek) = x % 7 := by
  have hdiv := Int.mul_tdiv_add_tmod x 7
  have hlt := Int.tmod_lt_of_pos x (show (0 : Int) < 7 by decide)
  have hgt := Int.lt_tmod_of_pos x (show (0 : Int) < 7 by decide)
  unfold daysPerWeek
  split <;> omega

theorem gmtime_shows (clock : Int32) : (gmtime clock).Shows clock.toInt := by
  have hlo : -2147483648 ≤ clock.toInt := clock.le_toInt
  have hhi : clock.toInt < 2147483648 := clock.toInt_lt
  have hsplit := split_days clock.toInt
  unfold gmtime offtime
  generalize clock.toInt = t at *
  dsimp only
  rw [hsplit]
  have hyears := years_spec (t / 86400)
  generalize (if t / 86400 ≥ 0 then yearsUp epochYear (t / 86400)
    else yearsDown epochYear (t / 86400)) = y at hyears ⊢
  rcases y with ⟨y, yday⟩
  rcases hyears with ⟨hstart, hyday, hlt⟩
  dsimp only at hstart hyday hlt ⊢
  rcases months_spec hyday hlt with ⟨d, hyear, hyearDay, hmonths⟩
  rw [hmonths]
  have hyearSmall : 0 ≤ y ∧ y < 4000 := by
    have hlength := yearLength_cases y
    unfold yearStart at hstart
    omega
  have hmonth := d.month_lt
  have hday := d.day_nonneg
  have hdayLt := d.day_lt
  have hmonthLength := monthLength_bounds d.year d.month
  have hyearLength := yearLength_cases y
  have hsec : (t % 86400).tmod secsPerHour = t % 3600 := by
    rw [Int.tmod_eq_emod_of_nonneg (by omega)]
    unfold secsPerHour
    omega
  rw [hsec, Int.tdiv_eq_ediv_of_nonneg (by omega), Int.tdiv_eq_ediv_of_nonneg (by omega),
    Int.tmod_eq_emod_of_nonneg (by omega)]
  constructor
  · refine ⟨d, ?_, ?_, ?_, ?_, ?_⟩
    · unfold Date.number
      rw [hyear, hyearDay]
      exact hstart
    · rw [hyear]
      exact toInt_ofInt_of_fits (by unfold tmYearBase; omega) (by unfold tmYearBase; omega)
    · exact toInt_ofInt_of_fits (by omega) (by omega)
    · exact toInt_ofInt_of_fits (by omega) (by omega)
    · rw [hyearDay]
      exact toInt_ofInt_of_fits (by omega) (by omega)
  · rw [week_mod, toInt_ofInt_of_fits (by omega) (by omega)]
    unfold weekday epochWday
    omega
  · exact toInt_ofInt_of_fits (by unfold secsPerHour; omega) (by unfold secsPerHour; omega)
  · exact toInt_ofInt_of_fits (by unfold secsPerMin; omega) (by unfold secsPerMin; omega)
  · rw [toInt_ofInt_of_fits (by unfold secsPerMin; omega) (by unfold secsPerMin; omega)]
    unfold secsPerMin
    omega
  · rfl

end Calendar
end Svr4
