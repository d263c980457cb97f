import Svr4.Calendar.RuleText

/-!
# The dates of a rule

The day that a rule means in a year, and the day that the tables give for it.  The year
that `posixgetdst` tests for a leap day is counted from 1900, and the length of a
month it looks up is that of the month behind.
-/

namespace Svr4
namespace Calendar

open Gregorian

/-!
## The two readings of a rule
-/

/-- A day of the week in a month that begins on day `start` of the year. -/
def weekRule (jan1 start len : Int) (n d : Nat) : Int :=
  start + laterWeeks len (n - 1) (firstWeekday (jan1 + start) d) - 1

namespace RuleForm

/-- The day of the year, from 0, that a rule means. -/
def dayIn (y : Int) : RuleForm → Int
  | day n _ => n.val
  | julian n _ _ => n.val - 1 + if LeapYear y ∧ 60 ≤ n.val then 1 else 0
  | week m n d _ _ _ _ _ =>
    weekRule (yearStart y) (monthStart y (m.val - 1)) (monthLength y (m.val - 1)) n.val d.val

def lengthBehind (past y : Int) (m : Nat) : Int :=
  if m < 12 then monthLength y m else if LeapYear y then past else 31

def tableDay (past y : Int) : RuleForm → Int
  | day n _ => n.val
  | julian n _ _ => n.val - 1 + if LeapYear (y - 1900) ∧ 60 ≤ n.val then 1 else 0
  | week m n d _ _ _ _ _ =>
    weekRule (yearStart y) (monthStart (y - 1900) (m.val - 1))
      (lengthBehind past (y - 1900) m.val) n.val d.val

end RuleForm

variable {m n k : Nat}

theorem monthStart_le (y : Int) (hm : m < 12) : monthStart y m ≤ 338 := by
  have hnext := monthStart_of_lt y hm
  have hlength := monthLength_bounds y m
  have hyear := yearLength_cases y
  rw [monthStart_twelve] at hnext
  omega

theorem weekRule_bounds {jan1 start len : Int} {d : Nat} (hlo : 0 ≤ start) (hhi : start ≤ 338)
    (hn : n ≤ 5) : 0 ≤ weekRule jan1 start len n d ∧ weekRule jan1 start len n d ≤ 400 := by
  unfold weekRule
  have hfirst := firstWeekday_bounds (jan1 + start) d
  have hlater := laterWeeks_bounds len (n - 1) (firstWeekday (jan1 + start) d)
  omega

theorem dayIn_bounds (form : RuleForm) (y : Int) : 0 ≤ form.dayIn y ∧ form.dayIn y ≤ 400 := by
  cases form with
  | day n hn =>
    simp only [RuleForm.dayIn]
    omega
  | julian n hpos hn =>
    simp only [RuleForm.dayIn]
    split <;> omega
  | week m n d hmpos hm hnpos hn hd =>
    exact weekRule_bounds (monthStart_nonneg y _) (monthStart_le y (by omega)) hn

theorem tableDay_bounds (form : RuleForm) (past y : Int) :
    0 ≤ form.tableDay past y ∧ form.tableDay past y ≤ 400 := by
  cases form with
  | day n hn =>
    simp only [RuleForm.tableDay]
    omega
  | julian n hpos hn =>
    simp only [RuleForm.tableDay]
    split <;> omega
  | week m n d hmpos hm hnpos hn hd =>
    exact weekRule_bounds (monthStart_nonneg _ _) (monthStart_le _ (by omega)) hn

/-!
## The loops over days and weeks
-/

theorem run_dayBody {stdd : Int} (hlo : 0 ≤ stdd) (hhi : stdd < 7) (hn : k < n) {wd c : Int}
    (hwd : 0 ≤ wd) (hwd' : wd < 7) (hk : (stdd - wd) % 7 = k) :
    Loop.run (dayBody stdd) n (wd, c) = some (c + k) := by
  induction n generalizing k wd c with
  | zero => exact absurd hn (Nat.not_lt_zero k)
  | succ n ih =>
    by_cases heq : wd = stdd
    · have hzero : k = 0 := by omega
      have hbody : dayBody stdd (wd, c) = .inr c := if_neg (not_not_intro heq)
      rw [Loop.run_leave hbody, hzero]
      exact congrArg some (Int.add_zero c).symm
    · have hbody : dayBody stdd (wd, c) = .inl ((wd + 1).tmod daysPerWeek, c + 1) := if_pos heq
      have hmod : (wd + 1).tmod daysPerWeek = (wd + 1) % 7 :=
        Int.tmod_eq_emod_of_nonneg (by omega)
      cases k with
      | zero => omega
      | succ k =>
        rw [Loop.run_next hbody, hmod, ih (Nat.lt_of_succ_lt_succ hn) (by omega) (by omega)
          (by omega)]
        exact congrArg some (by omega)

theorem run_weekBody {stdn len : Int} (hn : k < n) {w day : Int} (hk : stdn - w = k) :
    Loop.run (weekBody stdn len) n (w, day) = some (laterWeeks len k day) := by
  induction n generalizing k w day with
  | zero => exact absurd hn (Nat.not_lt_zero k)
  | succ n ih =>
    cases k with
    | zero =>
      have hbody : weekBody stdn len (w, day) = .inr day := if_neg (by dsimp only; omega)
      rw [Loop.run_leave hbody]
      rfl
    | succ k =>
      have hne : w ≠ stdn := by omega
      rw [laterWeeks]
      by_cases hlen : day + 7 > len
      · have hbody : weekBody stdn len (w, day) = .inr day :=
          (if_pos hne).trans (if_pos hlen)
        rw [Loop.run_leave hbody, if_pos hlen]
      · have hbody : weekBody stdn len (w, day) = .inl (w + 1, day + 7) :=
          (if_pos hne).trans (if_neg hlen)
        rw [Loop.run_next hbody, if_neg hlen]
        exact ih (Nat.lt_of_succ_lt_succ hn) (by omega)

/-!
## The tables
-/

theorem toMonth_isleap (y : Int) (hm : m < 12) : toMonth (isleap y) m = monthStart y m := by
  unfold toMonth
  rw [Int.toNat_natCast]
  by_cases h : LeapYear y
  · have hlen : m < lydayToMonth.length := hm
    rw [if_pos ((isleap_iff y).mpr h), List.getD_eq_getElem?_getD, List.getElem?_eq_getElem hlen]
    exact lydayToMonth_toInt h hlen
  · have hlen : m < ydayToMonth.length := hm
    rw [if_neg (mt (isleap_iff y).mp h), List.getD_eq_getElem?_getD, List.getElem?_eq_getElem hlen]
    exact ydayToMonth_toInt h hlen

theorem monLength_isleap (past y : Int) (m : Nat) :
    monLength past (isleap y) m = RuleForm.lengthBehind past y m := by
  unfold monLength RuleForm.lengthBehind
  rw [Int.toNat_natCast, monLengths_isleap]
  by_cases hm : m < 12
  · simp [hm]
  · rw [if_neg hm, List.getD_eq_getElem?_getD, List.getElem?_eq_none (by simpa using hm),
      Option.getD_none]
    by_cases h : LeapYear y
    · rw [if_pos h, if_pos ((isleap_iff y).mpr h)]
    · rw [if_neg h, if_neg (mt (isleap_iff y).mp h)]

/-!
## The year of a time
-/

theorem gmtime_year (clock : Int32) :
    let y := yearOf (clock.toInt / 86400)
    (gmtime clock).tmYear.toInt = y - 1900 ∧ wdJan01 (gmtime clock) = weekday (yearStart y) ∧
      (gmtime clock).tmYday.toInt = clock.toInt / 86400 - yearStart y := by
  have hshows := gmtime_shows clock
  rcases hshows.date with ⟨d, hnumber, hyear, -, -, hyday⟩
  have hlt := d.yearDay_lt
  have hnonneg := d.yearDay_nonneg
  have hsum : d.number = yearStart d.year + d.yearDay := rfl
  have hof : yearOf (clock.toInt / 86400) = d.year := yearOf_unique (by omega) (by omega)
  rw [hof]
  refine ⟨hyear, ?_, by omega⟩
  unfold wdJan01
  rw [hshows.wday, hyday, Int.tmod_eq_emod_of_nonneg hnonneg]
  unfold weekday daysPerWeek
  dsimp only
  split <;> omega

/-- The day of a rule in the year of a time is the one that is counted. -/
theorem ruleDay_gmtime (past : Int) (clock : Int32) (form : RuleForm) :
    ruleDay past (gmtime clock) form.rule =
      some (form.tableDay past (yearOf (clock.toInt / 86400))) := by
  have hyear := gmtime_year clock
  generalize yearOf (clock.toInt / 86400) = y at hyear ⊢
  rcases hyear with ⟨hyear, hjan, -⟩
  cases form with
  | day n hn => rfl
  | julian n hpos hn =>
    have hfeb : feb28.toInt = 58 := rfl
    unfold RuleForm.rule ruleDay RuleForm.tableDay
    dsimp only
    rw [hyear, hfeb]
    by_cases h : LeapYear (y - 1900) ∧ 60 ≤ n.val
    · rw [if_pos h, if_pos ⟨(isleap_iff _).mpr h.1, by omega⟩]
    · rw [if_neg h, if_neg (fun h' => h ⟨(isleap_iff _).mp h'.1, by omega⟩), Int.add_zero]
  | week m n d hmpos hm hnpos hn hd =>
    have hstart : toMonth (isleap (y - 1900)) ((m.val : Int) - 1) =
        monthStart (y - 1900) (m.val - 1) := by
      rw [show (m.val : Int) - 1 = ((m.val - 1 : Nat) : Int) by omega]
      exact toMonth_isleap _ (by omega)
    have hnonneg := monthStart_nonneg (y - 1900) (m.val - 1)
    have hjanBounds := weekday_bounds (yearStart y)
    unfold RuleForm.rule ruleDay RuleForm.tableDay weekRule
    dsimp only
    rw [hyear, hjan, hstart, monLength_isleap, Int.tmod_eq_emod_of_nonneg (by omega)]
    generalize monthStart (y - 1900) (m.val - 1) = start at hnonneg ⊢
    have hfirst : firstWeekday (yearStart y + start) d.val =
        1 + (((d.val : Int) - (weekday (yearStart y) + start) % daysPerWeek) % 7).toNat := by
      unfold firstWeekday weekday daysPerWeek
      omega
    have hturns : (((d.val : Int) - (weekday (yearStart y) + start) % daysPerWeek) % 7).toNat
        < 7 := by
      omega
    rw [run_dayBody (Int.natCast_nonneg _) (by omega) hturns
      (by unfold daysPerWeek; omega) (by unfold daysPerWeek; omega) (by omega),
      Option.bind_some, run_weekBody (k := n.val - 1) (by omega) (by omega), hfirst]
    rfl

/-!
## Where the two readings agree
-/

end Calendar
end Svr4
