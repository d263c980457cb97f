import Mathlib.Tactic.IntervalCases
import Svr4.Calendar.Gmtime

/-!
# The time of a date

`mktime` counts a leap day every four years.  How far this is from the calendar
decides which dates it is right for.
-/

namespace Svr4
namespace Calendar

open Gregorian

/-!
## What the fields denote
-/

namespace Tm

variable (tm : Tm)

def year : Int := tm.tmYear.toInt + 1900 + tm.tmMon.toInt / 12

def month : Nat := (tm.tmMon.toInt % 12).toNat

/-- The time of day and the day of the month, in seconds. -/
def monthSecs : Int :=
  tm.tmSec.toInt + 60 * tm.tmMin.toInt + 3600 * tm.tmHour.toInt + 86400 * (tm.tmMday.toInt - 1)

/-- The seconds from the epoch to the instant that the fields denote. -/
def denoted : Int := tm.monthSecs + 86400 * (yearStart tm.year + monthStart tm.year tm.month)

end Tm

/-- A `time_t` that is not negative. -/
def InRange (t : Int) : Prop := 0 ≤ t ∧ t < 2147483648

instance (t : Int) : Decidable (InRange t) :=
  inferInstanceAs (Decidable (0 ≤ t ∧ t < 2147483648))

/-- `mktime` does with these fields what it is for, where `TZ` is not set. -/
def MktimeExact (beyond : Bool → Int32 → Int32) (z : Zone) (tm : Tm) : Prop :=
  let r := mktime (fun _ z => z.gmt) beyond z tm
  if InRange tm.denoted then r.1.toInt = tm.denoted ∧ r.2.Shows tm.denoted else r.1 = -1

/-!
## The days that are counted
-/

/--
The days by which the years before year `y` are counted wrong: a leap day in every
fourth year, and for years before 1897 the quotient that is rounded up.
-/
def yearError (y : Int) : Int :=
  (y - 1) / 100 - (y - 1) / 400 - 15 + (if (y - 1897).bmod 4294967296 < 0 ∧ y % 4 ≠ 1 then 1 else 0)

def monthError (y : Int) (m : Nat) : Int :=
  if 2 ≤ m ∧ y % 4 = 0 ∧ ¬ LeapYear y then 1 else 0

/-- The days by which `mktime` counts more than there are. -/
def dayError (beyond : Bool → Int32 → Int32) (tm : Tm) : Int :=
  if tm.tmMon.toInt < 0 ∧ tm.tmMon.toInt % 12 = 0 then
    yearError (tm.year - 1) + (beyond (decide (tm.year % 4 = 1)) 12).toInt -
      yearLength (tm.year - 1)
  else if tm.tmMon.toInt = -2147483648 then
    yearError (tm.year + 357913940) + (beyond (decide (tm.year % 4 = 0)) 20).toInt +
      (yearStart (tm.year + 357913940) - yearStart tm.year - monthStart tm.year 4)
  else yearError tm.year + monthError tm.year tm.month

/-- The dates that `mktime` is right for. -/
def MktimeFits (beyond : Bool → Int32 → Int32) (tm : Tm) : Prop :=
  if InRange tm.denoted then dayError beyond tm % 33554432 = 0
  else (tm.denoted + 86400 * dayError beyond tm).bmod 4294967296 < 0

/-!
## The sum in 32 bits
-/

variable {y : Int}

theorem bmod_congr {x : Int} (h : x % 4294967296 = y % 4294967296) :
    x.bmod 4294967296 = y.bmod 4294967296 := by
  rw [← Int.emod_bmod x, ← Int.emod_bmod y]
  exact congrArg (Int.bmod · 4294967296) h

theorem toInt_ofInt (x : Int) : (Int32.ofInt x).toInt = x.bmod 4294967296 :=
  Int32.toInt_ofInt

theorem bmod_spec (x : Int) : ∃ k : Int, x.bmod 4294967296 = x - 4294967296 * k := by
  have hdiff := Int.dvd_self_sub_bmod (x := x) (m := 4294967296)
  rcases hdiff with ⟨k, hk⟩
  exact ⟨k, by omega⟩

theorem tdiv_four (x : Int) : x.tdiv 4 = x / 4 + (if x < 0 ∧ x % 4 ≠ 0 then 1 else 0) := by
  rw [Int.tdiv_eq_ediv]
  by_cases h : 0 ≤ x ∨ (4 : Int) ∣ x
  · rw [if_pos h, if_neg (by omega)]
  · rw [if_neg h, if_pos (by omega)]
    rfl

/-- The day of the year of the first of a month, as the tables have it. -/
def tabulated (beyond : Bool → Int32 → Int32) (leap : Bool) (mon : Int32) : Int32 :=
  if leap then entry lydayToMonth (beyond true) mon else entry ydayToMonth (beyond false) mon

theorem sumSecs_eq_ofInt (beyond : Bool → Int32 → Int32) (tm : Tm) :
    sumSecs beyond tm = Int32.ofInt (tm.monthSecs +
      (31536000 * ((carryMonths tm).tmYear.toInt - 70) +
        86400 * (((carryMonths tm).tmYear + 3).toInt.tdiv 4 - 1 - 17)) +
      86400 * (tabulated beyond (decide ((carryMonths tm).tmYear % 4 = 0))
        (carryMonths tm).tmMon).toInt) := by
  have hdiv : Int32.ofInt (((carryMonths tm).tmYear + 3).toInt.tdiv 4) =
      ((carryMonths tm).tmYear + 3) / 4 := by
    rw [← Int32.toInt_inj, Int32.toInt_div, Int32.toInt_ofInt]
    rfl
  have htab : sumSecs beyond tm = tm.tmSec + secPerMin * tm.tmMin + secPerHour * tm.tmHour +
        secPerDay * (tm.tmMday - 1) +
      (secPerYear * ((carryMonths tm).tmYear - 70) +
        secPerDay * (((carryMonths tm).tmYear + 3) / 4 - 1 - leapTo70)) +
      secPerDay * tabulated beyond (decide ((carryMonths tm).tmYear % 4 = 0))
        (carryMonths tm).tmMon := by
    unfold sumSecs tabulated
    by_cases h : (carryMonths tm).tmYear % 4 = 0
    · simp only [decide_true, if_true, h]
    · simp only [h, decide_false, if_false, Bool.false_eq_true]
  rw [htab]
  unfold Tm.monthSecs
  simp only [Int32.ofInt_add, Int32.ofInt_mul, Int32.ofInt_sub, Int32.ofInt_toInt, hdiv]
  rfl

theorem sumSecs_counted (beyond : Bool → Int32 → Int32) (tm : Tm)
    (hyear : (carryMonths tm).tmYear.toInt = (y - 1900).bmod 4294967296) :
    (sumSecs beyond tm).toInt = (tm.monthSecs + 86400 * (yearStart y + yearError y +
      (tabulated beyond (decide (y % 4 = 0)) (carryMonths tm).tmMon).toInt)).bmod
        4294967296 := by
  have hleap : decide ((carryMonths tm).tmYear % 4 = 0) = decide (y % 4 = 0) := by
    rw [decide_eq_decide, ← Int32.toInt_inj, Int32.toInt_mod, hyear]
    rcases bmod_spec (y - 1900) with ⟨k, hk⟩
    exact (tmod_eq_zero_iff _ _).trans (by rw [hk]; show _ % (4 : Int) = 0 ↔ _; omega)
  have hthree : ((carryMonths tm).tmYear + 3).toInt = (y - 1897).bmod 4294967296 := by
    rw [Int32.toInt_add, hyear]
    show ((y - 1900).bmod 4294967296 + 3).bmod 4294967296 = _
    rw [Int.bmod_add_bmod]
    exact congrArg (Int.bmod · 4294967296) (by omega)
  rw [sumSecs_eq_ofInt, toInt_ofInt, hleap, hthree, hyear, tdiv_four]
  unfold yearError yearStart
  rcases bmod_spec (y - 1900) with ⟨k, hk⟩
  rcases bmod_spec (y - 1897) with ⟨l, hl⟩
  have hround : ((y - 1897).bmod 4294967296 < 0 ∧ (y - 1897).bmod 4294967296 % 4 ≠ 0) ↔
      ((y - 1897).bmod 4294967296 < 0 ∧ y % 4 ≠ 1) := by
    constructor <;> (rintro ⟨hneg, hmod⟩; exact ⟨hneg, by omega⟩)
  rw [if_congr hround rfl rfl]
  apply bmod_congr
  omega

/-!
## The carry of the months
-/

section Carry

variable {tm : Tm}

theorem carryMonths_up (h : 12 ≤ tm.tmMon.toInt) :
    (carryMonths tm).tmYear.toInt = (tm.year - 1900).bmod 4294967296 ∧
      (carryMonths tm).tmMon.toInt = tm.month := by
  have hge : tm.tmMon ≥ 12 := Int32.le_iff_toInt_le.mpr h
  unfold carryMonths Tm.year Tm.month
  rw [if_pos hge]
  constructor
  · rw [Int32.toInt_add, Int32.toInt_div_of_ne_right _ _ (by decide)]
    show (_ + tm.tmMon.toInt.tdiv 12).bmod 4294967296 = _
    rw [Int.tdiv_eq_ediv_of_nonneg (by omega)]
    exact congrArg (Int.bmod · 4294967296) (by omega)
  · rw [Int32.toInt_mod]
    show tm.tmMon.toInt.tmod 12 = _
    rw [Int.tmod_eq_emod_of_nonneg (by omega)]
    omega

theorem carryMonths_within (hlo : 0 ≤ tm.tmMon.toInt) (hhi : tm.tmMon.toInt < 12) :
    (carryMonths tm).tmYear.toInt = (tm.year - 1900).bmod 4294967296 ∧
      (carryMonths tm).tmMon.toInt = tm.month := by
  have hge : ¬ tm.tmMon ≥ 12 := fun h => by
    have hle : (12 : Int) ≤ tm.tmMon.toInt := Int32.le_iff_toInt_le.mp h
    omega
  have hneg : ¬ tm.tmMon < 0 := fun h => by
    have hlt : tm.tmMon.toInt < 0 := Int32.lt_iff_toInt_lt.mp h
    omega
  unfold carryMonths Tm.year Tm.month
  rw [if_neg hge, if_neg hneg]
  constructor
  · have hsame : tm.tmYear.toInt + 1900 + tm.tmMon.toInt / 12 - 1900 = tm.tmYear.toInt := by
      omega
    rw [hsame]
    exact (Int32.toInt_bmod _).symm
  · omega

theorem carryMonths_down {temp : Int} (hneg : tm.tmMon.toInt < 0)
    (htemp : (-tm.tmMon).toInt = temp) :
    (carryMonths tm).tmYear.toInt = (tm.tmYear.toInt - (1 + temp.tdiv 12)).bmod 4294967296 ∧
      (carryMonths tm).tmMon.toInt = 12 - temp.tmod 12 := by
  have hge : ¬ tm.tmMon ≥ 12 := fun h => by
    have hle : (12 : Int) ≤ tm.tmMon.toInt := Int32.le_iff_toInt_le.mp h
    omega
  have hlt : tm.tmMon < 0 := Int32.lt_iff_toInt_lt.mpr hneg
  have hmod := Int.tmod_lt_of_pos temp (show (0 : Int) < 12 by decide)
  have hmod' := Int.lt_tmod_of_pos temp (show (0 : Int) < 12 by decide)
  unfold carryMonths
  rw [if_neg hge, if_pos hlt]
  constructor
  · rw [Int32.toInt_sub, Int32.toInt_add, Int32.toInt_div_of_ne_right _ _ (by decide), htemp]
    exact Int.sub_bmod_bmod
  · rw [Int32.toInt_sub, Int32.toInt_mod, htemp]
    show (12 - temp.tmod 12).bmod 4294967296 = _
    exact Int.bmod_eq_of_le (by omega) (by omega)

theorem toInt_neg_of_gt (hgt : -2147483648 < tm.tmMon.toInt) :
    (-tm.tmMon).toInt = -tm.tmMon.toInt := by
  have hhi : tm.tmMon.toInt < 2147483648 := tm.tmMon.toInt_lt
  rw [Int32.toInt_neg]
  exact Int.bmod_eq_of_le (show -(4294967296 / 2) ≤ _ by omega)
    (show _ < (4294967296 + 1) / 2 by omega)

theorem carryMonths_back (hneg : tm.tmMon.toInt < 0) (hmod : tm.tmMon.toInt % 12 ≠ 0)
    (hgt : -2147483648 < tm.tmMon.toInt) :
    (carryMonths tm).tmYear.toInt = (tm.year - 1900).bmod 4294967296 ∧
      (carryMonths tm).tmMon.toInt = tm.month := by
  have hdown := carryMonths_down hneg (toInt_neg_of_gt hgt)
  rw [Int.tdiv_eq_ediv_of_nonneg (by omega), Int.tmod_eq_emod_of_nonneg (by omega)] at hdown
  unfold Tm.year Tm.month
  constructor
  · rw [hdown.1]
    exact congrArg (Int.bmod · 4294967296) (by omega)
  · omega

theorem carryMonths_slip (hneg : tm.tmMon.toInt < 0) (hmod : tm.tmMon.toInt % 12 = 0) :
    (carryMonths tm).tmYear.toInt = (tm.year - 1 - 1900).bmod 4294967296 ∧
      (carryMonths tm).tmMon.toInt = 12 := by
  have hlo : -2147483648 ≤ tm.tmMon.toInt := tm.tmMon.le_toInt
  have hdown := carryMonths_down hneg (toInt_neg_of_gt (by omega))
  rw [Int.tdiv_eq_ediv_of_nonneg (by omega), Int.tmod_eq_emod_of_nonneg (by omega)] at hdown
  unfold Tm.year
  constructor
  · rw [hdown.1]
    exact congrArg (Int.bmod · 4294967296) (by omega)
  · omega

theorem carryMonths_least (h : tm.tmMon.toInt = -2147483648) :
    (carryMonths tm).tmYear.toInt = (tm.year + 357913940 - 1900).bmod 4294967296 ∧
      (carryMonths tm).tmMon.toInt = 20 := by
  have hself : (-tm.tmMon).toInt = -2147483648 := by
    rw [Int32.toInt_neg, h]
    rfl
  have hdown := carryMonths_down (by omega) hself
  unfold Tm.year
  constructor
  · rw [hdown.1, h]
    exact congrArg (Int.bmod · 4294967296) (show _ - (1 + (-178956970 : Int)) = _ by omega)
  · rw [hdown.2]
    rfl

end Carry

/-!
## The tables
-/

variable {table : List Int32} {beyond : Int32 → Int32} {i : Int32} {m : Nat}

theorem entry_of_lt (hi : i.toInt = m)
    (hm : m < table.length) : entry table beyond i = table[m] := by
  have hnonneg : 0 ≤ i := Int32.le_iff_toInt_le.mpr (by rw [hi]; exact Int.natCast_nonneg m)
  unfold entry
  rw [if_pos hnonneg, hi, Int.toNat_natCast, List.getElem?_eq_getElem hm]
  rfl

theorem entry_of_ge (hi : i.toInt = m)
    (hm : table.length ≤ m) : entry table beyond i = beyond i := by
  unfold entry
  rw [hi, Int.toNat_natCast, List.getElem?_eq_none hm]
  exact ite_self _

theorem ydayToMonth_toInt (hleap : ¬ LeapYear y)
    (hm : m < ydayToMonth.length) : ydayToMonth[m].toInt = monthStart y m := by
  have hlt : m < 12 := hm
  interval_cases m <;> simp [monthStart, monthLength, hleap] <;> rfl

theorem lydayToMonth_toInt (hleap : LeapYear y)
    (hm : m < lydayToMonth.length) : lydayToMonth[m].toInt = monthStart y m := by
  have hlt : m < 12 := hm
  interval_cases m <;> simp [monthStart, monthLength, hleap] <;> rfl

theorem lydayToMonth_of_ydayToMonth (hm : m < ydayToMonth.length) (hm' : m < lydayToMonth.length) :
    (lydayToMonth.get ⟨m, hm'⟩).toInt =
      (ydayToMonth.get ⟨m, hm⟩).toInt + if 2 ≤ m then 1 else 0 := by
  have hlt : m < 12 := hm
  interval_cases m <;> rfl

theorem tabulated_of_month (beyond : Bool → Int32 → Int32) (y : Int) (hi : i.toInt = m)
    (hm : m < 12) :
    (tabulated beyond (decide (y % 4 = 0)) i).toInt = monthStart y m + monthError y m := by
  have hy : m < ydayToMonth.length := hm
  have hl : m < lydayToMonth.length := hm
  unfold tabulated monthError
  by_cases hfour : y % 4 = 0
  · rw [if_pos (decide_eq_true hfour), entry_of_lt hi hl]
    by_cases hleap : LeapYear y
    · rw [lydayToMonth_toInt hleap hl, if_neg (fun h => h.2.2 hleap), Int.add_zero]
    · have hentry := lydayToMonth_of_ydayToMonth hy hl
      rw [List.get_eq_getElem, List.get_eq_getElem, ydayToMonth_toInt hleap hy] at hentry
      rw [hentry]
      exact congrArg _ (if_congr ⟨fun h => ⟨h, hfour, hleap⟩, And.left⟩ rfl rfl)
  · have hleap : ¬ LeapYear y := by
      unfold LeapYear
      omega
    have hfalse : ¬ decide (y % 4 = 0) = true := fun h => hfour (of_decide_eq_true h)
    rw [if_neg hfalse, entry_of_lt hi hy, ydayToMonth_toInt hleap hy,
      if_neg (fun h => hfour h.2.1), Int.add_zero]

theorem tabulated_of_beyond (beyond : Bool → Int32 → Int32) (leap : Bool) (hi : i.toInt = m)
    (hm : 12 ≤ m) : tabulated beyond leap i = beyond leap i := by
  cases leap with
  | true => exact entry_of_ge hi hm
  | false => exact entry_of_ge hi hm

/-!
## The sum and the instant
-/

section Sum

variable (beyond : Bool → Int32 → Int32) (tm : Tm)

theorem carryMonths_normal {tm : Tm} (hslip : ¬ (tm.tmMon.toInt < 0 ∧ tm.tmMon.toInt % 12 = 0))
    (hleast : tm.tmMon.toInt ≠ -2147483648) :
    (carryMonths tm).tmYear.toInt = (tm.year - 1900).bmod 4294967296 ∧
      (carryMonths tm).tmMon.toInt = tm.month := by
  have hlo : -2147483648 ≤ tm.tmMon.toInt := tm.tmMon.le_toInt
  rcases Int.lt_or_le tm.tmMon.toInt 0 with hneg | hnonneg
  · exact carryMonths_back hneg (fun hmod => hslip ⟨hneg, hmod⟩) (by omega)
  · rcases Int.lt_or_le tm.tmMon.toInt 12 with hlt | hge
    · exact carryMonths_within hnonneg hlt
    · exact carryMonths_up hge

theorem month_lt : tm.month < 12 := by
  unfold Tm.month
  omega

theorem sumSecs_toInt : (sumSecs beyond tm).toInt =
    (tm.denoted + 86400 * dayError beyond tm).bmod 4294967296 := by
  unfold Tm.denoted dayError
  by_cases hslip : tm.tmMon.toInt < 0 ∧ tm.tmMon.toInt % 12 = 0
  · have hcarry := carryMonths_slip hslip.1 hslip.2
    have hzero : tm.month = 0 := by
      unfold Tm.month
      omega
    have hyear := yearStart_pred tm.year
    have hmod : (tm.year - 1) % 4 = 0 ↔ tm.year % 4 = 1 := by omega
    have hmon : (carryMonths tm).tmMon = 12 := Int32.toInt_inj.mp hcarry.2
    rw [sumSecs_counted beyond tm hcarry.1, decide_eq_decide.mpr hmod, hmon,
      tabulated_of_beyond beyond _ (m := 12) rfl (Nat.le_refl 12), hzero, hyear]
    exact congrArg (Int.bmod · 4294967296) (by simp only [monthStart]; omega)
  · by_cases hleast : tm.tmMon.toInt = -2147483648
    · have hcarry := carryMonths_least hleast
      have hfour : tm.month = 4 := by
        unfold Tm.month
        omega
      have hmod : (tm.year + 357913940) % 4 = 0 ↔ tm.year % 4 = 0 := by omega
      have hmon : (carryMonths tm).tmMon = 20 := Int32.toInt_inj.mp hcarry.2
      rw [sumSecs_counted beyond tm hcarry.1, decide_eq_decide.mpr hmod, hmon,
        tabulated_of_beyond beyond _ (m := 20) rfl (by decide), hfour]
      exact congrArg (Int.bmod · 4294967296) (by omega)
    · have hcarry := carryMonths_normal hslip hleast
      rw [sumSecs_counted beyond tm hcarry.1,
        tabulated_of_month beyond tm.year hcarry.2 (month_lt tm)]
      exact congrArg (Int.bmod · 4294967296) (by omega)

theorem mktime_gmt (z : Zone) : mktime (fun _ z => z.gmt) beyond z tm =
    (if sumSecs beyond tm < 0 then -1 else sumSecs beyond tm, gmtime (sumSecs beyond tm)) := by
  have hlocal (t : Int32) (z : Zone) : localtimeIn z.gmt t = gmtime t := by
    show gmtime (t - 0) = gmtime t
    rw [Int32.sub_zero]
  have hsame : (if tm.tmIsdst > 0 then sumSecs beyond tm + 0 else sumSecs beyond tm + 0) =
      sumSecs beyond tm := by
    rw [ite_self, Int32.add_zero]
  have hshift (t : Int32) (z : Zone) : t - (z.gmt.timezone - z.gmt.altzone) = t :=
    (congrArg (t - ·) (Int32.sub_self 0)).trans (Int32.sub_zero t)
  have hzone (z : Zone) : z.gmt.gmt = z.gmt := rfl
  have hfirst : (if tm.tmIsdst > 0 then sumSecs beyond tm + z.gmt.altzone
      else sumSecs beyond tm + z.gmt.timezone) = sumSecs beyond tm := hsame
  unfold mktime
  dsimp only
  rw [hfirst]
  simp only [hzone, hlocal, hshift, ite_self]

theorem mktime_exact_of_range (z : Zone) (hrange : InRange tm.denoted) :
    MktimeExact beyond z tm ↔ dayError beyond tm % 33554432 = 0 := by
  have hsum := sumSecs_toInt beyond tm
  have hshows := gmtime_shows (sumSecs beyond tm)
  unfold MktimeExact
  rw [if_pos hrange, mktime_gmt]
  unfold InRange at hrange
  rcases bmod_spec (tm.denoted + 86400 * dayError beyond tm) with ⟨k, hk⟩
  dsimp only
  constructor
  · intro h
    by_cases hneg : sumSecs beyond tm < 0
    · rw [if_pos hneg] at h
      have hminus : (-1 : Int32).toInt = -1 := rfl
      omega
    · rw [if_neg hneg] at h
      omega
  · intro h
    have hfits := Int.bmod_eq_of_le (n := tm.denoted) (m := 4294967296)
      (show -(4294967296 / 2) ≤ _ by omega) (show _ < (4294967296 + 1) / 2 by omega)
    have heq : (sumSecs beyond tm).toInt = tm.denoted := by
      rw [hsum, bmod_congr (y := tm.denoted) (by omega)]
      exact hfits
    have hneg : ¬ sumSecs beyond tm < 0 := fun hlt => by
      have hlt' : (sumSecs beyond tm).toInt < 0 := Int32.lt_iff_toInt_lt.mp hlt
      omega
    rw [if_neg hneg]
    rw [heq] at hshows
    exact ⟨heq, hshows⟩

theorem mktime_exact_of_not_range (z : Zone) (hrange : ¬ InRange tm.denoted) :
    MktimeExact beyond z tm ↔ (tm.denoted + 86400 * dayError beyond tm).bmod 4294967296 < 0 := by
  rw [← sumSecs_toInt]
  unfold MktimeExact
  rw [if_neg hrange, mktime_gmt]
  show (if sumSecs beyond tm < 0 then -1 else sumSecs beyond tm) = -1 ↔ _
  constructor
  · intro h
    by_cases hneg : sumSecs beyond tm < 0
    · exact Int32.lt_iff_toInt_lt.mp hneg
    · rw [if_neg hneg] at h
      rw [h]
      decide
  · intro h
    exact if_pos (Int32.lt_iff_toInt_lt.mpr h)

end Sum

/-!
## The conversions
-/

/--
`gmtime` is exact for every time, and `mktime` for the dates that fit and for
no others.
-/
theorem conversions_exact_iff (beyond : Bool → Int32 → Int32) (z : Zone) :
    (∀ clock : Int32, (gmtime clock).Shows clock.toInt) ∧
      ∀ tm : Tm, MktimeExact beyond z tm ↔ MktimeFits beyond tm := by
  constructor
  · exact gmtime_shows
  · intro tm
    unfold MktimeFits
    by_cases hrange : InRange tm.denoted
    · rw [if_pos hrange]
      exact mktime_exact_of_range beyond tm z hrange
    · rw [if_neg hrange]
      exact mktime_exact_of_not_range beyond tm z hrange

/-- 1 January 2107 is behind the last instant, and its sum comes out in 1970. -/
def newYear2107 : Tm := ⟨0, 0, 0, 1, 0, 207, 0, 0, 0⟩

theorem conversions_not_exact :
    ¬ ∀ (beyond : Bool → Int32 → Int32) (z : Zone) (tm : Tm), MktimeExact beyond z tm := by
  intro h
  have hsum := h (fun _ _ => 0) ⟨0, 0, false, -1, -1, false⟩ newYear2107
  have hrange : ¬ InRange newYear2107.denoted := by decide
  unfold MktimeExact at hsum
  rw [if_neg hrange, mktime_gmt] at hsum
  revert hsum
  show ¬ (if sumSecs (fun _ _ => 0) newYear2107 < 0 then -1
    else sumSecs (fun _ _ => 0) newYear2107) = (-1 : Int32)
  decide

end Calendar
end Svr4
