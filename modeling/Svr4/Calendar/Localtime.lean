import Svr4.Calendar.RuleDates

/-!
# Daylight time

The period that the rules of a zone mean, the one that `posixgetdst` yields, and the
times at which `localtime` reports daylight time.
-/

namespace Svr4
namespace Calendar

open Gregorian List Option

/-!
## The period of the rules
-/

/-- Between the start and the end; where the start is the later, not between them. -/
def InPeriod (s e c : Int) : Prop := if s ≤ e then s ≤ c ∧ c < e else ¬ (e ≤ c ∧ c < s)

/--
The days of a start and an end: those of the year by standard time, unless the period
goes over the turn of the year, which is then in daylight time.
-/
def periodDays (start stop : Int → Int) (y yAlt : Int) : Int × Int :=
  if start y ≤ stop y then (start y, stop y) else (start yAlt, stop yAlt)

def secOfYear (t : Int) : Int := t - 86400 * yearStart (yearOf (t / 86400))

namespace ZoneText

variable (tz : ZoneText) (tim : Int32)

def standard : Int := tim.toInt - tz.timezone.toInt

def alternate : Int := tim.toInt - tz.altzone.toInt

def meantDays : Int × Int :=
  periodDays (fun y => tz.start.form.dayIn y) (fun y => tz.stop.form.dayIn y)
    (yearOf (tz.standard tim / 86400)) (yearOf (tz.alternate tim / 86400))

/-- The days that are counted, for the readings of the clock in 32 bits. -/
def countedDays (past : Int) : Int × Int :=
  periodDays (fun y => tz.start.form.tableDay past y) (fun y => tz.stop.form.tableDay past y)
    (yearOf ((tim - tz.timezone).toInt / 86400)) (yearOf ((tim - tz.altzone).toInt / 86400))

/-- The start of daylight time, in seconds of standard time since the start of the year. -/
def startSecs : Int := (tz.meantDays tim).1 * 86400 + tz.start.secs

def stopSecs : Int :=
  (tz.meantDays tim).2 * 86400 + tz.stop.secs - (tz.timezone.toInt - tz.altzone.toInt)

/-- What `localtime` takes the period against: after a zone from a file, the time. -/
def comparedSecs (z : Zone) : Int :=
  if z.tzState then (tim - tz.timezone).toInt else secOfYear (tim - tz.timezone).toInt

end ZoneText

/-- The rules of a zone are evaluated as they are meant. -/
def RulesExact (past : Int) (getdst : List Char → Zone → Zone) (tz : ZoneText) (z : Zone)
    (tim : Int32) : Prop :=
  (∃ r, posixgetdst past tz.rulesText tz.timezone tz.altzone tim = some r ∧
    r.1.toInt = tz.startSecs tim ∧ r.2.toInt = tz.stopSecs tim) ∧
  ((localtime past getdst tz.text z tim).tmIsdst = 1 ↔
    InPeriod (tz.startSecs tim) (tz.stopSecs tim) (secOfYear (tz.standard tim)))

def FitsLong (x : Int) : Prop := -2147483648 ≤ x ∧ x < 2147483648

/-- The zones and times that are evaluated as they are meant. -/
structure RulesFit (past : Int) (tz : ZoneText) (z : Zone) (tim : Int32) : Prop where
  days : tz.countedDays tim past = tz.meantDays tim
  start_fits : FitsLong (tz.startSecs tim)
  stop_fits : FitsLong (tz.stopSecs tim)
  side : InPeriod (tz.startSecs tim) (tz.stopSecs tim) (tz.comparedSecs tim z) ↔
    InPeriod (tz.startSecs tim) (tz.stopSecs tim) (secOfYear (tz.standard tim))

/-!
## What posixgetdst yields
-/

section Rules

variable (past : Int) (getdst : List Char → Zone → Zone) (tz : ZoneText) (z : Zone) (tim : Int32)

theorem ruleDays_eq : ruleDays past tz.timezone tz.altzone tim tz.start.form.rule
    tz.stop.form.rule = some (tz.countedDays tim past) := by
  unfold ruleDays rulePass ZoneText.countedDays periodDays
  simp only [ruleDay_gmtime, bind_some, map_some]
  split <;> rfl

theorem posixgetdst_eq : posixgetdst past tz.rulesText tz.timezone tz.altzone tim =
    some (Int32.ofInt ((tz.countedDays tim past).1 * 86400 + tz.start.secs),
      Int32.ofInt ((tz.countedDays tim past).2 * 86400 + tz.stop.secs -
        (tz.timezone.toInt - tz.altzone.toInt))) := by
  have hstart := posixsubdst_text tz.start (show EndsRule (',' :: tz.stop.text) from Or.inr rfl)
  have hstop := posixsubdst_text tz.stop (show EndsRule [] from Or.inl rfl)
  rw [append_nil] at hstop
  unfold posixgetdst ZoneText.rulesText
  rw [hstart, bind_some]
  rw [if_neg (not_not_intro List.head?_cons), tail_cons, hstop, bind_some]
  rw [ruleDays_eq, map_some]
  simp only [Int32.ofInt_add, Int32.ofInt_sub, Int32.ofInt_mul, Int32.ofInt_toInt]
  rfl

theorem countedDays_bounds : 0 ≤ (tz.countedDays tim past).1 ∧
    (tz.countedDays tim past).1 ≤ 400 ∧ 0 ≤ (tz.countedDays tim past).2 ∧
    (tz.countedDays tim past).2 ≤ 400 := by
  unfold ZoneText.countedDays periodDays
  generalize yearOf ((tim - tz.timezone).toInt / 86400) = y
  generalize yearOf ((tim - tz.altzone).toInt / 86400) = yAlt
  have hs := tableDay_bounds tz.start.form past y
  have he := tableDay_bounds tz.stop.form past y
  have hs' := tableDay_bounds tz.start.form past yAlt
  have he' := tableDay_bounds tz.stop.form past yAlt
  split
  · exact ⟨hs.1, hs.2, he.1, he.2⟩
  · exact ⟨hs'.1, hs'.2, he'.1, he'.2⟩

theorem meantDays_bounds : 0 ≤ (tz.meantDays tim).1 ∧ (tz.meantDays tim).1 ≤ 400 ∧
    0 ≤ (tz.meantDays tim).2 ∧ (tz.meantDays tim).2 ≤ 400 := by
  unfold ZoneText.meantDays periodDays
  generalize yearOf (tz.standard tim / 86400) = y
  generalize yearOf (tz.alternate tim / 86400) = yAlt
  have hs := dayIn_bounds tz.start.form y
  have he := dayIn_bounds tz.stop.form y
  have hs' := dayIn_bounds tz.start.form yAlt
  have he' := dayIn_bounds tz.stop.form yAlt
  split
  · exact ⟨hs.1, hs.2, he.1, he.2⟩
  · exact ⟨hs'.1, hs'.2, he'.1, he'.2⟩

theorem toInt_sum_iff {a b : Int} (ha : 0 ≤ a ∧ a ≤ 400) (hb : 0 ≤ b ∧ b ≤ 400) (x : Int) :
    (Int32.ofInt (a * 86400 + x)).toInt = b * 86400 + x ↔ a = b ∧ FitsLong (b * 86400 + x) := by
  rw [toInt_ofInt]
  unfold FitsLong
  rcases bmod_spec (a * 86400 + x) with ⟨k, hk⟩
  have hlt := Int.bmod_lt (x := a * 86400 + x) (m := 4294967296) (by decide)
  have hle := Int.le_bmod (x := a * 86400 + x) (m := 4294967296) (by decide)
  constructor
  · intro h
    constructor <;> omega
  · rintro ⟨hab, hlo, hhi⟩
    rw [hab] at hk hlt hle ⊢
    omega

theorem posixgetdst_exact_iff :
    (∃ r, posixgetdst past tz.rulesText tz.timezone tz.altzone tim = some r ∧
      r.1.toInt = tz.startSecs tim ∧ r.2.toInt = tz.stopSecs tim) ↔
    tz.countedDays tim past = tz.meantDays tim ∧ FitsLong (tz.startSecs tim) ∧
      FitsLong (tz.stopSecs tim) := by
  have hcounted := countedDays_bounds past tz tim
  have hmeant := meantDays_bounds tz tim
  have hstart := toInt_sum_iff ⟨hcounted.1, hcounted.2.1⟩ ⟨hmeant.1, hmeant.2.1⟩ tz.start.secs
  have hstop := toInt_sum_iff hcounted.2.2 hmeant.2.2
    (tz.stop.secs - (tz.timezone.toInt - tz.altzone.toInt))
  have hstopSecs : tz.stopSecs tim = (tz.meantDays tim).2 * 86400 +
      (tz.stop.secs - (tz.timezone.toInt - tz.altzone.toInt)) := Int.add_sub_assoc _ _ _
  rw [posixgetdst_eq, Int.add_sub_assoc, hstopSecs]
  constructor
  · rintro ⟨r, hr, hs, he⟩
    have hpair := Option.some.inj hr
    rw [← hpair] at hs he
    have hs' := hstart.mp hs
    have he' := hstop.mp he
    exact ⟨Prod.ext hs'.1 he'.1, hs'.2, he'.2⟩
  · rintro ⟨hdays, hs, he⟩
    exact ⟨_, rfl, hstart.mpr ⟨congrArg Prod.fst hdays, hs⟩,
      hstop.mpr ⟨congrArg Prod.snd hdays, he⟩⟩

end Rules

/-!
## What localtime reports
-/

theorem yearSecs_gmtime (clock : Int32) :
    (yearSecs (gmtime clock)).toInt = secOfYear clock.toInt := by
  have hshows := gmtime_shows clock
  have hyear := (gmtime_year clock).2.2
  have hspec := yearOf_spec (clock.toInt / 86400)
  have hlength := yearLength_cases (yearOf (clock.toInt / 86400))
  have hexact : yearSecs (gmtime clock) = Int32.ofInt ((gmtime clock).tmYday.toInt * 86400 +
      (gmtime clock).tmHour.toInt * 3600 + (gmtime clock).tmMin.toInt * 60 +
      (gmtime clock).tmSec.toInt) := by
    simp only [Int32.ofInt_add, Int32.ofInt_mul, Int32.ofInt_toInt]
    rfl
  rw [hexact, hshows.hour, hshows.min, hshows.sec, hyear]
  unfold secOfYear
  generalize yearOf (clock.toInt / 86400) = y at hspec hlength ⊢
  rw [toInt_ofInt_of_fits (by omega) (by omega)]
  omega

theorem inPeriod_iff (s e c : Int32) : InPeriod s.toInt e.toInt c.toInt ↔
      if s ≤ e then c ≥ s ∧ c < e else ¬ (c ≥ e ∧ c < s) := by
  unfold InPeriod
  by_cases h : s ≤ e
  · rw [if_pos h, if_pos (Int32.le_iff_toInt_le.mp h)]
    exact and_congr Int32.le_iff_toInt_le.symm Int32.lt_iff_toInt_lt.symm
  · rw [if_neg h, if_neg (mt Int32.le_iff_toInt_le.mpr h)]
    exact not_congr (and_congr Int32.le_iff_toInt_le.symm Int32.lt_iff_toInt_lt.symm)

section Report

variable (past : Int) (getdst : List Char → Zone → Zone) (tz : ZoneText) (z : Zone) (tim : Int32)

theorem localtime_isdst {r : Int32 × Int32} (hr : posixgetdst past tz.rulesText tz.timezone
      tz.altzone tim = some r) (hstart : r.1 ≠ -1) :
    (localtime past getdst tz.text z tim).tmIsdst = 1 ↔
      InPeriod r.1.toInt r.2.toInt (tz.comparedSecs tim z) := by
  have hclock : tz.comparedSecs tim z = (if z.tzState = true ∧ r.1 ≠ -1 then tim - tz.timezone
        else yearSecs (gmtime (tim - tz.timezone))).toInt := by
    unfold ZoneText.comparedSecs
    by_cases htz : z.tzState = true
    · rw [if_pos htz, if_pos ⟨htz, hstart⟩]
    · rw [if_neg htz, if_neg (fun h => htz h.1), yearSecs_gmtime]
  have hzero : (0 : Int32) ≠ 1 := by decide
  have hnone : ¬ (r.1 = -1 ∧ r.2 = -1) := fun h => hstart h.1
  have hstd : (gmtime (tim - tz.timezone)).tmIsdst = 0 := (gmtime_shows _).isdst
  unfold localtime
  rw [ltzsetPosix_text, hr, elim_some, hclock, inPeriod_iff]
  unfold localtimeIn dstPeriod
  rw [if_neg (not_not_intro rfl), if_neg hnone]
  generalize (if z.tzState = true ∧ r.1 ≠ -1 then tim - tz.timezone
    else yearSecs (gmtime (tim - tz.timezone))) = c
  by_cases hle : r.1 ≤ r.2
  · rw [if_pos hle, if_pos hle]
    by_cases hin : c ≥ r.1 ∧ c < r.2
    · rw [if_pos hin]
      exact iff_of_true rfl hin
    · rw [if_neg hin, hstd]
      exact iff_of_false hzero hin
  · rw [if_neg hle, if_neg hle]
    by_cases hin : ¬ (c ≥ r.2 ∧ c < r.1)
    · rw [if_pos hin]
      exact iff_of_true rfl hin
    · rw [if_neg hin, hstd]
      exact iff_of_false hzero hin

theorem numeral_val_nonneg (t : TimeText) : 0 ≤ t.secs := by
  have hmin : 0 ≤ TimeText.minVal t.rest := by
    cases t.rest with
    | none => exact Int.le_refl 0
    | some m =>
      have hsec : 0 ≤ TimeText.secVal m.2 := by
        cases m.2 with
        | none => exact Int.le_refl 0
        | some s => exact Int.natCast_nonneg _
      simp only [TimeText.minVal]
      omega
  unfold TimeText.secs
  omega

theorem startSecs_nonneg : 0 ≤ tz.startSecs tim := by
  have hdays := (meantDays_bounds tz tim).1
  have htime : 0 ≤ tz.start.secs := by
    unfold RuleText.secs
    cases tz.start.time with
    | none => decide
    | some t => exact numeral_val_nonneg t
  unfold ZoneText.startSecs
  omega

/-- The rules are evaluated as they are meant for the zones and times that fit, and no others. -/
theorem rulesExact_iff : RulesExact past getdst tz z tim ↔ RulesFit past tz z tim := by
  unfold RulesExact
  constructor
  · rintro ⟨hyields, hreport⟩
    have hdays := (posixgetdst_exact_iff past tz tim).mp hyields
    rcases hyields with ⟨r, hr, hs, he⟩
    have hstart : r.1 ≠ -1 := by
      intro h
      have hneg : r.1.toInt = -1 := by rw [h]; rfl
      have hnonneg := startSecs_nonneg tz tim
      omega
    have hisdst := localtime_isdst past getdst tz z tim hr hstart
    rw [hs, he] at hisdst
    exact ⟨hdays.1, hdays.2.1, hdays.2.2, hisdst.symm.trans hreport⟩
  · rintro ⟨hdays, hs, he, hside⟩
    have hyields := (posixgetdst_exact_iff past tz tim).mpr ⟨hdays, hs, he⟩
    rcases hyields with ⟨r, hr, hs', he'⟩
    have hstart : r.1 ≠ -1 := by
      intro h
      have hneg : r.1.toInt = -1 := by rw [h]; rfl
      have hnonneg := startSecs_nonneg tz tim
      omega
    have hisdst := localtime_isdst past getdst tz z tim hr hstart
    rw [hs', he'] at hisdst
    exact ⟨⟨r, hr, hs', he'⟩, hisdst.trans hside⟩

end Report

/-!
## A last Sunday in March
-/

/-- `GMT0BST,M3.5.0,M10.5.0` -/
def britain : ZoneText where
  name := ⟨['G', 'M', 'T'], by decide, all_eq_true.mp rfl⟩
  offset := ⟨none, ⟨⟨['0'], by decide, all_eq_true.mp rfl⟩, none⟩⟩
  altName := ⟨['B', 'S', 'T'], by decide, all_eq_true.mp rfl⟩
  altOffset := none
  start := ⟨.week ⟨['3'], by decide, all_eq_true.mp rfl⟩
    ⟨['5'], by decide, all_eq_true.mp rfl⟩ ⟨['0'], by decide, all_eq_true.mp rfl⟩
    (by decide) (by decide) (by decide) (by decide) (by decide), none⟩
  stop := ⟨.week ⟨['1', '0'], by decide, all_eq_true.mp rfl⟩
    ⟨['5'], by decide, all_eq_true.mp rfl⟩ ⟨['0'], by decide, all_eq_true.mp rfl⟩
    (by decide) (by decide) (by decide) (by decide) (by decide), none⟩

/--
In 1991 the last Sunday in March is the 31st, and the 24th is counted: there is no
31 April.
-/
theorem rules_not_exact :
    ¬ ∀ (past : Int) (getdst : List Char → Zone → Zone) (tz : ZoneText) (z : Zone)
      (tim : Int32), RulesExact past getdst tz z tim := by
  intro h
  have hexact := h 0 (fun _ z => z) britain ⟨0, 0, false, -1, -1, false⟩ 678369600
  have hdays := ((posixgetdst_exact_iff 0 britain 678369600).mp hexact.1).1
  revert hdays
  decide

/-!
## `mktime` behind `localtime`
-/

theorem denoted_of_shows {tm : Tm} {t : Int} (h : tm.Shows t) : tm.denoted = t ∧
    tm.year = yearOf (t / 86400) ∧ 0 ≤ tm.tmMon.toInt ∧ tm.tmMon.toInt < 12 := by
  rcases h with ⟨⟨d, hnumber, hyear, hmon, hmday, -⟩, -, hhour, hmin, hsec, -⟩
  have hlt := d.month_lt
  have htmYear : tm.year = d.year := by
    unfold Tm.year
    omega
  have htmMonth : tm.month = d.month := by
    unfold Tm.month
    omega
  have hstart := d.yearDay_nonneg
  have hday := d.yearDay_lt
  have hof := yearOf_unique (n := t / 86400) (y := d.year)
  unfold Date.number Date.yearDay at hnumber
  unfold Date.yearDay at hstart hday
  refine ⟨?_, ?_, by omega, by omega⟩
  · unfold Tm.denoted Tm.monthSecs
    rw [htmYear, htmMonth]
    omega
  · rw [htmYear]
    exact (hof (by omega) (by omega)).symm

/-- What `gmtime` takes apart is put together again. -/
theorem sumSecs_gmtime (beyond : Bool → Int32 → Int32) (clock : Int32) :
    sumSecs beyond (gmtime clock) = clock := by
  rcases denoted_of_shows (gmtime_shows clock) with ⟨hdenoted, hyear, hlo, hhi⟩
  have hmin := clock.le_toInt
  have hmax := clock.toInt_lt
  have hspec := yearOf_spec (clock.toInt / 86400)
  rw [← hyear] at hspec
  have hfirst : 1901 ≤ (gmtime clock).year := by
    by_contra hlt
    have hle := yearStart_of_lt (Int.not_le.mp hlt)
    have hstart : yearStart 1901 = -25202 := by decide
    omega
  have hlast : (gmtime clock).year ≤ 2038 := by
    by_contra hgt
    have hle := yearStart_of_lt (Int.not_le.mp hgt)
    have hpos := yearLength_pos 2038
    have hstart : yearStart 2038 = 24837 := by decide
    have hlen : yearLength 2038 = 365 := by decide
    omega
  have herror : dayError beyond (gmtime clock) = 0 := by
    unfold dayError
    rw [if_neg (by omega), if_neg (by omega)]
    have hyears : yearError (gmtime clock).year = 0 := by
      unfold yearError
      rw [if_neg]
      · omega
      · have hfits := Int.bmod_eq_of_le (n := (gmtime clock).year - 1897) (m := 4294967296)
          (by omega) (by omega)
        omega
    have hmonths : monthError (gmtime clock).year (gmtime clock).month = 0 := by
      unfold monthError LeapYear
      rw [if_neg (by omega)]
    omega
  have hfits := Int.bmod_eq_of_le (n := clock.toInt) (m := 4294967296) (by omega) (by omega)
  rw [← Int32.toInt_inj, sumSecs_toInt, hdenoted, herror]
  exact (congrArg (Int.bmod · 4294967296) (by omega)).trans hfits

/-- `mktime` undoes `localtime` where the offsets of the zone stay. -/
theorem mktime_localtimeIn (beyond : Bool → Int32 → Int32) {ltzset : Int32 → Zone → Zone}
    (hoffsets : ∀ s t z, (ltzset s z).timezone = (ltzset t z).timezone ∧
      (ltzset s z).altzone = (ltzset t z).altzone)
    (hkeep : ∀ s t z, ltzset t (ltzset s z) = ltzset t z) (z : Zone) (t : Int32) :
    mktime ltzset beyond z (localtimeIn (ltzset t z) t) =
      (if t < 0 then -1 else t, localtimeIn (ltzset t z) t) := by
  have hcases : (localtimeIn (ltzset t z) t = gmtime (t - (ltzset t z).timezone)) ∨
      localtimeIn (ltzset t z) t = { gmtime (t - (ltzset t z).altzone) with tmIsdst := 1 } := by
    unfold localtimeIn
    dsimp only
    grind
  have hsum : ∀ clock isdst, sumSecs beyond { gmtime clock with tmIsdst := isdst } = clock :=
    fun clock isdst => (Int32.toInt_inj.mp ((sumSecs_toInt beyond
      { gmtime clock with tmIsdst := isdst }).trans (sumSecs_toInt beyond (gmtime clock)).symm)).trans
        (sumSecs_gmtime beyond clock)
  unfold mktime
  rcases hcases with h | h
  · have hzero : (localtimeIn (ltzset t z) t).tmIsdst = 0 := h ▸ rfl
    have hsecs : sumSecs beyond (localtimeIn (ltzset t z) t) = t - (ltzset t z).timezone := by
      rw [h, sumSecs_gmtime]
    have hback : ∀ s, t - (ltzset t z).timezone + (ltzset s z).timezone = t := fun s => by
      rw [(hoffsets s t z).1, Int32.sub_add_cancel]
    simp [hzero, hsecs, hback, hkeep]
  · have hone : (localtimeIn (ltzset t z) t).tmIsdst = 1 := h ▸ rfl
    have hsecs : sumSecs beyond (localtimeIn (ltzset t z) t) = t - (ltzset t z).altzone := by
      rw [h, hsum]
    have hback : ∀ s, t - (ltzset t z).altzone + (ltzset s z).altzone = t := fun s => by
      rw [(hoffsets s t z).2, Int32.sub_add_cancel]
    simp [hone, hsecs, hback, hkeep]

end Calendar
end Svr4
