import Mathlib.Logic.Basic

/-!
# Calendar time

The functions of `gen/time_comm.c` that take a time apart and put one together, and
the tables of `gen/time_data.c`.  An `int`, a `long` and a
`time_t` have 32 bits.  The locals of `offtime` are integers, since
nothing in it leaves 32 bits for an offset of 0.

The names of the zones are kept only as far as they are read again; the files of
the Olson method are outside.
-/

namespace Svr4
namespace Calendar

/-!
## Broken-down time
-/

structure Tm where
  tmSec : Int32
  tmMin : Int32
  tmHour : Int32
  tmMday : Int32
  tmMon : Int32
  tmYear : Int32
  tmWday : Int32
  tmYday : Int32
  tmIsdst : Int32
deriving DecidableEq

def secPerMin : Int32 := 60
def secPerHour : Int32 := 60 * 60
def secPerDay : Int32 := 24 * 60 * 60
def secPerYear : Int32 := 365 * 24 * 60 * 60
def leapTo70 : Int32 := 70 / 4
def feb28 : Int32 := 58

def secsPerMin : Int := 60
def secsPerHour : Int := 3600
def secsPerDay : Int := 86400
def daysPerWeek : Int := 7
def tmYearBase : Int := 1900
def epochYear : Int := 1970
/-- `TM_THURSDAY` -/
def epochWday : Int := 4

/-- The macro, which is used with a year and with years since 1900. -/
def isleap (y : Int) : Bool :=
  (y.tmod 4 == 0 && y.tmod 100 != 0) || y.tmod 400 == 0

def monLengths (yleap : Bool) : List Int :=
  if yleap then [31, 29, 31, 30, 31, 30, 31, 31, 30, 31, 30, 31]
  else [31, 28, 31, 30, 31, 30, 31, 31, 30, 31, 30, 31]

def yearLengths (yleap : Bool) : Int := if yleap then 366 else 365

def ydayToMonth : List Int32 := [0, 31, 59, 90, 120, 151, 181, 212, 243, 273, 304, 334]

def lydayToMonth : List Int32 := [0, 31, 60, 91, 121, 152, 182, 213, 244, 274, 305, 335]

/-!
## From a time to a date
-/

/-- `while (rem < 0)` -/
def borrowDays (days rem : Int) : Int × Int :=
  if rem < 0 then borrowDays (days - 1) (rem + secsPerDay) else (days, rem)
termination_by (-rem).toNat
decreasing_by
  unfold secsPerDay
  omega

/-- `while (rem >= SECS_PER_DAY)` -/
def carryDays (days rem : Int) : Int × Int :=
  if rem ≥ secsPerDay then carryDays (days + 1) (rem - secsPerDay) else (days, rem)
termination_by rem.toNat
decreasing_by
  unfold secsPerDay at *
  omega

theorem yearLengths_cases (yleap : Bool) : yearLengths yleap = 365 ∨ yearLengths yleap = 366 := by
  cases yleap with
  | true => exact Or.inr rfl
  | false => exact Or.inl rfl

def yearsUp (y days : Int) : Int × Int :=
  if days < yearLengths (isleap y) then (y, days)
  else yearsUp (y + 1) (days - yearLengths (isleap y))
termination_by days.toNat
decreasing_by
  rcases yearLengths_cases (isleap y) with h | h <;> omega

def yearsDown (y days : Int) : Int × Int :=
  if days + yearLengths (isleap (y - 1)) < 0 then
    yearsDown (y - 1) (days + yearLengths (isleap (y - 1)))
  else (y - 1, days + yearLengths (isleap (y - 1)))
termination_by (-days).toNat
decreasing_by
  rcases yearLengths_cases (isleap (y - 1)) with h | h <;> omega

/-- The loop over the months, whose lengths are `ip`. -/
def monthsUp : List Int → Int → Int → Int × Int
  | [], mon, days => (mon, days)
  | len :: ip, mon, days =>
    if days ≥ len then monthsUp ip (mon + 1) (days - len) else (mon, days)

def offtime (clock : Int32) (offset : Int) : Tm :=
  let days := clock.toInt.tdiv secsPerDay
  let rem := clock.toInt.tmod secsPerDay + offset
  let b := borrowDays days rem
  let c := carryDays b.1 b.2
  let days := c.1
  let rem := c.2
  let hour := rem.tdiv secsPerHour
  let rem := rem.tmod secsPerHour
  let wday := (epochWday + days).tmod daysPerWeek
  let y := if days ≥ 0 then yearsUp epochYear days else yearsDown epochYear days
  let m := monthsUp (monLengths (isleap y.1)) 0 y.2
  { tmSec := Int32.ofInt (rem.tmod secsPerMin)
    tmMin := Int32.ofInt (rem.tdiv secsPerMin)
    tmHour := Int32.ofInt hour
    tmMday := Int32.ofInt (m.2 + 1)
    tmMon := Int32.ofInt m.1
    tmYear := Int32.ofInt (y.1 - tmYearBase)
    tmWday := Int32.ofInt (if wday < 0 then wday + daysPerWeek else wday)
    tmYday := Int32.ofInt y.2
    tmIsdst := 0 }

def gmtime (clock : Int32) : Tm := offtime clock 0

/-!
## The time zone
-/

/--
What `_ltzset` sets.  `tzState` is that `_tz_state` is not null, as it
is from the first zone that a file gave until one that no file gives.
-/
structure Zone where
  timezone : Int32
  altzone : Int32
  daylight : Bool
  startDst : Int32
  endDst : Int32
  tzState : Bool
deriving DecidableEq

/-- A row of `__daytab`: `yrbgn`, `daylb` and `dayle`. -/
structure Dayrow where
  yrbgn : Int32
  daylb : Int32
  dayle : Int32

def daytab : List Dayrow :=
  [⟨87, 96, 303⟩, ⟨76, 119, 303⟩, ⟨75, 58, 303⟩, ⟨74, 5, 333⟩, ⟨69, 119, 303⟩]

/-- The last row of `__daytab`, from year 0 on. -/
def daytabLast : Dayrow := ⟨0, 119, 303⟩

def yearSize (a : Int32) : Int32 := if a % 4 ≠ 0 then 365 else 366

def sunday (t : Tm) (d : Int32) : Int32 :=
  let d := if d ≥ 58 then d + (yearSize t.tmYear - 365) else d
  d - (d - t.tmYday + t.tmWday + 700) % 7

def getusa (t : Tm) : Int32 × Int32 :=
  let row := (daytab.find? fun row => ¬ t.tmYear < row.yrbgn).getD daytabLast
  (sunday t row.daylb * secPerDay + 2 * secPerHour, sunday t row.dayle * secPerDay + secPerHour)

/-- The period that `localtime` and `mktime` take a time against. -/
def dstPeriod (z : Zone) (t : Tm) : Int32 × Int32 :=
  if z.startDst = -1 ∧ z.endDst = -1 then getusa t else (z.startDst, z.endDst)

def yearSecs (t : Tm) : Int32 :=
  t.tmYday * secPerDay + t.tmHour * secPerHour + t.tmMin * secPerMin + t.tmSec

/-- `localtime` after its call of `_ltzset`. -/
def localtimeIn (z : Zone) (timep : Int32) : Tm :=
  let t := timep - z.timezone
  let tmp := gmtime t
  if ¬ z.daylight then tmp
  else
    -- the Olson method compares times, the others times of the year
    let curr := if z.tzState ∧ z.startDst ≠ -1 then t else yearSecs tmp
    let day := dstPeriod z tmp
    if day.1 ≤ day.2 then
      if curr ≥ day.1 ∧ curr < day.2 then { gmtime (timep - z.altzone) with tmIsdst := 1 }
      else tmp
    else
      if ¬ (curr ≥ day.2 ∧ curr < day.1) then { gmtime (timep - z.altzone) with tmIsdst := 1 }
      else tmp

/-!
## From a date to a time
-/

/-- `mktime` brings the month into the year. -/
def carryMonths (timeptr : Tm) : Tm :=
  if timeptr.tmMon ≥ 12 then
    { timeptr with
      tmYear := timeptr.tmYear + timeptr.tmMon / 12
      tmMon := timeptr.tmMon % 12 }
  else if timeptr.tmMon < 0 then
    let temp := -timeptr.tmMon
    { timeptr with
      tmYear := timeptr.tmYear - (1 + temp / 12)
      tmMon := 12 - temp % 12 }
  else timeptr

/-- An entry of a table, or what memory holds where it would be. -/
def entry (table : List Int32) (beyond : Int32 → Int32) (i : Int32) : Int32 :=
  if 0 ≤ i then (table[i.toInt.toNat]?).getD (beyond i) else beyond i

/--
The seconds that `mktime` adds up.  What is behind the tables of the months with
and without a leap day is `beyond`.
-/
def sumSecs (beyond : Bool → Int32 → Int32) (timeptr : Tm) : Int32 :=
  let secs := timeptr.tmSec + secPerMin * timeptr.tmMin + secPerHour * timeptr.tmHour +
    secPerDay * (timeptr.tmMday - 1)
  let c := carryMonths timeptr
  let secs := secs + (secPerYear * (c.tmYear - 70) +
    secPerDay * ((c.tmYear + 3) / 4 - 1 - leapTo70))
  if c.tmYear % 4 = 0 then secs + secPerDay * entry lydayToMonth (beyond true) c.tmMon
  else secs + secPerDay * entry ydayToMonth (beyond false) c.tmMon

/-- `_ltzset` where `TZ` is not set. -/
def Zone.gmt (z : Zone) : Zone :=
  { z with timezone := 0, altzone := 0, daylight := false }

/--
`mktime`: the result, and the fields it leaves.  `ltzset` sets the zone for
a time.
-/
def mktime (ltzset : Int32 → Zone → Zone) (beyond : Bool → Int32 → Int32) (z : Zone)
    (timeptr : Tm) : Int32 × Tm :=
  let secs := sumSecs beyond timeptr
  let z := ltzset secs z
  let secs := if timeptr.tmIsdst > 0 then secs + z.altzone else secs + z.timezone
  let z := ltzset secs z
  let tptr := localtimeIn z secs
  let again :=
    if timeptr.tmIsdst < 0 then
      let day := dstPeriod z tptr
      let temp := tptr.tmSec + secPerMin * tptr.tmMin + secPerHour * tptr.tmHour +
        secPerDay * tptr.tmYday
      let shift := z.timezone - z.altzone
      if day.1 ≤ day.2 then decide (temp ≥ day.1 ∧ temp < day.2 + shift)
      else decide ¬ (temp ≥ day.2 + shift ∨ temp < day.1)
    else false
  let secs' := if again then secs - (z.timezone - z.altzone) else secs
  let tptr := if again then localtimeIn (ltzset secs' z) secs' else tptr
  (if secs' < 0 then -1 else secs', tptr)

end Calendar
end Svr4
