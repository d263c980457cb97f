import Svr4.Lib.Loop
import Svr4.Calendar.Model

/-!
# The rules of a time zone

The value of `TZ` in the form of POSIX: the names of the zone and of the alternate
zone, how far they are from Greenwich, and the rules for the dates between which the
alternate zone is kept.  A text is the list of its characters.
-/

namespace Svr4
namespace Calendar

/-!
## Numbers and times
-/

def digitLoop : List Char → Int32 → List Char × Int32
  | [], d => ([], d)
  | c :: ptr, d =>
    if c.isDigit then digitLoop ptr (d * 10 + Int32.ofNat (c.toNat - 48)) else (c :: ptr, d)

def startsDigit (p : List Char) : Bool := p.head?.any Char.isDigit

def getdigit (ptr : List Char) : Option (List Char × Int32) :=
  if startsDigit ptr then some (digitLoop ptr 0) else none

/-- A part of a time after a colon, and what follows it. -/
def colonPart (unit : Int32) (rest : List Char → Int32 → Option (List Char) × Int32)
    (p : List Char) (t : Int32) : Option (List Char) × Int32 :=
  if p.head? = some ':' then
    (getdigit p.tail).elim (none, t) fun r => rest r.1 (t + r.2 * unit)
  else (some p, t)

def unsignedTime (p : List Char) : Option (List Char) × Int32 :=
  (getdigit p).elim (none, 0) fun r =>
    colonPart secPerMin (colonPart 1 fun p t => (some p, t)) r.1 (r.2 * secPerHour)

/-- `gettime`; the time is stored whether or not the text is one. -/
def gettime (p : List Char) (f : Bool) : Option (List Char) × Int32 :=
  if f ∧ p.head? = some '-' then ((unsignedTime p.tail).1, -(unsignedTime p.tail).2)
  else if f ∧ p.head? = some '+' then unsignedTime p.tail
  else unsignedTime p

/-- `getzname`, without the copy of the name. -/
def getzname (p : List Char) : Option (List Char) :=
  if p.head?.any Char.isAlpha then some (p.dropWhile Char.isAlpha) else none

/-!
## Rules
-/

/-- What `posixsubdst` stores of a rule, by its type. -/
inductive Rule where
  | day (jul : Int)
  | julian (jul : Int)
  | week (m n d : Int)
deriving DecidableEq

def subTime (p : List Char) (rule : Rule) (tm : Int32) : Option (List Char × Rule × Int32) :=
  if p.head? = some '/' then
    (gettime p.tail false).1.map fun p' => (p', rule, (gettime p.tail false).2)
  else some (p, rule, tm)

def dotNumber (p : List Char) : Option (List Char × Int32) :=
  if p.head? = some '.' then getdigit p.tail else none

def posixsubdst (p : List Char) (tm : Int32) : Option (List Char × Rule × Int32) :=
  if startsDigit p then
    (getdigit p).bind fun r =>
      if r.2 < 0 ∨ r.2 > 365 then none else subTime r.1 (.day r.2.toInt) tm
  else if p.head? = some 'J' then
    (getdigit p.tail).bind fun r =>
      -- `--(*jul)`: from 0 to 364
      if r.2 ≤ 0 ∨ r.2 > 365 then none else subTime r.1 (.julian (r.2 - 1).toInt) tm
  else if p.head? = some 'M' then
    (getdigit p.tail).bind fun m =>
      if m.2 ≤ 0 ∨ m.2 > 12 then none
      else (dotNumber m.1).bind fun n =>
        if n.2 ≤ 0 ∨ n.2 > 5 then none
        else (dotNumber n.1).bind fun d =>
          if d.2 < 0 ∨ d.2 > 6 then none
          else subTime d.1 (.week m.2.toInt n.2.toInt d.2.toInt) tm
  else none

/-!
## The day of a rule
-/

/-- `for (d = 1; wd != stdd; ++d)` -/
def dayBody (stdd : Int) (s : Int × Int) : (Int × Int) ⊕ Int :=
  if s.1 ≠ stdd then .inl ((s.1 + 1).tmod daysPerWeek, s.2 + 1) else .inr s.2

/-- `for (w = 1; w != stdn; ++w)` -/
def weekBody (stdn len : Int) (s : Int × Int) : (Int × Int) ⊕ Int :=
  if s.1 ≠ stdn then
    if s.2 + daysPerWeek > len then .inr s.2 else .inl (s.1 + 1, s.2 + daysPerWeek)
  else .inr s.2

def toMonth (leap : Bool) (i : Int) : Int :=
  ((if leap then lydayToMonth else ydayToMonth).getD i.toNat 0).toInt

/--
`__mon_lengths[leap][i]`, where behind a row is the next one, and behind the last
whatever memory holds.
-/
def monLength (past : Int) (leap : Bool) (i : Int) : Int :=
  (monLengths leap).getD i.toNat (if leap then past else 31)

def wdJan01 (stdTm : Tm) : Int :=
  let wd := stdTm.tmWday.toInt - stdTm.tmYday.toInt.tmod daysPerWeek
  if wd < 0 then wd + daysPerWeek else wd

/--
The day of the year, from 0, that a rule gives in the year of `std_tm`.  The loop
over the days of the week is given seven turns, that over the weeks five.
-/
def ruleDay (past : Int) (stdTm : Tm) : Rule → Option Int
  | .day jul => some jul
  | .julian jul =>
    some (if isleap stdTm.tmYear.toInt ∧ jul > feb28.toInt then jul + 1 else jul)
  | .week m n d =>
    let leap := isleap stdTm.tmYear.toInt
    let wd := (wdJan01 stdTm + toMonth leap (m - 1)).tmod daysPerWeek
    (Loop.run (dayBody d) 7 (wd, 1)).bind fun day =>
      (Loop.run (weekBody n (monLength past leap m)) 5 (1, day)).map fun day =>
        toMonth leap (m - 1) + day - 1

def rulePass (past : Int) (stdTm : Tm) (std alt : Rule) : Option (Int × Int) :=
  (ruleDay past stdTm std).bind fun lsd =>
    (ruleDay past stdTm alt).map fun led => (lsd, led)

/-- The days of the two rules, which are taken again where the first is the later. -/
def ruleDays (past : Int) (timezone altzone tim : Int32) (std alt : Rule) :
    Option (Int × Int) :=
  (rulePass past (gmtime (tim - timezone)) std alt).bind fun days =>
    if days.1 ≤ days.2 then some days
    -- the southern hemisphere
    else rulePass past (gmtime (tim - altzone)) std alt

def posixgetdst (past : Int) (p : List Char) (timezone altzone tim : Int32) :
    Option (Int32 × Int32) :=
  (posixsubdst p 7200).bind fun std =>
    if std.1.head? ≠ some ',' then none
    else (posixsubdst std.1.tail 7200).bind fun alt =>
      (ruleDays past timezone altzone tim std.2.1 alt.2.1).map fun days =>
        (Int32.ofInt days.1 * secPerDay + std.2.2,
          Int32.ofInt days.2 * secPerDay + alt.2.2 - (timezone - altzone))

/-!
## The time zone of a text
-/

/-- What `_ltzset` does with the rules; `getdst` reads the older form. -/
def setRules (past : Int) (getdst : List Char → Zone → Zone) (name : List Char) (tim : Int32)
    (z : Zone) : Zone :=
  if name.head? = some ';' then getdst name.tail z
  else
    (posixgetdst past name.tail z.timezone z.altzone tim).elim z fun day =>
      { z with startDst := day.1, endDst := day.2 }

def startsRules (name : List Char) : Bool := name.head? = some ';' || name.head? = some ','

/-- What `_ltzset` does after the name of the alternate zone. -/
def setAlternate (past : Int) (getdst : List Char → Zone → Zone) (name : List Char)
    (tim : Int32) (z : Zone) : Zone :=
  if name = [] then z
  else if startsRules name then setRules past getdst name tim z
  else
    let z := { z with altzone := (gettime name true).2 }
    (gettime name true).1.elim z fun name =>
      if startsRules name then setRules past getdst name tim z else z

/-- `_ltzset` where `TZ` is `name`, by the method of POSIX. -/
def ltzsetPosix (past : Int) (getdst : List Char → Zone → Zone) (name : List Char)
    (tim : Int32) (z : Zone) : Zone :=
  (getzname name).elim z fun name =>
    let z := { z with timezone := (gettime name true).2 }
    (gettime name true).1.elim z fun name =>
      let z := { z with
        altzone := z.timezone - secPerHour
        startDst := 0
        endDst := 0
        daylight := false }
      (getzname name).elim z fun name =>
        setAlternate past getdst name tim { z with startDst := -1, endDst := -1, daylight := true }

/-- `localtime` where `TZ` is `name`. -/
def localtime (past : Int) (getdst : List Char → Zone → Zone) (name : List Char) (z : Zone)
    (timep : Int32) : Tm :=
  localtimeIn (ltzsetPosix past getdst name timep z) timep

end Calendar
end Svr4
