import Svr4.Calendar.Rules
import Svr4.Calendar.Mktime

/-!
# The text of a time zone

How the value of `TZ` is written, and that it is read as it is written.
-/

namespace Svr4
namespace Calendar

open List Option

/-!
## Numbers
-/

/-- A number in decimal, with or without zeros before it. -/
structure Numeral where
  digits : List Char
  ne_nil : digits ≠ []
  isDigit : ∀ c ∈ digits, c.isDigit = true

namespace Numeral

def val (n : Numeral) : Nat := Nat.ofDigitChars 10 n.digits 0

end Numeral

variable {rest : List Char}

theorem digitLoop_append {digits : List Char} (hdigits : ∀ c ∈ digits, c.isDigit = true)
    (hrest : startsDigit rest = false) (a : Nat) : digitLoop (digits ++ rest) (Int32.ofNat a) =
      (rest, Int32.ofNat (Nat.ofDigitChars 10 digits a)) := by
  induction digits generalizing a with
  | nil =>
    rw [nil_append, Nat.ofDigitChars_nil]
    cases rest with
    | nil => rfl
    | cons c rest =>
      have hc : ¬ c.isDigit = true := fun h => Bool.false_ne_true (hrest.symm.trans h)
      rw [digitLoop, if_neg hc]
  | cons c digits ih =>
    have hc : c.isDigit = true := hdigits c mem_cons_self
    have hval : Int32.ofNat a * 10 + Int32.ofNat (c.toNat - 48) =
        Int32.ofNat (10 * a + (c.toNat - '0'.toNat)) := by
      rw [Nat.mul_comm 10 a, Int32.ofNat_add, Int32.ofNat_mul]
      rfl
    rw [cons_append, digitLoop, if_pos hc, hval, Nat.ofDigitChars_cons]
    exact ih (fun d hd => hdigits d (mem_cons_of_mem c hd)) _

theorem startsDigit_numeral (n : Numeral) (rest : List Char) :
    startsDigit (n.digits ++ rest) = true := by
  cases hdigits : n.digits with
  | nil => exact absurd hdigits n.ne_nil
  | cons c digits =>
    exact n.isDigit c (by rw [hdigits]; exact mem_cons_self)

theorem getdigit_numeral (n : Numeral) (hrest : startsDigit rest = false) :
    getdigit (n.digits ++ rest) = some (rest, Int32.ofNat n.val) := by
  unfold getdigit
  rw [if_pos (startsDigit_numeral n rest)]
  exact congrArg some (digitLoop_append n.isDigit hrest 0)

/-!
## Times
-/

/-- Hours, minutes and seconds, the last of which may be left out. -/
structure TimeText where
  hour : Numeral
  rest : Option (Numeral × Option Numeral)

namespace TimeText

def secText : Option Numeral → List Char
  | none => []
  | some s => ':' :: s.digits

def minText : Option (Numeral × Option Numeral) → List Char
  | none => []
  | some m => ':' :: (m.1.digits ++ secText m.2)

def text (t : TimeText) : List Char := t.hour.digits ++ minText t.rest

def secVal : Option Numeral → Int
  | none => 0
  | some s => s.val

def minVal : Option (Numeral × Option Numeral) → Int
  | none => 0
  | some m => m.1.val * 60 + secVal m.2

def secs (t : TimeText) : Int := t.hour.val * 3600 + minVal t.rest

end TimeText

def EndsTime (rest : List Char) : Prop := startsDigit rest = false ∧ rest.head? ≠ some ':'

variable {unit x y top : Int32}

theorem colonPart_of_ends {k : List Char → Int32 → Option (List Char) × Int32}
    (hrest : rest.head? ≠ some ':') (t : Int32) : colonPart unit k rest t = (some rest, t) := by
  exact if_neg hrest

theorem colonPart_colon {k : List Char → Int32 → Option (List Char) × Int32} (n : Numeral)
    (hrest : startsDigit rest = false) (t : Int32) :
    colonPart unit k (':' :: (n.digits ++ rest)) t = k rest (t + Int32.ofNat n.val * unit) := by
  unfold colonPart
  rw [head?_cons, if_pos rfl, tail_cons, getdigit_numeral n hrest]
  rfl

theorem ofInt_natCast (n : Nat) : Int32.ofInt n = Int32.ofNat n := Int32.ofInt_eq_ofNat

theorem colonPart_sec (s : Option Numeral) (hrest : EndsTime rest) (t : Int) :
    colonPart 1 (fun p t => (some p, t)) (TimeText.secText s ++ rest) (Int32.ofInt t) =
      (some rest, Int32.ofInt (t + TimeText.secVal s)) := by
  cases s with
  | none =>
    show _ = (some rest, Int32.ofInt (t + 0))
    rw [Int.add_zero]
    exact colonPart_of_ends hrest.2 _
  | some s =>
    show colonPart 1 _ (':' :: (s.digits ++ rest)) _ = _
    rw [colonPart_colon s hrest.1, Int32.mul_one, TimeText.secVal, Int32.ofInt_add, ofInt_natCast]

theorem startsDigit_secText (s : Option Numeral) (hrest : EndsTime rest) :
    startsDigit (TimeText.secText s ++ rest) = false := by
  cases s with
  | none => exact hrest.1
  | some s => rfl

theorem startsDigit_minText (m : Option (Numeral × Option Numeral))
    (hrest : EndsTime rest) : startsDigit (TimeText.minText m ++ rest) = false := by
  cases m with
  | none => exact hrest.1
  | some m => rfl

theorem unsignedTime_text (t : TimeText) (hrest : EndsTime rest) :
    unsignedTime (t.text ++ rest) = (some rest, Int32.ofInt t.secs) := by
  unfold unsignedTime TimeText.text
  rw [append_assoc, getdigit_numeral t.hour (startsDigit_minText t.rest hrest), elim_some]
  have hhour : Int32.ofNat t.hour.val * secPerHour = Int32.ofInt (t.hour.val * 3600) := by
    rw [Int32.ofInt_mul, ofInt_natCast]
    rfl
  rw [hhour]
  unfold TimeText.secs
  cases t.rest with
  | none =>
    show _ = (some rest, Int32.ofInt (_ + 0))
    rw [Int.add_zero]
    exact colonPart_of_ends hrest.2 _
  | some m =>
    have htext : TimeText.minText (some m) ++ rest =
        ':' :: (m.1.digits ++ (TimeText.secText m.2 ++ rest)) := by
      simp [TimeText.minText]
    have hmin : Int32.ofInt (t.hour.val * 3600) + Int32.ofNat m.1.val * secPerMin =
        Int32.ofInt (t.hour.val * 3600 + m.1.val * 60) := by
      rw [Int32.ofInt_add, Int32.ofInt_mul m.1.val, ofInt_natCast]
      rfl
    rw [htext, colonPart_colon m.1 (startsDigit_secText m.2 hrest), hmin,
      colonPart_sec m.2 hrest, TimeText.minVal, Int.add_assoc]

variable {c : Char}

theorem head_digit_ne {p : List Char} (h : startsDigit p = true)
    (hc : c.isDigit = false) : p.head? ≠ some c := by
  intro hhead
  unfold startsDigit at h
  rw [hhead, any_some, hc] at h
  exact Bool.false_ne_true h

theorem startsDigit_time (t : TimeText) (rest : List Char) :
    startsDigit (t.text ++ rest) = true := by
  unfold TimeText.text
  rw [append_assoc]
  exact startsDigit_numeral t.hour _

theorem gettime_text (t : TimeText) (f : Bool) (hrest : EndsTime rest) :
    gettime (t.text ++ rest) f = (some rest, Int32.ofInt t.secs) := by
  have hstart := startsDigit_time t rest
  unfold gettime
  rw [if_neg (fun h => head_digit_ne hstart rfl h.2),
    if_neg (fun h => head_digit_ne hstart rfl h.2)]
  exact unsignedTime_text t hrest

/-!
## Rules
-/

/-- The forms of a date: `n`, `Jn` and `Mm.n.d`. -/
inductive RuleForm where
  | day (n : Numeral) (hn : n.val ≤ 365)
  | julian (n : Numeral) (hpos : 1 ≤ n.val) (hn : n.val ≤ 365)
  | week (m n d : Numeral) (hmpos : 1 ≤ m.val) (hm : m.val ≤ 12) (hnpos : 1 ≤ n.val)
      (hn : n.val ≤ 5) (hd : d.val ≤ 6)

namespace RuleForm

def text : RuleForm → List Char
  | day n _ => n.digits
  | julian n _ _ => 'J' :: n.digits
  | week m n d _ _ _ _ _ => 'M' :: (m.digits ++ '.' :: (n.digits ++ '.' :: d.digits))

def rule : RuleForm → Rule
  | day n _ => .day n.val
  | julian n _ _ => .julian (n.val - 1)
  | week m n d _ _ _ _ _ => .week m.val n.val d.val

end RuleForm

/-- A rule: a date and, if it is not two o'clock, a time. -/
structure RuleText where
  form : RuleForm
  time : Option TimeText

namespace RuleText

def timeText : Option TimeText → List Char
  | none => []
  | some t => '/' :: t.text

def text (r : RuleText) : List Char := r.form.text ++ timeText r.time

def secs (r : RuleText) : Int := r.time.elim 7200 TimeText.secs

end RuleText

def EndsRule (rest : List Char) : Prop := rest = [] ∨ rest.head? = some ','

theorem EndsRule.endsTime (h : EndsRule rest) : EndsTime rest ∧ rest.head? ≠ some '/' := by
  unfold EndsTime startsDigit
  rcases h with hnil | hcomma
  · rw [hnil]
    exact ⟨⟨rfl, by decide⟩, by decide⟩
  · rw [hcomma]
    exact ⟨⟨rfl, by decide⟩, by decide⟩

theorem subTime_text (time : Option TimeText) (rule : Rule)
    (hrest : EndsRule rest) : subTime (RuleText.timeText time ++ rest) rule 7200 =
      some (rest, rule, Int32.ofInt (time.elim 7200 TimeText.secs)) := by
  cases time with
  | none => exact if_neg hrest.endsTime.2
  | some t =>
    show (if ('/' :: (t.text ++ rest)).head? = some '/' then _ else _) = _
    rw [head?_cons, if_pos rfl, RuleText.timeText, cons_append, tail_cons,
      gettime_text t false hrest.endsTime.1]
    rfl

theorem startsDigit_timeText (time : Option TimeText)
    (hrest : EndsRule rest) : startsDigit (RuleText.timeText time ++ rest) = false := by
  cases time with
  | none => exact hrest.endsTime.1.1
  | some t => rfl

variable {k n : Nat}

theorem toInt_ofNat_of_le (h : n ≤ k) (hk : k < 2147483648) : (Int32.ofNat n).toInt = n :=
  Int32.toInt_ofNat_of_lt (show n < 2147483648 by omega)

theorem not_lt_of_toInt (h : y.toInt ≤ x.toInt) : ¬ x < y :=
  Int32.not_lt.mpr (Int32.le_iff_toInt_le.mpr h)

theorem not_le_of_toInt (h : y.toInt < x.toInt) : ¬ x ≤ y :=
  Int32.not_le.mpr (Int32.lt_iff_toInt_lt.mpr h)

theorem passes_from_zero (h : n ≤ k) (hk : k < 2147483648)
    (htop : top.toInt = k) : ¬ (Int32.ofNat n < 0 ∨ Int32.ofNat n > top) := by
  have hn := toInt_ofNat_of_le h hk
  rintro (hneg | hgt)
  · exact not_lt_of_toInt (by rw [hn]; exact Int.natCast_nonneg n) hneg
  · exact not_lt_of_toInt (by rw [hn, htop]; exact Int.ofNat_le.mpr h) hgt

theorem passes_from_one (hpos : 1 ≤ n) (h : n ≤ k) (hk : k < 2147483648) (htop : top.toInt = k) :
    ¬ (Int32.ofNat n ≤ 0 ∨ Int32.ofNat n > top) := by
  have hn := toInt_ofNat_of_le h hk
  rintro (hneg | hgt)
  · exact not_le_of_toInt (by rw [hn]; exact Int.ofNat_lt.mpr hpos) hneg
  · exact not_lt_of_toInt (by rw [hn, htop]; exact Int.ofNat_le.mpr h) hgt

theorem dotNumber_numeral (n : Numeral) (hrest : startsDigit rest = false) :
    dotNumber ('.' :: (n.digits ++ rest)) = some (rest, Int32.ofNat n.val) := by
  unfold dotNumber
  exact getdigit_numeral n hrest

theorem posixsubdst_text (r : RuleText) (hrest : EndsRule rest) :
    posixsubdst (r.text ++ rest) 7200 = some (rest, r.form.rule, Int32.ofInt r.secs) := by
  rcases r with ⟨form, time⟩
  have htime := startsDigit_timeText time hrest
  unfold RuleText.text RuleText.secs
  rw [append_assoc]
  cases form with
  | day n hn =>
    have hcheck := passes_from_zero hn (by decide) (show (365 : Int32).toInt = (365 : Nat) from rfl)
    show (if startsDigit (n.digits ++ _) = true then (getdigit (n.digits ++ _)).bind _ else _) = _
    rw [if_pos (startsDigit_numeral n _), getdigit_numeral n htime, bind_some]
    rw [if_neg hcheck, subTime_text time _ hrest, toInt_ofNat_of_le hn (by decide)]
    rfl
  | julian n hpos hn =>
    have hcheck := passes_from_one hpos hn (by decide)
      (show (365 : Int32).toInt = (365 : Nat) from rfl)
    have hval : (Int32.ofNat n.val - 1).toInt = n.val - 1 := by
      rw [Int32.toInt_sub, toInt_ofNat_of_le hn (by decide)]
      exact Int.bmod_eq_of_le (show -(4294967296 / 2) ≤ (n.val : Int) - 1 by omega)
        (show (n.val : Int) - 1 < (4294967296 + 1) / 2 by omega)
    show (if startsDigit ('J' :: _) = true then _ else
      if ('J' :: (n.digits ++ _)).head? = some 'J' then
        (getdigit ('J' :: (n.digits ++ _)).tail).bind _ else _) = _
    rw [if_neg (show ¬ startsDigit ('J' :: _) = true from Bool.false_ne_true), head?_cons,
      if_pos rfl, tail_cons, getdigit_numeral n htime, bind_some]
    rw [if_neg hcheck, subTime_text time _ hrest, hval]
    rfl
  | week m n d hmpos hm hnpos hn hd =>
    have hmonth := passes_from_one hmpos hm (by decide)
      (show (12 : Int32).toInt = (12 : Nat) from rfl)
    have hweek := passes_from_one hnpos hn (by decide) (show (5 : Int32).toInt = (5 : Nat) from rfl)
    have hday := passes_from_zero hd (by decide) (show (6 : Int32).toInt = (6 : Nat) from rfl)
    have htext : (RuleForm.week m n d hmpos hm hnpos hn hd).text ++
        (RuleText.timeText time ++ rest) =
        'M' :: (m.digits ++ '.' :: (n.digits ++ '.' :: (d.digits ++
          (RuleText.timeText time ++ rest)))) := by
      simp [RuleForm.text]
    rw [htext]
    unfold posixsubdst
    rw [if_neg (show ¬ startsDigit ('M' :: _) = true from Bool.false_ne_true),
      if_neg (show ¬ ('M' :: _).head? = some 'J' by simp), head?_cons, if_pos rfl,
      tail_cons, getdigit_numeral m rfl, bind_some]
    rw [if_neg hmonth, dotNumber_numeral n rfl, bind_some]
    rw [if_neg hweek, dotNumber_numeral d htime, bind_some]
    rw [if_neg hday, subTime_text time _ hrest, toInt_ofNat_of_le hm (by decide),
      toInt_ofNat_of_le hn (by decide), toInt_ofNat_of_le hd (by decide)]
    rfl

/-!
## Zones
-/

structure ZoneName where
  letters : List Char
  ne_nil : letters ≠ []
  isAlpha : ∀ c ∈ letters, c.isAlpha = true

theorem getzname_name (n : ZoneName)
    (hrest : rest.head?.any Char.isAlpha = false) : getzname (n.letters ++ rest) = some rest := by
  rcases n with ⟨letters, hne, halpha⟩
  have hdrop : (letters ++ rest).dropWhile Char.isAlpha = rest := by
    rw [dropWhile_append_of_pos halpha]
    cases rest with
    | nil => rfl
    | cons c rest =>
      have hc : ¬ c.isAlpha = true := fun h => Bool.false_ne_true (hrest.symm.trans h)
      exact dropWhile_cons_of_neg hc
  cases letters with
  | nil => exact absurd rfl hne
  | cons c letters =>
    have hc : ((c :: letters) ++ rest).head?.any Char.isAlpha = true :=
      halpha c mem_cons_self
    exact (if_pos hc).trans (congrArg some hdrop)

/-- How far a zone is from Greenwich; west is positive. -/
structure OffsetText where
  sign : Option Bool
  time : TimeText

namespace OffsetText

def signText : Option Bool → List Char
  | none => []
  | some true => ['-']
  | some false => ['+']

def text (o : OffsetText) : List Char := signText o.sign ++ o.time.text

def secs (o : OffsetText) : Int := if o.sign = some true then -o.time.secs else o.time.secs

end OffsetText

theorem gettime_offset (o : OffsetText) (hrest : EndsTime rest) :
    gettime (o.text ++ rest) true = (some rest, Int32.ofInt o.secs) := by
  rcases o with ⟨sign, time⟩
  have htime := unsignedTime_text time hrest
  unfold OffsetText.text OffsetText.secs
  cases sign with
  | none => exact gettime_text time true hrest
  | some minus =>
    cases minus with
    | true =>
      show ((unsignedTime (time.text ++ rest)).1, -(unsignedTime (time.text ++ rest)).2) = _
      rw [htime, if_pos rfl, Int32.ofInt_neg]
    | false =>
      show unsignedTime (time.text ++ rest) = _
      rw [htime, if_neg (by simp)]

theorem not_isDigit_of_isAlpha (h : c.isAlpha = true) : ¬ c.isDigit = true := by
  intro hdigit
  have hle : c.val ≤ 57 := of_decide_eq_true (Bool.and_eq_true_iff.mp hdigit).2
  rcases Bool.or_eq_true_iff.mp h with hupper | hlower
  · have hge : 65 ≤ c.val := (of_decide_eq_true hupper).1
    exact absurd (UInt32.le_trans hge hle) (by decide)
  · have hge : 97 ≤ c.val := of_decide_eq_true (Bool.and_eq_true_iff.mp hlower).1
    exact absurd (UInt32.le_trans hge hle) (by decide)

theorem head_offset (o : OffsetText) (rest : List Char) :
    (o.text ++ rest).head?.any Char.isAlpha = false ∧ startsRules (o.text ++ rest) = false ∧
      o.text ++ rest ≠ [] := by
  rcases o with ⟨sign, time⟩
  cases sign with
  | none =>
    have hstart := startsDigit_time time rest
    show (time.text ++ rest).head?.any Char.isAlpha = false ∧
      startsRules (time.text ++ rest) = false ∧ time.text ++ rest ≠ []
    cases htext : time.text ++ rest with
    | nil =>
      rw [htext] at hstart
      exact Bool.noConfusion hstart
    | cons c p =>
      rw [htext] at hstart
      have hc : c.isDigit = true := hstart
      refine ⟨?_, ?_, cons_ne_nil c p⟩
      · exact Bool.eq_false_iff.mpr fun halpha => not_isDigit_of_isAlpha halpha hc
      · unfold startsRules
        have hsemi := head_digit_ne (c := ';') hstart rfl
        have hcomma := head_digit_ne (c := ',') hstart rfl
        rw [decide_eq_false hsemi, decide_eq_false hcomma]
        rfl
  | some minus =>
    cases minus with
    | true => exact ⟨rfl, rfl, cons_ne_nil _ _⟩
    | false => exact ⟨rfl, rfl, cons_ne_nil _ _⟩

/-- A value of `TZ` with rules. -/
structure ZoneText where
  name : ZoneName
  offset : OffsetText
  altName : ZoneName
  altOffset : Option OffsetText
  start : RuleText
  stop : RuleText

namespace ZoneText

variable (tz : ZoneText)

def rulesText : List Char := tz.start.text ++ ',' :: tz.stop.text

def altText : Option OffsetText → List Char
  | none => []
  | some o => o.text

def text : List Char :=
  tz.name.letters ++ (tz.offset.text ++ (tz.altName.letters ++
    (altText tz.altOffset ++ ',' :: tz.rulesText)))

def timezone : Int32 := Int32.ofInt tz.offset.secs

def altzone : Int32 :=
  tz.altOffset.elim (tz.timezone - secPerHour) fun o => Int32.ofInt o.secs

end ZoneText

theorem isAlpha_ends (h : c.isAlpha = true) (rest : List Char) : EndsTime (c :: rest) := by
  constructor
  · exact Bool.eq_false_iff.mpr (not_isDigit_of_isAlpha h)
  · intro hhead
    have hcolon : c = ':' := Option.some.inj hhead
    rw [hcolon] at h
    exact Bool.noConfusion h

theorem endsTime_name (n : ZoneName) (rest : List Char) : EndsTime (n.letters ++ rest) := by
  rcases n with ⟨letters, hne, halpha⟩
  cases letters with
  | nil => exact absurd rfl hne
  | cons c letters => exact isAlpha_ends (halpha c mem_cons_self) _

section Zones

variable (past : Int) (getdst : List Char → Zone → Zone) (tz : ZoneText) (tim : Int32) (z : Zone)

theorem setRules_text : setRules past getdst (',' :: tz.rulesText) tim z =
    (posixgetdst past tz.rulesText z.timezone z.altzone tim).elim z fun day =>
      { z with startDst := day.1, endDst := day.2 } := by
  exact if_neg (by rw [head?_cons]; decide)

theorem ltzsetPosix_text : ltzsetPosix past getdst tz.text tim z =
    (let z' := { z with
      timezone := tz.timezone
      altzone := tz.altzone
      daylight := true
      startDst := -1
      endDst := -1 }
     (posixgetdst past tz.rulesText tz.timezone tz.altzone tim).elim z' fun day =>
      { z' with startDst := day.1, endDst := day.2 }) := by
  have hcomma : startsRules (',' :: tz.rulesText) = true := rfl
  unfold ltzsetPosix ZoneText.text
  rw [getzname_name tz.name (head_offset tz.offset _).1, elim_some,
    gettime_offset tz.offset (endsTime_name tz.altName _)]
  rw [elim_some]
  cases halt : tz.altOffset with
  | none =>
    rw [ZoneText.altText, nil_append, getzname_name tz.altName rfl, elim_some]
    unfold setAlternate
    unfold ZoneText.altzone
    rw [halt]
    rfl
  | some o =>
    have hhead := head_offset o (',' :: tz.rulesText)
    have hends : EndsTime (',' :: tz.rulesText) := ⟨rfl, by rw [head?_cons]; decide⟩
    rw [ZoneText.altText, getzname_name tz.altName hhead.1, elim_some]
    unfold setAlternate
    rw [if_neg hhead.2.2, if_neg (by rw [hhead.2.1]; exact Bool.false_ne_true),
      gettime_offset o hends]
    unfold ZoneText.altzone
    rw [halt]
    rfl

end Zones

end Calendar
end Svr4
