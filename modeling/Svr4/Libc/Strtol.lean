import Mathlib.Tactic.Ring
import Mathlib.Data.List.TakeWhile
import Mathlib.Tactic.Linarith

/-!
# The conversion of a string to an integer

`strtol` of `port/gen/strtol.c`, in the C locale.
-/

namespace Svr4
namespace Strtol

open List

/-!
## Characters
-/

/-- A string is the characters before its null character; a pointer into it is what is left
of it. -/
abbrev Text := List Int8

/-- `str[i]`, behind which the string does not end. -/
def charAt (str : Text) (i : Nat) : Int := (str[i]?).elim 0 Int8.toInt

/-!
The classes of `_ctype.c`.  A character whose high bit is set is in none of them.
-/

def isspace (c : Int) : Bool := 9 ≤ c ∧ c ≤ 13 ∨ c = 32

def isdigit (c : Int) : Bool := 48 ≤ c ∧ c ≤ 57

def islower (c : Int) : Bool := 97 ≤ c ∧ c ≤ 122

def isupper (c : Int) : Bool := 65 ≤ c ∧ c ≤ 90

def isalnum (c : Int) : Bool := isupper c || islower c || isdigit c

def isxdigit (c : Int) : Bool := isdigit c || 65 ≤ c ∧ c ≤ 70 || 97 ≤ c ∧ c ≤ 102

def lisalnum (c : Int) : Bool := isdigit c || 97 ≤ c ∧ c ≤ 122 || 65 ≤ c ∧ c ≤ 90

def DIGIT (c : Int) : Int :=
  if isdigit c then c - 48 else if islower c then c + 10 - 97 else c + 10 - 65

def MBASE : Int := 122 - 97 + 1 + 10

def LONG_MIN : Int := -2147483647 - 1

def LONG_MAX : Int := 2147483647

def long (n : Int) : Int := n.bmod 4294967296

def isDigitOf (base c : Int) : Bool := lisalnum c && DIGIT c < base

def digitOf (base : Int) (c : Int8) : Bool := isDigitOf base c.toInt

def isX (c : Int) : Bool := c = 120 || c = 88

/-!
## The function
-/

inductive ERRNO where
  | EINVAL
  | ERANGE
deriving DecidableEq

/-- What is returned, what is stored through `nptr`, and in `errno`. -/
structure Result where
  val : Int
  ptr : Text
  errno : Option ERRNO
deriving DecidableEq

/-- The `switch`: whether there is a minus sign, and what is behind the sign. -/
def sign (str : Text) : Bool × Text :=
  if charAt str 0 = 45 then (true, str.drop 1)
  else if charAt str 0 = 43 then (false, str.drop 1)
  else (false, str)

def preamble (str : Text) : Bool × Text :=
  if isalnum (charAt str 0) then (false, str) else sign (str.dropWhile (isspace ·.toInt))

def radix (base : Int) (str : Text) : Int :=
  if base = 0 then
    if charAt str 0 ≠ 48 then 10 else if isX (charAt str 1) then 16 else 8
  else base

def digits (base : Int) (str : Text) : Text :=
  if base = 16 ∧ charAt str 0 = 48 ∧ isX (charAt str 1) ∧ isxdigit (charAt str 2) then str.drop 2
  else str

/-- The first loop: the value, or that there is an overflow, and what is left. -/
def accumulate (limit base : Int) : Int → Text → Option Int × Text
  | val, [] => (some val, [])
  | val, c :: str =>
    if digitOf base c then
      if val < limit.tdiv base then (none, str)
      else if long (val * base) < long (limit + DIGIT c.toInt) then (none, str)
      else accumulate limit base (long (long (val * base) - DIGIT c.toInt)) str
    else (some val, c :: str)

def convert (neg : Bool) (base : Int) (str : Text) : Result :=
  let limit := if neg then LONG_MIN else -LONG_MAX
  match accumulate limit base (-DIGIT (charAt str 0)) (str.drop 1) with
  | (some val, str) => ⟨if neg then val else long (-val), str, none⟩
  | (none, str) =>
    ⟨if neg then LONG_MIN else LONG_MAX, str.dropWhile (digitOf base), some .ERANGE⟩

def strtol (str : Text) (base : Int) : Result :=
  if base < 0 ∨ base > MBASE ∨ base = 1 then ⟨0, str, some .EINVAL⟩
  else
    let p := preamble str
    let base := radix base p.2
    if isDigitOf base (charAt p.2 0) then convert p.1 base (digits base p.2)
    else ⟨0, str, none⟩

/-!
## The documented form
-/

/-- The digits of a radix, behind the prefix that goes with the base. -/
inductive Numeral : Int → Int → Text → Text → Prop where
  | plain {base : Int} {ds : Text} : base ≠ 0 → Numeral base base [] ds
  | prefixed {base : Int} {x : Int8} {ds : Text} :
      base = 16 ∨ base = 0 → isX x.toInt → Numeral base 16 [48, x] ds
  | decimal {d : Int8} {ds : Text} : d ≠ 48 → Numeral 0 10 [] (d :: ds)
  | octal {ds : Text} : Numeral 0 8 [] (48 :: ds)

/-- White space, a sign, and digits. -/
structure Form (base : Int) (neg : Bool) (radix : Int) (ds p : Text) : Prop where
  text : ∃ ws sign pre, p = ws ++ (sign ++ (pre ++ ds)) ∧ (∀ c ∈ ws, isspace c.toInt) ∧
    (if neg then sign = [45] else sign = [] ∨ sign = [43]) ∧
    Numeral base radix pre ds
  nonempty : ds ≠ []
  digit : ∀ c ∈ ds, digitOf radix c

def Begins (base : Int) (str p : Text) : Prop :=
  (∃ rest, str = p ++ rest) ∧ ∃ neg radix ds, Form base neg radix ds p

def value (radix : Int) : Int → Text → Int :=
  List.foldl fun n c => n * radix + DIGIT c.toInt

def number (radix : Int) (ds : Text) : Int := value radix 0 ds

def outcome (neg : Bool) (n : Int) (rest : Text) : Result :=
  let v := if neg then -n else n
  if LONG_MIN ≤ v ∧ v ≤ LONG_MAX then ⟨v, rest, none⟩
  else ⟨if neg then LONG_MIN else LONG_MAX, rest, some .ERANGE⟩

/-!
## Digits
-/

theorem DIGIT_nonneg {c : Int} (h : lisalnum c) : 0 ≤ DIGIT c := by
  simp only [lisalnum, isdigit, Bool.or_eq_true, decide_eq_true_eq] at h
  simp only [DIGIT, isdigit, islower, decide_eq_true_eq]
  split_ifs <;> omega

theorem isDigitOf_bounds {r c : Int} (h : isDigitOf r c) : 0 ≤ DIGIT c ∧ DIGIT c < r := by
  rw [isDigitOf, Bool.and_eq_true, decide_eq_true_eq] at h
  exact ⟨DIGIT_nonneg h.1, h.2⟩

theorem isDigitOf_mono {r r' c : Int} (hle : r ≤ r') (h : isDigitOf r c) : isDigitOf r' c := by
  rw [isDigitOf, Bool.and_eq_true, decide_eq_true_eq] at h ⊢
  exact ⟨h.1, Int.lt_of_lt_of_le h.2 hle⟩

theorem isxdigit_eq (c : Int) : isxdigit c = isDigitOf 16 c := by
  rw [Bool.eq_iff_iff]
  simp only [isxdigit, isDigitOf, lisalnum, DIGIT, isdigit, islower, Bool.or_eq_true,
    Bool.and_eq_true, decide_eq_true_eq]
  split_ifs <;> omega

theorem not_isDigitOf_of_isX {r c : Int} (hle : r ≤ 16) (hx : isX c) : ¬ isDigitOf r c := by
  intro h
  have h16 := isxdigit_eq c ▸ isDigitOf_mono hle h
  simp only [isX, isxdigit, isdigit, Bool.or_eq_true, decide_eq_true_eq] at hx h16
  omega

theorem long_of_range {n : Int} (hlo : LONG_MIN ≤ n) (hhi : n ≤ LONG_MAX) : long n = n := by
  rw [LONG_MIN] at hlo
  rw [LONG_MAX] at hhi
  rw [long, Int.bmod_def]
  split <;> omega

/-!
## The value
-/

section Value

variable {limit r : Int}

theorem le_value (hr : 1 ≤ r) {n : Int} (hn : 0 ≤ n) {ds : Text} (hds : ∀ c ∈ ds, digitOf r c) :
    n ≤ value r n ds := by
  induction ds generalizing n with
  | nil => exact Int.le_refl n
  | cons c ds ih =>
    have hd := (isDigitOf_bounds (hds c mem_cons_self)).1
    have hstep : n ≤ n * r + DIGIT c.toInt := by nlinarith
    exact Int.le_trans hstep (ih (Int.le_trans hn hstep) fun d hd => hds d (mem_cons_of_mem c hd))

theorem mul_lt_of_lt_tdiv (hr : 1 ≤ r) {val : Int} (h : val < limit.tdiv r) : val * r < limit := by
  have hdiv := Int.mul_tdiv_add_tmod limit r
  have hmod : -r < limit.tmod r := Int.lt_tmod_of_pos limit (by omega)
  nlinarith

theorem le_mul_of_tdiv_le (hr : 1 ≤ r) (hlimit : limit ≤ 0) {val : Int}
    (h : limit.tdiv r ≤ val) : limit ≤ val * r := by
  have hdiv := Int.mul_tdiv_add_tmod limit r
  have hmod := Int.tmod_nonneg r (Int.neg_nonneg_of_nonpos hlimit)
  rw [Int.neg_tmod] at hmod
  nlinarith

/-- The loop reads every digit, unless the number is beyond the limit. -/
theorem accumulate_eq (hr : 1 ≤ r) (hr36 : r ≤ 36) (hlo : LONG_MIN ≤ limit)
    (hhi : limit ≤ -LONG_MAX) {val : Int} (hval : limit ≤ val) (hneg : val ≤ 0) (str : Text) :
    if value r (-val) (str.takeWhile (digitOf r)) ≤ -limit then accumulate limit r val str =
        (some (-value r (-val) (str.takeWhile (digitOf r))), str.dropWhile (digitOf r))
    else (accumulate limit r val str).1 = none ∧
      (accumulate limit r val str).2.dropWhile (digitOf r) = str.dropWhile (digitOf r) := by
  have hmax : LONG_MAX = 2147483647 := rfl
  induction str generalizing val with
  | nil =>
    have hend : value r (-val) [] ≤ -limit := Int.neg_le_neg hval
    rw [takeWhile_nil, if_pos hend]
    simp [accumulate, value]
  | cons c str ih =>
    by_cases hc : digitOf r c
    · rcases isDigitOf_bounds hc with ⟨hd, hdr⟩
      have hall : ∀ d ∈ str.takeWhile (digitOf r), digitOf r d :=
        fun d hd => mem_takeWhile_imp hd
      rw [takeWhile_cons_of_pos hc, dropWhile_cons_of_pos hc, accumulate, if_pos hc]
      have hvalue : value r (-val) (c :: str.takeWhile (digitOf r)) =
          value r (-val * r + DIGIT c.toInt) (str.takeWhile (digitOf r)) := rfl
      rw [hvalue]
      have hprod : -val * r = -(val * r) := Int.neg_mul val r
      have hnonneg : 0 ≤ -val * r := Int.mul_nonneg (by omega) (by omega)
      have hlarge : val * r - DIGIT c.toInt < limit →
          ¬ value r (-val * r + DIGIT c.toInt) (str.takeWhile (digitOf r)) ≤ -limit := by
        have hge := le_value hr (n := -val * r + DIGIT c.toInt) (by omega) hall
        omega
      by_cases hquot : val < limit.tdiv r
      · have hlt := mul_lt_of_lt_tdiv hr hquot
        rw [if_pos hquot, if_neg (hlarge (by omega))]
        exact ⟨rfl, rfl⟩
      · have hle := le_mul_of_tdiv_le hr (by omega) (Int.not_lt.mp hquot)
        rw [if_neg hquot, long_of_range (n := val * r) (by omega) (by omega),
          long_of_range (n := limit + DIGIT c.toInt) (by omega) (by omega)]
        by_cases hroom : val * r < limit + DIGIT c.toInt
        · rw [if_pos hroom, if_neg (hlarge (by omega))]
          exact ⟨rfl, rfl⟩
        · rw [if_neg hroom, long_of_range (n := val * r - DIGIT c.toInt) (by omega) (by omega)]
          have hnext := @ih (val * r - DIGIT c.toInt) (by omega) (by omega)
          have hval' : -(val * r - DIGIT c.toInt) = -val * r + DIGIT c.toInt := by omega
          rw [hval'] at hnext
          exact hnext
    · have hend : value r (-val) [] ≤ -limit := Int.neg_le_neg hval
      rw [takeWhile_cons_of_neg hc, dropWhile_cons_of_neg hc, if_pos hend, accumulate, if_neg hc]
      simp [value]

end Value

theorem charAt_cons (c : Int8) (str : Text) : charAt (c :: str) 0 = c.toInt := rfl

theorem exists_cons_of_digit {r : Int} {str : Text} (h : isDigitOf r (charAt str 0)) :
    ∃ c str', str = c :: str' ∧ digitOf r c := by
  cases str with
  | nil => cases h
  | cons c str => exact ⟨c, str, rfl, h⟩

theorem convert_eq {r : Int} (hr : 1 ≤ r) (hr36 : r ≤ 36) (neg : Bool) {str : Text}
    (h : isDigitOf r (charAt str 0)) : convert neg r str =
      outcome neg (number r (str.takeWhile (digitOf r))) (str.dropWhile (digitOf r)) := by
  rcases exists_cons_of_digit h with ⟨c, str, rfl, hc⟩
  have hmax : LONG_MAX = 2147483647 := rfl
  have hmin : LONG_MIN = -2147483648 := rfl
  rcases isDigitOf_bounds hc with ⟨hd, hdr⟩
  have hnumber : number r (c :: str.takeWhile (digitOf r)) =
      value r (- -DIGIT c.toInt) (str.takeWhile (digitOf r)) := by
    rw [Int.neg_neg]
    show value r (0 * r + DIGIT c.toInt) _ = _
    rw [Int.zero_mul, Int.zero_add]
  have hpos : 0 ≤ number r (c :: str.takeWhile (digitOf r)) := by
    rw [hnumber, Int.neg_neg]
    exact Int.le_trans hd (le_value hr hd fun d hd => mem_takeWhile_imp hd)
  rw [takeWhile_cons_of_pos hc, dropWhile_cons_of_pos hc, convert, charAt_cons, drop_one, tail_cons]
  cases neg with
  | false =>
    have hlo : LONG_MIN ≤ -LONG_MAX := by omega
    have hval : -LONG_MAX ≤ -DIGIT c.toInt := by omega
    have hloop := accumulate_eq hr hr36 hlo (Int.le_refl _) hval (by omega) str
    rw [← hnumber, Int.neg_neg] at hloop
    simp only [outcome, Bool.false_eq_true, reduceIte]
    split at hloop
    · next hle =>
        rw [hloop, if_pos ⟨by omega, hle⟩]
        dsimp only
        rw [Int.neg_neg, long_of_range (by omega) hle]
    · next hlt =>
        rw [if_neg fun h => hlt h.2, ← hloop.2, ← Prod.eta (accumulate _ _ _ _), hloop.1]
  | true =>
    have hhi : LONG_MIN ≤ -LONG_MAX := by omega
    have hval : LONG_MIN ≤ -DIGIT c.toInt := by omega
    have hloop := accumulate_eq hr hr36 (Int.le_refl _) hhi hval (by omega) str
    rw [← hnumber] at hloop
    simp only [outcome, reduceIte]
    split at hloop
    · next hle =>
        rw [hloop, if_pos ⟨by omega, by omega⟩]
    · next hlt =>
        rw [if_neg fun h => hlt (by omega), ← hloop.2, ← Prod.eta (accumulate _ _ _ _), hloop.1]

/-!
## The scan
-/

def Signed (neg : Bool) (sign : Text) : Prop :=
  if neg then sign = [45] else sign = [] ∨ sign = [43]

theorem sign_split (str : Text) : ∃ sg, str = sg ++ (sign str).2 ∧ Signed (sign str).1 sg := by
  have hcons : ∀ n : Int8, n ≠ 0 → charAt str 0 = n.toInt → str = [n] ++ str.drop 1 := by
    intro n hn h
    cases str with
    | nil => exact absurd (Int8.toInt_inj.mp h.symm) hn
    | cons c t =>
      rw [Int8.toInt_inj.mp h]
      rfl
  rw [sign]
  split
  · next h => exact ⟨[45], hcons 45 (by decide) h, rfl⟩
  · split
    · next h => exact ⟨[43], hcons 43 (by decide) h, .inr rfl⟩
    · exact ⟨[], rfl, .inl rfl⟩

theorem sign_append {neg : Bool} {sg t : Text} (hsg : Signed neg sg) (ht : isalnum (charAt t 0)) :
    sign (sg ++ t) = (neg, t) := by
  have hne : charAt t 0 ≠ 45 ∧ charAt t 0 ≠ 43 := by
    constructor
    · intro h
      rw [h] at ht
      cases ht
    · intro h
      rw [h] at ht
      cases ht
  cases neg with
  | true =>
    cases hsg
    rfl
  | false =>
    rcases hsg with rfl | rfl
    · rw [nil_append, sign, if_neg hne.1, if_neg hne.2]
    · rfl

theorem isspace_of_isalnum {c : Int} (h : isalnum c) : ¬ isspace c := by
  simp only [isalnum, isupper, islower, isdigit, Bool.or_eq_true, decide_eq_true_eq] at h
  simp only [isspace, decide_eq_true_eq]
  omega

theorem dropWhile_signed {neg : Bool} {sg t : Text} (hsg : Signed neg sg)
    (ht : isalnum (charAt t 0)) : (sg ++ t).dropWhile (isspace ·.toInt) = sg ++ t := by
  cases neg with
  | true =>
    cases hsg
    rfl
  | false =>
    rcases hsg with rfl | rfl
    · cases t with
      | nil => rfl
      | cons c t => exact dropWhile_cons_of_neg (isspace_of_isalnum ht)
    · rfl

theorem preamble_eq (str : Text) : preamble str = sign (str.dropWhile (isspace ·.toInt)) := by
  rw [preamble]
  split
  · next h =>
      cases str with
      | nil => cases h
      | cons c t =>
        have hskip : (c :: t).dropWhile (isspace ·.toInt) = c :: t :=
          dropWhile_cons_of_neg (isspace_of_isalnum h)
        rw [hskip]
        have hnone : Signed false [] := .inl rfl
        exact (sign_append hnone h).symm
  · rfl

/-!
## The digits of the string
-/

theorem isalnum_of_isDigitOf {r c : Int} (h : isDigitOf r c) : isalnum c := by
  rw [isDigitOf, Bool.and_eq_true, lisalnum] at h
  simp only [isalnum, isupper, islower, isdigit, Bool.or_eq_true, decide_eq_true_eq] at h ⊢
  omega

theorem eq_zero_of_toInt {c : Int8} (h : c.toInt = 48) : c = 48 := Int8.toInt_inj.mp h

theorem digits_prefixed {x : Int8} {str : Text} (hx : isX x.toInt)
    (h : isDigitOf 16 (charAt str 0)) : digits 16 (48 :: x :: str) = str := by
  have hthird : isxdigit (charAt (48 :: x :: str) 2) := isxdigit_eq _ ▸ h
  rw [digits, if_pos ⟨rfl, rfl, hx, hthird⟩]
  rfl

theorem length_digits_le {r r' : Int} (hr : r' ≤ r) {ds t : Text} (hds : ∀ c ∈ ds, digitOf r' c)
    (h16 : r = 16 → r' ≤ 16) : ((digits r (ds ++ t)).dropWhile (digitOf r)).length ≤ t.length := by
  rw [digits]
  split
  · next h =>
      rcases h with ⟨rfl, -, hx, -⟩
      have hshort : ds.length ≤ 1 := by
        rcases ds with - | ⟨c, - | ⟨d, ds⟩⟩
        · exact Nat.zero_le 1
        · exact Nat.le_refl 1
        · exact absurd (hds d (by simp)) (not_isDigitOf_of_isX (h16 rfl) hx)
      have hle := length_dropWhile_le (digitOf 16) ((ds ++ t).drop 2)
      rw [length_drop, length_append] at hle
      omega
  · have hall : ∀ c ∈ ds, digitOf r c := fun c hc => isDigitOf_mono hr (hds c hc)
    rw [dropWhile_append_of_pos hall]
    exact length_dropWhile_le _ t

theorem radix_bounds {base : Int} (hbase : ¬ (base < 0 ∨ base > MBASE ∨ base = 1)) (str : Text) :
    1 ≤ radix base str ∧ radix base str ≤ 36 := by
  have hmax : MBASE = 36 := rfl
  rw [radix]
  split_ifs <;> omega

def taken (base : Int) (str : Text) : Text :=
  (digits (radix base str) str).takeWhile (digitOf (radix base str))

def left (base : Int) (str : Text) : Text :=
  (digits (radix base str) str).dropWhile (digitOf (radix base str))

theorem radix_zero (t : Text) : radix 0 (48 :: t) = if isX (charAt (48 :: t) 1) then 16 else 8 :=
  (if_pos rfl).trans (if_neg fun h => h rfl)

/-- The loop reads no less than a numeral that the string begins with. -/
theorem length_left_le {base r : Int} {pre ds t : Text} (h : Numeral base r pre ds)
    (hne : ds ≠ []) (hds : ∀ c ∈ ds, digitOf r c) :
    isDigitOf (radix base (pre ++ (ds ++ t))) (charAt (pre ++ (ds ++ t)) 0) ∧
      (left base (pre ++ (ds ++ t))).length ≤ t.length := by
  rcases exists_cons_of_ne_nil hne with ⟨d, ds', rfl⟩
  have hd : isDigitOf r d.toInt := hds d mem_cons_self
  rw [left]
  cases h with
  | plain hbase =>
    rw [nil_append, radix, if_neg hbase]
    exact ⟨hd, length_digits_le (Int.le_refl _) hds fun h => Int.le_of_eq h⟩
  | @prefixed _ x _ hbase hx =>
    have hradix : radix base ([48, x] ++ (d :: ds' ++ t)) = 16 := by
      rcases hbase with rfl | rfl
      · rfl
      · exact (radix_zero _).trans (if_pos hx)
    have hfirst : isDigitOf 16 (charAt (d :: ds' ++ t) 0) := hd
    rw [hradix, cons_append, singleton_append, digits_prefixed hx hfirst,
      dropWhile_append_of_pos hds]
    exact ⟨rfl, length_dropWhile_le _ t⟩
  | decimal hzero =>
    have hradix : radix 0 ([] ++ (d :: ds' ++ t)) = 10 :=
      if_pos fun h => hzero (eq_zero_of_toInt h)
    rw [hradix]
    exact ⟨hd, length_digits_le (Int.le_refl _) hds (by decide)⟩
  | octal =>
    have hradix : 8 ≤ radix 0 ([] ++ (48 :: ds' ++ t)) := by
      rw [nil_append, cons_append, radix_zero]
      split <;> decide
    exact ⟨isDigitOf_mono hradix hd, length_digits_le hradix hds fun _ => by decide⟩

def Reads (base : Int) (str : Text) : Prop :=
  ∃ r pre, str = pre ++ digits (radix base str) str ∧ Numeral base r pre (taken base str) ∧
    (∀ c ∈ taken base str, digitOf r c) ∧
    number (radix base str) (taken base str) = number r (taken base str)

theorem reads_of_numeral {base : Int} {pre str : Text}
    (hstr : str = pre ++ digits (radix base str) str)
    (h : Numeral base (radix base str) pre (taken base str)) : Reads base str :=
  ⟨_, pre, hstr, h, fun _ hc => mem_takeWhile_imp hc, rfl⟩

theorem reads_digits (base : Int) {str : Text} (h : isDigitOf (radix base str) (charAt str 0)) :
    isDigitOf (radix base str) (charAt (digits (radix base str) str) 0) ∧ Reads base str := by
  rcases exists_cons_of_digit h with ⟨c, t, rfl, hc⟩
  by_cases hskip : radix base (c :: t) = 16 ∧ charAt (c :: t) 0 = 48 ∧
      isX (charAt (c :: t) 1) ∧ isxdigit (charAt (c :: t) 2)
  · have hdigits : digits (radix base (c :: t)) (c :: t) = (c :: t).drop 2 := if_pos hskip
    rcases hskip with ⟨h16, hzero, hx, hthird⟩
    have hbase : base = 16 ∨ base = 0 := by
      by_cases hbase : base = 0
      · exact .inr hbase
      · rw [radix, if_neg hbase] at h16
        exact .inl h16
    cases eq_zero_of_toInt hzero
    rcases t with - | ⟨x, t⟩
    · cases hx
    · rw [hdigits]
      refine ⟨?_, @reads_of_numeral base [48, x] _ ?_ ?_⟩
      · rw [h16]
        exact isxdigit_eq _ ▸ hthird
      · rw [hdigits]
        rfl
      · rw [h16]
        exact .prefixed hbase hx
  · have hdigits : digits (radix base (c :: t)) (c :: t) = c :: t := if_neg hskip
    have htaken : taken base (c :: t) = c :: t.takeWhile (digitOf (radix base (c :: t))) := by
      rw [taken, hdigits, takeWhile_cons_of_pos hc]
    rw [hdigits]
    refine ⟨h, ?_⟩
    have hself : c :: t = [] ++ digits (radix base (c :: t)) (c :: t) := hdigits.symm
    by_cases hbase : base = 0
    · cases hbase
      by_cases hzero : c.toInt = 48
      · cases eq_zero_of_toInt hzero
        by_cases hx : isX (charAt (48 :: t) 1)
        · have hradix : radix 0 (48 :: t) = 16 := (radix_zero t).trans (if_pos hx)
          have hstop : t.takeWhile (digitOf 16) = [] := by
            rcases t with - | ⟨x, t⟩
            · rfl
            · exact takeWhile_cons_of_neg (not_isDigitOf_of_isX (Int.le_refl 16) hx)
          refine ⟨8, [], hself, ?_⟩
          rw [htaken, hradix, hstop]
          exact ⟨.octal, forall_mem_singleton.mpr (by decide), rfl⟩
        · have hradix : radix 0 (48 :: t) = 8 := (radix_zero t).trans (if_neg hx)
          apply reads_of_numeral hself
          rw [htaken, hradix]
          exact .octal
      · have hradix : radix 0 (c :: t) = 10 := if_pos hzero
        apply reads_of_numeral hself
        rw [htaken, hradix]
        exact .decimal fun h => hzero (congrArg Int8.toInt h)
    · apply reads_of_numeral hself
      rw [radix, if_neg hbase]
      exact .plain hbase

theorem length_le_of_begins {base : Int} {str q : Text} (h : Begins base str q) :
    isDigitOf (radix base (preamble str).2) (charAt (preamble str).2 0) ∧
      q.length + (left base (preamble str).2).length ≤ str.length := by
  rcases h with ⟨⟨rest, rfl⟩, neg, r, ds, hform⟩
  rcases hform.text with ⟨ws, sg, pre, rfl, hws, hsg, hnumeral⟩
  rcases length_left_le (t := rest) hnumeral hform.nonempty hform.digit with ⟨hdigit, hle⟩
  have halnum := isalnum_of_isDigitOf hdigit
  have hpre : preamble (ws ++ (sg ++ (pre ++ ds)) ++ rest) = (neg, pre ++ (ds ++ rest)) := by
    rw [preamble_eq]
    simp only [append_assoc]
    rw [dropWhile_append_of_pos hws, dropWhile_signed hsg halnum, sign_append hsg halnum]
  rw [hpre]
  refine ⟨hdigit, ?_⟩
  simp only [length_append]
  omega

/-- `strtol` reads the longest text of the documented form that the string begins with. -/
theorem strtol_exact (str : Text) (base : Int) :
    (base < 0 ∨ base > MBASE ∨ base = 1) ∧ strtol str base = ⟨0, str, some .EINVAL⟩ ∨
    ¬ (base < 0 ∨ base > MBASE ∨ base = 1) ∧ (∀ p, ¬ Begins base str p) ∧
      strtol str base = ⟨0, str, none⟩ ∨
    ¬ (base < 0 ∨ base > MBASE ∨ base = 1) ∧ ∃ p neg r ds rest, str = p ++ rest ∧
      Form base neg r ds p ∧ (∀ q, Begins base str q → q.length ≤ p.length) ∧
      strtol str base = outcome neg (number r ds) rest := by
  by_cases hbase : base < 0 ∨ base > MBASE ∨ base = 1
  · exact .inl ⟨hbase, if_pos hbase⟩
  · right
    rw [strtol, if_neg hbase]
    dsimp only
    by_cases hdigit : isDigitOf (radix base (preamble str).2) (charAt (preamble str).2 0)
    · right
      rw [if_pos hdigit]
      refine ⟨hbase, ?_⟩
      rcases radix_bounds hbase (preamble str).2 with ⟨hlo, hhi⟩
      rcases reads_digits base hdigit with ⟨hfirst, r, pre, hbody, hnumeral, hds, hnumber⟩
      rcases sign_split (str.dropWhile (isspace ·.toInt)) with ⟨sg, hsplit, hsg⟩
      rw [← preamble_eq] at hsplit hsg
      have hconvert := convert_eq hlo hhi (preamble str).1 hfirst
      rw [← taken, ← left, hnumber] at hconvert
      have hall := takeWhile_append_dropWhile (l := str) (p := fun c => isspace c.toInt)
      have hrest : taken base (preamble str).2 ++ left base (preamble str).2 =
          digits (radix base (preamble str).2) (preamble str).2 :=
        takeWhile_append_dropWhile
      have htext : str = str.takeWhile (isspace ·.toInt) ++
          (sg ++ (pre ++ taken base (preamble str).2)) ++ left base (preamble str).2 := by
        simp only [append_assoc]
        rw [hrest, ← hbody, ← hsplit, hall]
      refine ⟨_, (preamble str).1, r, _, _, htext, ⟨⟨_, sg, pre, rfl, ?_, hsg, hnumeral⟩, ?_, hds⟩,
        fun q hq => ?_, hconvert⟩
      · exact fun c hc => mem_takeWhile_imp (p := fun c : Int8 => isspace c.toInt) hc
      · rcases exists_cons_of_digit hfirst with ⟨c, t, hct, hc⟩
        rw [taken, hct, takeWhile_cons_of_pos hc]
        exact cons_ne_nil _ _
      · have hle := (length_le_of_begins hq).2
        have hlength := congrArg List.length htext
        rw [length_append] at hlength
        omega
    · left
      rw [if_neg hdigit]
      exact ⟨hbase, fun p hp => hdigit (length_le_of_begins hp).1, rfl⟩

end Strtol
end Svr4
