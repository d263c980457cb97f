import Mathlib.Tactic.Ring
import Svr4.Xpr.Values
import Mathlib.Tactic.Linarith

/-!
# Constant folding

`op_iconfold`, `op_int_ocheck` and what `op_right_con` does to constants, in
`acomp/common/optim.c`. The host is the machine of the target: a `long` has 32 bits, a
division that does not fit traps, and shifts look at five bits of their count.
-/

namespace Svr4
namespace Acomp

open Option

open Xpr (ofBool count)

/-!
## Constants
-/

abbrev CONVAL := BitVec 32

inductive Ty where
  | char | uchar | schar
  | short | ushort | sshort
  | int | uint | sint
  | long | ulong | slong
deriving DecidableEq

/-- `TY_SIZE` -/
def Ty.size : Ty → Nat
  | .char | .uchar | .schar => 8
  | .short | .ushort | .sshort => 16
  | _ => 32

/-- `TY_ISUNSIGNED`; the other types are signed by `TY_ISSIGNED`. -/
def Ty.isUnsigned : Ty → Bool
  | .uchar | .ushort | .uint | .ulong => true
  | _ => false

def bitmask (n : Nat) : CONVAL := BitVec.ofNat 32 (2 ^ n - 1)

def trTruncate (v : CONVAL) (t : Ty) : CONVAL :=
  match t with
  | .long | .ulong | .slong => v
  | _ =>
    if !t.isUnsigned && v.getLsbD (t.size - 1) then v ||| ~~~bitmask t.size
    else v &&& bitmask t.size

inductive Unary where
  | minus | not | compl | uplus
deriving DecidableEq

inductive Binary where
  | plus | minus | mul | div | mod
  | eq | ne | lt | le | gt | ge | ult | ule | ugt | uge
  | andand | oror | and | or | er | ls | rs
deriving DecidableEq

/-- An `ICON`; `rval` is the symbol of an address constant. -/
structure Icon where
  lval : CONVAL
  rval : Option Nat
  type : Ty

inductive Tree where
  | icon (c : Icon)
  | unary (op : Unary) (type : Ty) (l : Icon)
  | binary (op : Binary) (type : Ty) (l r : Icon)

/-!
## Overflow
-/

def H_CON_MIN : CONVAL := BitVec.intMin 32

def H_CON_MAX : CONVAL := 2147483647

def Traps (a b : CONVAL) : Prop := b = 0 ∨ a = H_CON_MIN ∧ b = -1

instance (a b : CONVAL) : Decidable (Traps a b) := inferInstanceAs (Decidable (_ ∨ _ ∧ _))

/-- A quotient of the host, unless there is a trap. -/
def quot (a b : CONVAL) : Option CONVAL := if Traps a b then none else some (a.sdiv b)

/-- The multiplication in `op_int_ocheck`. -/
def mulWarns (lval rval : CONVAL) : Option Bool :=
  if (0 : CONVAL).slt lval then
    if (0 : CONVAL).sle rval then (quot H_CON_MAX lval).map fun q => q.slt rval
    else (quot H_CON_MIN lval).map fun q => rval.slt q
  else if lval.slt 0 then
    if (0 : CONVAL).sle rval then (quot H_CON_MIN rval).map fun q => lval.slt q
    else (quot H_CON_MAX rval).map fun q => lval.slt q
  else some false

/-- The bits that must be all 0 or all 1 in a left shift. -/
def lsMask (rval : CONVAL) : CONVAL := ~~~(BitVec.allOnes 32 >>> count rval) >>> 1

def lsWarns (lval rval : CONVAL) : Bool :=
  if (0 : CONVAL).slt rval then
    if (32 : CONVAL).sle rval then true
    else if (0 : CONVAL).sle lval then lval &&& lsMask rval != 0
    else lval &&& lsMask rval != lsMask rval
  else false

/-- The end of `op_int_ocheck`: the value that takes the place of a result. -/
def report (warn : Bool) (retval : CONVAL) : Option CONVAL := if warn then some retval else none

/-- `op_int_ocheck` of a binary operator; none where the host traps. -/
def opIntOcheck (op : Binary) (lval rval : CONVAL) : Option (Option CONVAL) :=
  match op with
  | .plus => some (report
      (if (0 : CONVAL).sle rval then (H_CON_MAX - rval).slt lval
        else lval.slt (-(rval + H_CON_MAX - (H_CON_MAX + H_CON_MIN)))) (lval + rval))
  | .minus => some (report
      (if rval.sle 0 then (H_CON_MAX + rval).slt lval else lval.slt (H_CON_MIN + rval))
      (lval - rval))
  | .mul => (mulWarns lval rval).map fun warn => report warn (lval * rval)
  | .div => some (report (decide (lval = H_CON_MIN ∧ rval = -1)) H_CON_MIN)
  | .ls => some (report (lsWarns lval rval)
      (if (32 : CONVAL).sle rval then 0 else lval <<< count rval))
  | _ => some none

/-- `op_int_ocheck` of a unary operator. -/
def opIntOcheckUnary (op : Unary) (lval : CONVAL) : Option CONVAL :=
  match op with
  | .minus => report (lval.sle H_CON_MIN) H_CON_MIN
  | _ => none

/-!
## Folding
-/

def foldUnary (op : Unary) (lval : CONVAL) : CONVAL :=
  match op with
  | .minus => -lval
  | .not => ofBool (decide (lval = 0))
  | .compl => ~~~lval
  | .uplus => lval

def done (v : CONVAL) : Option (Option CONVAL) := some (some v)

/-- The switch of `op_iconfold`: a trap, a tree to be left alone, or a value. -/
def foldBinary (forinit u : Bool) (op : Binary) (lval rval : CONVAL) : Option (Option CONVAL) :=
  match op with
  | .plus => done (lval + rval)
  | .minus => done (lval - rval)
  | .mul => done (lval * rval)
  | .div =>
    if rval = 0 then some (if forinit then some 0 else none)
    else if u then done (lval / rval)
    else (quot lval rval).bind done
  | .mod =>
    if rval = 0 then some (if forinit then some 0 else none)
    else if u then done (lval % rval)
    else if Traps lval rval then none else done (lval.srem rval)
  | .eq => done (ofBool (decide (lval = rval)))
  | .ne => done (ofBool (decide (lval ≠ rval)))
  | .lt => done (ofBool (lval.slt rval))
  | .le => done (ofBool (lval.sle rval))
  | .gt => done (ofBool (rval.slt lval))
  | .ge => done (ofBool (rval.sle lval))
  | .ult => done (ofBool (lval.ult rval))
  | .ule => done (ofBool (lval.ule rval))
  | .ugt => done (ofBool (rval.ult lval))
  | .uge => done (ofBool (rval.ule lval))
  | .andand => done (ofBool (decide (lval ≠ 0 ∧ rval ≠ 0)))
  | .oror => done (ofBool (decide (lval ≠ 0 ∨ rval ≠ 0)))
  | .and => done (lval &&& rval)
  | .or => done (lval ||| rval)
  | .er => done (lval ^^^ rval)
  | .ls => done (lval <<< count rval)
  | .rs =>
    -- a signed shift is simulated
    done (lval >>> count rval |||
      if !u && lval.slt 0 && (0 : CONVAL).slt rval then ~~~(BitVec.allOnes 32 >>> count rval)
      else 0)

/-- The symbol of the left operand, unless the operands are not to be folded. -/
def weed (op : Binary) (l r : Icon) : Option (Option Nat) :=
  if l.rval ≠ none ∧ r.rval = l.rval ∧ op = .minus then some none
  else if l.rval ≠ none ∧ r.rval ≠ none ∨ r.rval ≠ none ∧ op ≠ .plus ∨
      l.rval ≠ none ∧ op ≠ .minus ∧ op ≠ .plus then none
  else some l.rval

/-- `op_int_oflow`, which is not asked about unsigned types. -/
def opIntOflow (op : Binary) (type : Ty) (lval rval : CONVAL) : Option (Option CONVAL) :=
  if type.isUnsigned then some none else opIntOcheck op lval rval

def opIconfold (forinit : Bool) (p : Tree) : Option Tree :=
  match p with
  | .icon _ => some p
  | .unary op type l =>
    if l.rval ≠ none then some p
    else
      let v := (if type.isUnsigned then none else opIntOcheckUnary op l.lval).getD
        (foldUnary op l.lval)
      some (.icon ⟨trTruncate v type, none, type⟩)
  | .binary op type l r =>
    match weed op l r with
    | none => some p
    | some sym => do
        match ← opIntOflow op type l.lval r.lval with
        | some v => some (.icon ⟨trTruncate v type, sym, type⟩)
        | none =>
          match ← foldBinary forinit type.isUnsigned op l.lval r.lval with
          | some v =>
            some (.icon ⟨trTruncate v type, if op = .plus then r.rval.or sym else sym, type⟩)
          | none => some p

/-!
## Constants on the right
-/

/-- `op_ispow2`; the loop finds the highest bit. -/
def opIspow2 (c : CONVAL) : Option Nat :=
  if c.sle 0 || c &&& (c - 1) != 0 then none else some c.toNat.log2

/-- Divisions and remainders by other constants than 0 and 1. -/
def powerOfTwo (op : Binary) (type : Ty) (l r : Icon) : Tree :=
  match opIspow2 r.lval with
  | none => .binary op type l r
  | some pow2 =>
    if l.type.isUnsigned then
      match op with
      | .div => .binary .rs type l { r with lval := BitVec.ofNat 32 pow2 }
      | .mod => .binary .and type l { r with lval := (1 <<< pow2) - 1 }
      | _ => .binary op type l r
    else .binary op type l r

/-- `op_right_con` with a zero on the right. -/
def rightZero (op : Binary) (type : Ty) (l r : Icon) : Tree :=
  match op with
  | .minus => .icon { l with type := type }
  | .plus | .or | .er | .ls | .rs => .icon l
  | .and | .mul => .icon r
  | _ => .binary op type l r

/-- `op_right_con` with another constant on the right. -/
def rightNonzero (op : Binary) (type : Ty) (l r : Icon) : Tree :=
  match op with
  | .mul => if r.lval = 1 then .icon l else .binary op type l r
  | .div => if r.lval = 1 then .icon l else powerOfTwo op type l r
  | .mod =>
    if r.lval = 1 ∨ type.isUnsigned = false ∧ r.lval = -1 then .icon { r with lval := 0 }
    else powerOfTwo op type l r
  | .ls | .rs =>
    if type.size ≤ r.lval.toNat ∧ r.lval.slt 0 then .binary op type l { r with lval := 0 }
    else .binary op type l r
  | _ => .binary op type l r

/-- `op_right_con`, where the left operand is constant too and not volatile. -/
def opRightCon (op : Binary) (type : Ty) (l r : Icon) : Tree :=
  if r.rval ≠ none then
    match op with
    | .andand | .oror => .binary op type l ⟨1, none, .int⟩
    | _ => .binary op type l r
  else if r.lval = 0 then rightZero op type l r
  else rightNonzero op type l r

/-!
## Numbers
-/

/-- The number that a constant of a type stands for. -/
def Ty.num (t : Ty) (v : CONVAL) : Int := if t.isUnsigned then v.toNat else v.toInt

theorem ofInt_num (t : Ty) (v : CONVAL) : BitVec.ofInt 32 (t.num v) = v := by
  unfold Ty.num
  split <;> simp

def truth (p : Prop) [Decidable p] : Int := if p then 1 else 0

theorem ofBool_decide (p : Prop) [Decidable p] : ofBool (decide p) = BitVec.ofInt 32 (truth p) := by
  by_cases hp : p
  · rw [truth, if_pos hp, decide_eq_true hp]
    rfl
  · rw [truth, if_neg hp, decide_eq_false hp]
    rfl

/-- What an operator comes to in exact arithmetic. -/
def value (op : Binary) (t : Ty) (a b : CONVAL) : Int :=
  match op with
  | .plus => t.num a + t.num b
  | .minus => t.num a - t.num b
  | .mul => t.num a * t.num b
  | .div => (t.num a).tdiv (t.num b)
  | .mod => (t.num a).tmod (t.num b)
  | .eq => truth (a = b)
  | .ne => truth (a ≠ b)
  | .lt => truth (a.toInt < b.toInt)
  | .le => truth (a.toInt ≤ b.toInt)
  | .gt => truth (b.toInt < a.toInt)
  | .ge => truth (b.toInt ≤ a.toInt)
  | .ult => truth (a.toNat < b.toNat)
  | .ule => truth (a.toNat ≤ b.toNat)
  | .ugt => truth (b.toNat < a.toNat)
  | .uge => truth (b.toNat ≤ a.toNat)
  | .andand => truth (a ≠ 0 ∧ b ≠ 0)
  | .oror => truth (a ≠ 0 ∨ b ≠ 0)
  | .and => (a &&& b).toInt
  | .or => (a ||| b).toInt
  | .er => (a ^^^ b).toInt
  | .ls => t.num a * 2 ^ b.toNat
  | .rs => t.num a / 2 ^ b.toNat

def unaryValue (op : Unary) (t : Ty) (a : CONVAL) : Int :=
  match op with
  | .minus => -t.num a
  | .not => truth (a = 0)
  | .compl => -t.num a - 1
  | .uplus => t.num a

theorem foldUnary_eq (op : Unary) (t : Ty) (a : CONVAL) :
    foldUnary op a = BitVec.ofInt 32 (unaryValue op t a) := by
  cases op with
  | minus => simp only [foldUnary, unaryValue, BitVec.ofInt_neg, ofInt_num]
  | not => exact ofBool_decide (a = 0)
  | compl =>
    rw [foldUnary, unaryValue, Int.sub_eq_add_neg, BitVec.ofInt_add, BitVec.ofInt_neg, ofInt_num,
      BitVec.not_eq_neg_add, BitVec.sub_eq_add_neg]
    rfl
  | uplus => exact (ofInt_num t a).symm

theorem ofInt_mul_pow (t : Ty) (a : CONVAL) (k : Nat) :
    BitVec.ofInt 32 (t.num a * 2 ^ k) = a <<< k := by
  have hpow : BitVec.ofInt 32 ((2 ^ k : Nat) : Int) = BitVec.twoPow 32 k := by
    apply BitVec.eq_of_toNat_eq
    rw [BitVec.ofInt_natCast, BitVec.toNat_ofNat, BitVec.toNat_twoPow]
  rw [BitVec.ofInt_mul, ofInt_num, BitVec.shiftLeft_eq_mul_twoPow, ← hpow, Int.natCast_pow]
  rfl

theorem zero_slt {b : CONVAL} (hb : b.toNat < 32) : (0 : CONVAL).slt b = decide (0 < b.toNat) := by
  have htoInt : b.toInt = b.toNat := BitVec.toInt_eq_toNat_of_lt (by omega)
  rw [BitVec.slt_eq_decide, htoInt]
  simp

theorem rs_signed (a : CONVAL) {b : CONVAL} (hb : b.toNat < 32) :
    (a >>> b.toNat ||| if a.slt 0 && (0 : CONVAL).slt b then
      ~~~(BitVec.allOnes 32 >>> b.toNat) else 0) = a.sshiftRight b.toNat := by
  have hneg : a.slt 0 = a.msb := BitVec.slt_zero_eq_msb
  apply BitVec.eq_of_getLsbD_eq
  intro i hi
  have hzero : (0 : CONVAL).getLsbD i = false := BitVec.getLsbD_zero
  have hones : (~~~(BitVec.allOnes 32 >>> b.toNat)).getLsbD i = !decide (b.toNat + i < 32) := by
    rw [BitVec.getLsbD_not, BitVec.getLsbD_ushiftRight, BitVec.getLsbD_allOnes, decide_eq_true hi,
      Bool.true_and]
  rw [BitVec.getLsbD_sshiftRight, BitVec.getLsbD_or, BitVec.getLsbD_ushiftRight, zero_slt hb, hneg,
    decide_eq_false (Nat.not_le_of_lt hi), Bool.not_false, Bool.true_and]
  by_cases hk : b.toNat + i < 32
  · split
    · rw [hones, decide_eq_true hk, Bool.not_true, Bool.or_false]
    · rw [hzero, Bool.or_false]
  · have hpos : 0 < b.toNat := by omega
    rw [if_neg hk, BitVec.getLsbD_of_ge a _ (by omega), decide_eq_true hpos, Bool.and_true,
      Bool.false_or]
    cases a.msb with
    | false => rw [if_neg Bool.false_ne_true, hzero]
    | true => rw [if_pos rfl, hones, decide_eq_false hk, Bool.not_false]

theorem toInt_div_pow (a : CONVAL) (k : Nat) : a.toInt / 2 ^ k = (a.sshiftRight k).toInt := by
  rw [BitVec.toInt_sshiftRight, Int.shiftRight_eq_div_pow, Int.natCast_pow]
  rfl

theorem foldBinary_eq {op : Binary} {t : Ty} {a b : CONVAL} (forinit : Bool)
    (hdiv : op = .div ∨ op = .mod → b ≠ 0 ∧ (t.isUnsigned = false → ¬ Traps a b))
    (hshift : op = .ls ∨ op = .rs → b.toNat < 32) :
    foldBinary forinit t.isUnsigned op a b = done (BitVec.ofInt 32 (value op t a b)) := by
  cases op with
  | plus => simp only [foldBinary, value, BitVec.ofInt_add, ofInt_num]
  | minus =>
    simp only [foldBinary, value, Int.sub_eq_add_neg, BitVec.ofInt_add, BitVec.ofInt_neg, ofInt_num,
      BitVec.sub_eq_add_neg]
  | mul => simp only [foldBinary, value, BitVec.ofInt_mul, ofInt_num]
  | div =>
    rcases hdiv (.inl rfl) with ⟨hzero, htrap⟩
    rw [foldBinary, if_neg hzero, value, Ty.num, Ty.num]
    cases hu : t.isUnsigned with
    | true =>
      simp only [reduceIte]
      rw [← Int.ofNat_tdiv, BitVec.ofInt_natCast, BitVec.udiv_def]
    | false =>
      simp only [Bool.false_eq_true, reduceIte]
      rw [quot, if_neg (htrap hu), bind_some, Xpr.sdiv_ofInt]
  | mod =>
    rcases hdiv (.inr rfl) with ⟨hzero, htrap⟩
    rw [foldBinary, if_neg hzero, value, Ty.num, Ty.num]
    cases hu : t.isUnsigned with
    | true =>
      simp only [reduceIte]
      rw [← Int.ofNat_tmod, BitVec.ofInt_natCast, BitVec.umod_def]
    | false =>
      simp only [Bool.false_eq_true, reduceIte]
      rw [if_neg (htrap hu), Xpr.srem_ofInt]
  | eq | ne | lt | le | gt | ge | ult | ule | ugt | uge | andand | oror =>
    exact congrArg done (ofBool_decide _)
  | and | or | er => simp only [foldBinary, value, BitVec.ofInt_toInt]
  | ls =>
    have hcount : count b = b.toNat := Nat.mod_eq_of_lt (hshift (.inl rfl))
    rw [foldBinary, value, ofInt_mul_pow, hcount]
  | rs =>
    have hb := hshift (.inr rfl)
    have hcount : count b = b.toNat := Nat.mod_eq_of_lt hb
    rw [foldBinary, value, hcount, Ty.num]
    cases hu : t.isUnsigned with
    | true =>
      have hdiv : (a.toNat : Int) / 2 ^ b.toNat = (a >>> b.toNat).toNat := by
        rw [BitVec.toNat_ushiftRight, Nat.shiftRight_eq_div_pow]
        push_cast
        rfl
      simp only [reduceIte, hdiv, Bool.not_true, Bool.false_and, Bool.false_eq_true]
      rw [BitVec.ofInt_natCast, BitVec.ofNat_toNat, BitVec.setWidth_eq]
      exact congrArg done BitVec.or_zero
    | false =>
      simp only [Bool.not_false, Bool.true_and, Bool.false_eq_true, reduceIte, toInt_div_pow]
      rw [rs_signed a hb, BitVec.ofInt_toInt]

theorem ofInt_value {op : Binary} {t : Ty} {a b v : CONVAL}
    (hdiv : op = .div ∨ op = .mod → b ≠ 0 ∧ (t.isUnsigned = false → ¬ Traps a b))
    (hshift : op = .ls ∨ op = .rs → b.toNat < 32)
    (h : foldBinary false t.isUnsigned op a b = done v) : BitVec.ofInt 32 (value op t a b) = v :=
  some.inj (some.inj ((foldBinary_eq false hdiv hshift).symm.trans h))

/-!
## Ranges
-/

def InRange (x : Int) : Prop := -2 ^ 31 ≤ x ∧ x < 2 ^ 31

instance (x : Int) : Decidable (InRange x) := inferInstanceAs (Decidable (_ ∧ _))

theorem toInt_bounds (a : CONVAL) : -2147483648 ≤ a.toInt ∧ a.toInt < 2147483648 :=
  ⟨BitVec.le_toInt a, BitVec.toInt_lt (x := a)⟩

theorem inRange_iff (x : Int) : InRange x ↔ -2147483648 ≤ x ∧ x < 2147483648 := Iff.rfl

theorem report_eq {warn : Bool} {x : Int} {v : CONVAL} (hwarn : warn = true ↔ ¬ InRange x)
    (hv : warn = true → v = BitVec.ofInt 32 x) :
    report warn v = if InRange x then none else some (BitVec.ofInt 32 x) := by
  cases warn with
  | false => exact (if_pos (Decidable.not_not.mp fun h => Bool.false_ne_true (hwarn.mpr h))).symm
  | true => rw [if_neg (hwarn.mp rfl), ← hv rfl, report, if_pos rfl]

theorem quot_eq {a b : CONVAL} (h : ¬ Traps a b) :
    ∃ q : CONVAL, quot a b = some q ∧ q.toInt = a.toInt.tdiv b.toInt := by
  rw [quot, if_neg h]
  refine ⟨_, rfl, BitVec.toInt_sdiv_of_ne_or_ne a b ?_⟩
  by_cases ha : a = H_CON_MIN
  · exact .inr fun hb => h (.inr ⟨ha, hb⟩)
  · exact .inl ha

theorem not_traps {a d : CONVAL} (hd : d.toInt ≠ 0) (h : a = H_CON_MAX ∨ 0 < d.toInt) :
    ¬ Traps a d := by
  rintro (rfl | ⟨rfl, rfl⟩)
  · exact hd rfl
  · rcases h with h | h <;> cases h

theorem H_CON_MIN_toInt : H_CON_MIN.toInt = -2147483648 := rfl

theorem H_CON_MAX_toInt : H_CON_MAX.toInt = 2147483647 := rfl

theorem plus_warns (a b : CONVAL) : (if (0 : CONVAL).sle b then (H_CON_MAX - b).slt a
      else a.slt (-(b + H_CON_MAX - (H_CON_MAX + H_CON_MIN)))) = true ↔
      ¬ InRange (a.toInt + b.toInt) := by
  have ha := toInt_bounds a
  have hb := toInt_bounds b
  have hsum : (H_CON_MAX + H_CON_MIN).toInt = -1 := rfl
  have hzero : (0 : CONVAL).toInt = 0 := rfl
  rw [inRange_iff]
  split <;>
    simp_all only [BitVec.slt_iff_toInt_lt, BitVec.sle_iff_toInt_le, BitVec.toInt_sub, BitVec.toInt_neg,
      BitVec.toInt_add b, Int.bmod_def, H_CON_MAX_toInt] <;> omega

theorem minus_warns (a b : CONVAL) :
    (if b.sle 0 then (H_CON_MAX + b).slt a else a.slt (H_CON_MIN + b)) = true ↔
      ¬ InRange (a.toInt - b.toInt) := by
  have ha := toInt_bounds a
  have hb := toInt_bounds b
  have hzero : (0 : CONVAL).toInt = 0 := rfl
  rw [inRange_iff]
  split <;>
    simp_all only [BitVec.slt_iff_toInt_lt, BitVec.sle_iff_toInt_le, BitVec.toInt_add, Int.bmod_def,
      H_CON_MAX_toInt, H_CON_MIN_toInt] <;>
    omega
theorem lt_neg_tdiv {n d : Int} (hn : 0 ≤ n) (hd : 0 < d) (c : Int) :
    c < -n.tdiv d ↔ n < -(c * d) := by
  have hlt : c < -(n / d) ↔ n / d < -c := by omega
  rw [Int.tdiv_eq_ediv_of_nonneg hn, hlt, Int.ediv_lt_iff_lt_mul hd, Int.neg_mul]

theorem quot_max_lt {d : CONVAL} (hd : 0 < d.toInt) (c : CONVAL) :
    ∃ q, quot H_CON_MAX d = some q ∧ (q.slt c = true ↔ 2147483647 < c.toInt * d.toInt) := by
  rcases quot_eq (not_traps (a := H_CON_MAX) hd.ne' (.inl rfl)) with ⟨q, hq, hqi⟩
  refine ⟨q, hq, ?_⟩
  rw [BitVec.slt_iff_toInt_lt, hqi, H_CON_MAX_toInt, Int.tdiv_eq_ediv_of_nonneg (by decide),
    Int.ediv_lt_iff_lt_mul hd]

theorem lt_quot_min {d : CONVAL} (hd : 0 < d.toInt) (c : CONVAL) :
    ∃ q, quot H_CON_MIN d = some q ∧ (c.slt q = true ↔ c.toInt * d.toInt < -2147483648) := by
  rcases quot_eq (not_traps (a := H_CON_MIN) hd.ne' (.inr hd)) with ⟨q, hq, hqi⟩
  refine ⟨q, hq, ?_⟩
  rw [BitVec.slt_iff_toInt_lt, hqi, H_CON_MIN_toInt, Int.neg_tdiv, lt_neg_tdiv (by decide) hd]
  omega

theorem lt_quot_max {d : CONVAL} (hd : d.toInt < 0) (c : CONVAL) :
    ∃ q, quot H_CON_MAX d = some q ∧ (c.slt q = true ↔ 2147483647 < c.toInt * d.toInt) := by
  rcases quot_eq (not_traps (a := H_CON_MAX) hd.ne (.inl rfl)) with ⟨q, hq, hqi⟩
  refine ⟨q, hq, ?_⟩
  have hqi' : q.toInt = -(2147483647 : Int).tdiv (-d.toInt) := by
    rw [hqi, H_CON_MAX_toInt, Int.tdiv_neg, Int.neg_neg]
  rw [BitVec.slt_iff_toInt_lt, hqi', lt_neg_tdiv (by decide) (Int.neg_pos_of_neg hd), Int.mul_neg,
    Int.neg_neg]

theorem mulWarns_eq {a b : CONVAL} (h : ¬ (a.toInt < 0 ∧ b.toInt = 0)) :
    ∃ warn, mulWarns a b = some warn ∧ (warn = true ↔ ¬ InRange (a.toInt * b.toInt)) := by
  have hzero : (0 : CONVAL).toInt = 0 := rfl
  rw [mulWarns]
  simp only [BitVec.slt_iff_toInt_lt, BitVec.sle_iff_toInt_le, hzero, inRange_iff]
  by_cases hapos : 0 < a.toInt
  · rw [if_pos hapos]
    by_cases hb : 0 ≤ b.toInt
    · rcases quot_max_lt hapos b with ⟨q, hq, hlt⟩
      have hprod := Int.mul_nonneg hb hapos.le
      rw [if_pos hb, hq]
      refine ⟨_, rfl, hlt.trans ?_⟩
      rw [Int.mul_comm a.toInt]
      omega
    · rcases lt_quot_min hapos b with ⟨q, hq, hlt⟩
      have hprod := Int.mul_nonpos_of_nonpos_of_nonneg (Int.not_le.mp hb).le hapos.le
      rw [if_neg hb, hq]
      refine ⟨_, rfl, hlt.trans ?_⟩
      rw [Int.mul_comm a.toInt]
      omega
  · rw [if_neg hapos]
    by_cases haneg : a.toInt < 0
    · rw [if_pos haneg]
      by_cases hb : 0 ≤ b.toInt
      · have hbpos : 0 < b.toInt := by omega
        rcases lt_quot_min hbpos a with ⟨q, hq, hlt⟩
        have hprod := Int.mul_nonpos_of_nonpos_of_nonneg haneg.le hb
        rw [if_pos hb, hq]
        exact ⟨_, rfl, hlt.trans (by omega)⟩
      · rcases lt_quot_max (Int.not_le.mp hb) a with ⟨q, hq, hlt⟩
        have hprod := Int.mul_nonneg_of_nonpos_of_nonpos haneg.le (Int.not_le.mp hb).le
        rw [if_neg hb, hq]
        exact ⟨_, rfl, hlt.trans (by omega)⟩
    · have ha : a.toInt = 0 := by omega
      rw [if_neg haneg, ha, Int.zero_mul]
      exact ⟨_, rfl, by decide⟩

theorem getLsbD_lsMask {b : CONVAL} (hb : b.toNat < 32) (i : Nat) :
    (lsMask b).getLsbD i = (decide (i < 31) && decide (31 ≤ b.toNat + i)) := by
  have hcount : count b = b.toNat := Nat.mod_eq_of_lt hb
  rw [lsMask, hcount, BitVec.getLsbD_ushiftRight, BitVec.getLsbD_not, BitVec.getLsbD_ushiftRight,
    BitVec.getLsbD_allOnes, Bool.eq_iff_iff]
  simp only [Bool.and_eq_true, Bool.not_eq_true', decide_eq_true_eq, decide_eq_false_iff_not]
  omega

theorem and_lsMask {b : CONVAL} (hb : b.toNat < 32) {x : CONVAL} (hx : x.toNat < 2 ^ 31) :
    x &&& lsMask b = 0 ↔ x.toNat * 2 ^ b.toNat < 2 ^ 31 := by
  have hpow : 2 ^ 31 = 2 ^ (31 - b.toNat) * 2 ^ b.toNat := by
    rw [← Nat.pow_add, Nat.sub_add_cancel (by omega)]
  rw [hpow, Nat.mul_lt_mul_right (Nat.two_pow_pos _)]
  constructor
  · intro hand
    apply Nat.lt_pow_two_of_testBit
    intro i hi
    by_cases hlow : i < 31
    · have hbit := congrArg (fun v => v.getLsbD i) hand
      rw [BitVec.getLsbD_and, getLsbD_lsMask hb, decide_eq_true hlow, decide_eq_true (by omega),
        Bool.and_true, Bool.and_true] at hbit
      exact hbit.trans BitVec.getLsbD_zero
    · exact Nat.testBit_lt_two_pow (Nat.lt_of_lt_of_le hx (Nat.pow_le_pow_right (by decide) (by omega)))
  · intro hlt
    apply BitVec.eq_of_getLsbD_eq
    intro i _
    rw [BitVec.getLsbD_and, getLsbD_lsMask hb]
    by_cases hi : 31 ≤ b.toNat + i
    · have hbit : x.getLsbD i = false := Nat.testBit_lt_two_pow
        (Nat.lt_of_lt_of_le hlt (Nat.pow_le_pow_right (by decide) (by omega)))
      rw [hbit, Bool.false_and]
      exact BitVec.getLsbD_zero.symm
    · rw [decide_eq_false hi, Bool.and_false, Bool.and_false]
      exact BitVec.getLsbD_zero.symm

theorem not_and_eq_zero (a m : CONVAL) : ~~~a &&& m = 0 ↔ a &&& m = m := by
  have hxor : ~~~a &&& m = (a &&& m) ^^^ m := by
    ext i hi
    rw [BitVec.getElem_and, BitVec.getElem_not, BitVec.getElem_xor, BitVec.getElem_and]
    cases a[i] <;> cases m[i] <;> rfl
  rw [hxor]
  exact BitVec.xor_eq_zero_iff

theorem ls_warns {a b : CONVAL} (hb : b.toNat < 32) :
    lsWarns a b = true ↔ ¬ InRange (a.toInt * 2 ^ b.toNat) := by
  have hpow : 0 < 2 ^ b.toNat := Nat.two_pow_pos _
  have hcast : ((2 ^ b.toNat : Nat) : Int) = 2 ^ b.toNat := Int.natCast_pow 2 _
  have hbi : b.toInt = b.toNat := BitVec.toInt_eq_toNat_of_lt (by omega)
  have hfew : ¬ (32 : CONVAL).sle b = true := by
    rw [BitVec.sle_iff_toInt_le, hbi]
    show ¬ (32 : Int) ≤ _
    omega
  have hcond := BitVec.toInt_eq_toNat_cond a
  rw [lsWarns, zero_slt hb, if_neg hfew, inRange_iff, ← hcast]
  by_cases hpos : 0 < b.toNat
  · rw [if_pos (decide_eq_true hpos)]
    have hsle : (0 : CONVAL).sle a = true ↔ 0 ≤ a.toInt := BitVec.sle_iff_toInt_le
    by_cases hnonneg : 0 ≤ a.toInt
    · rw [if_pos (hsle.mpr hnonneg), bne_iff_ne, ne_eq]
      have hlt : a.toNat < 2 ^ 31 := by omega
      have hai := BitVec.toInt_eq_toNat_of_lt (x := a) (by omega)
      rw [and_lsMask hb hlt, hai, ← Int.natCast_mul]
      omega
    · rw [if_neg fun h => hnonneg (hsle.mp h), bne_iff_ne, ne_eq]
      have hnot : ((~~~a).toNat : Int) = -a.toInt - 1 := by
        rw [BitVec.toNat_not]
        omega
      have hlt : (~~~a).toNat < 2 ^ 31 := by omega
      have hprod : a.toInt * (2 ^ b.toNat : Nat) =
          -(((~~~a).toNat * 2 ^ b.toNat : Nat) : Int) - (2 ^ b.toNat : Nat) := by
        rw [Int.natCast_mul, hnot]
        ring
      rcases Nat.pow_dvd_pow 2 (show b.toNat ≤ 31 by omega) with ⟨q, hq⟩
      have hstep : (~~~a).toNat * 2 ^ b.toNat < 2 ^ 31 ↔
          (~~~a).toNat * 2 ^ b.toNat + 2 ^ b.toNat ≤ 2 ^ 31 := by
        rw [← Nat.succ_mul, hq, Nat.mul_comm _ q, Nat.mul_lt_mul_right hpow,
          Nat.mul_le_mul_right_iff hpow]
        exact Iff.rfl
      rw [← not_and_eq_zero, and_lsMask hb hlt, hprod, hstep]
      omega
  · have hzero : b.toNat = 0 := by omega
    rw [if_neg (by simp [hzero]), hzero]
    simp
    omega

/-- What is reported of a result: nothing, or the value in two's complement. -/
def checked (x : Int) : Option CONVAL := if InRange x then none else some (BitVec.ofInt 32 x)

theorem checked_toInt (v : CONVAL) : checked v.toInt = none := if_pos (toInt_bounds v)

theorem checked_truth (p : Prop) [Decidable p] : checked (truth p) = none := by
  by_cases hp : p
  · rw [truth, if_pos hp]
    rfl
  · rw [truth, if_neg hp]
    rfl

theorem opIntOcheck_eq {op : Binary} {a b : CONVAL}
    (hmul : op = .mul → ¬ (a.toInt < 0 ∧ b.toInt = 0)) (hls : op = .ls → b.toNat < 32) :
    opIntOcheck op a b = some (checked (value op .int a b)) := by
  cases op with
  | plus => exact congrArg some (report_eq (plus_warns a b) fun _ =>
    Eq.symm (ofInt_value nofun nofun rfl))
  | minus => exact congrArg some (report_eq (minus_warns a b) fun _ =>
    Eq.symm (ofInt_value nofun nofun rfl))
  | mul =>
    rcases mulWarns_eq (hmul rfl) with ⟨warn, hwarn, hiff⟩
    rw [opIntOcheck, hwarn]
    exact congrArg some (report_eq hiff fun _ => Eq.symm (ofInt_value nofun nofun rfl))
  | div =>
    by_cases htrap : a = H_CON_MIN ∧ b = -1
    · rcases htrap with ⟨rfl, rfl⟩
      rfl
    · have hne : a ≠ H_CON_MIN ∨ b ≠ -1 := not_and_or.mp htrap
      rw [opIntOcheck, decide_eq_false htrap, value]
      show _ = some (checked (a.toInt.tdiv b.toInt))
      rw [← BitVec.toInt_sdiv_of_ne_or_ne a b hne, checked_toInt]
      rfl
  | ls =>
    have hb := hls rfl
    have hcount : count b = b.toNat := Nat.mod_eq_of_lt hb
    have hbi : b.toInt = b.toNat := BitVec.toInt_eq_toNat_of_lt (by omega)
    have hfew : ¬ (32 : CONVAL).sle b = true := by
      rw [BitVec.sle_iff_toInt_le, hbi]
      show ¬ (32 : Int) ≤ _
      omega
    rw [opIntOcheck, if_neg hfew, hcount]
    exact congrArg some (report_eq (ls_warns hb) fun _ => (ofInt_mul_pow .int a b.toNat).symm)
  | mod =>
    show _ = some (checked (a.toInt.tmod b.toInt))
    rw [← BitVec.toInt_srem, checked_toInt]
    rfl
  | rs =>
    show _ = some (checked (a.toInt / 2 ^ b.toNat))
    rw [toInt_div_pow, checked_toInt]
    rfl
  | and | or | er => exact congrArg some (checked_toInt _).symm
  | _ => exact congrArg some (checked_truth _).symm

theorem opIntOcheckUnary_eq (op : Unary) (a : CONVAL) :
    opIntOcheckUnary op a = checked (unaryValue op .int a) := by
  rcases toInt_bounds a with ⟨ha, ha'⟩
  cases op with
  | minus =>
    have hiff : a.sle H_CON_MIN = true ↔ ¬ InRange (-a.toInt) := by
      rw [BitVec.sle_iff_toInt_le, inRange_iff, H_CON_MIN_toInt]
      omega
    refine report_eq hiff fun hle => ?_
    have hmin : a.toInt = -2147483648 := by
      have hle' := BitVec.sle_iff_toInt_le.mp hle
      rw [H_CON_MIN_toInt] at hle'
      omega
    show _ = BitVec.ofInt 32 (-a.toInt)
    rw [hmin]
    rfl
  | not => exact (checked_truth _).symm
  | compl =>
    have hin : InRange (-a.toInt - 1) := by
      rw [inRange_iff]
      omega
    exact (if_pos hin).symm
  | uplus => exact (checked_toInt a).symm

/-!
## Results
-/

theorem num_signed {t : Ty} (h : t.isUnsigned = false) : t.num = Ty.int.num := by
  funext v
  rw [Ty.num, h]
  rfl

theorem value_signed {t : Ty} (h : t.isUnsigned = false) (op : Binary) (a b : CONVAL) :
    value op t a b = value op .int a b := by
  cases op <;> simp only [value, num_signed h]

/-- The constant of a type with the value, truncated to the type. -/
def Ty.constant (t : Ty) (x : Int) : Tree := .icon ⟨trTruncate (BitVec.ofInt 32 x) t, none, t⟩

theorem opIconfold_unary (forinit : Bool) (op : Unary) (t : Ty) {l : Icon} (hl : l.rval = none) :
    opIconfold forinit (.unary op t l) = some (t.constant (unaryValue op t l.lval)) := by
  rw [opIconfold, if_neg (not_not_intro hl)]
  cases hu : t.isUnsigned with
  | true =>
    simp only [reduceIte, getD_none, foldUnary_eq op t]
    rfl
  | false =>
    have hvalue : unaryValue op t l.lval = unaryValue op .int l.lval := by
      cases op <;> simp only [unaryValue, num_signed hu]
    simp only [Bool.false_eq_true, reduceIte, opIntOcheckUnary_eq, checked, hvalue]
    split
    · simp only [getD_none, foldUnary_eq op .int]
      rfl
    · rfl

def ByZero (op : Binary) (r : Icon) : Prop := (op = .div ∨ op = .mod) ∧ r.lval = 0

/-- Operands that `op_right_con` removes. -/
def Removed (op : Binary) (t : Ty) (r : Icon) : Prop :=
  op = .mul ∧ r.lval = 0 ∨ op = .mod ∧ t.isUnsigned = false ∧ r.lval = -1

section Operators

variable (forinit : Bool) {op : Binary} {t : Ty} {l r : Icon} (hl : l.rval = none)
  (hr : r.rval = none)
include hl hr

theorem opIconfold_eq :
    opIconfold forinit (.binary op t l r) = (opIntOflow op t l.lval r.lval).bind fun reported =>
      (reported.elim (foldBinary forinit t.isUnsigned op l.lval r.lval) done).bind fun result =>
        some (result.elim (.binary op t l r) fun v => .icon ⟨trTruncate v t, none, t⟩) := by
  have hweed : weed op l r = some none := by simp [weed, hl, hr]
  have hsym : (if op = .plus then r.rval.or none else none) = none := by
    rw [hr]
    exact ite_self _
  simp only [opIconfold, hweed, hsym, bind_eq_bind]
  congr 1
  funext reported
  cases reported with
  | some v => rfl
  | none =>
    show Option.bind _ _ = Option.bind _ _
    congr 1
    funext result
    cases result <;> rfl

theorem opIconfold_byZero (h : ByZero op r) : opIconfold forinit (.binary op t l r) =
      some (if forinit then t.constant 0 else .binary op t l r) := by
  rcases h with ⟨hop, hzero⟩
  have hcheck : opIntOflow op t l.lval r.lval = some none := by
    rw [opIntOflow, hzero]
    rcases hop with rfl | rfl <;> simp [opIntOcheck, report]
  have hfold : foldBinary forinit t.isUnsigned op l.lval r.lval =
      some (if forinit then some 0 else none) := by
    rcases hop with rfl | rfl <;> exact if_pos hzero
  rw [opIconfold_eq forinit hl hr, hcheck, bind_some, elim_none, hfold]
  cases forinit <;> rfl

theorem opIconfold_binary (hdiv : ¬ ByZero op r) (hremoved : ¬ Removed op t r)
    (hshift : op = .ls ∨ op = .rs → r.lval.toNat < 32) :
    opIconfold forinit (.binary op t l r) = some (t.constant (value op t l.lval r.lval)) := by
  rw [opIconfold_eq forinit hl hr, opIntOflow]
  cases hu : t.isUnsigned with
  | true =>
    have hfold := foldBinary_eq (t := t) (a := l.lval) forinit
      (fun h => ⟨fun hz => hdiv ⟨h, hz⟩, fun hs => by cases hu.symm.trans hs⟩) hshift
    rw [hu] at hfold
    rw [if_pos rfl, bind_some, elim_none, hfold]
    rfl
  | false =>
    have hmul : op = .mul → ¬ (l.lval.toInt < 0 ∧ r.lval.toInt = 0) := fun h hzero =>
      hremoved (.inl ⟨h, BitVec.eq_of_toInt_eq hzero.2⟩)
    rw [if_neg Bool.false_ne_true, opIntOcheck_eq hmul fun h => hshift (.inl h),
      bind_some, value_signed hu, checked]
    split
    · next hin =>
        have htrap : op = .div ∨ op = .mod → ¬ Traps l.lval r.lval := by
          rintro hop (hzero | ⟨hmin, hone⟩)
          · exact hdiv ⟨hop, hzero⟩
          · rcases hop with rfl | rfl
            · rw [hmin, hone] at hin
              exact absurd hin (by decide)
            · exact hremoved (.inr ⟨rfl, hu, hone⟩)
        have hfold : foldBinary forinit false op l.lval r.lval = _ :=
          foldBinary_eq (t := .int) forinit (fun h => ⟨fun hz => hdiv ⟨h, hz⟩, fun _ => htrap h⟩)
            hshift
        rw [elim_none, hfold]
        rfl
    · rfl

theorem opIconfold_ne_none (hremoved : ¬ Removed op t r) :
    opIconfold forinit (.binary op t l r) ≠ none := by
  by_cases hdiv : ByZero op r
  · rw [opIconfold_byZero forinit hl hr hdiv]
    nofun
  · by_cases hop : op = .ls ∨ op = .rs
    · rw [opIconfold_eq forinit hl hr, opIntOflow]
      rcases hop with rfl | rfl
      · cases t.isUnsigned with
        | true => nofun
        | false => cases hreport : opIntOcheck .ls l.lval r.lval with
          | none => cases hreport
          | some reported => cases reported <;> nofun
      · cases t.isUnsigned <;> nofun
    · rw [opIconfold_binary forinit hl hr hdiv hremoved fun h => absurd h hop]
      nofun

end Operators

def Tree.Removed : Tree → Prop
  | .binary op t _ r => Acomp.Removed op t r
  | _ => False

theorem not_removed (op : Binary) (t : Ty) (l : Icon) {r : Icon} (hr : r.rval = none) :
    ¬ (opRightCon op t l r).Removed := by
  unfold opRightCon rightZero rightNonzero powerOfTwo
  repeat' split
  all_goals simp_all [Tree.Removed, Acomp.Removed]

end Acomp
end Svr4
