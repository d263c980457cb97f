import Svr4.Xpr.Model

/-!
# The language

The conditional expressions of C over the tokens that a directive allows, with their types and
values, and the trees that the automaton makes of them.
-/

namespace Svr4
namespace Xpr

/-!
## Expressions
-/

inductive Expr where
  | constant (c : Constant)
  | plus (e : Expr)
  | minus (e : Expr)
  | ahead (op : Ahead) (e : Expr)
  | binary (op : Binary) (l r : Expr)
  | cond (c a b : Expr)

/-- How tightly an operator binds, from the logical ones to the multiplicative ones. -/
def Binary.level : Binary → Nat
  | .logicalOR => 1
  | .logicalAND => 2
  | .inclusiveOR => 3
  | .exclusiveOR => 4
  | .bitwiseAND => 5
  | .equal | .notEqual => 6
  | .greaterThan | .greaterEqual | .lessThan | .lessEqual => 7
  | .leftShift | .rightShift => 8
  | .plus | .minus => 9
  | .mult | .div | .mod => 10

/-- The grammar of conditional expressions; when `loose`, `!` or `~` may also stand
behind a primary one. -/
inductive Derives (loose : Bool) : Nat → List Token → Expr → Prop where
  | constant (c : Constant) : Derives loose 12 [.constrained c] (.constant c)
  | paren {ts : List Token} {e : Expr} (h : Derives loose 0 ts e) :
      Derives loose 12 (.lParen :: (ts ++ [.rParen])) e
  | plus {ts : List Token} {e : Expr} (h : Derives loose 11 ts e) :
      Derives loose 11 (.binary .plus :: ts) (.plus e)
  | minus {ts : List Token} {e : Expr} (h : Derives loose 11 ts e) :
      Derives loose 11 (.binary .minus :: ts) (.minus e)
  | ahead (op : Ahead) {ts : List Token} {e : Expr} (h : Derives loose 11 ts e) :
      Derives loose 11 (.ahead op :: ts) (.ahead op e)
  | behind (op : Ahead) {us ts : List Token} {d e : Expr} (hloose : loose = true)
      (hd : Derives loose 12 us d) (h : Derives loose 11 ts e) :
      Derives loose 11 (us ++ .ahead op :: ts) (.ahead op e)
  | binary (op : Binary) {us ts : List Token} {l r : Expr} (hl : Derives loose op.level us l)
      (hr : Derives loose (op.level + 1) ts r) :
      Derives loose op.level (us ++ .binary op :: ts) (.binary op l r)
  | cond {us vs ts : List Token} {c a b : Expr} (hc : Derives loose 1 us c)
      (ha : Derives loose 0 vs a) (hb : Derives loose 0 ts b) :
      Derives loose 0 (us ++ .question :: (vs ++ .colon :: ts)) (.cond c a b)
  | up {level : Nat} {ts : List Token} {e : Expr} (hlevel : level < 12)
      (h : Derives loose (level + 1) ts e) : Derives loose level ts e

/-!
## Types and values
-/

def Constant.number : Constant → Word
  | .identifier => 0
  | .integer number _ => number
  | .character number => number

/-- A number is unsigned when it says so, or when it does not fit a long. -/
def Constant.type : Constant → Ty
  | .identifier => .signed
  | .integer number u => if u || decide (number.toNat ≥ 2 ^ 31) then .unsigned else .signed
  | .character _ => .signed

def usual : Ty → Ty → Ty
  | .signed, .signed => .signed
  | _, _ => .unsigned

def resultType (op : Binary) (l r : Ty) : Ty :=
  match op with
  | .logicalOR | .logicalAND | .equal | .notEqual | .greaterThan | .greaterEqual | .lessThan
  | .lessEqual => .signed
  | .leftShift | .rightShift => l
  | _ => usual l r

def Expr.type : Expr → Ty
  | .constant c => c.type
  | .plus e => e.type
  | .minus e => e.type
  | .ahead .complement e => e.type
  | .ahead .not _ => .signed
  | .binary op l r => resultType op l.type r.type
  | .cond _ a b => usual a.type b.type

/-- The type in which an operator works on its operands. -/
def workType (op : Binary) (l r : Ty) : Ty :=
  match op with
  | .leftShift | .rightShift => l
  | _ => usual l r

/-- C arithmetic; what C leaves open is zero, or what the machine makes of it. -/
def arith (op : Binary) (type : Ty) (l r : Word) : Word :=
  match op, type with
  | .logicalOR, _ => ofBool (l != 0 || r != 0)
  | .logicalAND, _ => ofBool (l != 0 && r != 0)
  | .inclusiveOR, _ => l ||| r
  | .exclusiveOR, _ => l ^^^ r
  | .bitwiseAND, _ => l &&& r
  | .equal, _ => ofBool (l == r)
  | .notEqual, _ => ofBool (l != r)
  | .greaterThan, .signed => ofBool (decide (l.toInt > r.toInt))
  | .greaterThan, .unsigned => ofBool (decide (l.toNat > r.toNat))
  | .greaterEqual, .signed => ofBool (decide (l.toInt ≥ r.toInt))
  | .greaterEqual, .unsigned => ofBool (decide (l.toNat ≥ r.toNat))
  | .lessThan, .signed => ofBool (decide (l.toInt < r.toInt))
  | .lessThan, .unsigned => ofBool (decide (l.toNat < r.toNat))
  | .lessEqual, .signed => ofBool (decide (l.toInt ≤ r.toInt))
  | .lessEqual, .unsigned => ofBool (decide (l.toNat ≤ r.toNat))
  | .leftShift, _ => l <<< count r
  | .rightShift, .signed => l.sshiftRight (count r)
  | .rightShift, .unsigned => l >>> count r
  | .plus, _ => l + r
  | .minus, _ => l - r
  | .mult, _ => l * r
  | .div, .signed => BitVec.ofInt 32 (l.toInt.tdiv r.toInt)
  | .div, .unsigned => BitVec.ofNat 32 (l.toNat / r.toNat)
  | .mod, .signed => if r = 0 then 0 else BitVec.ofInt 32 (l.toInt.tmod r.toInt)
  | .mod, .unsigned => if r = 0 then 0 else BitVec.ofNat 32 (l.toNat % r.toNat)

def Expr.number : Expr → Word
  | .constant c => c.number
  | .plus e => e.number
  | .minus e => -e.number
  | .ahead .complement e => ~~~e.number
  | .ahead .not e => ofBool (e.number == 0)
  | .binary op l r => arith op (workType op l.type r.type) l.number r.number
  | .cond c a b => if c.number ≠ 0 then a.number else b.number

def Expr.operands : Expr → List Word
  | .constant c => [c.number]
  | .plus e => e.operands
  | .minus e => e.operands
  | .ahead _ e => e.operands
  | .binary .logicalOR l r => if l.number ≠ 0 then l.operands else l.operands ++ r.operands
  | .binary .logicalAND l r => if l.number = 0 then l.operands else l.operands ++ r.operands
  | .binary _ l r => l.operands ++ r.operands
  | .cond c a b => c.operands ++ if c.number ≠ 0 then a.operands else b.operands

/-- A signed quotient that does not fit is evaluated. -/
def Expr.overflows : Expr → Bool
  | .constant _ => false
  | .plus e => e.overflows
  | .minus e => e.overflows
  | .ahead _ e => e.overflows
  | .binary .logicalOR l r => l.overflows || (decide (l.number = 0) && r.overflows)
  | .binary .logicalAND l r => l.overflows || (decide (l.number ≠ 0) && r.overflows)
  | .binary op l r =>
    l.overflows || r.overflows ||
      (decide (op = .div ∨ op = .mod) && decide (usual l.type r.type = .signed) &&
        decide (l.number = BitVec.intMin 32 ∧ r.number = -1))
  | .cond c a b => c.overflows || if c.number ≠ 0 then a.overflows else b.overflows

/-- No `!` of an unsigned operand, and no shift of a signed operand by an unsigned one. -/
def Expr.Plain : Expr → Prop
  | .constant _ => True
  | .plus e => e.Plain
  | .minus e => e.Plain
  | .ahead op e => e.Plain ∧ (op = .not → e.type = .signed)
  | .binary op l r =>
    l.Plain ∧ r.Plain ∧ (op = .leftShift ∨ op = .rightShift → l.type = .signed → r.type = .signed)
  | .cond c a b => c.Plain ∧ a.Plain ∧ b.Plain

/-!
## Trees
-/

def Expr.tree : Expr → Tree
  | .constant c => primary c
  | .plus e => e.tree
  | .minus e => .unary .unaryMinus e.tree.type e.tree
  | .ahead op e => .unary (.ahead op) e.tree.type e.tree
  | .binary op l r => .binary op (binaryType op l.tree.type r.tree.type) l.tree r.tree
  | .cond c a b =>
    .question (if unsgnd a.tree.type b.tree.type then .unsigned else .signed) c.tree a.tree b.tree

/-- A tree with the types that C gives to the parts of an expression. -/
def TypedAs : Tree → Expr → Prop
  | t, .plus e => TypedAs t e
  | .operand number type, .constant c => number = c.number ∧ type = c.type
  | .unary .unaryMinus type t, .minus e => type = (Expr.minus e).type ∧ TypedAs t e
  | .unary (.ahead op) type t, .ahead op' e =>
    op = op' ∧ type = (Expr.ahead op' e).type ∧ TypedAs t e
  | .binary op type t u, .binary op' l r =>
    op = op' ∧ type = (Expr.binary op' l r).type ∧ TypedAs t l ∧ TypedAs u r
  | .question type t u v, .cond c a b =>
    type = (Expr.cond c a b).type ∧ TypedAs t c ∧ TypedAs u a ∧ TypedAs v b
  | _, _ => False

end Xpr
end Svr4
