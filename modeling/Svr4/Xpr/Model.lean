import Mathlib.Data.BitVec

/-!
# Conditional expressions

The automaton of `xpr.c` that parses the tokens of an `#if` with two stacks, and the
evaluation of the tree that it builds.
-/

namespace Svr4
namespace Xpr

/-!
## Tokens
-/

abbrev Word := BitVec 32

inductive Ty where
  | signed
  | unsigned
deriving DecidableEq

/-- The operators with two operands, from `C_LogicalOR` to `C_Mod`. -/
inductive Binary where
  | logicalOR
  | logicalAND
  | inclusiveOR
  | exclusiveOR
  | bitwiseAND
  | equal
  | notEqual
  | greaterThan
  | greaterEqual
  | lessThan
  | lessEqual
  | leftShift
  | rightShift
  | plus
  | minus
  | mult
  | div
  | mod
deriving DecidableEq

/-- The operators with one operand that look the same everywhere. -/
inductive Ahead where
  | complement
  | not
deriving DecidableEq

/-- The codes of operators on the stack and of what comes next. -/
inductive Code where
  | rParen
  | question
  | colon
  | binary (op : Binary)
  | unaryPlus
  | unaryMinus
  | ahead (op : Ahead)
  | lParen
  | operand
deriving DecidableEq

/-- What a constrained token stands for; a number comes with the presence of the suffix u. -/
inductive Constant where
  | identifier
  | integer (number : Word) (u : Bool)
  | character (number : Word)

inductive Token where
  | constrained (c : Constant)
  | rParen
  | question
  | colon
  | binary (op : Binary)
  | ahead (op : Ahead)
  | lParen
  /-- A token that no directive allows. -/
  | other

/-- `prec` -/
def precedence : Code → Nat
  | .rParen => 10
  | .question => 12
  | .colon => 12
  | .binary .logicalOR => 13
  | .binary .logicalAND => 14
  | .binary .inclusiveOR => 15
  | .binary .exclusiveOR => 16
  | .binary .bitwiseAND => 17
  | .binary .equal => 18
  | .binary .notEqual => 18
  | .binary .greaterThan => 19
  | .binary .greaterEqual => 19
  | .binary .lessThan => 19
  | .binary .lessEqual => 19
  | .binary .leftShift => 20
  | .binary .rightShift => 20
  | .binary .plus => 21
  | .binary .minus => 21
  | .binary .mult => 22
  | .binary .div => 22
  | .binary .mod => 22
  | .unaryPlus => 23
  | .unaryMinus => 23
  | .ahead _ => 23
  | .lParen => 24
  | .operand => 100

/-!
## Trees
-/

/-- The operators with one operand that stay in the tree. -/
inductive Unary where
  | unaryMinus
  | ahead (op : Ahead)
deriving DecidableEq

inductive Tree where
  | operand (number : Word) (type : Ty)
  | unary (op : Unary) (type : Ty) (left : Tree)
  | binary (op : Binary) (type : Ty) (left right : Tree)
  /-- The `?` and, at its right, the `:` of the same type. -/
  | question (type : Ty) (left colonLeft colonRight : Tree)

def Tree.type : Tree → Ty
  | .operand _ type => type
  | .unary _ type _ => type
  | .binary _ type _ _ => type
  | .question type _ _ _ => type

def unsgnd (left right : Ty) : Bool := left == .unsigned || right == .unsigned

/-- `primary`, and `lxchar`, which read the number off the text. -/
def primary : Constant → Tree
  | .identifier => .operand 0 .signed
  | .character number => .operand number .signed
  | .integer number u =>
    .operand number (if u || decide (number.toNat > 2147483647) then .unsigned else .signed)

/-!
## Parsing
-/

inductive Expect where
  | number
  | operator
deriving DecidableEq

structure Automaton where
  /-- `curtoken` and what follows it. -/
  curtoken : List Token
  expect : Expect
  /-- `nstp` -/
  nstp : List Tree
  /-- `ostp` -/
  ostp : List Code

inductive Action where
  | reduce
  | shift (input : Code)
  | accept
  | error
deriving DecidableEq

def reducechk : List Code → Action
  | .lParen :: .rParen :: _ => .reduce
  | .lParen :: _ => .error
  | .rParen :: _ => .error
  | .colon :: .question :: _ => .reduce
  | .colon :: _ => .error
  | .question :: _ => .error
  | _ => .reduce

/-- The code of a token, unless it is an error there. -/
def inputOp : Token → Expect → Option Code
  | .constrained _, .operator => none
  | .constrained _, .number => some .operand
  | .rParen, .number => none
  | .rParen, .operator => some .rParen
  | .binary .plus, .number => some .unaryPlus
  | .binary .minus, .number => some .unaryMinus
  | .lParen, .operator => none
  | .lParen, .number => some .lParen
  | .question, .number => none
  | .colon, .number => none
  | .binary _, .number => none
  | .question, .operator => some .question
  | .colon, .operator => some .colon
  | .binary op, .operator => some (.binary op)
  | .ahead op, _ => some (.ahead op)
  | .other, _ => none

/-- `action` behind the checks of a token. -/
def compare (input : Code) (ostp : List Code) : Action :=
  match ostp with
  | [] => .shift input
  | top :: _ =>
    if precedence top < precedence input then .shift input
    else if precedence top > precedence input then reducechk ostp
    else
      match input with
      | .colon => if top = .colon then reducechk ostp else .shift input
      | .rParen | .unaryPlus | .unaryMinus | .ahead _ => .shift input
      | .question =>
        if top = .question ∨ top = .colon then .shift input else reducechk ostp
      | _ => reducechk ostp

def action (a : Automaton) : Action :=
  match a.curtoken with
  | [] =>
    if a.ostp = [] then .accept
    else if a.expect = .number then .error
    else reducechk a.ostp
  | token :: _ =>
    match inputOp token a.expect with
    | none => .error
    | some input => compare input a.ostp

def binaryType (op : Binary) (left right : Ty) : Ty :=
  match op with
  | .logicalOR | .logicalAND | .equal | .notEqual | .greaterThan | .greaterEqual | .lessThan
  | .lessEqual => .signed
  | _ => if unsgnd left right then .unsigned else .signed

/-- What `reduce` does to the operands; there may be too few of them. -/
def reduceOperands (top : Code) (nstp : List Tree) : Option (List Tree) :=
  match top, nstp with
  | .colon, t3 :: t2 :: t1 :: rest =>
    some (.question (if unsgnd t2.type t3.type then .unsigned else .signed) t1 t2 t3 :: rest)
  | .colon, _ => none
  | .binary op, right :: left :: rest =>
    some (.binary op (binaryType op left.type right.type) left right :: rest)
  | .binary _, _ => none
  | .unaryMinus, left :: rest => some (.unary .unaryMinus left.type left :: rest)
  | .unaryMinus, [] => none
  | .ahead op, left :: rest => some (.unary (.ahead op) left.type left :: rest)
  | .ahead _, [] => none
  | _, nstp => some nstp

/-- `reduce`; the operators that come in pairs go together. -/
def reduce (a : Automaton) : Option Automaton :=
  match a.ostp with
  | [] => none
  | top :: rest =>
    (reduceOperands top a.nstp).map fun nstp =>
      { a with
        nstp := nstp
        ostp := if top = .colon ∨ top = .lParen then rest.tail else rest
        expect := .operator }

/-- `shift`, which turns the parentheses round. -/
def shift (a : Automaton) (input : Code) : Automaton :=
  match a.curtoken with
  | [] => a
  | token :: rest =>
    match input, token with
    | .operand, .constrained c =>
      { a with curtoken := rest, nstp := primary c :: a.nstp, expect := .operator }
    | .lParen, _ => { a with curtoken := rest, ostp := .rParen :: a.ostp, expect := .number }
    | .rParen, _ => { a with curtoken := rest, ostp := .lParen :: a.ostp, expect := .operator }
    | input, _ => { a with curtoken := rest, ostp := input :: a.ostp, expect := .number }

/-!
## Evaluation
-/

def ofBool (b : Bool) : Word := if b then 1 else 0

def count (w : Word) : Nat := w.toNat % 32

/-- An operator on two numbers; there is a trap when a quotient is too large. -/
def evalBinary (op : Binary) (uns : Bool) (left right : Word) : Option Word :=
  match op with
  | .logicalOR => some (ofBool (left != 0 || right != 0))
  | .logicalAND => some (ofBool (left != 0 && right != 0))
  | .inclusiveOR => some (left ||| right)
  | .exclusiveOR => some (left ^^^ right)
  | .bitwiseAND => some (left &&& right)
  | .equal => some (ofBool (left == right))
  | .notEqual => some (ofBool (left != right))
  | .greaterThan => some (ofBool (if uns then right.ult left else right.slt left))
  | .greaterEqual => some (ofBool (if uns then right.ule left else right.sle left))
  | .lessThan => some (ofBool (if uns then left.ult right else left.slt right))
  | .lessEqual => some (ofBool (if uns then left.ule right else left.sle right))
  | .leftShift => some (left <<< count right)
  | .rightShift => some (if uns then left >>> count right else left.sshiftRight (count right))
  | .plus => some (left + right)
  | .minus => some (left - right)
  | .mult => some (left * right)
  | .div =>
    if right = 0 then some 0
    else if uns then some (left / right)
    else if left = BitVec.intMin 32 ∧ right = -1 then none
    else some (left.sdiv right)
  | .mod =>
    if right = 0 then some 0
    else if uns then some (left % right)
    else if left = BitVec.intMin 32 ∧ right = -1 then none
    else some (left.srem right)

def evalUnary (op : Unary) (left : Word) : Word :=
  match op with
  | .unaryMinus => -left
  | .ahead .complement => ~~~left
  | .ahead .not => ofBool (left == 0)

/-- `eval`, with the operands that were evaluated, unless there is a trap. -/
def eval : Tree → Option (Word × List Word)
  | .operand number _ => some (number, [number])
  | .unary op _ left => do
      let (l, ls) ← eval left
      pure (evalUnary op l, ls)
  | .binary .logicalOR _ left right => do
      let (l, ls) ← eval left
      if l ≠ 0 then pure (1, ls)
      else
        let (r, rs) ← eval right
        pure (ofBool (r != 0), ls ++ rs)
  | .binary .logicalAND _ left right => do
      let (l, ls) ← eval left
      if l = 0 then pure (0, ls)
      else
        let (r, rs) ← eval right
        pure (ofBool (r != 0), ls ++ rs)
  | .binary op _ left right => do
      let (r, rs) ← eval right
      let (l, ls) ← eval left
      let v ← evalBinary op (unsgnd left.type right.type) l r
      pure (v, rs ++ ls)
  | .question _ left colonLeft colonRight => do
      let (l, ls) ← eval left
      if l ≠ 0 then
        let (v, vs) ← eval colonLeft
        pure (v, ls ++ vs)
      else
        let (v, vs) ← eval colonRight
        pure (v, ls ++ vs)

/-!
## The whole
-/

inductive Outcome where
  /-- A syntax error, for which the caller gets true. -/
  | syntaxError
  /-- The tree, its value, and the operands that were evaluated. -/
  | value (tree : Tree) (retval : Word) (operands : List Word)
  | trap
  /-- A null pointer is followed. -/
  | fault

def turn (a : Automaton) : Automaton ⊕ Outcome :=
  match action a with
  | .shift input => .inl (shift a input)
  | .reduce =>
    match reduce a with
    | some b => .inl b
    | none => .inr .fault
  | .accept =>
    match a.nstp with
    | [] => .inr .fault
    | t :: _ =>
      match eval t with
      | some (retval, operands) => .inr (.value t retval operands)
      | none => .inr .trap
  | .error => .inr .syntaxError

/-- The loop, with the number of its turns bounded. -/
def turns : Nat → Automaton → Option Outcome
  | 0, _ => none
  | n + 1, a =>
    match turn a with
    | .inl b => turns n b
    | .inr o => some o

def start (tokens : List Token) : Automaton := ⟨tokens, .number, [], []⟩

/-- `xp_value` on the expanded tokens without white space. -/
def xpValue (tokens : List Token) : Option Outcome :=
  if tokens = [] then some .syntaxError else turns (2 * tokens.length + 1) (start tokens)

end Xpr
end Svr4
