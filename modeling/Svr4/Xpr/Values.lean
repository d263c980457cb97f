import Svr4.Xpr.Grammar

/-!
# Types and values of trees

The tree of an expression has the types that C gives just when the expression is plain, and then
it is evaluated as C does, but for the quotients that trap.
-/

namespace Svr4
namespace Xpr

open BitVec

/-!
## Types
-/

section Types

theorem primary_type (c : Constant) : (primary c).type = c.type := by
  cases c with
  | identifier => rfl
  | character number => rfl
  | integer number u =>
    have hiff : (number.toNat > 2147483647) ↔ (number.toNat ≥ 2 ^ 31) := by omega
    change (if u || decide (number.toNat > 2147483647) then Ty.unsigned else Ty.signed) =
      if u || decide (number.toNat ≥ 2 ^ 31) then Ty.unsigned else Ty.signed
    simp only [hiff]

theorem unsgnd_usual (l r : Ty) : (if unsgnd l r then Ty.unsigned else Ty.signed) = usual l r := by
  cases l <;> cases r <;> rfl

theorem binaryType_iff (op : Binary) (l r : Ty) : binaryType op l r = resultType op l r ↔
      (op = .leftShift ∨ op = .rightShift → l = .signed → r = .signed) := by
  cases op <;> cases l <;> cases r <;> decide

theorem tree_type {e : Expr} (h : e.Plain) : e.tree.type = e.type := by
  induction e with
  | constant c => exact primary_type c
  | plus e ih => exact ih h
  | minus e ih => exact ih h
  | ahead op e ih =>
    have htype : e.tree.type = e.type := ih h.1
    cases op with
    | complement => exact htype
    | not => exact htype.trans (h.2 rfl)
  | binary op l r ihl ihr =>
    change binaryType op l.tree.type r.tree.type = _
    rw [ihl h.1, ihr h.2.1]
    exact (binaryType_iff op l.type r.type).mpr h.2.2
  | cond c a b _ iha ihb =>
    change (if unsgnd a.tree.type b.tree.type then Ty.unsigned else Ty.signed) = _
    rw [iha h.2.1, ihb h.2.2]
    exact unsgnd_usual _ _

theorem typedAs_tree (e : Expr) : TypedAs e.tree e ↔ e.Plain := by
  induction e with
  | constant c =>
    have hnumber : ∃ n, primary c = .operand n (primary c).type ∧ n = c.number := by
      cases c <;> exact ⟨_, rfl, rfl⟩
    obtain ⟨n, hprimary, hn⟩ := hnumber
    have htyped : TypedAs (primary c) (.constant c) := by
      rw [hprimary]
      exact ⟨hn, primary_type c⟩
    exact ⟨fun _ => trivial, fun _ => htyped⟩
  | plus e ih => exact ih
  | minus e ih =>
    constructor
    · exact fun h => ih.mp h.2
    · exact fun h => ⟨tree_type (e := e) h, ih.mpr h⟩
  | ahead op e ih =>
    constructor
    · intro h
      obtain ⟨_, htype, htyped⟩ := h
      have hplain := ih.mp htyped
      refine ⟨hplain, fun hop => ?_⟩
      rw [hop, tree_type hplain] at htype
      exact htype
    · exact fun h => ⟨rfl, tree_type (e := .ahead op e) h, ih.mpr h.1⟩
  | binary op l r ihl ihr =>
    constructor
    · intro h
      obtain ⟨_, htype, htl, htr⟩ := h
      have hl := ihl.mp htl
      have hr := ihr.mp htr
      rw [tree_type hl, tree_type hr] at htype
      exact ⟨hl, hr, (binaryType_iff op l.type r.type).mp htype⟩
    · exact fun h => ⟨rfl, tree_type (e := .binary op l r) h, ihl.mpr h.1, ihr.mpr h.2.1⟩
  | cond c a b ihc iha ihb =>
    constructor
    · intro h
      obtain ⟨_, htc, hta, htb⟩ := h
      exact ⟨ihc.mp htc, iha.mp hta, ihb.mp htb⟩
    · exact fun h => ⟨tree_type (e := .cond c a b) h, ihc.mpr h.1, iha.mpr h.2.1, ihb.mpr h.2.2⟩

end Types

/-!
## Values
-/

variable {t c b : Tree} {n nb : Word} {vs vb : List Word} {o ob : Bool}

section Values

def tooLarge (op : Binary) (type : Ty) (l r : Word) : Bool :=
  decide (op = .div ∨ op = .mod) && decide (type = .signed) &&
    decide (l = BitVec.intMin 32 ∧ r = -1)

theorem sdiv_ofInt (l r : Word) : l.sdiv r = BitVec.ofInt 32 (l.toInt.tdiv r.toInt) := by
  apply eq_of_toInt_eq
  rw [toInt_sdiv, toInt_ofInt]

theorem srem_ofInt (l r : Word) : l.srem r = BitVec.ofInt 32 (l.toInt.tmod r.toInt) := by
  rw [← toInt_srem, ofInt_toInt]

theorem evalBinary_eq (op : Binary) {tl tr : Ty} (l r : Word)
    (hshift : op = .leftShift ∨ op = .rightShift → tl = .signed → tr = .signed) :
    evalBinary op (unsgnd tl tr) l r = if tooLarge op (usual tl tr) l r then none
      else some (arith op (workType op tl tr) l r) := by
  cases op with
  | rightShift =>
    cases tl with
    | signed =>
      rw [hshift (Or.inr rfl) rfl]
      rfl
    | unsigned => cases tr <;> rfl
  | div =>
    unfold evalBinary
    by_cases hzero : r = 0
    · subst hzero
      cases tl <;> cases tr <;> simp [tooLarge, arith, workType, usual]
    · simp only [if_neg hzero, workType]
      cases tl <;> cases tr <;> simp [unsgnd, tooLarge, arith, usual, sdiv_ofInt, udiv_def]
  | mod =>
    unfold evalBinary
    by_cases hzero : r = 0
    · subst hzero
      cases tl <;> cases tr <;> simp [tooLarge, arith, workType, usual]
    · have hzero' : ¬ r = 0#32 := hzero
      simp only [if_neg hzero, workType]
      cases tl <;> cases tr <;>
        simp [unsgnd, tooLarge, arith, usual, srem_ofInt, umod_def, hzero']
  | _ => cases tl <;> cases tr <;> rfl

/-- The value of a tree with the operands, but for their order. -/
def Evaluates (t : Tree) (overflows : Bool) (number : Word) (operands : List Word) : Prop :=
  if overflows then eval t = none
  else ∃ vs, eval t = some (number, vs) ∧ vs.Perm operands

theorem evaluates_none (h : eval t = none) : Evaluates t true n vs := h

theorem Evaluates.cases (h : Evaluates t o n vs) :
    (o = true ∧ eval t = none) ∨ (o = false ∧ ∃ us, eval t = some (n, us) ∧ us.Perm vs) := by
  cases o with
  | true => exact Or.inl ⟨rfl, h⟩
  | false => exact Or.inr ⟨rfl, h⟩

theorem eval_binary {op : Binary} (hor : op ≠ .logicalOR) (hand : op ≠ .logicalAND) (type : Ty)
    (l r : Tree) : eval (.binary op type l r) = (eval r).bind fun b => (eval l).bind fun a =>
      (evalBinary op (unsgnd l.type r.type) a.1 b.1).bind fun v => some (v, b.2 ++ a.2) := by
  cases op <;> first | rfl | exact absurd rfl hor | exact absurd rfl hand

theorem eval_unary (op : Unary) (type : Ty) (l : Tree) :
    eval (.unary op type l) = (eval l).bind fun a => some (evalUnary op a.1, a.2) := rfl

theorem Evaluates.unary (h : Evaluates t o n vs) (op : Unary)
    (type : Ty) : Evaluates (.unary op type t) o (evalUnary op n) vs := by
  rcases h.cases with ⟨rfl, heval⟩ | ⟨rfl, us, heval, hperm⟩
  · refine evaluates_none ?_
    rw [eval_unary, heval]
    rfl
  · refine ⟨us, ?_, hperm⟩
    rw [eval_unary, heval]
    rfl

theorem Evaluates.binary {u : Tree} {o' : Bool} {n' : Word} {vs' : List Word} {op : Binary}
    {tl tr : Ty} (h : Evaluates t o n vs) (h' : Evaluates u o' n' vs') (hor : op ≠ .logicalOR)
    (hand : op ≠ .logicalAND) (ht : t.type = tl) (hu : u.type = tr)
    (hshift : op = .leftShift ∨ op = .rightShift → tl = .signed → tr = .signed) (type : Ty) :
    Evaluates (.binary op type t u) (o || o' || tooLarge op (usual tl tr) n n')
      (arith op (workType op tl tr) n n') (vs ++ vs') := by
  have heval := eval_binary hor hand type t u
  rw [ht, hu] at heval
  rcases h'.cases with ⟨rfl, hright⟩ | ⟨rfl, us', hright, hperm'⟩
  · rw [Bool.or_true, Bool.true_or]
    refine evaluates_none ?_
    rw [heval, hright]
    rfl
  · rcases h.cases with ⟨rfl, hleft⟩ | ⟨rfl, us, hleft, hperm⟩
    · refine evaluates_none ?_
      rw [heval, hright, hleft]
      rfl
    · rw [Bool.or_self, Bool.false_or]
      have hnumber := evalBinary_eq op n n' hshift
      rw [hright, hleft] at heval
      simp only [Option.bind_some] at heval
      rw [hnumber] at heval
      unfold Evaluates
      split
      · rename_i hlarge
        rw [if_pos hlarge] at heval
        exact heval
      · rename_i hfits
        rw [if_neg hfits] at heval
        exact ⟨us' ++ us, heval, (hperm'.append hperm).trans List.perm_append_comm⟩

theorem evaluates_choice {a : Tree} {oa : Bool} {na : Word} {va : List Word}
    (h : Evaluates c o n vs) (p : Word → Bool) (heval : eval t = (eval c).bind fun x =>
      if p x.1 then (eval a).bind fun y => some (y.1, x.2 ++ y.2)
      else (eval b).bind fun y => some (y.1, x.2 ++ y.2)) (ha : Evaluates a oa na va)
    (hb : Evaluates b ob nb vb) : Evaluates t (o || if p n then oa else ob) (if p n then na else nb)
      (vs ++ if p n then va else vb) := by
  rcases h.cases with ⟨rfl, hc⟩ | ⟨rfl, us, hc, hperm⟩
  · refine evaluates_none ?_
    rw [heval, hc]
    rfl
  · rw [hc] at heval
    simp only [Option.bind_some] at heval
    have hone : ∀ {x : Tree} {o' : Bool} {n' : Word} {vs' : List Word}, Evaluates x o' n' vs' →
        eval t = ((eval x).bind fun y => some (y.1, us ++ y.2)) →
        Evaluates t o' n' (vs ++ vs') := by
      intro x o' n' vs' hx heval
      rcases hx.cases with ⟨rfl, hx⟩ | ⟨rfl, us', hx, hperm'⟩
      · refine evaluates_none ?_
        rw [heval, hx]
        rfl
      · refine ⟨us ++ us', ?_, hperm.append hperm'⟩
        rw [heval, hx]
        rfl
    cases hp : p n with
    | true =>
      rw [hp] at heval
      exact hone ha heval
    | false =>
      rw [hp] at heval
      exact hone hb heval

theorem evaluates_short {k : Word} (h : Evaluates c o n vs) (p : Word → Bool)
    (heval : eval t = (eval c).bind fun x =>
      if p x.1 then some (k, x.2) else (eval b).bind fun y => some (ofBool (y.1 != 0), x.2 ++ y.2))
    (hb : Evaluates b ob nb vb) :
    Evaluates t (o || (!p n && ob)) (if p n then k else ofBool (nb != 0))
      (if p n then vs else vs ++ vb) := by
  rcases h.cases with ⟨rfl, hc⟩ | ⟨rfl, us, hc, hperm⟩
  · refine evaluates_none ?_
    rw [heval, hc]
    rfl
  · rw [hc] at heval
    simp only [Option.bind_some] at heval
    cases hp : p n with
    | true =>
      rw [hp] at heval
      exact ⟨us, heval, hperm⟩
    | false =>
      rw [hp] at heval
      rcases hb.cases with ⟨rfl, hb⟩ | ⟨rfl, us', hb, hperm'⟩
      · refine evaluates_none ?_
        rw [heval, hb]
        rfl
      · refine ⟨us ++ us', ?_, hperm.append hperm'⟩
        rw [heval, hb]
        rfl

theorem eval_tree {e : Expr} (h : e.Plain) : Evaluates e.tree e.overflows e.number e.operands := by
  induction e with
  | constant c => cases c <;> exact ⟨_, rfl, .refl _⟩
  | plus e ih => exact ih h
  | minus e ih => exact (ih h).unary .unaryMinus _
  | ahead op e ih =>
    have hrun := (ih h.1).unary (.ahead op) e.tree.type
    cases op with
    | complement => exact hrun
    | not => exact hrun
  | binary op l r ihl ihr =>
    have hl := ihl h.1
    have hr := ihr h.2.1
    by_cases hlogical : op = .logicalOR ∨ op = .logicalAND
    · rcases hlogical with rfl | rfl
      · have hrun := evaluates_short (t := (Expr.binary .logicalOR l r).tree) hl
          (fun n => decide (n ≠ 0)) (k := 1) (by simp only [decide_eq_true_eq]; rfl) hr
        have hnumber : (Expr.binary .logicalOR l r).number =
            if decide (l.number ≠ 0) then 1 else ofBool (r.number != 0) := by
          change ofBool (l.number != 0 || r.number != 0) = _
          by_cases hn : l.number = 0#32 <;> simp [hn, ofBool]
        have hover : (Expr.binary .logicalOR l r).overflows =
            (l.overflows || (!decide (l.number ≠ 0) && r.overflows)) := by
          simp [Expr.overflows]
        have hoperands : (Expr.binary .logicalOR l r).operands =
            if decide (l.number ≠ 0) then l.operands else l.operands ++ r.operands := by
          simp [Expr.operands]
        rw [hnumber, hover, hoperands]
        exact hrun
      · have hrun := evaluates_short (t := (Expr.binary .logicalAND l r).tree) hl
          (fun n => decide (n = 0)) (k := 0) (by simp only [decide_eq_true_eq]; rfl) hr
        have hnumber : (Expr.binary .logicalAND l r).number =
            if decide (l.number = 0) then 0 else ofBool (r.number != 0) := by
          change ofBool (l.number != 0 && r.number != 0) = _
          by_cases hn : l.number = 0#32 <;> simp [hn, ofBool]
        have hover : (Expr.binary .logicalAND l r).overflows =
            (l.overflows || (!decide (l.number = 0) && r.overflows)) := by
          simp [Expr.overflows]
        have hoperands : (Expr.binary .logicalAND l r).operands =
            if decide (l.number = 0) then l.operands else l.operands ++ r.operands := by
          simp [Expr.operands]
        rw [hnumber, hover, hoperands]
        exact hrun
    · have hor : op ≠ .logicalOR := fun hop => hlogical (Or.inl hop)
      have hand : op ≠ .logicalAND := fun hop => hlogical (Or.inr hop)
      have hrun := hl.binary hr hor hand (tree_type h.1) (tree_type h.2.1) h.2.2
        (binaryType op l.tree.type r.tree.type)
      have hover : (Expr.binary op l r).overflows =
          (l.overflows || r.overflows || tooLarge op (usual l.type r.type) l.number r.number) := by
        cases op <;> first | rfl | exact absurd rfl hor | exact absurd rfl hand
      have hoperands : (Expr.binary op l r).operands = l.operands ++ r.operands := by
        cases op <;> first | rfl | exact absurd rfl hor | exact absurd rfl hand
      rw [hover, hoperands]
      exact hrun
  | cond c a b ihc iha ihb =>
    have hrun := evaluates_choice (t := (Expr.cond c a b).tree) (ihc h.1)
      (fun n => decide (n ≠ 0)) (by simp only [decide_eq_true_eq]; rfl) (iha h.2.1) (ihb h.2.2)
    simp only [decide_eq_true_eq] at hrun
    exact hrun

end Values

end Xpr
end Svr4
