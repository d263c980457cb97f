import Svr4.Xpr.Grammar

/-!
# Parsing

Each turn of the automaton uses up a token or an operator, its stack of operands never runs out,
and it takes every expression of the grammar, from any two stacks and with any text behind it,
to the tree of that expression.
-/

namespace Svr4
namespace Xpr

open List

/-!
## The end of the loop
-/

variable {a b : Automaton} {input top : Code} {rest ostp : List Code} {token : Token}
  {expect : Expect}

section Ends

def Automaton.work (a : Automaton) : Nat := 2 * a.curtoken.length + a.ostp.length

def Next (a b : Automaton) : Prop := turn a = .inl b

theorem next_cases (h : Next a b) : (∃ input, action a = .shift input ∧ b = shift a input) ∨
      (action a = .reduce ∧ reduce a = some b) := by
  unfold Next turn at h
  cases haction : action a with
  | reduce =>
    rw [haction] at h
    cases hreduce : reduce a with
    | none => simp [hreduce] at h
    | some c =>
      simp only [hreduce, Sum.inl.injEq] at h
      exact .inr ⟨rfl, by rw [h]⟩
  | shift input =>
    rw [haction] at h
    simp only [Sum.inl.injEq] at h
    exact .inl ⟨input, rfl, h.symm⟩
  | accept =>
    rw [haction] at h
    cases hn : a.nstp with
    | nil => simp [hn] at h
    | cons t rest =>
      cases heval : eval t <;> simp [hn, heval] at h
  | error => simp [haction] at h

theorem next_shift (h : action a = .shift input) : Next a (shift a input) := by
  simp [Next, turn, h]

theorem next_reduce (h : action a = .reduce) (hreduce : reduce a = some b) : Next a b := by
  simp [Next, turn, h, hreduce]

theorem reducechk_cases (ostp : List Code) :
    reducechk ostp = .reduce ∨ reducechk ostp = .error := by
  unfold reducechk
  split <;> simp

theorem compare_lt
    (h : precedence top < precedence input) : compare input (top :: rest) = .shift input :=
  if_pos h

theorem compare_gt (h : precedence input < precedence top) :
    compare input (top :: rest) = reducechk (top :: rest) :=
  (if_neg (Nat.lt_asymm h)).trans (if_pos h)

theorem compare_cases (input : Code) (ostp : List Code) : compare input ostp = .shift input ∨
      (compare input ostp = reducechk ostp ∧ ∃ top rest, ostp = top :: rest ∧
        precedence input ≤ precedence top) := by
  cases ostp with
  | nil => exact .inl rfl
  | cons top rest =>
    rcases Nat.lt_trichotomy (precedence top) (precedence input) with hlt | heq | hgt
    · exact .inl (compare_lt hlt)
    · unfold compare
      simp only [heq, Nat.lt_irrefl, if_false, gt_iff_lt]
      cases input with
      | colon =>
        by_cases htop : top = .colon
        · exact .inr ⟨if_pos htop, top, rest, rfl, heq.ge⟩
        · exact .inl (if_neg htop)
      | question =>
        by_cases htop : top = .question ∨ top = .colon
        · exact .inl (if_pos htop)
        · exact .inr ⟨if_neg htop, top, rest, rfl, heq.ge⟩
      | rParen => exact .inl rfl
      | unaryPlus => exact .inl rfl
      | unaryMinus => exact .inl rfl
      | ahead op => exact .inl rfl
      | binary op => exact .inr ⟨rfl, top, rest, rfl, heq.ge⟩
      | lParen => exact .inr ⟨rfl, top, rest, rfl, heq.ge⟩
      | operand => exact .inr ⟨rfl, top, rest, rfl, heq.ge⟩
    · exact .inr ⟨compare_gt hgt, top, rest, rfl, Nat.le_of_lt hgt⟩

theorem reducechk_ne_shift : reducechk ostp ≠ .shift input := by
  rcases reducechk_cases ostp with h | h <;> simp [h]

theorem reducechk_ne_accept : reducechk ostp ≠ .accept := by
  rcases reducechk_cases ostp with h | h <;> simp [h]

theorem action_accept (h : action a = .accept) : a.curtoken = [] ∧ a.ostp = [] := by
  unfold action at h
  split at h
  · rename_i hnil
    split at h
    · exact ⟨hnil, ‹_›⟩
    · split at h
      · cases h
      · exact absurd h reducechk_ne_accept
  · split at h
    · cases h
    · rename_i input _
      rcases compare_cases input a.ostp with hc | ⟨hc, -⟩
      · rw [hc] at h
        cases h
      · exact absurd (hc.symm.trans h) reducechk_ne_accept

theorem action_shift (h : action a = .shift input) :
    ∃ token rest, a.curtoken = token :: rest ∧ inputOp token a.expect = some input ∧
      compare input a.ostp = .shift input := by
  unfold action at h
  split at h
  · split at h
    · cases h
    · split at h
      · cases h
      · exact absurd h reducechk_ne_shift
  · rename_i token rest htokens
    split at h
    · cases h
    · rename_i input' hinput
      rcases compare_cases input' a.ostp with hc | ⟨hc, -⟩
      · have heq : input' = input := by simpa [hc] using h
        subst heq
        exact ⟨token, rest, htokens, hinput, hc⟩
      · exact absurd (hc.symm.trans h) reducechk_ne_shift

theorem action_reduce (h : action a = .reduce) :
    reducechk a.ostp = .reduce ∧ ((a.curtoken = [] ∧ a.expect = .operator) ∨
        ∃ token rest input, a.curtoken = token :: rest ∧ inputOp token a.expect = some input ∧
          compare input a.ostp = .reduce) := by
  unfold action at h
  split at h
  · rename_i hnil
    split at h
    · cases h
    · split at h
      · cases h
      · rename_i hexpect
        refine ⟨h, .inl ⟨hnil, ?_⟩⟩
        cases hx : a.expect with
        | number => exact absurd hx hexpect
        | operator => rfl
  · rename_i token rest htokens
    split at h
    · cases h
    · rename_i input hinput
      rcases compare_cases input a.ostp with hc | ⟨hc, -⟩
      · rw [hc] at h
        cases h
      · exact ⟨hc.symm.trans h, .inr ⟨token, rest, input, htokens, hinput, h⟩⟩

theorem inputOp_operand
    (h : inputOp token expect = some .operand) : ∃ c, token = .constrained c := by
  cases token with
  | constrained c => exact ⟨c, rfl⟩
  | binary op => cases op <;> cases expect <;> simp [inputOp] at h
  | _ => cases expect <;> simp [inputOp] at h

def Code.pushed : Code → Code
  | .lParen => .rParen
  | .rParen => .lParen
  | code => code

theorem shift_operand {c : Constant} {rest : List Token} (h : a.curtoken = .constrained c :: rest) :
    shift a .operand =
      { a with curtoken := rest, nstp := primary c :: a.nstp, expect := .operator } := by
  simp [shift, h]

theorem shift_operator {rest : List Token} (h : a.curtoken = token :: rest)
    (hinput : input ≠ .operand) :
    shift a input =
      { a with
        curtoken := rest
        ostp := input.pushed :: a.ostp
        expect := if input = .rParen then .operator else .number } := by
  cases input with
  | operand => exact absurd rfl hinput
  | _ => simp [shift, h, Code.pushed]

theorem reduce_spec (h : reduce a = some b) :
    ∃ top rest, a.ostp = top :: rest ∧ reduceOperands top a.nstp = some b.nstp ∧
      b.curtoken = a.curtoken ∧ b.expect = .operator ∧
      b.ostp = if top = .colon ∨ top = .lParen then rest.tail else rest := by
  unfold reduce at h
  split at h
  · cases h
  · rename_i top rest hostp
    obtain ⟨nstp, hnstp, rfl⟩ := Option.map_eq_some_iff.mp h
    exact ⟨top, rest, hostp, hnstp, rfl, rfl, rfl⟩

theorem next_work (h : Next a b) : b.work < a.work := by
  rcases next_cases h with ⟨input, haction, rfl⟩ | ⟨_, hreduce⟩
  · obtain ⟨token, rest, htokens, hinput, _⟩ := action_shift haction
    by_cases hoperand : input = .operand
    · subst hoperand
      obtain ⟨c, rfl⟩ := inputOp_operand hinput
      simp [shift_operand htokens, Automaton.work, htokens]
    · simp only [shift_operator htokens hoperand, Automaton.work, htokens, length_cons]
      omega
  · obtain ⟨top, rest, hostp, _, htokens, _, hops⟩ := reduce_spec hreduce
    unfold Automaton.work
    rw [htokens, hostp, hops]
    split <;> simp only [length_cons, length_tail] <;> omega

theorem turns_ends {n : Nat} (a : Automaton) (hn : a.work < n) : ∃ o, turns n a = some o := by
  induction n generalizing a with
  | zero => exact absurd hn (Nat.not_lt_zero _)
  | succ n ih =>
    cases h : turn a with
    | inr o => exact ⟨o, by rw [turns, h]⟩
    | inl b =>
      have hb : b.work < n := Nat.lt_of_lt_of_le (next_work h) (Nat.le_of_lt_succ hn)
      obtain ⟨o, ho⟩ := ih b hb
      exact ⟨o, by rw [turns, h]; exact ho⟩

theorem turns_of_reaches {n : Nat} {o : Outcome} (h : Relation.ReflTransGen Next a b)
    (hb : turn b = .inr o) (hn : a.work < n) : turns n a = some o := by
  induction h using Relation.ReflTransGen.head_induction_on generalizing n with
  | refl =>
    obtain ⟨m, rfl⟩ : ∃ m, n = m + 1 := ⟨n - 1, by omega⟩
    rw [turns, hb]
  | head hstep _ ih =>
    obtain ⟨m, rfl⟩ : ∃ m, n = m + 1 := ⟨n - 1, by omega⟩
    have hwork := next_work hstep
    rw [turns, hstep]
    exact ih (by omega)

theorem reaches_of_turns {n : Nat} {o : Outcome} (h : turns n a = some o) :
    ∃ b, Relation.ReflTransGen Next a b ∧ turn b = .inr o := by
  induction n generalizing a with
  | zero => exact absurd h (by simp [turns])
  | succ n ih =>
    cases hturn : turn a with
    | inr o' =>
      rw [turns, hturn] at h
      exact ⟨a, .refl, hturn.trans (congrArg Sum.inr (Option.some.inj h))⟩
    | inl b =>
      rw [turns, hturn] at h
      obtain ⟨c, hreach, hc⟩ := ih h
      exact ⟨c, .head hturn hreach, hc⟩

end Ends

/-!
## Levels
-/

section Levels

/-- The least level of an operand right of the operator on the top. -/
def demand : List Code → Nat
  | [] => 0
  | .rParen :: _ => 0
  | .question :: _ => 0
  | .colon :: _ => 0
  | .binary op :: _ => op.level + 1
  | .unaryPlus :: _ => 11
  | .unaryMinus :: _ => 11
  | .ahead _ :: _ => 11
  | .lParen :: _ => 13
  | .operand :: _ => 13

/-- The level that what comes next needs at its left. -/
def pull : List Token → Nat
  | [] => 0
  | .rParen :: _ => 0
  | .colon :: _ => 0
  | .question :: _ => 1
  | .binary op :: _ => op.level
  | .ahead _ :: _ => 12
  | .constrained _ :: _ => 13
  | .lParen :: _ => 13
  | .other :: _ => 13

def Code.made : Code → Nat
  | .rParen => 0
  | .question => 0
  | .colon => 0
  | .binary op => op.level
  | .unaryPlus => 11
  | .unaryMinus => 11
  | .ahead _ => 11
  | .lParen => 12
  | .operand => 12

theorem precedence_binary (op : Binary) : precedence (.binary op) = 12 + op.level := by
  cases op <;> rfl

theorem level_pos (op : Binary) : 0 < op.level := by
  cases op <;> decide

theorem level_le (op : Binary) : op.level ≤ 10 := by
  cases op <;> decide

/-- An operator with an operand at its left is shifted over weaker ones. -/
theorem compare_binary (op : Binary) (ostp : List Code) :
    compare (.binary op) ostp = .shift (.binary op) ↔ demand ostp ≤ op.level := by
  have hpos := level_pos op
  have hle := level_le op
  have hprec := precedence_binary op
  cases ostp with
  | nil => simp [compare, demand]
  | cons top rest =>
    rcases Nat.lt_or_ge (precedence top) (precedence (.binary op)) with hlt | hge
    · rw [compare_lt hlt]
      rw [hprec] at hlt
      cases top with
      | binary top =>
        have htop := precedence_binary top
        simp only [demand, true_iff]
        omega
      | _ => simp [demand, precedence] at hlt ⊢ <;> omega
    · have hcompare : compare (.binary op) (top :: rest) = reducechk (top :: rest) := by
        rcases Nat.lt_or_eq_of_le hge with hgt | heq
        · exact compare_gt hgt
        · simp [compare, heq]
      rw [hcompare]
      rw [hprec] at hge
      refine iff_of_false reducechk_ne_shift ?_
      cases top with
      | binary top =>
        have htop := precedence_binary top
        simp only [demand]
        omega
      | _ =>
        simp [demand, precedence] at hge ⊢
        omega

theorem compare_question (ostp : List Code) :
    compare .question ostp = .shift .question ↔ demand ostp ≤ 0 := by
  cases ostp with
  | nil => simp [compare, demand]
  | cons top rest =>
    cases top with
    | binary op =>
      have hgt : precedence .question < precedence (.binary op) := by
        have hprec := precedence_binary op
        have hpos := level_pos op
        change 12 < _
        omega
      rw [compare_gt hgt]
      exact iff_of_false reducechk_ne_shift (by simp [demand])
    | _ => simp [compare, demand, precedence, reducechk_ne_shift]

theorem compare_ahead (op : Ahead) (ostp : List Code) :
    compare (.ahead op) ostp = .shift (.ahead op) ↔ demand ostp ≤ 12 := by
  cases ostp with
  | nil => simp [compare, demand]
  | cons top rest =>
    cases top with
    | binary top =>
      have hle := level_le top
      have hlt : precedence (.binary top) < precedence (.ahead op) := by
        rw [precedence_binary]
        change _ < 23
        omega
      rw [compare_lt hlt]
      simp only [demand, true_iff]
      omega
    | _ => simp [compare, demand, precedence, reducechk_ne_shift]

theorem inputOp_binary (op : Binary) : inputOp (.binary op) .operator = some (.binary op) := by
  cases op <;> rfl

theorem compare_reduce (h : reducechk ostp = .reduce) :
    compare input ostp = .reduce ↔ ¬ compare input ostp = .shift input := by
  rcases compare_cases input ostp with hc | ⟨hc, -⟩
  · simp [hc]
  · simp [hc, h]

theorem demand_made (h : reducechk (top :: rest) = .reduce) (k : Nat)
    (hk : k ≤ 10) : ¬ demand (top :: rest) ≤ k ↔ k ≤ top.made ∧ top ≠ .colon := by
  cases top with
  | rParen => simp [reducechk] at h
  | question => simp [reducechk] at h
  | colon => simp [demand]
  | binary op => simp [demand, Code.made] <;> omega
  | _ => simp [demand, Code.made] <;> omega

theorem action_reduce_iff (hexpect : a.expect = .operator) (hostp : a.ostp = top :: rest)
    (h : reducechk (top :: rest) = .reduce) : action a = .reduce ↔ pull a.curtoken ≤ top.made := by
  have hmade : top.made ≤ 12 := by
    cases top with
    | binary op => exact Nat.le_trans (level_le op) (by decide)
    | _ => simp [Code.made]
  have hcolon : top.made = 0 ↔ top = .colon := by
    cases top with
    | rParen => simp [reducechk] at h
    | question => simp [reducechk] at h
    | binary op => simpa [Code.made] using (level_pos op).ne'
    | _ => simp [Code.made]
  unfold action
  rw [hexpect, hostp]
  cases htokens : a.curtoken with
  | nil => simp [h, pull]
  | cons token more =>
    cases token with
    | constrained c => simpa [inputOp, pull] using Nat.lt_of_le_of_lt hmade (by decide)
    | lParen => simpa [inputOp, pull] using Nat.lt_of_le_of_lt hmade (by decide)
    | other => simpa [inputOp, pull] using Nat.lt_of_le_of_lt hmade (by decide)
    | rParen =>
      have hgt : precedence .rParen < precedence top := by
        cases top with
        | rParen => simp [reducechk] at h
        | binary op =>
          rw [precedence_binary]
          change 10 < _
          omega
        | _ => simp [precedence]
      simpa [inputOp, pull] using (compare_gt hgt).trans h
    | question =>
      change compare .question (top :: rest) = .reduce ↔ 1 ≤ top.made
      rw [compare_reduce h, compare_question, demand_made h 0 (by decide), ne_eq, ← hcolon]
      omega
    | colon =>
      have hcompare : compare .colon (top :: rest) = .reduce := by
        cases top with
        | rParen => simp [reducechk] at h
        | question => simp [reducechk] at h
        | colon => simpa [compare] using h
        | binary op =>
          have hpos := level_pos op
          refine (compare_gt ?_).trans h
          rw [precedence_binary]
          change 12 < _
          omega
        | _ =>
          refine (compare_gt ?_).trans h
          simp [precedence]
      simpa [inputOp, pull] using hcompare
    | binary op =>
      have hpos := level_pos op
      simp only [inputOp_binary, pull]
      rw [compare_reduce h, compare_binary, demand_made h _ (level_le op), ne_eq, ← hcolon]
      omega
    | ahead op =>
      change compare (.ahead op) (top :: rest) = .reduce ↔ 12 ≤ top.made
      rw [compare_reduce h, compare_ahead]
      cases top with
      | binary op =>
        simp only [demand, Code.made]
        omega
      | rParen => simp [reducechk] at h
      | question => simp [reducechk] at h
      | _ => simp [demand, Code.made]

end Levels

/-!
## Operands
-/

section Operands

/-- The operands that the operators on the stack have left there. -/
def pending : List Code → Nat
  | [] => 0
  | .binary _ :: rest => pending rest + 1
  | .question :: rest => pending rest + 1
  | .colon :: rest => pending rest + 1
  | _ :: rest => pending rest

/-- No operator runs out of operands. -/
structure Supplied (a : Automaton) : Prop where
  enough : pending a.ostp + (if a.expect = .operator then 1 else 0) ≤ a.nstp.length
  first : a.expect = .number → demand a.ostp ≤ 12
  more : a.expect = .number → a.ostp = [] → a.curtoken ≠ []

theorem start_supplied {tokens : List Token} (h : tokens ≠ []) : Supplied (start tokens) :=
  ⟨Nat.le_refl _, fun _ => Nat.zero_le _, fun _ _ => h⟩

theorem precedence_of_demand (h : demand (top :: rest) ≤ 12) : precedence top ≤ 23 := by
  cases top with
  | binary op =>
    have hle := level_le op
    rw [precedence_binary]
    omega
  | _ => simp [demand, precedence] at h ⊢

theorem compare_unary (hinput : input = .unaryPlus ∨ input = .unaryMinus ∨ ∃ op, input = .ahead op)
    (hdemand : demand ostp ≤ 12) : compare input ostp = .shift input := by
  have hprec : precedence input = 23 := by rcases hinput with rfl | rfl | ⟨op, rfl⟩ <;> rfl
  cases ostp with
  | nil => rfl
  | cons top rest =>
    rcases Nat.lt_or_eq_of_le (precedence_of_demand hdemand) with hlt | htop
    · exact compare_lt (hprec ▸ hlt)
    · rcases hinput with rfl | rfl | ⟨op, rfl⟩ <;> simp [compare, htop, hprec]

theorem compare_first (token : Token) (h : inputOp token .number = some input)
    (hdemand : demand ostp ≤ 12) : compare input ostp = .shift input := by
  have hover : ∀ code, 23 < precedence code → compare code ostp = .shift code := by
    intro code hcode
    cases ostp with
    | nil => rfl
    | cons top rest => exact compare_lt (Nat.lt_of_le_of_lt (precedence_of_demand hdemand) hcode)
  cases token with
  | constrained c =>
    obtain rfl : .operand = input := Option.some.inj h
    exact hover .operand (by decide)
  | lParen =>
    obtain rfl : .lParen = input := Option.some.inj h
    exact hover .lParen (by decide)
  | ahead op =>
    obtain rfl : .ahead op = input := Option.some.inj h
    exact compare_unary (.inr (.inr ⟨op, rfl⟩)) hdemand
  | binary op =>
    cases op with
    | plus =>
      obtain rfl : .unaryPlus = input := Option.some.inj h
      exact compare_unary (.inl rfl) hdemand
    | minus =>
      obtain rfl : .unaryMinus = input := Option.some.inj h
      exact compare_unary (.inr (.inl rfl)) hdemand
    | _ => simp [inputOp] at h
  | _ => simp [inputOp] at h

def popped (top : Code) (rest : List Code) : List Code :=
  if top = .colon ∨ top = .lParen then rest.tail else rest

theorem reduceOperands_some {nstp : List Tree} (h : reducechk (top :: rest) = .reduce)
    (hn : pending (top :: rest) + 1 ≤ nstp.length) : ∃ nstp', reduceOperands top nstp = some nstp' ∧
      pending (popped top rest) + 1 ≤ nstp'.length := by
  cases top with
  | rParen => simp [reducechk] at h
  | question => simp [reducechk] at h
  | colon =>
    cases rest with
    | nil => simp [reducechk] at h
    | cons second rest =>
      cases second with
      | question =>
        match nstp, hn with
        | t3 :: t2 :: t1 :: more, hn =>
          refine ⟨_, rfl, ?_⟩
          simp only [pending, popped, length_cons, true_or, if_true, tail_cons] at hn ⊢
          omega
        | [_, _], hn => simp [pending] at hn
        | [_], hn => simp [pending] at hn
        | [], hn => simp [pending] at hn
      | _ => simp [reducechk] at h
  | lParen =>
    cases rest with
    | nil => simp [reducechk] at h
    | cons second rest =>
      cases second with
      | rParen => exact ⟨nstp, rfl, hn⟩
      | _ => simp [reducechk] at h
  | binary op =>
    match nstp, hn with
    | right :: left :: more, hn =>
      refine ⟨_, rfl, ?_⟩
      simp only [pending, popped, length_cons, reduceCtorEq, or_self, if_false] at hn ⊢
      omega
    | [_], hn => simp [pending] at hn
    | [], hn => simp [pending] at hn
  | unaryMinus =>
    match nstp, hn with
    | left :: more, hn => exact ⟨_, rfl, hn⟩
    | [], hn => simp [pending] at hn
  | ahead op =>
    match nstp, hn with
    | left :: more, hn => exact ⟨_, rfl, hn⟩
    | [], hn => simp [pending] at hn
  | unaryPlus => exact ⟨nstp, rfl, hn⟩
  | operand => exact ⟨nstp, rfl, hn⟩

theorem Supplied.reduces (h : Supplied a) (haction : action a = .reduce) :
    a.expect = .operator ∧ ∃ top rest, a.ostp = top :: rest ∧
      reducechk (top :: rest) = .reduce := by
  obtain ⟨hchk, hnext⟩ := action_reduce haction
  have hexpect : a.expect = .operator := by
    rcases hnext with ⟨_, hexpect⟩ | ⟨token, rest, input, _, hinput, hcompare⟩
    · exact hexpect
    · cases hx : a.expect with
      | operator => rfl
      | number =>
        rw [hx] at hinput
        rw [compare_first token hinput (h.first hx)] at hcompare
        cases hcompare
  refine ⟨hexpect, ?_⟩
  cases hostp : a.ostp with
  | nil =>
    -- without operators nothing is reduced: the end is accepted, a token is shifted
    exfalso
    rcases hnext with ⟨hnil, _⟩ | ⟨token, rest, input, _, _, hcompare⟩
    · simp [action, hnil, hostp] at haction
    · rw [hostp] at hcompare
      cases hcompare
  | cons top rest => exact ⟨top, rest, rfl, hostp ▸ hchk⟩

theorem inputOp_behind (h : inputOp token expect = some input)
    (hinput : input = .rParen ∨ pending [input] = 1) : expect = .operator := by
  cases expect with
  | operator => rfl
  | number =>
    exfalso
    have hcode : input ≠ .rParen ∧ pending [input] = 0 := by
      cases token with
      | binary op => cases op <;> simp [inputOp] at h <;> simp [← h, pending]
      | _ => simp [inputOp] at h <;> simp [← h, pending]
    rcases hinput with hinput | hinput
    · exact hcode.1 hinput
    · omega

theorem pending_pushed (ostp : List Code) (h : inputOp token expect = some input) :
    pending (input.pushed :: ostp) + (if input = .rParen then 1 else 0) ≤
      pending ostp + (if expect = .operator then 1 else 0) := by
  by_cases hbehind : input = .rParen ∨ pending [input] = 1
  · rw [if_pos (inputOp_behind h hbehind)]
    cases input <;> simp [Code.pushed, pending] at hbehind ⊢
  · cases input <;> simp [Code.pushed, pending] at hbehind ⊢

theorem demand_pushed (ostp : List Code) (hoperand : input ≠ .operand)
    (hparen : input ≠ .rParen) : demand (input.pushed :: ostp) ≤ 12 := by
  cases input with
  | binary op => exact Nat.succ_le_succ (Nat.le_trans (level_le op) (by decide))
  | rParen => exact absurd rfl hparen
  | operand => exact absurd rfl hoperand
  | _ => simp [Code.pushed, demand]

theorem Supplied.next (h : Supplied a) (hnext : Next a b) : Supplied b := by
  rcases next_cases hnext with ⟨input, haction, rfl⟩ | ⟨haction, hreduce⟩
  · obtain ⟨token, rest, htokens, hinput, _⟩ := action_shift haction
    by_cases hoperand : input = .operand
    · subst hoperand
      obtain ⟨c, rfl⟩ := inputOp_operand hinput
      have hexpect : a.expect = .number := by
        cases hx : a.expect with
        | number => rfl
        | operator => simp [inputOp, hx] at hinput
      have henough := h.enough
      rw [shift_operand htokens]
      refine ⟨?_, fun hx => by simp at hx, fun hx => by simp at hx⟩
      simp only [hexpect, reduceCtorEq, if_false, if_true, length_cons] at henough ⊢
      omega
    · rw [shift_operator htokens hoperand]
      have henough := h.enough
      have hpushed := pending_pushed a.ostp hinput
      by_cases hparen : input = .rParen
      · simp only [hparen, if_true] at hpushed ⊢
        exact ⟨Nat.le_trans hpushed henough, fun hx => by simp at hx, fun hx => by simp at hx⟩
      · simp only [hparen, if_false] at hpushed ⊢
        exact ⟨Nat.le_trans hpushed henough, fun _ => demand_pushed _ hoperand hparen,
          fun _ hnil => by simp at hnil⟩
  · obtain ⟨hexpect, top, rest, hostp, hchk⟩ := h.reduces haction
    obtain ⟨top', rest', hostp', hops, _, hexpect', hpopped⟩ := reduce_spec hreduce
    obtain ⟨rfl, rfl⟩ := List.cons.inj (hostp.symm.trans hostp')
    have henough := h.enough
    rw [hostp, hexpect, if_pos rfl] at henough
    obtain ⟨nstp', hnstp, hn⟩ := reduceOperands_some hchk henough
    rw [Option.some.inj (hnstp.symm.trans hops)] at hn
    refine ⟨?_, fun hx => ?_, fun hx => ?_⟩
    · rw [hexpect', if_pos rfl, hpopped]
      exact hn
    · simp [hexpect'] at hx
    · simp [hexpect'] at hx

theorem Supplied.turn_ne_fault (h : Supplied a) : turn a ≠ .inr .fault := by
  intro hfault
  unfold turn at hfault
  cases haction : action a with
  | shift input => simp [haction] at hfault
  | error => simp [haction] at hfault
  | reduce =>
    obtain ⟨hexpect, top, rest, hostp, hchk⟩ := h.reduces haction
    have henough := h.enough
    rw [hostp, hexpect, if_pos rfl] at henough
    obtain ⟨nstp', hnstp, _⟩ := reduceOperands_some hchk henough
    simp [haction, reduce, hostp, hnstp] at hfault
  | accept =>
    obtain ⟨hnil, hostp⟩ := action_accept haction
    have hexpect : a.expect = .operator := by
      cases hx : a.expect with
      | number => exact absurd hnil (h.more hx hostp)
      | operator => rfl
    have henough := h.enough
    rw [hostp, hexpect, if_pos rfl] at henough
    cases hn : a.nstp with
    | nil => simp [hn] at henough
    | cons t more => cases heval : eval t <;> simp [haction, hn, heval] at hfault

theorem Supplied.reaches (h : Supplied a)
    (hreach : Relation.ReflTransGen Next a b) : Supplied b := by
  induction hreach with
  | refl => exact h
  | tail _ hnext ih => exact ih.next hnext

end Operands

end Xpr
end Svr4
