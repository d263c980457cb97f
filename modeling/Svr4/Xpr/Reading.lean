import Svr4.Xpr.Parsing

/-!
# Reading an expression

From any two stacks, and with any text behind it, the automaton reads the text of an expression
and leaves its tree: by induction on the derivation, with the levels that the operator on the
stack and the next token allow.
-/

namespace Svr4
namespace Xpr

open List

variable {loose : Bool} {e : Expr} {nstp nstp₁ nstp₂ : List Tree}

section Reading

open Relation (ReflTransGen)

abbrev atOperator (tokens : List Token) (nstp : List Tree) (ostp : List Code) : Automaton :=
  ⟨tokens, .operator, nstp, ostp⟩

abbrev atNumber (tokens : List Token) (nstp : List Tree) (ostp : List Code) : Automaton :=
  ⟨tokens, .number, nstp, ostp⟩

/-- The operands behind an expression; without operators out of place there is its tree. -/
def Leaves (loose : Bool) (e : Expr) (nstp nstp' : List Tree) : Prop :=
  nstp.length < nstp'.length ∧ (loose = false → nstp' = e.tree :: nstp)

theorem next_operand (c : Constant) (tokens : List Token) (nstp : List Tree) {ostp : List Code}
    (h : demand ostp ≤ 12) :
    Next (atNumber (.constrained c :: tokens) nstp ostp) (atOperator tokens (primary c :: nstp) ostp) := by
  have hcompare : compare .operand ostp = .shift .operand :=
    compare_first (.constrained c) rfl h
  have haction : action (atNumber (.constrained c :: tokens) nstp ostp) = .shift .operand := hcompare
  exact next_shift haction

theorem next_first (token : Token) {input : Code} (tokens : List Token) (nstp : List Tree)
    {ostp : List Code} (hinput : inputOp token .number = some input) (hoperand : input ≠ .operand)
    (h : demand ostp ≤ 12) :
    Next (atNumber (token :: tokens) nstp ostp) (atNumber tokens nstp (input.pushed :: ostp)) := by
  have haction : action (atNumber (token :: tokens) nstp ostp) = .shift input := by
    simp only [action, hinput]
    exact compare_first token hinput h
  have hparen : input ≠ .rParen := fun heq =>
    Expect.noConfusion (inputOp_behind hinput (.inl heq))
  have hnext := next_shift haction
  rw [shift_operator rfl hoperand] at hnext
  simpa only [hparen, if_false] using hnext

theorem next_behind (token : Token) {input : Code} (tokens : List Token) (nstp : List Tree)
    (ostp : List Code) (hinput : inputOp token .operator = some input) (hoperand : input ≠ .operand)
    (hcompare : compare input ostp = .shift input) : Next (atOperator (token :: tokens) nstp ostp)
      ⟨tokens, if input = .rParen then .operator else .number, nstp, input.pushed :: ostp⟩ := by
  have haction : action (atOperator (token :: tokens) nstp ostp) = .shift input := by
    simp only [action, hinput]
    exact hcompare
  have hnext := next_shift haction
  rwa [shift_operator rfl hoperand] at hnext

theorem next_made (top : Code) (rest : List Code) (nstp : List Tree) {tokens : List Token}
    {nstp' : List Tree} (hchk : reducechk (top :: rest) = .reduce) (hpull : pull tokens ≤ top.made)
    (hnstp : reduceOperands top nstp = some nstp') :
    Next (atOperator tokens nstp (top :: rest)) (atOperator tokens nstp' (popped top rest)) := by
  have haction := (action_reduce_iff (a := atOperator tokens nstp (top :: rest)) rfl rfl hchk).mpr hpull
  refine next_reduce haction ?_
  simp [reduce, hnstp, popped]

theorem derives_le {level : Nat} {ts : List Token} (h : Derives loose level ts e) : level ≤ 12 := by
  induction h with
  | binary op _ _ _ _ => exact Nat.le_trans (level_le op) (by decide)
  | up hlevel _ _ => exact Nat.le_of_lt hlevel
  | _ => decide

theorem Leaves.unary (top : Code) (e' : Expr) (h : Leaves loose e nstp nstp₁)
    (hone : ∀ t more, ∃ t', reduceOperands top (t :: more) = some (t' :: more) ∧
      (t = e.tree → t' = e'.tree)) :
    ∃ nstp₂, reduceOperands top nstp₁ = some nstp₂ ∧ Leaves loose e' nstp nstp₂ := by
  cases nstp₁ with
  | nil => exact absurd h.1 (Nat.not_lt_zero _)
  | cons t more =>
    obtain ⟨t', hreduce, htree⟩ := hone t more
    refine ⟨t' :: more, hreduce, h.1, fun hstrict => ?_⟩
    obtain ⟨rfl, rfl⟩ := List.cons.inj (h.2 hstrict)
    rw [htree rfl]

theorem Leaves.binary {l r : Expr} (op : Binary) (hl : Leaves loose l nstp nstp₁)
    (hr : Leaves loose r nstp₁ nstp₂) : ∃ nstp₃, reduceOperands (.binary op) nstp₂ = some nstp₃ ∧
      Leaves loose (.binary op l r) nstp nstp₃ := by
  have hless := hl.1
  have hless' := hr.1
  match nstp₂, hr with
  | [], _ => exact absurd hless' (Nat.not_lt_zero _)
  | [_], _ =>
    simp only [length_cons, length_nil] at hless'
    omega
  | right :: left :: more, hr =>
    refine ⟨_, rfl, ?_, fun hstrict => ?_⟩
    · simp only [length_cons] at hless' ⊢
      omega
    · obtain ⟨rfl, hmore⟩ := List.cons.inj (hr.2 hstrict)
      obtain ⟨rfl, rfl⟩ := List.cons.inj (hmore.trans (hl.2 hstrict))
      rfl

theorem Leaves.cond {c a b : Expr} {nstp₃ : List Tree} (hc : Leaves loose c nstp nstp₁)
    (ha : Leaves loose a nstp₁ nstp₂) (hb : Leaves loose b nstp₂ nstp₃) :
    ∃ nstp₄, reduceOperands .colon nstp₃ = some nstp₄ ∧ Leaves loose (.cond c a b) nstp nstp₄ := by
  have hlessc := hc.1
  have hlessa := ha.1
  have hlessb := hb.1
  match nstp₃, hb with
  | [], _ => exact absurd hlessb (Nat.not_lt_zero _)
  | [_], _ =>
    simp only [length_cons, length_nil] at hlessb
    omega
  | [_, _], _ =>
    simp only [length_cons, length_nil] at hlessb
    omega
  | t3 :: t2 :: t1 :: more, hb =>
    refine ⟨_, rfl, ?_, fun hstrict => ?_⟩
    · simp only [length_cons] at hlessb ⊢
      omega
    · obtain ⟨rfl, hmore⟩ := List.cons.inj (hb.2 hstrict)
      obtain ⟨rfl, hmore'⟩ := List.cons.inj (hmore.trans (ha.2 hstrict))
      obtain ⟨rfl, rfl⟩ := List.cons.inj (hmore'.trans (hc.2 hstrict))
      rfl

theorem reads {level : Nat} {ts : List Token} (h : Derives loose level ts e) (rest : List Token)
    (nstp : List Tree) (ostp : List Code) (hdemand : demand ostp ≤ level)
    (hpull : pull rest ≤ level) : ∃ nstp', Leaves loose e nstp nstp' ∧
      ReflTransGen Next (atNumber (ts ++ rest) nstp ostp) (atOperator rest nstp' ostp) := by
  induction h generalizing rest nstp ostp with
  | constant c =>
    refine ⟨primary c :: nstp, ⟨Nat.lt_succ_self _, fun _ => rfl⟩, ?_⟩
    exact .single (next_operand c rest nstp hdemand)
  | @paren ts e _ ih =>
    obtain ⟨nstp', hleaves, hrun⟩ :=
      ih (.rParen :: rest) nstp (.rParen :: ostp) (Nat.zero_le _) (Nat.zero_le _)
    have hopen := next_first .lParen (ts ++ .rParen :: rest) nstp rfl (by simp) hdemand
    have hclose := next_behind .rParen rest nstp' (.rParen :: ostp) rfl (by simp) rfl
    have hmade := next_made .lParen (.rParen :: ostp) nstp' rfl hpull rfl
    refine ⟨nstp', hleaves, ?_⟩
    simp only [cons_append, append_assoc, nil_append]
    exact (ReflTransGen.head hopen hrun).trans (.head hclose (.single hmade))
  | @plus ts e _ ih =>
    obtain ⟨nstp₁, hleaves, hrun⟩ := ih rest nstp (.unaryPlus :: ostp) (Nat.le_refl _) hpull
    have hop := next_first (.binary .plus) (ts ++ rest) nstp rfl (by simp)
      (Nat.le_trans hdemand (by decide))
    have hmade := next_made .unaryPlus ostp nstp₁ rfl hpull rfl
    exact ⟨nstp₁, hleaves, (ReflTransGen.head hop hrun).trans (.single hmade)⟩
  | @minus ts e _ ih =>
    obtain ⟨nstp₁, hleaves, hrun⟩ := ih rest nstp (.unaryMinus :: ostp) (Nat.le_refl _) hpull
    have hop := next_first (.binary .minus) (ts ++ rest) nstp rfl (by simp)
      (Nat.le_trans hdemand (by decide))
    obtain ⟨nstp₂, hreduce, hleaves₂⟩ := hleaves.unary .unaryMinus (.minus e)
      fun t more => ⟨_, rfl, fun htree => htree ▸ rfl⟩
    have hmade := next_made .unaryMinus ostp nstp₁ rfl hpull hreduce
    exact ⟨nstp₂, hleaves₂, (ReflTransGen.head hop hrun).trans (.single hmade)⟩
  | @ahead op ts e _ ih =>
    obtain ⟨nstp₁, hleaves, hrun⟩ := ih rest nstp (.ahead op :: ostp) (Nat.le_refl _) hpull
    have hop := next_first (.ahead op) (ts ++ rest) nstp rfl (by simp)
      (Nat.le_trans hdemand (by decide))
    obtain ⟨nstp₂, hreduce, hleaves₂⟩ := hleaves.unary (.ahead op) (.ahead op e)
      fun t more => ⟨_, rfl, fun htree => htree ▸ rfl⟩
    have hmade := next_made (.ahead op) ostp nstp₁ rfl hpull hreduce
    exact ⟨nstp₂, hleaves₂, (ReflTransGen.head hop hrun).trans (.single hmade)⟩
  | @behind op us ts d e hloose _ _ ihd ih =>
    -- the operand in front is read and stays on its stack
    obtain ⟨nstp₀, hleaves₀, hrun₀⟩ := ihd (.ahead op :: (ts ++ rest)) nstp ostp
      (Nat.le_trans hdemand (by decide)) (Nat.le_refl _)
    obtain ⟨nstp₁, hleaves, hrun⟩ := ih rest nstp₀ (.ahead op :: ostp) (Nat.le_refl _) hpull
    have hop := next_behind (.ahead op) (ts ++ rest) nstp₀ ostp rfl (by simp)
      ((compare_ahead op ostp).mpr (Nat.le_trans hdemand (by decide)))
    obtain ⟨nstp₂, hreduce, hleaves₂⟩ := hleaves.unary (.ahead op) (.ahead op e)
      fun t more => ⟨_, rfl, fun htree => htree ▸ rfl⟩
    have hmade := next_made (.ahead op) ostp nstp₁ rfl hpull hreduce
    refine ⟨nstp₂, ⟨Nat.lt_trans hleaves₀.1 hleaves₂.1, fun hstrict => ?_⟩, ?_⟩
    · simp [hloose] at hstrict
    · simp only [append_assoc, cons_append]
      exact hrun₀.trans ((ReflTransGen.head hop hrun).trans (.single hmade))
  | @binary op us ts l r _ _ ihl ihr =>
    obtain ⟨nstp₁, hleft, hrunl⟩ := ihl (.binary op :: (ts ++ rest)) nstp ostp hdemand
      (Nat.le_refl _)
    obtain ⟨nstp₂, hright, hrunr⟩ := ihr rest nstp₁ (.binary op :: ostp) (Nat.le_refl _)
      (Nat.le_succ_of_le hpull)
    have hop := next_behind (.binary op) (ts ++ rest) nstp₁ ostp (inputOp_binary op) (by simp)
      ((compare_binary op ostp).mpr hdemand)
    obtain ⟨nstp₃, hreduce, hleaves⟩ := hleft.binary op hright
    have hmade := next_made (.binary op) ostp nstp₂ (by rfl) hpull hreduce
    refine ⟨nstp₃, hleaves, ?_⟩
    simp only [append_assoc, cons_append]
    exact hrunl.trans ((ReflTransGen.head hop hrunr).trans (.single hmade))
  | @cond us vs ts c a b _ _ _ ihc iha ihb =>
    obtain ⟨nstp₁, hleavesc, hrunc⟩ :=
      ihc (.question :: (vs ++ .colon :: (ts ++ rest))) nstp ostp (Nat.le_succ_of_le hdemand)
        (Nat.le_refl _)
    obtain ⟨nstp₂, hleavesa, hruna⟩ :=
      iha (.colon :: (ts ++ rest)) nstp₁ (.question :: ostp) (Nat.le_refl _) (Nat.le_refl _)
    obtain ⟨nstp₃, hleavesb, hrunb⟩ :=
      ihb rest nstp₂ (.colon :: .question :: ostp) (Nat.le_refl _) hpull
    have hquestion := next_behind .question (vs ++ .colon :: (ts ++ rest)) nstp₁ ostp rfl
      (by simp) ((compare_question ostp).mpr hdemand)
    have hcolon := next_behind .colon (ts ++ rest) nstp₂ (.question :: ostp) rfl (by simp) (by rfl)
    obtain ⟨nstp₄, hreduce, hleaves⟩ := hleavesc.cond hleavesa hleavesb
    have hmade := next_made .colon (.question :: ostp) nstp₃ (by rfl) hpull hreduce
    refine ⟨nstp₄, hleaves, ?_⟩
    simp only [append_assoc, cons_append]
    exact hrunc.trans ((ReflTransGen.head hquestion hruna).trans
      ((ReflTransGen.head hcolon hrunb).trans (.single hmade)))
  | up _ _ ih =>
    exact ih rest nstp ostp (Nat.le_succ_of_le hdemand) (Nat.le_succ_of_le hpull)

end Reading

end Xpr
end Svr4
