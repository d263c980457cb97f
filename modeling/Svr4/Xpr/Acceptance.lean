import Svr4.Xpr.Reading
import Svr4.Xpr.Values

/-!
# What the automaton accepts

The tokens that have been read are, at every turn, the operators on the stack with expressions
between them, or else an operator that nothing can take off is on the stack.  So only the tokens
of an expression are accepted, and `xp_value` is right on the tokens on which the types and
the quotients of C do not differ from its own.
-/

namespace Svr4
namespace Xpr

open Option

open Relation (ReflTransGen)

/-!
## What has been read
-/

variable {ts tokens rest us : List Token} {ostp : List Code} {loose : Bool} {e : Expr}
  {a b : Automaton} {nstp : List Tree} {top input : Code} {level : Nat}

section Read

/-- The tokens up to an expected number, and the operators that they leave. -/
inductive Read : List Token → List Code → Prop where
  | nil : Read [] []
  | paren {ts : List Token} {ostp : List Code} (h : Read ts ostp) :
      Read (ts ++ [.lParen]) (.rParen :: ostp)
  | plus {ts : List Token} {ostp : List Code} (h : Read ts ostp) :
      Read (ts ++ [.binary .plus]) (.unaryPlus :: ostp)
  | minus {ts : List Token} {ostp : List Code} (h : Read ts ostp) :
      Read (ts ++ [.binary .minus]) (.unaryMinus :: ostp)
  | ahead (op : Ahead) {ts : List Token} {ostp : List Code} (h : Read ts ostp) :
      Read (ts ++ [.ahead op]) (.ahead op :: ostp)
  | behind (op : Ahead) {ts us : List Token} {ostp : List Code} {d : Expr} (h : Read ts ostp)
      (hd : Derives true 12 us d) : Read (ts ++ (us ++ [.ahead op])) (.ahead op :: ostp)
  | binary (op : Binary) {ts us : List Token} {ostp : List Code} {l : Expr} (h : Read ts ostp)
      (hdemand : demand ostp ≤ op.level) (hl : Derives true op.level us l) :
      Read (ts ++ (us ++ [.binary op])) (.binary op :: ostp)
  | question {ts us : List Token} {ostp : List Code} {c : Expr} (h : Read ts ostp)
      (hdemand : demand ostp ≤ 0) (hc : Derives true 1 us c) :
      Read (ts ++ (us ++ [.question])) (.question :: ostp)
  | colon {ts us : List Token} {ostp : List Code} {a : Expr} (h : Read ts (.question :: ostp))
      (ha : Derives true 0 us a) : Read (ts ++ (us ++ [.colon])) (.colon :: .question :: ostp)

/-- An operator is on the stack without the one that it needs below it. -/
def Dead : List Code → Prop
  | [] => False
  | top :: rest =>
    (top = .colon ∨ top = .lParen) ∧ reducechk (top :: rest) = .error ∨ Dead rest

inductive Held (tokens : List Token) : Automaton → Prop where
  | number {ts rest : List Token} {ostp : List Code} {nstp : List Tree}
      (htokens : tokens = ts ++ rest) (h : Read ts ostp) : Held tokens (atNumber rest nstp ostp)
  | operand {ts us rest : List Token} {ostp : List Code} {nstp : List Tree} {level : Nat}
      {e : Expr} (htokens : tokens = ts ++ (us ++ rest)) (h : Read ts ostp)
      (he : Derives true level us e) (hdemand : demand ostp ≤ level)
      (hpull : pull rest ≤ 12 → pull rest ≤ level) : Held tokens (atOperator rest nstp ostp)
  | closed {ts us rest : List Token} {ostp : List Code} {nstp : List Tree} {e : Expr}
      (htokens : tokens = ts ++ (.lParen :: (us ++ [.rParen]) ++ rest)) (h : Read ts ostp)
      (he : Derives true 0 us e) : Held tokens (atOperator rest nstp (.lParen :: .rParen :: ostp))
  | dead {a : Automaton} (h : Dead a.ostp) : Held tokens a

theorem Read.demand_le (h : Read ts ostp) : demand ostp ≤ 11 := by
  cases h with
  | binary op _ _ _ => exact Nat.succ_le_succ (level_le op)
  | _ => simp [demand]

theorem Derives.down {l k : Nat} (h : Derives loose k ts e)
    (hle : l ≤ k) : Derives loose l ts e := by
  have hk := derives_le h
  obtain ⟨n, rfl⟩ := Nat.exists_eq_add_of_le hle
  induction n with
  | zero => exact h
  | succ n ih => exact ih (.up (by omega) h) (Nat.le_add_right _ _) (by omega)

theorem Dead.next (h : Dead a.ostp) (hnext : Next a b) : Dead b.ostp := by
  rcases next_cases hnext with ⟨input, haction, rfl⟩ | ⟨haction, hreduce⟩
  · obtain ⟨token, rest, htokens, hinput, _⟩ := action_shift haction
    by_cases hoperand : input = .operand
    · subst hoperand
      obtain ⟨c, rfl⟩ := inputOp_operand hinput
      rw [shift_operand htokens]
      exact h
    · rw [shift_operator htokens hoperand]
      exact .inr h
  · obtain ⟨hchk, _⟩ := action_reduce haction
    obtain ⟨top, rest, hostp, _, _, _, hpopped⟩ := reduce_spec hreduce
    rw [hostp] at h hchk
    rw [hpopped]
    have hrest : Dead rest := by
      rcases h with ⟨_, herror⟩ | hrest
      · rw [hchk] at herror
        cases herror
      · exact hrest
    split
    · rename_i hpair
      -- the second of a pair needs nothing below it
      cases rest with
      | nil => exact hrest
      | cons second rest =>
        rcases hrest with ⟨hsecond, _⟩ | hrest
        · rcases hpair with rfl | rfl <;> rcases hsecond with rfl | rfl <;>
            simp [reducechk] at hchk
        · exact hrest
    · exact hrest

theorem Held.next_number (htokens : tokens = ts ++ rest) (h : Read ts ostp)
    (hnext : Next (atNumber rest nstp ostp) b) : Held tokens b := by
  have hdemand : demand ostp ≤ 12 := Nat.le_succ_of_le h.demand_le
  rcases next_cases hnext with ⟨input, haction, rfl⟩ | ⟨haction, hreduce⟩
  · obtain ⟨token, more, hrest, hinput, _⟩ := action_shift haction
    obtain rfl : rest = token :: more := hrest
    have hsplit : tokens = (ts ++ [token]) ++ more := by
      rw [htokens, List.append_assoc]
      rfl
    cases token with
    | constrained c =>
      obtain rfl : .operand = input := some.inj hinput
      have hread : tokens = ts ++ ([.constrained c] ++ more) := htokens
      exact .operand hread h (.constant c) hdemand id
    | lParen =>
      obtain rfl : .lParen = input := some.inj hinput
      exact .number hsplit h.paren
    | ahead op =>
      obtain rfl : .ahead op = input := some.inj hinput
      exact .number hsplit (h.ahead op)
    | binary op =>
      cases op with
      | plus =>
        obtain rfl : .unaryPlus = input := some.inj hinput
        exact .number hsplit h.plus
      | minus =>
        obtain rfl : .unaryMinus = input := some.inj hinput
        exact .number hsplit h.minus
      | _ => simp [inputOp] at hinput
    | _ => simp [inputOp] at hinput
  · obtain ⟨_, hexpect | ⟨token, more, input, _, hinput, hcompare⟩⟩ := action_reduce haction
    · cases hexpect.2
    · rw [compare_first token hinput hdemand] at hcompare
      cases hcompare

theorem Held.next_reduce (htokens : tokens = ts ++ (us ++ rest)) (h : Read ts (top :: ostp))
    (he : Derives true level us e) (hdemand : demand (top :: ostp) ≤ level)
    (hchk : reducechk (top :: ostp) = .reduce) (hpull : pull rest ≤ top.made)
    (hb : b = ⟨rest, .operator, nstp, popped top ostp⟩) : Held tokens b := by
  subst hb
  cases h with
  | paren _ => simp [reducechk] at hchk
  | question _ _ _ => simp [reducechk] at hchk
  | @plus ts₀ _ h₀ =>
    have hread : tokens = ts₀ ++ ((.binary .plus :: us) ++ rest) := by simp [htokens]
    exact .operand hread h₀ (.plus (he.down hdemand)) h₀.demand_le fun _ => hpull
  | @minus ts₀ _ h₀ =>
    have hread : tokens = ts₀ ++ ((.binary .minus :: us) ++ rest) := by simp [htokens]
    exact .operand hread h₀ (.minus (he.down hdemand)) h₀.demand_le fun _ => hpull
  | @ahead op ts₀ _ h₀ =>
    have hread : tokens = ts₀ ++ ((.ahead op :: us) ++ rest) := by simp [htokens]
    exact .operand hread h₀ (.ahead op (he.down hdemand)) h₀.demand_le fun _ => hpull
  | @behind op ts₀ us₀ _ d h₀ hd =>
    have hread : tokens = ts₀ ++ ((us₀ ++ .ahead op :: us) ++ rest) := by simp [htokens]
    exact .operand hread h₀ (.behind op rfl hd (he.down hdemand)) h₀.demand_le fun _ => hpull
  | @binary op ts₀ us₀ _ l h₀ hbelow hl =>
    have hread : tokens = ts₀ ++ ((us₀ ++ .binary op :: us) ++ rest) := by simp [htokens]
    exact .operand hread h₀ (.binary op hl (he.down hdemand)) hbelow fun _ => hpull
  | @colon ts₁ us₁ _ a h₁ ha =>
    -- the question is below, with the condition in front of it
    cases h₁ with
    | @question ts₀ us₀ _ c h₀ hbelow hc =>
      have hread : tokens =
          ts₀ ++ ((us₀ ++ .question :: (us₁ ++ .colon :: us)) ++ rest) := by simp [htokens]
      exact .operand hread h₀ (.cond hc ha (he.down (Nat.zero_le _))) hbelow fun _ => hpull

theorem compare_gt_ne_shift {rest : List Code} (h : precedence input < precedence top) :
    compare input (top :: rest) ≠ .shift input := by
  rw [compare_gt h]
  exact reducechk_ne_shift

theorem Held.next_shift {token : Token} (htokens : tokens = ts ++ (us ++ token :: rest))
    (h : Read ts ostp) (he : Derives true level us e)
    (hpull : pull (token :: rest) ≤ 12 → pull (token :: rest) ≤ level)
    (hinput : inputOp token .operator = some input) (hcompare : compare input ostp = .shift input) :
    Held tokens ⟨rest, if input = .rParen then .operator else .number, nstp,
      input.pushed :: ostp⟩ := by
  have hsplit : tokens = (ts ++ (us ++ [token])) ++ rest := by simp [htokens]
  cases token with
  | constrained c => simp [inputOp] at hinput
  | lParen => simp [inputOp] at hinput
  | other => simp [inputOp] at hinput
  | binary op =>
    obtain rfl : .binary op = input := some.inj ((inputOp_binary op).symm.trans hinput)
    have hlevel : op.level ≤ level := hpull (Nat.le_trans (level_le op) (by decide))
    exact .number hsplit (h.binary op ((compare_binary op ostp).mp hcompare) (he.down hlevel))
  | ahead op =>
    obtain rfl : .ahead op = input := some.inj hinput
    exact .number hsplit (h.behind op (he.down (hpull (Nat.le_refl _))))
  | question =>
    obtain rfl : .question = input := some.inj hinput
    exact .number hsplit
      (h.question ((compare_question ostp).mp hcompare) (he.down (hpull (by simp [pull]))))
  | colon =>
    obtain rfl : .colon = input := some.inj hinput
    cases h with
    | nil => exact .dead (.inl ⟨.inl rfl, rfl⟩)
    | paren _ => exact .dead (.inl ⟨.inl rfl, rfl⟩)
    | question h₀ hbelow hc =>
      exact .number hsplit ((h₀.question hbelow hc).colon (he.down (Nat.zero_le _)))
    | binary op _ _ _ =>
      refine absurd hcompare (compare_gt_ne_shift ?_)
      rw [precedence_binary]
      exact Nat.lt_add_of_pos_right (level_pos op)
    | colon _ _ => exact absurd hcompare (by simp [compare, reducechk])
    | _ => exact absurd hcompare (compare_gt_ne_shift (by simp [precedence]))
  | rParen =>
    obtain rfl : .rParen = input := some.inj hinput
    cases h with
    | nil => exact .dead (.inl ⟨.inr rfl, rfl⟩)
    | @paren ts₀ _ h₀ =>
      have hread : tokens = ts₀ ++ (.lParen :: (us ++ [.rParen]) ++ rest) := by simp [htokens]
      exact .closed hread h₀ (he.down (Nat.zero_le _))
    | binary op _ _ _ =>
      refine absurd hcompare (compare_gt_ne_shift ?_)
      rw [precedence_binary]
      exact Nat.lt_of_lt_of_le (by decide) (Nat.le_add_right 12 op.level)
    | _ => exact absurd hcompare (compare_gt_ne_shift (by simp [precedence]))

theorem compare_behind {token : Token} (h : inputOp token .operator = some input) :
    precedence input < 24 := by
  cases token with
  | binary op =>
    obtain rfl : .binary op = input := some.inj ((inputOp_binary op).symm.trans h)
    have hle := level_le op
    rw [precedence_binary]
    omega
  | ahead op =>
    obtain rfl : .ahead op = input := some.inj h
    simp [precedence]
  | rParen =>
    obtain rfl : .rParen = input := some.inj h
    decide
  | question =>
    obtain rfl : .question = input := some.inj h
    decide
  | colon =>
    obtain rfl : .colon = input := some.inj h
    decide
  | _ => simp [inputOp] at h

theorem Held.next (h : Held tokens a) (hnext : Next a b) : Held tokens b := by
  cases h with
  | number htokens h => exact .next_number htokens h hnext
  | dead h => exact .dead (h.next hnext)
  | @operand ts us rest ostp nstp level e htokens h he hdemand hpull =>
    rcases next_cases hnext with ⟨input, haction, rfl⟩ | ⟨haction, hreduce⟩
    · obtain ⟨token, more, hrest, hinput, hcompare⟩ := action_shift haction
      obtain rfl : rest = token :: more := hrest
      have hoperand : input ≠ .operand := by
        rintro rfl
        obtain ⟨c, rfl⟩ := inputOp_operand hinput
        simp [inputOp] at hinput
      rw [shift_operator rfl hoperand]
      exact .next_shift htokens h he hpull hinput hcompare
    · obtain ⟨top, more, hostp, _, htokens', hexpect, hpopped⟩ := reduce_spec hreduce
      obtain rfl : ostp = top :: more := hostp
      have hchk := (action_reduce haction).1
      have hmade := (action_reduce_iff (a := atOperator rest nstp (top :: more)) rfl rfl
        hchk).mp haction
      have hb : b = ⟨rest, .operator, b.nstp, popped top more⟩ := by
        cases b
        simp only at htokens' hexpect hpopped
        simp [htokens', hexpect, hpopped, popped]
      exact .next_reduce htokens h he hdemand hchk hmade hb
  | @closed ts us rest ostp nstp e htokens h he =>
    rcases next_cases hnext with ⟨input, haction, rfl⟩ | ⟨haction, hreduce⟩
    · obtain ⟨token, more, _, hinput, hcompare⟩ := action_shift haction
      exact absurd hcompare (compare_gt_ne_shift (compare_behind hinput))
    · obtain ⟨top, more, hostp, _, htokens', hexpect, hpopped⟩ := reduce_spec hreduce
      obtain ⟨rfl, rfl⟩ := List.cons.inj hostp
      cases b
      simp only at htokens' hexpect hpopped
      rw [htokens', hexpect, hpopped]
      exact .operand htokens h (.paren he) (Nat.le_succ_of_le h.demand_le) id

theorem Held.reaches (h : Held tokens a) (hreach : ReflTransGen Next a b) : Held tokens b := by
  induction hreach with
  | refl => exact h
  | tail _ hnext ih => exact ih.next hnext

theorem Held.accepted (h : Held tokens a) (htokens : tokens ≠ [])
    (haction : action a = .accept) : ∃ e, Derives true 0 tokens e := by
  obtain ⟨hnil, hostp⟩ := action_accept haction
  cases h with
  | @number ts rest ostp nstp hsplit h =>
    obtain rfl : rest = [] := hnil
    obtain rfl : ostp = [] := hostp
    cases h
    exact absurd hsplit htokens
  | @operand ts us rest ostp nstp level e hsplit h he _ _ =>
    obtain rfl : rest = [] := hnil
    obtain rfl : ostp = [] := hostp
    cases h
    obtain rfl : tokens = us := by simpa using hsplit
    exact ⟨e, he.down (Nat.zero_le _)⟩
  | closed _ _ _ => cases hostp
  | dead h =>
    rw [hostp] at h
    exact h.elim



end Read

/-!
## The whole
-/

section Whole

variable {tokens : List Token}

theorem start_held (tokens : List Token) : Held tokens (start tokens) := .number rfl .nil

theorem xpValue_ends (tokens : List Token) : ∃ o, xpValue tokens = some o := by
  unfold xpValue
  split
  · exact ⟨_, rfl⟩
  · exact turns_ends _ (by simp [Automaton.work, start])

theorem xpValue_reaches (htokens : tokens ≠ []) {o : Outcome} (h : xpValue tokens = some o) :
    ∃ a, Supplied a ∧ Held tokens a ∧ turn a = .inr o := by
  rw [xpValue, if_neg htokens] at h
  obtain ⟨a, hreach, ha⟩ := reaches_of_turns h
  exact ⟨a, (start_supplied htokens).reaches hreach, (start_held tokens).reaches hreach, ha⟩

theorem xpValue_ne_fault (tokens : List Token) : xpValue tokens ≠ some .fault := by
  intro h
  by_cases htokens : tokens = []
  · simp [xpValue, htokens] at h
  · obtain ⟨a, hsupplied, _, ha⟩ := xpValue_reaches htokens h
    exact hsupplied.turn_ne_fault ha

theorem derives_of_accepted {o : Outcome} (h : xpValue tokens = some o) (ho : o ≠ .syntaxError) :
    ∃ e, Derives true 0 tokens e := by
  by_cases htokens : tokens = []
  · simp only [xpValue, htokens, if_true, some.injEq] at h
    exact absurd h.symm ho
  · obtain ⟨a, _, hheld, ha⟩ := xpValue_reaches htokens h
    unfold turn at ha
    cases haction : action a with
    | accept => exact hheld.accepted htokens haction
    | error =>
      simp only [haction, Sum.inr.injEq] at ha
      exact absurd ha.symm ho
    | shift input => simp [haction] at ha
    | reduce =>
      cases hreduce : reduce a with
      | some b => simp [haction, hreduce] at ha
      | none =>
        simp only [haction, hreduce, Sum.inr.injEq] at ha
        exact absurd (ha ▸ h) (xpValue_ne_fault tokens)

theorem Derives.ne_nil (h : Derives loose level ts e) : ts ≠ [] := by
  induction h with
  | up _ _ ih => exact ih
  | _ => simp

def evaluated (t : Tree) : Outcome :=
  match eval t with
  | some (retval, operands) => .value t retval operands
  | none => .trap

theorem xpValue_derives (h : Derives loose 0 tokens e) :
    ∃ t, xpValue tokens = some (evaluated t) ∧ (loose = false → t = e.tree) := by
  have htokens := h.ne_nil
  obtain ⟨nstp, hleaves, hrun⟩ := reads h [] [] [] (Nat.le_refl _) (Nat.le_refl _)
  rw [List.append_nil] at hrun
  cases nstp with
  | nil => exact absurd hleaves.1 (Nat.lt_irrefl _)
  | cons t more =>
    have hturn : turn (atOperator [] (t :: more) []) = .inr (evaluated t) := by
      unfold evaluated
      cases heval : eval t <;> simp [turn, action, heval]
    refine ⟨t, ?_, fun hstrict => (List.cons.inj (hleaves.2 hstrict)).1⟩
    rw [xpValue, if_neg htokens]
    exact turns_of_reaches hrun hturn (by simp [Automaton.work, start])

theorem evaluated_ne_syntaxError (t : Tree) : evaluated t ≠ .syntaxError := by
  unfold evaluated
  split <;> simp

/-- What is accepted: the expressions, with `!` and `~` also behind an operand. -/
theorem accepted_iff (tokens : List Token) :
    (xpValue tokens ≠ some .syntaxError) ↔ ∃ e, Derives true 0 tokens e := by
  constructor
  · intro h
    obtain ⟨o, ho⟩ := xpValue_ends tokens
    exact derives_of_accepted ho fun heq => h (heq ▸ ho)
  · rintro ⟨e, he⟩
    obtain ⟨t, ht, _⟩ := xpValue_derives he
    rw [ht]
    exact fun h => evaluated_ne_syntaxError t (some.inj h)

/-- Just the expressions of C are accepted, with their values, types and evaluated operands. -/
def Right (tokens : List Token) : Prop :=
  (xpValue tokens ≠ some .syntaxError ↔ ∃ e, Derives false 0 tokens e) ∧
    ∀ e, Derives false 0 tokens e → ∃ t operands,
      xpValue tokens = some (.value t e.number operands) ∧ TypedAs t e ∧ operands.Perm e.operands

/-- The tokens are not an expression only for a `!` or `~` behind an operand; and no
`!` has an unsigned operand, no signed operand is shifted by an unsigned one, and no signed
quotient that is evaluated is too large. -/
def Fine (tokens : List Token) : Prop :=
  ((∃ e, Derives true 0 tokens e) → ∃ e, Derives false 0 tokens e) ∧
    ∀ e, Derives false 0 tokens e → e.Plain ∧ e.overflows = false

theorem Derives.loosen (h : Derives loose level ts e) : Derives true level ts e := by
  induction h with
  | constant c => exact .constant c
  | paren _ ih => exact .paren ih
  | plus _ ih => exact .plus ih
  | minus _ ih => exact .minus ih
  | ahead op _ ih => exact .ahead op ih
  | behind op _ _ _ ihd ih => exact .behind op rfl ihd ih
  | binary op _ _ ihl ihr => exact .binary op ihl ihr
  | cond _ _ _ ihc iha ihb => exact .cond ihc iha ihb
  | up hlevel _ ih => exact .up hlevel ih

theorem xpValue_expr (h : Derives false 0 tokens e) : xpValue tokens = some (evaluated e.tree) := by
  obtain ⟨t, ht, htree⟩ := xpValue_derives h
  rw [ht, htree rfl]

theorem evaluated_value {t u : Tree} {n : Word} {vs : List Word}
    (h : evaluated t = .value u n vs) : u = t ∧ eval t = some (n, vs) := by
  unfold evaluated at h
  split at h
  · rename_i hsome
    injection h with hu hn hvs
    subst hu hn hvs
    exact ⟨rfl, hsome⟩
  · cases h

theorem xpValue_right_iff (tokens : List Token) : Right tokens ↔ Fine tokens := by
  constructor
  · rintro ⟨haccepts, hvalue⟩
    refine ⟨fun hloose => haccepts.mp ((accepted_iff tokens).mpr hloose), fun e he => ?_⟩
    obtain ⟨t, operands, hresult, htyped, _⟩ := hvalue e he
    obtain ⟨rfl, heval⟩ :=
      evaluated_value (some.inj ((xpValue_expr he).symm.trans hresult))
    have hplain := (typedAs_tree e).mp htyped
    refine ⟨hplain, ?_⟩
    rcases (eval_tree hplain).cases with ⟨_, hnone⟩ | ⟨hfits, _⟩
    · rw [heval] at hnone
      cases hnone
    · exact hfits
  · rintro ⟨hstrict, hfine⟩
    refine ⟨?_, fun e he => ?_⟩
    · rw [accepted_iff]
      exact ⟨hstrict, fun ⟨e, he⟩ => ⟨e, he.loosen⟩⟩
    · obtain ⟨hplain, hfits⟩ := hfine e he
      rcases (eval_tree hplain).cases with ⟨hover, _⟩ | ⟨_, operands, heval, hperm⟩
      · rw [hfits] at hover
        cases hover
      · refine ⟨e.tree, operands, ?_, (typedAs_tree e).mpr hplain, hperm⟩
        rw [xpValue_expr he]
        simp [evaluated, heval]

/-- `!0u - 2 < 0`, which is true in C, where `!0u` is a signed one. -/
def notUnsigned : List Token :=
  [.ahead .not, .constrained (.integer 0 true), .binary .minus, .constrained (.integer 2 false),
    .binary .lessThan, .constrained (.integer 0 false)]

theorem notUnsigned_not_right : ¬ Right notUnsigned := by
  rintro ⟨_, hvalue⟩
  have hnot : Derives false 9 [.ahead .not, .constrained (.integer 0 true)]
      (.ahead .not (.constant (.integer 0 true))) :=
    (Derives.ahead .not ((Derives.constant _).down (by decide))).down (by decide)
  have hminus := Derives.binary .minus hnot ((Derives.constant (.integer 2 false)).down (by decide))
  have hless := Derives.binary .lessThan (hminus.down (by decide))
    ((Derives.constant (.integer 0 false)).down (by decide))
  obtain ⟨t, operands, hresult, _⟩ := hvalue _ (hless.down (Nat.zero_le _))
  obtain ⟨u, us, hcode⟩ : ∃ u us, xpValue notUnsigned = some (.value u 0 us) := ⟨_, _, rfl⟩
  have hzero := hcode.symm.trans hresult
  simp only [some.injEq, Outcome.value.injEq] at hzero
  exact absurd hzero.2.1 (by decide)

end Whole

end Xpr
end Svr4
