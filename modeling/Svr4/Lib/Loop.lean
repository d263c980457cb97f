import Mathlib.Logic.Basic

/-!
# Loops

A loop is given by its body, which from a state of the loop either comes to the next one
or leaves with a result.  It is run for at most so many turns; that it ends is that some
number of turns is enough.
-/

namespace Svr4
namespace Loop

variable {σ : Type*} {ρ : Type*}

def run (body : σ → σ ⊕ ρ) : Nat → σ → Option ρ
  | 0, _ => none
  | n + 1, s => (body s).elim (run body n) some

section Rules

variable {body : σ → σ ⊕ ρ} {s t : σ} {r : ρ} {n m : Nat}

theorem run_next (h : body s = .inl t) : run body (n + 1) s = run body n t := by
  show (body s).elim (run body n) some = _
  rw [h]
  rfl

theorem run_leave (h : body s = .inr r) : run body (n + 1) s = some r := by
  show (body s).elim (run body n) some = _
  rw [h]
  rfl

/-- A loop that has ended is not changed by more turns. -/
theorem run_mono (h : run body n s = some r) (hle : n ≤ m) : run body m s = some r := by
  induction n generalizing s m with
  | zero => cases h
  | succ n ih =>
    cases m with
    | zero => exact absurd hle (Nat.not_succ_le_zero n)
    | succ m =>
      cases hbody : body s with
      | inl t =>
        rw [run_next hbody] at h ⊢
        exact ih h (Nat.le_of_succ_le_succ hle)
      | inr q =>
        rw [run_leave hbody] at h ⊢
        exact h

/-- However many turns are given, the result is the same. -/
theorem run_unique {q : ρ} (h : run body n s = some r) (h' : run body m s = some q) : r = q := by
  have hr := run_mono h (Nat.le_max_left n m)
  have hq := run_mono h' (Nat.le_max_right n m)
  rw [hr] at hq
  exact Option.some.inj hq

/-- What the turns preserve holds of the state that the loop is left from. -/
theorem run_invariant {I : σ → Prop} {Q : ρ → Prop} (hnext : ∀ s t, I s → body s = .inl t → I t)
    (hleave : ∀ s r, I s → body s = .inr r → Q r) (hs : I s) (h : run body n s = some r) : Q r := by
  induction n generalizing s with
  | zero => cases h
  | succ n ih =>
    cases hbody : body s with
    | inl t =>
      rw [run_next hbody] at h
      exact ih (hnext s t hs hbody) h
    | inr q =>
      rw [run_leave hbody] at h
      cases h
      exact hleave s _ hs hbody

/-- A loop whose turns lower a measure ends within that many turns and one. -/
theorem run_of_measure {I : σ → Prop} {Q : ρ → Prop} (measure : σ → Nat)
    (hnext : ∀ s t, I s → body s = .inl t → I t ∧ measure t < measure s)
    (hleave : ∀ s r, I s → body s = .inr r → Q r)
    (hs : I s) (hn : measure s < n) : ∃ r, run body n s = some r ∧ Q r := by
  induction n generalizing s with
  | zero => exact absurd hn (Nat.not_lt_zero _)
  | succ n ih =>
    cases hbody : body s with
    | inl t =>
      rcases hnext s t hs hbody with ⟨ht, hlt⟩
      rw [run_next hbody]
      exact ih ht (Nat.lt_of_lt_of_le hlt (Nat.le_of_lt_succ hn))
    | inr r =>
      exact ⟨r, run_leave hbody, hleave s r hs hbody⟩

theorem exists_run_next {Q : ρ → Prop} (h : body s = .inl t) :
    (∃ n r, run body n s = some r ∧ Q r) ↔ ∃ n r, run body n t = some r ∧ Q r := by
  constructor
  · rintro ⟨n, r, hrun, hr⟩
    cases n with
    | zero => cases hrun
    | succ n =>
      rw [run_next h] at hrun
      exact ⟨n, r, hrun, hr⟩
  · rintro ⟨n, r, hrun, hr⟩
    exact ⟨n + 1, r, by rw [run_next h]; exact hrun, hr⟩

theorem exists_run_leave {Q : ρ → Prop} (h : body s = .inr r) :
    (∃ n q, run body n s = some q ∧ Q q) ↔ Q r := by
  constructor
  · rintro ⟨n, q, hrun, hq⟩
    cases n with
    | zero => cases hrun
    | succ n =>
      rw [run_leave h] at hrun
      rw [Option.some.inj hrun]
      exact hq
  · exact fun hr => ⟨1, r, run_leave h, hr⟩

end Rules

end Loop
end Svr4
