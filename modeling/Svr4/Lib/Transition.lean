import Mathlib.Logic.Relation

/-!
# Labelled transition systems

A system is given by its initial states and a labelled step relation.  A run is
a finite sequence of steps from an initial state; a run may also be required to
meet a condition on every step it takes.  The invariant rules of this module
are the only inductions over runs the development needs.
-/

namespace Svr4
namespace Transition

variable {σ : Type*} {ε : Type*}

/-- States reached by steps that all meet the condition `ok`. -/
def ReachableWhen (init : σ → Prop) (step : σ → ε → σ → Prop)
    (ok : σ → ε → Prop) (s : σ) : Prop :=
  ∃ s₀, init s₀ ∧ Relation.ReflTransGen (fun t u => ∃ e, ok t e ∧ step t e u) s₀ s

def Reachable (init : σ → Prop) (step : σ → ε → σ → Prop) (s : σ) : Prop :=
  ReachableWhen init step (fun _ _ => True) s

section Rules

variable {init : σ → Prop} {step : σ → ε → σ → Prop} {ok : σ → ε → Prop}

theorem ReachableWhen.start {s : σ} (hs : init s) : ReachableWhen init step ok s :=
  ⟨s, hs, Relation.ReflTransGen.refl⟩

theorem ReachableWhen.next {s t : σ} {e : ε}
    (hs : ReachableWhen init step ok s) (hok : ok s e) (hstep : step s e t) :
    ReachableWhen init step ok t := by
  rcases hs with ⟨s₀, hinit, hrun⟩
  exact ⟨s₀, hinit, hrun.tail ⟨e, hok, hstep⟩⟩

/-- An invariant of the initial states that the admitted steps preserve. -/
theorem ReachableWhen.invariant {I : σ → Prop} (hinit : ∀ s, init s → I s)
    (hstep : ∀ s e t, I s → ok s e → step s e t → I t)
    {s : σ} (hs : ReachableWhen init step ok s) : I s := by
  rcases hs with ⟨s₀, h₀, hrun⟩
  induction hrun with
  | refl => exact hinit s₀ h₀
  | tail _ hlast ih =>
    rcases hlast with ⟨e, hok, he⟩
    exact hstep _ e _ ih hok he

theorem Reachable.start {s : σ} (hs : init s) : Reachable init step s :=
  ReachableWhen.start hs

theorem Reachable.next {s t : σ} {e : ε} (hs : Reachable init step s)
    (hstep : step s e t) : Reachable init step t :=
  ReachableWhen.next hs trivial hstep

/-- An invariant of the initial states that every step preserves. -/
theorem Reachable.invariant {I : σ → Prop} (hinit : ∀ s, init s → I s)
    (hstep : ∀ s e t, I s → step s e t → I t) {s : σ} (hs : Reachable init step s) : I s :=
  ReachableWhen.invariant hinit (fun s e t hinv _ he => hstep s e t hinv he) hs

theorem ReachableWhen.reachable {s : σ} (hs : ReachableWhen init step ok s) :
    Reachable init step s := by
  rcases hs with ⟨s₀, hinit, hrun⟩
  have hweaken : ∀ t u, (∃ e, ok t e ∧ step t e u) → ∃ e, True ∧ step t e u := by
    rintro t u ⟨e, _, he⟩
    exact ⟨e, trivial, he⟩
  exact ⟨s₀, hinit, Relation.ReflTransGen.mono hweaken _ _ hrun⟩

end Rules

end Transition
end Svr4
