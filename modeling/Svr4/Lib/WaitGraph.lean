import Mathlib.Logic.Relation
import Mathlib.Tactic.SplitIfs

/-!
# Wait-for graphs

A wait-for graph is a relation between parties.  It stays acyclic when an edge
is added whose target does not lead back to its source.  Where every party
waits for one other at most, the graph can be followed from party to party; the
walk decides whether a goal is reached.
-/

namespace Svr4
namespace WaitGraph

section Edges

variable {α : Type*} {R R' : α → α → Prop} {p q : α}

def Acyclic (R : α → α → Prop) : Prop :=
  ∀ a, ¬ Relation.TransGen R a a

/-- A path with one more edge is a path without it, or leads through it. -/
theorem transGen_insert (h : ∀ a b, R' a b → R a b ∨ (a = p ∧ b = q))
    {a b : α} (hab : Relation.TransGen R' a b) :
    Relation.TransGen R a b ∨ (Relation.ReflTransGen R a p ∧ Relation.ReflTransGen R q b) := by
  induction hab with
  | single hstep =>
    rcases h _ _ hstep with hr | ⟨rfl, rfl⟩
    · exact .inl (Relation.TransGen.single hr)
    · exact .inr ⟨Relation.ReflTransGen.refl, Relation.ReflTransGen.refl⟩
  | tail _ hstep ih =>
    rcases h _ _ hstep with hr | ⟨rfl, rfl⟩
    · rcases ih with hpath | ⟨hleft, hright⟩
      · exact .inl (hpath.tail hr)
      · exact .inr ⟨hleft, hright.tail hr⟩
    · rcases ih with hpath | ⟨hleft, _⟩
      · exact .inr ⟨hpath.to_reflTransGen, Relation.ReflTransGen.refl⟩
      · exact .inr ⟨hleft, Relation.ReflTransGen.refl⟩

theorem Acyclic.mono (h : Acyclic R) (hsub : ∀ a b, R' a b → R a b) : Acyclic R' :=
  fun a hcycle => h a (Relation.TransGen.mono hsub _ _ hcycle)

theorem Acyclic.insert (hac : Acyclic R) (h : ∀ a b, R' a b → R a b ∨ (a = p ∧ b = q))
    (hback : ¬ Relation.ReflTransGen R q p) : Acyclic R' := by
  intro a hcycle
  rcases transGen_insert h hcycle with hpath | ⟨hleft, hright⟩
  · exact hac a hpath
  · exact hback (hright.trans hleft)

end Edges

/-!
## Following a graph
-/

section Follow

variable {α : Type*} [DecidableEq α] (next : α → Option α)

/-- Follow the edges from `a` to the goal, in at most `n` rounds. -/
def follow : Nat → α → α → Option Bool
  | 0, _, _ => none
  | n + 1, a, goal =>
    if a = goal then some true
    else
      match next a with
      | none => some false
      | some b => follow n b goal

def EdgeTo (goal a b : α) : Prop :=
  a ≠ goal ∧ next a = some b

variable {next} {n : Nat} {a goal : α}

theorem follow_true (h : follow next n a goal = some true) :
    Relation.ReflTransGen (EdgeTo next goal) a goal := by
  induction n generalizing a with
  | zero => cases h
  | succ n ih =>
    unfold follow at h
    split_ifs at h with heq
    · rw [heq]
    · split at h
      next => cases h
      next b hnext => exact Relation.ReflTransGen.head ⟨heq, hnext⟩ (ih h)

theorem follow_false (h : follow next n a goal = some false) :
    ¬ Relation.ReflTransGen (fun x y => next x = some y) a goal := by
  induction n generalizing a with
  | zero => cases h
  | succ n ih =>
    unfold follow at h
    split_ifs at h with heq
    · cases h
    · intro hpath
      rcases hpath.cases_head with hrefl | ⟨b, hstep, hrest⟩
      · exact heq hrefl
      · rw [hstep] at h
        exact ih h hrest

/--
A walk that reaches the goal is a walk of the subgraph `R` exactly when
every party met on the way waits in `R`.
-/
theorem follow_true_realized {R : α → α → Prop} (hsub : ∀ x y, R x y → next x = some y)
    (h : follow next n a goal = some true) :
    Relation.ReflTransGen R a goal ↔ ∀ x, Relation.ReflTransGen (EdgeTo next goal) a x → x ≠ goal →
        ∃ y, R x y := by
  constructor
  · intro hpath x hx hne
    have hahead : Relation.ReflTransGen R x goal := by
      induction hx with
      | refl => exact hpath
      | tail _ hstep ih =>
        rcases (ih hstep.1).cases_head with hrefl | ⟨z, hz, hrest⟩
        · exact absurd hrefl hstep.1
        · have heq := (hsub _ _ hz).symm.trans hstep.2
          cases heq
          exact hrest
    rcases hahead.cases_head with hrefl | ⟨y, hy, _⟩
    · exact absurd hrefl hne
    · exact ⟨y, hy⟩
  · intro hall
    have hreach : ∀ x, Relation.ReflTransGen (EdgeTo next goal) a x →
        Relation.ReflTransGen R a x := by
      intro x hx
      induction hx with
      | refl => exact Relation.ReflTransGen.refl
      | tail hpath hstep ih =>
        rcases hall _ hpath hstep.1 with ⟨z, hz⟩
        have heq := (hsub _ _ hz).symm.trans hstep.2
        cases heq
        exact ih.tail hz
    exact hreach goal (follow_true h)

/-- A walk that is not over after `n` rounds has come past `n` parties. -/
theorem follow_none (hac : Acyclic fun x y => next x = some y) (h : follow next n a goal = none) :
    ∃ l : List α, l.length = n ∧ l.Nodup ∧ ∀ x ∈ l,
      Relation.ReflTransGen (fun x y => next x = some y) a x ∧ next x ≠ none := by
  induction n generalizing a with
  | zero => exact ⟨[], rfl, List.nodup_nil, by simp⟩
  | succ n ih =>
    unfold follow at h
    split_ifs at h with heq
    · split at h
      next => cases h
      next b hnext =>
        rcases ih h with ⟨l, hlen, hnodup, hl⟩
        refine ⟨a :: l, by simp [hlen], List.nodup_cons.mpr ⟨fun hmem => ?_, hnodup⟩,
          fun x hx => ?_⟩
        · exact hac a (Relation.TransGen.head' hnext (hl a hmem).1)
        · rcases List.mem_cons.mp hx with rfl | hin
          · exact ⟨Relation.ReflTransGen.refl, by simp [hnext]⟩
          · exact ⟨Relation.ReflTransGen.head hnext (hl x hin).1, (hl x hin).2⟩

/--
A walk of an acyclic graph is over after as many rounds as there are parties that
wait, and one more.
-/
theorem follow_ends (hac : Acyclic fun x y => next x = some y) {w : List α}
    (hwaiting : ∀ x, next x ≠ none → x ∈ w) (a goal : α) :
    follow next (w.length + 1) a goal ≠ none := by
  intro h
  rcases follow_none hac h with ⟨l, hlen, hnodup, hl⟩
  have hsub : l ⊆ w := fun x hx => hwaiting x (hl x hx).2
  have hle := List.Nodup.length_le_of_subset hnodup hsub
  omega

/-- A walk never ends among parties that all wait for one another. -/
theorem follow_caught {s : α → Prop} (hnext : ∀ x, s x → x ≠ goal ∧ ∃ y, next x = some y ∧ s y)
    (n : Nat) (ha : s a) : follow next n a goal = none := by
  induction n generalizing a with
  | zero => rfl
  | succ n ih =>
    rcases hnext a ha with ⟨hne, b, hb, hin⟩
    unfold follow
    rw [if_neg hne, hb]
    exact ih hin

/-- The edges of one party are taken away, but for one that does not lead back. -/
theorem Acyclic.reroute {next' : α → Option α} {p : α} (hac : Acyclic fun x y => next x = some y)
    (hsame : ∀ x, x ≠ p → next' x = next x)
    (hback : ∀ q, next' p = some q → ¬ Relation.ReflTransGen (fun x y => next x = some y) q p) :
    Acyclic fun x y => next' x = some y := by
  cases hp : next' p with
  | none =>
    refine hac.mono fun a b hab => ?_
    rwa [← hsame a fun heq => by rw [heq, hp] at hab; cases hab]
  | some q =>
    refine hac.insert (fun a b hab => ?_) (hback q hp)
    by_cases ha : a = p
    · rw [ha, hp] at hab
      cases hab
      exact .inr ⟨ha, rfl⟩
    · exact .inl ((hsame a ha).symm.trans hab)

end Follow

end WaitGraph
end Svr4
