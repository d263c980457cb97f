import Mathlib.Data.Fintype.Powerset
import Mathlib.Data.Finite.Prod
import Svr4.Lib.Loop

/-!
# Live registers

`ldanal` of the optimizer (`optim/common/optim.c`).  A set of registers is a mask
with a bit for each; the blocks are numbered in their order in the text.
-/

namespace Svr4
namespace Optim

open Function Finset

/-- The kinds of instructions that `isbr`, `isuncbr` and `isret` tell apart:
a return, another unconditional branch, a conditional one. -/
inductive Op where
  | other
  | ret
  | jmp
  | cond
deriving DecidableEq

/-- An instruction, with what `uses` and `sets` say of it. -/
structure Node (R : Type) where
  op : Op
  uses : Finset R
  sets : Finset R

/-- The instructions are those behind the labels. -/
structure Block (R : Type) (n : Nat) where
  nodes : List (Node R)
  nextl : Option (Fin n)
  nextr : Option (Fin n)

/-- `op` of `lastn`, which is a label where there is no instruction. -/
def Block.lastOp {R : Type} {n : Nat} (b : Block R n) : Op := (b.nodes.getLast?).elim .other (·.op)

/-- The flow graph, with the registers that are always live, and those that return a value.
`bldgr` gives a return no successor. -/
structure Graph (R : Type) (n : Nat) where
  block : Fin n → Block R n
  returns : ∀ i, (block i).lastOp = .ret → (block i).nextl = none ∧ (block i).nextr = none
  LIVEREGS : Finset R
  RETREG : Finset R

/-- `bin` and `bout` of each block. -/
abbrev Flow (R : Type) (n : Nat) := Fin n → Finset R × Finset R

section

variable {R : Type} [Fintype R] [DecidableEq R] {n : Nat}

def REGS : Finset R := Finset.univ

namespace Graph

variable (g : Graph R n)

/-- `nlive` of the second step. -/
def nlive (p : Node R) : Finset R := p.uses ∪ g.LIVEREGS

def ndead (p : Node R) : Finset R := p.sets \ g.nlive p

/-- `buses` and `bdef` of a block, from its last instruction on. -/
def summary : List (Node R) → Finset R × Finset R
  | [] => (∅, ∅)
  | p :: rest =>
    let s := summary rest
    ((g.nlive p ∪ (s.1 \ g.ndead p)) ∩ REGS, (g.ndead p ∪ (s.2 \ g.nlive p)) ∩ REGS)

def out (f : Flow R n) (b : Block R n) : Finset R :=
  if b.nextr = none ∧ (b.nextl = none ∨ b.lastOp = .cond) then
    if b.lastOp = .ret then g.RETREG else REGS
  else b.nextr.elim ∅ (fun i => (f i).1) ∪ b.nextl.elim ∅ (fun i => (f i).1)

def inOut (f : Flow R n) (i : Fin n) : Finset R × Finset R :=
  let out := g.out f (g.block i)
  let s := g.summary (g.block i).nodes
  ((out \ s.2) ∪ s.1, out)

/-- One turn of the inner loop, with `changed`. -/
def turn (fc : Flow R n × Bool) (i : Fin n) : Flow R n × Bool :=
  if g.inOut fc.1 i ≠ fc.1 i then (update fc.1 i (g.inOut fc.1 i), true) else fc

def pass (f : Flow R n) : Flow R n ⊕ Flow R n :=
  let fc := (List.finRange n).foldl g.turn (f, false)
  if fc.2 then .inl fc.1 else .inr fc.1

/-- The last step: `nlive` of each instruction, and what is live before them. -/
def finish : List (Node R) → Finset R → List (Finset R) × Finset R
  | [], live => ([], live)
  | p :: rest, live =>
    let r := finish rest live
    (r.2 :: r.1, (g.nlive p ∪ (r.2 \ g.ndead p)) ∩ REGS)

/-- `ldanal`, with so many turns of the loop at most: `nlive` of the instructions of
each block. -/
def ldanal (k : Nat) : Option (Fin n → List (Finset R)) :=
  (Loop.run g.pass k fun _ => (∅, ∅)).map fun f i =>
    (g.finish (g.block i).nodes (f i).2).1

/-- Some path uses the register before it sets it, from such instructions of a block on. -/
inductive Needs (r : R) : List (Node R) → Fin n → Prop where
  | use {p : Node R} {rest : List (Node R)} {i : Fin n} :
      r ∈ p.uses → Needs r (p :: rest) i
  | skip {p : Node R} {rest : List (Node R)} {i : Fin n} :
      r ∉ p.sets → Needs r rest i → Needs r (p :: rest) i
  | left {i j : Fin n} :
      (g.block i).nextl = some j → Needs r (g.block j).nodes j → Needs r [] i
  | right {i j : Fin n} :
      (g.block i).nextr = some j → Needs r (g.block j).nodes j → Needs r [] i
  | ret {i : Fin n} :
      (g.block i).lastOp = .ret → r ∈ g.RETREG → Needs r [] i
  | unknown {i : Fin n} :
      (g.block i).nextl = none → (g.block i).nextr = none → (g.block i).lastOp ≠ .ret →
      Needs r [] i
  | target {i : Fin n} :
      (g.block i).nextr = none → (g.block i).lastOp = .cond → Needs r [] i

/-!
## The loop
-/

section Loop

variable {g} {f f' : Flow R n}

theorem out_mono (h : f ≤ f') (b : Block R n) : g.out f b ≤ g.out f' b := by
  have hbin : ∀ o : Option (Fin n), o.elim ∅ (fun i => (f i).1) ⊆ o.elim ∅ fun i => (f' i).1 := by
    intro o
    cases o with
    | none => exact Finset.Subset.refl ∅
    | some i => exact (h i).1
  rw [out, out]
  split
  · exact le_refl _
  · exact union_subset_union (hbin b.nextr) (hbin b.nextl)

theorem inOut_mono (h : f ≤ f') (i : Fin n) : g.inOut f i ≤ g.inOut f' i :=
  ⟨union_subset_union_left (sdiff_subset_sdiff (out_mono h _) (le_refl _)),
    out_mono h _⟩

def Ascending (g : Graph R n) (f : Flow R n) : Prop := ∀ i, f i ≤ g.inOut f i

theorem turn_spec (h : g.Ascending f) (c : Bool) (i : Fin n) :
    g.turn (f, c) i = (f, c) ∧ g.inOut f i = f i ∨
      (g.turn (f, c) i).2 = true ∧ f < (g.turn (f, c) i).1 ∧ g.Ascending (g.turn (f, c) i).1 := by
  rw [turn]
  split
  · next hne =>
      have hle : f ≤ update f i (g.inOut f i) := le_update_self_iff.mpr (h i)
      refine .inr ⟨rfl, lt_of_le_of_ne hle fun heq => hne ?_, fun j => ?_⟩
      · have hi := congrFun heq i
        exact (hi.trans (update_self ..)).symm
      · refine le_trans ?_ (inOut_mono hle j)
        by_cases hj : j = i
        · rw [hj]
          exact le_of_eq (update_self ..)
        · show update f i _ j ≤ _
          rw [update_of_ne hj]
          exact h j
  · next heq => exact .inl ⟨rfl, not_not.mp heq⟩

theorem turns_spec (h : g.Ascending f) (c : Bool) (l : List (Fin n)) :
    l.foldl g.turn (f, c) = (f, c) ∧ (∀ i ∈ l, g.inOut f i = f i) ∨
      (l.foldl g.turn (f, c)).2 = true ∧ f < (l.foldl g.turn (f, c)).1 ∧
        g.Ascending (l.foldl g.turn (f, c)).1 := by
  induction l generalizing f c with
  | nil => exact .inl ⟨rfl, fun i hi => absurd hi List.not_mem_nil⟩
  | cons i l ih =>
    rw [List.foldl_cons]
    rcases turn_spec h c i with ⟨hsame, hi⟩ | ⟨hc, hlt, hasc⟩
    · rw [hsame]
      rcases ih h c with ⟨hl, hall⟩ | hl
      · exact .inl ⟨hl, List.forall_mem_cons.mpr ⟨hi, hall⟩⟩
      · exact .inr hl
    · right
      rcases ih hasc (g.turn (f, c) i).2 with ⟨hl, -⟩ | ⟨hc', hlt', hasc'⟩
      · rw [show g.turn (f, c) i = ((g.turn (f, c) i).1, (g.turn (f, c) i).2) from rfl, hl]
        exact ⟨hc, hlt, hasc⟩
      · exact ⟨hc', lt_trans hlt hlt', hasc'⟩

theorem pass_spec (h : g.Ascending f) : g.pass f = .inr f ∧ (∀ i, g.inOut f i = f i) ∨
      ∃ f', g.pass f = .inl f' ∧ f < f' ∧ g.Ascending f' := by
  rw [pass]
  rcases turns_spec h false (List.finRange n) with ⟨hsame, hall⟩ | ⟨hc, hlt, hasc⟩
  · rw [hsame]
    exact .inl ⟨rfl, fun i => hall i (List.mem_finRange i)⟩
  · exact .inr ⟨_, if_pos hc, hlt, hasc⟩

theorem run_pass (h : g.Ascending f) :
    ∃ k f', Loop.run g.pass k f = some f' ∧ ∀ i, g.inOut f' i = f' i := by
  induction f using WellFoundedGT.induction with
  | ind f ih =>
    rcases pass_spec h with ⟨hleave, hfix⟩ | ⟨f', hnext, hlt, hasc⟩
    · exact (Loop.exists_run_leave hleave).mpr hfix
    · exact (Loop.exists_run_next hnext).mpr (ih f' hlt hasc)

end Loop

/-!
## The live registers
-/

variable {g} {f : Flow R n} {r : R}

theorem finish_subset (nodes : List (Node R)) (live : Finset R) :
    (g.finish nodes live).2 ⊆ (live \ (g.summary nodes).2) ∪ (g.summary nodes).1 := by
  induction nodes with
  | nil => simp [finish, summary]
  | cons p rest ih =>
    intro r hr
    have hcase : r ∈ (g.finish rest live).2 →
        r ∈ live ∧ r ∉ (g.summary rest).2 ∨ r ∈ (g.summary rest).1 := by
      intro h
      simpa using ih h
    simp only [finish, summary, REGS, inter_univ, mem_union, mem_sdiff] at hr ⊢
    tauto

theorem mem_finish_of_needs (hfix : ∀ i, g.inOut f i = f i) {rest : List (Node R)} {i : Fin n}
    (h : g.Needs r rest i) : r ∈ (g.finish rest (f i).2).2 := by
  have hout : ∀ i, (f i).2 = g.out f (g.block i) := fun i => (congrArg Prod.snd (hfix i)).symm
  have hin : ∀ j, r ∈ (g.finish (g.block j).nodes (f j).2).2 → r ∈ (f j).1 := by
    intro j hj
    have hmem := finish_subset _ _ hj
    rw [hout j] at hmem
    rw [← hfix j]
    exact hmem
  induction h with
  | use huse => simp [finish, nlive, REGS, huse]
  | skip hset hneeds ih =>
    have hdead : r ∉ g.ndead _ := fun h => hset (mem_sdiff.mp h).1
    simp only [finish, REGS, inter_univ, mem_union, mem_sdiff]
    exact .inr ⟨ih, hdead⟩
  | @left i j hj hneeds ih =>
    rw [hout, out]
    split
    · next hopen =>
        split
        · next hret => simp [(g.returns i hret).1] at hj
        · exact mem_univ r
    · exact mem_union_right _ (hj ▸ hin j ih)
  | @right i j hj hneeds ih =>
    rw [hout, out, if_neg fun h => by simp [hj] at h]
    exact mem_union_left _ (hj ▸ hin j ih)
  | @ret i hret hr =>
    have hnone := g.returns i hret
    rw [hout, out, if_pos ⟨hnone.2, .inl hnone.1⟩, if_pos hret]
    exact hr
  | @unknown i hl hr hret =>
    rw [hout, out, if_pos ⟨hr, .inl hl⟩, if_neg hret]
    exact mem_univ r
  | @target i hr hcond =>
    rw [hout, out, if_pos ⟨hr, .inr hcond⟩, if_neg fun h => by simp [hcond] at h]
    exact mem_univ r

theorem finish_get (front : List (Node R)) (p : Node R) (rest : List (Node R)) (live : Finset R) :
    (g.finish (front ++ p :: rest) live).1[front.length]? = some (g.finish rest live).2 := by
  induction front with
  | nil => rfl
  | cons q front ih => exact ih

/-- `ldanal` ends, and `nlive` of an instruction has every register that is needed
behind it. -/
theorem ldanal_sound (g : Graph R n) :
    ∃ k lives, g.ldanal k = some lives ∧ ∀ i front p rest, (g.block i).nodes = front ++ p :: rest →
        ∃ live, (lives i)[front.length]? = some live ∧ ∀ r, g.Needs r rest i → r ∈ live := by
  have hbottom : g.Ascending fun _ => (∅, ∅) :=
    fun _ => ⟨empty_subset _, empty_subset _⟩
  rcases run_pass hbottom with ⟨k, f, hrun, hfix⟩
  refine ⟨k, _, congrArg (Option.map _) hrun, fun i front p rest hnodes => ?_⟩
  refine ⟨(g.finish rest (f i).2).2, ?_, fun r hr => mem_finish_of_needs hfix hr⟩
  dsimp only
  rw [hnodes, finish_get]

/-!
## Nothing else is live
-/

/-- The registers of `bin` and `bout` are needed, beside those that are always live. -/
def Justified (g : Graph R n) (f : Flow R n) : Prop :=
  ∀ r ∉ g.LIVEREGS, ∀ i, (r ∈ (f i).1 → g.Needs r (g.block i).nodes i) ∧
    (r ∈ (f i).2 → g.Needs r [] i)

omit [Fintype R] in
theorem mem_nlive (hr : r ∉ g.LIVEREGS) {p : Node R} (h : r ∈ g.nlive p) : r ∈ p.uses :=
  (mem_union.mp h).resolve_right hr

omit [Fintype R] in
theorem needs_cons (hr : r ∉ g.LIVEREGS) {p : Node R} {rest : List (Node R)} {i : Fin n}
    (hdead : r ∉ g.ndead p) (h : g.Needs r rest i) : g.Needs r (p :: rest) i := by
  by_cases hlive : r ∈ g.nlive p
  · exact .use (mem_nlive hr hlive)
  · exact .skip (fun hset => hdead (mem_sdiff.mpr ⟨hset, hlive⟩)) h

theorem needs_of_summary (hr : r ∉ g.LIVEREGS) (nodes : List (Node R)) (i : Fin n) :
    (r ∈ (g.summary nodes).1 → g.Needs r nodes i) ∧
      (r ∉ (g.summary nodes).2 → g.Needs r [] i → g.Needs r nodes i) := by
  induction nodes with
  | nil => exact ⟨fun h => absurd h (notMem_empty r), fun _ h => h⟩
  | cons p rest ih =>
    simp only [summary, REGS, inter_univ, mem_union, mem_sdiff, not_or, not_and, not_not]
    constructor
    · rintro (huse | ⟨hbelow, hdead⟩)
      · exact .use (mem_nlive hr huse)
      · exact needs_cons hr hdead (ih.1 hbelow)
    · rintro ⟨hdead, hbelow⟩ hneeds
      by_cases hlive : r ∈ g.nlive p
      · exact .use (mem_nlive hr hlive)
      · exact needs_cons hr hdead (ih.2 (fun h => hlive (hbelow h)) hneeds)

theorem Justified.inOut (h : g.Justified f) (hr : r ∉ g.LIVEREGS) (i : Fin n) :
    (r ∈ (g.inOut f i).1 → g.Needs r (g.block i).nodes i) ∧
      (r ∈ (g.inOut f i).2 → g.Needs r [] i) := by
  have hout : r ∈ g.out f (g.block i) → g.Needs r [] i := by
    unfold out
    split
    · next hopen =>
      split
      · next hret => exact .ret hret
      · next hret =>
        intro _
        rcases hopen.2 with hnone | hcond
        · exact .unknown hnone hopen.1 hret
        · exact .target hopen.1 hcond
    · intro hmem
      rcases mem_union.mp hmem with hmem | hmem
      · cases hj : (g.block i).nextr with
        | none => simp [hj] at hmem
        | some j => exact .right hj ((h r hr j).1 (by simpa [hj] using hmem))
      · cases hj : (g.block i).nextl with
        | none => simp [hj] at hmem
        | some j => exact .left hj ((h r hr j).1 (by simpa [hj] using hmem))
  refine ⟨fun hmem => ?_, hout⟩
  rcases mem_union.mp hmem with hmem | hmem
  · rcases mem_sdiff.mp hmem with ⟨hmem, hdef⟩
    exact (needs_of_summary hr _ i).2 hdef (hout hmem)
  · exact (needs_of_summary hr _ i).1 hmem

theorem Justified.turns (h : g.Justified f) (c : Bool) (l : List (Fin n)) :
    g.Justified (l.foldl g.turn (f, c)).1 := by
  induction l generalizing f c with
  | nil => exact h
  | cons i l ih =>
    refine ih (f := (g.turn (f, c) i).1) (c := (g.turn (f, c) i).2) ?_
    unfold turn
    split
    · intro r hr j
      by_cases hj : j = i
      · subst hj
        simpa only [update_self] using h.inOut hr j
      · simpa only [update_of_ne hj] using h r hr j
    · exact h

theorem needs_of_mem_finish (hr : r ∉ g.LIVEREGS) {live : Finset R} {i : Fin n}
    (hlive : r ∈ live → g.Needs r [] i) (nodes : List (Node R)) (h : r ∈ (g.finish nodes live).2) :
    g.Needs r nodes i := by
  induction nodes with
  | nil => exact hlive h
  | cons p rest ih =>
    simp only [finish, REGS, inter_univ, mem_union, mem_sdiff] at h
    rcases h with huse | ⟨hbelow, hdead⟩
    · exact .use (mem_nlive hr huse)
    · exact needs_cons hr hdead (ih hbelow)

/-- Where `ldanal` ends, `nlive` of an instruction has just the registers that are
needed behind it, beside those that are always live. -/
theorem ldanal_exact (g : Graph R n) : ∃ lives, (∃ k, g.ldanal k = some lives) ∧
    ∀ i front p rest, (g.block i).nodes = front ++ p :: rest →
      ∃ live, (lives i)[front.length]? = some live ∧
        ∀ r ∉ g.LIVEREGS, (r ∈ live ↔ g.Needs r rest i) := by
  have hbottom : g.Ascending fun _ => (∅, ∅) :=
    fun _ => ⟨empty_subset _, empty_subset _⟩
  rcases run_pass hbottom with ⟨k, f, hrun, hfix⟩
  have hjust : g.Justified f := by
    refine Loop.run_invariant (I := g.Justified) (fun s t hs hst => ?_) (fun s t hs hst => ?_)
      (fun r hr i => ⟨fun h => absurd h (notMem_empty r), fun h => absurd h (notMem_empty r)⟩) hrun
    all_goals
      have hturns := hs.turns false (List.finRange n)
      unfold pass at hst
      dsimp only at hst
      split at hst <;> cases hst
      exact hturns
  refine ⟨_, ⟨k, congrArg (Option.map _) hrun⟩, fun i front p rest hnodes => ?_⟩
  refine ⟨(g.finish rest (f i).2).2, ?_, fun r hr => ⟨?_, mem_finish_of_needs hfix⟩⟩
  · dsimp only
    rw [hnodes, finish_get]
  · exact needs_of_mem_finish hr (hjust r hr i).2 rest

end Graph

end

end Optim
end Svr4
