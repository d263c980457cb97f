import Svr4.Mux.Graph

/-!
# The search for a cycle

The walk of `linkcycle` is a search in depth.  The nodes that it has entered
and not yet left form a path from the lower node to the current one, with the
origin pointers back along it; of the edges of a visited node those before the
start pointer lead to visited nodes.
-/

namespace Svr4
namespace Mux

open Function List
variable {u : Nat}

namespace System

open WaitGraph Relation

variable {s t : System} {out rest : Nat → List Nat} {path : List Nat}
  {up lo np n : Nat}

def Lists (s : System) (out : Nat → List Nat) : Prop :=
  ∀ u, Chain s.meNextp (s.mnOutp u) (out u) none

theorem Lists.edge_iff (h : s.Lists out) {v : Nat} : s.Edge u v ↔ ∃ e ∈ out u, s.meNodep e = v := by
  constructor
  · rintro ⟨l, hl, he⟩
    rwa [hl.unique (h u)] at he
  · exact fun he => ⟨out u, h u, he⟩

/-- The state of the search at the node `np`, which was reached along `path`. -/
structure Searching (s : System) (out : Nat → List Nat) (up lo np : Nat)
    (path : List Nat) (rest : Nat → List Nat) : Prop where
  lists : s.Lists out
  stack : Chain s.mnOriginp (some np) (np :: path) none
  edges : List.IsChain (fun a b => s.Edge b a) (np :: path)
  last : (np :: path).getLast? = some lo
  entered : ∀ u ∈ path, s.visited u = true
  reached : ∀ u, s.visited u = true ∨ u = np → s.Reaches lo u
  start : ∀ u, s.visited u = true → Chain s.meNextp (s.mnStartp u) (rest u) none
  split : ∀ u, s.visited u = true → ∃ done, out u = done ++ rest u ∧
    ∀ e ∈ done, s.visited (s.meNodep e) = true ∨ s.meNodep e = np
  finished : ∀ u, s.visited u = true → u ∉ np :: path → rest u = []
  missed : ∀ u, s.visited u = true → u ≠ up
  leftover : ∀ u, s.Reaches lo u → out u = [] → s.mnStartp u = none

/-- The search leaves the graph as it is. -/
structure SameGraph (s t : System) : Prop where
  cdevcnt : t.cdevcnt = s.cdevcnt
  outp : t.mnOutp = s.mnOutp
  nodep : t.meNodep = s.meNodep
  nextp : t.meNextp = s.meNextp
  muxid : t.meMuxid = s.meMuxid
  allocated : t.allocated = s.allocated
  links : t.links = s.links

theorem SameGraph.refl (s : System) : SameGraph s s :=
  ⟨rfl, rfl, rfl, rfl, rfl, rfl, rfl⟩

theorem SameGraph.trans {u : System} (h : SameGraph s t) (h' : SameGraph t u) : SameGraph s u :=
  ⟨h'.cdevcnt.trans h.cdevcnt, h'.outp.trans h.outp, h'.nodep.trans h.nodep,
    h'.nextp.trans h.nextp, h'.muxid.trans h.muxid, h'.allocated.trans h.allocated,
    h'.links.trans h.links⟩

theorem SameGraph.edge (h : SameGraph s t) : t.Edge = s.Edge := by
  unfold Edge
  rw [h.outp, h.nextp, h.nodep]

theorem SameGraph.reaches (h : SameGraph s t) : t.Reaches = s.Reaches := by
  unfold Reaches
  rw [h.edge]

/-!
## One turn
-/

theorem Searching.start_rest (h : s.Searching out up lo np path rest) (hu : s.visited u = true)
    (hnone : s.mnStartp u = none) : rest u = [] := by
  have hchain := h.start u hu
  rw [hnone] at hchain
  cases hrest : rest u with
  | nil => rfl
  | cons e l =>
    rw [hrest] at hchain
    cases hchain.1

theorem Searching.path_reaches (h : s.Searching out up lo np path rest) :
    ∀ u ∈ np :: path, s.Reaches u np := by
  have hedges := h.edges
  have hgeneral : ∀ (l : List Nat) (a : Nat),
      List.IsChain (fun a b => s.Edge b a) (a :: l) → ∀ u ∈ a :: l, s.Reaches u a := by
    intro l
    induction l with
    | nil =>
      intro a _ u hu
      rw [mem_singleton.mp hu]
      exact ReflTransGen.refl
    | cons b l ih =>
      intro a hchain u hu
      rw [isChain_cons_cons] at hchain
      rcases mem_cons.mp hu with rfl | hu
      · exact ReflTransGen.refl
      · exact (ih b hchain.2 u hu).tail hchain.1
  exact hgeneral path np hedges

theorem Searching.back {p : Nat} (h : s.Searching out up lo np (p :: path) rest)
    (hvisited : s.visited np = true) (hrest : rest np = []) :
    s.Searching out up lo p path rest where
  lists := h.lists
  stack := by
    have hstack := h.stack.2
    rwa [hstack.1] at hstack
  edges := (isChain_cons_cons.mp h.edges).2
  last := by
    have hlast := h.last
    rwa [getLast?_cons_cons] at hlast
  entered u hu := h.entered u (mem_cons_of_mem p hu)
  reached u hu := by
    rcases hu with hu | rfl
    · exact h.reached u (.inl hu)
    · exact h.reached u (.inl (h.entered u mem_cons_self))
  start := h.start
  split u hu := by
    rcases h.split u hu with ⟨done, hout, hdone⟩
    refine ⟨done, hout, fun e he => ?_⟩
    rcases hdone e he with hseen | hnp
    · exact .inl hseen
    · rw [hnp]
      exact .inl hvisited
  finished u hu hnot := by
    by_cases hnp : u = np
    · rw [hnp]
      exact hrest
    · refine h.finished u hu ?_
      intro hmem
      rcases mem_cons.mp hmem with heq | hmem
      · exact hnp heq
      · exact hnot hmem
  missed := h.missed
  leftover := h.leftover

theorem Searching.done (h : s.Searching out up lo np [] rest)
    (hvisited : s.visited np = true) (hrest : rest np = []) : ¬ s.Reaches lo up := by
  have hlo : np = lo := by
    have hlast := h.last
    exact Option.some.inj hlast
  have hclosed : ∀ u v, s.visited u = true → s.Edge u v → s.visited v = true := by
    intro u v hu hedge
    rcases h.lists.edge_iff.mp hedge with ⟨e, he, rfl⟩
    rcases h.split u hu with ⟨done, hout, hdone⟩
    have hempty : rest u = [] := by
      by_cases hnp : u = np
      · rw [hnp]
        exact hrest
      · exact h.finished u hu (by simpa using hnp)
    rw [hout, hempty, append_nil] at he
    rcases hdone e he with hseen | hnp
    · exact hseen
    · rw [hnp]
      exact hvisited
  intro hpath
  have hseen : ∀ v, s.Reaches lo v → s.visited v = true := by
    intro v hv
    induction hv with
    | refl =>
      rw [← hlo]
      exact hvisited
    | tail _ hedge ih => exact hclosed _ _ ih hedge
  exact h.missed up (hseen up hpath) rfl

theorem Searching.visit (h : s.Searching out up lo np path rest)
    (hfresh : s.visited np = false) (hup : np ≠ up) {f : Nat → Option Nat}
    (hself : f np = s.mnOutp np) (hother : ∀ u, u ≠ np → f u = s.mnStartp u) : Searching { s with
      visited := update s.visited np true
      mnStartp := f } out up lo np path (update rest np (out np)) := by
  have hseen : ∀ u, update s.visited np true u = true → u ≠ np → s.visited u = true := by
    intro u hu hne
    rwa [update_of_ne hne] at hu
  have hkeep : ∀ u, s.visited u = true ∨ u = np → update s.visited np true u = true := by
    intro u hu
    by_cases hne : u = np
    · rw [hne, update_self]
    · rw [update_of_ne hne]
      exact hu.resolve_right hne
  refine ⟨h.lists, h.stack, h.edges, h.last, ?_, ?_, ?_, ?_, ?_, ?_, ?_⟩
  · exact fun u hu => hkeep u (.inl (h.entered u hu))
  · intro u hu
    by_cases hne : u = np
    · exact h.reached u (.inr hne)
    · exact h.reached u (.inl (hseen u (hu.resolve_right hne) hne))
  · intro u hu
    by_cases hne : u = np
    · subst hne
      dsimp only
      rw [update_self, hself]
      exact h.lists u
    · dsimp only
      rw [update_of_ne hne, hother u hne]
      exact h.start u (hseen u hu hne)
  · intro u hu
    by_cases hne : u = np
    · subst hne
      rw [update_self]
      exact ⟨[], rfl, by simp⟩
    · rw [update_of_ne hne]
      rcases h.split u (hseen u hu hne) with ⟨done, hout, hdone⟩
      exact ⟨done, hout, fun e he => .inl (hkeep _ (hdone e he))⟩
  · intro u hu hnot
    have hne : u ≠ np := by
      rintro rfl
      exact hnot mem_cons_self
    rw [update_of_ne hne]
    exact h.finished u (hseen u hu hne) hnot
  · intro u hu
    by_cases hne : u = np
    · rw [hne]
      exact hup
    · exact h.missed u (hseen u hu hne)
  · intro u hu hempty
    by_cases hne : u = np
    · subst hne
      have hnil := h.lists u
      rw [hempty] at hnil
      exact hself.trans hnil
    · exact (hother u hne).trans (h.leftover u hu hempty)

theorem Searching.follow {ep : Nat} {l : List Nat}
    (h : s.Searching out up lo np path rest) (hac : Acyclic s.Edge)
    (hvisited : s.visited np = true) (hrest : rest np = ep :: l) : Searching { s with
      mnStartp := update s.mnStartp np (s.meNextp ep)
      mnOriginp := update s.mnOriginp (s.meNodep ep) (some np) }
      out up lo (s.meNodep ep) (np :: path) (update rest np l) := by
  rcases h.split np hvisited with ⟨done, hout, hdone⟩
  have hedge : s.Edge np (s.meNodep ep) := by
    refine h.lists.edge_iff.mpr ⟨ep, ?_, rfl⟩
    rw [hout, hrest]
    simp
  -- The target is not on the path, which leads to the source of the edge.
  have hoff : s.meNodep ep ∉ np :: path := by
    intro hmem
    exact hac _ (Relation.TransGen.tail' (h.path_reaches _ hmem) hedge)
  refine ⟨h.lists, ⟨rfl, ?_⟩, isChain_cons_cons.mpr ⟨hedge, h.edges⟩, ?_, ?_, ?_,
    ?_, ?_, ?_, h.missed, ?_⟩
  · dsimp only
    rw [update_self]
    exact h.stack.update_of_notMem hoff
  · exact h.last
  · intro u hu
    rcases mem_cons.mp hu with rfl | hu
    · exact hvisited
    · exact h.entered u hu
  · intro u hu
    rcases hu with hu | rfl
    · exact h.reached u (.inl hu)
    · exact (h.reached np (.inr rfl)).tail hedge
  · intro u hu
    have hchain := h.start u hu
    by_cases hne : u = np
    · subst hne
      dsimp only
      rw [update_self, update_self]
      rw [hrest] at hchain
      exact hchain.2
    · dsimp only
      rw [update_of_ne hne, update_of_ne hne]
      exact hchain
  · intro u hu
    by_cases hne : u = np
    · subst hne
      rw [update_self]
      refine ⟨done ++ [ep], by rw [hout, hrest, append_assoc]; rfl, ?_⟩
      intro e he
      rcases mem_append.mp he with he | he
      · rcases hdone e he with hseen | hself
        · exact .inl hseen
        · rw [hself]
          exact .inl hvisited
      · rw [mem_singleton.mp he]
        exact .inr rfl
    · rw [update_of_ne hne]
      rcases h.split u hu with ⟨before, hout, hbefore⟩
      refine ⟨before, hout, fun e he => .inl ?_⟩
      rcases hbefore e he with hseen | hself
      · exact hseen
      · rw [hself]
        exact hvisited
  · intro u hu hnot
    rw [mem_cons, not_or] at hnot
    have hne : u ≠ np := by
      rintro rfl
      exact hnot.2 mem_cons_self
    rw [update_of_ne hne]
    exact h.finished u hu hnot.2
  · intro u hu hempty
    have hne : u ≠ np := by
      rintro rfl
      rw [hout, hrest] at hempty
      simp at hempty
    dsimp only
    rw [update_of_ne hne]
    exact h.leftover u hu hempty

/-!
## The whole search
-/

/-- What a node may still cost: an edge is followed and gone back over. -/
def load (s : System) (out rest : Nat → List Nat) (u : Nat) : Nat :=
  if s.visited u then 2 * (rest u).length else 2 * (out u).length + 1

theorem load_seen (h : s.visited u = true) : s.load out rest u = 2 * (rest u).length :=
  if_pos h

theorem load_fresh (h : s.visited u = false) : s.load out rest u = 2 * (out u).length + 1 := by
  unfold load
  rw [h]
  rfl

theorem load_congr {rest' : Nat → List Nat} (h : t.visited u = s.visited u)
    (hrest : rest' u = rest u) : t.load out rest' u = s.load out rest u := by
  unfold load
  rw [h, hrest]

theorem sum_drop {f g : Nat → Nat} {k : Nat} (hnp : np < n)
    (hself : f np + k = g np) (hother : ∀ u, u ≠ np → f u = g u) :
    (Finset.range n).sum f + k = (Finset.range n).sum g := by
  have hmem := Finset.mem_range.mpr hnp
  have hf : f np + ((Finset.range n).erase np).sum f = (Finset.range n).sum f :=
    Finset.add_sum_erase _ f hmem
  have hg : g np + ((Finset.range n).erase np).sum g = (Finset.range n).sum g :=
    Finset.add_sum_erase _ g hmem
  have hrest : ((Finset.range n).erase np).sum f = ((Finset.range n).erase np).sum g :=
    Finset.sum_congr rfl fun u hu => hother u (Finset.ne_of_mem_erase hu)
  omega

theorem walk_spec {fuel : Nat} (h : s.Searching out up lo np path rest)
    (hac : Acyclic s.Edge) (hn : ∀ u, s.Reaches lo u → u < n)
    (hfuel : (Finset.range n).sum (s.load out rest) + (path.length + 1) ≤ fuel) :
    ∃ ret t, walk up fuel s np = some (ret, t) ∧ SameGraph s t ∧
      (ret = 0 ∨ ret = 1) ∧ (ret = 1 ↔ s.Reaches lo up) ∧
      ∀ u, t.visited u = true → s.Reaches lo u := by
  induction fuel generalizing s np path rest with
  | zero => omega
  | succ fuel ih =>
    have hnp : np < n := hn np (h.reached np (.inr rfl))
    have hanswer : ¬ s.Reaches lo up → ((0 : Int) = 1 ↔ s.Reaches lo up) :=
      fun hnot => ⟨nofun, fun hpath => absurd hpath hnot⟩
    -- The search goes on from a state that costs less.
    have hnext : ∀ {t : System} {p k : Nat} {path' : List Nat}
        {rest' : Nat → List Nat}, SameGraph s t → t.Searching out up lo p path' rest' →
        (Finset.range n).sum (t.load out rest') + k = (Finset.range n).sum (s.load out rest) →
        path'.length + 1 ≤ path.length + k →
        ∃ ret u, walk up fuel t p = some (ret, u) ∧ SameGraph s u ∧
          (ret = 0 ∨ ret = 1) ∧ (ret = 1 ↔ s.Reaches lo up) ∧
          ∀ w, u.visited w = true → s.Reaches lo w := by
      intro t p k path' rest' hsame hsearch hload hless
      rcases ih hsearch (by rwa [hsame.edge]) (by rwa [hsame.reaches]) (by omega) with
        ⟨ret, u, hrun, hu, hret, hiff, hvisited⟩
      rw [hsame.reaches] at hiff hvisited
      exact ⟨ret, u, hrun, hsame.trans hu, hret, hiff, hvisited⟩
    unfold walk
    cases hseen : s.visited np with
    | false =>
      by_cases hup : np = up
      · rw [if_pos hup]
        refine ⟨1, s, rfl, SameGraph.refl s, .inr rfl, ⟨fun _ => ?_, fun _ => rfl⟩,
          fun u hu => h.reached u (.inl hu)⟩
        rw [← hup]
        exact h.reached np (.inr rfl)
      · rw [if_neg hup]
        have hlist := h.lists np
        have hload : ∀ startp : Nat → Option Nat, (Finset.range n).sum (load { s with
              visited := update s.visited np true
              mnStartp := startp } out (update rest np (out np))) + 1 =
            (Finset.range n).sum (s.load out rest) := by
          intro startp
          refine sum_drop hnp ?_ fun u hu => ?_
          · rw [load_seen (update_self ..), load_fresh hseen, update_self]
          · exact load_congr (update_of_ne hu _ _) (update_of_ne hu _ _)
        cases hout : s.mnOutp np with
        | none =>
          rw [hout] at hlist
          have hempty : out np = [] := hlist.unique rfl
          have hleft : s.mnStartp np = s.mnOutp np := by
            rw [hout]
            exact h.leftover np (h.reached np (.inr rfl)) hempty
          have hvisit := h.visit hseen hup hleft fun u _ => rfl
          have hsame : SameGraph s { s with visited := update s.visited np true } :=
            ⟨rfl, rfl, rfl, rfl, rfl, rfl, rfl⟩
          have hself : update s.visited np true np = true :=
            update_self ..
          have hnone : update rest np (out np) np = [] := by
            rw [update_self, hempty]
          cases path with
          | nil =>
            have horigin : s.mnOriginp np = none := h.stack.2
            rw [horigin]
            have hdone := hvisit.done hself hnone
            have hreached := fun u hu => hvisit.reached u (.inl hu)
            exact ⟨0, _, rfl, hsame, .inl rfl, hanswer hdone, hreached⟩
          | cons p path =>
            have horigin : s.mnOriginp np = some p := h.stack.2.1
            rw [horigin]
            exact hnext hsame (hvisit.back hself hnone) (hload s.mnStartp)
              (by rw [length_cons]; omega)
        | some ep =>
          have hvisit := h.visit (f := update s.mnStartp np (some ep))
            hseen hup (by rw [update_self, hout])
            fun u hu => update_of_ne hu _ _
          exact hnext ⟨rfl, rfl, rfl, rfl, rfl, rfl, rfl⟩ hvisit
            (hload (update s.mnStartp np (some ep))) (le_refl _)
    | true =>
      cases hstart : s.mnStartp np with
      | none =>
        have hnone := h.start_rest hseen hstart
        cases path with
        | nil =>
          have horigin : s.mnOriginp np = none := h.stack.2
          rw [horigin]
          exact ⟨0, s, rfl, SameGraph.refl s, .inl rfl,
            hanswer (h.done hseen hnone), fun u hu => h.reached u (.inl hu)⟩
        | cons p path =>
          have horigin : s.mnOriginp np = some p := h.stack.2.1
          rw [horigin]
          exact hnext (SameGraph.refl s) (h.back hseen hnone) (Nat.add_zero _) (le_refl _)
      | some ep =>
        have hchain := h.start np hseen
        rw [hstart] at hchain
        obtain ⟨l, hrest⟩ : ∃ l, rest np = ep :: l := by
          cases hl : rest np with
          | nil =>
            rw [hl] at hchain
            cases hchain
          | cons e l =>
            rw [hl] at hchain
            rw [Option.some.inj hchain.1]
            exact ⟨l, rfl⟩
        refine hnext (k := 2) ⟨rfl, rfl, rfl, rfl, rfl, rfl, rfl⟩
          (h.follow hac hseen hrest) (sum_drop hnp ?_ fun u hu => ?_) ?_
        · refine (congrArg (· + 2) (load_seen hseen)).trans ?_
          rw [load_seen hseen, update_self, hrest, length_cons]
          rfl
        · exact load_congr rfl (update_of_ne hu _ _)
        · rw [length_cons]

end System
end Mux
end Svr4
