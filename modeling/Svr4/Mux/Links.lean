import Mathlib.Algebra.Group.Action.Defs
import Svr4.Mux.Search

/-!
# Links over whole runs

The edges are the links, the graph has no cycle, and the search answers whether
one node can be reached from another.
-/

namespace Svr4
namespace Mux

open Function List
variable {fuel ep upmaj lomaj : Nat} {front back : List Nat}

namespace System

open Transition WaitGraph Relation

/-- The edge lists of a system, and what ties them to its links. -/
structure Sound (s : System) (out : Nat → List Nat) : Prop where
  lists : s.Lists out
  allocated : ∀ u, ∀ e ∈ out u, e ∈ s.allocated
  owner : ∀ u v, ∀ e ∈ out u, e ∈ out v → u = v
  nodup : s.allocated.Nodup
  acyclic : Acyclic s.Edge
  target : ∀ u, ∀ e ∈ out u, s.meNodep e < s.cdevcnt
  upper : ∀ l ∈ s.links, l.upper < s.cdevcnt
  edges : ∀ u, ∀ e ∈ out u, ⟨u, s.meNodep e, s.meMuxid e⟩ ∈ s.links
  present : ∀ l ∈ s.links, ∃ e ∈ out l.upper, s.meNodep e = l.lower ∧ s.meMuxid e = l.muxid
  inj : ∀ u v, ∀ e ∈ out u, ∀ e' ∈ out v, s.meMuxid e = s.meMuxid e' → e = e'
  links : (s.links.map Link.muxid).Nodup
  seen : ∀ u, s.visited u = true → u < s.cdevcnt

variable {s t : System} {out : Nat → List Nat} {up lo : Stream} {muxid : Int}
  {u e : Nat}

theorem Sound.length_le (hs : s.Sound out) (u : Nat) : (out u).length ≤ s.allocated.length :=
  (subperm_of_subset (hs.lists u).nodup (hs.allocated u)).length_le

theorem Sound.of_sameGraph (hs : s.Sound out) (h : SameGraph s t)
    (hseen : ∀ u, t.visited u = true → u < t.cdevcnt) : t.Sound out := by
  refine ⟨?_, ?_, hs.owner, ?_, ?_, ?_, ?_, ?_, ?_, ?_, ?_, hseen⟩
  · unfold Lists
    rw [h.nextp, h.outp]
    exact hs.lists
  · rw [h.allocated]
    exact hs.allocated
  · rw [h.allocated]
    exact hs.nodup
  · rw [h.edge]
    exact hs.acyclic
  · rw [h.nodep, h.cdevcnt]
    exact hs.target
  · rw [h.links, h.cdevcnt]
    exact hs.upper
  · rw [h.nodep, h.muxid, h.links]
    exact hs.edges
  · rw [h.nodep, h.muxid, h.links]
    exact hs.present
  · rw [h.muxid]
    exact hs.inj
  · rw [h.links]
    exact hs.links

/-!
## The search
-/

theorem Sound.reach_lt (hs : s.Sound out) {lo : Nat} (hlo : lo < s.cdevcnt) :
    ∀ u, s.Reaches lo u → u < s.cdevcnt := by
  intro u hu
  induction hu with
  | refl => exact hlo
  | tail _ hedge _ =>
    rcases hs.lists.edge_iff.mp hedge with ⟨e, he, rfl⟩
    exact hs.target _ e he

/-- No node without edges that can be reached has a start pointer left over. -/
def NoLeftover (s : System) (lo : Nat) : Prop :=
  ∀ u, s.Reaches lo u → s.mnOutp u = none → s.mnStartp u = none

theorem sameGraph_clear (s : System) : SameGraph s s.clear :=
  ⟨rfl, rfl, rfl, rfl, rfl, rfl, rfl⟩

theorem Sound.searching (hs : s.Sound out) (hlo : lo.major < s.cdevcnt)
    (hleft : s.NoLeftover lo.major) (up : Nat) :
    s.clear.Searching out up lo.major lo.major [] fun _ => [] := by
  have hfresh : ∀ u, s.clear.visited u ≠ true := by
    intro u hu
    unfold clear at hu
    dsimp only at hu
    split at hu
    · cases hu
    · rename_i hout
      exact hout (hs.seen u hu)
  have horigin : s.clear.mnOriginp lo.major = none := if_pos hlo
  refine ⟨hs.lists, ⟨rfl, horigin⟩, isChain_singleton _, rfl, nofun, ?_, ?_, ?_, ?_, ?_, ?_⟩
  · intro u hu
    rcases hu with hu | rfl
    · exact absurd hu (hfresh u)
    · exact ReflTransGen.refl
  · exact fun u hu => absurd hu (hfresh u)
  · exact fun u hu => absurd hu (hfresh u)
  · exact fun u hu => absurd hu (hfresh u)
  · exact fun u hu => absurd hu (hfresh u)
  · intro u hu hempty
    have hnil := hs.lists u
    rw [hempty] at hnil
    exact hleft u hu hnil

theorem Sound.load_le (hs : s.Sound out) :
    (Finset.range s.cdevcnt).sum (s.clear.load out fun _ => []) ≤
      s.cdevcnt * (2 * s.allocated.length + 1) := by
  have hle : ∀ u ∈ Finset.range s.cdevcnt,
      s.clear.load out (fun _ => []) u ≤ 2 * s.allocated.length + 1 := by
    intro u _
    have hlength := hs.length_le u
    unfold load
    split
    · exact Nat.zero_le _
    · omega
  have hsum := Finset.sum_le_card_nsmul _ _ _ hle
  rwa [Finset.card_range, smul_eq_mul] at hsum

theorem Sound.linkcycle_spec (hs : s.Sound out) (up : Stream) (hfifo : lo.fifo = false)
    (hlo : lo.major < s.cdevcnt) (hleft : s.NoLeftover lo.major) :
    ∃ ret t, s.linkcycle up lo = some (ret, t) ∧ SameGraph s t ∧
      (ret = 0 ∨ ret = 1) ∧ (ret = 1 ↔ s.Reaches lo.major up.major) ∧ t.Sound out := by
  have hclear := sameGraph_clear s
  have hload := hs.load_le
  have hfuel : (Finset.range s.cdevcnt).sum (s.clear.load out fun _ => []) +
      (([] : List Nat).length + 1) ≤ s.turns := by
    unfold turns
    rw [length_nil]
    omega
  rcases walk_spec (hs.searching hlo hleft up.major) hs.acyclic (hs.reach_lt hlo) hfuel with
    ⟨ret, t, hrun, hsame, hret, hiff, hvisited⟩
  have hall : SameGraph s t := hclear.trans hsame
  refine ⟨ret, t, ?_, hall, hret, hiff, hs.of_sameGraph hall fun u hu => ?_⟩
  · unfold linkcycle
    rw [hfifo]
    exact hrun
  · rw [hall.cdevcnt]
    exact hs.reach_lt hlo u (hvisited u hu)

/-!
## Edges
-/

theorem lastEdge_spec {np : Nat → Option Nat} {l : List Nat} {first : Nat}
    (h : Chain np (some first) l none) (hfuel : l.length ≤ fuel) :
    ∃ last, lastEdge np fuel first = some last ∧ l.getLast? = some last := by
  induction fuel generalizing first l with
  | zero =>
    cases l with
    | nil => cases h
    | cons a l => simp at hfuel
  | succ fuel ih =>
    cases l with
    | nil => cases h
    | cons a l =>
      rcases h with ⟨heq, hrest⟩
      cases heq
      unfold lastEdge
      cases l with
      | nil =>
        rw [Chain.nil_iff.mp hrest]
        exact ⟨first, rfl, rfl⟩
      | cons b l =>
        have hb := hrest.1
        rw [hb] at hrest ⊢
        rw [List.getLast?_cons_cons]
        exact ih hrest (Nat.le_of_succ_le_succ hfuel)

theorem Sound.muxAddedge_spec (hs : s.Sound out) (hep : ep ∉ s.allocated) (muxid : Int) :
    ∃ t, s.muxAddedge upmaj lomaj muxid (some ep) = some (true, t) ∧
      t.Lists (update out upmaj (out upmaj ++ [ep])) ∧ t = { s.fill ep lomaj muxid with
        meNextp := t.meNextp
        mnOutp := t.mnOutp } := by
  have hnot : ∀ u, ep ∉ out u := fun u h => hep (hs.allocated u ep h)
  have hlist := hs.lists upmaj
  unfold muxAddedge
  cases hout : s.mnOutp upmaj with
  | none =>
    rw [hout] at hlist
    have hempty : out upmaj = [] := hlist.unique rfl
    refine ⟨_, rfl, fun u => ?_, rfl⟩
    by_cases hu : u = upmaj
    · subst hu
      dsimp only [fill]
      rw [update_self, update_self, hempty]
      exact ⟨rfl, update_self ..⟩
    · dsimp only [fill]
      rw [update_of_ne hu, update_of_ne hu]
      exact (hs.lists u).update_of_notMem (hnot u)
  | some first =>
    rw [hout] at hlist
    rcases lastEdge_spec hlist (hs.length_le upmaj) with ⟨last, hrun, hlast⟩
    dsimp only
    rw [hrun]
    refine ⟨_, rfl, fun u => ?_, rfl⟩
    by_cases hu : u = upmaj
    · subst hu
      dsimp only [fill]
      rw [update_self, hout]
      exact hlist.snoc (hnot u) hlast
    · rw [update_of_ne hu]
      refine ((hs.lists u).update_of_notMem (hnot u)).update_of_notMem ?_
      intro hmem
      exact hu (hs.owner u upmaj last hmem (mem_of_getLast? hlast))

theorem findEdge_none {l : List Nat} {pep h : Option Nat} (hchain : Chain s.meNextp h l none)
    (hfuel : l.length ≤ fuel) (hnone : ∀ e ∈ l, s.meMuxid e ≠ muxid) :
    ∃ p, s.findEdge muxid fuel pep h = some (p, none) := by
  induction l generalizing h pep fuel with
  | nil =>
    rw [Chain.nil_iff.mp hchain]
    unfold findEdge
    exact ⟨pep, rfl⟩
  | cons a l ih =>
    rcases hchain with ⟨rfl, hrest⟩
    cases fuel with
    | zero => simp at hfuel
    | succ fuel =>
      unfold findEdge
      rw [if_neg (hnone a mem_cons_self)]
      exact ih hrest (Nat.le_of_succ_le_succ hfuel) fun e he => hnone e (mem_cons_of_mem a he)

theorem findEdge_some {p h : Option Nat} (hchain : Chain s.meNextp h (front ++ e :: back) none)
    (hfuel : (front ++ e :: back).length ≤ fuel) (he : s.meMuxid e = muxid)
    (hfront : ∀ a ∈ front, s.meMuxid a ≠ muxid) :
    s.findEdge muxid fuel p h = some (if front = [] then p else front.getLast?, some e) := by
  induction front generalizing h p fuel with
  | nil =>
    rcases hchain with ⟨rfl, hrest⟩
    cases fuel with
    | zero => simp at hfuel
    | succ fuel =>
      unfold findEdge
      rw [if_pos he, if_pos rfl]
  | cons a front ih =>
    rcases hchain with ⟨rfl, hrest⟩
    cases fuel with
    | zero => simp at hfuel
    | succ fuel =>
      unfold findEdge
      rw [if_neg (hfront a mem_cons_self), ih hrest (Nat.le_of_succ_le_succ hfuel)
          fun b hb => hfront b (mem_cons_of_mem a hb)]
      cases front with
      | nil => rfl
      | cons b front => rfl

/-!
## Steps
-/

theorem Sound.added (hs : s.Sound out) (hep : ep ∉ s.allocated) (hup : upmaj < s.cdevcnt)
    (hlo : lomaj < s.cdevcnt) (hmuxid : ∀ l ∈ s.links, l.muxid ≠ muxid)
    (hback : ¬ s.Reaches lomaj upmaj) (hlists : t.Lists (update out upmaj (out upmaj ++ [ep])))
    (ht : t = { s.fill ep lomaj muxid with
      meNextp := t.meNextp
      mnOutp := t.mnOutp
      links := ⟨upmaj, lomaj, muxid⟩ :: s.links }) :
    t.Sound (update out upmaj (out upmaj ++ [ep])) := by
  have hnodep : t.meNodep = update s.meNodep ep lomaj := by rw [ht]; rfl
  have hid : t.meMuxid = update s.meMuxid ep muxid := by rw [ht]; rfl
  have hcnt : t.cdevcnt = s.cdevcnt := by rw [ht]; rfl
  have hlinks : t.links = ⟨upmaj, lomaj, muxid⟩ :: s.links := by rw [ht]
  have hall : t.allocated = ep :: s.allocated := by rw [ht]; rfl
  have hseen : t.visited = s.visited := by rw [ht]; rfl
  -- An edge is an old one or the new one.
  have hcases : ∀ {u e : Nat}, e ∈ update out upmaj (out upmaj ++ [ep]) u →
      (e ∈ out u ∧ t.meNodep e = s.meNodep e ∧ t.meMuxid e = s.meMuxid e) ∨
      (u = upmaj ∧ e = ep ∧ t.meNodep e = lomaj ∧ t.meMuxid e = muxid) := by
    intro u e he
    have hold : e ∈ out u → t.meNodep e = s.meNodep e ∧ t.meMuxid e = s.meMuxid e := by
      intro hmem
      have hne : e ≠ ep := by
        rintro rfl
        exact hep (hs.allocated u e hmem)
      rw [hnodep, hid, update_of_ne hne, update_of_ne hne]
      exact ⟨rfl, rfl⟩
    by_cases hu : u = upmaj
    · subst hu
      rw [update_self] at he
      rcases mem_append.mp he with he | he
      · exact .inl ⟨he, hold he⟩
      · rw [mem_singleton.mp he, hnodep, hid, update_self, update_self]
        exact .inr ⟨rfl, rfl, rfl, rfl⟩
    · rw [update_of_ne hu] at he
      exact .inl ⟨he, hold he⟩
  have hin : ∀ {u e : Nat}, e ∈ out u → e ∈ update out upmaj (out upmaj ++ [ep]) u := by
    intro u e he
    by_cases hu : u = upmaj
    · subst hu
      rw [update_self]
      exact mem_append_left _ he
    · rwa [update_of_ne hu]
  refine ⟨hlists, ?_, ?_, ?_, ?_, ?_, ?_, ?_, ?_, ?_, ?_, ?_⟩
  · intro u e he
    rw [hall]
    rcases hcases he with ⟨he, _⟩ | ⟨_, rfl, _⟩
    · exact mem_cons_of_mem _ (hs.allocated u e he)
    · exact mem_cons_self
  · intro u v e he he'
    rcases hcases he with ⟨hold, _⟩ | ⟨rfl, rfl, _⟩
    · rcases hcases he' with ⟨hold', _⟩ | ⟨_, rfl, _⟩
      · exact hs.owner u v e hold hold'
      · exact absurd (hs.allocated u _ hold) hep
    · rcases hcases he' with ⟨hold', _⟩ | ⟨rfl, _⟩
      · exact absurd (hs.allocated v _ hold') hep
      · rfl
  · rw [hall]
    exact nodup_cons.mpr ⟨hep, hs.nodup⟩
  · refine hs.acyclic.insert (p := upmaj) (q := lomaj) ?_ hback
    intro u v hedge
    rcases hlists.edge_iff.mp hedge with ⟨e, he, rfl⟩
    rcases hcases he with ⟨he, hnode, _⟩ | ⟨rfl, _, hnode, _⟩
    · exact .inl (hs.lists.edge_iff.mpr ⟨e, he, hnode.symm⟩)
    · exact .inr ⟨rfl, hnode⟩
  · intro u e he
    rw [hcnt]
    rcases hcases he with ⟨he, hnode, _⟩ | ⟨_, _, hnode, _⟩
    · rw [hnode]
      exact hs.target u e he
    · rw [hnode]
      exact hlo
  · intro l hl
    rw [hcnt]
    rw [hlinks] at hl
    rcases mem_cons.mp hl with rfl | hl
    · exact hup
    · exact hs.upper l hl
  · intro u e he
    rw [hlinks]
    rcases hcases he with ⟨he, hnode, hmux⟩ | ⟨rfl, _, hnode, hmux⟩
    · rw [hnode, hmux]
      exact mem_cons_of_mem _ (hs.edges u e he)
    · rw [hnode, hmux]
      exact mem_cons_self
  · intro l hl
    rw [hlinks] at hl
    rcases mem_cons.mp hl with rfl | hl
    · refine ⟨ep, ?_, ?_, ?_⟩
      · simp
      · rw [hnodep, update_self]
      · rw [hid, update_self]
    · rcases hs.present l hl with ⟨e, he, hnode, hmux⟩
      have hne : e ≠ ep := by
        rintro rfl
        exact hep (hs.allocated _ e he)
      refine ⟨e, hin he, ?_, ?_⟩
      · rwa [hnodep, update_of_ne hne]
      · rwa [hid, update_of_ne hne]
  · intro u v e he e' he' heq
    rcases hcases he with ⟨hold, _, hmux⟩ | ⟨_, rfl, _, hmux⟩
    · rcases hcases he' with ⟨hold', _, hmux'⟩ | ⟨_, rfl, _, hmux'⟩
      · rw [hmux, hmux'] at heq
        exact hs.inj u v e hold e' hold' heq
      · rw [hmux, hmux'] at heq
        exact absurd heq (hmuxid _ (hs.edges u e hold))
    · rcases hcases he' with ⟨hold', _, hmux'⟩ | ⟨_, rfl, _, _⟩
      · rw [hmux, hmux'] at heq
        exact absurd heq.symm (hmuxid _ (hs.edges v e' hold'))
      · rfl
  · rw [hlinks]
    refine nodup_cons.mpr ⟨fun hmem => ?_, hs.links⟩
    rcases mem_map.mp hmem with ⟨l, hl, heq⟩
    exact hmuxid l hl heq
  · rw [hseen, hcnt]
    exact hs.seen

theorem Sound.muxid_inj (hs : s.Sound out) {l l' : Link} (hl : l ∈ s.links)
    (hl' : l' ∈ s.links) (hid : l'.muxid = l.muxid) : l' = l :=
  inj_on_of_nodup_map hs.links hl' hl hid

theorem Sound.without (hs : s.Sound out) {l : Link} (hl : l ∈ s.links)
    (hout : out l.upper = front ++ e :: back) (hmux : s.meMuxid e = l.muxid)
    (hlists : t.Lists (update out l.upper (front ++ back))) (ht : t = { s with
      meNextp := t.meNextp
      mnOutp := t.mnOutp
      allocated := s.allocated.erase e
      links := s.links.erase l }) : t.Sound (update out l.upper (front ++ back)) := by
  have hlinks : t.links = s.links.erase l := by rw [ht]
  have hnodep : t.meNodep = s.meNodep := by rw [ht]
  have hid : t.meMuxid = s.meMuxid := by rw [ht]
  have hcnt : t.cdevcnt = s.cdevcnt := by rw [ht]
  have hall : t.allocated = s.allocated.erase e := by rw [ht]
  have hseen : t.visited = s.visited := by rw [ht]
  have he : e ∈ out l.upper := by
    rw [hout]
    simp
  have hnodup : (e :: (front ++ back)).Nodup := by
    have hlist := (hs.lists l.upper).nodup
    rw [hout] at hlist
    exact (perm_middle.nodup_iff).mp hlist
  have hmem : ∀ {a : Nat}, a ∈ out l.upper ↔ a = e ∨ a ∈ front ++ back := by
    intro a
    rw [hout, perm_middle.mem_iff, mem_cons]
  -- The edges that are left are the old ones without that of the link.
  have hin : ∀ {u a : Nat}, a ∈ update out l.upper (front ++ back) u ↔ a ∈ out u ∧ a ≠ e := by
    intro u a
    by_cases hu : u = l.upper
    · subst hu
      rw [update_self, hmem]
      constructor
      · intro ha
        refine ⟨.inr ha, ?_⟩
        rintro rfl
        exact (nodup_cons.mp hnodup).1 ha
      · exact fun ha => ha.1.resolve_left ha.2
    · rw [update_of_ne hu]
      refine ⟨fun ha => ⟨ha, ?_⟩, fun ha => ha.1⟩
      rintro rfl
      exact hu (hs.owner u l.upper a ha he)
  have hnodupLinks : s.links.Nodup := hs.links.of_map
  refine ⟨hlists, ?_, ?_, ?_, ?_, ?_, ?_, ?_, ?_, ?_, ?_, ?_⟩
  · intro u a ha
    rw [hall]
    exact (mem_erase_of_ne (hin.mp ha).2).mpr (hs.allocated u a (hin.mp ha).1)
  · exact fun u v a ha ha' => hs.owner u v a (hin.mp ha).1 (hin.mp ha').1
  · rw [hall]
    exact hs.nodup.erase e
  · refine hs.acyclic.mono fun u v hedge => ?_
    rcases hlists.edge_iff.mp hedge with ⟨a, ha, rfl⟩
    refine hs.lists.edge_iff.mpr ⟨a, (hin.mp ha).1, ?_⟩
    rw [hnodep]
  · intro u a ha
    rw [hnodep, hcnt]
    exact hs.target u a (hin.mp ha).1
  · intro l' hl'
    rw [hlinks] at hl'
    rw [hcnt]
    exact hs.upper l' (mem_of_mem_erase hl')
  · intro u a ha
    rw [hlinks, hnodep, hid]
    refine (mem_erase_of_ne ?_).mpr (hs.edges u a (hin.mp ha).1)
    intro heq
    have hsame : s.meMuxid a = s.meMuxid e := (congrArg Link.muxid heq).trans hmux.symm
    exact (hin.mp ha).2 (hs.inj u l.upper a (hin.mp ha).1 e he hsame)
  · intro l' hl'
    rw [hlinks] at hl'
    rcases hs.present l' (mem_of_mem_erase hl') with ⟨a, ha, hnode', hmux'⟩
    rw [hnodep, hid]
    refine ⟨a, hin.mpr ⟨ha, ?_⟩, hnode', hmux'⟩
    rintro rfl
    have heq := hs.muxid_inj hl (mem_of_mem_erase hl') (hmux'.symm.trans hmux)
    rw [heq] at hl'
    exact hnodupLinks.not_mem_erase hl'
  · intro u v a ha a' ha' heq
    rw [hid] at heq
    exact hs.inj u v a (hin.mp ha).1 a' (hin.mp ha').1 heq
  · rw [hlinks]
    exact hs.links.sublist (erase_sublist.map Link.muxid)
  · rw [hseen, hcnt]
    exact hs.seen

theorem Sound.removed (hs : s.Sound out) {l : Link} (hl : l ∈ s.links) :
    ∃ t out', s.muxRmvedge l.upper l.muxid = some t ∧
      Sound { t with links := t.links.erase l } out' ∧ t.links = s.links := by
  rcases hs.present l hl with ⟨e, he, hnode, hmux⟩
  rcases append_of_mem he with ⟨front, back, hout⟩
  have hlist := hs.lists l.upper
  have hlength := hs.length_le l.upper
  rw [hout] at hlist hlength
  have hnodup := hlist.nodup
  have hfront : ∀ a ∈ front, s.meMuxid a ≠ l.muxid := by
    intro a ha heq
    have hmem : a ∈ out l.upper := by
      rw [hout]
      exact mem_append_left _ ha
    have hsame := hs.inj l.upper l.upper a hmem e he (heq.trans hmux.symm)
    subst hsame
    rw [nodup_append] at hnodup
    exact hnodup.2.2 a ha a mem_cons_self rfl
  have hother : ∀ u, u ≠ l.upper → ∀ a ∈ out l.upper, a ∉ out u :=
    fun u hu a ha hmem => hu (hs.owner u l.upper a hmem ha)
  have hrun := findEdge_some (p := none) hlist hlength hmux hfront
  rcases eq_nil_or_concat front with rfl | ⟨front, pep, rfl⟩
  · refine ⟨{ s with
      mnOutp := update s.mnOutp l.upper (s.meNextp e)
      allocated := s.allocated.erase e }, _, ?_, hs.without hl hout hmux ?_ rfl, rfl⟩
    · unfold muxRmvedge
      rw [hrun]
      rfl
    · intro u
      by_cases hu : u = l.upper
      · subst hu
        dsimp only
        rw [update_self, update_self]
        exact hlist.2
      · dsimp only
        rw [update_of_ne hu, update_of_ne hu]
        exact hs.lists u
  · rw [if_neg (by simp), concat_eq_append, List.getLast?_concat] at hrun
    rw [concat_eq_append] at hout hlist
    refine ⟨{ s with
      meNextp := update s.meNextp pep (s.meNextp e)
      allocated := s.allocated.erase e }, _, ?_, hs.without hl hout hmux ?_ rfl, rfl⟩
    · unfold muxRmvedge
      rw [hrun]
      rfl
    · intro u
      by_cases hu : u = l.upper
      · subst hu
        rw [update_self]
        exact hlist.bypass
      · rw [update_of_ne hu]
        refine (hs.lists u).update_of_notMem (hother u hu pep ?_)
        rw [hout]
        simp

/--
What is taken of an event: a FIFO does not lead to the upper stream, and no
node without edges that the search can reach has a start pointer left over.
-/
def Allowed (s : System) : Event → Prop
  | .link up lo _ _ =>
    (lo.fifo = true → ¬ s.Reaches lo.major up.major) ∧
    (lo.fifo = false → s.NoLeftover lo.major)
  | .unlink _ => True

theorem sound_of_start (hs : s.Start) : s.Sound fun _ => [] := by
  rcases hs with ⟨houtp, _, hseen, hallocated, hlinks⟩
  have hlists : s.Lists fun _ => [] := houtp
  refine ⟨hlists, nofun, nofun, ?_, ?_, nofun, ?_, nofun, ?_, nofun, ?_, ?_⟩
  · rw [hallocated]
    exact nodup_nil
  · intro u hcycle
    rcases TransGen.head'_iff.mp hcycle with ⟨v, hedge, _⟩
    rcases hlists.edge_iff.mp hedge with ⟨e, he, _⟩
    cases he
  · rw [hlinks]
    nofun
  · rw [hlinks]
    nofun
  · rw [hlinks]
    exact nodup_nil
  · intro u hu
    rw [hseen u] at hu
    cases hu

theorem Sound.of_muxAddedge {ep : Option Nat} {added : Bool} {v : System} (hs : s.Sound out)
    (hep : ∀ e ∈ ep, e ∉ s.allocated) (hup : upmaj < s.cdevcnt) (hlo : lomaj < s.cdevcnt)
    (hmuxid : ∀ l ∈ s.links, l.muxid ≠ muxid) (hback : ¬ s.Reaches lomaj upmaj)
    (hadd : s.muxAddedge upmaj lomaj muxid ep = some (added, v))
    (h : (if added then some { v with links := ⟨upmaj, lomaj, muxid⟩ :: v.links }
      else v.muxRmvedge upmaj muxid) = some t) : ∃ out', t.Sound out' := by
  cases ep with
  | none =>
    cases hadd
    have hnone : ∀ e ∈ out upmaj, s.meMuxid e ≠ muxid :=
      fun e he => hmuxid _ (hs.edges upmaj e he)
    rcases findEdge_none (hs.lists upmaj) (hs.length_le upmaj) hnone with ⟨p, hrun⟩
    unfold muxRmvedge at h
    rw [hrun] at h
    cases h
    exact ⟨out, hs⟩
  | some e =>
    rcases hs.muxAddedge_spec (hep e rfl) muxid with ⟨w, hw, hlists, hfields⟩
    rw [hw] at hadd
    cases hadd
    cases h
    refine ⟨_, hs.added (hep e rfl) hup hlo hmuxid hback hlists ?_⟩
    rw [hfields]
    rfl

theorem sound_of_step {e : Event} (hs : s.Sound out) (hok : s.Allowed e)
    (hstep : s.Step e t) : ∃ out', t.Sound out' := by
  unfold Step at hstep
  cases e with
  | link up lo muxid ep =>
    unfold exec at hstep
    dsimp only at hstep
    split at hstep
    · cases hstep
    · rename_i hguard
      rw [not_or, not_or, not_or, not_or] at hguard
      rcases hguard with ⟨_, hup, hlo, hmuxid, hep⟩
      rw [not_le] at hup hlo
      have hmux : ∀ l ∈ s.links, l.muxid ≠ muxid := fun l hl h => hmuxid ⟨l, hl, h⟩
      have hnew : ∀ e ∈ ep, e ∉ s.allocated := fun e he h => hep ⟨e, he, h⟩
      cases hfifo : lo.fifo with
      | true =>
        have hrun : s.linkcycle up lo = some (0, s) := by
          unfold linkcycle
          rw [hfifo]
          rfl
        rw [hrun, Option.bind_eq_bind, Option.bind_some] at hstep
        dsimp only at hstep
        rcases Option.bind_eq_some_iff.mp hstep with ⟨⟨added, v⟩, hadd, hlast⟩
        exact hs.of_muxAddedge hnew hup hlo hmux (hok.1 hfifo) hadd hlast
      | false =>
        rcases hs.linkcycle_spec up hfifo hlo (hok.2 hfifo) with
          ⟨ret, u, hrun, hsame, hret, hiff, hu⟩
        rw [hrun] at hstep
        change (if ret = 1 then some u else _) = _ at hstep
        split at hstep
        · cases hstep
          exact ⟨out, hu⟩
        · rename_i hzero
          rcases Option.bind_eq_some_iff.mp hstep with ⟨⟨added, v⟩, hadd, hlast⟩
          have hback : ¬ u.Reaches lo.major up.major := by
            rw [hsame.reaches]
            exact fun h => hzero (hiff.mpr h)
          rw [← hsame.cdevcnt] at hup hlo
          rw [← hsame.links] at hmux
          rw [← hsame.allocated] at hnew
          exact hu.of_muxAddedge hnew hup hlo hmux hback hadd hlast
  | unlink l =>
    unfold exec at hstep
    dsimp only at hstep
    split at hstep
    · rename_i hl
      rcases hs.removed hl with ⟨u, out', hrun, hu, _⟩
      rw [hrun] at hstep
      cases hstep
      exact ⟨out', hu⟩
    · cases hstep

/-!
## Every run
-/

/-- The edges are those of the links, without a cycle, and searches answer. -/
structure IsGraph (s : System) : Prop where
  acyclic : Acyclic s.Edge
  edges : ∃ out, s.Lists out ∧ ∀ u,
    ((out u).map fun e => (⟨u, s.meNodep e, s.meMuxid e⟩ : Link)).Perm
      (s.links.filter fun l => l.upper = u)
  unlink : ∀ l ∈ s.links, ∃ t, s.exec (.unlink l) = some t ∧ t.links = s.links.erase l
  fifo : ∀ up lo : Stream, lo.fifo = true → s.linkcycle up lo = some (0, s)
  search : ∀ up lo : Stream, lo.fifo = false → lo.major < s.cdevcnt →
    s.NoLeftover lo.major → ∃ ret t, s.linkcycle up lo = some (ret, t) ∧
      SameGraph s t ∧ (ret = 0 ∨ ret = 1) ∧ (ret = 1 ↔ s.Reaches lo.major up.major)

theorem Sound.edges_perm (hs : s.Sound out) (u : Nat) :
    ((out u).map fun e => (⟨u, s.meNodep e, s.meMuxid e⟩ : Link)).Perm
      (s.links.filter fun l => l.upper = u) := by
  have hleft : ((out u).map fun e =>
      (⟨u, s.meNodep e, s.meMuxid e⟩ : Link)).Nodup := by
    refine List.Nodup.map_on ?_ (hs.lists u).nodup
    exact fun a ha b hb heq => hs.inj u u a ha b hb (congrArg Link.muxid heq)
  have hright : (s.links.filter fun l => l.upper = u).Nodup :=
    hs.links.of_map.filter _
  rw [perm_ext_iff_of_nodup hleft hright]
  intro l
  rw [mem_map, mem_filter, decide_eq_true_eq]
  constructor
  · rintro ⟨e, he, rfl⟩
    exact ⟨hs.edges u e he, rfl⟩
  · rintro ⟨hl, rfl⟩
    rcases hs.present l hl with ⟨e, he, hnode, hmux⟩
    refine ⟨e, he, ?_⟩
    rw [hnode, hmux]

theorem Sound.isGraph (hs : s.Sound out) : s.IsGraph where
  acyclic := hs.acyclic
  edges := ⟨out, hs.lists, hs.edges_perm⟩
  unlink l hl := by
    rcases hs.removed hl with ⟨t, out', hrun, _, hlinks⟩
    refine ⟨{ t with links := t.links.erase l }, ?_, by rw [hlinks]⟩
    unfold exec
    dsimp only
    rw [if_pos hl, hrun]
    rfl
  fifo up lo hfifo := by
    unfold linkcycle
    rw [hfifo]
    rfl
  search up lo hfifo hlo hleft := by
    rcases hs.linkcycle_spec up hfifo hlo hleft with ⟨ret, t, hrun, hsame, hret, hiff, _⟩
    exact ⟨ret, t, hrun, hsame, hret, hiff⟩

def quiet : System where
  cdevcnt := 2
  mnOriginp := fun _ => none
  mnStartp := fun _ => none
  mnOutp := fun _ => none
  visited := fun _ => false
  meNodep := fun _ => 0
  meNextp := fun _ => none
  meMuxid := fun _ => 0
  allocated := []
  links := []

theorem start_quiet : quiet.Start :=
  ⟨fun _ => rfl, fun _ => rfl, fun _ => rfl, rfl, rfl⟩

def oneLink : Option System :=
  quiet.exec (.link ⟨false, 1⟩ ⟨false, 0⟩ 7 (some 0))

end System
end Mux
end Svr4
