import Svr4.Callout.Model

/-!
# The callout table over whole runs

Where `heap_up` and `heap_down` put an entry, what each routine does to
the entries of the table, and what holds in every run.
-/

namespace Svr4
namespace Callout

open Function Heap Transition Multiset

variable {a : Nat → Callo} {t calllimit : Int} {n j f : Nat}

/-!
## Moving a hole
-/

/-- A hole at `j` has been moved to where an entry of time `t` fits. -/
structure Placed (a : Nat → Callo) (t : Int) (n j : Nat)
    (r : (Nat → Callo) × Nat) : Prop where
  lt : r.2 < n
  ordered : ∀ e : Callo, e.cTime = t → Ordered Callo.cTime (update r.1 r.2 e) n
  contents : ∀ e, contents (update r.1 r.2 e) n = contents (update a j e) n
  frame : ∀ i, n ≤ i → r.1 i = a i

variable {k func arg : Nat} {r : (Nat → Callo) × Nat}

theorem Placed.move (h : Placed (update a j (a k)) t n k r) (hj : j < n) (hk : k < n)
    (hne : k ≠ j) : Placed a t n j r where
  lt := h.lt
  ordered := h.ordered
  contents e := (h.contents e).trans (contents_move hj hk hne)
  frame i hi := by
    rw [h.frame i hi]
    exact update_of_ne (by omega) _ _

theorem heapUp_placed (hup : UpOrder Callo.cTime a n j t) (hj : j < n) :
    Placed a t n j (heapUp a t j) := by
  fun_induction heapUp a t j with
  | case1 a j hpos k hlt ih =>
    have hk : k < j := parent_lt hpos
    exact (ih (hup.move hpos hj hlt) (hk.trans hj)).move hj (hk.trans hj) hk.ne
  | case2 a j hpos k hle =>
    exact ⟨hj, fun e he => hup.finish he fun _ => not_lt.mp hle, fun _ => rfl, fun _ _ => rfl⟩
  | case3 a j hzero =>
    exact ⟨hj, fun e he => hup.finish he fun hpos => absurd hpos hzero,
      fun _ => rfl, fun _ _ => rfl⟩

theorem child_spec (hlimit : calllimit + 1 = n) (hin : ¬ (1 + 2 * j : Nat) > calllimit) :
    parent (child calllimit a j) = j ∧ child calllimit a j < n ∧
    ∀ c, 0 < c → c < n → parent c = j → (a (child calllimit a j)).cTime ≤ (a c).cTime := by
  have hle := child_le (a := a) hin
  refine ⟨?_, by omega, ?_⟩
  · unfold child parent
    dsimp only
    split <;> omega
  · intro c hpos hc hparent
    have hcases : c = 1 + 2 * j ∨ c = 1 + 2 * j + 1 := by
      unfold parent at hparent
      omega
    unfold child
    dsimp only
    split
    · rename_i hright
      rcases hcases with rfl | rfl
      · exact hright.2.le
      · exact le_refl _
    · rename_i hleft
      rcases hcases with rfl | rfl
      · exact le_refl _
      · rw [not_and] at hleft
        exact not_lt.mp (hleft (by omega))

theorem heapDown_placed (hlimit : calllimit + 1 = n)
    (hdown : DownOrder Callo.cTime a n j t) (hj : j < n) :
    Placed a t n j (heapDown calllimit a t j) := by
  fun_induction heapDown calllimit a t j with
  | case1 a j hout =>
    refine ⟨hj, fun e he => hdown.finish he ?_, fun _ => rfl, fun _ _ => rfl⟩
    intro c hpos hc hparent
    unfold parent at hparent
    omega
  | case2 a j hin k hle =>
    rcases child_spec (a := a) hlimit hin with ⟨hparent, hk, hmin⟩
    exact ⟨hj, fun e he => hdown.finish he fun c hpos hc hparent =>
      hle.le.trans (hmin c hpos hc hparent), fun _ => rfl, fun _ _ => rfl⟩
  | case3 a j hin k hlt ih =>
    rcases child_spec (a := a) hlimit hin with ⟨hparent, hk, hmin⟩
    have hjk : j < k := lt_child calllimit a j
    refine (ih ?_ hk).move hj hk hjk.ne'
    exact hdown.move (by omega) hk hparent hmin (not_le.mp hlt)

theorem Placed.removed (h : Placed a (a n).cTime n f r) (hf : f < n) :
    Ordered Callo.cTime (update r.1 r.2 (r.1 n)) n ∧ Heap.contents a (n + 1) =
        a f ::ₘ Heap.contents (update r.1 r.2 (r.1 n)) n := by
  rw [h.frame n (le_refl n)]
  refine ⟨h.ordered _ rfl, ?_⟩
  rw [contents_succ, h.contents, cons_contents_update hf]

variable {id tim : Int}

theorem search_spec {left : Nat} :
    (∀ i, System.search a id left f = some i → f ≤ i ∧ i < f + left ∧ (a i).cId = id) ∧
    (System.search a id left f = none → ∀ i, f ≤ i → i < f + left → (a i).cId ≠ id) := by
  induction left generalizing f with
  | zero =>
    refine ⟨nofun, fun _ i hle hlt => ?_⟩
    omega
  | succ left ih =>
    unfold System.search
    by_cases hid : (a f).cId = id
    · rw [if_pos hid]
      refine ⟨fun i hi => ?_, nofun⟩
      cases hi
      exact ⟨le_refl _, by omega, hid⟩
    · rw [if_neg hid]
      rcases ih (f := f + 1) with ⟨hsome, hnone⟩
      refine ⟨fun i hi => ?_, fun hall i hle hlt => ?_⟩
      · rcases hsome i hi with ⟨hle, hlt, hi⟩
        exact ⟨by omega, by omega, hi⟩
      · rcases Nat.eq_or_lt_of_le hle with rfl | hle
        · exact hid
        · exact hnone hall i hle (by omega)

namespace System

variable {s u : System} {ret : Int}

/-!
## The invariant
-/

structure IsHeap (s : System) : Prop where
  limit : -1 ≤ s.calllimit ∧ s.calllimit < s.vCall
  ordered : Ordered Callo.cTime s.callout (s.calllimit + 1).toNat

/-- Entries are on the table, cancelled or called, and the table is a heap. -/
structure Sound (s : System) : Prop where
  limit : -1 ≤ s.calllimit ∧ s.calllimit < s.vCall
  ordered : Ordered Callo.cTime s.callout (s.calllimit + 1).toNat
  account : s.contents + s.cancelled + s.fired = s.inserted
  timeid : s.timeid = toInt s.inserted.card
  ids : s.inserted.map Callo.cId = (Multiset.range s.inserted.card).map fun k => toInt (k + 1 : Nat)
  served : ∀ p, s.pass = some p → (p.served : Multiset Callo) ≤ s.fired
  sorted : ∀ p, s.pass = some p → p.early = false →
    p.served.Pairwise (fun x y => x.cTime ≤ y.cTime) ∧
    ∀ x ∈ p.served, x.cTime ≤ s.lbolt ∧ ∀ y ∈ s.contents, x.cTime ≤ y.cTime

theorem Sound.isHeap (hs : s.Sound) : s.IsHeap :=
  ⟨hs.limit, hs.ordered⟩

theorem sound_of_start (hs : s.Start) : s.Sound := by
  rcases hs with ⟨hlimit, htimeid, hinserted, hcancelled, hfired, hpass⟩
  have hempty : s.contents = 0 := by
    unfold contents
    rw [hlimit]
    rfl
  refine ⟨by omega, ?_, ?_, ?_, ?_, ?_, ?_⟩
  · rw [hlimit]
    intro i hpos hi
    exact absurd hi (Nat.not_lt_zero i)
  · rw [hempty, hcancelled, hfired, hinserted]
    rfl
  · rw [htimeid, hinserted]
    rfl
  · rw [hinserted]
    rfl
  · rw [hpass]
    nofun
  · rw [hpass]
    nofun

theorem toInt_inj {l : Nat} (hk : k < 2 ^ 32) (hl : l < 2 ^ 32)
    (h : toInt (k + 1 : Nat) = toInt (l + 1 : Nat)) : k = l := by
  have hmod : ((k + 1 : Nat) : Int) % (2 ^ 32 : Nat) = ((l + 1 : Nat) : Int) % (2 ^ 32 : Nat) := by
    have hbmod := congrArg (· % ((2 ^ 32 : Nat) : Int)) h
    unfold toInt at hbmod
    simpa only [Int.bmod_emod] using hbmod
  omega

theorem Sound.ids_nodup (hs : s.Sound) (hcard : s.inserted.card ≤ 2 ^ 32) :
    (s.contents.map Callo.cId).Nodup := by
  have hall : (s.inserted.map Callo.cId).Nodup := by
    rw [hs.ids]
    refine (nodup_range _).map_on ?_
    intro k hk l hl h
    rw [mem_range] at hk hl
    exact toInt_inj (by omega) (by omega) h
  refine Multiset.nodup_of_le (Multiset.map_le_map ?_) hall
  rw [← hs.account, Multiset.add_assoc]
  exact Multiset.le_add_right _ _

/-!
## The routines
-/

theorem timeout_spec (hs : s.IsHeap) (h : s.timeout func arg tim = some (ret, u)) :
    ret = (s.entry func arg tim).cId ∧ u.contents = s.entry func arg tim ::ₘ s.contents ∧
      Ordered Callo.cTime u.callout (u.calllimit + 1).toNat ∧ u.calllimit < s.vCall ∧ u = { s with
        callout := u.callout
        calllimit := s.calllimit + 1
        timeid := toInt (s.timeid + 1)
        inserted := s.entry func arg tim ::ₘ s.inserted
        pass := s.pass.map fun p => { p with early := p.early || decide (tim < 0) } } := by
  have hlimit := hs.limit
  unfold timeout at h
  dsimp only at h
  split at h
  · cases h
  · rename_i hroom
    cases h
    have hn : (s.calllimit + 1 + 1).toNat = (s.calllimit + 1).toNat + 1 := by omega
    have hplaced := heapUp_placed (hs.ordered.up_last (toInt (s.lbolt + tim))) (Nat.lt_succ_self _)
    refine ⟨rfl, ?_, ?_, by dsimp only; omega, rfl⟩
    · unfold contents
      rw [hn]
      exact (hplaced.contents _).trans contents_update_last
    · rw [hn]
      exact hplaced.ordered _ rfl

theorem untimeout_spec (hs : s.IsHeap) (id : Int) (h : s.untimeout id = (ret, u)) :
    (ret = -1 ∧ u = s ∧ ∀ q ∈ s.contents, q.cId ≠ id) ∨
    ∃ p, 0 ≤ ret ∧ p.cId = id ∧ s.contents = p ::ₘ u.contents ∧ u = { s with
        callout := u.callout
        calllimit := s.calllimit - 1
        cancelled := p ::ₘ s.cancelled } ∧
      Ordered Callo.cTime u.callout (u.calllimit + 1).toNat := by
  unfold untimeout at h
  cases hfound : search s.callout id (s.calllimit + 1).toNat 0 with
  | none =>
    rw [hfound] at h
    cases h
    refine Or.inl ⟨rfl, rfl, fun q hq => ?_⟩
    rcases mem_contents.mp hq with ⟨i, hi, rfl⟩
    exact search_spec.2 hfound i (Nat.zero_le i) (by omega)
  | some f =>
    right
    rw [hfound] at h
    rcases search_spec.1 f hfound with ⟨_, hf, hid⟩
    rcases Int.eq_ofNat_of_zero_le (a := s.calllimit) (by omega) with ⟨n, hn⟩
    have hold : (s.calllimit + 1).toNat = n + 1 := by omega
    have hnew : (s.calllimit - 1 + 1).toNat = n := by omega
    have hord := hs.ordered
    rw [hold] at hord
    dsimp only at h
    refine ⟨s.callout f, ?_⟩
    unfold contents
    rw [hold]
    split at h
    · rename_i hlast
      cases h
      refine ⟨by omega, hid, ?_, rfl, ?_⟩
      · have hfn : f = n := by omega
        rw [hnew, contents_succ, hfn]
      · rw [hnew]
        exact hord.mono (Nat.le_succ n)
    · rename_i hmiddle
      have hfn : f < n := by omega
      have hpend : s.calllimit.toNat = n := by omega
      have hplaced : Placed s.callout (s.callout n).cTime n f
          (if 0 < f ∧ (s.callout ((f - 1) / 2)).cTime > (s.callout n).cTime then
            heapUp s.callout (s.callout n).cTime f
          else heapDown (s.calllimit - 1) s.callout (s.callout n).cTime f) := by
        have hshort := hord.mono (Nat.le_succ n)
        split
        · rename_i hup
          exact heapUp_placed (hshort.up_of_lt hup.1 hup.2) hfn
        · rename_i hdown
          rw [not_and, gt_iff_lt, not_lt] at hdown
          exact heapDown_placed (by omega) (hshort.down_of_le hdown) hfn
      rcases hplaced.removed hfn with ⟨hnewOrd, hcontents⟩
      rw [if_pos (by omega), hpend] at h
      cases h
      refine ⟨by omega, hid, ?_, rfl, ?_⟩
      · rw [hnew]
        exact hcontents
      · rw [hnew]
        exact hnewOrd

theorem serve_spec (hs : s.IsHeap) (p : Pass) (hdue : s.Due) :
    s.contents = s.callout 0 ::ₘ (s.serve p).contents ∧
    (∀ q ∈ s.contents, (s.callout 0).cTime ≤ q.cTime) ∧ s.serve p = { s with
      callout := (s.serve p).callout
      calllimit := s.calllimit - 1
      fired := s.callout 0 ::ₘ s.fired
      pass := some { p with served := p.served ++ [s.callout 0] } } ∧
    Ordered Callo.cTime (s.serve p).callout ((s.serve p).calllimit + 1).toNat := by
  rcases Int.eq_ofNat_of_zero_le (a := s.calllimit) hdue.2 with ⟨n, hn⟩
  have hold : (s.calllimit + 1).toNat = n + 1 := by omega
  have hnew : (s.calllimit - 1 + 1).toNat = n := by omega
  have hpend : s.calllimit.toNat = n := by omega
  have hord := hs.ordered
  rw [hold] at hord
  have hmin : ∀ q ∈ Heap.contents s.callout (n + 1), (s.callout 0).cTime ≤ q.cTime := by
    intro q hq
    rcases mem_contents.mp hq with ⟨i, hi, rfl⟩
    exact hord.root_le hi
  unfold contents serve
  rw [hold, hpend]
  dsimp only
  split
  · have hzero : 0 < n := by omega
    have hplaced : Placed s.callout (s.callout n).cTime n 0
        (heapDown (s.calllimit - 1) s.callout (s.callout n).cTime 0) :=
      heapDown_placed (by omega)
        ((hord.mono (Nat.le_succ n)).down_of_le fun h => absurd h (Nat.lt_irrefl 0))
        hzero
    rcases hplaced.removed hzero with ⟨hnewOrd, hcontents⟩
    refine ⟨?_, hmin, rfl, ?_⟩
    · rw [hnew]
      exact hcontents
    · rw [hnew]
      exact hnewOrd
  · have hzero : n = 0 := by omega
    subst hzero
    refine ⟨?_, hmin, rfl, ?_⟩
    · rw [hnew, contents_succ]
    · rw [hnew]
      exact hord.mono (Nat.zero_le 1)

/-!
## The invariant over steps
-/

theorem sound_of_timeout (hs : s.Sound) (htime : toInt (s.lbolt + tim) = s.lbolt + tim)
    (h : s.timeout func arg tim = some (ret, u)) : u.Sound := by
  rcases timeout_spec hs.isHeap h with ⟨_, hcontents, hord, hroom, hu⟩
  have hlimit := hs.limit
  have hinserted : u.inserted = s.entry func arg tim ::ₘ s.inserted := by
    rw [hu]
  have hcard : u.inserted.card = s.inserted.card + 1 := by
    rw [hinserted, card_cons]
  have hid : toInt (s.timeid + 1) = toInt (s.inserted.card + 1 : Nat) := by
    rw [hs.timeid]
    unfold toInt
    rw [Int.bmod_add_bmod]
    rfl
  have hpass : ∀ q, u.pass = some q → ∃ p, s.pass = some p ∧
      q = { p with early := p.early || decide (tim < 0) } := by
    intro q hq
    rw [hu] at hq
    rcases Option.map_eq_some_iff.mp hq with ⟨p, hp, rfl⟩
    exact ⟨p, hp, rfl⟩
  refine ⟨⟨?_, ?_⟩, hord, ?_, ?_, ?_, ?_, ?_⟩
  · rw [hu]
    dsimp only
    omega
  · rw [hu] at hroom ⊢
    exact hroom
  · rw [hcontents, hinserted, ← hs.account, hu]
    simp only [cons_add]
  · rw [hcard, ← hid, hu]
  · rw [hcard, hinserted, map_cons, range_succ, map_cons, hs.ids, ← hid]
    rfl
  · intro q hq
    rcases hpass q hq with ⟨p, hp, rfl⟩
    rw [hu]
    exact hs.served p hp
  · intro q hq hearly
    rcases hpass q hq with ⟨p, hp, rfl⟩
    rw [Bool.or_eq_false_iff, decide_eq_false_iff_not, not_lt] at hearly
    rcases hs.sorted p hp hearly.1 with ⟨hpairs, hbefore⟩
    refine ⟨hpairs, fun x hx => ⟨?_, fun y hy => ?_⟩⟩
    · rw [hu]
      exact (hbefore x hx).1
    · rw [hcontents] at hy
      rcases mem_cons.mp hy with rfl | hy
      · change x.cTime ≤ toInt (s.lbolt + tim)
        have hx := (hbefore x hx).1
        omega
      · exact (hbefore x hx).2 y hy

theorem sound_of_untimeout (hs : s.Sound) (h : s.untimeout id = (ret, u)) : u.Sound := by
  rcases untimeout_spec hs.isHeap id h with ⟨_, rfl, _⟩ | ⟨p, _, _, hcontents, hu, hord⟩
  · exact hs
  · have hlimit := hs.limit
    have hpos : 0 < s.contents.card := by
      rw [hcontents, card_cons]
      exact Nat.succ_pos _
    unfold contents at hpos
    rw [card_contents] at hpos
    have haccount := hs.account
    rw [hcontents] at haccount
    refine ⟨?_, hord, ?_, ?_, ?_, ?_, ?_⟩
    · rw [hu]
      dsimp only
      omega
    · have hcancelled : u.cancelled = p ::ₘ s.cancelled := by rw [hu]
      have hfired : u.fired = s.fired := by rw [hu]
      have hinserted : u.inserted = s.inserted := by rw [hu]
      rw [hcancelled, hfired, hinserted, ← haccount, add_cons,
        cons_add, cons_add, cons_add]
    · rw [hu]
      exact hs.timeid
    · rw [hu]
      exact hs.ids
    · rw [hu]
      exact hs.served
    · intro q hq hearly
      have hq : s.pass = some q := by
        rw [hu] at hq
        exact hq
      rcases hs.sorted q hq hearly with ⟨hpairs, hbefore⟩
      refine ⟨hpairs, fun x hx => ⟨?_, fun y hy => (hbefore x hx).2 y ?_⟩⟩
      · rw [hu]
        exact (hbefore x hx).1
      · rw [hcontents]
        exact mem_cons_of_mem hy

theorem sound_of_serve (hs : s.Sound) {p : Pass} (hp : s.pass = some p)
    (hdue : s.Due) : (s.serve p).Sound := by
  rcases serve_spec hs.isHeap p hdue with ⟨hcontents, hmin, hu, hord⟩
  have hlimit := hs.limit
  have hnonneg := hdue.2
  have haccount := hs.account
  rw [hcontents] at haccount
  have hpass : (s.serve p).pass = some { p with served := p.served ++ [s.callout 0] } := by
    rw [hu]
  refine ⟨?_, hord, ?_, ?_, ?_, ?_, ?_⟩
  · rw [hu]
    dsimp only
    omega
  · have hcancelled : (s.serve p).cancelled = s.cancelled := by rw [hu]
    have hfired : (s.serve p).fired = s.callout 0 ::ₘ s.fired := by rw [hu]
    have hinserted : (s.serve p).inserted = s.inserted := by rw [hu]
    rw [hcancelled, hfired, hinserted, ← haccount, add_cons,
      cons_add, cons_add]
  · rw [hu]
    exact hs.timeid
  · rw [hu]
    exact hs.ids
  · intro q hq
    rw [hpass] at hq
    cases hq
    rw [hu, ← Multiset.coe_add, Multiset.coe_singleton, Multiset.add_comm, Multiset.singleton_add]
    exact Multiset.cons_le_cons _ (hs.served p hp)
  · intro q hq hearly
    rw [hpass] at hq
    cases hq
    rcases hs.sorted p hp hearly with ⟨hpairs, hbefore⟩
    have hroot : s.callout 0 ∈ s.contents := by
      rw [hcontents]
      exact mem_cons_self _ _
    refine ⟨?_, fun x hx => ?_⟩
    · refine List.pairwise_append.mpr ⟨hpairs, List.pairwise_singleton _ _, ?_⟩
      intro x hx y hy
      rw [List.mem_singleton.mp hy]
      exact (hbefore x hx).2 _ hroot
    · have hin : ∀ y ∈ (s.serve p).contents, y ∈ s.contents := by
        intro y hy
        rw [hcontents]
        exact mem_cons_of_mem hy
      rcases List.mem_append.mp hx with hx | hx
      · refine ⟨?_, fun y hy => (hbefore x hx).2 y (hin y hy)⟩
        rw [hu]
        exact (hbefore x hx).1
      · rw [List.mem_singleton.mp hx]
        refine ⟨?_, fun y hy => hmin y (hin y hy)⟩
        rw [hu]
        exact hdue.1

theorem sound_of_step {e : Event} (hs : s.Sound) (hok : s.NoOverflow e)
    (h : s.exec e = some (ret, u)) : u.Sound := by
  cases e with
  | timeout func arg tim => exact sound_of_timeout hs hok h
  | ttimeout func arg tim =>
    unfold exec ttimeout at h
    dsimp only at h
    split at h
    · cases h
      exact hs
    · exact sound_of_timeout hs hok h
  | untimeout id => exact sound_of_untimeout hs (Option.some.inj h)
  | begin =>
    unfold exec at h
    dsimp only at h
    split at h
    · cases h
      refine { hs with served := ?_, sorted := ?_ }
      · rintro p ⟨⟩
        exact zero_le _
      · rintro p ⟨⟩ _
        exact ⟨List.Pairwise.nil, nofun⟩
    · cases h
  | serve =>
    unfold exec at h
    dsimp only at h
    split at h
    · rename_i p hp
      split at h
      · rename_i hdue
        cases h
        exact sound_of_serve hs hp hdue
      · cases h
    · cases h
  | finish =>
    unfold exec at h
    dsimp only at h
    split at h
    · split at h
      · cases h
      · cases h
        exact { hs with served := nofun, sorted := nofun }
    · cases h
  | tick =>
    cases h
    refine { hs with sorted := fun p hp hearly => ?_ }
    rcases hs.sorted p hp hearly with ⟨hpairs, hbefore⟩
    refine ⟨hpairs, fun x hx => ⟨?_, (hbefore x hx).2⟩⟩
    have hle := (hbefore x hx).1
    have htick : toInt (s.lbolt + 1) = s.lbolt + 1 := hok
    change x.cTime ≤ toInt (s.lbolt + 1)
    omega

/-!
## Every run
-/

structure IsTable (s : System) : Prop where
  limit : -1 ≤ s.calllimit ∧ s.calllimit < s.vCall
  heap : Ordered Callo.cTime s.callout (s.calllimit + 1).toNat
  account : s.contents + s.cancelled + s.fired = s.inserted
  ids : s.inserted.card ≤ 2 ^ 32 → (s.contents.map Callo.cId).Nodup
  served : ∀ p, s.pass = some p → (p.served : Multiset Callo) ≤ s.fired ∧
    (p.early = false → p.served.Pairwise fun x y => x.cTime ≤ y.cTime)

def Effect (s : System) (ret : Int) (u : System) : Event → Prop
  | .timeout func arg tim =>
    ret = (s.entry func arg tim).cId ∧ u.contents = s.entry func arg tim ::ₘ s.contents
  | .ttimeout func arg tim =>
    (ret = -1 ∧ u = s ∧ s.contents.card = s.vCall) ∨
    (ret = (s.entry func arg tim).cId ∧ u.contents = s.entry func arg tim ::ₘ s.contents)
  | .untimeout id =>
    (ret = -1 ∧ u = s ∧ ∀ q ∈ s.contents, q.cId ≠ id) ∨
    ∃ p, 0 ≤ ret ∧ p.cId = id ∧ s.contents = p ::ₘ u.contents ∧
      u.cancelled = p ::ₘ s.cancelled ∧ u.fired = s.fired ∧
      (s.inserted.card ≤ 2 ^ 32 → u.contents = s.contents.filter fun q => q.cId ≠ id)
  | .serve =>
    ∃ p q, s.contents = p ::ₘ u.contents ∧ p.cTime ≤ s.lbolt ∧
      (∀ y ∈ s.contents, p.cTime ≤ y.cTime) ∧ u.fired = p ::ₘ s.fired ∧
      u.cancelled = s.cancelled ∧ s.pass = some q ∧
      u.pass = some { q with served := q.served ++ [p] }
  | .finish => u.contents = s.contents ∧ ∀ q ∈ s.contents, s.lbolt < q.cTime
  | .begin | .tick => u.contents = s.contents

theorem Sound.isTable (hs : s.Sound) : s.IsTable where
  limit := hs.limit
  heap := hs.ordered
  account := hs.account
  ids := hs.ids_nodup
  served p hp := ⟨hs.served p hp, fun hearly => (hs.sorted p hp hearly).1⟩

theorem Sound.effect_untimeout (hs : s.Sound)
    (h : s.untimeout id = (ret, u)) : s.Effect ret u (.untimeout id) := by
  rcases untimeout_spec hs.isHeap id h with hnone | ⟨p, hret, hid, hcontents, hu, _⟩
  · exact Or.inl hnone
  · refine Or.inr ⟨p, hret, hid, hcontents, by rw [hu], by rw [hu], fun hcard => ?_⟩
    have hnodup := hs.ids_nodup hcard
    rw [hcontents, map_cons, nodup_cons] at hnodup
    have hother : ∀ q ∈ u.contents, q.cId ≠ id := by
      intro q hq hqid
      rw [← hid] at hqid
      exact hnodup.1 (mem_map.mpr ⟨q, hq, hqid⟩)
    rw [hcontents, filter_cons_of_neg _ (fun h => h hid)]
    exact (filter_eq_self.mpr hother).symm

theorem Sound.not_due (hs : s.Sound) (hdue : ¬ s.Due) : ∀ q ∈ s.contents, s.lbolt < q.cTime := by
  intro q hq
  rcases mem_contents.mp hq with ⟨i, hi, rfl⟩
  have hroot := hs.ordered.root_le hi
  unfold Due at hdue
  omega

theorem Sound.effect (hs : s.Sound) {e : Event} (h : s.exec e = some (ret, u)) :
    s.Effect ret u e := by
  cases e with
  | timeout func arg tim =>
    rcases timeout_spec hs.isHeap h with ⟨hret, hcontents, _⟩
    exact ⟨hret, hcontents⟩
  | ttimeout func arg tim =>
    unfold exec ttimeout at h
    dsimp only at h
    split at h
    · rename_i hfull
      cases h
      refine Or.inl ⟨rfl, rfl, ?_⟩
      unfold contents
      rw [card_contents, hfull]
      rfl
    · rcases timeout_spec hs.isHeap h with ⟨hret, hcontents, _⟩
      exact Or.inr ⟨hret, hcontents⟩
  | untimeout id => exact hs.effect_untimeout (Option.some.inj h)
  | begin =>
    unfold exec at h
    dsimp only at h
    split at h <;> cases h
    rfl
  | serve =>
    unfold exec at h
    dsimp only at h
    split at h
    · rename_i q hq
      split at h
      · rename_i hdue
        cases h
        rcases serve_spec hs.isHeap q hdue with ⟨hcontents, hmin, hu, _⟩
        exact ⟨s.callout 0, q, hcontents, hdue.1, hmin, by rw [hu], by rw [hu], hq, by rw [hu]⟩
      · cases h
    · cases h
  | finish =>
    unfold exec at h
    dsimp only at h
    split at h
    · split at h
      · cases h
      · rename_i hdue
        cases h
        exact ⟨rfl, hs.not_due hdue⟩
    · cases h
  | tick =>
    cases h
    rfl

/-- The callout table over every run in which no time overflows. -/
theorem callout_table (hs : ReachableWhen Start Step NoOverflow s) :
    s.IsTable ∧ ∀ e ret u, s.exec e = some (ret, u) → s.Effect ret u e := by
  have hsound : s.Sound := by
    refine hs.invariant (fun _ => sound_of_start) ?_
    rintro s e t hinv hok ⟨ret, hexec⟩
    exact sound_of_step hinv hok hexec
  exact ⟨hsound.isTable, fun e ret u h => hsound.effect h⟩

def quiet : System where
  callout := fun _ => ⟨0, 0, 0, 0⟩
  calllimit := -1
  vCall := 2
  timeid := 0
  lbolt := 10
  inserted := 0
  cancelled := 0
  fired := 0
  pass := none

theorem reachable_quiet : ReachableWhen Start Step NoOverflow quiet :=
  ReachableWhen.start ⟨rfl, rfl, rfl, rfl, rfl, rfl⟩

def single (s : System) (func arg : Nat) (tim : Int) : System :=
  { s with
    callout := update s.callout 0 (s.entry func arg tim)
    calllimit := 0
    timeid := toInt (s.timeid + 1)
    inserted := s.entry func arg tim ::ₘ s.inserted
    pass := s.pass.map fun p => { p with early := p.early || decide (tim < 0) } }

theorem timeout_single (hempty : s.calllimit = -1) (hroom : s.vCall ≠ 0)
    (func arg : Nat) (tim : Int) :
    s.timeout func arg tim = some (toInt (s.timeid + 1), s.single func arg tim) := by
  have hup : heapUp s.callout (toInt (s.lbolt + tim)) (-1 + 1 : Int).toNat = (s.callout, 0) := by
    unfold heapUp
    exact if_neg (Nat.lt_irrefl 0)
  unfold timeout
  rw [hempty]
  rw [if_neg (by omega), hup]
  rfl

/-- A pass begins while one entry, for the time now, is in the table. -/
def onePending : System := { quiet.single 1 0 0 with pass := some ⟨[], false⟩ }

theorem reachable_onePending : ReachableWhen Start Step NoOverflow onePending := by
  have hsingle : ReachableWhen Start Step NoOverflow (quiet.single 1 0 0) :=
    reachable_quiet.next (e := .timeout 1 0 0) rfl
      ⟨1, timeout_single (s := quiet) rfl (by decide) 1 0 0⟩
  exact hsingle.next (e := .begin) trivial ⟨0, rfl⟩

theorem callout_table_onePending : onePending.contents = {⟨10, 1, 0, 1⟩} ∧
    onePending.IsTable :=
  ⟨rfl, (callout_table reachable_onePending).1⟩

/-- An entry made for a time before the clock is called in the same pass. -/
theorem earlier_called_later : ∃ s p, ReachableWhen Start Step NoOverflow s ∧
    s.pass = some p ∧ ¬ p.served.Pairwise fun x y => x.cTime ≤ y.cTime := by
  let s₁ := onePending.serve ⟨[], false⟩
  let s₂ := s₁.single 2 0 (-5)
  let p : Pass := ⟨[⟨10, 1, 0, 1⟩], true⟩
  have hserve : ReachableWhen Start Step NoOverflow s₁ :=
    reachable_onePending.next (e := .serve) trivial ⟨0, rfl⟩
  have hearly : ReachableWhen Start Step NoOverflow s₂ :=
    hserve.next (e := .timeout 2 0 (-5)) (show toInt (10 + -5) = 10 + -5 by decide)
      ⟨2, timeout_single (s := s₁) rfl (by decide) 2 0 (-5)⟩
  have hlast : ReachableWhen Start Step NoOverflow (s₂.serve p) :=
    hearly.next (e := .serve) trivial ⟨0, rfl⟩
  refine ⟨s₂.serve p, ⟨[⟨10, 1, 0, 1⟩, ⟨5, 2, 0, 2⟩], true⟩, hlast, rfl, ?_⟩
  decide

end System
end Callout
end Svr4
