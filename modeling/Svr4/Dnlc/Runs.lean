import Mathlib.Algebra.BigOperators.Ring.Finset
import Svr4.Dnlc.Entries

/-!
# The name cache over whole runs

The loops that purge the cache end, and they leave no entry that they are to
purge; every routine keeps the cache coherent; and what holds in every run.
-/

namespace Svr4
namespace Dnlc

open Function Rings Transition List

variable {s t : Cache} {i j : Nat}

def Ok (s : Cache) : Prop := 0 < s.ncsize ∧ ∃ L B, Sound s L B

def used (s : Cache) : Nat :=
  ((Finset.range s.ncsize).filter fun i => (s.ncache i).dp ≠ none).card

theorem used_le (s : Cache) : used s ≤ s.ncsize := by
  have hle := Finset.card_filter_le (Finset.range s.ncsize) fun i => (s.ncache i).dp ≠ none
  rwa [Finset.card_range] at hle

theorem used_rm (hi : i < s.ncsize) (hdp : (s.ncache i).dp ≠ none) :
    used (s.dnlcRm i) + 1 = used s := by
  have herase : ((Finset.range s.ncsize).filter fun j =>
      ((s.dnlcRm i).ncache j).dp ≠ none) =
      ((Finset.range s.ncsize).filter fun j => (s.ncache j).dp ≠ none).erase i := by
    ext j
    rw [Finset.mem_erase, Finset.mem_filter, Finset.mem_filter, rm_ncache]
    by_cases hj : j = i
    · rw [hj, update_self]
      exact ⟨fun hmem => absurd rfl hmem.2, fun hmem => absurd rfl hmem.1⟩
    · rw [update_of_ne hj]
      exact ⟨fun hmem => ⟨hj, hmem⟩, fun hmem => hmem.2⟩
  unfold used
  rw [rm_ncsize, herase]
  exact Finset.card_erase_add_one (Finset.mem_filter.mpr ⟨Finset.mem_range.mpr hi, hdp⟩)

theorem Ok.rm (hs : Ok s) (hi : i < s.ncsize) : Ok (s.dnlcRm i) := by
  rcases hs with ⟨hpos, L, B, hsound⟩
  rcases append_of_mem ((hsound.all i).mpr hi) with ⟨a, b, rfl⟩
  exact ⟨hpos, _, _, hsound.rm⟩

theorem Ok.logged (hs : Ok s) {x : Log}
    (hx : ∀ i < s.ncsize, ∀ dp vp, (s.ncache i).dp = some dp → (s.ncache i).vp = some vp →
      ¬ Covers dp (s.ncache i).name (s.ncache i).cred vp x) : Ok { s with log := x :: s.log } := by
  rcases hs with ⟨hpos, L, B, hsound⟩
  exact ⟨hpos, L, B, hsound.logged hx⟩

theorem Ok.dp_ne_none (hs : Ok s) (hi : i < s.ncsize)
    (h : (s.ncache i).dp ≠ none ∨ (s.ncache i).vp ≠ none) :
    (s.ncache i).dp ≠ none ∧ (s.ncache i).vp ≠ none := by
  rcases hs with ⟨_, L, B, hsound⟩
  rcases hsound.shape i hi with ⟨hdp, hvp, _⟩ | ⟨dp, vp, name, hdp, hvp, _⟩
  · rw [hdp, hvp] at h
    exact absurd rfl (h.elim id id)
  · rw [hdp, hvp]
    exact ⟨nofun, nofun⟩

theorem rmLogged_ncsize : (s.rmLogged i).ncsize = s.ncsize := by
  unfold Cache.rmLogged
  split <;> rfl

theorem rmLogged_ncache : (s.rmLogged i).ncache = (s.dnlcRm i).ncache := by
  unfold Cache.rmLogged
  split <;> rfl

theorem used_rmLogged : used (s.rmLogged i) = used (s.dnlcRm i) := by
  unfold used
  rw [rmLogged_ncsize, rmLogged_ncache, rm_ncsize]

theorem Ok.rmLogged (hs : Ok s) (hi : i < s.ncsize) : Ok (s.rmLogged i) := by
  have hrm := hs.rm hi
  unfold Cache.rmLogged
  split
  · exact hrm
  · rename_i dp hdp
    rcases hs with ⟨_, L, B, hsound⟩
    refine hrm.logged fun j hj dp' vp' hdp' _ => ?_
    have hji : j ≠ i := by
      rintro rfl
      rw [rm_ncache, update_self] at hdp'
      cases hdp'
    rw [rm_ncache, update_of_ne hji] at hdp' ⊢
    rintro ⟨rfl, hname, hcred⟩
    have hne : (s.ncache i).dp ≠ none := by
      rw [hdp]
      nofun
    exact hji (hsound.keys i hi j hj hne (hdp.trans hdp'.symm) hname hcred).symm

/-!
## The loops
-/

variable {fuel n : Nat}

theorem removeLoop_spec (dp : Nat) (name : Name) (hs : Ok s)
    (hfuel : used s < fuel) : ∃ t, Cache.removeLoop dp name fuel s = some t ∧ Ok t ∧
      ∀ i < t.ncsize, ¬ Cache.Matches (t.ncache i) dp name.chars none := by
  induction fuel generalizing s with
  | zero => cases hfuel
  | succ fuel ih =>
    unfold Cache.removeLoop
    have hsound := hs
    rcases hsound with ⟨_, L, B, hsound⟩
    rcases hsound.search dp name none with ⟨i, hi, _, hmatch, hrun⟩ | ⟨hnone, hrun⟩
    · rw [hrun]
      have hdp : (s.ncache i).dp ≠ none := by
        rw [hmatch.1]
        nofun
      have hused := used_rm hi hdp
      exact ih (hs.rm hi) (by omega)
    · rw [hrun]
      exact ⟨s, rfl, hs, hnone⟩

theorem firstHashed_spec {L : List Nat} {B : Nat → List Nat} (hs : Sound s L B)
    {left h : Nat} (hleft : h + left = ncHashSize) :
    (∃ i < s.ncsize, (s.ncache i).dp ≠ none ∧ s.firstHashed left h = some i) ∨
    ((∀ k, h ≤ k → k < ncHashSize → B k = []) ∧ s.firstHashed left h = none) := by
  induction left generalizing h with
  | zero => exact .inr ⟨fun k hk hlt => by omega, rfl⟩
  | succ left ih =>
    have hh : h < ncHashSize := by omega
    have hnext := (hs.lists.hash.chain h hh).linked.next_eq
    unfold Cache.firstHashed
    cases hB : B h with
    | nil =>
      rw [hB, map_nil, headD_nil] at hnext
      rw [hnext]
      rcases ih (h := h + 1) (by omega) with hfound | ⟨hnone, hrun⟩
      · exact .inl hfound
      · refine .inr ⟨fun k hk hlt => ?_, hrun⟩
        rcases Nat.eq_or_lt_of_le hk with rfl | hk
        · exact hB
        · exact hnone k hk hlt
    | cons i l =>
      rw [hB, map_cons, headD_cons] at hnext
      rw [hnext]
      have hmem : i ∈ B h := by
        rw [hB]
        exact mem_cons_self
      rcases (hs.mem h hh i).mp hmem with ⟨hi, dp, name, hdp, _⟩
      refine .inl ⟨i, hi, ?_, rfl⟩
      rw [hdp]
      nofun

theorem purgeLoop_spec (hs : Ok s) (hfuel : used s < fuel) :
    ∃ t, Cache.purgeLoop fuel s = some t ∧ Ok t ∧ ∀ i < t.ncsize, (t.ncache i).dp = none := by
  induction fuel generalizing s with
  | zero => cases hfuel
  | succ fuel ih =>
    unfold Cache.purgeLoop
    have hsound := hs
    rcases hsound with ⟨_, L, B, hsound⟩
    rcases firstHashed_spec hsound (h := 0) (Nat.zero_add _) with ⟨i, hi, hdp, hrun⟩ | ⟨hnone, hrun⟩
    · rw [hrun]
      have hboth := hs.dp_ne_none hi (.inl hdp)
      have hused := used_rm hi hdp
      dsimp only
      rw [if_neg fun h => h.elim hboth.1 hboth.2]
      exact ih (hs.rm hi) (by omega)
    · rw [hrun]
      refine ⟨s, rfl, hs, fun i hi => ?_⟩
      rcases hsound.shape i hi with ⟨hdp, _⟩ | ⟨dp, vp, name, hdp, _, hname⟩
      · exact hdp
      · have hlt := ncHash_lt name dp
        have hmem := (hsound.mem _ hlt i).mpr ⟨hi, dp, name, hdp, hname, rfl⟩
        rw [hnone _ (Nat.zero_le _) hlt] at hmem
        cases hmem

theorem purgeVpLoop_spec (vp : Nat) (hs : Ok s) (hfuel : used s < fuel) :
    ∃ t, Cache.purgeVpLoop vp fuel s = some t ∧ Ok t ∧
      ∀ i < t.ncsize, ¬ Cache.References vp (t.ncache i) := by
  induction fuel generalizing s with
  | zero => cases hfuel
  | succ fuel ih =>
    unfold Cache.purgeVpLoop
    have hsound := hs
    rcases hsound with ⟨_, L, B, hsound⟩
    rcases hsound.findLru (Cache.References vp) with ⟨i, hi, href, hrun⟩ | ⟨hnone, hrun⟩
    · rw [hrun]
      have hdp := (hs.dp_ne_none hi (href.imp (fun h => by rw [h]; nofun)
        fun h => by rw [h]; nofun)).1
      have hused := used_rm hi hdp
      exact ih (hs.rm hi) (by omega)
    · rw [hrun]
      exact ⟨s, rfl, hs, hnone⟩

theorem Ok.onVfs_dp (hs : Ok s) {vVfsp : Nat → Nat} {vfsp : Nat} (hi : i < s.ncsize)
    (h : Cache.OnVfs vVfsp vfsp (s.ncache i)) : (s.ncache i).dp ≠ none := by
  refine (hs.dp_ne_none hi ?_).1
  rcases h with ⟨dp, hdp, _⟩ | ⟨vp, hvp, _⟩
  · left
    intro hnone
    rw [hnone] at hdp
    cases hdp
  · right
    intro hnone
    rw [hnone] at hvp
    cases hvp

theorem purgeVfspLoop_spec (vVfsp : Nat → Nat) (vfsp : Nat) (count : Int) {n : Int} (hs : Ok s)
    (hfuel : used s < fuel) :
    ∃ m t, Cache.purgeVfspLoop vVfsp vfsp count fuel n s = some (m, t) ∧ Ok t ∧
      (count = 0 → ∀ i < t.ncsize, ¬ Cache.OnVfs vVfsp vfsp (t.ncache i)) := by
  induction fuel generalizing s n with
  | zero => cases hfuel
  | succ fuel ih =>
    unfold Cache.purgeVfspLoop
    have hsound := hs
    rcases hsound with ⟨_, L, B, hsound⟩
    rcases hsound.findLru (Cache.OnVfs vVfsp vfsp) with ⟨i, hi, hon, hrun⟩ | ⟨hnone, hrun⟩
    · rw [hrun]
      have hused := used_rm hi (hs.onVfs_dp hi hon)
      have hlogged := used_rmLogged (s := s) (i := i)
      dsimp only
      split
      · exact ih (hs.rmLogged hi) (by omega)
      · rename_i hlast
        refine ⟨_, _, rfl, hs.rmLogged hi, fun hcount => ?_⟩
        exact absurd (.inl hcount) hlast
    · rw [hrun]
      exact ⟨n, s, rfl, hs, fun _ => hnone⟩

/-!
## The routines
-/

section

variable (hs : Ok s)
include hs

theorem Ok.dnlcEnter (dp : Nat) (name : Name) (vp : Nat)
    (cred : Option Nat) : ∃ t, s.dnlcEnter dp name vp cred = some t ∧ Ok t ∧
      ((t = s ∧ (ncNamlen < name.chars.length ∨
        ∃ i < s.ncsize, Cache.Matches (s.ncache i) dp name.chars (some cred))) ∨
      t.log = .entered dp name.chars cred vp :: s.log) := by
  have hok := hs
  rcases hok with ⟨hpos, L, B, hsound⟩
  unfold Cache.dnlcEnter
  split
  · rename_i hlong
    exact ⟨s, rfl, hs, .inl ⟨rfl, .inl hlong⟩⟩
  · rcases hsound.search dp name (some cred) with ⟨i, hi, _, hmatch, hrun⟩ | ⟨hnone, hrun⟩
    · rw [hrun]
      exact ⟨s, rfl, hs, .inl ⟨rfl, .inr ⟨i, hi, hmatch⟩⟩⟩
    · rw [hrun]
      have hfirst := hsound.lists.lru.linked.next_eq
      cases L with
      | nil =>
        have hmem := (hsound.all 0).mpr hpos
        cases hmem
      | cons i b =>
        rw [hfirst]
        exact ⟨_, rfl, ⟨hpos, _, _, hsound.fill hnone⟩, .inr rfl⟩

theorem Ok.dnlcLookup (dp : Nat) (name : Name) (cred : Option Nat) :
    ∃ r t, s.dnlcLookup dp name cred = some (r, t) ∧ Ok t ∧
      ∀ vp, r = some vp → Entered s.log dp name.chars cred vp := by
  have hok := hs
  rcases hok with ⟨hpos, L, B, hsound⟩
  unfold Cache.dnlcLookup
  split
  · exact ⟨none, s, rfl, hs, nofun⟩
  · rcases hsound.search dp name (some cred) with ⟨i, hi, hmem, hmatch, hrun⟩ | ⟨hnone, hrun⟩
    · dsimp only
      rw [hrun]
      rcases append_of_mem ((hsound.all i).mpr hi) with ⟨a, b, rfl⟩
      rcases hsound.touch (ncHash_lt name dp) hmem with ⟨B', htouch⟩
      have hsame : SameEntries s (s.touch i (ncHash name dp)) := sameEntries_touch
      refine ⟨_, _, rfl, ⟨?_, _, _, htouch⟩, fun vp hvp => ?_⟩
      · rw [hsame.ncsize]
        exact hpos
      · rw [hsame.ncache] at hvp
        have hentered := hsound.entered i hi dp vp hmatch.1 hvp
        rwa [hmatch.2.1, hmatch.2.2 cred rfl] at hentered
    · dsimp only
      rw [hrun]
      exact ⟨none, s, rfl, hs, nofun⟩

theorem Ok.dnlcRemove (dp : Nat) (name : Name) :
    ∃ t, s.dnlcRemove dp name = some t ∧ Ok t := by
  unfold Cache.dnlcRemove
  split
  · exact ⟨s, rfl, hs⟩
  · rcases removeLoop_spec dp name hs (Nat.lt_succ_of_le (used_le s)) with ⟨t, hrun, ht, hnone⟩
    rw [hrun]
    refine ⟨_, rfl, ht.logged fun i hi dp' vp' hdp _ => ?_⟩
    rintro ⟨rfl, hname⟩
    exact hnone i hi ⟨hdp, hname.symm, nofun⟩

theorem Ok.dnlcPurge : ∃ t, s.dnlcPurge = some t ∧ Ok t := by
  rcases purgeLoop_spec hs (Nat.lt_succ_of_le (used_le s)) with ⟨t, hrun, ht, hnone⟩
  unfold Cache.dnlcPurge
  rw [hrun]
  refine ⟨_, rfl, ht.logged fun i hi dp vp hdp _ => ?_⟩
  rw [hnone i hi] at hdp
  cases hdp

theorem Ok.dnlcPurgeVp (vp : Nat) : ∃ t, s.dnlcPurgeVp vp = some t ∧ Ok t := by
  rcases purgeVpLoop_spec vp hs (Nat.lt_succ_of_le (used_le s)) with ⟨t, hrun, ht, hnone⟩
  unfold Cache.dnlcPurgeVp
  rw [hrun]
  refine ⟨_, rfl, ht.logged fun i hi dp' vp' hdp hvp => ?_⟩
  rintro (rfl | rfl)
  · exact hnone i hi (.inl hdp)
  · exact hnone i hi (.inr hvp)

theorem Ok.dnlcPurgeVfsp (vVfsp : Nat → Nat) (vfsp : Nat) (count : Int) :
    ∃ m t, s.dnlcPurgeVfsp vVfsp vfsp count = some (m, t) ∧ Ok t := by
  rcases purgeVfspLoop_spec vVfsp vfsp count (n := 0) hs
    (Nat.lt_succ_of_le (used_le s)) with ⟨m, t, hrun, ht, hnone⟩
  unfold Cache.dnlcPurgeVfsp
  rw [hrun]
  by_cases hcount : count = 0
  · refine ⟨m, { t with log := .purgedVfsp vVfsp vfsp :: t.log }, if_pos hcount,
      ht.logged fun i hi dp vp hdp hvp => ?_⟩
    rintro (hon | hon)
    · exact hnone hcount i hi (.inl ⟨dp, hdp, hon⟩)
    · exact hnone hcount i hi (.inr ⟨vp, hvp, hon⟩)
  · exact ⟨m, t, if_neg hcount, ht⟩

theorem Ok.dnlcPurge1 : ∃ m t, s.dnlcPurge1 = some (m, t) ∧ Ok t := by
  have hok := hs
  rcases hok with ⟨_, L, B, hsound⟩
  unfold Cache.dnlcPurge1
  rcases hsound.findLru Cache.InUse with ⟨i, hi, _, hrun⟩ | ⟨_, hrun⟩
  · rw [hrun]
    exact ⟨1, _, rfl, hs.rmLogged hi⟩
  · rw [hrun]
    exact ⟨0, s, rfl, hs⟩

theorem Ok.exec (e : Cache.Event) : ∃ t, s.exec e = some t ∧ Ok t := by
  cases e with
  | enter dp name vp cred =>
    rcases hs.dnlcEnter dp name vp cred with ⟨t, hrun, ht, _⟩
    exact ⟨t, hrun, ht⟩
  | lookup dp name cred =>
    rcases hs.dnlcLookup dp name cred with ⟨r, t, hrun, ht, _⟩
    exact ⟨t, congrArg (Option.map Prod.snd) hrun, ht⟩
  | remove dp name => exact hs.dnlcRemove dp name
  | purge => exact hs.dnlcPurge
  | purgeVp vp => exact hs.dnlcPurgeVp vp
  | purgeVfsp vVfsp vfsp count =>
    rcases hs.dnlcPurgeVfsp vVfsp vfsp count with ⟨m, t, hrun, ht⟩
    exact ⟨t, congrArg (Option.map Prod.snd) hrun, ht⟩
  | purge1 =>
    rcases hs.dnlcPurge1 with ⟨m, t, hrun, ht⟩
    exact ⟨t, congrArg (Option.map Prod.snd) hrun, ht⟩

end

/-!
## The initial cache
-/

theorem initEntries_spec {s : Cache} (hnext : s.hashNext = id) (hprev : s.hashPrev = id)
    (hcache : s.ncache = fun _ => ⟨none, none, [], none⟩)
    (hlru : Closed s.lruNext s.lruPrev .lru []) : ∃ L : List Nat, (∀ i, i ∈ L ↔ i < n) ∧
      Closed (Cache.initEntries n s).lruNext (Cache.initEntries n s).lruPrev .lru (L.map .entry) ∧
      Cache.initEntries n s = { s with
        lruNext := (Cache.initEntries n s).lruNext
        lruPrev := (Cache.initEntries n s).lruPrev } := by
  induction n with
  | zero => exact ⟨[], fun i => by simp, hlru, rfl⟩
  | succ n ih =>
    rcases ih with ⟨L, hL, hring, heq⟩
    have hnot : n ∉ L := fun hmem => Nat.lt_irrefl n ((hL n).mp hmem)
    refine ⟨n :: L, fun i => ?_, inslru (a := []) hring hnot rfl, ?_⟩
    · rw [mem_cons, hL i]
      omega
    · have hall : ∀ (g : Ref → Ref) (x : Ref), g = id → update g x x = g := by
        rintro g x rfl
        exact update_eq_self x id
      have hsame : update s.ncache n { s.ncache n with dp := none, vp := none } = s.ncache := by
        rw [hcache]
        exact update_eq_self n _
      unfold Cache.initEntries
      rw [heq]
      unfold Cache.nullHash Cache.ncInslru
      dsimp only
      rw [hall _ _ hnext, hall _ _ hprev, hsame]

theorem initHash_spec {s : Cache} (hnext : s.hashNext = id)
    (hprev : s.hashPrev = id) : Cache.initHash n s = s := by
  induction n with
  | zero => rfl
  | succ n ih =>
    have hall : ∀ (g : Ref → Ref) (x : Ref), g = id → update g x x = g := by
      rintro g x rfl
      exact update_eq_self x id
    unfold Cache.initHash
    rw [ih]
    unfold Cache.nullHash
    rw [hall _ _ hnext, hall _ _ hprev]

theorem ok_of_start (hs : s.Start) : Ok s := by
  rcases hs with ⟨n, hn, rfl⟩
  unfold Cache.dnlcInit
  let base : Cache :=
    { ncsize := n
      hashNext := id
      hashPrev := id
      lruNext := update id .lru .lru
      lruPrev := update id .lru .lru
      ncache := fun _ => ⟨none, none, [], none⟩
      vHolds := fun _ => 0
      crHolds := fun _ => 0
      log := [] }
  have hlru : Closed base.lruNext base.lruPrev .lru [] :=
    ⟨⟨rfl, rfl⟩, nodup_singleton _⟩
  rcases initEntries_spec (n := n) (s := base) rfl rfl rfl hlru with ⟨L, hL, hring, heq⟩
  have hnext : (Cache.initEntries n base).hashNext = id := by rw [heq]
  have hprev : (Cache.initEntries n base).hashPrev = id := by rw [heq]
  have hcache : (Cache.initEntries n base).ncache = fun _ => ⟨none, none, [], none⟩ := by rw [heq]
  have hsize : (Cache.initEntries n base).ncsize = n := by rw [heq]
  have hvHolds : (Cache.initEntries n base).vHolds = fun _ => 0 := by rw [heq]
  have hcrHolds : (Cache.initEntries n base).crHolds = fun _ => 0 := by rw [heq]
  rw [initHash_spec hnext hprev]
  refine ⟨by rw [hsize]; exact hn, L, fun _ => [], ⟨hring, ⟨?_, nofun, ?_⟩⟩, ?_, ?_, ?_, ?_,
    ?_, ?_, ?_⟩
  · intro h _
    rw [hnext, hprev]
    exact ⟨⟨rfl, rfl⟩, nodup_singleton _⟩
  · intro i _ _
    rw [hnext, hprev]
    exact ⟨rfl, rfl⟩
  · intro i
    rw [hsize]
    exact hL i
  · intro h _ i
    rw [hcache]
    refine ⟨nofun, ?_⟩
    rintro ⟨_, dp, name, hdp, _⟩
    cases hdp
  · intro i _
    rw [hcache]
    exact .inl ⟨rfl, rfl, rfl⟩
  · intro i _ j _ hdp
    rw [hcache] at hdp
    exact absurd rfl hdp
  · intro v
    rw [hvHolds, hcache]
    exact (Finset.sum_const_zero).symm
  · intro c
    rw [hcrHolds, hcache]
    exact (Finset.sum_const_zero).symm
  · intro i _ dp vp hdp
    rw [hcache] at hdp
    cases hdp

/-!
## Every run
-/

structure Coherent (s : Cache) : Prop where
  /-- Every entry is on the LRU list, once. -/
  lru : ∃ L : List Nat, Closed s.lruNext s.lruPrev .lru (L.map .entry) ∧
    L.Perm (List.range s.ncsize)
  /-- The entries of a chain are those in use whose key has its hash value. -/
  chains : ∃ B : Nat → List Nat, (∀ h < ncHashSize,
      Closed s.hashNext s.hashPrev (.hash h) ((B h).map .entry) ∧
      ∀ i, i ∈ B h ↔ i < s.ncsize ∧ OnChain (s.ncache i) h) ∧
    ∀ i < s.ncsize, (s.ncache i).dp ≠ none → ∃ h < ncHashSize, i ∈ B h
  keys : ∀ i < s.ncsize, ∀ j < s.ncsize, (s.ncache i).dp ≠ none →
    (s.ncache i).dp = (s.ncache j).dp → (s.ncache i).name = (s.ncache j).name →
    (s.ncache i).cred = (s.ncache j).cred → i = j
  /-- A vnode is held once for each entry it is the directory of, and once for each
  it is the file of. -/
  vHolds : ∀ v, s.vHolds v =
    ((Finset.range s.ncsize).filter fun i => (s.ncache i).dp = some v).card +
    ((Finset.range s.ncsize).filter fun i => (s.ncache i).vp = some v).card
  crHolds : ∀ c, s.crHolds c =
    ((Finset.range s.ncsize).filter fun i => (s.ncache i).cred = some c).card
  /-- What is looked up was the last vnode entered for the key, and nothing later
  covers it. -/
  lookup : ∀ dp name cred, ∃ r t, s.dnlcLookup dp name cred = some (r, t) ∧
    ∀ vp, r = some vp → Entered s.log dp name.chars cred vp
  /-- A name is entered unless it is too long or its key is in the cache. -/
  enter : ∀ dp name vp cred, ∃ t, s.dnlcEnter dp name vp cred = some t ∧
    ((t = s ∧ (ncNamlen < name.chars.length ∨
      ∃ i < s.ncsize, Cache.Matches (s.ncache i) dp name.chars (some cred))) ∨
    t.log = .entered dp name.chars cred vp :: s.log)
  total : ∀ e, ∃ t, s.exec e = some t

theorem Ok.isCoherent (hs : Ok s) : Coherent s := by
  have hok := hs
  rcases hok with ⟨_, L, B, hsound⟩
  refine ⟨⟨L, hsound.lists.lru, ?_⟩, ⟨B, fun h hh => ?_, fun i hi hdp => ?_⟩,
    hsound.keys, fun v => ?_, fun c => ?_, fun dp name cred => ?_,
    fun dp name vp cred => ?_, fun e => ?_⟩
  · refine (perm_ext_iff_of_nodup hsound.lists.nodup nodup_range).mpr fun i => ?_
    rw [hsound.all i, mem_range]
  · exact ⟨hsound.lists.hash.chain h hh, hsound.mem h hh⟩
  · rcases hsound.shape i hi with ⟨hnone, _⟩ | ⟨dp, vp, name, hdp, _, hname⟩
    · exact absurd hnone hdp
    · have hlt := ncHash_lt name dp
      exact ⟨_, hlt, (hsound.mem _ hlt i).mpr ⟨hi, dp, name, hdp, hname, rfl⟩⟩
  · rw [hsound.vHolds v, Finset.natCast_card_filter, Finset.natCast_card_filter,
      ← Finset.sum_add_distrib]
    rfl
  · rw [hsound.crHolds c, Finset.natCast_card_filter]
    rfl
  · rcases hs.dnlcLookup dp name cred with ⟨r, t, hrun, _, hr⟩
    exact ⟨r, t, hrun, hr⟩
  · rcases hs.dnlcEnter dp name vp cred with ⟨t, hrun, _, ht⟩
    exact ⟨t, hrun, ht⟩
  · rcases hs.exec e with ⟨t, hrun, _⟩
    exact ⟨t, hrun⟩

def nameA : Name := ⟨[97], by decide⟩

def enteredOnce : Cache := ((Cache.dnlcInit 2).dnlcEnter 5 nameA 6 none).getD (Cache.dnlcInit 2)

theorem reachable_enteredOnce : Reachable Cache.Start Cache.Step enteredOnce := by
  have hstart : Reachable Cache.Start Cache.Step (Cache.dnlcInit 2) :=
    Reachable.start ⟨2, by decide, rfl⟩
  exact hstart.next (e := .enter 5 nameA 6 none) rfl

end Dnlc
end Svr4
