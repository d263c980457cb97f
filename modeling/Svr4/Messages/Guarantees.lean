import Svr4.Messages.Runs

/-!
# Reference counts and triplets

In the runs that keep away from the limit of a reference count every count is
right, a data block is released with its last reference, and a triplet is free
when nobody uses its header or its data block.
-/

namespace Svr4
namespace Messages

open Function Transition List Pool

def System.users (s : System) (d : Nat) : Nat :=
  s.held.countP fun bp => decide (s.pool.datap bp = d)

/-- Reference counts are those of live message blocks, and data blocks are released once. -/
structure System.Counts (s : System) : Prop where
  ref : ∀ bp ∈ s.held, s.pool.ref (s.pool.datap bp) = s.users (s.pool.datap bp)
  life : ∀ d, s.pool.takings d = s.pool.releases d + if s.users d = 0 then 0 else 1

/-- Nothing that is on a free list is used, or there twice. -/
structure System.Recycles (s : System) : Prop where
  mdb_nodup : s.pool.mdbfreelist.Nodup
  mdb : ∀ t, t ∈ s.pool.mdbfreelist ↔
    t ∈ s.pool.mdbs ∧ t ∉ s.held ∧ ∀ bp ∈ s.held, s.pool.datap bp ≠ t
  msg_nodup : s.pool.msgfreelist.Nodup
  msg : ∀ h, h ∈ s.pool.msgfreelist ↔ h ∈ s.pool.msgs ∧ h ∉ s.held
  data : ∀ bp ∈ s.held, s.pool.datap bp ∈ s.pool.mdbs
  apart : ∀ h ∈ s.pool.msgs, h ∉ s.pool.mdbs

namespace System

variable {s : System}

theorem refs_eq_users (s : System) (d : Nat) :
    refs s.held (fun h => some (s.pool.datap h)) [] d = s.users d := by
  simp [refs, users]

theorem users_eq_zero {d : Nat} : s.users d = 0 ↔ ∀ bp ∈ s.held, s.pool.datap bp ≠ d := by
  simp [users, countP_eq_zero]

theorem Sound.counts (hs : s.Sound) : s.Counts where
  ref bp hbp := by
    rw [← refs_eq_users]
    exact Messages.Sound.ref_eq hs hbp
  life d := by
    rw [← refs_eq_users]
    exact hs.counted.life d

theorem Sound.recycles (hs : s.Sound) : s.Recycles where
  mdb_nodup := hs.counted.mdb_nodup
  mdb t := by
    rw [hs.counted.mdbfree, refs_eq_users, users_eq_zero]
  msg_nodup := hs.counted.msg_nodup
  msg := hs.counted.msgfree
  data bp hbp := hs.data bp hbp _ rfl
  apart _ hh := hs.counted.not_mdbs hh

/-!
## Data blocks
-/

/-- Where no count is at its limit, every count is that of the references. -/
theorem reference_counts (hs : ReachableWhen Start Step Safe s) : s.Counts :=
  (sound_of_reachable hs).counts

theorem zero_le_zero : 0 ≤ 0 := Nat.le_refl 0

def empty : System where
  held := []
  pool :=
    { msgb := fun _ => ⟨none, 0, 0, 0, 0, 0, zero_le_zero⟩
      datab := fun _ => ⟨none, 0, 0, 0, 0, .mdbblk, 0, 0⟩
      databuf := fun _ => 0
      mem := fun _ => 0
      mdbfreelist := []
      msgfreelist := []
      mdbs := []
      msgs := []
      kmem := []
      log := [] }

def after (s : System) (e : Event) : System := (s.exec e).getD s

theorem reachable_after (e : Event) (hs : ReachableWhen Start Step Safe s)
    (hsafe : s.Safe e) (hallow : s.Admits e.call) (hrun : s.exec e ≠ none) :
    ReachableWhen Start Step Safe (s.after e) := by
  apply hs.next hsafe
  exact ⟨hallow, (Option.getD_of_ne_none hrun s).symm⟩

def twoBlocks : System :=
  ((empty.after ⟨.allocb 4, [some 128]⟩).after ⟨.allocb 4, [some 256]⟩).after ⟨.dupb 1, [some 512]⟩

theorem reachable_twoBlocks : ReachableWhen Start Step Safe twoBlocks := by
  have hstart : ReachableWhen Start Step Safe empty :=
    .start ⟨rfl, rfl, rfl, rfl, rfl, rfl⟩
  have hone := reachable_after ⟨.allocb 4, [some 128]⟩ hstart trivial trivial
    (Option.some_ne_none _)
  have htwo := reachable_after ⟨.allocb 4, [some 256]⟩ hone trivial trivial (Option.some_ne_none _)
  refine reachable_after ⟨.dupb 1, [some 512]⟩ htwo trivial ?_ (Option.some_ne_none _)
  change 1 ∈ [1, 0]
  decide

theorem exec_dupb {bp : Nat} (addr : Nat) (hfree : s.pool.msgfreelist = [])
    (href : s.pool.ref (s.pool.datap bp) ≠ 255) (hbp : bp ≠ s.pool.nhdr) :
    ∃ t, s.exec ⟨.dupb bp, [some addr]⟩ = some t ∧
      t.held = s.pool.nhdr :: s.held ∧ t.pool.msgfreelist = [] ∧
      t.pool.msgs = s.pool.nhdr :: s.pool.msgs ∧ t.pool.datap s.pool.nhdr = s.pool.datap bp ∧
      ∀ h, h ≠ s.pool.nhdr → t.pool.msgb h = s.pool.msgb h := by
  let p : Pool := { s.pool with kmem := [some addr] }
  let q : Pool := { p with
    kmem := []
    msgs := p.nhdr :: p.msgs
    msgb := update p.msgb p.nhdr ⟨none, 0, 0, 0, 0, 0, zero_le_zero⟩ }
  have htake : p.takeMsgblock = (some p.nhdr, q) :=
    (takeMsgblock_nil (p := p) hfree).trans rfl
  have href' : ¬ (p.datab (p.datap bp)).dbRef = 255 := href
  have hcall : p.dupb bp = (some p.nhdr, q.connect p.nhdr bp) := by
    unfold dupb
    rw [if_neg href', htake]
  have hmsgb : ∀ h, h ≠ s.pool.nhdr → q.msgb h = s.pool.msgb h :=
    fun h hh => update_of_ne hh _ _
  have hself : (q.connect p.nhdr bp).msgb s.pool.nhdr =
      { q.msgb bp with bCont := none } := update_self ..
  refine ⟨⟨q.connect p.nhdr bp, s.pool.nhdr :: s.held⟩, ?_, rfl, hfree, rfl, ?_, ?_⟩
  · change some (System.mk (p.dupb bp).2 ((p.dupb bp).1.toList ++ s.held)) = _
    rw [hcall]
    rfl
  · rw [← datap_of_msgb (hmsgb bp hbp)]
    unfold datap
    rw [hself]
  · intro h hh
    exact (update_of_ne hh _ _).trans (hmsgb h hh)

/-- After duplicates of the first block, with a duplicate of the second. -/
structure Crowded (s : System) (n : Nat) : Prop where
  reachable : ReachableWhen Start Step Safe s
  msgfree : s.pool.msgfreelist = []
  first : 0 ∈ s.held
  spare : 2 ∈ s.held
  msgs : 2 ∈ s.pool.msgs
  other : s.pool.datap 2 ≠ s.pool.datap 0
  cont : s.pool.cont 0 = none
  users : s.users (s.pool.datap 0) = n + 1

theorem Crowded.ref {n : Nat} (hs : s.Crowded n) : s.pool.ref (s.pool.datap 0) = n + 1 := by
  rw [(reference_counts hs.reachable).ref 0 hs.first, hs.users]

theorem Crowded.next {n : Nat} (hs : s.Crowded n) (hn : n < 254) :
    ∃ t : System, t.Crowded (n + 1) := by
  have hnew := (sound_of_reachable hs.reachable).counted.not_held_nhdr
  have hne : ∀ h ∈ s.held, h ≠ s.pool.nhdr := fun h hh =>
    ne_of_mem_of_not_mem hh hnew
  have href : s.pool.ref (s.pool.datap 0) ≠ 255 := by
    rw [hs.ref]
    omega
  rcases exec_dupb 1024 hs.msgfree href (hne 0 hs.first) with
    ⟨t, hrun, hheld, hfree, hmsgs, hdatap, hmsgb⟩
  have hkept : ∀ h ∈ s.held, t.pool.datap h = s.pool.datap h := fun h hh =>
    datap_of_msgb (hmsgb h (hne h hh))
  have hzero := hkept 0 hs.first
  refine ⟨t, hs.reachable.next (e := ⟨.dupb 0, [some 1024]⟩) trivial
    ⟨hs.first, hrun⟩, hfree, ?_, ?_, ?_, ?_, ?_, ?_⟩
  · rw [hheld]
    exact mem_cons_of_mem _ hs.first
  · rw [hheld]
    exact mem_cons_of_mem _ hs.spare
  · rw [hmsgs]
    exact mem_cons_of_mem _ hs.msgs
  · rw [hzero, hkept 2 hs.spare]
    exact hs.other
  · rw [cont_of_msgb (hmsgb 0 (hne 0 hs.first))]
    exact hs.cont
  · have hcount : s.held.countP (fun h => decide (t.pool.datap h =
        s.pool.datap 0)) = s.users (s.pool.datap 0) := by
      apply countP_congr
      intro h hh
      rw [hkept h hh]
    unfold System.users
    rw [hzero, hheld, countP_cons, hcount, hs.users, hdatap]
    simp

theorem crowded (n : Nat) (hn : n ≤ 254) : ∃ s : System, s.Crowded n := by
  induction n with
  | zero =>
    exact ⟨twoBlocks, reachable_twoBlocks, rfl, by decide, by decide,
      by decide, by decide, by decide, by decide⟩
  | succ n ih =>
    rcases ih (by omega) with ⟨s, hs⟩
    exact hs.next (by omega)

/-- The macro takes the free header, and the count goes back to zero. -/
theorem Crowded.wraps (hs : s.Crowded 254) : ∃ t u : System, ReachableWhen Start Step Safe t ∧
      t.Step ⟨.dupmsg (some 0), []⟩ u ∧ ¬ u.Counts := by
  let t : System := ⟨freeb { s.pool with kmem := [] } 2, s.held.erase 2⟩
  have hmsgb : t.pool.msgb = s.pool.msgb := msgb_freeb _ 2
  have hdatap : t.pool.datap = s.pool.datap := by
    funext h
    exact datap_of_msgb (by rw [hmsgb])
  have ht : ReachableWhen Start Step Safe t :=
    hs.reachable.next (e := ⟨.freeb 2, []⟩) trivial ⟨hs.spare, rfl⟩
  have hfirst : 0 ∈ t.held := (mem_erase_of_ne (by decide)).mpr hs.first
  have hcont : t.pool.cont 0 = none := by
    rw [cont_of_msgb (congrFun hmsgb 0)]
    exact hs.cont
  have hnodup := (sound_of_reachable hs.reachable).counted.held_nodup
  have husers : t.users (t.pool.datap 0) = 255 := by
    have hperm := (perm_cons_erase hs.spare).countP_eq
      fun h => decide (s.pool.datap h = s.pool.datap 0)
    have hother : ¬ s.pool.datap 2 = s.pool.datap 0 := hs.other
    have hold : s.held.countP (fun h => decide (s.pool.datap h = s.pool.datap 0)) = 255 := hs.users
    unfold System.users
    rw [hdatap]
    simpa [hold, hother] using hperm.symm
  have href : t.pool.ref (t.pool.datap 0) = 255 := by
    rw [(reference_counts ht).ref 0 hfirst, husers]
  have hspare : 2 ∈ t.pool.msgfreelist := by
    rw [(sound_of_reachable ht).recycles.msg]
    refine ⟨?_, fun hmem => (hnodup.mem_erase_iff.mp hmem).1 rfl⟩
    have hmsgs : t.pool.msgs = s.pool.msgs := msgs_freeb _ 2
    rw [hmsgs]
    exact hs.msgs
  cases hfree : t.pool.msgfreelist with
  | nil =>
    rw [hfree] at hspare
    cases hspare
  | cons x rest =>
    have hx : x ≠ 0 := by
      rintro rfl
      have hmem : 0 ∈ t.pool.msgfreelist := by simp [hfree]
      exact (((sound_of_reachable ht).recycles.msg 0).mp hmem).2 hfirst
    let q : Pool := { t.pool with kmem := [], msgfreelist := rest }
    let v : Pool := q.connect x 0
    have hkept : v.msgb 0 = t.pool.msgb 0 := update_of_ne hx.symm _ _
    have htaken : dupbMacro { t.pool with kmem := [] } 0 = (some x, v) := by
      unfold dupbMacro
      rw [show msgfreelist { t.pool with kmem := [] } = x :: rest from
        hfree]
    have hloop : dupmsgLoop x v.nhdr v x 0 = some (some x, v) := by
      unfold dupmsgLoop
      rw [cont_of_msgb hkept, hcont]
    have hcall : dupmsg { t.pool with kmem := [] } (some 0) = some (some x, v) := by
      unfold dupmsg
      simp only [htaken]
      exact hloop
    let u : System := ⟨v, (v.upto none (some x)).reverse ++ t.held⟩
    have hrun : t.exec ⟨.dupmsg (some 0), []⟩ = some u := by
      change (dupmsg { t.pool with kmem := [] } (some 0)).bind (fun a =>
        some (System.mk a.2 ((a.2.upto none a.1).reverse ++ t.held))) = some u
      rw [hcall]
      rfl
    have howned : t.Owned (some 0) := by
      intro l r hl c hc
      cases l with
      | nil => cases hc
      | cons a l =>
        rcases hl with ⟨ha, hl⟩
        cases ha
        rw [hcont] at hl
        cases l with
        | nil => rwa [mem_singleton.mp hc]
        | cons b l => cases hl.1
    refine ⟨t, u, ht, ⟨howned, hrun⟩, ?_⟩
    intro hcounts
    have hin : 0 ∈ u.held := mem_append_right _ hfirst
    have hdata : u.pool.datap 0 = t.pool.datap 0 := datap_of_msgb hkept
    have hzero : u.pool.ref (u.pool.datap 0) = 0 := by
      rw [hdata]
      change ((q.setRef (t.pool.datap 0)
        (t.pool.ref (t.pool.datap 0) + 1)).ref (t.pool.datap 0)) = 0
      rw [ref_setRef, update_self, href]
      rfl
    have hused := hcounts.ref 0 hin
    rw [hzero] at hused
    exact users_eq_zero.mp hused.symm 0 hin rfl

/-- A run of a data block with more references than its count can hold. -/
theorem reference_count_wraps : ∃ s : System, Reachable Start Step s ∧ ¬ s.Counts := by
  rcases crowded 254 (Nat.le_refl _) with ⟨s, hs⟩
  rcases hs.wraps with ⟨t, u, ht, hstep, hu⟩
  exact ⟨u, ht.reachable.next hstep, hu⟩

theorem reference_counts_twoBlocks : twoBlocks.Counts :=
  reference_counts reachable_twoBlocks

/-!
## Triplets
-/

/-- A triplet is free when its header and its data block are not in use. -/
theorem triplet_life_cycle (hs : ReachableWhen Start Step Safe s) :
    s.Recycles :=
  (sound_of_reachable hs).recycles

theorem triplet_life_cycle_twoBlocks : twoBlocks.Recycles :=
  triplet_life_cycle reachable_twoBlocks

end System

end Messages
end Svr4
