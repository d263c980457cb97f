import Svr4.RecordLock.Refinement
import Svr4.Lib.WaitGraph
import Mathlib.Tactic.FinCases

/-!
# Deadlock detection

Processes asleep in `reclock` wait for the owner of the lock they sleep
on.  The walk of `deadflck` follows the sleeping locks instead.  A process
that is asleep has a sleeping lock that names the owner it waits for, so the
two agree on sleeping processes; they differ where a sleeping lock belongs to a
process that has been woken, or to nobody in `reclock`.
-/

namespace Svr4
namespace RecordLock

open Function NodeList WaitGraph List

/-!
## Sleeping locks
-/

def sleepLock (sleeplcks : List Filock) (o : Owner) : Option Filock :=
  sleeplcks.find? fun sf => sf.owner = o

/-- The owner that an owner is recorded to wait for. -/
def recorded (sleeplcks : List Filock) (o : Owner) : Option Owner :=
  (sleepLock sleeplcks o).map fun sf => sf.stat.blk

theorem deadflck_eq_follow (n : Nat) (sleeplcks : List Filock) (blck requester : Owner) :
    deadflck n sleeplcks blck requester = follow (recorded sleeplcks) n blck requester := by
  induction n generalizing blck with
  | zero => rfl
  | succ n ih =>
    have hrec : recorded sleeplcks blck = (sleeplcks.find? fun sf => sf.owner = blck).map
          fun sf => sf.stat.blk := rfl
    unfold deadflck follow
    rw [hrec]
    cases hfind : sleeplcks.find? fun sf => sf.owner = blck with
    | none => simp
    | some sf => simp [ih]

structure SleepsOk (k : Kern) : Prop where
  nodup : (k.sleeplcks.map Filock.addr).Nodup
  addrs : ∀ sf ∈ k.sleeplcks, sf.addr < k.zallocs

/-- Only sleeping locks of one owner have been added or removed. -/
structure RecordsOf (o : Owner) (k k' : Kern) : Prop where
  ok : SleepsOk k'
  same : ∀ q, q ≠ o → sleepLock k'.sleeplcks q = sleepLock k.sleeplcks q
  added : ∀ sf ∈ k'.sleeplcks, sf ∈ k.sleeplcks ∨ k.zallocs ≤ sf.addr
  zallocs : k.zallocs ≤ k'.zallocs

variable {o q : Owner} {k k' : Kern}

theorem RecordsOf.trans {k'' : Kern} (h : RecordsOf o k k')
    (h' : RecordsOf o k' k'') : RecordsOf o k k'' where
  ok := h'.ok
  same := fun q hq => (h'.same q hq).trans (h.same q hq)
  added := by
    intro sf hsf
    rcases h'.added sf hsf with hin | hnew
    · exact h.added sf hin
    · exact .inr (Nat.le_trans h.zallocs hnew)
  zallocs := Nat.le_trans h.zallocs h'.zallocs

theorem RecordsOf.of_eq (h : SleepsOk k) (o : Owner) (hs : k'.sleeplcks = k.sleeplcks)
    (hz : k.zallocs ≤ k'.zallocs) : RecordsOf o k k' where
  ok :=
    { nodup := hs ▸ h.nodup
      addrs := fun sf hsf => Nat.lt_of_lt_of_le (h.addrs sf (hs ▸ hsf)) hz }
  same := fun q _ => by rw [hs]
  added := fun sf hsf => .inl (hs ▸ hsf)
  zallocs := hz

theorem sleepLock_cons (sf : Filock) (rest : List Filock) (q : Owner) : sleepLock (sf :: rest) q =
      if sf.owner = q then some sf else sleepLock rest q := by
  unfold sleepLock
  by_cases ho : sf.owner = q <;> simp [ho]

theorem sleepLock_filter {l : List Filock} {c : Filock → Bool}
    (h : ∀ sf ∈ l, sf.owner = q → c sf = true) : sleepLock (l.filter c) q = sleepLock l q := by
  unfold sleepLock
  rw [List.find?_filter]
  induction l with
  | nil => rfl
  | cons sf rest ih =>
    have hrest := ih fun x hx => h x (mem_cons_of_mem _ hx)
    by_cases ho : sf.owner = q
    · have hc := h sf (by simp) ho
      simp [ho, hc]
    · simpa [ho] using hrest

theorem delSleeplck_records (h : SleepsOk k) {sf : Filock}
    (hown : ∀ x ∈ k.sleeplcks, x.addr = sf.addr → x.owner = o) :
    RecordsOf o k (delSleeplck k sf) where
  ok :=
    { nodup := h.nodup.sublist ((unlink_sublist sf.addr k.sleeplcks).map _)
      addrs := by
        intro x hx
        rw [delSleeplck_zallocs]
        exact h.addrs x (mem_unlink.mp hx).1 }
  same := by
    intro q hq
    refine sleepLock_filter fun x hx hxq => ?_
    simp only [ne_eq, decide_not, Bool.not_eq_true', decide_eq_false_iff_not]
    exact fun haddr => hq (hxq.symm.trans (hown x hx haddr))
  added := fun x hx => .inl (mem_unlink.mp hx).1
  zallocs := (delSleeplck_zallocs k sf).ge

theorem cleanslp_records (h : SleepsOk k) (ld : Flock) : RecordsOf ld.owner k (cleanslp ld k) := by
  unfold cleanslp
  have hl : ∀ sf ∈ k.sleeplcks.filter (cleanMatch ld),
      ∀ x ∈ k.sleeplcks, x.addr = sf.addr → x.owner = ld.owner := by
    intro sf hsf x hx haddr
    rcases mem_filter.mp hsf with ⟨hmem, hmatch⟩
    have heq : x = sf := eq_of_key_eq h.nodup hx hmem haddr
    subst heq
    simp only [cleanMatch, Bool.and_eq_true, beq_iff_eq] at hmatch
    exact hmatch.2
  generalize k.sleeplcks.filter (cleanMatch ld) = l at hl
  induction l generalizing k with
  | nil => exact RecordsOf.of_eq h _ rfl (Nat.le_refl _)
  | cons sf rest ih =>
    have hstep := delSleeplck_records h (hl sf (by simp))
    rw [foldl_cons]
    refine hstep.trans (ih hstep.ok fun sf' hsf' x hx haddr => ?_)
    exact hl sf' (mem_cons_of_mem _ hsf') x (mem_unlink.mp hx).1 haddr

variable {cmd : Cmd} {ld : Flock}

theorem Cleaned.records (h : Cleaned cmd ld k k') (hok : SleepsOk k) : RecordsOf ld.owner k k' := by
  rcases h with rfl | ⟨_, rfl⟩
  · exact RecordsOf.of_eq hok _ rfl (Nat.le_refl _)
  · exact cleanslp_records hok ld

theorem awake_records (h : SleepsOk k) {sf : Nat}
    (hown : ∀ x ∈ k.sleeplcks, x.addr = sf → x.owner = o) : RecordsOf o k (awake sf k) := by
  unfold awake
  split
  · exact RecordsOf.of_eq h _ rfl (Nat.le_refl _)
  next f hf =>
    have haddr : f.addr = sf := by simpa using List.find?_some hf
    exact delSleeplck_records h fun x hx hxa => hown x hx (hxa.trans haddr)

variable {t : Tune} {found : Filock}

theorem insSleeplck_records (h : SleepsOk k) {r : Option Nat}
    (hins : insSleeplck t ld found k = (r, k')) : RecordsOf ld.owner k k' ∧ k.wakeups ⊆ k'.wakeups ∧
      ∀ sf, r = some sf → sf = k.zallocs ∧ sf < k'.zallocs ∧
        recorded k'.sleeplcks ld.owner = some found.owner ∧
        ∀ x ∈ k'.sleeplcks, x.addr = sf → x.owner = ld.owner := by
  unfold insSleeplck at hins
  rcases insflck_cases t k.sleeplcks ld none k with ⟨n, heq, hn⟩ | heq
  · rw [heq] at hins
    cases hins
    exact ⟨RecordsOf.of_eq h _ rfl hn, List.Subset.refl _, fun sf hsf => by cases hsf⟩
  · rw [heq] at hins
    cases hins
    have hne : ∀ x ∈ k.sleeplcks, x.addr ≠ k.zallocs := by
      intro x hx
      have := h.addrs x hx
      omega
    have hlist : amend Filock.addr k.zallocs (fun s => { s with
          stat := { sysid := found.set.lSysid, pid := found.set.lPid } })
        (newFilock k.zallocs ld :: k.sleeplcks) =
          { newFilock k.zallocs ld with
            stat := { sysid := found.set.lSysid, pid := found.set.lPid } } ::
          k.sleeplcks := by
      unfold amend
      have hnew : (newFilock k.zallocs ld).addr = k.zallocs := rfl
      rw [map_cons, if_pos hnew]
      congr 1
      conv_rhs => rw [← map_id k.sleeplcks]
      refine map_congr_left fun x hx => ?_
      rw [if_neg (hne x hx)]
      rfl
    simp only [insertAfter, hlist]
    refine ⟨⟨⟨?_, ?_⟩, ?_, ?_, Nat.le_succ _⟩, List.Subset.refl _, ?_⟩
    · rw [map_cons, nodup_cons]
      refine ⟨?_, h.nodup⟩
      intro hmem
      rcases mem_map.mp hmem with ⟨x, hx, haddr⟩
      exact hne x hx haddr
    · intro x hx
      rcases mem_cons.mp hx with rfl | hin
      · exact Nat.lt_succ_self _
      · exact Nat.lt_succ_of_lt (h.addrs x hin)
    · intro q hq
      rw [sleepLock_cons]
      exact if_neg fun hown : ld.owner = q => hq hown.symm
    · intro x hx
      rcases mem_cons.mp hx with rfl | hin
      · exact .inr (Nat.le_refl _)
      · exact .inl hin
    · intro sf hsf
      cases hsf
      refine ⟨rfl, Nat.lt_succ_self _, ?_, ?_⟩
      · have hown : (newFilock k.zallocs ld).owner = ld.owner := rfl
        unfold recorded
        rw [sleepLock_cons]
        exact congrArg _ (if_pos hown)
      · intro x hx haddr
        rcases mem_cons.mp hx with rfl | hin
        · rfl
        · exact absurd haddr (hne x hin)

/-!
## Sleeping processes
-/

/-- The process is asleep on a lock of the other. -/
def Sys.WaitsFor (s : Sys) (p q : Owner) : Prop :=
  ∃ sl, s.procs p = .asleep sl ∧ ∃ f ∈ s.filocks sl.vp, f.addr = sl.chan ∧ f.owner = q

/-- The lock a process sleeps on is there, and counts its sleepers. -/
def SleepsOn (lst : List Filock) (chan : Nat) (o : Owner) : Prop :=
  ∃ f ∈ lst, f.addr = chan ∧ f.owner = o ∧ 0 < f.stat.wakeflg

structure Sys.SleepOk (s : Sys) : Prop where
  lists : s.ListsOk
  records : SleepsOk s.k
  named : ∀ o sl, (s.procs o).sleeper = some sl → sl.sf < s.k.zallocs ∧
    ∀ sf ∈ s.k.sleeplcks, sf.addr = sl.sf → sf.owner = o
  asleep : ∀ o sl, s.procs o = .asleep sl → ∃ q, recorded s.k.sleeplcks o = some q ∧
      SleepsOn (s.filocks sl.vp) sl.chan q
  counts : ∀ vp, ∀ f ∈ s.filocks vp, 0 ≤ f.stat.wakeflg

variable {s s' : Sys}

theorem Sys.SleepOk.waitsFor_iff (h : s.SleepOk) (p q : Owner) :
    s.WaitsFor p q ↔ (∃ sl, s.procs p = .asleep sl) ∧ recorded s.k.sleeplcks p = some q := by
  constructor
  · rintro ⟨sl, hsl, f, hf, haddr, hown⟩
    rcases h.asleep p sl hsl with ⟨q', hrec, g, hg, hgaddr, hgown, _⟩
    have heq : f = g :=
      eq_of_key_eq (h.lists.lists sl.vp).wf.nodup hf hg (haddr.trans hgaddr.symm)
    refine ⟨⟨sl, hsl⟩, ?_⟩
    rw [hrec, ← hown, heq, hgown]
  · rintro ⟨⟨sl, hsl⟩, hrec⟩
    rcases h.asleep p sl hsl with ⟨q', hrec', g, hg, hgaddr, hgown, _⟩
    rw [hrec] at hrec'
    cases hrec'
    exact ⟨sl, hsl, g, hg, hgaddr, hgown⟩

/-- The locks that have sleepers stay, or their sleepers are woken. -/
def Frame (lst lst' : List Filock) (wakeups : List Nat) : Prop :=
  ∀ f ∈ lst, 0 < f.stat.wakeflg → SleepsOn lst' f.addr f.owner ∨ f.addr ∈ wakeups

theorem Frame.refl (lst : List Filock) (wakeups : List Nat) : Frame lst lst wakeups :=
  fun f hf hpos => .inl ⟨f, hf, rfl, rfl, hpos⟩

variable {lst lst' : List Filock}

theorem Edited.sleepers (h : Edited lst o k lst' k') : Frame lst lst' k'.wakeups := by
  intro f hf hpos
  rcases h.frame f hf with ⟨f', hf', haddr, hown, hstat⟩ | hwoken
  · exact .inl ⟨f', hf', haddr, hown, by rw [hstat]; exact hpos⟩
  · exact .inr (hwoken (by omega))

theorem Edited.counts (h : Edited lst o k lst' k') (hpos : ∀ f ∈ lst, 0 ≤ f.stat.wakeflg) :
    ∀ f ∈ lst', 0 ≤ f.stat.wakeflg := by
  intro f hf
  rcases h.stats f hf with hzero | ⟨f₀, hf₀, heq⟩
  · omega
  · rw [← heq]
    exact hpos f₀ hf₀

theorem Frame.mono {w w' : List Nat} (h : Frame lst lst' w) (hsub : w ⊆ w') : Frame lst lst' w' :=
  fun f hf hpos => (h f hf hpos).imp id fun hin => hsub hin

theorem foldl_delflck_frame {lst₀ : List Filock}
    (hnodup : (lst₀.map Filock.addr).Nodup) (l lst : List Filock) (k : Kern)
    (hl : ∀ f ∈ l, f ∈ lst₀) (hlst : ∀ f ∈ lst, f ∈ lst₀) :
    Frame lst (l.foldl (fun a f => delflck a.1 f a.2) (lst, k)).1
        (l.foldl (fun a f => delflck a.1 f a.2) (lst, k)).2.wakeups ∧
      k.wakeups ⊆ (l.foldl (fun a f => delflck a.1 f a.2) (lst, k)).2.wakeups ∧
      (l.foldl (fun a f => delflck a.1 f a.2) (lst, k)).2.sleeplcks =
        k.sleeplcks := by
  induction l generalizing lst k with
  | nil => exact ⟨Frame.refl _ _, List.Subset.refl _, rfl⟩
  | cons g rest ih =>
    rw [foldl_cons]
    rcases ih (delflck lst g k).1 (delflck lst g k).2 (fun f hf => hl f (mem_cons_of_mem _ hf))
        (fun f hf => hlst f (mem_unlink.mp hf).1) with
      ⟨hframe, hwake, hsleep⟩
    have hone : (wakeprocs g k).wakeups ⊆ (delflck lst g k).2.wakeups :=
      List.Subset.refl _
    refine ⟨?_, ?_, ?_⟩
    · intro f hf hpos
      by_cases hk : f.addr = g.addr
      · have heq : f = g :=
          eq_of_key_eq hnodup (hlst f hf) (hl g (by simp)) hk
        subst heq
        exact .inr (hwake (hone (wakeprocs_wakes f k (by omega))))
      · exact hframe f (mem_unlink.mpr ⟨hf, hk⟩) hpos
    · exact fun x hx => hwake (hone (wakeprocs_wakeups_subset g k hx))
    · rw [hsleep]
      exact wakeprocs_sleeplcks g k

variable {sl : Sleeper}

theorem PState.settle_asleep {w : List Nat} {p : PState}
    (h : p.settle w = .asleep sl) : p = .asleep sl ∧ sl.chan ∉ w := by
  cases p with
  | running => cases h
  | runnable intr sl' => cases h
  | asleep sl' =>
    simp only [PState.settle] at h
    split_ifs at h with hw
    cases h
    exact ⟨rfl, hw⟩

theorem Sys.leave_asleep {p : Option Owner}
    (h : (s.leave p).procs q = .asleep sl) : s.procs q = .asleep sl := by
  cases p with
  | none => exact h
  | some o =>
    by_cases hq : q = o
    · subst hq
      simp [Sys.leave, Sys.setProc] at h
    · simpa [Sys.leave, Sys.setProc, hq] using h

theorem Sys.leave_sleeper {p : Option Owner} (h : ((s.leave p).procs q).sleeper = some sl) :
    (s.procs q).sleeper = some sl := by
  cases p with
  | none => exact h
  | some o =>
    by_cases hq : q = o
    · subst hq
      simp [Sys.leave, Sys.setProc, PState.sleeper] at h
    · simpa [Sys.leave, Sys.setProc, hq] using h

/-- An operation on one list that changes the sleeping locks of `o` only. -/
structure PassEffect (o : Owner) (lst lst' : List Filock) (k k' : Kern) :
    Prop where
  records : RecordsOf o k k'
  frame : Frame lst lst' k'.wakeups
  counts : (∀ f ∈ lst, 0 ≤ f.stat.wakeflg) → ∀ f ∈ lst', 0 ≤ f.stat.wakeflg

theorem cleanlocks_effect {lst : List Filock} (h : SleepsOk k)
    (hnodup : (lst.map Filock.addr).Nodup) (pid sysid : Int) :
    PassEffect ⟨0, 0⟩ lst (cleanlocks pid sysid lst k).1 k (cleanlocks pid sysid lst k).2 ∧
      (cleanlocks pid sysid lst k).2.sleeplcks = k.sleeplcks := by
  have hframe := foldl_delflck_frame hnodup
    (lst.filter fun f => (f.set.lPid == pid || pid == IGN_PID) && f.set.lSysid == sysid) lst k
    (fun f hf => (mem_filter.mp hf).1) (fun f hf => hf)
  have hsub := foldl_delflck_sublist
    (lst.filter fun f => (f.set.lPid == pid || pid == IGN_PID) && f.set.lSysid == sysid) lst k
  exact ⟨⟨RecordsOf.of_eq h _ hframe.2.2 hsub.2.ge, hframe.1,
    fun hpos f hf => hpos f (hsub.1.subset hf)⟩, hframe.2.2⟩

theorem RecordsOf.recorded (h : RecordsOf o k k')
    (hq : q ≠ o) : recorded k'.sleeplcks q = recorded k.sleeplcks q := by
  unfold RecordLock.recorded
  rw [h.same q hq]

theorem Sys.SleepOk.update (h : s.SleepOk) (p : Option Owner) {vp : Nat}
    (hlists : ((s.leave p).update vp lst k).ListsOk)
    (heff : PassEffect o (s.filocks vp) lst s.k k) (hawake : (∀ sl, s.procs o ≠ .asleep sl) ∨
      k.sleeplcks = s.k.sleeplcks) : ((s.leave p).update vp lst k).SleepOk ∧
      ∀ q sl, ((s.leave p).update vp lst k).procs q = .asleep sl → s.procs q = .asleep sl ∧
          recorded k.sleeplcks q = recorded s.k.sleeplcks q := by
  have hrec := heff.records
  have hfilocks : (s.leave p).filocks = s.filocks := by
    cases p <;> rfl
  have hprocs : ∀ q sl, ((s.leave p).update vp lst k).procs q = .asleep sl →
      s.procs q = .asleep sl ∧ sl.chan ∉ k.wakeups ∧
        recorded k.sleeplcks q = recorded s.k.sleeplcks q := by
    intro q sl hq
    rcases PState.settle_asleep hq with ⟨hleave, hchan⟩
    have hs := Sys.leave_asleep hleave
    refine ⟨hs, hchan, ?_⟩
    rcases hawake with hawake | hsame
    · exact hrec.recorded fun heq => hawake sl (heq ▸ hs)
    · rw [hsame]
  refine ⟨⟨hlists, ⟨hrec.ok.nodup, hrec.ok.addrs⟩, ?_, ?_, ?_⟩, ?_⟩
  · intro q sl hsl
    have hsl' : ((s.leave p).procs q).sleeper = some sl := by
      rw [← PState.settle_sleeper k.wakeups]
      exact hsl
    rcases h.named q sl (Sys.leave_sleeper hsl') with ⟨hlt, hown⟩
    refine ⟨Nat.lt_of_lt_of_le hlt hrec.zallocs, fun sf hsf haddr => ?_⟩
    rcases hrec.added sf hsf with hin | hnew
    · exact hown sf hin haddr
    · omega
  · intro q sl hq
    rcases hprocs q sl hq with ⟨hs, hchan, hsame⟩
    rcases h.asleep q sl hs with ⟨b, hb, f, hf, haddr, hown, hpos⟩
    refine ⟨b, hsame.trans hb, ?_⟩
    by_cases hvp : sl.vp = vp
    · have hnew : ((s.leave p).update vp lst k).filocks sl.vp = lst := by
        simp [Sys.update, hvp]
      rw [hnew]
      rcases heff.frame f (hvp ▸ hf) hpos with hstays | hwoken
      · rw [haddr, hown] at hstays
        exact hstays
      · exact absurd (haddr ▸ hwoken) hchan
    · have hold : ((s.leave p).update vp lst k).filocks sl.vp = s.filocks sl.vp := by
        simp [Sys.update, hvp, hfilocks]
      rw [hold]
      exact ⟨f, hf, haddr, hown, hpos⟩
  · intro v f hf
    by_cases hv : v = vp
    · subst hv
      simp only [Sys.update, update_self] at hf
      exact heff.counts (h.counts v) f hf
    · simp only [Sys.update, update_of_ne hv, hfilocks] at hf
      exact h.counts v f hf
  · intro q sl hq
    rcases hprocs q sl hq with ⟨hs, _, hsame⟩
    exact ⟨hs, hsame⟩

/-!
## One pass
-/

theorem cleanslp_wakeups (ld : Flock) (k : Kern) : k.wakeups ⊆ (cleanslp ld k).wakeups := by
  unfold cleanslp
  generalize k.sleeplcks.filter (cleanMatch ld) = l
  induction l generalizing k with
  | nil => exact List.Subset.refl _
  | cons sf rest ih =>
    rw [foldl_cons]
    exact fun x hx => ih (delSleeplck k sf) (wakeprocs_wakeups_subset sf k hx)

theorem Cleaned.wakeups (h : Cleaned cmd ld k k') : k.wakeups ⊆ k'.wakeups := by
  rcases h with rfl | ⟨_, rfl⟩
  · exact List.Subset.refl _
  · exact cleanslp_wakeups ld k

section Pass

variable {t : Tune} {u : Renv} {cmd : Cmd} {ld : Flock} {lst : List Filock}
  {k : Kern}

variable {k' : Kern}

theorem PassEffect.same {o : Owner} (h : RecordsOf o k k') : PassEffect o lst lst k k' where
  records := h
  frame := Frame.refl _ _
  counts := id

theorem PassCase.effect {r : Retval} {ret : Flock} {lst' : List Filock} (h : ListOk lst k.zallocs)
    (hok : SleepsOk k) (hld : ld.InRange)
    (hcase : PassCase t u cmd ld lst k (.done r ret lst' k')) :
    ∃ o, PassEffect o lst lst' k k' ∧ (o = ld.owner ∨ (cmd.rcmdlck = true ∧ cmd.setflck = false ∧
        ∃ ld', Queried u ld lst ld' ∧ o = ld'.owner)) := by
  have hkeep : PassEffect ld.owner lst lst k k :=
    PassEffect.same (RecordsOf.of_eq hok _ rfl (Nat.le_refl _))
  generalize hp : Pass.done r ret lst' k' = p at hcase
  cases hcase with
  | adjust insrt k'' ra hset hstart hgrant hr hclean =>
    have hpost := flckadj_spec t h.wf h.addrs hld hgrant.type_ne_bad hstart
    rw [hr] at hpost
    cases hp
    have hfirst : RecordsOf ld.owner k ra.2.k :=
      RecordsOf.of_eq hok _ hpost.1.sleeplcks hpost.1.zallocs
    have hsecond := hclean.records hfirst.ok
    rw [hpost.2.1] at hsecond
    exact ⟨ld.owner, ⟨hfirst.trans hsecond, hpost.1.sleepers.mono hclean.wakeups,
        hpost.1.counts⟩, .inl rfl⟩
  | report ld' k'' hset hown hclean =>
    cases hp
    have hrec := hclean.records hok
    rcases hown with hown | hquery
    · rw [hown] at hrec
      exact ⟨ld.owner, PassEffect.same hrec, .inl rfl⟩
    · rcases hclean with rfl | ⟨hrcmd, _⟩
      · exact ⟨ld.owner, hkeep, .inl rfl⟩
      · exact ⟨ret.owner, PassEffect.same hrec, .inr ⟨hrcmd, hset, ret, hquery, rfl⟩⟩
  | refused e he hdeny =>
    cases hp
    exact ⟨ld.owner, hkeep, .inl rfl⟩
  | query found hslp hset =>
    cases hp
    exact ⟨ld.owner, hkeep, .inl rfl⟩
  | deadlock found hfound hcon hslp hdeny hdead =>
    cases hp
    exact ⟨ld.owner, hkeep, .inl rfl⟩
  | hangs found hslp hdead => cases hp
  | recorded found hrcmd hdeny =>
    cases hp
    exact ⟨ld.owner, hkeep, .inl rfl⟩
  | remote found sf k'' hrcmd hdeny hdead hins =>
    cases hp
    exact ⟨ld.owner, PassEffect.same (insSleeplck_records hok hins).1, .inl rfl⟩
  | noRecord found k'' hdeny hins =>
    cases hp
    exact ⟨ld.owner, PassEffect.same (insSleeplck_records hok hins).1, .inl rfl⟩
  | sleeps found sf k'' hfound hmem hcon hslp hrcmd hdead hins => cases hp

theorem sleep_effect (chan : Nat) {o : Owner} (hcounts : ∀ f ∈ lst, 0 ≤ f.stat.wakeflg)
    (h : RecordsOf o k k') : PassEffect o lst (amend Filock.addr chan
      (fun f => { f with stat := f.stat.setWakeflg (f.stat.wakeflg + 1) }) lst)
      k k' where
  records := h
  frame := by
    intro f hf hpos
    by_cases hk : f.addr = chan
    · refine .inl ⟨_, mem_amend.mpr ⟨f, hf, if_pos hk⟩, rfl, rfl, ?_⟩
      show 0 < f.stat.wakeflg + 1
      omega
    · exact .inl ⟨f, mem_amend.mpr ⟨f, hf, if_neg hk⟩, rfl, rfl, hpos⟩
  counts := by
    intro _ f hf
    rcases mem_amend.mp hf with ⟨g, hg, rfl⟩
    have hg0 := hcounts g hg
    by_cases hk : g.addr = chan
    · rw [if_pos hk]
      show 0 ≤ g.stat.wakeflg + 1
      omega
    · rw [if_neg hk]
      exact hg0

end Pass

/-!
## One step
-/

/--
A request with `RCMDLCK` does not touch the sleeping locks of a process
that is asleep: it is not made in its name, nor does a XENIX query find a lock
of it.
-/
def Sys.NamesOk (s : Sys) (e : Event) : Prop :=
  ∀ en, s.entry e = some en → en.cmd.rcmdlck = true → (∀ sl, s.procs en.lckdat.owner ≠ .asleep sl) ∧
      (en.cmd.setflck = false → ∀ ld', Queried en.renv en.lckdat (s.filocks en.vp) ld' →
          ∀ sl, s.procs ld'.owner ≠ .asleep sl)

variable {e : Event} {en : Entry}

theorem Sys.entry_local (h : s.ListsOk) (hentry : s.entry e = some en)
    (hlocal : en.cmd.rcmdlck = false) (sl : Sleeper) : s.procs en.lckdat.owner ≠ .asleep sl := by
  cases e with
  | call o q =>
    simp only [Sys.entry] at hentry
    split_ifs at hentry with hrun
    split at hentry
    next => cases hentry
    next ld hq =>
      cases hentry
      have hown : ld.owner = o := (reclockEnter_ok hq).2.1
      intro hasleep
      simp only [hown, hrun.1] at hasleep
      cases hasleep
  | remote q =>
    simp only [Sys.entry] at hentry
    split_ifs at hentry with hrcmd
    split at hentry
    next => cases hentry
    next ld hq =>
      cases hentry
      simp [hrcmd] at hlocal
  | resume o =>
    simp only [Sys.entry] at hentry
    split at hentry
    next sl' hproc =>
      cases hentry
      have hown := (h.requests o sl' (by rw [hproc]; rfl)).2.1
      intro hasleep
      simp only [hown, hproc] at hasleep
      cases hasleep
    next => cases hentry
  | signal o => cases hentry
  | cleanlocks vp pid sysid => cases hentry

theorem Sys.SleepOk.entry (h : s.SleepOk) (hentry : s.entry e = some en) :
    RecordsOf en.lckdat.owner s.k en.k ∧ (en.cmd.rcmdlck = true → en.k = s.k) := by
  have hrefl : RecordsOf en.lckdat.owner s.k s.k :=
    RecordsOf.of_eq h.records _ rfl (Nat.le_refl _)
  cases e with
  | call o q =>
    simp only [Sys.entry] at hentry
    split_ifs at hentry with hrun
    split at hentry
    next => cases hentry
    next ld hq =>
      cases hentry
      exact ⟨hrefl, fun _ => rfl⟩
  | remote q =>
    simp only [Sys.entry] at hentry
    split_ifs at hentry with hrcmd
    split at hentry
    next => cases hentry
    next ld hq =>
      cases hentry
      exact ⟨hrefl, fun _ => rfl⟩
  | resume o =>
    simp only [Sys.entry] at hentry
    split at hentry
    next sl hproc =>
      cases hentry
      have hsl : (s.procs o).sleeper = some sl := by rw [hproc]; rfl
      have hreq := h.lists.requests o sl hsl
      refine ⟨awake_records h.records fun x hx haddr => ?_, fun hrcmd => ?_⟩
      · exact ((h.named o sl hsl).2 x hx haddr).trans hreq.2.1.symm
      · simp [hreq.2.2] at hrcmd
    next => cases hentry
  | signal o => cases hentry
  | cleanlocks vp pid sysid => cases hentry

/-- Every process asleep after a step slept before, with the same record. -/
def Sys.NoNewSleeper (s s' : Sys) : Prop :=
  ∀ q sl, s'.procs q = .asleep sl → s.procs q = .asleep sl ∧
    recorded s'.k.sleeplcks q = recorded s.k.sleeplcks q

theorem Sys.NoNewSleeper.acyclic (hnew : s.NoNewSleeper s') (h : s.SleepOk) (h' : s'.SleepOk)
    (hac : Acyclic s.WaitsFor) : Acyclic s'.WaitsFor := by
  refine hac.mono fun a b hab => ?_
  rcases (h'.waitsFor_iff a b).mp hab with ⟨⟨sl, hsl⟩, hrec⟩
  rcases hnew a sl hsl with ⟨hsl', hrec'⟩
  exact (h.waitsFor_iff a b).mpr ⟨⟨sl, hsl'⟩, hrec' ▸ hrec⟩

theorem Sys.SleepOk.no_path (h : s.SleepOk) (hrec : RecordsOf ld.owner s.k k)
    (hawake : ∀ sl, s.procs ld.owner ≠ .asleep sl) (hdead : k.deadflck found ld = some false) :
    ¬ Relation.ReflTransGen s.WaitsFor found.owner ld.owner := by
  unfold Kern.deadflck at hdead
  rw [deadflck_eq_follow] at hdead
  intro hpath
  refine follow_false hdead (Relation.ReflTransGen.mono ?_ _ _ hpath)
  intro a b hab
  rcases (h.waitsFor_iff a b).mp hab with ⟨⟨sl, hsl⟩, hb⟩
  rwa [hrec.recorded fun heq => hawake sl (heq ▸ hsl)]

theorem sleepsOn_counted (hmem : found ∈ lst) (hpos : 0 ≤ found.stat.wakeflg) :
    SleepsOn (amend Filock.addr found.addr
      (fun f => { f with stat := f.stat.setWakeflg (f.stat.wakeflg + 1) }) lst)
      found.addr found.owner := by
  refine ⟨_, mem_amend.mpr ⟨found, hmem, if_pos rfl⟩, rfl, rfl, ?_⟩
  show 0 < found.stat.wakeflg + 1
  omega

theorem Sys.SleepOk.setAsleep (h : s.SleepOk) (hlists : (s.setProc o (.asleep sl)).ListsOk)
    (hlt : sl.sf < s.k.zallocs) (hnamed : ∀ sf ∈ s.k.sleeplcks, sf.addr = sl.sf → sf.owner = o)
    (hrec : recorded s.k.sleeplcks o = some q) (hon : SleepsOn (s.filocks sl.vp) sl.chan q) :
    (s.setProc o (.asleep sl)).SleepOk ∧ ∀ a b, (s.setProc o (.asleep sl)).WaitsFor a b →
        s.WaitsFor a b ∨ (a = o ∧ b = q) := by
  have hother : ∀ a, a ≠ o → (s.setProc o (.asleep sl)).procs a = s.procs a :=
    fun a ha => update_of_ne ha _ _
  have hself : (s.setProc o (.asleep sl)).procs o = .asleep sl :=
    update_self _ _ _
  have hok : (s.setProc o (.asleep sl)).SleepOk := by
    refine ⟨hlists, h.records, ?_, ?_, h.counts⟩
    · intro a sl' ha
      by_cases hao : a = o
      · rw [hao, hself] at ha
        cases ha
        rw [hao]
        exact ⟨hlt, hnamed⟩
      · rw [hother a hao] at ha
        exact h.named a sl' ha
    · intro a sl' ha
      by_cases hao : a = o
      · rw [hao, hself] at ha
        cases ha
        rw [hao]
        exact ⟨q, hrec, hon⟩
      · rw [hother a hao] at ha
        exact h.asleep a sl' ha
  refine ⟨hok, fun a b hab => ?_⟩
  by_cases hao : a = o
  · rcases (hok.waitsFor_iff a b).mp hab with ⟨_, hb⟩
    rw [hao] at hb
    exact .inr ⟨hao, Option.some.inj (hb.symm.trans hrec)⟩
  · rcases hab with ⟨sl', hsl', hrest⟩
    rw [hother a hao] at hsl'
    exact .inl ⟨sl', hsl', hrest⟩

theorem Sys.SleepOk.step (h : s.SleepOk) (hnames : s.NamesOk e) (hstep : s.Step t e s') :
    s'.SleepOk ∧ (Acyclic s.WaitsFor → Acyclic s'.WaitsFor) := by
  have hlists' := h.lists.step hstep
  cases hstep.cases with
  | done en r ld lst k hentry hpass =>
    rcases h.lists.entry hentry with ⟨hld, hz, _⟩
    rcases h.entry hentry with ⟨hrec, hsame⟩
    have hlist := h.lists.lists en.vp
    rw [← hz] at hlist
    have hcase := reclockPass_cases t en.renv en.cmd en.k hlist.wf hld
    rw [hpass] at hcase
    rcases hcase.effect hlist hrec.ok hld with ⟨o, heff, ho⟩
    have hboth : RecordsOf o s.k k ∧ ∀ sl, s.procs o ≠ .asleep sl := by
      rcases ho with rfl | ⟨hrcmd, hset, ld', hquery, rfl⟩
      · refine ⟨hrec.trans heff.records, ?_⟩
        cases hr : en.cmd.rcmdlck with
        | false => exact Sys.entry_local h.lists hentry hr
        | true => exact (hnames en hentry hr).1
      · have hk := heff.records
        rw [hsame hrcmd] at hk
        exact ⟨hk, (hnames en hentry hrcmd).2 hset ld' hquery⟩
    rcases h.update en.proc hlists' ⟨hboth.1, heff.frame, heff.counts⟩
      (.inl hboth.2) with ⟨hok, hnew⟩
    exact ⟨hok, Sys.NoNewSleeper.acyclic hnew h hok⟩
  | sleeps en o chan sf lst k hentry hproc hpass =>
    rcases h.lists.entry hentry with ⟨hld, hz, hown⟩
    rcases h.entry hentry with ⟨hrec, _⟩
    have hlist := h.lists.lists en.vp
    rw [← hz] at hlist
    have hcase := reclockPass_cases t en.renv en.cmd en.k hlist.wf hld
    rw [hpass] at hcase
    have hres := hcase.listOk hlist hld rfl
    cases hcase with
    | sleeps found sf' k'' hfound hmem hcon hslp hrcmd hdead hins =>
      have ho := hown o hproc
      have hawake := Sys.entry_local h.lists hentry hrcmd
      rcases insSleeplck_records hrec.ok hins with ⟨hrec', hwake, hnew⟩
      rcases hnew sf rfl with ⟨_, hlt, hfirst, hnamed⟩
      have heff := sleep_effect found.addr (h.counts en.vp) (hrec.trans hrec')
      rcases h.update none (h.lists.update hres.1 (hz ▸ hres.2)) heff
        (.inl hawake) with ⟨hok, hsub⟩
      have hon := sleepsOn_counted hmem (h.counts en.vp found hmem)
      rw [ho] at hfirst hnamed
      rcases hok.setAsleep hlists' hlt hnamed hfirst
          (by simpa [Sys.update] using hon) with ⟨hok', hedges⟩
      refine ⟨hok', fun hac => ?_⟩
      have hback := h.no_path hrec hawake hdead
      rw [ho] at hback
      refine hac.insert (fun a b hab => ?_) hback
      rcases hedges a b hab with hold | hadded
      · left
        rcases (hok.waitsFor_iff a b).mp hold with ⟨⟨sl, hsl⟩, hb⟩
        rcases hsub a sl hsl with ⟨hsl', hsame⟩
        exact (h.waitsFor_iff a b).mpr ⟨⟨sl, hsl'⟩, hsame ▸ hb⟩
      · exact .inr hadded
  | refused o vp hrun =>
    have hself : PassEffect ⟨0, 0⟩ (s.filocks vp) (s.filocks vp) s.k s.k :=
      PassEffect.same (RecordsOf.of_eq h.records _ rfl (Nat.le_refl _))
    rcases h.update o hlists' hself (.inr rfl) with ⟨hok, hnew⟩
    exact ⟨hok, Sys.NoNewSleeper.acyclic hnew h hok⟩
  | interrupted o sl hproc =>
    have hsl : (s.procs o).sleeper = some sl := by rw [hproc]; rfl
    have hrec : RecordsOf o s.k (awake sl.sf s.k) :=
      awake_records h.records (h.named o sl hsl).2
    have hawake : ∀ sl', s.procs o ≠ .asleep sl' := by
      intro sl' hcontra
      rw [hproc] at hcontra
      cases hcontra
    rcases h.update (some o) hlists' (PassEffect.same hrec) (.inl hawake) with ⟨hok, hnew⟩
    exact ⟨hok, Sys.NoNewSleeper.acyclic hnew h hok⟩
  | signal o sl hproc =>
    have hsl : (s.procs o).sleeper = some sl := by
      rcases hproc with hproc | ⟨intr, hproc⟩ <;> rw [hproc] <;> rfl
    have hprocs : ∀ q sl', (s.setProc o (.runnable true sl)).procs q =
        .asleep sl' → s.procs q = .asleep sl' := by
      intro q sl' hq
      by_cases hqo : q = o
      · subst hqo
        simp [Sys.setProc] at hq
      · simpa [Sys.setProc, hqo] using hq
    have hok : (s.setProc o (.runnable true sl)).SleepOk := by
      refine ⟨hlists', h.records, ?_, ?_, h.counts⟩
      · intro q sl' hq
        by_cases hqo : q = o
        · subst hqo
          simp only [Sys.setProc, update_self] at hq
          cases hq
          exact h.named q sl hsl
        · simp only [Sys.setProc, update_of_ne hqo] at hq
          exact h.named q sl' hq
      · exact fun q sl' hq => h.asleep q sl' (hprocs q sl' hq)
    refine ⟨hok, Sys.NoNewSleeper.acyclic ?_ h hok⟩
    exact fun q sl' hq => ⟨hprocs q sl' hq, rfl⟩
  | cleanlocks vp pid sysid =>
    rcases cleanlocks_effect h.records (h.lists.lists vp).wf.nodup pid sysid with ⟨heff, hkeep⟩
    rcases h.update none hlists' heff (.inr hkeep) with ⟨hok, hnew⟩
    exact ⟨hok, Sys.NoNewSleeper.acyclic hnew h hok⟩

/-!
## Runs
-/

theorem Sys.SleepOk.initial (h : s.initial) : s.SleepOk where
  lists := Sys.ListsOk.initial h
  records := by
    constructor <;> simp [h.2.1]
  named := by
    intro o sl hsl
    rw [h.2.2.2.2 o] at hsl
    cases hsl
  asleep := by
    intro o sl hsl
    rw [h.2.2.2.2 o] at hsl
    cases hsl
  counts := by
    intro vp f hf
    rw [h.1 vp] at hf
    cases hf

theorem Sys.acyclic_initial (h : s.initial) : Acyclic s.WaitsFor := by
  intro a hcycle
  rcases Relation.TransGen.head'_iff.mp hcycle with ⟨b, ⟨sl, hsl, _⟩, _⟩
  rw [h.2.2.2.2 a] at hsl
  cases hsl

/-- The owner found leads back to the requester over sleeping processes. -/
def Sys.ClosesCycle (s : Sys) (en : Entry) (found : Filock) : Prop :=
  Relation.ReflTransGen s.WaitsFor found.owner en.lckdat.owner

/--
The sleeping locks lead from the owner found to the requester over processes
that are asleep.
-/
def Sys.ChainAsleep (s : Sys) (en : Entry) (found : Filock) : Prop :=
  ∀ q, Relation.ReflTransGen (EdgeTo (recorded en.k.sleeplcks) en.lckdat.owner) found.owner q →
    q ≠ en.lckdat.owner → ∃ sl, s.procs q = .asleep sl

/-- The event is a request that `deadflck` refuses, because of a lock. -/
def Sys.RefusedBy (t : Tune) (s : Sys) (e : Event) (en : Entry)
    (found : Filock) : Prop :=
  s.entry e = some en ∧ (blocked en.renv (s.filocks en.vp) en.lckdat).1 = some found ∧
    ∃ vp o ret lst k, s.pass t e = some (vp, o, .done (some .edeadlk) ret lst k)

theorem PassCase.refused_deadlock {u : Renv} {ret : Flock} (h : ListOk lst k.zallocs)
    (hld : ld.InRange) (hcase : PassCase t u cmd ld lst k (.done (some .edeadlk) ret lst' k'))
    (hfound : (blocked u lst ld).1 = some found) : k.deadflck found ld = some true := by
  generalize hp : Pass.done (some .edeadlk) ret lst' k' = p at hcase
  cases hcase with
  | adjust insrt k'' r hset hstart hgrant hr hclean =>
    have hpost := flckadj_spec t h.wf h.addrs hld hgrant.type_ne_bad hstart
    rw [hr] at hpost
    rcases r with ⟨retval, a⟩
    cases hp
    have herr : Errno.edeadlk = .enolck := hpost.2.2.1
    cases herr
  | report ld' k'' hset hown hclean => cases hp
  | refused e he hdeny =>
    cases hp
    rcases he with he | he <;> cases he
  | query found' hslp hset => cases hp
  | deadlock found' hfound' hcon hslp hdeny hdead =>
    rw [hfound] at hfound'
    cases hfound'
    exact hdead
  | hangs found' hslp hdead => cases hp
  | recorded found' hrcmd hdeny => cases hp
  | remote found' sf k'' hrcmd hdeny hdead hins => cases hp
  | noRecord found' k'' hdeny hins => cases hp
  | sleeps found' sf k'' hfound' hmem hcon hslp hrcmd hdead hins => cases hp

theorem Sys.SleepOk.recorded_of_waitsFor (h : s.SleepOk) (hentry : s.entry e = some en)
    {p : Owner} (hpq : s.WaitsFor p q) : recorded en.k.sleeplcks p = some q := by
  rcases (h.waitsFor_iff p q).mp hpq with ⟨⟨sl, hsl⟩, hrec⟩
  rcases h.entry hentry with ⟨hrecords, hsame⟩
  cases hr : en.cmd.rcmdlck with
  | true => rwa [hsame hr]
  | false =>
    have hawake := Sys.entry_local h.lists hentry hr sl
    rwa [hrecords.recorded fun heq => hawake (heq ▸ hsl)]

/--
In every run whose `RCMDLCK` requests keep away from the sleeping locks of
sleeping processes, no processes asleep in `reclock` form a cycle; and a
request refused with `EDEADLK` would have closed a cycle of sleeping
processes exactly when all owners that the sleeping locks lead through are
asleep.
-/
theorem deadlock_detection {t : Tune} {s : Sys}
    (hs : Transition.ReachableWhen Sys.initial (Sys.Step t) Sys.NamesOk s) :
    Acyclic s.WaitsFor ∧ ∀ e en found, s.RefusedBy t e en found →
        (s.ClosesCycle en found ↔ s.ChainAsleep en found) := by
  have hinit : ∀ s₀, Sys.initial s₀ → s₀.SleepOk ∧ Acyclic s₀.WaitsFor :=
    fun s₀ h₀ => ⟨Sys.SleepOk.initial h₀, Sys.acyclic_initial h₀⟩
  have hkeep : ∀ (s₁ : Sys) (e : Event) (s₂ : Sys),
      s₁.SleepOk ∧ Acyclic s₁.WaitsFor → s₁.NamesOk e →
      s₁.Step t e s₂ → s₂.SleepOk ∧ Acyclic s₂.WaitsFor := by
    intro s₁ e s₂ hok hnames hstep
    rcases hok.1.step hnames hstep with ⟨hok', hac⟩
    exact ⟨hok', hac hok.2⟩
  have hinv := hs.invariant hinit hkeep
  refine ⟨hinv.2, ?_⟩
  rintro e en found ⟨hentry, hfound, vp, o, ret, lst, k, hpass⟩
  have hok := hinv.1
  rcases hok.lists.entry hentry with ⟨hld, hz, _⟩
  rcases Sys.pass_done hentry hpass with ⟨_, ld', hrun⟩
  have hlist := hok.lists.lists en.vp
  rw [← hz] at hlist
  have hcase := reclockPass_cases t en.renv en.cmd en.k hlist.wf hld
  rw [hrun] at hcase
  have hdead := hcase.refused_deadlock hlist hld hfound
  unfold Kern.deadflck at hdead
  rw [deadflck_eq_follow] at hdead
  have hiff := follow_true_realized (fun p q hpq => hok.recorded_of_waitsFor hentry hpq) hdead
  have hasleep : ∀ q, (∃ r, s.WaitsFor q r) ↔ ∃ sl, s.procs q = .asleep sl := by
    intro q
    constructor
    · rintro ⟨r, sl, hsl, _⟩
      exact ⟨sl, hsl⟩
    · rintro ⟨sl, hsl⟩
      rcases hok.asleep q sl hsl with ⟨r, _, f, hf, haddr, hown, _⟩
      exact ⟨r, sl, hsl, f, hf, haddr, hown⟩
  unfold Sys.ClosesCycle Sys.ChainAsleep
  rw [hiff]
  exact forall_congr' fun q => forall_congr' fun _ => forall_congr' fun _ =>
    hasleep q

/--
Process 1 holds the bytes 0 to 9 and sleeps on the bytes 20 to 29 of process 2,
which removes its lock: process 1 is woken, but has not run yet.
-/
def wokenRun : List Event :=
  [.call ⟨1, 0⟩ (.fcntl .wrlck 0 10 false), .call ⟨2, 0⟩ (.fcntl .wrlck 20 10 false),
    .call ⟨1, 0⟩ (.fcntl .wrlck 20 10 true),
    .call ⟨2, 0⟩ (.fcntl .unlck 20 10 false)]

def wokenSys : Sys := Sys.after (.records 10) wokenRun

theorem Sys.after_when {ok : Sys → Event → Prop} (t : Tune) (es : List Event)
    (hes : ∀ e ∈ es, ∀ s, ok s e) :
    Transition.ReachableWhen Sys.initial (Sys.Step t) ok (Sys.after t es) := by
  have hidle : Transition.ReachableWhen Sys.initial (Sys.Step t) ok Sys.idle :=
    Transition.ReachableWhen.start ⟨fun _ => rfl, rfl, rfl, rfl, fun _ => rfl⟩
  have hrun : ∀ (es : List Event) (s s' : Sys), (∀ e ∈ es, ∀ s, ok s e) →
      Transition.ReachableWhen Sys.initial (Sys.Step t) ok s →
      s.run t es = some s' →
      Transition.ReachableWhen Sys.initial (Sys.Step t) ok s' := by
    intro es
    induction es with
    | nil =>
      intro s s' _ hs h
      cases h
      exact hs
    | cons e rest ih =>
      intro s s' hes hs h
      unfold Sys.run at h
      rcases Option.bind_eq_some_iff.mp h with ⟨s₁, hstep, hrest⟩
      exact ih s₁ s' (fun e' he' => hes e' (mem_cons_of_mem _ he'))
        (hs.next (hes e (by simp) s) hstep) hrest
  unfold Sys.after
  cases h : Sys.idle.run t es with
  | none => exact hidle
  | some s => exact hrun es Sys.idle s hes hidle h

theorem Sys.entry_call {q : Request}
    (hentry : s.entry (.call o q) = some en) : en.cmd.rcmdlck = false := by
  simp only [Sys.entry] at hentry
  split_ifs at hentry with hlocal
  split at hentry
  next => cases hentry
  next =>
    cases hentry
    exact hlocal.2

theorem Sys.after_calls (t : Tune) (es : List Event) (hes : ∀ e ∈ es, ∃ o q, e = .call o q) :
    Transition.ReachableWhen Sys.initial (Sys.Step t) Sys.NamesOk (Sys.after t es) := by
  refine Sys.after_when t es fun e he s en hentry hrcmd => ?_
  rcases hes e he with ⟨o, q, rfl⟩
  rw [Sys.entry_call hentry] at hrcmd
  cases hrcmd

/-- Process 1 sleeps on a lock of process 2, and on that lock only. -/
theorem deadlock_detection_asleep :
    Acyclic (Sys.after (.records 10) [.call ⟨1, 0⟩ (.fcntl .wrlck 0 10 false),
        .call ⟨2, 0⟩ (.fcntl .wrlck 20 10 false),
        .call ⟨1, 0⟩ (.fcntl .wrlck 20 10 true)]).WaitsFor := by
  refine (deadlock_detection (t := .records 10) (Sys.after_calls (.records 10) _ ?_)).1
  intro e he
  fin_cases he <;> exact ⟨_, _, rfl⟩

/-- Process 2 now waits for the bytes 0 to 9, and is refused without a cycle. -/
theorem deadflck_spurious : ¬ ∀ (t : Tune) (s : Sys), s.Reachable t → Acyclic s.WaitsFor ∧
        ∀ e en found, s.RefusedBy t e en found → s.ClosesCycle en found := by
  intro hall
  let q : Request := .fcntl .wrlck 0 10 true
  let ld : Flock := ⟨.wrlck, 0, 0, 9, 0, 2⟩
  let sleeping : Filock := ⟨2, ⟨.wrlck, 0, 20, 29, 0, 1⟩, ⟨0, 2⟩⟩
  let found : Filock := ⟨0, ⟨.wrlck, 0, 0, 9, 0, 1⟩, ⟨0, 0⟩⟩
  have hrefused : wokenSys.RefusedBy (.records 10) (.call ⟨2, 0⟩ q)
      ⟨0, some ⟨2, 0⟩, ld, q.cmd, q.renv, ⟨2, 3, 3, [sleeping], []⟩⟩ found := by
    refine ⟨by decide, by decide, 0, ⟨2, 0⟩, ⟨.wrlck, 0, 0, 10, 0, 2⟩, [found],
      ⟨2, 3, 3, [sleeping], []⟩, by decide⟩
  have hcycle := (hall (.records 10) wokenSys (Sys.after_reachable _ wokenRun)).2 _ _ _ hrefused
  -- Process 1 is not asleep, so nothing leads from it to process 2.
  rcases Relation.ReflTransGen.cases_head hcycle with heq | ⟨r, ⟨sl, hsl, _⟩, _⟩
  · revert heq
    decide
  · have hrun : wokenSys.procs ⟨1, 0⟩ = .runnable false
        ⟨0, ⟨.wrlck, 0, 20, 29, 0, 1⟩, q.cmd, q.renv, 1, 2⟩ := by decide
    have hsl' : wokenSys.procs ⟨1, 0⟩ = .asleep sl := hsl
    rw [hrun] at hsl'
    cases hsl'

/-!
## The locks of a process that ends
-/

/-- The locks that `cleanlocks` is for. -/
def Filock.Left (pid sysid : Int) (f : Filock) : Prop :=
  (f.set.lPid = pid ∨ pid = IGN_PID) ∧ f.set.lSysid = sysid

instance (pid sysid : Int) (f : Filock) : Decidable (f.Left pid sysid) :=
  inferInstanceAs (Decidable (_ ∧ _))

theorem mem_foldl_delflck {f : Filock} (l lst : List Filock) (k : Kern) :
    f ∈ (l.foldl (fun a f => delflck a.1 f a.2) (lst, k)).1 ↔
      f ∈ lst ∧ ∀ g ∈ l, f.addr ≠ g.addr := by
  induction l generalizing lst k with
  | nil => simp
  | cons g rest ih =>
    rw [foldl_cons, ih, forall_mem_cons, ← and_assoc]
    exact and_congr_left' mem_unlink

theorem wakeups_foldl_delflck (l lst : List Filock) (k : Kern) :
    ∀ a ∈ (l.foldl (fun a f => delflck a.1 f a.2) (lst, k)).2.wakeups,
      a ∈ k.wakeups ∨ ∃ f ∈ l, f.addr = a := by
  induction l generalizing lst k with
  | nil => exact fun a ha => .inl ha
  | cons g rest ih =>
    intro a ha
    rcases ih _ _ a ha with hone | ⟨f, hf, haddr⟩
    · have hone : a ∈ (wakeprocs g k).wakeups := hone
      unfold wakeprocs at hone
      split at hone
      · rcases mem_cons.mp hone with rfl | hold
        · exact .inr ⟨g, mem_cons_self, rfl⟩
        · exact .inl hold
      · exact .inl hone
    · exact .inr ⟨f, mem_cons_of_mem _ hf, haddr⟩

theorem mem_left {f : Filock} {lst : List Filock} {pid sysid : Int} :
    f ∈ lst.filter (fun f => (f.set.lPid == pid || pid == IGN_PID) && f.set.lSysid == sysid) ↔
      f ∈ lst ∧ f.Left pid sysid := by
  simp only [mem_filter, Bool.and_eq_true, Bool.or_eq_true, beq_iff_eq, Filock.Left]

theorem mem_cleanlocks {f : Filock} {lst : List Filock} {k : Kern}
    (hnodup : (lst.map Filock.addr).Nodup) (pid sysid : Int) :
    f ∈ (cleanlocks pid sysid lst k).1 ↔ f ∈ lst ∧ ¬ f.Left pid sysid := by
  refine (mem_foldl_delflck _ lst k).trans (and_congr_right fun hf => ?_)
  constructor
  · exact fun h hleft => h f (mem_left.mpr ⟨hf, hleft⟩) rfl
  · intro h g hg haddr
    rcases mem_left.mp hg with ⟨hg, hleft⟩
    exact h (eq_of_key_eq hnodup hf hg haddr ▸ hleft)

/-- Between the calls no wake-up is left over. -/
theorem Sys.Step.wakeups (h : s.k.wakeups = []) {e : Event} (hstep : s.Step t e s') :
    s'.k.wakeups = [] := by
  cases hstep.cases with
  | signal => exact h
  | _ => rfl

/-- `cleanlocks` removes just the locks of the process from the list of the file; whoever sleeps on
one of them runs again, and the others sleep on. -/
theorem cleanlocks_exact (t : Tune) (vp : Nat) (pid sysid : Int) :
    (∀ s s' : Sys, s.Reachable t → s.Step t (.cleanlocks vp pid sysid) s' →
      (∀ f : Filock, f ∈ s'.filocks vp ↔ f ∈ s.filocks vp ∧ ¬ f.Left pid sysid) ∧
        ∀ wp ≠ vp, s'.filocks wp = s.filocks wp) ∧
    ∀ s s' : Sys, Transition.ReachableWhen Sys.initial (Sys.Step t) Sys.NamesOk s →
      s.Step t (.cleanlocks vp pid sysid) s' → ∀ o sl, s.procs o = .asleep sl → sl.vp = vp →
        ∃ f ∈ s.filocks vp, f.addr = sl.chan ∧
          s'.procs o = if f.Left pid sysid then .runnable false sl else .asleep sl := by
  have hwake : ∀ s : Sys, s.Reachable t → s.k.wakeups = [] := fun s hs =>
    Transition.Reachable.invariant (I := fun s : Sys => s.k.wakeups = []) (fun s h => h.2.2.1)
      (fun s e s' h hstep => hstep.wakeups h) hs
  constructor
  · rintro s s' hs hstep
    cases hstep
    refine ⟨fun f => ?_, fun wp hne => update_of_ne hne ..⟩
    refine Iff.trans (iff_of_eq (congrArg (f ∈ ·) (update_self ..))) ?_
    exact mem_cleanlocks (hs.listsOk.lists vp).wf.nodup pid sysid
  · rintro s s' hs hstep o sl hasleep rfl
    have hok : s.SleepOk := hs.invariant (I := Sys.SleepOk) (fun _ h => Sys.SleepOk.initial h)
      fun _ _ _ h hnames hstep => (h.step hnames hstep).1
    have hnodup := (hok.lists.lists sl.vp).wf.nodup
    rcases hok.asleep o sl hasleep with ⟨q, -, f, hf, haddr, -, hpos⟩
    refine ⟨f, hf, haddr, ?_⟩
    have hframe := (cleanlocks_effect hok.records hnodup pid sysid).1.frame f hf hpos
    cases hstep
    refine (congrArg (PState.settle _) hasleep).trans ?_
    by_cases hleft : f.Left pid sysid
    · rw [if_pos hleft]
      refine if_pos (haddr ▸ hframe.resolve_left ?_)
      rintro ⟨g, hg, hsame, -⟩
      rcases (mem_cleanlocks hnodup pid sysid).mp hg with ⟨hg, hkept⟩
      exact hkept (eq_of_key_eq hnodup hg hf hsame ▸ hleft)
    · rw [if_neg hleft]
      refine if_neg fun hwoken => ?_
      rcases wakeups_foldl_delflck _ _ _ _ hwoken with hold | ⟨g, hg, hsame⟩
      · rw [hwake s hs.reachable] at hold
        cases hold
      · rcases mem_left.mp hg with ⟨hg, hleft'⟩
        exact hleft (eq_of_key_eq hnodup hg hf (hsame.trans haddr.symm) ▸ hleft')

end RecordLock
end Svr4
