import Svr4.RecordLock.Deadlock

/-!
# The end of the deadlock search

`deadflck` follows the first sleeping lock of each owner and does not mark
where it has been.  Each lock is put on `sleeplcks` after a search that does
not come back to its owner; but an owner with `RCMDLCK` requests may have
several there, and what is behind the first was not there to be followed when
later requests were searched.
-/

namespace Svr4
namespace RecordLock

open NodeList WaitGraph Option

/-- The search goes from an owner to the one its first sleeping lock names. -/
def Chases (sleeplcks : List Filock) (p q : Owner) : Prop :=
  recorded sleeplcks p = some q

variable {sleeplcks lst : List Filock} {o : Owner}

theorem recorded_some {q : Owner} (h : recorded sleeplcks o = some q) :
    ∃ sf ∈ sleeplcks, sf.owner = o ∧ sf.stat.blk = q ∧ sleepLock sleeplcks o = some sf := by
  rcases Option.map_eq_some_iff.mp h with ⟨sf, hsf, hblk⟩
  refine ⟨sf, List.mem_of_find?_eq_some hsf, ?_, hblk, hsf⟩
  simpa using List.find?_some hsf

theorem deadflck_ends (h : Acyclic (Chases sleeplcks)) (blck requester : Owner) :
    deadflck (sleeplcks.length + 1) sleeplcks blck requester ≠ none := by
  rw [deadflck_eq_follow]
  have hends := follow_ends h (w := sleeplcks.map Filock.owner) (fun x hx => ?_) blck requester
  · rwa [List.length_map] at hends
  · rcases Option.ne_none_iff_exists'.mp hx with ⟨q, hq⟩
    rcases recorded_some hq with ⟨sf, hsf, hown, _⟩
    exact List.mem_map.mpr ⟨sf, hsf, hown⟩

/-!
## Changes of the sleeping locks
-/

/-- A sleeping lock of an owner that is not its first leads back to it. -/
def HiddenCycle (sleeplcks : List Filock) (o : Owner) : Prop :=
  ∃ sf ∈ sleeplcks, sf.owner = o ∧ sleepLock sleeplcks o ≠ some sf ∧
    Relation.ReflTransGen (Chases sleeplcks) sf.stat.blk o

variable {k k' : Kern}

theorem acyclic_of_deleted (h : Acyclic (Chases k.sleeplcks)) (hrec : RecordsOf o k k')
    (hsub : k'.sleeplcks ⊆ k.sleeplcks)
    (hhidden : ¬ HiddenCycle k.sleeplcks o) : Acyclic (Chases k'.sleeplcks) := by
  refine Acyclic.reroute h (p := o) (fun q hq => hrec.recorded hq) fun q hq hback => ?_
  rcases recorded_some hq with ⟨sf, hsf, hown, hblk, _⟩
  by_cases hfirst : sleepLock k.sleeplcks o = some sf
  · have hedge : recorded k.sleeplcks o = some q := by
      unfold recorded
      rw [hfirst, Option.map_some, hblk]
    exact h o (Relation.TransGen.head' hedge hback)
  · exact hhidden ⟨sf, hsub hsf, hown, hfirst, by rw [hblk]; exact hback⟩

theorem acyclic_of_inserted {ld : Flock} {found : Filock} (h : Acyclic (Chases k.sleeplcks))
    (hrec : RecordsOf ld.owner k k') (hnew : recorded k'.sleeplcks ld.owner = some found.owner)
    (hdead : k.deadflck found ld = some false) : Acyclic (Chases k'.sleeplcks) := by
  unfold Kern.deadflck at hdead
  rw [deadflck_eq_follow] at hdead
  refine Acyclic.reroute h (p := ld.owner) (fun q hq => hrec.recorded hq) fun q hq => ?_
  rw [hnew] at hq
  cases hq
  exact follow_false hdead

theorem cleanslp_subset (ld : Flock) (k : Kern) : (cleanslp ld k).sleeplcks ⊆ k.sleeplcks := by
  unfold cleanslp
  generalize k.sleeplcks.filter (cleanMatch ld) = l
  induction l generalizing k with
  | nil => exact List.Subset.refl _
  | cons sf rest ih =>
    exact fun x hx => (mem_unlink.mp (ih (delSleeplck k sf) hx)).1

theorem awake_subset (sf : Nat) (k : Kern) : (awake sf k).sleeplcks ⊆ k.sleeplcks := by
  unfold awake
  split
  · exact List.Subset.refl _
  · exact fun x hx => (mem_unlink.mp hx).1

variable {t : Tune}

theorem insSleeplck_none {ld : Flock} {found : Filock}
    (h : insSleeplck t ld found k = (none, k')) : k'.sleeplcks = k.sleeplcks := by
  unfold insSleeplck at h
  rcases insflck_cases t k.sleeplcks ld none k with ⟨n, heq, _⟩ | heq
  · rw [heq] at h
    cases h
    rfl
  · rw [heq] at h
    cases h

/-- Sleeping locks are deleted, and those that are new have new addresses. -/
structure Grown (k k' : Kern) : Prop where
  ok : SleepsOk k'
  added : ∀ sf ∈ k'.sleeplcks, sf ∈ k.sleeplcks ∨ k.zallocs ≤ sf.addr
  zallocs : k.zallocs ≤ k'.zallocs

theorem RecordsOf.grown (h : RecordsOf o k k') : Grown k k' :=
  ⟨h.ok, h.added, h.zallocs⟩

theorem Grown.trans {k'' : Kern} (h : Grown k k') (h' : Grown k' k'') : Grown k k'' where
  ok := h'.ok
  added := by
    intro sf hsf
    rcases h'.added sf hsf with hin | hnew
    · exact h.added sf hin
    · exact .inr (Nat.le_trans h.zallocs hnew)
  zallocs := Nat.le_trans h.zallocs h'.zallocs

inductive Rewired (u : Renv) (cmd : Cmd) (ld : Flock) (lst : List Filock)
    (k k' : Kern) : Prop where
  | same (h : k'.sleeplcks = k.sleeplcks) (hz : k.zallocs ≤ k'.zallocs)
  | deleted (o : Owner) (hrcmd : cmd.rcmdlck = true)
      (ho : o = ld.owner ∨ ∃ ld', Queried u ld lst ld' ∧ o = ld'.owner)
      (hrec : RecordsOf o k k') (hsub : k'.sleeplcks ⊆ k.sleeplcks)
  | inserted (found : Filock) (hrec : RecordsOf ld.owner k k')
      (hnew : recorded k'.sleeplcks ld.owner = some found.owner)
      (hdead : k.deadflck found ld = some false)

section Pass

variable {t : Tune} {u : Renv} {cmd : Cmd} {ld : Flock} {lst : List Filock}
  {k : Kern}

theorem Cleaned.rewired {k₁ : Kern} {ld' : Flock} (h : Cleaned cmd ld' k₁ k') (hok : SleepsOk k)
    (hsame : k₁.sleeplcks = k.sleeplcks) (hz : k.zallocs ≤ k₁.zallocs)
    (ho : ld'.owner = ld.owner ∨ Queried u ld lst ld') : Rewired u cmd ld lst k k' := by
  rcases h with rfl | ⟨hrcmd, rfl⟩
  · exact .same hsame hz
  · have hfirst : RecordsOf ld'.owner k k₁ := RecordsOf.of_eq hok _ hsame hz
    refine .deleted ld'.owner hrcmd ?_ (hfirst.trans (cleanslp_records hfirst.ok ld')) ?_
    · exact ho.imp id fun hq => ⟨ld', hq, rfl⟩
    · rw [← hsame]
      exact cleanslp_subset ld' k₁

theorem PassCase.rewired {r : Retval} {ret : Flock} {lst' : List Filock}
    (h : ListOk lst k.zallocs) (hok : SleepsOk k) (hld : ld.InRange)
    (hcase : PassCase t u cmd ld lst k (.done r ret lst' k')) : Rewired u cmd ld lst k k' := by
  have hkeep : Rewired u cmd ld lst k k := .same rfl (Nat.le_refl _)
  generalize hp : Pass.done r ret lst' k' = p at hcase
  cases hcase with
  | adjust insrt k'' ra hset hstart hgrant hr hclean =>
    have hpost := flckadj_spec t h.wf h.addrs hld hgrant.type_ne_bad hstart
    rw [hr] at hpost
    cases hp
    exact hclean.rewired hok hpost.1.sleeplcks hpost.1.zallocs (.inl hpost.2.1)
  | report ld' k'' hset hown hclean =>
    cases hp
    exact hclean.rewired hok rfl (Nat.le_refl _) hown
  | refused e he hdeny =>
    cases hp
    exact hkeep
  | query found hslp hset =>
    cases hp
    exact hkeep
  | deadlock found hfound hcon hslp hdeny hdead =>
    cases hp
    exact hkeep
  | hangs found hslp hdead => cases hp
  | recorded found hrcmd hdeny =>
    cases hp
    exact hkeep
  | remote found sf k'' hrcmd hdeny hdead hins =>
    cases hp
    rcases insSleeplck_records hok hins with ⟨hrec, _, hnew⟩
    exact .inserted found hrec (hnew sf rfl).2.2.1 hdead
  | noRecord found k'' hdeny hins =>
    cases hp
    exact .same (insSleeplck_none hins) (insSleeplck_records hok hins).1.zallocs
  | sleeps found sf k'' hfound hmem hcon hslp hrcmd hdead hins => cases hp

theorem Rewired.grown (h : Rewired u cmd ld lst k k') (hok : SleepsOk k) : Grown k k' := by
  cases h with
  | same h hz => exact (RecordsOf.of_eq hok ld.owner h hz).grown
  | deleted o hrcmd ho hrec hsub => exact hrec.grown
  | inserted found hrec hnew hdead => exact hrec.grown

theorem Rewired.acyclic (h : Rewired u cmd ld lst k k') (hac : Acyclic (Chases k.sleeplcks))
    (hhidden : cmd.rcmdlck = true → ∀ o,
      (o = ld.owner ∨ ∃ ld', Queried u ld lst ld' ∧ o = ld'.owner) →
      ¬ HiddenCycle k.sleeplcks o) : Acyclic (Chases k'.sleeplcks) := by
  cases h with
  | same h hz =>
    rw [h]
    exact hac
  | deleted o hrcmd ho hrec hsub =>
    exact acyclic_of_deleted hac hrec hsub (hhidden hrcmd o ho)
  | inserted found hrec hnew hdead => exact acyclic_of_inserted hac hrec hnew hdead

end Pass

/-!
## Steps
-/

structure Sys.ChaseOk (s : Sys) : Prop where
  lists : s.ListsOk
  records : SleepsOk s.k
  named : ∀ o sl, (s.procs o).sleeper = some sl → sl.sf < s.k.zallocs ∧
    ∀ sf ∈ s.k.sleeplcks, sf.addr = sl.sf → sf.owner = o
  acyclic : Acyclic (Chases s.k.sleeplcks)

/--
The event may delete sleeping locks of the owner: those of a process that runs
again, of the owner of a request with `RCMDLCK`, or of the owner of a lock
that has been put in the place of such a request.
-/
def Sys.Cleans (s : Sys) (e : Event) (o : Owner) : Prop :=
  e = .resume o ∨ ∃ en, s.entry e = some en ∧ en.cmd.rcmdlck = true ∧ (o = en.lckdat.owner ∨
      ∃ ld', Queried en.renv en.lckdat (s.filocks en.vp) ld' ∧ o = ld'.owner)

/-- No owner whose sleeping locks may be deleted has one that hides a cycle. -/
def Sys.NoHiddenCycle (s : Sys) (e : Event) : Prop :=
  ∀ o, s.Cleans e o → ¬ HiddenCycle s.k.sleeplcks o

variable {s : Sys} {e : Event}

theorem Sys.ChaseOk.entry (h : s.ChaseOk) {en : Entry} (hok : s.NoHiddenCycle e)
    (hentry : s.entry e = some en) :
    Grown s.k en.k ∧ Acyclic (Chases en.k.sleeplcks) ∧ (en.cmd.rcmdlck = true → en.k = s.k) := by
  have hsame : Grown s.k s.k := ⟨h.records, fun _ hsf => .inl hsf, Nat.le_refl _⟩
  cases e with
  | call o q =>
    simp only [Sys.entry] at hentry
    split_ifs at hentry with hrun
    split at hentry
    next => cases hentry
    next ld hq =>
      cases hentry
      exact ⟨hsame, h.acyclic, fun _ => rfl⟩
  | remote q =>
    simp only [Sys.entry] at hentry
    split_ifs at hentry with hrcmd
    split at hentry
    next => cases hentry
    next ld hq =>
      cases hentry
      exact ⟨hsame, h.acyclic, fun _ => rfl⟩
  | resume o =>
    simp only [Sys.entry] at hentry
    split at hentry
    next sl hproc =>
      cases hentry
      have hsl : (s.procs o).sleeper = some sl := by rw [hproc]; rfl
      have hreq := h.lists.requests o sl hsl
      have hrec := awake_records h.records (h.named o sl hsl).2
      refine ⟨hrec.grown, acyclic_of_deleted h.acyclic hrec (awake_subset _ _)
        (hok o (.inl rfl)), fun hrcmd => ?_⟩
      simp [hreq.2.2] at hrcmd
    next => cases hentry
  | signal o => cases hentry
  | cleanlocks vp pid sysid => cases hentry

theorem Sys.ChaseOk.update (h : s.ChaseOk) (p : Option Owner) {vp : Nat}
    (hlists : ((s.leave p).update vp lst k).ListsOk) (hgrown : Grown s.k k)
    (hac : Acyclic (Chases k.sleeplcks)) : ((s.leave p).update vp lst k).ChaseOk where
  lists := hlists
  records := ⟨hgrown.ok.nodup, hgrown.ok.addrs⟩
  named := by
    intro q sl hsl
    have hsl' : ((s.leave p).procs q).sleeper = some sl := by
      rw [← PState.settle_sleeper k.wakeups]
      exact hsl
    rcases h.named q sl (Sys.leave_sleeper hsl') with ⟨hlt, hown⟩
    refine ⟨Nat.lt_of_lt_of_le hlt hgrown.zallocs, fun sf hsf haddr => ?_⟩
    rcases hgrown.added sf hsf with hin | hnew
    · exact hown sf hin haddr
    · omega
  acyclic := hac

theorem Sys.ChaseOk.setProc (h : s.ChaseOk) {p : PState} (hlists : (s.setProc o p).ListsOk)
    (hp : ∀ sl, p.sleeper = some sl → sl.sf < s.k.zallocs ∧
      ∀ sf ∈ s.k.sleeplcks, sf.addr = sl.sf → sf.owner = o) : (s.setProc o p).ChaseOk where
  lists := hlists
  records := h.records
  named := by
    intro q sl hsl
    by_cases hq : q = o
    · subst hq
      simp only [Sys.setProc, Function.update_self] at hsl
      exact hp sl hsl
    · simp only [Sys.setProc, Function.update_of_ne hq] at hsl
      exact h.named q sl hsl
  acyclic := h.acyclic

theorem Sys.ChaseOk.step {s' : Sys} (h : s.ChaseOk) (hok : s.NoHiddenCycle e)
    (hstep : s.Step t e s') : s'.ChaseOk := by
  have hlists' := h.lists.step hstep
  have hsame : Grown s.k s.k := ⟨h.records, fun _ hsf => .inl hsf, Nat.le_refl _⟩
  cases hstep.cases with
  | done en r ld lst k hentry hpass =>
    rcases h.lists.entry hentry with ⟨hld, hz, _⟩
    rcases h.entry hok hentry with ⟨hgrown, hac, hk⟩
    have hlist := h.lists.lists en.vp
    rw [← hz] at hlist
    have hcase := reclockPass_cases t en.renv en.cmd en.k hlist.wf hld
    rw [hpass] at hcase
    have hrewired := hcase.rewired hlist hgrown.ok hld
    refine h.update en.proc hlists' (hgrown.trans (hrewired.grown hgrown.ok))
      (hrewired.acyclic hac fun hrcmd o ho => ?_)
    rw [hk hrcmd]
    exact hok o (.inr ⟨en, hentry, hrcmd, ho⟩)
  | sleeps en o chan sf lst k hentry hproc hpass =>
    rcases h.lists.entry hentry with ⟨hld, hz, hown⟩
    rcases h.entry hok hentry with ⟨hgrown, hac, _⟩
    have hlist := h.lists.lists en.vp
    rw [← hz] at hlist
    have hcase := reclockPass_cases t en.renv en.cmd en.k hlist.wf hld
    rw [hpass] at hcase
    have hres := hcase.listOk hlist hld rfl
    cases hcase with
    | sleeps found sf' k'' hfound hmem hcon hslp hrcmd hdead hins =>
      rcases insSleeplck_records hgrown.ok hins with ⟨hrec, _, hnew⟩
      rcases hnew sf rfl with ⟨_, hlt, hfirst, hnamed⟩
      have hlists := @Sys.ListsOk.update _ en.vp _ s h.lists hres.1 (hz ▸ hres.2)
      have hupdate := h.update none hlists
        (hgrown.trans hrec.grown) (acyclic_of_inserted hac hrec hfirst hdead)
      refine hupdate.setProc hlists' fun sl hsl => ?_
      cases hsl
      rw [hown o hproc] at hnamed
      exact ⟨hlt, hnamed⟩
  | refused o vp hrun => exact h.update o hlists' hsame h.acyclic
  | interrupted o sl hproc he =>
    have hsl : (s.procs o).sleeper = some sl := by rw [hproc]; rfl
    have hrec : RecordsOf o s.k (awake sl.sf s.k) :=
      awake_records h.records (h.named o sl hsl).2
    exact h.update (some o) hlists' hrec.grown (acyclic_of_deleted h.acyclic hrec (awake_subset _ _)
        (hok o (.inl he)))
  | signal o sl hproc =>
    have hsl : (s.procs o).sleeper = some sl := by
      rcases hproc with hproc | ⟨intr, hproc⟩ <;> rw [hproc] <;> rfl
    refine h.setProc hlists' fun sl' hsl' => ?_
    cases hsl'
    exact h.named o sl hsl
  | cleanlocks vp pid sysid =>
    rcases cleanlocks_effect h.records (h.lists.lists vp).wf.nodup pid sysid with ⟨heff, hkeep⟩
    refine h.update none hlists' heff.records.grown ?_
    rw [hkeep]
    exact h.acyclic

theorem Sys.ChaseOk.initial (h : s.initial) : s.ChaseOk where
  lists := Sys.ListsOk.initial h
  records := by
    constructor <;> simp [h.2.1]
  named := by
    intro o sl hsl
    rw [h.2.2.2.2 o] at hsl
    cases hsl
  acyclic := by
    intro a hcycle
    rcases Relation.TransGen.head'_iff.mp hcycle with ⟨b, hab, _⟩
    rw [h.2.1] at hab
    cases hab

/-!
## Runs
-/

theorem reclock_hangs {q : Request} (h : reclock t q lst k = .hangs) :
    ∃ ld, reclockEnter q = .ok ld ∧ reclockPass t q.renv q.cmd ld lst k = .hangs := by
  unfold reclock at h
  split at h
  · cases h
  · rename_i ld hq
    refine ⟨ld, hq, ?_⟩
    split at h
    · cases h
    · exact h

theorem reclockResume_hangs {intr : Bool} {sl : Sleeper}
    (h : reclockResume t intr sl lst k = .hangs) :
    intr = false ∧ reclockPass t sl.renv sl.cmd sl.lckdat lst (awake sl.sf k) = .hangs := by
  unfold reclockResume at h
  cases intr with
  | true => cases h
  | false =>
    refine ⟨rfl, ?_⟩
    simp only [Bool.false_eq_true, if_false] at h
    split at h
    · cases h
    · exact h

theorem Sys.pass_hangs {vp : Nat} (h : s.pass t e = some (vp, o, .hangs)) :
    ∃ en, s.entry e = some en ∧
      reclockPass t en.renv en.cmd en.lckdat (s.filocks en.vp) en.k = .hangs := by
  cases e with
  | call o' q =>
    simp only [Sys.pass] at h
    split_ifs at h with hrun
    simp only [some.injEq, Prod.mk.injEq] at h
    rcases reclock_hangs h.2.2 with ⟨ld, hq, hpass⟩
    exact ⟨⟨q.vp, some o', ld, q.cmd, q.renv, s.k⟩, by simp [Sys.entry, hrun, hq], hpass⟩
  | remote q =>
    simp only [Sys.pass] at h
    split_ifs at h with hrcmd
    simp only [some.injEq, Prod.mk.injEq] at h
    rcases reclock_hangs h.2.2 with ⟨ld, hq, hpass⟩
    exact ⟨⟨q.vp, none, ld, q.cmd, q.renv, s.k⟩, by simp [Sys.entry, hrcmd, hq], hpass⟩
  | resume o' =>
    cases hproc : s.procs o' with
    | running => simp [Sys.pass, hproc] at h
    | asleep sl => simp [Sys.pass, hproc] at h
    | runnable intr sl =>
      simp only [Sys.pass, hproc, some.injEq, Prod.mk.injEq] at h
      rcases reclockResume_hangs h.2.2 with ⟨rfl, hpass⟩
      exact ⟨⟨sl.vp, some o', sl.lckdat, sl.cmd, sl.renv, awake sl.sf s.k⟩,
        by simp [Sys.entry, hproc], hpass⟩
  | signal o' => cases h
  | cleanlocks vp' pid sysid => cases h

/--
In every run in which no deletion of sleeping locks lays a cycle open, the search
ends in every state, from every owner and for every requester; and no request is
caught in it.
-/
theorem deadflck_terminates {t : Tune} {s : Sys}
    (hs : Transition.ReachableWhen Sys.initial (Sys.Step t) Sys.NoHiddenCycle s) :
    (∀ blck requester, ∃ n, deadflck n s.k.sleeplcks blck requester ≠ none) ∧
      ∀ e, s.NoHiddenCycle e → (∀ en, s.entry e = some en → ∀ blck requester, ∃ n,
          deadflck n en.k.sleeplcks blck requester ≠ none) ∧
        ∀ vp o, s.pass t e ≠ some (vp, o, .hangs) := by
  have hinv : s.ChaseOk := hs.invariant (fun _ => Sys.ChaseOk.initial)
    fun _ _ _ hchase hok hstep => hchase.step hok hstep
  refine ⟨fun blck requester => ⟨_, deadflck_ends hinv.acyclic blck requester⟩,
    fun e hok => ⟨fun en hentry blck requester => ?_, fun vp o hpass => ?_⟩⟩
  · exact ⟨_, deadflck_ends (hinv.entry hok hentry).2.1 blck requester⟩
  · rcases Sys.pass_hangs hpass with ⟨en, hentry, hrun⟩
    rcases hinv.lists.entry hentry with ⟨hld, hz, _⟩
    have hlist := hinv.lists.lists en.vp
    rw [← hz] at hlist
    have hcase := reclockPass_cases t en.renv en.cmd en.k hlist.wf hld
    rw [hrun] at hcase
    cases hcase with
    | hangs found hslp hdead =>
      exact deadflck_ends (hinv.entry hok hentry).2.1 _ _ hdead

/-- Process 1 sleeps on a lock of process 2: the search from it ends there. -/
theorem deadflck_terminates_asleep : ∃ n, deadflck n
    (Sys.after (.records 10) [.call ⟨1, 0⟩ (.fcntl .wrlck 0 10 false),
        .call ⟨2, 0⟩ (.fcntl .wrlck 20 10 false),
        .call ⟨1, 0⟩ (.fcntl .wrlck 20 10 true)]).k.sleeplcks ⟨1, 0⟩ ⟨3, 0⟩ ≠ none := by
  refine (deadflck_terminates (t := .records 10)
    (Sys.after_when (.records 10) _ ?_)).1 ⟨1, 0⟩ ⟨3, 0⟩
  intro e he s o hcleans
  fin_cases he <;> rcases hcleans with heq | ⟨en, hentry, hrcmd, _⟩
  all_goals first
    | cases heq
    | (rw [Sys.entry_call hentry] at hrcmd; cases hrcmd)

/-- A request of a remote system, which waits for the lock. -/
def Request.remote (lStart lLen pid : Int) : Request :=
  { Request.fcntl .wrlck lStart lLen true with
    lckdat := ⟨.wrlck, 0, lStart, lLen, 1, pid⟩
    cmd := ⟨false, true, true, true⟩ }

/--
The processes 1 and 2 and the remote process 3 hold one range each.  Process 3
asks for that of 1 and then for that of 2; process 1 goes to sleep on that of 3,
which is recorded to wait for 2; and process 3 gets what it wanted from 2.
-/
def hiddenRun : List Event :=
  [.call ⟨1, 0⟩ (.fcntl .wrlck 0 10 false), .call ⟨2, 0⟩ (.fcntl .wrlck 20 10 false),
    .remote (.remote 40 10 3),
    .remote (.remote 0 10 3),
    .remote (.remote 20 10 3),
    .call ⟨1, 0⟩ (.fcntl .wrlck 40 10 true),
    .call ⟨2, 0⟩ (.fcntl .unlck 20 10 false),
    .remote (.remote 20 10 3)]

/-- Now processes 1 and 3 wait for each other, and process 4 is caught in a search. -/
theorem deadflck_caught : ¬ ∀ (t : Tune) (s : Sys), s.Reachable t →
    ∀ blck requester, ∃ n, deadflck n s.k.sleeplcks blck requester ≠ none := by
  intro hall
  let s := Sys.after (.records 10) hiddenRun
  have hone : recorded s.k.sleeplcks ⟨1, 0⟩ = some ⟨3, 1⟩ := by decide +kernel
  have hthree : recorded s.k.sleeplcks ⟨3, 1⟩ = some ⟨1, 0⟩ := by decide +kernel
  rcases hall (.records 10) s (Sys.after_reachable _ hiddenRun) ⟨1, 0⟩ ⟨4, 0⟩ with ⟨n, hn⟩
  rw [deadflck_eq_follow] at hn
  refine hn (follow_caught (s := fun o => o = ⟨1, 0⟩ ∨ o = ⟨3, 1⟩) ?_ n (.inl rfl))
  rintro o (rfl | rfl)
  · exact ⟨by decide, _, hone, .inr rfl⟩
  · exact ⟨by decide, _, hthree, .inl rfl⟩

end RecordLock
end Svr4
