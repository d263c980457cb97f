import Svr4.RecordLock.Blocked
import Svr4.RecordLock.Reclock

/-!
# Passes and steps

Inversions of one pass of `reclock` and of one step of the system.  Every
statement about runs is derived from them.
-/

namespace Svr4
namespace RecordLock

open NodeList

/-!
## Entering reclock
-/

variable {lckdat ld : Flock}

theorem convoff_start_nonneg {offset : Int} {vaSize : Except Errno Int}
    (h : convoff lckdat 0 offset vaSize = .ok ld) :
    0 ≤ ld.lStart ∧ ld = { lckdat with lStart := ld.lStart, lWhence := 0 } := by
  unfold convoff at h
  cases vaSize with
  | error e => cases h
  | ok size =>
    simp only [bind, Except.bind, pure, Except.pure, throw, throwThe, MonadExceptOf.throw] at h
    split_ifs at h <;> simp_all <;> subst h <;> simp <;> omega

theorem offT_le (x : Int) : offT x ≤ MAXEND := by
  have h : offT x < (4294967296 + 1) / 2 := Int.bmod_lt (by decide)
  unfold MAXEND
  omega

theorem lenToEnd_ok (h : lenToEnd lckdat = .ok ld) :
    ∃ lEnd ≤ MAXEND, lckdat.lStart ≤ lEnd ∧ ld = { lckdat with lEnd := lEnd } := by
  unfold lenToEnd at h
  split at h
  · cases h
  · generalize hend : (if lckdat.lEnd = 0 then MAXEND
      else offT (lckdat.lEnd + (lckdat.lStart - 1))) = lEnd at h
    have hle : lEnd ≤ MAXEND := by
      rw [← hend]
      split
      · exact Int.le_refl _
      · exact offT_le _
    simp only at h
    split at h
    · cases h
    · cases h
      exact ⟨lEnd, hle, by omega, rfl⟩

theorem reclockEnter_ok {q : Request} (h : reclockEnter q = .ok ld) :
    ld.InRange ∧ ld.owner = q.lckdat.owner ∧ ld.lType = q.lckdat.lType := by
  unfold reclockEnter at h
  split at h
  · cases h
  · split at h
    · cases h
    · rename_i lckdat hconv
      rcases convoff_start_nonneg hconv with ⟨hstart, hshape⟩
      rcases lenToEnd_ok h with ⟨lEnd, hle, hse, rfl⟩
      refine ⟨⟨hstart, hse, hle⟩, ?_, ?_⟩
      · rw [hshape]
        rfl
      · rw [hshape]

/-!
## One pass
-/

/-- The old sleeping locks of the request may have been cleaned up. -/
def Cleaned (cmd : Cmd) (lckdat : Flock) (k k' : Kern) : Prop :=
  k' = k ∨ (cmd.rcmdlck = true ∧ k' = cleanslp lckdat k)

/-- A request to set a lock, or to remove one, that nothing excludes. -/
def Granted (u : Renv) (ld : Flock) (lst : List Filock) : Prop :=
  ld.lType = .unlck ∨ ((ld.lType = .rdlck ∨ ld.lType = .wrlck) ∧ ∀ f ∈ lst, ¬ Conflicts u ld f)

theorem Conflicts.not_granted {u : Renv} {lst : List Filock} {f : Filock} (hf : f ∈ lst)
    (hcon : Conflicts u ld f)
    (hty : ld.lType = .rdlck ∨ ld.lType = .wrlck) : ¬ Granted u ld lst := by
  rintro (hun | ⟨_, hfree⟩)
  · rcases hty with hty | hty <;> rw [hun] at hty <;> cases hty
  · exact hfree f hf hcon

/-- What `deadflck` says about a wait for the owner of `found`. -/
def Kern.deadflck (k : Kern) (found : Filock) (ld : Flock) : Option Bool :=
  RecordLock.deadflck (k.sleeplcks.length + 1) k.sleeplcks found.owner ld.owner

/-- A query for an unlock, from a XENIX binary, reports a lock found. -/
def Queried (u : Renv) (ld : Flock) (lst : List Filock) (ld' : Flock) : Prop :=
  ld.lType = .unlck ∧ (u.virtualXout && u.isFcntl) = true ∧
    ∃ found, (blocked u lst ld).1 = some found ∧ ld' = found.set

/-- The passes of the loop of `reclock`. -/
inductive PassCase (t : Tune) (u : Renv) (cmd : Cmd) (ld : Flock)
    (lst : List Filock) (k : Kern) : Pass → Prop where
  | adjust (insrt : Option Nat) (k' : Kern) (r : Retval × Adj)
      (hset : cmd.setflck = true) (hstart : StartOk lst insrt ld k)
      (hgrant : Granted u ld lst) (hr : flckadj t lst insrt ld k = r)
      (hclean : Cleaned cmd r.2.ld r.2.k k') :
      PassCase t u cmd ld lst k (.done r.1 r.2.ld r.2.lst k')
  | report (ld' : Flock) (k' : Kern) (hset : cmd.setflck = false)
      (hown : ld'.owner = ld.owner ∨ Queried u ld lst ld')
      (hclean : Cleaned cmd ld' k k') :
      PassCase t u cmd ld lst k (.done none ld' lst k')
  | refused (e : Errno) (he : e = .eagain ∨ e = .einval)
      (hdeny : ¬ Granted u ld lst) :
      PassCase t u cmd ld lst k (.done (some e) ld lst k)
  | query (found : Filock) (hslp : cmd.slpflck = false)
      (hset : cmd.setflck = false) :
      PassCase t u cmd ld lst k (.done none found.set lst k)
  | deadlock (found : Filock) (hfound : (blocked u lst ld).1 = some found)
      (hcon : Conflicts u ld found) (hslp : cmd.slpflck = true)
      (hdeny : ¬ Granted u ld lst) (hdead : k.deadflck found ld = some true) :
      PassCase t u cmd ld lst k (.done (some .edeadlk) ld lst k)
  | hangs (found : Filock) (hslp : cmd.slpflck = true)
      (hdead : k.deadflck found ld = none) :
      PassCase t u cmd ld lst k .hangs
  | recorded (found : Filock) (hrcmd : cmd.rcmdlck = true)
      (hdeny : ¬ Granted u ld lst) :
      PassCase t u cmd ld lst k (.done (some .eintr) ld lst k)
  | remote (found : Filock) (sf : Nat) (k' : Kern) (hrcmd : cmd.rcmdlck = true)
      (hdeny : ¬ Granted u ld lst)
      (hdead : k.deadflck found ld = some false)
      (hins : insSleeplck t ld found k = (some sf, k')) :
      PassCase t u cmd ld lst k (.done (some .eintr) ld lst k')
  | noRecord (found : Filock) (k' : Kern) (hdeny : ¬ Granted u ld lst)
      (hins : insSleeplck t ld found k = (none, k')) :
      PassCase t u cmd ld lst k (.done (some .enolck) ld lst k')
  | sleeps (found : Filock) (sf : Nat) (k' : Kern)
      (hfound : (blocked u lst ld).1 = some found) (hmem : found ∈ lst)
      (hcon : Conflicts u ld found) (hslp : cmd.slpflck = true)
      (hrcmd : cmd.rcmdlck = false) (hdead : k.deadflck found ld = some false)
      (hins : insSleeplck t ld found k = (some sf, k')) :
      PassCase t u cmd ld lst k (.sleeps found.addr sf (amend Filock.addr found.addr (fun f =>
              { f with stat := f.stat.setWakeflg (f.stat.wakeflg + 1) }) lst) k')

section Pass

variable (t : Tune) {u : Renv} {cmd : Cmd} {ld : Flock} {lst : List Filock}
  {k : Kern}

theorem reclockSet_cases (hwf : WellFormed lst) (hld : ld.InRange)
    (hty : ld.lType = .rdlck ∨ ld.lType = .wrlck) :
    PassCase t u cmd ld lst k (reclockSet t u cmd ld lst k) := by
  have hfinds : Finds u ld lst (blocked u lst ld).1 :=
    blockedScan_finds hld.start_le_end hwf.ordered none
  rcases blocked_cut u ld hwf.ordered with ⟨pre, post, hcut⟩
  unfold reclockSet
  rcases hb : blocked u lst ld with ⟨r, insrt⟩
  have hfirst : (blocked u lst ld).1 = r := by rw [hb]
  rw [hb] at hfinds hcut
  cases r with
  | none =>
    simp only
    split_ifs with hset hclean hclean
    · refine .adjust insrt _ _ hset (hcut.startOk hwf k)
        (.inr ⟨hty, hfinds.complete rfl⟩) rfl (.inr ⟨?_, rfl⟩)
      simp only [Bool.and_eq_true] at hclean
      exact hclean.1
    · exact .adjust insrt _ _ hset (hcut.startOk hwf k)
        (.inr ⟨hty, hfinds.complete rfl⟩) rfl (.inl rfl)
    · refine .report _ _ (by simpa using hset) (.inl rfl) (.inr ⟨?_, rfl⟩)
      simp only [Bool.and_eq_true] at hclean
      exact hclean.1
    · exact .report _ _ (by simpa using hset) (.inl rfl) (.inl rfl)
  | some found =>
    have hfound := hfinds.sound found rfl
    have hdeny := hfound.2.not_granted hfound.1 hty
    simp only
    split_ifs with hslp hset
    · split
      next hdead => exact .hangs found hslp hdead
      next hdead => exact .deadlock found hfirst hfound.2 hslp hdeny hdead
      next hdead =>
        unfold waitFor
        split_ifs with hrcmd hany
        · exact .recorded found hrcmd hdeny
        · split
          next k' hins => exact .noRecord found k' hdeny hins
          next sf k' hins => exact .remote found sf k' hrcmd hdeny hdead hins
        · split
          next k' hins => exact .noRecord found k' hdeny hins
          next sf k' hins =>
            exact .sleeps found sf k' hfirst hfound.1 hfound.2 hslp
              (by simpa using hrcmd) hdead hins
    · exact .refused _ (.inl rfl) hdeny
    · exact .query found (by simpa using hslp) (by simpa using hset)

theorem reclockUnlck_cases (hwf : WellFormed lst) (hty : ld.lType = .unlck) :
    PassCase t u cmd ld lst k (reclockUnlck t u cmd ld lst k) := by
  have hstart := startOk_head hwf k hty
  have hreport : ∀ ld' : Flock, cmd.setflck = false →
      (ld'.owner = ld.owner ∨ Queried u ld lst ld') →
      PassCase t u cmd ld lst k
        (.done none ld' lst (if cmd.rcmdlck then cleanslp ld' k else k)) := by
    intro ld' hset hown
    split_ifs with hrcmd
    · exact .report _ _ hset hown (.inr ⟨hrcmd, rfl⟩)
    · exact .report _ _ hset hown (.inl rfl)
  unfold reclockUnlck
  by_cases hset : cmd.setflck = true
  · split_ifs with hrcmd
    · exact .adjust _ _ _ hset hstart (.inl hty) rfl (.inr ⟨hrcmd, rfl⟩)
    · exact .adjust _ _ _ hset hstart (.inl hty) rfl (.inl rfl)
  · simp only [hset, if_false, Bool.false_eq_true]
    refine hreport _ (by simpa using hset) ?_
    split_ifs with hx
    · split
      next => exact .inl rfl
      next found hfound => exact .inr ⟨hty, hx, found, hfound, rfl⟩
    · exact .inl rfl

theorem reclockPass_cases (u : Renv) (cmd : Cmd) (k : Kern)
    (hwf : WellFormed lst) (hld : ld.InRange) :
    PassCase t u cmd ld lst k (reclockPass t u cmd ld lst k) := by
  unfold reclockPass
  cases hty : ld.lType with
  | rdlck => exact reclockSet_cases t hwf hld (.inl hty)
  | wrlck => exact reclockSet_cases t hwf hld (.inr hty)
  | unlck => exact reclockUnlck_cases t hwf hty
  | bad =>
    refine .refused _ (.inr rfl) ?_
    rintro (hty' | ⟨hty' | hty', _⟩) <;> rw [hty] at hty' <;> cases hty'

end Pass

/-!
## One step
-/

/-- A pass about to run: the request in the terms of the loop. -/
structure Entry where
  vp : Nat
  /-- the process whose pass it is, unless the request is a remote one -/
  proc : Option Owner
  lckdat : Flock
  cmd : Cmd
  renv : Renv
  k : Kern
deriving DecidableEq

/-- The pass an event starts, if it comes to the loop of `reclock`. -/
def Sys.entry (s : Sys) : Event → Option Entry
  | .call o q =>
    if s.procs o = .running ∧ q.cmd.rcmdlck = false then
      match reclockEnter (q.by o) with
      | .error _ => none
      | .ok ld => some ⟨q.vp, some o, ld, q.cmd, q.renv, s.k⟩
    else none
  | .remote q =>
    if q.cmd.rcmdlck then
      match reclockEnter q with
      | .error _ => none
      | .ok ld => some ⟨q.vp, none, ld, q.cmd, q.renv, s.k⟩
    else none
  | .resume o =>
    match s.procs o with
    | .runnable false sl =>
      some ⟨sl.vp, some o, sl.lckdat, sl.cmd, sl.renv, awake sl.sf s.k⟩
    | _ => none
  | _ => none

/-- A process that has returned from `reclock`. -/
def Sys.leave (s : Sys) : Option Owner → Sys
  | none => s
  | some o => s.setProc o .running

/-- The steps of the system. -/
inductive StepCase (t : Tune) (s : Sys) (e : Event) : Sys → Prop where
  | done (en : Entry) (r : Retval) (ld : Flock) (lst : List Filock) (k : Kern)
      (hentry : s.entry e = some en)
      (hpass : reclockPass t en.renv en.cmd en.lckdat (s.filocks en.vp) en.k = .done r ld lst k) :
      StepCase t s e ((s.leave en.proc).update en.vp lst k)
  | sleeps (en : Entry) (o : Owner) (chan sf : Nat) (lst : List Filock)
      (k : Kern) (hentry : s.entry e = some en) (hproc : en.proc = some o)
      (hpass : reclockPass t en.renv en.cmd en.lckdat (s.filocks en.vp) en.k =
        .sleeps chan sf lst k) :
      StepCase t s e ((s.update en.vp lst k).setProc o
        (.asleep ⟨en.vp, en.lckdat, en.cmd, en.renv, chan, sf⟩))
  | refused (o : Option Owner) (vp : Nat)
      (hrun : ∀ p, o = some p → s.procs p = .running) :
      StepCase t s e ((s.leave o).update vp (s.filocks vp) s.k)
  | interrupted (o : Owner) (sl : Sleeper)
      (hproc : s.procs o = .runnable true sl) (he : e = .resume o) :
      StepCase t s e ((s.setProc o .running).update sl.vp (s.filocks sl.vp) (awake sl.sf s.k))
  | signal (o : Owner) (sl : Sleeper)
      (hproc : s.procs o = .asleep sl ∨ ∃ intr, s.procs o = .runnable intr sl) :
      StepCase t s e (s.setProc o (.runnable true sl))
  | cleanlocks (vp : Nat) (pid sysid : Int) :
      StepCase t s e (s.update vp (cleanlocks pid sysid (s.filocks vp) s.k).1
          (cleanlocks pid sysid (s.filocks vp) s.k).2)

theorem reclock_cases (t : Tune) (q : Request) (lst : List Filock) (k : Kern) :
    (∃ e, reclockEnter q = .error e ∧ reclock t q lst k = .done (some e) q.lckdat lst k) ∨
      ∃ ld, reclockEnter q = .ok ld ∧ ((∃ r ld' lst' k', reclockPass t q.renv q.cmd ld lst k =
              .done r ld' lst' k' ∧ reclock t q lst k = .done r (restoreLen ld') lst' k') ∨
          (∃ chan sf lst' k', reclockPass t q.renv q.cmd ld lst k = .sleeps chan sf lst' k' ∧
            reclock t q lst k = .sleeps chan sf lst' k') ∨ reclock t q lst k = .hangs) := by
  unfold reclock
  cases hq : reclockEnter q with
  | error e => exact .inl ⟨e, rfl, rfl⟩
  | ok ld =>
    refine .inr ⟨ld, rfl, ?_⟩
    simp only
    cases hp : reclockPass t q.renv q.cmd ld lst k with
    | done r ld' lst' k' => exact .inl ⟨r, ld', lst', k', rfl, rfl⟩
    | sleeps chan sf lst' k' => exact .inr (.inl ⟨chan, sf, lst', k', rfl, rfl⟩)
    | hangs => exact .inr (.inr rfl)

theorem Sys.Step.cases {t : Tune} {s s' : Sys} {e : Event}
    (h : s.Step t e s') : StepCase t s e s' := by
  unfold Sys.Step at h
  cases e with
  | signal o =>
    simp only [Sys.step] at h
    split at h
    next sl hproc =>
      cases h
      exact .signal o sl (.inl hproc)
    next intr sl hproc =>
      cases h
      exact .signal o sl (.inr ⟨intr, hproc⟩)
    next => cases h
  | cleanlocks vp pid sysid =>
    cases h
    exact .cleanlocks vp pid sysid
  | remote q =>
    simp only [Sys.step, Sys.pass] at h
    by_cases hcmd : q.cmd.rcmdlck = true
    case neg => simp [hcmd] at h
    simp only [hcmd, if_true] at h
    rcases reclock_cases t q (s.filocks q.vp) s.k with
      ⟨err, _, heq⟩ | ⟨ld, hq, hpass | hpass | hpass⟩
    · rw [heq] at h
      cases h
      exact .refused none q.vp (by simp)
    · rcases hpass with ⟨r, ld', lst', k', hpass, heq⟩
      rw [heq] at h
      cases h
      exact .done ⟨q.vp, none, ld, q.cmd, q.renv, s.k⟩ r ld' lst' k'
        (by simp [Sys.entry, hq, hcmd]) hpass
    · rcases hpass with ⟨chan, sf, lst', k', _, heq⟩
      rw [heq] at h
      cases h
    · rw [hpass] at h
      cases h
  | call o q =>
    simp only [Sys.step, Sys.pass] at h
    by_cases hrun : s.procs o = .running ∧ q.cmd.rcmdlck = false
    case neg => simp [hrun] at h
    simp only [hrun.1, hrun.2, and_self, if_true] at h
    rcases reclock_cases t (q.by o) (s.filocks q.vp) s.k with
      ⟨err, _, heq⟩ | ⟨ld, hq, hpass | hpass | hpass⟩
    · rw [heq] at h
      cases h
      refine .refused (some o) q.vp fun p hp => ?_
      cases hp
      exact hrun.1
    · rcases hpass with ⟨r, ld', lst', k', hpass, heq⟩
      rw [heq] at h
      cases h
      exact .done ⟨q.vp, some o, ld, q.cmd, q.renv, s.k⟩ r ld' lst' k'
        (by simp [Sys.entry, hq, hrun]) hpass
    · rcases hpass with ⟨chan, sf, lst', k', hpass, heq⟩
      rw [heq] at h
      simp only [Sleeper.of, hq, Option.map_some] at h
      cases h
      exact .sleeps ⟨q.vp, some o, ld, q.cmd, q.renv, s.k⟩ o chan sf lst' k'
        (by simp [Sys.entry, hq, hrun]) rfl hpass
    · rw [hpass] at h
      cases h
  | resume o =>
    simp only [Sys.step, Sys.pass] at h
    cases hproc : s.procs o with
    | running => simp [hproc] at h
    | asleep sl => simp [hproc] at h
    | runnable intr sl =>
      simp only [hproc, Sleeper.of, Option.map_some] at h
      unfold reclockResume at h
      cases intr with
      | true =>
        cases h
        exact .interrupted o sl hproc rfl
      | false =>
        cases hp : reclockPass t sl.renv sl.cmd sl.lckdat (s.filocks sl.vp) (awake sl.sf s.k) with
        | done r ld' lst' k' =>
          rw [hp] at h
          cases h
          exact .done ⟨sl.vp, some o, sl.lckdat, sl.cmd, sl.renv, awake sl.sf s.k⟩
            r ld' lst' k' (by simp [Sys.entry, hproc]) hp
        | sleeps chan sf lst' k' =>
          rw [hp] at h
          cases h
          exact .sleeps ⟨sl.vp, some o, sl.lckdat, sl.cmd, sl.renv, awake sl.sf s.k⟩
            o chan sf lst' k' (by simp [Sys.entry, hproc]) rfl hp
        | hangs =>
          rw [hp] at h
          cases h

end RecordLock
end Svr4
