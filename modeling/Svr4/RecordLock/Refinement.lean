import Svr4.RecordLock.Passes

/-!
# The lists of all reachable states

The lists keep the representation invariant, and no two owners hold locks that
exclude one another.  A request that returns 0 overwrites the map of its owner
and no other map.
-/

namespace Svr4
namespace RecordLock

open NodeList Option

/-!
## One list
-/

def Exclusive (lst : List Filock) : Prop :=
  ∀ o o' x ty, o ≠ o' → Holds lst o x .wrlck → ¬ Holds lst o' x ty

structure ListOk (lst : List Filock) (n : Nat) : Prop where
  wf : WellFormed lst
  addrs : ∀ f ∈ lst, f.addr < n
  exclusive : Exclusive lst

theorem ListOk.nil (n : Nat) : ListOk [] n where
  wf := WellFormed.nil
  addrs := by simp
  exclusive := by
    rintro o o' x ty _ ⟨f, hf, _⟩
    cases hf

variable {lst lst' : List Filock} {n vp : Nat}

theorem ListOk.mono {m : Nat} (h : ListOk lst n) (hnm : n ≤ m) : ListOk lst m :=
  { h with addrs := fun f hf => Nat.lt_of_lt_of_le (h.addrs f hf) hnm }

theorem Exclusive.mono (h : Exclusive lst) (hsub : ∀ o x ty, Holds lst' o x ty → Holds lst o x ty) :
    Exclusive lst' :=
  fun o o' x ty hne hw hany =>
    h o o' x ty hne (hsub o x .wrlck hw) (hsub o' x ty hany)

theorem ListOk.sublist (h : ListOk lst n) (hsub : lst'.Sublist lst) : ListOk lst' n where
  wf :=
    { apart := h.wf.apart.sublist hsub
      valid := fun f hf => h.wf.valid f (hsub.subset hf)
      nodup := h.wf.nodup.sublist (hsub.map _) }
  addrs := fun f hf => h.addrs f (hsub.subset hf)
  exclusive := h.exclusive.mono fun o x ty hx => by
    rcases hx with ⟨f, hf, hrest⟩
    exact ⟨f, hsub.subset hf, hrest⟩

/-- Changing the sleep counts alone changes nothing the invariant looks at. -/
theorem ListOk.restat {k : Nat} (h : ListOk lst n) (φ : Filock → Stat) :
    ListOk (amend Filock.addr k (fun f => { f with stat := φ f }) lst) n := by
  have hset : ∀ f ∈ amend Filock.addr k (fun f => { f with stat := φ f }) lst,
      ∃ g ∈ lst, g.set = f.set ∧ g.addr = f.addr := by
    intro f hf
    rcases mem_amend.mp hf with ⟨g, hg, rfl⟩
    refine ⟨g, hg, ?_, ?_⟩ <;> split <;> rfl
  refine ⟨⟨?_, ?_, ?_⟩, ?_, h.exclusive.mono ?_⟩
  · unfold amend
    rw [List.pairwise_map]
    refine h.wf.apart.imp fun {a b} hab => ?_
    by_cases ha : a.addr = k <;> by_cases hb : b.addr = k <;>
      simp only [ha, hb, if_true, if_false] <;> exact hab
  · intro f hf
    rcases hset f hf with ⟨g, hg, heq, _⟩
    rw [← heq]
    exact h.wf.valid g hg
  · have hkeys : (amend Filock.addr k (fun f => { f with stat := φ f }) lst).map
        Filock.addr = lst.map Filock.addr := by
      refine amend_keys ?_ lst
      exact fun _ => rfl
    rw [hkeys]
    exact h.wf.nodup
  · intro f hf
    rcases hset f hf with ⟨g, hg, _, heq⟩
    rw [← heq]
    exact h.addrs g hg
  · rintro o x ty ⟨f, hf, hown, hty, hcov⟩
    rcases hset f hf with ⟨g, hg, heq, _⟩
    refine ⟨g, hg, ?_, ?_, ?_⟩
    · rw [← hown]
      exact congrArg Flock.owner heq
    · rw [heq]
      exact hty
    · rw [heq]
      exact hcov

variable {o : Owner} {k k' : Kern}

theorem Edited.holds_others {lst₀ : List Filock} {k₀ : Kern} (h : Edited lst₀ o k₀ lst k)
    {o' : Owner} (hne : o' ≠ o) (x : Int)
    (ty : LckType) : Holds lst o' x ty ↔ Holds lst₀ o' x ty := by
  constructor
  · rintro ⟨f, hf, rfl, hrest⟩
    exact ⟨f, (h.others f hne).mp hf, rfl, hrest⟩
  · rintro ⟨f, hf, rfl, hrest⟩
    exact ⟨f, (h.others f hne).mpr hf, rfl, hrest⟩

variable {ld ret : Flock}

theorem Granted.no_overlap {u : Renv} (h : Granted u ld lst) (hwf : WellFormed lst) {x : Int}
    {ty : LckType} (hne : o ≠ ld.owner) (hcov : ld.Covers x) (hset : ld.lType ≠ .unlck)
    (hholds : Holds lst o x ty) : ty ≠ .wrlck ∧ ld.lType ≠ .wrlck := by
  rcases h with hun | ⟨_, hfree⟩
  · exact absurd hun hset
  · rcases hholds with ⟨f, hf, hown, hty, hfcov⟩
    have hcon : typesConflict u f ld ≠ true := fun htypes =>
      hfree f hf ⟨hown ▸ hne, htypes, x, hfcov, hcov⟩
    subst hty
    unfold typesConflict at hcon
    constructor
    · intro hw
      simp [hw] at hcon
    · intro hw
      rcases (hwf.valid f hf).type_set with hrd | hwr
      · simp [hrd, hw] at hcon
      · simp [hwr] at hcon

theorem ListOk.adjust {u : Renv} {r : Retval × Adj} (h : ListOk lst k.zallocs)
    (hgrant : Granted u ld lst) (hpost : AdjustPost lst ld k r) : ListOk r.2.lst r.2.k.zallocs := by
  refine ⟨hpost.1.wf, hpost.1.addrs, ?_⟩
  rcases r with ⟨retval, a⟩
  cases retval with
  | some e =>
    refine h.exclusive.mono fun o x ty hx => ?_
    by_cases ho : o = ld.owner
    · subst ho
      exact hpost.2.2.2 x ty hx
    · exact (hpost.1.holds_others ho x ty).mp hx
  | none =>
    have hover : Overwritten lst a.lst ld := hpost.2.2
    have hothers := fun {o' : Owner} (hne : o' ≠ ld.owner) =>
      hpost.1.holds_others hne
    intro o o' x ty hne hw hany
    by_cases ho : o = ld.owner
    · subst ho
      have hany' := (hothers (Ne.symm hne) x ty).mp hany
      have hw' := (hover x .wrlck).mp hw
      split_ifs at hw' with hcov
      · exact (hgrant.no_overlap h.wf (Ne.symm hne) hcov hw'.1 hany').2 hw'.2.symm
      · exact h.exclusive _ _ x ty hne hw' hany'
    · have hw' := (hothers ho x .wrlck).mp hw
      by_cases ho' : o' = ld.owner
      · subst ho'
        have hany' := (hover x ty).mp hany
        split_ifs at hany' with hcov
        · exact (hgrant.no_overlap h.wf ho hcov hany'.1 hw').1 rfl
        · exact h.exclusive _ _ x ty hne hw' hany'
      · exact h.exclusive _ _ x ty hne hw' ((hothers ho' x ty).mp hany)

/-!
## The routines that only delete
-/

theorem delSleeplck_zallocs (k : Kern) (sf : Filock) : (delSleeplck k sf).zallocs = k.zallocs := by
  simp [delSleeplck, delflck]

theorem cleanslp_zallocs (ld : Flock) (k : Kern) : (cleanslp ld k).zallocs = k.zallocs := by
  unfold cleanslp
  generalize k.sleeplcks.filter (cleanMatch ld) = l
  induction l generalizing k with
  | nil => rfl
  | cons sf rest ih => rw [List.foldl_cons, ih, delSleeplck_zallocs]

theorem Cleaned.zallocs {cmd : Cmd} (h : Cleaned cmd ld k k') : k'.zallocs = k.zallocs := by
  rcases h with rfl | ⟨_, rfl⟩
  · rfl
  · exact cleanslp_zallocs ld k

theorem awake_zallocs (sf : Nat) (k : Kern) : (awake sf k).zallocs = k.zallocs := by
  unfold awake
  split
  · rfl
  · exact delSleeplck_zallocs k _

variable {t : Tune}

theorem insSleeplck_zallocs {found : Filock} {r : Option Nat}
    (h : insSleeplck t ld found k = (r, k')) : k.zallocs ≤ k'.zallocs := by
  unfold insSleeplck at h
  rcases insflck_cases t k.sleeplcks ld none k with ⟨n, heq, hn⟩ | heq
  · rw [heq] at h
    cases h
    exact hn
  · rw [heq] at h
    cases h
    exact Nat.le_succ _

theorem foldl_delflck_sublist (l lst : List Filock) (k : Kern) :
    (l.foldl (fun a f => delflck a.1 f a.2) (lst, k)).1.Sublist lst ∧
      (l.foldl (fun a f => delflck a.1 f a.2) (lst, k)).2.zallocs =
        k.zallocs := by
  induction l generalizing lst k with
  | nil => exact ⟨List.Sublist.refl _, rfl⟩
  | cons f rest ih =>
    have hrest := ih (delflck lst f k).1 (delflck lst f k).2
    refine ⟨hrest.1.trans (unlink_sublist _ _), hrest.2.trans ?_⟩
    simp [delflck]

/-!
## All lists
-/

def PState.sleeper : PState → Option Sleeper
  | .running => none
  | .asleep sl => some sl
  | .runnable _ sl => some sl

theorem PState.settle_sleeper (wakeups : List Nat) (p : PState) :
    (p.settle wakeups).sleeper = p.sleeper := by
  cases p with
  | asleep sl =>
    by_cases hw : sl.chan ∈ wakeups <;> simp [PState.settle, hw, sleeper]
  | running => rfl
  | runnable intr sl => rfl

structure Sys.ListsOk (s : Sys) : Prop where
  lists : ∀ vp, ListOk (s.filocks vp) s.k.zallocs
  requests : ∀ o sl, (s.procs o).sleeper = some sl →
    sl.lckdat.InRange ∧ sl.lckdat.owner = o ∧ sl.cmd.rcmdlck = false

variable {s : Sys}

theorem Sys.ListsOk.update (h : s.ListsOk) (hlst : ListOk lst k.zallocs)
    (hz : s.k.zallocs ≤ k.zallocs) : (s.update vp lst k).ListsOk where
  lists := by
    intro v
    by_cases hv : v = vp
    · subst v
      simpa [Sys.update] using hlst
    · simpa [Sys.update, hv] using (h.lists v).mono hz
  requests := by
    intro o sl hsl
    simp only [Sys.update, PState.settle_sleeper] at hsl
    exact h.requests o sl hsl

theorem Sys.ListsOk.setProc (h : s.ListsOk) {p : PState} (hp : ∀ sl, p.sleeper = some sl →
      sl.lckdat.InRange ∧ sl.lckdat.owner = o ∧ sl.cmd.rcmdlck = false) :
    (s.setProc o p).ListsOk where
  lists := h.lists
  requests := by
    intro o' sl hsl
    by_cases ho : o' = o
    · subst o'
      simp only [Sys.setProc, Function.update_self] at hsl
      exact hp sl hsl
    · simp only [Sys.setProc, Function.update_of_ne ho] at hsl
      exact h.requests o' sl hsl

theorem Sys.ListsOk.leave (h : s.ListsOk) (o : Option Owner) : (s.leave o).ListsOk := by
  cases o with
  | none => exact h
  | some o => exact h.setProc fun sl hsl => by cases hsl

variable {e : Event}

theorem Sys.ListsOk.entry (h : s.ListsOk) {en : Entry} (hentry : s.entry e = some en) :
    en.lckdat.InRange ∧ en.k.zallocs = s.k.zallocs ∧
      ∀ o, en.proc = some o → en.lckdat.owner = o := by
  cases e with
  | call o q =>
    simp only [Sys.entry] at hentry
    split_ifs at hentry
    split at hentry
    next => cases hentry
    next ld hq =>
      cases hentry
      have hok := reclockEnter_ok hq
      refine ⟨hok.1, rfl, fun o' ho' => ?_⟩
      cases ho'
      exact hok.2.1
  | remote q =>
    simp only [Sys.entry] at hentry
    split_ifs at hentry
    split at hentry
    next => cases hentry
    next ld hq =>
      cases hentry
      exact ⟨(reclockEnter_ok hq).1, rfl, fun o' ho' => by cases ho'⟩
  | resume o =>
    simp only [Sys.entry] at hentry
    split at hentry
    next sl hproc =>
      cases hentry
      have hreq := h.requests o sl (by rw [hproc]; rfl)
      refine ⟨hreq.1, awake_zallocs sl.sf s.k, fun o' ho' => ?_⟩
      cases ho'
      exact hreq.2.1
    next => cases hentry
  | signal o => cases hentry
  | cleanlocks vp pid sysid => cases hentry

/-- The list and the accounting a pass leaves behind. -/
def Pass.result : Pass → Option (List Filock × Kern)
  | .done _ _ lst k => some (lst, k)
  | .sleeps _ _ lst k => some (lst, k)
  | .hangs => none

section Passes

variable {t : Tune} {u : Renv} {cmd : Cmd} {ld : Flock} {lst : List Filock}
  {k : Kern}

theorem Granted.type_ne_bad (h : Granted u ld lst) : ld.lType ≠ .bad := by
  rcases h with hty | ⟨hty | hty, _⟩ <;> rw [hty] <;> decide

theorem PassCase.listOk {p : Pass} (h : ListOk lst k.zallocs) (hld : ld.InRange)
    (hcase : PassCase t u cmd ld lst k p) (hres : p.result = some (lst', k')) :
    ListOk lst' k'.zallocs ∧ k.zallocs ≤ k'.zallocs := by
  cases hcase with
  | adjust insrt k'' r hset hstart hgrant hr hclean =>
    cases hres
    have hpost := flckadj_spec t h.wf h.addrs hld hgrant.type_ne_bad hstart
    rw [hr] at hpost
    rw [hclean.zallocs]
    exact ⟨h.adjust hgrant hpost, hpost.1.zallocs⟩
  | report ld' k'' hset hown hclean =>
    cases hres
    have hz := hclean.zallocs.ge
    exact ⟨h.mono hz, hz⟩
  | refused e he hdeny =>
    cases hres
    exact ⟨h, Nat.le_refl _⟩
  | query found hslp hset =>
    cases hres
    exact ⟨h, Nat.le_refl _⟩
  | deadlock found hfound hcon hslp hdeny hdead =>
    cases hres
    exact ⟨h, Nat.le_refl _⟩
  | hangs found hslp hdead => cases hres
  | recorded found hrcmd hdeny =>
    cases hres
    exact ⟨h, Nat.le_refl _⟩
  | remote found sf k'' hrcmd hdeny hdead hins =>
    cases hres
    have hz := insSleeplck_zallocs hins
    exact ⟨h.mono hz, hz⟩
  | noRecord found k'' hdeny hins =>
    cases hres
    have hz := insSleeplck_zallocs hins
    exact ⟨h.mono hz, hz⟩
  | sleeps found sf k'' hfound hmem hcon hslp hrcmd hdead hins =>
    cases hres
    have hz := insSleeplck_zallocs hins
    exact ⟨(h.mono hz).restat _, hz⟩

/-- Only a request that set a lock returns 0 for a request to set one. -/
theorem PassCase.overwritten (h : ListOk lst k.zallocs) (hld : ld.InRange)
    (hset : cmd.setflck = true) (hcase : PassCase t u cmd ld lst k (.done none ret lst' k')) :
    Overwritten lst lst' ld ∧ ∀ o, o ≠ ld.owner → ∀ x ty, Holds lst' o x ty ↔ Holds lst o x ty := by
  generalize hp : Pass.done none ret lst' k' = p at hcase
  cases hcase with
  | adjust insrt k'' r hset' hstart hgrant hr hclean =>
    have hpost := flckadj_spec t h.wf h.addrs hld hgrant.type_ne_bad hstart
    rw [hr] at hpost
    rcases r with ⟨retval, a⟩
    cases hp
    exact ⟨hpost.2.2, fun o ho => hpost.1.holds_others ho⟩
  | report ld' k'' hset' hown hclean =>
    rw [hset] at hset'
    cases hset'
  | query found hslp hset' =>
    rw [hset] at hset'
    cases hset'
  | refused e he hdeny => cases hp
  | deadlock found hfound hcon hslp hdeny hdead => cases hp
  | hangs found hslp hdead => cases hp
  | recorded found hrcmd hdeny => cases hp
  | remote found sf k'' hrcmd hdeny hdead hins => cases hp
  | noRecord found k'' hdeny hins => cases hp
  | sleeps found sf k'' hfound hmem hcon hslp hrcmd hdead hins => cases hp

end Passes

/-!
## Steps and runs
-/

theorem Sys.ListsOk.initial (h : s.initial) : s.ListsOk where
  lists := by
    intro vp
    rw [h.1 vp]
    exact ListOk.nil _
  requests := by
    intro o sl hsl
    rw [h.2.2.2.2 o] at hsl
    cases hsl

theorem Sys.ListsOk.step {s' : Sys} (h : s.ListsOk) (hstep : s.Step t e s') : s'.ListsOk := by
  cases hstep.cases with
  | done en r ld lst k hentry hpass =>
    rcases h.entry hentry with ⟨hld, hz, _⟩
    have hlist := h.lists en.vp
    rw [← hz] at hlist
    have hcase := reclockPass_cases t en.renv en.cmd en.k hlist.wf hld
    rw [hpass] at hcase
    have hres := hcase.listOk hlist hld rfl
    refine (h.leave en.proc).update hres.1 ?_
    cases en.proc <;> exact hz ▸ hres.2
  | sleeps en o chan sf lst k hentry hproc hpass =>
    rcases h.entry hentry with ⟨hld, hz, hown⟩
    have hlist := h.lists en.vp
    rw [← hz] at hlist
    have hcase := reclockPass_cases t en.renv en.cmd en.k hlist.wf hld
    rw [hpass] at hcase
    have hres := hcase.listOk hlist hld rfl
    refine (h.update hres.1 (hz ▸ hres.2)).setProc fun sl hsl => ?_
    cases hsl
    refine ⟨hld, hown o hproc, ?_⟩
    cases hcase with
    | sleeps found sf' k'' hfound hmem hcon hslp hrcmd hdead hins => exact hrcmd
  | refused o vp hrun =>
    refine (h.leave o).update (h.lists vp) ?_
    cases o <;> exact Nat.le_refl _
  | interrupted o sl hproc =>
    have hz := awake_zallocs sl.sf s.k
    refine (h.leave (some o)).update ?_ hz.ge
    rw [hz]
    exact h.lists sl.vp
  | signal o sl hproc =>
    refine h.setProc fun sl' hsl => ?_
    cases hsl
    rcases hproc with hproc | ⟨intr, hproc⟩ <;>
      exact h.requests o sl (by rw [hproc]; rfl)
  | cleanlocks vp pid sysid =>
    have hsub := foldl_delflck_sublist ((s.filocks vp).filter fun f =>
        (f.set.lPid == pid || pid == IGN_PID) && f.set.lSysid == sysid)
      (s.filocks vp) s.k
    refine h.update ?_ hsub.2.ge
    have hlist := (h.lists vp).sublist hsub.1
    rw [← hsub.2] at hlist
    exact hlist

theorem Sys.Reachable.listsOk (hs : s.Reachable t) :
    s.ListsOk := by
  have hrun : Transition.Reachable Sys.initial (Sys.Step t) s := hs
  exact hrun.invariant (fun _ h => Sys.ListsOk.initial h) (fun _ _ _ hinv hstep => hinv.step hstep)

variable {r : Retval}

theorem reclock_done {q : Request} (hq : reclockEnter q = .ok ld)
    (h : reclock t q lst k = .done r ret lst' k') :
    ∃ ld', reclockPass t q.renv q.cmd ld lst k = .done r ld' lst' k' := by
  unfold reclock at h
  rw [hq] at h
  simp only at h
  cases hp : reclockPass t q.renv q.cmd ld lst k with
  | done r' ld' lst'' k'' =>
    rw [hp] at h
    cases h
    exact ⟨ld', rfl⟩
  | sleeps chan sf lst'' k'' =>
    rw [hp] at h
    cases h
  | hangs =>
    rw [hp] at h
    cases h

theorem reclockResume_done {sl : Sleeper}
    (h : reclockResume t false sl lst k = .done r ret lst' k') :
    ∃ ld', reclockPass t sl.renv sl.cmd sl.lckdat lst (awake sl.sf k) = .done r ld' lst' k' := by
  unfold reclockResume at h
  cases hp : reclockPass t sl.renv sl.cmd sl.lckdat lst (awake sl.sf k) with
  | done r' ld' lst'' k'' =>
    rw [hp] at h
    cases h
    exact ⟨ld', rfl⟩
  | sleeps chan sf lst'' k'' =>
    rw [hp] at h
    cases h
  | hangs =>
    rw [hp] at h
    cases h

theorem Sys.step_of_done (hpass : s.pass t e = some (vp, o, .done r ret lst k)) :
    ∃ s', s.Step t e s' ∧ s'.filocks vp = lst := by
  unfold Sys.Step
  cases e with
  | call o' q =>
    simp only [Sys.step, hpass]
    exact ⟨_, rfl, by simp [Sys.update]⟩
  | remote q =>
    simp only [Sys.step, hpass]
    exact ⟨_, rfl, by simp [Sys.update]⟩
  | resume o' =>
    simp only [Sys.step, hpass]
    exact ⟨_, rfl, by simp [Sys.update]⟩
  | signal o' => cases hpass
  | cleanlocks vp' pid sysid => cases hpass

/-- The pass of an event that comes to the loop of `reclock`. -/
theorem Sys.pass_done {en : Entry} (hentry : s.entry e = some en)
    (hpass : s.pass t e = some (vp, o, .done r ret lst k)) :
    vp = en.vp ∧ ∃ ld, reclockPass t en.renv en.cmd en.lckdat (s.filocks en.vp) en.k =
        .done r ld lst k := by
  cases e with
  | call o' q =>
    simp only [Sys.pass] at hpass
    split_ifs at hpass
    simp only [some.injEq, Prod.mk.injEq] at hpass
    rcases hpass with ⟨rfl, _, hpass⟩
    simp only [Sys.entry] at hentry
    split_ifs at hentry
    split at hentry
    next => cases hentry
    next ld hq =>
      cases hentry
      have hdone := reclock_done (q := q.by o') hq hpass
      exact ⟨rfl, hdone⟩
  | remote q =>
    simp only [Sys.pass] at hpass
    split_ifs at hpass
    simp only [some.injEq, Prod.mk.injEq] at hpass
    rcases hpass with ⟨rfl, _, hpass⟩
    simp only [Sys.entry] at hentry
    split_ifs at hentry
    split at hentry
    next => cases hentry
    next ld hq =>
      cases hentry
      exact ⟨rfl, reclock_done hq hpass⟩
  | resume o' =>
    simp only [Sys.entry] at hentry
    split at hentry
    next sl hproc =>
      cases hentry
      simp only [Sys.pass, hproc, some.injEq, Prod.mk.injEq] at hpass
      rcases hpass with ⟨rfl, _, hpass⟩
      exact ⟨rfl, reclockResume_done hpass⟩
    next => cases hentry
  | signal o' => cases hentry
  | cleanlocks vp' pid sysid => cases hentry

/-!
## The refinement
-/

theorem Overwritten.lockAt (h : Overwritten lst lst' ld) (hwf : WellFormed lst)
    (hwf' : WellFormed lst') (x : Int) :
    lockAt lst' ld.owner x = overwrite (lockAt lst ld.owner) ld x := by
  apply Option.ext
  intro ty
  rw [lockAt_eq_some hwf', h x ty]
  unfold overwrite
  split_ifs with hcov hun
  · simp [hun]
  · simp only [hun, ne_eq, not_false_eq_true, true_and, some.injEq]
    exact eq_comm
  · exact (lockAt_eq_some hwf).symm

/--
A request that sets or removes a lock and returns 0 overwrites the lock map of
its owner, leaves all other maps alone, and keeps the list in order.
-/
theorem reclock_refines_overwrite {t : Tune} {s : Sys} (hs : s.Reachable t)
    {e : Event} {en : Entry} {vp : Nat} {o : Owner} {ret : Flock}
    {lst : List Filock} {k : Kern} (hentry : s.entry e = some en) (hset : en.cmd.setflck = true)
    (hpass : s.pass t e = some (vp, o, .done none ret lst k)) :
    (∃ s', s.Step t e s' ∧ s'.filocks en.vp = lst) ∧ (∀ x, lockAt lst en.lckdat.owner x =
        overwrite (lockAt (s.filocks en.vp) en.lckdat.owner) en.lckdat x) ∧
      (∀ o', o' ≠ en.lckdat.owner → ∀ x, lockAt lst o' x = lockAt (s.filocks en.vp) o' x) ∧
      RepInvariant lst := by
  have hok := hs.listsOk
  have hstep := Sys.step_of_done hpass
  rcases Sys.pass_done hentry hpass with ⟨rfl, ld', hrun⟩
  rcases hok.entry hentry with ⟨hld, hz, _⟩
  have hlist := hok.lists en.vp
  rw [← hz] at hlist
  have hcase := reclockPass_cases t en.renv en.cmd en.k hlist.wf hld
  rw [hrun] at hcase
  have hwf' := (hcase.listOk hlist hld rfl).1.wf
  rcases hcase.overwritten hlist hld hset with ⟨hover, hothers⟩
  refine ⟨hstep, hover.lockAt hlist.wf hwf', ?_, hwf'.repInvariant⟩
  intro o' ho' x
  exact lockAt_congr hlist.wf hwf' (hothers o' ho' x)

def oneLock : List Event :=
  [.call ⟨1, 0⟩ (.fcntl .wrlck 0 10 false)]

/-- Unlocking the bytes 3 to 5 splits the lock. -/
theorem reclock_refines_overwrite_split :
    RepInvariant [⟨0, ⟨.wrlck, 0, 0, 2, 0, 1⟩, ⟨0, 0⟩⟩, ⟨1, ⟨.wrlck, 0, 6, 9, 0, 1⟩, ⟨0, 0⟩⟩] := by
  let q : Request := .fcntl .unlck 3 3 false
  have hentry : (Sys.after (.records 10) oneLock).entry (.call ⟨1, 0⟩ q) =
      some ⟨0, some ⟨1, 0⟩, ⟨.unlck, 0, 3, 5, 0, 1⟩, q.cmd, q.renv, ⟨1, 1, 1, [], []⟩⟩ := by decide
  have hpass : (Sys.after (.records 10) oneLock).pass (.records 10) (.call ⟨1, 0⟩ q) =
        some (0, ⟨1, 0⟩, .done none ⟨.unlck, 0, 3, 3, 0, 1⟩ [⟨0, ⟨.wrlck, 0, 0, 2, 0, 1⟩, ⟨0, 0⟩⟩,
            ⟨1, ⟨.wrlck, 0, 6, 9, 0, 1⟩, ⟨0, 0⟩⟩]
          ⟨2, 2, 2, [], []⟩) := by decide
  exact (reclock_refines_overwrite (Sys.after_reachable _ oneLock) hentry (by decide) hpass).2.2.2

/-!
## No conflicting grants
-/

/--
No byte is locked by an owner while another has it write-locked; and
`blocked` finds a lock, from whatever place of an ordered list it starts,
unless no lock from there on conflicts with the request.
-/
theorem no_conflicting_grants {t : Tune} {s : Sys} (hs : s.Reachable t) :
    (∀ vp o o' x, o ≠ o' → lockAt (s.filocks vp) o x = some .wrlck →
      lockAt (s.filocks vp) o' x = none) ∧ ∀ (u : Renv) (ld : Flock) (pre post : List Filock),
        Ordered (pre ++ post) → ld.lStart ≤ ld.lEnd →
          ((blocked u post ld).1 = none ↔ ∀ f ∈ post, ¬ Conflicts u ld f) := by
  constructor
  · intro vp o o' x hne hw
    have hlist := hs.listsOk.lists vp
    cases hany : lockAt (s.filocks vp) o' x with
    | none => rfl
    | some ty =>
      have hw' := (lockAt_eq_some hlist.wf).mp hw
      have hany' := (lockAt_eq_some hlist.wf).mp hany
      exact absurd hany' (hlist.exclusive o o' x ty hne hw')
  · intro u ld pre post hord hld
    have hpost : Ordered post := hord.sublist (List.sublist_append_right pre post)
    have hfinds : Finds u ld post (blocked u post ld).1 :=
      blockedScan_finds hld hpost none
    constructor
    · exact hfinds.complete
    · intro hfree
      cases hr : (blocked u post ld).1 with
      | none => rfl
      | some f =>
        rcases hfinds.sound f hr with ⟨hf, hcon⟩
        exact absurd hcon (hfree f hf)

theorem no_conflicting_grants_oneLock :
    lockAt ((Sys.after (.records 10) oneLock).filocks 0) ⟨2, 0⟩ 4 = none :=
  (no_conflicting_grants (Sys.after_reachable (.records 10) oneLock)).1 0
    ⟨1, 0⟩ ⟨2, 0⟩ 4 (by decide) (by decide)

end RecordLock
end Svr4
