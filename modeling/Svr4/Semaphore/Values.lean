import Svr4.Semaphore.Guarantees

/-!
# The values of the semaphores

A value is changed by `semop` in both directions, by its rollback, by
`SETVAL` and `SETALL`, and at process exit.  Every path tests what it
is going to store, or goes back over values that were stored before.
-/

namespace Svr4
namespace Semaphore

open Function Option

/-!
## Additions
-/

section Additions

variable (si : SemInfo) (slot : Nat) (id : Int) (base : Nat)

/-- `semundo` adds an amount to a value. -/
inductive UndoAdds : List Sembuf → Sems → UInt16 → Int → Prop where
  | here (op : Sembuf) (earlier : List Sembuf) (s : Sems) (hop : op.semOp ≠ 0) :
      UndoAdds (op :: earlier) s (s.sem (base + op.semNum)).semval (-op.semOp)
  | later (op : Sembuf) (earlier : List Sembuf) (s t : Sems) (x : UInt16) (d : Int)
      (hone : semundoOne si slot id base op s = some t) (h : UndoAdds earlier t x d) :
      UndoAdds (op :: earlier) s x d

/-- The loop of `semop` adds an amount to a value, or its rollback does. -/
inductive LoopAdds : List Sembuf → List Sembuf → Sems → UInt16 → Int → Prop where
  | here (done rest : List Sembuf) (op : Sembuf) (s t : Sems)
      (hone : semopOne si slot id base op s = some (none, t)) (hop : op.semOp ≠ 0) :
      LoopAdds done (op :: rest) s (s.sem (base + op.semNum)).semval op.semOp
  | later (done rest : List Sembuf) (op : Sembuf) (s t : Sems) (x : UInt16) (d : Int)
      (hone : semopOne si slot id base op s = some (none, t))
      (h : LoopAdds (op :: done) rest t x d) : LoopAdds done (op :: rest) s x d
  | undo (done rest : List Sembuf) (op : Sembuf) (s t : Sems) (stop : Stop) (x : UInt16)
      (d : Int) (hone : semopOne si slot id base op s = some (some stop, t))
      (h : UndoAdds si slot id base done t x d) : LoopAdds done (op :: rest) s x d

/-- `semexit` adds an adjustment to a value. -/
inductive ExitAdds : List Undo → Sems → UInt16 → Int → Prop where
  | here (uup : Undo) (rest : List Undo) (s : Sems) (sp : Nat)
      (hconv : semconv si s uup.unId = .ok sp)
      (hrange : ¬ (((s.sem ((s.sema sp).semBase + uup.unNum)).semval.toNat : Int) + uup.unAoe < 0 ∨
        ((s.sem ((s.sema sp).semBase + uup.unNum)).semval.toNat : Int) + uup.unAoe > si.semvmx)) :
      ExitAdds (uup :: rest) s (s.sem ((s.sema sp).semBase + uup.unNum)).semval uup.unAoe
  | later (uup : Undo) (rest : List Undo) (s : Sems) (x : UInt16) (d : Int)
      (h : ExitAdds rest (semexitOne si uup s) x d) : ExitAdds (uup :: rest) s x d

end Additions

def Sys.Adds (si : SemInfo) (s : Sys) (e : Event) (x : UInt16) (d : Int) : Prop :=
  match e with
  | .copiedOps slot (some ops) =>
    ∃ call again, s.phase slot = .semopCopyin call again ∧ ops.length = call.nsops ∧
      (again = false → verifyOps call.p.cred (s.sems.sema call.sp) ops = .ok ()) ∧
      LoopAdds si call.p.pSlot call.semid (s.sems.sema call.sp).semBase [] ops s.sems x d
  | .exit slot =>
    s.phase slot = .user ∧ ExitAdds si (s.sems.undos.entries slot).reverse s.sems x d
  | _ => False

/-!
## The range
-/

def Sems.InRange (si : SemInfo) (s : Sems) : Prop :=
  ∀ i, (s.sem i).semval.toNat ≤ si.semvmx

/-- The sum is a value within the limit; in particular it does not wrap. -/
def Fits (si : SemInfo) (x : UInt16) (d : Int) : Prop :=
  0 ≤ (x.toNat : Int) + d ∧ (x.toNat : Int) + d ≤ si.semvmx

variable {si : SemInfo} {slot : Nat} {id : Int} {base : Nat} {op : Sembuf} {s s' : Sems}

theorem Sems.Same.inRange (h : s.Same s') (hs : s.InRange si) : s'.InRange si := by
  intro i
  rw [h.semval]
  exact hs i

section

variable (h : OpDone si slot id base op s s')
include h

theorem OpDone.permits :
    s.store.Permits si slot id base op ∧ s'.store = s.store.effect slot id base op := by
  have hstore := h.store
  unfold Store.apply at hstore
  split at hstore
  · rename_i hpermits
    exact ⟨hpermits, (some.inj hstore).symm⟩
  · cases hstore

theorem OpDone.semval (i : Nat) :
    ((s'.sem i).semval.toNat : Int) = if i = base + op.semNum then (s.sem i).semval.toNat + op.semOp
      else (s.sem i).semval.toNat := by
  have hval : s'.store.semval i = (s.store.effect slot id base op).semval i := by
    rw [h.permits.2]
  unfold Store.effect Sems.store at hval
  dsimp only at hval
  rw [hval]
  by_cases hi : i = base + op.semNum
  · subst hi
    rw [update_self, if_pos rfl]
  · rw [update_of_ne hi, if_neg hi]

theorem OpDone.fits (hs : s.InRange si) :
    Fits si (s.sem (base + op.semNum)).semval op.semOp := by
  rcases h.permits.1 with ⟨hhigh, hlow, _, _⟩
  have hx := hs (base + op.semNum)
  have hstore : s.store.semval (base + op.semNum) = (s.sem (base + op.semNum)).semval.toNat := rfl
  unfold Fits
  omega

theorem OpDone.inRange (hs : s.InRange si) :
    s'.InRange si := by
  intro i
  have hval := h.semval i
  have hx := hs i
  by_cases hi : i = base + op.semNum
  · have hfits := h.fits hs
    rw [← hi] at hfits
    unfold Fits at hfits
    omega
  · omega

end

/-!
## The loop and its rollback
-/

/-- The operations done, the last one first, each from tables within the limit. -/
inductive Trail (si : SemInfo) (slot : Nat) (id : Int) (base : Nat) :
    List Sembuf → Sems → Prop where
  | nil (s : Sems) : Trail si slot id base [] s
  | cons (op : Sembuf) (earlier : List Sembuf) (s s' : Sems)
      (hearlier : Trail si slot id base earlier s) (hs : s.InRange si)
      (hop : OpDone si slot id base op s s') : Trail si slot id base (op :: earlier) s'

variable {done ops : List Sembuf} {x : UInt16} {d semid : Int}

theorem UndoAdds.fits {t : Sems} (h : UndoAdds si slot id base done t x d)
    (htrail : Trail si slot id base done s) (hsame : s.Same t)
    (hok : t.undos.Ok si) : Fits si x d := by
  induction h generalizing s with
  | here op earlier t hne =>
    cases htrail with
    | cons _ _ s₀ _ hearlier hs₀ hop =>
      have hval := hop.semval (base + op.semNum)
      have hx := hs₀ (base + op.semNum)
      rw [hsame.semval]
      unfold Fits
      omega
  | later op earlier t t' x d hone _ ih =>
    cases htrail with
    | cons _ _ s₀ _ hearlier hs₀ hop =>
      rcases hop.undone t hsame hok with ⟨t'', hone', hok', hsame'⟩
      rw [hone] at hone'
      cases hone'
      exact ih hearlier hsame' hok'

theorem LoopAdds.fits (h : LoopAdds si slot id base done ops s x d)
    (htrail : Trail si slot id base done s) (hs : s.InRange si) (hok : s.undos.Ok si) :
    Fits si x d := by
  induction h with
  | here done rest op s t hone hne =>
    rcases semopOne_spec slot id base op hok with ⟨stop, t', hone', hpost⟩
    rw [hone] at hone'
    cases hone'
    exact OpDone.fits hpost hs
  | later done rest op s t x d hone _ ih =>
    rcases semopOne_spec slot id base op hok with ⟨stop, t', hone', hpost⟩
    rw [hone] at hone'
    cases hone'
    have hdone : OpDone si slot id base op s t := hpost
    exact ih (.cons op done s t htrail hs hdone) (hdone.inRange hs) hdone.ok
  | undo done rest op s t stop x d hone hundo =>
    rcases semopOne_spec slot id base op hok with ⟨stop', t', hone', hpost⟩
    rw [hone] at hone'
    cases hone'
    have hsame : t.undos.Ok si ∧ s.Same t := hpost
    exact hundo.fits htrail hsame.2 hsame.1

theorem foldlM_apply_le {st st' : Store}
    (h : ops.foldlM (Store.apply si slot id base) st = some st')
    (hst : ∀ i, st.semval i ≤ si.semvmx) (i : Nat) : st'.semval i ≤ si.semvmx := by
  induction ops generalizing st with
  | nil =>
    cases h
    exact hst i
  | cons op rest ih =>
    rcases bind_eq_some_iff.mp h with ⟨st₁, hop, hrest⟩
    refine ih hrest fun j => ?_
    unfold Store.apply at hop
    split at hop
    · rename_i hpermits
      cases hop
      unfold Store.effect
      dsimp only
      by_cases hj : j = base + op.semNum
      · subst hj
        rw [update_self]
        have hle := hst (base + op.semNum)
        by_cases hpos : op.semOp > 0
        · exact hpermits.1 hpos
        · omega
      · rw [update_of_ne hj]
        exact hst j
    · cases hop

/-!
## The other calls
-/

theorem overSet_sem {P : Sem → Prop} {base nsems : Nat} {f : Nat → Sem → Sem}
    (hf : ∀ i < nsems, ∀ x, P (f i x)) (hs : ∀ j, P (s.sem j)) (j : Nat) :
    P ((s.overSet base nsems f).sem j) := by
  unfold Sems.overSet
  have hlt : ∀ i ∈ List.range nsems, i < nsems := fun i hi => List.mem_range.mp hi
  generalize List.range nsems = l at hlt
  induction l generalizing s with
  | nil => exact hs j
  | cons i rest ih =>
    refine ih (fun k => ?_) fun k hk => hlt k (List.mem_cons_of_mem _ hk)
    by_cases hk : k = base + i
    · subst hk
      simpa [Sems.setSem] using hf i (hlt i (by simp)) _
    · simpa [Sems.setSem, hk] using hs k

theorem semexitOne_inRange (uup : Undo) (hs : s.InRange si) : (semexitOne si uup s).InRange si := by
  unfold semexitOne
  split
  · exact hs
  · rename_i sp _
    dsimp only
    split
    · exact hs
    · rename_i hrange
      intro i
      by_cases hi : i = (s.sema sp).semBase + uup.unNum
      · subst hi
        simp only [Sems.setSem, update_self]
        rw [UInt16.toNat_ofNat_of_lt' (by simpa using ushort_lt _)]
        unfold ushort
        omega
      · simpa [Sems.setSem, hi] using hs i

theorem ExitAdds.fits {ents : List Undo} (h : ExitAdds si ents s x d) : Fits si x d := by
  induction h with
  | here uup rest s sp hconv hrange =>
    unfold Fits
    omega
  | later uup rest s x d _ ih => exact ih

theorem foldl_semexitOne_inRange (ents : List Undo) (hs : s.InRange si) :
    (ents.foldl (fun s uup => semexitOne si uup s) s).InRange si := by
  induction ents generalizing s with
  | nil => exact hs
  | cons uup rest ih => exact ih (semexitOne_inRange uup hs)

theorem semexit_inRange (hs : s.InRange si) (h : semexit si slot s = some s') : s'.InRange si := by
  rcases map_eq_some_iff.mp h with ⟨undos, _, rfl⟩
  exact foldl_semexitOne_inRange _ hs

variable {p : Proc} {r : Except Errno Nat}

theorem semctlRmid_inRange (hs : s.InRange si) (h : semctlRmid si p semid s = some (r, s')) :
    s'.InRange si := by
  unfold semctlRmid at h
  split at h
  · cases h
    exact hs
  · dsimp only at h
    split at h
    · cases h
      exact hs
    · rcases map_eq_some_iff.mp h with ⟨undos, _, heq⟩
      cases heq
      exact overSet_sem (P := fun x => x.semval.toNat ≤ si.semvmx) (fun i _ x => Nat.zero_le _) hs

theorem semctlSetval_inRange {semnum arg : Nat} {r : Except Errno Unit} (hs : s.InRange si)
    (h : semctlSetval si p semid semnum arg s = some (r, s')) : s'.InRange si := by
  unfold semctlSetval at h
  split at h
  · cases h
    exact hs
  · rename_i sp _
    dsimp only at h
    split at h
    · cases h
      exact hs
    · split_ifs at h with hnum hmax
      · cases h
        exact hs
      · cases h
        exact hs
      · rcases map_eq_some_iff.mp h with ⟨undos, _, heq⟩
        cases heq
        intro i
        have hvmx := si.semvmx_le
        dsimp only [Sems.setSem]
        by_cases hi : i = (s.sema sp).semBase + semnum
        · rw [hi, update_self]
          unfold Sem.reset
          rw [UInt16.toNat_ofNat_of_lt' (show arg < 65536 by omega)]
          omega
        · rw [update_of_ne hi]
          exact hs i

theorem semctlSetall_inRange {sp : Nat} {semvals : Nat → UInt16} (hs : s.InRange si)
    (h : semctlSetall si p semid sp semvals s = some (r, s')) : s'.InRange si := by
  unfold semctlSetall at h
  dsimp only at h
  split_ifs at h with hmax
  · cases h
    exact hs
  · rcases map_eq_some_iff.mp h with ⟨undos, _, heq⟩
    cases heq
    refine overSet_sem (P := fun x => x.semval.toNat ≤ si.semvmx) (fun i hi x => ?_) hs
    by_contra hlt
    exact hmax ⟨i, List.mem_range.mpr hi, Nat.lt_of_not_le hlt⟩

theorem ipcget_sem {cr : Cred} {key : Int} {flag cnt : Nat} {new : Bool} {i : Nat}
    (h : ipcget cr key flag cnt s = .ok (new, i, s')) : s'.sem = s.sem := by
  unfold ipcget at h
  dsimp only at h
  split at h
  · split at h
    · cases h
    · cases h
      rfl
  · split at h
    · split_ifs at h
      cases h
      rfl
    · split at h
      · cases h
      · split at h
        · cases h
        · cases h
          rfl

theorem semget_sem (p : Proc) (key nsems : Int) (flag : Nat) (base : Option Nat)
    (s : Sems) : (semget si p key nsems flag base s).2.sem = s.sem := by
  unfold semget
  split
  · rfl
  · rename_i hget
    have hsem := ipcget_sem hget
    split_ifs
    · exact hsem
    · split
      · exact hsem
      · exact hsem
  · rename_i hget
    have hsem := ipcget_sem hget
    dsimp only
    split_ifs
    · exact hsem
    · exact hsem

/-!
## Every run
-/

variable {sys sys' : Sys}

theorem finish_inRange {α : Type} {r : Except Errno α} {slot : Nat}
    (hs : s.InRange si) : (sys.finish slot r s).2.sems.InRange si := by
  cases r <;> exact hs

theorem finishReset_inRange {α : Type} {r : Except Errno α} {slot : Nat} {id : Int}
    {range : α → Nat × Nat} (hs : s.InRange si) :
    (sys.finishReset slot id range r s).2.sems.InRange si := by
  cases r <;> exact hs

theorem semop_step_inRange {e : Event} (he : e.OfSemop) (hok : sys.sems.undos.Ok si)
    (hs : sys.sems.InRange si) (hstep : Sys.Step si sys e sys') : sys'.sems.InRange si := by
  rcases hstep with ⟨o, hstep⟩
  rcases semop_step_spec hok he with ⟨o', sys'', hstep', heffect⟩
  rw [hstep] at hstep'
  cases hstep'
  by_cases ho : o = .ret
  · rcases heffect.applied ho with ⟨_, call, _, ops, _, _, hstore, _⟩
    intro i
    have hle := foldlM_apply_le hstore (fun j => Int.ofNat_le.mpr (hs j)) i
    exact Int.ofNat_le.mp hle
  · exact (heffect.unchanged ho).1.inRange hs

theorem step_inRange {e : Event} (hok : sys.sems.undos.Ok si) (hs : sys.sems.InRange si)
    (hstep : Sys.Step si sys e sys') : sys'.sems.InRange si := by
  have hsemop : e.OfSemop → sys'.sems.InRange si :=
    fun he => semop_step_inRange he hok hs hstep
  rcases hstep with ⟨o, hstep⟩
  have hsnd : ∀ q : Outcome × Sys, q = (o, sys') → q.2.sems.InRange si → sys'.sems.InRange si := by
    rintro q rfl hq
    exact hq
  cases e with
  | semop p semid nsops => exact hsemop trivial
  | copiedOps slot semops => exact hsemop trivial
  | wake slot interrupted => exact hsemop trivial
  | semget p key nsems flag base =>
    simp only [Sys.step] at hstep
    split at hstep
    · refine hsnd _ (some.inj hstep) (finish_inRange fun i => ?_)
      rw [semget_sem]
      exact hs i
    · exact hsnd _ (some.inj hstep) hs
  | rmid p semid =>
    simp only [Sys.step] at hstep
    split at hstep
    · rcases map_eq_some_iff.mp hstep with ⟨⟨r, t⟩, hcall, heq⟩
      exact hsnd _ heq (finishReset_inRange (semctlRmid_inRange hs hcall))
    · exact hsnd _ (some.inj hstep) hs
  | setval p semid semnum arg =>
    simp only [Sys.step] at hstep
    split at hstep
    · rcases map_eq_some_iff.mp hstep with ⟨⟨r, t⟩, hcall, heq⟩
      exact hsnd _ heq (finishReset_inRange (semctlSetval_inRange hs hcall))
    · exact hsnd _ (some.inj hstep) hs
  | setall p semid =>
    simp only [Sys.step] at hstep
    split at hstep
    · refine hsnd _ (some.inj hstep) ?_
      unfold Sys.setall
      split
      · exact hs
      · split <;> exact hs
    · exact hsnd _ (some.inj hstep) hs
  | copiedVals slot semvals =>
    simp only [Sys.step] at hstep
    split at hstep
    · split at hstep
      · exact hsnd _ (some.inj hstep) hs
      · rcases map_eq_some_iff.mp hstep with ⟨⟨r, t⟩, hcall, heq⟩
        exact hsnd _ heq (finishReset_inRange (semctlSetall_inRange hs hcall))
    · exact hsnd _ (some.inj hstep) hs
  | set p semid =>
    simp only [Sys.step] at hstep
    split at hstep
    · refine hsnd _ (some.inj hstep) ?_
      unfold Sys.set
      split
      · exact hs
      · split <;> exact hs
    · exact hsnd _ (some.inj hstep) hs
  | copiedDs slot ds =>
    simp only [Sys.step] at hstep
    split at hstep
    · split at hstep
      · exact hsnd _ (some.inj hstep) hs
      · refine hsnd _ (some.inj hstep) (finish_inRange ?_)
        unfold semctlSet
        split <;> exact hs
    · exact hsnd _ (some.inj hstep) hs
  | exit slot =>
    simp only [Sys.step] at hstep
    split at hstep
    · rcases map_eq_some_iff.mp hstep with ⟨t, hcall, heq⟩
      exact hsnd _ heq (semexit_inRange hs hcall)
    · exact hsnd _ (some.inj hstep) hs

theorem Sys.Reachable.inRange (h : Sys.Reachable si sys) : sys.sems.InRange si := by
  have hinv : sys.sems.undos.Ok si ∧ sys.sems.InRange si := by
    refine Transition.Reachable.invariant (I := fun sys => sys.sems.undos.Ok si ∧
      sys.sems.InRange si) ?_ ?_ h
    · rintro sys rfl
      exact ⟨seminit_ok si, fun i => Nat.zero_le _⟩
    · rintro sys e sys' ⟨hok, hs⟩ hstep
      refine ⟨?_, step_inRange hok hs hstep⟩
      rcases hstep with ⟨o, hstep⟩
      rcases step_spec hok e with ⟨o', sys'', hstep', heffect⟩
      rw [hstep] at hstep'
      cases hstep'
      cases heffect <;> assumption
  exact hinv.2

/--
In every reachable state all values are from 0 to `semvmx`, and so is every
sum that a step stores in a value on its way.
-/
theorem semval_in_range {sys : Sys} (h : Sys.Reachable si sys) :
    (∀ i, (sys.sems.sem i).semval.toNat ≤ si.semvmx) ∧
      ∀ e x d, sys.Adds si e x d → Fits si x d := by
  have hs := h.inRange
  have hok := h.inv.ok
  refine ⟨hs, fun e x d hadds => ?_⟩
  cases e with
  | copiedOps slot semops =>
    cases semops with
    | none => exact absurd hadds id
    | some ops =>
      rcases hadds with ⟨call, again, _, _, _, hloop⟩
      exact hloop.fits (.nil _) hs hok
  | exit slot => exact hadds.2.fits
  | _ => exact absurd hadds id

/-- In the state in which a semaphore of a set has been raised by five. -/
theorem semval_in_range_raised : (raised.sems.sem 1).semval.toNat ≤ 32767 :=
  (semval_in_range (Sys.Reachable.run (Transition.Reachable.start rfl) _)).1 1

end Semaphore
end Svr4
