import Svr4.Semaphore.Rollback

/-!
# Adjust-on-exit records over whole runs

What one step of the system does to the undo tables and to the history, and
from it what holds in every reachable state: the records of a process are the
net effect of its operations with `SEM_UNDO` since the last reset.
-/

namespace Svr4
namespace Semaphore

open Option

/-!
## The net effect of a history
-/

def undoSum (num : Nat) (ops : List Sembuf) : Int :=
  (ops.map fun op =>
    if op.isUndo ∧ op.semNum = num then op.semOp else 0).sum

/-- The sum of what a process has done with `SEM_UNDO` since the last reset. -/
def netUndo (slot : Nat) (id : Int) (num : Nat) : List Happened → Int
  | [] => 0
  | .done q id' ops :: earlier =>
    (if q = slot ∧ id' = id then undoSum num ops else 0) +
      netUndo slot id num earlier
  | .reset id' low high :: earlier =>
    if id' = id ∧ low ≤ num ∧ num ≤ high then 0
    else netUndo slot id num earlier
  | .exit q :: earlier =>
    if q = slot then 0 else netUndo slot id num earlier

inductive Sys.Effect (si : SemInfo) (s s' : Sys) : Prop where
  | none (hok : s'.sems.undos.Ok si)
      (hentries : ∀ q, s'.sems.undos.entries q = s.sems.undos.entries q)
      (hhistory : s'.history = s.history)
  | done (slot : Nat) (id : Int) (ops : List Sembuf)
      (hok : s'.sems.undos.Ok si)
      (haoe : ∀ q id' num, s'.sems.undos.aoe q id' num = s.sems.undos.aoe q id' num -
          if q = slot ∧ id' = id then undoSum num ops else 0)
      (hhistory : s'.history = .done slot id ops :: s.history)
  | reset (id : Int) (low high : Nat) (hok : s'.sems.undos.Ok si)
      (haoe : ∀ q id' num, s'.sems.undos.aoe q id' num =
        if id' = id ∧ low ≤ num ∧ num ≤ high then 0
        else s.sems.undos.aoe q id' num)
      (hhistory : s'.history = .reset id low high :: s.history)
  | exit (slot : Nat) (hok : s'.sems.undos.Ok si)
      (hself : s'.sems.undos.entries slot = [])
      (hothers : ∀ q, q ≠ slot → s'.sems.undos.entries q = s.sems.undos.entries q)
      (hhistory : s'.history = .exit slot :: s.history)

variable {slot base : Nat} {id : Int} {e : Event} {t : Sems}

section Steps

variable {si : SemInfo} {s s' : Sys}

theorem Sys.Effect.of_undos_eq (hok : s.sems.undos.Ok si) (hundos : s'.sems.undos = s.sems.undos)
    (hhistory : s'.history = s.history) : s.Effect si s' := by
  apply Sys.Effect.none
  · rw [hundos]
    exact hok
  · intro q
    rw [hundos]
  · exact hhistory

/-!
## Semop
-/

theorem apply_aoe {op : Sembuf} {st st' : Store} (h : st.apply si slot id base op = some st')
    (q : Nat) (id' : Int) (num : Nat) : st'.aoe q id' num = st.aoe q id' num -
      if q = slot ∧ id' = id then if op.isUndo ∧ op.semNum = num then op.semOp else 0 else 0 := by
  unfold Store.apply at h
  split_ifs at h
  obtain rfl : st.effect slot id base op = st' := some.inj h
  simp only [Store.effect]
  congr 1
  by_cases hq : q = slot ∧ id' = id
  · simp [hq, eq_comm]
  · simp only [hq, if_false]
    apply if_neg
    tauto

theorem foldlM_aoe (ops : List Sembuf) {st st' : Store}
    (h : ops.foldlM (Store.apply si slot id base) st = some st') (q : Nat) (id' : Int) (num : Nat) :
    st'.aoe q id' num = st.aoe q id' num - if q = slot ∧ id' = id then undoSum num ops else 0 := by
  induction ops generalizing st with
  | nil =>
    obtain rfl : st = st' := some.inj h
    simp [undoSum]
  | cons op rest ih =>
    rcases bind_eq_some_iff.mp h with ⟨st₁, hop, hrest⟩
    rw [ih hrest, apply_aoe hop]
    simp only [undoSum, List.map_cons, List.sum_cons]
    split_ifs <;> omega

/-- The outcome of one attempt of `semop`. -/
structure AttemptEffect (si : SemInfo) (s s' : Sys) (call : SemopCall)
    (ops : List Sembuf) (o : Outcome) : Prop where
  ok : s'.sems.undos.Ok si
  applied : o = .ret → ops.foldlM (Store.apply si call.p.pSlot call.semid
      (s.sems.sema call.sp).semBase) s.sems.store = some s'.sems.store ∧
    s'.history = .done call.p.pSlot call.semid ops :: s.history
  unchanged : o ≠ .ret → s.sems.Same s'.sems ∧ s'.history = s.history

theorem Sys.attempt_spec (hok : s.sems.undos.Ok si) (call : SemopCall) (ops : List Sembuf) :
    ∃ o s', s.attempt si call ops = some (o, s') ∧ AttemptEffect si s s' call ops o := by
  rcases semopLoop_spec call.p.pSlot call.semid
      (s.sems.sema call.sp).semBase [] ops hok (RollsBack.nil s.sems) with
    ⟨a, sems, hrun, hok', hpost⟩
  unfold Sys.attempt
  dsimp only
  rw [hrun, map_some]
  cases a with
  | done =>
    have hpids := setPids_same call.p.pPid (s.sems.sema call.sp).semBase ops sems
    refine ⟨.ret, _, rfl, ?_, ?_, fun h => absurd rfl h⟩
    · show (setPids _ _ _ sems).undos.Ok si
      rw [setPids_undos]
      exact hok'
    · intro _
      refine ⟨?_, rfl⟩
      show _ = some (setPids _ _ _ sems).store
      rw [hpids.store_eq]
      exact hpost
  | fail e => exact ⟨.err e, _, rfl, hok', nofun, fun _ => ⟨hpost, rfl⟩⟩
  | sleep chan semp =>
    exact ⟨.wait, _, rfl, hok', nofun, fun _ => ⟨hpost, rfl⟩⟩

/-- The events that start or continue a `semop` call. -/
def Event.OfSemop : Event → Prop
  | .semop _ _ _ => True
  | .copiedOps _ _ => True
  | .wake _ _ => True
  | _ => False

structure SemopEffect (si : SemInfo) (s s' : Sys) (e : Event) (o : Outcome) :
    Prop where
  ok : s'.sems.undos.Ok si
  applied : o = .ret → ∃ slot call again ops, e = .copiedOps slot (some ops) ∧
    s.phase slot = .semopCopyin call again ∧
    ops.foldlM (Store.apply si call.p.pSlot call.semid
      (s.sems.sema call.sp).semBase) s.sems.store = some s'.sems.store ∧
    s'.history = .done call.p.pSlot call.semid ops :: s.history
  unchanged : o ≠ .ret → s.sems.Same s'.sems ∧ s'.history = s.history

section

variable (hok : s.sems.undos.Ok si)
include hok

theorem SemopEffect.of_unchanged {o : Outcome} (ho : o ≠ .ret)
    (hsems : s'.sems = s.sems) (hhistory : s'.history = s.history) : SemopEffect si s s' e o := by
  constructor
  · rw [hsems]
    exact hok
  · exact fun h => absurd h ho
  · intro _
    rw [hsems]
    exact ⟨Sems.Same.refl s.sems, hhistory⟩

theorem copiedOps_spec {call : SemopCall} {again : Bool}
    (hphase : s.phase slot = .semopCopyin call again) (semops : Option (List Sembuf)) :
    ∃ o s', s.copiedOps si call again semops = some (o, s') ∧
      SemopEffect si s s' (.copiedOps slot semops) o := by
  have hquiet : ∀ o s', o ≠ .ret → s'.sems = s.sems → s'.history = s.history →
      SemopEffect si s s' (.copiedOps slot semops) o :=
    fun o s' => SemopEffect.of_unchanged hok
  unfold Sys.copiedOps
  cases semops with
  | none => exact ⟨_, _, rfl, hquiet _ _ nofun rfl rfl⟩
  | some ops =>
    dsimp only
    have hattempt : ∃ o s', s.attempt si call ops = some (o, s') ∧
        SemopEffect si s s' (.copiedOps slot (some ops)) o := by
      rcases s.attempt_spec hok call ops with ⟨o, s', hrun, hpost⟩
      refine ⟨o, s', hrun, hpost.ok, ?_, hpost.unchanged⟩
      intro ho
      rcases hpost.applied ho with ⟨hstore, hhistory⟩
      exact ⟨slot, call, again, ops, rfl, hphase, hstore, hhistory⟩
    split_ifs with hlength hagain
    · exact ⟨_, _, rfl, hquiet _ _ nofun rfl rfl⟩
    · exact hattempt
    · split
      · exact ⟨_, _, rfl, hquiet _ _ nofun rfl rfl⟩
      · exact hattempt

theorem wake_effect (e : Event) (call : SemopCall)
    (chan : Chan) (semp : Nat) (interrupted : Bool) :
    SemopEffect si s (s.wake si call chan semp interrupted).2 e
      (s.wake si call chan semp interrupted).1 := by
  unfold Sys.wake
  split_ifs
  · refine ⟨hok, nofun, ?_⟩
    intro _
    refine ⟨Sems.same_setSem _ _ _ ?_, rfl⟩
    cases chan <;> rfl
  · split
    · exact SemopEffect.of_unchanged hok nofun rfl rfl
    · exact SemopEffect.of_unchanged hok nofun rfl rfl

theorem semop_effect (e : Event) (p : Proc) (semid : Int) (nsops : Nat) :
    SemopEffect si s (s.semop si p semid nsops).2 e (s.semop si p semid nsops).1 := by
  unfold Sys.semop
  split
  · exact SemopEffect.of_unchanged hok nofun rfl rfl
  · split_ifs
    · exact SemopEffect.of_unchanged hok nofun rfl rfl
    · exact SemopEffect.of_unchanged hok nofun rfl rfl

theorem semop_step_spec (he : e.OfSemop) :
    ∃ o s', s.step si e = some (o, s') ∧ SemopEffect si s s' e o := by
  have hidle : ∀ e, SemopEffect si s s e .idle :=
    fun e => SemopEffect.of_unchanged hok nofun rfl rfl
  cases e with
  | semop p semid nsops =>
    simp only [Sys.step]
    cases hphase : s.phase p.pSlot with
    | user => exact ⟨_, _, rfl, semop_effect hok _ p semid nsops⟩
    | _ => exact ⟨_, _, rfl, hidle _⟩
  | copiedOps slot semops =>
    simp only [Sys.step]
    cases hphase : s.phase slot with
    | semopCopyin call again => exact copiedOps_spec hok hphase semops
    | _ => exact ⟨_, _, rfl, hidle _⟩
  | wake slot interrupted =>
    simp only [Sys.step]
    cases hphase : s.phase slot with
    | semopSleep call chan semp =>
      exact ⟨_, _, rfl, wake_effect hok _ call chan semp interrupted⟩
    | _ => exact ⟨_, _, rfl, hidle _⟩
  | _ => cases he

end

theorem SemopEffect.effect {o : Outcome} (h : SemopEffect si s s' e o) : s.Effect si s' := by
  by_cases ho : o = .ret
  · rcases h.applied ho with ⟨_, call, _, ops, _, _, hstore, hhistory⟩
    apply Sys.Effect.done call.p.pSlot call.semid ops h.ok _ hhistory
    intro q id' num
    have haoe := foldlM_aoe ops hstore q id' num
    simpa only [Sems.store, eq_comm] using haoe
  · rcases h.unchanged ho with ⟨hsame, hhistory⟩
    exact Sys.Effect.none h.ok hsame.entries hhistory

/-!
## Resetting calls
-/

theorem overSet_undos (base nsems : Nat) (f : Nat → Sem → Sem) (t : Sems) :
    (t.overSet base nsems f).undos = t.undos := by
  unfold Sems.overSet
  induction List.range nsems generalizing t with
  | nil => rfl
  | cons i rest ih => exact ih _

/-- The result of a resetting call, and what it did to the undo tables. -/
def ResetPost {α : Type} (si : SemInfo) (id : Int) (range : α → Nat × Nat)
    (t t' : Sems) : Except Errno α → Prop
  | .error _ => t' = t
  | .ok x => SemunrmPost si id (range x).1 (range x).2 t.undos t'.undos

theorem finishReset_effect {α : Type} (hok : s.sems.undos.Ok si) {range : α → Nat × Nat}
    {r : Except Errno α} (slot : Nat) (hpost : ResetPost si id range s.sems t r) :
    s.Effect si (s.finishReset slot id range r t).2 := by
  cases r with
  | error e =>
    obtain rfl : t = s.sems := hpost
    exact Sys.Effect.of_undos_eq hok rfl rfl
  | ok x => exact Sys.Effect.reset id _ _ hpost.ok hpost.aoe_eq rfl

section

variable (hok : t.undos.Ok si) (p : Proc) (semid : Int)
include hok p semid

theorem semctlRmid_spec :
    ∃ r t', semctlRmid si p semid t = some (r, t') ∧
      ResetPost si semid (fun nsems => (0, nsems)) t t' r := by
  unfold semctlRmid
  split
  · exact ⟨_, _, rfl, rfl⟩
  · rename_i sp _
    dsimp only
    split
    · exact ⟨_, _, rfl, rfl⟩
    · rcases semunrm_spec hok semid 0 (t.sema sp).semNsems with ⟨u', hrun, hpost⟩
      rw [hrun, map_some]
      refine ⟨_, _, rfl, ?_⟩
      show SemunrmPost _ _ _ _ _ (Sems.overSet _ _ _ _).undos
      rw [overSet_undos]
      exact hpost

theorem semctlSetval_spec (semnum arg : Nat) :
    ∃ r t', semctlSetval si p semid semnum arg t = some (r, t') ∧
      ResetPost si semid (fun _ => (semnum, semnum)) t t' r := by
  unfold semctlSetval
  split
  · exact ⟨_, _, rfl, rfl⟩
  · rename_i sp _
    dsimp only
    split
    · exact ⟨_, _, rfl, rfl⟩
    · split_ifs with hnum
      · exact ⟨_, _, rfl, rfl⟩
      · exact ⟨_, _, rfl, rfl⟩
      · -- The number of a semaphore of the set is an unsigned short.
        have hshort : ushort semnum = semnum := by
          have hlt := (t.sema sp).semNsems_lt
          unfold ushort
          omega
        rw [hshort]
        rcases semunrm_spec hok semid semnum semnum with ⟨u', hrun, hpost⟩
        simp only [Sems.setSem, hrun, map_some]
        exact ⟨_, _, rfl, hpost⟩

theorem semctlSetall_spec (sp : Nat)
    (semvals : Nat → UInt16) : ∃ r t', semctlSetall si p semid sp semvals t = some (r, t') ∧
      ResetPost si semid (fun nsems => (0, nsems)) t t' r := by
  unfold semctlSetall
  dsimp only
  split_ifs
  · exact ⟨_, _, rfl, rfl⟩
  · rcases semunrm_spec hok semid 0 (t.sema sp).semNsems with ⟨u', hrun, hpost⟩
    rw [hrun, map_some]
    refine ⟨_, _, rfl, ?_⟩
    show SemunrmPost _ _ _ _ _ (Sems.overSet _ _ _ _).undos
    rw [overSet_undos]
    exact hpost

end

/-!
## Calls that leave the undo tables alone, and exit
-/

theorem ipcget_undos {cr : Cred} {key : Int} {flag cnt : Nat} {t' : Sems} {new : Bool} {i : Nat}
    (h : ipcget cr key flag cnt t = .ok (new, i, t')) : t'.undos = t.undos := by
  unfold ipcget at h
  dsimp only at h
  split at h
  · split at h
    · cases h
    · cases h
      rfl
  · split at h
    · split_ifs at h
      cases h
      rfl
    · split at h
      · cases h
      · split at h
        · cases h
        · cases h
          rfl

theorem semget_undos (p : Proc) (key nsems : Int) (flag : Nat) (base : Option Nat) (t : Sems) :
    (semget si p key nsems flag base t).2.undos = t.undos := by
  unfold semget
  split
  · rfl
  · rename_i hget
    have hundos := ipcget_undos hget
    split_ifs
    · exact hundos
    · split
      · exact hundos
      · exact hundos
  · rename_i hget
    have hundos := ipcget_undos hget
    dsimp only
    split_ifs
    · exact hundos
    · exact hundos

theorem finish_effect {α : Type} (hok : s.sems.undos.Ok si) {r : Except Errno α} (slot : Nat)
    (hundos : t.undos = s.sems.undos) : s.Effect si (s.finish slot r t).2 := by
  cases r with
  | error e => exact Sys.Effect.of_undos_eq hok hundos rfl
  | ok x => exact Sys.Effect.of_undos_eq hok hundos rfl

theorem semexitOne_undos (uup : Undo) (t : Sems) : (semexitOne si uup t).undos = t.undos := by
  unfold semexitOne
  split
  · rfl
  · dsimp only
    split
    · rfl
    · rfl

theorem semexit_spec (hok : t.undos.Ok si) (slot : Nat) :
    ∃ t', semexit si slot t = some t' ∧ ReleasePost si slot t.undos t'.undos := by
  have hundos : ∀ (ents : List Undo) (t : Sems),
      (ents.foldl (fun t uup => semexitOne si uup t) t).undos = t.undos := by
    intro ents
    induction ents with
    | nil => exact fun t => rfl
    | cons uup rest ih =>
      intro t
      rw [List.foldl_cons, ih, semexitOne_undos]
  unfold semexit
  dsimp only
  rw [hundos]
  rcases release_spec hok slot with ⟨u', hrun, hpost⟩
  rw [hrun, map_some]
  exact ⟨_, rfl, hpost⟩

/-!
## One step
-/

theorem step_spec (hok : s.sems.undos.Ok si) (e : Event) :
    ∃ o s', s.step si e = some (o, s') ∧ s.Effect si s' := by
  have hidle : s.Effect si s := Sys.Effect.of_undos_eq hok rfl rfl
  have hsemop : ∀ e : Event, e.OfSemop → ∃ o s', s.step si e = some (o, s') ∧ s.Effect si s' := by
    intro e he
    rcases semop_step_spec hok he with ⟨o, s', hrun, hpost⟩
    exact ⟨o, s', hrun, hpost.effect⟩
  cases e with
  | semop p semid nsops => exact hsemop _ trivial
  | copiedOps slot semops => exact hsemop _ trivial
  | wake slot interrupted => exact hsemop _ trivial
  | semget p key nsems flag base =>
    simp only [Sys.step]
    cases s.phase p.pSlot with
    | user =>
      exact ⟨_, _, rfl, finish_effect hok p.pSlot (semget_undos p key nsems flag base s.sems)⟩
    | _ => exact ⟨_, _, rfl, hidle⟩
  | rmid p semid =>
    simp only [Sys.step]
    cases s.phase p.pSlot with
    | user =>
      rcases semctlRmid_spec hok p semid with ⟨r, t, hrun, hpost⟩
      rw [hrun]
      exact ⟨_, _, rfl, finishReset_effect hok p.pSlot hpost⟩
    | _ => exact ⟨_, _, rfl, hidle⟩
  | setval p semid semnum arg =>
    simp only [Sys.step]
    cases s.phase p.pSlot with
    | user =>
      rcases semctlSetval_spec hok p semid semnum arg with ⟨r, t, hrun, hpost⟩
      rw [hrun]
      exact ⟨_, _, rfl, finishReset_effect hok p.pSlot hpost⟩
    | _ => exact ⟨_, _, rfl, hidle⟩
  | setall p semid =>
    simp only [Sys.step]
    cases s.phase p.pSlot with
    | user =>
      refine ⟨_, _, rfl, ?_⟩
      repeat' split
      all_goals exact Sys.Effect.of_undos_eq hok rfl rfl
    | _ => exact ⟨_, _, rfl, hidle⟩
  | copiedVals slot semvals =>
    simp only [Sys.step]
    cases s.phase slot with
    | setallCopyin p semid sp =>
      cases semvals with
      | none => exact ⟨_, _, rfl, Sys.Effect.of_undos_eq hok rfl rfl⟩
      | some semvals =>
        rcases semctlSetall_spec hok p semid sp semvals with ⟨r, t, hrun, hpost⟩
        dsimp only
        rw [hrun]
        exact ⟨_, _, rfl, finishReset_effect hok slot hpost⟩
    | _ => exact ⟨_, _, rfl, hidle⟩
  | set p semid =>
    simp only [Sys.step]
    cases s.phase p.pSlot with
    | user =>
      refine ⟨_, _, rfl, ?_⟩
      repeat' split
      all_goals exact Sys.Effect.of_undos_eq hok rfl rfl
    | _ => exact ⟨_, _, rfl, hidle⟩
  | copiedDs slot ds =>
    simp only [Sys.step]
    cases s.phase slot with
    | setCopyin sp =>
      cases ds with
      | none => exact ⟨_, _, rfl, Sys.Effect.of_undos_eq hok rfl rfl⟩
      | some ds =>
        refine ⟨_, _, rfl, finish_effect hok slot ?_⟩
        unfold semctlSet
        split_ifs
        · rfl
        · rfl
    | _ => exact ⟨_, _, rfl, hidle⟩
  | exit slot =>
    simp only [Sys.step]
    cases s.phase slot with
    | user =>
      rcases semexit_spec hok slot with ⟨t, hrun, hpost⟩
      rw [hrun]
      exact ⟨_, _, rfl, Sys.Effect.exit slot hpost.ok hpost.entries_self hpost.others rfl⟩
    | _ => exact ⟨_, _, rfl, hidle⟩

end Steps

/-!
## Whole runs
-/

/-- The undo tables are in order, and agree with the history. -/
structure Sys.Inv (si : SemInfo) (s : Sys) : Prop where
  ok : s.sems.undos.Ok si
  net : ∀ slot id num, s.sems.undos.aoe slot id num = -netUndo slot id num s.history

theorem Sys.Effect.inv {si : SemInfo} {s s' : Sys} (h : s.Effect si s')
    (hinv : s.Inv si) : s'.Inv si := by
  cases h with
  | none hok hentries hhistory =>
    refine ⟨hok, ?_⟩
    intro slot id num
    unfold Undos.aoe
    rw [hentries, hhistory]
    exact hinv.net slot id num
  | done slot id ops hok haoe hhistory =>
    refine ⟨hok, ?_⟩
    intro q id' num
    rw [haoe, hinv.net, hhistory, netUndo]
    by_cases hkey : q = slot ∧ id' = id
    · omega
    · have hkey' : ¬ (slot = q ∧ id = id') :=
        fun h => hkey ⟨h.1.symm, h.2.symm⟩
      omega
  | reset id low high hok haoe hhistory =>
    refine ⟨hok, ?_⟩
    intro q id' num
    rw [haoe, hinv.net, hhistory, netUndo]
    by_cases hkey : id' = id ∧ low ≤ num ∧ num ≤ high
    · rw [if_pos hkey, if_pos ⟨hkey.1.symm, hkey.2⟩, Int.neg_zero]
    · rw [if_neg hkey, if_neg fun h => hkey ⟨h.1.symm, h.2⟩]
  | exit slot hok hself hothers hhistory =>
    refine ⟨hok, ?_⟩
    intro q id' num
    rw [hhistory, netUndo]
    by_cases hq : q = slot
    · subst hq
      unfold Undos.aoe
      rw [hself, if_pos rfl]
      rfl
    · rw [if_neg fun h => hq h.symm]
      unfold Undos.aoe
      rw [hothers q hq]
      exact hinv.net q id' num

theorem Sys.Reachable.inv {si : SemInfo} {s : Sys} (hs : Sys.Reachable si s) : s.Inv si := by
  have hinit : ∀ s, s = Sys.init si → s.Inv si := by
    rintro s rfl
    exact ⟨seminit_ok si, fun slot id num => rfl⟩
  have hkeep : ∀ (s : Sys) (e : Event) (s' : Sys), s.Inv si → Sys.Step si s e s' → s'.Inv si := by
    rintro s e s' hinv ⟨o, hstep⟩
    rcases step_spec hinv.ok e with ⟨o', s'', hstep', heffect⟩
    rw [hstep] at hstep'
    cases hstep'
    exact heffect.inv hinv
  exact Transition.Reachable.invariant hinit hkeep hs

end Semaphore
end Svr4
