import Svr4.Semaphore.Runs

/-!
# Guarantees of the semaphore calls

The adjust-on-exit records in every reachable state, and the atomicity of
`semop`.
-/

namespace Svr4
namespace Semaphore

/-!
## The records are the net effect
-/

/--
In every reachable state a process has a record for a semaphore exactly when
its operations with `SEM_UNDO` since the last reset do not add up to zero,
and the record holds their negated sum.  The records of a structure are sorted,
without two for one semaphore, and at most `semume`; the active chain
leads once through each structure with records, and the free chain once through
each structure nobody owns.
-/
theorem undo_records_net {si : SemInfo} {s : Sys} (hs : Sys.Reachable si s) :
    (∀ slot id num a, { unId := id, unNum := num, unAoe := a } ∈ s.sems.undos.entries slot ↔
        -netUndo slot id num s.history ≠ 0 ∧ a = -netUndo slot id num s.history) ∧
    (∀ up, (s.sems.undos.unEnt up).Pairwise Undo.Precedes ∧
      (s.sems.undos.unEnt up).length ≤ si.semume) ∧
    (∃ l, Chain s.sems.undos.unNp s.sems.undos.semunp l none ∧ l.Nodup ∧
      ∀ up, up ∈ l ↔ (s.sems.undos.unEnt up).length > 0) ∧
    (∃ l, Chain s.sems.undos.unNp s.sems.undos.semfup l none ∧ l.Nodup ∧ ∀ up, up ∈ l ↔
        up < si.semmnu ∧ ∀ slot, s.sems.undos.semUndo slot ≠ some up) := by
  have hinv := hs.inv
  refine ⟨?_, ?_, ?_, ?_⟩
  · intro slot id num a
    have hmem := (hinv.ok.entries_ok slot).mem_iff { unId := id, unNum := num, unAoe := a }
    have hnet := hinv.net slot id num
    unfold Undos.aoe at hnet
    rw [hmem, ← hnet]
    dsimp only
    constructor
    · rintro ⟨hne, haoe⟩
      exact ⟨haoe ▸ hne, haoe.symm⟩
    · rintro ⟨hne, ha⟩
      exact ⟨ha ▸ hne, ha.symm⟩
  · intro up
    exact ⟨(hinv.ok.records up).sorted, (hinv.ok.records up).length_le⟩
  · rcases hinv.ok.active with ⟨l, hchain, hmem⟩
    refine ⟨l, hchain, hchain.nodup, ?_⟩
    intro up
    rw [hmem]
    exact List.length_pos_iff.symm
  · rcases hinv.ok.free with ⟨l, hchain, hmem⟩
    exact ⟨l, hchain, hchain.nodup, hmem⟩

def Sys.run (si : SemInfo) (s : Sys) (events : List Event) : Sys :=
  events.foldl (fun s e => ((s.step si e).map Prod.snd).getD s) s

theorem Sys.Reachable.run {si : SemInfo} {s : Sys} (hs : Sys.Reachable si s) (events : List Event) :
    Sys.Reachable si (s.run si events) := by
  induction events generalizing s with
  | nil => exact hs
  | cons e rest ih =>
    apply ih
    dsimp only
    cases hstep : s.step si e with
    | none => exact hs
    | some r => exact Transition.Reachable.next hs ⟨r.1, hstep⟩

/-- The values of `mtune`. -/
def mtune : SemInfo where
  semmni := 10
  semmnu := 30
  semmsl := 25
  semopm := 10
  semume := 10
  semvmx := 32767
  semaem := 16384
  semmni_pos := by decide
  semmnu_pos := by decide
  semume_le := by decide
  semvmx_le := by decide
  semaem_le := by decide

def root : Proc where
  pSlot := 3
  pPid := 7
  cred := { crUid := 0, crGid := 0, crGroups := [] }

def undoOp (num : Nat) (op : Int) (hnum : num < 65536)
    (hop : -32768 ≤ op ∧ op < 32768) : Sembuf where
  semNum := num
  semOp := op
  semFlg := SEM_UNDO ||| IPC_NOWAIT
  semNum_lt := hnum
  semOp_range := hop

/-- A set of two is created; the second semaphore is raised by five. -/
def raised : Sys :=
  (Sys.init mtune).run mtune [.semget root IPC_PRIVATE 2 0o600 (some 0), .semop root 0 1,
      .copiedOps 3 (some [undoOp 1 5 (by decide) (by decide)])]

theorem raised_reachable : Sys.Reachable mtune raised :=
  Sys.Reachable.run (Transition.Reachable.start rfl) _

theorem undo_records_net_raised :
    raised.sems.undos.entries 3 = [{ unId := 0, unNum := 1, unAoe := -5 }] ∧
      ∀ num a, { unId := 0, unNum := num, unAoe := a } ∈ raised.sems.undos.entries 3 ↔
        -netUndo 3 0 num raised.history ≠ 0 ∧ a = -netUndo 3 0 num raised.history :=
  ⟨by decide, fun num a => (undo_records_net raised_reachable).1 3 0 num a⟩

/-!
## All operations or none
-/

/--
A step of a `semop` call, with the undo tables as some run leaves them and
the semaphores in any state.  It returns successfully only once all operations
of the list have been applied, in their order, to values and adjustments.  With
any error, and whenever the process has to wait, every value and every
adjust-on-exit record is as before.
-/
theorem semop_all_or_nothing {si : SemInfo} {r s : Sys}
    (hr : Sys.Reachable si r) (hundos : s.sems.undos = r.sems.undos) {e : Event} (he : e.OfSemop) :
    ∃ o s', s.step si e = some (o, s') ∧ (o = .ret → ∃ slot call again ops,
        e = .copiedOps slot (some ops) ∧ s.phase slot = .semopCopyin call again ∧
        ops.foldlM (Store.apply si call.p.pSlot call.semid
          (s.sems.sema call.sp).semBase) s.sems.store = some s'.sems.store) ∧
      (o ≠ .ret → (∀ i, (s'.sems.sem i).semval = (s.sems.sem i).semval) ∧
        ∀ q, s'.sems.undos.entries q = s.sems.undos.entries q) := by
  have hok : s.sems.undos.Ok si := by
    rw [hundos]
    exact hr.inv.ok
  rcases semop_step_spec hok he with ⟨o, s', hrun, hpost⟩
  refine ⟨o, s', hrun, ?_, ?_⟩
  · intro ho
    rcases hpost.applied ho with ⟨slot, call, again, ops, hevent, hphase, hstore, _⟩
    exact ⟨slot, call, again, ops, hevent, hphase, hstore⟩
  · intro ho
    have hsame := (hpost.unchanged ho).1
    exact ⟨hsame.semval, hsame.entries⟩

/-- A list whose last operation fails, after an adjustment was deleted. -/
def lowering : List Sembuf :=
  [undoOp 1 (-5) one_lt_ushort (by decide), undoOp 0 3 zero_lt_ushort (by decide),
    undoOp 1 (-1) one_lt_ushort minus_one_short]

theorem semop_all_or_nothing_lowering :
    let s := raised.run mtune [.semop root 0 3]
    let e := Event.copiedOps 3 (some lowering)
    (s.step mtune e).map Prod.fst = some (.err .EAGAIN) ∧
    ∃ o s', s.step mtune e = some (o, s') ∧ (o ≠ .ret →
        (∀ i, (s'.sems.sem i).semval = (s.sems.sem i).semval) ∧
        ∀ q, s'.sems.undos.entries q = s.sems.undos.entries q) := by
  intro s e
  refine ⟨by decide, ?_⟩
  rcases semop_all_or_nothing (s := s) (e := e)
      (raised_reachable.run [.semop root 0 3]) rfl trivial with
    ⟨o, s', hrun, _, hfail⟩
  exact ⟨o, s', hrun, hfail⟩

end Semaphore
end Svr4
