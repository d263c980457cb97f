import Svr4.Semaphore.Guarantees

/-!
# Operations that are fetched again

`semop` copies the operations in once more whenever it has slept, and other
threads of its caller may have changed them.  A watch on the system records the
access modes that were granted to the call of each process, and each operation
that the loop of `semop` comes to.
-/

namespace Svr4
namespace Semaphore

open List

def Sembuf.access (op : Sembuf) : Nat := if op.semOp ≠ 0 then SEM_A else SEM_R

/-- The operations that the loop of `semop` comes to. -/
def semopReached (si : SemInfo) (slot : Nat) (id : Int) (base : Nat) :
    List Sembuf → Sems → List Sembuf
  | [], _ => []
  | op :: rest, s =>
    op :: match semopOne si slot id base op s with
      | some (none, s) => semopReached si slot id base rest s
      | _ => []

theorem semopReached_subset {si : SemInfo} {slot : Nat} {id : Int} {base : Nat}
    {ops : List Sembuf} {s : Sems} : ∀ op ∈ semopReached si slot id base ops s, op ∈ ops := by
  induction ops generalizing s with
  | nil => simp [semopReached]
  | cons op rest ih =>
    intro x hx
    rcases mem_cons.mp hx with rfl | hx
    · exact mem_cons_self
    · split at hx
      · exact mem_cons_of_mem _ (ih x hx)
      · cases hx

/-- An operation that the loop came to, with the size of the set and the access granted by then. -/
structure Executed where
  op : Sembuf
  semNsems : Nat
  granted : List Nat

def Executed.Checked (x : Executed) : Prop :=
  x.op.semNum < x.semNsems ∧ x.op.access ∈ x.granted

structure Watch where
  sys : Sys
  /-- the access modes granted to the call that a process is in -/
  granted : Nat → List Nat
  executed : List Executed

namespace Watch

def attempts (si : SemInfo) (w : Watch) (call : SemopCall) (modes : List Nat)
    (semops : List Sembuf) : Watch :=
  let slot := call.p.pSlot
  let ds := w.sys.sems.sema call.sp
  { w with
    granted := Function.update w.granted slot modes
    executed :=
      (semopReached si slot call.semid ds.semBase semops w.sys.sems).map
        (fun op => ⟨op, ds.semNsems, modes⟩) ++ w.executed }

def observe (si : SemInfo) (w : Watch) : Event → Watch
  | .copiedOps slot (some semops) =>
    match w.sys.phase slot with
    | .semopCopyin call again =>
      if semops.length ≠ call.nsops then w
      else if again then
        w.attempts si call (w.granted call.p.pSlot) semops
      else
        match verifyOps call.p.cred (w.sys.sems.sema call.sp) semops with
        | .error _ => w
        | .ok () => w.attempts si call (semops.map Sembuf.access) semops
    | _ => w
  | _ => w

def Step (si : SemInfo) (w : Watch) (e : Event) (w' : Watch) : Prop :=
  ∃ sys, Sys.Step si w.sys e sys ∧ w' = { w.observe si e with sys := sys }

def Start (si : SemInfo) (w : Watch) : Prop :=
  w.sys = Sys.init si ∧ w.executed = []

/--
Operations that are fetched again are within the set, and need no access that
has not been granted to the call.
-/
def Rechecked (w : Watch) : Event → Prop
  | .copiedOps slot (some semops) =>
    match w.sys.phase slot with
    | .semopCopyin call true =>
      ∀ op ∈ semops, op.semNum < (w.sys.sems.sema call.sp).semNsems ∧
        op.access ∈ w.granted call.p.pSlot
    | _ => True
  | _ => True

variable {si : SemInfo} {w w' : Watch}

theorem verifyOps_ok {cr : Cred} {ds : SemidDs} {ops : List Sembuf}
    (h : verifyOps cr ds ops = .ok ()) : ∀ op ∈ ops, op.semNum < ds.semNsems := by
  induction ops with
  | nil => simp
  | cons op rest ih =>
    unfold verifyOps at h
    split at h
    · cases h
    split at h
    · cases h
    · rename_i hnum
      intro x hx
      rcases mem_cons.mp hx with rfl | hx
      · omega
      · exact ih h x hx

theorem attempts_checked {call : SemopCall} {modes : List Nat}
    {semops : List Sembuf} (hw : ∀ x ∈ w.executed, x.Checked)
    (hops : ∀ op ∈ semops, op.semNum < (w.sys.sems.sema call.sp).semNsems ∧ op.access ∈ modes) :
    ∀ x ∈ (w.attempts si call modes semops).executed, x.Checked := by
  intro x hx
  rcases mem_append.mp hx with hnew | hold
  · rcases mem_map.mp hnew with ⟨op, hop, rfl⟩
    exact hops op (semopReached_subset op hop)
  · exact hw x hold

theorem observe_checked {e : Event} (hw : ∀ x ∈ w.executed, x.Checked)
    (hok : w.Rechecked e) : ∀ x ∈ (w.observe si e).executed, x.Checked := by
  unfold observe
  split
  · rename_i slot semops
    split
    · rename_i call again hphase
      split
      · exact hw
      split
      · rename_i hagain
        subst hagain
        unfold Rechecked at hok
        dsimp only at hok
        rw [hphase] at hok
        exact attempts_checked hw hok
      · split
        · exact hw
        · rename_i hverify
          refine attempts_checked hw fun op hop => ?_
          exact ⟨verifyOps_ok hverify op hop, mem_map_of_mem hop⟩
    · exact hw
  · exact hw

def run (si : SemInfo) (w : Watch) (events : List Event) : Watch :=
  events.foldl (fun w e =>
    { w.observe si e with sys := w.sys.run si [e] }) w

def init (si : SemInfo) : Watch := ⟨Sys.init si, fun _ => [], []⟩

/-- The events of a run, with the condition at each of them. -/
def Meets (si : SemInfo) (ok : Watch → Event → Prop) :
    Watch → List Event → Prop
  | _, [] => True
  | w, e :: rest =>
    ok w e ∧ (w.sys.step si e).isSome ∧ Meets si ok (w.run si [e]) rest

theorem reachable_run {ok : Watch → Event → Prop} {events : List Event}
    (hw : Transition.ReachableWhen (Start si) (Step si) ok w) (hevents : Meets si ok w events) :
    Transition.ReachableWhen (Start si) (Step si) ok (w.run si events) := by
  induction events generalizing w with
  | nil => exact hw
  | cons e rest ih =>
    rcases hevents with ⟨hok, hsome, hrest⟩
    rcases Option.isSome_iff_exists.mp hsome with ⟨r, hr⟩
    refine ih (hw.next hok ⟨r.2, ⟨r.1, hr⟩, ?_⟩) hrest
    simp [Sys.run, hr]

def plainOp (num : Nat) (op : Int) (hnum : num < 65536)
    (hop : -32768 ≤ op ∧ op < 32768) : Sembuf where
  semNum := num
  semOp := op
  semFlg := 0
  semNum_lt := hnum
  semOp_range := hop

def other : Proc := { root with pSlot := 4, pPid := 8 }

/--
A set of one semaphore is created, a process waits for it, and another process
raises it; the first is woken.
-/
def woken : List Event :=
  [.semget root IPC_PRIVATE 1 0o600 (some 0), .semop root 0 1,
    .copiedOps 3 (some [plainOp 0 (-1) zero_lt_ushort minus_one_short]),
    .semop other 0 1,
    .copiedOps 4 (some [plainOp 0 1 zero_lt_ushort (by decide)]),
    .wake 3 false]

/-- The list of the woken process, unchanged or with another semaphore in it. -/
def fetchedAgain (changed : Bool) : Event :=
  .copiedOps 3 (some [plainOp (if changed then 9 else 0)
    (if changed then 1 else -1) (by cases changed <;> decide)
    (by cases changed <;> decide)])

theorem meets_unchanged : Meets mtune Rechecked (init mtune) (woken ++ [fetchedAgain false]) := by
  refine ⟨trivial, by decide, trivial, by decide, trivial, by decide, trivial,
    by decide, trivial, by decide, trivial, by decide, ?_, by decide, trivial⟩
  intro op hop
  have hop' := mem_singleton.mp hop
  subst hop'
  decide

end Watch

end Semaphore
end Svr4
