import Svr4.Lib.Transition
import Svr4.Semaphore.Undo

/-!
# Semaphore system calls

The calls of `os/sem.c`: `semget`, `semctl` with its changing
commands, `semop`, and `semexit`, with the permission routines of
`os/ipc.c` they use.

A call runs without interruption except where it sleeps: in `semop`, when
an operation has to wait, and in `copyin`, when the page with the user's
data is not in memory.  The state of the system therefore records at which of
these places each process is.
-/

namespace Svr4
namespace Semaphore

open Function

/-!
## Semaphores and sets
-/

def IPC_ALLOC : Nat := 0o100000
def IPC_CREAT : Nat := 0o001000
def IPC_EXCL : Nat := 0o002000
def IPC_NOWAIT : Nat := 0o004000
def SEM_UNDO : Nat := 0o010000
def SEM_A : Nat := 0o200
def SEM_R : Nat := 0o400
def IPC_PRIVATE : Int := 0
def INT16_MAX : Int := 32767
def MAXUID : Int := 60002

structure Cred where
  crUid : Int
  crGid : Int
  crGroups : List Int

structure Proc where
  pSlot : Nat
  pPid : Int
  cred : Cred

structure IpcPerm where
  uid : Int
  gid : Int
  cuid : Int
  cgid : Int
  mode : Nat
  seq : Nat
  key : Int

structure Sem where
  semval : UInt16
  sempid : Int
  semncnt : UInt16
  semzcnt : UInt16

/-- `sem_base` is the index of the first semaphore of the set. -/
structure SemidDs where
  semPerm : IpcPerm
  semBase : Nat
  semNsems : Nat
  semNsems_lt : semNsems < 65536

structure Sembuf where
  semNum : Nat
  semOp : Int
  semFlg : Nat
  semNum_lt : semNum < 65536
  semOp_range : -32768 ≤ semOp ∧ semOp < 32768
deriving DecidableEq

theorem zero_lt_ushort : 0 < 65536 := by decide

theorem one_lt_ushort : 1 < 65536 := by decide

theorem minus_one_short : -32768 ≤ (-1 : Int) ∧ (-1 : Int) < 32768 := by decide

def Sembuf.isUndo (op : Sembuf) : Prop := op.semFlg &&& SEM_UNDO ≠ 0

instance (op : Sembuf) : Decidable op.isUndo := by
  unfold Sembuf.isUndo
  infer_instance

def Sembuf.isNowait (op : Sembuf) : Prop := op.semFlg &&& IPC_NOWAIT ≠ 0

instance (op : Sembuf) : Decidable op.isNowait := by
  unfold Sembuf.isNowait
  infer_instance

structure Sems where
  sema : Nat → SemidDs
  sem : Nat → Sem
  undos : Undos

def Sems.setSem (s : Sems) (semp : Nat) (x : Sem) : Sems :=
  { s with sem := update s.sem semp x }

def Sems.setDs (s : Sems) (sp : Nat) (ds : SemidDs) : Sems :=
  { s with sema := update s.sema sp ds }

def addShort (x : UInt16) (d : Int) : UInt16 :=
  UInt16.ofNat (ushort (x.toNat + d))

/-!
## Permissions
-/

def groupmember (gid : Int) (cr : Cred) : Prop :=
  gid = cr.crGid ∨ gid ∈ cr.crGroups

instance (gid : Int) (cr : Cred) : Decidable (groupmember gid cr) := by
  unfold groupmember
  infer_instance

def suser (cr : Cred) : Prop := cr.crUid = 0

instance (cr : Cred) : Decidable (suser cr) := by
  unfold suser
  infer_instance

def ipcaccess (p : IpcPerm) (mode : Nat) (cr : Cred) : Except Errno Unit :=
  if cr.crUid = 0 then .ok ()
  else
    let mode :=
      if cr.crUid ≠ p.uid ∧ cr.crUid ≠ p.cuid then
        if ¬ groupmember p.gid cr ∧ ¬ groupmember p.cgid cr then
          mode >>> 6
        else mode >>> 3
      else mode
    if mode &&& p.mode ≠ 0 then .ok () else .error .EACCES

/-- The owner or creator of a set, or the super-user, may change it. -/
def mayControl (p : IpcPerm) (cr : Cred) : Prop :=
  cr.crUid = p.uid ∨ cr.crUid = p.cuid ∨ suser cr

instance (p : IpcPerm) (cr : Cred) : Decidable (mayControl p cr) := by
  unfold mayControl
  infer_instance

/--
Look up or create the entry for a key.  The flag of the result tells whether
the entry is new.
-/
def ipcget (cr : Cred) (key : Int) (flag cnt : Nat) (s : Sems) :
    Except Errno (Bool × Nat × Sems) :=
  let allocated := fun i => (s.sema i).semPerm.mode &&& IPC_ALLOC ≠ 0
  let free := (List.range cnt).find? fun i => ¬ allocated i
  let init := fun i =>
    let ds := s.sema i
    let perm :=
      { ds.semPerm with
        mode := IPC_ALLOC ||| (flag &&& 0o777)
        key := key
        cuid := cr.crUid
        uid := cr.crUid
        cgid := cr.crGid
        gid := cr.crGid }
    (true, i, s.setDs i { ds with semPerm := perm })
  if key = IPC_PRIVATE then
    match free with
    | none => .error .ENOSPC
    | some i => .ok (init i)
  else
    match (List.range cnt).find? fun i =>
        allocated i ∧ (s.sema i).semPerm.key = key with
    | some i =>
      if flag &&& (IPC_CREAT ||| IPC_EXCL) = IPC_CREAT ||| IPC_EXCL then
        .error .EEXIST
      else if (flag &&& 0o777) &&& (s.sema i).semPerm.mode ≠
          flag &&& 0o777 then
        -- Some bit asked for is not granted.
        .error .EACCES
      else .ok (false, i, s)
    | none =>
      if flag &&& IPC_CREAT = 0 then .error .ENOENT
      else
        match free with
        | none => .error .ENOSPC
        | some i => .ok (init i)

/-- Convert a user supplied semid into the index of its header. -/
def semconv (si : SemInfo) (sems : Sems) (s : Int) : Except Errno Nat :=
  if s < 0 then .error .EINVAL
  else
    let sp := (s % si.semmni).toNat
    let perm := (sems.sema sp).semPerm
    if perm.mode &&& IPC_ALLOC = 0 ∨ s / si.semmni ≠ perm.seq then
      .error .EINVAL
    else .ok sp

/-!
## Operations on a set
-/

inductive Chan where
  | semncnt
  | semzcnt
deriving DecidableEq, Repr

/-- Why an operation cannot be done. -/
inductive Stop where
  | error (e : Errno)
  | wait (chan : Chan)

/-- The value changes, and the sleepers it satisfies are made to run. -/
def Sem.operate (semp : Sem) (op : Int) : Sem :=
  let semval := addShort semp.semval op
  { semp with
    semval := semval
    semncnt := if op > 0 then 0 else semp.semncnt
    semzcnt := if semval = 0 then 0 else semp.semzcnt }

/-- The adjustment of an operation with `SEM_UNDO`. -/
def Sems.adjust (si : SemInfo) (s : Sems) (slot : Nat) (id : Int)
    (op : Sembuf) : Option (Option Errno × Sems) :=
  if op.isUndo then
    (semaoe si s.undos slot op.semOp id op.semNum).map fun (r, undos) =>
      (r, { s with undos := undos })
  else some (none, s)

def semopOne (si : SemInfo) (slot : Nat) (id : Int) (base : Nat)
    (op : Sembuf) (s : Sems) : Option (Option Stop × Sems) :=
  let semp := base + op.semNum
  let semval : Int := (s.sem semp).semval.toNat
  let operate := (s.adjust si slot id op).map fun (r, s) =>
    match r with
    | some e => (some (.error e), s)
    | none => (none, s.setSem semp ((s.sem semp).operate op.semOp))
  if op.semOp > 0 then
    if op.semOp + semval > si.semvmx then some (some (.error .ERANGE), s)
    else operate
  else if op.semOp < 0 then
    if semval ≥ -op.semOp then operate
    else some (some (.wait .semncnt), s)
  else if semval ≠ 0 then some (some (.wait .semzcnt), s)
  else some (none, s)

def Sem.restore (semp : Sem) (op : Int) : Sem :=
  { semp with semval := addShort semp.semval (-op) }

def semundoOne (si : SemInfo) (slot : Nat) (id : Int) (base : Nat)
    (op : Sembuf) (s : Sems) : Option Sems :=
  if op.semOp = 0 then some s
  else
    let semp := base + op.semNum
    let s := s.setSem semp ((s.sem semp).restore op.semOp)
    if op.isUndo then
      (semaoe si s.undos slot (-op.semOp) id op.semNum).map fun (_, undos) =>
        { s with undos := undos }
    else some s

/-- Undo the operations done, the last one first. -/
def semundo (si : SemInfo) (slot : Nat) (id : Int) (base : Nat) :
    List Sembuf → Sems → Option Sems
  | [], s => some s
  | op :: earlier, s =>
    (semundoOne si slot id base op s).bind (semundo si slot id base earlier)

inductive Attempt where
  | done
  | fail (e : Errno)
  | sleep (chan : Chan) (semp : Nat)

def Sem.addWaiter (x : Sem) : Chan → Sem
  | .semncnt => { x with semncnt := x.semncnt + 1 }
  | .semzcnt => { x with semzcnt := x.semzcnt + 1 }

/--
The loop of `semop`; `done` are the operations already done, the last
one first.
-/
def semopLoop (si : SemInfo) (slot : Nat) (id : Int) (base : Nat)
    (done : List Sembuf) : List Sembuf → Sems → Option (Attempt × Sems)
  | [], s => some (.done, s)
  | op :: rest, s =>
    (semopOne si slot id base op s).bind fun (stop, s) =>
      match stop with
      | none => semopLoop si slot id base (op :: done) rest s
      | some stop =>
        (semundo si slot id base done s).map fun s =>
          match stop with
          | .error e => (.fail e, s)
          | .wait chan =>
            if op.isNowait then (.fail .EAGAIN, s)
            else
              let semp := base + op.semNum
              (.sleep chan semp, s.setSem semp ((s.sem semp).addWaiter chan))

/-- `sempid` of the semaphores operated on. -/
def setPids (pid : Int) (base : Nat) (ops : List Sembuf) (s : Sems) : Sems :=
  ops.foldl (fun s op =>
    let semp := base + op.semNum
    s.setSem semp { s.sem semp with sempid := pid }) s

/-- Verify that the numbers are in range and permissions are granted. -/
def verifyOps (cr : Cred) (ds : SemidDs) : List Sembuf → Except Errno Unit
  | [] => .ok ()
  | op :: rest =>
    match ipcaccess ds.semPerm (if op.semOp ≠ 0 then SEM_A else SEM_R) cr with
    | .error e => .error e
    | .ok () =>
      if op.semNum ≥ ds.semNsems then .error .EFBIG
      else verifyOps cr ds rest

/-!
## Resetting and removing a set
-/

/-- A value set by `semctl`, with the sleepers it satisfies. -/
def Sem.reset (x : Sem) (val : UInt16) (pid : Int) : Sem :=
  { semval := val
    sempid := pid
    semncnt := if val ≠ 0 then 0 else x.semncnt
    semzcnt := if val ≠ 0 then x.semzcnt else 0 }

/-- Change the semaphores of a set, given by base and number. -/
def Sems.overSet (s : Sems) (base nsems : Nat) (f : Nat → Sem → Sem) : Sems :=
  (List.range nsems).foldl (fun s i => s.setSem (base + i) (f i (s.sem (base + i)))) s

def Sem.clear (_ : Sem) : Sem :=
  { semval := 0, sempid := 0, semncnt := 0, semzcnt := 0 }

/-- The next sequence number of the entry of a removed set. -/
def nextSeq (si : SemInfo) (semid : Int) (seq : Nat) : Nat :=
  if semid + si.semmni > INT16_MAX then 0 else seq + 1

def semctlRmid (si : SemInfo) (p : Proc) (semid : Int) (s : Sems) :
    Option (Except Errno Nat × Sems) :=
  match semconv si s semid with
  | .error e => some (.error e, s)
  | .ok sp =>
    let ds := s.sema sp
    if ¬ mayControl ds.semPerm p.cred then some (.error .EPERM, s)
    else
      (semunrm si s.undos semid 0 ds.semNsems).map fun undos =>
        let s := { s with undos := undos }
        let s := s.overSet ds.semBase ds.semNsems fun _ => Sem.clear
        let perm :=
          { ds.semPerm with
            mode := 0
            seq := nextSeq si semid ds.semPerm.seq }
        (.ok ds.semNsems, s.setDs sp { ds with semPerm := perm })

def semctlSetval (si : SemInfo) (p : Proc) (semid : Int) (semnum arg : Nat)
    (s : Sems) : Option (Except Errno Unit × Sems) :=
  match semconv si s semid with
  | .error e => some (.error e, s)
  | .ok sp =>
    let ds := s.sema sp
    match ipcaccess ds.semPerm SEM_A p.cred with
    | .error e => some (.error e, s)
    | .ok () =>
      if semnum ≥ ds.semNsems then some (.error .EINVAL, s)
      else if arg > si.semvmx then some (.error .ERANGE, s)
      else
        let semp := ds.semBase + semnum
        let s := s.setSem semp ((s.sem semp).reset (UInt16.ofNat arg) p.pPid)
        (semunrm si s.undos semid (ushort semnum) (ushort semnum)).map
          fun undos => (.ok (), { s with undos := undos })

/-- `SETALL`, once the values have been copied in. -/
def semctlSetall (si : SemInfo) (p : Proc) (semid : Int) (sp : Nat)
    (semvals : Nat → UInt16) (s : Sems) :
    Option (Except Errno Nat × Sems) :=
  let ds := s.sema sp
  if ∃ i ∈ List.range ds.semNsems, (semvals i).toNat > si.semvmx then
    some (.error .ERANGE, s)
  else
    (semunrm si s.undos semid 0 ds.semNsems).map fun undos =>
      let s := { s with undos := undos }
      (.ok ds.semNsems, s.overSet ds.semBase ds.semNsems fun i x =>
          x.reset (semvals i) p.pPid)

/-- `IPC_SET`, once the permissions have been copied in. -/
def semctlSet (sp : Nat) (uid gid : Int) (mode : Nat) (s : Sems) :
    Except Errno Unit × Sems :=
  if uid < 0 ∨ uid > MAXUID ∨ gid < 0 ∨ gid > MAXUID then (.error .EINVAL, s)
  else
    let ds := s.sema sp
    let perm :=
      { ds.semPerm with
        uid := uid
        gid := gid
        mode := (mode &&& 0o777) ||| IPC_ALLOC }
    (.ok (), s.setDs sp { ds with semPerm := perm })

/-!
## Creating a set
-/

theorem ushort_lt (x : Int) : ushort x < 65536 := by
  unfold ushort
  omega

/-- `base` is what `rmalloc` delivers from the semaphore map. -/
def semget (si : SemInfo) (p : Proc) (key nsems : Int) (flag : Nat)
    (base : Option Nat) (s : Sems) : Except Errno Int × Sems :=
  match ipcget p.cred key flag si.semmni s with
  | .error e => (.error e, s)
  | .ok (true, sp, s) =>
    let ds := s.sema sp
    let unused := { ds with semPerm := { ds.semPerm with mode := 0 } }
    if nsems ≤ 0 ∨ nsems > si.semmsl then (.error .EINVAL, s.setDs sp unused)
    else
      match base with
      | none => (.error .ENOSPC, s.setDs sp unused)
      | some base =>
        (.ok (ds.semPerm.seq * si.semmni + sp),
          s.setDs sp
            { ds with
              semBase := base
              semNsems := ushort nsems
              semNsems_lt := ushort_lt nsems })
  | .ok (false, sp, s) =>
    let ds := s.sema sp
    if nsems ≠ 0 ∧ (nsems < 0 ∨ ds.semNsems < nsems) then (.error .EINVAL, s)
    else (.ok (ds.semPerm.seq * si.semmni + sp), s)

/-!
## Process exit
-/

def semexitOne (si : SemInfo) (uup : Undo) (s : Sems) : Sems :=
  match semconv si s uup.unId with
  | .error _ => s
  | .ok sp =>
    let semp := (s.sema sp).semBase + uup.unNum
    let x := s.sem semp
    let v : Int := x.semval.toNat + uup.unAoe
    if v < 0 ∨ v > si.semvmx then s
    else
      s.setSem semp
        { x with
          semval := UInt16.ofNat (ushort v)
          semzcnt := if v = 0 then 0 else x.semzcnt
          semncnt := if uup.unAoe > 0 then 0 else x.semncnt }

/-- Clean up on process exit, the last record first. -/
def semexit (si : SemInfo) (slot : Nat) (s : Sems) : Option Sems :=
  let s := (s.undos.entries slot).reverse.foldl (fun s uup => semexitOne si uup s) s
  (s.undos.release si slot).map fun undos => { s with undos := undos }

/-!
## The system
-/

/-- The arguments and locals of a `semop` call in progress. -/
structure SemopCall where
  p : Proc
  semid : Int
  nsops : Nat
  sp : Nat

/-- Where a process is. -/
inductive Phase where
  | user
  | semopCopyin (call : SemopCall) (again : Bool)
  | semopSleep (call : SemopCall) (chan : Chan) (semp : Nat)
  | setallCopyin (p : Proc) (semid : Int) (sp : Nat)
  | setCopyin (sp : Nat)

/-- The changes of the adjustments, as the calls report them; no call reads it. -/
inductive Happened where
  | done (slot : Nat) (id : Int) (ops : List Sembuf)
  | reset (id : Int) (low high : Nat)
  | exit (slot : Nat)

structure Sys where
  sems : Sems
  phase : Nat → Phase
  /-- The newest change comes first. -/
  history : List Happened

/-- How a step of a process ends. -/
inductive Outcome where
  | ret
  | err (e : Errno)
  | wait
  | idle
deriving DecidableEq, Repr

inductive Event where
  | semget (p : Proc) (key nsems : Int) (flag : Nat) (base : Option Nat)
  | semop (p : Proc) (semid : Int) (nsops : Nat)
  | copiedOps (slot : Nat) (semops : Option (List Sembuf))
  | wake (slot : Nat) (interrupted : Bool)
  | rmid (p : Proc) (semid : Int)
  | setval (p : Proc) (semid : Int) (semnum arg : Nat)
  | setall (p : Proc) (semid : Int)
  | copiedVals (slot : Nat) (semvals : Option (Nat → UInt16))
  | set (p : Proc) (semid : Int)
  | copiedDs (slot : Nat) (ds : Option (Int × Int × Nat))
  | exit (slot : Nat)

def Sys.goto (s : Sys) (slot : Nat) (phase : Phase) : Sys :=
  { s with phase := update s.phase slot phase }

def Sys.fail (s : Sys) (slot : Nat) (e : Errno) : Outcome × Sys :=
  (.err e, s.goto slot .user)

def Sys.happened (s : Sys) (h : Happened) : Sys :=
  { s with history := h :: s.history }

/-- `semop` up to its first `copyin`. -/
def Sys.semop (si : SemInfo) (s : Sys) (p : Proc) (semid : Int)
    (nsops : Nat) : Outcome × Sys :=
  match semconv si s.sems semid with
  | .error e => s.fail p.pSlot e
  | .ok sp =>
    if nsops > si.semopm then s.fail p.pSlot .E2BIG
    else
      (.wait, s.goto p.pSlot (.semopCopyin { p := p, semid := semid, nsops := nsops, sp := sp }
            false))

/-- `semop` from the label `check` on, behind the `copyin`. -/
def Sys.attempt (si : SemInfo) (s : Sys) (call : SemopCall)
    (semops : List Sembuf) : Option (Outcome × Sys) :=
  let slot := call.p.pSlot
  let base := (s.sems.sema call.sp).semBase
  (semopLoop si slot call.semid base [] semops s.sems).map fun (attempt, sems) =>
      match attempt with
      | .done =>
        let sems := setPids call.p.pPid base semops sems
        (.ret, ({ s with sems := sems }.goto slot .user).happened (.done slot call.semid semops))
      | .fail e => { s with sems := sems }.fail slot e
      | .sleep chan semp =>
        (.wait, { s with sems := sems }.goto slot (.semopSleep call chan semp))

def Sys.copiedOps (si : SemInfo) (s : Sys) (call : SemopCall) (again : Bool)
    (semops : Option (List Sembuf)) : Option (Outcome × Sys) :=
  match semops with
  | none => some (s.fail call.p.pSlot .EFAULT)
  | some semops =>
    if semops.length ≠ call.nsops then some (.idle, s)
    else if again then s.attempt si call semops
    else
      match verifyOps call.p.cred (s.sems.sema call.sp) semops with
      | .error e => some (s.fail call.p.pSlot e)
      | .ok () => s.attempt si call semops

/-- The interrupted sleeper takes itself off the count. -/
def Sem.dropWaiter (x : Sem) : Chan → Sem
  | .semncnt =>
    { x with semncnt := if x.semncnt ≤ 1 then 0 else x.semncnt - 1 }
  | .semzcnt =>
    { x with semzcnt := if x.semzcnt ≤ 1 then 0 else x.semzcnt - 1 }

/-- `sleep` returns; a woken process starts over. -/
def Sys.wake (si : SemInfo) (s : Sys) (call : SemopCall) (chan : Chan)
    (semp : Nat) (interrupted : Bool) : Outcome × Sys :=
  if interrupted then
    let sems := s.sems.setSem semp ((s.sems.sem semp).dropWaiter chan)
    { s with sems := sems }.fail call.p.pSlot .EINTR
  else
    match semconv si s.sems call.semid with
    | .error _ => s.fail call.p.pSlot .EIDRM
    | .ok _ => (.wait, s.goto call.p.pSlot (.semopCopyin call true))

/-- `SETALL` up to its `copyin`. -/
def Sys.setall (si : SemInfo) (s : Sys) (p : Proc) (semid : Int) :
    Outcome × Sys :=
  match semconv si s.sems semid with
  | .error e => s.fail p.pSlot e
  | .ok sp =>
    match ipcaccess (s.sems.sema sp).semPerm SEM_A p.cred with
    | .error e => s.fail p.pSlot e
    | .ok () => (.wait, s.goto p.pSlot (.setallCopyin p semid sp))

/-- `IPC_SET` up to its `copyin`. -/
def Sys.set (si : SemInfo) (s : Sys) (p : Proc) (semid : Int) :
    Outcome × Sys :=
  match semconv si s.sems semid with
  | .error e => s.fail p.pSlot e
  | .ok sp =>
    if ¬ mayControl (s.sems.sema sp).semPerm p.cred then
      s.fail p.pSlot .EPERM
    else (.wait, s.goto p.pSlot (.setCopyin sp))

/-- A call that ends without waiting, given its result and the new tables. -/
def Sys.finish (s : Sys) (slot : Nat) {α : Type} (r : Except Errno α)
    (sems : Sems) : Outcome × Sys :=
  match r with
  | .error e => { s with sems := sems }.fail slot e
  | .ok _ => (.ret, { s with sems := sems }.goto slot .user)

/-- The same for a call that resets the semaphores `low` to `high`. -/
def Sys.finishReset (s : Sys) (slot : Nat) (id : Int) {α : Type}
    (range : α → Nat × Nat) (r : Except Errno α) (sems : Sems) :
    Outcome × Sys :=
  match r with
  | .error e => { s with sems := sems }.fail slot e
  | .ok x =>
    (.ret, ({ s with sems := sems }.goto slot .user).happened (.reset id (range x).1 (range x).2))

/-- One step; there is no result only where a search of the active chain does not end. -/
def Sys.step (si : SemInfo) (s : Sys) : Event → Option (Outcome × Sys)
  | .semget p key nsems flag base =>
    match s.phase p.pSlot with
    | .user =>
      let (r, sems) := Semaphore.semget si p key nsems flag base s.sems
      some (s.finish p.pSlot r sems)
    | _ => some (.idle, s)
  | .semop p semid nsops =>
    match s.phase p.pSlot with
    | .user => some (s.semop si p semid nsops)
    | _ => some (.idle, s)
  | .copiedOps slot semops =>
    match s.phase slot with
    | .semopCopyin call again => s.copiedOps si call again semops
    | _ => some (.idle, s)
  | .wake slot interrupted =>
    match s.phase slot with
    | .semopSleep call chan semp =>
      some (s.wake si call chan semp interrupted)
    | _ => some (.idle, s)
  | .rmid p semid =>
    match s.phase p.pSlot with
    | .user =>
      (semctlRmid si p semid s.sems).map fun (r, sems) =>
        s.finishReset p.pSlot semid (fun nsems => (0, nsems)) r sems
    | _ => some (.idle, s)
  | .setval p semid semnum arg =>
    match s.phase p.pSlot with
    | .user =>
      (semctlSetval si p semid semnum arg s.sems).map fun (r, sems) =>
        s.finishReset p.pSlot semid (fun _ => (semnum, semnum)) r sems
    | _ => some (.idle, s)
  | .setall p semid =>
    match s.phase p.pSlot with
    | .user => some (s.setall si p semid)
    | _ => some (.idle, s)
  | .copiedVals slot semvals =>
    match s.phase slot with
    | .setallCopyin p semid sp =>
      match semvals with
      | none => some (s.fail slot .EFAULT)
      | some semvals =>
        (semctlSetall si p semid sp semvals s.sems).map fun (r, sems) =>
            s.finishReset slot semid (fun nsems => (0, nsems)) r sems
    | _ => some (.idle, s)
  | .set p semid =>
    match s.phase p.pSlot with
    | .user => some (s.set si p semid)
    | _ => some (.idle, s)
  | .copiedDs slot ds =>
    match s.phase slot with
    | .setCopyin sp =>
      match ds with
      | none => some (s.fail slot .EFAULT)
      | some (uid, gid, mode) =>
        let (r, sems) := semctlSet sp uid gid mode s.sems
        some (s.finish slot r sems)
    | _ => some (.idle, s)
  | .exit slot =>
    match s.phase slot with
    | .user =>
      (semexit si slot s.sems).map fun sems =>
        (.ret, { s with sems := sems }.happened (.exit slot))
    | _ => some (.idle, s)

/-- The system after `seminit`: no set, all semaphores zero. -/
def Sys.init (si : SemInfo) : Sys where
  sems :=
    { sema := fun _ =>
        { semPerm :=
            { uid := 0, gid := 0, cuid := 0, cgid := 0, mode := 0, seq := 0,
              key := 0 }
          semBase := 0
          semNsems := 0
          semNsems_lt := by decide }
      sem := fun _ => { semval := 0, sempid := 0, semncnt := 0, semzcnt := 0 }
      undos := Undos.seminit si }
  phase _ := .user
  history := []

def Sys.Step (si : SemInfo) (s : Sys) (e : Event) (s' : Sys) : Prop :=
  ∃ o, s.step si e = some (o, s')

def Sys.Reachable (si : SemInfo) : Sys → Prop :=
  Transition.Reachable (fun s => s = Sys.init si) (Sys.Step si)

end Semaphore
end Svr4
