import Svr4.RecordLock.Model
import Svr4.Lib.Transition

/-!
# The reclock system

The routine `reclock` with its deadlock detection, cut at the point where
it sleeps, and the system formed by the processes that call it: each vnode has
its lock list, the sleeping locks are shared, and every process is running,
asleep in `reclock`, or made runnable again but not yet run.
-/

namespace Svr4
namespace RecordLock

open NodeList

/-- The value of an expression stored into a 32-bit `off_t`. -/
def offT (x : Int) : Int := Int.bmod x 4294967296

/-!
## Entering reclock
-/

structure Cmd where
  inoflck : Bool
  setflck : Bool
  slpflck : Bool
  rcmdlck : Bool
deriving DecidableEq, Repr

/--
The arguments of `reclock`, the flags of the calling process, and the
answer of `VOP_GETATTR`: an error or the file size.
-/
structure Request where
  vp : Nat
  lckdat : Flock
  cmd : Cmd
  fread : Bool
  fwrite : Bool
  offset : Int
  vaSize : Except Errno Int
  renv : Renv

/-- Convert the start of `lckdat` to the given `whence`. -/
def convoff (lckdat : Flock) (whence offset : Int) (vaSize : Except Errno Int) :
    Except Errno Flock := do
  let size ← vaSize
  let start ←
    if lckdat.lWhence = 1 then pure (offT (lckdat.lStart + offset))
    else if lckdat.lWhence = 2 then pure (offT (lckdat.lStart + size))
    else if lckdat.lWhence ≠ 0 then throw .einval
    else pure lckdat.lStart
  if start < 0 then throw .einval
  let start ←
    if whence = 1 then pure (offT (start - offset))
    else if whence = 2 then pure (offT (start - size))
    else if whence ≠ 0 then throw .einval
    else pure start
  return { lckdat with lStart := start, lWhence := whence }

/-- The access check at the top of `reclock`. -/
def accessError (q : Request) : Option Errno :=
  if !q.renv.badvisePreSv &&
      (q.cmd.setflck || ((q.renv.virtualXout && q.renv.isFcntl) || q.renv.isLocking)) &&
      ((q.lckdat.lType == .rdlck && !q.fread) || (q.lckdat.lType == .wrlck && !q.fwrite)) then
    some (if q.renv.virtualXout || q.renv.isLocking then .einval else .ebadf)
  else none

/-- Turn `l_len` into `l_end`, checking for arithmetic overflow. -/
def lenToEnd (lckdat : Flock) : Except Errno Flock :=
  if lckdat.lEnd < 0 then .error .einval
  else
    let lEnd :=
      if lckdat.lEnd = 0 then MAXEND
      else offT (lckdat.lEnd + (lckdat.lStart - 1))
    if lckdat.lStart > lEnd then .error .einval
    else .ok { lckdat with lEnd := lEnd }

/-- The part of `reclock` before the loop. -/
def reclockEnter (q : Request) : Except Errno Flock :=
  match accessError q with
  | some e => .error e
  | none =>
    match convoff q.lckdat 0 q.offset q.vaSize with
    | .error e => .error e
    | .ok lckdat => lenToEnd lckdat

def restoreLen (lckdat : Flock) : Flock :=
  if lckdat.lEnd = MAXEND then { lckdat with lEnd := 0 }
  else { lckdat with lEnd := offT (lckdat.lEnd - (lckdat.lStart - 1)) }

/-!
## Deadlock detection
-/

/--
The loop of `deadflck`, with at most `fuel` rounds.  The blocking
owner is replaced by the owner it is recorded to wait for, as long as it has a
sleeping lock.  No result means that the rounds were used up.
-/
def deadflck : Nat → List Filock → Owner → Owner → Option Bool
  | 0, _, _, _ => none
  | fuel + 1, sleeplcks, blck, requester =>
    if blck = requester then some true
    else
      match sleeplcks.find? (fun sf => sf.owner = blck) with
      | none => some false
      | some sf => deadflck fuel sleeplcks sf.stat.blk requester

/-!
## One pass of the loop
-/

/-- How a pass of the loop of `reclock` ends. -/
inductive Pass where
  | done (r : Retval) (lckdat : Flock) (lst : List Filock) (k : Kern)
  /-- asleep on the lock `chan`, with sleeping lock `sf` -/
  | sleeps (chan sf : Nat) (lst : List Filock) (k : Kern)
  /-- `deadflck` does not return -/
  | hangs
deriving DecidableEq, Repr

def delSleeplck (k : Kern) (sf : Filock) : Kern :=
  let d := delflck k.sleeplcks sf k
  { d.2 with sleeplcks := d.1 }

/-- The records that the loops `cleanslp` remove. -/
def cleanMatch (lckdat : Flock) (sf : Filock) : Bool :=
  sf.set.lWhence == lckdat.lWhence && lckdat.lStart ≤ sf.set.lStart &&
    sf.set.lEnd ≤ lckdat.lEnd && sf.owner == lckdat.owner

/-- Remove the request from `sleeplcks` if it is there. -/
def cleanslp (lckdat : Flock) (k : Kern) : Kern :=
  (k.sleeplcks.filter (cleanMatch lckdat)).foldl delSleeplck k

/--
Put a sleeping lock for the request on `sleeplcks`, recording the owner
of the lock found.
-/
def insSleeplck (t : Tune) (lckdat : Flock) (found : Filock) (k : Kern) :
    Option Nat × Kern :=
  match insflck t k.sleeplcks lckdat none k with
  | (none, _, k) => (none, k)
  | (some sf, sleeplcks, k) =>
    (some sf,
      { k with
        sleeplcks := amend Filock.addr sf (fun s =>
            { s with
              stat := { sysid := found.set.lSysid, pid := found.set.lPid } })
          sleeplcks })

/-- The request of a remote owner is already on `sleeplcks`. -/
def alreadyAsleep (lckdat : Flock) (found sf : Filock) : Bool :=
  sf.set == lckdat && sf.stat.blk == found.owner

/-- A request that waits, after `deadflck` saw no deadlock. -/
def waitFor (t : Tune) (cmd : Cmd) (lckdat : Flock) (found : Filock)
    (lst : List Filock) (k : Kern) : Pass :=
  if cmd.rcmdlck then
    if k.sleeplcks.any (alreadyAsleep lckdat found) then
      .done (some .eintr) lckdat lst k
    else
      match insSleeplck t lckdat found k with
      | (none, k) => .done (some .enolck) lckdat lst k
      | (some _, k) => .done (some .eintr) lckdat lst k
  else
    match insSleeplck t lckdat found k with
    | (none, k) => .done (some .enolck) lckdat lst k
    | (some sf, k) =>
      .sleeps found.addr sf (amend Filock.addr found.addr (fun f =>
            { f with stat := f.stat.setWakeflg (f.stat.wakeflg + 1) }) lst) k

/-- The case `F_RDLCK`, `F_WRLCK` of the loop. -/
def reclockSet (t : Tune) (u : Renv) (cmd : Cmd) (lckdat : Flock)
    (lst : List Filock) (k : Kern) : Pass :=
  match blocked u lst lckdat with
  | (none, insrt) =>
    let clean (lckdat : Flock) (k : Kern) :=
      if cmd.rcmdlck && cmd.slpflck then cleanslp lckdat k else k
    if cmd.setflck then
      let (retval, a) := flckadj t lst insrt lckdat k
      .done retval a.ld a.lst (clean a.ld a.k)
    else
      let lckdat := { lckdat with lType := .unlck }
      .done none lckdat lst (clean lckdat k)
  | (some found, _) =>
    if cmd.slpflck then
      match deadflck (k.sleeplcks.length + 1) k.sleeplcks found.owner
          lckdat.owner with
      | none => .hangs
      | some true => .done (some .edeadlk) lckdat lst k
      | some false => waitFor t cmd lckdat found lst k
    else if cmd.setflck then .done (some .eagain) lckdat lst k
    else .done none found.set lst k

/-- The case `F_UNLCK` of the loop. -/
def reclockUnlck (t : Tune) (u : Renv) (cmd : Cmd) (lckdat : Flock)
    (lst : List Filock) (k : Kern) : Pass :=
  let clean (lckdat : Flock) (k : Kern) :=
    if cmd.rcmdlck then cleanslp lckdat k else k
  if cmd.setflck then
    let (retval, a) := flckadj t lst (lst.head?.map Filock.addr) lckdat k
    .done retval a.ld a.lst (clean a.ld a.k)
  else
    let lckdat :=
      if u.virtualXout && u.isFcntl then
        match (blocked u lst lckdat).1 with
        | none => lckdat
        | some found => found.set
      else lckdat
    .done none lckdat lst (clean lckdat k)

def reclockPass (t : Tune) (u : Renv) (cmd : Cmd) (lckdat : Flock)
    (lst : List Filock) (k : Kern) : Pass :=
  match lckdat.lType with
  | .rdlck => reclockSet t u cmd lckdat lst k
  | .wrlck => reclockSet t u cmd lckdat lst k
  | .unlck => reclockUnlck t u cmd lckdat lst k
  | .bad => .done (some .einval) lckdat lst k

/-- `reclock` up to its return or to the place where it sleeps. -/
def reclock (t : Tune) (q : Request) (lst : List Filock) (k : Kern) : Pass :=
  match reclockEnter q with
  | .error e => .done (some e) q.lckdat lst k
  | .ok lckdat =>
    match reclockPass t q.renv q.cmd lckdat lst k with
    | .done r lckdat lst k => .done r (restoreLen lckdat) lst k
    | p => p

/-!
## Processes
-/

/-- A process inside `reclock`: its request and what it sleeps on. -/
structure Sleeper where
  vp : Nat
  lckdat : Flock
  cmd : Cmd
  renv : Renv
  chan : Nat
  sf : Nat
deriving DecidableEq, Repr

inductive PState where
  | running
  | asleep (sl : Sleeper)
  /-- woken by `wakeprocs` or, with `intr`, by a signal -/
  | runnable (intr : Bool) (sl : Sleeper)
deriving DecidableEq, Repr

structure Sys where
  filocks : Nat → List Filock
  k : Kern
  procs : Owner → PState

def Sys.initial (s : Sys) : Prop :=
  (∀ vp, s.filocks vp = []) ∧ s.k.sleeplcks = [] ∧ s.k.wakeups = [] ∧
    s.k.reccnt = 0 ∧ ∀ o, s.procs o = .running

inductive Event where
  /-- a process calls `reclock` for itself -/
  | call (o : Owner) (q : Request)
  /-- a request with `RCMDLCK`, in the name of any owner -/
  | remote (q : Request)
  | signal (o : Owner)
  /-- a process runs again behind `SLEEP` -/
  | resume (o : Owner)
  | cleanlocks (vp : Nat) (pid sysid : Int)

/-- The request of process `o` carries its own identification. -/
def Request.by (q : Request) (o : Owner) : Request :=
  { q with lckdat := { q.lckdat with lPid := o.pid, lSysid := o.sysid } }

/-- Behind `SLEEP`: the sleeping lock is cleared and deleted. -/
def awake (sf : Nat) (k : Kern) : Kern :=
  match k.sleeplcks.find? (fun f => f.addr = sf) with
  | none => k
  | some f => delSleeplck k { f with stat := { sysid := 0, pid := 0 } }

/-- `reclock` from `SLEEP` on; the loop continues unless interrupted. -/
def reclockResume (t : Tune) (intr : Bool) (sl : Sleeper) (lst : List Filock)
    (k : Kern) : Pass :=
  let p :=
    if intr then .done (some .eintr) sl.lckdat lst (awake sl.sf k)
    else reclockPass t sl.renv sl.cmd sl.lckdat lst (awake sl.sf k)
  match p with
  | .done r lckdat lst k => .done r (restoreLen lckdat) lst k
  | p => p

def IGN_PID : Int := -1

/-- Clean up record locks left around by a process. -/
def cleanlocks (pid sysid : Int) (lst : List Filock) (k : Kern) :
    List Filock × Kern :=
  (lst.filter fun f =>
      (f.set.lPid == pid || pid == IGN_PID) && f.set.lSysid == sysid).foldl
    (fun a f => delflck a.1 f a.2) (lst, k)

/-- The pass of `reclock` that an event runs, with its vnode and owner. -/
def Sys.pass (t : Tune) (s : Sys) : Event → Option (Nat × Owner × Pass)
  | .call o q =>
    if s.procs o = .running ∧ q.cmd.rcmdlck = false then
      some (q.vp, o, reclock t (q.by o) (s.filocks q.vp) s.k)
    else none
  | .remote q =>
    if q.cmd.rcmdlck then
      some (q.vp, q.lckdat.owner, reclock t q (s.filocks q.vp) s.k)
    else none
  | .resume o =>
    match s.procs o with
    | .runnable intr sl =>
      some (sl.vp, o, reclockResume t intr sl (s.filocks sl.vp) s.k)
    | _ => none
  | _ => none

/-- The processes asleep on the addresses given to `wakeprocs` wake up. -/
def PState.settle (wakeups : List Nat) : PState → PState
  | .asleep sl => if sl.chan ∈ wakeups then .runnable false sl else .asleep sl
  | p => p

/-- The state after an operation on one lock list. -/
def Sys.update (s : Sys) (vp : Nat) (lst : List Filock) (k : Kern) : Sys :=
  { filocks := Function.update s.filocks vp lst
    k := { k with wakeups := [] }
    procs := fun o => (s.procs o).settle k.wakeups }

def Sys.setProc (s : Sys) (o : Owner) (p : PState) : Sys :=
  { s with procs := Function.update s.procs o p }

def Sleeper.of (s : Sys) (e : Event) (chan sf : Nat) :
    Option Sleeper :=
  match e with
  | .call o q =>
    match reclockEnter (q.by o) with
    | .ok lckdat => some ⟨q.vp, lckdat, q.cmd, q.renv, chan, sf⟩
    | .error _ => none
  | .resume o =>
    match s.procs o with
    | .runnable _ sl => some { sl with chan := chan, sf := sf }
    | _ => none
  | _ => none

def Sys.step (t : Tune) (s : Sys) (e : Event) : Option Sys :=
  match e with
  | .signal o =>
    match s.procs o with
    | .asleep sl => some (s.setProc o (.runnable true sl))
    | .runnable _ sl => some (s.setProc o (.runnable true sl))
    | .running => none
  | .cleanlocks vp pid sysid =>
    let c := cleanlocks pid sysid (s.filocks vp) s.k
    some (s.update vp c.1 c.2)
  | .remote _ =>
    match s.pass t e with
    | some (vp, _, .done _ _ lst k) => some (s.update vp lst k)
    | _ => none
  | _ =>
    match s.pass t e with
    | some (vp, o, .done _ _ lst k) =>
      some ((s.setProc o .running).update vp lst k)
    | some (vp, o, .sleeps chan sf lst k) =>
      (Sleeper.of s e chan sf).map fun sl =>
        (s.update vp lst k).setProc o (.asleep sl)
    | _ => none

def Sys.Step (t : Tune) (s : Sys) (e : Event) (s' : Sys) : Prop :=
  s.step t e = some s'

def Sys.Reachable (t : Tune) (s : Sys) : Prop :=
  Transition.Reachable Sys.initial (Sys.Step t) s

/-!
## Runs from an idle system
-/

def Sys.idle : Sys where
  filocks := fun _ => []
  k := { reccnt := 0, rectot := 0, zallocs := 0, sleeplcks := [], wakeups := [] }
  procs := fun _ => .running

def Sys.run (t : Tune) (s : Sys) : List Event → Option Sys
  | [] => some s
  | e :: rest => (s.step t e).bind fun s' => s'.run t rest

def Sys.after (t : Tune) (es : List Event) : Sys :=
  (Sys.idle.run t es).getD Sys.idle

theorem Sys.Reachable.run {t : Tune} {s s' : Sys} (hs : s.Reachable t)
    {es : List Event} (h : s.run t es = some s') : s'.Reachable t := by
  induction es generalizing s with
  | nil =>
    cases h
    exact hs
  | cons e rest ih =>
    rcases Option.bind_eq_some_iff.mp h with ⟨s₁, hstep, hrest⟩
    exact ih (Transition.Reachable.next hs hstep) hrest

theorem Sys.after_reachable (t : Tune) (es : List Event) : (Sys.after t es).Reachable t := by
  have hidle : Sys.idle.Reachable t :=
    Transition.Reachable.start ⟨fun _ => rfl, rfl, rfl, rfl, fun _ => rfl⟩
  unfold Sys.after
  cases h : Sys.idle.run t es with
  | none => exact hidle
  | some s => exact hidle.run h

/-- Enough memory and `n` records. -/
def Tune.records (n : Int) : Tune :=
  { tFlckrec := n, kmemZalloc := fun _ => true }

/-- A `fcntl` on a file open for reading and writing. -/
def Request.fcntl (ty : LckType) (lStart lLen : Int) (slpflck : Bool) :
    Request where
  vp := 0
  lckdat :=
    { lType := ty, lWhence := 0, lStart := lStart, lEnd := lLen, lSysid := 0,
      lPid := 0 }
  cmd := { inoflck := false, setflck := true, slpflck := slpflck, rcmdlck := false }
  fread := true
  fwrite := true
  offset := 0
  vaSize := .ok 0
  renv :=
    { virtualXout := false, isFcntl := true, isLocking := false,
      badvisePreSv := false }

end RecordLock
end Svr4
