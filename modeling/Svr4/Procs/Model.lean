import Svr4.Lib.Chain

/-!
# Process groups and pids

The pid structures of `os/pid.c`, the process groups of `os/pgrp.c`
and the sessions of `os/session.c`, with the system calls that use them.

Structures are known by their addresses, which the allocator chooses.  A null
pointer that is followed, and a walk that does not end, are faults.
-/

namespace Svr4
namespace Procs

open Function

def MAXPID : Nat := 30000

def HASHSZ : Nat := 64

/-!
## Structures
-/

/-- `p_stat`, as far as it matters; `sstop` is stopped by job control. -/
inductive Stat where
  | sidl
  | srun
  | sstop
  | szomb
deriving DecidableEq

structure Proc where
  pStat : Stat
  pPidp : Nat
  pPgidp : Option Nat
  pSessp : Option Nat
  pParent : Option Nat

structure Pid where
  pidPrinactive : Bool
  pidPgorphaned : Bool
  pidRef : Nat
  pidPrslot : Nat
  pidId : Nat
  pidPglink : Option Nat

structure Sess where
  sRef : Nat
  sSidp : Nat

/-- A directory entry of `/proc`. -/
inductive Procent where
  | proc (p : Nat)
  | next (pep : Option Nat)

structure Conf where
  vProc : Nat
  procSched : Nat
  procInit : Nat
  pid0 : Nat
  session0 : Nat

/-- The structures with their links; `pChild` is the chain of the children. -/
structure Tables where
  proc : Nat → Proc
  pPglink : Nat → Option Nat
  pChild : Nat → List Nat
  pid : Nat → Pid
  pidLink : Nat → Option Nat
  pidhash : Nat → Option Nat
  sess : Nat → Sess
  procdir : Nat → Procent
  procentfree : Option Nat
  practive : List Nat
  nproc : Nat
  mpid : Nat
  minpid : Nat

abbrev Fault (α : Type) := Except String α

namespace Tables

def setPid (v : Tables) (g : Nat) (x : Pid) : Tables :=
  { v with pid := update v.pid g x }

def setProc (v : Tables) (p : Nat) (x : Proc) : Tables :=
  { v with proc := update v.proc p x }

def pPid (v : Tables) (p : Nat) : Nat := (v.pid (v.proc p).pPidp).pidId

/-!
## Pid structures
-/

/--
The walk over a hash chain.  A process refers to at most three pid structures,
so a walk over more links would go on for ever.
-/
def pidSeek (v : Tables) (b : Nat) (p : Nat → Bool) : Fault (Option Nat) :=
  match Chain.seek v.pidLink p (3 * v.nproc) (v.pidhash b) with
  | some r => return r
  | none => throw "no end"

def pidLookup (v : Tables) (pid : Nat) : Fault (Option Nat) :=
  v.pidSeek (pid % HASHSZ) fun g => decide ((v.pid g).pidId = pid)

def pidHold (v : Tables) (g : Nat) : Tables :=
  v.setPid g { v.pid g with pidRef := (v.pid g).pidRef + 1 }

/-- `pid_rele`: the structure leaves its hash chain. -/
def pidUnhash (v : Tables) (g : Nat) : Fault Tables := do
  let b := (v.pid g).pidId % HASHSZ
  match ← v.pidSeek b fun x => decide (x = g) with
  | none => throw "pid_rele"
  | some _ =>
    match Chain.unlink v.pidLink (3 * v.nproc) (v.pidhash b) g with
    | none => throw "no end"
    | some (head, links) =>
      return { v with
        pidLink := links
        pidhash := update v.pidhash b head }

def pidRele (v : Tables) (g : Nat) : Fault Tables :=
  if 1 < (v.pid g).pidRef then
    return v.setPid g { v.pid g with pidRef := (v.pid g).pidRef - 1 }
  else v.pidUnhash g

def nextPid (v : Tables) (mpid : Nat) : Nat :=
  if mpid + 1 = MAXPID then v.minpid else mpid + 1

/-- The loop that looks for a pid that is not in use, in fewer than `MAXPID` turns. -/
def seekPid (v : Tables) : Nat → Nat → Fault Nat
  | 0, _ => throw "no end"
  | turns + 1, mpid => do
      match ← v.pidLookup (v.nextPid mpid) with
      | none => return v.nextPid mpid
      | some _ => v.seekPid turns (v.nextPid mpid)

/-- The structures that `pid_assign` sets up. -/
def enter (v : Tables) (mpid pep : Nat) (next : Option Nat) (prp pidp : Nat) :
    Tables :=
  { v with
    proc := update v.proc prp ⟨.sidl, pidp, none, none, none⟩
    pPglink := update v.pPglink prp none
    pChild := update v.pChild prp []
    pid := update v.pid pidp ⟨false, false, 1, pep, mpid, none⟩
    pidLink := update v.pidLink pidp (v.pidhash (mpid % HASHSZ))
    pidhash := update v.pidhash (mpid % HASHSZ) (some pidp)
    procdir := update v.procdir pep (.proc prp)
    procentfree := next
    practive := prp :: v.practive
    nproc := v.nproc + 1
    mpid := mpid }

/--
`pid_assign`; `refused` says that the user has too many processes or
that there is no memory, and the new structures are at `prp` and
`pidp`.
-/
def pidAssign (c : Conf) (v : Tables) (nolast refused : Bool) (prp pidp : Nat) :
    Fault (Tables × Option Nat) :=
  if c.vProc - 1 ≤ v.nproc ∧ (v.nproc = c.vProc ∨ nolast) then return (v, none)
  else if refused then return (v, none)
  else do
    let mpid ← v.seekPid MAXPID v.mpid
    match v.procentfree with
    | none => throw "procentfree"
    | some pep =>
      match v.procdir pep with
      | .proc _ => throw "pe_next"
      | .next next => return (v.enter mpid pep next prp pidp, some mpid)

def pidSetmin (v : Tables) : Tables := { v with minpid := v.mpid + 1 }

def prfind (v : Tables) (pid : Nat) : Fault (Option Nat) := do
  match ← v.pidLookup pid with
  | none => return none
  | some g =>
    if (v.pid g).pidPrinactive then return none
    else
      match v.procdir (v.pid g).pidPrslot with
      | .proc p => return some p
      | .next _ => throw "pe_proc"

/-- `pgfind`: the first process of the group. -/
def pgfind (v : Tables) (pgid : Nat) : Fault (Option Nat) := do
  match ← v.pidLookup pgid with
  | none => return none
  | some g => return (v.pid g).pidPglink

/-!
## Process groups
-/

def pgSeek (v : Tables) (head : Option Nat) (p : Nat → Bool) : Fault (Option Nat) :=
  match Chain.seek v.pPglink p v.nproc head with
  | some r => return r
  | none => throw "no end"

def pglinked (v : Tables) (cp : Nat) : Bool :=
  match (v.proc cp).pParent with
  | none => false
  | some pp =>
    decide ((v.proc pp).pPgidp ≠ (v.proc cp).pPgidp) &&
      decide ((v.proc pp).pSessp = (v.proc cp).pSessp)

def setOrphaned (v : Tables) (g : Nat) (orphaned : Bool) : Tables :=
  v.setPid g { v.pid g with pidPgorphaned := orphaned }

/-- The part of `pgjoin` that puts the process on the list. -/
def pgPush (v : Tables) (p g : Nat) : Tables :=
  { v with
    pPglink := update v.pPglink p (v.pid g).pidPglink
    pid := update v.pid g { v.pid g with pidPglink := some p }
    proc := update v.proc p { v.proc p with pPgidp := some g } }

def pgjoin (v : Tables) (p g : Nat) : Tables :=
  match (v.pid g).pidPglink with
  | none =>
    let v := (v.pgPush p g).pidHold g
    v.setOrphaned g (!v.pglinked p)
  | some _ =>
    let v := v.pgPush p g
    if (v.pid g).pidPgorphaned && v.pglinked p then v.setOrphaned g false else v

/-- The part of `pgexit` that takes the process off the list. -/
def pgUnlink (v : Tables) (prp g : Nat) (head : Option Nat)
    (links : Nat → Option Nat) : Tables :=
  { v with
    pPglink := update links prp none
    pid := update v.pid g { v.pid g with pidPglink := head }
    proc := update v.proc prp { v.proc prp with pPgidp := none } }

def pgexit (v : Tables) (prp : Nat) : Fault Tables := do
  match (v.proc prp).pPgidp with
  | none => throw "p_pgidp"
  | some g =>
    match ← v.pgSeek (v.pid g).pidPglink fun p => decide (p = prp) with
    | none => throw "pgexit"
    | some _ =>
      match Chain.unlink v.pPglink v.nproc (v.pid g).pidPglink prp with
      | none => throw "no end"
      | some (head, links) =>
        let v := v.pgUnlink prp g head links
        if head = none then v.pidRele g
        else if (v.pid g).pidPgorphaned then return v
        else
          match ← v.pgSeek head v.pglinked with
          | some _ => return v
          | none => return v.setOrphaned g true

/-- The members of its group that `pgdetach` lets count. -/
def linkedBeside (v : Tables) (pp mp : Nat) : Bool :=
  decide (mp ≠ pp) && decide ((v.proc mp).pParent ≠ some pp) && v.pglinked mp

/--
The loop body of `pgdetach`; the result tells the groups that are sent
`SIGHUP` and `SIGCONT`.
-/
def pgdetachChild (pp : Nat) (r : Tables × List Nat) (cp : Nat) :
    Fault (Tables × List Nat) := do
  let v := r.1
  match (v.proc cp).pPgidp with
  | none => throw "p_pgidp"
  | some g =>
    if (v.pid g).pidPgorphaned then return r
    else
      match ← v.pgSeek (v.pid g).pidPglink (v.linkedBeside pp) with
      | some _ => return r
      | none =>
        let stopped ← v.pgSeek (v.pid g).pidPglink fun mp =>
          decide ((v.proc mp).pStat = .sstop)
        return (v.setOrphaned g true,
          if stopped = none then r.2 else r.2 ++ [g])

def pgdetach (v : Tables) (pp : Nat) : Fault (Tables × List Nat) :=
  (v.pChild pp).foldlM (pgdetachChild pp) (v, [])

def pgmembers (v : Tables) (pgid : Nat) : Fault Bool := do
  let head ← v.pgfind pgid
  let r ← v.pgSeek head fun p => decide (v.pPid p ≠ pgid)
  return r.isSome

/-!
## Sessions
-/

def sessHold (v : Tables) (sp : Option Nat) : Fault Tables :=
  match sp with
  | none => throw "p_sessp"
  | some s =>
    return { v with
      sess := update v.sess s { v.sess s with sRef := (v.sess s).sRef + 1 } }

/-- `SESS_RELE`, with `sess_rele`. -/
def sessRele (v : Tables) (sp : Option Nat) : Fault Tables :=
  match sp with
  | none => throw "p_sessp"
  | some s =>
    let v := { v with
      sess := update v.sess s { v.sess s with sRef := (v.sess s).sRef - 1 } }
    if 0 < (v.sess s).sRef then return v else v.pidRele (v.sess s).sSidp

/-- The new session of `sess_create` is at `sp`. -/
def sessCreate (v : Tables) (pp sp : Nat) : Fault Tables := do
  let v ← v.pgexit pp
  let v ← v.sessRele (v.proc pp).pSessp
  let g := (v.proc pp).pPidp
  let v := { v with sess := update v.sess sp ⟨1, g⟩ }
  let v := v.setProc pp { v.proc pp with pSessp := some sp }
  return (v.pgjoin pp g).pidHold g

/-!
## Processes
-/

/-- The part of `pid_exit` that frees the process and gives up its pid. -/
def pidFree (v : Tables) (prp : Nat) : Fault Tables := do
  let g := (v.proc prp).pPidp
  let v := v.setPid g { v.pid g with pidPrinactive := true }
  let v := { v with
    procdir := update v.procdir (v.pid g).pidPrslot (.next v.procentfree)
    procentfree := some (v.pid g).pidPrslot }
  let v ← v.pidRele g
  if prp ∈ v.practive then
    return { v with practive := v.practive.erase prp, nproc := v.nproc - 1 }
  else throw "practive"

def pidExit (v : Tables) (prp : Nat) : Fault Tables := do
  let v ← v.pgexit prp
  let v ← v.sessRele (v.proc prp).pSessp
  v.pidFree prp

/-- The new process is a child of `pp`. -/
def adopt (v : Tables) (pp cp : Nat) : Tables :=
  { v with
    proc := update v.proc cp { v.proc cp with pParent := some pp }
    pChild := update v.pChild pp (cp :: v.pChild pp) }

def newproc (c : Conf) (v : Tables) (nolast refused : Bool) (pp cp pidp : Nat) :
    Fault (Tables × Option Nat) := do
  match ← v.pidAssign c nolast refused cp pidp with
  | (v, none) => return (v, none)
  | (v, some newpid) =>
    let v := v.setProc cp { v.proc cp with pSessp := (v.proc pp).pSessp }
    let v ← v.sessHold (v.proc pp).pSessp
    match (v.proc pp).pPgidp with
    | none => throw "p_pgidp"
    | some g => return ((v.pgjoin cp g).adopt pp cp, some newpid)

/-- The children of an exiting process go to `proc_init`. -/
def disown (c : Conf) (v : Tables) (p : Nat) : Tables :=
  { v with
    proc := fun q =>
      if q ∈ v.pChild p then { v.proc q with pParent := some c.procInit } else v.proc q
    pChild := update (update v.pChild c.procInit (v.pChild p ++ v.pChild c.procInit)) p [] }

/-- The part of `exit` that matters here. -/
def exit (c : Conf) (v : Tables) (p : Nat) : Fault (Tables × List Nat) := do
  if v.pChild p = [] then
    return (v.setProc p { v.proc p with pStat := .szomb }, [])
  else
    let (v, signalled) ← v.pgdetach p
    let v := v.disown c p
    return (v.setProc p { v.proc p with pStat := .szomb }, signalled)

def freeproc (v : Tables) (p : Nat) : Fault Tables :=
  match (v.proc p).pParent with
  | none => throw "p_parent"
  | some q =>
    if p ∈ v.pChild q then
      { v with pChild := update v.pChild q ((v.pChild q).erase p) }.pidExit p
    else throw "p_sibling"

/-!
## System calls
-/

inductive Errno where
  | eperm
  | einval
  | esrch
  | eacces

def setpgrp (v : Tables) (p sp : Nat) : Fault Tables := do
  match (v.proc p).pSessp with
  | none => throw "p_sessp"
  | some s =>
    if (v.sess s).sSidp = (v.proc p).pPidp then return v
    else if ← v.pgmembers (v.pPid p) then return v
    else v.sessCreate p sp

def setsid (v : Tables) (p sp : Nat) : Fault (Tables × Option Errno) := do
  if (v.proc p).pPgidp = some (v.proc p).pPidp then return (v, some .eperm)
  else if ← v.pgmembers (v.pPid p) then return (v, some .eperm)
  else return (← v.sessCreate p sp, none)

/-- The process that `setpgid` is about. -/
def setpgidTarget (v : Tables) (execed : Bool) (u : Nat) (pid : Int) :
    Except Errno Nat :=
  if pid = 0 then return u
  else if pid < 0 ∨ MAXPID ≤ pid then throw .einval
  else if pid = v.pPid u then return u
  else
    match (v.pChild u).find? fun q => decide ((v.pPid q : Int) = pid) with
    | none => throw .esrch
    | some q =>
      if execed then throw .eacces
      else if (v.proc q).pSessp ≠ (v.proc u).pSessp then throw .eperm
      else return q

/-- The group that `setpgid` moves a process to; it may be its own group. -/
def setpgidGroup (v : Tables) (p : Nat) (pgid : Int) : Fault (Except Errno (Option Nat)) :=
  if pgid < 0 ∨ MAXPID ≤ pgid then return throw .einval
  else
    let pgid := if pgid = 0 then v.pPid p else pgid.toNat
    match (v.proc p).pPgidp with
    | none => throw "p_pgidp"
    | some g =>
      if (v.pid g).pidId = pgid then return return none
      else if v.pPid p = pgid then return return some (v.proc p).pPidp
      else do
        match ← v.pgfind pgid with
        | none => return throw .eperm
        | some q =>
          if (v.proc q).pSessp ≠ (v.proc p).pSessp then return throw .eperm
          else return return (v.proc q).pPgidp

/-- `execed` is `SEXECED` of the process. -/
def setpgid (v : Tables) (execed : Bool) (u : Nat) (pid pgid : Int) :
    Fault (Tables × Option Errno) := do
  match v.setpgidTarget execed u pid with
  | .error e => return (v, some e)
  | .ok p =>
    match (v.proc p).pSessp with
    | none => throw "p_sessp"
    | some s =>
      if (v.pid (v.sess s).sSidp).pidId = v.pPid p then return (v, some .eperm)
      else
        match ← v.setpgidGroup p pgid with
        | .error e => return (v, some e)
        | .ok none => return (v, none)
        | .ok (some g) =>
          let v ← v.pgexit p
          return (v.pgjoin p g, none)

end Tables

end Procs
end Svr4
