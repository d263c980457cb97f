import Svr4.Lib.NodeList

/-!
# File and record locking

The record lock list of a vnode, the system-wide record accounting, and the
list editing routines of `os/flock.c`: `insflck`, `delflck`,
`regflck`, `flckadj` and `blocked`.

A lock list is the list of its records in link order.  A record is known by its
address, and the addresses are serial numbers of the `kmem_zalloc` calls
that delivered them.
-/

namespace Svr4
namespace RecordLock

open NodeList

/-!
## Lock requests and records
-/

/-- Lock types; `bad` stands for every value that is none of the three. -/
inductive LckType where
  | rdlck
  | wrlck
  | unlck
  | bad
deriving DecidableEq, Repr

/-- `struct flock`.  `l_end` is a macro for the field `l_len`. -/
structure Flock where
  lType : LckType
  lWhence : Int
  lStart : Int
  lEnd : Int
  lSysid : Int
  lPid : Int
deriving DecidableEq, Repr

/-- A lock owner: `SAMEOWNER` compares process id and system id. -/
structure Owner where
  pid : Int
  sysid : Int
deriving DecidableEq, Repr

def Flock.owner (ld : Flock) : Owner :=
  { pid := ld.lPid, sysid := ld.lSysid }

/--
The union `stat`: the count `wakeflg` overlays the system id of the
pair `blk`.
-/
structure Stat where
  sysid : Int
  pid : Int
deriving DecidableEq, Repr

def Stat.wakeflg (stat : Stat) : Int := stat.sysid

def Stat.setWakeflg (stat : Stat) (n : Int) : Stat := { stat with sysid := n }

def Stat.blk (stat : Stat) : Owner := { pid := stat.pid, sysid := stat.sysid }

/-- `struct filock`, with the address of the record. -/
structure Filock where
  addr : Nat
  set : Flock
  stat : Stat
deriving DecidableEq, Repr

def Filock.owner (flp : Filock) : Owner := flp.set.owner

/-- `MAXEND`, the largest end of a record. -/
def MAXEND : Int := 0o17777777777

/-!
## Record accounting

`tune.t_flckrec` bounds the records in use.  The allocator is a parameter:
`kmemZalloc n` tells whether the call number `n` finds memory.
-/

structure Tune where
  tFlckrec : Int
  kmemZalloc : Nat → Bool

/--
The data the routines share: `flckinfo`, the sleeping locks, the number of
allocator calls so far, and the addresses handed to `wakeprocs`.
-/
structure Kern where
  reccnt : Int
  rectot : Int
  zallocs : Nat
  sleeplcks : List Filock
  wakeups : List Nat
deriving DecidableEq, Repr

def newFilock (addr : Nat) (lckdat : Flock) : Filock :=
  { addr := addr, set := lckdat, stat := { sysid := 0, pid := 0 } }

/--
Insert lock `lckdat` after the lock at `fl`, or at the head of the
list.  The result names the new record; `none` is the null pointer.
-/
def insflck (t : Tune) (lckList : List Filock) (lckdat : Flock)
    (fl : Option Nat) (k : Kern) : Option Nat × List Filock × Kern :=
  if k.reccnt ≥ t.tFlckrec then
    (none, lckList, k)
  else if t.kmemZalloc k.zallocs = false then
    (none, lckList, { k with zallocs := k.zallocs + 1 })
  else
    let new := newFilock k.zallocs lckdat
    (some new.addr, insertAfter Filock.addr fl new lckList,
      { k with
        reccnt := k.reccnt + 1
        rectot := k.rectot + 1
        zallocs := k.zallocs + 1 })

/-- The test in `WAKEUP`: sleepers on the record are made to run. -/
def wakeprocs (flp : Filock) (k : Kern) : Kern :=
  if flp.stat.wakeflg ≠ 0 then { k with wakeups := flp.addr :: k.wakeups }
  else k

/-- Delete the lock `fl` from the list and release its record. -/
def delflck (lckList : List Filock) (fl : Filock) (k : Kern) :
    List Filock × Kern :=
  (unlink Filock.addr fl.addr lckList, { wakeprocs fl k with reccnt := k.reccnt - 1 })

/-!
## Region types
-/

/-- Where a request starts, relative to an already locked section. -/
inductive StartType where
  | sBefore
  | sStart
  | sMiddle
  | sEnd
  | sAfter
deriving DecidableEq, Repr

/-- Where a request ends, relative to an already locked section. -/
inductive EndType where
  | eBefore
  | eStart
  | eMiddle
  | eEnd
  | eAfter
deriving DecidableEq, Repr

/-- The second half of `regflck`, which classifies the end. -/
def regflckEnd (ld : Flock) (flp : Filock) : EndType :=
  if ld.lEnd < flp.set.lEnd then
    if ld.lEnd = flp.set.lStart - 1 then .eStart
    else if ld.lEnd < flp.set.lStart then .eBefore
    else .eMiddle
  else if ld.lEnd = flp.set.lEnd then .eEnd
  else .eAfter

/-- Type of span of a request relative to a locked section. -/
def regflck (ld : Flock) (flp : Filock) : StartType × EndType :=
  if ld.lStart > flp.set.lStart then
    if ld.lStart - 1 = flp.set.lEnd then (.sEnd, .eAfter)
    else if ld.lStart > flp.set.lEnd then (.sAfter, .eAfter)
    else (.sMiddle, regflckEnd ld flp)
  else if ld.lStart = flp.set.lStart then (.sStart, regflckEnd ld flp)
  else (.sBefore, regflckEnd ld flp)

/-!
## Adjusting a lock list
-/

inductive Errno where
  | einval
  | ebadf
  | enolck
  | eagain
  | eintr
  | edeadlk
  | other (code : Nat)
deriving DecidableEq, Repr

/-- Return values; `none` is the value 0 of a successful call. -/
abbrev Retval := Option Errno

/-- What `flckadj` works on: the list, `insrtp`, `*ld`. -/
structure Adj where
  lst : List Filock
  insrtp : Option Nat
  ld : Flock
  k : Kern
deriving DecidableEq, Repr

inductive AdjStep where
  /-- `nflp` is the next lock -/
  | next (a : Adj)
  /-- `nflp` is set to `NULL` -/
  | stop (a : Adj)
  | ret (r : Retval) (a : Adj)
deriving DecidableEq, Repr

/-- `ld->l_start` is set. -/
def Adj.setStart (a : Adj) (x : Int) : Adj :=
  { a with ld := { a.ld with lStart := x } }

/-- `ld->l_end` is set. -/
def Adj.setEnd (a : Adj) (x : Int) : Adj :=
  { a with ld := { a.ld with lEnd := x } }

/-- Delete `flp` from the list. -/
def Adj.del (a : Adj) (flp : Filock) : Adj :=
  let d := delflck a.lst flp a.k
  { a with lst := d.1, k := d.2 }

/-- Let `insrtp` designate the lock before `flp`. -/
def Adj.backup (a : Adj) (flp : Filock) : Adj :=
  { a with insrtp := (prevOf Filock.addr flp.addr a.lst).map Filock.addr }

/-- The record cut down to a new end; its sleepers have been woken. -/
def Filock.cutTo (lEnd : Int) (f : Filock) : Filock :=
  { f with set := { f.set with lEnd := lEnd }, stat := f.stat.setWakeflg 0 }

/--
Cut `flp` off before the request, wake its sleepers, and let
`insrtp` designate it.
-/
def Adj.shrink (a : Adj) (flp : Filock) : Adj :=
  { a with
    lst := amend Filock.addr flp.addr (Filock.cutTo (a.ld.lStart - 1)) a.lst
    k := wakeprocs flp a.k
    insrtp := some flp.addr }

/-- The walk that finds the last lock starting before `start`. -/
def lastBefore (start : Int) (lst : List Filock) (p : Nat) : Option Nat :=
  walk Filock.addr (fun f => f.set.lStart < start) (fromNode Filock.addr p lst) (some p)

/-- The common end of the three cases in which the request ends inside `flp`. -/
def Adj.split (t : Tune) (a : Adj) (flp : Filock)
    (regtyp : StartType × EndType) : AdjStep :=
  let td : Flock := { flp.set with lStart := a.ld.lEnd + 1 }
  let tdi := lastBefore td.lStart a.lst flp.addr
  match insflck t a.lst td tdi a.k with
  | (none, lst, k) => .ret (some .enolck) { a with lst := lst, k := k }
  | (some _, lst, k) =>
    let a := { a with lst := lst, k := k }
    if regtyp = (.sMiddle, .eMiddle) then .stop (a.shrink flp)
    else .stop (a.del flp)

/-- One lock of the requesting owner met by the loop of `flckadj`. -/
def flckadjCase (t : Tune) (flp : Filock) (a : Adj) : AdjStep :=
  match regflck a.ld flp with
  | (.sBefore, .eBefore) => .stop a
  | (.sBefore, .eStart) =>
    if a.ld.lType = flp.set.lType then
      .stop ((a.setEnd flp.set.lEnd).del flp)
    else .stop a
  | (.sStart, .eEnd) =>
    if a.ld.lType = flp.set.lType then .ret none a else .next ((a.backup flp).del flp)
  | (.sStart, .eAfter) => .next ((a.backup flp).del flp)
  | (.sBefore, .eEnd) =>
    if a.ld.lType = flp.set.lType then .stop (a.del flp) else .next (a.del flp)
  | (.sBefore, .eAfter) => .next (a.del flp)
  | (.sStart, .eMiddle) =>
    if a.ld.lType = flp.set.lType then .ret none (a.backup flp)
    else (a.backup flp).split t flp (.sStart, .eMiddle)
  | (.sMiddle, .eMiddle) =>
    if a.ld.lType = flp.set.lType then .ret none a else a.split t flp (.sMiddle, .eMiddle)
  | (.sBefore, .eMiddle) =>
    if a.ld.lType = flp.set.lType then
      .stop ((a.setEnd flp.set.lEnd).del flp)
    else a.split t flp (.sBefore, .eMiddle)
  | (.sMiddle, .eEnd) =>
    if a.ld.lType = flp.set.lType then .ret none a else .next (a.shrink flp)
  | (.sMiddle, .eAfter) =>
    if a.ld.lType = flp.set.lType then
      .next (((a.setStart flp.set.lStart).backup flp).del flp)
    else .next (a.shrink flp)
  | (.sEnd, .eAfter) =>
    if a.ld.lType = flp.set.lType then
      .next (((a.setStart flp.set.lStart).backup flp).del flp)
    else .next a
  | (.sAfter, .eAfter) => .next { a with insrtp := some flp.addr }
  | _ => .next a

def flckadjStep (t : Tune) (flp : Filock) (a : Adj) : AdjStep :=
  if flp.owner = a.ld.owner then flckadjCase t flp a else .next a

/--
The loop of `flckadj`.  `nflp` is read before `flp` is edited,
and an iteration that edits a later part of the list is the last one, so the
locks the loop visits are those of the list it started with.
-/
def flckadjLoop (t : Tune) : List Filock → Adj → AdjStep
  | [], a => .stop a
  | flp :: rest, a =>
    match flckadjStep t flp a with
    | .next a' => flckadjLoop t rest a'
    | .stop a' => .stop a'
    | .ret r a' => .ret r a'

/-- The lock behind which the new lock goes: the search from `insrtp`. -/
def Adj.place (a : Adj) : Option Nat :=
  match a.insrtp with
  | none => none
  | some p => lastBefore a.ld.lStart a.lst p

/-- The new lock is put into its place, unless the request is an unlock. -/
def flckadjInsert (t : Tune) (a : Adj) : Retval × Adj :=
  if a.ld.lType ≠ .unlck then
    match insflck t a.lst a.ld a.place a.k with
    | (none, lst, k) =>
      (some .enolck, { a with lst := lst, k := k, insrtp := a.place })
    | (some _, lst, k) =>
      (none, { a with lst := lst, k := k, insrtp := a.place })
  else (none, a)

/-- Adjust the lock list to the region specified by `ld`. -/
def flckadj (t : Tune) (lckList : List Filock) (insrtp : Option Nat)
    (ld : Flock) (k : Kern) : Retval × Adj :=
  let nflp := match insrtp with
    | none => lckList
    | some p => fromNode Filock.addr p lckList
  match flckadjLoop t nflp { lst := lckList, insrtp := insrtp, ld := ld, k := k } with
  | .next a => flckadjInsert t a
  | .stop a => flckadjInsert t a
  | .ret r a => (r, a)

/-!
## Finding a blocking lock
-/

/-- The process flags of `u.u_renv` that the XENIX support looks at. -/
structure Renv where
  virtualXout : Bool
  isFcntl : Bool
  isLocking : Bool
  badvisePreSv : Bool
deriving DecidableEq, Repr

def xenixCompat (u : Renv) (lckdat : Flock) : Bool :=
  ((u.virtualXout && u.isFcntl) && lckdat.lType == .unlck) || u.badvisePreSv

/-- The types of a set lock and of a request that exclude one another. -/
def typesConflict (u : Renv) (f : Filock) (lckdat : Flock) : Bool :=
  f.set.lType == .wrlck || (xenixCompat u lckdat && u.isLocking) ||
    (f.set.lType == .rdlck && lckdat.lType == .wrlck)

/-- The second loop of `blocked`. -/
def blockedFrom (u : Renv) (lckdat : Flock) : List Filock → Option Filock
  | [] => none
  | f :: rest =>
    if lckdat.lEnd < f.set.lStart then none
    else if lckdat.lStart ≤ f.set.lEnd ∧ f.owner ≠ lckdat.owner ∧
        typesConflict u f lckdat then some f
    else blockedFrom u lckdat rest

/-- The first loop of `blocked`, which keeps `insrt` and leaves the rest. -/
def blockedScan (u : Renv) (lckdat : Flock) :
    List Filock → Option Nat → Option Filock × Option Nat
  | [], insrt => (none, insrt)
  | f :: rest, insrt =>
    if f.set.lStart < lckdat.lStart then
      if f.owner = lckdat.owner then
        if lckdat.lStart - 1 ≤ f.set.lEnd then
          (blockedFrom u lckdat (f :: rest), some f.addr)
        else blockedScan u lckdat rest (some f.addr)
      else if lckdat.lStart ≤ f.set.lEnd ∧ typesConflict u f lckdat then
        (some f, some f.addr)
      else blockedScan u lckdat rest (some f.addr)
    else (blockedFrom u lckdat (f :: rest), insrt)

/-- A lock of another owner that blocks a request, and `*insrt`. -/
def blocked (u : Renv) (flp : List Filock) (lckdat : Flock) :
    Option Filock × Option Nat :=
  blockedScan u lckdat flp none

end RecordLock
end Svr4
