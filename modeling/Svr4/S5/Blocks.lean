import Mathlib.Data.Finset.Update
import Mathlib.Order.Interval.Finset.Nat
import Svr4.Lib.Transition

/-!
# Free blocks of an S5 file system

The superblock holds up to `NICFREE` free blocks, as a stack.  Its lowest entry is
a block that itself holds the next ones, and so on; the last of these holds zero there.
`blkalloc` and `blkfree` hold `s_flock` while they read or write such a
block.  `blkfree` may also sleep for an old buffer of the block, without the lock.
-/

namespace Svr4
namespace S5

open Function Transition

/-!
## Superblock and link blocks
-/

def NICFREE : Nat := 50

/-- A block that holds free blocks. -/
structure Fblk where
  dfNfree : Nat
  dfFree : Nat → Nat

/-- The superblock, as far as free blocks are concerned. -/
structure FreeList where
  sIsize : Nat
  sFsize : Nat
  sNfree : Nat
  sFree : Nat → Nat
  sFlock : Nat
  sTfree : Nat

/-- Who is asleep with the lock: `blkalloc` that reads a block, or `blkfree` that
is about to write one. -/
inductive Holder where
  | nobody
  | reading (bno : Nat)
  | spilling (bno : Nat)
deriving DecidableEq

/-- The file system, the calls that are asleep, and the blocks that callers hold. -/
structure BlockSys where
  fs : FreeList
  disk : Nat → Fblk
  holder : Holder
  freeing : Finset Nat
  held : Finset Nat

inductive AllocResult where
  | allocated (bno : Nat)
  | noSpace
deriving DecidableEq

namespace FreeList

def badblock (fs : FreeList) (bn : Nat) : Bool := decide (bn < fs.sIsize ∨ bn ≥ fs.sFsize)

/-- `blkalloc` takes entries, of which there are `n`, while they are bad. -/
def pop (fs : FreeList) : Nat → Option (Nat × Nat)
  | 0 => none
  | n + 1 =>
    if fs.sFree n = 0 then none
    else if fs.badblock (fs.sFree n) then fs.pop n
    else some (fs.sFree n, n)

def push (fs : FreeList) (bno : Nat) : FreeList :=
  { fs with
    sFree := update fs.sFree fs.sNfree bno
    sNfree := fs.sNfree + 1
    sTfree := fs.sTfree + 1 }

end FreeList

/-- `bcopy` of an array of `NICFREE` entries. -/
def bcopyFree (source target : Nat → Nat) : Nat → Nat := fun i =>
  if i < NICFREE then source i else target i

/-!
## Allocating and freeing
-/

namespace BlockSys

def nospace (s : BlockSys) : BlockSys × Option AllocResult :=
  ({ s with fs := { s.fs with sNfree := 0, sTfree := 0 } }, some .noSpace)

/-- `blkalloc`, when a block is taken and there are entries again. -/
def allocFinish (s : BlockSys) (bno : Nat) : BlockSys × Option AllocResult :=
  if s.fs.sNfree ≤ 0 ∨ s.fs.sNfree > NICFREE then s.nospace
  else
    ({ s with
      fs := { s.fs with sTfree := if s.fs.sTfree ≠ 0 then s.fs.sTfree - 1 else s.fs.sTfree }
      held := insert bno s.held }, some (.allocated bno))

/-- `blkalloc`, when nobody has the lock. -/
def blkalloc (s : BlockSys) : BlockSys × Option AllocResult :=
  match s.fs.pop s.fs.sNfree with
  | none => s.nospace
  | some (bno, n) =>
    let fs := { s.fs with sNfree := n }
    if n ≤ 0 then
      ({ s with fs := { fs with sFlock := fs.sFlock + 1 }, holder := .reading bno }, none)
    else ({ s with fs := fs } : BlockSys).allocFinish bno

/-- `blkalloc`, when the read of a block is done. -/
def readDone (s : BlockSys) (bno : Nat) (ok : Bool) : BlockSys × Option AllocResult :=
  let fs :=
    if ok then
      { s.fs with
        sNfree := (s.disk bno).dfNfree
        sFree := bcopyFree (s.disk bno).dfFree s.fs.sFree }
    else s.fs
  ({ s with fs := { fs with sFlock := 0 }, holder := .nobody } : BlockSys).allocFinish bno

/-- `blkfree`, when nobody has the lock; the block may have an old buffer. -/
def blkfree (s : BlockSys) (bno : Nat) (incore : Bool) : BlockSys :=
  let s := { s with held := s.held.erase bno }
  if s.fs.badblock bno then s
  else
    let fs :=
      if s.fs.sNfree ≤ 0 then
        { s.fs with sNfree := 1, sFree := update s.fs.sFree 0 0 }
      else s.fs
    if fs.sNfree ≥ NICFREE then
      { s with fs := { fs with sFlock := fs.sFlock + 1 }, holder := .spilling bno }
    else if incore then { s with fs := fs, freeing := insert bno s.freeing }
    else { s with fs := fs.push bno }

/-- `blkfree`, when it has a buffer into which the entries are written. -/
def spillDone (s : BlockSys) (bno : Nat) : BlockSys :=
  let block :=
    { dfNfree := s.fs.sNfree, dfFree := bcopyFree s.fs.sFree (s.disk bno).dfFree }
  { s with
    disk := update s.disk bno block
    fs := ({ s.fs with sNfree := 0, sFlock := 0 } : FreeList).push bno
    holder := .nobody }

/-- `blkfree`, when it has the old buffer of the block. -/
def resume (s : BlockSys) (bno : Nat) : BlockSys :=
  { s with fs := s.fs.push bno, freeing := s.freeing.erase bno }

end BlockSys

/-!
## Runs
-/

inductive BlockEvent where
  | blkalloc
  | readDone (ok : Bool)
  | blkfree (bno : Nat) (incore : Bool)
  | spillDone
  | resume (bno : Nat)
  | write (bno : Nat) (data : Fblk)

namespace BlockSys

/-- What happens between two points where a call sleeps; calls begin without the lock taken. -/
def exec (s : BlockSys) : BlockEvent → Option (BlockSys × Option AllocResult)
  | .blkalloc => if s.fs.sFlock = 0 then some s.blkalloc else none
  | .readDone ok =>
    match s.holder with
    | .reading bno => some (s.readDone bno ok)
    | _ => none
  | .blkfree bno incore =>
    if s.fs.sFlock = 0 ∧ bno ∈ s.held then some (s.blkfree bno incore, none) else none
  | .spillDone =>
    match s.holder with
    | .spilling bno => some (s.spillDone bno, none)
    | _ => none
  | .resume bno => if bno ∈ s.freeing then some (s.resume bno, none) else none
  | .write bno data =>
    if bno ∈ s.held then some ({ s with disk := update s.disk bno data }, none)
    else none

def Step (s : BlockSys) (e : BlockEvent) (s' : BlockSys) : Prop :=
  ∃ r, s.exec e = some (s', r)

/-- A block that is neither held nor being freed; one that `blkalloc` took is free until
it returns. -/
def IsFree (s : BlockSys) (bno : Nat) : Prop :=
  s.fs.sIsize ≤ bno ∧ bno < s.fs.sFsize ∧ bno ∉ s.held ∧ bno ∉ s.freeing ∧ s.holder ≠ .spilling bno

instance (s : BlockSys) (bno : Nat) : Decidable (s.IsFree bno) :=
  inferInstanceAs (Decidable (_ ∧ _ ∧ _ ∧ _ ∧ _))

def freeBlocks (s : BlockSys) : Finset Nat :=
  (Finset.range s.fs.sFsize).filter fun bno => s.IsFree bno

end BlockSys

end S5
end Svr4
