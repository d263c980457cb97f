import Svr4.Lib.Chain
import Svr4.Lib.Transition

/-!
# STREAMS message blocks

Message blocks, data blocks and the routines of `io/stream.c` that
allocate, duplicate, copy and free them: `allocb`, `esballoc`,
`dupb`, `dupmsg`, `copyb`, `pullupmsg`, `freeb` and
`freemsg`, with `xmdballoc` and `xmsgalloc` of
`os/strsubr.c`.

A message block header is known by a number.  It is the header of a triplet
(`struct mdbblock`) or stands alone.  The data block of a triplet has the
number of the triplet, so that the casts between the two are the identity.  The
lists of free headers, threaded through `b_next` in the source, are lists.
-/

namespace Svr4
namespace Messages

open Function

/-!
## Structures
-/

def M_DATA : Nat := 0x00

def sizeofMdbblock : Nat := 128
def sizeofMbinfo : Nat := 36
def sizeofDbinfo : Nat := 28

def FASTBUF : Nat := sizeofMdbblock - sizeofMbinfo - sizeofDbinfo

/-- A message block header, without the links of queues. -/
structure Msgb where
  bCont : Option Nat
  bRptr : Nat
  bWptr : Nat
  bDatap : Nat
  bBand : Nat
  bFlag : Nat
  bRptr_le : bRptr ≤ bWptr

/-- The state of a triplet, in `db_iswhat`. -/
inductive Iswhat where
  /-- `_MDBBLK`: both headers are valid -/
  | mdbblk
  /-- `_NOT_M`: the message header is not valid -/
  | notM
  /-- `_NOT_D`: the data header is not valid -/
  | notD
  /-- `_XCONN`: both are valid, and the message header has other data -/
  | xconn
deriving DecidableEq

/-- A `free_rtn` structure: a routine, if any, and its argument. -/
structure FreeRtn where
  freeFunc : Option Nat
  freeArg : Nat
deriving DecidableEq

structure Datab where
  dbFrtnp : Option FreeRtn
  dbBase : Nat
  dbLim : Nat
  dbRef : Nat
  dbType : Nat
  dbIswhat : Iswhat
  dbSize : Nat
  dbMsgaddr : Nat

inductive Buffer where
  /-- it is the buffer of the triplet -/
  | fast
  | kmemFree (base size : Nat)
  | freeFunc (rtn : FreeRtn)
deriving DecidableEq

/-- Events in the life of a data block, as they are logged. -/
inductive Entry where
  | taken (dbp : Nat)
  | released (dbp : Nat) (buffer : Buffer)
  /-- `pullupmsg` gives the data block another buffer -/
  | replaced (dbp : Nat) (buffer : Buffer)
deriving DecidableEq

structure Pool where
  msgb : Nat → Msgb
  datab : Nat → Datab
  /-- the address of the buffer of a triplet -/
  databuf : Nat → Nat
  mem : Nat → Nat
  mdbfreelist : List Nat
  msgfreelist : List Nat
  /-- the triplets that `xmdballoc` has obtained -/
  mdbs : List Nat
  /-- the headers that `xmsgalloc` has obtained -/
  msgs : List Nat
  /-- what the calls of `kmem_alloc` and `kmem_zalloc` will return -/
  kmem : List (Option Nat)
  log : List Entry

def uchar (x : Int) : Nat := (x % 256).toNat

def sint (x : Int) : Int := (x + 2147483648) % 4294967296 - 2147483648

def strAligned (p : Nat) : Bool := p % 4 = 0

def straln (p : Nat) : Nat := p - p % 4

namespace Pool

/-!
## Fields
-/

def setMsgb (p : Pool) (bp : Nat) (x : Msgb) : Pool :=
  { p with msgb := update p.msgb bp x }

def setDatab (p : Pool) (dbp : Nat) (x : Datab) : Pool :=
  { p with datab := update p.datab dbp x }

def setCont (p : Pool) (bp : Nat) (c : Option Nat) : Pool :=
  p.setMsgb bp { p.msgb bp with bCont := c }

def setIswhat (p : Pool) (t : Nat) (w : Iswhat) : Pool :=
  p.setDatab t { p.datab t with dbIswhat := w }

def setRef (p : Pool) (dbp : Nat) (ref : Int) : Pool :=
  p.setDatab dbp { p.datab dbp with dbRef := uchar ref }

def note (p : Pool) (e : Entry) : Pool := { p with log := p.log ++ [e] }

def cont (p : Pool) (bp : Nat) : Option Nat := (p.msgb bp).bCont

def datap (p : Pool) (bp : Nat) : Nat := (p.msgb bp).bDatap

/-- `b_wptr - b_rptr` -/
def size (p : Pool) (bp : Nat) : Nat := (p.msgb bp).bWptr - (p.msgb bp).bRptr

def nhdr (p : Pool) : Nat := p.mdbs.length + p.msgs.length

def bcopy (p : Pool) (src dst n : Nat) : Pool :=
  { p with mem := fun a =>
      if dst ≤ a ∧ a < dst + n then p.mem (a - dst + src) else p.mem a }

/-!
## Free lists
-/

def freeMdbblock (p : Pool) (t : Nat) : Pool :=
  { p with mdbfreelist := t :: p.mdbfreelist }

def freeMsgblock (p : Pool) (bp : Nat) : Pool :=
  { p with msgfreelist := bp :: p.msgfreelist }

def kmemAlloc (p : Pool) (size : Nat) : Option Nat × Pool :=
  if size = 0 then (none, p)
  else match p.kmem with
    | [] => (none, p)
    | r :: rest => (r, { p with kmem := rest })

def zeroMdbblock (p : Pool) (addr : Nat) : Pool :=
  let t := p.nhdr
  { p with
    mdbs := t :: p.mdbs
    databuf := update p.databuf t (addr + sizeofMbinfo + sizeofDbinfo)
    msgb := update p.msgb t ⟨none, 0, 0, 0, 0, 0, Nat.le_refl 0⟩
    datab := update p.datab t ⟨none, 0, 0, 0, 0, .mdbblk, 0, 0⟩ }

def xmdballoc (p : Pool) : Option Nat × Pool :=
  match p.kmemAlloc sizeofMdbblock with
  | (none, p) => (none, p)
  | (some addr, p) => (some p.nhdr, p.zeroMdbblock addr)

def xmsgalloc (p : Pool) : Option Nat × Pool :=
  match p.kmemAlloc sizeofMbinfo with
  | (none, p) => (none, p)
  | (some _, p) =>
    (some p.nhdr, { p with
      msgs := p.nhdr :: p.msgs
      msgb := update p.msgb p.nhdr ⟨none, 0, 0, 0, 0, 0, Nat.le_refl 0⟩ })

/-- A triplet, from the free list if there is one. -/
def takeMdbblock (p : Pool) : Option Nat × Pool :=
  match p.mdbfreelist with
  | t :: rest => (some t, { p with mdbfreelist := rest })
  | [] => p.xmdballoc

def takeMsgblock (p : Pool) : Option Nat × Pool :=
  match p.msgfreelist with
  | bp :: rest => (some bp, { p with msgfreelist := rest })
  | [] => p.xmsgalloc

/-!
## Allocation
-/

/-- The headers of a triplet as `allocb` sets them up. -/
def initMdbblock (p : Pool) (t : Nat) : Pool :=
  (p.setMsgb t { p.msgb t with
    bCont := none, bDatap := t, bBand := 0, bFlag := 0 }).setDatab t
    { p.datab t with
      dbFrtnp := none, dbRef := 1, dbType := M_DATA, dbIswhat := .mdbblk
      dbMsgaddr := t }

/-- The buffer of a triplet, with the data block and the message block. -/
def setBuffer (p : Pool) (t base size lim : Nat) : Pool :=
  (p.setMsgb t { p.msgb t with
    bRptr := base, bWptr := base, bRptr_le := Nat.le_refl base }).setDatab t
    { p.datab t with dbBase := base, dbSize := size, dbLim := lim }

def uint (x : Int) : Nat := (x % 4294967296).toNat

def allocb (p : Pool) (size : Int) : Option Nat × Pool :=
  match p.takeMdbblock with
  | (none, p) => (none, p)
  | (some t, p) =>
    let p := p.initMdbblock t
    if (FASTBUF : Int) < size then
      match p.kmemAlloc size.toNat with
      | (none, p) => (none, p.freeMdbblock t)
      | (some buf, p) =>
        (some t, (p.setBuffer t buf size.toNat (buf + size.toNat)).note (.taken t))
    else
      (some t, (p.setBuffer t (p.databuf t) (if size = 0 then 4 else uint size)
        (p.databuf t + FASTBUF)).note (.taken t))

/-- A data block for a buffer of the caller; 0 is the null pointer. -/
def esballoc (p : Pool) (base size : Nat) (frRtn : Option FreeRtn) :
    Option Nat × Pool :=
  if base = 0 ∨ frRtn = none then (none, p)
  else match p.allocb (-1) with
    | (none, p) => (none, p)
    | (some mp, p) =>
      let d := p.datap mp
      let p := p.setDatab d { p.datab d with
        dbFrtnp := frRtn, dbBase := base, dbLim := base + size, dbSize := size }
      (some mp, p.setMsgb mp { p.msgb mp with
        bRptr := base, bWptr := base, bRptr_le := Nat.le_refl base })

/-!
## Freeing
-/

/-- The buffer of a data block, as it is released. -/
def buffer (p : Pool) (dbp : Nat) : Buffer :=
  let d := p.datab dbp
  if p.databuf dbp = d.dbBase then .fast
  else match d.dbFrtnp with
    | none => .kmemFree d.dbBase (d.dbLim - d.dbBase)
    | some rtn => .freeFunc rtn

/-- The part of `freeb` that gives up the message block. -/
def freeHeader (p : Pool) (bp : Nat) : Pool :=
  if (p.datab (p.datap bp)).dbMsgaddr ≠ bp then p.freeMsgblock bp
  else if (p.datab bp).dbIswhat = .notD then p.freeMdbblock bp
  else p.setIswhat bp .notM

/-- The part of `freeb` that gives up a reference to the data block. -/
def freeData (p : Pool) (dbp : Nat) : Pool :=
  let p := p.setRef dbp ((p.datab dbp).dbRef - 1)
  if 0 < (p.datab dbp).dbRef then p
  else
    let p := p.note (.released dbp (p.buffer dbp))
    if (p.datab dbp).dbIswhat = .notM then p.freeMdbblock dbp
    else p.setIswhat dbp .notD

/-- `freeb`, and the macro `_FREEB`, which does the same. -/
def freeb (p : Pool) (bp : Nat) : Pool :=
  (p.freeHeader bp).freeData (p.datap bp)

/-- `freemsg`; there is no result where the message has no end. -/
def freemsgLoop : Nat → Pool → Option Nat → Option Pool
  | _, p, none => some p
  | 0, _, some _ => none
  | fuel + 1, p, some bp => freemsgLoop fuel (p.freeb bp) (p.cont bp)

def freemsg (p : Pool) (bp : Option Nat) : Option Pool :=
  freemsgLoop p.nhdr p bp

/-!
## Duplicates and copies
-/

/-- A header connected to the data block of `bp`, like `bp`. -/
def connect (p : Pool) (nbp bp : Nat) : Pool :=
  let d := p.datap bp
  let p := p.setRef d ((p.datab d).dbRef + 1)
  p.setMsgb nbp { p.msgb bp with bCont := none }

def dupb (p : Pool) (bp : Nat) : Option Nat × Pool :=
  if (p.datab (p.datap bp)).dbRef = 255 then (none, p)
  else match p.takeMsgblock with
    | (none, p) => (none, p)
    | (some nbp, p) => (some nbp, p.connect nbp bp)

/-- The macro `_DUPB`. -/
def dupbMacro (p : Pool) (bp : Nat) : Option Nat × Pool :=
  match p.msgfreelist with
  | [] => p.dupb bp
  | nbp :: rest => (some nbp, { p with msgfreelist := rest }.connect nbp bp)

/-- The loop of `dupmsg`; `nbp` is the duplicate of `bp`. -/
def dupmsgLoop (head : Nat) : Nat → Pool → Nat → Nat → Option (Option Nat × Pool)
  | fuel, p, nbp, bp =>
    match p.cont bp, fuel with
    | none, _ => some (some head, p)
    | some _, 0 => none
    | some c, fuel + 1 =>
      match p.dupbMacro c with
      | (none, p) => do
          let p ← (p.setCont nbp none).freemsg (some head)
          return (none, p)
      | (some n, p) =>
        dupmsgLoop head fuel (p.setCont nbp (some n)) n c

def dupmsg (p : Pool) (bp : Option Nat) : Option (Option Nat × Pool) :=
  match bp with
  | none => some (none, p)
  | some bp =>
    match p.dupbMacro bp with
    | (none, p) => some (none, p)
    | (some head, p) => dupmsgLoop head p.nhdr p head bp

def copyb (p : Pool) (bp : Nat) : Option Nat × Pool :=
  let x := p.msgb bp
  let d := p.datab (p.datap bp)
  match p.allocb (d.dbLim - d.dbBase) with
  | (none, p) => (none, p)
  | (some nbp, p) =>
    let ndp := p.datap nbp
    let p := p.setDatab ndp { p.datab ndp with dbType := d.dbType }
    let rptr := (p.datab ndp).dbBase + (x.bRptr - d.dbBase)
    let wptr := (p.datab ndp).dbBase + (x.bWptr - d.dbBase)
    let p := p.setMsgb nbp { p.msgb nbp with
      bFlag := x.bFlag, bBand := x.bBand, bRptr := rptr, bWptr := wptr
      bRptr_le :=
        Nat.add_le_add_left (Nat.sub_le_sub_right x.bRptr_le _) _ }
    let base := straln rptr
    (some nbp, p.bcopy (straln x.bRptr) base (straln (wptr + 3) - base))

/-!
## Pulling up
-/

def xmsgsizeLoop (type : Nat) : Nat → Pool → Option Nat → Int → Option Int
  | _, _, none, count => some count
  | 0, _, some _, _ => none
  | fuel + 1, p, some bp, count =>
    if type ≠ (p.datab (p.datap bp)).dbType then some count
    else xmsgsizeLoop type fuel p (p.cont bp) (sint (count + p.size bp))

def xmsgsize (p : Pool) (mp : Nat) : Option Int :=
  xmsgsizeLoop (p.datab (p.datap mp)).dbType p.nhdr p (some mp) 0

/-- The read pointer of `bp` moves past `n` bytes. -/
def advance (p : Pool) (bp n : Nat) : Pool :=
  p.setMsgb bp { p.msgb bp with
    bRptr := min ((p.msgb bp).bRptr + n) (p.msgb bp).bWptr
    bRptr_le := Nat.min_le_right _ _ }

/-- The loop that moves the first `len` bytes to `wptr` and frees the blocks that become
empty; a copy of a negative length ends the system. -/
def pullupLoop (mp : Nat) :
    Nat → Pool → Int → Option Nat → Nat → Option (Pool × Option Nat × Nat)
  | _, p, _, none, wptr => some (p, none, wptr)
  | 0, p, len, some bp, wptr => if len = 0 then some (p, some bp, wptr) else none
  | fuel + 1, p, len, some bp, wptr =>
    if len = 0 then some (p, some bp, wptr)
    else if len < 0 then none
    else
      let n := min (p.size bp) len.toNat
      let p := (p.bcopy (p.msgb bp).bRptr wptr n).advance bp n
      if (p.msgb bp).bWptr ≠ (p.msgb bp).bRptr then some (p, some bp, wptr + n)
      else
        let bcont := p.cont bp
        let p := if bp ≠ mp then p.freeb bp else p
        pullupLoop mp fuel p (len - n) bcont (wptr + n)

/--
How much `pullupmsg` is to move, unless it returns at once: 1 if the data
are in place and 0 if there are not enough.
-/
def pullupLen (p : Pool) (mp : Nat) (len : Int) : Option (Bool ⊕ Int) :=
  if len = -1 then
    if p.cont mp = none then
      if strAligned (p.msgb mp).bRptr then some (.inl true)
      else some (.inr (p.size mp))
    else do
      let len ← p.xmsgsize mp
      return .inr len
  else if len ≤ p.size mp then
    if strAligned (p.msgb mp).bRptr then some (.inl true)
    else some (.inr (p.size mp))
  else do
    let avail ← p.xmsgsize mp
    return if avail < len then .inl false else .inr len

/-- The header `mp` is connected to the data block of `newmp`. -/
def reconnect (p : Pool) (mp newmp dbp wptr : Nat) (bcont : Option Nat) : Pool :=
  let p := p.setMsgb newmp { p.msgb newmp with
    bBand := (p.msgb mp).bBand, bFlag := (p.msgb mp).bFlag
    bWptr := max wptr (p.msgb newmp).bRptr
    bRptr_le := Nat.le_max_right _ _ }
  let p :=
    if (p.datab dbp).dbMsgaddr = mp then
      let p := p.setDatab newmp { p.datab newmp with dbMsgaddr := mp }
      if (p.datab mp).dbIswhat ≠ .notD then p.setIswhat mp .xconn else p
    else p
  let p := p.setIswhat newmp .notM
  p.setMsgb mp { p.msgb mp with
    bDatap := p.datap newmp
    bRptr := (p.msgb newmp).bRptr
    bWptr := (p.msgb newmp).bWptr
    bRptr_le := (p.msgb newmp).bRptr_le
    bCont := bcont }

/-- `pullupmsg` where the data block is shared: a new data block. -/
def pullupShared (p : Pool) (mp : Nat) (len : Int) : Option (Bool × Pool) :=
  let dbp := p.datap mp
  match p.allocb len with
  | (none, p) => some (false, p)
  | (some newmp, p) => do
      let p := p.setDatab newmp { p.datab newmp with dbType := (p.datab dbp).dbType }
      let p := p.setRef dbp ((p.datab dbp).dbRef - 1)
      let (p, bcont, wptr) ← pullupLoop mp p.nhdr p len (some mp) (p.msgb newmp).bWptr
      return (true, p.reconnect mp newmp dbp wptr bcont)

/-- `pullupmsg` where the data block is not shared: a new buffer. -/
def pullupOwn (p : Pool) (mp : Nat) (len : Int) : Option (Bool × Pool) :=
  let dbp := p.datap mp
  match p.kmemAlloc (uint len) with
  | (none, p) => some (false, p)
  | (some newbuf, p) => do
      let p := p.setDatab dbp { p.datab dbp with dbSize := uint len }
      let (p, bcont, wptr) ← pullupLoop mp p.nhdr p len (some mp) newbuf
      let p := (p.setCont mp bcont).note (.replaced dbp (p.buffer dbp))
      let d := p.datab dbp
      let p := p.setDatab dbp { d with
        dbFrtnp := if p.databuf dbp = d.dbBase then d.dbFrtnp else none
        dbBase := newbuf
        dbLim := newbuf + d.dbSize }
      return (true, p.setMsgb mp { p.msgb mp with
        bRptr := newbuf, bWptr := max wptr newbuf
        bRptr_le := Nat.le_max_right _ _ })

def pullupmsg (p : Pool) (mp : Nat) (len : Int) : Option (Bool × Pool) := do
  match ← p.pullupLen mp len with
  | .inl r => return (r, p)
  | .inr len =>
    if 1 < (p.datab (p.datap mp)).dbRef then p.pullupShared mp len
    else p.pullupOwn mp len

end Pool

end Messages
end Svr4
