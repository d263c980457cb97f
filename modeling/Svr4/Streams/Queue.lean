import Mathlib.Tactic.Ring
import Mathlib.Data.List.Basic

/-!
# STREAMS message queues

The message queues of `io/stream.c`: the structures `queue`,
`qband` and `msgb`, and the routines `putq`, `putbq`,
`getq`, `rmvq`, `flushq` and `flushband`.

A message is known by the number of its first message block.  The list of the
`qband` structures of a queue is a list, whose length is `q_nband`.
A routine has no result where the source would follow a null pointer, or follow
links for ever.
-/

namespace Svr4
namespace Streams

open Function

/-!
## Structures
-/

def QNORM : Nat := 0x00
def QPCTL : Nat := 0x80
def M_DATA : Nat := 0x00
def M_PROTO : Nat := 0x01
def M_DELAY : Nat := 0x0c
def M_PCPROTO : Nat := 0x83

/-- A `msgb` at the head of a message, with the type of its data block and the sizes of its
blocks. -/
structure Msgb where
  bNext : Option Nat
  bPrev : Option Nat
  bBand : Nat
  msgnoget : Bool
  dbType : Nat
  sizes : List Nat
  bBand_lt : bBand < 256

structure Qband where
  qbFirst : Option Nat
  qbLast : Option Nat
  qbCount : Nat
  qbHiwat : Nat
  qbLowat : Nat
  qbFull : Bool
  qbWantw : Bool
  qbBack : Bool
deriving DecidableEq

/-- The `queue` structure, with the bits of `q_flag` apart. -/
structure Queue where
  qFirst : Option Nat
  qLast : Option Nat
  qCount : Nat
  qHiwat : Nat
  qLowat : Nat
  qFull : Bool
  qWantw : Bool
  qWantr : Bool
  qNoenb : Bool
  qEnab : Bool
  qBack : Bool
  qBandp : List Qband
  qiSrvp : Bool
deriving DecidableEq

def Queue.qNband (q : Queue) : Nat := q.qBandp.length

/-- The message blocks of the system. -/
structure Blocks where
  nblk : Nat
  blk : Nat → Msgb

def queclass (x : Msgb) : Nat := if QPCTL ≤ x.dbType then QPCTL else QNORM

def datamsg (type : Nat) : Bool :=
  type = M_DATA ∨ type = M_PROTO ∨ type = M_PCPROTO ∨ type = M_DELAY

def canenable (q : Queue) : Bool := !q.qNoenb

/-- Arithmetic on an `unsigned long`. -/
def ulong (x : Int) : Nat := (x % 4294967296).toNat

/-!
## Pointers
-/

namespace Blocks

def setNext (m : Blocks) (p : Nat) (v : Option Nat) : Blocks :=
  { m with blk := update m.blk p { m.blk p with bNext := v } }

def setPrev (m : Blocks) (p : Nat) (v : Option Nat) : Blocks :=
  { m with blk := update m.blk p { m.blk p with bPrev := v } }

def clearBand (m : Blocks) (p : Nat) : Blocks :=
  let x := m.blk p
  let x' : Msgb := { x with bBand := 0, bBand_lt := by decide }
  { m with blk := update m.blk p x' }

/--
Follow `b_next` while the condition holds.  There are only `nblk`
blocks, so a walk over more links would go on for ever.
-/
def seek (m : Blocks) (c : Msgb → Bool) : Nat → Option Nat → Option (Option Nat)
  | _, none => some none
  | 0, some _ => none
  | fuel + 1, some p =>
    if c (m.blk p) then seek m c fuel (m.blk p).bNext else some (some p)

def scan (m : Blocks) (c : Msgb → Bool) (p : Option Nat) : Option Nat :=
  (m.seek c m.nblk p).join

/-- The messages reached from a pointer along `b_next`. -/
def follow (m : Blocks) : Nat → Option Nat → List Nat
  | _, none => []
  | 0, some _ => []
  | fuel + 1, some p => p :: follow m fuel (m.blk p).bNext

end Blocks

def Queue.msgs (q : Queue) (m : Blocks) : List Nat := m.follow m.nblk q.qFirst

/-- The band structure reached by `pri - 1` links from `q_bandp`. -/
def Queue.band? (q : Queue) (pri : Nat) : Option Qband := q.qBandp[pri - 1]?

def Queue.modBand (q : Queue) (pri : Nat) (f : Qband → Qband) : Queue :=
  { q with qBandp := q.qBandp.modify (pri - 1) f }

/-!
## Linking a message
-/

def linkOnly (m : Blocks) (q : Queue) (bp : Nat) : Blocks × Queue :=
  ((m.setNext bp none).setPrev bp none, { q with qFirst := some bp, qLast := some bp })

/-- Tack `bp` on the end of the queue, behind `tmp`. -/
def linkLast (m : Blocks) (q : Queue) (bp tmp : Nat) : Blocks × Queue :=
  (((m.setNext bp none).setPrev bp (some tmp)).setNext tmp (some bp), { q with qLast := some bp })

def linkBefore (m : Blocks) (q : Queue) (bp tmp : Nat) : Blocks × Queue :=
  let prev := (m.blk tmp).bPrev
  let m := (m.setNext bp (some tmp)).setPrev bp prev
  match prev with
  | some j => ((m.setNext j (some bp)).setPrev tmp (some bp), q)
  | none => (m.setPrev tmp (some bp), { q with qFirst := some bp })

def linkAfter (m : Blocks) (q : Queue) (bp tmp : Nat) : Blocks × Queue :=
  let next := (m.blk tmp).bNext
  let m := m.setNext bp next
  match next with
  | some j =>
    (((m.setPrev j (some bp)).setPrev bp (some tmp)).setNext tmp (some bp), q)
  | none =>
    ((m.setPrev bp (some tmp)).setNext tmp (some bp), { q with qLast := some bp })

def linkFirst (m : Blocks) (q : Queue) (bp : Nat) : Blocks × Queue :=
  match q.qFirst with
  | some tmp =>
    (((m.setNext bp (some tmp)).setPrev tmp (some bp)).setPrev bp none,
      { q with qFirst := some bp })
  | none =>
    ((m.setNext bp none).setPrev bp none, { q with qFirst := some bp, qLast := some bp })

/-- Take `mp` from the list of messages. -/
def unlink (m : Blocks) (q : Queue) (mp : Nat) : Blocks × Queue :=
  let x := m.blk mp
  let mq := match x.bPrev with
    | some j => (m.setNext j x.bNext, q)
    | none => (m, { q with qFirst := x.bNext })
  let mq := match x.bNext with
    | some j => (mq.1.setPrev j x.bPrev, mq.2)
    | none => (mq.1, { mq.2 with qLast := x.bPrev })
  ((mq.1.setNext mp none).setPrev mp none, mq.2)

/-!
## Bands and counts
-/

/-- The structure `allocband` returns, with the marks of the queue. -/
def Queue.newBand (q : Queue) : Qband where
  qbFirst := none
  qbLast := none
  qbCount := 0
  qbHiwat := q.qHiwat
  qbLowat := q.qLowat
  qbFull := false
  qbWantw := false
  qbBack := false

/-- Allocate the bands up to `pri`, as far as there is memory. -/
def growBands (pri : Nat) : List Bool → Queue → Bool × Queue × List Bool
  | [], q => (decide (pri ≤ q.qNband), q, [])
  | avail :: rest, q =>
    if pri ≤ q.qNband then (true, q, avail :: rest)
    else if avail then
      growBands pri rest { q with qBandp := q.qBandp ++ [q.newBand] }
    else (false, q, rest)

def addCount (count : Nat) (sizes : List Nat) : Nat :=
  sizes.foldl (fun c n => ulong (c + n)) count

def subCount (count : Nat) (sizes : List Nat) : Nat :=
  sizes.foldl (fun c n => ulong (c - n)) count

def Qband.charge (qb : Qband) (x : Msgb) : Qband :=
  let count := addCount qb.qbCount x.sizes
  { qb with
    qbCount := count
    qbFull := if qb.qbHiwat ≤ count then true else qb.qbFull }

def Queue.charge (q : Queue) (x : Msgb) : Queue :=
  let count := addCount q.qCount x.sizes
  { q with
    qCount := count
    qFull := if q.qHiwat ≤ count then true else q.qFull }

/-- Account for a message taken from its band, and whether to enable a writer. -/
def Qband.discharge (qb : Qband) (x : Msgb) : Qband × Bool :=
  let count := subCount qb.qbCount x.sizes
  let relieve := qb.qbWantw && decide (count ≤ qb.qbLowat)
  ({ qb with
      qbCount := count
      qbFull := if count < qb.qbHiwat then false else qb.qbFull
      qbWantw := if relieve then false else qb.qbWantw }, relieve)

def Queue.discharge (q : Queue) (x : Msgb) : Queue × Bool :=
  let count := subCount q.qCount x.sizes
  let relieve := q.qWantw && decide (count ≤ q.qLowat)
  ({ q with
      qCount := count
      qFull := if count < q.qHiwat then false else q.qFull
      qWantw := if relieve then false else q.qWantw }, relieve)

/-- The accounting of a put, in the band of the message. -/
def Queue.chargeBand (q : Queue) (x : Msgb) : Queue :=
  if x.bBand = 0 then q.charge x
  else q.modBand x.bBand fun qb => qb.charge x

/-!
## Putting a message
-/

/-- What a put leaves behind: its return value, and whether it enables. -/
structure Put where
  m : Blocks
  q : Queue
  ok : Bool
  enable : Bool
  avail : List Bool

/-- The place `putq` finds for a message of band 0. -/
def putqNormal (m : Blocks) (q : Queue) (bp : Nat) :
    Option (Blocks × Queue) := do
  let mcls := queclass (m.blk bp)
  let last ← q.qLast
  if mcls ≤ queclass (m.blk last) then
    return linkLast m q bp last
  else
    let tmp ← m.scan (fun x => decide (mcls ≤ queclass x)) q.qFirst
    return linkBefore m q bp tmp

/--
The place behind the messages of high priority and those whose band meets
`c`, for a message that has not high priority.
-/
def behind (c : Nat → Bool) (m : Blocks) (q : Queue) (bp : Nat) :
    Option (Blocks × Queue) := do
  let x := m.blk bp
  let last ← q.qLast
  if queclass x < queclass (m.blk last) ∨ c (m.blk last).bBand then
    return linkLast m q bp last
  else
    let tmp ← m.scan (fun y => decide (QPCTL ≤ y.dbType)) q.qFirst
    let tmp ← m.scan (fun y => c y.bBand) (some tmp)
    return linkBefore m q bp tmp

/-- The place `putq` finds for a message of a higher band. -/
def putqBand (m : Blocks) (q : Queue) (bp : Nat) : Option (Blocks × Queue) := do
  let band := (m.blk bp).bBand
  let qb ← q.band? band
  match qb.qbFirst with
  | some _ =>
    let tmp ← qb.qbLast
    let (m, q) := linkAfter m q bp tmp
    return (m, q.modBand band fun qb => { qb with qbLast := some bp })
  | none =>
    let (m, q) ← behind (fun b => decide (band ≤ b)) m q bp
    return (m, q.modBand band fun qb =>
      { qb with qbFirst := some bp, qbLast := some bp })

/-- The part of `putq` that links the message. -/
def putqLink (m : Blocks) (q : Queue) (bp : Nat) : Option (Blocks × Queue) :=
  let band := (m.blk bp).bBand
  match q.qFirst with
  | none =>
    let (m, q) := linkOnly m q bp
    if band = 0 then some (m, q)
    else some (m, q.modBand band fun qb =>
      { qb with qbFirst := some bp, qbLast := some bp })
  | some _ => if band = 0 then putqNormal m q bp else putqBand m q bp

/-- The place `putbq` finds behind the messages that come before. -/
def putbqBehind (m : Blocks) (q : Queue) (bp : Nat) : Option (Blocks × Queue) :=
  behind (fun b => decide ((m.blk bp).bBand < b)) m q bp

/-- The part of `putbq` that links the message. -/
def putbqLink (m : Blocks) (q : Queue) (bp : Nat) : Option (Blocks × Queue) :=
  let x := m.blk bp
  if q.qFirst = none ∨ queclass x = QPCTL then
    let (m, q) := linkFirst m q bp
    if x.bBand = 0 then some (m, q)
    else some (m, q.modBand x.bBand fun qb =>
      { qb with qbFirst := some bp, qbLast := some bp })
  else if x.bBand = 0 then putbqBehind m q bp
  else do
    let qb ← q.band? x.bBand
    match qb.qbFirst with
    | some tmp =>
      let (m, q) := linkBefore m q bp tmp
      return (m, q.modBand x.bBand fun qb => { qb with qbFirst := some bp })
    | none =>
      let (m, q) ← putbqBehind m q bp
      return (m, q.modBand x.bBand fun qb =>
        { qb with qbFirst := some bp, qbLast := some bp })

/-- The band of a high priority message is forced to be correct. -/
def Blocks.forceBand (m : Blocks) (bp : Nat) : Blocks :=
  if queclass (m.blk bp) = QPCTL then m.clearBand bp else m

/-- The frame that `putq` and `putbq` share. -/
def putWith (link : Blocks → Queue → Nat → Option (Blocks × Queue))
    (avail : List Bool) (m : Blocks) (q : Queue) (bp : Nat) : Option Put :=
  let mcls := queclass (m.blk bp)
  let m := m.forceBand bp
  let (found, q, avail) := growBands (m.blk bp).bBand avail q
  if found then do
    let (m, q) ← link m q bp
    let q := q.chargeBand (m.blk bp)
    return ⟨m, q, true, decide (QNORM < mcls) || (canenable q && q.qWantr), avail⟩
  else some ⟨m, q, false, false, avail⟩

def putq : List Bool → Blocks → Queue → Nat → Option Put := putWith putqLink

def putbq : List Bool → Blocks → Queue → Nat → Option Put := putWith putbqLink

/-!
## Taking a message
-/

/--
The bands to tell the queue upstream about, where it has to be enabled.
-/
abbrev Relief := Option (List Nat)

/-- The accounting of a removal, in the band of the message. -/
def Queue.dischargeBand (q : Queue) (x : Msgb) : Option (Queue × Relief) :=
  if x.bBand = 0 then
    let (q, relieve) := q.discharge x
    some (q, if relieve then some [0] else none)
  else do
    let qb ← q.band? x.bBand
    let (qb, relieve) := qb.discharge x
    return (q.modBand x.bBand fun _ => qb,
      if relieve then some [x.bBand] else none)

/-- The delimiters of a band when `rmvq` takes `mp` from it. -/
def Qband.drop (m : Blocks) (mp : Nat) (qb : Qband) : Qband :=
  let x := m.blk mp
  let same (p : Option Nat) : Option Nat :=
    p.filter fun j => decide ((m.blk j).bBand = x.bBand)
  { qb with
    qbFirst := if qb.qbFirst = some mp then same x.bNext else qb.qbFirst
    qbLast := if qb.qbLast = some mp then same x.bPrev else qb.qbLast }

def rmvq (m : Blocks) (q : Queue) (mp : Nat) :
    Option (Blocks × Queue × Relief) := do
  let x := m.blk mp
  if x.bBand = 0 then
    let (m, q) := unlink m q mp
    let (q, relief) ← q.dischargeBand x
    return (m, q, relief)
  else
    let _ ← q.band? x.bBand
    let q := q.modBand x.bBand fun qb => qb.drop m mp
    let (m, q) := unlink m q mp
    let (q, relief) ← q.dischargeBand x
    return (m, q, relief)

/-- What `getq` returns: the message, and the relief it gives. -/
structure Got where
  m : Blocks
  q : Queue
  bp : Option Nat
  relief : Relief

/-- The delimiters of a band when `getq` takes its first message. -/
def Qband.shift (next : Option Nat) (qb : Qband) : Qband :=
  if qb.qbFirst = qb.qbLast then { qb with qbFirst := none, qbLast := none }
  else { qb with qbFirst := next }

/-- `getq` with a first message that it returns. -/
def getqFirst (m : Blocks) (q : Queue) (bp : Nat) : Option Got := do
  let x := m.blk bp
  let (m, q) := match x.bNext with
    | none => (m, { q with qFirst := none, qLast := none })
    | some j => (m.setPrev j none, { q with qFirst := some j })
  let q :=
    if x.bBand = 0 then q
    else q.modBand x.bBand fun qb => qb.shift x.bNext
  let (q, relief) ← q.dischargeBand x
  let m := (m.setNext bp none).setPrev bp none
  return ⟨m, { q with qWantr := false }, some bp, relief⟩

def getq (m : Blocks) (q : Queue) : Option Got :=
  match q.qFirst with
  | none =>
    some ⟨m, { q with qWantr := true, qWantw := false }, none,
      if q.qWantw then some [0] else none⟩
  | some bp =>
    if (m.blk bp).msgnoget then do
      match ← m.seek (fun x => x.msgnoget) m.nblk (some bp) with
      | none => return ⟨m, q, none, none⟩
      | some bp =>
        let (m, q, relief) ← rmvq m q bp
        return ⟨m, q, some bp, relief⟩
    else getqFirst m q bp

/-!
## Flushing
-/

def Qband.clear (qb : Qband) : Qband :=
  { qb with qbFirst := none, qbLast := none, qbCount := 0, qbFull := false }

/-- The queue without its messages, as the flush routines leave it first. -/
def Queue.clear (q : Queue) : Queue :=
  { q with
    qFirst := none
    qLast := none
    qCount := 0
    qFull := false
    qBandp := q.qBandp.map Qband.clear }

/--
The loop over the messages that were on the queue: those to keep are put back,
the others are freed.
-/
def refill (keep : Msgb → Bool) :
    Nat → Option Nat → List Bool → Blocks → Queue → Bool →
      Option (Blocks × Queue × Bool × List Bool)
  | _, none, avail, m, q, enable => some (m, q, enable, avail)
  | 0, some _, _, _, _, _ => none
  | fuel + 1, some mp, avail, m, q, enable =>
    let nmp := (m.blk mp).bNext
    if keep (m.blk mp) then do
      let r ← putq avail m q mp
      refill keep fuel nmp r.avail r.m r.q (enable || r.enable)
    else refill keep fuel nmp avail m q enable

def Qband.relieved (qb : Qband) : Bool :=
  qb.qbWantw && decide (qb.qbCount ≤ qb.qbLowat)

def Queue.relieved (q : Queue) : Bool :=
  q.qWantw && decide (q.qCount ≤ q.qLowat)

/-- The entries of `qbf` that `flushq` sets. -/
def Queue.qbf (q : Queue) (i : Nat) : Bool :=
  if i = 0 then q.relieved
  else match q.band? i with
    | some qb => qb.relieved
    | none => false

/-- `bpri` after the loop over the bands: it is an unsigned char. -/
def Queue.bpri (q : Queue) : Nat := (1 + q.qNband) % 256

structure Flushed where
  m : Blocks
  q : Queue
  enable : Bool
  relief : Relief
  avail : List Bool

def flushq (avail : List Bool) (m : Blocks) (q : Queue) (flag : Bool) :
    Option Flushed := do
  let keep := fun x : Msgb => !(flag || datamsg x.dbType)
  let (m, q, enable, avail) ← refill keep m.nblk q.qFirst avail m q.clear false
  let backenable := q.qBandp.any Qband.relieved || q.relieved
  let q' := { q with
    qWantw := if q.relieved then false else q.qWantw
    qBandp := q.qBandp.map fun qb =>
      if qb.relieved then { qb with qbWantw := false } else qb }
  return ⟨m, q', enable,
    if backenable then some ((List.range q.bpri).filter q.qbf) else none, avail⟩

/-- `flushband` for the normal band. -/
def flushband0 (avail : List Bool) (m : Blocks) (q : Queue) (flag : Bool) :
    Option Flushed := do
  let keep := fun x : Msgb => !(decide (x.bBand = 0) && decide (x.dbType < QPCTL)
    && (flag || datamsg x.dbType))
  let (m, q, enable, avail) ← refill keep m.nblk q.qFirst avail m q.clear false
  return ⟨m, { q with qWantw := if q.relieved then false else q.qWantw },
    enable, if q.relieved then some [0] else none, avail⟩

/-- One message of the band, when its turn comes. -/
def flushOne (pri : Nat) (flag : Bool) (m : Blocks) (q : Queue) (mp : Nat) :
    Option (Blocks × Queue × Relief) :=
  if (m.blk mp).bBand = pri ∧ (flag ∨ datamsg (m.blk mp).dbType) then
    rmvq m q mp
  else some (m, q, none)

/-- The loop `while (mp != last)`; the reliefs are in order. -/
def flushLoop (pri : Nat) (flag : Bool) (last : Option Nat) :
    Nat → Option Nat → Blocks → Queue → List Relief →
      Option (Option Nat × Blocks × Queue × List Relief)
  | fuel, mp, m, q, reliefs =>
    if mp = last then some (mp, m, q, reliefs)
    else match mp, fuel with
      | none, _ => none
      | some _, 0 => none
      | some p, fuel + 1 => do
          let nmp := (m.blk p).bNext
          let (m, q, relief) ← flushOne pri flag m q p
          flushLoop pri flag last fuel nmp m q (reliefs ++ [relief])

/-- `flushband` for a higher band. -/
def flushbandHigh (m : Blocks) (q : Queue) (pri : Nat) (flag : Bool) :
    Option (Blocks × Queue × List Relief) := do
  let qb ← q.band? pri
  match qb.qbFirst with
  | none => return (m, q, [])
  | some mp =>
    let last := if qb.qbLast = some mp then (m.blk mp).bNext else qb.qbLast
    let (mp, m, q, reliefs) ← flushLoop pri flag last m.nblk (some mp) m q []
    match mp with
    | none => return (m, q, reliefs)
    | some mp =>
      let (m, q, relief) ← flushOne pri flag m q mp
      return (m, q, reliefs ++ [relief])

end Streams
end Svr4
