import Svr4.Lib.Transition
import Svr4.Streams.Order

/-!
# Queues of a stream

The queues of one direction of a stream, with flow control between them:
`canput` and `bcanput` of `io/stream.c`, `setqback` and the
service of enabled queues of `os/strsubr.c`, and the queue routines with
the queues they enable.  Queue `i + 1` is `q_next` of queue `i`.

Calls run at `splstr`, so each of them is one step.
-/

namespace Svr4
namespace Streams

open Function RankedList

structure Stream where
  m : Blocks
  nq : Nat
  q : Nat → Queue
  qhead : List Nat
  /-- The queues whose service procedures are running. -/
  serving : List Nat

/-!
## Back-enabling
-/

/--
`setqback`; the result says whether the flag is set, and otherwise the
routine warns that it cannot allocate a `qband`.
-/
def setqback (pri : Nat) (avail : List Bool) (q : Queue) :
    Bool × Queue × List Bool :=
  if pri = 0 then (true, { q with qBack := true }, avail)
  else
    let (found, q, avail) := growBands pri avail q
    if found then
      (true, q.modBand pri fun qb => { qb with qbBack := true }, avail)
    else (false, q, avail)

/-- `setqback` for several bands, and the bands it warned about. -/
def setqbacks : List Nat → List Bool → Queue → List Nat × Queue × List Bool
  | [], avail, q => ([], q, avail)
  | pri :: rest, avail, q =>
    let (set, q, avail) := setqback pri avail q
    let (warned, q, avail) := setqbacks rest avail q
    (if set then warned else pri :: warned, q, avail)

/-- The flag `QBACK` or `QB_BACK` of a band. -/
def Queue.back (q : Queue) (pri : Nat) : Bool :=
  if pri = 0 then q.qBack
  else match q.band? pri with
    | some qb => qb.qbBack
    | none => false

namespace Stream

def setQ (s : Stream) (i : Nat) (q : Queue) : Stream :=
  { s with q := update s.q i q }

def setMQ (s : Stream) (i : Nat) (m : Blocks) (q : Queue) : Stream :=
  { s with m := m, q := update s.q i q }

def msgs (s : Stream) (i : Nat) : List Nat := (s.q i).msgs s.m

def qenable (s : Stream) (i : Nat) : Stream :=
  if (s.q i).qiSrvp && !(s.q i).qEnab then
    { s.setQ i { s.q i with qEnab := true } with qhead := s.qhead ++ [i] }
  else s

/-- The nearest queue upstream that has a service procedure. -/
def backSrvp (s : Stream) : Nat → Option Nat
  | 0 => none
  | i + 1 => if (s.q i).qiSrvp then some i else backSrvp s i

def backenable (s : Stream) (avail : List Bool) (i : Nat) (relief : Relief) :
    List Nat × Stream × List Bool :=
  match relief, s.backSrvp i with
  | some bands, some j =>
    let s := s.qenable j
    let (warned, q, avail) := setqbacks bands avail (s.q j)
    (warned, s.setQ j q, avail)
  | _, _ => ([], s, avail)

def backenables (i : Nat) :
    List Relief → List Bool → Stream → List Nat × Stream
  | [], _, s => ([], s)
  | relief :: rest, avail, s =>
    let (warned, s, avail) := s.backenable avail i relief
    let (warned', s) := backenables i rest avail s
    (warned ++ warned', s)

/-- Where `canput` looks: a queue with a service procedure, or the end. -/
def canputAt (s : Stream) : Nat → Nat → Nat
  | 0, i => i
  | n + 1, i => if (s.q i).qiSrvp then i else canputAt s n (i + 1)

def canput (s : Stream) (i : Nat) : Bool × Stream :=
  let j := s.canputAt (s.nq - 1 - i) i
  if (s.q j).qFull then (false, s.setQ j { s.q j with qWantw := true })
  else (true, s)

def bcanput (s : Stream) (i pri : Nat) : Bool × Stream :=
  let j := s.canputAt (s.nq - 1 - i) i
  if pri = 0 then
    if (s.q j).qFull then (false, s.setQ j { s.q j with qWantw := true })
    else (true, s)
  else match (s.q j).band? pri with
    | none => (true, s)
    | some qb =>
      if qb.qbFull then
        (false, s.setQ j ((s.q j).modBand pri fun qb =>
          { qb with qbWantw := true }))
      else (true, s)

end Stream

/-!
## Calls
-/

inductive Event where
  /-- the owner of a message block that is on no queue changes it -/
  | write (bp : Nat) (x : Msgb)
  | putq (i bp : Nat)
  | putbq (i bp : Nat)
  | getq (i : Nat)
  | rmvq (i mp : Nat)
  | flushq (i : Nat) (flag : Bool)
  | flushband (i pri : Nat) (flag : Bool)
  | canput (i : Nat)
  | bcanput (i pri : Nat)
  | noenable (i : Nat)
  | enableok (i : Nat)
  | qenable (i : Nat)
  /-- `queuerun` calls the service procedure of the first queue -/
  | service
  /-- the service procedure of a queue returns -/
  | serviced (i : Nat)

/--
What a call returns, and the bands for which `setqback` has warned that
it cannot allocate a `qband`.
-/
structure Outcome where
  ok : Bool
  bp : Option Nat
  warned : List Nat

namespace Stream

def done (s : Stream) : Option (Stream × Outcome) := some (s, ⟨true, none, []⟩)

/-- `putq` or `putbq`. -/
def execPut (op : List Bool → Blocks → Queue → Nat → Option Put) (s : Stream)
    (avail : List Bool) (i bp : Nat) : Option (Stream × Outcome) := do
  let r ← op avail s.m (s.q i) bp
  let s := s.setMQ i r.m r.q
  return (if r.enable then s.qenable i else s, ⟨r.ok, none, []⟩)

def execGetq (s : Stream) (avail : List Bool) (i : Nat) :
    Option (Stream × Outcome) := do
  let g ← getq s.m (s.q i)
  let (warned, s, _) := (s.setMQ i g.m g.q).backenable avail i g.relief
  return (s, ⟨true, g.bp, warned⟩)

def execRmvq (s : Stream) (avail : List Bool) (i mp : Nat) :
    Option (Stream × Outcome) := do
  let (m, q, relief) ← rmvq s.m (s.q i) mp
  let (warned, s, _) := (s.setMQ i m q).backenable avail i relief
  return (s, ⟨true, none, warned⟩)

/-- A flush that puts messages back, and may thereby enable the queue. -/
def flushed (s : Stream) (i : Nat) (r : Flushed) : Stream × Outcome :=
  let s := s.setMQ i r.m r.q
  let s := if r.enable then s.qenable i else s
  let (warned, s, _) := s.backenable r.avail i r.relief
  (s, ⟨true, none, warned⟩)

def execFlushq (s : Stream) (avail : List Bool) (i : Nat) (flag : Bool) :
    Option (Stream × Outcome) := do
  let r ← Streams.flushq avail s.m (s.q i) flag
  return s.flushed i r

def execFlushband (s : Stream) (avail : List Bool) (i pri : Nat)
    (flag : Bool) : Option (Stream × Outcome) :=
  if (s.q i).qNband < pri then s.done
  else if pri = 0 then do
    let r ← flushband0 avail s.m (s.q i) flag
    return s.flushed i r
  else do
    let (m, q, reliefs) ← flushbandHigh s.m (s.q i) pri flag
    let (warned, s) := backenables i reliefs avail (s.setMQ i m q)
    return (s, ⟨true, none, warned⟩)

/-- The first queue is taken off the list of enabled queues. -/
def service (s : Stream) : Stream :=
  match s.qhead with
  | [] => s
  | i :: rest =>
    { s.setQ i { s.q i with qEnab := false } with
      qhead := rest
      serving := if (s.q i).qiSrvp then i :: s.serving else s.serving }

/-- The back-enabling a service procedure has seen is forgotten. -/
def serviced (s : Stream) (i : Nat) : Stream :=
  { s.setQ i { s.q i with
      qBack := false
      qBandp := (s.q i).qBandp.map fun qb => { qb with qbBack := false } } with
    serving := s.serving.erase i }

/-- One call; the list is what `allocband` meets. -/
def exec (s : Stream) (avail : List Bool) : Event → Option (Stream × Outcome)
  | .write bp x => { s with m.blk := update s.m.blk bp x }.done
  | .putq i bp => s.execPut Streams.putq avail i bp
  | .putbq i bp => s.execPut Streams.putbq avail i bp
  | .getq i => s.execGetq avail i
  | .rmvq i mp => s.execRmvq avail i mp
  | .flushq i flag => s.execFlushq avail i flag
  | .flushband i pri flag => s.execFlushband avail i pri flag
  | .canput i => let (ok, s) := s.canput i; some (s, ⟨ok, none, []⟩)
  | .bcanput i pri => let (ok, s) := s.bcanput i pri; some (s, ⟨ok, none, []⟩)
  | .noenable i => (s.setQ i { s.q i with qNoenb := true }).done
  | .enableok i => (s.setQ i { s.q i with qNoenb := false }).done
  | .qenable i => (s.qenable i).done
  | .service => s.service.done
  | .serviced i => (s.serviced i).done

def Free (s : Stream) (bp : Nat) : Prop := ∀ i, bp ∉ s.msgs i

def Admits (s : Stream) : Event → Prop
  | .write bp _ => s.Free bp
  | .putq i bp | .putbq i bp => i < s.nq ∧ bp < s.m.nblk ∧ s.Free bp
  | .rmvq i mp => i < s.nq ∧ mp ∈ s.msgs i
  | .flushband i pri _ | .bcanput i pri => i < s.nq ∧ pri < 256
  | .getq i | .flushq i _ | .canput i | .noenable i | .enableok i
  | .qenable i => i < s.nq
  | .service => s.qhead ≠ []
  | .serviced i => i ∈ s.serving

end Stream

/-!
## The purpose of a queue
-/

/-- Every queue has a lane for each band, and lane 256 for high priority messages. -/
abbrev Lanes := Nat → Nat → List Nat

def Lanes.order (a : Lanes) (i : Nat) : List Nat := flat (a i) 256

def Lanes.onQueue (a : Lanes) (i : Nat) (f : Nat → List Nat → List Nat) :
    Lanes :=
  update a i fun c => f c (a i c)

def keptBand (m : Blocks) (pri : Nat) (flag : Bool) (p : Nat) : Bool :=
  !(decide ((m.blk p).bBand = pri) && (decide (0 < pri) || decide ((m.blk p).dbType < QPCTL)) &&
    (flag || datamsg (m.blk p).dbType))

/-- The message that `getq` is to deliver. -/
def Lanes.next (m : Blocks) (a : Lanes) (i : Nat) : Option Nat :=
  (a.order i).find? fun p => !(m.blk p).msgnoget

/-- The lanes after a call. -/
def Lanes.apply (m : Blocks) (a : Lanes) : Event → Outcome → Lanes
  | .putq i bp, o =>
    if o.ok then
      a.onQueue i fun c l => if c = m.rank bp then l ++ [bp] else l
    else a
  | .putbq i bp, o =>
    if o.ok then
      a.onQueue i fun c l => if c = m.rank bp then bp :: l else l
    else a
  | .getq i, _ =>
    match a.next m i with
    | some p => a.onQueue i fun _ l => l.erase p
    | none => a
  | .rmvq i mp, _ => a.onQueue i fun _ l => l.erase mp
  | .flushq i flag, _ =>
    a.onQueue i fun _ l =>
      l.filter fun p => !(flag || datamsg (m.blk p).dbType)
  | .flushband i pri flag, _ =>
    a.onQueue i fun _ l => l.filter (keptBand m pri flag)
  | _, _ => a

end Streams
end Svr4
