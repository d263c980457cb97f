import Svr4.Kmem.Model
import Svr4.Lib.Transition

/-!
# Allocation calls and the pool daemon

`kmem_alloc` with the allocation of pools, as a process runs it between
the places where it sleeps, and `kmem_freepool`.  A process can be held up
in `sptalloc`, which delivers pages of kernel virtual memory or fails, and
in the calls of `sleep`; everything in between is one step.
-/

namespace Svr4
namespace Kmem

open Function

/-- The tunable limits `t_minarmem` and `t_minasmem`. -/
structure Tune where
  minarmem : Nat
  minasmem : Nat

/-- Conversion to `ulong`. -/
def ulong (x : Int) : Nat := (x % 4294967296).toNat

/-- The test for too little memory, in unsigned arithmetic. -/
def Kma.memLow (t : Tune) (k : Kma) (clicks : Nat) : Prop :=
  ulong (k.availrmem - clicks) < t.minarmem ∨ ulong (k.availsmem - clicks) < t.minasmem

instance (t : Tune) (k : Kma) (clicks : Nat) : Decidable (k.memLow t clicks) := by
  unfold Kma.memLow
  infer_instance

def Kma.goto (k : Kma) (p : Nat) (phase : Phase) : Kma :=
  { k with phase := update k.phase p phase }

/-- The call returns `NULL`. -/
def Kma.giveUp (k : Kma) (p : Nat) : Kma := k.goto p .idle

def Kma.deliver (k : Kma) (p addr size : Nat) : Kma :=
  { k with live := (addr, size) :: k.live }.goto p .idle

def Kma.allocDone (k : Kma) (r : Range) : Kma :=
  { k with allocOn := update k.allocOn r false }.wakeprocs (.allocOn r)

/-- `if (size < wanted || wanted == 0) wanted = size`. -/
def minWanted (size wanted : Nat) : Nat :=
  if size < wanted ∨ wanted = 0 then size else wanted

/-- No pool is to be had: sleep for memory, or fail. -/
def Kma.noPool (k : Kma) (p : Nat) (f : Frame) (r : Range) : Kma :=
  if f.nosleep then
    match f.outer with
    | none => k.giveUp p
    | some o =>
      let k := k.setPages (alignDown (o.startp + MAXABIG - 1) MAXABIG) Range.big.clicks false
      ((k.addAvail Range.big.clicks).allocDone .big).giveUp p
  else
    { k with
      wanted := update k.wanted r (minWanted f.size (k.wanted r))
      }.goto p (.asleep f (.wanted r))

/-- `kmem_allocspool` or `kmem_allocbpool` up to `sptalloc`. -/
def Kma.newPool (t : Tune) (k : Kma) (p : Nat) (f : Frame) (r : Range) : Kma :=
  if k.allocOn r then
    if f.nosleep then k.noPool p f r else k.goto p (.asleep f (.allocOn r))
  else if k.memLow t r.clicks then (k.allocDone r).noPool p f r
  else
    { k.addAvail (-r.clicks) with
      allocOn := update k.allocOn r true }.goto p (.sptalloc f (some r))

def Kma.retry (t : Tune) (k : Kma) (p : Nat) (f : Frame) (r : Range) : Kma :=
  match k.mem.searchMax f.size with
  | some (bufp, m) => { k with mem := m }.deliver p bufp f.size
  | none => k.newPool t p f r

/-- The request is met; the rest of `kmem_allocbpool` may follow. -/
def Kma.finish (t : Tune) (k : Kma) (p : Nat) (f : Frame) (bufp : Nat) : Kma :=
  match f.outer with
  | none => k.deliver p bufp f.size
  | some o =>
    let k := { k with mem := k.mem.addBigPool o.startp bufp }.allocDone .big
    k.retry t p { size := o.size, nosleep := f.nosleep, outer := none } .big

/-- From `allocTop` on, for a request from a pool. -/
def Kma.allocTop (t : Tune) (k : Kma) (p : Nat) (f : Frame) : Kma :=
  match k.mem.search f.size with
  | some (bufp, m) => { k with mem := m }.finish t p f bufp
  | none => k.newPool t p f (rangeOf f.size)

/-- No pages are to be had for an outsize request: sleep for them, or fail. -/
def Kma.noPages (k : Kma) (p : Nat) (f : Frame) : Kma :=
  if f.nosleep then k.giveUp p
  else
    { k with osizeWanted := minWanted f.size k.osizeWanted }.goto p (.asleep f .osizeWanted)

/-- From `osizeagain` on, up to `sptalloc`. -/
def Kma.osizeagain (t : Tune) (k : Kma) (p : Nat) (f : Frame) : Kma :=
  if k.memLow t (btoc f.size) then k.noPages p f
  else (k.addAvail (-(btoc f.size))).goto p (.sptalloc f none)

/-- `kmem_alloc` from its start. -/
def Kma.kmemAlloc (t : Tune) (k : Kma) (p : Nat) (f : Frame) : Kma :=
  if f.size = 0 then k.giveUp p
  else if f.size ≤ MAXABIG then k.allocTop t p f
  else k.osizeagain t p f

/-- `sptalloc` has failed. -/
def Kma.sptFail (k : Kma) (p : Nat) (f : Frame) : Option Range → Kma
  | some r => ((k.addAvail r.clicks).allocDone r).noPool p f r
  | none => (k.addAvail (btoc f.size)).noPages p f

/-- `sptalloc` has delivered the pages at `base`. -/
def Kma.sptDone (t : Tune) (k : Kma) (p : Nat) (f : Frame) (base : Nat) :
    Option Range → Kma
  | some .small =>
    let k := k.setPages base Range.small.clicks true
    let k := { k with mem := k.mem.addSmallPool base }.allocDone .small
    match k.mem.searchMax f.size with
    | some (bufp, m) => { k with mem := m }.finish t p f bufp
    | none => k.newPool t p f .small
  | some .big =>
    let k := k.setPages base Range.big.clicks true
    k.allocTop t p
      { size := headerSize
        nosleep := f.nosleep
        outer := some { startp := base, size := f.size } }
  | none => (k.setPages base (btoc f.size) true).deliver p base f.size

/-- The pages a call is about to get from `sptalloc`. -/
def Frame.clicks (f : Frame) : Option Range → Nat
  | some r => r.clicks
  | none => btoc f.size

/--
What `sptalloc` promises of the pages it delivers: some pages, aligned, at
an address that is not zero, within the address space, none of them handed out
before.
-/
def Kma.Fresh (k : Kma) (base clicks : Nat) : Prop :=
  0 < clicks ∧ 0 < base ∧ base % NBPC = 0 ∧ base + clicks * NBPC ≤ 4294967296 ∧
    ∀ page ∈ List.range' (base / NBPC) clicks, k.sptmap page = false

instance (k : Kma) (base clicks : Nat) : Decidable (k.Fresh base clicks) := by
  unfold Kma.Fresh
  infer_instance

def Kma.resume (t : Tune) (k : Kma) (p : Nat) (f : Frame) : Chan → Kma
  | .wanted _ => k.allocTop t p f
  | .osizeWanted => k.osizeagain t p f
  | .allocOn r => k.newPool t p f r

/-!
## Freeing pools
-/

/-- The hash structure of a pool goes off its chain; a panic if it is not there. -/
def Mem.delHash (m : Mem) (i p : Nat) : Option Mem :=
  if ∃ h ∈ m.hashLists i, h.poolp = p then
    some
      { m with
        hashLists := update m.hashLists i ((m.hashLists i).eraseP fun h => h.poolp = p) }
  else none

/-- Take the buffers of an idle pool off the list, and the pool itself. -/
def Mem.dropPool (m : Mem) (p : Nat) : Option Mem :=
  let pool := m.pools p
  let i := pool.range.maxOffset
  let m := m.setList i ((m.freelists i).filter fun bufp => bufp.fbUnion ≠ .poolp p)
  let hashi := HASH pool.startp
  let hashj := HASH (pool.startp + pool.range.bytes - 1)
  (m.delHash hashi p).bind fun m =>
    if hashi ≠ hashj then m.delHash hashj p else some m

/-- `kmem_freepool` has gone through `fp_sleep`. -/
def Kma.copyIdle (k : Kma) : Kma :=
  let k := (k.wakeprocs (.allocOn .small)).wakeprocs (.allocOn .big)
  { k with mem := { k.mem with idle2p := k.mem.idlep, idlep := [] } }

def Mem.popIdle (m : Mem) : Mem := { m with idle2p := m.idle2p.dropLast }

/-- One turn of the loop of `kmem_freepool`, for the last pool noted. -/
def Kma.freepool (k : Kma) : Option Kma :=
  match k.mem.idle2p.getLast? with
  | none => some k.copyIdle
  | some p =>
    let k := { k with mem := k.mem.popIdle }
    let pool := k.mem.pools p
    if pool.inuse > 0 then
      some { k with mem := k.mem.setPool p { pool with idle := false } }
    else
      let clicks := pool.range.clicks
      (k.mem.dropPool p).bind fun m =>
        let k := { k with mem := m }
        let k := (k.setPages pool.startp clicks false).addAvail clicks
        let freed : Option Kma :=
          match pool.range with
          | .big => k.kmemFree p headerSize
          | .small => some k
        -- The least outsize request is in bytes, the pool size in pages.
        freed.map fun k => k.wakeOsize clicks

/-!
## The system
-/

inductive Event where
  | alloc (p : Nat) (size : UInt32) (nosleep : Bool)
  | sptalloc (p : Nat) (base : Option Nat)
  | resume (p : Nat)
  | free (addr size : Nat)
  | freepool
deriving DecidableEq, Repr

abbrev Kma.isLive (k : Kma) (addr size : Nat) : Prop := (addr, size) ∈ k.live

instance (k : Kma) (addr size : Nat) : Decidable (k.isLive addr size) :=
  inferInstanceAs (Decidable ((addr, size) ∈ k.live))

/-- One step; an event that does not apply changes nothing, and there is no result where the source
panics. -/
def Kma.step (t : Tune) (k : Kma) (e : Event) : Option Kma :=
  let k := { k with placed := [] }
  match e with
  | .alloc p size nosleep =>
    match k.phase p with
    | .idle =>
      some (k.kmemAlloc t p { size := size.toNat, nosleep := nosleep, outer := none })
    | _ => some k
  | .sptalloc p base =>
    match k.phase p with
    | .sptalloc f pool =>
      match base with
      | none => some (k.sptFail p f pool)
      | some base =>
        if k.Fresh base (f.clicks pool) then
          some (k.sptDone t p f base pool)
        else some k
    | _ => some k
  | .resume p =>
    match k.phase p with
    | .woken f chan => some (k.resume t p f chan)
    | _ => some k
  | .free addr size =>
    if (addr, size) ∈ k.live then
      { k with live := k.live.erase (addr, size) }.kmemFree addr size
    else some k
  | .freepool => k.freepool

/-- Before `kmem_init`: no pools, some memory. -/
def Kma.init (availrmem availsmem : Int) : Kma where
  mem :=
    { freelists := fun _ => []
      slack := fun _ => 0
      pools := fun _ =>
        { startp := 0, alignp := 0, inuse := 0, idle := false,
          bitmapp := fun _ => 0, range := .small }
      hashLists := fun _ => []
      newPool := fun _ => 0
      idlep := []
      idle2p := [] }
  wanted _ := 0
  osizeWanted := 0
  availrmem := availrmem
  availsmem := availsmem
  allocOn _ := false
  phase _ := .idle
  sptmap _ := false
  live := []
  placed := []

def Kma.run (t : Tune) : List Event → Kma → Option Kma
  | [], k => some k
  | e :: events, k => (k.step t e).bind (Kma.run t events)

def Kma.Step (t : Tune) (k : Kma) (e : Event) (k' : Kma) : Prop :=
  k.step t e = some k'

def Kma.Init (k : Kma) : Prop :=
  ∃ availrmem availsmem, k = Kma.init availrmem availsmem

def Kma.Reachable (t : Tune) : Kma → Prop :=
  Transition.Reachable Kma.Init (Kma.Step t)

end Kmem
end Svr4
