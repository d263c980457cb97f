import Mathlib.Tactic.Ring
import Svr4.Lib.NodeList

/-!
# Kernel memory allocator

The buffer pools, free lists and bitmaps of `os/kma.c`, and the routines
that take buffers from the free lists and give them back:
`kmem_coalesce`, `kmem_free`, and the search of `kmem_alloc`.

Memory is seen as far as the allocator uses it.  A free list is the list of its
buffers in link order; a buffer is known by its address; a pool is known by the
address of its `bufpool` structure.  The variables `listp` and
`tmpsiz` of the source always change together, so only the index of the
list is carried.
-/

namespace Svr4
namespace Kmem

open Function NodeList

/-!
## Constants
-/

def NBPC : Nat := 4096
def SMALLBYTES : Nat := 4096
def BIGBYTES : Nat := 16384
def NIDLEP : Nat := 128
def MINSMALL : Nat := 8
def MAXASMALL : Nat := 256
def MAXABIG : Nat := 4096
def NHASH : Nat := 128
def SHIFT : Nat := 14

/-- The two ranges of buffer sizes, each with pools of its own. -/
inductive Range where
  | small
  | big
deriving DecidableEq, Repr

/-- `MINASIDX - MINSIDX` and `MINABIDX - MINSIDX`. -/
def Range.minOffset : Range → Nat
  | .small => 1
  | .big => 6

/-- `SMAXOFFSET` and `BMAXOFFSET`: the largest allocable buffers. -/
def Range.maxOffset : Range → Nat
  | .small => 5
  | .big => 9

/-- `MINSIDX` and `MINBIDX`. -/
def Range.expmin : Range → Nat
  | .small => 3
  | .big => 9

/-- `MAXSIDX` and `MAXBIDX`. -/
def Range.expmax : Range → Nat
  | .small => 8
  | .big => 14

def Range.bytes : Range → Nat
  | .small => SMALLBYTES
  | .big => BIGBYTES

/-- `MAXASMALL` and `MAXABIG`. -/
def Range.maxBytes : Range → Nat
  | .small => MAXASMALL
  | .big => MAXABIG

/-- `btoc`: bytes to pages, in unsigned arithmetic. -/
def btoc (x : Nat) : Nat := (x + (NBPC - 1)) % 4294967296 / NBPC

/-- `SMALLCLICKS` and `BIGCLICKS`. -/
def Range.clicks (r : Range) : Nat := btoc r.bytes

def listSize (i : Nat) : Nat := MINSMALL * 2 ^ i

/-- The list belongs to the classes that can be allocated from a range. -/
def Range.Lists (r : Range) (i : Nat) : Prop :=
  r.minOffset ≤ i ∧ i ≤ r.maxOffset

variable {i addr j : Nat}

theorem Range.Lists.unique {r s : Range} (hr : r.Lists i) (hs : s.Lists i) : r = s := by
  rcases hr with ⟨hr, hr'⟩
  rcases hs with ⟨hs, hs'⟩
  cases r <;> cases s <;> simp only [minOffset, maxOffset] at * <;> omega

/-- `fl_nbits`; the two ranges have the same six values. -/
def nbits (i : Nat) : Nat := 2 ^ (i % 6)

/-- `fl_mask`: as many leading bits are set as `fl_nbits` says. -/
def flMask (i : Nat) : BitVec 32 :=
  match i % 6 with
  | 0 => 0x80000000#32
  | 1 => 0xc0000000#32
  | 2 => 0xf0000000#32
  | 3 => 0xff000000#32
  | 4 => 0xffff0000#32
  | _ => 0xffffffff#32

/-!
## Buffers, pools and lists
-/

inductive FbUnion where
  | poolp (p : Nat)
  | delayed
  | mapp (p word : Nat)
deriving DecidableEq, Repr

/-- `freebuf`, overlaid on the free buffer at `addr`. -/
structure FreeBuf where
  addr : Nat
  fbUnion : FbUnion
  fbMask : BitVec 32
deriving DecidableEq, Repr

/-- `bufpool`; the bitmap is given by its words. -/
structure BufPool where
  startp : Nat
  alignp : Nat
  inuse : Nat
  idle : Bool
  bitmapp : Nat → BitVec 32
  range : Range

structure HashPool where
  poolp : Nat
  alignp : Nat
  endp : Nat
deriving DecidableEq, Repr

/-- The variables of the allocator and the pools. -/
structure Mem where
  freelists : Nat → List FreeBuf
  slack : Nat → UInt32
  pools : Nat → BufPool
  hashLists : Nat → List HashPool
  newPool : Range → Nat
  idlep : List Nat
  idle2p : List Nat

def delayedBuf (addr : Nat) : FreeBuf :=
  { addr := addr, fbUnion := .delayed, fbMask := 0 }

def poolBuf (addr p : Nat) : FreeBuf :=
  { addr := addr, fbUnion := .poolp p, fbMask := 0 }

def Mem.setList (m : Mem) (i : Nat) (l : List FreeBuf) : Mem :=
  { m with freelists := update m.freelists i l }

def Mem.setSlack (m : Mem) (i : Nat) (n : UInt32) : Mem :=
  { m with slack := update m.slack i n }

def Mem.setPool (m : Mem) (p : Nat) (pool : BufPool) : Mem :=
  { m with pools := update m.pools p pool }

def Mem.headfree (m : Mem) (i : Nat) (buf : FreeBuf) : Mem :=
  m.setList i (buf :: m.freelists i)

def Mem.tailfree (m : Mem) (i : Nat) (buf : FreeBuf) : Mem :=
  m.setList i (m.freelists i ++ [buf])

def Mem.unlink (m : Mem) (i addr : Nat) : Mem :=
  m.setList i (NodeList.unlink FreeBuf.addr addr (m.freelists i))

def HASH (a : Nat) : Nat := (a >>> SHIFT) &&& (NHASH - 1)

def HashPool.valid (h : HashPool) (a : Nat) : Prop :=
  h.alignp ≤ a ∧ a < h.endp

instance (h : HashPool) (a : Nat) : Decidable (h.valid a) := by
  unfold HashPool.valid
  infer_instance

/-- `LOOKUP`: the pool an address is in. -/
def Mem.lookup (m : Mem) (a : Nat) : Option Nat :=
  ((m.hashLists (HASH a)).find? fun h => h.valid a).map HashPool.poolp

/-!
## Bitmaps
-/

def Mem.mapWord (m : Mem) (p word : Nat) (f : BitVec 32 → BitVec 32) : Mem :=
  let pool := m.pools p
  m.setPool p
    { pool with
      bitmapp :=
        update pool.bitmapp word (f (pool.bitmapp word)) }

/-- `*wordp |= mask`. -/
def Mem.orWord (m : Mem) (p word : Nat) (mask : BitVec 32) : Mem :=
  m.mapWord p word fun w => w ||| mask

/-- `*wordp &= ~mask`. -/
def Mem.clearWord (m : Mem) (p word : Nat) (mask : BitVec 32) : Mem :=
  m.mapWord p word fun w => w &&& ~~~mask

/-- Where the bits of a buffer are. -/
structure Loc where
  poolp : Nat
  word : Nat
  shift : Nat

/-- The pool of a buffer and the place of its bits. -/
def Mem.locate (m : Mem) (bufp : Nat) : Option Loc :=
  (m.lookup bufp).map fun p =>
    let pool := m.pools p
    let offset := bufp - pool.alignp
    { poolp := p
      word := offset >>> pool.range.expmax
      shift := (offset >>> pool.range.expmin) &&& 0x1f }

/-!
## Pools that become idle
-/

/-- A buffer of the largest class is free again; an idle pool may be noted for `kmem_freepool`.
-/
def Mem.dropInuse (m : Mem) (p : Nat) : Mem :=
  let pool := { m.pools p with inuse := (m.pools p).inuse - 1 }
  if pool.inuse = 0 ∧ p ≠ m.newPool .small ∧ p ≠ m.newPool .big ∧
      m.idlep.length < NIDLEP ∧ pool.idle = false then
    { m.setPool p { pool with idle := true } with idlep := m.idlep ++ [p] }
  else m.setPool p pool

def Mem.bumpInuse (m : Mem) (p : Nat) : Mem :=
  m.setPool p { m.pools p with inuse := (m.pools p).inuse + 1 }

/-!
## What the updates change
-/

variable {m : Mem}

namespace Mem

@[simp] theorem setList_freelists (m : Mem) (i : Nat) (l : List FreeBuf) :
    (m.setList i l).freelists = update m.freelists i l := rfl

@[simp] theorem setSlack_freelists (m : Mem) (i : Nat) (n : UInt32) :
    (m.setSlack i n).freelists = m.freelists := rfl

@[simp] theorem orWord_freelists (m : Mem) (p word : Nat) (mask : BitVec 32) :
    (m.orWord p word mask).freelists = m.freelists := rfl

@[simp] theorem dropInuse_freelists (m : Mem) (p : Nat) :
    (m.dropInuse p).freelists = m.freelists := by
  unfold dropInuse
  dsimp only
  split <;> rfl

def On (m : Mem) (i addr : Nat) : Prop :=
  ∃ buf ∈ m.freelists i, buf.addr = addr

instance (m : Mem) (i addr : Nat) : Decidable (m.On i addr) := by
  unfold On
  infer_instance

theorem On.congr {m' : Mem} (h : m'.freelists = m.freelists)
    (hon : m'.On i addr) : m.On i addr := by
  unfold On at hon
  rw [h] at hon
  exact hon

theorem On.of_headfree {buf : FreeBuf} (h : (m.headfree i buf).On j addr) :
    m.On j addr ∨ (i = j ∧ buf.addr = addr) := by
  rcases h with ⟨b, hb, haddr⟩
  unfold headfree at hb
  rw [setList_freelists] at hb
  by_cases hj : j = i
  · subst hj
    rw [update_self, List.mem_cons] at hb
    rcases hb with rfl | hb
    · exact .inr ⟨rfl, haddr⟩
    · exact .inl ⟨b, hb, haddr⟩
  · rw [update_of_ne hj] at hb
    exact .inl ⟨b, hb, haddr⟩

theorem On.of_tailfree {buf : FreeBuf} (h : (m.tailfree i buf).On j addr) :
    m.On j addr ∨ (i = j ∧ buf.addr = addr) := by
  rcases h with ⟨b, hb, haddr⟩
  unfold tailfree at hb
  rw [setList_freelists] at hb
  by_cases hj : j = i
  · subst hj
    rw [update_self, List.mem_append, List.mem_singleton] at hb
    rcases hb with hb | rfl
    · exact .inl ⟨b, hb, haddr⟩
    · exact .inr ⟨rfl, haddr⟩
  · rw [update_of_ne hj] at hb
    exact .inl ⟨b, hb, haddr⟩

theorem On.of_setList {l : List FreeBuf} (hl : ∀ b ∈ l, b ∈ m.freelists i)
    (h : (m.setList i l).On j addr) : m.On j addr := by
  rcases h with ⟨b, hb, haddr⟩
  rw [setList_freelists] at hb
  by_cases hj : j = i
  · subst hj
    rw [update_self] at hb
    exact ⟨b, hl b hb, haddr⟩
  · rw [update_of_ne hj] at hb
    exact ⟨b, hb, haddr⟩

theorem On.of_unlink {a : Nat} (h : (m.unlink i a).On j addr) : m.On j addr := by
  apply On.of_setList _ h
  intro b hb
  exact (NodeList.mem_unlink.mp hb).1

end Mem

/-!
## Taking and splitting buffers
-/

/-- Take the first buffer of a list, marked allocated. -/
def Mem.takeBuf (m : Mem) (r : Range) (i : Nat) : Option (Nat × Mem) :=
  match m.freelists i with
  | [] => none
  | bufp :: rest =>
    let m := m.setList i rest
    if i < r.maxOffset ∧ bufp.fbUnion ≠ .delayed then
      let m :=
        match bufp.fbUnion with
        | .mapp p word => m.orWord p word bufp.fbMask
        | _ => m
      some (bufp.addr, m.setSlack i (m.slack i + 1))
    else
      let m := m.setSlack i (m.slack i + 2)
      if i = r.maxOffset then
        match bufp.fbUnion with
        | .poolp p => some (bufp.addr, m.bumpInuse p)
        | _ => some (bufp.addr, m)
      else some (bufp.addr, m)

/--
Split a buffer of list `i + n` down to one of list `i`.  Of the two
buddies the first goes back to the free list, the second is split further.
-/
def Mem.split (i : Nat) : Nat → Nat → Mem → Nat × Mem
  | 0, bufp, m => (bufp, m)
  | n + 1, bufp, m =>
    Mem.split i n (bufp + listSize (i + n)) (m.headfree (i + n) (delayedBuf bufp))

/-- Search the lists from `i + d` on, `n` of them behind the first. -/
def Mem.searchFrom (m : Mem) (r : Range) (i : Nat) :
    Nat → Nat → Option (Nat × Mem)
  | n, d =>
    match m.takeBuf r (i + d) with
    | some (bufp, m) => some (Mem.split i d bufp m)
    | none =>
      match n with
      | 0 => none
      | n + 1 => Mem.searchFrom m r i n (d + 1)

/-- Find the list for a size, `n` lists behind `i` at most. -/
def findFrom (size : Nat) : Nat → Nat → Nat
  | 0, i => i
  | n + 1, i => if listSize i < size then findFrom size n (i + 1) else i

/-- The range a size up to `MAXABIG` belongs to. -/
def rangeOf (size : Nat) : Range :=
  if size ≤ MAXASMALL then .small else .big

def findList (size : Nat) : Nat :=
  let r := rangeOf size
  findFrom size (r.maxOffset - r.minOffset) r.minOffset

/-- `kmem_alloc` from `allocTop` on: the list and all larger ones. -/
def Mem.search (m : Mem) (size : Nat) : Option (Nat × Mem) :=
  let r := rangeOf size
  let i := findList size
  m.searchFrom r i (r.maxOffset - i) 0

/-- The search after a pool was allocated, among the largest buffers only. -/
def Mem.searchMax (m : Mem) (size : Nat) : Option (Nat × Mem) :=
  let r := rangeOf size
  let i := findList size
  m.searchFrom r i 0 (r.maxOffset - i)

/-!
## New pools
-/

/-- `x & ~(n - 1)`, for a power of two. -/
def alignDown (x n : Nat) : Nat := x / n * n

/-- Put `n` buffers of a new pool on the list of the largest ones. -/
def Mem.freeMemory (r : Range) (p : Nat) : Nat → Nat → Mem → Mem
  | 0, _, m => m
  | n + 1, memp, m =>
    Mem.freeMemory r p n (memp + r.maxBytes) (m.headfree r.maxOffset (poolBuf memp p))

def Mem.addHash (m : Mem) (i : Nat) (h : HashPool) : Mem :=
  { m with hashLists := update m.hashLists i (h :: m.hashLists i) }

/-- Set up a pool at `startp`, with its structure at `poolp`. -/
def Mem.addPool (m : Mem) (r : Range) (startp poolp skip : Nat) : Mem :=
  let endp := alignDown (startp + r.bytes) r.maxBytes
  let memp := alignDown (startp + r.maxBytes - 1) r.maxBytes
  let m := m.setPool poolp
    { startp := startp
      alignp := memp
      inuse := 0
      idle := false
      bitmapp := fun _ => 0xffffffff#32
      range := r }
  let hashp := { poolp := poolp, alignp := memp, endp := endp }
  let hashi := HASH startp
  let hashj := HASH (startp + r.bytes - 1)
  let m := m.addHash hashi hashp
  let m := if hashi ≠ hashj then m.addHash hashj hashp else m
  let m := Mem.freeMemory r poolp ((endp - (memp + skip)) / r.maxBytes) (memp + skip) m
  { m with newPool := update m.newPool r poolp }

/-- `kmem_allocspool`: the first two buffers hold structures and bitmap. -/
def Mem.addSmallPool (m : Mem) (startp : Nat) : Mem :=
  m.addPool .small startp (alignDown (startp + MAXASMALL - 1) MAXASMALL) (2 * MAXASMALL)

/-- `kmem_allocbpool`: structures and bitmap are a buffer of their own. -/
def Mem.addBigPool (m : Mem) (startp poolp : Nat) : Mem :=
  m.addPool .big startp poolp 0

/--
`sizeof(bufpool) + 2 * sizeof(hashpool) + BIGBYTES / (MINBIG * 8)`.
-/
def headerSize : Nat := 28 + 2 * 20 + 4

/-!
## Processes
-/

inductive Chan where
  | wanted (r : Range)
  | osizeWanted
  | allocOn (r : Range)
deriving DecidableEq, Repr

/-- The `kmem_alloc` call for which `kmem_allocbpool` needs a pool. -/
structure Outer where
  startp : Nat
  size : Nat
deriving DecidableEq, Repr

/-- A `kmem_alloc` call; `outer` is there when `kmem_allocbpool` makes it. -/
structure Frame where
  size : Nat
  nosleep : Bool
  outer : Option Outer
deriving DecidableEq, Repr

/-- Where a process is; in `sptalloc` for a pool or an outsize buffer. -/
inductive Phase where
  | idle
  | sptalloc (f : Frame) (pool : Option Range)
  | asleep (f : Frame) (chan : Chan)
  | woken (f : Frame) (chan : Chan)
deriving DecidableEq, Repr

/-- A buffer put on a list; did a wake-up test compare with its size? -/
structure Placement where
  list : Nat
  addr : Nat
  tested : Bool
deriving DecidableEq, Repr

/-- The state of the allocator and of the processes in it. -/
structure Kma where
  mem : Mem
  wanted : Range → Nat
  osizeWanted : Nat
  availrmem : Int
  availsmem : Int
  allocOn : Range → Bool
  phase : Nat → Phase
  /-- The pages `sptalloc` has handed out and not got back. -/
  sptmap : Nat → Bool
  /-- The buffers the callers hold, with the sizes they asked for. -/
  live : List (Nat × Nat)
  /-- The buffers the present step has put on lists; no routine reads it. -/
  placed : List Placement

/-- The processes asleep on a channel are made to run. -/
def Kma.wakeprocs (k : Kma) (chan : Chan) : Kma :=
  { k with
    phase := fun p =>
      match k.phase p with
      | .asleep f c => if c = chan then .woken f c else .asleep f c
      | ph => ph }

/-- The wake-up test for the processes that wait for buffers. -/
def Kma.wakeWanted (k : Kma) (r : Range) (size : Nat) : Kma :=
  if k.wanted r > 0 ∧ k.wanted r ≤ size then
    { k with wanted := update k.wanted r 0 }.wakeprocs (.wanted r)
  else k

def Kma.place (k : Kma) (i addr : Nat) (tested : Bool) : Kma :=
  { k with placed := { list := i, addr := addr, tested := tested } :: k.placed }

/-!
## Coalescing
-/

/-- `kmem_coalesce` from `freeagain` on, with the number of classes above the buffer's;
there is no result where the lookup of a pool panics. -/
def Kma.freeagain (r : Range) :
    Nat → Nat → Nat → Loc → BitVec 32 → Kma → Option Kma
  | 0, _, _, _, _, _ => none
  | n + 1, i, bufp, loc, mask, k =>
    let bshift := loc.shift ^^^ nbits i
    let bmask := flMask i >>> bshift
    if (k.mem.pools loc.poolp).bitmapp loc.word &&& bmask = 0 then
      -- The buddy is not allocated.
      let buddy := bufp ^^^ listSize i
      let m := k.mem.unlink i buddy
      let mask := mask ||| bmask
      let loc := { loc with shift := loc.shift &&& bshift }
      let bufp := buddy ^^^ (buddy &&& listSize i)
      let i := i + 1
      if m.slack i ≥ 2 ∨ i = r.maxOffset then
        let m := m.orWord loc.poolp loc.word mask
        let m :=
          if i < r.maxOffset then
            let m := m.headfree i (delayedBuf bufp)
            m.setSlack i (m.slack i - 2)
          else (m.headfree i (poolBuf bufp loc.poolp)).dropInuse loc.poolp
        some (({ k with mem := m }.place i bufp true).wakeWanted r (listSize i))
      else
        let accelerated : Option Kma :=
          match m.freelists i with
          | buf2p :: rest =>
            if m.slack i = 0 ∧ buf2p.fbUnion = .delayed then
              let m := m.setList i rest
              (m.locate buf2p.addr).bind fun loc2 =>
                Kma.freeagain r n i buf2p.addr loc2 (flMask i >>> loc2.shift) { k with mem := m }
            else some { k with mem := m.setSlack i 0 }
          | [] => some { k with mem := m.setSlack i 0 }
        accelerated.bind fun k => Kma.freeagain r n i bufp loc mask k
    else
      let m := k.mem.clearWord loc.poolp loc.word mask
      let buf := { addr := bufp, fbUnion := .mapp loc.poolp loc.word,
                   fbMask := mask }
      some ({ k with mem := m.tailfree i buf }.place i bufp false)

/-- `kmem_coalesce`. -/
def Kma.coalesce (k : Kma) (r : Range) (i bufp : Nat) : Option Kma :=
  (k.mem.locate bufp).bind fun loc =>
    Kma.freeagain r (r.maxOffset - i) i bufp loc (flMask i >>> loc.shift) k

/-!
## Freeing
-/

def Kma.setPages (k : Kma) (addr clicks : Nat) (held : Bool) : Kma :=
  { k with
    sptmap := fun page =>
      if addr / NBPC ≤ page ∧ page < addr / NBPC + clicks then held
      else k.sptmap page }

def Kma.addAvail (k : Kma) (clicks : Int) : Kma :=
  { k with
    availrmem := k.availrmem + clicks
    availsmem := k.availsmem + clicks }

/--
The wake-up test for the processes that wait for pages.  The record is an
`int`, so that a size with the sign bit set does not count as positive.
-/
def Kma.wakeOsize (k : Kma) (size : Nat) : Kma :=
  if k.osizeWanted > 0 ∧ k.osizeWanted < 2147483648 ∧
      k.osizeWanted ≤ size then
    { k with osizeWanted := 0 }.wakeprocs .osizeWanted
  else k

/-- `kmem_free` of a buffer that was allocated directly. -/
def Kma.freeOsize (k : Kma) (addr size : Nat) : Kma :=
  ((k.setPages addr (btoc size) false).addAvail (btoc size)).wakeOsize size

def Kma.kmemFree (k : Kma) (addr size : Nat) : Option Kma :=
  if addr = 0 ∨ size = 0 then some k
  else if size > MAXABIG then some (k.freeOsize addr size)
  else
    let r := rangeOf size
    let i := findList size
    let freed : Option Kma :=
      if k.mem.slack i ≥ 2 ∨ i = r.maxOffset then
        let m := k.mem.setSlack i (k.mem.slack i - 2)
        if i < r.maxOffset then
          some ({ k with mem := m.headfree i (delayedBuf addr) }.place i addr false)
        else
          (m.lookup addr).map fun p =>
            { k with
              mem := (m.headfree i (poolBuf addr p)).dropInuse p }.place i
              addr false
      else
        (k.coalesce r i addr).bind fun k =>
          match k.mem.freelists i with
          | buf2p :: rest =>
            if k.mem.slack i = 0 ∧ buf2p.fbUnion = .delayed then
              { k with mem := k.mem.setList i rest }.coalesce r i buf2p.addr
            else some { k with mem := k.mem.setSlack i 0 }
          | [] => some { k with mem := k.mem.setSlack i 0 }
    freed.map fun k => k.wakeWanted r size

end Kmem
end Svr4
