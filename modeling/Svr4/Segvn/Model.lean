import Mathlib.Data.List.Basic
import Svr4.Lib.Transition

/-!
# Segments of mapped memory

The segment driver `vm/seg_vn.c` as far as it decides what the addresses of
an address space denote: the anonymous pages of segments and who shares them, the
creation, merging, duplication and partial removal of segments, and the swap space
reserved.  Sizes, addresses and offsets are in pages.  A count that the code would
let wrap below zero is negative here.
-/

namespace Svr4
namespace Segvn

open Function

/-!
## Structures
-/

abbrev Prot := BitVec 8

def PROT_WRITE : Prot := 2

inductive MapType where
  | shared
  | priv
deriving DecidableEq

structure Vpage where
  vpProt : Prot
  vpPplock : Bool
deriving DecidableEq

/-- `struct anon_map`; the slots of the array hold the numbers of anonymous pages. -/
structure AnonMap where
  refcnt : Nat
  size : Nat
  anon : Nat → Option Nat
  swresv : Int

/-- `struct seg` and `struct segvn_data`. -/
structure Seg where
  sBase : Nat
  sSize : Nat
  pageprot : Bool
  prot : Prot
  maxprot : Prot
  type : MapType
  vp : Option Nat
  offset : Int
  anonIndex : Nat
  amp : Option Nat
  vpage : Option (List Vpage)
  swresv : Int

/-- What segments refer to: the anon maps, how often each anonymous page is referred
to, and the swap space reserved. -/
structure Heap where
  amps : Nat → Option AnonMap
  nextAmp : Nat
  refs : Nat → Int
  aniResv : Int

structure Crargs where
  vp : Option Nat
  offset : Nat
  type : MapType
  prot : Prot
  maxprot : Prot
  amp : Option Nat

structure CreateEnv where
  anonResv : Bool
  hatMap : Bool
  addmap : Bool
  kas : Bool
  /-- the page that `anon_zero` makes for a slot -/
  anonZero : Nat → Nat

def anonSlop : Nat := 16

def writable (prot : Prot) : Bool := decide (prot &&& PROT_WRITE ≠ 0)

namespace Seg

def sEnd (s : Seg) : Nat := s.sBase + s.sSize

def contains (s : Seg) (p : Nat) : Bool := decide (s.sBase ≤ p ∧ p < s.sEnd)

end Seg

/-!
## Anonymous pages
-/

namespace AnonMap

/-- `bzero` on some slots. -/
def clear (m : AnonMap) (i n : Nat) : AnonMap :=
  { m with anon := fun j => if i ≤ j ∧ j < i + n then none else m.anon j }

def held (m : AnonMap) (i n a : Nat) : Nat :=
  (List.range n).countP fun j => m.anon (i + j) == some a

end AnonMap

namespace Heap

def setAmp (h : Heap) (k : Nat) (m : AnonMap) : Heap :=
  { h with amps := update h.amps k (some m) }

def anonFree (h : Heap) (k i n : Nat) : Heap :=
  match h.amps k with
  | none => h
  | some m =>
    { h.setAmp k (m.clear i n) with refs := fun a => h.refs a - m.held i n a }

/-- `anon_resv`, where there is room. -/
def anonResv (h : Heap) (n : Int) : Heap := { h with aniResv := h.aniResv + n }

def anonUnresv (h : Heap) (n : Int) : Heap := { h with aniResv := h.aniResv - n }

def newAmp (h : Heap) (m : AnonMap) : Heap × Nat :=
  ({ h.setAmp h.nextAmp m with nextAmp := h.nextAmp + 1 }, h.nextAmp)

def anonmapAlloc (h : Heap) (size : Nat) (swresv : Int) : Heap × Nat :=
  h.newAmp { refcnt := 1, size := size, anon := fun _ => none, swresv := swresv }

/-- A copy of some slots of a map, which `anon_dup` makes in a new map. -/
def anonDup (h : Heap) (m : AnonMap) (i n : Nat) : Heap × Nat :=
  { h with refs := fun a => h.refs a + m.held i n a }.newAmp
    { refcnt := 1, size := n, anon := fun j => if j < n then m.anon (i + j) else none
      swresv := 0 }

def ampOf (h : Heap) (s : Seg) : Option AnonMap := s.amp.bind h.amps

/-- `anon_free` on slots that a segment refers to. -/
def freeRange (h : Heap) (s : Seg) (i n : Nat) : Heap :=
  match s.amp with
  | none => h
  | some k => h.anonFree k i n

def holdAmp (h : Heap) (s : Seg) : Heap :=
  match s.amp with
  | none => h
  | some k =>
    match h.amps k with
    | none => h
    | some m => h.setAmp k { m with refcnt := m.refcnt + 1 }

/-!
## Freeing a segment
-/

/-- `segvn_free`, for the anon map. -/
def releaseAmp (h : Heap) (s : Seg) : Heap :=
  match s.amp with
  | none => h
  | some k =>
    match h.amps k with
    | none => h
    | some m =>
      let h := h.setAmp k { m with refcnt := m.refcnt - 1 }
      if m.refcnt - 1 = 0 then
        let h :=
          if s.type = .priv then h.anonFree k s.anonIndex s.sSize
          else (h.anonFree k 0 m.size).anonUnresv m.swresv
        { h with amps := update h.amps k none }
      else if s.type = .priv then h.anonFree k s.anonIndex s.sSize
      else h

def segvnFree (h : Heap) (s : Seg) : Heap := (h.releaseAmp s).anonUnresv s.swresv

/-!
## Unmapping
-/

/-- The removal of some of a segment frees its slots. -/
def freesSlots (h : Heap) (s : Seg) : Bool :=
  match h.ampOf s with
  | none => false
  | some m => decide (m.refcnt = 1 ∨ s.type = .priv)

end Heap

def setRange (l : List Vpage) (i n : Nat) (f : Vpage → Vpage) : List Vpage :=
  l.mapIdx fun j v => if i ≤ j ∧ j < i + n then f v else v

/-- `segvn_lockop` with `MC_UNLOCK`. -/
def Seg.unlock (s : Seg) (addr len : Nat) : Seg :=
  { s with vpage := s.vpage.map fun l =>
      setRange l (addr - s.sBase) len fun v => { v with vpPplock := false } }

/-- `segvn_unmap` at the beginning of a segment, where `freed` tells that the
anon slots are freed. -/
def Seg.cutHead (s : Seg) (len : Nat) (freed : Bool) : Seg :=
  { s with
    vpage := s.vpage.map fun l => (l.drop len).take (s.sSize - len)
    anonIndex := if freed then s.anonIndex + len else s.anonIndex
    offset := if s.vp ≠ none then s.offset + len else s.offset
    swresv := if s.swresv ≠ 0 then s.swresv - len else s.swresv
    sBase := s.sBase + len
    sSize := s.sSize - len }

/-- `segvn_unmap` at the end of a segment. -/
def Seg.cutTail (s : Seg) (len : Nat) : Seg :=
  { s with
    vpage := s.vpage.map fun l => l.take (s.sSize - len)
    swresv := if s.swresv ≠ 0 then s.swresv - len else s.swresv
    sSize := s.sSize - len }

/-- The low end of a segment whose middle is removed. -/
def Seg.lowEnd (s : Seg) (addr : Nat) : Seg :=
  { s with
    sSize := addr - s.sBase
    vpage := s.vpage.map fun l => l.take (addr - s.sBase)
    swresv := if s.swresv ≠ 0 then ((addr - s.sBase : Nat) : Int) else s.swresv }

/-- The high end of a segment whose middle is removed. -/
def Seg.highEnd (s : Seg) (nbase : Nat) : Seg :=
  let nsize := s.sEnd - nbase
  { s with
    sBase := nbase
    sSize := nsize
    offset := s.offset + nbase - s.sBase
    vpage := s.vpage.map fun l => (l.drop (s.sSize - nsize)).take nsize
    anonIndex := if s.amp = none then 0 else s.anonIndex + (nbase - s.sBase)
    swresv := if s.swresv ≠ 0 then (nsize : Int) else 0 }

namespace Heap

/-- The slots of some of a segment are freed where they are its own. -/
def freeOwned (h : Heap) (s : Seg) (i n : Nat) : Heap :=
  if h.freesSlots s then h.freeRange s i n else h

def unresvPart (h : Heap) (s : Seg) (len : Nat) : Heap :=
  if s.swresv ≠ 0 then h.anonUnresv len else h

def unmapHead (h : Heap) (s : Seg) (len : Nat) : Heap × Seg :=
  ((h.freeOwned s s.anonIndex len).unresvPart s len, s.cutHead len (h.freesSlots s))

def unmapTail (h : Heap) (s : Seg) (len : Nat) : Heap × Seg :=
  ((h.freeOwned s (s.anonIndex + (s.sSize - len)) len).unresvPart s len, s.cutTail len)

/-- `segvn_unmap` in the middle of a segment, which becomes two; there is none
where the code panics because the swap reservation cannot be split. -/
def unmapMiddle (h : Heap) (s : Seg) (addr len : Nat) : Option (Heap × List Seg) :=
  let seg := s.lowEnd addr
  let nseg := s.highEnd (addr + len)
  let h := (h.freeOwned s (s.anonIndex + seg.sSize) len).holdAmp s
  if s.swresv ≠ 0 ∧ ((seg.sSize + nseg.sSize + len : Nat) : Int) ≠ s.swresv then none
  else some (h.unresvPart s len, [seg, nseg])

/-- `segvn_unmap`, with the segments that are left. -/
def segvnUnmap (h : Heap) (s : Seg) (addr len : Nat) : Option (Heap × List Seg) :=
  let s := s.unlock addr len
  if addr = s.sBase ∧ len = s.sSize then some (h.segvnFree s, [])
  else if addr = s.sBase then
    let r := h.unmapHead s len
    some (r.1, [r.2])
  else if addr + len = s.sEnd then
    let r := h.unmapTail s len
    some (r.1, [r.2])
  else h.unmapMiddle s addr len

def asUnmap (h : Heap) (raddr eaddr : Nat) : List Seg → Option (Heap × List Seg)
  | [] => some (h, [])
  | s :: rest =>
    if s.sEnd ≤ raddr then
      match asUnmap h raddr eaddr rest with
      | none => none
      | some (h, rest) => some (h, s :: rest)
    else if eaddr ≤ s.sBase then some (h, s :: rest)
    else
      let raddr := max raddr s.sBase
      let ssize := min eaddr s.sEnd - raddr
      match h.segvnUnmap s raddr ssize with
      | none => none
      | some (h, pieces) =>
        match asUnmap h (raddr + ssize) eaddr rest with
        | none => none
        | some (h, rest) => some (h, pieces ++ rest)

end Heap

/-!
## Duplicating
-/

/-- A segment with other anon slots, none of whose pages is locked. -/
def Seg.copy (s : Seg) (anonIndex : Nat) (amp : Option Nat) : Seg :=
  { s with
    anonIndex := anonIndex
    amp := amp
    vpage := s.vpage.map fun l => l.map fun v => { v with vpPplock := false } }

namespace Heap

/-- `segvn_dup`, once the swap space has been reserved. -/
def segvnDup (h : Heap) (s : Seg) : Heap × Seg :=
  let h := h.anonResv s.swresv
  match s.amp with
  | none => (h, s.copy 0 none)
  | some k =>
    match h.amps k with
    | none => (h, s.copy 0 none)
    | some m =>
      if s.type = .shared then
        (h.setAmp k { m with refcnt := m.refcnt + 1 }, s.copy s.anonIndex (some k))
      else
        let r := h.anonDup m s.anonIndex s.sSize
        (r.1, s.copy 0 (some r.2))

/-!
## Protection
-/

end Heap

def Seg.segvnVpage (s : Seg) : Seg :=
  match s.vpage with
  | some _ => s
  | none =>
    { s with
      pageprot := true
      vpage := some (List.replicate s.sSize { vpProt := s.prot, vpPplock := false }) }

namespace Heap

/-- `segvn_setprot`: the reservation for pages that become writable. -/
def setprotResv (h : Heap) (s : Seg) (prot : Prot) : Heap × Seg :=
  if s.type = .priv ∧ writable prot ∧ s.swresv = 0 then
    (h.anonResv s.sSize, { s with swresv := s.sSize })
  else (h, s)

/-- `segvn_setprot`, after the reservation; `done` is how many pages are
done before locked pages stop it. -/
def setprotPages (h : Heap) (s : Seg) (addr len : Nat) (prot : Prot) (done : Nat) :
    Heap × Seg :=
  if addr = s.sBase ∧ len = s.sSize ∧ s.pageprot = false then
    if s.type = .priv ∧ ¬ writable prot ∧ s.swresv ≠ 0 ∧ s.amp = none then
      (h.anonUnresv s.swresv, { s with swresv := 0, prot := prot })
    else (h, { s with prot := prot })
  else
    let s := s.segvnVpage
    let set := fun l =>
      setRange l (addr - s.sBase) (min done len) fun v => { v with vpProt := prot }
    (h, { s with vpage := s.vpage.map set })

def segvnSetprot (h : Heap) (s : Seg) (addr len : Nat) (prot : Prot) (resv : Bool)
    (done : Nat) : Heap × Seg :=
  if s.maxprot &&& prot ≠ prot then (h, s)
  else if s.type = .priv ∧ writable prot ∧ s.swresv = 0 ∧ ¬ resv then (h, s)
  else
    let r := h.setprotResv s prot
    r.1.setprotPages r.2 addr len prot done

/-!
## Faults and locking
-/

/-- A map is allocated; `swresv` is what is left in that field, which is not set. -/
def faultAmp (h : Heap) (s : Seg) (swresv : Int) : Heap × Seg :=
  let r := h.anonmapAlloc s.sSize swresv
  (r.1, { s with amp := some r.2, anonIndex := s.anonIndex })

/-- A slot gets a page: an empty one a new page, or one of a private mapping that is
written a copy. -/
def fillSlot (h : Heap) (s : Seg) (page : Nat) (write : Bool) (a : Nat) : Heap :=
  match s.amp with
  | none => h
  | some k =>
    match h.amps k with
    | none => h
    | some m =>
      let i := s.anonIndex + page
      match m.anon i with
      | none =>
        { h.setAmp k { m with anon := update m.anon i (some a) } with
          refs := fun b => h.refs b + if b = a then 1 else 0 }
      | some old =>
        if s.type = .priv ∧ write then
          { h.setAmp k { m with anon := update m.anon i (some a) } with
            refs := fun b =>
              h.refs b + (if b = a then 1 else 0) - if b = old then 1 else 0 }
        else h

/-- `segvn_fault` on one page: the map it may allocate, and the page it makes. -/
def segvnFault (h : Heap) (s : Seg) (page : Nat) (write : Bool) (ap : Option Nat)
    (swresv : Int) : Heap × Seg :=
  let r := if s.amp = none ∧ (s.vp = none ∨ write ∧ s.type = .priv) then
      h.faultAmp s swresv
    else (h, s)
  (match ap with
    | none => r.1
    | some a => r.1.fillSlot r.2 page write a, r.2)

/-- `segvn_lockop` with `MC_LOCK`; `locks` tells which pages it locks. -/
def segvnLock (h : Heap) (s : Seg) (addr len : Nat) (locks : Nat → Bool) (swresv : Int) :
    Heap × Seg :=
  let s := s.segvnVpage
  let lock := fun (j : Nat) (v : Vpage) =>
    if addr - s.sBase ≤ j ∧ j < addr - s.sBase + len ∧ locks j then
      { v with vpPplock := true }
    else v
  let s : Seg := { s with vpage := s.vpage.map fun l => l.mapIdx lock }
  if s.amp = none ∧ s.vp = none then h.faultAmp s swresv else (h, s)

end Heap

/-!
## Creating and merging
-/

def Seg.growUp (s : Seg) (size : Nat) (swresv : Int) : Seg :=
  { s with sSize := s.sSize + size, swresv := s.swresv + swresv }

/-- A segment that is made longer at its beginning. -/
def Seg.growDown (s : Seg) (size : Nat) (swresv : Int) : Seg :=
  { s with
    sSize := s.sSize + size
    sBase := s.sBase - size
    offset := s.offset - size
    swresv := s.swresv + swresv }

/-- The segment that `segvn_create` makes. -/
def Crargs.newSeg (a : Crargs) (sBase sSize : Nat) (swresv : Int) (anonIndex : Nat)
    (amp : Option Nat) : Seg where
  sBase := sBase
  sSize := sSize
  pageprot := false
  prot := a.prot
  maxprot := a.maxprot
  type := a.type
  vp := a.vp
  offset := a.offset
  anonIndex := anonIndex
  amp := amp
  vpage := none
  swresv := if a.type = .shared then 0 else swresv

namespace Heap

def segvnConcat (h : Heap) (s₁ s₂ : Seg) : Option (Heap × Seg) :=
  if s₁.vp ≠ s₂.vp ∨ s₁.maxprot ≠ s₂.maxprot ∨ s₁.prot ≠ s₂.prot ∨ s₁.type ≠ s₂.type then
    none
  else if s₁.vp ≠ none ∧ s₁.offset + s₁.sSize ≠ s₂.offset then none
  else if s₁.amp ≠ none ∨ s₂.amp ≠ none then none
  else if s₁.vpage ≠ none ∨ s₂.vpage ≠ none then none
  else some (h.segvnFree { s₂ with swresv := 0 }, s₁.growUp s₂.sSize s₂.swresv)

/-- The array of `amp1` is made longer, or slots behind the used ones are cleared. -/
def growBehind (h : Heap) (k : Nat) (m : AnonMap) (s : Seg) (size : Nat) : Heap × Seg :=
  if m.size - s.anonIndex < s.sSize + size then
    (h.setAmp k { m with
      size := s.sSize + size + anonSlop
      anon := fun j => if j < s.sSize then m.anon (s.anonIndex + j) else none },
      { s with anonIndex := 0 })
  else (h.setAmp k (m.clear (s.anonIndex + s.sSize) size), s)

/-- `segvn_extend_prev`, where `size` is that of the new segment. -/
def segvnExtendPrev (h : Heap) (s : Seg) (size : Nat) (a : Crargs) (swresv : Int) :
    Option (Heap × Seg) :=
  if s.vp ≠ a.vp ∨ s.maxprot ≠ a.maxprot ∨ s.prot ≠ a.prot ∨ s.type ≠ a.type then none
  else if s.vp ≠ none ∧ s.offset + s.sSize ≠ a.offset then none
  else if s.vpage ≠ none then none
  else
    match s.amp with
    | none => some (h, s.growUp size swresv)
    | some k =>
      match h.amps k with
      | none => none
      | some m =>
        if 1 < m.refcnt ∧ m.size ≠ s.sSize then none
        else
          let r := h.growBehind k m s size
          some (r.1, r.2.growUp size swresv)

/-- The array of `amp2` is made longer, or slots before the used ones are cleared. -/
def growBefore (h : Heap) (k : Nat) (m : AnonMap) (s : Seg) (size : Nat) : Heap × Seg :=
  if s.anonIndex < size then
    (h.setAmp k { m with
      size := size + s.sSize + anonSlop
      anon := fun j =>
        if anonSlop + size ≤ j ∧ j < anonSlop + size + s.sSize then
          m.anon (s.anonIndex + (j - (anonSlop + size)))
        else none },
      { s with anonIndex := anonSlop })
  else (h.setAmp k (m.clear (s.anonIndex - size) size), { s with anonIndex := s.anonIndex - size })

/-- `segvn_extend_next`, where `size` is that of the new segment. -/
def segvnExtendNext (h : Heap) (s : Seg) (size : Nat) (a : Crargs) (swresv : Int) :
    Option (Heap × Seg) :=
  if s.vp ≠ a.vp ∨ s.maxprot ≠ a.maxprot ∨ s.prot ≠ a.prot ∨ s.type ≠ a.type then none
  else if s.vp ≠ none ∧ a.offset + (size : Int) ≠ s.offset then none
  else if s.vpage ≠ none then none
  else
    match s.amp with
    | none => some (h, s.growDown size swresv)
    | some k =>
      match h.amps k with
      | none => none
      | some m =>
        if 1 < m.refcnt then none
        else
          let r := h.growBefore k m s size
          some (r.1, r.2.growDown size swresv)

/-- The pages that a private mapping of a given map needs are made. -/
def zeroSlots (h : Heap) (k : Nat) (m : AnonMap) (i n : Nat) (anonZero : Nat → Nat) :
    Heap × AnonMap :=
  let made := fun j => decide (i ≤ j ∧ j < i + n) && (m.anon j).isNone
  let m := { m with anon := fun j => if made j then some (anonZero j) else m.anon j }
  let count := fun a => (List.range n).countP fun j => made (i + j) && anonZero (i + j) == a
  ({ h.setAmp k m with refs := fun a => h.refs a + count a }, m)

/-- `segvn_create`, for a segment of its own; there is none where the code panics. -/
def createSeg (h : Heap) (sBase sSize : Nat) (a : Crargs) (swresv : Int)
    (anonZero : Nat → Nat) : Option (Heap × Seg) :=
  let s := a.newSeg sBase sSize swresv
  match a.amp with
  | none =>
    if a.type = .shared ∧ a.vp = none then
      let r := h.anonmapAlloc sSize swresv
      some (r.1, s 0 (some r.2))
    else some (h, s 0 none)
  | some k =>
    match h.amps k with
    | none => none
    | some m =>
      if a.vp ≠ none ∨ m.size < a.offset + sSize then none
      else if a.type = .shared then
        some (h.setAmp k { m with refcnt := m.refcnt + 1 }, s a.offset (some k))
      else
        let r := h.zeroSlots k m a.offset sSize anonZero
        let r := r.1.anonDup r.2 a.offset sSize
        some (r.1, s 0 (some r.2))

def newSwresv (a : Crargs) (sSize : Nat) : Int :=
  if (a.vp = none ∧ a.amp = none) ∨ (a.type = .priv ∧ writable a.prot) then sSize else 0

/-- `segvn_create` tries to extend the segment before the new one. -/
def mergePrev (h : Heap) (before : List Seg) (sBase sSize : Nat) (a : Crargs)
    (swresv : Int) : Option (Heap × Seg) :=
  (before.getLast?.filter fun s => s.sEnd = sBase).bind fun s =>
    h.segvnExtendPrev s sSize a swresv

/-- `segvn_create` tries to merge the new segment with the one before it, and
then with the one after it. -/
def merge (h : Heap) (before after : List Seg) (sBase sSize : Nat) (a : Crargs)
    (swresv : Int) : Option (Heap × List Seg) :=
  match h.mergePrev before sBase sSize a swresv with
  | some (h, s) =>
    match after with
    | [] => some (h, before.dropLast ++ [s])
    | n :: rest =>
      match if s.sEnd = n.sBase then h.segvnConcat s n else none with
      | some (h, s) => some (h, before.dropLast ++ s :: rest)
      | none => some (h, before.dropLast ++ s :: n :: rest)
  | none =>
    match after with
    | [] => none
    | n :: rest =>
      match if sBase + sSize = n.sBase then h.segvnExtendNext n sSize a swresv
        else none with
      | some (h, s) => some (h, before ++ s :: rest)
      | none => none

/-- `segvn_create`, between the segments before and after the new one. -/
def segvnCreate (h : Heap) (before after : List Seg) (sBase sSize : Nat) (a : Crargs)
    (env : CreateEnv) : Option (Heap × List Seg) :=
  let swresv := newSwresv a sSize
  if swresv ≠ 0 ∧ ¬ env.anonResv then some (h, before ++ after)
  else if ¬ env.hatMap ∨ ¬ env.addmap then some (h, before ++ after)
  else
    let h := h.anonResv swresv
    match if a.amp = none ∧ ¬ env.kas then h.merge before after sBase sSize a swresv
      else none with
    | some r => some r
    | none =>
      match h.createSeg sBase sSize a swresv env.anonZero with
      | none => none
      | some (h, s) => some (h, before ++ s :: after)

/-- `as_map`: the new segment must not overlap another. -/
def asMap (h : Heap) (space : List Seg) (sBase sSize : Nat) (a : Crargs)
    (env : CreateEnv) : Option (Heap × List Seg) :=
  let before := space.takeWhile fun s => s.sEnd ≤ sBase
  let after := space.dropWhile fun s => s.sEnd ≤ sBase
  if sSize = 0 ∨ after.head?.any fun s => s.sBase < sBase + sSize then some (h, space)
  else h.segvnCreate before after sBase sSize a env

end Heap

/-!
## Address spaces
-/

/-- The address spaces, each with its segments in order, and how often a shared
memory identifier or an attachment holds each map. -/
structure World where
  heap : Heap
  spaces : List (List Seg)
  shm : Nat → Nat

inductive Event where
  | asAlloc
  | map (i sBase sSize : Nat) (a : Crargs) (env : CreateEnv)
  | unmap (i raddr size : Nat)
  | free (i n : Nat)
  | dup (i n j : Nat) (resv addmap : Bool)
  | setprot (i n addr len : Nat) (prot : Prot) (resv : Bool) (done : Nat)
  | fault (i n page : Nat) (write : Bool) (ap : Option Nat) (swresv : Int)
  | lock (i n addr len : Nat) (locks : Nat → Bool) (swresv : Int)
  | shmget (size : Nat) (resv : Bool)
  | shmhold (k : Nat)
  | shmrele (k : Nat)

namespace World

def onSpace (w : World) (i : Nat) (f : List Seg → Option (Heap × List Seg)) :
    Option World :=
  match w.spaces[i]? with
  | none => some w
  | some space =>
    match f space with
    | none => none
    | some (h, space) => some { w with heap := h, spaces := w.spaces.set i space }

def onSeg (w : World) (i n : Nat) (f : Seg → Heap × List Seg) : Option World :=
  w.onSpace i fun space =>
    match space[n]? with
    | none => some (w.heap, space)
    | some s => some ((f s).1, space.take n ++ (f s).2 ++ space.drop (n + 1))

/-- A segment is put into an address space, unless it overlaps another. -/
def insert (space : List Seg) (s : Seg) : Option (List Seg) :=
  let before := space.takeWhile fun t => t.sEnd ≤ s.sBase
  let after := space.dropWhile fun t => t.sEnd ≤ s.sBase
  if after.head?.any fun t => t.sBase < s.sEnd then none
  else some (before ++ s :: after)

/-- `as_dup`, one segment. -/
def dup (w : World) (s : Seg) (j : Nat) (resv addmap : Bool) : Option World :=
  if s.swresv ≠ 0 ∧ ¬ resv then some w
  else w.onSpace j fun space =>
    let r := w.heap.segvnDup s
    match insert space r.2 with
    | none => some (w.heap, space)
    | some new =>
      if s.vp ≠ none ∧ ¬ addmap then some (r.1.segvnFree r.2, space)
      else some (r.1, new)

/-- `shmget`: the identifier holds the map twice. -/
def shmget (w : World) (size : Nat) : World :=
  let r := (w.heap.anonResv size).newAmp
    { refcnt := 2, size := size, anon := fun _ => none, swresv := size }
  { w with heap := r.1, shm := update w.shm r.2 2 }

/-- `shmat` and `shmfork` hold the map of an identifier once more. -/
def shmhold (w : World) (k : Nat) : World :=
  match w.heap.amps k with
  | none => w
  | some m =>
    if w.shm k = 0 then w
    else
      { w with
        heap := w.heap.setAmp k { m with refcnt := m.refcnt + 1 }
        shm := update w.shm k (w.shm k + 1) }

def shmRmAmp (h : Heap) (k : Nat) (m : AnonMap) : Heap :=
  let h := (h.anonUnresv m.swresv).anonFree k 0 m.size
  { h with amps := update h.amps k none }

/-- `shmdt` and `IPC_RMID` hold it once less. -/
def shmrele (w : World) (k : Nat) : World :=
  match w.heap.amps k with
  | none => w
  | some m =>
    if w.shm k ≤ 1 then w
    else
      let h := w.heap.setAmp k { m with refcnt := m.refcnt - 1 }
      if m.refcnt - 1 = 1 then
        { w with heap := shmRmAmp h k m, shm := update w.shm k 0 }
      else { w with heap := h, shm := update w.shm k (w.shm k - 1) }

/-- A map that is given for a mapping is that of an identifier. -/
def given (w : World) (a : Crargs) : Bool :=
  match a.amp with
  | none => true
  | some k => decide (0 < w.shm k)

/-- One step; there is none where the code panics. -/
def exec (w : World) : Event → Option World
  | .asAlloc => some { w with spaces := w.spaces ++ [[]] }
  | .map i sBase sSize a env =>
    if w.given a then w.onSpace i fun space => w.heap.asMap space sBase sSize a env
    else some w
  | .unmap i raddr size => w.onSpace i fun space =>
    w.heap.asUnmap raddr (raddr + size) space
  | .free i n => w.onSeg i n fun s => (w.heap.segvnFree s, [])
  | .dup i n j resv addmap =>
    match (w.spaces[i]?.bind fun space => space[n]?) with
    | none => some w
    | some s => w.dup s j resv addmap
  | .setprot i n addr len prot resv done => w.onSeg i n fun s =>
    if s.sBase ≤ addr ∧ addr + len ≤ s.sEnd then
      let r := w.heap.segvnSetprot s addr len prot resv done
      (r.1, [r.2])
    else (w.heap, [s])
  | .fault i n page write ap swresv => w.onSeg i n fun s =>
    if page < s.sSize then
      let r := w.heap.segvnFault s page write ap swresv
      (r.1, [r.2])
    else (w.heap, [s])
  | .lock i n addr len locks swresv => w.onSeg i n fun s =>
    let r := w.heap.segvnLock s addr len locks swresv
    (r.1, [r.2])
  | .shmget size resv => some (if resv then w.shmget size else w)
  | .shmhold k => some (w.shmhold k)
  | .shmrele k => some (w.shmrele k)

def start : World where
  heap := { amps := fun _ => none, nextAmp := 0, refs := fun _ => 0, aniResv := 0 }
  spaces := []
  shm := fun _ => 0

def Start (w : World) : Prop := w = start

def Step (w : World) (e : Event) (w' : World) : Prop := w.exec e = some w'

def segs (w : World) : List Seg := w.spaces.flatten

end World

end Segvn
end Svr4
