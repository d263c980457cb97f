import Mathlib.Data.Int.Notation
import Svr4.Lib.Chain
import Svr4.Lib.Ring

/-!
# Physical pages

The page structures of `vm/vm_page.c`: the four lists of free pages, the
hash chains and vnode lists by which a page is found, and the routines that
take pages from the lists and put them there.

A page structure is known by its number, which grows with the physical address.
A routine that ends in `cmn_err(CE_PANIC, ...)` throws the text.
-/

namespace Svr4
namespace Pages

open Function

/-!
## Structures
-/

/-- The `page` structure without its links. -/
structure Page where
  pLock : Bool
  pWant : Bool
  pFree : Bool
  pIntrans : Bool
  pGone : Bool
  pMod : Bool
  pRef : Bool
  pPagein : Bool
  pNc : Bool
  pAge : Bool
  pKeepcnt : Nat
  pVnode : Option Nat
  pOffset : Nat
  pMapping : Bool
  pLckcnt : Nat
  pCowcnt : Nat

/-- A chunk of the ram pool: `firstpp` and `endpp`. -/
structure Pageac where
  firstpp : Nat
  endpp : Nat

/-- What is fixed once `page_init` and `dma_page_init` have run. -/
structure Pool where
  npages : Nat
  pageahead : List Pageac
  maxPageGet : Int
  dmaCheckOn : Bool
  dmaLimitPp : Nat
  dmaMaxPageGet : Int
  minpagefree : Nat
  nopageage : Bool
  pageHashfunc : Nat → Nat → Nat

inductive FreeList where
  | pageFreelist
  | pageCachelist
  | dmaPageFreelist
  | dmaPageCachelist
deriving DecidableEq

/-- The page structures, the lists they are on, and the counters. -/
structure Vm where
  page : Nat → Page
  pNext : Nat → Nat
  pPrev : Nat → Nat
  pHash : Nat → Option Nat
  pVpnext : Nat → Nat
  pVpprev : Nat → Nat
  pageHash : Nat → Option Nat
  vPages : Nat → Option Nat
  list : FreeList → Option Nat
  size : FreeList → Int
  freemem : Int
  dmaFreemem : Int

abbrev Panic (α : Type) := Except String α

namespace Pool

variable (c : Pool)

/-- `dma_check_on && DMA_PP(pp)` -/
def dmaPp (pp : Nat) : Bool := c.dmaCheckOn && decide (pp ≤ c.dmaLimitPp)

def freelist (pp : Nat) : FreeList :=
  if c.dmaPp pp then .dmaPageFreelist else .pageFreelist

def cachelist (pp : Nat) : FreeList :=
  if c.dmaPp pp then .dmaPageCachelist else .pageCachelist

def listOf (pp : Nat) (age : Bool) : FreeList :=
  if age then c.freelist pp else c.cachelist pp

end Pool

namespace Vm

def setPage (v : Vm) (pp : Nat) (x : Page) : Vm :=
  { v with page := update v.page pp x }

/-!
## Free lists
-/

def pageAdd (v : Vm) (x : FreeList) (pp : Nat) : Vm :=
  let links := Rings.link v.pNext v.pPrev (v.list x) pp
  { v with
    pNext := links.1
    pPrev := links.2
    list := update v.list x (some pp) }

def pageSub (v : Vm) (x : FreeList) (pp : Nat) : Panic Vm :=
  if v.list x = none then throw "page_sub"
  else
    let (head, next, prev) := Rings.cut v.pNext v.pPrev (v.list x) pp
    return { v with
      pNext := next
      pPrev := prev
      list := update v.list x head }

def addSize (v : Vm) (x : FreeList) (n : Int) : Vm :=
  { v with size := update v.size x (v.size x + n) }

/-- `page_cachelist = page_cachelist->p_next` -/
def advance (v : Vm) (x : FreeList) : Vm :=
  { v with list := update v.list x ((v.list x).map v.pNext) }

/-!
## Names
-/

def pageHashin (c : Pool) (v : Vm) (pp vp offset : Nat) (lock : Bool) : Vm :=
  let x := { v.page pp with pVnode := some vp, pOffset := offset, pLock := lock }
  let h := c.pageHashfunc vp offset
  let links := Rings.link v.pVpnext v.pVpprev (v.vPages vp) pp
  { v with
    page := update v.page pp x
    pHash := update v.pHash pp (v.pageHash h)
    pageHash := update v.pageHash h (some pp)
    pVpnext := links.1
    pVpprev := links.2
    vPages := update v.vPages vp (some ((v.vPages vp).getD pp)) }

/--
The walk over a hash chain.  There are `npages` page structures, so a walk
over more links would go on for ever.
-/
def hashSeek (c : Pool) (v : Vm) (h : Nat) (p : Nat → Bool) : Panic (Option Nat) :=
  match Chain.seek v.pHash p c.npages (v.pageHash h) with
  | some r => return r
  | none => throw "no end"

def pageExists (c : Pool) (v : Vm) (vp off : Nat) : Panic (Option Nat) :=
  v.hashSeek c (c.pageHashfunc vp off) fun pp =>
    decide ((v.page pp).pVnode = some vp) && decide ((v.page pp).pOffset = off) &&
      !(v.page pp).pGone

/-- `page_hashout`, for a page with a vnode. -/
def pageHashout (c : Pool) (v : Vm) (pp vp : Nat) : Panic Vm := do
  let h := c.pageHashfunc vp (v.page pp).pOffset
  match ← v.hashSeek c h fun hp => decide (hp = pp) with
  | none => throw "page_hashout"
  | some _ =>
    match Chain.unlink v.pHash c.npages (v.pageHash h) pp with
    | none => throw "no end"
    | some (head, links) =>
      let x := { v.page pp with pVnode := none, pOffset := 0, pGone := false }
      let (first, next, prev) := Rings.cut v.pVpnext v.pVpprev (v.vPages vp) pp
      return { v with
        page := update v.page pp x
        pHash := update links pp none
        pageHash := update v.pageHash h head
        pVpnext := next
        pVpprev := prev
        vPages := update v.vPages vp first }

/-- `page_enter`; the result says whether the name was free. -/
def pageEnter (c : Pool) (v : Vm) (pp vp offset : Nat) : Panic (Vm × Bool) := do
  match ← v.pageExists c vp offset with
  | some _ => return (v, false)
  | none => return (v.pageHashin c pp vp offset true, true)

/-!
## Freeing a page
-/

/-- The accounting of a page that is put on a list. -/
def countFree (c : Pool) (v : Vm) (pp : Nat) : Vm :=
  { v with
    freemem := v.freemem + 1
    dmaFreemem := if c.dmaPp pp then v.dmaFreemem + 1 else v.dmaFreemem }

/-- The part of `page_free` that puts the page on its list. -/
def putFree (c : Pool) (v : Vm) (pp : Nat) (dontneed : Bool) : Vm :=
  let x := { v.page pp with
    pLock := false, pWant := false, pFree := true, pRef := false, pMod := false }
  let v := v.countFree c pp
  match x.pVnode with
  | none =>
    let v := v.setPage pp { x with pAge := true }
    (v.addSize (c.freelist pp) 1).pageAdd (c.freelist pp) pp
  | some _ =>
    let v := v.setPage pp x
    let v := (v.addSize (c.cachelist pp) 1).pageAdd (c.cachelist pp) pp
    if !dontneed || c.nopageage then v.advance (c.cachelist pp) else v

/-- A page that has been aborted loses its name when it is freed. -/
def dropGone (c : Pool) (v : Vm) (pp : Nat) : Panic Vm :=
  match (v.page pp).pGone, (v.page pp).pVnode with
  | true, some vp => v.pageHashout c pp vp
  | _, _ => return v

def pageFree (c : Pool) (v : Vm) (pp : Nat) (dontneed : Bool) : Panic Vm := do
  let x := v.page pp
  if x.pGone && (x.pIntrans || decide (x.pKeepcnt ≠ 0)) then return v
  else
    let v ← v.dropGone c pp
    if x.pKeepcnt ≠ 0 || x.pMapping || x.pLckcnt ≠ 0 || x.pCowcnt ≠ 0 then
      throw "page_free"
    else return v.putFree c pp dontneed

/-- `page_abort`; the mappings of the page are unloaded. -/
def pageAbort (c : Pool) (v : Vm) (pp : Nat) : Panic Vm :=
  let x := v.page pp
  let x := if x.pVnode = none then x else { x with pGone := true }
  let v := v.setPage pp x
  if x.pKeepcnt ≠ 0 || x.pIntrans then return v
  else
    let v := v.setPage pp { x with
      pLckcnt := 0, pCowcnt := 0, pMapping := false, pRef := false, pMod := false }
    v.pageFree c pp false

/-- The loop body of `free_vp_pages`. -/
def freeVpPage (c : Pool) (v : Vm) (vp off eoff pp : Nat) : Vm :=
  let x := v.page pp
  if x.pVnode ≠ some vp ∨ x.pOffset < off ∨ eoff ≤ x.pOffset then v
  else if x.pMod then v
  else if x.pKeepcnt ≠ 0 ∨ x.pMapping ∨ x.pFree ∨ x.pLckcnt ≠ 0 ∨ x.pCowcnt ≠ 0 then v
  else
    let v := v.setPage pp { x with
      pLock := false, pWant := false, pFree := true, pRef := false }
    let v := (v.countFree c pp).addSize (c.cachelist pp) 1
    (v.pageAdd (c.cachelist pp) pp).advance (c.cachelist pp)

/-- The loop of `free_vp_pages`, which ends when it is back at `epp`. -/
def freeVpLoop (c : Pool) (vp off eoff epp : Nat) : Nat → Nat → Vm → Panic Vm
  | 0, _, _ => throw "no end"
  | fuel + 1, pp, v =>
    let v := v.freeVpPage c vp off eoff pp
    if v.pVpnext pp = epp then return v
    else freeVpLoop c vp off eoff epp fuel (v.pVpnext pp) v

/-- `swapped` is the answer of `swap_in_range`. -/
def freeVpPages (c : Pool) (v : Vm) (swapped : Bool) (vp off len : Nat) : Panic Vm :=
  if swapped then return v
  else
    match v.vPages vp with
    | none => return v
    | some pp =>
      freeVpLoop c vp off ((off + len) % 4294967296) pp c.npages pp v

/-!
## Taking pages
-/

def pageUnfree (c : Pool) (v : Vm) (pp : Nat) : Panic Vm := do
  let x := c.listOf pp (v.page pp).pAge
  let v ← v.pageSub x pp
  let v := v.addSize x (-1)
  let v := { v with
    dmaFreemem := if c.dmaPp pp then v.dmaFreemem - 1 else v.dmaFreemem }
  let v := v.setPage pp { v.page pp with pFree := false, pAge := false }
  return { v with freemem := v.freemem - 1 }

def pageReclaim (c : Pool) (v : Vm) (pp : Nat) : Panic Vm :=
  if (v.page pp).pFree then v.pageUnfree c pp else return v

def dropName (c : Pool) (v : Vm) (pp : Nat) : Panic Vm :=
  match (v.page pp).pAge, (v.page pp).pVnode with
  | false, some vp => v.pageHashout c pp vp
  | _, _ => return v

def pageReuse (c : Pool) (v : Vm) (pp : Nat) : Panic Vm := do
  let x := c.listOf pp (v.page pp).pAge
  let v ← v.pageSub x pp
  let v ← (v.addSize x (-1)).dropName c pp
  return v.setPage pp { v.page pp with
    pFree := false, pMod := false, pNc := false, pAge := false, pLock := false,
    pIntrans := false, pPagein := false, pRef := true, pKeepcnt := 1 }

/-- `page_add(&plist, pp)` on the list that is to be returned. -/
def keep (v : Vm) (plist : Option Nat) (pp : Nat) : Vm × Option Nat :=
  let links := Rings.link v.pNext v.pPrev plist pp
  ({ v with pNext := links.1, pPrev := links.2 }, some pp)

/-- The flags of a request; `proc_sched` sets `P_NORESOURCELIM`. -/
structure Flags where
  canwait : Bool
  physcontig : Bool
  dma : Bool
  noresourcelim : Bool

/-- What a request for pages meets. -/
inductive Got where
  | null
  | wait
  | pages (plist : Option Nat)

/-- The inner loop of the scans: whether as many pages in a row are free, and where it ends. -/
def runFrom (free aligned : Nat → Bool) : Nat → Nat → Bool × Nat
  | 0, pp => (false, pp)
  | n + 1, pp =>
    if !aligned pp then (false, pp)
    else if n = 0 then (true, pp + 1)
    else if free (pp + 1) then runFrom free aligned n (pp + 1)
    else (false, pp + 1)

/-- The scan of a chunk; the result is the page behind the run. -/
def scanChunk (c : Pool) (free aligned : Nat → Bool) (dmacheck : Bool)
    (npages endpp : Nat) : Nat → Nat → Option Nat
  | 0, _ => none
  | fuel + 1, pp =>
    if endpp < pp + npages then none
    else if !free pp then scanChunk c free aligned dmacheck npages endpp fuel (pp + 1)
    else if dmacheck && !c.dmaPp (pp + npages - 1) then none
    else
      match runFrom free aligned npages pp with
      | (true, e) => some e
      | (false, e) =>
        scanChunk c free aligned dmacheck npages endpp fuel (e + 1)

/-- The scan of the chunks for a run of free pages. -/
def scan (c : Pool) (free aligned : Nat → Bool) (dmacheck : Bool) (npages : Nat) :
    List Pageac → Option Nat
  | [] => none
  | pap :: rest =>
    match scanChunk c free aligned dmacheck npages pap.endpp
      (pap.endpp - pap.firstpp + 1) pap.firstpp with
    | some e => some e
    | none => scan c free aligned dmacheck npages rest

/-- `freemem -= npages`, and the same for the DMA pages. -/
def charge (v : Vm) (dmacheck : Bool) (npages : Nat) : Vm :=
  { v with
    freemem := v.freemem - npages
    dmaFreemem := if dmacheck then v.dmaFreemem - npages else v.dmaFreemem }

/-- The next page for a request that need not be contiguous. -/
def pick (c : Pool) (v : Vm) (dmacheck : Bool) : Panic (Vm × Nat) :=
  if dmacheck then
    match v.list .dmaPageFreelist, v.list .dmaPageCachelist with
    | some pp, _ => return (v, pp)
    | none, some pp => return (v, pp)
    | none, none => throw "page_get: dma_freemem error"
  else
    match v.list .pageFreelist, v.list .pageCachelist with
    | some pp, _ => return (v, pp)
    | none, some pp => return (v, pp)
    | none, none =>
      if c.dmaCheckOn then
        match v.list .dmaPageFreelist, v.list .dmaPageCachelist with
        | some pp, _ => return ({ v with dmaFreemem := v.dmaFreemem - 1 }, pp)
        | none, some pp => return ({ v with dmaFreemem := v.dmaFreemem - 1 }, pp)
        | none, none => throw "page_get: freemem error"
      else throw "page_get: freemem error\n"

/-- The loop that pulls pages which need not be contiguous. -/
def pull (c : Pool) (dmacheck : Bool) :
    Nat → Option Nat → Vm → Panic (Vm × Option Nat)
  | 0, plist, v => return (v, plist)
  | npages + 1, plist, v => do
      let (v, pp) ← v.pick c dmacheck
      if dmacheck && !c.dmaPp pp then throw "dma_freelist"
      else
        let v ← v.pageReuse c pp
        let (v, plist) := v.keep plist pp
        pull c dmacheck npages plist v

/-- The loop that pulls contiguous pages, down from the end of the run. -/
def pullRun (c : Pool) (dmacheck : Bool) :
    Nat → Nat → Option Nat → Vm → Panic (Vm × Option Nat)
  | 0, _, plist, v => return (v, plist)
  | npages + 1, pp, plist, v =>
    let pp := pp - 1
    if dmacheck && !c.dmaPp pp then throw "physcontig: dma"
    else do
      let v ← v.pageReuse c pp
      let (v, plist) := v.keep plist pp
      pullRun c dmacheck npages pp plist v

def Flags.short (f : Flags) : Got := if f.canwait then .wait else .null

def tooLarge (c : Pool) (f : Flags) (npages : Nat) : Bool :=
  if c.dmaCheckOn && f.dma then decide (c.dmaMaxPageGet ≤ npages)
  else decide (c.maxPageGet ≤ npages)

/-- The free memory is below what the request requires. -/
def belowReq (c : Pool) (v : Vm) (f : Flags) (npages : Nat) : Bool :=
  let reqfree : Int := if f.noresourcelim then npages else npages + c.minpagefree
  decide ((if c.dmaCheckOn && f.dma then v.dmaFreemem else v.freemem) < reqfree)

/--
`page_get`, up to where it sleeps; a process that sleeps starts again from
the test of the free memory.
-/
def pageGet (c : Pool) (v : Vm) (npages : Nat) (f : Flags) : Panic (Vm × Got) := do
  let dmacheck := c.dmaCheckOn && f.dma
  if tooLarge c f npages then return (v, .null)
  else if belowReq c v f npages then return (v, f.short)
  else if f.physcontig && decide (1 < npages) then
    match scan c (fun pp => (v.page pp).pFree) (fun _ => true) dmacheck npages
      c.pageahead with
    | none => return (v, f.short)
    | some e =>
      let (v, plist) ← pullRun c dmacheck npages e none (v.charge dmacheck npages)
      return (v, .pages plist)
  else
    let (v, plist) ← pull c dmacheck npages none (v.charge dmacheck npages)
    return (v, .pages plist)

/-- `page_get_aligned`, with the test `ALIGNED_PP`. -/
def pageGetAligned (c : Pool) (v : Vm) (npages : Nat) (aligned : Nat → Bool)
    (f : Flags) : Panic (Vm × Got) := do
  let dmacheck := c.dmaCheckOn && f.dma
  if tooLarge c f npages then return (v, .null)
  else if belowReq c v f npages then return (v, f.short)
  else
    match scan c (fun pp => (v.page pp).pFree) aligned dmacheck npages
      c.pageahead with
    | none => return (v, f.short)
    | some e =>
      let (v, plist) ← pullRun c false npages e none (v.charge dmacheck npages)
      return (v, .pages plist)

end Vm

end Pages
end Svr4
