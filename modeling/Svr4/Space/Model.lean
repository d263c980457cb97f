import Mathlib.Tactic.Ring
import Mathlib.Data.List.Basic

/-!
# Address spaces

The segments of an address space form a ring, in the order of their addresses.
`seg_alloc` puts a new segment into it, `seg_free` takes one out, and the
segment drivers do the latter when a mapping is removed or merged with its neighbours.
`as_gap` looks for a hole between them.
-/

namespace Svr4
namespace Space

open Function (update)

/-!
## Addresses
-/

def PAGESIZE : Nat := 4096

def KVBASE : Nat := 0xC0000000

def word : Nat := 2 ^ 32

def add32 (a b : Nat) : Nat := (a + b) % word

def sub32 (a b : Nat) : Nat := (a + word - b) % word

def pageDown (a : Nat) : Nat := a / PAGESIZE * PAGESIZE

def pageUp (a : Nat) : Nat := pageDown (add32 a (PAGESIZE - 1))

def validVaRange (base len minlen : Nat) : Bool :=
  let hi := add32 base len
  decide (¬ hi < base ∧ ¬ sub32 hi base < minlen)

/-- `valid_usr_range`, where `UVBASE` is zero. -/
def validUsrRange (addr len : Nat) : Bool :=
  let eaddr := add32 addr len
  decide (¬ eaddr ≤ addr ∧ ¬ eaddr ≥ KVBASE)

/-!
## Segments and address spaces
-/

/-- The segment structures, and which of them are in use. -/
structure Segs where
  sNext : Nat → Nat
  sPrev : Nat → Nat
  sBase : Nat → Nat
  sSize : Nat → Nat
  used : List Nat

structure As where
  aSegs : Option Nat
  aSeglast : Option Nat
  aSize : Int
  aPaglck : Bool

namespace Segs

def sEnd (m : Segs) (s : Nat) : Nat := add32 (m.sBase s) (m.sSize s)

def setNext (m : Segs) (s p : Nat) : Segs := { m with sNext := update m.sNext s p }

def setPrev (m : Segs) (s p : Nat) : Segs := { m with sPrev := update m.sPrev s p }

def setBase (m : Segs) (s b : Nat) : Segs := { m with sBase := update m.sBase s b }

def setSize (m : Segs) (s n : Nat) : Segs := { m with sSize := update m.sSize s n }

/-!
## The ring of segments
-/

/-- `as_segat` from `seg` on. -/
def segatLoop (m : Segs) (sseg addr : Nat) : Nat → Nat → Option (Option Nat)
  | 0, _ => none
  | fuel + 1, seg =>
    if m.sBase seg ≤ addr ∧ addr < m.sEnd seg then some (some seg)
    else if m.sNext seg ≠ sseg then segatLoop m sseg addr fuel (m.sNext seg)
    else some none

/-- `as_segat`: the segment that holds an address is remembered. -/
def asSegat (m : Segs) (as : As) (addr : Nat) : Option (As × Option Nat) :=
  let as := if as.aSeglast = none then { as with aSeglast := as.aSegs } else as
  match as.aSeglast with
  | none => some (as, none)
  | some sseg =>
    match segatLoop m sseg addr m.used.length sseg with
    | none => none
    | some none => some (as, none)
    | some (some seg) => some ({ as with aSeglast := some seg }, some seg)

/-- `as_addseg` looks for the segment before which the new one is put; there is none
when it overlaps. -/
def addsegLoop (m : Segs) (first base eaddr : Nat) : Nat → Nat → Option (Option Nat)
  | 0, _ => none
  | fuel + 1, seg =>
    if base < m.sBase seg then
      if eaddr > m.sBase seg then some none else some (some seg)
    else if base < m.sEnd seg then some none
    else if m.sNext seg ≠ first then addsegLoop m first base eaddr fuel (m.sNext seg)
    else some (some (m.sNext seg))

/-- The new segment is put before `seg`. -/
def linkBefore (m : Segs) (newseg seg : Nat) : Segs :=
  let m := m.setNext newseg seg
  let m := m.setPrev newseg (m.sPrev seg)
  let m := m.setPrev seg newseg
  m.setNext (m.sPrev newseg) newseg

def asAddseg (m : Segs) (as : As) (newseg : Nat) : Option (Option (Segs × As)) :=
  match as.aSegs with
  | none =>
    some (some ((m.setNext newseg newseg).setPrev newseg newseg, { as with aSegs := some newseg }))
  | some first =>
    match addsegLoop m first (m.sBase newseg) (m.sEnd newseg) m.used.length first with
    | none => none
    | some none => some none
    | some (some seg) =>
      some (some (m.linkBefore newseg seg,
        if m.sBase newseg < m.sBase first then { as with aSegs := some newseg } else as))

/-- `seg_alloc`, in a structure that is not in use. -/
def segAlloc (m : Segs) (as : As) (base size new : Nat) : Option (Option (Segs × As)) :=
  let segbase := pageDown base
  let segsize := sub32 (pageUp (add32 base size)) segbase
  if ¬ validVaRange segbase segsize segsize then some none
  else if ¬ validUsrRange segbase segsize then some none
  else
    let m := { (m.setBase new segbase).setSize new segsize with used := new :: m.used }
    match m.asAddseg as new with
    | none => none
    | some none => some none
    | some (some r) => some (some r)

def unlink (m : Segs) (seg : Nat) : Segs :=
  let m := m.setNext (m.sPrev seg) (m.sNext seg)
  m.setPrev (m.sNext seg) (m.sPrev seg)

/-- `seg_free` and `as_exec` take a segment out of its address space. -/
def asRemove (m : Segs) (as : As) (seg : Nat) : Segs × As :=
  let as := if as.aSegs = some seg then { as with aSegs := some (m.sNext seg) } else as
  let r :=
    if as.aSegs = some seg then (m, { as with aSegs := none })
    else (m.unlink seg, as)
  if r.2.aSeglast = some seg then (r.1, { r.2 with aSeglast := r.2.aSegs }) else r

def segFree (m : Segs) (as : As) (seg : Nat) : Segs × As :=
  let r := m.asRemove as seg
  ({ r.1 with used := r.1.used.erase seg }, r.2)

/-!
## Mapping
-/

/-- What a driver does with a new segment: it fails, or keeps it and may merge it. -/
structure Create where
  error : Bool
  merges : Bool
  extendPrev : Bool
  concat : Bool
  extendNext : Bool

/-- `segvn_create`, as far as the ring is concerned; there is none when it fails. -/
def create (m : Segs) (as : As) (seg : Nat) (c : Create) : Option (Segs × As) :=
  if c.error then none
  else if m.sPrev seg ≠ seg ∧ c.merges then
    let pseg := m.sPrev seg
    if m.sEnd pseg = m.sBase seg ∧ c.extendPrev then
      let size := m.sSize seg
      let r := m.segFree as seg
      let m := r.1.setSize pseg (add32 (r.1.sSize pseg) size)
      let nseg := m.sNext pseg
      if nseg ≠ pseg ∧ m.sEnd pseg = m.sBase nseg ∧ c.concat then
        let size := m.sSize nseg
        let r := m.segFree r.2 nseg
        some (r.1.setSize pseg (add32 (r.1.sSize pseg) size), r.2)
      else some (m, r.2)
    else
      let nseg := m.sNext seg
      if m.sEnd seg = m.sBase nseg ∧ c.extendNext then
        let size := m.sSize seg
        let r := m.segFree as seg
        let m := r.1.setSize nseg (add32 (r.1.sSize nseg) size)
        some (m.setBase nseg (sub32 (m.sBase nseg) size), r.2)
      else some (m, as)
  else some (m, as)

/-- What a driver does when a part of a segment is removed. -/
structure Unmap where
  error : Nat → Bool
  new : Nat

/-- `segvn_unmap`, as far as the ring is concerned; there is none when the code
panics, and no result when it fails. -/
def unmap (m : Segs) (as : As) (seg addr len : Nat) (u : Unmap) : Option (Option (Segs × As)) :=
  if addr < m.sBase seg ∨ add32 addr len > m.sEnd seg then none
  else if u.error seg then some none
  else if addr = m.sBase seg ∧ len = m.sSize seg then some (some (m.segFree as seg))
  else if addr = m.sBase seg then
    some (some ((m.setBase seg (add32 (m.sBase seg) len)).setSize seg (sub32 (m.sSize seg) len),
      as))
  else if add32 addr len = m.sEnd seg then
    some (some (m.setSize seg (sub32 (m.sSize seg) len), as))
  else
    let nbase := add32 addr len
    let nsize := sub32 (m.sEnd seg) nbase
    let m := m.setSize seg (sub32 addr (m.sBase seg))
    if u.new ∈ m.used then none
    else
      match m.segAlloc as nbase nsize u.new with
      | some (some r) => some (some r)
      | _ => none

/-- `as_unmap`, from `seg` on; the answer says whether all went well. -/
def unmapLoop (u : Unmap) (eaddr : Nat) : Nat → Nat → Nat → Segs → As →
    Option (Segs × As × Bool)
  | 0, _, _, _, _ => none
  | fuel + 1, seg, raddr, m, as =>
    let segNext := m.sNext seg
    let obase := m.sBase seg
    -- the test at the end of the loop
    let again (m : Segs) (as : As) (raddr : Nat) : Option (Segs × As × Bool) :=
      if as.aSegs ≠ none ∧ obase < m.sBase segNext then
        unmapLoop u eaddr fuel segNext raddr m as
      else some (m, as, true)
    if raddr ≥ m.sEnd seg then again m as raddr
    else if eaddr ≤ m.sBase seg then some (m, as, true)
    else
      let raddr := if raddr < m.sBase seg then m.sBase seg else raddr
      let ssize := sub32 (if eaddr > m.sEnd seg then m.sEnd seg else eaddr) raddr
      match m.unmap as seg raddr ssize u with
      | none => none
      | some none => some (m, as, false)
      | some (some r) =>
        again r.1 { r.2 with aSize := r.2.aSize - ssize } (add32 raddr ssize)

/-- `as_unmap`; the structure a driver may need is not in use. -/
def asUnmap (m : Segs) (as : As) (addr size : Nat) (u : Unmap) : Option (Segs × As × Bool) :=
  if u.new ∈ m.used then none
  else
    match as.aSegs with
    | none => some (m, as, true)
    | some seg =>
      unmapLoop u (pageUp (add32 addr size)) (m.used.length + 2) seg (pageDown addr) m as

/-- `as_map`: the new segment, what the driver does with it, and whether the limit is
met and the pages can be locked. -/
structure Map where
  new : Nat
  create : Create
  limit : Int
  locks : Bool
  unmap : Unmap

/-- `as_map`; the answer says whether all went well. -/
def asMap (m : Segs) (as : As) (addr size : Nat) (p : Map) : Option (Segs × As × Bool) :=
  let raddr := pageDown addr
  let rsize := sub32 (pageUp (add32 addr size)) raddr
  if as.aSize + rsize > p.limit then some (m, as, false)
  else if p.new ∈ m.used then none
  else
    match m.segAlloc as addr size p.new with
    | none => none
    | some none => some (m, as, false)
    | some (some r) =>
      let as := { r.2 with aSeglast := some p.new }
      match r.1.create as p.new p.create with
      | none =>
        let r := r.1.segFree as p.new
        some (r.1, r.2, false)
      | some r =>
        let as := { r.2 with aSize := r.2.aSize + rsize }
        if as.aPaglck ∧ ¬ p.locks then
          match r.1.asUnmap as addr size p.unmap with
          | none => none
          | some r => some (r.1, r.2.1, false)
        else some (r.1, as, true)

/-!
## Duplicating, moving and freeing
-/

/-- `as_free` removes the segments. -/
def freeLoop : Nat → Segs → As → Option Segs
  | 0, _, _ => none
  | fuel + 1, m, as =>
    match as.aSegs with
    | none => some m
    | some seg =>
      let r := m.segFree as seg
      freeLoop fuel r.1 r.2

def asFree (m : Segs) (as : As) : Option Segs := freeLoop (m.used.length + 1) m as

inductive DupResult where
  | copied
  | skipped
  | failed

/-- The structures for the copies, and what the segment drivers do with them. -/
structure Dup where
  new : Nat → Nat
  dup : Nat → DupResult
  hat : Bool

def dupFail (m : Segs) (newas : As) : Option (Segs × Option As) :=
  match m.asFree newas with
  | none => none
  | some m => some (m, none)

def dupSeg (m : Segs) (newas : As) (seg newseg : Nat) : DupResult → Option (Segs × As)
  | .copied => some (m, newas)
  | .skipped => some (m.segFree { newas with aSize := newas.aSize - m.sSize seg } newseg)
  | .failed => none

/-- `as_dup` makes the copy of `seg`; there is no new address space any more
when it fails. -/
def dupOne (m : Segs) (newas : As) (d : Dup) (seg : Nat) : Option (Segs × Option As) :=
  if d.new seg ∈ m.used then none
  else
    match m.segAlloc newas (m.sBase seg) (m.sSize seg) (d.new seg) with
    | none => none
    | some none => m.dupFail newas
    | some (some r) =>
      match r.1.dupSeg r.2 seg (d.new seg) (d.dup seg) with
      | none =>
        let r := r.1.segFree r.2 (d.new seg)
        r.1.dupFail r.2
      | some r => some (r.1, some { r.2 with aSize := r.2.aSize + r.1.sSize seg })

/-- `as_dup` from `seg` on. -/
def dupLoop (d : Dup) (sseg : Nat) : Nat → Nat → Segs → As → Option (Segs × Option As)
  | 0, _, _, _ => none
  | fuel + 1, seg, m, newas =>
    match m.dupOne newas d seg with
    | none => none
    | some (m, none) => some (m, none)
    | some (m, some newas) =>
      if m.sNext seg ≠ sseg then dupLoop d sseg fuel (m.sNext seg) m newas
      else if d.hat then some (m, some newas)
      else m.dupFail newas

def asAlloc : As where
  aSegs := none
  aSeglast := none
  aSize := 0
  aPaglck := false

/-- `as_dup`; there is no new address space when it fails. -/
def asDup (m : Segs) (as : As) (d : Dup) : Option (Segs × Option As) :=
  match as.aSegs with
  | none => if d.hat then some (m, some asAlloc) else m.dupFail asAlloc
  | some sseg => dupLoop d sseg m.used.length sseg m asAlloc

/-- `as_exec` moves the stack to a new address space; there is none when the code
panics. -/
def asExec (m : Segs) (oas : As) (ostka stksz : Nat) (nas : As) (nstka : Nat) :
    Option (Segs × As × As) :=
  match m.asSegat oas ostka with
  | some (oas, some stkseg) =>
    if m.sBase stkseg = ostka ∧ m.sSize stkseg = stksz then
      let r := m.asRemove oas stkseg
      let m := r.1.setBase stkseg nstka
      let nas := { nas with aSize := nas.aSize + m.sSize stkseg }
      let oas := { r.2 with aSize := r.2.aSize - m.sSize stkseg }
      match m.asAddseg nas stkseg with
      | none => none
      | some none => some (m, oas, nas)
      | some (some r) => some (r.1, oas, r.2)
    else none
  | _ => none

end Segs

/-!
## Runs
-/

structure World where
  segs : Segs
  spaces : Nat → Option As

inductive Event where
  | asAlloc (i : Nat)
  | asFree (i : Nat)
  | segat (i addr : Nat)
  | paglck (i : Nat) (on : Bool)
  | map (i addr size : Nat) (p : Segs.Map)
  | unmap (i addr size : Nat) (u : Segs.Unmap)
  | dup (i j : Nat) (d : Segs.Dup)
  | exec (i j ostka stksz nstka : Nat)

namespace World

def onSpace (w : World) (i : Nat) (f : As → Option (Segs × As)) : Option World :=
  match w.spaces i with
  | none => none
  | some as =>
    match f as with
    | none => none
    | some r => some { segs := r.1, spaces := update w.spaces i (some r.2) }

/-- One operation.  A range that is unmapped and the place of the new stack are valid user
addresses; `exec` moves the stack, by pages, to an address space without segments. -/
def exec (w : World) : Event → Option World
  | .asAlloc i =>
    if w.spaces i = none then
      some { w with spaces := update w.spaces i (some Segs.asAlloc) }
    else none
  | .asFree i =>
    match w.spaces i with
    | none => none
    | some as =>
      match w.segs.asFree as with
      | none => none
      | some m => some { segs := m, spaces := update w.spaces i none }
  | .segat i addr => w.onSpace i fun as =>
    (w.segs.asSegat as addr).map fun r => (w.segs, r.1)
  | .paglck i on => w.onSpace i fun as => some (w.segs, { as with aPaglck := on })
  | .map i addr size p => w.onSpace i fun as =>
    (w.segs.asMap as addr size p).map fun r => (r.1, r.2.1)
  | .unmap i addr size u =>
    if validUsrRange addr size then w.onSpace i fun as =>
      (w.segs.asUnmap as addr size u).map fun r => (r.1, r.2.1)
    else none
  | .dup i j d =>
    match w.spaces i with
    | none => none
    | some as =>
      if w.spaces j = none then
        match w.segs.asDup as d with
        | none => none
        | some (m, newas) =>
          some { segs := m, spaces := update w.spaces j newas }
      else none
  | .exec i j ostka stksz nstka =>
    match w.spaces i, w.spaces j with
    | some oas, some nas =>
      if i ≠ j ∧ nas.aSegs = none ∧ validUsrRange nstka stksz ∧ nstka % PAGESIZE = 0 then
        match w.segs.asExec oas ostka stksz nas nstka with
        | none => none
        | some (m, oas, nas) =>
          some
            { segs := m
              spaces := update (update w.spaces i (some oas)) j (some nas) }
      else none
    | _, _ => none

def start : World where
  segs :=
    { sNext := fun _ => 0, sPrev := fun _ => 0, sBase := fun _ => 0, sSize := fun _ => 0
      used := [] }
  spaces := fun _ => none

def Start (w : World) : Prop := w = start

def Step (w : World) (e : Event) (w' : World) : Prop := w.exec e = some w'

end World

end Space
end Svr4
