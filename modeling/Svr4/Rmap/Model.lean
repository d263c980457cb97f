import Mathlib.Tactic.Ring
import Svr4.Lib.Extents
import Svr4.Lib.Transition

/-!
# Resource maps

`rmalloc` and `rmfree` of `os/malloc.c` on a map as in
`sys/map.h`.

The first structure of the array is kept as the two fields `mapsize` and
`mapwant`; `slots` is the array from `mapstart` on.  Going beyond
the end of the array has no result.
-/

namespace Svr4
namespace Rmap

def ulong (x : Nat) : Nat := x % 2 ^ 32

structure Slot where
  mSize : Nat
  mAddr : Nat
deriving DecidableEq

def Slot.zero : Slot := ⟨0, 0⟩

def Slot.stop (bp : Slot) : Nat := bp.mAddr + bp.mSize

structure RMap where
  mapsize : Nat
  mapwant : Nat
  slots : List Slot

/-- `mapinit`, of a zeroed array of `n + 2` structures. -/
def mapinit (n : Nat) : RMap := ⟨n, 0, List.replicate (n + 1) Slot.zero⟩

/-!
## Allocation
-/

def moveDown : List Slot → Option (List Slot)
  | _ :: next :: rest =>
    if next.mSize = 0 then some (next :: next :: rest)
    else (moveDown (next :: rest)).map (next :: ·)
  | _ => none

/-- The search of `rmalloc`: the address, the slots, and whether an entry is used up. -/
def rmallocLoop (size : Nat) : List Slot → Option (Nat × List Slot × Bool)
  | [] => none
  | bp :: rest =>
    if bp.mSize = 0 then some (0, bp :: rest, false)
    else if size ≤ bp.mSize then
      let bp' : Slot := ⟨bp.mSize - size, ulong (bp.mAddr + size)⟩
      if bp'.mSize = 0 then
        (moveDown (bp' :: rest)).map fun slots => (bp.mAddr, slots, true)
      else some (bp.mAddr, bp' :: rest, false)
    else
      (rmallocLoop size rest).map fun (a, slots, gone) => (a, bp :: slots, gone)

def rmalloc (mp : RMap) (size : Nat) : Option (Nat × RMap) :=
  if size = 0 then some (0, mp)
  else
    (rmallocLoop size mp.slots).map fun (a, slots, gone) =>
      (a, { mp with
        mapsize := if gone then ulong (mp.mapsize + 1) else mp.mapsize
        slots := slots })

/-!
## Freeing
-/

def compress : List Slot → Option (List Slot)
  | [] => none
  | bp :: rest =>
    if bp.mSize = 0 then some (bp :: rest)
    else match rest with
      | [] => none
      | next :: _ => (compress rest).map (next :: ·)

def moveUp (size a : Nat) : List Slot → Option (List Slot)
  | [] => none
  | bp :: rest =>
    if bp.mSize = 0 then some (⟨size, a⟩ :: rest)
    else (moveUp bp.mSize bp.mAddr rest).map (⟨size, a⟩ :: ·)

def RMap.wake (mp : RMap) : RMap := { mp with mapwant := 0 }

/--
`rmfree`, where the slots `front` are those that the search has passed
and `bp` is the one where it ends.  The flag tells whether the units are
lost.
-/
def rmfreeAt (mp : RMap) (size a : Nat) (front : List Slot) (bp : Slot)
    (rest : List Slot) : Option (RMap × Bool) :=
  let unmerged :=
    if ulong (a + size) = bp.mAddr ∧ bp.mSize ≠ 0 then
      let bp : Slot := ⟨ulong (bp.mSize + size), ulong (bp.mAddr + 2 ^ 32 - size)⟩
      some ({ mp with slots := front ++ bp :: rest }.wake, false)
    else if mp.mapsize = 0 then some (mp, true)
    else
      (moveUp size a (bp :: rest)).map fun slots =>
        ({ mp with mapsize := mp.mapsize - 1, slots := front ++ slots }.wake, false)
  match front.getLast? with
  | none => unmerged
  | some prev =>
    if ulong (prev.mAddr + prev.mSize) = a then
      let prev : Slot := { prev with mSize := ulong (prev.mSize + size) }
      if bp.mAddr ≠ 0 ∧ ulong (a + size) = bp.mAddr then
        let prev : Slot := { prev with mSize := ulong (prev.mSize + bp.mSize) }
        (compress (bp :: rest)).map fun slots =>
          ({ mp with
            mapsize := ulong (mp.mapsize + 1)
            slots := front.dropLast ++ prev :: slots }.wake, false)
      else
        some ({ mp with
          slots := front.dropLast ++ prev :: bp :: rest }.wake, false)
    else unmerged

def rmfree (mp : RMap) (size a : Nat) : Option (RMap × Bool) :=
  if size = 0 then some (mp, false)
  else
    let passed : Slot → Bool := fun bp => bp.mAddr ≤ a ∧ bp.mSize ≠ 0
    match mp.slots.dropWhile passed with
    | [] => none
    | bp :: rest => rmfreeAt mp size a (mp.slots.takeWhile passed) bp rest

/-!
## The system
-/

/--
A map and its users: the units that have ever been put in, those that are held,
and those that have been reported lost.
-/
structure System where
  map : RMap
  put : Set Nat
  held : Set Nat
  lost : Set Nat

inductive Event where
  /-- New units are put in. -/
  | put (size a : Nat)
  | rmalloc (size : Nat)
  /-- Units that are held are given back. -/
  | rmfree (size a : Nat)
  /-- A user waits for units. -/
  | want

namespace System

def unitsOf (size a : Nat) : Set Nat := Set.Ico a (a + size)

def Start (s : System) : Prop :=
  ∃ n, n < 2 ^ 32 ∧ s.map = mapinit n ∧ s.put = ∅ ∧ s.held = ∅ ∧ s.lost = ∅

def given (s : System) (mp : RMap) (lost : Bool) (units : Set Nat) : System :=
  { s with map := mp, lost := if lost then s.lost ∪ units else s.lost }

/-- The steps; what is freed is held, and a grant holds the units from its address on. -/
def Step (s : System) : Event → System → Prop
  | .put size a, t =>
    a + size ≤ 2 ^ 32 ∧ Disjoint (unitsOf size a) s.put ∧
      ∃ mp lost, Rmap.rmfree s.map size a = some (mp, lost) ∧
        t = { s.given mp lost (unitsOf size a) with
          put := s.put ∪ unitsOf size a }
  | .rmalloc size, t =>
    ∃ a mp, size < 2 ^ 32 ∧ Rmap.rmalloc s.map size = some (a, mp) ∧ t = { s with
        map := mp
        held := if a = 0 then s.held else s.held ∪ unitsOf size a }
  | .rmfree size a, t =>
    a + size ≤ 2 ^ 32 ∧ unitsOf size a ⊆ s.held ∧
      ∃ mp lost, Rmap.rmfree s.map size a = some (mp, lost) ∧
        t = { s.given mp lost (unitsOf size a) with
          held := s.held \ unitsOf size a }
  | .want, t => t = { s with map := { s.map with mapwant := 1 } }

/-- Unit 0 is not put in: an address of 0 is no grant. -/
def NoUnitZero (_ : System) : Event → Prop
  | .put _ a => 0 < a
  | _ => True

end System

end Rmap
end Svr4
