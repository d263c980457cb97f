import Mathlib.Tactic.Ring
import Svr4.Lib.Heap
import Svr4.Lib.Transition

/-!
# The callout table

The table of `os/clock.c`, which is kept as a heap: `heap_up` and
`heap_down`, `timeout`, `untimeout` and the loop of
`timein`.  A function that `timein` calls may call the others before
the loop goes on, and the clock may advance.
-/

namespace Svr4
namespace Callout

open Function

structure Callo where
  cTime : Int
  cId : Int
  cArg : Nat
  cFunc : Nat
deriving DecidableEq, Repr

/-- A value in an `int`. -/
def toInt (x : Int) : Int := Int.bmod x (2 ^ 32)

def heapUp (callout : Nat → Callo) (t : Int) (j : Nat) : (Nat → Callo) × Nat :=
  if 0 < j then
    let k := (j - 1) / 2
    if (callout k).cTime > t then
      heapUp (update callout j (callout k)) t k
    else (callout, j)
  else (callout, j)
termination_by j
decreasing_by omega

/-- The child that is moved up if the hole at `j` moves down. -/
def child (calllimit : Int) (callout : Nat → Callo) (j : Nat) : Nat :=
  let k := 1 + 2 * j
  if k < calllimit ∧ (callout (k + 1)).cTime < (callout k).cTime then k + 1 else k

theorem lt_child (calllimit : Int) (callout : Nat → Callo) (j : Nat) :
    j < child calllimit callout j := by
  unfold child
  dsimp only
  split <;> omega

theorem child_le {calllimit : Int} {a : Nat → Callo} {j : Nat}
    (h : ¬ (1 + 2 * j : Nat) > calllimit) : (child calllimit a j : Int) ≤ calllimit := by
  unfold child
  dsimp only
  split <;> omega

def heapDown (calllimit : Int) (callout : Nat → Callo) (t : Int) (j : Nat) :
    (Nat → Callo) × Nat :=
  if (1 + 2 * j : Nat) > calllimit then (callout, j)
  else
    let k := child calllimit callout j
    if (callout k).cTime ≥ t then (callout, j)
    else heapDown calllimit (update callout j (callout k)) t k
termination_by (calllimit + 1 - j).toNat
decreasing_by
  have hlt := lt_child calllimit callout j
  omega

/-- What has been called in a pass of `timein`. -/
structure Pass where
  served : List Callo
  early : Bool
deriving DecidableEq

/-- The table and the clock, and, which the code does not read, the entries that were made, removed
and called, and the pass of `timein` that is going on. -/
structure System where
  callout : Nat → Callo
  calllimit : Int
  vCall : Nat
  timeid : Int
  lbolt : Int
  inserted : Multiset Callo
  cancelled : Multiset Callo
  fired : Multiset Callo
  pass : Option Pass

inductive Event where
  | timeout (func arg : Nat) (tim : Int)
  | ttimeout (func arg : Nat) (tim : Int)
  | untimeout (id : Int)
  | begin
  | serve
  | finish
  | tick
deriving DecidableEq

namespace System

def contents (s : System) : Multiset Callo :=
  Heap.contents s.callout (s.calllimit + 1).toNat

/-- The entry that `timeout` makes. -/
def entry (s : System) (func arg : Nat) (tim : Int) : Callo where
  cTime := toInt (s.lbolt + tim)
  cId := toInt (s.timeid + 1)
  cArg := arg
  cFunc := func

def timeout (s : System) (func arg : Nat) (tim : Int) : Option (Int × System) :=
  let t := toInt (s.lbolt + tim)
  let j := s.calllimit + 1
  if j = s.vCall then none
  else
    let (callout, j') := heapUp s.callout t j.toNat
    let id := toInt (s.timeid + 1)
    some (id, { s with
      callout := update callout j' ⟨t, id, arg, func⟩
      calllimit := j
      timeid := id
      inserted := s.entry func arg tim ::ₘ s.inserted
      pass := s.pass.map fun p => { p with early := p.early || decide (tim < 0) } })

def ttimeout (s : System) (func arg : Nat) (tim : Int) : Option (Int × System) :=
  if s.calllimit + 1 = s.vCall then some (-1, s) else s.timeout func arg tim

/-- The loop of `untimeout` over the table, from index `f`. -/
def search (callout : Nat → Callo) (id : Int) : Nat → Nat → Option Nat
  | 0, _ => none
  | left + 1, f =>
    if (callout f).cId = id then some f else search callout id left (f + 1)

def untimeout (s : System) (id : Int) : Int × System :=
  match search s.callout id (s.calllimit + 1).toNat 0 with
  | none => (-1, s)
  | some f =>
    let gone := { s with
      calllimit := s.calllimit - 1
      cancelled := s.callout f ::ₘ s.cancelled }
    if f = s.calllimit then (f, gone)
    else if gone.calllimit ≥ 0 then
      let pend := s.callout s.calllimit.toNat
      let t := pend.cTime
      let j := (f - 1) / 2
      let (callout, j') :=
        if 0 < f ∧ (s.callout j).cTime > t then heapUp s.callout t f
        else heapDown gone.calllimit s.callout t f
      (f, { gone with
        callout := update callout j' (callout s.calllimit.toNat) })
    else (f, gone)

/-- The test of the loop of `timein`. -/
def Due (s : System) : Prop := (s.callout 0).cTime ≤ s.lbolt ∧ s.calllimit ≥ 0

instance (s : System) : Decidable s.Due := inferInstanceAs (Decidable (_ ∧ _))

/-- One turn of the loop of `timein`, to the call of the function. -/
def serve (s : System) (p : Pass) : System :=
  let svcall := s.callout 0
  let plast := s.callout s.calllimit.toNat
  let calllimit := s.calllimit - 1
  let gone := { s with
    calllimit := calllimit
    fired := svcall ::ₘ s.fired
    pass := some { p with served := p.served ++ [svcall] } }
  if calllimit ≥ 0 then
    let (callout, j) := heapDown calllimit s.callout plast.cTime 0
    { gone with callout := update callout j (callout s.calllimit.toNat) }
  else gone

def exec (s : System) : Event → Option (Int × System)
  | .timeout func arg tim => s.timeout func arg tim
  | .ttimeout func arg tim => s.ttimeout func arg tim
  | .untimeout id => some (s.untimeout id)
  | .begin =>
    match s.pass with
    | none => some (0, { s with pass := some ⟨[], false⟩ })
    | some _ => none
  | .serve =>
    match s.pass with
    | some p => if s.Due then some (0, s.serve p) else none
    | none => none
  | .finish =>
    match s.pass with
    | some _ => if s.Due then none else some (0, { s with pass := none })
    | none => none
  | .tick => some (0, { s with lbolt := toInt (s.lbolt + 1) })

def Start (s : System) : Prop :=
  s.calllimit = -1 ∧ s.timeid = 0 ∧ s.inserted = 0 ∧ s.cancelled = 0 ∧ s.fired = 0 ∧ s.pass = none

def Step (s : System) (e : Event) (t : System) : Prop :=
  ∃ ret, s.exec e = some (ret, t)

/-- The clock does not overflow, nor the time of a new entry. -/
def NoOverflow (s : System) : Event → Prop
  | .timeout _ _ tim | .ttimeout _ _ tim => toInt (s.lbolt + tim) = s.lbolt + tim
  | .tick => toInt (s.lbolt + 1) = s.lbolt + 1
  | _ => True

end System
end Callout
end Svr4
