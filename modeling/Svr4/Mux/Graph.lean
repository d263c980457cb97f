import Mathlib.Algebra.Order.BigOperators.Group.Finset
import Svr4.Lib.Chain
import Svr4.Lib.Transition
import Svr4.Lib.WaitGraph

/-!
# The graph of the multiplexor links

The nodes and edges of `os/strsubr.c`, one node for each major device
number, and the routines that search and change them: `linkcycle`,
`mux_addedge` and `mux_rmvedge`.
-/

namespace Svr4
namespace Mux

open Function

structure Stream where
  fifo : Bool
  major : Nat
deriving DecidableEq

/-- A link: the majors of the upper and the lower stream, and its index. -/
structure Link where
  upper : Nat
  lower : Nat
  muxid : Int
deriving DecidableEq

/-- The nodes and edges, the edges that are allocated, and the links, which the code does not read.
-/
structure System where
  cdevcnt : Nat
  mnOriginp : Nat → Option Nat
  mnStartp : Nat → Option Nat
  mnOutp : Nat → Option Nat
  visited : Nat → Bool
  meNodep : Nat → Nat
  meNextp : Nat → Option Nat
  meMuxid : Nat → Int
  allocated : List Nat
  links : List Link

namespace System

/-- The loop of `linkcycle`, with at most `fuel` turns. -/
def walk (upmaj : Nat) : Nat → System → Nat → Option (Int × System)
  | 0, _, _ => none
  | fuel + 1, s, np =>
    if s.visited np = false then
      if np = upmaj then some (1, s)
      else
        let seen := { s with visited := update s.visited np true }
        match s.mnOutp np with
        | none =>
          match s.mnOriginp np with
          | none => some (0, seen)
          | some origin => walk upmaj fuel seen origin
        | some ep =>
          walk upmaj fuel { seen with mnStartp := update s.mnStartp np (some ep) } np
    else
      match s.mnStartp np with
      | none =>
        match s.mnOriginp np with
        | none => some (0, s)
        | some origin => walk upmaj fuel s origin
      | some ep =>
        let nodep := s.meNodep ep
        walk upmaj fuel
          { s with
            mnStartp := update s.mnStartp np (s.meNextp ep)
            mnOriginp := update s.mnOriginp nodep (some np) } nodep

/-- `MUX_CLEAR` of every node. -/
def clear (s : System) : System :=
  { s with
    visited := fun i => if i < s.cdevcnt then false else s.visited i
    mnOriginp := fun i => if i < s.cdevcnt then none else s.mnOriginp i }

def turns (s : System) : Nat := s.cdevcnt * (2 * s.allocated.length + 1) + 2

def linkcycle (s : System) (up lo : Stream) : Option (Int × System) :=
  if lo.fifo then some (0, s)
  else walk up.major s.turns s.clear lo.major

def lastEdge (meNextp : Nat → Option Nat) : Nat → Nat → Option Nat
  | 0, _ => none
  | fuel + 1, ep =>
    match meNextp ep with
    | none => some ep
    | some next => lastEdge meNextp fuel next

/-- The fields of a new edge at `ep`. -/
def fill (s : System) (ep lomaj : Nat) (muxid : Int) : System :=
  { s with
    meNextp := update s.meNextp ep none
    meMuxid := update s.meMuxid ep muxid
    meNodep := update s.meNodep ep lomaj
    allocated := ep :: s.allocated }

/-- The address of the new edge is given; there may be no memory for it. -/
def muxAddedge (s : System) (upmaj lomaj : Nat) (muxid : Int) :
    Option Nat → Option (Bool × System)
  | none => some (false, s)
  | some ep =>
    match s.mnOutp upmaj with
    | some first => do
        let last ← lastEdge s.meNextp s.allocated.length first
        let t := s.fill ep lomaj muxid
        pure (true, { t with meNextp := update t.meNextp last (some ep) })
    | none =>
      let t := s.fill ep lomaj muxid
      some (true, { t with mnOutp := update t.mnOutp upmaj (some ep) })

/-- The loop of `mux_rmvedge`: the edge, and the one before it. -/
def findEdge (s : System) (muxid : Int) :
    Nat → Option Nat → Option Nat → Option (Option Nat × Option Nat)
  | _, pep, none => some (pep, none)
  | 0, _, some _ => none
  | fuel + 1, pep, some ep =>
    if s.meMuxid ep = muxid then some (pep, some ep)
    else s.findEdge muxid fuel (some ep) (s.meNextp ep)

def muxRmvedge (s : System) (upmaj : Nat) (muxid : Int) : Option System := do
  match ← s.findEdge muxid s.allocated.length none (s.mnOutp upmaj) with
  | (_, none) => pure s
  | (some pep, some ep) =>
    pure { s with
      meNextp := update s.meNextp pep (s.meNextp ep)
      allocated := s.allocated.erase ep }
  | (none, some ep) =>
    pure { s with
      mnOutp := update s.mnOutp upmaj (s.meNextp ep)
      allocated := s.allocated.erase ep }

/-!
## Links
-/

inductive Event where
  | link (up lo : Stream) (muxid : Int) (ep : Option Nat)
  | unlink (l : Link)

/-- A link is made if no cycle is found, and undone if there is no memory for its edge. -/
def exec (s : System) : Event → Option System
  | .link up lo muxid ep =>
    if up.fifo ∨ s.cdevcnt ≤ up.major ∨ s.cdevcnt ≤ lo.major ∨
        (∃ l ∈ s.links, l.muxid = muxid) ∨ (∃ e ∈ ep, e ∈ s.allocated) then none
    else do
      let (found, t) ← s.linkcycle up lo
      if found = 1 then pure t
      else
        let (added, t) ← t.muxAddedge up.major lo.major muxid ep
        if added then
          pure { t with links := ⟨up.major, lo.major, muxid⟩ :: t.links }
        else t.muxRmvedge up.major muxid
  | .unlink l =>
    if l ∈ s.links then do
      let t ← s.muxRmvedge l.upper l.muxid
      pure { t with links := t.links.erase l }
    else none

def Start (s : System) : Prop :=
  (∀ i, s.mnOutp i = none) ∧ (∀ i, s.mnStartp i = none) ∧
    (∀ i, s.visited i = false) ∧ s.allocated = [] ∧ s.links = []

def Step (s : System) (e : Event) (t : System) : Prop := s.exec e = some t

/-- An edge from one node to another is on the list of the first. -/
def Edge (s : System) (u v : Nat) : Prop :=
  ∃ l, Chain s.meNextp (s.mnOutp u) l none ∧ ∃ e ∈ l, s.meNodep e = v

def Reaches (s : System) : Nat → Nat → Prop := Relation.ReflTransGen s.Edge

end System
end Mux
end Svr4
