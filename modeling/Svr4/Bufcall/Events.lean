import Svr4.Lib.Chain
import Svr4.Lib.Transition

/-!
# Stream events

The events that `bufcall` of `io/stream.c` registers,
`unbufcall`, and the pass of `queuerun` in `os/strsubr.c` that
runs them.

An event is known by its address.  The list is threaded through
`se_next`.  A pass is a sequence of steps, with calls of `bufcall` and
`unbufcall` by the functions that are run in between.  Registrations are
numbered; the numbers and what became of them are kept for the statements about
a run, no routine reads them.
-/

namespace Svr4
namespace Bufcall

open Function

structure Strevent where
  seFunc : Nat
  seArg : Int
  seSize : Int

/-- Where `queuerun` is. -/
inductive Pass where
  | none
  | loop (nevent : Nat) (count : Int)
  | call (nevent : Nat) (count : Int) (sep : Nat)

structure System where
  bcHead : Option Nat
  bcTail : Option Nat
  seNext : Nat → Option Nat
  strevent : Nat → Strevent
  /-- the events that `sealloc` has given out -/
  allocated : List Nat
  strbcwait : Bool
  strbcflag : Bool
  pass : Pass
  /-- the number of registrations -/
  registered : Nat
  /-- the registration an event belongs to -/
  number : Nat → Nat
  ran : List Nat
  cancelled : List Nat

inductive Event where
  /-- `sep` is what `sealloc` returns. -/
  | bufcall (sep : Option Nat) (size : Int) (func : Nat) (arg : Int)
  | unbufcall (id : Nat)
  | kmemFree
  /-- A pass begins; `count` is what `kmem_avail` returns. -/
  | begin (count : Int)
  /-- One turn of the loop, up to the call of a function. -/
  | turn
  /-- The function returns. -/
  | ret
  /-- The loop ends. -/
  | finish

namespace System

def bufcall (s : System) (sep : Nat) (size : Int) (func : Nat) (arg : Int) :
    System :=
  let s := { s with
    allocated := sep :: s.allocated
    seNext := update s.seNext sep none
    strevent := update s.strevent sep ⟨func, arg, size⟩
    registered := s.registered + 1
    number := update s.number sep s.registered
    strbcwait := true }
  match s.bcHead, s.bcTail with
  | none, _ => { s with bcHead := some sep, bcTail := some sep }
  | some _, some tail =>
    { s with
      seNext := update s.seNext tail (some sep)
      bcTail := some sep }
  | some _, none => s

/-- The search of `unbufcall`: the event before, and the event. -/
def search (seNext : Nat → Option Nat) (id : Nat) :
    Nat → Option Nat → Option Nat → Option (Option Nat × Option Nat)
  | _, psep, none => some (psep, none)
  | 0, _, some _ => none
  | fuel + 1, psep, some sep =>
    if id = sep then some (psep, some sep)
    else search seNext id fuel (some sep) (seNext sep)

def sefree (s : System) (sep : Nat) : System :=
  { s with allocated := s.allocated.erase sep }

def unbufcall (s : System) (id : Nat) : Option System := do
  match ← search s.seNext id s.allocated.length none s.bcHead with
  | (_, none) => return s
  | (psep, some sep) =>
    let t := match psep with
      | some psep =>
        { s with seNext := update s.seNext psep (s.seNext sep) }
      | none => { s with bcHead := s.seNext sep }
    let t := if t.bcTail = some sep then { t with bcTail := psep } else t
    return { t.sefree sep with cancelled := s.number sep :: s.cancelled }

/-- The events on the list are counted, if they have an end. -/
def countEvents (seNext : Nat → Option Nat) : Nat → Option Nat → Option Nat
  | _, none => some 0
  | 0, some _ => none
  | fuel + 1, some sep => (countEvents seNext fuel (seNext sep)).map (· + 1)

def turn (s : System) (nevent : Nat) (count : Int) (sep : Nat) : System :=
  if (s.strevent sep).seSize ≤ count then
    { s with
      bcHead := s.seNext sep
      pass := .call nevent count sep
      ran := s.number sep :: s.ran }
  else
    -- It is too big, and goes to the end of the list.
    let s := { s with
      bcHead := s.seNext sep
      seNext := update s.seNext sep none
      pass := .loop nevent count }
    match s.bcTail with
    | some tail =>
      { s with
        seNext := update s.seNext tail (some sep)
        bcTail := some sep }
    | none => s

def exec (s : System) : Event → Option System
  | .bufcall none _ _ _ => some s
  | .bufcall (some sep) size func arg =>
    if sep ∈ s.allocated then none else some (s.bufcall sep size func arg)
  | .unbufcall id => s.unbufcall id
  | .kmemFree => some { s with strbcflag := s.strbcflag || s.strbcwait }
  | .begin count =>
    match s.pass with
    | .none =>
      if s.strbcflag then
        (countEvents s.seNext s.allocated.length s.bcHead).map fun nevent =>
          { s with
            strbcwait := false
            strbcflag := false
            pass := .loop nevent count }
      else none
    | _ => none
  | .turn =>
    match s.pass, s.bcHead with
    | .loop (nevent + 1) count, some sep => some (s.turn nevent count sep)
    | _, _ => none
  | .ret =>
    match s.pass with
    | .call nevent count sep =>
      some { s.sefree sep with pass := .loop nevent count }
    | _ => none
  | .finish =>
    match s.pass, s.bcHead with
    | .loop _ _, none => some { s with bcTail := none, pass := .none }
    | .loop 0 _, some _ => some { s with strbcwait := true, pass := .none }
    | _, _ => none

def Start (s : System) : Prop :=
  s.bcHead = none ∧ s.allocated = [] ∧ s.registered = 0 ∧ s.ran = [] ∧
    s.cancelled = [] ∧ s.pass = .none

def Step (s : System) (e : Event) (t : System) : Prop := s.exec e = some t

/--
An event that is too big for the memory there is has another one behind it on
the list.
-/
def NotAlone (s : System) : Event → Prop
  | .turn =>
    match s.pass, s.bcHead with
    | .loop _ count, some sep =>
      count < (s.strevent sep).seSize → s.seNext sep ≠ none
    | _, _ => True
  | _ => True

/-- What has been registered and neither run nor cancelled is on the list; nothing was run twice. -/
structure NothingLost (s : System) : Prop where
  list : ∃ l, Chain s.seNext s.bcHead l none ∧ (l ≠ [] → s.bcTail = l.getLast?) ∧
    ∀ k < s.registered, k ∉ s.ran → k ∉ s.cancelled → ∃ sep ∈ l, s.number sep = k
  once : s.ran.Nodup

end System

end Bufcall
end Svr4
