import Mathlib.Tactic.Ring
import Svr4.Lib.Chain

/-!
# Adjust-on-exit records of semaphores

The undo structures of `os/sem.c` and the routines that edit them:
`semaoe`, which creates or updates one record, and `semunrm`, which
clears the records of semaphores that are removed or reset.

The structures of the table `semu` are known by their index.  A structure
is on the free chain `semfup`, or belongs to the process slot whose entry
in `sem_undo` leads to it; the structures in use for at least one record
are on the active chain `semunp`.
-/

namespace Svr4
namespace Semaphore

open Function

/-!
## Parameters and errors
-/

/-- `struct seminfo`, within the bounds `mtune` sets to it. -/
structure SemInfo where
  semmni : Nat
  semmnu : Nat
  semmsl : Nat
  semopm : Nat
  semume : Nat
  semvmx : Nat
  semaem : Nat
  semmni_pos : 0 < semmni
  semmnu_pos : 0 < semmnu
  semume_le : semume ≤ 32767
  semvmx_le : semvmx ≤ 32767
  semaem_le : semaem ≤ 16384

inductive Errno where
  | EPERM
  | E2BIG
  | EACCES
  | EFAULT
  | EEXIST
  | EINVAL
  | EFBIG
  | ENOENT
  | EINTR
  | EAGAIN
  | ENOSPC
  | ERANGE
  | EIDRM
deriving DecidableEq, Repr

def short (x : Int) : Int := x.bmod 65536

def ushort (x : Int) : Nat := (x % 65536).toNat

/-!
## Undo structures
-/

/-- `struct undo`, one adjust-on-exit record. -/
structure Undo where
  unAoe : Int
  unNum : Nat
  unId : Int
deriving DecidableEq, Repr

def Undo.isFor (id : Int) (num : Nat) (uup : Undo) : Prop :=
  uup.unId = id ∧ uup.unNum = num

instance (id : Int) (num : Nat) (uup : Undo) :
    Decidable (uup.isFor id num) := by
  unfold Undo.isFor
  infer_instance

/-- The record is for an earlier semaphore than the one given. -/
def Undo.before (id : Int) (num : Nat) (uup : Undo) : Prop :=
  uup.unId < id ∨ (uup.unId = id ∧ uup.unNum < num)

instance (id : Int) (num : Nat) (uup : Undo) :
    Decidable (uup.before id num) := by
  unfold Undo.before
  infer_instance

/-- The undo tables; `un_cnt` is the length of `un_ent`. -/
structure Undos where
  unNp : Nat → Option Nat
  unEnt : Nat → List Undo
  semUndo : Nat → Option Nat
  semunp : Option Nat
  semfup : Option Nat

/-- The part of `seminit` that chains the free structures. -/
def Undos.seminit (si : SemInfo) : Undos where
  unNp i := if i + 1 < si.semmnu then some (i + 1) else none
  unEnt _ := []
  semUndo _ := none
  semunp := none
  semfup := some 0

def Undos.entries (u : Undos) (slot : Nat) : List Undo :=
  match u.semUndo slot with
  | none => []
  | some up => u.unEnt up

/-!
## Creating and updating a record
-/

/-- Look up the place of a semaphore among the sorted records. -/
def search (id : Int) (num : Nat) :
    List Undo → List Undo × Option Undo × List Undo
  | [] => ([], none, [])
  | uup :: rest =>
    if uup.before id num then
      let (front, found, back) := search id num rest
      (uup :: front, found, back)
    else if uup.isFor id num then ([], some uup, rest)
    else ([], none, uup :: rest)

/-- The structure `up` at the head of the free chain goes to a process. -/
def Undos.take (u : Undos) (slot up : Nat) : Undos :=
  { u with
    semfup := u.unNp up
    unNp := update u.unNp up none
    semUndo := update u.semUndo slot (some up) }

/-- Find the undo structure of the process, or take one off the free chain. -/
def Undos.attach (u : Undos) (slot : Nat) : Option (Nat × Undos) :=
  match u.semUndo slot with
  | some up => some (up, u)
  | none => u.semfup.map fun up => (up, u.take slot up)

/-- A structure without records goes off the active chain. -/
def Undos.retire (si : SemInfo) (u : Undos) (up : Nat) : Option Undos :=
  (Chain.unlink u.unNp si.semmnu u.semunp up).map fun (semunp, unNp) =>
    { u with
      semunp := semunp
      unNp := update unNp up none }

/--
The part of `semaoe` behind the checks on the value, with `up` the
undo structure of the process.
-/
def Undos.adjust (si : SemInfo) (u : Undos) (up : Nat) (val id : Int)
    (num : Nat) : Option (Option Errno × Undos) :=
  match search id num (u.unEnt up) with
  | (front, none, back) =>
    if (u.unEnt up).length ≥ si.semume then some (some .EINVAL, u)
    else
      -- The first record puts the structure on the active chain.
      let u :=
        if u.unEnt up = [] then
          { u with
            unNp := update u.unNp up u.semunp
            semunp := some up }
        else u
      let uup := { unId := id, unNum := num, unAoe := short (-val) }
      some (none, { u with unEnt := update u.unEnt up (front ++ uup :: back) })
  | (front, some uup, back) =>
    let aoe := short (uup.unAoe - val)
    if aoe > si.semaem ∨ aoe < -si.semaem then
      let uup := { uup with unAoe := short (aoe + val) }
      some (some .ERANGE, { u with unEnt := update u.unEnt up (front ++ uup :: back) })
    else if aoe = 0 then
      let u :=
        { u with unEnt := update u.unEnt up (front ++ back) }
      if front ++ back = [] then (u.retire si up).map fun u => (none, u)
      else some (none, u)
    else
      let uup := { uup with unAoe := aoe }
      some (none, { u with unEnt := update u.unEnt up (front ++ uup :: back) })

/-- Create or update the adjust-on-exit record of the process in `slot`; there is no result
where the search on the active chain does not end. -/
def semaoe (si : SemInfo) (u : Undos) (slot : Nat) (val id : Int)
    (num : Nat) : Option (Option Errno × Undos) :=
  let val := short val
  if val = 0 then some (none, u)
  else if val > si.semaem ∨ val < -si.semaem then some (some .ERANGE, u)
  else
    match u.attach slot with
    | none => some (some .ENOSPC, u)
    | some (up, u) => u.adjust si up val id num

/-!
## Clearing records
-/

def purge (id : Int) (low high : Nat) : List Undo → List Undo
  | [] => []
  | up :: rest =>
    if id < up.unId then up :: rest
    else if id > up.unId ∨ low > up.unNum then up :: purge id low high rest
    else if high < up.unNum then up :: rest
    else purge id low high rest

/-- The loop of `semunrm` over the active chain; `pp` is behind. -/
def semunrmLoop (id : Int) (low high : Nat) :
    Nat → Option Nat → Option Nat → Undos → Option Undos
  | _, _, none, u => some u
  | 0, _, some _, _ => none
  | fuel + 1, pp, some p, u =>
    let ents := purge id low high (u.unEnt p)
    let u := { u with unEnt := update u.unEnt p ents }
    if ents = [] then
      match pp with
      | none =>
        let next := u.unNp p
        semunrmLoop id low high fuel none next
          { u with
            semunp := next
            unNp := update u.unNp p none }
      | some pred =>
        let next := u.unNp p
        semunrmLoop id low high fuel (some pred) next
          { u with
            unNp :=
              update (update u.unNp pred next) p none }
    else semunrmLoop id low high fuel (some p) (u.unNp p) u

/-- Clear all records of the semaphores `low` to `high` of a set. -/
def semunrm (si : SemInfo) (u : Undos) (id : Int) (low high : Nat) :
    Option Undos :=
  semunrmLoop id low high si.semmnu none u.semunp u

/-- The part of `semexit` that releases the undo structure. -/
def Undos.release (si : SemInfo) (u : Undos) (slot : Nat) : Option Undos :=
  match u.semUndo slot with
  | none => some u
  | some up =>
    let unlinked : Option Undos :=
      if u.unEnt up = [] then some u
      else
        (Chain.unlink u.unNp si.semmnu u.semunp up).map fun (semunp, unNp) =>
            { u with
              unEnt := update u.unEnt up []
              semunp := semunp
              unNp := unNp }
    unlinked.map fun u =>
      { u with
        unNp := update u.unNp up u.semfup
        semfup := some up
        semUndo := update u.semUndo slot none }

end Semaphore
end Svr4
