import Svr4.Lib.Ring
import Svr4.Lib.Transition

/-!
# The directory name lookup cache

The cache of `fs/dnlc.c`, once `dnlc_init` has set it up: its entries
on the LRU list and on the hash chains, and the routines that enter, look up,
remove and purge names.  Vnodes and credentials are given by their addresses.
-/

namespace Svr4
namespace Dnlc

open Function

/-- The heads of the lists and the entries of the cache. -/
inductive Ref where
  | lru
  | hash (i : Nat)
  | entry (i : Nat)
deriving DecidableEq

/-- A component name, which is not empty. -/
structure Name where
  chars : List Nat
  nonempty : chars ≠ []
deriving DecidableEq

/-- The fields of an entry that is not one of its links. -/
structure Ncache where
  vp : Option Nat
  dp : Option Nat
  name : List Nat
  cred : Option Nat
deriving DecidableEq

inductive Log where
  | entered (dp : Nat) (name : List Nat) (cred : Option Nat) (vp : Nat)
  | removed (dp : Nat) (name : List Nat)
  | purged
  | purgedVp (vp : Nat)
  | purgedVfsp (vVfsp : Nat → Nat) (vfsp : Nat)
  | purgedEntry (dp : Nat) (name : List Nat) (cred : Option Nat)

/-- The links, the entries and the holds, and what has happened, which the code does not read. -/
structure Cache where
  ncsize : Nat
  hashNext : Ref → Ref
  hashPrev : Ref → Ref
  lruNext : Ref → Ref
  lruPrev : Ref → Ref
  ncache : Nat → Ncache
  vHolds : Nat → Int
  crHolds : Nat → Int
  log : List Log

def ncNamlen : Nat := 15

def ncHashSize : Nat := 8

def ncHash (name : Name) (vp : Nat) : Nat :=
  (name.chars.head name.nonempty + name.chars.getLast name.nonempty +
    name.chars.length + vp) % ncHashSize

namespace Cache

/-!
## The lists
-/

def ncInshash (s : Cache) (ncp hp : Ref) : Cache :=
  let hashNext := update s.hashNext ncp (s.hashNext hp)
  let hashPrev := update s.hashPrev ncp hp
  { s with
    hashPrev := update hashPrev (hashNext hp) ncp
    hashNext := update hashNext hp ncp }

def ncRmhash (s : Cache) (ncp : Ref) : Cache :=
  let hashNext := update s.hashNext (s.hashPrev ncp) (s.hashNext ncp)
  { s with
    hashNext := hashNext
    hashPrev := update s.hashPrev (hashNext ncp) (s.hashPrev ncp) }

def ncInslru (s : Cache) (ncp2 ncp1 : Ref) : Cache :=
  let ncp3 := s.lruNext ncp1
  let lruNext := update s.lruNext ncp1 ncp2
  let lruPrev := update s.lruPrev ncp3 ncp2
  { s with
    lruNext := update lruNext ncp2 ncp3
    lruPrev := update lruPrev ncp2 ncp1 }

def ncRmlru (s : Cache) (ncp : Ref) : Cache :=
  let lruNext := update s.lruNext (s.lruPrev ncp) (s.lruNext ncp)
  { s with
    lruNext := lruNext
    lruPrev := update s.lruPrev (lruNext ncp) (s.lruPrev ncp) }

def nullHash (s : Cache) (ncp : Ref) : Cache :=
  { s with
    hashNext := update s.hashNext ncp ncp
    hashPrev := update s.hashPrev ncp ncp }

/-!
## References

A vnode or a credential is held and released; nothing is for the null pointer.
-/

def hold (holds : Nat → Int) : Option Nat → Nat → Int
  | none => holds
  | some x => update holds x (holds x + 1)

def rele (holds : Nat → Int) : Option Nat → Nat → Int
  | none => holds
  | some x => update holds x (holds x - 1)

/-!
## Entries
-/

/-- The entry is for the name in the directory, and for the credential if one is given. -/
def Matches (e : Ncache) (dp : Nat) (name : List Nat) (cred : Option (Option Nat)) :
    Prop :=
  e.dp = some dp ∧ e.name = name ∧ ∀ c ∈ cred, e.cred = c

instance (e : Ncache) (dp : Nat) (name : List Nat) (cred : Option (Option Nat)) :
    Decidable (Matches e dp name cred) :=
  inferInstanceAs (Decidable (_ ∧ _ ∧ _))

/-- The walk over a list to the first entry of which `c` holds. -/
def find (s : Cache) (next : Ref → Ref) (c : Ncache → Prop) [DecidablePred c] :
    Nat → Ref → Option (Option Nat)
  | 0, _ => none
  | fuel + 1, .entry i =>
    if c (s.ncache i) then some (some i)
    else s.find next c fuel (next (.entry i))
  | _ + 1, _ => some none

/-- The credential `none` is for `ANYCRED`. -/
def dnlcSearch (s : Cache) (dp : Nat) (name : Name) (hash : Nat)
    (cred : Option (Option Nat)) : Option (Option Nat) :=
  s.find s.hashNext (fun e => Matches e dp name.chars cred) (s.ncsize + 1) (s.hashNext (.hash hash))

def clear (e : Ncache) : Ncache := { e with dp := none, vp := none, cred := none }

/--
The references of an entry are given up, and those that are put in their place
are held.
-/
def replace (s : Cache) (i : Nat) (e : Ncache) : Cache :=
  let old := s.ncache i
  { s with
    vHolds := hold (hold (rele (rele s.vHolds old.dp) old.vp) e.dp) e.vp
    crHolds := hold (rele s.crHolds old.cred) e.cred
    ncache := update s.ncache i e }

def dnlcRm (s : Cache) (i : Nat) : Cache :=
  let s := (s.ncRmlru (.entry i)).ncRmhash (.entry i)
  let s := s.replace i (clear (s.ncache i))
  (s.ncInslru (.entry i) .lru).nullHash (.entry i)

def fill (s : Cache) (i dp : Nat) (name : Name) (vp : Nat) (cred : Option Nat) : Cache :=
  let s := (s.ncRmlru (.entry i)).ncRmhash (.entry i)
  let s := s.replace i ⟨some vp, some dp, name.chars, cred⟩
  let s := s.ncInslru (.entry i) (s.lruPrev .lru)
  let s := s.ncInshash (.entry i) (.hash (ncHash name dp))
  { s with log := .entered dp name.chars cred vp :: s.log }

def dnlcEnter (s : Cache) (dp : Nat) (name : Name) (vp : Nat) (cred : Option Nat) :
    Option Cache :=
  if name.chars.length > ncNamlen then some s
  else
    match s.dnlcSearch dp name (ncHash name dp) (some cred) with
    | none => none
    | some (some _) => some s
    | some none =>
      match s.lruNext .lru with
      | .entry i => some (s.fill i dp name vp cred)
      | _ => some s

/-- An entry that has been found is moved to the end of the LRU list, and forward. -/
def touch (s : Cache) (i hash : Nat) : Cache :=
  let s := s.ncRmlru (.entry i)
  let s := s.ncInslru (.entry i) (s.lruPrev .lru)
  if s.hashPrev (.entry i) ≠ .hash hash then
    let s := s.ncRmhash (.entry i)
    s.ncInshash (.entry i) (s.hashPrev (s.hashPrev (.entry i)))
  else s

def dnlcLookup (s : Cache) (dp : Nat) (name : Name) (cred : Option Nat) :
    Option (Option Nat × Cache) :=
  if name.chars.length > ncNamlen then some (none, s)
  else
    let hash := ncHash name dp
    match s.dnlcSearch dp name hash (some cred) with
    | none => none
    | some none => some (none, s)
    | some (some i) =>
      let t := s.touch i hash
      some ((t.ncache i).vp, t)

def removeLoop (dp : Nat) (name : Name) : Nat → Cache → Option Cache
  | 0, _ => none
  | fuel + 1, s =>
    match s.dnlcSearch dp name (ncHash name dp) none with
    | none => none
    | some none => some s
    | some (some i) => removeLoop dp name fuel (s.dnlcRm i)

def dnlcRemove (s : Cache) (dp : Nat) (name : Name) : Option Cache :=
  if name.chars.length > ncNamlen then some s
  else do
    let t ← removeLoop dp name (s.ncsize + 1) s
    pure { t with log := .removed dp name.chars :: t.log }

/-- The first entry of the first hash chain that is not empty, from chain `i` on. -/
def firstHashed (s : Cache) : Nat → Nat → Option Nat
  | 0, _ => none
  | left + 1, i =>
    match s.hashNext (.hash i) with
    | .entry k => some k
    | _ => s.firstHashed left (i + 1)

/-- The loop of `dnlc_purge`; there is a panic if an entry has no vnode. -/
def purgeLoop : Nat → Cache → Option Cache
  | 0, _ => none
  | fuel + 1, s =>
    match s.firstHashed ncHashSize 0 with
    | none => some s
    | some i =>
      if (s.ncache i).dp = none ∨ (s.ncache i).vp = none then none
      else purgeLoop fuel (s.dnlcRm i)

def dnlcPurge (s : Cache) : Option Cache := do
  let t ← purgeLoop (s.ncsize + 1) s
  pure { t with log := .purged :: t.log }

def findLru (s : Cache) (c : Ncache → Prop) [DecidablePred c] : Option (Option Nat) :=
  s.find s.lruNext c (s.ncsize + 1) (s.lruNext .lru)

def References (vp : Nat) (e : Ncache) : Prop := e.dp = some vp ∨ e.vp = some vp

instance (vp : Nat) : DecidablePred (References vp) :=
  fun _ => inferInstanceAs (Decidable (_ ∨ _))

def purgeVpLoop (vp : Nat) : Nat → Cache → Option Cache
  | 0, _ => none
  | fuel + 1, s =>
    match s.findLru (References vp) with
    | none => none
    | some none => some s
    | some (some i) => purgeVpLoop vp fuel (s.dnlcRm i)

def dnlcPurgeVp (s : Cache) (vp : Nat) : Option Cache := do
  let t ← purgeVpLoop vp (s.ncsize + 1) s
  pure { t with log := .purgedVp vp :: t.log }

/-- A vnode of the entry belongs to the file system; `v_vfsp` is given. -/
def OnVfs (vVfsp : Nat → Nat) (vfsp : Nat) (e : Ncache) : Prop :=
  (∃ dp ∈ e.dp, vVfsp dp = vfsp) ∨ ∃ vp ∈ e.vp, vVfsp vp = vfsp

instance (vVfsp : Nat → Nat) (vfsp : Nat) : DecidablePred (OnVfs vVfsp vfsp) :=
  fun _ => inferInstanceAs (Decidable (_ ∨ _))

def rmLogged (s : Cache) (i : Nat) : Cache :=
  match (s.ncache i).dp with
  | none => s.dnlcRm i
  | some dp =>
    { s.dnlcRm i with
      log := .purgedEntry dp (s.ncache i).name (s.ncache i).cred :: s.log }

/-- The loop of `dnlc_purge_vfsp`; `n` entries have been purged. -/
def purgeVfspLoop (vVfsp : Nat → Nat) (vfsp : Nat) (count : Int) :
    Nat → Int → Cache → Option (Int × Cache)
  | 0, _, _ => none
  | fuel + 1, n, s =>
    match s.findLru (OnVfs vVfsp vfsp) with
    | none => none
    | some none => some (n, s)
    | some (some i) =>
      if count = 0 ∨ n + 1 < count then
        purgeVfspLoop vVfsp vfsp count fuel (n + 1) (s.rmLogged i)
      else some (n + 1, s.rmLogged i)

def dnlcPurgeVfsp (s : Cache) (vVfsp : Nat → Nat) (vfsp : Nat) (count : Int) :
    Option (Int × Cache) := do
  let (n, t) ← purgeVfspLoop vVfsp vfsp count (s.ncsize + 1) 0 s
  if count = 0 then pure (n, { t with log := .purgedVfsp vVfsp vfsp :: t.log })
  else pure (n, t)

def InUse (e : Ncache) : Prop := e.dp ≠ none

instance : DecidablePred InUse := fun _ => inferInstanceAs (Decidable (¬ _))

def dnlcPurge1 (s : Cache) : Option (Int × Cache) :=
  match s.findLru InUse with
  | none => none
  | some none => some (0, s)
  | some (some i) => some (1, s.rmLogged i)

/-!
## Events
-/

inductive Event where
  | enter (dp : Nat) (name : Name) (vp : Nat) (cred : Option Nat)
  | lookup (dp : Nat) (name : Name) (cred : Option Nat)
  | remove (dp : Nat) (name : Name)
  | purge
  | purgeVp (vp : Nat)
  | purgeVfsp (vVfsp : Nat → Nat) (vfsp : Nat) (count : Int)
  | purge1

def exec (s : Cache) : Event → Option Cache
  | .enter dp name vp cred => s.dnlcEnter dp name vp cred
  | .lookup dp name cred => (s.dnlcLookup dp name cred).map Prod.snd
  | .remove dp name => s.dnlcRemove dp name
  | .purge => s.dnlcPurge
  | .purgeVp vp => s.dnlcPurgeVp vp
  | .purgeVfsp vVfsp vfsp count => (s.dnlcPurgeVfsp vVfsp vfsp count).map Prod.snd
  | .purge1 => s.dnlcPurge1.map Prod.snd

def initEntries : Nat → Cache → Cache
  | 0, s => s
  | n + 1, s =>
    let s := initEntries n s
    let s := (s.ncInslru (.entry n) .lru).nullHash (.entry n)
    { s with ncache := update s.ncache n { s.ncache n with dp := none, vp := none } }

def initHash : Nat → Cache → Cache
  | 0, s => s
  | n + 1, s => (initHash n s).nullHash (.hash n)

def dnlcInit (ncsize : Nat) : Cache :=
  initHash ncHashSize (initEntries ncsize
    { ncsize := ncsize
      hashNext := id
      hashPrev := id
      lruNext := update id .lru .lru
      lruPrev := update id .lru .lru
      ncache := fun _ => ⟨none, none, [], none⟩
      vHolds := fun _ => 0
      crHolds := fun _ => 0
      log := [] })

def Start (s : Cache) : Prop := ∃ ncsize, 0 < ncsize ∧ s = dnlcInit ncsize

def Step (s : Cache) (e : Event) (t : Cache) : Prop := s.exec e = some t

end Cache
end Dnlc
end Svr4
