import Mathlib.Logic.Function.Basic
import Svr4.Lib.Loop

/-!
# Collation

The functions `strxfrm` and `strcoll` of `gen/strxfrm.c` over a collation
table as `colltbl` writes it, without regular expressions.  A pointer into a string
is the list of the bytes from there on, those behind the end of the string included;
behind the last of them are zeros.
-/

namespace Svr4
namespace Collate

open Function

/-!
## Collation tables
-/

structure Xnd where
  ch : UInt8
  pwt : UInt8
  swt : UInt8
  ns : UInt8
deriving DecidableEq

structure Subnd where
  exp : List UInt8
  repl : List UInt8
deriving DecidableEq

def szCollate : Nat := 256

def subflg : UInt8 := 0x80

/-- `swt & ~SUBFLG` -/
def Xnd.sec (x : Xnd) : UInt8 := x.swt &&& 0x7f

def deref (s : List UInt8) : UInt8 := s.headD 0

/-- An entry of `colltbl`. -/
def node (colltbl : List Xnd) (i : Nat) : Xnd := colltbl.getD i ⟨0, 0, 0, 0⟩

/--
A database.  `colltbl` puts the primary weights above the secondary ones, and gives
either all or none of the characters of one primary weight a secondary weight.
-/
structure Database where
  colltbl : List Xnd
  subtbl : List Subnd
  /-- the end of a string is not ordered, and has no followers -/
  nul_pwt : (node colltbl 0).pwt = 0
  nul_ch : (node colltbl 0).ch = 0
  follower_ne : ∀ c : UInt8, ∀ i < (node colltbl c.toNat).ch.toNat,
    (node colltbl ((node colltbl c.toNat).ns.toNat + szCollate + i)).ch ≠ 0
  below : ∀ x ∈ colltbl, ∀ y ∈ colltbl, y.pwt ≠ 0 → x.sec < y.pwt
  aligned : ∀ x ∈ colltbl, ∀ y ∈ colltbl, x.pwt ≠ 0 → x.pwt = y.pwt → (x.sec = 0 ↔ y.sec = 0)
  exp_ne_nil : ∀ e ∈ subtbl, e.exp ≠ []
  exp_nul : ∀ e ∈ subtbl, 0 ∉ e.exp
  repl_nul : ∀ e ∈ subtbl, 0 ∉ e.repl
  flagged : ∀ e ∈ subtbl, (node colltbl (deref e.exp).toNat).swt &&& subflg ≠ 0

namespace Database

variable (c : Database)

def node (i : Nat) : Xnd := Collate.node c.colltbl i

/-!
## Characters
-/

/-- The search for the second of two characters that are ordered as one. -/
def follower (next : UInt8) : Nat → Nat → Option Nat
  | 0, _ => none
  | i + 1, j => if next = (c.node j).ch then some j else follower next i (j + 1)

/-- The entry of the character at a pointer, or of two of them, and the pointer behind. -/
def element (s : List UInt8) : Xnd × List UInt8 :=
  let x := c.node (deref s).toNat
  if x.ch ≠ 0 then
    (c.follower (deref s.tail) x.ch.toNat (x.ns.toNat + szCollate)).elim (x, s.tail) fun j =>
      (c.node j, s.tail.tail)
  else (x, s.tail)

/-- `cksub`: the pointer behind the expression, and the replacement. -/
def cksub (s : List UInt8) : Option (List UInt8 × List UInt8) :=
  if (c.node (deref s).toNat).swt &&& subflg = 0 then none
  else (c.subtbl.find? fun e => e.exp.isPrefixOf s).map fun e => (s.drop e.exp.length, e.repl)

/-- A pointer, and the one that is saved while a replacement is gone through. -/
structure Place where
  s : List UInt8
  svs : Option (List UInt8)
deriving DecidableEq

/-!
## strxfrm
-/

inductive Turn where
  | leave
  | goto (p : Place)
  | char (x : Xnd) (p : Place)

def xfrmTurn (p : Place) : Turn :=
  if deref p.s = 0 then p.svs.elim .leave fun sv => .goto ⟨sv, none⟩
  else
    (if p.svs = none then c.cksub p.s else none).elim
      (.char (c.element p.s).1 ⟨(c.element p.s).2, p.svs⟩) fun r => .goto ⟨r.2, some r.1⟩

/-- Memory around the buffer, and where in it `strxfrm` is. -/
structure Buffer where
  mem : Int → UInt8
  s1 : Int
  secstr : Int
  len : Nat

def Buffer.putPrim (b : Buffer) (n : Nat) (w : UInt8) : Buffer :=
  if b.len + 1 < n then
    { b with mem := update b.mem b.s1 w, s1 := b.s1 + 1, len := b.len + 1 }
  else { b with len := b.len + 1 }

def Buffer.putSec (b : Buffer) (n : Nat) (w : UInt8) : Buffer :=
  if b.len + 1 < n then
    { b with mem := update b.mem b.secstr w, secstr := b.secstr - 1, len := b.len + 1 }
  else { b with len := b.len + 1 }

/-- The weights of a character are written, if there is room. -/
def Buffer.put (n : Nat) (b : Buffer) (x : Xnd) : Buffer :=
  if x.pwt ≠ 0 then
    if x.sec ≠ 0 then (b.putPrim n x.pwt).putSec n x.sec else b.putPrim n x.pwt
  else b

def xfrmBody (n : Nat) (st : Place × Buffer) : (Place × Buffer) ⊕ Buffer :=
  match c.xfrmTurn st.1 with
  | .leave => .inr st.2
  | .goto p => .inl (p, st.2)
  | .char x p => .inl (p, st.2.put n x)

/-- The loop that reverses the secondary string. -/
structure Reversal where
  mem : Int → UInt8
  s1 : Int
  sptr : Int
  i : Int

def reverseBody (secstr : Int) (r : Reversal) : Reversal ⊕ (Int → UInt8) :=
  if r.i < 0 then .inr r.mem
  else if r.s1 < secstr then
    .inl ⟨update r.mem r.s1 (r.mem r.sptr), r.s1 + 1, r.sptr - 1, r.i - 1⟩
  else
    .inl ⟨update (update r.mem r.s1 (r.mem r.sptr)) r.sptr (r.mem r.s1),
      r.s1 + 1, r.sptr - 1, r.i - 2⟩

/-- `strxfrm`: the length, and memory. -/
def strxfrm (turns : Nat) (mem : Int → UInt8) (s2 : List UInt8) (n : Nat) :
    Option (Nat × (Int → UInt8)) :=
  (Loop.run (c.xfrmBody n) turns (⟨s2, none⟩, ⟨mem, 0, n - 1, 0⟩)).bind fun b =>
    (Loop.run (reverseBody b.secstr) turns
      ⟨update b.mem b.secstr 0, b.s1, n - 1, n - 1 - b.secstr⟩).map fun mem =>
        (b.len, mem)

/-!
## strcoll
-/

/-- One turn to the next character that has a weight, or the end of the string. -/
def collTurn (p : Place) : Place ⊕ Option (Xnd × Place) :=
  let p := if deref p.s = 0 then p.svs.elim p fun sv => ⟨sv, none⟩ else p
  if deref p.s = 0 then .inr none
  else
    let q :=
      (if p.svs = none then c.cksub p.s else none).elim p fun r =>
        -- the pointer is behind the expression also where the replacement is empty
        if deref r.2 ≠ 0 then ⟨r.2, some r.1⟩ else ⟨r.1, none⟩
    let e := c.element q.s
    if e.1.pwt = 0 then .inl ⟨e.2, q.svs⟩ else .inr (some (e.1, ⟨e.2, q.svs⟩))

/-- The two strings are at the next of their characters, or at their ends. -/
def collStep (secdiff : Int) : Option (Xnd × Place) → Option (Xnd × Place) →
    (Place × Place × Int) ⊕ Int
  | none, none => .inr secdiff
  | none, some y => .inr (0 - y.1.pwt.toNat)
  | some _, none => .inr 1
  | some x, some y =>
    if x.1.pwt ≠ y.1.pwt then .inr (x.1.pwt.toNat - y.1.pwt.toNat)
    else .inl (x.2, y.2,
      if secdiff = 0 then (x.1.sec.toNat : Int) - y.1.sec.toNat else secdiff)

def collBody (turns : Nat) (st : Place × Place × Int) : (Place × Place × Int) ⊕ Option Int :=
  ((Loop.run c.collTurn turns st.1).bind fun x =>
    (Loop.run c.collTurn turns st.2.1).map fun y => collStep st.2.2 x y).elim (.inr none)
      fun r => r.elim .inl fun d => .inr (some d)

def strcoll (turns : Nat) (s1 s2 : List UInt8) : Option Int :=
  (Loop.run (c.collBody turns) turns (⟨s1, none⟩, ⟨s2, none⟩, 0)).join

end Database

end Collate
end Svr4
