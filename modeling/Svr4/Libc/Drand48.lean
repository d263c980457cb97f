import Mathlib.Tactic.Ring

/-!
# The 48-bit generator

`drand48` and its relatives of `port/gen/drand48.c`.  The state is held in three
words of sixteen bits, the lowest first, and multiplied word by word with a signed
product of 32 bits.
-/

namespace Svr4
namespace Drand48

open Function

/-!
## Words
-/

abbrev Word := Fin 65536

def MASK : Nat := 65535

def low (n : Nat) : Word := Fin.ofNat 65536 n

def lowLong (l : Int) : Word := low (l % 65536).toNat

/-- `HIGH` of a `long`, which is shifted with its sign. -/
def highLong (l : Int) : Word := lowLong (l / 65536)

/-- `MUL`: the product is a `long`. -/
def mul (x y : Word) : Word × Word :=
  let l := Int.bmod (x.val * y.val : Nat) 4294967296
  (lowLong l, highLong l)

def carry (x y : Nat) : Nat := if MASK < x + y then 1 else 0

/-- `ADDEQU`: the sum, and what is carried. -/
def addequ (x : Word) (y : Nat) : Word × Nat := (low (x + y), carry x y)

structure Limbs where
  x0 : Word
  x1 : Word
  x2 : Word
deriving DecidableEq

def Limbs.val (l : Limbs) : Nat := l.x0 + 65536 * l.x1 + 4294967296 * l.x2

structure Gen where
  x : Limbs
  a : Limbs
  c : Word

/-!
## The functions
-/

namespace Gen

def next (g : Gen) : Gen :=
  let p := mul g.a.x0 g.x.x0
  let p0 := addequ p.1 g.c
  let p1 := addequ p.2 p0.2
  let carry1 := p1.2
  let q := mul g.a.x0 g.x.x1
  let p1 := addequ p1.1 q.1
  let carry0 := p1.2
  let r := mul g.a.x1 g.x.x0
  let x2 := low ((carry0 + carry1 + carry p1.1 r.1 + q.2 + r.2 +
    g.a.x0 * g.x.x2 + g.a.x1 * g.x.x1 + g.a.x2 * g.x.x0) % 4294967296)
  { g with x := ⟨low p0.1, low (p1.1 + r.1), x2⟩ }

/-- The number that is returned, of which all digits fit a `double`. -/
def drand48 (g : Gen) : Rat × Gen :=
  let g := g.next
  ((((g.x.x0.val : Rat) / 65536 + g.x.x1.val) / 65536 + g.x.x2.val) / 65536, g)

def lrand48 (g : Gen) : Int × Gen :=
  let g := g.next
  (g.x.x2 * 32768 + g.x.x1 / 2, g)

def mrand48 (g : Gen) : Int × Gen :=
  let g := g.next
  (Int.bmod (g.x.x2 * 65536 + g.x.x1) 4294967296, g)

/-- `NEST`: a function on the storage of the user. -/
def nest {ρ : Type} (f : Gen → ρ × Gen) (xsubi : Limbs) (g : Gen) : ρ × Limbs × Gen :=
  let temp := g.x
  let r := f { g with x := xsubi }
  (r.1, r.2.x, { r.2 with x := temp })

def erand48 : Limbs → Gen → Rat × Limbs × Gen := nest drand48
def nrand48 : Limbs → Gen → Int × Limbs × Gen := nest lrand48
def jrand48 : Limbs → Gen → Int × Limbs × Gen := nest mrand48

def lcong48 (x a : Limbs) (c : Word) : Gen := ⟨x, a, c⟩

end Gen

/-!
## One step
-/

theorem mul_spec (x y : Word) : (mul x y).1 + 65536 * (mul x y).2.val = x.val * y.val := by
  have hlt : x.val * y.val ≤ 65535 * 65535 :=
    Nat.mul_le_mul (Nat.le_of_lt_succ x.isLt) (Nat.le_of_lt_succ y.isLt)
  unfold mul highLong lowLong low
  generalize x.val * y.val = n at hlt ⊢
  have hbmod : Int.bmod n 4294967296 = n ∨ Int.bmod n 4294967296 = n - 4294967296 := by
    rw [Int.bmod_def]
    split <;> omega
  show (Int.toNat (Int.bmod n 4294967296 % 65536)) % 65536 +
    65536 * ((Int.toNat (Int.bmod n 4294967296 / 65536 % 65536)) % 65536) = n
  omega

theorem carry_le (x y : Nat) : carry x y ≤ 1 := by
  unfold carry
  split <;> omega

theorem addequ_spec (x : Word) {y : Nat} (hy : y ≤ MASK) :
    (addequ x y).1 + 65536 * (addequ x y).2 = x.val + y := by
  unfold addequ carry low MASK at *
  show (x.val + y) % 65536 + 65536 * (if 65535 < x.val + y then 1 else 0) = x.val + y
  split <;> omega

theorem next_val (g : Gen) : g.next.x.val = (g.a.val * g.x.val + g.c) % 2 ^ 48 := by
  rcases g with ⟨⟨x0, x1, x2⟩, ⟨a0, a1, a2⟩, c⟩
  have hp := mul_spec a0 x0
  have hq := mul_spec a0 x1
  have hr := mul_spec a1 x0
  unfold Gen.next
  dsimp only
  generalize mul a0 x0 = p at *
  generalize mul a0 x1 = q at *
  generalize mul a1 x0 = r at *
  have h0 := addequ_spec p.1 (Nat.le_of_lt_succ c.isLt)
  have hle := carry_le p.1 c
  have h1 := addequ_spec p.2 (y := (addequ p.1 c).2) (Nat.le_trans hle (by decide))
  have h2 := addequ_spec (addequ p.2 (addequ p.1 c).2).1 (Nat.le_of_lt_succ q.1.isLt)
  have h3 := addequ_spec (addequ (addequ p.2 (addequ p.1 c).2).1 q.1).1 (Nat.le_of_lt_succ r.1.isLt)
  -- the products of words that count, with the carries between them
  have hprod : (a0 + 65536 * a1 + 4294967296 * a2 : Nat) * (x0 + 65536 * x1 + 4294967296 * x2) =
      a0 * x0 + 65536 * (a0 * x1 + a1 * x0) + 4294967296 * (a0 * x2 + a1 * x1 + a2 * x0) +
        281474976710656 * (a1 * x2 + a2 * x1 + 65536 * (a2 * x2)) := by
    ring
  unfold Limbs.val
  rw [hprod, ← hp, ← hq, ← hr]
  generalize addequ p.1 c = s0 at *
  generalize addequ p.2 s0.2 = s1 at *
  generalize addequ s1.1 q.1 = s2 at *
  generalize (a0 * x2 : Nat) = m0, (a1 * x1 : Nat) = m1, (a2 * x0 : Nat) = m2,
    (a1 * x2 + a2 * x1 + 65536 * (a2 * x2) : Nat) = s
  show s0.1.val % 65536 + 65536 * (addequ s2.1 r.1).1.val + 4294967296 *
    ((s2.2 + s1.2 + (addequ s2.1 r.1).2 + q.2 + r.2 + m0 + m1 + m2) % 4294967296 % 65536) = _
  omega

theorem next_a (g : Gen) : g.next.a = g.a := by
  unfold Gen.next
  rfl

theorem next_c (g : Gen) : g.next.c = g.c := by
  unfold Gen.next
  rfl

/-!
## Sequences of calls
-/

/-- The generator, and the storage of users. -/
structure State where
  gen : Gen
  users : Nat → Limbs

inductive Call where
  | drand48
  | lrand48
  | mrand48
  | erand48 (i : Nat)
  | nrand48 (i : Nat)
  | jrand48 (i : Nat)
  | lcong48 (x a : Limbs) (c : Word)

def State.user {ρ : Type} (f : Limbs → Gen → ρ × Limbs × Gen) (i : Nat) (s : State) : State :=
  let r := f (s.users i) s.gen
  ⟨r.2.2, update s.users i r.2.1⟩

def State.exec (s : State) : Call → State
  | .drand48 => { s with gen := s.gen.drand48.2 }
  | .lrand48 => { s with gen := s.gen.lrand48.2 }
  | .mrand48 => { s with gen := s.gen.mrand48.2 }
  | .erand48 i => s.user Gen.erand48 i
  | .nrand48 i => s.user Gen.nrand48 i
  | .jrand48 i => s.user Gen.jrand48 i
  | .lcong48 x a c => { s with gen := Gen.lcong48 x a c }

structure Numbers where
  x : Nat
  a : Nat
  c : Nat
  users : Nat → Nat

namespace Numbers

def next (n : Numbers) (x : Nat) : Nat := (n.a * x + n.c) % 2 ^ 48

def own (n : Numbers) : Numbers := { n with x := n.next n.x }

def user (n : Numbers) (i : Nat) : Numbers :=
  { n with users := update n.users i (n.next (n.users i)) }

def advance (n : Numbers) : Call → Numbers
  | .drand48 | .lrand48 | .mrand48 => n.own
  | .erand48 i | .nrand48 i | .jrand48 i => n.user i
  | .lcong48 x a c => { n with x := x.val, a := a.val, c := c }

end Numbers

namespace State

def numbers (s : State) : Numbers where
  x := s.gen.x.val
  a := s.gen.a.val
  c := s.gen.c
  users i := (s.users i).val

theorem numbers_own (s : State) :
    ({ s with gen := s.gen.next } : State).numbers = s.numbers.own := by
  show (⟨s.gen.next.x.val, s.gen.next.a.val, s.gen.next.c, fun i => (s.users i).val⟩ : Numbers) =
    ⟨(s.gen.a.val * s.gen.x.val + s.gen.c) % 2 ^ 48, s.gen.a.val, s.gen.c, _⟩
  rw [next_val, next_a, next_c]
  rfl

theorem numbers_user {ρ : Type} (f : Gen → ρ × Gen) (hf : ∀ g, (f g).2 = g.next) (i : Nat)
    (s : State) : (s.user (Gen.nest f) i).numbers = s.numbers.user i := by
  have husers : ∀ j, ((s.user (Gen.nest f) i).users j).val =
      update s.numbers.users i (s.numbers.next (s.numbers.users i)) j := by
    intro j
    show ((update s.users i (f { s.gen with x := s.users i }).2.x) j).val = _
    rw [hf]
    by_cases hj : j = i
    · subst hj
      rw [update_self, update_self]
      exact next_val _
    · rw [update_of_ne hj, update_of_ne hj]
      rfl
  have hgen : (s.user (Gen.nest f) i).gen = s.gen := by
    show (⟨s.gen.x, (f { s.gen with x := s.users i }).2.a, (f { s.gen with x := s.users i }).2.c⟩ :
      Gen) = s.gen
    rw [hf, next_a, next_c]
  show (⟨_, _, _, fun j => ((s.user (Gen.nest f) i).users j).val⟩ : Numbers) = _
  rw [hgen, funext husers]
  rfl

theorem exec_numbers (s : State) (call : Call) :
    (s.exec call).numbers = s.numbers.advance call := by
  cases call with
  | drand48 => exact numbers_own s
  | lrand48 => exact numbers_own s
  | mrand48 => exact numbers_own s
  | erand48 i => exact numbers_user Gen.drand48 (fun _ => rfl) i s
  | nrand48 i => exact numbers_user Gen.lrand48 (fun _ => rfl) i s
  | jrand48 i => exact numbers_user Gen.mrand48 (fun _ => rfl) i s
  | lcong48 x a c => rfl

theorem generators_exact (s : State) (calls : List Call) :
    (calls.foldl exec s).numbers = calls.foldl Numbers.advance s.numbers := by
  induction calls generalizing s with
  | nil => rfl
  | cons call calls ih => rw [List.foldl_cons, List.foldl_cons, ih, exec_numbers]

end State
end Drand48
end Svr4
