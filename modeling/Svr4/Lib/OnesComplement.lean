import Mathlib.Tactic.Ring

/-!
# Sums in ones' complement

Numbers of 16 bits are added with an end-around carry.  Such a sum is known by two things
about the sum of naturals: its residue modulo 65535, and whether it is 0.  A carry that is
put off, a swap of the two bytes and another grouping of the bytes do not change them.
-/

namespace Svr4
namespace OnesComplement

open List

def addc (x y : Nat) : Nat := (x + y) % 65536 + (x + y) / 65536

def total : List Nat → Nat
  | [] => 0
  | x :: xs => addc x (total xs)

/-- The words of some bytes, the low byte first; an odd byte is filled up with 0. -/
def words : List UInt8 → List Nat
  | [] => []
  | [a] => [a.toNat]
  | a :: b :: l => (a.toNat + 256 * b.toNat) :: words l

/-- The number with the given bytes, the low byte first. -/
def number : List UInt8 → Nat
  | [] => 0
  | a :: l => a.toNat + 256 * number l

/-!
## Numbers with the same ones' complement
-/

structure Same (n m : Nat) : Prop where
  residue : n % 65535 = m % 65535
  zero : n = 0 ↔ m = 0

section Rules

variable {a b c d : Nat}

theorem Same.refl (n : Nat) : Same n n := ⟨rfl, Iff.rfl⟩

theorem Same.symm (h : Same a b) : Same b a := ⟨h.residue.symm, h.zero.symm⟩

theorem Same.trans (h : Same a b) (h' : Same b c) : Same a c :=
  ⟨h.residue.trans h'.residue, h.zero.trans h'.zero⟩

theorem Same.add (h : Same a b) (h' : Same c d) : Same (a + c) (b + d) := by
  have hzero := h.zero
  have hzero' := h'.zero
  constructor
  · rw [Nat.add_mod, h.residue, h'.residue, ← Nat.add_mod]
  · omega

theorem Same.mul (k : Nat) (h : Same a b) : Same (k * a) (k * b) := by
  constructor
  · rw [Nat.mul_mod, h.residue, ← Nat.mul_mod]
  · rw [Nat.mul_eq_zero, Nat.mul_eq_zero, h.zero]

/-- A carry is added at the other end. -/
theorem Same.fold (s : Nat) : Same (s % 65536 + s / 65536) s := by
  constructor <;> omega

theorem Same.shift (n : Nat) : Same (65536 * n) n := by
  constructor <;> omega

/-- Numbers of 16 bits with the same ones' complement are equal. -/
theorem Same.eq (h : Same a b) (ha : a ≤ 65535) (hb : b ≤ 65535) : a = b := by
  have hres := h.residue
  have hzero := h.zero
  omega

/-- The bytes of a number of 16 bits are swapped. -/
theorem Same.swap (s : Nat) : Same (s % 256 * 256 + s / 256) (256 * s) := by
  constructor <;> omega

/-- The weight of a byte depends on whether its place is even. -/
theorem Same.weight (n k : Nat) : Same (256 ^ k * n) (256 ^ (k % 2) * n) := by
  induction k using Nat.twoStepInduction with
  | zero => exact Same.refl _
  | one => exact Same.refl _
  | more k ih _ =>
    have hpow : 256 ^ (k + 2) * n = 65536 * (256 ^ k * n) := by ring
    rw [hpow, Nat.add_mod_right]
    exact (Same.shift _).trans ih

end Rules

/-!
## Sums of words
-/

theorem addc_le {x y : Nat} (hx : x ≤ 65535) (hy : y ≤ 65535) : addc x y ≤ 65535 := by
  unfold addc
  omega

theorem words_le (l : List UInt8) : ∀ x ∈ words l, x ≤ 65535 := by
  induction l using words.induct with
  | case1 => exact fun x hx => absurd hx not_mem_nil
  | case2 a =>
    intro x hx
    have ha := a.toNat_lt
    rw [words, mem_singleton] at hx
    omega
  | case3 a b l ih =>
    intro x hx
    have ha := a.toNat_lt
    have hb := b.toNat_lt
    rw [words, mem_cons] at hx
    rcases hx with rfl | hx
    · omega
    · exact ih x hx

theorem total_le {ws : List Nat} (hws : ∀ x ∈ ws, x ≤ 65535) : total ws ≤ 65535 := by
  induction ws with
  | nil => exact Nat.zero_le _
  | cons x ws ih =>
    exact addc_le (hws x mem_cons_self) (ih fun y hy => hws y (mem_cons_of_mem _ hy))

/-- The ones' complement sum of the words of some bytes, by their number. -/
theorem total_words (l : List UInt8) : Same (total (words l)) (number l) := by
  induction l using words.induct with
  | case1 => exact Same.refl 0
  | case2 a => exact Same.fold _
  | case3 a b l ih =>
    have hnumber : number (a :: b :: l) = a.toNat + 256 * b.toNat + 65536 * number l := by
      simp only [number]
      ring
    rw [words, total, hnumber]
    exact (Same.fold _).trans ((Same.refl _).add (ih.trans (Same.shift _).symm))

theorem number_append (l r : List UInt8) :
    number (l ++ r) = number l + 256 ^ l.length * number r := by
  induction l with
  | nil => simp [number]
  | cons a l ih =>
    rw [cons_append, number, ih, number, length_cons]
    ring

end OnesComplement
end Svr4
