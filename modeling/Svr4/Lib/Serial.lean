import Mathlib.Data.BitVec
import Mathlib.Tactic.Ring

/-!
# Serial numbers

Numbers of a fixed width that wrap around.  That one number is so many steps
ahead of another says nothing about how often either has wrapped; within half
the range the number of steps is determined, and is the signed difference.
-/

namespace Svr4
namespace Serial

variable {w : Nat} {x y z : BitVec w} {i j : Int}

/-- `x` is `i` steps ahead of `y`. -/
def Ahead (x y : BitVec w) (i : Int) : Prop := x - y = BitVec.ofInt w i

theorem ahead_refl (x : BitVec w) : Ahead x x 0 := by
  unfold Ahead
  rw [sub_self]
  rfl

theorem ahead_toInt (x y : BitVec w) : Ahead x y (x - y).toInt :=
  BitVec.ofInt_toInt.symm

theorem Ahead.trans (hxy : Ahead x y i) (hyz : Ahead y z j) : Ahead x z (i + j) := by
  unfold Ahead at *
  rw [BitVec.ofInt_add, ← hxy, ← hyz]
  ring

theorem Ahead.symm (h : Ahead x y i) : Ahead y x (-i) := by
  unfold Ahead at *
  rw [BitVec.ofInt_neg, ← h]
  ring

/-- Two numbers that are ahead of a third. -/
theorem Ahead.sub (hx : Ahead x z i) (hy : Ahead y z j) : Ahead x y (i - j) := by
  exact hx.trans hy.symm

theorem ahead_add (x : BitVec w) (i : Int) : Ahead (x + BitVec.ofInt w i) x i := by
  unfold Ahead
  ring

theorem ahead_add_nat (x : BitVec w) (n : Nat) : Ahead (x + BitVec.ofNat w n) x n := by
  exact ahead_add x n

theorem Ahead.add (h : Ahead x y i) (n : Nat) : Ahead (x + BitVec.ofNat w n) y (i + n) := by
  rw [add_comm i]
  exact (ahead_add_nat x n).trans h

/-- Within half the range the signed difference is the number of steps. -/
theorem Ahead.toInt_eq (h : Ahead x y i) (hw : 0 < w) (hlo : -2 ^ (w - 1) ≤ i)
    (hhi : i < 2 ^ (w - 1)) : (x - y).toInt = i := by
  rw [h]
  exact BitVec.toInt_ofInt_eq_self hw hlo hhi

end Serial
end Svr4
