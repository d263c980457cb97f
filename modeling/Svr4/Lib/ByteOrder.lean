import Mathlib.Data.List.Pairwise
import Mathlib.Tactic.Ring

/-!
# Numbers in byte order

A memory of bytes with numbers in it, the least byte first or last.  A number that is loaded
in one order and stored in another has its bytes rearranged; a sequence of rearrangements
of separate regions rearranges all of them, in place or between separate buffers.
-/

namespace Svr4
namespace ByteOrder

open List

inductive Order where
  | little
  | big
deriving DecidableEq

abbrev Mem := Nat → UInt8

/-- Where the byte of a weight is, among some bytes. -/
def Order.place (o : Order) (n i : Nat) : Nat :=
  match o with
  | .little => i
  | .big => n - 1 - i

def value (b : Nat → UInt8) : Nat → Nat
  | 0 => 0
  | n + 1 => value b n + (b n).toNat * 256 ^ n

def load (m : Mem) (o : Order) (n a : Nat) : Nat := value (fun i => m (a + o.place n i)) n

def store (m : Mem) (o : Order) (n a v : Nat) : Mem := fun x =>
  if a ≤ x ∧ x < a + n then UInt8.ofNat (v / 256 ^ o.place n (x - a)) else m x

def shuffle (perm : Nat → Nat) (m : Mem) (dst src n : Nat) : Mem := fun x =>
  if dst ≤ x ∧ x < dst + n then m (src + perm (x - dst)) else m x

section Numbers

variable {m : Mem} {o o' : Order} {n i d s : Nat}

theorem Order.place_lt (hi : i < n) : o.place n i < n := by
  cases o with
  | little => exact hi
  | big =>
    change n - 1 - i < n
    omega

theorem Order.place_place (hi : i < n) : o.place n (o.place n i) = i := by
  cases o with
  | little => rfl
  | big =>
    change n - 1 - (n - 1 - i) = i
    omega

theorem value_lt (b : Nat → UInt8) (n : Nat) : value b n < 256 ^ n := by
  induction n with
  | zero => exact Nat.one_pos
  | succ n ih =>
    have hb : (b n).toNat ≤ 255 := Nat.le_of_lt_succ (b n).toNat_lt
    calc
      value b n + (b n).toNat * 256 ^ n < 256 ^ n + 255 * 256 ^ n :=
        Nat.add_lt_add_of_lt_of_le ih (Nat.mul_le_mul_right _ hb)
      _ = 256 ^ (n + 1) := by ring

/-- The bytes of a number. -/
theorem value_byte (b : Nat → UInt8) (hi : i < n) : UInt8.ofNat (value b n / 256 ^ i) = b i := by
  have hbyte : ∀ n, i < n → value b n / 256 ^ i % 256 = (b i).toNat := by
    intro n
    induction n with
    | zero => exact fun h => absurd h (Nat.not_lt_zero i)
    | succ n ih =>
      intro hi
      have hpow : 0 < 256 ^ i := Nat.pow_pos (by decide)
      change (value b n + (b n).toNat * 256 ^ n) / 256 ^ i % 256 = _
      by_cases hin : i = n
      · rw [hin, Nat.add_mul_div_right _ _ (Nat.pow_pos (by decide)),
          Nat.div_eq_of_lt (value_lt b n), Nat.zero_add]
        exact Nat.mod_eq_of_lt (b n).toNat_lt
      · obtain ⟨k, hk⟩ : ∃ k, n = i + k + 1 := ⟨n - i - 1, by omega⟩
        have hsplit : (b n).toNat * 256 ^ n = 256 * ((b n).toNat * 256 ^ k) * 256 ^ i := by
          rw [hk]
          ring
        rw [hsplit, Nat.add_mul_div_right _ _ hpow, Nat.add_mul_mod_self_left]
        exact ih (by omega)
  refine UInt8.toNat_inj.mp ?_
  exact hbyte n hi

/-- A number that is loaded and stored. -/
theorem store_load : store m o' n d (load m o n s) =
    shuffle (fun i => o.place n (o'.place n i)) m d s n := by
  funext x
  unfold store shuffle
  split
  · rename_i hx
    exact value_byte _ (Order.place_lt (by omega))
  · rfl

theorem value_congr {b b' : Nat → UInt8} (h : ∀ i < n, b i = b' i) : value b n = value b' n := by
  induction n with
  | zero => rfl
  | succ n ih =>
    change value b n + (b n).toNat * 256 ^ n = value b' n + (b' n).toNat * 256 ^ n
    rw [ih fun i hi => h i (Nat.lt_succ_of_lt hi), h n (Nat.lt_succ_self n)]

/-- The number that the bytes of a number make. -/
theorem value_bytes (v n : Nat) : value (fun i => UInt8.ofNat (v / 256 ^ i)) n = v % 256 ^ n := by
  induction n with
  | zero => exact (Nat.mod_one v).symm
  | succ n ih =>
    have hbyte : (UInt8.ofNat (v / 256 ^ n)).toNat = v / 256 ^ n % 256 := UInt8.toNat_ofNat'
    change value _ n + (UInt8.ofNat (v / 256 ^ n)).toNat * 256 ^ n = _
    rw [ih, hbyte, Nat.pow_succ, Nat.mod_mul, Nat.mul_comm (v / 256 ^ n % 256)]

/-- The number in some bytes. -/
theorem load_bytes {a v : Nat} (h : ∀ i < n, m (a + i) = UInt8.ofNat (v / 256 ^ o.place n i)) :
    load m o n a = v % 256 ^ n := by
  have hvalue : ∀ k ≤ n, value (fun i => m (a + o.place n i)) k =
      value (fun i => UInt8.ofNat (v / 256 ^ i)) k := by
    intro k
    induction k with
    | zero => exact fun _ => rfl
    | succ k ih =>
      intro hk
      have hlt : k < n := by omega
      change value _ k + (m (a + o.place n k)).toNat * 256 ^ k = _
      rw [ih (by omega), h _ (Order.place_lt hlt), Order.place_place hlt]
      rfl
  unfold load
  rw [hvalue n (Nat.le_refl n), value_bytes]

end Numbers

/-!
## Regions
-/

/-- Some bytes at an offset, and how they are rearranged. -/
structure Region where
  offset : Nat
  size : Nat
  perm : Nat → Nat

def Region.run (d s : Nat) (m : Mem) (r : Region) : Mem :=
  shuffle r.perm m (d + r.offset) (s + r.offset) r.size

def Region.Apart (r r' : Region) : Prop :=
  r.offset + r.size ≤ r'.offset ∨ r'.offset + r'.size ≤ r.offset

/-- Two buffers that are the same or have no byte in common. -/
def Buffers (d s n : Nat) : Prop := d = s ∨ d + n ≤ s ∨ s + n ≤ d

section Regions

variable {m : Mem} {d s n : Nat} {rs : List Region}

theorem Region.Apart.symm {r r' : Region} (h : r.Apart r') : r'.Apart r := Or.symm h

theorem Region.run_of_not_mem {r : Region} {x : Nat}
    (hx : ¬ (d + r.offset ≤ x ∧ x < d + r.offset + r.size)) : r.run d s m x = m x := if_neg hx

/-- Separate regions are rearranged one after the other. -/
theorem run_regions (hapart : rs.Pairwise Region.Apart)
    (hin : ∀ r ∈ rs, r.offset + r.size ≤ n ∧ ∀ i < r.size, r.perm i < r.size)
    (hbuf : Buffers d s n) (m : Mem) : (∀ r ∈ rs, ∀ i < r.size,
      rs.foldl (Region.run d s) m (d + r.offset + i) = m (s + r.offset + r.perm i)) ∧
    ∀ x, (∀ r ∈ rs, ¬ (d + r.offset ≤ x ∧ x < d + r.offset + r.size)) →
      rs.foldl (Region.run d s) m x = m x := by
  induction rs generalizing m with
  | nil => exact ⟨nofun, fun _ _ => rfl⟩
  | cons r rs ih =>
    obtain ⟨hhead, htail⟩ := pairwise_cons.mp hapart
    obtain ⟨hspec, hrest⟩ := ih htail (fun r' hr' => hin r' (mem_cons_of_mem _ hr')) (r.run d s m)
    obtain ⟨hlen, hperm⟩ := hin r mem_cons_self
    constructor
    · intro r' hr' i hi
      rw [foldl_cons]
      rcases mem_cons.mp hr' with rfl | hr'
      · -- the bytes of the first region are not written again
        rw [hrest (d + r'.offset + i) fun r'' hr'' => by
          have h := hhead r'' hr''
          unfold Region.Apart at h
          omega]
        have hback : d + r'.offset + i - (d + r'.offset) = i := by omega
        unfold Region.run shuffle
        rw [if_pos ⟨Nat.le_add_right _ _, by omega⟩, hback]
      · rw [hspec r' hr' i hi]
        refine Region.run_of_not_mem ?_
        have h := hhead r' hr'
        obtain ⟨hlen', hperm'⟩ := hin r' (mem_cons_of_mem _ hr')
        have hi' := hperm' i hi
        unfold Region.Apart at h
        unfold Buffers at hbuf
        omega
    · intro x hx
      rw [foldl_cons, hrest x fun r' hr' => hx r' (mem_cons_of_mem _ hr')]
      exact Region.run_of_not_mem (hx r mem_cons_self)

end Regions

end ByteOrder
end Svr4
