import Svr4.Elf.Model

/-!
# What a translation does to the bytes

The layouts of file and memory agree for every type, so each function of the table
rearranges the bytes within the members of each element, whatever the order of its loop.
-/

namespace Svr4
namespace Elf

open ByteOrder List

/-!
## Elements
-/

def ElfType.placed (t : ElfType) : List (Kind × Nat) := t.members.zip (fileIndexes 0 t.members)

def Kind.perm (k : Kind) (put get : Order) : Nat → Nat :=
  match k with
  | .ident => id
  | _ => fun i => get.place k.size (put.place k.size i)

def ElfType.inner (t : ElfType) (put get : Order) (y : Nat) : Nat :=
  match t.placed.find? fun p => decide (p.2 ≤ y) && decide (y < p.2 + p.1.size) with
  | some p => p.2 + p.1.perm put get (y - p.2)
  | none => y

def ElfType.carry (t : ElfType) (put get : Order) (x : Nat) : Nat :=
  x / t.filesz * t.filesz + t.inner put get (x % t.filesz)

section Elements

variable (t : ElfType) (put get : Order)

theorem memsz_eq : t.memsz = t.filesz := by
  cases t <;> rfl

theorem filesz_pos : 0 < t.filesz := by
  cases t <;> decide

theorem placed_sorted : t.placed.Pairwise fun p p' => p.2 + p.1.size ≤ p'.2 := by
  cases t <;> decide

theorem placed_le : ∀ p ∈ t.placed, p.2 + p.1.size ≤ t.filesz := by
  cases t <;> decide

theorem placed_covers : ∀ y < t.filesz, ∃ p ∈ t.placed, p.2 ≤ y ∧ y < p.2 + p.1.size := by
  cases t <;> decide

theorem perm_lt (k : Kind) : ∀ i < k.size, k.perm put get i < k.size := by
  intro i hi
  cases k with
  | ident => exact hi
  | _ => exact Order.place_lt (Order.place_lt hi)

theorem inner_placed : ∀ p ∈ t.placed, ∀ j < p.1.size,
    t.inner put get (p.2 + j) = p.2 + p.1.perm put get j := by
  cases t <;> cases put <;> cases get <;> decide

theorem inner_lt : ∀ y < t.filesz, t.inner put get y < t.filesz := by
  intro y hy
  obtain ⟨p, hp, hlo, hhi⟩ := placed_covers t y hy
  obtain ⟨j, rfl⟩ : ∃ j, y = p.2 + j := ⟨y - p.2, by omega⟩
  have hj : j < p.1.size := by omega
  rw [inner_placed t put get p hp j hj]
  have hle := placed_le t p hp
  have hlt := perm_lt put get p.1 j hj
  omega

theorem inner_inner : ∀ y < t.filesz, t.inner put get (t.inner get put y) = y := by
  intro y hy
  obtain ⟨p, hp, hlo, hhi⟩ := placed_covers t y hy
  obtain ⟨j, rfl⟩ : ∃ j, y = p.2 + j := ⟨y - p.2, by omega⟩
  have hj : j < p.1.size := by omega
  rw [inner_placed t get put p hp j hj, inner_placed t put get p hp _ (perm_lt get put p.1 j hj)]
  congr 1
  generalize p.1 = k at hj
  cases k with
  | ident => rfl
  | _ =>
    change get.place _ (put.place _ (put.place _ (get.place _ j))) = j
    rw [Order.place_place (Order.place_lt hj), Order.place_place hj]

theorem inner_self : ∀ y < t.filesz, t.inner put put y = y := by
  intro y hy
  obtain ⟨p, hp, hlo, hhi⟩ := placed_covers t y hy
  obtain ⟨j, rfl⟩ : ∃ j, y = p.2 + j := ⟨y - p.2, by omega⟩
  have hj : j < p.1.size := by omega
  rw [inner_placed t put put p hp j hj]
  congr 1
  generalize p.1 = k at hj
  cases k with
  | ident => rfl
  | _ => exact Order.place_place hj

variable {t put get}

theorem block_div_mod {n q y : Nat} (hy : y < n) : (q * n + y) / n = q ∧ (q * n + y) % n = y := by
  have hpos : 0 < n := by omega
  rw [Nat.mul_comm, Nat.mul_add_div hpos, Nat.mul_add_mod, Nat.div_eq_of_lt hy, Nat.mod_eq_of_lt hy]
  exact ⟨Nat.add_zero q, rfl⟩

theorem carry_lt {cnt x : Nat} (hx : x < cnt * t.filesz) : t.carry put get x < cnt * t.filesz := by
  have hpos := filesz_pos t
  have hq : x / t.filesz < cnt := (Nat.div_lt_iff_lt_mul hpos).mpr hx
  have hin := inner_lt t put get (x % t.filesz) (Nat.mod_lt _ hpos)
  calc
    x / t.filesz * t.filesz + t.inner put get (x % t.filesz) < (x / t.filesz + 1) * t.filesz := by
          rw [Nat.add_mul, Nat.one_mul]
          omega
    _ ≤ cnt * t.filesz := Nat.mul_le_mul_right _ hq

theorem carry_carry (x : Nat) : t.carry put get (t.carry get put x) = x := by
  have hpos := filesz_pos t
  have hin := inner_lt t get put (x % t.filesz) (Nat.mod_lt _ hpos)
  obtain ⟨hdiv, hmod⟩ := block_div_mod (q := x / t.filesz) hin
  unfold ElfType.carry
  rw [hdiv, hmod, inner_inner t put get _ (Nat.mod_lt _ hpos)]
  exact Nat.div_add_mod' x t.filesz

theorem carry_self (x : Nat) : t.carry put put x = x := by
  unfold ElfType.carry
  rw [inner_self t put _ (Nat.mod_lt _ (filesz_pos t))]
  exact Nat.div_add_mod' x t.filesz

theorem carry_element {k i j : Nat} {kind : Kind} (hp : (kind, i) ∈ t.placed)
    (hj : j < kind.size) : t.carry put get (k * t.filesz + i + j) =
      k * t.filesz + i + kind.perm put get j := by
  have hle := placed_le t _ hp
  have hlt : i + j < t.filesz := by
    change i + kind.size ≤ t.filesz at hle
    omega
  have hin := inner_placed t put get _ hp j hj
  obtain ⟨hdiv, hmod⟩ := block_div_mod (q := k) hlt
  unfold ElfType.carry
  rw [Nat.add_assoc, hdiv, hmod, hin, Nat.add_assoc]

end Elements

/-!
## Loops
-/

def drawn (put get : Order) (d s : Nat) (l : List (Kind × Nat)) : List Move :=
  (l.map fun p => p.1.move put get (d + p.2) (s + p.2)).flatten

def ElfType.spots (t : ElfType) (cnt b : Nat) : List (Kind × Nat) :=
  (List.range cnt).flatMap fun k => t.placed.map fun p => (p.1, b + k * t.filesz + p.2)

section Loops

variable {t : ElfType} {put get : Order} {d s cnt b : Nat} {f : Nat → Nat → List Move}

theorem drawn_append (l l' : List (Kind × Nat)) :
    drawn put get d s (l ++ l') = drawn put get d s l ++ drawn put get d s l' := by
  unfold drawn
  rw [map_append, flatten_append]

theorem drawn_shift (l : List (Kind × Nat)) :
    drawn put get (d + b) (s + b) l = drawn put get d s (l.map fun p => (p.1, b + p.2)) := by
  unfold drawn
  rw [map_map]
  congr 1
  refine map_congr_left fun p _ => ?_
  simp only [Function.comp_apply, Nat.add_assoc]

theorem spots_succ (t : ElfType) (cnt b : Nat) :
    t.spots (cnt + 1) b = (t.placed.map fun p => (p.1, b + p.2)) ++ t.spots cnt (b + t.filesz) := by
  unfold ElfType.spots
  rw [range_succ_eq_map, flatMap_cons, flatMap_map]
  simp only [Nat.zero_mul, Nat.add_zero, Nat.succ_eq_add_one]
  congr 1
  refine congrArg List.flatten (map_congr_left fun k _ => map_congr_left fun p _ => ?_)
  rw [Nat.add_mul, Nat.one_mul, Nat.add_comm (k * t.filesz)]
  simp only [Nat.add_assoc]

theorem spots_snoc (t : ElfType) (cnt : Nat) :
    t.spots (cnt + 1) 0 = t.spots cnt 0 ++ t.placed.map fun p => (p.1, cnt * t.filesz + p.2) := by
  unfold ElfType.spots
  rw [range_succ, flatMap_append]
  simp

theorem upward_eq (hf : ∀ d s, f d s = drawn put get d s t.placed) :
    upward f t.filesz t.filesz cnt (d + b) (s + b) = drawn put get d s (t.spots cnt b) := by
  induction cnt generalizing b with
  | zero => rfl
  | succ cnt ih =>
    rw [spots_succ, drawn_append, ← ih, ← drawn_shift, ← hf, ← Nat.add_assoc, ← Nat.add_assoc]
    rfl

theorem downward_eq (hf : ∀ d s, f d s = drawn put get d s t.placed.reverse) :
    downward f t.filesz t.filesz cnt (d + cnt * t.filesz) (s + cnt * t.filesz) =
      drawn put get d s (t.spots cnt 0).reverse := by
  induction cnt with
  | zero => rfl
  | succ cnt ih =>
    have hstep : ∀ x, x + (cnt + 1) * t.filesz - t.filesz = x + cnt * t.filesz := by
      rw [Nat.add_mul, Nat.one_mul]
      omega
    rw [spots_snoc, reverse_append, drawn_append, ← ih, ← map_reverse, ← drawn_shift, ← hf]
    change f (_ - t.filesz) (_ - t.filesz) ++ downward f _ _ cnt (_ - t.filesz) (_ - t.filesz) = _
    rw [hstep, hstep]

theorem tofElement_eq (t : ElfType) (enc host : Order) (d s : Nat) :
    t.tofElement enc host d s = drawn enc host d s t.placed := by
  cases t <;> rfl

theorem tomElement_eq (t : ElfType) (enc host : Order) (d s : Nat) : t.tomElement enc host d s =
      drawn host enc d s (if t = .dyn then t.placed else t.placed.reverse) := by
  cases t <;> rfl

/-- Every function of the table moves the members of the elements. -/
theorem x32_eq (ht : t ≠ .byte) (tof : Bool) (enc host : Order) :
    ∃ l, (l = t.spots cnt 0 ∨ l = (t.spots cnt 0).reverse) ∧ x32 t tof enc host d s cnt =
        if tof then drawn enc host d s l else drawn host enc d s l := by
  have hup : ∀ {put g : Order} {f : Nat → Nat → List Move},
      (∀ d s, f d s = drawn put g d s t.placed) →
      upward f t.filesz t.filesz cnt d s = drawn put g d s (t.spots cnt 0) :=
    fun hf => upward_eq (b := 0) hf
  cases tof with
  | true =>
    refine ⟨_, Or.inl rfl, ?_⟩
    rw [if_pos rfl, ← hup (tofElement_eq t enc host)]
    cases t <;> first | exact absurd rfl ht | rfl
  | false =>
    by_cases hdyn : t = .dyn
    · subst hdyn
      refine ⟨_, Or.inl rfl, ?_⟩
      rw [← hup (g := enc) (f := ElfType.dyn.tomElement enc host) fun d s => by
        rw [tomElement_eq, if_pos rfl]]
      rfl
    · refine ⟨_, Or.inr rfl, ?_⟩
      rw [if_neg (by decide), ← downward_eq (f := t.tomElement enc host) fun d s => by
        rw [tomElement_eq, if_neg hdyn]]
      cases t <;> first | exact absurd rfl ht | exact absurd rfl hdyn | rfl

end Loops

end Elf
end Svr4
