import Mathlib.Data.Multiset.Range
import Mathlib.Tactic.Order

/-!
# Heaps in arrays

A heap of `n` elements is kept in the first places of an array, given as a
function.  An element that is put into a heap, or moved in it, leaves a hole that
travels up or down.  This module develops which order holds around such a hole
and how it moves, and that moving it keeps the contents.
-/

namespace Svr4
namespace Heap

open Function Multiset

variable {α ι : Type*} [LinearOrder ι] {key : α → ι} {a : Nat → α} {n j : Nat}
  {e : α}

def parent (i : Nat) : Nat := (i - 1) / 2

variable {i k : Nat}

theorem parent_lt (h : 0 < i) : parent i < i := by
  unfold parent
  omega

def Ordered (key : α → ι) (a : Nat → α) (n : Nat) : Prop :=
  ∀ i, 0 < i → i < n → key (a (parent i)) ≤ key (a i)

def contents (a : Nat → α) (n : Nat) : Multiset α := (Multiset.range n).map a

theorem Ordered.root_le (h : Ordered key a n) (hi : i < n) : key (a 0) ≤ key (a i) := by
  induction i using Nat.strongRecOn with
  | ind i ih =>
    by_cases hzero : i = 0
    · rw [hzero]
    · have hlt := parent_lt (Nat.pos_of_ne_zero hzero)
      exact (ih (parent i) hlt (hlt.trans hi)).trans (h i (Nat.pos_of_ne_zero hzero) hi)

theorem Ordered.mono (h : Ordered key a n) {m : Nat} (hm : m ≤ n) : Ordered key a m :=
  fun i hpos hi => h i hpos (hi.trans_le hm)

/-!
## Contents
-/

theorem mem_contents : e ∈ contents a n ↔ ∃ i < n, a i = e := by
  simp [contents]

theorem card_contents : (contents a n).card = n := by
  simp [contents]

theorem contents_succ : contents a (n + 1) = a n ::ₘ contents a n := by
  unfold contents
  rw [range_succ, map_cons]

theorem contents_congr {b : Nat → α} (h : ∀ i < n, a i = b i) : contents a n = contents b n :=
  map_congr rfl fun i hi => h i (mem_range.mp hi)

/-- An element behind the others. -/
theorem contents_update_last : contents (update a n e) (n + 1) = e ::ₘ contents a n := by
  rw [contents_succ, update_self]
  congr 1
  exact contents_congr fun i hi => update_of_ne (Nat.ne_of_lt hi) _ _

/-- The element in one place is exchanged. -/
theorem cons_contents_update (hj : j < n) :
    a j ::ₘ contents (update a j e) n = e ::ₘ contents a n := by
  have hsplit : (Multiset.range n) = j ::ₘ (Multiset.range n).erase j :=
    (cons_erase (mem_range.mpr hj)).symm
  have hother : ∀ i ∈ (Multiset.range n).erase j, update a j e i = a i := by
    intro i hi
    apply update_of_ne
    rintro rfl
    exact (Multiset.Nodup.notMem_erase (nodup_range n)) hi
  unfold contents
  rw [hsplit, map_cons, map_cons, update_self,
    map_congr rfl hother, cons_swap]

/-- A hole moves: the contents with the element in it are the same. -/
theorem contents_move (hj : j < n) (hk : k < n) (hne : k ≠ j) :
    contents (update (update a j (a k)) k e) n = contents (update a j e) n := by
  have hmoved := cons_contents_update (a := update a j (a k)) (e := e) hk
  have hleft := cons_contents_update (a := a) (e := a k) hj
  have hright := cons_contents_update (a := a) (e := e) hj
  rw [update_of_ne hne] at hmoved
  have hall : a j ::ₘ a k ::ₘ contents (update (update a j (a k)) k e) n =
      a j ::ₘ a k ::ₘ contents (update a j e) n := by
    rw [hmoved, cons_swap, hleft, cons_swap (a j), hright, cons_swap]
  exact (cons_inj_right _).mp ((cons_inj_right _).mp hall)

/-!
## Holes
-/

/-- The order of the pairs that do not touch the hole. -/
structure Except (key : α → ι) (a : Nat → α) (n j : Nat) : Prop where
  pairs : ∀ i, 0 < i → i < n → i ≠ j → parent i ≠ j → key (a (parent i)) ≤ key (a i)
  grand : 0 < j → ∀ c, 0 < c → c < n → parent c = j → key (a (parent j)) ≤ key (a c)

/-- The hole may travel up: what is put into it is not after its children. -/
structure UpOrder (key : α → ι) (a : Nat → α) (n j : Nat) (t : ι) : Prop
    extends Except key a n j where
  below : ∀ c, 0 < c → c < n → parent c = j → t ≤ key (a c)

/-- The hole may travel down: what is put into it is not before its parent. -/
structure DownOrder (key : α → ι) (a : Nat → α) (n j : Nat) (t : ι) : Prop
    extends Except key a n j where
  above : 0 < j → key (a (parent j)) ≤ t

theorem Ordered.except (h : Ordered key a n) (j : Nat) : Except key a n j where
  pairs i hpos hi _ _ := h i hpos hi
  grand hj c hc hcn hparent := by
    have hlt := parent_lt hc
    have hchild := h c hc hcn
    rw [hparent] at hchild hlt
    exact (h j hj (hlt.trans hcn)).trans hchild

/-- The place behind the last element. -/
theorem Ordered.up_last (h : Ordered key a n) (t : ι) : UpOrder key a (n + 1) n t := by
  have hnone : ∀ c, 0 < c → c < n + 1 → parent c ≠ n := by
    unfold parent
    omega
  refine ⟨⟨fun i hpos hi hne _ => h i hpos (by omega), ?_⟩, ?_⟩
  · exact fun _ c hc hcn hparent => absurd hparent (hnone c hc hcn)
  · exact fun c hc hcn hparent => absurd hparent (hnone c hc hcn)

variable {t : ι}

/-- An element that is before the parent of the hole. -/
theorem Ordered.up_of_lt (h : Ordered key a n) (hj : 0 < j)
    (hlt : t < key (a (parent j))) : UpOrder key a n j t where
  toExcept := h.except j
  below c hc hcn hparent :=
    hlt.le.trans ((h.except j).grand hj c hc hcn hparent)

theorem Ordered.down_of_le (h : Ordered key a n)
    (hle : 0 < j → key (a (parent j)) ≤ t) : DownOrder key a n j t where
  toExcept := h.except j
  above := hle

theorem UpOrder.move (h : UpOrder key a n j t) (hj : 0 < j) (hjn : j < n)
    (hlt : t < key (a (parent j))) : UpOrder key (update a j (a (parent j))) n (parent j) t := by
  have hpj := parent_lt hj
  have hup : 0 < parent j → key (a (parent (parent j))) ≤ key (a (parent j)) := by
    intro hpos
    have hlt := parent_lt hpos
    exact h.pairs (parent j) hpos (by omega) (by omega) (by omega)
  refine ⟨⟨?_, ?_⟩, ?_⟩
  · intro i hpos hi hne hparent
    by_cases hij : i = j
    · rw [hij] at hparent
      exact absurd rfl hparent
    · rw [update_of_ne hij]
      by_cases hpij : parent i = j
      · rw [hpij, update_self]
        exact h.grand hj i hpos hi hpij
      · rw [update_of_ne hpij]
        exact h.pairs i hpos hi hij hpij
  · intro hpos c hc hcn hparent
    have hne : parent (parent j) ≠ j := by
      have := parent_lt hpos
      omega
    rw [update_of_ne hne]
    by_cases hcj : c = j
    · rw [hcj, update_self]
      exact hup hpos
    · rw [update_of_ne hcj]
      have hchild := h.pairs c hc hcn hcj (by omega)
      rw [hparent] at hchild
      exact (hup hpos).trans hchild
  · intro c hc hcn hparent
    by_cases hcj : c = j
    · rw [hcj, update_self]
      exact hlt.le
    · rw [update_of_ne hcj]
      have hchild := h.pairs c hc hcn hcj (by omega)
      rw [hparent] at hchild
      exact hlt.le.trans hchild

theorem UpOrder.finish (h : UpOrder key a n j t) (he : key e = t)
    (hle : 0 < j → key (a (parent j)) ≤ t) : Ordered key (update a j e) n := by
  intro i hpos hi
  by_cases hij : i = j
  · subst hij
    have hne : parent i ≠ i := (parent_lt hpos).ne
    rw [update_self, update_of_ne hne, he]
    exact hle hpos
  · rw [update_of_ne hij]
    by_cases hparent : parent i = j
    · rw [hparent, update_self, he]
      exact h.below i hpos hi hparent
    · rw [update_of_ne hparent]
      exact h.pairs i hpos hi hij hparent

theorem DownOrder.move (h : DownOrder key a n j t) (hk : 0 < k) (hkn : k < n)
    (hparent : parent k = j) (hmin : ∀ c, 0 < c → c < n → parent c = j → key (a k) ≤ key (a c))
    (hlt : key (a k) < t) : DownOrder key (update a j (a k)) n k t := by
  have hjk : j < k := by
    rw [← hparent]
    exact parent_lt hk
  refine ⟨⟨?_, ?_⟩, ?_⟩
  · intro i hpos hi hne hpi
    by_cases hij : i = j
    · subst hij
      have hne : parent i ≠ i := (parent_lt hpos).ne
      rw [update_self, update_of_ne hne]
      exact h.grand hpos k hk hkn hparent
    · rw [update_of_ne hij]
      by_cases hpij : parent i = j
      · rw [hpij, update_self]
        exact hmin i hpos hi hpij
      · rw [update_of_ne hpij]
        exact h.pairs i hpos hi hij hpij
  · intro _ c hc hcn hpc
    have hkc := parent_lt hc
    rw [hparent, update_self, update_of_ne (by omega)]
    have hchild := h.pairs c hc hcn (by omega) (by omega)
    rwa [hpc] at hchild
  · intro _
    rw [hparent, update_self]
    exact hlt.le

theorem DownOrder.finish (h : DownOrder key a n j t) (he : key e = t)
    (hle : ∀ c, 0 < c → c < n → parent c = j → t ≤ key (a c)) : Ordered key (update a j e) n := by
  intro i hpos hi
  by_cases hij : i = j
  · subst hij
    have hne : parent i ≠ i := (parent_lt hpos).ne
    rw [update_self, update_of_ne hne, he]
    exact h.above hpos
  · rw [update_of_ne hij]
    by_cases hparent : parent i = j
    · rw [hparent, update_self, he]
      exact hle i hpos hi hparent
    · rw [update_of_ne hparent]
      exact h.pairs i hpos hi hij hparent

end Heap
end Svr4
