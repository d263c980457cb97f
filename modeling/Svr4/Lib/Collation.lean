import Mathlib.Logic.Basic

/-!
# Orders of two levels

A word is a list of elements that each have a primary and a secondary weight.  Words are
ordered by their primary weights and, where these are the same, by the secondary ones.
A transform that puts the secondary weights behind the primary ones, and leaves out those
that are zero, turns this order into the lexicographic one.
-/

namespace Svr4
namespace Collation

open Std List

variable {α : Type*} [Ord α]

def primaries (ks : List (α × α)) : List α := ks.map Prod.fst

def secondaries (ks : List (α × α)) : List α := ks.map Prod.snd

def order (ks ls : List (α × α)) : Ordering :=
  (List.compareLex compare (primaries ks) (primaries ls)).then
    (List.compareLex compare (secondaries ks) (secondaries ls))

/-!
## The order
-/

theorem order_swap [TransOrd α] (ks ls : List (α × α)) : order ks ls = (order ls ks).swap := by
  have hswap (ps qs : List α) :
      List.compareLex compare ps qs = (List.compareLex compare qs ps).swap :=
    OrientedCmp.eq_swap
  unfold order
  rw [hswap (primaries ks), hswap (secondaries ks), Ordering.swap_then]

variable {ks ls : List (α × α)}

theorem order_trans [TransOrd α] {ms : List (α × α)} (h : (order ks ls).isLE)
    (h' : (order ls ms).isLE) : (order ks ms).isLE := by
  unfold order at h h' ⊢
  rw [Ordering.isLE_then_iff_and] at h h' ⊢
  constructor
  · exact TransCmp.isLE_trans h.1 h'.1
  · rcases h.2 with hlt | hle
    · exact Or.inl (TransCmp.lt_of_lt_of_isLE hlt h'.1)
    · rcases h'.2 with hlt' | hle'
      · exact Or.inl (TransCmp.lt_of_isLE_of_lt h.1 hlt')
      · exact Or.inr (TransCmp.isLE_trans hle hle')

/-!
## The transform
-/

section Transform

/-- Weights that are below those of the other word count only after it. -/
theorem compareLex_append [TransOrd α] {ps qs ss ts : List α}
    (hs : ∀ s ∈ ss, ∀ q ∈ qs, compare s q = .lt) (ht : ∀ t ∈ ts, ∀ p ∈ ps, compare t p = .lt) :
    List.compareLex compare (ps ++ ss) (qs ++ ts) =
      (List.compareLex compare ps qs).then (List.compareLex compare ss ts) := by
  induction ps generalizing qs with
  | nil =>
    cases qs with
    | nil => rfl
    | cons q qs =>
      cases ss with
      | nil => rfl
      | cons s ss =>
        have hlt := hs s List.mem_cons_self q List.mem_cons_self
        simp [List.compareLex_cons_cons, List.compareLex_nil_cons, hlt]
  | cons p ps ih =>
    cases qs with
    | nil =>
      cases ts with
      | nil => rfl
      | cons t ts =>
        have hlt := ht t List.mem_cons_self p List.mem_cons_self
        have hgt : compare p t = .gt := OrientedCmp.gt_of_lt hlt
        simp [List.compareLex_cons_cons, List.compareLex_cons_nil, hgt]
    | cons q qs =>
      have hrest := ih (fun s hs' r hr => hs s hs' r (List.mem_cons_of_mem q hr))
        (fun t ht' r hr => ht t ht' r (List.mem_cons_of_mem p hr))
      rw [List.cons_append, List.cons_append, List.compareLex_cons_cons, hrest,
        List.compareLex_cons_cons, Ordering.then_assoc]

variable [DecidableEq α] (zero : α)

def weights (ks : List (α × α)) : List α := (secondaries ks).filter (· ≠ zero)

def transform (ks : List (α × α)) : List α := primaries ks ++ weights zero ks

/-- Words of the same primary weights have their zeros at the same places. -/
theorem compareLex_weights [ReflOrd α] (heq : primaries ks = primaries ls)
    (hzero : ∀ k ∈ ks, ∀ l ∈ ls, k.1 = l.1 → (k.2 = zero ↔ l.2 = zero)) :
    List.compareLex compare (weights zero ks) (weights zero ls) =
      List.compareLex compare (secondaries ks) (secondaries ls) := by
  induction ks generalizing ls with
  | nil =>
    cases ls with
    | nil => rfl
    | cons l ls => cases heq
  | cons k ks ih =>
    cases ls with
    | nil => cases heq
    | cons l ls =>
      rcases List.cons.inj heq with ⟨hhead, htail⟩
      have hiff := hzero k mem_cons_self l mem_cons_self hhead
      have hrest := ih htail fun k' hk l' hl =>
        hzero k' (List.mem_cons_of_mem k hk) l' (List.mem_cons_of_mem l hl)
      unfold weights secondaries at hrest ⊢
      rw [List.map_cons, List.map_cons, List.compareLex_cons_cons]
      by_cases hk : k.2 = zero
      · have hl := hiff.mp hk
        rw [filter_cons_of_neg (by simp [hk]), filter_cons_of_neg (by simp [hl]),
          hrest, hk, hl, ReflOrd.compare_self]
        rfl
      · have hl := mt hiff.mpr hk
        rw [filter_cons_of_pos (by simp [hk]), filter_cons_of_pos (by simp [hl]),
          List.compareLex_cons_cons, hrest]

/-- The transformed words have the lexicographic order that the words have. -/
theorem compareLex_transform [TransOrd α] [LawfulEqOrd α]
    (hks : ∀ k ∈ ks, ∀ l ∈ ls, compare k.2 l.1 = .lt)
    (hls : ∀ l ∈ ls, ∀ k ∈ ks, compare l.2 k.1 = .lt)
    (hzero : ∀ k ∈ ks, ∀ l ∈ ls, k.1 = l.1 → (k.2 = zero ↔ l.2 = zero)) :
    List.compareLex compare (transform zero ks) (transform zero ls) = order ks ls := by
  have hbelow {ks ls : List (α × α)} (h : ∀ k ∈ ks, ∀ l ∈ ls, compare k.2 l.1 = .lt) :
      ∀ s ∈ weights zero ks, ∀ q ∈ primaries ls, compare s q = .lt := by
    intro s hs q hq
    rcases mem_map.mp (mem_filter.mp hs).1 with ⟨k, hk, hks⟩
    rcases mem_map.mp hq with ⟨l, hl, hlq⟩
    rw [← hks, ← hlq]
    exact h k hk l hl
  unfold transform order
  rw [compareLex_append (hbelow hks) (hbelow hls)]
  cases hprim : List.compareLex compare (primaries ks) (primaries ls) with
  | lt => rfl
  | gt => rfl
  | eq =>
    have heq : primaries ks = primaries ls :=
      LawfulEqCmp.eq_of_compare hprim
    rw [Ordering.eq_then, Ordering.eq_then, compareLex_weights zero heq hzero]

end Transform

end Collation
end Svr4
