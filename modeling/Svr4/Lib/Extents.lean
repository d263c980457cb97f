import Mathlib.Order.CompletePartialOrder
import Mathlib.Data.List.TakeWhile
import Mathlib.Data.Set.Lattice

/-!
# Lists of extents

An extent goes from `lo` to, but not including, `hi`.  A list of
extents is spread out when each of them ends before the next one begins, with a
gap between them.  This module develops how one extent of such a list is put in,
changed or taken out.
-/

namespace Svr4
namespace Extents

open List

variable {α ι : Type*} [LinearOrder ι] {lo hi : α → ι}

/-- Each extent ends before the later ones begin, and does not touch them. -/
def Spread (lo hi : α → ι) (l : List α) : Prop :=
  l.Pairwise fun x y => hi x < lo y

def cover (lo hi : α → ι) (l : List α) : Set ι :=
  {u | ∃ x ∈ l, lo x ≤ u ∧ u < hi x}

variable {l front back : List α}

@[simp]
theorem mem_cover {u : ι} : u ∈ cover lo hi l ↔ ∃ x ∈ l, lo x ≤ u ∧ u < hi x :=
  Iff.rfl

@[simp]
theorem cover_nil : cover lo hi ([] : List α) = ∅ := by
  ext u
  simp

theorem cover_cons (x : α) (l : List α) :
    cover lo hi (x :: l) = Set.Ico (lo x) (hi x) ∪ cover lo hi l := by
  ext u
  simp

theorem cover_append (l l' : List α) : cover lo hi (l ++ l') = cover lo hi l ∪ cover lo hi l' := by
  ext u
  simp only [mem_cover, mem_append, Set.mem_union]
  constructor
  · rintro ⟨x, hx | hx, hu⟩
    · exact .inl ⟨x, hx, hu⟩
    · exact .inr ⟨x, hx, hu⟩
  · rintro (⟨x, hx, hu⟩ | ⟨x, hx, hu⟩)
    · exact ⟨x, .inl hx, hu⟩
    · exact ⟨x, .inr hx, hu⟩

/-- An extent between the others, the rest in any order of union. -/
theorem cover_middle (front back : List α) (x : α) :
    cover lo hi (front ++ x :: back) = Set.Ico (lo x) (hi x) ∪ cover lo hi (front ++ back) := by
  rw [cover_append, cover_cons, cover_append, Set.union_left_comm]

variable {x : α}

theorem Spread.drop_middle (h : Spread lo hi (front ++ x :: back)) : Spread lo hi (front ++ back) :=
  List.Pairwise.sublist (List.Sublist.append_left (sublist_cons_self x back) front) h

theorem Spread.around (h : Spread lo hi (front ++ x :: back)) :
    (∀ y ∈ front, hi y < lo x) ∧ ∀ y ∈ back, hi x < lo y := by
  rcases pairwise_append.mp h with ⟨_, hback, hacross⟩
  exact ⟨fun y hy => hacross y hy x mem_cons_self, (pairwise_cons.mp hback).1⟩

theorem Spread.insert (h : Spread lo hi (front ++ back)) (hfront : ∀ y ∈ front, hi y < lo x)
    (hback : ∀ y ∈ back, hi x < lo y) : Spread lo hi (front ++ x :: back) := by
  rcases pairwise_append.mp h with ⟨hf, hb, hacross⟩
  refine pairwise_append.mpr ⟨hf, pairwise_cons.mpr ⟨hback, hb⟩, ?_⟩
  intro y hy z hz
  rcases mem_cons.mp hz with rfl | hz
  · exact hfront y hy
  · exact hacross y hy z hz

/-- The points of one extent are in none of the others. -/
theorem Spread.disjoint (h : Spread lo hi (front ++ x :: back)) :
    Disjoint (Set.Ico (lo x) (hi x)) (cover lo hi (front ++ back)) := by
  rcases h.around with ⟨hfront, hback⟩
  rw [Set.disjoint_left]
  rintro u ⟨hlo, hhi⟩ ⟨y, hy, hylo, hyhi⟩
  rcases mem_append.mp hy with hy | hy
  · exact absurd (hyhi.trans (hfront y hy)) (not_lt.mpr hlo)
  · exact absurd (hhi.trans (hback y hy)) (not_lt.mpr hylo)

/-- An interval of points that are all covered lies in one of the extents. -/
theorem Spread.interval {a b : ι} (h : Spread lo hi l) (hab : a < b)
    (hin : Set.Ico a b ⊆ cover lo hi l) : ∃ x ∈ l, lo x ≤ a ∧ b ≤ hi x := by
  obtain ⟨x, hx, hlo, hhi⟩ := hin ⟨le_refl a, hab⟩
  refine ⟨x, hx, hlo, ?_⟩
  by_contra hnot
  -- the end of the extent would lie in another one
  obtain ⟨y, hy, hylo, hyhi⟩ := hin ⟨hhi.le, not_le.mp hnot⟩
  obtain ⟨front, back, rfl⟩ := append_of_mem hx
  obtain ⟨hfront, hback⟩ := h.around
  rcases mem_append.mp hy with hy | hy
  · exact absurd ((hfront y hy).trans (lt_of_le_of_lt hlo hhi)) (not_lt.mpr hyhi.le)
  · rcases mem_cons.mp hy with rfl | hy
    · exact lt_irrefl _ hyhi
    · exact absurd (hback y hy) (not_lt.mpr hylo)

/-- The front of an extent is taken away. -/
theorem Spread.cover_take {x' : α} (h : Spread lo hi (front ++ x :: back)) (hle : lo x ≤ lo x')
    (hhi : hi x' = hi x) (hlt : lo x' ≤ hi x) : cover lo hi (front ++ x' :: back) =
      cover lo hi (front ++ x :: back) \ Set.Ico (lo x) (lo x') := by
  have hdisjoint := Set.disjoint_left.mp h.disjoint
  rw [cover_middle, cover_middle, hhi]
  ext u
  constructor
  · rintro (⟨hlo, hu⟩ | hu)
    · exact ⟨.inl ⟨hle.trans hlo, hu⟩, fun hin => absurd hlo (not_le.mpr hin.2)⟩
    · exact ⟨.inr hu, fun hin => hdisjoint ⟨hin.1, hin.2.trans_le hlt⟩ hu⟩
  · rintro ⟨⟨hlo, hu⟩ | hu, hnot⟩
    · exact .inl ⟨not_lt.mp fun hlt => hnot ⟨hlo, hlt⟩, hu⟩
    · exact .inr hu

/-- An extent is taken away. -/
theorem Spread.cover_drop (h : Spread lo hi (front ++ x :: back)) :
    cover lo hi (front ++ back) = cover lo hi (front ++ x :: back) \ Set.Ico (lo x) (hi x) := by
  rw [cover_middle, Set.union_sdiff_left]
  exact (h.disjoint.sdiff_eq_right).symm

theorem dropWhile_spec {p : α → Bool}
    (h : l.Pairwise fun x y => p y → p x) : ∀ x ∈ l.dropWhile p, ¬ p x := by
  induction l with
  | nil => simp
  | cons a rest ih =>
    rcases pairwise_cons.mp h with ⟨hhead, hrest⟩
    by_cases ha : p a
    · rw [dropWhile_cons_of_pos ha]
      exact ih hrest
    · rw [dropWhile_cons_of_neg ha]
      intro x hx
      rcases mem_cons.mp hx with rfl | hx
      · exact ha
      · exact fun hpx => ha (hhead x hx hpx)

/-- A point splits the extents into those that begin up to it and the others. -/
theorem Spread.split (h : Spread lo hi l) (hne : ∀ x ∈ l, lo x < hi x) (a : ι) :
    ∃ front back, l = front ++ back ∧ (∀ x ∈ front, lo x ≤ a) ∧ ∀ x ∈ back, a < lo x := by
  have hmono : l.Pairwise fun x y => decide (lo y ≤ a) → decide (lo x ≤ a) := by
    refine h.imp_of_mem fun {x y} hx _ hxy hy => ?_
    have hle : lo y ≤ a := of_decide_eq_true hy
    exact decide_eq_true ((hne x hx).le.trans (hxy.le.trans hle))
  refine ⟨l.takeWhile fun x => lo x ≤ a, l.dropWhile fun x => lo x ≤ a,
    takeWhile_append_dropWhile.symm, fun x hx => ?_, fun x hx => ?_⟩
  · have hp := mem_takeWhile_imp hx
    exact of_decide_eq_true hp
  · have hnot := dropWhile_spec hmono x hx
    exact not_le.mp fun hle => hnot (decide_eq_true hle)

/-- An extent that overlaps with none of a list lies between two parts of it. -/
theorem around_of_disjoint {a b : ι} (hab : a < b) (hne : ∀ x ∈ l, lo x < hi x)
    (hdisjoint : Disjoint (Set.Ico a b) (cover lo hi l)) :
    (∀ x ∈ l, lo x ≤ a → hi x ≤ a) ∧ ∀ x ∈ l, a < lo x → b ≤ lo x := by
  rw [Set.disjoint_left] at hdisjoint
  refine ⟨fun x hx hle => ?_, fun x hx hlt => ?_⟩
  · by_contra hover
    exact hdisjoint ⟨le_refl a, hab⟩ ⟨x, hx, hle, not_le.mp hover⟩
  · by_contra hover
    exact hdisjoint ⟨hlt.le, not_le.mp hover⟩ ⟨x, hx, le_refl _, hne x hx⟩

/-!
## Lists with the same points
-/

variable {l' : List α} {y : α}

/-- Extents that overlap are the same one. -/
theorem Spread.eq_of_overlap (h : Spread lo hi l) (hx : x ∈ l) (hy : y ∈ l) (hxy : lo x < hi y)
    (hyx : lo y < hi x) : x = y := by
  rcases append_of_mem hx with ⟨front, back, rfl⟩
  rcases h.around with ⟨hfront, hback⟩
  rcases mem_append.mp hy with hy | hy
  · exact absurd hxy (hfront y hy).not_gt
  · rcases mem_cons.mp hy with rfl | hy
    · rfl
    · exact absurd hyx (hback y hy).not_gt

theorem Spread.mem_of_cover (h : Spread lo hi l) (h' : Spread lo hi l')
    (hne : ∀ x ∈ l, lo x < hi x) (hne' : ∀ x ∈ l', lo x < hi x)
    (hcover : cover lo hi l = cover lo hi l') (hx : x ∈ l) :
    ∃ y ∈ l', lo y = lo x ∧ hi y = hi x := by
  rcases h'.interval (hne x hx) fun u hu => hcover ▸ ⟨x, hx, hu⟩ with ⟨y, hy, hlo, hhi⟩
  rcases h.interval (hne' y hy) fun u hu => hcover ▸ ⟨y, hy, hu⟩ with ⟨z, hz, hzlo, hzhi⟩
  have hlt := hne x hx
  have heq : z = x := h.eq_of_overlap hz hx ((hzlo.trans hlo).trans_lt hlt)
    (hlt.trans_le (hhi.trans hzhi))
  subst heq
  exact ⟨y, hy, le_antisymm hlo hzlo, le_antisymm hzhi hhi⟩

/-- A list that is spread out is known by the points it covers. -/
theorem Spread.unique (h : Spread lo hi l) (h' : Spread lo hi l') (hne : ∀ x ∈ l, lo x < hi x)
    (hne' : ∀ x ∈ l', lo x < hi x) (hcover : cover lo hi l = cover lo hi l')
    (hext : ∀ x y, lo x = lo y → hi x = hi y → x = y) : l = l' := by
  have hnodup : ∀ l, Spread lo hi l → (∀ x ∈ l, lo x < hi x) → l.Nodup := fun l h hne =>
    List.Pairwise.imp_of_mem (fun {x y} hx _ hlt heq => by
      subst heq
      exact lt_asymm hlt (hne x hx)) h
  have hsub : ∀ {l l'}, Spread lo hi l → Spread lo hi l' → (∀ x ∈ l, lo x < hi x) →
      (∀ x ∈ l', lo x < hi x) → cover lo hi l = cover lo hi l' → ∀ x ∈ l, x ∈ l' := by
    intro l l' h h' hne hne' hcover x hx
    rcases h.mem_of_cover h' hne hne' hcover hx with ⟨y, hy, hlo, hhi⟩
    exact hext y x hlo hhi ▸ hy
  have hperm : l ~ l' := (perm_ext_iff_of_nodup (hnodup l h hne) (hnodup l' h' hne')).mpr fun x =>
    ⟨hsub h h' hne hne' hcover x, hsub h' h hne' hne hcover.symm x⟩
  refine hperm.eq_of_pairwise (fun x y hx hy hxy hyx => ?_) h h'
  exact absurd (hxy.trans (hne' y hy)) (hyx.trans (hne x hx)).not_gt

end Extents
end Svr4
