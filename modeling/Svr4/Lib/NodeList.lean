import Mathlib.Data.List.Pairwise
import Mathlib.Data.List.Nodup
import Mathlib.Data.List.TakeWhile

/-!
# Lists of addressed nodes

A doubly linked list is represented by the list of its nodes in link order.  A
node carries its own address, and a pointer into the list is the address of a
node, with `none` for the null pointer.  This module develops the pointer
operations on such lists: removing a node, changing one in place, inserting
after a given node, and walking forward from a pointer.
-/

namespace Svr4
namespace NodeList

open List

section Operations

variable {α : Type*} {κ : Type*} [DecidableEq κ] (key : α → κ)

/-- Unlink the node at address `k`. -/
def unlink (k : κ) (l : List α) : List α :=
  l.filter fun x => key x ≠ k

/-- Change the node at address `k` in place. -/
def amend (k : κ) (f : α → α) (l : List α) : List α :=
  l.map fun x => if key x = k then f x else x

/-- Link a new node behind the node at address `k`. -/
def insertBehind (k : κ) (new : α) : List α → List α
  | [] => []
  | x :: rest =>
    if key x = k then x :: new :: rest else x :: insertBehind k new rest

/-- Link a new node behind a pointer; the null pointer means the list head. -/
def insertAfter (p : Option κ) (new : α) (l : List α) : List α :=
  match p with
  | none => new :: l
  | some k => insertBehind key k new l

/-- The nodes from address `k` on. -/
def fromNode (k : κ) (l : List α) : List α :=
  l.dropWhile fun x => key x ≠ k

/-- The node whose next pointer leads to address `k`. -/
def prevOf (k : κ) (l : List α) : Option α :=
  (l.takeWhile fun x => key x ≠ k).getLast?

/-- Follow next pointers as long as the node reached satisfies `c`. -/
def walk (c : α → Prop) [DecidablePred c] : List α → Option κ → Option κ
  | [], p => p
  | x :: rest, p => if c x then walk c rest (some (key x)) else p

end Operations

/-!
## Membership
-/

section Membership

variable {α : Type*} {κ : Type*} [DecidableEq κ] {key : α → κ}
variable {k : κ} {l front back : List α} {x y : α}

@[simp] theorem mem_unlink : x ∈ unlink key k l ↔ x ∈ l ∧ key x ≠ k := by
  simp [unlink]

theorem unlink_sublist (k : κ) (l : List α) : (unlink f k l).Sublist l :=
  filter_sublist

theorem mem_amend {f : α → α} :
    y ∈ amend key k f l ↔ ∃ x ∈ l, (if key x = k then f x else x) = y := by
  simp [amend]

theorem amend_keys {f : α → α} (hf : ∀ x, key (f x) = key x)
    (l : List α) : (amend key k f l).map key = l.map key := by
  unfold amend
  rw [map_map]
  apply map_congr_left
  intro x _
  by_cases hx : key x = k <;> simp [hx, hf]

omit [DecidableEq κ] in
theorem exists_split_of_mem (hx : x ∈ l) (hnodup : (l.map key).Nodup) :
    ∃ front back, l = front ++ x :: back ∧
      (∀ y ∈ front, key y ≠ key x) ∧ (∀ y ∈ back, key y ≠ key x) := by
  rcases append_of_mem hx with ⟨front, back, rfl⟩
  refine ⟨front, back, rfl, ?_, ?_⟩
  · intro y hy heq
    rw [map_append, nodup_append] at hnodup
    exact hnodup.2.2 (key y) (mem_map_of_mem hy) (key x) (by simp) heq
  · intro y hy heq
    rw [map_append, nodup_append] at hnodup
    have htail := (nodup_cons.mp hnodup.2.1).1
    exact htail (heq ▸ mem_map_of_mem hy)

omit [DecidableEq κ] in
theorem eq_of_key_eq (hnodup : (l.map key).Nodup) (hx : x ∈ l) (hy : y ∈ l)
    (h : key x = key y) : x = y :=
  inj_on_of_nodup_map hnodup hx hy h

section

variable (hk : key x = k) (hfront : ∀ y ∈ front, key y ≠ k)
include hk hfront

theorem insertBehind_of_split {new : α} :
    insertBehind key k new (front ++ x :: back) = front ++ x :: new :: back := by
  induction front with
  | nil => simp [insertBehind, hk]
  | cons y rest ih =>
    have hy : key y ≠ k := hfront y (by simp)
    simp only [cons_append, insertBehind, hy, if_false]
    rw [ih fun z hz => hfront z (by simp [hz])]

theorem fromNode_of_split :
    fromNode key k (front ++ x :: back) = x :: back := by
  induction front with
  | nil => simp [fromNode, hk]
  | cons y rest ih =>
    have hy : key y ≠ k := hfront y (by simp)
    have hrest := ih fun z hz => hfront z (by simp [hz])
    unfold fromNode at hrest ⊢
    rw [cons_append, dropWhile_cons_of_pos (by simpa using hy)]
    exact hrest

theorem prevOf_of_split :
    prevOf key k (front ++ x :: back) = front.getLast? := by
  unfold prevOf
  congr 1
  induction front with
  | nil => simp [hk]
  | cons y rest ih =>
    have hy : key y ≠ k := hfront y (by simp)
    have hrest := ih fun z hz => hfront z (by simp [hz])
    rw [cons_append, takeWhile_cons_of_pos (by simpa using hy), hrest]

end

end Membership

/-!
## Insertion in order

A list ordered by a rank stays ordered when a new node is put behind the place
where a walk over the lower ranks stops.
-/

section Ordered

variable {α : Type*} {κ : Type*} [DecidableEq κ] {key : α → κ}

omit [DecidableEq κ] in
/-- The walk stops behind the maximal run of nodes satisfying `c`. -/
theorem walk_eq (c : α → Prop) [DecidablePred c] (l : List α) (p : Option κ) :
    walk key c l p = ((l.takeWhile fun x => c x).getLast?.map key).or p := by
  induction l generalizing p with
  | nil => simp [walk]
  | cons x rest ih =>
    by_cases hx : c x
    · simp only [walk, hx, if_true, ih, decide_true, takeWhile_cons_of_pos]
      cases hrun : (rest.takeWhile fun x => c x).getLast? with
      | none =>
        rw [getLast?_eq_none_iff.mp hrun]
        simp
      | some y => simp [getLast?_cons, hrun]
    · simp [walk, hx]

/-- Insertion behind the node where a walk from an existing node stops. -/
theorem insertAfter_walk {l : List α} (hnodup : (l.map key).Nodup)
    (c : α → Prop) [DecidablePred c] {x : α} (hx : x ∈ l) (new : α) :
    ∃ front back, l = front ++ back ∧
      insertAfter key (walk key c (fromNode key (key x) l) (some (key x)))
        new l = front ++ new :: back ∧ x ∈ front ∧
      (∃ last, front.getLast? = some last ∧ (last = x ∨ c last)) ∧
      (c x → ∀ y, back.head? = some y → ¬ c y) := by
  rcases exists_split_of_mem hx hnodup with ⟨pre, post, rfl, hpre, _⟩
  rw [fromNode_of_split rfl hpre, walk_eq]
  by_cases hc : c x
  · -- The run walked over starts with the node the pointer designates.
    have hrun : ((x :: post).takeWhile fun y => c y) =
        x :: post.takeWhile fun y => c y := by simp [hc]
    obtain ⟨init, last, hinit⟩ : ∃ init last, x :: (post.takeWhile fun y => c y) = init ++ [last] :=
      ⟨_, _, (dropLast_append_getLast (by simp)).symm⟩
    refine ⟨pre ++ init ++ [last], post.dropWhile fun y => c y, ?_, ?_, ?_, ⟨last, by simp, ?_⟩, ?_⟩
    · calc pre ++ x :: post = pre ++ ((x :: (post.takeWhile fun y => c y)) ++
              post.dropWhile fun y => c y) := by simp
        _ = pre ++ init ++ [last] ++ post.dropWhile fun y => c y := by
            rw [hinit]; simp
    · have hl : pre ++ x :: post = (pre ++ init) ++ last :: post.dropWhile fun y => c y := by
        calc pre ++ x :: post = pre ++ ((x :: (post.takeWhile fun y => c y)) ++
                post.dropWhile fun y => c y) := by simp
          _ = (pre ++ init) ++ last :: post.dropWhile fun y => c y := by
              rw [hinit]; simp
      have hkeys : ∀ y ∈ pre ++ init, key y ≠ key last := by
        rw [hl, map_append, nodup_append] at hnodup
        intro y hy
        exact hnodup.2.2 (key y) (mem_map_of_mem hy) (key last) (by simp)
      rw [hrun, hinit]
      simp only [getLast?_append, getLast?_singleton, Option.some_or,
        Option.map_some, insertAfter]
      rw [hl, insertBehind_of_split rfl hkeys]
      simp
    · have hmem : x ∈ init ++ [last] := by rw [← hinit]; simp
      have hmem' : x ∈ pre ++ (init ++ [last]) := mem_append_right _ hmem
      simpa [append_assoc] using hmem'
    · have hlast : last ∈ x :: (post.takeWhile fun y => c y) := by
        rw [hinit]; simp
      rcases mem_cons.mp hlast with rfl | hmem
      · exact .inl rfl
      · exact .inr (by simpa using mem_takeWhile_imp hmem)
    · intro _ y hy
      have := head?_dropWhile_not (fun y => decide (c y)) post
      rw [hy] at this
      simpa using this
  · refine ⟨pre ++ [x], post, by simp, ?_, by simp, ⟨x, by simp, .inl rfl⟩, fun h => absurd h hc⟩
    simp only [hc, decide_false, Bool.false_eq_true, not_false_eq_true,
      takeWhile_cons_of_neg, getLast?_nil, Option.map_none,
      Option.none_or, insertAfter]
    rw [insertBehind_of_split rfl hpre]
    simp

/-- In a list ordered by rank, the node before `x` ranks at most as high. -/
theorem prevOf_rank {l : List α} (hnodup : (l.map key).Nodup) {rank : α → Int}
    (hsorted : l.Pairwise fun a b => rank a ≤ rank b) {x : α} (hx : x ∈ l) :
    match prevOf key (key x) l with
    | none => ∀ y ∈ l, rank x ≤ rank y
    | some y => y ∈ l ∧ key y ≠ key x ∧ rank y ≤ rank x := by
  rcases exists_split_of_mem hx hnodup with ⟨front, back, rfl, hfront, _⟩
  rw [prevOf_of_split rfl hfront]
  rw [pairwise_append] at hsorted
  rcases hsorted with ⟨_, hback, hcross⟩
  cases hlast : front.getLast? with
  | none =>
    rw [getLast?_eq_none_iff.mp hlast]
    intro y hy
    rcases mem_cons.mp (by simpa using hy) with rfl | hmem
    · exact Int.le_refl _
    · exact (pairwise_cons.mp hback).1 y hmem
  | some y =>
    have hy : y ∈ front := mem_of_getLast? hlast
    exact ⟨mem_append_left _ hy, hfront y hy, hcross y hy x (by simp)⟩

end Ordered

/-!
## Pairs of members
-/

/-- Two members of a list related pairwise are equal or related one way. -/
theorem pairwise_cases {α : Type*} {r : α → α → Prop} {l : List α}
    (h : l.Pairwise r) {a b : α} (ha : a ∈ l) (hb : b ∈ l) : a = b ∨ r a b ∨ r b a := by
  induction h with
  | nil => cases ha
  | cons hhead _ ih =>
    rcases mem_cons.mp ha with rfl | ha'
    · rcases mem_cons.mp hb with rfl | hb'
      · exact .inl rfl
      · exact .inr (.inl (hhead b hb'))
    · rcases mem_cons.mp hb with rfl | hb'
      · exact .inr (.inr (hhead a ha'))
      · exact ih ha' hb'

end NodeList
end Svr4
