import Mathlib.Logic.Function.Basic

/-!
# Index trees

Blocks hold pointers to blocks, and a root holds pointers too; zero points nowhere.  A
place is the list of the indices on the way from the root, the last one first.  Below the
slots of the root there are levels of blocks, `n` pointers in each.
-/

namespace Svr4
namespace IndexTree

open Function

variable {root : Nat → Nat} {words : Nat → Nat → Nat} {slots n : Nat} {levels : Nat → Nat}

def block (root : Nat → Nat) (words : Nat → Nat → Nat) : List Nat → Nat
  | [] => 0
  | [k] => root k
  | k :: j :: p =>
    if block root words (j :: p) = 0 then 0 else words (block root words (j :: p)) k

/-- A place with so many levels below it. -/
inductive Place (slots : Nat) (levels : Nat → Nat) (n : Nat) : Nat → List Nat → Prop where
  | slot {k : Nat} (hk : k < slots) : Place slots levels n (levels k) [k]
  | entry {d k : Nat} {p : List Nat} (h : Place slots levels n (d + 1) p) (hk : k < n) :
      Place slots levels n d (k :: p)

variable {p : List Nat}

theorem Place.ne_nil {d : Nat} (h : Place slots levels n d p) : p ≠ [] := by
  cases h with
  | slot hk => exact List.cons_ne_nil _ _
  | entry h hk => exact List.cons_ne_nil _ _

theorem Place.unique {d d' : Nat} (h : Place slots levels n d p)
    (h' : Place slots levels n d' p) : d = d' := by
  induction h generalizing d' with
  | slot hk =>
    cases h' with
    | slot hk => rfl
    | entry h hk => exact absurd rfl h.ne_nil
  | entry h hk ih =>
    cases h' with
    | slot hk => exact absurd rfl h.ne_nil
    | entry h' hk => exact Nat.succ.inj (ih h')

theorem block_cons {k : Nat} (hp : p ≠ []) : block root words (k :: p) =
      if block root words p = 0 then 0 else words (block root words p) k := by
  cases p with
  | nil => exact absurd rfl hp
  | cons j p => rfl

/-- Only the blocks of the tree matter. -/
theorem block_congr {words' : Nat → Nat → Nat} {d : Nat} (hp : Place slots levels n d p)
    (h : ∀ d q, Place slots levels n (d + 1) q → block root words q ≠ 0 →
      words' (block root words q) = words (block root words q)) :
    block root words' p = block root words p := by
  induction hp with
  | slot hk => rfl
  | @entry d k p hp hk ih =>
    rw [block_cons hp.ne_nil, block_cons hp.ne_nil, ih]
    by_cases hzero : block root words p = 0
    · rw [if_pos hzero, if_pos hzero]
    · rw [if_neg hzero, if_neg hzero, h d p hp hzero]

/-- A pointer to a new block is put into the root or into a block. -/
def put (root : Nat → Nat) (words : Nat → Nat → Nat) (v : Nat) :
    List Nat → (Nat → Nat) × (Nat → Nat → Nat)
  | [] => (root, words)
  | [k] => (update root k v, words)
  | k :: j :: p =>
    let b := block root words (j :: p)
    (root, update words b (update (words b) k v))

/--
A new block, without pointers if there are levels below it, is put where there was none.
The block into which the pointer is put is at no other place.
-/
theorem block_put {v d e : Nat} {q : List Nat} (hq : Place slots levels n d q)
    (hhole : block root words q = 0) (hnew : ∀ d p, Place slots levels n d p →
      block root words p ≠ v) (hv : 0 < d → words v = fun _ => 0)
    (hparent : ∀ k p, q = k :: p → p ≠ [] → block root words p ≠ 0 ∧
      ∀ d p', Place slots levels n d p' → block root words p' = block root words p → p' = p)
    (hp : Place slots levels n e p) : block (put root words v q).1 (put root words v q).2 p =
      if p = q then v else block root words p := by
  induction hp with
  | @slot k hk =>
    cases hq with
    | @slot l hl =>
      show update root l v k = _
      by_cases hkl : k = l
      · subst hkl
        rw [update_self, if_pos rfl]
      · rw [update_of_ne hkl, if_neg (fun h => hkl (List.cons.inj h).1)]
        rfl
    | @entry d l p' h hl =>
      have hne : ¬ [k] = l :: p' := fun heq => h.ne_nil (List.cons.inj heq).2.symm
      rw [if_neg hne]
      cases p' with
      | nil => exact absurd rfl h.ne_nil
      | cons j p' => rfl
  | @entry e k p hp hk ih =>
    rw [block_cons hp.ne_nil, block_cons hp.ne_nil, ih]
    by_cases hpq : p = q
    · subst hpq
      have hd : d = e + 1 := hq.unique hp
      have hne : ¬ k :: p = p := fun h => absurd (congrArg List.length h) (by simp)
      rw [if_pos rfl, if_neg hne, if_pos hhole]
      -- the new block has no pointers
      have hzero : (put root words v p).2 v k = 0 := by
        cases hq with
        | slot hl => exact congrFun (hv (by omega)) k
        | @entry d l p' h hl =>
          cases p' with
          | nil => exact absurd rfl h.ne_nil
          | cons j p' =>
            show update words _ _ v k = 0
            rw [update_of_ne (hnew _ _ h).symm]
            exact congrFun (hv (by omega)) k
      rw [hzero, ite_self]
    · rw [if_neg hpq]
      by_cases hzero : block root words p = 0
      · have hne : ¬ k :: p = q := by
          rintro rfl
          exact (hparent k p rfl hp.ne_nil).1 hzero
        rw [if_pos hzero, if_pos hzero, if_neg hne]
      · rw [if_neg hzero, if_neg hzero]
        cases hq with
        | slot hl => rw [if_neg (fun h => hp.ne_nil (List.cons.inj h).2)]; rfl
        | @entry d l p' h hl =>
          cases p' with
          | nil => exact absurd rfl h.ne_nil
          | cons j p' =>
            show update words (block root words (j :: p')) _ _ k = _
            by_cases hsame : block root words p = block root words (j :: p')
            · have hpp := (hparent l (j :: p') rfl (List.cons_ne_nil _ _)).2 _ p hp hsame
              subst hpp
              rw [update_self]
              by_cases hkl : k = l
              · subst hkl
                rw [update_self, if_pos rfl]
              · rw [update_of_ne hkl, if_neg (fun h => hkl (List.cons.inj h).1)]
            · have hne : ¬ k :: p = l :: j :: p' := by
                intro heq
                exact hsame (by rw [(List.cons.inj heq).2])
              rw [update_of_ne hsame, if_neg hne]

end IndexTree
end Svr4
