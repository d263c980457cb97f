import Mathlib.Data.List.Basic
import Mathlib.Data.List.Pairwise
import Mathlib.Data.List.Flatten

/-!
# Lists ordered by rank

A list whose members come in descending rank falls, at every threshold
`t`, into the members of rank at least `t` and the others.  A new
member keeps the order where it is put at its own rank, behind its equals, or
at the next rank, before them.  The members of one rank, in their order, form a
level; the list is the concatenation of its levels.
-/

namespace Svr4

open List

def Ranked {α : Type*} (rank : α → Nat) (l : List α) : Prop :=
  l.Pairwise fun a b => rank b ≤ rank a

namespace RankedList

section Parts

variable {α : Type*} (rank : α → Nat)

/-- The members of rank at least `t`. -/
def hi (t : Nat) (l : List α) : List α := l.filter fun x => t ≤ rank x

/-- The members of rank below `t`. -/
def lo (t : Nat) (l : List α) : List α := l.filter fun x => rank x < t

/-- The members of rank `c`. -/
def level (c : Nat) (l : List α) : List α := l.filter fun x => rank x = c

def insertAt (t : Nat) (x : α) (l : List α) : List α :=
  hi rank t l ++ x :: lo rank t l

/-- The concatenation of the levels from `n` down. -/
def flat (level : Nat → List α) : Nat → List α
  | 0 => level 0
  | n + 1 => level (n + 1) ++ flat level n

end Parts

variable {α : Type*} {rank : α → Nat} {l : List α} {x : α} {t c n : Nat} {y : α}

theorem mem_hi : y ∈ hi rank t l ↔ y ∈ l ∧ t ≤ rank y := by
  simp [hi]

theorem mem_lo : y ∈ lo rank t l ↔ y ∈ l ∧ rank y < t := by
  simp [lo]

theorem mem_level : y ∈ level rank c l ↔ y ∈ l ∧ rank y = c := by
  simp [level]

@[simp] theorem mem_insertAt : y ∈ insertAt rank t x l ↔ y = x ∨ y ∈ l := by
  simp only [insertAt, mem_append, mem_cons, mem_hi, mem_lo]
  rcases Nat.lt_or_ge (rank y) t with h | h
  · have h' : ¬ t ≤ rank y := by omega
    simp [h, h']
  · have h' : ¬ rank y < t := by omega
    tauto

/-- A ranked list falls into two parts at every threshold. -/
theorem hi_append_lo (h : Ranked rank l) (t : Nat) : hi rank t l ++ lo rank t l = l := by
  induction l with
  | nil => rfl
  | cons y rest ih =>
    rcases pairwise_cons.mp h with ⟨hhead, hrest⟩
    have ih := ih hrest
    unfold hi lo at ih ⊢
    by_cases hy : t ≤ rank y
    · have hy' : ¬ rank y < t := by omega
      simp only [filter_cons, hy, hy', decide_true, decide_false,
        if_true, Bool.false_eq_true, if_false, cons_append]
      rw [ih]
    · have hy' : rank y < t := by omega
      have hnone : rest.filter (fun x => decide (t ≤ rank x)) = [] := by
        rw [filter_eq_nil_iff]
        intro z hz
        have := hhead z hz
        simp only [decide_eq_true_eq]
        omega
      have hall : rest.filter (fun x => decide (rank x < t)) = rest := by
        rw [filter_eq_self]
        intro z hz
        have := hhead z hz
        simp only [decide_eq_true_eq]
        omega
      simp only [filter_cons, hy, hy', decide_true, decide_false,
        if_true, Bool.false_eq_true, if_false, hnone, hall, nil_append]

theorem insertAt_perm (h : Ranked rank l) (t : Nat) (x : α) :
    (insertAt rank t x l).Perm (x :: l) := by
  have hmiddle : (insertAt rank t x l).Perm (x :: (hi rank t l ++ lo rank t l)) :=
    perm_middle
  rwa [hi_append_lo h t] at hmiddle

/-- A member put at its own rank or at the next one keeps the order. -/
theorem insertAt_ranked (h : Ranked rank l) (hlow : rank x ≤ t)
    (hhigh : t ≤ rank x + 1) : Ranked rank (insertAt rank t x l) := by
  unfold Ranked insertAt
  rw [pairwise_append, pairwise_cons]
  refine ⟨h.filter _, ⟨?_, h.filter _⟩, ?_⟩
  · intro y hy
    have := (mem_lo.mp hy).2
    omega
  · intro a ha b hb
    have ha' := (mem_hi.mp ha).2
    rcases mem_cons.mp hb with rfl | hb
    · omega
    · have := (mem_lo.mp hb).2
      omega

theorem level_insertAt_of_ne (h : Ranked rank l) (hc : c ≠ rank x) :
    level rank c (insertAt rank t x l) = level rank c l := by
  have hl := hi_append_lo h t
  calc level rank c (insertAt rank t x l)
      = level rank c (hi rank t l) ++ level rank c (lo rank t l) := by
        unfold insertAt level
        rw [filter_append, filter_cons_of_neg (by simp [hc.symm])]
    _ = level rank c (hi rank t l ++ lo rank t l) := by
        unfold level
        rw [filter_append]
    _ = level rank c l := by rw [hl]

theorem level_hi_of_le (h : t ≤ c) : level rank c (hi rank t l) = level rank c l := by
  unfold level hi
  rw [filter_filter]
  apply filter_congr
  intro y _
  by_cases hy : rank y = c
  · simp [hy]
    omega
  · simp [hy]

theorem level_hi_of_lt (h : c < t) : level rank c (hi rank t l) = [] := by
  unfold level
  rw [filter_eq_nil_iff]
  intro y hy
  have := (mem_hi.mp hy).2
  simp only [decide_eq_true_eq]
  omega

theorem level_lo_of_le (h : t ≤ c) : level rank c (lo rank t l) = [] := by
  unfold level
  rw [filter_eq_nil_iff]
  intro y hy
  have := (mem_lo.mp hy).2
  simp only [decide_eq_true_eq]
  omega

theorem level_lo_of_lt (h : c < t) : level rank c (lo rank t l) = level rank c l := by
  unfold level lo
  rw [filter_filter]
  apply filter_congr
  intro y _
  by_cases hy : rank y = c
  · simp [hy, h]
  · simp [hy]

/-- Put at its own rank, a member is the last of its level. -/
theorem level_insertAt_self (h : rank x = c) :
    level rank c (insertAt rank c x l) = level rank c l ++ [x] := by
  unfold insertAt
  rw [level, filter_append, filter_cons_of_pos (by simp [h])]
  change level rank c (hi rank c l) ++ x :: level rank c (lo rank c l) = _
  rw [level_hi_of_le (Nat.le_refl c), level_lo_of_le (Nat.le_refl c)]

/-- Put at the next rank, a member is the first of its level. -/
theorem level_insertAt_succ (h : rank x = c) :
    level rank c (insertAt rank (c + 1) x l) = x :: level rank c l := by
  unfold insertAt
  rw [level, filter_append, filter_cons_of_pos (by simp [h])]
  change level rank c (hi rank (c + 1) l) ++ x :: level rank c (lo rank (c + 1) l) = _
  rw [level_hi_of_lt (by omega), level_lo_of_lt (by omega), nil_append]

/-- The last member of a level is the last one of rank at least its rank. -/
theorem getLast?_hi (h : Ranked rank l) (hy : (level rank c l).getLast? = some y) :
    (hi rank c l).getLast? = some y := by
  have hsplit := hi_append_lo (h.filter fun x => decide (c ≤ rank x)) (c + 1)
  change hi rank (c + 1) (hi rank c l) ++ lo rank (c + 1) (hi rank c l) = hi rank c l at hsplit
  have hlow : lo rank (c + 1) (hi rank c l) = level rank c l := by
    unfold lo hi level
    rw [filter_filter]
    apply filter_congr
    intro z _
    by_cases hz : rank z = c
    · simp [hz]
    · simp only [hz, decide_false, Bool.and_eq_false_imp, decide_eq_true_eq,
        decide_eq_false_iff_not]
      omega
  rw [← hsplit, hlow, getLast?_append, hy, Option.some_or]

/-- The first member of a level is the first one of rank at most its rank. -/
theorem head?_lo (h : Ranked rank l) (hy : (level rank c l).head? = some y) :
    (lo rank (c + 1) l).head? = some y := by
  have hsplit := hi_append_lo (h.filter fun x => decide (rank x < c + 1)) c
  change hi rank c (lo rank (c + 1) l) ++ lo rank c (lo rank (c + 1) l) =
    lo rank (c + 1) l at hsplit
  have hhigh : hi rank c (lo rank (c + 1) l) = level rank c l := by
    unfold lo hi level
    rw [filter_filter]
    apply filter_congr
    intro z _
    by_cases hz : rank z = c
    · simp [hz]
    · simp only [hz, decide_false, Bool.and_eq_false_imp, decide_eq_true_eq,
        decide_eq_false_iff_not]
      omega
  rw [← hsplit, hhigh, head?_append, hy, Option.some_or]

/-- The next member of the same level, if any, comes next in the list. -/
theorem head?_level (h : Ranked rank (x :: l)) :
    (l.head?.filter fun y => rank y = rank x) = (level rank (rank x) l).head? := by
  rcases pairwise_cons.mp h with ⟨hhead, hrest⟩
  cases l with
  | nil => rfl
  | cons y rest =>
    rw [head?_cons, Option.filter_some, level]
    by_cases hy : rank y = rank x
    · simp [hy]
    · have hlt : rank y < rank x := by
        have := hhead y (by simp)
        omega
      have hnone : (y :: rest).filter (fun z => decide (rank z = rank x)) = [] := by
        rw [filter_eq_nil_iff]
        intro z hz
        rw [decide_eq_true_eq]
        rcases mem_cons.mp hz with rfl | hz
        · exact hy
        · have := (pairwise_cons.mp hrest).1 z hz
          omega
      rw [hnone]
      simp [hy]

/-- The previous member of the same level, if any, comes just before. -/
theorem getLast?_level (h : Ranked rank (l ++ [x])) :
    (l.getLast?.filter fun y => rank y = rank x) = (level rank (rank x) l).getLast? := by
  rcases pairwise_append.mp h with ⟨hfront, _, hcross⟩
  cases hlast : l.getLast? with
  | none =>
    rw [getLast?_eq_none_iff.mp hlast]
    rfl
  | some y =>
    obtain ⟨init, rfl⟩ := getLast?_eq_some_iff.mp hlast
    rw [Option.filter_some, level, filter_append]
    by_cases hy : rank y = rank x
    · simp [hy]
    · have hlt : rank x < rank y := by
        have := hcross y (by simp) x (by simp)
        omega
      have hnone : init.filter (fun z => decide (rank z = rank x)) = [] := by
        rw [filter_eq_nil_iff]
        intro z hz
        rw [decide_eq_true_eq]
        have := (pairwise_append.mp hfront).2.2 z hz y (by simp)
        omega
      rw [hnone, filter_cons_of_neg (by simp [hy])]
      simp [hy]

/-- At its own rank, a member that ranks below the list goes to its end. -/
theorem insertAt_last (h : ∀ y ∈ l, t ≤ rank y) : insertAt rank t x l = l ++ [x] := by
  have hhi : hi rank t l = l := by
    unfold hi
    rw [filter_eq_self]
    intro y hy
    simpa using h y hy
  have hlo : lo rank t l = [] := by
    unfold lo
    rw [filter_eq_nil_iff]
    intro y hy
    have := h y hy
    simp only [decide_eq_true_eq]
    omega
  rw [insertAt, hhi, hlo]

variable {a b : List α}

theorem level_append_cons (hx : rank x = c) :
    level rank c (a ++ x :: b) = level rank c a ++ x :: level rank c b := by
  unfold level
  rw [filter_append, filter_cons_of_pos (by simp [hx])]

theorem level_remove_of_ne (hx : rank x ≠ c) :
    level rank c (a ++ x :: b) = level rank c (a ++ b) := by
  unfold level
  rw [filter_append, filter_append, filter_cons_of_neg (by simp [hx])]

/-- Nothing ranks below the threshold where the last member does not. -/
theorem lo_eq_nil_iff (h : Ranked rank l) (hy : l.getLast? = some y) :
    lo rank t l = [] ↔ t ≤ rank y := by
  constructor
  · intro hnil
    by_contra hlt
    have hmem : y ∈ lo rank t l :=
      mem_lo.mpr ⟨mem_of_getLast? hy, by omega⟩
    rw [hnil] at hmem
    cases hmem
  · intro hle
    cases hlo : lo rank t l with
    | nil => rfl
    | cons z rest =>
      have hl := hi_append_lo h t
      rw [← hl, getLast?_append, hlo] at hy
      have hlast : (z :: rest).getLast? = some y := by
        cases hrest : (z :: rest).getLast? with
        | none => simp at hrest
        | some w =>
          rw [hrest, Option.some_or] at hy
          exact hy
      have hmem := mem_of_getLast? hlast
      rw [← hlo] at hmem
      have := (mem_lo.mp hmem).2
      omega

/--
A member keeps the order between two parts where it ranks between the member
before it and the member behind it.
-/
theorem ranked_insert_iff (h : Ranked rank (a ++ b)) :
    Ranked rank (a ++ x :: b) ↔ (∀ y, a.getLast? = some y → rank x ≤ rank y) ∧
      ∀ y, b.head? = some y → rank y ≤ rank x := by
  rcases pairwise_append.mp h with ⟨ha, hb, hab⟩
  constructor
  · intro hall
    rcases pairwise_append.mp hall with ⟨_, hxb, hax⟩
    constructor
    · intro y hy
      exact hax y (mem_of_getLast? hy) x (by simp)
    · intro y hy
      exact (pairwise_cons.mp hxb).1 y (mem_of_head? hy)
  · rintro ⟨hlast, hhead⟩
    have hbefore : ∀ y ∈ a, rank x ≤ rank y := by
      intro y hy
      obtain ⟨init, z, rfl⟩ : ∃ init z, a = init ++ [z] :=
        (eq_nil_or_concat' a).resolve_left (ne_nil_of_mem hy)
      have hz := hlast z (by simp)
      rcases mem_append.mp hy with hy | hy
      · have := (pairwise_append.mp ha).2.2 y hy z (by simp)
        omega
      · rwa [mem_singleton.mp hy]
    have hbehind : ∀ y ∈ b, rank y ≤ rank x := by
      intro y hy
      cases b with
      | nil => cases hy
      | cons z rest =>
        have hz := hhead z rfl
        rcases mem_cons.mp hy with rfl | hy
        · exact hz
        · have := (pairwise_cons.mp hb).1 y hy
          omega
    refine pairwise_append.mpr ⟨ha, pairwise_cons.mpr ⟨hbehind, hb⟩, ?_⟩
    intro y hy z hz
    rcases mem_cons.mp hz with rfl | hz
    · exact hbefore y hy
    · exact hab y hy z hz

/-- Behind a member of another level none of the level comes. -/
theorem level_eq_nil (h : Ranked rank (x :: b)) (hne : ∀ y, b.head? = some y → rank y ≠ rank x) :
    level rank (rank x) b = [] := by
  cases b with
  | nil => rfl
  | cons y rest =>
    have hy := hne y rfl
    rcases pairwise_cons.mp h with ⟨hx, hrest⟩
    have hle := hx y (by simp)
    unfold level
    rw [filter_eq_nil_iff]
    intro z hz
    rw [decide_eq_true_eq]
    rcases mem_cons.mp hz with rfl | hz
    · exact hy
    · have := (pairwise_cons.mp hrest).1 z hz
      omega

/-- The members above a level, those of the level and those below. -/
theorem hi_append_level_append_lo (h : Ranked rank l) (c : Nat) :
    hi rank (c + 1) l ++ level rank c l ++ lo rank c l = l := by
  have hcut := hi_append_lo (h.filter fun x => decide (rank x < c + 1)) c
  have hlevel : hi rank c (l.filter fun x => decide (rank x < c + 1)) = level rank c l := by
    unfold hi level
    rw [filter_filter]
    apply filter_congr
    intro y _
    by_cases hy : rank y = c
    · simp [hy]
    · simp only [hy, decide_false, Bool.and_eq_false_imp, decide_eq_true_eq,
        decide_eq_false_iff_not]
      omega
  have hlo : lo rank c (l.filter fun x => decide (rank x < c + 1)) = lo rank c l := by
    unfold lo
    rw [filter_filter]
    apply filter_congr
    intro y _
    by_cases hy : rank y < c
    · have : rank y < c + 1 := by omega
      simp [hy, this]
    · simp [hy]
  rw [hlevel, hlo] at hcut
  rw [append_assoc, hcut]
  exact hi_append_lo h (c + 1)

/-- A ranked list is the concatenation of its levels. -/
theorem flat_level (h : Ranked rank l) (hn : ∀ y ∈ l, rank y ≤ n) :
    flat (fun c => level rank c l) n = l := by
  induction n generalizing l with
  | zero =>
    unfold flat level
    rw [filter_eq_self]
    intro y hy
    have := hn y hy
    simp only [decide_eq_true_eq]
    omega
  | succ n ih =>
    have hl := hi_append_lo h (n + 1)
    have hhi : hi rank (n + 1) l = level rank (n + 1) l := by
      apply filter_congr
      intro y hy
      have := hn y hy
      simp only [decide_eq_decide]
      omega
    have hlevels : ∀ k, k ≤ n → flat (fun c => level rank c l) k =
          flat (fun c => level rank c (lo rank (n + 1) l)) k := by
      intro k
      induction k with
      | zero =>
        intro _
        exact (level_lo_of_lt (by omega)).symm
      | succ k ihk =>
        intro hk
        unfold flat
        rw [ihk (by omega), level_lo_of_lt (by omega)]
    have hrest := ih (h.filter fun x => decide (rank x < n + 1)) (by
        intro y hy
        have := (mem_lo.mp hy).2
        omega)
    unfold flat
    rw [hlevels n (Nat.le_refl n), ← hhi]
    change flat (fun c => level rank c (lo rank (n + 1) l)) n = lo rank (n + 1) l at hrest
    rw [hrest, hl]

end RankedList
end Svr4
