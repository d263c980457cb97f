import Svr4.Semaphore.Undo

/-!
# Lists of adjust-on-exit records

The records of one undo structure, seen as the map from semaphores to their
adjustment.  A list in order is determined by that map, and looking up,
inserting, changing, deleting and purging records are operations on the map.
-/

namespace Svr4
namespace Semaphore

open List

/-!
## Shorts
-/

theorem short_of_range {x : Int} (hlow : -32768 ≤ x) (hhigh : x < 32768) : short x = x := by
  unfold short
  rw [Int.bmod_def]
  split <;> omega

theorem short_short_add (x y : Int) : short (short x + y) = short (x + y) := by
  simp [short]

/-!
## The order of the records
-/

def Undo.Precedes (e f : Undo) : Prop :=
  e.before f.unId f.unNum

variable {e : Undo}

theorem Undo.Precedes.trans {f g : Undo} (hef : e.Precedes f)
    (hfg : f.Precedes g) : e.Precedes g := by
  unfold Undo.Precedes Undo.before at *
  omega

theorem Undo.Precedes.irrefl (e : Undo) : ¬ e.Precedes e := by
  unfold Undo.Precedes Undo.before
  omega

/-- The records of one structure are sorted, few, and within the limit. -/
structure RecordsOk (si : SemInfo) (ents : List Undo) : Prop where
  sorted : ents.Pairwise Undo.Precedes
  length_le : ents.length ≤ si.semume
  ne_zero : ∀ e ∈ ents, e.unAoe ≠ 0
  aoe_le : ∀ e ∈ ents, e.unAoe ≤ si.semaem ∧ -si.semaem ≤ e.unAoe

theorem RecordsOk.nil (si : SemInfo) : RecordsOk si [] where
  sorted := List.Pairwise.nil
  length_le := Nat.zero_le _
  ne_zero e he := by cases he
  aoe_le e he := by cases he

variable {si : SemInfo} {ents ents' : List Undo}

theorem RecordsOk.sublist (hok : RecordsOk si ents) (hsub : ents'.Sublist ents) :
    RecordsOk si ents' where
  sorted := hok.sorted.sublist hsub
  length_le := Nat.le_trans hsub.length_le hok.length_le
  ne_zero e he := hok.ne_zero e (hsub.subset he)
  aoe_le e he := hok.aoe_le e (hsub.subset he)

/-!
## The adjustment map
-/

/-- The adjustment recorded for a semaphore; none is zero. -/
def aoe (ents : List Undo) (id : Int) (num : Nat) : Int :=
  ((ents.find? fun e => e.isFor id num).map Undo.unAoe).getD 0

@[simp] theorem aoe_nil (id : Int) (num : Nat) : aoe [] id num = 0 := rfl

variable {id : Int} {num : Nat}

theorem aoe_of_notFor (hnone : ∀ e ∈ ents, ¬ e.isFor id num) : aoe ents id num = 0 := by
  unfold aoe
  rw [find?_eq_none.mpr (by simpa using hnone)]
  rfl

theorem aoe_middle {front : List Undo} (back : List Undo) (hfront : ∀ f ∈ front, ¬ f.isFor id num)
    (he : e.isFor id num) : aoe (front ++ e :: back) id num = e.unAoe := by
  unfold aoe
  rw [find?_append, find?_eq_none.mpr (by simpa using hfront)]
  simp [he]

theorem aoe_other (front back : List Undo) (he : ¬ e.isFor id num) :
    aoe (front ++ e :: back) id num = aoe (front ++ back) id num := by
  unfold aoe
  rw [find?_append, find?_append, find?_cons_of_neg (by simpa using he)]

theorem exists_of_aoe_ne_zero (h : aoe ents id num ≠ 0) :
    ∃ e ∈ ents, e.isFor id num ∧ e.unAoe = aoe ents id num := by
  unfold aoe at h ⊢
  cases hfind : ents.find? (fun e => e.isFor id num) with
  | none =>
    rw [hfind] at h
    exact absurd rfl h
  | some e =>
    have hfor := find?_some hfind
    exact ⟨e, mem_of_find?_eq_some hfind, by simpa using hfor, rfl⟩

theorem aoe_of_mem (hsorted : ents.Pairwise Undo.Precedes)
    (he : e ∈ ents) : aoe ents e.unId e.unNum = e.unAoe := by
  rcases append_of_mem he with ⟨front, back, rfl⟩
  apply aoe_middle
  · intro f hf hfor
    have hprec := (pairwise_append.mp hsorted).2.2 f hf e (by simp)
    unfold Undo.Precedes Undo.before at hprec
    unfold Undo.isFor at hfor
    omega
  · exact ⟨rfl, rfl⟩

theorem RecordsOk.mem_iff (hok : RecordsOk si ents) (e : Undo) :
    e ∈ ents ↔ e.unAoe ≠ 0 ∧ aoe ents e.unId e.unNum = e.unAoe := by
  constructor
  · intro he
    exact ⟨hok.ne_zero e he, aoe_of_mem hok.sorted he⟩
  · rintro ⟨hne, haoe⟩
    rw [← haoe] at hne
    rcases exists_of_aoe_ne_zero hne with ⟨f, hf, ⟨hid, hnum⟩, hfaoe⟩
    have hfe : f = e := by
      cases f
      cases e
      simp_all
    exact hfe ▸ hf

theorem RecordsOk.aoe_range (hok : RecordsOk si ents) (id : Int) (num : Nat) :
    aoe ents id num ≤ si.semaem ∧ -si.semaem ≤ aoe ents id num := by
  by_cases hzero : aoe ents id num = 0
  · omega
  · rcases exists_of_aoe_ne_zero hzero with ⟨e, he, _, heq⟩
    rw [← heq]
    exact hok.aoe_le e he

theorem RecordsOk.ext (hok : RecordsOk si ents) (hok' : RecordsOk si ents')
    (haoe : ∀ id num, aoe ents id num = aoe ents' id num) : ents = ents' := by
  have hnodup : ∀ {l : List Undo}, l.Pairwise Undo.Precedes → l.Nodup := by
    intro l hl
    apply hl.imp
    rintro e f hef rfl
    exact Undo.Precedes.irrefl e hef
  have hmem : ∀ e, e ∈ ents ↔ e ∈ ents' := by
    intro e
    rw [hok.mem_iff, hok'.mem_iff, haoe]
  have hperm : ents.Perm ents' :=
    (perm_ext_iff_of_nodup (hnodup hok.sorted) (hnodup hok'.sorted)).mpr hmem
  apply hperm.eq_of_pairwise _ hok.sorted hok'.sorted
  intro e f _ _ hef hfe
  exact absurd (hef.trans hfe) (Undo.Precedes.irrefl e)

/-!
## Looking up the place of a semaphore
-/

def Undo.after (id : Int) (num : Nat) (e : Undo) : Prop :=
  id < e.unId ∨ (id = e.unId ∧ num < e.unNum)

structure Found (id : Int) (num : Nat) (ents front : List Undo)
    (found : Option Undo) (back : List Undo) : Prop where
  split : ents = front ++ found.toList ++ back
  isFor : ∀ e ∈ found, e.isFor id num
  before : ∀ e ∈ front, e.before id num
  after : ∀ e ∈ back, e.after id num

theorem search_spec (id : Int) (num : Nat) (hsorted : ents.Pairwise Undo.Precedes) :
    Found id num ents (search id num ents).1 (search id num ents).2.1 (search id num ents).2.2 := by
  induction ents with
  | nil => constructor <;> simp [search]
  | cons e rest ih =>
    rcases pairwise_cons.mp hsorted with ⟨hhead, hrest⟩
    by_cases hbefore : e.before id num
    · have htail := ih hrest
      simp only [search, hbefore, if_true]
      constructor
      · rw [cons_append, cons_append, ← htail.split]
      · exact htail.isFor
      · intro f hf
        rcases mem_cons.mp hf with rfl | hf
        · exact hbefore
        · exact htail.before f hf
      · exact htail.after
    · by_cases hfor : e.isFor id num
      · simp only [search, hbefore, hfor, if_true, if_false]
        constructor
        · simp
        · simpa using hfor
        · simp
        · intro f hf
          have hprec := hhead f hf
          unfold Undo.Precedes Undo.before at hprec
          unfold Undo.isFor at hfor
          unfold Undo.after
          omega
      · have hafter : e.after id num := by
          unfold Undo.before at hbefore
          unfold Undo.isFor at hfor
          unfold Undo.after
          omega
        simp only [search, hbefore, hfor, if_false]
        constructor
        · simp
        · simp
        · simp
        · intro f hf
          rcases mem_cons.mp hf with rfl | hf
          · exact hafter
          · have hprec := hhead f hf
            unfold Undo.Precedes Undo.before at hprec
            unfold Undo.after at hafter ⊢
            omega

section Place

variable {si : SemInfo} {id : Int} {num : Nat} {ents front back : List Undo}
  {found : Option Undo}

section

variable (hfound : Found id num ents front found back)
include hfound

theorem Found.front_notFor :
    ∀ e ∈ front, ¬ e.isFor id num := by
  intro e he hfor
  have hbefore := hfound.before e he
  unfold Undo.before at hbefore
  unfold Undo.isFor at hfor
  omega

theorem Found.back_notFor :
    ∀ e ∈ back, ¬ e.isFor id num := by
  intro e he hfor
  have hafter := hfound.after e he
  unfold Undo.after at hafter
  unfold Undo.isFor at hfor
  omega

theorem Found.without :
    aoe (front ++ back) id num = 0 := by
  apply aoe_of_notFor
  intro e he
  rcases mem_append.mp he with he | he
  · exact hfound.front_notFor e he
  · exact hfound.back_notFor e he

theorem Found.aoe_eq :
    aoe ents id num = (found.map Undo.unAoe).getD 0 := by
  rw [hfound.split]
  cases hcase : found with
  | none =>
    simpa using hfound.without
  | some e =>
    have hfor := hfound.isFor e (by simp [hcase])
    simpa using aoe_middle back hfound.front_notFor hfor

theorem Found.aoe_off {id' : Int}
    {num' : Nat} (hoff : ¬ (id' = id ∧ num' = num)) :
    aoe (front ++ back) id' num' = aoe ents id' num' := by
  rw [hfound.split]
  cases hcase : found with
  | none => simp
  | some e =>
    have hfor := hfound.isFor e (by simp [hcase])
    have hnot : ¬ e.isFor id' num' := by
      unfold Undo.isFor at hfor ⊢
      omega
    simpa using (aoe_other front back hnot).symm

theorem Found.put
    (hok : RecordsOk si ents) (hroom : found = none → ents.length < si.semume)
    {a : Int} (hne : a ≠ 0) (hhigh : a ≤ si.semaem) (hlow : -si.semaem ≤ a) :
    RecordsOk si (front ++ { unId := id, unNum := num, unAoe := a } :: back) := by
  have hsub : (front ++ back).Sublist ents := by
    rw [hfound.split, append_assoc]
    exact (sublist_append_right _ _).append_left front
  have hrest := hok.sublist hsub
  have hlength : (front ++ back).length + 1 ≤ si.semume := by
    have hle := hok.length_le
    have hsplit := congrArg List.length hfound.split
    cases hcase : found with
    | none =>
      have := hroom hcase
      simp only [hcase, Option.toList_none, append_nil] at hsplit
      omega
    | some e =>
      simp only [hcase, Option.toList_some, length_append, length_cons, length_nil] at hsplit
      simp only [length_append]
      omega
  have hmem : ∀ e, e ∈ front ++ { unId := id, unNum := num, unAoe := a } :: back
      → e = { unId := id, unNum := num, unAoe := a } ∨ e ∈ front ++ back := by
    intro e he
    simp only [mem_append, mem_cons] at he ⊢
    tauto
  rcases pairwise_append.mp hrest.sorted with ⟨hfront, hback, hcross⟩
  constructor
  · apply pairwise_append.mpr
    refine ⟨hfront, ?_, ?_⟩
    · apply pairwise_cons.mpr
      exact ⟨fun e he => hfound.after e he, hback⟩
    · intro e he f hf
      rcases mem_cons.mp hf with rfl | hf
      · exact hfound.before e he
      · exact hcross e he f hf
  · simpa [Nat.add_assoc] using hlength
  · intro e he
    rcases hmem e he with rfl | he
    · exact hne
    · exact hrest.ne_zero e he
  · intro e he
    rcases hmem e he with rfl | he
    · exact ⟨hhigh, hlow⟩
    · exact hrest.aoe_le e he

theorem Found.aoe_put (a : Int)
    (id' : Int) (num' : Nat) :
    aoe (front ++ { unId := id, unNum := num, unAoe := a } :: back) id' num' =
      if id' = id ∧ num' = num then a else aoe ents id' num' := by
  by_cases hkey : id' = id ∧ num' = num
  · rcases hkey with ⟨rfl, rfl⟩
    rw [if_pos ⟨rfl, rfl⟩]
    exact aoe_middle back hfound.front_notFor ⟨rfl, rfl⟩
  · rw [if_neg hkey, ← hfound.aoe_off hkey]
    apply aoe_other
    rintro ⟨hid, hnum⟩
    exact hkey ⟨hid.symm, hnum.symm⟩

theorem Found.aoe_drop (id' : Int) (num' : Nat) :
    aoe (front ++ back) id' num' = if id' = id ∧ num' = num then 0 else aoe ents id' num' := by
  by_cases hkey : id' = id ∧ num' = num
  · rcases hkey with ⟨rfl, rfl⟩
    rw [if_pos ⟨rfl, rfl⟩]
    exact hfound.without
  · rw [if_neg hkey]
    exact hfound.aoe_off hkey

end

end Place

/-!
## Purging a range of semaphores
-/

def Undo.within (id : Int) (low high : Nat) (e : Undo) : Prop :=
  e.unId = id ∧ low ≤ e.unNum ∧ e.unNum ≤ high

instance (id : Int) (low high : Nat) (e : Undo) :
    Decidable (e.within id low high) := by
  unfold Undo.within
  infer_instance

/-- On sorted records the early exits of the loop lose nothing. -/
theorem purge_eq_filter (id : Int) (low high : Nat) (hsorted : ents.Pairwise Undo.Precedes) :
    purge id low high ents = ents.filter fun e => ¬ e.within id low high := by
  induction ents with
  | nil => rfl
  | cons e rest ih =>
    rcases pairwise_cons.mp hsorted with ⟨hhead, hrest⟩
    -- Where the loop stops, no later record is within the range.
    have hstop : ∀ {f : Undo}, f ∈ rest → (id < e.unId ∨ (id = e.unId ∧ high < e.unNum)) →
        ¬ f.within id low high := by
      intro f hf hlate hwithin
      have hprec := hhead f hf
      unfold Undo.Precedes Undo.before at hprec
      unfold Undo.within at hwithin
      omega
    unfold purge
    by_cases hless : id < e.unId
    · rw [if_pos hless, filter_eq_self.mpr]
      intro f hf
      rcases mem_cons.mp hf with rfl | hf
      · unfold Undo.within
        simp only [decide_eq_true_eq]
        omega
      · simpa using hstop hf (Or.inl hless)
    · rw [if_neg hless]
      by_cases hskip : id > e.unId ∨ low > e.unNum
      · have hnot : ¬ e.within id low high := by
          unfold Undo.within
          omega
        rw [if_pos hskip, filter_cons_of_pos (by simpa using hnot), ih hrest]
      · rw [if_neg hskip]
        by_cases hhigh : high < e.unNum
        · rw [if_pos hhigh, filter_eq_self.mpr]
          intro f hf
          rcases mem_cons.mp hf with rfl | hf
          · unfold Undo.within
            simp only [decide_eq_true_eq]
            omega
          · have hlate : id = e.unId ∧ high < e.unNum := by omega
            simpa using hstop hf (Or.inr hlate)
        · have hwithin : e.within id low high := by
            unfold Undo.within
            omega
          rw [if_neg hhigh, filter_cons_of_neg (by simpa using hwithin), ih hrest]

theorem purge_ok (id : Int) (low high : Nat)
    (hok : RecordsOk si ents) : RecordsOk si (purge id low high ents) := by
  rw [purge_eq_filter id low high hok.sorted]
  exact hok.sublist filter_sublist

theorem aoe_purge (id : Int) (low high : Nat) (hsorted : ents.Pairwise Undo.Precedes) (id' : Int)
    (num : Nat) : aoe (purge id low high ents) id' num =
      if id' = id ∧ low ≤ num ∧ num ≤ high then 0 else aoe ents id' num := by
  rw [purge_eq_filter id low high hsorted]
  split_ifs with hrange
  · apply aoe_of_notFor
    intro e he hfor
    have hnot := mem_filter.mp he
    simp only [decide_eq_true_eq] at hnot
    apply hnot.2
    unfold Undo.isFor at hfor
    unfold Undo.within
    omega
  · unfold aoe
    rw [find?_filter]
    congr 3
    funext e
    by_cases hfor : e.isFor id' num
    · have hnot : ¬ e.within id low high := by
        unfold Undo.isFor at hfor
        unfold Undo.within
        omega
      simp [hfor, hnot]
    · simp [hfor]

end Semaphore
end Svr4
