import Mathlib.Data.List.Nodup

/-!
# Singly linked chains

A chain is threaded through a next pointer `np`, with `none` for the
null pointer.  The relation `Chain np h l t` says that the pointer
`h` leads through the nodes `l`, in this order, to the pointer
`t`.  This module develops the pointer operations on chains that end in
the null pointer: pushing a node, and unlinking a node found through its
predecessor.
-/

namespace Svr4

open Function List

/-- The pointer `h` leads through the nodes `l` to `t`. -/
def Chain {κ : Type*} (np : κ → Option κ) :
    Option κ → List κ → Option κ → Prop
  | h, [], t => h = t
  | h, k :: rest, t => h = some k ∧ Chain np (np k) rest t

namespace Chain

variable {κ : Type*} {np np' : κ → Option κ} {h t : Option κ} {l : List κ}

@[simp] theorem nil_iff : Chain np h [] t ↔ h = t := Iff.rfl

variable {k j : κ}

@[simp] theorem cons_iff : Chain np h (k :: l) t ↔ h = some k ∧ Chain np (np k) l t := Iff.rfl

theorem append_iff {a b : List κ} :
    Chain np h (a ++ b) t ↔ ∃ m, Chain np h a m ∧ Chain np m b t := by
  induction a generalizing h with
  | nil => simp
  | cons k rest ih =>
    simp only [cons_append, cons_iff, ih]
    constructor
    · rintro ⟨hk, m, hfront, hback⟩
      exact ⟨m, ⟨hk, hfront⟩, hback⟩
    · rintro ⟨m, ⟨hk, hfront⟩, hback⟩
      exact ⟨hk, m, hfront, hback⟩

/-- Only the next pointers of the nodes of a chain matter. -/
theorem congr (hchain : Chain np h l t) (hagree : ∀ k ∈ l, np' k = np k) : Chain np' h l t := by
  induction l generalizing h with
  | nil => exact hchain
  | cons k rest ih =>
    rcases hchain with ⟨hk, hrest⟩
    refine ⟨hk, ?_⟩
    rw [hagree k (by simp)]
    exact ih hrest fun j hj => hagree j (by simp [hj])

theorem head_unique {h' : Option κ} (hchain : Chain np h l t)
    (hchain' : Chain np h' l t) : h = h' := by
  cases l with
  | nil => exact hchain.trans (nil_iff.mp hchain').symm
  | cons k rest => exact hchain.1.trans hchain'.1.symm

theorem end_unique {t' : Option κ} (hchain : Chain np h l t)
    (hchain' : Chain np h l t') : t = t' := by
  induction l generalizing h with
  | nil => exact (nil_iff.mp hchain).symm.trans hchain'
  | cons k rest ih => exact ih hchain.2 hchain'.2

variable {l' front back : List κ}

/-- A chain up to the first arrival at its end is determined by its head. -/
theorem unique_of_end (hchain : Chain np h l t) (hchain' : Chain np h l' t)
    (hend : ∀ k ∈ l, some k ≠ t) (hend' : ∀ k ∈ l', some k ≠ t) : l = l' := by
  induction l generalizing h l' with
  | nil =>
    cases l' with
    | nil => rfl
    | cons k rest =>
      rcases hchain' with ⟨hk, _⟩
      rw [nil_iff.mp hchain] at hk
      exact absurd hk.symm (hend' k (by simp))
  | cons k rest ih =>
    rcases hchain with ⟨hk, hrest⟩
    cases l' with
    | nil =>
      rw [nil_iff.mp hchain'] at hk
      exact absurd hk.symm (hend k (by simp))
    | cons k' rest' =>
      rcases hchain' with ⟨hk', hrest'⟩
      obtain rfl : k = k' := by
        rw [hk] at hk'
        exact Option.some.inj hk'
      rw [ih hrest hrest' (fun j hj => hend j (by simp [hj])) fun j hj => hend' j (by simp [hj])]

/-- A null-terminated chain is determined by its head. -/
theorem unique (hchain : Chain np h l none) (hchain' : Chain np h l' none) : l = l' :=
  unique_of_end hchain hchain' (by simp) (by simp)

/-- No node occurs twice before the first arrival at the end. -/
theorem nodup_of_end (hchain : Chain np h l t) (hend : ∀ k ∈ l, some k ≠ t) :
    l.Nodup := by
  induction l generalizing h with
  | nil => exact nodup_nil
  | cons k rest ih =>
    rcases hchain with ⟨_, hrest⟩
    have hend' : ∀ j ∈ rest, some j ≠ t := fun j hj => hend j (by simp [hj])
    refine nodup_cons.mpr ⟨?_, ih hrest hend'⟩
    intro hk
    rcases append_of_mem hk with ⟨front, back, hsplit⟩
    have hlater : Chain np (np k) back t := by
      rw [hsplit] at hrest
      rcases append_iff.mp hrest with ⟨_, _, _, hback⟩
      exact hback
    have hsame : rest = back := by
      apply unique_of_end hrest hlater hend'
      intro j hj
      exact hend' j (by simp [hsplit, hj])
    have hlength := congrArg List.length hsame
    rw [hsplit] at hlength
    simp only [length_append, length_cons] at hlength
    omega

theorem nodup (hchain : Chain np h l none) : l.Nodup :=
  nodup_of_end hchain (by simp)

variable [DecidableEq κ]

theorem push (hchain : Chain np h l t) (hk : k ∉ l) :
    Chain (update np k h) (some k) (k :: l) t := by
  refine ⟨rfl, ?_⟩
  rw [update_self]
  apply hchain.congr
  intro j hj
  apply update_of_ne
  intro heq
  exact hk (heq ▸ hj)

theorem update_of_notMem {p : Option κ} (hchain : Chain np h l t)
    (hk : k ∉ l) : Chain (update np k p) h l t := by
  apply hchain.congr
  intro j hj
  apply update_of_ne
  intro heq
  exact hk (heq ▸ hj)

/-- Redirect the next pointer of the last node of a segment. -/
theorem redirect {m m' : Option κ} (hchain : Chain np h (l ++ [k]) m)
    (hk : k ∉ l) : Chain (update np k m') h (l ++ [k]) m' := by
  rcases append_iff.mp hchain with ⟨p, hfront, hlast, _⟩
  apply append_iff.mpr
  refine ⟨p, hfront.update_of_notMem hk, hlast, ?_⟩
  exact update_self k m' np

/-- Append a node behind the last one. -/
theorem snoc {last : κ} (hchain : Chain np h l none) (hk : k ∉ l) (hlast : l.getLast? = some last) :
    Chain (update (update np k none) last (some k)) h (l ++ [k]) none := by
  rcases getLast?_eq_some_iff.mp hlast with ⟨front, rfl⟩
  have hnodup := hchain.nodup
  have hfront : last ∉ front := by
    intro hmem
    rw [nodup_append] at hnodup
    exact hnodup.2.2 last hmem last (by simp) rfl
  have hne : k ≠ last := by
    rintro rfl
    exact hk (by simp)
  refine append_iff.mpr ⟨some k, ?_, rfl, ?_⟩
  · exact (hchain.update_of_notMem hk).redirect hfront
  · rw [update_of_ne hne, update_self]
    rfl

/-- Bridge over a node behind its predecessor. -/
theorem bypass (hchain : Chain np h (front ++ [j] ++ k :: back) none) :
    Chain (update np j (np k)) h (front ++ [j] ++ back) none := by
  have hnodup := hchain.nodup
  rw [nodup_append, nodup_append] at hnodup
  have hfront : j ∉ front := fun hmem => hnodup.1.2.2 j hmem j (by simp) rfl
  have hback : j ∉ back := fun hmem => hnodup.2.2 j (by simp) j (by simp [hmem]) rfl
  rcases append_iff.mp hchain with ⟨m, hleft, rfl, hright⟩
  exact append_iff.mpr ⟨np k, hleft.redirect hfront, hright.update_of_notMem hback⟩

/-!
## Searching
-/

/-- The first node of a chain that meets a condition. -/
def seek (np : κ → Option κ) (c : κ → Bool) : Nat → Option κ → Option (Option κ)
  | _, none => some none
  | 0, some _ => none
  | fuel + 1, some k => if c k then some (some k) else seek np c fuel (np k)

omit [DecidableEq κ] in
theorem seek_eq {fuel : Nat} (hchain : Chain np h l none) (c : κ → Bool)
    (hfuel : l.length ≤ fuel) : seek np c fuel h = some (l.find? c) := by
  induction l generalizing h fuel with
  | nil =>
    rw [show h = none from hchain]
    cases fuel <;> rfl
  | cons k l ih =>
    obtain ⟨rest, rfl⟩ : ∃ n, fuel = n + 1 := ⟨fuel - 1, by
      rw [length_cons] at hfuel
      omega⟩
    rw [length_cons] at hfuel
    rcases hchain with ⟨rfl, hrest⟩
    by_cases hk : c k = true
    · rw [find?_cons_of_pos hk, seek, if_pos hk]
    · rw [find?_cons_of_neg hk, seek, if_neg hk]
      exact ih hrest (by omega)

/-!
## Unlinking through the predecessor
-/

/--
Search the nodes from `p` on for the predecessor of `k` and unlink
`k` from it.  The search takes at most `fuel` nodes; it has no result
where the chain is longer.
-/
def unlinkAfter (np : κ → Option κ) (k : κ) :
    Nat → Option κ → Option (κ → Option κ)
  | _, none => some np
  | 0, some _ => none
  | fuel + 1, some j =>
    if np j = some k then some (update np j (np k))
    else unlinkAfter np k fuel (np j)

/-- Unlink `k` from the chain at `head`; the new head comes first. -/
def unlink (np : κ → Option κ) (fuel : Nat) (head : Option κ) (k : κ) :
    Option (Option κ × (κ → Option κ)) :=
  if head = some k then some (np k, np)
  else (unlinkAfter np k fuel head).map fun np' => (head, np')

/-- The predecessor search, with the node to unlink somewhere behind it. -/
theorem unlinkAfter_spec (fuel : Nat) (hchain : Chain np h (j :: front ++ k :: back) none)
    (hfuel : front.length < fuel) :
    ∃ np', unlinkAfter np k fuel h = some np' ∧ Chain np' h (j :: front ++ back) none ∧
      ∀ i, i ∉ j :: front → np' i = np i := by
  induction front generalizing h j fuel with
  | nil =>
    obtain ⟨rest, rfl⟩ : ∃ n, fuel = n + 1 := ⟨fuel - 1, by omega⟩
    have hnodup := hchain.nodup
    rcases hchain with ⟨rfl, hj, hback⟩
    refine ⟨update np j (np k), by simp [unlinkAfter, hj], ?_, ?_⟩
    · refine ⟨rfl, ?_⟩
      rw [update_self]
      apply hback.update_of_notMem
      simp only [cons_append, nil_append, nodup_cons, mem_cons, not_or] at hnodup
      exact hnodup.1.2
    · intro i hi
      exact update_of_ne (by simpa using hi) _ _
  | cons i front ih =>
    obtain ⟨rest, rfl⟩ : ∃ n, fuel = n + 1 := ⟨fuel - 1, by omega⟩
    have hnodup := hchain.nodup
    rcases hchain with ⟨rfl, hrest⟩
    have hi : np j = some i := hrest.1
    have hik : i ≠ k := by
      simp only [cons_append, nodup_cons, mem_append, mem_cons, not_or] at hnodup
      exact hnodup.2.1.2.1
    rcases ih rest hrest (by simpa using hfuel) with ⟨np', hrun, hlinked, hframe⟩
    have hj : j ∉ i :: front := by
      simp only [cons_append, nodup_cons, mem_append, mem_cons, not_or] at hnodup
      simp only [mem_cons, not_or]
      exact ⟨hnodup.1.1, hnodup.1.2.1⟩
    refine ⟨np', ?_, ?_, ?_⟩
    · have hne : np j ≠ some k := by simp [hi, hik]
      simp [unlinkAfter, hne, hrun]
    · refine ⟨rfl, ?_⟩
      rw [hframe j hj]
      exact hlinked
    · intro i' hi'
      apply hframe
      intro hmem
      exact hi' (mem_cons_of_mem j hmem)

/-- Unlinking a node of a chain leaves the other nodes in their order. -/
theorem unlink_spec {fuel : Nat} (hchain : Chain np h l none) (hk : k ∈ l)
    (hfuel : l.length ≤ fuel) : ∃ h' np', unlink np fuel h k = some (h', np') ∧
      Chain np' h' (l.erase k) none ∧ ∀ i, i ∉ l → np' i = np i := by
  rcases append_of_mem hk with ⟨front, back, rfl⟩
  have hnodup := hchain.nodup
  have hfront : k ∉ front := by
    intro hmem
    rw [nodup_append] at hnodup
    exact hnodup.2.2 k hmem k (by simp) rfl
  rw [erase_append_right _ hfront, erase_cons_head]
  cases front with
  | nil =>
    rcases hchain with ⟨rfl, hback⟩
    exact ⟨np k, np, by simp [unlink], hback, fun i _ => rfl⟩
  | cons j front =>
    have hjk : h ≠ some k := by
      rcases hchain with ⟨rfl, _⟩
      intro heq
      exact hfront (by simp [Option.some.inj heq])
    have hroom : front.length < fuel := by
      simp only [length_append, length_cons] at hfuel
      omega
    rcases unlinkAfter_spec fuel hchain hroom with ⟨np', hrun, hlinked, hframe⟩
    refine ⟨h, np', by simp [unlink, hjk, hrun], hlinked, ?_⟩
    intro i hi
    apply hframe
    intro hmem
    exact hi (mem_append_left _ hmem)

end Chain
end Svr4
