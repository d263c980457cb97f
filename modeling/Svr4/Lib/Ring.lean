import Mathlib.Data.List.Nodup

/-!
# Rings

A ring is a doubly linked list that comes back to its head: the nodes `l`
lie between the head and itself, and no pointer is null.  This module develops
what a ring looks like around a place, and how a node is taken out of one and
put into one.
-/

namespace Svr4
namespace Rings

open Function List

/-- The nodes from `x` over `l` to `y` are linked both ways. -/
def Linked {κ : Type*} (next prev : κ → κ) : κ → List κ → κ → Prop
  | x, [], y => next x = y ∧ prev y = x
  | x, k :: l, y => (next x = k ∧ prev k = x) ∧ Linked next prev k l y

/-- The ring at `h`. -/
structure Closed {κ : Type*} (next prev : κ → κ) (h : κ) (l : List κ) : Prop where
  linked : Linked next prev h l h
  nodup : (h :: l).Nodup

variable {κ : Type*} {next prev next' prev' : κ → κ} {h k x y : κ} {l a b : List κ}

theorem Linked.append_iff :
    Linked next prev x (a ++ k :: b) y ↔ Linked next prev x a k ∧ Linked next prev k b y := by
  induction a generalizing x with
  | nil => rfl
  | cons j a ih =>
    exact (and_congr_right fun _ => ih).trans and_assoc.symm

section

variable (hl : Linked next prev x l y)
include hl

/-- Only the pointers that leave one node and arrive at the next matter. -/
theorem Linked.congr (hnext : ∀ z ∈ x :: l, next' z = next z)
    (hprev : ∀ z ∈ l ++ [y], prev' z = prev z) : Linked next' prev' x l y := by
  induction l generalizing x with
  | nil =>
    rcases hl with ⟨hn, hp⟩
    exact ⟨(hnext x mem_cons_self).trans hn, (hprev y (mem_singleton_self y)).trans hp⟩
  | cons k l ih =>
    rcases hl with ⟨⟨hn, hp⟩, hrest⟩
    refine ⟨⟨(hnext x mem_cons_self).trans hn, (hprev k mem_cons_self).trans hp⟩, ih hrest ?_ ?_⟩
    · exact fun z hz => hnext z (mem_cons_of_mem x hz)
    · exact fun z hz => hprev z (mem_cons_of_mem k hz)

theorem Linked.next_eq : next x = l.headD y := by
  cases l with
  | nil => exact hl.1
  | cons k l => exact hl.1.1

theorem Linked.prev_eq : (x :: l).getLast? = some (prev y) := by
  induction l generalizing x with
  | nil => rw [hl.2]; rfl
  | cons k l ih =>
    exact ih hl.2

theorem Linked.prev_mem : prev y ∈ x :: l :=
  mem_of_getLast? hl.prev_eq

theorem Linked.next_mem : next x ∈ l ++ [y] := by
  rw [hl.next_eq]
  cases l with
  | nil => exact mem_singleton_self y
  | cons k l => exact mem_cons_self

end

/-- A node is taken out. -/
theorem Linked.remove [DecidableEq κ] (hl : Linked next prev x (a ++ k :: b) y)
    (hx : x ∉ a ++ k :: b) (hy : y ∉ a ++ k :: b) (hnodup : (a ++ k :: b).Nodup) :
    Linked (update next (prev k) (next k)) (update prev (next k) (prev k)) x (a ++ b) y := by
  induction a generalizing x with
  | nil =>
    rcases hl with ⟨⟨hn, hp⟩, hrest⟩
    rw [hp]
    cases b with
    | nil =>
      refine ⟨?_, ?_⟩
      · rw [update_self]
        exact hrest.1
      · rw [hrest.1, update_self]
    | cons q b =>
      rw [hrest.1.1]
      refine ⟨⟨update_self .., update_self ..⟩, ?_⟩
      refine hrest.2.congr (fun z hz => ?_) fun z hz => ?_
      · apply update_of_ne
        rintro rfl
        exact hx (mem_cons_of_mem k hz)
      · apply update_of_ne
        rintro rfl
        rcases mem_append.mp hz with hz | hz
        · exact (nodup_cons.mp (nodup_cons.mp hnodup).2).1 hz
        · rw [mem_singleton.mp hz] at hy
          exact hy (by simp)
  | cons j a ih =>
    rcases hl with ⟨⟨hn, hp⟩, hrest⟩
    have hj : j ∉ a ++ k :: b := (nodup_cons.mp hnodup).1
    have hsplit := append_iff.mp hrest
    have hpmem := hsplit.1.prev_mem
    have hnmem := hsplit.2.next_mem
    refine ⟨⟨?_, ?_⟩, ih hrest hj (fun h => hy (mem_cons_of_mem j h)) (nodup_cons.mp hnodup).2⟩
    · rw [update_of_ne]
      · exact hn
      · intro heq
        rw [← heq] at hpmem
        rcases mem_cons.mp hpmem with rfl | hmem
        · exact hx mem_cons_self
        · exact hx (mem_cons_of_mem j (mem_append_left _ hmem))
    · rw [update_of_ne]
      · exact hp
      · intro heq
        rw [← heq] at hnmem
        rcases mem_append.mp hnmem with hmem | hmem
        · exact hj (by simp [hmem])
        · rw [mem_singleton.mp hmem] at hy
          exact hy mem_cons_self

variable {p z : κ}

/-- A node is put behind the node `p`. -/
theorem Linked.insert (hl : Linked next prev x (a ++ b) y) (hp : (x :: a).getLast? = some p)
    (hkx : k ∉ x :: (a ++ b)) (hky : k ≠ y) (hx : x ∉ a ++ b) (hy : y ∉ a ++ b)
    (hnodup : (a ++ b).Nodup) (hnextk : next' k = next p) (hnextp : next' p = k)
    (hnext : ∀ z, z ≠ k → z ≠ p → next' z = next z) (hprevk : prev' k = p)
    (hprevq : prev' (next p) = k) (hprev : ∀ z, z ≠ k → z ≠ next p → prev' z = prev z) :
    Linked next' prev' x (a ++ k :: b) y := by
  induction a generalizing x with
  | nil =>
    obtain rfl : x = p := by
      rw [getLast?_singleton] at hp
      exact Option.some.inj hp
    refine ⟨⟨hnextp, hprevk⟩, ?_⟩
    have hkb : k ∉ b := fun h => hkx (mem_cons_of_mem x h)
    cases b with
    | nil =>
      rw [hl.1] at hnextk hprevq
      exact ⟨hnextk, hprevq⟩
    | cons q b =>
      have hq : next x = q := hl.1.1
      rw [hq] at hnextk hprevq hprev
      refine ⟨⟨hnextk, hprevq⟩, hl.2.congr (fun z hz => ?_) fun z hz => ?_⟩
      · refine hnext z ?_ ?_
        · rintro rfl
          exact hkb hz
        · rintro rfl
          exact hx hz
      · refine hprev z ?_ ?_
        · rintro rfl
          rcases mem_append.mp hz with hz | hz
          · exact hkb (mem_cons_of_mem q hz)
          · exact hky (mem_singleton.mp hz)
        · rintro rfl
          rcases mem_append.mp hz with hz | hz
          · exact (nodup_cons.mp hnodup).1 hz
          · exact hy (by rw [mem_singleton.mp hz]; exact mem_cons_self)
  | cons j a ih =>
    rcases hl with ⟨⟨hn, hpj⟩, hrest⟩
    rw [getLast?_cons_cons] at hp
    have hj : j ∉ a ++ b := (nodup_cons.mp hnodup).1
    have hpmem := mem_of_getLast? hp
    have hkj : k ∉ j :: (a ++ b) := fun h => hkx (mem_cons_of_mem x h)
    refine ⟨⟨?_, ?_⟩, ih hrest hp hkj hj (fun h => hy (mem_cons_of_mem j h))
      (nodup_cons.mp hnodup).2⟩
    · refine (hnext x ?_ ?_).trans hn
      · rintro rfl
        exact hkx mem_cons_self
      · rintro rfl
        rcases mem_cons.mp hpmem with rfl | hmem
        · exact hx mem_cons_self
        · exact hx (mem_cons_of_mem j (mem_append_left b hmem))
    · refine (hprev j ?_ ?_).trans hpj
      · rintro rfl
        exact hkj mem_cons_self
      · -- What is behind a node of the rest is not its first node.
        intro heq
        rcases getLast?_eq_some_iff.mp hp with ⟨front, hfront⟩
        have hmem : next p ∈ (a ++ b) ++ [y] := by
          cases front with
          | nil =>
            rcases hfront with ⟨rfl, rfl⟩
            exact hrest.next_mem
          | cons i front =>
            rcases hfront with ⟨rfl, rfl⟩
            have hsplit : Linked next prev j (front ++ p :: b) y := by
              have hall : front ++ [p] ++ b = front ++ p :: b := by simp
              rw [← hall]
              exact hrest
            have hmem := (append_iff.mp hsplit).2.next_mem
            rcases mem_append.mp hmem with hmem | hmem
            · simp [hmem]
            · exact mem_append_right _ hmem
        rw [← heq] at hmem
        rcases mem_append.mp hmem with hmem | hmem
        · exact hj hmem
        · rw [mem_singleton.mp hmem] at hy
          exact hy mem_cons_self

theorem Closed.remove [DecidableEq κ] (hc : Closed next prev h (a ++ k :: b)) :
    Closed (update next (prev k) (next k)) (update prev (next k) (prev k)) h (a ++ b) := by
  have hh := (nodup_cons.mp hc.nodup).1
  have hnodup := (nodup_cons.mp hc.nodup).2
  refine ⟨hc.linked.remove hh hh hnodup, ?_⟩
  exact hc.nodup.sublist ((sublist_cons_self k b).append_left a |>.cons_cons h)

theorem Closed.insert (hc : Closed next prev h (a ++ b)) (hp : (h :: a).getLast? = some p)
    (hk : k ∉ h :: (a ++ b)) (hnextk : next' k = next p) (hnextp : next' p = k)
    (hnext : ∀ z, z ≠ k → z ≠ p → next' z = next z) (hprevk : prev' k = p)
    (hprevq : prev' (next p) = k) (hprev : ∀ z, z ≠ k → z ≠ next p → prev' z = prev z) :
    Closed next' prev' h (a ++ k :: b) := by
  have hh := (nodup_cons.mp hc.nodup).1
  have hnodup := (nodup_cons.mp hc.nodup).2
  have hkh : k ≠ h := by
    rintro rfl
    exact hk mem_cons_self
  refine ⟨hc.linked.insert hp hk hkh hh hh hnodup hnextk hnextp hnext hprevk hprevq hprev, ?_⟩
  rw [nodup_cons, perm_middle.mem_iff, perm_middle.nodup_iff, mem_cons, not_or, nodup_cons]
  exact ⟨⟨hkh.symm, hh⟩, fun hmem => hk (mem_cons_of_mem h hmem), hnodup⟩

theorem Closed.congr (hc : Closed next prev h l) (hnext : ∀ z ∈ h :: l, next' z = next z)
    (hprev : ∀ z ∈ h :: l, prev' z = prev z) : Closed next' prev' h l where
  linked := hc.linked.congr hnext fun z hz => hprev z (by
    rcases mem_append.mp hz with hz | hz
    · exact mem_cons_of_mem h hz
    · rw [mem_singleton.mp hz]
      exact mem_cons_self)
  nodup := hc.nodup

/-- The neighbours of a node of a ring are in the ring. -/
theorem Closed.neighbours (hc : Closed next prev h l) (hk : k ∈ h :: l) :
    next k ∈ h :: l ∧ prev k ∈ h :: l := by
  rcases mem_cons.mp hk with rfl | hk
  · refine ⟨?_, hc.linked.prev_mem⟩
    rcases mem_append.mp hc.linked.next_mem with hmem | hmem
    · exact mem_cons_of_mem k hmem
    · rw [mem_singleton.mp hmem]
      exact mem_cons_self
  · rcases append_of_mem hk with ⟨a, b, rfl⟩
    rcases Linked.append_iff.mp hc.linked with ⟨hleft, hright⟩
    have hn := hright.next_mem
    have hp := hleft.prev_mem
    constructor
    · rcases mem_append.mp hn with hn | hn
      · simp [hn]
      · rw [mem_singleton.mp hn]
        exact mem_cons_self
    · rcases mem_cons.mp hp with heq | hp
      · rw [heq]
        exact mem_cons_self
      · simp [hp]

/-- A ring is a ring from any of its nodes. -/
theorem Closed.rotate (hc : Closed next prev h (a ++ k :: b)) :
    Closed next prev k (b ++ h :: a) := by
  obtain ⟨hleft, hright⟩ := Linked.append_iff.mp hc.linked
  refine ⟨Linked.append_iff.mpr ⟨hright, hleft⟩, ?_⟩
  have hperm : (k :: (b ++ h :: a)).Perm (h :: (a ++ k :: b)) := by
    have hone : (k :: (b ++ h :: a)).Perm ((k :: b) ++ (h :: a)) := List.Perm.refl _
    have htwo : (h :: (a ++ k :: b)).Perm ((h :: a) ++ (k :: b)) := List.Perm.refl _
    exact hone.trans (perm_append_comm.trans htwo.symm)
  exact hperm.nodup_iff.mpr hc.nodup

theorem Linked.next_prev (hl : Linked next prev x l y) : next (prev y) = y := by
  induction l generalizing x with
  | nil =>
    rw [hl.2]
    exact hl.1
  | cons k l ih => exact ih hl.2

theorem Closed.next_prev (hc : Closed next prev h l) (hk : k ∈ h :: l) : next (prev k) = k := by
  rcases mem_cons.mp hk with rfl | hk
  · exact hc.linked.next_prev
  · rcases append_of_mem hk with ⟨a, b, rfl⟩
    exact (Linked.append_iff.mp hc.linked).1.next_prev

/-!
## Rings reached from a pointer

A pointer shows a ring from one of its nodes on; a null pointer shows no node.
-/

def Shown {κ : Type*} (next prev : κ → κ) : Option κ → List κ → Prop
  | none, l => l = []
  | some h, l => ∃ t, l = h :: t ∧ Closed next prev h t

section Pointers

variable [DecidableEq κ]

/-- Link a node in before the one that the pointer shows. -/
def link (next prev : κ → κ) (head : Option κ) (k : κ) : (κ → κ) × (κ → κ) :=
  match head with
  | none => (update next k k, update prev k k)
  | some h =>
    let prev := update (update prev k (prev h)) h k
    (update (update next k h) (prev k) k, prev)

/-- Take a node out; a pointer that shows it moves on to the next one. -/
def cut (next prev : κ → κ) (head : Option κ) (k : κ) :
    Option κ × (κ → κ) × (κ → κ) :=
  let head := if head = some k then some (next k) else head
  if head = some k then
    (none, update next k k, update prev k k)
  else
    (head, update (update next (prev k) (next k)) k k, update (update prev (next k) (prev k)) k k)

variable {head : Option κ}

omit [DecidableEq κ] in
theorem Shown.nodup (hs : Shown next prev head l) : l.Nodup := by
  cases head with
  | none =>
    rw [hs]
    exact nodup_nil
  | some h =>
    obtain ⟨t, rfl, hc⟩ := hs
    exact hc.nodup

omit [DecidableEq κ] in
theorem Shown.head_eq (hs : Shown next prev head l) : head = l.head? := by
  cases head with
  | none =>
    rw [hs]
    rfl
  | some h =>
    obtain ⟨t, rfl, _⟩ := hs
    rfl

omit [DecidableEq κ] in
theorem Shown.congr (hs : Shown next prev head l)
    (hnext : ∀ z ∈ l, next' z = next z) (hprev : ∀ z ∈ l, prev' z = prev z) :
    Shown next' prev' head l := by
  cases head with
  | none => exact hs
  | some h =>
    obtain ⟨t, rfl, hc⟩ := hs
    exact ⟨t, rfl, hc.congr hnext hprev⟩

omit [DecidableEq κ] in
omit [DecidableEq κ] in
/-- The pointer moves on by one node. -/
theorem Shown.advance (hs : Shown next prev (some h) (h :: l)) :
    Shown next prev (some (next h)) (l ++ [h]) := by
  obtain ⟨t, heq, hc⟩ := hs
  obtain rfl : l = t := (List.cons.inj heq).2
  cases l with
  | nil =>
    rw [hc.linked.1]
    exact ⟨[], rfl, hc⟩
  | cons j l =>
    rw [hc.linked.1.1]
    exact ⟨l ++ [h], rfl, Closed.rotate (a := []) hc⟩

omit [DecidableEq κ] in
theorem closed_self (hn : next k = k) (hp : prev k = k) : Closed next prev k [] :=
  ⟨⟨hn, hp⟩, nodup_singleton k⟩

theorem link_frame (hs : Shown next prev head l) (hz : z ∉ k :: l) :
    (link next prev head k).1 z = next z ∧ (link next prev head k).2 z = prev z := by
  have hzk : z ≠ k := fun heq => hz (heq ▸ mem_cons_self)
  cases head with
  | none => exact ⟨update_of_ne hzk _ _, update_of_ne hzk _ _⟩
  | some h =>
    obtain ⟨t, rfl, hc⟩ := hs
    have hzh : z ≠ h := fun heq => hz (by simp [heq])
    have hzp : z ≠ update (update prev k (prev h)) h k k := by
      by_cases hkh : k = h
      · rw [hkh, update_self]
        exact hzh
      · rw [update_of_ne hkh, update_self]
        rintro rfl
        exact hz (mem_cons_of_mem k (hc.neighbours mem_cons_self).2)
    constructor
    · simp only [link]
      rw [update_of_ne hzp, update_of_ne hzk]
    · simp only [link]
      rw [update_of_ne hzh, update_of_ne hzk]

/-- The ring with the new node at its end. -/
theorem link_closed {t : List κ} (hc : Closed next prev h t) (hk : k ∉ h :: t) :
    Closed (link next prev (some h) k).1 (link next prev (some h) k).2 h (t ++ [k]) := by
  have hkh : k ≠ h := fun heq => hk (heq ▸ mem_cons_self)
  have hlast := hc.linked.prev_eq
  have hph := hc.linked.next_prev
  have hpmem : prev h ∈ h :: t := hc.linked.prev_mem
  have hkp : k ≠ prev h := fun heq => hk (heq ▸ hpmem)
  have hpk : update (update prev k (prev h)) h k k = prev h := by
    rw [update_of_ne hkh, update_self]
  have hc' : Closed next prev h (t ++ []) := by rwa [append_nil]
  refine hc'.insert hlast (by rwa [append_nil]) ?_ ?_ ?_ ?_ ?_ ?_
  · simp only [link, hpk]
    rw [update_of_ne hkp, update_self, hph]
  · simp only [link, hpk]
    rw [update_self]
  · intro z hzk hzp
    simp only [link, hpk]
    rw [update_of_ne hzp, update_of_ne hzk]
  · exact hpk
  · rw [hph]
    exact update_self _ _ _
  · intro z hzk hzn
    rw [hph] at hzn
    simp only [link]
    rw [update_of_ne hzn, update_of_ne hzk]

/-- A pointer that then moves to the new node shows it first. -/
theorem link_front (hs : Shown next prev head l) (hk : k ∉ l) :
    Shown (link next prev head k).1 (link next prev head k).2 (some k) (k :: l) := by
  cases head with
  | none =>
    rw [hs]
    exact ⟨[], rfl, closed_self (update_self ..) (update_self ..)⟩
  | some h =>
    obtain ⟨t, rfl, hc⟩ := hs
    exact ⟨h :: t, rfl, (link_closed hc hk).rotate⟩

/-- A pointer that stays shows the new node last. -/
theorem link_back (hs : Shown next prev head l) (hk : k ∉ l) :
    Shown (link next prev head k).1 (link next prev head k).2 (some (head.getD k)) (l ++ [k]) := by
  cases head with
  | none =>
    rw [hs]
    exact ⟨[], rfl, closed_self (update_self ..) (update_self ..)⟩
  | some h =>
    obtain ⟨t, rfl, hc⟩ := hs
    exact ⟨t ++ [k], rfl, link_closed hc hk⟩

theorem cut_frame (hs : Shown next prev head l) (hk : k ∈ l) (hz : z ∉ l) :
    (cut next prev head k).2.1 z = next z ∧ (cut next prev head k).2.2 z = prev z := by
  cases head with
  | none =>
    rw [hs] at hk
    cases hk
  | some h =>
    obtain ⟨t, rfl, hc⟩ := hs
    have hmem := hc.neighbours hk
    have hzk : z ≠ k := fun heq => hz (heq ▸ hk)
    have hzn : z ≠ next k := fun heq => hz (heq ▸ hmem.1)
    have hzp : z ≠ prev k := fun heq => hz (heq ▸ hmem.2)
    unfold cut
    dsimp only
    generalize (if some h = some k then some (next k) else some h) = head'
    split
    · exact ⟨update_of_ne hzk _ _, update_of_ne hzk _ _⟩
    · exact ⟨(update_of_ne hzk _ _).trans (update_of_ne hzp _ _),
        (update_of_ne hzk _ _).trans (update_of_ne hzn _ _)⟩

/-- The node without which a ring is left, behind its first node. -/
theorem cut_closed (hc : Closed next prev h (a ++ k :: b)) :
    Closed (update (update next (prev k) (next k)) k k)
      (update (update prev (next k) (prev k)) k k) h (a ++ b) := by
  have hnodup := hc.nodup
  have hk : k ∉ h :: (a ++ b) := by
    intro hmem
    have hperm : (h :: (a ++ k :: b)).Perm (k :: h :: (a ++ b)) :=
      (perm_middle.cons h).trans (List.Perm.swap ..)
    exact (nodup_cons.mp (hperm.nodup_iff.mp hnodup)).1 hmem
  have hne : ∀ z ∈ h :: (a ++ b), z ≠ k := by
    rintro z hz rfl
    exact hk hz
  exact hc.remove.congr (fun z hz => update_of_ne (hne z hz) _ _)
    fun z hz => update_of_ne (hne z hz) _ _

theorem cut_shown (hs : Shown next prev head l) (hk : k ∈ l) :
    Shown (cut next prev head k).2.1 (cut next prev head k).2.2
      (cut next prev head k).1 (l.erase k) := by
  cases head with
  | none =>
    rw [hs] at hk
    cases hk
  | some h =>
    obtain ⟨t, rfl, hc⟩ := hs
    by_cases hhk : h = k
    · subst hhk
      cases t with
      | nil =>
        have hself : next h = h := hc.linked.1
        simp [cut, hself, Shown]
      | cons j t =>
        have hnext : next h = j := hc.linked.1.1
        have hjh : j ≠ h := fun heq =>
          (nodup_cons.mp hc.nodup).1 (heq ▸ mem_cons_self)
        have hrot : Closed next prev j (t ++ h :: []) := Closed.rotate (a := []) hc
        have hcut := cut_closed hrot
        simpa [cut, hnext, hjh, Shown] using hcut
    · have hkt : k ∈ t := by
        rcases mem_cons.mp hk with heq | hmem
        · exact absurd heq.symm hhk
        · exact hmem
      obtain ⟨a, b, rfl⟩ := append_of_mem hkt
      have hka : k ∉ a := by
        intro hmem
        have hnodup := (nodup_cons.mp hc.nodup).2
        exact (nodup_append.mp hnodup).2.2 k hmem k mem_cons_self rfl
      have hhead : ¬ (h == k) = true := by simpa using hhk
      rw [erase_cons_tail hhead, erase_append_right _ hka, erase_cons_head]
      have hif : ¬ some h = some k := fun heq => hhk (Option.some.inj heq)
      simp only [cut, if_neg hif]
      exact ⟨a ++ b, rfl, cut_closed hc⟩

end Pointers

end Rings
end Svr4
