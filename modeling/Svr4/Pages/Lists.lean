import Svr4.Pages.Model

/-!
# The lists of free pages

Every free page is on one list, which its age and its address choose.  The
lists and the counters of their sizes are kept apart from the flags of the
pages, so that a page may leave its list before its flags follow.
-/

namespace Svr4
namespace Pages

open Function Rings

namespace Vm

def free (v : Vm) (pp : Nat) : Bool := (v.page pp).pFree

def age (v : Vm) (pp : Nat) : Bool := (v.page pp).pAge

end Vm

/--
The lists `L` hold the free pages, where `free` and `age` say
which pages are free and on which list they belong.
-/
structure Listed (c : Pool) (free age : Nat → Bool) (v : Vm)
    (L : FreeList → List Nat) : Prop where
  shown : ∀ x, Shown v.pNext v.pPrev (v.list x) (L x)
  mem : ∀ x pp, pp ∈ L x ↔ free pp = true ∧ c.listOf pp (age pp) = x
  size : ∀ x, v.size x = (L x).length
  age : ∀ pp, free pp = false → age pp = false

/-- The pages on the lists of DMA pages, by the counters of their sizes. -/
def Vm.dmaTotal (v : Vm) : Int := v.size .dmaPageFreelist + v.size .dmaPageCachelist

def Vm.total (v : Vm) : Int :=
  v.size .pageFreelist + v.size .pageCachelist + v.dmaTotal

section Lists

variable {c : Pool} {free age free' age' : Nat → Bool} {v v' : Vm}
  {L : FreeList → List Nat} {x y : FreeList} {pp : Nat}

section

variable (h : Listed c free age v L)
include h

theorem Listed.congr
    (hfree : ∀ pp, free' pp = free pp) (hage : ∀ pp, age' pp = age pp)
    (hnext : ∀ z, free z = true → v'.pNext z = v.pNext z)
    (hprev : ∀ z, free z = true → v'.pPrev z = v.pPrev z)
    (hlist : v'.list = v.list) (hsize : v'.size = v.size) : Listed c free' age' v' L := by
  obtain rfl : free' = free := funext hfree
  obtain rfl : age' = age := funext hage
  refine ⟨fun x => ?_, h.mem, fun x => ?_, h.age⟩
  · rw [hlist]
    exact (h.shown x).congr (fun z hz => hnext z ((h.mem x z).mp hz).1)
      fun z hz => hprev z ((h.mem x z).mp hz).1
  · rw [hsize]
    exact h.size x

theorem Listed.eq_of_mem (hx : pp ∈ L x) (hy : pp ∈ L y) : x = y :=
  ((h.mem x pp).mp hx).2.symm.trans ((h.mem y pp).mp hy).2

theorem Listed.update_mem {l : List Nat}
    {f a : Bool} (hl : ∀ q, q ∈ l ↔ (if q = pp then f = true ∧ c.listOf pp a = x else q ∈ L x))
    (hother : ∀ y, y ≠ x → (f = true → c.listOf pp a ≠ y) ∧ pp ∉ L y) (y : FreeList) (q : Nat) :
    q ∈ update L x l y ↔ update free pp f q = true ∧ c.listOf q (update age pp a q) = y := by
  by_cases hyx : y = x
  · subst hyx
    rw [update_self, hl]
    by_cases hq : q = pp
    · rw [if_pos hq, hq, update_self, update_self]
    · rw [if_neg hq, update_of_ne hq, update_of_ne hq]
      exact h.mem y q
  · rw [update_of_ne hyx]
    by_cases hq : q = pp
    · rw [hq, update_self, update_self]
      exact iff_of_false (hother y hyx).2 fun hmem => (hother y hyx).1 hmem.1 hmem.2
    · rw [update_of_ne hq, update_of_ne hq]
      exact h.mem y q

theorem Listed.add (hpp : free pp = false) {a : Bool}
    (hx : c.listOf pp a = x) : Listed c (update free pp true) (update age pp a)
      ((v.addSize x 1).pageAdd x pp) (update L x (pp :: L x)) := by
  have hnot : ∀ y, pp ∉ L y := by
    intro y hmem
    rw [((h.mem y pp).mp hmem).1] at hpp
    cases hpp
  refine ⟨fun y => ?_, ?_, fun y => ?_, fun q hq => ?_⟩
  · by_cases hyx : y = x
    · subst hyx
      simp only [Vm.pageAdd, Vm.addSize, update_self]
      exact link_front (h.shown y) (hnot y)
    · simp only [Vm.pageAdd, Vm.addSize, update_of_ne hyx]
      have hframe : ∀ z ∈ L y, z ∉ pp :: L x := by
        intro z hz hmem
        rcases List.mem_cons.mp hmem with rfl | hmem
        · exact hnot y hz
        · exact hyx (h.eq_of_mem hz hmem)
      exact (h.shown y).congr (fun z hz => (link_frame (h.shown x) (hframe z hz)).1)
        fun z hz => (link_frame (h.shown x) (hframe z hz)).2
  · apply h.update_mem
    · intro q
      by_cases hq : q = pp
      · simp [hq, hx]
      · simp [hq]
    · exact fun y hyx => ⟨fun _ heq => hyx (heq.symm.trans hx), hnot y⟩
  · simp only [Vm.pageAdd, Vm.addSize]
    by_cases hyx : y = x
    · subst hyx
      rw [update_self, update_self, h.size, List.length_cons]
      rfl
    · rw [update_of_ne hyx, update_of_ne hyx, h.size]
  · by_cases hqp : q = pp
    · rw [hqp, update_self] at hq
      cases hq
    · rw [update_of_ne hqp] at hq ⊢
      exact h.age q hq

theorem Listed.sub (hpp : free pp = true)
    (hx : c.listOf pp (age pp) = x) :
    ∃ v', v.pageSub x pp = .ok v' ∧ pp ∈ L x ∧ (∃ head next prev, v' = { v with
        list := head, pNext := next, pPrev := prev }) ∧
      (∀ z, free z = false → v'.pNext z = v.pNext z ∧ v'.pPrev z = v.pPrev z) ∧
      Listed c (update free pp false) (update age pp false)
        (v'.addSize x (-1)) (update L x ((L x).erase pp)) := by
  have hmem : pp ∈ L x := (h.mem x pp).mpr ⟨hpp, hx⟩
  have hnone : ¬ v.list x = none := by
    intro hnone
    have hs := h.shown x
    rw [hnone] at hs
    rw [show L x = [] from hs] at hmem
    cases hmem
  have hrun : v.pageSub x pp = .ok { v with
      pNext := (cut v.pNext v.pPrev (v.list x) pp).2.1
      pPrev := (cut v.pNext v.pPrev (v.list x) pp).2.2
      list := update v.list x (cut v.pNext v.pPrev (v.list x) pp).1 } := by
    simp only [Vm.pageSub, if_neg hnone]
    rfl
  refine ⟨_, hrun, hmem, ⟨_, _, _, rfl⟩, fun z hz => ?_, ?_⟩
  · apply cut_frame (h.shown x) hmem
    intro hzx
    rw [((h.mem x z).mp hzx).1] at hz
    cases hz
  · refine ⟨fun y => ?_, ?_, fun y => ?_, fun q hq => ?_⟩
    · by_cases hyx : y = x
      · subst hyx
        simp only [Vm.addSize, update_self]
        exact cut_shown (h.shown y) hmem
      · simp only [Vm.addSize, update_of_ne hyx]
        have hframe : ∀ z ∈ L y, z ∉ L x := fun z hz hzx => hyx (h.eq_of_mem hz hzx)
        exact (h.shown y).congr (fun z hz => (cut_frame (h.shown x) hmem (hframe z hz)).1)
          fun z hz => (cut_frame (h.shown x) hmem (hframe z hz)).2
    · apply h.update_mem
      · intro q
        rw [(h.shown x).nodup.mem_erase_iff]
        by_cases hq : q = pp
        · simp [hq]
        · simp [hq]
      · exact fun y hyx => ⟨nofun, fun hy => hyx (h.eq_of_mem hy hmem)⟩
    · simp only [Vm.addSize]
      by_cases hyx : y = x
      · subst hyx
        have hpos := List.length_pos_of_mem hmem
        rw [update_self, update_self, h.size, List.length_erase_of_mem hmem]
        omega
      · rw [update_of_ne hyx, update_of_ne hyx, h.size]
    · by_cases hqp : q = pp
      · rw [hqp, update_self]
      · rw [update_of_ne hqp] at hq ⊢
        exact h.age q hq

theorem Listed.advance (x : FreeList) :
    ∃ l, Listed c free age (v.advance x) (update L x l) := by
  cases hlist : v.list x with
  | none =>
    have hrun : v.advance x = v := by
      unfold Vm.advance
      rw [hlist, Option.map_none, ← hlist, update_eq_self]
    refine ⟨L x, ?_⟩
    rw [hrun, update_eq_self]
    exact h
  | some k =>
    have hs := h.shown x
    have hhead := hs.head_eq
    rw [hlist] at hhead
    obtain ⟨t, hl⟩ := List.head?_eq_some_iff.mp hhead.symm
    rw [hlist, hl] at hs
    have hperm : (t ++ [k]).Perm (L x) := by
      rw [hl]
      exact List.perm_append_singleton k t
    refine ⟨t ++ [k], fun y => ?_, fun y q => ?_, fun y => ?_, h.age⟩
    · by_cases hyx : y = x
      · subst hyx
        simp only [Vm.advance, update_self, hlist, Option.map_some]
        exact hs.advance
      · simp only [Vm.advance, update_of_ne hyx]
        exact h.shown y
    · by_cases hyx : y = x
      · subst hyx
        rw [update_self, hperm.mem_iff]
        exact h.mem y q
      · rw [update_of_ne hyx]
        exact h.mem y q
    · by_cases hyx : y = x
      · subst hyx
        rw [update_self, hperm.length_eq]
        exact h.size y
      · rw [update_of_ne hyx]
        exact h.size y

end

end Lists

end Pages
end Svr4
