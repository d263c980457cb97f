import Svr4.Pages.Model

/-!
# The scans for contiguous pages

The scans of `page_get` and `page_get_aligned` skip what an
unsuccessful run has passed.  They still find the first run of pages that would
do, in the order of the chunks.
-/

namespace Svr4
namespace Pages

open Vm

/-- The pages from `pp` on are free and aligned. -/
def IsRun (free aligned : Nat → Bool) (npages pp : Nat) : Prop :=
  ∀ i < npages, free (pp + i) = true ∧ aligned (pp + i) = true

/-- The first run of a chunk. -/
structure FirstIn (free aligned : Nat → Bool) (npages : Nat) (pap : Pageac)
    (pp : Nat) : Prop where
  first : pap.firstpp ≤ pp
  last : pp + npages ≤ pap.endpp
  run : IsRun free aligned npages pp
  least : ∀ q, pap.firstpp ≤ q → q < pp → ¬ IsRun free aligned npages q

/-- The first run of the pool, in the order of the chunks. -/
def FirstRun (free aligned : Nat → Bool) (npages : Nat) (chunks : List Pageac)
    (pp : Nat) : Prop :=
  ∃ before pap behind, chunks = before ++ pap :: behind ∧
    (∀ pap' ∈ before, ∀ q, pap'.firstpp ≤ q → q + npages ≤ pap'.endpp →
      ¬ IsRun free aligned npages q) ∧
    FirstIn free aligned npages pap pp

variable {n fuel first : Nat} {dmacheck : Bool}

section Scan

variable {c : Pool} {free aligned : Nat → Bool} {npages endpp pp e : Nat}

theorem runFrom_found (hpp : free pp = true) (h : runFrom free aligned n pp = (true, e)) :
    e = pp + n ∧ 0 < n ∧ IsRun free aligned n pp := by
  induction n generalizing pp with
  | zero => cases h
  | succ n ih =>
    simp only [runFrom] at h
    by_cases hal : aligned pp = true
    · rw [hal] at h
      have hhead : ∀ i < n + 1, i = 0 → free (pp + i) = true ∧ aligned (pp + i) = true := by
        rintro i _ rfl
        exact ⟨hpp, hal⟩
      by_cases hn : n = 0
      · subst hn
        rw [if_pos rfl, Prod.mk.injEq] at h
        refine ⟨h.2.symm, Nat.succ_pos 0, fun i hi => hhead i hi (by omega)⟩
      · rw [if_neg hn] at h
        by_cases hnext : free (pp + 1) = true
        · rw [if_pos hnext] at h
          obtain ⟨he, _, hrest⟩ := ih hnext h
          refine ⟨by omega, Nat.succ_pos n, fun i hi => ?_⟩
          by_cases hi0 : i = 0
          · exact hhead i hi hi0
          · have hr := hrest (i - 1) (by omega)
            have heq : pp + 1 + (i - 1) = pp + i := by omega
            rwa [heq] at hr
        · rw [if_neg hnext] at h
          cases h
    · rw [Bool.not_eq_true] at hal
      rw [hal] at h
      cases h

theorem runFrom_stuck (hn : 0 < n) (h : runFrom free aligned n pp = (false, e)) :
    pp ≤ e ∧ e < pp + n ∧ ¬ (free e = true ∧ aligned e = true) := by
  induction n generalizing pp with
  | zero => omega
  | succ n ih =>
    simp only [runFrom] at h
    by_cases hal : aligned pp = true
    · rw [hal] at h
      simp only [Bool.not_true, Bool.false_eq_true, if_false] at h
      by_cases hn0 : n = 0
      · rw [if_pos hn0] at h
        cases h
      · rw [if_neg hn0] at h
        by_cases hnext : free (pp + 1) = true
        · rw [if_pos hnext] at h
          obtain ⟨hle, hlt, hnot⟩ := ih (by omega) h
          exact ⟨by omega, by omega, hnot⟩
        · rw [if_neg hnext, Prod.mk.injEq] at h
          rw [← h.2]
          exact ⟨by omega, by omega, fun hall => hnext hall.1⟩
    · rw [Bool.not_eq_true] at hal
      rw [hal] at h
      simp only [Bool.not_false, if_true, Prod.mk.injEq, true_and] at h
      rw [← h]
      refine ⟨Nat.le_refl _, by omega, fun hall => ?_⟩
      rw [hal] at hall
      cases hall.2

theorem scanChunk_zero : scanChunk c free aligned dmacheck 0 endpp fuel pp = none := by
  induction fuel generalizing pp with
  | zero => rfl
  | succ fuel ih =>
    simp only [scanChunk, runFrom]
    split
    · rfl
    · split
      · exact ih
      · split
        · rfl
        · exact ih

theorem scanChunk_found (hpos : 0 < npages) (hle : first ≤ pp)
    (hpast : ∀ q, first ≤ q → q < pp → ¬ IsRun free aligned npages q)
    (h : scanChunk c free aligned dmacheck npages endpp fuel pp = some e) :
    npages ≤ e ∧ FirstIn free aligned npages ⟨first, endpp⟩ (e - npages) ∧
      (dmacheck = true → c.dmaPp (e - 1) = true) := by
  induction fuel generalizing pp with
  | zero => cases h
  | succ fuel ih =>
    simp only [scanChunk] at h
    by_cases hend : endpp < pp + npages
    · rw [if_pos hend] at h
      cases h
    rw [if_neg hend] at h
    by_cases hfree : free pp = true
    · rw [hfree] at h
      by_cases hdma : (dmacheck && !c.dmaPp (pp + npages - 1)) = true
      · rw [if_pos hdma] at h
        cases h
      rw [if_neg hdma] at h
      cases hrun : runFrom free aligned npages pp with
      | mk found e' =>
        rw [hrun] at h
        cases found with
        | true =>
          obtain rfl : e' = e := Option.some.inj h
          obtain ⟨he, _, hall⟩ := runFrom_found hfree hrun
          have hstart : e' - npages = pp := by omega
          refine ⟨by omega, ?_, fun hd => ?_⟩
          · rw [hstart]
            exact ⟨hle, by simpa using hend, hall, hpast⟩
          · rw [hd] at hdma
            have hlast : pp + npages - 1 = e' - 1 := by omega
            rw [hlast] at hdma
            simpa using hdma
        | false =>
          obtain ⟨hpe, hen, hnot⟩ := runFrom_stuck hpos hrun
          refine ih (by omega) (fun q hq hqe hall => ?_) h
          by_cases hqp : q < pp
          · exact hpast q hq hqp hall
          · have hi := hall (e' - q) (by omega)
            have heq : q + (e' - q) = e' := by omega
            rw [heq] at hi
            exact hnot hi
    · rw [Bool.not_eq_true] at hfree
      rw [hfree] at h
      refine ih (by omega) (fun q hq hqp hall => ?_) h
      by_cases hqe : q = pp
      · have hi := (hall 0 hpos).1
        rw [hqe, Nat.add_zero, hfree] at hi
        cases hi
      · exact hpast q hq (by omega) hall

theorem scanChunk_none (hpos : 0 < npages)
    (hpast : ∀ q, first ≤ q → q < pp → ¬ IsRun free aligned npages q) (hfuel : endpp < pp + fuel)
    (h : scanChunk c free aligned false npages endpp fuel pp = none) (q : Nat) (hq : first ≤ q)
    (hqe : q + npages ≤ endpp) : ¬ IsRun free aligned npages q := by
  induction fuel generalizing pp with
  | zero => exact hpast q hq (by omega)
  | succ fuel ih =>
    simp only [scanChunk, Bool.false_and, Bool.false_eq_true, if_false] at h
    by_cases hend : endpp < pp + npages
    · exact hpast q hq (by omega)
    rw [if_neg hend] at h
    by_cases hfree : free pp = true
    · rw [hfree] at h
      cases hrun : runFrom free aligned npages pp with
      | mk found e =>
        rw [hrun] at h
        cases found with
        | true => cases h
        | false =>
          obtain ⟨hpe, hen, hnot⟩ := runFrom_stuck hpos hrun
          refine ih (fun q' hq' hqe' hall => ?_) (by omega) h
          by_cases hqp : q' < pp
          · exact hpast q' hq' hqp hall
          · have hi := hall (e - q') (by omega)
            have heq : q' + (e - q') = e := by omega
            rw [heq] at hi
            exact hnot hi
    · rw [Bool.not_eq_true] at hfree
      rw [hfree] at h
      refine ih (fun q' hq' hqp hall => ?_) (by omega) h
      by_cases hqe' : q' = pp
      · have hi := (hall 0 hpos).1
        rw [hqe', Nat.add_zero, hfree] at hi
        cases hi
      · exact hpast q' hq' (by omega) hall

theorem scan_found {chunks : List Pageac}
    (h : scan c free aligned dmacheck npages chunks = some e) :
    0 < npages ∧ npages ≤ e ∧ IsRun free aligned npages (e - npages) ∧
      (dmacheck = true → c.dmaPp (e - 1) = true) ∧
      (dmacheck = false → FirstRun free aligned npages chunks (e - npages)) := by
  have hpos : 0 < npages := by
    rcases Nat.eq_zero_or_pos npages with rfl | hpos
    · induction chunks with
      | nil => cases h
      | cons pap rest ih =>
        simp only [scan, scanChunk_zero] at h
        exact ih h
    · exact hpos
  refine ⟨hpos, ?_⟩
  induction chunks with
  | nil => cases h
  | cons pap rest ih =>
    simp only [scan] at h
    cases hchunk : scanChunk c free aligned dmacheck npages pap.endpp
        (pap.endpp - pap.firstpp + 1) pap.firstpp with
    | some e' =>
      rw [hchunk] at h
      obtain rfl : e' = e := Option.some.inj h
      obtain ⟨hle, hfirst, hdma⟩ := scanChunk_found hpos (Nat.le_refl _)
        (fun q hq hqp => absurd hq (by omega)) hchunk
      exact ⟨hle, hfirst.run, hdma, fun _ => ⟨[], pap, rest, rfl,
        fun _ hmem => (List.not_mem_nil hmem).elim, hfirst⟩⟩
    | none =>
      rw [hchunk] at h
      obtain ⟨hle, hrun, hdma, hfirst⟩ := ih h
      refine ⟨hle, hrun, hdma, fun hd => ?_⟩
      obtain ⟨before, pap', behind, rfl, hbefore, hin⟩ := hfirst hd
      refine ⟨pap :: before, pap', behind, rfl, ?_, hin⟩
      intro pap'' hmem q hq hqe
      rcases List.mem_cons.mp hmem with rfl | hmem
      · rw [hd] at hchunk
        exact scanChunk_none hpos (fun q hq hqp => absurd hq (by omega)) (by omega) hchunk q hq hqe
      · exact hbefore pap'' hmem q hq hqe

end Scan

end Pages
end Svr4
