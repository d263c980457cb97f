import Svr4.RecordLock.AdjustLoop

/-!
# What blocked finds

The two loops of `blocked` against the set of conflicting locks, and the
insertion point against what `flckadj` needs of it.  The first loop leaves
the list cut into the locks it has passed and the rest.
-/

namespace Svr4
namespace RecordLock

open NodeList List

/-- A lock of another owner excludes the request on a common byte. -/
def Conflicts (u : Renv) (lckdat : Flock) (f : Filock) : Prop :=
  f.owner ≠ lckdat.owner ∧ typesConflict u f lckdat = true ∧ ∃ x, f.set.Covers x ∧ lckdat.Covers x

theorem covers_common {a b : Flock} (ha : a.lStart ≤ a.lEnd) (hb : b.lStart ≤ b.lEnd) :
    (∃ x, a.Covers x ∧ b.Covers x) ↔ b.lStart ≤ a.lEnd ∧ a.lStart ≤ b.lEnd := by
  unfold Flock.Covers
  constructor
  · rintro ⟨x, h1, h2⟩
    omega
  · intro h
    by_cases hle : a.lStart ≤ b.lStart
    · exact ⟨b.lStart, by omega, by omega⟩
    · exact ⟨a.lStart, by omega, by omega⟩

variable {f : Filock} {rest lst pre : List Filock} {insrt : Option Nat}

section Scan

variable {u : Renv} {lckdat : Flock}

/-- The locks of a list in order whose ranges are not empty. -/
structure Ordered (lst : List Filock) : Prop where
  sorted : lst.Pairwise fun a b => a.set.lStart ≤ b.set.lStart
  nonempty : ∀ f ∈ lst, f.set.lStart ≤ f.set.lEnd

theorem Ordered.tail (h : Ordered (f :: rest)) : Ordered rest where
  sorted := (pairwise_cons.mp h.sorted).2
  nonempty := fun g hg => h.nonempty g (mem_cons_of_mem _ hg)

theorem Ordered.head_le {g : Filock} (h : Ordered (f :: rest)) (hg : g ∈ f :: rest) :
    f.set.lStart ≤ g.set.lStart := by
  rcases mem_cons.mp hg with rfl | hin
  · exact Int.le_refl _
  · exact (pairwise_cons.mp h.sorted).1 g hin

theorem WellFormed.ordered (h : WellFormed lst) : Ordered lst where
  sorted := h.sorted
  nonempty := fun f hf => (h.valid f hf).start_le_end

theorem Ordered.sublist {lst' : List Filock} (h : Ordered lst)
    (hsub : lst'.Sublist lst) : Ordered lst' where
  sorted := h.sorted.sublist hsub
  nonempty := fun f hf => h.nonempty f (hsub.subset hf)

structure Finds (u : Renv) (lckdat : Flock) (lst : List Filock)
    (r : Option Filock) : Prop where
  sound : ∀ f, r = some f → f ∈ lst ∧ Conflicts u lckdat f
  complete : r = none → ∀ f ∈ lst, ¬ Conflicts u lckdat f

theorem Finds.nil : Finds u lckdat [] none where
  sound := fun _ hf => by cases hf
  complete := fun _ _ hf => by cases hf

theorem Finds.cons {r : Option Filock} (h : Finds u lckdat rest r) (hf : ¬ Conflicts u lckdat f) :
    Finds u lckdat (f :: rest) r where
  sound := fun g hg =>
    ⟨mem_cons_of_mem _ (h.sound g hg).1, (h.sound g hg).2⟩
  complete := by
    intro hr g hg
    rcases mem_cons.mp hg with rfl | hin
    · exact hf
    · exact h.complete hr g hin

theorem Finds.here (hf : Conflicts u lckdat f) : Finds u lckdat (f :: rest) (some f) where
  sound := by
    intro g hg
    cases hg
    exact ⟨by simp, hf⟩
  complete := fun hr => by cases hr

theorem blockedFrom_finds (hld : lckdat.lStart ≤ lckdat.lEnd) (hord : Ordered lst) :
    Finds u lckdat lst (blockedFrom u lckdat lst) := by
  induction lst with
  | nil => exact Finds.nil
  | cons f rest ih =>
    have hf := hord.nonempty f (by simp)
    unfold blockedFrom
    split_ifs with hpast hhit
    · refine ⟨fun g hg => by (cases hg), fun _ g hg hcon => ?_⟩
      have hle := hord.head_le hg
      have hmeet := (covers_common (hord.nonempty g hg) hld).mp hcon.2.2
      omega
    · refine Finds.here ⟨hhit.2.1, hhit.2.2, ?_⟩
      exact (covers_common hf hld).mpr ⟨hhit.1, by omega⟩
    · refine (ih hord.tail).cons fun hcon => hhit ?_
      have hmeet := (covers_common hf hld).mp hcon.2.2
      exact ⟨hmeet.1, hcon.1, hcon.2.1⟩

theorem blockedScan_finds (hld : lckdat.lStart ≤ lckdat.lEnd) (hord : Ordered lst)
    (insrt : Option Nat) : Finds u lckdat lst (blockedScan u lckdat lst insrt).1 := by
  induction lst generalizing insrt with
  | nil => exact Finds.nil
  | cons f rest ih =>
    have hf := hord.nonempty f (by simp)
    unfold blockedScan
    split_ifs with hlt hown hreach hhit
    · exact blockedFrom_finds hld hord
    · exact (ih hord.tail _).cons fun hcon => hcon.1 hown
    · refine Finds.here ⟨hown, hhit.2, ?_⟩
      exact (covers_common hf hld).mpr ⟨hhit.1, by omega⟩
    · refine (ih hord.tail _).cons fun hcon => hhit ?_
      have hmeet := (covers_common hf hld).mp hcon.2.2
      exact ⟨hmeet.1, hcon.2.1⟩
    · exact blockedFrom_finds hld hord

/-- The cut that the first loop makes: what it has passed needs no update but for the last. -/
structure CutAt (lckdat : Flock) (lst : List Filock) (insrt : Option Nat)
    (pre post : List Filock) : Prop where
  split : lst = pre ++ post
  passed : ∀ f ∈ pre, f.set.lStart < lckdat.lStart
  behind : ∀ f ∈ pre.dropLast, f.owner = lckdat.owner → f.set.lEnd + 1 < lckdat.lStart
  insrt : insrt = pre.getLast?.map Filock.addr
  ahead : pre = [] → ∀ f ∈ post, lckdat.lStart ≤ f.set.lStart

/-- The induction behind `blocked_cut`, with the locks passed so far. -/
theorem blockedScan_cut (hord : Ordered rest) (hinsrt : insrt = pre.getLast?.map Filock.addr)
    (hpassed : ∀ f ∈ pre, f.set.lStart < lckdat.lStart)
    (hbehind : ∀ f ∈ pre, f.owner = lckdat.owner → f.set.lEnd + 1 < lckdat.lStart) :
    ∃ pre' post, CutAt lckdat (pre ++ rest) (blockedScan u lckdat rest insrt).2 pre' post := by
  have hdrop : ∀ l : List Filock, ∀ f ∈ l.dropLast, f ∈ l :=
    fun l f hf => (dropLast_sublist l).subset hf
  induction rest generalizing pre insrt with
  | nil =>
    exact ⟨pre, [], rfl, hpassed, fun f hf => hbehind f (hdrop pre f hf),
      hinsrt, fun _ f hf => by cases hf⟩
  | cons f rest ih =>
    have hmark : ∀ lst' : List Filock, f.set.lStart < lckdat.lStart →
        CutAt lckdat (pre ++ f :: rest) (some f.addr) (pre ++ [f]) rest := by
      intro _ hlt
      refine ⟨by simp, ?_, ?_, by simp, fun hnil => by simp at hnil⟩
      · intro g hg
        rcases mem_append.mp hg with hin | hin
        · exact hpassed g hin
        · rw [mem_singleton.mp hin]
          exact hlt
      · intro g hg
        rw [dropLast_concat] at hg
        exact hbehind g hg
    have hgo : f.set.lStart < lckdat.lStart →
        (f.owner = lckdat.owner → f.set.lEnd + 1 < lckdat.lStart) →
        ∃ pre' post, CutAt lckdat (pre ++ f :: rest)
          (blockedScan u lckdat rest (some f.addr)).2 pre' post := by
      intro hlt hend
      have hnext : ∃ pre' post, CutAt lckdat ((pre ++ [f]) ++ rest)
          (blockedScan u lckdat rest (some f.addr)).2 pre' post := by
        refine ih hord.tail (by simp) ?_ ?_
        · intro g hg
          rcases mem_append.mp hg with hin | hin
          · exact hpassed g hin
          · rw [mem_singleton.mp hin]
            exact hlt
        · intro g hg
          rcases mem_append.mp hg with hin | hin
          · exact hbehind g hin
          · rw [mem_singleton.mp hin]
            exact hend
      simpa using hnext
    unfold blockedScan
    split_ifs with hlt hown hreach hhit
    · exact ⟨_, _, hmark rest hlt⟩
    · exact hgo hlt fun _ => by omega
    · exact ⟨_, _, hmark rest hlt⟩
    · exact hgo hlt fun h => absurd h hown
    · refine ⟨pre, f :: rest, rfl, hpassed,
        fun g hg => hbehind g (hdrop pre g hg), hinsrt, fun _ g hg => ?_⟩
      have := hord.head_le hg
      omega

theorem blocked_cut (u : Renv) (lckdat : Flock) (hord : Ordered lst) :
    ∃ pre post, CutAt lckdat lst (blocked u lst lckdat).2 pre post := by
  have hcut : ∃ pre post, CutAt lckdat ([] ++ lst) (blockedScan u lckdat lst none).2 pre post :=
    blockedScan_cut hord rfl (by simp) (by simp)
  exact hcut

theorem CutAt.startOk (hwf : WellFormed lst) {post : List Filock}
    (h : CutAt lckdat lst insrt pre post) (k : Kern) : StartOk lst insrt lckdat k := by
  rcases eq_nil_or_concat pre with hnil | ⟨init, last, hpre⟩
  · have hinsrt : insrt = none := by rw [h.insrt, hnil]; rfl
    subst hinsrt
    refine ⟨fun f hf _ => Or.inl hf, fun _ f hf => ?_⟩
    refine h.ahead hnil f ?_
    have hmem : f ∈ lst := hf
    rwa [h.split, hnil, nil_append] at hmem
  · have hinsrt : insrt = some last.addr := by rw [h.insrt, hpre]; simp
    have hlst : lst = init ++ last :: post := by rw [h.split, hpre]; simp
    have hlast : last.set.lStart < lckdat.lStart :=
      h.passed last (by rw [hpre]; simp)
    subst hinsrt
    refine ⟨?_, fun _ => ?_⟩
    · intro f hf hown
      have hkeys : ∀ y ∈ init, y.addr ≠ last.addr := by
        have hnodup := hwf.nodup
        rw [hlst, map_append, nodup_append] at hnodup
        intro y hy
        exact hnodup.2.2 y.addr (mem_map_of_mem hy) last.addr (by simp)
      have hvisited : visited lst (some last.addr) = last :: post := by
        rw [hlst]
        exact fromNode_of_split rfl hkeys
      rw [hvisited]
      rw [hlst] at hf
      rcases mem_append.mp hf with hin | hin
      · have hgap := h.behind f (by rw [hpre]; simpa using hin) hown
        exact Or.inr ⟨by omega, fun _ => hgap⟩
      · exact Or.inl hin
    · exact ⟨last, by rw [hlst]; simp, rfl, Int.le_of_lt hlast⟩

theorem startOk_head (hwf : WellFormed lst) (k : Kern) (hun : lckdat.lType = .unlck) :
    StartOk lst (lst.head?.map Filock.addr) lckdat k := by
  refine ⟨fun f hf _ => Or.inl ?_, fun hne => absurd hun hne⟩
  cases lst with
  | nil => cases hf
  | cons g rest =>
    have hvisited : visited (g :: rest) (some g.addr) = g :: rest := by
      simp [visited, fromNode]
    rw [List.head?_cons, Option.map_some, hvisited]
    exact hf

end Scan

end RecordLock
end Svr4
