import Svr4.Lib.Transition
import Svr4.Space.Removal

/-!
# Runs of operations on address spaces

Every operation keeps the lists of all address spaces.  The invariant names, for each
address space, the list of its segments; an operation replaces the list of one or two
address spaces and leaves the segments of the others alone.
-/

namespace Svr4
namespace Space

open Function (update update_of_ne update_self)
open Rings List

variable {r : Option As} {seg i : Nat}

namespace Segs

/-!
## Mapping
-/

section Map

variable {m m' : Segs} {as as' : As} {l : List Nat}

theorem sub32_pos {a b n : Nat} (hb : b + n < word) (hn : 0 < n)
    (hsub : sub32 a b = n) : b < a := by
  unfold sub32 at hsub
  rcases Nat.lt_or_ge b a with hlt | hge
  · exact hlt
  · exfalso
    rcases Nat.lt_or_ge (a + word - b) word with hsmall | hbig
    · rw [Nat.mod_eq_of_lt hsmall] at hsub
      omega
    · have heq : a + word - b = word := by omega
      rw [heq, Nat.mod_self] at hsub
      omega

theorem asMap_spec {addr size : Nat} {p : Map} {ok : Bool} (hs : Sized m as l)
    (hmap : m.asMap as addr size p = some (m', as', ok)) :
    ∃ l', Sized m' as' l' ∧ Frame m l m' l' := by
  unfold asMap at hmap
  simp only at hmap
  split at hmap
  · cases hmap
    exact ⟨l, hs, Frame.refl m l⟩
  split at hmap
  · cases hmap
  rename_i hnew
  rcases segAlloc_spec hs.rep hnew addr size with
    ⟨hnone, _⟩ | ⟨m₁, as₁, a, b, hrun, hsplit, hr₁, hf₁, hbn, hsn, hkeep, hused, hz₁, hp₁⟩
  · rw [hnone] at hmap
    cases hmap
    exact ⟨l, hs, Frame.refl m l⟩
  rw [hrun] at hmap
  simp only at hmap
  have hr₂ : Rep m₁ { as₁ with aSeglast := some p.new } (a ++ p.new :: b) := by
    refine hr₁.of_as rfl ?_
    rintro s ⟨rfl⟩
    simp
  have hnewl : p.new ∉ l := fun hmem => hnew (hs.rep.used _ hmem)
  have hsame : total m₁ (a ++ b) = total m l := by
    rw [hsplit]
    exact total_congr fun t ht => (hkeep t fun heq => hnewl (by rw [hsplit, ← heq]; exact ht)).2
  have hpart : (a ++ b).Sublist (a ++ p.new :: b) :=
    (sublist_cons_self p.new b).append_left a
  have hal₁ : Aligned m₁ (a ++ p.new :: b) := by
    intro t ht
    by_cases htn : t = p.new
    · rw [htn, hbn, hsn]
      exact ⟨pageDown_pages _, sub32_pages (pageUp_pages _) (pageDown_pages _)⟩
    · rw [(hkeep t htn).1, (hkeep t htn).2]
      refine hs.aligned t ?_
      rw [hsplit]
      simp only [mem_append, mem_cons] at ht ⊢
      tauto
  rcases create_spec hr₂ hal₁ p.create with
    hnone | ⟨m₂, as₂, l₂, hcreate, hr₃, hf₂, ht₂, hal₂, hz₂, hp₂⟩
  · -- the driver fails
    rw [hnone] at hmap
    obtain ⟨m₂, as₂, hfree, hr₃, hbase₂, hsize₂, _, hz₂, _, hf₂⟩ := segFree_spec hr₂
    rw [hfree] at hmap
    cases hmap
    refine ⟨a ++ b, ⟨hr₃, ?_, ?_⟩, hf₁.trans hf₂⟩
    · rw [hz₂, total_congr fun t _ => congrFun hsize₂ t, hsame]
      exact hz₁.trans hs.size
    · exact hal₁.subset (fun t ht => hpart.subset ht) hbase₂ hsize₂
  · rw [hcreate] at hmap
    simp only at hmap
    have hs₂ : Sized m₂
        { as₂ with aSize := as₂.aSize + (sub32 (pageUp (add32 addr size)) (pageDown addr) : Int) }
        l₂ := by
      refine ⟨hr₃.of_as rfl hr₃.last, ?_, hal₂⟩
      rw [hz₂, ht₂, total_middle, hsame, hsn, ← hs.size, ← hz₁]
      ring
    split at hmap
    · -- the pages could not be locked
      have hplace := hr₁.place p.new (by simp)
      have hk : KVBASE < word := by decide
      rw [hbn, hsn] at hplace
      have hlt : pageDown addr < pageUp (add32 addr size) :=
        sub32_pos (by omega) hplace.1 rfl
      by_cases hfresh : p.unmap.new ∈ m₂.used
      · unfold asUnmap at hmap
        rw [if_pos hfresh] at hmap
        cases hmap
      · obtain ⟨m₃, as₃, l₃, ok₃, hunmap, hs₃, hf₃, _⟩ := asUnmap_spec hs₂ hlt hfresh
        rw [hunmap] at hmap
        cases hmap
        exact ⟨l₃, hs₃, (hf₁.trans hf₂).trans hf₃⟩
    · cases hmap
      exact ⟨l₂, hs₂, hf₁.trans hf₂⟩

end Map

/-!
## Duplicating
-/

section Dup

variable {m m' : Segs} {as newas : As} {l k : List Nat}

def Duplicated (m : Segs) (k : List Nat) (m' : Segs) : Option As → Prop
  | some newas => ∃ k', Sized m' newas k' ∧ Frame m k m' k'
  | none => Frame m k m' []

theorem dupFail_spec (hr : Rep m newas k)
    (hfail : m.dupFail newas = some (m', r)) : Duplicated m k m' r := by
  obtain ⟨m₁, hfree, hf₁⟩ := asFree_spec hr
  unfold dupFail at hfail
  rw [hfree] at hfail
  cases hfail
  exact hf₁

theorem Duplicated.after {m₁ : Segs} {k₁ : List Nat} (hf : Frame m k m₁ k₁)
    (hd : Duplicated m₁ k₁ m' r) : Duplicated m k m' r := by
  cases r with
  | none => exact hf.trans hd
  | some newas =>
    obtain ⟨k', hsz, hf'⟩ := hd
    exact ⟨k', hsz, hf.trans hf'⟩

section

variable (hs : Sized m as l) (hin : seg ∈ l) (hn : Sized m newas k) (hdisj : ∀ s ∈ l, s ∉ k)
include hs hin hn hdisj

theorem dupOne_spec {d : Dup} (hone : m.dupOne newas d seg = some (m', r)) :
    (r = none → Frame m k m' []) ∧ ∀ newas', r = some newas' →
      ∃ k', Sized m' newas' k' ∧ Frame m k m' k' ∧ Sized m' as l ∧ ∀ s ∈ l, s ∉ k' := by
  have hgiven : ∀ {m₁ : Segs} {as₁ : As} {k₁ : List Nat}, Frame m k m₁ k₁ → Rep m₁ as₁ k₁ →
      m₁.dupFail as₁ = some (m', r) → (r = none → Frame m k m' []) ∧ ∀ newas', r = some newas' →
      ∃ k', Sized m' newas' k' ∧ Frame m k m' k' ∧ Sized m' as l ∧ ∀ s ∈ l, s ∉ k' := by
    intro m₁ as₁ k₁ hf₁ hr₁ hfail
    have hd := (dupFail_spec hr₁ hfail).after hf₁
    have hnone : r = none := by
      unfold dupFail at hfail
      split at hfail
      · cases hfail
      · cases hfail
        rfl
    subst hnone
    exact ⟨fun _ => hd, nofun⟩
  unfold dupOne at hone
  split at hone
  · cases hone
  rename_i hnew
  have hal := hs.aligned seg hin
  have hplace := hs.rep.place seg hin
  have hk : KVBASE < word := by decide
  have hbase : pageDown (m.sBase seg) = m.sBase seg := pageDown_eq hal.1
  have hsum : add32 (m.sBase seg) (m.sSize seg) = m.sBase seg + m.sSize seg :=
    Nat.mod_eq_of_lt (by omega)
  have hsize : sub32 (pageUp (add32 (m.sBase seg) (m.sSize seg))) (pageDown (m.sBase seg)) =
      m.sSize seg := by
    rw [hbase, hsum, pageUp_eq (pages_add hal.1 hal.2) hplace.2, sub32_eq (by omega) (by omega)]
    exact Nat.add_sub_cancel_left _ _
  rcases segAlloc_spec hn.rep hnew (m.sBase seg) (m.sSize seg) with
    ⟨hnone, _⟩ | ⟨m₁, as₁, a, b, hrun, hsplit, hr₁, hf₁, hbn, hsn, hkeep, hused, hz₁, _⟩
  · rw [hnone] at hone
    exact hgiven (Frame.refl m k) hn.rep hone
  rw [hrun] at hone
  rw [hsize] at hsn
  have hnewk : d.new seg ∉ k := fun hmem => hnew (hn.rep.used _ hmem)
  have hnewl : ∀ s ∈ l, s ≠ d.new seg := fun s hmem heq => hnew (heq ▸ hs.rep.used s hmem)
  have hsegsize : m₁.sSize seg = m.sSize seg := (hkeep seg (hnewl seg hin)).2
  have hs₁ : Sized m₁ as l := hs.frame hf₁ hdisj
  have hdisj₁ : ∀ s ∈ l, s ∉ a ++ d.new seg :: b := by
    intro s hmem hmem'
    rcases mem_append.mp hmem' with hpart | hpart
    · exact hdisj s hmem (hsplit ▸ mem_append_left _ hpart)
    · rcases mem_cons.mp hpart with heq | hpart
      · exact hnewl s hmem heq
      · exact hdisj s hmem (hsplit ▸ mem_append_right _ hpart)
  have hsame : total m₁ (a ++ b) = total m k := by
    rw [hsplit]
    exact total_congr fun t ht => (hkeep t fun heq => hnewk (by rw [hsplit, ← heq]; exact ht)).2
  have hal₁ : Aligned m₁ (a ++ d.new seg :: b) := by
    intro t ht
    by_cases htn : t = d.new seg
    · rw [htn, hbn, hsn, hbase]
      exact hal
    · rw [(hkeep t htn).1, (hkeep t htn).2]
      refine hn.aligned t ?_
      rw [hsplit]
      simp only [mem_append, mem_cons] at ht ⊢
      tauto
  have hpart : (a ++ b).Sublist (a ++ d.new seg :: b) :=
    (sublist_cons_self (d.new seg) b).append_left a
  cases hres : d.dup seg with
  | copied =>
    rw [hres] at hone
    cases hone
    refine ⟨nofun, ?_⟩
    rintro newas' ⟨rfl⟩
    refine ⟨_, ⟨hr₁.of_as rfl hr₁.last, ?_, hal₁⟩, hf₁, hs₁, hdisj₁⟩
    rw [hz₁, hn.size, total_middle, hsn, hsame, hsegsize]
    ring
  | skipped =>
    have hr₂ : Rep m₁ { as₁ with aSize := as₁.aSize - m₁.sSize seg } (a ++ d.new seg :: b) :=
      hr₁.of_as rfl hr₁.last
    obtain ⟨m₂, as₂, hfree, hr₃, hbase₂, hsize₂, _, hz₂, _, hf₂⟩ := segFree_spec hr₂
    rw [hres] at hone
    simp only [dupSeg, hfree] at hone
    cases hone
    refine ⟨nofun, ?_⟩
    rintro newas' ⟨rfl⟩
    refine ⟨_, ⟨hr₃.of_as rfl hr₃.last, ?_,
      hal₁.subset (fun t ht => hpart.subset ht) hbase₂ hsize₂⟩, hf₁.trans hf₂,
      hs₁.frame hf₂ hdisj₁, fun s hmem hmem' => hdisj₁ s hmem (hpart.subset hmem')⟩
    have hz : as₂.aSize = as₁.aSize - m₁.sSize seg := hz₂
    rw [hz, hz₁, hn.size, hsize₂, total_congr fun t _ => congrFun hsize₂ t, hsame]
    ring
  | failed =>
    obtain ⟨m₂, as₂, hfree, hr₃, _, _, _, _, _, hf₂⟩ := segFree_spec hr₁
    rw [hres] at hone
    simp only [dupSeg, hfree] at hone
    exact hgiven (hf₁.trans hf₂) hr₃ hone

theorem dupLoop_spec {d : Dup} {sseg fuel : Nat}
    (hdup : dupLoop d sseg fuel seg m newas = some (m', r)) : Duplicated m k m' r := by
  induction fuel generalizing m newas k seg with
  | zero => cases hdup
  | succ fuel ih =>
    rw [dupLoop] at hdup
    split at hdup
    · cases hdup
    · rename_i m₁ hone
      cases hdup
      exact (dupOne_spec hs hin hn hdisj hone).1 rfl
    · rename_i m₁ newas₁ hone
      obtain ⟨k₁, hn₁, hf₁, hs₁, hdisj₁⟩ := (dupOne_spec hs hin hn hdisj hone).2 _ rfl
      split at hdup
      · refine Duplicated.after hf₁ (ih hs₁ ?_ hn₁ hdisj₁ hdup)
        have hring := hs₁.rep.ring
        revert hring hin
        cases l with
        | nil => exact fun hin => absurd hin not_mem_nil
        | cons h t => exact fun hin hring => (Closed.neighbours hring hin).1
      · split at hdup
        · cases hdup
          exact ⟨k₁, hn₁, hf₁⟩
        · exact Duplicated.after hf₁ (dupFail_spec hn₁.rep hdup)

end

theorem asAlloc_sized (m : Segs) : Sized m asAlloc [] :=
  ⟨⟨rfl, trivial, nofun, nofun, List.Pairwise.nil, nofun⟩, rfl, nofun⟩

theorem asDup_spec {d : Dup} (hs : Sized m as l)
    (hdup : m.asDup as d = some (m', r)) : Duplicated m [] m' r := by
  unfold asDup at hdup
  split at hdup
  · split at hdup
    · cases hdup
      exact ⟨[], asAlloc_sized _, Frame.refl _ _⟩
    · exact dupFail_spec (asAlloc_sized m).rep hdup
  · rename_i sseg hfirst
    rw [hs.rep.first] at hfirst
    exact dupLoop_spec hs (mem_of_mem_head? hfirst) (asAlloc_sized m) (fun _ _ => not_mem_nil) hdup

end Dup

/-!
## Moving the stack
-/

section Exec

variable {m m' : Segs} {oas nas oas' nas' : As} {l : List Nat}

theorem asExec_spec {ostka stksz nstka : Nat} (hs : Sized m oas l) (hn : Sized m nas [])
    (hvalid : validUsrRange nstka stksz = true) (hpages : nstka % PAGESIZE = 0)
    (hexec : m.asExec oas ostka stksz nas nstka = some (m', oas', nas')) :
    ∃ l' s, Sized m' oas' l' ∧ Sized m' nas' [s] ∧ s ∈ l ∧ s ∉ l' ∧ (∀ t ∈ l', t ∈ l) ∧
      Frame m l m' (s :: l') := by
  unfold asExec at hexec
  split at hexec
  · rename_i oas₁ stkseg hsegat
    obtain ⟨hr₁, hz₁, _, _, hin⟩ := asSegat_rep hs.rep hsegat
    have hmem : stkseg ∈ l := hin stkseg rfl
    obtain ⟨a, b, rfl⟩ := append_of_mem hmem
    obtain ⟨m₂, oas₂, hremove, hr₂, hbase₂, hsize₂, hused₂, hz₂, _, hother₂⟩ := asRemove_spec hr₁
    split at hexec
    · rename_i hwhole
      simp only [hremove] at hexec
      have hnodup := hs.rep.ring.nodup
      have hsnot : stkseg ∉ a ++ b := by
        rw [perm_middle.nodup_iff] at hnodup
        exact (nodup_cons.mp hnodup).1
      have hpart : (a ++ b).Sublist (a ++ stkseg :: b) :=
        (sublist_cons_self stkseg b).append_left a
      have hplace := hs.rep.place stkseg hmem
      have hk : KVBASE < word := by decide
      have hrange := (validUsrRange_iff (by omega)).mp hvalid
      -- the stack at its new place
      let m₃ := m₂.setBase stkseg nstka
      have hb₃ : m₃.sBase stkseg = nstka := update_self _ _ _
      have hbo : ∀ t, t ≠ stkseg → m₃.sBase t = m.sBase t := by
        intro t ht
        rw [← hbase₂]
        exact update_of_ne ht _ _
      have hz₃ : m₃.sSize = m.sSize := hsize₂
      have hne : ∀ t ∈ a ++ b, t ≠ stkseg := by
        rintro t ht rfl
        exact hsnot ht
      have hr₃ : Rep m₃ oas₂ (a ++ b) := hr₂.congr (fun _ _ => rfl) (fun _ _ => rfl)
        (fun t ht => update_of_ne (hne t ht) _ _) (fun _ _ => rfl) hr₂.used
      have hnas : Rep m₃ { nas with aSize := nas.aSize + m₃.sSize stkseg } [] :=
        ⟨hn.rep.first, trivial, nofun, nofun, List.Pairwise.nil, hn.rep.last⟩
      have hin₃ : stkseg ∈ m₃.used := by
        change stkseg ∈ m₂.used
        rw [hused₂]
        exact hs.rep.used stkseg hmem
      rcases asAddseg_spec hnas not_mem_nil hin₃ (by rw [hb₃, hz₃]; omega) with
        ⟨_, t, ht, _⟩ | ⟨m₄, nas₄, c, d, hadd, hnil, hr₄, hbase₄, hsize₄, hused₄, _, hz₄, _, hother₄⟩
      · exact absurd ht not_mem_nil
      · obtain ⟨rfl, rfl⟩ := append_eq_nil_iff.mp hnil.symm
        rw [hadd] at hexec
        cases hexec
        have hkeep : ∀ t ∈ a ++ b, m₄.sNext t = m₃.sNext t ∧ m₄.sPrev t = m₃.sPrev t :=
          fun t ht => hother₄ t not_mem_nil (hne t ht)
        refine ⟨a ++ b, stkseg, ⟨?_, ?_, ?_⟩, ⟨hr₄, ?_, ?_⟩, hmem, hsnot,
          fun t ht => hpart.subset ht, ?_⟩
        · have hr₅ : Rep m₄ oas₂ (a ++ b) := hr₃.congr (fun t ht => (hkeep t ht).1)
            (fun t ht => (hkeep t ht).2) (fun t _ => congrFun hbase₄ t)
            (fun t _ => congrFun hsize₄ t) fun t ht => by rw [hused₄]; exact hr₃.used t ht
          exact hr₅.of_as rfl hr₅.last
        · rw [total_congr fun t _ => congrFun hsize₄ t, total_congr fun t _ => congrFun hz₃ t, hz₃,
            hz₂, hz₁, hs.size, total_middle]
          ring
        · intro t ht
          rw [hbase₄, hsize₄, hbo t (hne t ht), hz₃]
          exact hs.aligned t (hpart.subset ht)
        · rw [hz₄, total_cons, total_nil, hsize₄]
          rw [hn.size, total_nil]
          ring
        · intro t ht
          rw [mem_singleton.mp ht, hbase₄, hsize₄, hb₃, hz₃]
          exact ⟨hpages, (hs.aligned stkseg hmem).2⟩
        · have hout : ∀ t, t ∉ a ++ stkseg :: b → t ≠ stkseg := by
            rintro t ht rfl
            exact ht (by simp)
          refine ⟨fun t _ ht => ?_, fun t _ ht => ?_, fun t _ ht => ?_, fun t _ _ => ?_,
            fun t hu _ => ?_, fun t ht => Or.inl ?_, fun hnd => ?_⟩
          · rw [(hother₄ t not_mem_nil (hout t ht)).1]
            exact (hother₂ t ht).1
          · rw [(hother₄ t not_mem_nil (hout t ht)).2]
            exact (hother₂ t ht).2
          · rw [hbase₄]
            exact hbo t (hout t ht)
          · rw [hsize₄, hz₃]
          · rw [hused₄]
            change t ∈ m₂.used
            rw [hused₂]
            exact hu
          · rcases mem_cons.mp ht with rfl | ht
            · exact hmem
            · exact hpart.subset ht
          · rw [hused₄]
            change m₂.used.Nodup
            rw [hused₂]
            exact hnd
    · cases hexec
  · cases hexec

end Exec

end Segs

/-!
## The invariant
-/

namespace World

/-- The segments of the address spaces, as lists that share nothing. -/
structure Listed (w : World) (L : Nat → List Nat) : Prop where
  sized : ∀ i as, w.spaces i = some as → Sized w.segs as (L i)
  absent : ∀ i, w.spaces i = none → L i = []
  disjoint : ∀ i j, i ≠ j → ∀ s ∈ L i, s ∉ L j

section Invariant

variable {w w' : World} {L : Nat → List Nat}

theorem Listed.used {s : Nat} (hw : w.Listed L) (hs : s ∈ L i) : s ∈ w.segs.used := by
  cases hi : w.spaces i with
  | none =>
    rw [hw.absent i hi] at hs
    cases hs
  | some as => exact (hw.sized i as hi).rep.used s hs

theorem Listed.change {C : Nat → Prop} {K : Nat → List Nat} {l' : List Nat} (hw : w.Listed L)
    (hf : Frame w.segs (L i) w'.segs l') (hi : C i) (hother : ∀ j, ¬ C j → w'.spaces j = w.spaces j)
    (hsized : ∀ j as, C j → w'.spaces j = some as → Sized w'.segs as (K j))
    (hnone : ∀ j, C j → w'.spaces j = none → K j = []) (hsub : ∀ j, C j → ∀ s ∈ K j, s ∈ l')
    (hdisj : ∀ j j', C j → C j' → j ≠ j' → ∀ s ∈ K j, s ∉ K j') : ∃ L', w'.Listed L' := by
  classical
  have hdiff : ∀ j, ¬ C j → ∀ s ∈ L j, s ∉ L i := by
    intro j hj
    refine hw.disjoint j i ?_
    rintro rfl
    exact hj hi
  have hmixed : ∀ j j', C j → ¬ C j' → ∀ s ∈ K j, s ∉ L j' := by
    intro j j' hj hj' s hs hs'
    rcases hf.fresh s (hsub j hj s hs) with hmem | hnot
    · exact hdiff j' hj' s hs' hmem
    · exact hnot (hw.used hs')
  refine ⟨fun j => if C j then K j else L j, ?_, ?_, ?_⟩
  · intro j as has
    by_cases hj : C j
    · simp only [if_pos hj]
      exact hsized j as hj has
    · simp only [if_neg hj]
      rw [hother j hj] at has
      exact (hw.sized j as has).frame hf (hdiff j hj)
  · intro j has
    by_cases hj : C j
    · simp only [if_pos hj]
      exact hnone j hj has
    · simp only [if_neg hj]
      rw [hother j hj] at has
      exact hw.absent j has
  · intro j j' hne s hs hs'
    by_cases hj : C j
    · simp only [if_pos hj] at hs
      by_cases hj' : C j'
      · simp only [if_pos hj'] at hs'
        exact hdisj j j' hj hj' hne s hs hs'
      · simp only [if_neg hj'] at hs'
        exact hmixed j j' hj hj' s hs hs'
    · simp only [if_neg hj] at hs
      by_cases hj' : C j'
      · simp only [if_pos hj'] at hs'
        exact hmixed j' j hj' hj s hs' hs
      · simp only [if_neg hj'] at hs'
        exact hw.disjoint j j' hne s hs hs'

theorem Listed.one {m' : Segs} {k : List Nat} (hw : w.Listed L) (hf : Frame w.segs (L i) m' k)
    (hsized : ∀ as, r = some as → Sized m' as k) (hnone : r = none → k = []) :
    ∃ L', Listed { segs := m', spaces := update w.spaces i r } L' := by
  refine hw.change (C := fun j => j = i) (K := fun _ => k) hf rfl ?_ ?_ ?_ ?_ ?_
  · intro j hj
    exact update_of_ne hj _ _
  · rintro j as rfl has
    change update w.spaces j r j = _ at has
    rw [update_self] at has
    exact hsized as has
  · rintro j rfl has
    change update w.spaces j r j = _ at has
    rw [update_self] at has
    exact hnone has
  · rintro j _ s hs
    exact hs
  · rintro j j' rfl rfl hne
    exact absurd rfl hne

theorem Listed.onSpace {f : As → Option (Segs × As)} (hw : w.Listed L)
    (hf : ∀ as m' as', w.spaces i = some as → f as = some (m', as') →
      ∃ l', Sized m' as' l' ∧ Frame w.segs (L i) m' l')
    (hstep : w.onSpace i f = some w') : ∃ L', w'.Listed L' := by
  unfold World.onSpace at hstep
  split at hstep
  · cases hstep
  · rename_i as has
    split at hstep
    · cases hstep
    · rename_i r hr
      cases hstep
      obtain ⟨l', hs', hframe⟩ := hf as r.1 r.2 has hr
      refine hw.one hframe ?_ nofun
      rintro as' ⟨rfl⟩
      exact hs'

theorem Listed.step {e : Event} (hw : w.Listed L) (hstep : w.Step e w') : ∃ L', w'.Listed L' := by
  change w.exec e = some w' at hstep
  cases e with
  | asAlloc i =>
    unfold World.exec at hstep
    simp only at hstep
    split at hstep
    · rename_i hi
      cases hstep
      refine hw.one (k := []) ?_ ?_ nofun
      · rw [hw.absent i hi]
        exact Frame.refl _ _
      · rintro as ⟨rfl⟩
        exact Segs.asAlloc_sized _
    · cases hstep
  | asFree i =>
    unfold World.exec at hstep
    simp only at hstep
    split at hstep
    · cases hstep
    · rename_i as has
      obtain ⟨m', hfree, hf⟩ := Segs.asFree_spec (hw.sized i as has).rep
      rw [hfree] at hstep
      cases hstep
      exact hw.one hf nofun fun _ => rfl
  | segat i addr =>
    refine hw.onSpace ?_ hstep
    intro as m' as' has hf
    obtain ⟨r, hr, heq⟩ := Option.map_eq_some_iff.mp hf
    cases heq
    have hs := hw.sized i as has
    obtain ⟨hr₁, hz₁, _, _, _⟩ := Segs.asSegat_rep hs.rep hr
    exact ⟨L i, ⟨hr₁, hz₁.trans hs.size, hs.aligned⟩, Frame.refl _ _⟩
  | paglck i on =>
    unfold World.exec at hstep
    refine hw.onSpace ?_ hstep
    intro as m' as' has hf
    cases hf
    have hs := hw.sized i as has
    exact ⟨L i, ⟨hs.rep.of_as rfl hs.rep.last, hs.size, hs.aligned⟩, Frame.refl _ _⟩
  | map i addr size p =>
    refine hw.onSpace ?_ hstep
    intro as m' as' has hf
    obtain ⟨r, hr, heq⟩ := Option.map_eq_some_iff.mp hf
    cases heq
    exact Segs.asMap_spec (hw.sized i as has) hr
  | unmap i addr size u =>
    unfold World.exec at hstep
    simp only at hstep
    split at hstep
    · rename_i hvalid
      refine hw.onSpace ?_ hstep
      intro as m' as' has hf
      obtain ⟨r, hr, heq⟩ := Option.map_eq_some_iff.mp hf
      cases heq
      by_cases hnew : u.new ∈ w.segs.used
      · unfold Segs.asUnmap at hr
        rw [if_pos hnew] at hr
        cases hr
      · obtain ⟨m₁, as₁, l₁, ok, hunmap, hs₁, hf₁, _⟩ := Segs.asUnmap_spec (hw.sized i as has)
          (Segs.pages_of_validUsrRange hvalid) hnew
        rw [hunmap] at hr
        cases hr
        exact ⟨l₁, hs₁, hf₁⟩
    · cases hstep
  | dup i j d =>
    unfold World.exec at hstep
    simp only at hstep
    split at hstep
    · cases hstep
    · rename_i as has
      split at hstep
      · rename_i hj
        split at hstep
        · cases hstep
        · rename_i m' newas hdup
          cases hstep
          have hd := Segs.asDup_spec (hw.sized i as has) hdup
          cases newas with
          | none =>
            refine hw.one ?_ nofun fun _ => rfl
            rw [hw.absent j hj]
            exact hd
          | some newas =>
            obtain ⟨k', hs', hf⟩ := hd
            refine hw.one (k := k') ?_ ?_ nofun
            · rw [hw.absent j hj]
              exact hf
            · rintro as' ⟨rfl⟩
              exact hs'
      · cases hstep
  | exec i j ostka stksz nstka =>
    unfold World.exec at hstep
    simp only at hstep
    split at hstep
    · rename_i oas nas hi hj
      split at hstep
      · rename_i hguard
        split at hstep
        · cases hstep
        · rename_i m' oas' nas' hexec
          cases hstep
          have hlj : L j = [] := by
            have hfirst := (hw.sized j nas hj).rep.first
            rw [hguard.2.1] at hfirst
            exact List.head?_eq_none_iff.mp hfirst.symm
          have hn := hw.sized j nas hj
          rw [hlj] at hn
          obtain ⟨l', s, hs', hn', hin, hout, hsub, hf⟩ :=
            Segs.asExec_spec (hw.sized i oas hi) hn hguard.2.2.1 hguard.2.2.2 hexec
          refine hw.change (C := fun k => k = i ∨ k = j)
            (K := fun k => if k = j then [s] else l') hf (Or.inl rfl) ?_ ?_ ?_ ?_ ?_
          · intro k hk
            rw [not_or] at hk
            change update (update w.spaces i (some oas')) j (some nas') k = _
            rw [update_of_ne hk.2, update_of_ne hk.1]
          · intro k as hk has
            change update (update w.spaces i (some oas')) j (some nas') k = _ at has
            by_cases hkj : k = j
            · rw [hkj, update_self] at has
              cases has
              simp only [if_pos hkj]
              exact hn'
            · have hki : k = i := hk.resolve_right hkj
              rw [update_of_ne hkj, hki, update_self] at has
              cases has
              simp only [if_neg hkj]
              exact hs'
          · intro k hk has
            change update (update w.spaces i (some oas')) j (some nas') k = _ at has
            by_cases hkj : k = j
            · rw [hkj, update_self] at has
              cases has
            · have hki : k = i := hk.resolve_right hkj
              rw [update_of_ne hkj, hki, update_self] at has
              cases has
          · intro k _ t ht
            by_cases hkj : k = j
            · simp only [if_pos hkj] at ht
              rw [mem_singleton.mp ht]
              exact mem_cons_self
            · simp only [if_neg hkj] at ht
              exact mem_cons_of_mem _ ht
          · intro k k' hk hk' hne t ht ht'
            by_cases hkj : k = j
            · have hkj' : k' ≠ j := fun heq => hne (hkj.trans heq.symm)
              simp only [if_pos hkj] at ht
              simp only [if_neg hkj'] at ht'
              rw [mem_singleton.mp ht] at ht'
              exact hout ht'
            · have hkj' : k' = j := by
                rcases hk' with heq | heq
                · exact absurd ((hk.resolve_right hkj).trans heq.symm) hne
                · exact heq
              simp only [if_neg hkj] at ht
              simp only [if_pos hkj'] at ht'
              rw [mem_singleton.mp ht'] at ht
              exact hout ht
      · cases hstep
    · cases hstep

theorem reachable_listed (hw : Transition.Reachable Start Step w) : ∃ L, w.Listed L := by
  refine Transition.Reachable.invariant (I := fun w => ∃ L, w.Listed L) ?_ ?_ hw
  · rintro w rfl
    exact ⟨fun _ => [], nofun, fun _ _ => rfl, fun _ _ _ _ hs => absurd hs not_mem_nil⟩
  · rintro w e w' ⟨L, hL⟩ hstep
    exact hL.step hstep

end Invariant

end World

end Space
end Svr4
