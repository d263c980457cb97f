import Svr4.Space.Lists

/-!
# Operations on address spaces

What mapping, unmapping, duplicating and moving segments do to the list of an
address space and to the sum of their sizes.
-/

namespace Svr4
namespace Space

open Function Rings List

theorem pages_add {a b : Nat} (ha : a % PAGESIZE = 0) (hb : b % PAGESIZE = 0) :
    (a + b) % PAGESIZE = 0 := by
  unfold PAGESIZE at *
  omega

theorem pages_sub {a b : Nat} (ha : a % PAGESIZE = 0) (hb : b % PAGESIZE = 0) :
    (a - b) % PAGESIZE = 0 := by
  unfold PAGESIZE at *
  omega

def Aligned (m : Segs) (l : List Nat) : Prop :=
  ∀ s ∈ l, m.sBase s % PAGESIZE = 0 ∧ m.sSize s % PAGESIZE = 0

/-- An address space with its list, and its size. -/
structure Sized (m : Segs) (as : As) (l : List Nat) : Prop where
  rep : Rep m as l
  size : as.aSize = total m l
  aligned : Aligned m l

section Fields

variable {m m' : Segs} {as as' : As} {l a b : List Nat} {s : Nat}

theorem total_middle (m : Segs) (a b : List Nat) (s : Nat) :
    total m (a ++ s :: b) = m.sSize s + total m (a ++ b) := by
  rw [total_append, total_cons, total_append]
  ring

theorem Sized.frame {k l' : List Nat} (hr : Sized m as l) (hf : Frame m k m' l')
    (hout : ∀ s ∈ l, s ∉ k) : Sized m' as l where
  rep := hr.rep.frame hf hout
  size := by
    rw [total_congr fun s hs => hf.size s (hr.rep.used s hs) (hout s hs)]
    exact hr.size
  aligned s hs := by
    rw [hf.base s (hr.rep.used s hs) (hout s hs), hf.size s (hr.rep.used s hs) (hout s hs)]
    exact hr.aligned s hs

theorem Aligned.subset {l' : List Nat} (ha : Aligned m l) (hsub : ∀ s ∈ l', s ∈ l)
    (hbase : m'.sBase = m.sBase) (hsize : m'.sSize = m.sSize) : Aligned m' l' := by
  intro s hs
  rw [hbase, hsize]
  exact ha s (hsub s hs)

theorem Aligned.resize {n : Segs} {l' : List Nat} (ha : Aligned m l) (hsub : ∀ t ∈ l', t ∈ l ∨ t = s)
    (hbase : ∀ t, t ≠ s → n.sBase t = m.sBase t) (hsize : ∀ t, t ≠ s → n.sSize t = m.sSize t)
    (hs : n.sBase s % PAGESIZE = 0 ∧ n.sSize s % PAGESIZE = 0) : Aligned n l' := by
  intro t ht
  by_cases hts : t = s
  · rw [hts]
    exact hs
  · rw [hbase t hts, hsize t hts]
    rcases hsub t ht with hmem | heq
    · exact ha t hmem
    · exact absurd heq hts

theorem Rep.resize {n : Segs} (hr : Rep m as (a ++ s :: b)) (hnext : n.sNext = m.sNext)
    (hprev : n.sPrev = m.sPrev) (hused : n.used = m.used)
    (hbase : ∀ t, t ≠ s → n.sBase t = m.sBase t) (hsize : ∀ t, t ≠ s → n.sSize t = m.sSize t)
    (hplace : 0 < n.sSize s ∧ n.sBase s + n.sSize s < KVBASE)
    (hbefore : ∀ t ∈ a, m.sBase t + m.sSize t ≤ n.sBase s)
    (hafter : ∀ t ∈ b, n.sBase s + n.sSize s ≤ m.sBase t) :
    Rep n as (a ++ s :: b) ∧ Frame m (a ++ s :: b) n (a ++ s :: b) ∧
      total n (a ++ s :: b) = total m (a ++ s :: b) + n.sSize s - m.sSize s := by
  have hnodup := hr.ring.nodup
  have hsnot : s ∉ a ++ b := by
    rw [perm_middle.nodup_iff] at hnodup
    exact (nodup_cons.mp hnodup).1
  have hne : ∀ t ∈ a ++ b, t ≠ s := by
    rintro t ht rfl
    exact hsnot ht
  refine ⟨⟨hr.first, ?_, ?_, ?_, ?_, hr.last⟩, ?_, ?_⟩
  · exact hr.ring.congr (fun t _ => congrFun hnext t) fun t _ => congrFun hprev t
  · rw [hused]
    exact hr.used
  · intro t ht
    by_cases hts : t = s
    · rw [hts]
      exact hplace
    · rw [hbase t hts, hsize t hts]
      exact hr.place t ht
  · obtain ⟨ha, hb, hab⟩ := pairwise_append.mp hr.sorted
    have hin : ∀ t ∈ a, t ≠ s := fun t ht => hne t (mem_append_left _ ht)
    have hin' : ∀ t ∈ b, t ≠ s := fun t ht => hne t (mem_append_right _ ht)
    refine pairwise_append.mpr ⟨?_, pairwise_cons.mpr ⟨?_, ?_⟩, ?_⟩
    · refine ha.imp_of_mem fun {t t'} ht ht' hle => ?_
      rw [hbase t (hin t ht), hsize t (hin t ht), hbase t' (hin t' ht')]
      exact hle
    · intro t ht
      rw [hbase t (hin' t ht)]
      exact hafter t ht
    · refine (pairwise_cons.mp hb).2.imp_of_mem fun {t t'} ht ht' hle => ?_
      rw [hbase t (hin' t ht), hsize t (hin' t ht), hbase t' (hin' t' ht')]
      exact hle
    · intro t ht t' ht'
      rw [hbase t (hin t ht), hsize t (hin t ht)]
      rcases mem_cons.mp ht' with rfl | hmem
      · exact hbefore t ht
      · rw [hbase t' (hin' t' hmem)]
        exact hab t ht t' ht'
  · have hother : ∀ t, t ∉ a ++ s :: b → t ≠ s := by
      rintro t ht rfl
      exact ht (by simp)
    refine ⟨fun t _ _ => congrFun hnext t, fun t _ _ => congrFun hprev t,
      fun t _ ht => hbase t (hother t ht), fun t _ ht => hsize t (hother t ht), fun t ht _ => ?_,
      fun t ht => .inl ht, fun hnd => ?_⟩
    · rw [hused]
      exact ht
    · rw [hused]
      exact hnd
  · have hrest : total n (a ++ b) = total m (a ++ b) :=
      total_congr fun t ht => hsize t (hne t ht)
    rw [total_middle, total_middle, hrest]
    ring

end Fields

namespace Segs

/-!
## Making a segment
-/

section Alloc

variable {m : Segs} {as : As} {l : List Nat} {new : Nat}

theorem validUsrRange_iff {base len : Nat} (hlen : len < word) :
    validUsrRange base len = true ↔ 0 < len ∧ base + len < KVBASE := by
  have hk : KVBASE < word := by decide
  unfold validUsrRange
  rw [decide_eq_true_eq]
  by_cases hsmall : base + len < word
  · have hsum : add32 base len = base + len := Nat.mod_eq_of_lt hsmall
    omega
  · constructor
    · rintro ⟨hgt, _⟩
      have hsum : add32 base len = base + len - word := by
        unfold add32
        rw [Nat.mod_eq_sub_mod (by omega), Nat.mod_eq_of_lt (by omega)]
      omega
    · omega

theorem sub32_lt (a b : Nat) : sub32 a b < word := Nat.mod_lt _ (by decide)

theorem segAlloc_spec (hr : Rep m as l) (hnew : new ∉ m.used) (base size : Nat) :
    (m.segAlloc as base size new = some none ∧
      ∀ n, n = sub32 (pageUp (add32 base size)) (pageDown base) → 0 < n →
        pageDown base + n < KVBASE → Overlaps m l (pageDown base) n) ∨
    ∃ m' as' a b, m.segAlloc as base size new = some (some (m', as')) ∧ l = a ++ b ∧
      Rep m' as' (a ++ new :: b) ∧ Frame m l m' (a ++ new :: b) ∧ m'.sBase new = pageDown base ∧
      m'.sSize new = sub32 (pageUp (add32 base size)) (pageDown base) ∧
      (∀ t, t ≠ new → m'.sBase t = m.sBase t ∧ m'.sSize t = m.sSize t) ∧
      m'.used = new :: m.used ∧ as'.aSize = as.aSize ∧ as'.aPaglck = as.aPaglck := by
  have hnl : new ∉ l := fun hmem => hnew (hr.used new hmem)
  unfold segAlloc
  simp only
  split
  · rename_i hbad
    refine .inl ⟨rfl, fun n hn hpos hsmall => absurd ?_ hbad⟩
    have hsum : add32 (pageDown base) n = pageDown base + n :=
      Nat.mod_eq_of_lt (by unfold KVBASE word at *; omega)
    have hsub : sub32 (pageDown base + n) (pageDown base) = n := by
      unfold sub32
      rw [Nat.add_assoc, Nat.add_sub_cancel_left, Nat.add_mod_right]
      exact Nat.mod_eq_of_lt (by unfold KVBASE word at *; omega)
    unfold validVaRange
    rw [← hn]
    simp only
    rw [hsum, hsub]
    exact decide_eq_true ⟨by omega, by omega⟩
  · split
    · rename_i hbad
      refine .inl ⟨rfl, fun n hn hpos hsmall => absurd ?_ hbad⟩
      rw [← hn]
      refine (validUsrRange_iff ?_).mpr ⟨hpos, hsmall⟩
      rw [hn]
      exact sub32_lt _ _
    · rename_i hva husr
      have husr : validUsrRange (pageDown base)
          (sub32 (pageUp (add32 base size)) (pageDown base)) = true := by simpa using husr
      have hplace := (validUsrRange_iff (sub32_lt _ _)).mp husr
      let m₁ : Segs := { (m.setBase new (pageDown base)).setSize new
        (sub32 (pageUp (add32 base size)) (pageDown base)) with used := new :: m.used }
      have hb₁ : m₁.sBase new = pageDown base := update_self _ _ _
      have hs₁ : m₁.sSize new = sub32 (pageUp (add32 base size)) (pageDown base) :=
        update_self _ _ _
      have hb : ∀ s, s ≠ new → m₁.sBase s = m.sBase s := fun s hs => update_of_ne hs _ _
      have hs : ∀ s, s ≠ new → m₁.sSize s = m.sSize s := fun s hs => update_of_ne hs _ _
      have hne : ∀ s ∈ l, s ≠ new := by
        rintro s hmem rfl
        exact hnl hmem
      have hr₁ : Rep m₁ as l := hr.congr (fun _ _ => rfl) (fun _ _ => rfl)
        (fun s hmem => hb s (hne s hmem)) (fun s hmem => hs s (hne s hmem))
        fun s hmem => mem_cons_of_mem _ (hr.used s hmem)
      have hadd := asAddseg_spec hr₁ hnl mem_cons_self (by rw [hb₁, hs₁]; exact hplace)
      rcases hadd with ⟨hnone, hwhy⟩ | ⟨m', as', a, b, hrun, hsplit, hr', hbase, hsize, hused, _, hz, hp, hother⟩
      · refine .inl ⟨?_, fun n hn _ _ => ?_⟩
        · rw [hnone]
        · rw [hb₁, hs₁, ← hn] at hwhy
          obtain ⟨t, ht, hlo, hhi⟩ := hwhy
          rw [hb t (hne t ht)] at hlo hhi
          rw [hs t (hne t ht)] at hhi
          exact ⟨t, ht, hlo, hhi⟩
      · refine .inr ⟨m', as', a, b, ?_, hsplit, hr', ?_, ?_, ?_, ?_, hused, hz, hp⟩
        · rw [hrun]
        · have hneu : ∀ s ∈ m.used, s ≠ new := by
            rintro s hmem rfl
            exact hnew hmem
          refine ⟨fun s hmem hout => (hother s hout (hneu s hmem)).1,
            fun s hmem hout => (hother s hout (hneu s hmem)).2, fun s hmem _ => ?_,
            fun s hmem _ => ?_, fun s hmem _ => ?_, fun s hmem => ?_, fun hnd => ?_⟩
          · rw [hbase]
            exact hb s (hneu s hmem)
          · rw [hsize]
            exact hs s (hneu s hmem)
          · rw [hused]
            exact mem_cons_of_mem _ hmem
          · rcases mem_append.mp hmem with hmem | hmem
            · exact .inl (hsplit ▸ mem_append_left _ hmem)
            · rcases mem_cons.mp hmem with rfl | hmem
              · exact .inr hnew
              · exact .inl (hsplit ▸ mem_append_right _ hmem)
          · rw [hused]
            exact nodup_cons.mpr ⟨hnew, hnd⟩
        · rw [hbase, hb₁]
        · rw [hsize, hs₁]
        · intro t ht
          rw [hbase, hsize]
          exact ⟨hb t ht, hs t ht⟩

end Alloc

/-!
## Merging
-/

section Create

variable {m m' : Segs} {as as' : As} {a b : List Nat} {new s : Nat}

theorem prev_of_end (hr : Rep m as (a ++ new :: b)) (hend : m.sEnd (m.sPrev new) = m.sBase new) :
    ∃ c, a = c ++ [m.sPrev new] := by
  have hin : m.sPrev new ∈ a ++ new :: b := by
    have hring := hr.ring
    have hmem : new ∈ a ++ new :: b := by simp
    revert hring hmem
    cases a ++ new :: b with
    | nil => exact fun _ hmem => absurd hmem not_mem_nil
    | cons h t => exact fun hring hmem => (Closed.neighbours hring hmem).2
  rw [hr.sEnd_eq hin] at hend
  have hpos := (hr.place _ hin).1
  cases a with
  | nil =>
    rcases mem_cons.mp hin with heq | hmem
    · rw [heq] at hend hpos
      omega
    · have hle := (pairwise_cons.mp hr.sorted).1 _ hmem
      omega
  | cons h a =>
    have hlast := hr.ring.prev_eq
    obtain ⟨c, hc⟩ := List.getLast?_eq_some_iff.mp hlast
    exact ⟨c, hc⟩

theorem next_of_end (hr : Rep m as (a ++ s :: b)) (hend : m.sEnd s = m.sBase (m.sNext s)) :
    ∃ d, b = m.sNext s :: d := by
  have hs : s ∈ a ++ s :: b := by simp
  rw [hr.sEnd_eq hs] at hend
  have hpos := (hr.place s hs).1
  cases b with
  | cons n d =>
    have hnext : m.sNext s = n := by
      obtain ⟨h, hh⟩ : ∃ h, (a ++ s :: n :: d).head? = some h := by
        cases a with
        | nil => exact ⟨s, rfl⟩
        | cons h a => exact ⟨h, rfl⟩
      exact hr.ring.next_eq hh
    rw [hnext]
    exact ⟨d, rfl⟩
  | nil =>
    cases a with
    | nil =>
      have hnext : m.sNext s = s := hr.ring.next_eq (a := []) (b := []) rfl
      rw [hnext] at hend
      omega
    | cons h a =>
      have hnext : m.sNext s = h := hr.ring.next_eq (a := h :: a) (b := []) rfl
      rw [hnext] at hend
      have hle := (pairwise_append.mp hr.sorted).2.2 h mem_cons_self s mem_cons_self
      omega

theorem absorb_spec {c d : List Nat} {p x : Nat} (hr : Rep m as (c ++ p :: x :: d))
    (hal : Aligned m (c ++ p :: x :: d)) (hend : m.sEnd p = m.sBase x) :
    ∃ m₁ as₁, m.segFree as x = (m₁, as₁) ∧
      Rep (m₁.setSize p (add32 (m₁.sSize p) (m.sSize x))) as₁ (c ++ p :: d) ∧
      Frame m (c ++ p :: x :: d) (m₁.setSize p (add32 (m₁.sSize p) (m.sSize x))) (c ++ p :: d) ∧
      total (m₁.setSize p (add32 (m₁.sSize p) (m.sSize x))) (c ++ p :: d) =
        total m (c ++ p :: x :: d) ∧
      Aligned (m₁.setSize p (add32 (m₁.sSize p) (m.sSize x))) (c ++ p :: d) ∧
      as₁.aSize = as.aSize ∧ as₁.aPaglck = as.aPaglck := by
  have hk : KVBASE < word := by decide
  have hall : c ++ p :: x :: d = (c ++ [p]) ++ x :: d := by simp
  have hlist : c ++ [p] ++ d = c ++ p :: d := by simp
  rw [hall] at hr hal ⊢
  have hpin : p ∈ (c ++ [p]) ++ x :: d := by simp
  have hxin : x ∈ (c ++ [p]) ++ x :: d := by simp
  have hpend := hr.sEnd_eq hpin
  have hplace := (hr.place x hxin).2
  obtain ⟨m₁, as₁, hfree, hr₁, hbase₁, hsize₁, _, hz₁, hp₁, hf₁⟩ := segFree_spec hr
  have hsum : add32 (m₁.sSize p) (m.sSize x) = m.sSize p + m.sSize x := by
    rw [hsize₁]
    exact Nat.mod_eq_of_lt (by omega)
  rw [hlist] at hr₁ hf₁
  obtain ⟨hsortp, hsortd, _⟩ := pairwise_append.mp hr.sorted
  have hsizep : (m₁.setSize p (add32 (m₁.sSize p) (m.sSize x))).sSize p =
      m.sSize p + m.sSize x := by
    rw [← hsum]
    exact update_self _ _ _
  obtain ⟨hr₂, hf₂, ht₂⟩ := hr₁.resize
    (n := m₁.setSize p (add32 (m₁.sSize p) (m.sSize x))) rfl rfl rfl (fun _ _ => rfl)
    (fun t ht => update_of_ne ht _ _)
    (by
      rw [hsizep]
      change 0 < m.sSize p + m.sSize x ∧ m₁.sBase p + (m.sSize p + m.sSize x) < KVBASE
      rw [hbase₁]
      have hpos := (hr.place p hpin).1
      omega)
    (by
      intro t ht
      change m₁.sBase t + m₁.sSize t ≤ m₁.sBase p
      rw [hbase₁, hsize₁]
      exact (pairwise_append.mp hsortp).2.2 t ht p mem_cons_self)
    (by
      intro t ht
      rw [hsizep]
      change m₁.sBase p + (m.sSize p + m.sSize x) ≤ m₁.sBase t
      rw [hbase₁]
      have hle := (pairwise_cons.mp hsortd).1 t ht
      omega)
  refine ⟨m₁, as₁, hfree, hr₂, hf₁.trans hf₂, ?_, ?_, hz₁, hp₁⟩
  · have hsame : total m₁ (c ++ p :: d) = total m (c ++ p :: d) :=
      total_congr fun t _ => congrFun hsize₁ t
    rw [ht₂, hsame, hsizep, hsize₁, total_middle m (c ++ [p]) d x, hlist]
    push_cast
    ring
  · refine (hal.subset (fun t ht => ?_) hbase₁ hsize₁).resize
      (fun t ht => .inl ht) (fun _ _ => rfl) (fun t ht => update_of_ne ht _ _) ?_
    · rcases mem_append.mp (hlist ▸ ht) with hmem | hmem
      · exact mem_append_left _ hmem
      · exact mem_append_right _ (mem_cons_of_mem _ hmem)
    · rw [hsizep]
      change m₁.sBase p % PAGESIZE = 0 ∧ _
      rw [hbase₁]
      have hp := hal p hpin
      have hn := hal x hxin
      exact ⟨hp.1, pages_add hp.2 hn.2⟩

theorem create_spec (hr : Rep m as (a ++ new :: b)) (hal : Aligned m (a ++ new :: b)) (c : Create) :
    m.create as new c = none ∨ ∃ m' as' l', m.create as new c = some (m', as') ∧ Rep m' as' l' ∧
      Frame m (a ++ new :: b) m' l' ∧ total m' l' = total m (a ++ new :: b) ∧
      Aligned m' l' ∧ as'.aSize = as.aSize ∧ as'.aPaglck = as.aPaglck := by
  have hkeep : ∃ m' as' l', some (m, as) = some (m', as') ∧ Rep m' as' l' ∧
      Frame m (a ++ new :: b) m' l' ∧ total m' l' = total m (a ++ new :: b) ∧
      Aligned m' l' ∧ as'.aSize = as.aSize ∧ as'.aPaglck = as.aPaglck :=
    ⟨m, as, _, rfl, hr, Frame.refl m _, rfl, hal, rfl, rfl⟩
  have hnewin : new ∈ a ++ new :: b := by simp
  have hend := hr.sEnd_eq hnewin
  have hk : KVBASE < word := by decide
  unfold create
  simp only
  split
  · exact .inl rfl
  refine .inr ?_
  split
  · split
    · -- the previous segment is extended
      rename_i hprev
      obtain ⟨c', rfl⟩ := prev_of_end hr hprev.1
      have hprevEnd := hprev.1
      generalize m.sPrev new = p at *
      have hall : c' ++ [p] ++ new :: b = c' ++ p :: new :: b := by simp
      rw [hall] at hr hal ⊢
      obtain ⟨m₁, as₁, hfree, hr₂, hf₂, htotal, hal₂, hz₁, hp₁⟩ := absorb_spec hr hal hprevEnd
      rw [hfree]
      split
      · -- and the next one is joined to it
        rename_i hnext
        obtain ⟨d, rfl⟩ := next_of_end hr₂ hnext.2.1
        have hnextEnd := hnext.2.1
        generalize (m₁.setSize p (add32 (m₁.sSize p) (m.sSize new))) = m₂ at *
        obtain ⟨m₃, as₃, hfree₃, hr₃, hf₃, htotal₃, hal₃, hz₃, hp₃⟩ :=
          absorb_spec hr₂ hal₂ hnextEnd
        rw [hfree₃]
        exact ⟨_, _, _, rfl, hr₃, hf₂.trans hf₃, htotal₃.trans htotal, hal₃, hz₃.trans hz₁,
          hp₃.trans hp₁⟩
      · exact ⟨_, _, _, rfl, hr₂, hf₂, htotal, hal₂, hz₁, hp₁⟩
    · split
      · -- the next segment is extended
        rename_i hnext
        obtain ⟨d, rfl⟩ := next_of_end hr hnext.1
        generalize m.sNext new = n at *
        have hnin : n ∈ a ++ new :: n :: d := by simp
        obtain ⟨m₁, as₁, hfree, hr₁, hbase₁, hsize₁, _, hz₁, hp₁, hf₁⟩ := segFree_spec hr
        have hplace := (hr.place n hnin).2
        have hpos := (hr.place new hnewin).1
        have hsum : add32 (m₁.sSize n) (m.sSize new) = m.sSize n + m.sSize new := by
          rw [hsize₁]
          exact Nat.mod_eq_of_lt (by omega)
        have hbasen : sub32 (m₁.sBase n) (m.sSize new) = m.sBase new := by
          unfold sub32
          rw [hbase₁, ← hnext.1, hend]
          have hadd : m.sBase new + m.sSize new + word - m.sSize new = m.sBase new + word := by
            omega
          rw [hadd, Nat.add_mod_right]
          exact Nat.mod_eq_of_lt (by omega)
        obtain ⟨hsorta, hsortb, hcross⟩ := pairwise_append.mp hr.sorted
        let m₂ := (m₁.setSize n (add32 (m₁.sSize n) (m.sSize new))).setBase n
          (sub32 (m₁.sBase n) (m.sSize new))
        have hsize₂ : m₂.sSize n = m.sSize n + m.sSize new := by
          rw [← hsum]
          exact update_self _ _ _
        have hbase₂ : m₂.sBase n = m.sBase new := by
          rw [← hbasen]
          exact update_self _ _ _
        obtain ⟨hr₂, hf₂, ht₂⟩ := hr₁.resize (n := m₂) rfl rfl rfl
          (fun t ht => update_of_ne ht _ _) (fun t ht => update_of_ne ht _ _)
          (by
            rw [hsize₂, hbase₂]
            omega)
          (by
            intro t ht
            rw [hbase₂, hbase₁, hsize₁]
            exact hcross t ht new mem_cons_self)
          (by
            intro t ht
            rw [hbase₂, hsize₂, hbase₁]
            have hle := (pairwise_cons.mp (pairwise_cons.mp hsortb).2).1 t ht
            omega)
        rw [hfree]
        refine ⟨m₂, as₁, _, rfl, hr₂, hf₁.trans hf₂, ?_, ?_, hz₁, hp₁⟩
        · have hsame : total m₁ (a ++ n :: d) = total m (a ++ n :: d) :=
            total_congr fun t _ => congrFun hsize₁ t
          rw [ht₂, hsame, hsize₂, hsize₁, total_middle m a (n :: d) new]
          push_cast
          ring
        · refine (hal.subset (fun t ht => ?_) hbase₁ hsize₁).resize
            (fun t ht => .inl ht) (fun t ht => update_of_ne ht _ _)
            (fun t ht => update_of_ne ht _ _) ?_
          · rcases mem_append.mp ht with hmem | hmem
            · exact mem_append_left _ hmem
            · exact mem_append_right _ (mem_cons_of_mem _ hmem)
          · rw [hsize₂, hbase₂]
            have hp := hal n hnin
            have hn := hal new hnewin
            exact ⟨hn.1, pages_add hp.2 hn.2⟩
      · exact hkeep
  · exact hkeep

end Create

end Segs

end Space
end Svr4
