import Mathlib.Data.List.TakeWhile
import Svr4.Segvn.Operations

/-!
# Creating segments

What the creation of a segment and its merging with its neighbours does to the
users of anon maps.
-/

namespace Svr4
namespace Segvn

open Function List Option

variable {m : AnonMap} {k size sSize sBase : Nat} {rest before after space : List Seg} {a : Crargs}
  {swresv : Int} {r q : Heap × Seg} {env : CreateEnv}

section Creation

variable {h : Heap} {shm : Nat → Nat} {s : Seg}

/-!
## Larger segments
-/

theorem MapOk.extend {m' : AnonMap} {s' : Seg} (hmap : MapOk m k ([s] ++ rest))
    (hrefcnt : m'.refcnt = m.refcnt) (htype : s'.type = s.type) (hpos : 0 < s'.sSize)
    (hrange : s'.anonIndex + s'.sSize ≤ m'.size)
    (hrest : rest ≠ [] → m.size ≤ m'.size ∧ s.type = .shared) : MapOk m' k ([s'] ++ rest) := by
  have hmem : s ∈ [s] ++ rest := mem_append_left _ (mem_singleton_self s)
  refine hmap.replace ?_ ?_ (fun hne => (hrest hne).1) ?_ ?_ ?_ ?_ ?_ ?_
  · rw [hrefcnt, hmap.refcnt]
    rfl
  · rw [hrefcnt]
    exact hmap.live
  · simpa using hpos
  · simpa using hrange
  · intro t ht hpriv
    rcases mem_append.mp ht with ht | ht
    · rw [mem_singleton.mp ht, htype] at hpriv
      exact hmap.unshared s hmem hpriv
    · exact hmap.unshared t (mem_append_right _ ht) hpriv
  · intro t ht u hu
    rw [mem_singleton.mp ht]
    rcases mem_append.mp hu with hu | hu
    · rw [mem_singleton.mp hu]
    · exact hmap.type_of htype u hu
  · intro i hne
    rw [countP_covers_shared (l := [s']) (by simpa using htype.trans (hrest hne).2)]
    exact Nat.zero_le _
  · exact fun _ i => countP_singleton_le s' i

theorem MapOk.alone_of_full (hmap : MapOk m k ([s] ++ rest)) (hpriv : s.type = .priv)
    (hfull : m.size = s.sSize) : rest = [] := by
  have hmem : s ∈ [s] ++ rest := mem_append_left _ (mem_singleton_self s)
  have hrange := hmap.range s hmem
  cases rest with
  | nil => rfl
  | cons t rest =>
    have ht : t ∈ [s] ++ t :: rest := by simp
    have hpos := hmap.nonempty t ht
    have hend := hmap.range t ht
    have htype : t.type = .priv := (hmap.type s hmem t ht).symm.trans hpriv
    have hone := hmap.apart t.anonIndex
    have hs : s.covers t.anonIndex = true := by
      unfold Seg.covers
      exact decide_eq_true ⟨hpriv, by omega, by omega⟩
    have ht' : t.covers t.anonIndex = true := by
      unfold Seg.covers
      exact decide_eq_true ⟨htype, Nat.le_refl _, by omega⟩
    rw [singleton_append, countP_cons_of_pos hs, countP_cons_of_pos ht'] at hone
    omega

@[simp] theorem Seg.growUp_amp (s : Seg) (size : Nat) (swresv : Int) :
    (s.growUp size swresv).amp = s.amp := rfl

@[simp] theorem Seg.growDown_amp (s : Seg) (size : Nat) (swresv : Int) :
    (s.growDown size swresv).amp = s.amp := rfl

theorem Seg.Ok.growUp (hok : s.Ok) (hv : s.vpage = none) (index size : Nat) (swresv : Int)
    (hindex : s.amp = none → index = 0) :
    ({ s with anonIndex := index }.growUp size swresv).Ok where
  size := Nat.add_pos_left hok.size size
  index := hindex
  noVpage _ := hok.noVpage hv
  vpage l hl := by
    rw [hv] at hl
    cases hl

theorem Seg.Ok.growDown (hok : s.Ok) (hv : s.vpage = none) (index size : Nat) (swresv : Int)
    (hindex : s.amp = none → index = 0) :
    ({ s with anonIndex := index }.growDown size swresv).Ok where
  size := Nat.add_pos_left hok.size size
  index := hindex
  noVpage _ := hok.noVpage hv
  vpage l hl := by
    rw [hv] at hl
    cases hl

/-!
## Extending and concatenating
-/

theorem Heap.extends_cases {p : Prop} [Decidable p] {held : AnonMap → Prop} [DecidablePred held]
    {q : Heap × Seg} {g : Nat → AnonMap → Heap × Seg}
    (hext : (if s.vp ≠ a.vp ∨ s.maxprot ≠ a.maxprot ∨ s.prot ≠ a.prot ∨ s.type ≠ a.type then none
      else if s.vp ≠ none ∧ ¬ p then none else if s.vpage ≠ none then none else
        match s.amp with
        | none => some q
        | some k =>
          match h.amps k with
          | none => none
          | some m => if held m then none else some (g k m)) = some r) :
    s.vp = a.vp ∧ s.maxprot = a.maxprot ∧ s.prot = a.prot ∧ s.type = a.type ∧
      (s.vp ≠ none → p) ∧ s.vpage = none ∧ ((s.amp = none ∧ r = q) ∨
        ∃ k m, s.amp = some k ∧ h.amps k = some m ∧ ¬ held m ∧ r = g k m) := by
  split at hext
  · cases hext
  · rename_i hsame
    rw [not_or, not_or, not_or, not_not, not_not, not_not, not_not] at hsame
    obtain ⟨hvp, hmaxprot, hprot, htype⟩ := hsame
    split at hext
    · cases hext
    · rename_i hoffset
      split at hext
      · cases hext
      · rename_i hvpage
        refine ⟨hvp, hmaxprot, hprot, htype, ?_, not_not.mp hvpage, ?_⟩
        · intro hne
          by_contra hne'
          exact hoffset ⟨hne, hne'⟩
        · cases hs : s.amp with
          | none =>
            simp only [hs] at hext
            exact .inl ⟨rfl, (some.inj hext).symm⟩
          | some k =>
            simp only [hs] at hext
            cases hm : h.amps k with
            | none =>
              simp only [hm] at hext
              cases hext
            | some m =>
              simp only [hm] at hext
              split at hext
              · cases hext
              · rename_i hheld
                exact .inr ⟨k, m, rfl, hm, hheld, (some.inj hext).symm⟩

theorem Heap.segvnExtendPrev_cases (hext : h.segvnExtendPrev s size a swresv = some r) :
    s.vp = a.vp ∧ s.maxprot = a.maxprot ∧ s.prot = a.prot ∧ s.type = a.type ∧
      (s.vp ≠ none → s.offset + s.sSize = a.offset) ∧ s.vpage = none ∧
      ((s.amp = none ∧ r = (h, s.growUp size swresv)) ∨
        ∃ k m, s.amp = some k ∧ h.amps k = some m ∧ ¬ (1 < m.refcnt ∧ m.size ≠ s.sSize) ∧
          r = ((h.growBehind k m s size).1, (h.growBehind k m s size).2.growUp size swresv)) := by
  exact Heap.extends_cases hext

theorem Moves.segvnExtendPrev (shm : Nat → Nat) (hpos : 0 < size)
    (hext : h.segvnExtendPrev s size a swresv = some r) : Moves h shm [s] r.1 shm [r.2] := by
  obtain ⟨_, _, _, _, _, hv, hcases⟩ := Heap.segvnExtendPrev_cases hext
  rcases hcases with ⟨hs, rfl⟩ | ⟨k, m, hs, hm, hheld, rfl⟩
  · refine Moves.mapless rfl rfl (by simpa using hs) (by simpa using hs) ?_
    intro holds t ht
    have hok := holds s (mem_singleton_self s)
    rw [mem_singleton.mp ht]
    exact hok.growUp hv s.anonIndex size swresv fun _ => hok.index hs
  · have hgrown : ∀ index, (∀ t ∈ [s], t.Ok) →
        ∀ t ∈ [{ s with anonIndex := index }.growUp size swresv], t.Ok := by
      intro index holds t ht
      have hok := holds s (mem_singleton_self s)
      rw [mem_singleton.mp ht]
      exact hok.growUp hv index size swresv fun hnone => by simp [hs] at hnone
    unfold Heap.growBehind
    by_cases hroom : m.size - s.anonIndex < s.sSize + size
    · rw [if_pos hroom]
      refine Moves.at_amp hm rfl rfl (by simpa using hs) (by simpa using hs)
        (fun _ _ => rfl) ?_ (hgrown 0)
      intro holds rest hmap
      have hself := (holds s (mem_singleton_self s)).size
      refine MapOk.extend hmap rfl rfl (Nat.add_pos_left hself size) ?_ ?_
      · change 0 + (s.sSize + size) ≤ s.sSize + size + anonSlop
        omega
      · intro hne
        have hfull : m.size = s.sSize := by
          by_contra hsize
          have hle : m.refcnt ≤ 1 := by
            by_contra hlt
            exact hheld ⟨by omega, hsize⟩
          exact hne (hmap.rest_nil_of_refcnt hle).1
        refine ⟨?_, ?_⟩
        · change m.size ≤ s.sSize + size + anonSlop
          omega
        · cases htype : s.type with
          | shared => rfl
          | priv => exact absurd (hmap.alone_of_full htype hfull) hne
    · rw [if_neg hroom]
      refine Moves.at_amp hm rfl rfl (by simpa using hs) (by simpa using hs)
        (fun _ _ => rfl) ?_ (hgrown s.anonIndex)
      intro holds rest hmap
      have hself := (holds s (mem_singleton_self s)).size
      refine MapOk.extend hmap rfl rfl (Nat.add_pos_left hself size) ?_ ?_
      · change s.anonIndex + (s.sSize + size) ≤ m.size
        omega
      · intro hne
        have hle : m.refcnt ≤ 1 := by
          by_contra hlt
          exact hheld ⟨by omega, by omega⟩
        exact absurd (hmap.rest_nil_of_refcnt hle).1 hne

theorem Heap.segvnExtendNext_cases (hext : h.segvnExtendNext s size a swresv = some r) :
    s.vp = a.vp ∧ s.maxprot = a.maxprot ∧ s.prot = a.prot ∧ s.type = a.type ∧
      (s.vp ≠ none → a.offset + (size : Int) = s.offset) ∧ s.vpage = none ∧
      ((s.amp = none ∧ r = (h, s.growDown size swresv)) ∨
        ∃ k m, s.amp = some k ∧ h.amps k = some m ∧ m.refcnt ≤ 1 ∧ r = ((h.growBefore k m s size).1,
            (h.growBefore k m s size).2.growDown size swresv)) := by
  simp only [← Nat.not_lt]
  exact Heap.extends_cases hext

theorem Moves.segvnExtendNext (shm : Nat → Nat)
    (hext : h.segvnExtendNext s size a swresv = some r) : Moves h shm [s] r.1 shm [r.2] := by
  obtain ⟨_, _, _, _, _, hv, hcases⟩ := Heap.segvnExtendNext_cases hext
  rcases hcases with ⟨hs, rfl⟩ | ⟨k, m, hs, hm, hone, rfl⟩
  · refine Moves.mapless rfl rfl (by simpa using hs) (by simpa using hs) ?_
    intro holds t ht
    have hok := holds s (mem_singleton_self s)
    rw [mem_singleton.mp ht]
    exact hok.growDown hv s.anonIndex size swresv fun _ => hok.index hs
  · have hgrown : ∀ index, (∀ t ∈ [s], t.Ok) →
        ∀ t ∈ [{ s with anonIndex := index }.growDown size swresv], t.Ok := by
      intro index holds t ht
      have hok := holds s (mem_singleton_self s)
      rw [mem_singleton.mp ht]
      exact hok.growDown hv index size swresv fun hnone => by simp [hs] at hnone
    unfold Heap.growBefore
    by_cases hroom : s.anonIndex < size
    · rw [if_pos hroom]
      refine Moves.at_amp hm rfl rfl (by simpa using hs) (by simpa using hs)
        (fun _ _ => rfl) ?_ (hgrown anonSlop)
      intro holds rest hmap
      have hself := (holds s (mem_singleton_self s)).size
      refine MapOk.extend hmap rfl rfl (Nat.add_pos_left hself size) ?_ ?_
      · change anonSlop + (s.sSize + size) ≤ size + s.sSize + anonSlop
        omega
      · exact fun hne => absurd (hmap.rest_nil_of_refcnt hone).1 hne
    · rw [if_neg hroom]
      refine Moves.at_amp hm rfl rfl (by simpa using hs) (by simpa using hs)
        (fun _ _ => rfl) ?_ (hgrown (s.anonIndex - size))
      intro holds rest hmap
      have hself := (holds s (mem_singleton_self s)).size
      have hrange := hmap.range s (mem_append_left _ (mem_singleton_self s))
      refine MapOk.extend hmap rfl rfl (Nat.add_pos_left hself size) ?_ ?_
      · change s.anonIndex - size + (s.sSize + size) ≤ m.size
        omega
      · exact fun hne => absurd (hmap.rest_nil_of_refcnt hone).1 hne

theorem Heap.segvnConcat_cases {s₁ s₂ : Seg} (hconcat : h.segvnConcat s₁ s₂ = some r) :
    s₁.vp = s₂.vp ∧ s₁.maxprot = s₂.maxprot ∧ s₁.prot = s₂.prot ∧ s₁.type = s₂.type ∧
      (s₁.vp ≠ none → s₁.offset + s₁.sSize = s₂.offset) ∧ s₁.amp = none ∧ s₂.amp = none ∧
      s₁.vpage = none ∧ s₂.vpage = none ∧ r = (h.anonUnresv 0, s₁.growUp s₂.sSize s₂.swresv) := by
  unfold Heap.segvnConcat at hconcat
  split at hconcat
  · cases hconcat
  · rename_i hsame
    rw [not_or, not_or, not_or, not_not, not_not, not_not, not_not] at hsame
    obtain ⟨hvp, hmaxprot, hprot, htype⟩ := hsame
    split at hconcat
    · cases hconcat
    · rename_i hoffset
      split at hconcat
      · cases hconcat
      · rename_i hamp
        rw [not_or, not_not, not_not] at hamp
        split at hconcat
        · cases hconcat
        · rename_i hvpage
          rw [not_or, not_not, not_not] at hvpage
          refine ⟨hvp, hmaxprot, hprot, htype, ?_, hamp.1, hamp.2, hvpage.1, hvpage.2, ?_⟩
          · intro hne
            by_contra hne'
            exact hoffset ⟨hne, hne'⟩
          · rw [← some.inj hconcat]
            unfold Heap.segvnFree
            rw [Heap.releaseAmp_none (s := { s₂ with swresv := 0 }) hamp.2]

theorem Moves.segvnConcat (shm : Nat → Nat) {s₁ s₂ : Seg}
    (hconcat : h.segvnConcat s₁ s₂ = some r) : Moves h shm [s₁, s₂] r.1 shm [r.2] := by
  obtain ⟨_, _, _, _, _, hs₁, hs₂, hv, _, rfl⟩ := Heap.segvnConcat_cases hconcat
  refine Moves.mapless rfl rfl ?_ (by simpa using hs₁) ?_
  · intro t ht
    rcases mem_pair.mp ht with rfl | rfl
    · exact hs₁
    · exact hs₂
  · intro holds t ht
    have hok := holds s₁ mem_cons_self
    rw [mem_singleton.mp ht]
    exact hok.growUp hv s₁.anonIndex _ _ fun _ => hok.index hs₁

/-!
## When neighbours are merged
-/

/-- The conditions under which `segvn_extend_prev` makes a segment larger. -/
def Heap.ExtendsPrev (h : Heap) (s : Seg) (a : Crargs) : Prop :=
  s.vp = a.vp ∧ s.maxprot = a.maxprot ∧ s.prot = a.prot ∧ s.type = a.type ∧
    (s.vp ≠ none → s.offset + s.sSize = a.offset) ∧ s.vpage = none ∧
    ∀ k, s.amp = some k → ∃ m, h.amps k = some m ∧ ¬ (1 < m.refcnt ∧ m.size ≠ s.sSize)

/-- The conditions under which `segvn_extend_next` makes a segment larger. -/
def Heap.ExtendsNext (h : Heap) (s : Seg) (size : Nat) (a : Crargs) : Prop :=
  s.vp = a.vp ∧ s.maxprot = a.maxprot ∧ s.prot = a.prot ∧ s.type = a.type ∧
    (s.vp ≠ none → a.offset + (size : Int) = s.offset) ∧ s.vpage = none ∧
    ∀ k, s.amp = some k → ∃ m, h.amps k = some m ∧ m.refcnt ≤ 1

/-- The conditions under which `segvn_concat` makes one segment of two. -/
def Seg.Concats (s₁ s₂ : Seg) : Prop :=
  s₁.vp = s₂.vp ∧ s₁.maxprot = s₂.maxprot ∧ s₁.prot = s₂.prot ∧ s₁.type = s₂.type ∧
    (s₁.vp ≠ none → s₁.offset + s₁.sSize = s₂.offset) ∧ s₁.amp = none ∧ s₂.amp = none ∧
    s₁.vpage = none ∧ s₂.vpage = none

theorem Heap.ExtendsPrev.extends (hext : h.ExtendsPrev s a) (size : Nat) (swresv : Int) :
    ∃ q, (h.anonResv swresv).segvnExtendPrev s size a swresv = some q := by
  obtain ⟨hvp, hmaxprot, hprot, htype, hoffset, hv, hmap⟩ := hext
  unfold Heap.segvnExtendPrev
  rw [if_neg (by simp [hvp, hmaxprot, hprot, htype]),
    if_neg fun hboth => hboth.2 (hoffset hboth.1), if_neg (not_not.mpr hv)]
  cases hs : s.amp with
  | none => exact ⟨_, rfl⟩
  | some k =>
    obtain ⟨m, hm, hheld⟩ := hmap k hs
    have hm : (h.anonResv swresv).amps k = some m := hm
    simp only [hm, if_neg hheld]
    exact ⟨_, rfl⟩

theorem Heap.ExtendsPrev.of_some
    (hext : (h.anonResv swresv).segvnExtendPrev s size a swresv = some q) : h.ExtendsPrev s a := by
  obtain ⟨hvp, hmaxprot, hprot, htype, hoffset, hv, hmap⟩ := Heap.segvnExtendPrev_cases hext
  refine ⟨hvp, hmaxprot, hprot, htype, hoffset, hv, fun k hk => ?_⟩
  rcases hmap with ⟨hs, _⟩ | ⟨k', m, hs, hm, hheld, _⟩
  · rw [hs] at hk
    cases hk
  · cases hs.symm.trans hk
    exact ⟨m, hm, hheld⟩

theorem Heap.ExtendsNext.of_some
    (hext : (h.anonResv swresv).segvnExtendNext s size a swresv = some q) :
    h.ExtendsNext s size a := by
  obtain ⟨hvp, hmaxprot, hprot, htype, hoffset, hv, hmap⟩ := Heap.segvnExtendNext_cases hext
  refine ⟨hvp, hmaxprot, hprot, htype, hoffset, hv, fun k hk => ?_⟩
  rcases hmap with ⟨hs, _⟩ | ⟨k', m, hs, hm, hone, _⟩
  · rw [hs] at hk
    cases hk
  · cases hs.symm.trans hk
    exact ⟨m, hm, hone⟩

/-!
## A segment of its own
-/

theorem Heap.zeroSlots_shape (h : Heap) (hm : h.amps k = some m) (i n : Nat)
    (anonZero : Nat → Nat) (j : Nat) :
    ((h.zeroSlots k m i n anonZero).1.amps j).map AnonMap.shape = (h.amps j).map AnonMap.shape := by
  change (update h.amps k (some _) j).map _ = _
  by_cases hj : j = k
  · rw [hj, update_self, hm]
    rfl
  · rw [update_of_ne hj]

theorem Crargs.newSeg_ok (a : Crargs) (sBase : Nat) (swresv : Int) {index : Nat}
    {amp : Option Nat} (hpos : 0 < sSize) (hindex : amp = none → index = 0) :
    (a.newSeg sBase sSize swresv index amp).Ok :=
  ⟨hpos, hindex, fun _ => rfl, fun _ hl => by cases hl⟩

theorem MapOk.join (hmap : MapOk m k rest) (hk : 0 < k) (hshared : s.type = .shared)
    (hpos : 0 < s.sSize) (hrange : s.anonIndex + s.sSize ≤ m.size) :
    MapOk { m with refcnt := m.refcnt + 1 } k ([s] ++ rest) := by
  have hall : ∀ t ∈ rest, t.type = .shared := by
    intro t ht
    cases htype : t.type with
    | shared => rfl
    | priv =>
      have hzero := hmap.unshared t ht htype
      omega
  have hmap' : MapOk m k ([] ++ rest) := hmap
  refine hmap'.replace ?_ (Nat.succ_pos _) (fun _ => Nat.le_refl _) ?_ ?_ ?_ ?_ ?_ ?_
  · change m.refcnt + 1 = _
    rw [hmap.refcnt, length_append, length_singleton]
    omega
  · simpa using hpos
  · simpa using hrange
  · intro t ht hpriv
    rcases mem_append.mp ht with ht | ht
    · rw [mem_singleton.mp ht, hshared] at hpriv
      cases hpriv
    · exact hmap.unshared t ht hpriv
  · intro t ht u hu
    rw [mem_singleton.mp ht, hshared]
    rcases mem_append.mp hu with hu | hu
    · rw [mem_singleton.mp hu, hshared]
    · exact (hall u hu).symm
  · intro i _
    rw [countP_covers_shared (l := [s]) (by simpa using hshared)]
    exact Nat.zero_le _
  · exact fun _ i => countP_singleton_le s i

theorem Moves.createSeg (shm : Nat → Nat) {anonZero : Nat → Nat} (hpos : 0 < sSize)
    (hgiven : ∀ k, a.amp = some k → 0 < shm k)
    (hcreate : h.createSeg sBase sSize a swresv anonZero = some r) :
    Moves h shm [] r.1 shm [r.2] := by
  have hsize : 0 + sSize ≤ sSize := Nat.le_of_eq (Nat.zero_add _)
  unfold Heap.createSeg at hcreate
  cases ha : a.amp with
  | none =>
    simp only [ha] at hcreate
    split at hcreate
    · rw [← some.inj hcreate]
      exact Moves.alloc_new rfl hsize rfl (a.newSeg_ok _ _ hpos fun hnone => by cases hnone)
    · rw [← some.inj hcreate]
      refine Moves.mapless rfl rfl (by simp) ?_ ?_
      · intro t ht
        rw [mem_singleton.mp ht]
        rfl
      · intro _ t ht
        rw [mem_singleton.mp ht]
        exact a.newSeg_ok _ _ hpos fun _ => rfl
  | some k =>
    simp only [ha] at hcreate
    cases hm : h.amps k with
    | none =>
      simp only [hm] at hcreate
      cases hcreate
    | some m =>
      simp only [hm] at hcreate
      split at hcreate
      · cases hcreate
      · rename_i hroom
        rw [not_or] at hroom
        split at hcreate
        · rename_i hshared
          rw [← some.inj hcreate]
          refine Moves.at_amp hm rfl rfl (by simp) ?_ (fun _ _ => rfl) ?_ ?_
          · intro t ht
            rw [mem_singleton.mp ht]
            rfl
          · intro _ rest hmap
            exact MapOk.join hmap (hgiven k ha) hshared hpos (Nat.le_of_not_lt hroom.2)
          · intro _ t ht
            rw [mem_singleton.mp ht]
            exact a.newSeg_ok _ _ hpos fun hnone => by cases hnone
        · rw [← some.inj hcreate]
          let r := h.zeroSlots k m a.offset sSize anonZero
          have hzero : Moves h shm [] r.1 shm [] :=
            Moves.contents (h.zeroSlots_shape hm _ _ _) rfl
          let h' : Heap :=
            { r.1 with refs := fun b => r.1.refs b + r.2.held a.offset sSize b }
          have hrefs : Moves r.1 shm [] h' shm [] := Moves.contents (fun _ => rfl) rfl
          refine (hzero.trans hrefs).trans (Moves.alloc_new rfl hsize rfl ?_)
          exact a.newSeg_ok _ _ hpos fun hnone => by cases hnone

/-!
## `as_map`
-/

theorem Heap.mergePrev_cases (hprev : h.mergePrev before sBase sSize a swresv = some q) :
    ∃ init s, before = init ++ [s] ∧ s.sEnd = sBase ∧
      h.segvnExtendPrev s sSize a swresv = some q := by
  rcases Option.bind_eq_some_iff.mp hprev with ⟨s, hs, hext⟩
  obtain ⟨hlast, hend⟩ := Option.filter_eq_some_iff.mp hs
  have hbefore := dropLast_append_getLast? s hlast
  exact ⟨before.dropLast, s, hbefore.symm, of_decide_eq_true hend, hext⟩

theorem Heap.merge_cases {r : Heap × List Seg}
    (hmerge : h.merge before after sBase sSize a swresv = some r) :
    (∃ init s q, before = init ++ [s] ∧ s.sEnd = sBase ∧
      h.segvnExtendPrev s sSize a swresv = some q ∧
      (r = (q.1, init ++ [q.2] ++ after) ∨ ∃ n rest q', after = n :: rest ∧ q.2.sEnd = n.sBase ∧
          q.1.segvnConcat q.2 n = some q' ∧ r = (q'.1, init ++ [q'.2] ++ rest))) ∨
    (h.mergePrev before sBase sSize a swresv = none ∧
      ∃ n rest q, after = n :: rest ∧ sBase + sSize = n.sBase ∧
        h.segvnExtendNext n sSize a swresv = some q ∧ r = (q.1, before ++ [q.2] ++ rest)) := by
  unfold Heap.merge at hmerge
  cases hprev : h.mergePrev before sBase sSize a swresv with
  | some q =>
    obtain ⟨init, s, rfl, hend, hext⟩ := Heap.mergePrev_cases hprev
    simp only [hprev, dropLast_concat] at hmerge
    refine .inl ⟨init, s, q, rfl, hend, hext, ?_⟩
    cases after with
    | nil =>
      rw [← some.inj hmerge]
      exact .inl (by simp)
    | cons n rest =>
      by_cases hnext : q.2.sEnd = n.sBase
      · simp only [if_pos hnext] at hmerge
        cases hconcat : q.1.segvnConcat q.2 n with
        | none =>
          simp only [hconcat] at hmerge
          rw [← some.inj hmerge]
          exact .inl (by simp)
        | some q' =>
          simp only [hconcat] at hmerge
          rw [← some.inj hmerge]
          exact .inr ⟨n, rest, q', rfl, hnext, hconcat, by simp⟩
      · simp only [if_neg hnext] at hmerge
        rw [← some.inj hmerge]
        exact .inl (by simp)
  | none =>
    simp only [hprev] at hmerge
    cases after with
    | nil => cases hmerge
    | cons n rest =>
      by_cases hnext : sBase + sSize = n.sBase
      · simp only [if_pos hnext] at hmerge
        cases hext : h.segvnExtendNext n sSize a swresv with
        | none =>
          simp only [hext] at hmerge
          cases hmerge
        | some q =>
          simp only [hext] at hmerge
          rw [← some.inj hmerge]
          exact .inr ⟨rfl, n, rest, q, rfl, hnext, hext, by simp⟩
      · simp only [if_neg hnext] at hmerge
        cases hmerge

theorem Moves.merge (shm : Nat → Nat) {r : Heap × List Seg} (hpos : 0 < sSize)
    (hmerge : h.merge before after sBase sSize a swresv = some r) :
    Moves h shm (before ++ after) r.1 shm r.2 := by
  rcases Heap.merge_cases hmerge with
    ⟨init, s, q, rfl, _, hext, hcases⟩ | ⟨_, n, rest, q, rfl, _, hext, rfl⟩
  · have hprev : Moves h shm (init ++ [s] ++ after) q.1 shm (init ++ [q.2] ++ after) :=
      (Moves.segvnExtendPrev shm hpos hext).frame init after
    rcases hcases with rfl | ⟨n, rest, q', rfl, _, hconcat, rfl⟩
    · exact hprev
    · have hboth := (Moves.segvnConcat shm hconcat).frame init rest
      have hlist : init ++ [q.2] ++ n :: rest = init ++ [q.2, n] ++ rest := by simp
      rw [hlist] at hprev
      exact hprev.trans hboth
  · have hnext := (Moves.segvnExtendNext shm hext).frame before rest
    have hlist : before ++ n :: rest = before ++ [n] ++ rest := by simp
    rw [hlist]
    exact hnext

theorem Heap.segvnCreate_cases {r : Heap × List Seg}
    (hcreate : h.segvnCreate before after sBase sSize a env = some r) : r = (h, before ++ after) ∨
    (a.amp = none ∧ (h.anonResv (Heap.newSwresv a sSize)).merge before after sBase sSize a
      (newSwresv a sSize) = some r) ∨
    ∃ q, (h.anonResv (Heap.newSwresv a sSize)).createSeg sBase sSize a (newSwresv a sSize)
      env.anonZero = some q ∧ r = (q.1, before ++ [q.2] ++ after) := by
  unfold Heap.segvnCreate at hcreate
  simp only at hcreate
  split at hcreate
  · exact .inl (some.inj hcreate).symm
  · split at hcreate
    · exact .inl (some.inj hcreate).symm
    · refine .inr ?_
      split at hcreate
      · rename_i r' hmerge
        split at hmerge
        · rename_i hnone
          rw [← some.inj hcreate]
          exact .inl ⟨hnone.1, hmerge⟩
        · cases hmerge
      · split at hcreate
        · cases hcreate
        · rename_i h' s hseg
          rw [← some.inj hcreate]
          exact .inr ⟨(h', s), hseg, by simp⟩

theorem Moves.segvnCreate (shm : Nat → Nat) {r : Heap × List Seg} (hpos : 0 < sSize)
    (hgiven : ∀ k, a.amp = some k → 0 < shm k)
    (hcreate : h.segvnCreate before after sBase sSize a env = some r) :
    Moves h shm (before ++ after) r.1 shm r.2 := by
  have hresv : Moves h shm (before ++ after) (h.anonResv (Heap.newSwresv a sSize)) shm
      (before ++ after) := Moves.contents (fun _ => rfl) rfl
  rcases Heap.segvnCreate_cases hcreate with rfl | ⟨_, hmerge⟩ | ⟨q, hseg, rfl⟩
  · exact Moves.refl h shm _
  · exact hresv.trans (Moves.merge shm hpos hmerge)
  · have hnew := (Moves.createSeg shm hpos hgiven hseg).frame before after
    rw [append_nil] at hnew
    exact hresv.trans hnew

theorem Heap.asMap_cases {r : Heap × List Seg} (hmap : h.asMap space sBase sSize a env = some r) :
    r = (h, space) ∨ ∃ before after, space = before ++ after ∧ (∀ s ∈ before, s.sEnd ≤ sBase) ∧
      (∀ s ∈ after.head?, sBase + sSize ≤ s.sBase) ∧ 0 < sSize ∧
      h.segvnCreate before after sBase sSize a env = some r := by
  unfold Heap.asMap at hmap
  simp only at hmap
  split at hmap
  · exact .inl (some.inj hmap).symm
  · rename_i hfree
    rw [not_or] at hfree
    refine .inr ⟨_, _, takeWhile_append_dropWhile.symm, ?_, ?_, Nat.pos_of_ne_zero hfree.1, hmap⟩
    · intro s hs
      simpa using mem_takeWhile_imp hs
    · intro s hs
      by_contra hlt
      refine hfree.2 ?_
      rw [Option.mem_def.mp hs]
      simpa using hlt

theorem Moves.asMap (shm : Nat → Nat) {r : Heap × List Seg}
    (hgiven : ∀ k, a.amp = some k → 0 < shm k) (hmap : h.asMap space sBase sSize a env = some r) :
    Moves h shm space r.1 shm r.2 := by
  rcases Heap.asMap_cases hmap with rfl | ⟨before, after, rfl, _, _, hpos, hcreate⟩
  · exact Moves.refl h shm space
  · exact Moves.segvnCreate shm hpos hgiven hcreate

end Creation

end Segvn
end Svr4
