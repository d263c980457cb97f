import Svr4.Segvn.Maps

/-!
# Operations on one segment

What each operation on a segment does to the users of anon maps.
-/

namespace Svr4
namespace Segvn

open Function List Option

/-!
## Freeing slots
-/

variable {k len addr eaddr : Nat} {m : AnonMap}

namespace Heap

variable (h : Heap) (s : Seg) (j i n : Nat)

theorem anonFree_shape (k : Nat) :
    ((h.anonFree k i n).amps j).map AnonMap.shape = (h.amps j).map AnonMap.shape := by
  unfold anonFree
  cases hm : h.amps k with
  | none => rfl
  | some m =>
    change (update h.amps k (some (m.clear i n)) j).map _ = _
    by_cases hj : j = k
    · rw [hj, update_self, hm]
      rfl
    · rw [update_of_ne hj]

@[simp] theorem anonFree_nextAmp (k : Nat) : (h.anonFree k i n).nextAmp = h.nextAmp := by
  unfold anonFree
  cases h.amps k <;> rfl

theorem anonFree_amps (hm : h.amps k = some m) :
    (h.anonFree k i n).amps = update h.amps k (some (m.clear i n)) := by
  unfold anonFree
  rw [hm]
  rfl

theorem freeRange_shape :
    ((h.freeRange s i n).amps j).map AnonMap.shape = (h.amps j).map AnonMap.shape := by
  unfold freeRange
  cases s.amp with
  | none => rfl
  | some k => exact h.anonFree_shape j i n k

@[simp] theorem freeRange_nextAmp : (h.freeRange s i n).nextAmp = h.nextAmp := by
  unfold freeRange
  cases s.amp with
  | none => rfl
  | some k => exact h.anonFree_nextAmp i n k

end Heap

/-!
## Page structures
-/

@[simp] theorem setRange_length (l : List Vpage) (i n : Nat) (f : Vpage → Vpage) :
    (setRange l i n f).length = l.length :=
  length_mapIdx

variable {s s' s₁ s₂ : Seg} {f : List Vpage → List Vpage}

theorem Seg.Ok.vpage_map (h : s.Ok)
    (hf : ∀ l, (f l).length = l.length) : { s with vpage := s.vpage.map f }.Ok where
  size := h.size
  index := h.index
  noVpage hnone := h.noVpage (map_eq_none_iff.mp hnone)
  vpage l hl := by
    rcases map_eq_some_iff.mp hl with ⟨l₀, hl₀, rfl⟩
    obtain ⟨hprot, hlen⟩ := h.vpage l₀ hl₀
    exact ⟨hprot, (hf l₀).trans hlen⟩

theorem Seg.Ok.unlock (h : s.Ok) (addr len : Nat) : (s.unlock addr len).Ok :=
  h.vpage_map fun _ => setRange_length _ _ _ _

theorem Seg.Ok.segvnVpage (h : s.Ok) : s.segvnVpage.Ok := by
  unfold Seg.segvnVpage
  cases hv : s.vpage with
  | some l => exact h
  | none =>
    refine ⟨h.size, h.index, ?_, ?_⟩
    · intro hnone
      cases hnone
    · intro l hl
      cases hl
      exact ⟨rfl, length_replicate⟩

section SegvnVpage

variable (s : Seg)

theorem Seg.segvnVpage_eq : ∃ pageprot vpage,
    s.segvnVpage = { s with pageprot := pageprot, vpage := vpage } := by
  unfold Seg.segvnVpage
  cases hv : s.vpage with
  | some l => exact ⟨s.pageprot, s.vpage, rfl⟩
  | none => exact ⟨_, _, rfl⟩

theorem Seg.segvnVpage_amp : s.segvnVpage.amp = s.amp := by
  obtain ⟨_, _, heq⟩ := s.segvnVpage_eq
  rw [heq]

end SegvnVpage

/-!
## Releasing and unmapping
-/

variable {r : Heap × List Seg}

section Operations

variable {h : Heap} {shm : Nat → Nat} {s : Seg}

def AnonMap.releasedBy (m : AnonMap) (s : Seg) : Option AnonMap :=
  let m' := { m with refcnt := m.refcnt - 1 }
  if m.refcnt - 1 = 0 then none
  else if s.type = .priv then some (m'.clear s.anonIndex s.sSize)
  else some m'

theorem Heap.releaseAmp_amps (hs : s.amp = some k) (hm : h.amps k = some m) :
    (h.releaseAmp s).amps = update h.amps k (m.releasedBy s) := by
  have hset : (h.setAmp k { m with refcnt := m.refcnt - 1 }).amps k =
      some { m with refcnt := m.refcnt - 1 } := update_self _ _ _
  unfold Heap.releaseAmp AnonMap.releasedBy
  rw [hs]
  simp only [hm]
  by_cases hlast : m.refcnt - 1 = 0
  · simp only [if_pos hlast]
    by_cases hpriv : s.type = .priv
    · simp only [if_pos hpriv]
      rw [Heap.anonFree_amps _ _ _ hset]
      simp only [Heap.setAmp, update_idem]
    · simp only [if_neg hpriv, Heap.anonUnresv]
      rw [Heap.anonFree_amps _ _ _ hset]
      simp only [Heap.setAmp, update_idem]
  · simp only [if_neg hlast]
    by_cases hpriv : s.type = .priv
    · simp only [if_pos hpriv]
      rw [Heap.anonFree_amps _ _ _ hset]
      simp only [Heap.setAmp, update_idem]
    · simp only [if_neg hpriv]
      rfl

theorem Heap.releaseAmp_nextAmp (h : Heap) (s : Seg) : (h.releaseAmp s).nextAmp = h.nextAmp := by
  unfold Heap.releaseAmp
  cases s.amp with
  | none => rfl
  | some k =>
    cases hm : h.amps k with
    | none => simp only [hm]
    | some m =>
      simp only [hm]
      split_ifs <;> simp [Heap.setAmp, Heap.anonUnresv]

theorem Heap.releaseAmp_dangling (hs : s.amp = some k) (hm : h.amps k = none) :
    h.releaseAmp s = h := by
  unfold Heap.releaseAmp
  simp only [hs, hm]

theorem Heap.releaseAmp_none (hs : s.amp = none) : h.releaseAmp s = h := by
  unfold Heap.releaseAmp
  simp only [hs]

theorem MapOk.release {rest : List Seg}
    (hmap : MapOk m k ([s] ++ rest)) : AmpOk (m.releasedBy s) k rest := by
  have hcount := hmap.refcnt
  rw [length_append, length_singleton] at hcount
  have hleft : ∀ m' : AnonMap, m'.shape = (m.refcnt - 1, m.size) → m.refcnt - 1 ≠ 0 →
      MapOk m' k ([] ++ rest) := by
    intro m' hshape hlive
    have hrefcnt : m'.refcnt = m.refcnt - 1 := congrArg Prod.fst hshape
    have hsize : m'.size = m.size := congrArg Prod.snd hshape
    refine hmap.replace ?_ ?_ ?_ ?_ ?_ ?_ ?_ ?_ ?_
    · change m'.refcnt = rest.length + k
      omega
    · omega
    · exact fun _ => hsize.ge
    · intro t ht
      cases ht
    · intro t ht
      cases ht
    · exact fun t ht => hmap.unshared t (mem_append_right _ ht)
    · intro t ht
      cases ht
    · exact fun _ _ => Nat.zero_le _
    · exact fun _ _ => Nat.zero_le _
  unfold AnonMap.releasedBy
  split
  · exact ⟨eq_nil_of_length_eq_zero (by omega), by omega⟩
  · rename_i hlive
    split
    · exact hleft _ rfl hlive
    · exact hleft _ rfl hlive

theorem Moves.releaseAmp (h : Heap) (shm : Nat → Nat) (s : Seg) :
    Moves h shm [s] (h.releaseAmp s) shm [] := by
  have hnil : (∀ t ∈ [s], t.Ok) → ∀ t ∈ ([] : List Seg), t.Ok := fun _ t ht => by cases ht
  cases hs : s.amp with
  | none =>
    rw [Heap.releaseAmp_none hs]
    exact Moves.mapless rfl rfl (by simpa using hs) (by simp) hnil
  | some k =>
    cases hm : h.amps k with
    | none =>
      rw [Heap.releaseAmp_dangling hs hm]
      exact Moves.dangling hs hm rfl rfl (by simp) (by simp)
    | some m =>
      exact Moves.at_amp hm (Heap.releaseAmp_amps hs hm) (h.releaseAmp_nextAmp s)
        (by simpa using hs) (by simp) (fun _ _ => rfl) (fun _ _ => MapOk.release) hnil

theorem Moves.segvnFree (h : Heap) (shm : Nat → Nat) (s : Seg) :
    Moves h shm [s] (h.segvnFree s) shm [] :=
  (Moves.releaseAmp h shm s).trans (Moves.mapless rfl rfl (by simp) (by simp) (by simp))

theorem Moves.unlock (h : Heap) (shm : Nat → Nat) (s : Seg) (addr len : Nat) :
    Moves h shm [s] h shm [s.unlock addr len] :=
  Moves.shrink rfl rfl (Nat.le_refl _) (Nat.le_refl _) fun hok => hok.unlock addr len

theorem Heap.freesSlots_mapless (h : Heap) (hs : s.amp = none) : h.freesSlots s = false := by
  unfold Heap.freesSlots Heap.ampOf
  rw [hs]
  rfl

section FreeOwned

variable (h) (s)

theorem Heap.freeOwned_shape (j i n : Nat) :
    ((h.freeOwned s i n).amps j).map AnonMap.shape = (h.amps j).map AnonMap.shape := by
  unfold Heap.freeOwned
  split
  · exact h.freeRange_shape s j i n
  · rfl

@[simp] theorem Heap.freeOwned_nextAmp (i n : Nat) : (h.freeOwned s i n).nextAmp = h.nextAmp := by
  unfold Heap.freeOwned
  split
  · exact h.freeRange_nextAmp s i n
  · rfl

@[simp] theorem Heap.unresvPart_amps (len : Nat) : (h.unresvPart s len).amps = h.amps := by
  unfold Heap.unresvPart
  split <;> rfl

@[simp] theorem Heap.unresvPart_nextAmp (len : Nat) : (h.unresvPart s len).nextAmp = h.nextAmp := by
  unfold Heap.unresvPart
  split <;> rfl

theorem Heap.freeOwned_mapless (hs : s.amp = none) (i n : Nat) : h.freeOwned s i n = h := by
  unfold Heap.freeOwned
  rw [h.freesSlots_mapless hs]
  rfl

theorem Heap.freeUnresv_shape (j i n len : Nat) :
    (((h.freeOwned s i n).unresvPart s len).amps j).map AnonMap.shape =
      (h.amps j).map AnonMap.shape := by
  rw [Heap.unresvPart_amps]
  exact h.freeOwned_shape s j i n

theorem Heap.freeUnresv_nextAmp (i n len : Nat) :
    ((h.freeOwned s i n).unresvPart s len).nextAmp = h.nextAmp := by
  rw [Heap.unresvPart_nextAmp]
  exact h.freeOwned_nextAmp s i n

end FreeOwned

theorem Seg.Ok.part (h : s.Ok) (hpos : 0 < s'.sSize) (hprot : s'.pageprot = s.pageprot)
    (hindex : s'.amp = none → s'.anonIndex = 0) (i : Nat) (hi : i + s'.sSize ≤ s.sSize)
    (hvpage : s'.vpage = s.vpage.map fun l => (l.drop i).take s'.sSize) : s'.Ok := by
  refine ⟨hpos, hindex, ?_, ?_⟩
  · intro hnone
    rw [hvpage] at hnone
    exact hprot.trans (h.noVpage (map_eq_none_iff.mp hnone))
  · intro l hl
    rw [hvpage] at hl
    rcases map_eq_some_iff.mp hl with ⟨l₀, hl₀, rfl⟩
    obtain ⟨hpageprot, hlength⟩ := h.vpage l₀ hl₀
    refine ⟨hprot.trans hpageprot, ?_⟩
    rw [length_take, length_drop, hlength]
    omega

theorem Moves.unmapHead (h : Heap) (shm : Nat → Nat) (hlen : len < s.sSize) :
    Moves h shm [s] (h.unmapHead s len).1 shm [(h.unmapHead s len).2] := by
  refine Moves.one (fun j => h.freeUnresv_shape s j _ _ _) (h.freeUnresv_nextAmp s _ _ _)
    rfl rfl ?_ ?_ ?_
  · change s.anonIndex ≤ if h.freesSlots s then s.anonIndex + len else s.anonIndex
    split <;> omega
  · change (if h.freesSlots s then s.anonIndex + len else s.anonIndex) + (s.sSize - len) ≤ _
    split <;> omega
  · intro hok
    refine hok.part (Nat.sub_pos_of_lt hlen) rfl ?_ len ?_ rfl
    · intro hs
      have hs : s.amp = none := hs
      change (if h.freesSlots s then s.anonIndex + len else s.anonIndex) = 0
      rw [h.freesSlots_mapless hs]
      exact hok.index hs
    · change len + (s.sSize - len) ≤ s.sSize
      omega

theorem Moves.unmapTail (h : Heap) (shm : Nat → Nat) (hlen : len < s.sSize) :
    Moves h shm [s] (h.unmapTail s len).1 shm [(h.unmapTail s len).2] := by
  refine Moves.one (fun j => h.freeUnresv_shape s j _ _ _) (h.freeUnresv_nextAmp s _ _ _)
    rfl rfl (Nat.le_refl _) ?_ ?_
  · change s.anonIndex + (s.sSize - len) ≤ _
    omega
  · intro hok
    refine hok.part (Nat.sub_pos_of_lt hlen) rfl hok.index 0 ?_ rfl
    change 0 + (s.sSize - len) ≤ s.sSize
    omega

/-!
## Two segments of one map
-/

theorem MapOk.fork {rest : List Seg} (hmap : MapOk m k ([s] ++ rest)) (htype₁ : s₁.type = s.type)
    (htype₂ : s₂.type = s.type) (hpos₁ : 0 < s₁.sSize) (hpos₂ : 0 < s₂.sSize)
    (hend₁ : s₁.anonIndex + s₁.sSize ≤ s.anonIndex + s.sSize)
    (hend₂ : s₂.anonIndex + s₂.sSize ≤ s.anonIndex + s.sSize)
    (hcovers : ∀ i, [s₁, s₂].countP (Seg.covers i) ≤ [s].countP (Seg.covers i)) :
    MapOk { m with refcnt := m.refcnt + 1 } k ([s₁, s₂] ++ rest) := by
  have hmem : s ∈ [s] ++ rest := mem_append_left _ (mem_singleton_self s)
  have hrange := hmap.range s hmem
  have htypes : ∀ t ∈ [s₁, s₂], t.type = s.type := by
    intro t ht
    rcases mem_pair.mp ht with rfl | rfl
    · exact htype₁
    · exact htype₂
  refine hmap.replace ?_ (Nat.succ_pos _) (fun _ => le_refl _) ?_ ?_ ?_ ?_ ?_ ?_
  · rw [hmap.refcnt]
    simp only [length_append, length_cons, length_nil]
    omega
  · intro t ht
    rcases mem_pair.mp ht with rfl | rfl
    · exact hpos₁
    · exact hpos₂
  · intro t ht
    rcases mem_pair.mp ht with rfl | rfl
    · exact le_trans hend₁ hrange
    · exact le_trans hend₂ hrange
  · intro t ht hpriv
    rcases mem_append.mp ht with ht | ht
    · exact hmap.unshared s hmem ((htypes t ht).symm.trans hpriv)
    · exact hmap.unshared t (mem_append_right _ ht) hpriv
  · intro t ht u hu
    rcases mem_append.mp hu with hu | hu
    · rw [htypes t ht, htypes u hu]
    · exact hmap.type_of (htypes t ht) u hu
  · exact fun i _ => hcovers i
  · exact fun _ i => le_trans (hcovers i) (countP_singleton_le s i)

theorem Heap.holdAmp_amps (hs : s.amp = some k) (hm : h.amps k = some m) : (h.holdAmp s).amps =
      update h.amps k (some { m with refcnt := m.refcnt + 1 }) := by
  unfold Heap.holdAmp
  simp only [hs, hm]
  rfl

theorem Heap.holdAmp_mapless (hs : s.amp = none) : h.holdAmp s = h := by
  unfold Heap.holdAmp
  simp only [hs]

@[simp] theorem Heap.holdAmp_nextAmp (h : Heap) (s : Seg) : (h.holdAmp s).nextAmp = h.nextAmp := by
  unfold Heap.holdAmp
  cases s.amp with
  | none => rfl
  | some k =>
    cases hm : h.amps k with
    | none => simp only [hm]
    | some m =>
      simp only [hm]
      rfl

theorem Moves.holdAmp (shm : Nat → Nat) (hamp₁ : s₁.amp = s.amp) (hamp₂ : s₂.amp = s.amp)
    (htype₁ : s₁.type = s.type) (htype₂ : s₂.type = s.type)
    (hend₁ : s₁.anonIndex + s₁.sSize ≤ s.anonIndex + s.sSize)
    (hend₂ : s₂.anonIndex + s₂.sSize ≤ s.anonIndex + s.sSize)
    (hcovers : ∀ i, [s₁, s₂].countP (Seg.covers i) ≤ [s].countP (Seg.covers i))
    (hok₁ : s.Ok → s₁.Ok) (hok₂ : s.Ok → s₂.Ok) : Moves h shm [s] (h.holdAmp s) shm [s₁, s₂] := by
  have hpair : s.Ok → ∀ t ∈ [s₁, s₂], t.Ok := by
    intro hok t ht
    rcases mem_pair.mp ht with rfl | rfl
    · exact hok₁ hok
    · exact hok₂ hok
  have hok : (∀ t ∈ [s], t.Ok) → ∀ t ∈ [s₁, s₂], t.Ok :=
    fun holds => hpair (holds s (mem_singleton_self s))
  cases hs : s.amp with
  | none =>
    rw [Heap.holdAmp_mapless hs]
    refine Moves.mapless rfl rfl (by simpa using hs) ?_ hok
    intro t ht
    rcases mem_pair.mp ht with rfl | rfl
    · exact hamp₁.trans hs
    · exact hamp₂.trans hs
  | some k =>
    cases hm : h.amps k with
    | none =>
      have hheap : h.holdAmp s = h := by
        unfold Heap.holdAmp
        simp only [hs, hm]
      rw [hheap]
      refine Moves.dangling hs hm rfl rfl ?_ hpair
      intro t ht
      rcases mem_pair.mp ht with rfl | rfl
      · exact .inr (hamp₁.trans hs)
      · exact .inr (hamp₂.trans hs)
    | some m =>
      refine Moves.at_amp hm (Heap.holdAmp_amps hs hm) (h.holdAmp_nextAmp s)
        (by simpa using hs) ?_ (fun _ _ => rfl) ?_ hok
      · intro t ht
        rcases mem_pair.mp ht with rfl | rfl
        · exact hamp₁.trans hs
        · exact hamp₂.trans hs
      · intro holds rest hmap
        have hself := holds s (mem_singleton_self s)
        exact MapOk.fork hmap htype₁ htype₂ (hok₁ hself).size (hok₂ hself).size hend₁ hend₂ hcovers

theorem countP_covers_divide (htype₁ : s₁.type = s.type) (htype₂ : s₂.type = s.type)
    (hlo : s.anonIndex ≤ s₁.anonIndex) (hmid : s₁.anonIndex + s₁.sSize ≤ s₂.anonIndex)
    (hhi : s₂.anonIndex + s₂.sSize ≤ s.anonIndex + s.sSize) (i : Nat) :
    [s₁, s₂].countP (Seg.covers i) ≤ [s].countP (Seg.covers i) := by
  rw [countP_cons, countP_singleton, countP_singleton]
  unfold Seg.covers
  rw [htype₁, htype₂]
  simp only [decide_eq_true_eq]
  by_cases hpriv : s.type = .priv
  · simp only [hpriv, true_and]
    split_ifs <;> omega
  · simp only [hpriv, false_and]
    simp

theorem countP_covers_shared {l : List Seg} (h : ∀ t ∈ l, t.type = .shared) (i : Nat) :
    l.countP (Seg.covers i) = 0 := by
  rw [countP_eq_zero]
  intro t ht
  simp [Seg.covers, h t ht]

section Ends

variable {addr nbase : Nat}

theorem Seg.Ok.lowEnd (hok : s.Ok) (hlo : s.sBase < addr) (hhi : addr ≤ s.sEnd) :
    (s.lowEnd addr).Ok := by
  unfold Seg.sEnd at hhi
  refine hok.part (Nat.sub_pos_of_lt hlo) rfl hok.index 0 ?_ rfl
  change 0 + (addr - s.sBase) ≤ s.sSize
  omega

theorem Seg.Ok.highEnd (hok : s.Ok) (hlo : s.sBase ≤ nbase) (hhi : nbase < s.sEnd) :
    (s.highEnd nbase).Ok := by
  have hsize : s.sEnd - nbase ≤ s.sSize := by
    unfold Seg.sEnd
    omega
  refine hok.part (Nat.sub_pos_of_lt hhi) rfl ?_ (s.sSize - (s.sEnd - nbase)) ?_ rfl
  · intro hs
    have hs : s.amp = none := hs
    change (if s.amp = none then 0 else _) = 0
    rw [if_pos hs]
  · change s.sSize - (s.sEnd - nbase) + (s.sEnd - nbase) ≤ s.sSize
    omega

end Ends

theorem Heap.unmapMiddle_cases (hunmap : h.unmapMiddle s addr len = some r) : (s.swresv = 0 ∨
      (((s.lowEnd addr).sSize + (s.highEnd (addr + len)).sSize + len : Nat) : Int) = s.swresv) ∧
    r = (((h.freeOwned s (s.anonIndex + (s.lowEnd addr).sSize) len).holdAmp s).unresvPart s len,
      [s.lowEnd addr, s.highEnd (addr + len)]) := by
  unfold Heap.unmapMiddle at hunmap
  simp only at hunmap
  split at hunmap
  · cases hunmap
  · rename_i hsplit
    refine ⟨?_, (some.inj hunmap).symm⟩
    by_contra hboth
    rw [not_or] at hboth
    exact hsplit hboth

theorem Moves.unmapMiddle (shm : Nat → Nat) (hlo : s.sBase < addr) (hhi : addr + len < s.sEnd)
    (hunmap : h.unmapMiddle s addr len = some r) : Moves h shm [s] r.1 shm r.2 := by
  obtain ⟨_, rfl⟩ := Heap.unmapMiddle_cases hunmap
  have hend : s.sEnd = s.sBase + s.sSize := rfl
  have hlow : (s.lowEnd addr).sSize = addr - s.sBase := rfl
  have hhigh : (s.highEnd (addr + len)).sSize = s.sEnd - (addr + len) := rfl
  by_cases hs : s.amp = none
  · have hheap : (h.freeOwned s (s.anonIndex + (s.lowEnd addr).sSize) len).holdAmp s = h := by
      rw [Heap.freeOwned_mapless h s hs, Heap.holdAmp_mapless hs]
    rw [hheap]
    refine Moves.mapless (Heap.unresvPart_amps _ _ _) (Heap.unresvPart_nextAmp _ _ _)
      (by simpa using hs) ?_ ?_
    · intro t ht
      rcases mem_pair.mp ht with rfl | rfl
      · exact hs
      · exact hs
    · intro holds t ht
      have hok := holds s (mem_singleton_self s)
      rcases mem_pair.mp ht with rfl | rfl
      · exact hok.lowEnd hlo (by omega)
      · exact hok.highEnd (by omega) hhi
  have hindex : (s.highEnd (addr + len)).anonIndex = s.anonIndex + (addr + len - s.sBase) := by
    change (if s.amp = none then 0 else _) = _
    rw [if_neg hs]
  have hfree : Moves h shm [s] (h.freeOwned s (s.anonIndex + (s.lowEnd addr).sSize) len) shm [s] :=
    Moves.contents (fun j => h.freeOwned_shape s j _ _) (h.freeOwned_nextAmp s _ _)
  have hhold : Moves (h.freeOwned s (s.anonIndex + (s.lowEnd addr).sSize) len) shm [s]
      ((h.freeOwned s (s.anonIndex + (s.lowEnd addr).sSize) len).holdAmp s) shm
      [s.lowEnd addr, s.highEnd (addr + len)] := by
    refine Moves.holdAmp shm rfl rfl rfl rfl ?_ ?_ ?_ ?_ ?_
    · change s.anonIndex + (s.lowEnd addr).sSize ≤ _
      omega
    · omega
    · refine countP_covers_divide rfl rfl (Nat.le_refl _) ?_ ?_
      · change s.anonIndex + (s.lowEnd addr).sSize ≤ _
        omega
      · omega
    · exact fun hok => hok.lowEnd hlo (by omega)
    · exact fun hok => hok.highEnd (by omega) hhi
  exact (hfree.trans hhold).trans
    (Moves.contents (fun j => by rw [Heap.unresvPart_amps]) (Heap.unresvPart_nextAmp _ _ _))

theorem Heap.segvnUnmap_cases (hlo : s.sBase ≤ addr) (hhi : addr + len ≤ s.sEnd)
    (hunmap : h.segvnUnmap s addr len = some r) :
    (addr = s.sBase ∧ len = s.sSize ∧ r = (h.segvnFree (s.unlock addr len), [])) ∨
    (addr = s.sBase ∧ len < s.sSize ∧ r = ((h.unmapHead (s.unlock addr len) len).1,
        [(h.unmapHead (s.unlock addr len) len).2])) ∨
    (s.sBase < addr ∧ addr + len = s.sEnd ∧ len < s.sSize ∧
      r = ((h.unmapTail (s.unlock addr len) len).1, [(h.unmapTail (s.unlock addr len) len).2])) ∨
    (s.sBase < addr ∧ addr + len < s.sEnd ∧
      h.unmapMiddle (s.unlock addr len) addr len = some r) := by
  have hend : s.sEnd = s.sBase + s.sSize := rfl
  unfold Heap.segvnUnmap at hunmap
  change (if addr = s.sBase ∧ len = s.sSize then _ else if addr = s.sBase then _
    else if addr + len = s.sEnd then _ else _) = some r at hunmap
  split at hunmap
  · rename_i hwhole
    exact .inl ⟨hwhole.1, hwhole.2, (some.inj hunmap).symm⟩
  · rename_i hwhole
    refine .inr ?_
    split at hunmap
    · rename_i hhead
      exact .inl ⟨hhead, by omega, (some.inj hunmap).symm⟩
    · refine .inr ?_
      split at hunmap
      · exact .inl ⟨by omega, by omega, by omega, (some.inj hunmap).symm⟩
      · exact .inr ⟨by omega, by omega, hunmap⟩

theorem Moves.segvnUnmap (shm : Nat → Nat) (hlo : s.sBase ≤ addr) (hhi : addr + len ≤ s.sEnd)
    (hunmap : h.segvnUnmap s addr len = some r) : Moves h shm [s] r.1 shm r.2 := by
  refine (Moves.unlock h shm s addr len).trans ?_
  rcases Heap.segvnUnmap_cases hlo hhi hunmap with
    ⟨_, _, rfl⟩ | ⟨_, hlen, rfl⟩ | ⟨_, _, hlen, rfl⟩ | ⟨hbase, hend, hmiddle⟩
  · exact Moves.segvnFree h shm _
  · exact Moves.unmapHead h shm hlen
  · exact Moves.unmapTail h shm hlen
  · exact Moves.unmapMiddle shm hbase hend hmiddle

/-- The rule for the loop of `as_unmap`: what holds of the segments that it passes
and of one that it unmaps holds of all. -/
theorem Heap.asUnmap_rule {P : Heap → List Seg → Heap → List Seg → Prop}
    (hrefl : ∀ h space, P h space h space)
    (hpass : ∀ h s rest h' rest', P h rest h' rest' → P h (s :: rest) h' (s :: rest'))
    (hunmap : ∀ h s addr len h₁ pieces rest h' rest', s.sBase ≤ addr → addr + len ≤ s.sEnd →
      h.segvnUnmap s addr len = some (h₁, pieces) → P h₁ rest h' rest' →
      P h (s :: rest) h' (pieces ++ rest'))
    (space : List Seg) : ∀ (h : Heap) (raddr : Nat) (r : Heap × List Seg), raddr ≤ eaddr →
      h.asUnmap raddr eaddr space = some r → P h space r.1 r.2 := by
  induction space with
  | nil =>
    intro h raddr r _ hrun
    rw [← some.inj hrun]
    exact hrefl h []
  | cons s rest ih =>
    intro h raddr r hle hrun
    have hend : s.sEnd = s.sBase + s.sSize := rfl
    unfold Heap.asUnmap at hrun
    split at hrun
    · cases hrest : h.asUnmap raddr eaddr rest with
      | none =>
        rw [hrest] at hrun
        cases hrun
      | some q =>
        rw [hrest] at hrun
        rw [← some.inj hrun]
        exact hpass h s rest q.1 q.2 (ih h raddr q hle hrest)
    · split at hrun
      · rw [← some.inj hrun]
        exact hrefl h _
      · simp only at hrun
        cases hseg : h.segvnUnmap s (max raddr s.sBase) (min eaddr s.sEnd - max raddr s.sBase) with
        | none =>
          rw [hseg] at hrun
          cases hrun
        | some q =>
          rw [hseg] at hrun
          simp only at hrun
          cases hrest : q.1.asUnmap (max raddr s.sBase +
              (min eaddr s.sEnd - max raddr s.sBase)) eaddr rest with
          | none =>
            rw [hrest] at hrun
            cases hrun
          | some q' =>
            rw [hrest] at hrun
            rw [← some.inj hrun]
            exact hunmap h s _ _ q.1 q.2 rest q'.1 q'.2 (by omega) (by omega) hseg
              (ih q.1 _ q' (by omega) hrest)

theorem Moves.asUnmap (shm : Nat → Nat) {raddr : Nat} {space : List Seg} (hle : raddr ≤ eaddr)
    (hunmap : h.asUnmap raddr eaddr space = some r) : Moves h shm space r.1 shm r.2 := by
  refine Heap.asUnmap_rule (P := fun h l h' l' => Moves h shm l h' shm l') ?_ ?_ ?_ space h
    raddr r hle hunmap
  · exact fun h space => Moves.refl h shm space
  · exact fun _ s _ _ _ hrest => hrest.frame_left [s]
  · intro h s addr len h₁ pieces rest h' rest' hlo hhi hseg hrest
    have hhead : Moves h shm [s] h₁ shm pieces := Moves.segvnUnmap shm hlo hhi hseg
    exact (hhead.frame_right rest).trans (hrest.frame_left pieces)

/-!
## Duplicating, protecting, faulting and locking
-/

theorem Seg.Ok.copy (hok : s.Ok) {index : Nat} {amp : Option Nat}
    (hindex : amp = none → index = 0) : (s.copy index amp).Ok where
  size := hok.size
  index := hindex
  noVpage hnone := hok.noVpage (map_eq_none_iff.mp hnone)
  vpage l hl := by
    rcases map_eq_some_iff.mp hl with ⟨l₀, hl₀, rfl⟩
    obtain ⟨hprot, hlength⟩ := hok.vpage l₀ hl₀
    exact ⟨hprot, by rw [length_map, hlength]; rfl⟩

section SegvnDup

variable {k : Nat} {m : AnonMap}

theorem Heap.segvnDup_mapless (hs : s.amp = none) :
    h.segvnDup s = (h.anonResv s.swresv, s.copy 0 none) := by
  simp only [Heap.segvnDup, hs]

theorem Heap.segvnDup_dangling (hs : s.amp = some k) (hm : h.amps k = none) :
    h.segvnDup s = (h.anonResv s.swresv, s.copy 0 none) := by
  have hm' : (h.anonResv s.swresv).amps k = none := hm
  simp only [Heap.segvnDup, hs, hm']

theorem Heap.segvnDup_shared (hs : s.amp = some k) (hm : h.amps k = some m)
    (htype : s.type = .shared) :
    h.segvnDup s = ((h.anonResv s.swresv).setAmp k { m with refcnt := m.refcnt + 1 },
      s.copy s.anonIndex (some k)) := by
  have hm' : (h.anonResv s.swresv).amps k = some m := hm
  simp only [Heap.segvnDup, hs, hm', if_pos htype]

theorem Heap.segvnDup_priv (hs : s.amp = some k) (hm : h.amps k = some m)
    (htype : s.type ≠ .shared) :
    h.segvnDup s = (((h.anonResv s.swresv).anonDup m s.anonIndex s.sSize).1,
      s.copy 0 (some h.nextAmp)) := by
  have hm' : (h.anonResv s.swresv).amps k = some m := hm
  simp only [Heap.segvnDup, hs, hm', if_neg htype]
  rfl

end SegvnDup

theorem Moves.segvnDup (h : Heap) (shm : Nat → Nat) (s : Seg) :
    Moves h shm [s] (h.segvnDup s).1 shm [s, (h.segvnDup s).2] := by
  have hok : ∀ {index amp}, (amp = none → index = 0) → s.Ok →
      ∀ t ∈ [s, s.copy index amp], t.Ok := by
    intro index amp hindex hself t ht
    rcases mem_pair.mp ht with rfl | rfl
    · exact hself
    · exact hself.copy hindex
  cases hs : s.amp with
  | none =>
    rw [Heap.segvnDup_mapless hs]
    refine Moves.mapless rfl rfl (by simpa using hs) ?_ ?_
    · intro t ht
      rcases mem_pair.mp ht with rfl | rfl
      · exact hs
      · rfl
    · exact fun holds => hok (fun _ => rfl) (holds s (mem_singleton_self s))
  | some k =>
    cases hm : h.amps k with
    | none =>
      rw [Heap.segvnDup_dangling hs hm]
      refine Moves.dangling hs hm rfl rfl ?_ (hok fun _ => rfl)
      intro t ht
      rcases mem_pair.mp ht with rfl | rfl
      · exact .inr hs
      · exact .inl rfl
    | some m =>
      by_cases hshared : s.type = .shared
      · rw [Heap.segvnDup_shared hs hm hshared]
        have hboth : ∀ t ∈ [s, s.copy s.anonIndex (some k)], t.type = .shared := by
          intro t ht
          rcases mem_pair.mp ht with rfl | rfl
          · exact hshared
          · exact hshared
        refine Moves.at_amp hm rfl rfl (by simpa using hs) ?_ (fun _ _ => rfl) ?_ ?_
        · intro t ht
          rcases mem_pair.mp ht with rfl | rfl
          · exact hs
          · rfl
        · intro holds rest hmap
          have hpos := (holds s (mem_singleton_self s)).size
          refine MapOk.fork hmap rfl rfl hpos hpos (Nat.le_refl _) (Nat.le_refl _) ?_
          intro i
          rw [countP_covers_shared hboth]
          exact Nat.zero_le _
        · exact fun holds => hok (fun hnone => by cases hnone) (holds s (mem_singleton_self s))
      · rw [Heap.segvnDup_priv hs hm hshared]
        let h' : Heap :=
          { h.anonResv s.swresv with
            refs := fun a => h.refs a + m.held s.anonIndex s.sSize a }
        have hrefs : Moves h shm [s] h' shm [s] := Moves.contents (fun _ => rfl) rfl
        refine hrefs.trans (Moves.alloc rfl (fun _ => ?_) rfl (fun _ => rfl) ?_)
        · change 0 + s.sSize ≤ s.sSize
          omega
        · intro holds
          refine ⟨?_, holds⟩
          exact (holds s (mem_singleton_self s)).copy fun hnone => by cases hnone

theorem Seg.Ok.plain (hok : s.Ok) (prot : Prot) (swresv : Int) :
    { s with prot := prot, swresv := swresv }.Ok :=
  ⟨hok.size, hok.index, hok.noVpage, hok.vpage⟩

theorem Moves.fields {h' : Heap} {shm : Nat → Nat} (hamps : h'.amps = h.amps)
    (hnext : h'.nextAmp = h.nextAmp) (hamp : s'.amp = s.amp) (htype : s'.type = s.type)
    (hindex : s'.anonIndex = s.anonIndex) (hsize : s'.sSize = s.sSize) (hok : s.Ok → s'.Ok) :
    Moves h shm [s] h' shm [s'] :=
  Moves.one (fun j => by rw [hamps]) hnext hamp htype hindex.ge (by rw [hindex, hsize]) hok

theorem Moves.vpages (h : Heap) (shm : Nat → Nat) (s : Seg) (hf : ∀ l, (f l).length = l.length) :
    Moves h shm [s] h shm [{ s.segvnVpage with vpage := s.segvnVpage.vpage.map f }] := by
  obtain ⟨pageprot, vpage, heq⟩ := s.segvnVpage_eq
  refine Moves.fields rfl rfl ?_ ?_ ?_ ?_ fun hok => hok.segvnVpage.vpage_map hf
  · rw [heq]
  · rw [heq]
  · rw [heq]
  · rw [heq]

theorem Moves.setprotPages (h : Heap) (shm : Nat → Nat) (s : Seg) (addr len : Nat)
    (prot : Prot) (done : Nat) : Moves h shm [s] (h.setprotPages s addr len prot done).1 shm
      [(h.setprotPages s addr len prot done).2] := by
  unfold Heap.setprotPages
  split
  · split
    · exact Moves.fields rfl rfl rfl rfl rfl rfl fun hok => hok.plain prot 0
    · exact Moves.fields rfl rfl rfl rfl rfl rfl fun hok => hok.plain prot s.swresv
  · exact Moves.vpages h shm s fun l => setRange_length _ _ _ _

theorem Moves.segvnSetprot (h : Heap) (shm : Nat → Nat) (s : Seg) (addr len : Nat)
    (prot : Prot) (resv : Bool) (done : Nat) :
    Moves h shm [s] (h.segvnSetprot s addr len prot resv done).1 shm
      [(h.segvnSetprot s addr len prot resv done).2] := by
  unfold Heap.segvnSetprot
  split
  · exact Moves.refl h shm [s]
  · split
    · exact Moves.refl h shm [s]
    · have hresv : Moves h shm [s] (h.setprotResv s prot).1 shm [(h.setprotResv s prot).2] := by
        unfold Heap.setprotResv
        split
        · exact Moves.fields rfl rfl rfl rfl rfl rfl fun hok => hok.plain s.prot s.sSize
        · exact Moves.refl h shm [s]
      exact hresv.trans (Moves.setprotPages _ shm _ addr len prot done)

theorem Moves.faultAmp (h : Heap) (shm : Nat → Nat) (swresv : Int) (hs : s.amp = none) :
    Moves h shm [s] (h.faultAmp s swresv).1 shm [(h.faultAmp s swresv).2] := by
  refine Moves.alloc_one rfl (fun hok => ?_) rfl hs fun hok => ?_
  · change s.anonIndex + s.sSize ≤ s.sSize
    rw [hok.index hs]
    omega
  · refine ⟨hok.size, ?_, hok.noVpage, hok.vpage⟩
    intro hnone
    cases hnone

theorem Heap.fillSlot_shape (h : Heap) (s : Seg) (page : Nat) (write : Bool) (a j : Nat) :
    ((h.fillSlot s page write a).amps j).map AnonMap.shape = (h.amps j).map AnonMap.shape := by
  have hupdate : ∀ {k m} (f : Nat → Option Nat), h.amps k = some m →
      (update h.amps k (some { m with anon := f }) j).map AnonMap.shape =
        (h.amps j).map AnonMap.shape := by
    intro k m f hm
    by_cases hj : j = k
    · rw [hj, update_self, hm]
      rfl
    · rw [update_of_ne hj]
  unfold Heap.fillSlot
  cases s.amp with
  | none => rfl
  | some k =>
    cases hm : h.amps k with
    | none => simp only [hm]
    | some m =>
      simp only [hm]
      split
      · exact hupdate _ hm
      · split
        · exact hupdate _ hm
        · rfl

theorem Heap.fillSlot_nextAmp (h : Heap) (s : Seg) (page : Nat) (write : Bool) (a : Nat) :
    (h.fillSlot s page write a).nextAmp = h.nextAmp := by
  unfold Heap.fillSlot
  cases s.amp with
  | none => rfl
  | some k =>
    cases hm : h.amps k with
    | none => simp only [hm]
    | some m =>
      simp only [hm]
      split
      · rfl
      · split <;> rfl

theorem Moves.segvnFault (h : Heap) (shm : Nat → Nat) (s : Seg) (page : Nat) (write : Bool)
    (ap : Option Nat) (swresv : Int) : Moves h shm [s] (h.segvnFault s page write ap swresv).1 shm
      [(h.segvnFault s page write ap swresv).2] := by
  let r := if s.amp = none ∧ (s.vp = none ∨ write ∧ s.type = .priv) then
      h.faultAmp s swresv
    else (h, s)
  have halloc : Moves h shm [s] r.1 shm [r.2] := by
    unfold r
    split
    · rename_i hnone
      exact Moves.faultAmp h shm swresv hnone.1
    · exact Moves.refl h shm [s]
  refine halloc.trans ?_
  cases ap with
  | none => exact Moves.refl _ shm _
  | some a =>
    exact Moves.contents (fun j => Heap.fillSlot_shape _ _ _ _ _ j)
      (Heap.fillSlot_nextAmp _ _ _ _ _)

theorem Moves.segvnLock (h : Heap) (shm : Nat → Nat) (s : Seg) (addr len : Nat)
    (locks : Nat → Bool) (swresv : Int) :
    Moves h shm [s] (h.segvnLock s addr len locks swresv).1 shm
      [(h.segvnLock s addr len locks swresv).2] := by
  let lock := fun (j : Nat) (v : Vpage) =>
    if addr - s.segvnVpage.sBase ≤ j ∧ j < addr - s.segvnVpage.sBase + len ∧ locks j then
      { v with vpPplock := true }
    else v
  have hlock := Moves.vpages h shm s fun l => length_mapIdx (f := lock)
  refine hlock.trans ?_
  unfold Heap.segvnLock
  simp only
  split
  · rename_i hnone
    exact Moves.faultAmp h shm swresv hnone.1
  · exact Moves.refl h shm _

end Operations

end Segvn
end Svr4
