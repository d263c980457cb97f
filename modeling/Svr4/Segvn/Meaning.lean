import Mathlib.Data.List.Induction
import Svr4.Segvn.Runs

/-!
# What the addresses of an address space denote

An address denotes a page of a file, a slot of an anon map, a protection and the
anonymous page that the slot holds.  A partial unmapping keeps what the remaining
addresses denote, except at the beginning of a shared mapping whose map is held
elsewhere: the anon index is not moved with the base of the segment there.
-/

namespace Svr4
namespace Segvn

open Function Transition List Option Segvn.Heap

/-!
## Denotation
-/

structure Meaning where
  file : Option (Nat × Int)
  prot : Option Prot
  type : MapType
  slot : Option (Nat × Nat)
  page : Option Nat
deriving DecidableEq

namespace Seg

def protAt (s : Seg) (p : Nat) : Option Prot :=
  if s.pageprot then (s.vpage.bind fun l => l[p - s.sBase]?).map Vpage.vpProt
  else some s.prot

def slotAt (s : Seg) (p : Nat) : Nat := s.anonIndex + (p - s.sBase)

end Seg

def Heap.meaning (h : Heap) (s : Seg) (p : Nat) : Meaning where
  file := s.vp.map fun v => (v, s.offset + ((p - s.sBase : Nat) : Int))
  prot := s.protAt p
  type := s.type
  slot := s.amp.map fun k => (k, s.slotAt p)
  page := (h.ampOf s).bind fun m => m.anon (s.slotAt p)

namespace World

def denotes (w : World) (i p : Nat) : Option Meaning :=
  (w.spaces[i]?.bind fun space => space.find? fun s => s.contains p).map fun s =>
    w.heap.meaning s p

/-- `segvn_unmap` on a segment of an address space. -/
def unmapSeg (w : World) (i n addr len : Nat) : Option World :=
  w.onSpace i fun space =>
    match space[n]? with
    | none => some (w.heap, space)
    | some s =>
      match w.heap.segvnUnmap s addr len with
      | none => none
      | some (h, pieces) => some (h, space.take n ++ pieces ++ space.drop (n + 1))

def holders (w : World) (k : Nat) : Nat := (users w.segs k).length + w.shm k

/-- A segment owns the references in its slots: it is private, or nothing else holds
its map. -/
def owns (w : World) (s : Seg) : Bool :=
  match s.amp with
  | none => false
  | some k => decide (s.type = .priv ∨ w.holders k = 1)

/-- The references to an anonymous page that a removal drops; the removal of all of a
shared segment that alone holds its map drops those of all the map. -/
def droppedRefs (w : World) (s : Seg) (addr len a : Nat) : Nat :=
  match w.heap.ampOf s with
  | none => 0
  | some m =>
    if w.owns s = false then 0
    else if s.type = .shared ∧ len = s.sSize then m.held 0 m.size a
    else m.held (s.slotAt addr) len a

/-- A removal keeps what all other addresses denote, and drops the references in the range once. -/
structure Unmapped (w : World) (i : Nat) (s : Seg) (addr len : Nat) (w' : World) :
    Prop where
  kept : ∀ p, s.contains p = true → ¬ (addr ≤ p ∧ p < addr + len) → w'.denotes i p = w.denotes i p
  gone : ∀ p, addr ≤ p → p < addr + len → w'.denotes i p = none
  others : ∀ j p, ¬ (j = i ∧ s.contains p = true) → w'.denotes j p = w.denotes j p
  dropped : ∀ a, w'.heap.refs a = w.heap.refs a - w.droppedRefs s addr len a
  cleared : w.owns s = true → ∀ m, w'.heap.ampOf s = some m →
    ∀ p, addr ≤ p → p < addr + len → m.anon (s.slotAt p) = none

/-- The beginning of a shared mapping is removed whose map is held elsewhere too. -/
def Shifts (w : World) (s : Seg) (addr len : Nat) : Prop :=
  s.type = .shared ∧ (∃ k, s.amp = some k ∧ 1 < w.holders k) ∧ addr = s.sBase ∧ 0 < len ∧
    len < s.sSize

end World

/-- The middle of a segment is removed for some but not all of whose pages swap space
is reserved. -/
def CannotSplit (s : Seg) (addr len : Nat) : Prop :=
  s.sBase < addr ∧ addr + len < s.sEnd ∧ s.swresv ≠ 0 ∧ s.swresv ≠ s.sSize

/-!
## The meaning of a part of a segment
-/

section Meaning

variable {h h' : Heap} {s t : Seg} {p : Nat}

theorem Heap.meaning_congr (hvp : t.vp = s.vp) (hoffset : s.vp ≠ none →
      t.offset + ((p - t.sBase : Nat) : Int) = s.offset + ((p - s.sBase : Nat) : Int))
    (hprot : t.protAt p = s.protAt p) (htype : t.type = s.type) (hamp : t.amp = s.amp)
    (hslot : s.amp ≠ none → t.slotAt p = s.slotAt p)
    (hpage : ∀ k, s.amp = some k → (h'.amps k).bind (fun m => m.anon (s.slotAt p)) =
        (h.amps k).bind fun m => m.anon (s.slotAt p)) : h'.meaning t p = h.meaning s p := by
  unfold Heap.meaning
  congr 1
  · rw [hvp]
    cases hv : s.vp with
    | none => rfl
    | some v =>
      rw [map_some, map_some, hoffset (by rw [hv]; exact some_ne_none v)]
  · rw [hamp]
    cases hs : s.amp with
    | none => rfl
    | some k =>
      rw [map_some, map_some, hslot (by rw [hs]; exact some_ne_none k)]
  · unfold Heap.ampOf
    rw [hamp]
    cases hs : s.amp with
    | none => rfl
    | some k =>
      rw [hslot (by rw [hs]; exact some_ne_none k)]
      exact hpage k hs

theorem setRange_vpProt (l : List Vpage) (i n j : Nat) {f : Vpage → Vpage}
    (hf : ∀ v, (f v).vpProt = v.vpProt) :
    (setRange l i n f)[j]?.map Vpage.vpProt = l[j]?.map Vpage.vpProt := by
  unfold setRange
  rw [getElem?_mapIdx]
  cases l[j]? with
  | none => rfl
  | some v =>
    rw [map_some, map_some, map_some]
    split
    · rw [hf]
    · rfl

theorem Seg.protAt_unlock (s : Seg) (addr len p : Nat) :
    (s.unlock addr len).protAt p = s.protAt p := by
  unfold Seg.protAt Seg.unlock
  cases s.vpage with
  | none => rfl
  | some l =>
    simp only [map_some, bind_some]
    rw [setRange_vpProt]
    exact fun _ => rfl

theorem Seg.protAt_part (hprot : t.prot = s.prot) (hpageprot : t.pageprot = s.pageprot)
    {i : Nat} (hvpage : t.vpage = s.vpage.map fun l => (l.drop i).take t.sSize)
    (hbase : t.sBase = s.sBase + i) (hlo : t.sBase ≤ p) (hhi : p < t.sEnd) :
    t.protAt p = s.protAt p := by
  have hend : t.sEnd = t.sBase + t.sSize := rfl
  unfold Seg.protAt
  rw [hprot, hpageprot, hvpage]
  cases s.vpage with
  | none => rfl
  | some l =>
    simp only [map_some, bind_some]
    rw [getElem?_take_of_lt (by omega), getElem?_drop]
    have hindex : i + (p - t.sBase) = p - s.sBase := by omega
    rw [hindex]

end Meaning

/-!
## The slots and references that a removal drops
-/

def Heap.anonAt (h : Heap) (k j : Nat) : Option Nat := (h.amps k).bind fun m => m.anon j

section Slots

variable {h : Heap} {s : Seg} {k : Nat} {m : AnonMap}

theorem Heap.freesSlots_eq (hs : s.amp = some k) (hm : h.amps k = some m) :
    h.freesSlots s = decide (m.refcnt = 1 ∨ s.type = .priv) := by
  have hamp : h.ampOf s = some m := by
    unfold Heap.ampOf
    rw [hs]
    exact hm
  unfold freesSlots
  simp only [hamp]

theorem Heap.freeOwned_anonAt (h : Heap) (s : Seg) (i n k j : Nat) :
    (h.freeOwned s i n).anonAt k j =
      if h.freesSlots s = true ∧ s.amp = some k ∧ i ≤ j ∧ j < i + n then none
      else h.anonAt k j := by
  unfold Heap.freeOwned
  by_cases hfrees : h.freesSlots s = true
  · rw [if_pos hfrees]
    unfold freeRange
    cases hs : s.amp with
    | none => simp
    | some k' =>
      cases hm : h.amps k' with
      | none =>
        have hfree : h.anonFree k' i n = h := by
          unfold anonFree
          simp only [hm]
        simp only [hfree]
        by_cases hk : k' = k
        · have hnone : h.anonAt k j = none := by
            unfold Heap.anonAt
            rw [← hk, hm]
            rfl
          rw [hnone, ite_self]
        · rw [if_neg fun hin => hk (some.inj hin.2.1)]
      | some m =>
        unfold Heap.anonAt
        rw [anonFree_amps _ _ _ hm]
        by_cases hk : k = k'
        · rw [hk, update_self, hm]
          change (if i ≤ j ∧ j < i + n then none else m.anon j) = _
          by_cases hin : i ≤ j ∧ j < i + n
          · rw [if_pos hin, if_pos ⟨hfrees, rfl, hin⟩]
          · rw [if_neg hin, if_neg fun hall => hin hall.2.2]
            rfl
        · rw [update_of_ne hk, if_neg fun hin => hk (some.inj hin.2.1).symm]
  · rw [if_neg hfrees, if_neg fun hin => hfrees hin.1]

theorem Heap.holdAmp_anonAt (h : Heap) (s : Seg) (k j : Nat) :
    (h.holdAmp s).anonAt k j = h.anonAt k j := by
  cases hs : s.amp with
  | none => rw [Heap.holdAmp_mapless hs]
  | some k' =>
    cases hm : h.amps k' with
    | none =>
      have hhold : h.holdAmp s = h := by
        unfold holdAmp
        simp only [hs, hm]
      rw [hhold]
    | some m =>
      unfold Heap.anonAt
      rw [holdAmp_amps hs hm]
      by_cases hk : k = k'
      · rw [hk, update_self, hm]
        rfl
      · rw [update_of_ne hk]

theorem Heap.unresvPart_anonAt (h : Heap) (s : Seg) (len k j : Nat) :
    (h.unresvPart s len).anonAt k j = h.anonAt k j := by
  unfold Heap.anonAt
  rw [Heap.unresvPart_amps]

theorem Heap.freeOwned_refs (hs : s.amp = some k) (hm : h.amps k = some m) (i n a : Nat) :
    (h.freeOwned s i n).refs a = h.refs a - if h.freesSlots s = true then m.held i n a else 0 := by
  unfold Heap.freeOwned
  by_cases hfrees : h.freesSlots s = true
  · rw [if_pos hfrees, if_pos hfrees]
    unfold freeRange anonFree
    simp only [hs, hm]
  · rw [if_neg hfrees, if_neg hfrees]
    simp

theorem Heap.holdAmp_refs (h : Heap) (s : Seg) : (h.holdAmp s).refs = h.refs := by
  unfold holdAmp
  cases s.amp with
  | none => rfl
  | some k =>
    cases hm : h.amps k with
    | none => simp only [hm]
    | some m =>
      simp only [hm]
      rfl

theorem Heap.unresvPart_refs (h : Heap) (s : Seg) (len : Nat) :
    (h.unresvPart s len).refs = h.refs := by
  unfold unresvPart
  split <;> rfl

theorem Heap.anonFree_refs (hm : h.amps k = some m) (i n a : Nat) :
    (h.anonFree k i n).refs a = h.refs a - m.held i n a := by
  unfold anonFree
  simp only [hm]

theorem Heap.releaseAmp_refs (hs : s.amp = some k) (hm : h.amps k = some m) (a : Nat) :
    (h.releaseAmp s).refs a = h.refs a - if s.type = .priv then m.held s.anonIndex s.sSize a
      else if m.refcnt - 1 = 0 then m.held 0 m.size a else 0 := by
  have hset : (h.setAmp k { m with refcnt := m.refcnt - 1 }).amps k =
      some { m with refcnt := m.refcnt - 1 } := update_self _ _ _
  unfold releaseAmp
  simp only [hs, hm]
  by_cases hpriv : s.type = .priv
  · by_cases hlast : m.refcnt - 1 = 0
    · simp only [if_pos hlast, if_pos hpriv]
      exact anonFree_refs hset _ _ _
    · simp only [if_neg hlast, if_pos hpriv]
      exact anonFree_refs hset _ _ _
  · by_cases hlast : m.refcnt - 1 = 0
    · simp only [if_pos hlast, if_neg hpriv]
      exact anonFree_refs hset _ _ _
    · simp only [if_neg hlast, if_neg hpriv]
      exact (Int.sub_zero _).symm

end Slots

/-!
## A removal by itself
-/

/-- The references that a removal drops, in terms of the count of the map. -/
def Heap.dropped (h : Heap) (s : Seg) (addr len a : Nat) : Nat :=
  match h.ampOf s with
  | none => 0
  | some m =>
    if h.freesSlots s = false then 0
    else if s.type = .shared ∧ len = s.sSize then m.held 0 m.size a
    else m.held (s.slotAt addr) len a

structure Heap.Removes (h : Heap) (s : Seg) (addr len : Nat) (r : Heap × List Seg) :
    Prop where
  kept : ∀ p, s.contains p = true → ¬ (addr ≤ p ∧ p < addr + len) →
    ∃ t ∈ r.2, t.contains p = true ∧ r.1.meaning t p = h.meaning s p
  within : ∀ t ∈ r.2, ∀ p, t.contains p = true → s.contains p = true ∧ ¬ (addr ≤ p ∧ p < addr + len)
  slots : ∀ k j, (s.amp = some k → ∀ m, h.amps k = some m → m.refcnt ≠ 1 ∧
    s.covers j = false) → r.1.anonAt k j = h.anonAt k j
  refs : ∀ a, r.1.refs a = h.refs a - h.dropped s addr len a
  cleared : h.freesSlots s = true → ∀ m, r.1.ampOf s = some m →
    ∀ p, addr ≤ p → p < addr + len → m.anon (s.slotAt p) = none

def Heap.Live (h : Heap) (s : Seg) : Prop :=
  ∀ k, s.amp = some k → ∃ m, h.amps k = some m ∧ 0 < m.refcnt

variable {k p : Nat} {m : AnonMap} {r : Heap × List Seg}

section Removes

variable {h : Heap} {s : Seg} {addr len : Nat}

theorem Heap.dropped_mapless (hs : s.amp = none) (a : Nat) : h.dropped s addr len a = 0 := by
  have hamp : h.ampOf s = none := by
    unfold Heap.ampOf
    rw [hs]
    rfl
  unfold Heap.dropped
  simp only [hamp]

theorem Heap.dropped_eq (hs : s.amp = some k) (hm : h.amps k = some m) (a : Nat) :
    h.dropped s addr len a = if h.freesSlots s = true then
        if s.type = .shared ∧ len = s.sSize then m.held 0 m.size a else m.held (s.slotAt addr) len a
      else 0 := by
  have hamp : h.ampOf s = some m := by
    unfold Heap.ampOf
    rw [hs]
    exact hm
  unfold Heap.dropped
  simp only [hamp]
  by_cases hfrees : h.freesSlots s = true
  · rw [if_pos hfrees, if_neg (by rw [hfrees]; exact Bool.noConfusion)]
  · rw [if_neg hfrees, if_pos (Bool.eq_false_iff.mpr hfrees)]

theorem Heap.Removes.whole (hlive : h.Live s) :
    h.Removes s s.sBase s.sSize (h.segvnFree (s.unlock s.sBase s.sSize), []) := by
  let u := s.unlock s.sBase s.sSize
  have hbase : s.slotAt s.sBase = s.anonIndex := by
    unfold Seg.slotAt
    omega
  refine ⟨?_, ?_, ?_, ?_, ?_⟩
  · intro p hp hout
    exact absurd (of_decide_eq_true hp) hout
  · intro t ht
    cases ht
  · intro k j hother
    change ((h.releaseAmp u).amps k).bind _ = _
    cases hs : s.amp with
    | none =>
      have hu : u.amp = none := hs
      rw [releaseAmp_none hu]
      rfl
    | some k' =>
      have hu : u.amp = some k' := hs
      obtain ⟨m, hm, hpos⟩ := hlive k' hs
      rw [releaseAmp_amps hu hm]
      by_cases hk : k = k'
      · subst hk
        obtain ⟨hne, hcovers⟩ := hother hs m hm
        unfold Heap.anonAt
        rw [update_self, hm]
        unfold AnonMap.releasedBy
        rw [if_neg (by omega)]
        by_cases hpriv : s.type = .priv
        · have hout : ¬ (s.anonIndex ≤ j ∧ j < s.anonIndex + s.sSize) := by
            intro hin
            have hc : s.covers j = true := decide_eq_true ⟨hpriv, hin⟩
            rw [hc] at hcovers
            cases hcovers
          rw [if_pos (show u.type = .priv from hpriv)]
          change (if s.anonIndex ≤ j ∧ j < s.anonIndex + s.sSize then none else m.anon j) = _
          rw [if_neg hout]
          rfl
        · rw [if_neg (show ¬ u.type = .priv from hpriv)]
          rfl
      · rw [update_of_ne hk]
        rfl
  · intro a
    change (h.releaseAmp u).refs a = _
    cases hs : s.amp with
    | none =>
      have hu : u.amp = none := hs
      rw [releaseAmp_none hu, Heap.dropped_mapless hs]
      exact (Int.sub_zero _).symm
    | some k =>
      have hu : u.amp = some k := hs
      obtain ⟨m, hm, hpos⟩ := hlive k hs
      rw [releaseAmp_refs hu hm, Heap.dropped_eq hs hm, freesSlots_eq hs hm, hbase]
      have htype : u.type = s.type := rfl
      rw [htype]
      cases s.type with
      | priv => simp [u, Seg.unlock]
      | shared =>
        by_cases hone : m.refcnt = 1
        · simp [hone]
        · have hne : m.refcnt - 1 ≠ 0 := by omega
          simp [hone, hne]
  · intro hfrees m' hm' p hlo hhi
    cases hs : s.amp with
    | none =>
      rw [h.freesSlots_mapless hs] at hfrees
      cases hfrees
    | some k =>
      have hu : u.amp = some k := hs
      obtain ⟨m, hm, hpos⟩ := hlive k hs
      rw [freesSlots_eq hs hm, decide_eq_true_eq] at hfrees
      have hm' : (h.releaseAmp u).amps k = some m' := by
        unfold Heap.ampOf at hm'
        rw [hs] at hm'
        exact hm'
      rw [releaseAmp_amps hu hm, update_self] at hm'
      unfold AnonMap.releasedBy at hm'
      split at hm'
      · cases hm'
      · rename_i hne
        have hpriv : s.type = .priv := hfrees.resolve_left (by omega)
        have hpriv' : u.type = .priv := hpriv
        rw [if_pos hpriv'] at hm'
        rw [← some.inj hm']
        change (if s.anonIndex ≤ s.slotAt p ∧ s.slotAt p < s.anonIndex + s.sSize then none
          else _) = none
        unfold Seg.slotAt
        rw [if_pos (by omega)]

/-- A part of a segment, whose fields are moved with its base. -/
structure Seg.PartOf (t s : Seg) : Prop where
  lo : s.sBase ≤ t.sBase
  hi : t.sEnd ≤ s.sEnd
  vp : t.vp = s.vp
  offset : s.vp ≠ none → t.offset = s.offset + ((t.sBase - s.sBase : Nat) : Int)
  prot : t.prot = s.prot
  pageprot : t.pageprot = s.pageprot
  vpage : t.vpage = s.vpage.map fun l => (l.drop (t.sBase - s.sBase)).take t.sSize
  type : t.type = s.type
  amp : t.amp = s.amp
  index : s.amp ≠ none → t.anonIndex = s.anonIndex + (t.sBase - s.sBase)

theorem Seg.PartOf.meaning {h' : Heap} {t : Seg} (hpart : t.PartOf s) (hp : t.contains p = true)
    (hpage : ∀ k, s.amp = some k → h'.anonAt k (s.slotAt p) = h.anonAt k (s.slotAt p)) :
    h'.meaning t p = h.meaning s p := by
  have hp : t.sBase ≤ p ∧ p < t.sEnd := of_decide_eq_true hp
  have hlo := hpart.lo
  refine Heap.meaning_congr hpart.vp ?_ ?_ hpart.type hpart.amp ?_ hpage
  · intro hne
    rw [hpart.offset hne]
    omega
  · exact Seg.protAt_part hpart.prot hpart.pageprot hpart.vpage (by omega) hp.1 hp.2
  · intro hne
    unfold Seg.slotAt
    rw [hpart.index hne]
    omega

theorem Heap.Removes.part (hlive : h.Live s) (hlo : s.sBase ≤ addr) (hhi : addr + len ≤ s.sEnd)
    (hlen : len < s.sSize) (hanon : ∀ k j, r.1.anonAt k j =
      if h.freesSlots s = true ∧ s.amp = some k ∧ s.slotAt addr ≤ j ∧ j < s.slotAt addr + len
      then none else h.anonAt k j)
    (hrefs : ∀ k m, s.amp = some k → h.amps k = some m → ∀ a, r.1.refs a =
      h.refs a - if h.freesSlots s = true then m.held (s.slotAt addr) len a else 0)
    (hmapless : s.amp = none → r.1.refs = h.refs) (hparts : ∀ t ∈ r.2, t.PartOf s)
    (hpieces : ∀ p, (∃ t ∈ r.2, t.contains p = true) ↔
      s.contains p = true ∧ ¬ (addr ≤ p ∧ p < addr + len)) : h.Removes s addr len r := by
  have hend : s.sEnd = s.sBase + s.sSize := rfl
  refine ⟨?_, ?_, ?_, ?_, ?_⟩
  · intro p hp hout
    obtain ⟨t, ht, hcontains⟩ := (hpieces p).mpr ⟨hp, hout⟩
    have hin : s.sBase ≤ p ∧ p < s.sEnd := of_decide_eq_true hp
    refine ⟨t, ht, hcontains, (hparts t ht).meaning hcontains fun k hk => ?_⟩
    rw [hanon, if_neg]
    rintro ⟨_, _, hfrom, hto⟩
    unfold Seg.slotAt at hfrom hto
    omega
  · exact fun t ht p hp => (hpieces p).mp ⟨t, ht, hp⟩
  · intro k j hother
    rw [hanon, if_neg]
    rintro ⟨hfrees, hs, hfrom, hto⟩
    obtain ⟨m, hm, _⟩ := hlive k hs
    obtain ⟨hne, hcovers⟩ := hother hs m hm
    rw [freesSlots_eq hs hm, decide_eq_true_eq] at hfrees
    have hpriv : s.type = .priv := hfrees.resolve_left hne
    unfold Seg.slotAt at hfrom hto
    have hc : s.covers j = true := decide_eq_true ⟨hpriv, by omega, by omega⟩
    rw [hc] at hcovers
    cases hcovers
  · intro a
    cases hs : s.amp with
    | none =>
      rw [hmapless hs, Heap.dropped_mapless hs]
      exact (Int.sub_zero _).symm
    | some k =>
      obtain ⟨m, hm, _⟩ := hlive k hs
      rw [hrefs k m hs hm, Heap.dropped_eq hs hm,
        if_neg fun hall : s.type = .shared ∧ len = s.sSize => by omega]
  · intro hfrees m hm p hfrom hto
    cases hs : s.amp with
    | none =>
      rw [h.freesSlots_mapless hs] at hfrees
      cases hfrees
    | some k =>
      have hm : r.1.amps k = some m := by
        unfold Heap.ampOf at hm
        rw [hs] at hm
        exact hm
      have hslot := hanon k (s.slotAt p)
      unfold Heap.anonAt at hslot
      rw [hm, if_pos] at hslot
      · exact hslot
      · refine ⟨hfrees, hs, ?_, ?_⟩
        · unfold Seg.slotAt
          omega
        · unfold Seg.slotAt
          omega

theorem Seg.lowEnd_partOf (hlo : s.sBase ≤ addr) (hhi : addr ≤ s.sEnd) :
    (s.lowEnd addr).PartOf s := by
  refine ⟨le_refl _, ?_, rfl, ?_, rfl, rfl, ?_, rfl, rfl, ?_⟩
  · change s.sBase + (addr - s.sBase) ≤ s.sEnd
    omega
  · intro _
    change s.offset = s.offset + ((s.sBase - s.sBase : Nat) : Int)
    omega
  · change s.vpage.map (fun l => l.take (addr - s.sBase)) =
      s.vpage.map fun l => (l.drop (s.sBase - s.sBase)).take (addr - s.sBase)
    rw [Nat.sub_self]
    rfl
  · intro _
    change s.anonIndex = s.anonIndex + (s.sBase - s.sBase)
    omega

theorem Seg.highEnd_partOf {nbase : Nat} (hlo : s.sBase ≤ nbase) (hhi : nbase ≤ s.sEnd) :
    (s.highEnd nbase).PartOf s := by
  have hend : s.sEnd = s.sBase + s.sSize := rfl
  refine ⟨hlo, ?_, rfl, ?_, rfl, rfl, ?_, rfl, rfl, ?_⟩
  · change nbase + (s.sEnd - nbase) ≤ s.sEnd
    omega
  · intro _
    change s.offset + nbase - s.sBase = s.offset + ((nbase - s.sBase : Nat) : Int)
    omega
  · change s.vpage.map (fun l => (l.drop (s.sSize - (s.sEnd - nbase))).take (s.sEnd - nbase)) =
      s.vpage.map fun l => (l.drop (nbase - s.sBase)).take (s.sEnd - nbase)
    have hdrop : s.sSize - (s.sEnd - nbase) = nbase - s.sBase := by omega
    rw [hdrop]
  · intro hne
    change (if s.amp = none then 0 else s.anonIndex + (nbase - s.sBase)) = _
    rw [if_neg hne]
    rfl

theorem Seg.cutTail_partOf (hlen : len ≤ s.sSize) : (s.cutTail len).PartOf s := by
  refine ⟨le_refl _, ?_, rfl, ?_, rfl, rfl, ?_, rfl, rfl, ?_⟩
  · change s.sBase + (s.sSize - len) ≤ s.sBase + s.sSize
    omega
  · intro _
    change s.offset = s.offset + ((s.sBase - s.sBase : Nat) : Int)
    omega
  · change s.vpage.map (fun l => l.take (s.sSize - len)) =
      s.vpage.map fun l => (l.drop (s.sBase - s.sBase)).take (s.sSize - len)
    rw [Nat.sub_self]
    rfl
  · intro _
    change s.anonIndex = s.anonIndex + (s.sBase - s.sBase)
    omega

theorem Seg.cutHead_partOf {freed : Bool} (hlen : len ≤ s.sSize)
    (hfreed : s.amp ≠ none → freed = true ∨ len = 0) : (s.cutHead len freed).PartOf s := by
  have hbase : s.sBase + len - s.sBase = len := by omega
  refine ⟨Nat.le_add_right _ _, ?_, rfl, ?_, rfl, rfl, ?_, rfl, rfl, ?_⟩
  · change s.sBase + len + (s.sSize - len) ≤ s.sBase + s.sSize
    omega
  · intro hne
    change (if s.vp ≠ none then s.offset + len else s.offset) = _
    rw [if_pos hne]
    change s.offset + len = s.offset + ((s.sBase + len - s.sBase : Nat) : Int)
    rw [hbase]
  · change s.vpage.map (fun l => (l.drop len).take (s.sSize - len)) =
      s.vpage.map fun l => (l.drop (s.sBase + len - s.sBase)).take (s.sSize - len)
    rw [hbase]
  · intro hne
    change (if freed then s.anonIndex + len else s.anonIndex) =
      s.anonIndex + (s.sBase + len - s.sBase)
    rw [hbase]
    rcases hfreed hne with hfreed | hzero
    · rw [if_pos hfreed]
    · rw [hzero, Nat.add_zero, ite_self]

theorem Heap.Removes.of_unlock
    (hr : h.Removes (s.unlock addr len) addr len r) : h.Removes s addr len r where
  kept p hp hout := by
    obtain ⟨t, ht, hcontains, hmeaning⟩ := hr.kept p hp hout
    refine ⟨t, ht, hcontains, hmeaning.trans ?_⟩
    exact Heap.meaning_congr rfl (fun _ => rfl) (s.protAt_unlock addr len p) rfl rfl
      (fun _ => rfl) fun _ _ => rfl
  within := hr.within
  slots := hr.slots
  refs := hr.refs
  cleared := hr.cleared

theorem Seg.contains_iff : s.contains p = true ↔ s.sBase ≤ p ∧ p < s.sEnd :=
  decide_eq_true_iff

theorem Heap.freed_anonAt (i k j : Nat) (hi : i = s.slotAt addr) :
    ((h.freeOwned s i len).unresvPart s len).anonAt k j =
      if h.freesSlots s = true ∧ s.amp = some k ∧ s.slotAt addr ≤ j ∧ j < s.slotAt addr + len
      then none else h.anonAt k j := by
  rw [Heap.unresvPart_anonAt, Heap.freeOwned_anonAt, hi]

theorem Heap.Removes.head (hlive : h.Live s) (hlen : len < s.sSize)
    (hfrees : s.amp ≠ none → h.freesSlots s = true ∨ len = 0) :
    h.Removes s s.sBase len ((h.unmapHead s len).1, [(h.unmapHead s len).2]) := by
  have hend : s.sEnd = s.sBase + s.sSize := rfl
  have hslot : s.anonIndex = s.slotAt s.sBase := by
    unfold Seg.slotAt
    omega
  refine Heap.Removes.part hlive (le_refl _) (by omega) hlen ?_ ?_ ?_ ?_ ?_
  · exact fun k j => Heap.freed_anonAt _ k j hslot
  · intro k m hs hm a
    change ((h.freeOwned s s.anonIndex len).unresvPart s len).refs a = _
    rw [unresvPart_refs, freeOwned_refs hs hm, hslot]
  · intro hs
    change ((h.freeOwned s s.anonIndex len).unresvPart s len).refs = _
    rw [unresvPart_refs, freeOwned_mapless h s hs]
  · intro t ht
    rw [mem_singleton.mp ht]
    exact Seg.cutHead_partOf (Nat.le_of_lt hlen) hfrees
  · intro p
    have hpiece : (h.unmapHead s len).2.contains p = true ↔
        s.sBase + len ≤ p ∧ p < s.sBase + len + (s.sSize - len) := Seg.contains_iff
    have hwhole : s.contains p = true ↔ s.sBase ≤ p ∧ p < s.sEnd := Seg.contains_iff
    simp only [mem_singleton, exists_eq_left, hpiece, hwhole]
    omega

theorem Heap.Removes.tail (hlive : h.Live s) (hend : addr + len = s.sEnd) (hlen : len < s.sSize) :
    h.Removes s addr len ((h.unmapTail s len).1, [(h.unmapTail s len).2]) := by
  have hsEnd : s.sEnd = s.sBase + s.sSize := rfl
  have hslot : s.anonIndex + (s.sSize - len) = s.slotAt addr := by
    unfold Seg.slotAt
    omega
  refine Heap.Removes.part hlive (by omega) (by omega) hlen ?_ ?_ ?_ ?_ ?_
  · exact fun k j => Heap.freed_anonAt _ k j hslot
  · intro k m hs hm a
    change ((h.freeOwned s (s.anonIndex + (s.sSize - len)) len).unresvPart s len).refs a = _
    rw [unresvPart_refs, freeOwned_refs hs hm, hslot]
  · intro hs
    change ((h.freeOwned s (s.anonIndex + (s.sSize - len)) len).unresvPart s len).refs = _
    rw [unresvPart_refs, freeOwned_mapless h s hs]
  · intro t ht
    rw [mem_singleton.mp ht]
    exact Seg.cutTail_partOf (Nat.le_of_lt hlen)
  · intro p
    have hpiece : (h.unmapTail s len).2.contains p = true ↔
        s.sBase ≤ p ∧ p < s.sBase + (s.sSize - len) := Seg.contains_iff
    have hwhole : s.contains p = true ↔ s.sBase ≤ p ∧ p < s.sEnd := Seg.contains_iff
    simp only [mem_singleton, exists_eq_left, hpiece, hwhole]
    omega

theorem Heap.Removes.middle (hlive : h.Live s) (hlo : s.sBase < addr) (hhi : addr + len < s.sEnd) :
    h.Removes s addr len
      (((h.freeOwned s (s.anonIndex + (s.lowEnd addr).sSize) len).holdAmp s).unresvPart s len,
        [s.lowEnd addr, s.highEnd (addr + len)]) := by
  have hend : s.sEnd = s.sBase + s.sSize := rfl
  have hslot : s.anonIndex + (s.lowEnd addr).sSize = s.slotAt addr := rfl
  refine Heap.Removes.part hlive (by omega) (by omega) (by omega) ?_ ?_ ?_ ?_ ?_
  · intro k j
    rw [Heap.unresvPart_anonAt, Heap.holdAmp_anonAt, Heap.freeOwned_anonAt, hslot]
  · intro k m hs hm a
    rw [unresvPart_refs, holdAmp_refs, freeOwned_refs hs hm, hslot]
  · intro hs
    rw [unresvPart_refs, holdAmp_refs, freeOwned_mapless h s hs]
  · intro t ht
    rcases mem_pair.mp ht with rfl | rfl
    · exact Seg.lowEnd_partOf (by omega) (by omega)
    · exact Seg.highEnd_partOf (by omega) (by omega)
  · intro p
    have hlow : (s.lowEnd addr).contains p = true ↔
        s.sBase ≤ p ∧ p < s.sBase + (addr - s.sBase) := Seg.contains_iff
    have hhigh : (s.highEnd (addr + len)).contains p = true ↔
        addr + len ≤ p ∧ p < addr + len + (s.sEnd - (addr + len)) := Seg.contains_iff
    have hwhole : s.contains p = true ↔ s.sBase ≤ p ∧ p < s.sEnd := Seg.contains_iff
    simp only [mem_cons, not_mem_nil, or_false, exists_eq_or_imp, exists_eq_left,
      hlow, hhigh, hwhole]
    omega

theorem Heap.segvnUnmap_removes (hlive : h.Live s) (hlo : s.sBase ≤ addr)
    (hhi : addr + len ≤ s.sEnd) (hunmap : h.segvnUnmap s addr len = some r)
    (hhead : s.amp ≠ none → addr = s.sBase → len < s.sSize → h.freesSlots s = true ∨ len = 0) :
    h.Removes s addr len r := by
  have hlive' : h.Live (s.unlock addr len) := hlive
  rcases Heap.segvnUnmap_cases hlo hhi hunmap with
    ⟨rfl, rfl, rfl⟩ | ⟨rfl, hlen, rfl⟩ | ⟨hbase, hend, hlen, rfl⟩ | ⟨hbase, hend, hmiddle⟩
  · exact Heap.Removes.whole hlive
  · refine Heap.Removes.of_unlock (Heap.Removes.head hlive' hlen ?_)
    exact fun hs => hhead hs rfl hlen
  · exact Heap.Removes.of_unlock (Heap.Removes.tail hlive' hend hlen)
  · obtain ⟨_, rfl⟩ := unmapMiddle_cases hmiddle
    exact Heap.Removes.of_unlock (Heap.Removes.middle hlive' hbase hend)

end Removes

/-!
## A removal among the other segments
-/

namespace World

section Frame

variable {w : World} {i n : Nat} {space : List Seg} {s t : Seg} {front back : List Seg}
  {addr len : Nat}

section

variable (hw : w.Sound)
include hw

theorem Sound.map_of (hsegs : w.segs = front ++ [s] ++ back) (hs : s.amp = some k) :
    ∃ m, w.heap.amps k = some m ∧ MapOk m (w.shm k) ([s] ++ users (front ++ back) k) := by
  have hperm : (users w.segs k).Perm ([s] ++ users (front ++ back) k) := by
    rw [hsegs, users_append, users_append, users_append, users_self hs, append_assoc]
    exact perm_append_comm_assoc _ _ _
  have hmap := (hw.maps k).perm hperm
  cases hm : w.heap.amps k with
  | none =>
    rw [hm] at hmap
    cases hmap.1
  | some m =>
    rw [hm] at hmap
    exact ⟨m, rfl, hmap⟩

theorem Sound.live (hsegs : w.segs = front ++ [s] ++ back) : w.heap.Live s := by
  intro k hs
  obtain ⟨m, hm, hmap⟩ := hw.map_of hsegs hs
  exact ⟨m, hm, hmap.live⟩

theorem Sound.holders_eq (hm : w.heap.amps k = some m) : w.holders k = m.refcnt := by
  have hmap := hw.maps k
  rw [hm] at hmap
  rw [hmap.refcnt]
  rfl

section

variable (hsegs : w.segs = front ++ [s] ++ back)
include hsegs

theorem Sound.owns_eq :
    w.owns s = w.heap.freesSlots s := by
  cases hs : s.amp with
  | none =>
    rw [w.heap.freesSlots_mapless hs]
    unfold owns
    simp only [hs]
  | some k =>
    obtain ⟨m, hm, _⟩ := hw.map_of hsegs hs
    rw [freesSlots_eq hs hm]
    unfold owns
    simp only [hs, hw.holders_eq hm]
    rw [decide_eq_decide]
    exact or_comm

theorem Sound.droppedRefs_eq
    (addr len a : Nat) : w.droppedRefs s addr len a = w.heap.dropped s addr len a := by
  unfold droppedRefs Heap.dropped
  rw [hw.owns_eq hsegs]

theorem Sound.other_slot
    (ht : t ∈ front ++ back) (hp : t.contains p = true) (hamp : t.amp = some k)
    (hs : s.amp = some k) (hm : w.heap.amps k = some m) :
    m.refcnt ≠ 1 ∧ s.covers (t.slotAt p) = false := by
  obtain ⟨m', hm', hmap⟩ := hw.map_of hsegs hs
  rw [hm] at hm'
  cases hm'
  have hmem : t ∈ users (front ++ back) k := mem_users.mpr ⟨ht, hamp⟩
  have hin : t.sBase ≤ p ∧ p < t.sEnd := of_decide_eq_true hp
  have hend : t.sEnd = t.sBase + t.sSize := rfl
  constructor
  · intro hone
    rw [(hmap.rest_nil_of_refcnt (Nat.le_of_eq hone)).1] at hmem
    cases hmem
  · by_contra hcovers
    have hcovers : s.covers (t.slotAt p) = true := by
      simpa using hcovers
    have hpriv : s.type = .priv := (of_decide_eq_true hcovers).1
    have htype : t.type = .priv := by
      rw [← hpriv]
      exact (hmap.type s (by simp) t (mem_append_right _ hmem)).symm
    have hcovers' : t.covers (t.slotAt p) = true := by
      refine decide_eq_true ⟨htype, ?_, ?_⟩
      · exact Nat.le_add_right _ _
      · unfold Seg.slotAt
        omega
    have hone := hmap.apart (t.slotAt p)
    rw [countP_append, countP_singleton, if_pos hcovers] at hone
    have hpos : 0 < (users (front ++ back) k).countP (Seg.covers (t.slotAt p)) :=
      countP_pos_iff.mpr ⟨t, hmem, hcovers'⟩
    omega

theorem Sound.other_meaning
    (hr : w.heap.Removes s addr len r) (ht : t ∈ front ++ back)
    (hp : t.contains p = true) : r.1.meaning t p = w.heap.meaning t p := by
  refine Heap.meaning_congr rfl (fun _ => rfl) rfl rfl rfl (fun _ => rfl) fun k hk => ?_
  refine hr.slots k _ fun hs m hm => ?_
  exact hw.other_slot hsegs ht hp hk hs hm

end

end

theorem denotes_of {hi : Nat} (hspace : w.spaces[i]? = some space) (hlaid : Laid 0 space hi)
    (ht : t ∈ space) (hp : t.contains p = true) : w.denotes i p = some (w.heap.meaning t p) := by
  obtain ⟨before, after, rfl⟩ := append_of_mem ht
  obtain ⟨hbefore, _⟩ := hlaid.unique hp
  have hfind : (before ++ t :: after).find? (fun s => s.contains p) = some t := by
    rw [find?_append, find?_eq_none.mpr fun u hu => by rw [hbefore u hu]; simp]
    simp [hp]
  unfold denotes
  rw [hspace, bind_some, hfind]
  rfl

theorem denotes_none (hspace : w.spaces[i]? = some space)
    (hp : ∀ t ∈ space, t.contains p = false) : w.denotes i p = none := by
  unfold denotes
  rw [hspace, bind_some, find?_eq_none.mpr fun u hu => by rw [hp u hu]; simp]
  rfl

theorem unmapSeg_eq (hspace : w.spaces[i]? = some space) (hs : space[n]? = some s) :
    w.unmapSeg i n addr len =
      (w.heap.segvnUnmap s addr len).map fun r =>
        { w with
          heap := r.1
          spaces := w.spaces.set i (space.take n ++ r.2 ++ space.drop (n + 1)) } := by
  unfold unmapSeg World.onSpace
  simp only [hspace, hs]
  cases w.heap.segvnUnmap s addr len with
  | none => rfl
  | some r => rfl

theorem mem_other_space {spaces : List (List Seg)} {j : Nat} {other : List Seg}
    (hother : spaces[j]? = some other) (hne : j ≠ i) (ht : t ∈ other) :
    t ∈ (spaces.take i).flatten ∨ t ∈ (spaces.drop (i + 1)).flatten := by
  rcases Nat.lt_or_gt_of_ne hne with hlt | hgt
  · have hmem : other ∈ spaces.take i := by
      refine mem_of_getElem? (i := j) ?_
      rw [getElem?_take_of_lt hlt, hother]
    exact Or.inl (mem_flatten.mpr ⟨other, hmem, ht⟩)
  · have hmem : other ∈ spaces.drop (i + 1) := by
      refine mem_of_getElem? (i := j - (i + 1)) ?_
      rw [getElem?_drop]
      have hindex : i + 1 + (j - (i + 1)) = j := by omega
      rw [hindex, hother]
    exact Or.inr (mem_flatten.mpr ⟨other, hmem, ht⟩)

theorem Sound.unmapped (hw : w.Sound) (hspace : w.spaces[i]? = some space)
    (hs : space[n]? = some s) (hlo : s.sBase ≤ addr) (hhi : addr + len ≤ s.sEnd)
    (hunmap : w.heap.segvnUnmap s addr len = some r) (hr : w.heap.Removes s addr len r) :
    w.Unmapped i s addr len
      { w with
        heap := r.1
        spaces := w.spaces.set i (space.take n ++ r.2 ++ space.drop (n + 1)) } := by
  have hsplit := split_at hs
  let front := (w.spaces.take i).flatten ++ space.take n
  let back := space.drop (n + 1) ++ (w.spaces.drop (i + 1)).flatten
  have hsegs : w.segs = front ++ [s] ++ back := by
    have hflat : w.segs = w.spaces.flatten := rfl
    rw [hflat, spaces_split hspace]
    conv => lhs; rw [hsplit]
    simp [front, back]
  obtain ⟨hi, hlaid⟩ := hw.laid_of hspace
  have hlaid' : Laid 0 (space.take n ++ r.2 ++ space.drop (n + 1)) hi := by
    rw [hsplit] at hlaid
    exact hlaid.replace fun _ _ hone => Laid.segvnUnmap hlo hhi hunmap hone
  have hmem : s ∈ space := mem_of_getElem? hs
  let w' : World :=
    { w with
      heap := r.1
      spaces := w.spaces.set i (space.take n ++ r.2 ++ space.drop (n + 1)) }
  have hspace' : w'.spaces[i]? = some (space.take n ++ r.2 ++ space.drop (n + 1)) := by
    obtain ⟨hlt, _⟩ := List.getElem?_eq_some_iff.mp hspace
    exact List.getElem?_set_self hlt
  have hframe : ∀ t p, t ∈ space.take n ++ space.drop (n + 1) → t.contains p = true →
      r.1.meaning t p = w.heap.meaning t p := by
    intro t p ht hp
    refine hw.other_meaning hsegs hr ?_ hp
    rcases mem_append.mp ht with ht | ht
    · exact mem_append_left _ (mem_append_right _ ht)
    · exact mem_append_right _ (mem_append_left _ ht)
  refine ⟨?_, ?_, ?_, ?_, ?_⟩
  · intro p hp hout
    obtain ⟨t, ht, hcontains, hmeaning⟩ := hr.kept p hp hout
    have hnew : w'.denotes i p = some (r.1.meaning t p) :=
      denotes_of hspace' hlaid' (by simp [ht]) hcontains
    exact (hnew.trans (congrArg some hmeaning)).trans (denotes_of hspace hlaid hmem hp).symm
  · intro p hfrom hto
    have hp : s.contains p = true := decide_eq_true ⟨by omega, by omega⟩
    refine denotes_none hspace' fun t ht => ?_
    rw [hsplit, append_assoc] at hlaid
    obtain ⟨hbefore, hafter⟩ := hlaid.unique hp
    rcases mem_append.mp ht with ht | ht
    · rcases mem_append.mp ht with ht | ht
      · exact hbefore t ht
      · by_contra hcontains
        exact (hr.within t ht p (by simpa using hcontains)).2 ⟨hfrom, hto⟩
    · exact hafter t ht
  · intro j p hout
    by_cases hj : j = i
    · subst hj
      have hnot : ¬ s.contains p = true := fun hp => hout ⟨rfl, hp⟩
      by_cases hex : ∃ t ∈ space.take n ++ space.drop (n + 1), t.contains p = true
      · obtain ⟨t, ht, hp⟩ := hex
        have hnew : w'.denotes j p = some (r.1.meaning t p) := by
          refine denotes_of hspace' hlaid' ?_ hp
          rcases mem_append.mp ht with ht | ht
          · exact mem_append_left _ (mem_append_left _ ht)
          · exact mem_append_right _ ht
        have hold : w.denotes j p = some (w.heap.meaning t p) := by
          refine denotes_of hspace hlaid ?_ hp
          rcases mem_append.mp ht with ht | ht
          · exact mem_of_mem_take ht
          · exact mem_of_mem_drop ht
        exact (hnew.trans (congrArg some (hframe t p ht hp))).trans hold.symm
      · have hnone : ∀ t ∈ space.take n ++ space.drop (n + 1), t.contains p = false := by
          intro t ht
          by_contra hp
          exact hex ⟨t, ht, by simpa using hp⟩
        have hold : w.denotes j p = none := by
          refine denotes_none hspace fun t ht => ?_
          rw [hsplit] at ht
          rcases mem_append.mp ht with ht | ht
          · rcases mem_append.mp ht with ht | ht
            · exact hnone t (mem_append_left _ ht)
            · rw [mem_singleton.mp ht]
              simpa using hnot
          · exact hnone t (mem_append_right _ ht)
        refine Eq.trans (denotes_none hspace' fun t ht => ?_) hold.symm
        rcases mem_append.mp ht with ht | ht
        · rcases mem_append.mp ht with ht | ht
          · exact hnone t (mem_append_left _ ht)
          · by_contra hp
            exact hnot (hr.within t ht p (by simpa using hp)).1
        · exact hnone t (mem_append_right _ ht)
    · have hsame : w'.spaces[j]? = w.spaces[j]? := getElem?_set_ne (Ne.symm hj)
      cases hother : w.spaces[j]? with
      | none =>
        unfold denotes
        rw [hsame, hother]
        rfl
      | some other =>
        rw [hother] at hsame
        obtain ⟨hi', hlaid''⟩ := hw.laid_of hother
        by_cases hex : ∃ t ∈ other, t.contains p = true
        · obtain ⟨t, ht, hp⟩ := hex
          have hmeaning : r.1.meaning t p = w.heap.meaning t p := by
            refine hw.other_meaning hsegs hr ?_ hp
            rcases mem_other_space hother hj ht with ht | ht
            · exact mem_append_left _ (mem_append_left _ ht)
            · exact mem_append_right _ (mem_append_right _ ht)
          have hnew : w'.denotes j p = some (r.1.meaning t p) :=
            denotes_of hsame hlaid'' ht hp
          exact (hnew.trans (congrArg some hmeaning)).trans (denotes_of hother hlaid'' ht hp).symm
        · have hnone : ∀ t ∈ other, t.contains p = false := by
            intro t ht
            by_contra hp
            exact hex ⟨t, ht, by simpa using hp⟩
          exact (denotes_none hsame hnone).trans (denotes_none hother hnone).symm
  · intro a
    rw [hw.droppedRefs_eq hsegs]
    exact hr.refs a
  · intro howns
    rw [hw.owns_eq hsegs] at howns
    exact hr.cleared howns

end Frame

end World

/-!
## When a removal keeps the rest
-/

theorem Heap.segvnUnmap_eq_none_iff {h : Heap} {s : Seg} {addr len : Nat}
    (hlo : s.sBase ≤ addr) (hhi : addr + len ≤ s.sEnd) :
    h.segvnUnmap s addr len = none ↔ CannotSplit s addr len := by
  let u := s.unlock addr len
  have hend : s.sEnd = s.sBase + s.sSize := rfl
  have hsum : addr - s.sBase + (s.sEnd - (addr + len)) + len = s.sSize := by omega
  have hmiddle : h.unmapMiddle u addr len =
      if s.swresv ≠ 0 ∧ ((addr - s.sBase + (s.sEnd - (addr + len)) + len : Nat) : Int) ≠ s.swresv
      then none
      else some (((h.freeOwned u (u.anonIndex + (u.lowEnd addr).sSize) len).holdAmp u).unresvPart
        u len, [u.lowEnd addr, u.highEnd (addr + len)]) := rfl
  rw [hsum] at hmiddle
  change (if addr = s.sBase ∧ len = s.sSize then _ else if addr = s.sBase then _
    else if addr + len = s.sEnd then _ else h.unmapMiddle u addr len) = none ↔ _
  split
  · rename_i hwhole
    exact iff_of_false (some_ne_none _) fun hsplit => by
      have hlt := hsplit.1
      omega
  · split
    · exact iff_of_false (some_ne_none _) fun hsplit => by
        have hlt := hsplit.1
        omega
    · split
      · exact iff_of_false (some_ne_none _) fun hsplit => by
          have hlt := hsplit.2.1
          omega
      · rw [hmiddle]
        by_cases hpanic : s.swresv ≠ 0 ∧ ((s.sSize : Nat) : Int) ≠ s.swresv
        · rw [if_pos hpanic]
          refine iff_of_true rfl ⟨by omega, by omega, hpanic.1, Ne.symm hpanic.2⟩
        · rw [if_neg hpanic]
          exact iff_of_false (some_ne_none _) fun hsplit =>
            hpanic ⟨hsplit.2.2.1, Ne.symm hsplit.2.2.2⟩

namespace World

/-- In every reachable world, the removal of a range of a segment returns, keeps what
the other addresses denote and drops the references of the segment in the range once,
exactly if it neither takes the beginning of a shared mapping whose map is held
elsewhere too nor has to split a partial swap reservation. -/
theorem unmap_keeps_iff {w : World} (hw : Reachable Start Step w) {i n addr len : Nat}
    {space : List Seg} {s : Seg} (hspace : w.spaces[i]? = some space)
    (hs : space[n]? = some s) (hlo : s.sBase ≤ addr) (hhi : addr + len ≤ s.sEnd) :
    (∃ w', w.unmapSeg i n addr len = some w' ∧ w.Unmapped i s addr len w') ↔
      ¬ w.Shifts s addr len ∧ ¬ CannotSplit s addr len := by
  have hsound := Sound.reachable hw
  have hend : s.sEnd = s.sBase + s.sSize := rfl
  obtain ⟨front, back, hsegs⟩ : ∃ front back, w.segs = front ++ [s] ++ back := by
    have hmem : s ∈ w.segs :=
      mem_flatten.mpr ⟨space, mem_of_getElem? hspace, mem_of_getElem? hs⟩
    obtain ⟨front, back, heq⟩ := append_of_mem hmem
    exact ⟨front, back, by simp [heq]⟩
  constructor
  · rintro ⟨w', hrun, hkeeps⟩
    rw [unmapSeg_eq hspace hs] at hrun
    obtain ⟨r, hunmap, rfl⟩ := map_eq_some_iff.mp hrun
    constructor
    · rintro ⟨hshared, ⟨k, hk, hheld⟩, rfl, hpos, hlen⟩
      obtain ⟨m, hm, hmap⟩ := hsound.map_of hsegs hk
      have hrefcnt := hsound.holders_eq hm
      have hfrees : w.heap.freesSlots (s.unlock s.sBase len) = false := by
        rw [freesSlots_eq (s := s.unlock s.sBase len) hk hm, decide_eq_false_iff_not]
        rintro (hone | hpriv)
        · omega
        · have hpriv : s.type = .priv := hpriv
          rw [hshared] at hpriv
          cases hpriv
      have hr : r.2 = [(s.unlock s.sBase len).cutHead len false] := by
        rcases Heap.segvnUnmap_cases (le_refl _) hhi hunmap with
          ⟨_, hall, _⟩ | ⟨_, _, rfl⟩ | ⟨hbase, _⟩ | ⟨hbase, _⟩
        · omega
        · rw [← hfrees]
          rfl
        · omega
        · omega
      -- the last page of the segment shows that the slots are shifted
      have hlast := hkeeps.kept (s.sEnd - 1) (decide_eq_true ⟨by omega, by omega⟩) (by omega)
      obtain ⟨hi, hlaid⟩ := hsound.laid_of hspace
      have hlaid' : Laid 0 (space.take n ++ r.2 ++ space.drop (n + 1)) hi := by
        rw [split_at hs] at hlaid
        exact hlaid.replace fun _ _ hone => Laid.segvnUnmap (le_refl _) hhi hunmap hone
      have hold : w.denotes i (s.sEnd - 1) = some (w.heap.meaning s (s.sEnd - 1)) :=
        denotes_of hspace hlaid (mem_of_getElem? hs) (decide_eq_true ⟨by omega, by omega⟩)
      have hnew : World.denotes
          { w with
            heap := r.1
            spaces := w.spaces.set i (space.take n ++ r.2 ++ space.drop (n + 1)) }
          i (s.sEnd - 1) = some (r.1.meaning ((s.unlock s.sBase len).cutHead len false)
            (s.sEnd - 1)) := by
        refine denotes_of ?_ hlaid' (by simp [hr]) ?_
        · obtain ⟨hlt, _⟩ := List.getElem?_eq_some_iff.mp hspace
          exact List.getElem?_set_self hlt
        · refine decide_eq_true ⟨?_, ?_⟩
          · change s.sBase + len ≤ s.sEnd - 1
            omega
          · change s.sEnd - 1 < s.sBase + len + (s.sSize - len)
            omega
      rw [hold, hnew, some.injEq] at hlast
      have hslot := congrArg Meaning.slot hlast
      change s.amp.map (fun k => (k, s.anonIndex + (s.sEnd - 1 - (s.sBase + len)))) =
        s.amp.map fun k => (k, s.anonIndex + (s.sEnd - 1 - s.sBase)) at hslot
      rw [hk, map_some, map_some, some.injEq, Prod.mk.injEq] at hslot
      omega
    · intro hsplit
      rw [(Heap.segvnUnmap_eq_none_iff hlo hhi).mpr hsplit] at hunmap
      cases hunmap
  · rintro ⟨hshift, hsplit⟩
    cases hunmap : w.heap.segvnUnmap s addr len with
    | none => exact absurd ((Heap.segvnUnmap_eq_none_iff hlo hhi).mp hunmap) hsplit
    | some r =>
      have hr : w.heap.Removes s addr len r := by
        refine Heap.segvnUnmap_removes (hsound.live hsegs) hlo hhi hunmap ?_
        intro hne hbase hlen
        obtain ⟨k, hk⟩ := ne_none_iff_exists'.mp hne
        obtain ⟨m, hm, hmap⟩ := hsound.map_of hsegs hk
        rw [freesSlots_eq hk hm, decide_eq_true_eq]
        by_contra hnot
        rw [not_or, not_or] at hnot
        obtain ⟨⟨hone, hpriv⟩, hzero⟩ := hnot
        have hlive := hmap.live
        refine hshift ⟨?_, ⟨k, hk, ?_⟩, hbase, Nat.pos_of_ne_zero hzero, hlen⟩
        · cases htype : s.type with
          | shared => rfl
          | priv => exact absurd htype hpriv
        · rw [hsound.holders_eq hm]
          omega
      refine ⟨_, ?_, hsound.unmapped hspace hs hlo hhi hunmap hr⟩
      rw [unmapSeg_eq hspace hs, hunmap]
      rfl

/-!
## A mapping that is shared with a child
-/

/-- The world after some events, of which those where the code panics are left out. -/
def after (es : List Event) : World := es.foldl (fun w e => (w.exec e).getD w) start

theorem after_reachable (es : List Event) : Reachable Start Step (after es) := by
  induction es using List.reverseRecOn with
  | nil => exact Reachable.start rfl
  | append_singleton es e ih =>
    have hlast : after (es ++ [e]) = ((after es).exec e).getD (after es) := by
      unfold after
      rw [foldl_append]
      rfl
    rw [hlast]
    cases hrun : (after es).exec e with
    | none => exact ih
    | some w => exact ih.next hrun

def zfod (type : MapType) (prot : Prot) : Crargs where
  vp := none
  offset := 0
  type := type
  prot := prot
  maxprot := 7
  amp := none

def calm : CreateEnv where
  anonResv := true
  hatMap := true
  addmap := true
  kas := false
  anonZero := fun _ => 0

def forked : World :=
  after [.asAlloc, .asAlloc, .map 0 0 2 (zfod .shared 7) calm, .dup 0 0 1 true true]

def forkedSeg : Seg := (zfod .shared 7).newSeg 0 2 2 0 (some 0)

theorem unmap_keeps_iff_forked :
    (∃ w', forked.unmapSeg 0 0 1 1 = some w' ∧ forked.Unmapped 0 forkedSeg 1 1 w') ↔
      ¬ forked.Shifts forkedSeg 1 1 ∧ ¬ CannotSplit forkedSeg 1 1 :=
  unmap_keeps_iff (after_reachable _) rfl rfl (by decide) (by decide)

/-- The first of the two pages is removed: the second one denotes the slot of the first. -/
theorem unmap_shifts : ¬ ∀ w : World, Reachable Start Step w → ∀ i n addr len space s,
      w.spaces[i]? = some space → space[n]? = some s → s.sBase ≤ addr → addr + len ≤ s.sEnd →
      ∃ w', w.unmapSeg i n addr len = some w' ∧ w.Unmapped i s addr len w' := by
  intro hall
  obtain ⟨w', hrun, hkeeps⟩ := hall forked (after_reachable _) 0 0 0 1 [forkedSeg] forkedSeg
    rfl rfl (by decide) (by decide)
  have hkept := hkeeps.kept 1 (by decide) (by decide)
  have hold : (forked.denotes 0 1).bind Meaning.slot = some (0, 1) := rfl
  have hnew : ((forked.unmapSeg 0 0 0 1).bind fun w => w.denotes 0 1).bind Meaning.slot =
      some (0, 0) := rfl
  rw [hrun, bind_some, hkept, hold] at hnew
  exact absurd hnew (by decide)

end World

end Segvn
end Svr4
