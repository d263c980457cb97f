import Mathlib.Algebra.Order.BigOperators.Group.Finset
import Mathlib.Tactic.Ring
import Mathlib.Algebra.BigOperators.Intervals
import Mathlib.Tactic.Linarith
import Svr4.Segvn.Meaning

/-!
# Reserved swap space

The swap space that is reserved is what segments and anon maps have reserved.  Every
operation keeps this as long as no creation merges a segment that has swap space
reserved with one that has none, and nothing is left in the reservation field of a
map that a fault allocates.
-/

namespace Svr4
namespace Segvn

open Function Transition List Option

/-!
## The ledger
-/

namespace Heap

def resvOf (h : Heap) (k : Nat) : Int := (h.amps k).elim 0 AnonMap.swresv

def ampResv (h : Heap) : Int := ∑ k ∈ Finset.range h.nextAmp, h.resvOf k

def owed (h : Heap) : Int := h.aniResv - h.ampResv

end Heap

def segResv (segs : List Seg) : Int := (segs.map Seg.swresv).sum

/-- A segment has swap space for all of its pages or for none, and a map for a shared one only. -/
structure Seg.Funded (h : Heap) (s : Seg) : Prop where
  full : s.swresv = 0 ∨ s.swresv = s.sSize
  shared : s.type = .shared → s.swresv = 0
  known : ∀ k, s.amp = some k → k < h.nextAmp ∧ (s.type = .priv → h.resvOf k = 0)

/-- An operation gives back what it reserves no longer, whatever the other segments
are. -/
structure Balances (h : Heap) (old : List Seg) (h' : Heap) (new : List Seg) : Prop where
  grows : h.nextAmp ≤ h'.nextAmp
  amps : ∀ k, k < h.nextAmp → h'.resvOf k = h.resvOf k ∨ h'.resvOf k = 0
  nonneg : (∀ k, 0 ≤ h.resvOf k) → ∀ k, 0 ≤ h'.resvOf k
  fresh : h.Fresh → h'.Fresh
  segs : h.Fresh → (∀ s ∈ old, s.Funded h) → ∀ s ∈ new, s.Funded h'
  ledger : h.Fresh → (∀ s ∈ old, s.Funded h) → h'.owed - segResv new = h.owed - segResv old

@[simp] theorem segResv_nil : segResv [] = 0 := rfl

@[simp] theorem segResv_singleton (s : Seg) : segResv [s] = s.swresv := by
  simp [segResv]

@[simp] theorem segResv_pair (s t : Seg) : segResv [s, t] = s.swresv + t.swresv := by
  simp [segResv]

theorem segResv_append (l₁ l₂ : List Seg) : segResv (l₁ ++ l₂) = segResv l₁ + segResv l₂ := by
  simp [segResv]

section Balances

variable {h h' h'' : Heap} {old mid new : List Seg} {s : Seg}

theorem Balances.refl (h : Heap) (old : List Seg) : Balances h old h old where
  grows := le_refl _
  amps _ _ := .inl rfl
  nonneg := id
  fresh := id
  segs _ := id
  ledger _ _ := rfl

theorem Balances.trans (h₁ : Balances h old h' mid) (h₂ : Balances h' mid h'' new) :
    Balances h old h'' new where
  grows := le_trans h₁.grows h₂.grows
  amps k hk := by
    rcases h₂.amps k (lt_of_lt_of_le hk h₁.grows) with heq | hzero
    · rw [heq]
      exact h₁.amps k hk
    · exact .inr hzero
  nonneg hpos := h₂.nonneg (h₁.nonneg hpos)
  fresh hf := h₂.fresh (h₁.fresh hf)
  segs hf hold := h₂.segs (h₁.fresh hf) (h₁.segs hf hold)
  ledger hf hold := (h₂.ledger (h₁.fresh hf) (h₁.segs hf hold)).trans (h₁.ledger hf hold)

theorem Seg.Funded.kept (hs : s.Funded h) (hb : Balances h old h' new) : s.Funded h' where
  full := hs.full
  shared := hs.shared
  known k hk := by
    obtain ⟨hlt, hzero⟩ := hs.known k hk
    refine ⟨lt_of_lt_of_le hlt hb.grows, fun hpriv => ?_⟩
    rcases hb.amps k hlt with heq | hnone
    · rw [heq]
      exact hzero hpriv
    · exact hnone

theorem Balances.frame (hb : Balances h old h' new) (before after : List Seg) :
    Balances h (before ++ old ++ after) h' (before ++ new ++ after) where
  grows := hb.grows
  amps := hb.amps
  nonneg := hb.nonneg
  fresh := hb.fresh
  segs hf hall s hs := by
    have hold : ∀ s ∈ old, s.Funded h := fun t ht =>
      hall t (mem_append_left _ (mem_append_right _ ht))
    rcases mem_append.mp hs with hs | hs
    · rcases mem_append.mp hs with hs | hs
      · exact (hall s (mem_append_left _ (mem_append_left _ hs))).kept hb
      · exact hb.segs hf hold s hs
    · exact (hall s (mem_append_right _ hs)).kept hb
  ledger hf hall := by
    have hold : ∀ s ∈ old, s.Funded h := fun t ht =>
      hall t (mem_append_left _ (mem_append_right _ ht))
    have hledger := hb.ledger hf hold
    simp only [segResv_append]
    linarith

theorem segResv_perm {l₁ l₂ : List Seg} (hp : l₁.Perm l₂) : segResv l₁ = segResv l₂ :=
  (hp.map Seg.swresv).sum_eq

theorem Balances.perm (hb : Balances h old h' mid) (hp : mid.Perm new) : Balances h old h' new where
  grows := hb.grows
  amps := hb.amps
  nonneg := hb.nonneg
  fresh := hb.fresh
  segs hf hold s hs := hb.segs hf hold s (hp.mem_iff.mpr hs)
  ledger hf hold := by
    rw [← segResv_perm hp]
    exact hb.ledger hf hold

theorem Heap.Fresh.setAmp {k : Nat} {m : AnonMap} (hf : h.Fresh) (hm : h.amps k = some m)
    (m' : AnonMap) : (h.setAmp k m').Fresh := by
  intro j hj
  have hne : j ≠ k := by
    rintro rfl
    rw [hf j hj] at hm
    cases hm
  change update h.amps k (some m') j = none
  rw [update_of_ne hne]
  exact hf j hj

theorem Balances.of_resvOf (hnext : h'.nextAmp = h.nextAmp) (hresv : h'.resvOf = h.resvOf)
    (hfresh : h.Fresh → h'.Fresh) (hsegs : (∀ s ∈ old, s.Funded h) → ∀ s ∈ new, s.Funded h')
    (hledger : (∀ s ∈ old, s.Funded h) → h'.aniResv - segResv new = h.aniResv - segResv old) :
    Balances h old h' new where
  grows := hnext.ge
  amps k _ := .inl (congrFun hresv k)
  nonneg hpos := by
    rw [hresv]
    exact hpos
  fresh := hfresh
  segs _ := hsegs
  ledger _ hold := by
    have hsum : h'.ampResv = h.ampResv := by
      unfold Heap.ampResv
      rw [hnext, hresv]
    have hani := hledger hold
    unfold Heap.owed
    rw [hsum]
    linarith

end Balances

/-!
## Reservations of maps
-/

section ResvOf

variable {h h' : Heap} {s : Seg} {k : Nat} {m m' : AnonMap}

theorem Heap.resvOf_eq (hm : h.amps k = some m) : h.resvOf k = m.swresv := by
  unfold Heap.resvOf
  rw [hm]
  rfl

theorem Heap.resvOf_congr (hamps : h'.amps = h.amps) : h'.resvOf = h.resvOf := by
  funext k
  unfold Heap.resvOf
  rw [hamps]

theorem Heap.resvOf_update (hm : h.amps k = some m) (hswresv : m'.swresv = m.swresv)
    (hamps : h'.amps = update h.amps k (some m')) : h'.resvOf = h.resvOf := by
  funext j
  unfold Heap.resvOf
  rw [hamps]
  by_cases hj : j = k
  · rw [hj, update_self, hm]
    exact hswresv
  · rw [update_of_ne hj]

theorem Heap.resvOf_remove (hamps : h'.amps = update h.amps k none) (j : Nat) :
    h'.resvOf j = if j = k then 0 else h.resvOf j := by
  unfold Heap.resvOf
  rw [hamps]
  by_cases hj : j = k
  · rw [if_pos hj, hj, update_self]
    rfl
  · rw [if_neg hj, update_of_ne hj]

theorem Heap.ampResv_remove (hf : h.Fresh) (hamps : h'.amps = update h.amps k none)
    (hnext : h'.nextAmp = h.nextAmp) : h'.ampResv = h.ampResv - h.resvOf k := by
  unfold Heap.ampResv
  rw [hnext, Finset.sum_congr rfl fun j _ => Heap.resvOf_remove hamps j]
  by_cases hk : k < h.nextAmp
  · have hmem : k ∈ Finset.range h.nextAmp := Finset.mem_range.mpr hk
    rw [← Finset.add_sum_erase _ _ hmem, ← Finset.add_sum_erase _ h.resvOf hmem, if_pos rfl]
    have hrest : ∀ j ∈ (Finset.range h.nextAmp).erase k,
        (if j = k then 0 else h.resvOf j) = h.resvOf j := fun j hj =>
      if_neg (Finset.ne_of_mem_erase hj)
    rw [Finset.sum_congr rfl hrest]
    ring
  · have hzero : h.resvOf k = 0 := by
      unfold Heap.resvOf
      rw [hf k (Nat.le_of_not_lt hk)]
      rfl
    have hall : ∀ j ∈ Finset.range h.nextAmp, (if j = k then 0 else h.resvOf j) = h.resvOf j := by
      intro j hj
      have hlt := Finset.mem_range.mp hj
      exact if_neg (by omega)
    rw [Finset.sum_congr rfl hall, hzero, Int.sub_zero]

theorem Heap.resvOf_newAmp (h : Heap) (m : AnonMap) (j : Nat) :
    (h.newAmp m).1.resvOf j = if j = h.nextAmp then m.swresv else h.resvOf j := by
  unfold Heap.resvOf
  change (update h.amps h.nextAmp (some m) j).elim 0 AnonMap.swresv = _
  by_cases hj : j = h.nextAmp
  · rw [if_pos hj, hj, update_self]
    rfl
  · rw [if_neg hj, update_of_ne hj]

theorem Heap.ampResv_newAmp (h : Heap) (m : AnonMap) :
    (h.newAmp m).1.ampResv = h.ampResv + m.swresv := by
  unfold Heap.ampResv
  change ∑ j ∈ Finset.range (h.nextAmp + 1), (h.newAmp m).1.resvOf j = _
  rw [Finset.sum_range_succ, Heap.resvOf_newAmp, if_pos rfl]
  have hall : ∀ j ∈ Finset.range h.nextAmp, (h.newAmp m).1.resvOf j = h.resvOf j := by
    intro j hj
    have hlt := Finset.mem_range.mp hj
    rw [Heap.resvOf_newAmp, if_neg (by omega)]
  rw [Finset.sum_congr rfl hall]

variable (h) (s)

theorem Heap.anonFree_resvOf (k i n : Nat) : (h.anonFree k i n).resvOf = h.resvOf := by
  cases hm : h.amps k with
  | none =>
    have hsame : h.anonFree k i n = h := by
      unfold Heap.anonFree
      simp only [hm]
    rw [hsame]
  | some m =>
    have hswresv : (m.clear i n).swresv = m.swresv := rfl
    exact Heap.resvOf_update hm hswresv (h.anonFree_amps i n hm)

theorem Heap.anonFree_aniResv (k i n : Nat) : (h.anonFree k i n).aniResv = h.aniResv := by
  unfold Heap.anonFree
  cases h.amps k with
  | none => rfl
  | some m => rfl

theorem Heap.freeOwned_resvOf (i n : Nat) : (h.freeOwned s i n).resvOf = h.resvOf := by
  unfold Heap.freeOwned Heap.freeRange
  split
  · cases s.amp with
    | none => rfl
    | some k => exact h.anonFree_resvOf k i n
  · rfl

theorem Heap.freeOwned_aniResv (i n : Nat) : (h.freeOwned s i n).aniResv = h.aniResv := by
  unfold Heap.freeOwned Heap.freeRange
  split
  · cases s.amp with
    | none => rfl
    | some k => exact h.anonFree_aniResv k i n
  · rfl

theorem Heap.holdAmp_resvOf : (h.holdAmp s).resvOf = h.resvOf := by
  unfold Heap.holdAmp
  cases s.amp with
  | none => rfl
  | some k =>
    cases hm : h.amps k with
    | none => simp only [hm]
    | some m =>
      simp only [hm]
      have hswresv : { m with refcnt := m.refcnt + 1 }.swresv = m.swresv := rfl
      exact Heap.resvOf_update hm hswresv rfl

theorem Heap.holdAmp_aniResv : (h.holdAmp s).aniResv = h.aniResv := by
  unfold Heap.holdAmp
  cases s.amp with
  | none => rfl
  | some k =>
    cases hm : h.amps k with
    | none => simp only [hm]
    | some m =>
      simp only [hm]
      rfl

theorem Heap.unresvPart_aniResv (len : Nat) :
    (h.unresvPart s len).aniResv = h.aniResv - if s.swresv ≠ 0 then (len : Int) else 0 := by
  unfold Heap.unresvPart
  by_cases hs : s.swresv ≠ 0
  · rw [if_pos hs, if_pos hs]
    rfl
  · rw [if_neg hs, if_neg hs, Int.sub_zero]

end ResvOf

/-!
## Freeing and unmapping
-/

section Unmap

variable {h : Heap} {s : Seg} {addr len : Nat}

theorem Heap.releaseAmp_aniResv {k : Nat} {m : AnonMap} (hs : s.amp = some k)
    (hm : h.amps k = some m) : (h.releaseAmp s).aniResv =
      h.aniResv - if m.refcnt - 1 = 0 ∧ s.type = .shared then m.swresv else 0 := by
  unfold Heap.releaseAmp
  simp only [hs, hm]
  cases htype : s.type with
  | priv =>
    by_cases hlast : m.refcnt - 1 = 0
    · simp [hlast, Heap.anonFree_aniResv, Heap.setAmp]
    · simp [hlast, Heap.anonFree_aniResv, Heap.setAmp]
  | shared =>
    by_cases hlast : m.refcnt - 1 = 0
    · simp [hlast, Heap.anonFree_aniResv, Heap.setAmp, Heap.anonUnresv]
    · simp [hlast, Heap.setAmp]

variable {h' : Heap} {old new : List Seg}

theorem Balances.remove {k : Nat} {m : AnonMap} (hm : h.amps k = some m)
    (hamps : h'.amps = update h.amps k none) (hnext : h'.nextAmp = h.nextAmp)
    (hledger : (∀ s ∈ old, s.Funded h) →
      h'.aniResv + m.swresv = h.aniResv - segResv old) : Balances h old h' [] := by
  have hone := Heap.resvOf_remove hamps
  refine ⟨hnext.ge, ?_, ?_, ?_, ?_, ?_⟩
  · intro j _
    rw [hone]
    by_cases hj : j = k
    · exact .inr (if_pos hj)
    · exact .inl (if_neg hj)
  · intro hpos j
    rw [hone]
    split
    · exact le_refl 0
    · exact hpos j
  · intro hf j hj
    rw [hnext] at hj
    rw [hamps]
    by_cases hjk : j = k
    · rw [hjk, update_self]
    · rw [update_of_ne hjk]
      exact hf j hj
  · intro _ _ t ht
    cases ht
  · intro hf hold
    have hsum := Heap.ampResv_remove hf hamps hnext
    rw [Heap.resvOf_eq hm] at hsum
    have hani := hledger hold
    unfold Heap.owed
    rw [hsum, segResv_nil]
    linarith

theorem Balances.segvnFree (h : Heap) (s : Seg) : Balances h [s] (h.segvnFree s) [] := by
  have hfresh : h.Fresh → (h.segvnFree s).Fresh :=
    (Moves.segvnFree h (fun _ => 0) s).fresh
  have hsame : h.releaseAmp s = h → Balances h [s] (h.segvnFree s) [] := by
    intro heq
    have hfree : h.segvnFree s = h.anonUnresv s.swresv := by
      unfold Heap.segvnFree
      rw [heq]
    rw [hfree] at hfresh ⊢
    refine Balances.of_resvOf rfl rfl hfresh (fun _ t ht => by cases ht) fun _ => ?_
    change h.aniResv - s.swresv - segResv [] = _
    simp
  cases hs : s.amp with
  | none => exact hsame (Heap.releaseAmp_none hs)
  | some k =>
    cases hm : h.amps k with
    | none => exact hsame (Heap.releaseAmp_dangling hs hm)
    | some m =>
      have hani := Heap.releaseAmp_aniResv hs hm
      have hamps := Heap.releaseAmp_amps hs hm
      have hnext := h.releaseAmp_nextAmp s
      have hfree : (h.segvnFree s).aniResv = (h.releaseAmp s).aniResv - s.swresv := rfl
      by_cases hlast : m.refcnt - 1 = 0
      · have hnone : m.releasedBy s = none := by
          unfold AnonMap.releasedBy
          rw [if_pos hlast]
        rw [hnone] at hamps
        have hamps' : (h.segvnFree s).amps = update h.amps k none := hamps
        refine Balances.remove hm hamps' hnext fun hold => ?_
        have hpriv := ((hold s (mem_singleton_self s)).known k hs).2
        rw [Heap.resvOf_eq hm] at hpriv
        rw [hfree, hani, segResv_singleton]
        cases htype : s.type with
        | priv =>
          rw [if_neg (by simp), hpriv htype]
          ring
        | shared =>
          rw [if_pos ⟨hlast, rfl⟩]
          ring
      · obtain ⟨m', hm', hswresv⟩ : ∃ m', m.releasedBy s = some m' ∧ m'.swresv = m.swresv := by
          unfold AnonMap.releasedBy
          rw [if_neg hlast]
          split
          · exact ⟨_, rfl, rfl⟩
          · exact ⟨_, rfl, rfl⟩
        rw [hm'] at hamps
        rw [if_neg fun hboth => hlast hboth.1, Int.sub_zero] at hani
        refine Balances.of_resvOf hnext (Heap.resvOf_update hm hswresv hamps) hfresh
          (fun _ t ht => by cases ht) fun _ => ?_
        rw [hfree, hani]
        simp

theorem Seg.Funded.unlock (hs : s.Funded h) : (s.unlock addr len).Funded h :=
  ⟨hs.full, hs.shared, hs.known⟩

theorem Seg.Funded.same {t : Seg} (hs : s.Funded h) (hfull : t.swresv = 0 ∨
      t.swresv = t.sSize) (hzero : s.swresv = 0 → t.swresv = 0) (htype : t.type = s.type)
    (hamp : t.amp = s.amp) (hnext : h'.nextAmp = h.nextAmp) (hresv : h'.resvOf = h.resvOf) :
    t.Funded h' where
  full := hfull
  shared hshared := hzero (hs.shared (htype ▸ hshared))
  known k hk := by
    obtain ⟨hlt, hnone⟩ := hs.known k (hamp ▸ hk)
    refine ⟨hnext ▸ hlt, fun hpriv => ?_⟩
    rw [hresv]
    exact hnone (htype ▸ hpriv)

theorem Balances.shorten {t : Seg} (start : Nat) (hlen : len < s.sSize)
    (hfresh : h.Fresh → ((h.freeOwned s start len).unresvPart s len).Fresh)
    (hsize : t.sSize = s.sSize - len)
    (hswresv : t.swresv = if s.swresv ≠ 0 then s.swresv - len else s.swresv)
    (htype : t.type = s.type) (hamp : t.amp = s.amp) :
    Balances h [s] ((h.freeOwned s start len).unresvPart s len) [t] := by
  have hnext : ((h.freeOwned s start len).unresvPart s len).nextAmp = h.nextAmp :=
    h.freeUnresv_nextAmp s _ _ _
  have hresv : ((h.freeOwned s start len).unresvPart s len).resvOf = h.resvOf := by
    rw [← h.freeOwned_resvOf s start len]
    exact Heap.resvOf_congr (Heap.unresvPart_amps _ s len)
  refine Balances.of_resvOf hnext hresv hfresh ?_ ?_
  · intro hold u hu
    have hs := hold s (mem_singleton_self s)
    rw [mem_singleton.mp hu]
    refine hs.same ?_ ?_ htype hamp hnext hresv
    · rw [hswresv, hsize]
      rcases hs.full with hzero | hall
      · exact .inl (by rw [if_neg (not_not.mpr hzero), hzero])
      · refine .inr ?_
        split <;> omega
    · intro hzero
      rw [hswresv, if_neg (not_not.mpr hzero), hzero]
  · intro _
    rw [Heap.unresvPart_aniResv, Heap.freeOwned_aniResv, segResv_singleton, segResv_singleton,
      hswresv]
    split <;> ring

theorem Balances.unmapHead (h : Heap) (hlen : len < s.sSize) :
    Balances h [s] (h.unmapHead s len).1 [(h.unmapHead s len).2] :=
  Balances.shorten _ hlen (Moves.unmapHead h (fun _ => 0) hlen).fresh rfl rfl rfl rfl

theorem Balances.unmapTail (h : Heap) (hlen : len < s.sSize) :
    Balances h [s] (h.unmapTail s len).1 [(h.unmapTail s len).2] :=
  Balances.shorten _ hlen (Moves.unmapTail h (fun _ => 0) hlen).fresh rfl rfl rfl rfl

variable {r : Heap × List Seg}

theorem Balances.unmapMiddle (hlo : s.sBase < addr) (hhi : addr + len < s.sEnd)
    (hunmap : h.unmapMiddle s addr len = some r) : Balances h [s] r.1 r.2 := by
  have hfresh := (Moves.unmapMiddle (fun _ => 0) hlo hhi hunmap).fresh
  obtain ⟨hsplit, rfl⟩ := Heap.unmapMiddle_cases hunmap
  have hend : s.sEnd = s.sBase + s.sSize := rfl
  let i := s.anonIndex + (s.lowEnd addr).sSize
  have hnext : (((h.freeOwned s i len).holdAmp s).unresvPart s len).nextAmp = h.nextAmp := by
    rw [Heap.unresvPart_nextAmp, Heap.holdAmp_nextAmp, Heap.freeOwned_nextAmp]
  have hresv : (((h.freeOwned s i len).holdAmp s).unresvPart s len).resvOf = h.resvOf := by
    rw [Heap.resvOf_congr (Heap.unresvPart_amps _ s len), Heap.holdAmp_resvOf,
      Heap.freeOwned_resvOf]
  have hlow : (s.lowEnd addr).swresv =
      if s.swresv ≠ 0 then ((addr - s.sBase : Nat) : Int) else s.swresv := rfl
  have hhigh : (s.highEnd (addr + len)).swresv =
      if s.swresv ≠ 0 then ((s.sEnd - (addr + len) : Nat) : Int) else 0 := rfl
  refine Balances.of_resvOf hnext hresv hfresh ?_ ?_
  · intro hold t ht
    have hs := hold s (mem_singleton_self s)
    rcases mem_pair.mp ht with rfl | rfl
    · refine hs.same ?_ ?_ rfl rfl hnext hresv
      · rw [hlow]
        split
        · exact .inr rfl
        · exact .inl (by omega)
      · intro hzero
        rw [hlow, if_neg (not_not.mpr hzero), hzero]
    · refine hs.same ?_ ?_ rfl rfl hnext hresv
      · rw [hhigh]
        split
        · exact .inr rfl
        · exact .inl rfl
      · intro hzero
        rw [hhigh, if_neg (not_not.mpr hzero)]
  · intro hold
    have hs := hold s (mem_singleton_self s)
    rw [Heap.unresvPart_aniResv, Heap.holdAmp_aniResv, Heap.freeOwned_aniResv, segResv_pair,
      segResv_singleton, hlow, hhigh]
    have hfull := hs.full
    split <;> omega

theorem Balances.segvnUnmap (hlo : s.sBase ≤ addr) (hhi : addr + len ≤ s.sEnd)
    (hunmap : h.segvnUnmap s addr len = some r) : Balances h [s] r.1 r.2 := by
  have hunlock : Balances h [s] h [s.unlock addr len] := by
    refine Balances.of_resvOf rfl rfl id ?_ fun _ => ?_
    · intro hold t ht
      rw [mem_singleton.mp ht]
      exact (hold s (mem_singleton_self s)).unlock
    · rw [segResv_singleton, segResv_singleton]
      rfl
  refine hunlock.trans ?_
  rcases Heap.segvnUnmap_cases hlo hhi hunmap with
    ⟨_, _, rfl⟩ | ⟨_, hlen, rfl⟩ | ⟨_, _, hlen, rfl⟩ | ⟨hbase, hend, hmiddle⟩
  · exact Balances.segvnFree h _
  · exact Balances.unmapHead h hlen
  · exact Balances.unmapTail h hlen
  · exact Balances.unmapMiddle hbase hend hmiddle

theorem Balances.frame_left (hb : Balances h old h' new)
    (before : List Seg) : Balances h (before ++ old) h' (before ++ new) := by
  have hframe := hb.frame before []
  rwa [append_nil, append_nil] at hframe

theorem Balances.frame_right (hb : Balances h old h' new)
    (after : List Seg) : Balances h (old ++ after) h' (new ++ after) :=
  hb.frame [] after

theorem Balances.asUnmap {raddr eaddr : Nat} {space : List Seg} (hle : raddr ≤ eaddr)
    (hunmap : h.asUnmap raddr eaddr space = some r) : Balances h space r.1 r.2 := by
  refine Heap.asUnmap_rule (P := Balances) Balances.refl ?_ ?_ space h raddr r hle hunmap
  · exact fun _ s _ _ _ hrest => hrest.frame_left [s]
  · intro h s addr len h₁ pieces rest h' rest' hlo hhi hseg hrest
    have hhead : Balances h [s] h₁ pieces := Balances.segvnUnmap hlo hhi hseg
    exact (hhead.frame_right rest).trans (hrest.frame_left pieces)

end Unmap

/-!
## New maps and segments
-/

section Grow

variable {h h₁ : Heap} {s : Seg} {old new : List Seg} {m : AnonMap}

theorem Balances.newAmp {resv : Int} (hamps : h₁.amps = h.amps) (hnext : h₁.nextAmp = h.nextAmp)
    (hani : h₁.aniResv = h.aniResv + resv) (hm : 0 ≤ m.swresv)
    (hsegs : (∀ s ∈ old, s.Funded h) → ∀ s ∈ new, s.Funded (h₁.newAmp m).1)
    (hsum : segResv new + m.swresv = segResv old + resv) : Balances h old (h₁.newAmp m).1 new := by
  have hresv : ∀ j, (h₁.newAmp m).1.resvOf j =
      if j = h.nextAmp then m.swresv else h.resvOf j := by
    intro j
    rw [Heap.resvOf_newAmp, hnext, Heap.resvOf_congr hamps]
  refine ⟨?_, ?_, ?_, ?_, fun _ => hsegs, ?_⟩
  · change h.nextAmp ≤ h₁.nextAmp + 1
    omega
  · intro k hk
    rw [hresv, if_neg (by omega)]
    exact .inl rfl
  · intro hpos k
    rw [hresv]
    split
    · exact hm
    · exact hpos k
  · intro hf k hk
    have hk : h₁.nextAmp + 1 ≤ k := hk
    have hne : k ≠ h₁.nextAmp := by omega
    change update h₁.amps h₁.nextAmp (some m) k = none
    rw [update_of_ne hne, hamps]
    exact hf k (by omega)
  · intro _ _
    have hsame : h₁.ampResv = h.ampResv := by
      unfold Heap.ampResv
      rw [hnext, Heap.resvOf_congr hamps]
    have hani' : (h₁.newAmp m).1.aniResv = h₁.aniResv := rfl
    unfold Heap.owed
    rw [Heap.ampResv_newAmp, hsame, hani', hani]
    linarith

theorem Seg.Funded.alloc {t : Seg} (hs : s.Funded h) (hnext : h₁.nextAmp = h.nextAmp)
    (hm : m.swresv = 0) (hswresv : t.swresv = s.swresv) (hsize : t.sSize = s.sSize)
    (htype : t.type = s.type) (hamp : t.amp = some h.nextAmp) : t.Funded (h₁.newAmp m).1 where
  full := by
    rw [hswresv, hsize]
    exact hs.full
  shared hshared := hswresv.trans (hs.shared (htype ▸ hshared))
  known k hk := by
    have hk : k = h.nextAmp := some.inj (hk.symm.trans hamp)
    refine ⟨?_, fun _ => ?_⟩
    · change k < h₁.nextAmp + 1
      omega
    · rw [Heap.resvOf_newAmp, if_pos (hk.trans hnext.symm), hm]

theorem Seg.Funded.beside (hs : s.Funded h) (hamps : h₁.amps = h.amps)
    (hnext : h₁.nextAmp = h.nextAmp) : s.Funded (h₁.newAmp m).1 where
  full := hs.full
  shared := hs.shared
  known k hk := by
    obtain ⟨hlt, hnone⟩ := hs.known k hk
    refine ⟨?_, fun hpriv => ?_⟩
    · change k < h₁.nextAmp + 1
      omega
    · rw [Heap.resvOf_newAmp, if_neg (by omega), Heap.resvOf_congr hamps]
      exact hnone hpriv

theorem Balances.segvnDup (h : Heap) (s : Seg) :
    Balances h [s] (h.segvnDup s).1 [s, (h.segvnDup s).2] := by
  have hfresh := (Moves.segvnDup h (fun _ => 0) s).fresh
  have hplain : ∀ {h' : Heap} {index amp}, h'.nextAmp = h.nextAmp → h'.resvOf = h.resvOf →
      h'.aniResv = h.aniResv + s.swresv → (h.Fresh → h'.Fresh) →
      (∀ k, amp = some k → s.amp = some k) → Balances h [s] h' [s, s.copy index amp] := by
    intro h' index amp hnext hresv hani hfr hamp
    refine Balances.of_resvOf hnext hresv hfr ?_ fun _ => ?_
    · intro hold t ht
      have hs := hold s (mem_singleton_self s)
      rcases mem_pair.mp ht with rfl | rfl
      · exact hs.same hs.full id rfl rfl hnext hresv
      · refine ⟨hs.full, hs.shared, fun k hk => ?_⟩
        obtain ⟨hlt, hnone⟩ := hs.known k (hamp k hk)
        refine ⟨hnext ▸ hlt, fun hpriv => ?_⟩
        rw [hresv]
        exact hnone hpriv
    · rw [hani, segResv_pair, segResv_singleton]
      change h.aniResv + s.swresv - (s.swresv + s.swresv) = _
      ring
  cases hs : s.amp with
  | none =>
    rw [Heap.segvnDup_mapless hs] at hfresh ⊢
    exact hplain rfl rfl rfl hfresh fun k hk => by cases hk
  | some k =>
    cases hm : h.amps k with
    | none =>
      rw [Heap.segvnDup_dangling hs hm] at hfresh ⊢
      exact hplain rfl rfl rfl hfresh fun k hk => by cases hk
    | some m =>
      by_cases hshared : s.type = .shared
      · rw [Heap.segvnDup_shared hs hm hshared] at hfresh ⊢
        have hswresv : { m with refcnt := m.refcnt + 1 }.swresv = m.swresv := rfl
        exact hplain rfl (Heap.resvOf_update hm hswresv rfl) rfl hfresh fun j hj => hs.trans hj
      · rw [Heap.segvnDup_priv hs hm hshared]
        refine Balances.newAmp rfl rfl rfl (le_refl 0) ?_ ?_
        · intro hold t ht
          have hself := hold s (mem_singleton_self s)
          rcases mem_pair.mp ht with rfl | rfl
          · exact hself.beside rfl rfl
          · exact hself.alloc rfl rfl rfl rfl rfl rfl
        · rw [segResv_pair, segResv_singleton]
          change s.swresv + s.swresv + 0 = _
          ring

/-!
## Protection, faults and locking
-/

theorem Balances.fields {t : Seg} (hswresv : t.swresv = s.swresv) (hsize : t.sSize = s.sSize)
    (htype : t.type = s.type) (hamp : t.amp = s.amp) : Balances h [s] h [t] := by
  refine Balances.of_resvOf rfl rfl id ?_ fun _ => ?_
  · intro hold u hu
    have hs := hold s (mem_singleton_self s)
    rw [mem_singleton.mp hu]
    refine hs.same ?_ ?_ htype hamp rfl rfl
    · rw [hswresv, hsize]
      exact hs.full
    · exact fun hzero => hswresv.trans hzero
  · rw [segResv_singleton, segResv_singleton, hswresv]

theorem Balances.vpages (h : Heap) (s : Seg) (f : List Vpage → List Vpage) :
    Balances h [s] h [{ s.segvnVpage with vpage := s.segvnVpage.vpage.map f }] := by
  obtain ⟨pageprot, vpage, heq⟩ := s.segvnVpage_eq
  refine Balances.fields ?_ ?_ ?_ ?_
  · rw [heq]
  · rw [heq]
  · rw [heq]
  · rw [heq]

theorem Balances.setprotResv (h : Heap) (s : Seg) (prot : Prot) :
    Balances h [s] (h.setprotResv s prot).1 [(h.setprotResv s prot).2] := by
  unfold Heap.setprotResv
  split
  · rename_i hnew
    refine Balances.of_resvOf rfl rfl id ?_ fun _ => ?_
    · intro hold t ht
      have hs := hold s (mem_singleton_self s)
      rw [mem_singleton.mp ht]
      refine ⟨.inr rfl, ?_, hs.known⟩
      intro hshared
      rw [hshared] at hnew
      cases hnew.1
    · rw [segResv_singleton, segResv_singleton, hnew.2.2]
      change h.aniResv + s.sSize - s.sSize = _
      ring
  · exact Balances.refl h [s]

theorem Balances.setprotPages (h : Heap) (s : Seg) (addr len : Nat) (prot : Prot) (done : Nat) :
    Balances h [s] (h.setprotPages s addr len prot done).1
      [(h.setprotPages s addr len prot done).2] := by
  unfold Heap.setprotPages
  split
  · split
    · refine Balances.of_resvOf rfl rfl id ?_ fun _ => ?_
      · intro hold t ht
        have hs := hold s (mem_singleton_self s)
        rw [mem_singleton.mp ht]
        exact ⟨.inl rfl, fun _ => rfl, hs.known⟩
      · rw [segResv_singleton, segResv_singleton]
        change h.aniResv - s.swresv - 0 = _
        ring
    · exact Balances.fields rfl rfl rfl rfl
  · exact Balances.vpages h s _

theorem Balances.segvnSetprot (h : Heap) (s : Seg) (addr len : Nat) (prot : Prot)
    (resv : Bool) (done : Nat) : Balances h [s] (h.segvnSetprot s addr len prot resv done).1
      [(h.segvnSetprot s addr len prot resv done).2] := by
  unfold Heap.segvnSetprot
  split
  · exact Balances.refl h [s]
  · split
    · exact Balances.refl h [s]
    · exact (Balances.setprotResv h s prot).trans (Balances.setprotPages _ _ addr len prot done)

theorem Balances.faultAmp (h : Heap) (s : Seg) :
    Balances h [s] (h.faultAmp s 0).1 [(h.faultAmp s 0).2] := by
  refine Balances.newAmp rfl rfl (Int.add_zero _).symm (le_refl 0) ?_ ?_
  · intro hold t ht
    have hs := hold s (mem_singleton_self s)
    rw [mem_singleton.mp ht]
    exact hs.alloc rfl rfl rfl rfl rfl rfl
  · rw [segResv_singleton, segResv_singleton]
    rfl

theorem Heap.fillSlot_resvOf (h : Heap) (s : Seg) (page : Nat) (write : Bool) (a : Nat) :
    (h.fillSlot s page write a).resvOf = h.resvOf := by
  unfold Heap.fillSlot
  cases s.amp with
  | none => rfl
  | some k =>
    cases hm : h.amps k with
    | none => simp only [hm]
    | some m =>
      have hswresv : ∀ f, { m with anon := f }.swresv = m.swresv := fun _ => rfl
      simp only [hm]
      split
      · exact Heap.resvOf_update hm (hswresv _) rfl
      · split
        · exact Heap.resvOf_update hm (hswresv _) rfl
        · rfl

theorem Heap.fillSlot_aniResv (h : Heap) (s : Seg) (page : Nat) (write : Bool) (a : Nat) :
    (h.fillSlot s page write a).aniResv = h.aniResv := by
  unfold Heap.fillSlot
  cases s.amp with
  | none => rfl
  | some k =>
    cases hm : h.amps k with
    | none => simp only [hm]
    | some m =>
      simp only [hm]
      split
      · rfl
      · split <;> rfl

theorem Balances.segvnFault (h : Heap) (s : Seg) (page : Nat) (write : Bool) (ap : Option Nat)
    {swresv : Int} (hleft : s.amp = none ∧ (s.vp = none ∨ write ∧ s.type = .priv) → swresv = 0) :
    Balances h [s] (h.segvnFault s page write ap swresv).1
      [(h.segvnFault s page write ap swresv).2] := by
  let r := if s.amp = none ∧ (s.vp = none ∨ write ∧ s.type = .priv) then
      h.faultAmp s swresv
    else (h, s)
  have halloc : Balances h [s] r.1 [r.2] := by
    unfold r
    split
    · rename_i hnone
      rw [hleft hnone]
      exact Balances.faultAmp h s
    · exact Balances.refl h [s]
  refine halloc.trans ?_
  cases ap with
  | none => exact Balances.refl _ _
  | some a =>
    change Balances r.1 [r.2] (r.1.fillSlot r.2 page write a) [r.2]
    have hnext := Heap.fillSlot_nextAmp r.1 r.2 page write a
    have hresv := Heap.fillSlot_resvOf r.1 r.2 page write a
    refine Balances.of_resvOf hnext hresv ?_ ?_ fun _ => ?_
    · have hcontents : Moves r.1 (fun _ => 0) [] (r.1.fillSlot r.2 page write a) (fun _ => 0) [] :=
        Moves.contents (fun j => Heap.fillSlot_shape _ _ _ _ _ j) hnext
      exact hcontents.fresh
    · intro hold t ht
      have hs := hold t ht
      exact hs.same hs.full id rfl rfl hnext hresv
    · rw [Heap.fillSlot_aniResv]

theorem Balances.segvnLock (h : Heap) (s : Seg) (addr len : Nat) (locks : Nat → Bool)
    {swresv : Int} (hleft : s.amp = none ∧ s.vp = none → swresv = 0) :
    Balances h [s] (h.segvnLock s addr len locks swresv).1
      [(h.segvnLock s addr len locks swresv).2] := by
  let lock := fun (j : Nat) (v : Vpage) =>
    if addr - s.segvnVpage.sBase ≤ j ∧ j < addr - s.segvnVpage.sBase + len ∧ locks j then
      { v with vpPplock := true }
    else v
  have hlock := Balances.vpages h s fun l => l.mapIdx lock
  refine hlock.trans ?_
  obtain ⟨pageprot, vpage, heq⟩ := s.segvnVpage_eq
  have hamp : s.segvnVpage.amp = s.amp := s.segvnVpage_amp
  have hvp : s.segvnVpage.vp = s.vp := by rw [heq]
  unfold Heap.segvnLock
  simp only
  split
  · rename_i hnone
    have hzero : swresv = 0 := hleft ⟨hamp ▸ hnone.1, hvp ▸ hnone.2⟩
    rw [hzero]
    exact Balances.faultAmp h _
  · exact Balances.refl h _

end Grow

/-!
## Merging
-/

/-- Segments that a creation merges all have swap space reserved, or none has. -/
structure RegularMap (h : Heap) (before after : List Seg) (sBase sSize : Nat) (a : Crargs) :
    Prop where
  prev : ∀ s ∈ before.getLast?, s.sEnd = sBase → h.ExtendsPrev s a →
    (s.swresv = 0 ↔ Heap.newSwresv a sSize = 0)
  both : ∀ s ∈ before.getLast?, s.sEnd = sBase → h.ExtendsPrev s a →
    ∀ n ∈ after.head?, sBase + sSize = n.sBase → (s.growUp sSize 0).Concats n →
    (s.swresv = 0 ↔ n.swresv = 0)
  next : ∀ n ∈ after.head?, sBase + sSize = n.sBase → h.ExtendsNext n sSize a →
    (∀ s ∈ before.getLast?, ¬ (s.sEnd = sBase ∧ h.ExtendsPrev s a)) →
    (n.swresv = 0 ↔ Heap.newSwresv a sSize = 0)

section Merge

variable {h : Heap} {s : Seg} {a : Crargs} {sBase sSize : Nat}

theorem Heap.newSwresv_full (a : Crargs) (sSize : Nat) :
    Heap.newSwresv a sSize = 0 ∨ Heap.newSwresv a sSize = sSize := by
  unfold Heap.newSwresv
  split
  · exact .inr rfl
  · exact .inl rfl

theorem Heap.newSwresv_nonneg (a : Crargs) (sSize : Nat) : 0 ≤ Heap.newSwresv a sSize := by
  rcases Heap.newSwresv_full a sSize with hzero | hfull
  · omega
  · omega

variable {swresv : Int} {size : Nat}

theorem Balances.grow {h' : Heap} {t : Seg} (hnext : h'.nextAmp = h.nextAmp)
    (hresv : h'.resvOf = h.resvOf) (hani : h'.aniResv = h.aniResv + swresv)
    (hfresh : h.Fresh → h'.Fresh) (hswresv : t.swresv = s.swresv + swresv)
    (hsize : t.sSize = s.sSize + size) (htype : t.type = s.type) (hamp : t.amp = s.amp)
    (hnew : swresv = 0 ∨ swresv = size) (hregular : s.swresv = 0 ↔ swresv = 0) :
    Balances h [s] h' [t] := by
  refine Balances.of_resvOf hnext hresv hfresh ?_ fun _ => ?_
  · intro hold u hu
    have hs := hold s (mem_singleton_self s)
    have hfull := hs.full
    rw [mem_singleton.mp hu]
    refine hs.same ?_ ?_ htype hamp hnext hresv
    · rw [hswresv, hsize]
      by_cases hzero : swresv = 0
      · exact .inl (by omega)
      · exact .inr (by omega)
    · intro hzero
      omega
  · rw [hani, segResv_singleton, segResv_singleton, hswresv]
    ring

theorem Balances.growAmp {k : Nat} {m m' : AnonMap} {t : Seg} (hm : h.amps k = some m)
    (hm' : m'.swresv = m.swresv) (hfresh : h.Fresh → ((h.anonResv swresv).setAmp k m').Fresh)
    (hswresv : t.swresv = s.swresv + swresv) (hsize : t.sSize = s.sSize + size)
    (htype : t.type = s.type) (hamp : t.amp = s.amp) (hnew : swresv = 0 ∨ swresv = size)
    (hregular : s.swresv = 0 ↔ swresv = 0) : Balances h [s] ((h.anonResv swresv).setAmp k m') [t] :=
  Balances.grow rfl (Heap.resvOf_update hm hm' rfl) rfl hfresh hswresv hsize htype hamp hnew
    hregular

variable {q : Heap × Seg}

theorem Balances.segvnExtendPrev (hpos : 0 < size)
    (hext : (h.anonResv swresv).segvnExtendPrev s size a swresv = some q)
    (hnew : swresv = 0 ∨ swresv = size) (hregular : s.swresv = 0 ↔ swresv = 0) :
    Balances h [s] q.1 [q.2] := by
  have hfresh := (Moves.segvnExtendPrev (fun _ => 0) hpos hext).fresh
  obtain ⟨_, _, _, _, _, _, hcases⟩ := Heap.segvnExtendPrev_cases hext
  rcases hcases with ⟨_, rfl⟩ | ⟨k, m, _, hm, _, rfl⟩
  · exact Balances.grow rfl rfl rfl hfresh rfl rfl rfl rfl hnew hregular
  · revert hfresh
    unfold Heap.growBehind
    split
    · exact fun hfresh => Balances.growAmp hm rfl hfresh rfl rfl rfl rfl hnew hregular
    · exact fun hfresh => Balances.growAmp hm rfl hfresh rfl rfl rfl rfl hnew hregular

theorem Balances.segvnExtendNext
    (hext : (h.anonResv swresv).segvnExtendNext s size a swresv = some q)
    (hnew : swresv = 0 ∨ swresv = size) (hregular : s.swresv = 0 ↔ swresv = 0) :
    Balances h [s] q.1 [q.2] := by
  have hfresh := (Moves.segvnExtendNext (fun _ => 0) hext).fresh
  obtain ⟨_, _, _, _, _, _, hcases⟩ := Heap.segvnExtendNext_cases hext
  rcases hcases with ⟨_, rfl⟩ | ⟨k, m, _, hm, _, rfl⟩
  · exact Balances.grow rfl rfl rfl hfresh rfl rfl rfl rfl hnew hregular
  · revert hfresh
    unfold Heap.growBefore
    split
    · exact fun hfresh => Balances.growAmp hm rfl hfresh rfl rfl rfl rfl hnew hregular
    · exact fun hfresh => Balances.growAmp hm rfl hfresh rfl rfl rfl rfl hnew hregular

theorem Balances.segvnConcat {s₁ s₂ : Seg} (hconcat : h.segvnConcat s₁ s₂ = some q)
    (hregular : s₁.swresv = 0 ↔ s₂.swresv = 0) : Balances h [s₁, s₂] q.1 [q.2] := by
  obtain ⟨_, _, _, _, _, _, _, _, _, rfl⟩ := Heap.segvnConcat_cases hconcat
  refine Balances.of_resvOf rfl rfl id ?_ fun _ => ?_
  · intro hold t ht
    have hs₁ := hold s₁ mem_cons_self
    have hs₂ := hold s₂ (by simp)
    have hfull₁ := hs₁.full
    have hfull₂ := hs₂.full
    rw [mem_singleton.mp ht]
    refine hs₁.same ?_ ?_ rfl rfl rfl rfl
    · change s₁.swresv + s₂.swresv = 0 ∨ s₁.swresv + s₂.swresv = ((s₁.sSize + s₂.sSize : Nat) : Int)
      by_cases hzero : s₂.swresv = 0
      · exact .inl (by omega)
      · exact .inr (by omega)
    · intro hzero
      change s₁.swresv + s₂.swresv = 0
      omega
  · rw [segResv_pair, segResv_singleton]
    change h.aniResv - 0 - (s₁.swresv + s₂.swresv) = _
    ring

theorem Balances.createSeg {anonZero : Nat → Nat} (hf : h.Fresh)
    (hcreate : (h.anonResv (Heap.newSwresv a sSize)).createSeg sBase sSize a
      (Heap.newSwresv a sSize) anonZero = some q) : Balances h [] q.1 [q.2] := by
  have hfull := Heap.newSwresv_full a sSize
  have hswresv : ∀ index amp, (a.newSeg sBase sSize (Heap.newSwresv a sSize) index amp).swresv =
      if a.type = .shared then 0 else Heap.newSwresv a sSize := fun _ _ => rfl
  have hfunded : ∀ {h' : Heap} {index : Nat} {amp : Option Nat},
      (∀ k, amp = some k → k < h'.nextAmp ∧ (a.type = .priv → h'.resvOf k = 0)) →
      (a.newSeg sBase sSize (Heap.newSwresv a sSize) index amp).Funded h' := by
    intro h' index amp hknown
    refine ⟨?_, ?_, hknown⟩
    · rw [hswresv]
      split
      · exact .inl rfl
      · exact hfull
    · intro hshared
      have hshared : a.type = .shared := hshared
      rw [hswresv, if_pos hshared]
  unfold Heap.createSeg at hcreate
  cases ha : a.amp with
  | none =>
    simp only [ha] at hcreate
    split at hcreate
    · rename_i hzfod
      rw [← some.inj hcreate]
      refine Balances.newAmp rfl rfl rfl (Heap.newSwresv_nonneg a sSize) ?_ ?_
      · intro _ t ht
        rw [mem_singleton.mp ht]
        refine hfunded fun k hk => ?_
        have hk : h.nextAmp = k := some.inj hk
        refine ⟨?_, fun hpriv => ?_⟩
        · change k < h.nextAmp + 1
          omega
        · rw [hzfod.1] at hpriv
          cases hpriv
      · rw [segResv_singleton, hswresv, if_pos hzfod.1, segResv_nil]
    · rename_i hother
      rw [← some.inj hcreate]
      refine Balances.of_resvOf rfl rfl id ?_ fun _ => ?_
      · intro _ t ht
        rw [mem_singleton.mp ht]
        exact hfunded fun k hk => by cases hk
      · rw [segResv_singleton, hswresv, segResv_nil]
        change h.aniResv + Heap.newSwresv a sSize - _ = _
        cases htype : a.type with
        | priv =>
          rw [if_neg (by simp)]
          ring
        | shared =>
          have hzero : Heap.newSwresv a sSize = 0 := by
            unfold Heap.newSwresv
            refine if_neg ?_
            rintro (hnone | hpriv)
            · exact hother ⟨htype, hnone.1⟩
            · rw [htype] at hpriv
              cases hpriv.1
          rw [hzero, if_pos rfl]
          ring
  | some k =>
    simp only [ha] at hcreate
    cases hm : (h.anonResv (Heap.newSwresv a sSize)).amps k with
    | none =>
      simp only [hm] at hcreate
      cases hcreate
    | some m =>
      simp only [hm] at hcreate
      have hm' : h.amps k = some m := hm
      have hlt : k < h.nextAmp := by
        by_contra hge
        rw [hf k (Nat.le_of_not_lt hge)] at hm'
        cases hm'
      split at hcreate
      · cases hcreate
      · split at hcreate
        · rename_i hshared
          have hzero : Heap.newSwresv a sSize = 0 := by
            unfold Heap.newSwresv
            refine if_neg ?_
            rintro (hnone | hpriv)
            · rw [ha] at hnone
              cases hnone.2
            · rw [hshared] at hpriv
              cases hpriv.1
          have hfresh : h.Fresh → ((h.anonResv (Heap.newSwresv a sSize)).setAmp k
              { m with refcnt := m.refcnt + 1 }).Fresh := by
            intro _ j hj
            have hj : h.nextAmp ≤ j := hj
            change update h.amps k _ j = none
            rw [update_of_ne (by omega)]
            exact hf j hj
          have hkeep : { m with refcnt := m.refcnt + 1 }.swresv = m.swresv := rfl
          rw [← some.inj hcreate]
          refine Balances.of_resvOf rfl (Heap.resvOf_update hm' hkeep rfl) hfresh ?_ fun _ => ?_
          · intro _ t ht
            rw [mem_singleton.mp ht]
            refine hfunded fun j hj => ⟨?_, fun hpriv => ?_⟩
            · rw [← some.inj hj]
              exact hlt
            · rw [hshared] at hpriv
              cases hpriv
          · rw [segResv_singleton, hswresv, if_pos hshared, segResv_nil]
            change h.aniResv + Heap.newSwresv a sSize - 0 = _
            rw [hzero]
            ring
        · rename_i hpriv
          rw [← some.inj hcreate]
          let h₀ := (h.zeroSlots k m a.offset sSize anonZero).1
          have hzero : Balances h [] h₀ [] := by
            have hkeep : (h.zeroSlots k m a.offset sSize anonZero).2.swresv = m.swresv := rfl
            have hmoves : Moves h (fun _ => 0) [] h₀ (fun _ => 0) [] :=
              Moves.contents (h.zeroSlots_shape hm' _ _ _) rfl
            exact Balances.of_resvOf rfl (Heap.resvOf_update hm' hkeep rfl) hmoves.fresh
              (fun _ t ht => by cases ht) fun _ => rfl
          refine hzero.trans (Balances.newAmp rfl rfl rfl (le_refl 0) ?_ ?_)
          · intro _ t ht
            rw [mem_singleton.mp ht]
            refine hfunded fun j hj => ?_
            have hj : h.nextAmp = j := some.inj hj
            refine ⟨?_, fun _ => ?_⟩
            · change j < h.nextAmp + 1
              omega
            · rw [Heap.resvOf_newAmp]
              change (if j = h.nextAmp then (0 : Int) else _) = 0
              rw [if_pos hj.symm]
          · rw [segResv_singleton, hswresv, if_neg hpriv, segResv_nil]
            ring

/-- What holds anyway of an operation need not be shown of segments that are not
funded. -/
theorem Balances.of_funded {h' : Heap} {old new : List Seg} (hgrows : h.nextAmp ≤ h'.nextAmp)
    (hamps : ∀ k, k < h.nextAmp → h'.resvOf k = h.resvOf k ∨ h'.resvOf k = 0)
    (hnonneg : (∀ k, 0 ≤ h.resvOf k) → ∀ k, 0 ≤ h'.resvOf k) (hfresh : h.Fresh → h'.Fresh)
    (hrun : (∀ s ∈ old, s.Funded h) → Balances h old h' new) : Balances h old h' new where
  grows := hgrows
  amps := hamps
  nonneg := hnonneg
  fresh := hfresh
  segs hf hold := (hrun hold).segs hf hold
  ledger hf hold := (hrun hold).ledger hf hold

variable {before after : List Seg} {r : Heap × List Seg}

theorem Balances.merge (hpos : 0 < sSize) (hregular : RegularMap h before after sBase sSize a)
    (hmerge : (h.anonResv (Heap.newSwresv a sSize)).merge before after sBase sSize a
      (Heap.newSwresv a sSize) = some r) : Balances h (before ++ after) r.1 r.2 := by
  have hnew := Heap.newSwresv_full a sSize
  rcases Heap.merge_cases hmerge with
    ⟨init, s, q, rfl, hend, hext, hcases⟩ | ⟨hnone, n, rest, q, rfl, hnext, hext, rfl⟩
  · have hlast : s ∈ (init ++ [s]).getLast? := by simp
    obtain ⟨_, _, _, _, _, _, hmap⟩ := Heap.segvnExtendPrev_cases hext
    have hextends : h.ExtendsPrev s a := Heap.ExtendsPrev.of_some hext
    have hone := hregular.prev s hlast hend hextends
    have hprev : Balances h (init ++ [s] ++ after) q.1 (init ++ [q.2] ++ after) :=
      (Balances.segvnExtendPrev hpos hext hnew hone).frame init after
    rcases hcases with rfl | ⟨n, rest, q', rfl, hnext, hconcat, rfl⟩
    · exact hprev
    · have hlist : init ++ [q.2] ++ n :: rest = init ++ [q.2, n] ++ rest := by simp
      rw [hlist] at hprev
      obtain ⟨_, _, _, _, _, _, _, _, _, hq'⟩ := Heap.segvnConcat_cases hconcat
      have hheap : q'.1 = q.1.anonUnresv 0 := by rw [hq']
      have hboth : (∀ t ∈ init ++ [s] ++ n :: rest, t.Funded h) →
          (q.2.swresv = 0 ↔ n.swresv = 0) := by
        intro hfunded
        obtain ⟨hvp', hmaxprot', hprot', htype', hoffset', hamp', hamp'', hv', hv'', _⟩ :=
          Heap.segvnConcat_cases hconcat
        have hq : q.2 = s.growUp sSize (Heap.newSwresv a sSize) := by
          rcases hmap with ⟨_, rfl⟩ | ⟨k, m', hs, _, _, rfl⟩
          · rfl
          · have hgrown : (((h.anonResv (Heap.newSwresv a sSize)).growBehind k m' s
                sSize).2.growUp sSize (Heap.newSwresv a sSize)).amp = s.amp := by
              unfold Heap.growBehind
              split
              · rfl
              · rfl
            rw [hgrown, hs] at hamp'
            cases hamp'
        rw [hq] at hvp' hmaxprot' hprot' htype' hoffset' hamp' hv'
        have hconcats : (s.growUp sSize 0).Concats n :=
          ⟨hvp', hmaxprot', hprot', htype', hoffset', hamp', hamp'', hv', hv''⟩
        have hends : sBase + sSize = n.sBase := by
          obtain ⟨_, hqend⟩ := Heap.segvnExtendPrev_extent hext
          omega
        have hthree := hregular.both s hlast hend hextends n rfl hends hconcats
        have hswresv : q.2.swresv = s.swresv + Heap.newSwresv a sSize := by
          rw [hq]
          rfl
        rw [hswresv, ← hthree]
        by_cases hzero : s.swresv = 0
        · have hzero' := hone.mp hzero
          exact iff_of_true (by omega) hzero
        · have hne : Heap.newSwresv a sSize ≠ 0 := fun hn => hzero (hone.mpr hn)
          have hfull := (hfunded s (by simp)).full
          exact iff_of_false (by omega) hzero
      refine Balances.of_funded ?_ ?_ ?_ ?_ fun hfunded => ?_
      · rw [hheap]
        exact hprev.grows
      · rw [hheap]
        exact hprev.amps
      · rw [hheap]
        exact hprev.nonneg
      · rw [hheap]
        exact hprev.fresh
      · exact hprev.trans ((Balances.segvnConcat hconcat (hboth hfunded)).frame init rest)
  · have hextends : h.ExtendsNext n sSize a := Heap.ExtendsNext.of_some hext
    have hone := hregular.next n rfl hnext hextends ?_
    · have hframe := (Balances.segvnExtendNext hext hnew hone).frame before rest
      have hlist : before ++ n :: rest = before ++ [n] ++ rest := by simp
      rw [hlist]
      exact hframe
    · rintro s hs ⟨hend, hextends'⟩
      obtain ⟨q', hq'⟩ := hextends'.extends sSize (Heap.newSwresv a sSize)
      have hprev : (h.anonResv (Heap.newSwresv a sSize)).mergePrev before sBase sSize a
          (Heap.newSwresv a sSize) = some q' := by
        unfold Heap.mergePrev
        rw [mem_def.mp hs, filter_some, if_pos (decide_eq_true hend)]
        exact hq'
      rw [hprev] at hnone
      cases hnone

theorem Balances.segvnCreate {env : CreateEnv} (hf : h.Fresh) (hpos : 0 < sSize)
    (hregular : a.amp = none → ¬ env.kas → env.hatMap → env.addmap →
      (Heap.newSwresv a sSize ≠ 0 → env.anonResv) → RegularMap h before after sBase sSize a)
    (hcreate : h.segvnCreate before after sBase sSize a env = some r) :
    Balances h (before ++ after) r.1 r.2 := by
  unfold Heap.segvnCreate at hcreate
  simp only at hcreate
  split at hcreate
  · rw [← some.inj hcreate]
    exact Balances.refl h _
  · rename_i hresv
    split at hcreate
    · rw [← some.inj hcreate]
      exact Balances.refl h _
    · rename_i henv
      rw [not_or, not_not, not_not] at henv
      split at hcreate
      · rename_i r' hmerge
        split at hmerge
        · rename_i hnone
          rw [← some.inj hcreate]
          refine Balances.merge hpos (hregular hnone.1 hnone.2 henv.1 henv.2 fun hne => ?_) hmerge
          by_contra hno
          exact hresv ⟨hne, hno⟩
        · cases hmerge
      · split at hcreate
        · cases hcreate
        · rename_i h' s hseg
          rw [← some.inj hcreate]
          have hnew := (Balances.createSeg hf hseg).frame before after
          rw [append_nil] at hnew
          have hlist : before ++ s :: after = before ++ [s] ++ after := by simp
          rw [hlist]
          exact hnew

end Merge

/-!
## Runs
-/

namespace World

/-- A step that merges no segment that has swap space reserved with one that has none,
and that allocates no map in whose reservation field something is left. -/
def Regular (w : World) : Event → Prop
  | .map i sBase sSize a env =>
    a.amp = none → ¬ env.kas → env.hatMap → env.addmap →
      (Heap.newSwresv a sSize ≠ 0 → env.anonResv) → ∀ space, w.spaces[i]? = some space →
      RegularMap w.heap (space.takeWhile fun s => s.sEnd ≤ sBase)
        (space.dropWhile fun s => s.sEnd ≤ sBase) sBase sSize a
  | .fault i n _ write _ swresv =>
    ∀ space s, w.spaces[i]? = some space → space[n]? = some s →
      s.amp = none ∧ (s.vp = none ∨ write ∧ s.type = .priv) → swresv = 0
  | .lock i n _ _ _ swresv =>
    ∀ space s, w.spaces[i]? = some space → space[n]? = some s →
      s.amp = none ∧ s.vp = none → swresv = 0
  | _ => True

/-- What is reserved is what segments and maps have reserved, no reservation is
negative, and no unmapping panics. -/
structure Conserves (w : World) : Prop where
  ledger : w.heap.aniResv = segResv w.segs + w.heap.ampResv
  aniResv : 0 ≤ w.heap.aniResv
  segs : ∀ s ∈ w.segs, 0 ≤ s.swresv
  amps : ∀ k m, w.heap.amps k = some m → 0 ≤ m.swresv
  splits : ∀ i raddr size, w.exec (.unmap i raddr size) ≠ none

/-- The segments are funded, and the ledger is right. -/
structure Funded (w : World) : Prop where
  fresh : w.heap.Fresh
  segs : ∀ s ∈ w.segs, s.Funded w.heap
  nonneg : ∀ k, 0 ≤ w.heap.resvOf k
  ledger : w.heap.owed - segResv w.segs = 0

section Steps

variable {w w' : World} {i n : Nat} {space : List Seg}

section

variable (hw : w.Funded)
include hw

theorem Funded.balances (hb : Balances w.heap w.segs w'.heap w'.segs) :
    w'.Funded where
  fresh := hb.fresh hw.fresh
  segs := hb.segs hw.fresh hw.segs
  nonneg := hb.nonneg hw.nonneg
  ledger := (hb.ledger hw.fresh hw.segs).trans hw.ledger

theorem Funded.onSpace (hspace : w.spaces[i]? = some space) {h : Heap}
    {new : List Seg} (hb : Balances w.heap space h new) :
    Funded { w with heap := h, spaces := w.spaces.set i new } := by
  refine hw.balances ?_
  change Balances w.heap w.spaces.flatten h (w.spaces.set i new).flatten
  rw [spaces_split hspace, spaces_set hspace new]
  exact hb.frame _ _

theorem Funded.onSeg {f : Seg → Heap × List Seg}
    (hb : ∀ space s, w.spaces[i]? = some space → space[n]? = some s →
      Balances w.heap [s] (f s).1 (f s).2) (hrun : w.onSeg i n f = some w') : w'.Funded := by
  rcases onSeg_cases hrun with rfl | ⟨space, s, hspace, hs, rfl⟩
  · exact hw
  · refine hw.onSpace hspace ?_
    have hframe := (hb space s hspace hs).frame (space.take n) (space.drop (n + 1))
    rw [← split_at hs] at hframe
    exact hframe

theorem Funded.map {sBase sSize : Nat} {a : Crargs} {env : CreateEnv}
    (hregular : w.Regular (.map i sBase sSize a env))
    (hrun : w.exec (.map i sBase sSize a env) = some w') : w'.Funded := by
  unfold exec at hrun
  simp only at hrun
  split at hrun
  · rcases onSpace_cases hrun with ⟨_, rfl⟩ | ⟨space, r, hspace, hmap, rfl⟩
    · exact hw
    · refine hw.onSpace hspace ?_
      unfold Heap.asMap at hmap
      simp only at hmap
      split at hmap
      · rw [← some.inj hmap]
        exact Balances.refl _ _
      · rename_i hfree
        rw [not_or] at hfree
        have hcreate := Balances.segvnCreate hw.fresh (Nat.pos_of_ne_zero hfree.1)
          (fun ha hkas hhat hadd hresv => hregular ha hkas hhat hadd hresv space hspace) hmap
        rw [takeWhile_append_dropWhile] at hcreate
        exact hcreate
  · rw [← some.inj hrun]
    exact hw

theorem Funded.dup {s : Seg} (hs : s ∈ w.segs) {j : Nat} {resv addmap : Bool}
    (hrun : w.dup s j resv addmap = some w') : w'.Funded := by
  obtain ⟨front, back, hsegs⟩ := append_of_mem hs
  have hsegs : w.segs = front ++ [s] ++ back := by simp [hsegs]
  have hdup : Balances w.heap w.segs (w.heap.segvnDup s).1
      (front ++ [s, (w.heap.segvnDup s).2] ++ back) := by
    rw [hsegs]
    exact (Balances.segvnDup w.heap s).frame front back
  rcases dup_cases hrun with rfl | ⟨space, new, hspace, hinsert, rfl⟩ | rfl
  · exact hw
  · obtain ⟨before, after, rfl, _, _, rfl⟩ := insert_cases hinsert
    refine hw.balances (hdup.perm ?_)
    change List.Perm _ (w.spaces.set j _).flatten
    rw [spaces_set hspace]
    refine perm_insert ?_
    rw [← hsegs]
    exact spaces_split hspace
  · refine hw.balances ?_
    have hfree : Balances (w.heap.segvnDup s).1 (front ++ [s, (w.heap.segvnDup s).2] ++ back)
        ((w.heap.segvnDup s).1.segvnFree (w.heap.segvnDup s).2) (front ++ [s] ++ back) := by
      have hone := (Balances.segvnFree (w.heap.segvnDup s).1
        (w.heap.segvnDup s).2).frame (front ++ [s]) back
      simpa using hone
    have hboth := hdup.trans hfree
    rw [← hsegs] at hboth
    exact hboth

theorem Funded.shmget (size : Nat) : (w.shmget size).Funded := by
  refine hw.balances ?_
  have hget : Balances w.heap [] (w.shmget size).heap [] :=
    Balances.newAmp rfl rfl rfl (Int.natCast_nonneg size) (fun _ t ht => by cases ht) rfl
  have hframe := hget.frame_left w.segs
  rw [append_nil] at hframe
  exact hframe

theorem Funded.shmhold (k : Nat) : (w.shmhold k).Funded := by
  unfold World.shmhold
  cases hm : w.heap.amps k with
  | none => exact hw
  | some m =>
    simp only
    split
    · exact hw
    · refine hw.balances ?_
      have hkeep : { m with refcnt := m.refcnt + 1 }.swresv = m.swresv := rfl
      have hresv : (w.heap.setAmp k { m with refcnt := m.refcnt + 1 }).resvOf =
          w.heap.resvOf := Heap.resvOf_update hm hkeep rfl
      have hhold : Balances w.heap [] (w.heap.setAmp k { m with refcnt := m.refcnt + 1 }) [] :=
        Balances.of_resvOf rfl hresv (fun hf => hf.setAmp hm _) (fun _ t ht => by cases ht)
          fun _ => rfl
      have hframe := hhold.frame_left w.segs
      rw [append_nil] at hframe
      exact hframe

theorem Funded.shmrele (k : Nat) : (w.shmrele k).Funded := by
  unfold World.shmrele
  cases hm : w.heap.amps k with
  | none => exact hw
  | some m =>
    simp only
    split
    · exact hw
    · let h := w.heap.setAmp k { m with refcnt := m.refcnt - 1 }
      split
      · refine hw.balances ?_
        have hset : h.amps k = some { m with refcnt := m.refcnt - 1 } :=
          update_self _ _ _
        have hamps : (shmRmAmp h k m).amps = update w.heap.amps k none := by
          rw [shmRmAmp_amps hset]
          exact update_idem _ _ _
        have hani : (shmRmAmp h k m).aniResv = w.heap.aniResv - m.swresv :=
          Heap.anonFree_aniResv _ _ _ _
        have hrele : Balances w.heap [] (shmRmAmp h k m) [] := by
          refine Balances.remove hm hamps (shmRmAmp_nextAmp _ _ _) fun _ => ?_
          rw [hani, segResv_nil]
          ring
        have hframe := hrele.frame_left w.segs
        rw [append_nil] at hframe
        exact hframe
      · refine hw.balances ?_
        have hkeep : { m with refcnt := m.refcnt - 1 }.swresv = m.swresv := rfl
        have hresv : h.resvOf = w.heap.resvOf := Heap.resvOf_update hm hkeep rfl
        have hrele : Balances w.heap [] h [] :=
          Balances.of_resvOf rfl hresv (fun hf => hf.setAmp hm _) (fun _ t ht => by cases ht)
            fun _ => rfl
        have hframe := hrele.frame_left w.segs
        rw [append_nil] at hframe
        exact hframe

end

theorem funded_start : start.Funded where
  fresh _ _ := rfl
  segs s hs := by cases hs
  nonneg _ := le_refl 0
  ledger := rfl

theorem Funded.exec (hw : w.Funded) {e : Event} (hregular : w.Regular e)
    (hrun : w.exec e = some w') : w'.Funded := by
  cases e with
  | asAlloc =>
    rw [← some.inj hrun]
    refine hw.balances ?_
    change Balances w.heap w.segs w.heap (w.spaces ++ [[]]).flatten
    have hsegs : (w.spaces ++ [[]]).flatten = w.segs := by
      simp only [World.segs, flatten_append, flatten_cons, flatten_nil, append_nil]
    rw [hsegs]
    exact Balances.refl w.heap w.segs
  | map i sBase sSize a env => exact hw.map hregular hrun
  | unmap i raddr size =>
    rcases onSpace_cases hrun with ⟨_, rfl⟩ | ⟨space, r, hspace, hunmap, rfl⟩
    · exact hw
    · exact hw.onSpace hspace (Balances.asUnmap (Nat.le_add_right _ _) hunmap)
  | free i n => exact hw.onSeg (fun _ s _ _ => Balances.segvnFree w.heap s) hrun
  | dup i n j resv addmap =>
    unfold World.exec at hrun
    simp only at hrun
    split at hrun
    · rw [← some.inj hrun]
      exact hw
    · rename_i s hs
      rcases bind_eq_some_iff.mp hs with ⟨space, hspace, hseg⟩
      have hmem : s ∈ w.segs :=
        mem_flatten.mpr ⟨space, mem_of_getElem? hspace, mem_of_getElem? hseg⟩
      exact hw.dup hmem hrun
  | setprot i n addr len prot resv done =>
    refine hw.onSeg (fun _ s _ _ => ?_) hrun
    split
    · exact Balances.segvnSetprot w.heap s addr len prot resv done
    · exact Balances.refl w.heap [s]
  | fault i n page write ap swresv =>
    refine hw.onSeg (fun space s hspace hs => ?_) hrun
    split
    · exact Balances.segvnFault w.heap s page write ap (hregular space s hspace hs)
    · exact Balances.refl w.heap [s]
  | lock i n addr len locks swresv =>
    exact hw.onSeg (fun space s hspace hs =>
      Balances.segvnLock w.heap s addr len locks (hregular space s hspace hs)) hrun
  | shmget size resv =>
    rw [← some.inj hrun]
    split
    · exact hw.shmget size
    · exact hw
  | shmhold k =>
    rw [← some.inj hrun]
    exact hw.shmhold k
  | shmrele k =>
    rw [← some.inj hrun]
    exact hw.shmrele k

theorem asUnmap_ne_none {eaddr : Nat} (space : List Seg) :
    ∀ (h : Heap) (raddr : Nat), raddr ≤ eaddr → (∀ s ∈ space, s.swresv = 0 ∨ s.swresv = s.sSize) →
      h.asUnmap raddr eaddr space ≠ none := by
  induction space with
  | nil => exact fun _ _ _ _ => some_ne_none _
  | cons s rest ih =>
    intro h raddr hle hfull
    have hrest : ∀ t ∈ rest, t.swresv = 0 ∨ t.swresv = t.sSize := fun t ht =>
      hfull t (mem_cons_of_mem s ht)
    have hend : s.sEnd = s.sBase + s.sSize := rfl
    unfold Heap.asUnmap
    split
    · have hsome := ih h raddr hle hrest
      cases hr : h.asUnmap raddr eaddr rest with
      | none => exact absurd hr hsome
      | some q => exact some_ne_none _
    · split
      · exact some_ne_none _
      · simp only
        cases hseg : h.segvnUnmap s (max raddr s.sBase) (min eaddr s.sEnd - max raddr s.sBase) with
        | none =>
          have hsplit := (Heap.segvnUnmap_eq_none_iff (by omega) (by omega)).mp hseg
          rcases hfull s mem_cons_self with hzero | hall
          · exact absurd hzero hsplit.2.2.1
          · exact absurd hall hsplit.2.2.2
        | some q =>
          simp only
          have hsome := ih q.1 (max raddr s.sBase + (min eaddr s.sEnd - max raddr s.sBase))
            (by omega) hrest
          cases hr : q.1.asUnmap (max raddr s.sBase +
              (min eaddr s.sEnd - max raddr s.sBase)) eaddr rest with
          | none => exact absurd hr hsome
          | some q' => exact some_ne_none _

theorem segResv_nonneg {segs : List Seg} (h : ∀ s ∈ segs, 0 ≤ s.swresv) : 0 ≤ segResv segs := by
  induction segs with
  | nil => exact le_refl 0
  | cons s rest ih =>
    have hs := h s mem_cons_self
    have hrest := ih fun t ht => h t (mem_cons_of_mem s ht)
    change 0 ≤ s.swresv + segResv rest
    omega

theorem Funded.conserves (hw : w.Funded) : w.Conserves := by
  have hsegs : ∀ s ∈ w.segs, 0 ≤ s.swresv := by
    intro s hs
    rcases (hw.segs s hs).full with hzero | hfull
    · omega
    · omega
  have hamps : 0 ≤ w.heap.ampResv := Finset.sum_nonneg fun k _ => hw.nonneg k
  have hledger : w.heap.aniResv = segResv w.segs + w.heap.ampResv := by
    have hzero := hw.ledger
    unfold Heap.owed at hzero
    linarith
  refine ⟨hledger, ?_, hsegs, ?_, ?_⟩
  · have hsum := segResv_nonneg hsegs
    omega
  · intro k m hm
    rw [← Heap.resvOf_eq hm]
    exact hw.nonneg k
  · intro i raddr size hnone
    unfold World.exec World.onSpace at hnone
    cases hspace : w.spaces[i]? with
    | none =>
      simp only [hspace] at hnone
      cases hnone
    | some space =>
      simp only [hspace] at hnone
      have hfull : ∀ s ∈ space, s.swresv = 0 ∨ s.swresv = s.sSize := fun s hs =>
        (hw.segs s (mem_flatten.mpr ⟨space, mem_of_getElem? hspace, hs⟩)).full
      have hsome := asUnmap_ne_none space w.heap raddr (Nat.le_add_right raddr size) hfull
      cases hr : w.heap.asUnmap raddr (raddr + size) space with
      | none => exact hsome hr
      | some q =>
        simp only [hr] at hnone
        cases hnone

end Steps

/-- In every run whose steps are all regular, what is reserved is what segments and maps
have reserved, and no partial reservation has to be split. -/
theorem reservation_conserved {w : World} (hw : ReachableWhen Start Step Regular w) :
    w.Conserves := by
  have hfunded : w.Funded := by
    refine ReachableWhen.invariant ?_ ?_ hw
    · rintro _ rfl
      exact funded_start
    · exact fun _ _ _ hfunded hregular hstep => hfunded.exec hregular hstep
  exact hfunded.conserves

def mapped : World := after [.asAlloc, .map 0 0 2 (zfod .priv 7) calm]

theorem mapped_regular : ReachableWhen Start Step Regular mapped := by
  have hstart : ReachableWhen Start Step Regular start := ReachableWhen.start rfl
  have halloc : ReachableWhen Start Step Regular (after [.asAlloc]) :=
    hstart.next (e := .asAlloc) trivial rfl
  refine halloc.next (e := .map 0 0 2 (zfod .priv 7) calm) ?_ rfl
  intro _ _ _ _ _ space hspace
  cases hspace
  exact ⟨by simp, by simp, by simp⟩

theorem reservation_conserved_mapped : mapped.Conserves :=
  reservation_conserved mapped_regular

/-- A mapping gives up its reservation when it is made read-only, and is then made
larger by pages for which swap space is reserved. -/
def halfReserved : World :=
  after [.asAlloc, .map 0 0 2 (zfod .priv 7) calm, .setprot 0 0 0 2 5 true 2,
    .map 0 2 2 (zfod .priv 5) calm]

/-- The removal of one of its pages panics. -/
theorem reservation_not_conserved : ¬ ∀ w, Reachable Start Step w → w.Conserves := by
  intro hall
  exact (hall halfReserved (after_reachable _)).splits 0 1 1 rfl

end World

end Segvn
end Svr4
