import Svr4.Segvn.Meaning

/-!
# Merging is invisible

What the addresses of all address spaces denote does not tell whether a new segment
was merged with its neighbours or kept separate.  The anon map of the previous segment
grows, however, also when something outside the address space holds it.
-/

namespace Svr4
namespace Segvn

open Function Transition List Option Segvn.Heap

/-!
## What a merged segment denotes
-/

def Meaning.visible (x : Meaning) : Option (Nat × Int) × Option Prot × MapType × Option Nat :=
  (x.file, x.prot, x.type, x.page)

/-- A segment takes the place of some old ones and a new one. -/
structure Merges (h h' : Heap) (olds : List Seg) (new merged : Seg) : Prop where
  contains : ∀ p, merged.contains p = true ↔
    (∃ s ∈ olds, s.contains p = true) ∨ new.contains p = true
  old : ∀ s ∈ olds, ∀ p, s.contains p = true →
    (h'.meaning merged p).visible = (h.meaning s p).visible
  fresh : ∀ p, new.contains p = true → (h'.meaning merged p).visible =
    (new.vp.map fun v => (v, new.offset + ((p - new.sBase : Nat) : Int)), some new.prot,
      new.type, none)
  amp : ∀ s ∈ olds, s.amp = merged.amp
  slot : ∀ s ∈ olds, ∀ p k m, s.contains p = true → s.amp = some k → h.amps k = some m →
    1 < m.refcnt → merged.slotAt p = s.slotAt p
  behind : ∀ p k m, new.contains p = true → merged.amp = some k → h.amps k = some m →
    1 < m.refcnt → m.size ≤ merged.slotAt p
  others : ∀ k x m, h.amps k = some m → (merged.amp = some k → 1 < m.refcnt ∧ x < m.size) →
    h'.anonAt k x = h.anonAt k x

/-- The new segment lies where it was asked for, and is not writable page by page. -/
structure Seg.Asked (new : Seg) (sBase sSize : Nat) (a : Crargs) : Prop where
  base : new.sBase = sBase
  size : new.sSize = sSize
  vp : new.vp = a.vp
  offset : new.offset = a.offset
  prot : new.prot = a.prot
  type : new.type = a.type

variable {h' h : Heap} {merged t s place : Seg} {p k j p' j' i sSize sBase : Nat} {m : AnonMap}
  {swresv : Int} {q : Heap × Seg}

section Merges

variable {h : Heap} {s new : Seg} {a : Crargs} {sBase sSize : Nat}

theorem Heap.meaning_visible (h : Heap) (s : Seg) (p : Nat) : (h.meaning s p).visible =
    (s.vp.map fun v => (v, s.offset + ((p - s.sBase : Nat) : Int)), s.protAt p, s.type,
      s.amp.bind fun k => h.anonAt k (s.slotAt p)) := by
  unfold meaning Meaning.visible ampOf anonAt
  cases s.amp with
  | none => rfl
  | some k => rfl

theorem Seg.protAt_whole (hpageprot : s.pageprot = false) (p : Nat) : s.protAt p = some s.prot := by
  unfold Seg.protAt
  rw [hpageprot]
  rfl

theorem Heap.meaning_merged {vp : Option Nat} {offset : Int} {prot : Prot} {type : MapType}
    {page : Option Nat} (hvp : merged.vp = vp) (hoffset : vp ≠ none →
      merged.offset + ((p - merged.sBase : Nat) : Int) = offset)
    (hpageprot : merged.pageprot = false) (hprot : merged.prot = prot) (htype : merged.type = type)
    (hpage : (merged.amp.bind fun k => h'.anonAt k (merged.slotAt p)) = page) :
    (h'.meaning merged p).visible = (vp.map fun v => (v, offset), some prot, type, page) := by
  rw [meaning_visible, hvp, Seg.protAt_whole hpageprot, hprot, htype, hpage]
  cases vp with
  | none => rfl
  | some v => rw [map_some, map_some, hoffset (some_ne_none v)]

theorem Merges.grow (hv : s.pageprot = false) (hnew : new.Asked sBase sSize a)
    (hsame : merged.vp = s.vp ∧ merged.prot = s.prot ∧
      merged.type = s.type ∧ merged.amp = s.amp ∧ merged.pageprot = s.pageprot)
    (hasked : s.vp = a.vp ∧ s.prot = a.prot ∧ s.type = a.type)
    (hcontains : ∀ p, merged.contains p = true ↔ s.contains p = true ∨ new.contains p = true)
    (hoffset : s.vp ≠ none → ∀ p,
      (s.contains p = true → merged.offset + ((p - merged.sBase : Nat) : Int) =
        s.offset + ((p - s.sBase : Nat) : Int)) ∧
      (new.contains p = true → merged.offset + ((p - merged.sBase : Nat) : Int) =
        a.offset + ((p - sBase : Nat) : Int))) (hold : ∀ p k, s.contains p = true → s.amp = some k →
      h'.anonAt k (merged.slotAt p) = h.anonAt k (s.slotAt p))
    (hfresh : ∀ p k, new.contains p = true → s.amp = some k → h'.anonAt k (merged.slotAt p) = none)
    (hslot : ∀ p k m, s.contains p = true → s.amp = some k → h.amps k = some m →
      1 < m.refcnt → merged.slotAt p = s.slotAt p)
    (hbehind : ∀ p k m, new.contains p = true → s.amp = some k → h.amps k = some m →
      1 < m.refcnt → m.size ≤ merged.slotAt p)
    (hothers : ∀ k x m, h.amps k = some m → (s.amp = some k → 1 < m.refcnt ∧ x < m.size) →
      h'.anonAt k x = h.anonAt k x) : Merges h h' [s] new merged := by
  obtain ⟨hvp, hprot, htype, hamp, hpageprot⟩ := hsame
  obtain ⟨havp, haprot, hatype⟩ := hasked
  refine ⟨?_, ?_, ?_, ?_, ?_, ?_, ?_⟩
  · intro p
    rw [hcontains]
    simp
  · intro t ht p hp
    rw [mem_singleton.mp ht] at hp ⊢
    rw [meaning_visible h s p, Seg.protAt_whole hv]
    refine meaning_merged hvp (fun hne => (hoffset hne p).1 hp) (hpageprot.trans hv) hprot htype ?_
    rw [hamp]
    cases hs : s.amp with
    | none => rfl
    | some k => exact hold p k hp hs
  · intro p hp
    rw [hnew.prot, hnew.type, hnew.vp, hnew.offset, hnew.base]
    refine meaning_merged (hvp.trans havp) (fun hne => (hoffset (havp ▸ hne) p).2 hp)
      (hpageprot.trans hv) (hprot.trans haprot) (htype.trans hatype) ?_
    rw [hamp]
    cases hs : s.amp with
    | none => rfl
    | some k => exact hfresh p k hp hs
  · intro t ht
    rw [mem_singleton.mp ht, hamp]
  · intro t ht p k m hp hs hm hheld
    rw [mem_singleton.mp ht] at hp hs ⊢
    exact hslot p k m hp hs hm hheld
  · intro p k m hp hs hm hheld
    exact hbehind p k m hp (hamp ▸ hs) hm hheld
  · intro k x m hm hother
    exact hothers k x m hm fun hs => hother (hamp ▸ hs)

theorem Heap.anonAt_setAmp (h : Heap) (k : Nat) (m : AnonMap) (j x : Nat) :
    (h.setAmp k m).anonAt j x = if j = k then m.anon x else h.anonAt j x := by
  unfold anonAt
  change (update h.amps k (some m) j).bind _ = _
  by_cases hj : j = k
  · rw [if_pos hj, hj, update_self]
    rfl
  · rw [if_neg hj, update_of_ne hj]

theorem Heap.anonAt_of (hm : h.amps k = some m) (x : Nat) : h.anonAt k x = m.anon x := by
  unfold anonAt
  rw [hm]
  rfl

theorem Merges.extendPrev (hok : s.Ok) (hpos : 0 < sSize) (hnew : new.Asked sBase sSize a)
    (hend : s.sEnd = sBase)
    (hrange : ∀ k m, s.amp = some k → h.amps k = some m → s.anonIndex + s.sSize ≤ m.size)
    (hext : (h.anonResv swresv).segvnExtendPrev s sSize a swresv = some q) :
    Merges h q.1 [s] new q.2 := by
  obtain ⟨hvp, _, hprot, htype, hoffset, hv, hcases⟩ := segvnExtendPrev_cases hext
  have hsEnd : s.sEnd = s.sBase + s.sSize := rfl
  have hnEnd : new.sEnd = sBase + sSize := by
    unfold Seg.sEnd
    rw [hnew.base, hnew.size]
  have hs : ∀ p, s.contains p = true ↔ s.sBase ≤ p ∧ p < s.sEnd := fun _ => Seg.contains_iff
  have hn : ∀ p, new.contains p = true ↔ sBase ≤ p ∧ p < sBase + sSize := by
    intro p
    rw [Seg.contains_iff, hnew.base, hnEnd]
  -- the extended segment has the fields of the old one, and more pages
  have hgrow : ∀ (h' : Heap) (index : Nat), (∀ p k, s.contains p = true → s.amp = some k →
        h'.anonAt k (index + (p - s.sBase)) = h.anonAt k (s.slotAt p)) →
      (∀ p k, new.contains p = true → s.amp = some k → h'.anonAt k (index + (p - s.sBase)) = none) →
      (∀ k m, s.amp = some k → h.amps k = some m → 1 < m.refcnt →
        index = s.anonIndex ∧ m.size ≤ index + s.sSize) →
      (∀ k x m, h.amps k = some m → (s.amp = some k → 1 < m.refcnt ∧ x < m.size) →
        h'.anonAt k x = h.anonAt k x) →
      Merges h h' [s] new ({ s with anonIndex := index }.growUp sSize swresv) := by
    intro h' index hold hfresh hheld hothers
    refine Merges.grow (hok.noVpage hv) hnew ⟨rfl, rfl, rfl, rfl, rfl⟩ ⟨hvp, hprot, htype⟩
      ?_ ?_ hold hfresh ?_ ?_ hothers
    · intro p
      have hmerged : ({ s with anonIndex := index }.growUp sSize swresv).contains p = true ↔
          s.sBase ≤ p ∧ p < s.sBase + (s.sSize + sSize) := Seg.contains_iff
      rw [hmerged, hs, hn]
      omega
    · intro hne p
      have hat := hoffset hne
      rw [hs, hn]
      constructor
      · exact fun _ => rfl
      · intro hp
        change s.offset + ((p - s.sBase : Nat) : Int) = _
        omega
    · intro p k m _ hk hm hlt
      change index + (p - s.sBase) = s.anonIndex + (p - s.sBase)
      rw [(hheld k m hk hm hlt).1]
    · intro p k m hp hk hm hlt
      have hsize := (hheld k m hk hm hlt).2
      rw [hn] at hp
      change m.size ≤ index + (p - s.sBase)
      omega
  rcases hcases with ⟨hnone, rfl⟩ | ⟨k, m, hk, hm, hheld, rfl⟩
  · refine hgrow _ s.anonIndex ?_ ?_ ?_ ?_
    · intro p k _ hk
      rw [hnone] at hk
      cases hk
    · intro p k _ hk
      rw [hnone] at hk
      cases hk
    · intro k m hk
      rw [hnone] at hk
      cases hk
    · exact fun _ _ _ _ _ => rfl
  · have hm : h.amps k = some m := hm
    have hroom := hrange k m hk hm
    unfold growBehind
    by_cases hmore : m.size - s.anonIndex < s.sSize + sSize
    · rw [if_pos hmore]
      refine hgrow _ 0 ?_ ?_ ?_ ?_
      · intro p j hp hj
        cases hk.symm.trans hj
        rw [hs] at hp
        rw [anonAt_setAmp, if_pos rfl, anonAt_of hm]
        change (if 0 + (p - s.sBase) < s.sSize then m.anon (s.anonIndex + (0 + (p - s.sBase)))
          else none) = m.anon (s.anonIndex + (p - s.sBase))
        rw [if_pos (by omega), Nat.zero_add]
      · intro p j hp hj
        cases hk.symm.trans hj
        rw [hn] at hp
        rw [anonAt_setAmp, if_pos rfl]
        change (if 0 + (p - s.sBase) < s.sSize then _ else none) = none
        rw [if_neg (by omega)]
      · intro j m' hj hm' hlt
        cases hk.symm.trans hj
        cases hm.symm.trans hm'
        omega
      · intro j x m' hm' hother
        rw [anonAt_setAmp]
        by_cases hj : j = k
        · subst hj
          cases hm.symm.trans hm'
          obtain ⟨hlt, hx⟩ := hother hk
          rw [if_pos rfl, anonAt_of hm]
          change (if x < s.sSize then m.anon (s.anonIndex + x) else none) = m.anon x
          have hzero : s.anonIndex = 0 := by omega
          rw [if_pos (by omega), hzero, Nat.zero_add]
        · rw [if_neg hj]
          rfl
    · rw [if_neg hmore]
      refine hgrow _ s.anonIndex ?_ ?_ ?_ ?_
      · intro p j hp hj
        cases hk.symm.trans hj
        rw [hs] at hp
        rw [anonAt_setAmp, if_pos rfl, anonAt_of hm]
        change (if s.anonIndex + s.sSize ≤ s.anonIndex + (p - s.sBase) ∧
          s.anonIndex + (p - s.sBase) < s.anonIndex + s.sSize + sSize then none
          else m.anon (s.anonIndex + (p - s.sBase))) = _
        rw [if_neg (by omega)]
        rfl
      · intro p j hp hj
        cases hk.symm.trans hj
        rw [hn] at hp
        rw [anonAt_setAmp, if_pos rfl]
        change (if s.anonIndex + s.sSize ≤ s.anonIndex + (p - s.sBase) ∧
          s.anonIndex + (p - s.sBase) < s.anonIndex + s.sSize + sSize then none else _) = none
        rw [if_pos (by omega)]
      · intro j m' hj hm' hlt
        cases hk.symm.trans hj
        cases hm.symm.trans hm'
        omega
      · intro j x m' hm' hother
        rw [anonAt_setAmp]
        by_cases hj : j = k
        · subst hj
          cases hm.symm.trans hm'
          have hlt := (hother hk).1
          omega
        · rw [if_neg hj]
          rfl

theorem Merges.extendNext (hok : s.Ok) (hnew : new.Asked sBase sSize a)
    (hbase : sBase + sSize = s.sBase)
    (hext : (h.anonResv swresv).segvnExtendNext s sSize a swresv = some q) :
    Merges h q.1 [s] new q.2 := by
  obtain ⟨hvp, _, hprot, htype, hoffset, hv, hcases⟩ := segvnExtendNext_cases hext
  have hsEnd : s.sEnd = s.sBase + s.sSize := rfl
  have hnEnd : new.sEnd = sBase + sSize := by
    unfold Seg.sEnd
    rw [hnew.base, hnew.size]
  have hs : ∀ p, s.contains p = true ↔ s.sBase ≤ p ∧ p < s.sEnd := fun _ => Seg.contains_iff
  have hn : ∀ p, new.contains p = true ↔ sBase ≤ p ∧ p < sBase + sSize := by
    intro p
    rw [Seg.contains_iff, hnew.base, hnEnd]
  have hgrow : ∀ (h' : Heap) (index : Nat), (∀ p k, s.contains p = true → s.amp = some k →
        h'.anonAt k (index + (p - sBase)) = h.anonAt k (s.slotAt p)) →
      (∀ p k, new.contains p = true → s.amp = some k → h'.anonAt k (index + (p - sBase)) = none) →
      (∀ k m, s.amp = some k → h.amps k = some m → m.refcnt ≤ 1) →
      (∀ k x, s.amp ≠ some k → h'.anonAt k x = h.anonAt k x) →
      Merges h h' [s] new ({ s with anonIndex := index }.growDown sSize swresv) := by
    intro h' index hold hfresh hsole hothers
    have hdown : s.sBase - sSize = sBase := by omega
    refine Merges.grow (hok.noVpage hv) hnew ⟨rfl, rfl, rfl, rfl, rfl⟩ ⟨hvp, hprot, htype⟩
      ?_ ?_ ?_ ?_ ?_ ?_ ?_
    · intro p
      have hmerged : ({ s with anonIndex := index }.growDown sSize swresv).contains p = true ↔
          s.sBase - sSize ≤ p ∧ p < s.sBase - sSize + (s.sSize + sSize) := Seg.contains_iff
      rw [hmerged, hs, hn]
      omega
    · intro hne p
      have hat := hoffset hne
      rw [hs, hn]
      constructor
      · intro hp
        change s.offset - sSize + ((p - (s.sBase - sSize) : Nat) : Int) = _
        omega
      · intro hp
        change s.offset - sSize + ((p - (s.sBase - sSize) : Nat) : Int) = _
        omega
    · intro p k hp hk
      change h'.anonAt k (index + (p - (s.sBase - sSize))) = _
      rw [hdown]
      exact hold p k hp hk
    · intro p k hp hk
      change h'.anonAt k (index + (p - (s.sBase - sSize))) = _
      rw [hdown]
      exact hfresh p k hp hk
    · intro p k m _ hk hm hlt
      have hle := hsole k m hk hm
      omega
    · intro p k m _ hk hm hlt
      have hle := hsole k m hk hm
      omega
    · intro k x m hm hother
      refine hothers k x fun hk => ?_
      have hle := hsole k m hk hm
      have hlt := (hother hk).1
      omega
  rcases hcases with ⟨hnone, rfl⟩ | ⟨k, m, hk, hm, hone, rfl⟩
  · refine hgrow _ s.anonIndex ?_ ?_ ?_ ?_
    · intro p k _ hk
      rw [hnone] at hk
      cases hk
    · intro p k _ hk
      rw [hnone] at hk
      cases hk
    · intro k m hk
      rw [hnone] at hk
      cases hk
    · exact fun _ _ _ => rfl
  · have hm : h.amps k = some m := hm
    have hsole : ∀ j m', s.amp = some j → h.amps j = some m' → m'.refcnt ≤ 1 := by
      intro j m' hj hm'
      cases hk.symm.trans hj
      cases hm.symm.trans hm'
      exact hone
    unfold growBefore
    by_cases hmore : s.anonIndex < sSize
    · rw [if_pos hmore]
      refine hgrow _ anonSlop ?_ ?_ hsole ?_
      · intro p j hp hj
        cases hk.symm.trans hj
        rw [hs] at hp
        rw [anonAt_setAmp, if_pos rfl, anonAt_of hm]
        change (if anonSlop + sSize ≤ anonSlop + (p - sBase) ∧
          anonSlop + (p - sBase) < anonSlop + sSize + s.sSize then
          m.anon (s.anonIndex + (anonSlop + (p - sBase) - (anonSlop + sSize))) else none) =
          m.anon (s.anonIndex + (p - s.sBase))
        have hindex : anonSlop + (p - sBase) - (anonSlop + sSize) = p - s.sBase := by omega
        rw [if_pos (by omega), hindex]
      · intro p j hp hj
        cases hk.symm.trans hj
        rw [hn] at hp
        rw [anonAt_setAmp, if_pos rfl]
        change (if anonSlop + sSize ≤ anonSlop + (p - sBase) ∧
          anonSlop + (p - sBase) < anonSlop + sSize + s.sSize then _ else none) = none
        rw [if_neg (by omega)]
      · intro j x hj
        rw [anonAt_setAmp, if_neg fun heq : j = k => hj (by rw [heq]; exact hk)]
        rfl
    · rw [if_neg hmore]
      refine hgrow _ (s.anonIndex - sSize) ?_ ?_ hsole ?_
      · intro p j hp hj
        cases hk.symm.trans hj
        rw [hs] at hp
        rw [anonAt_setAmp, if_pos rfl, anonAt_of hm]
        have hindex : s.anonIndex - sSize + (p - sBase) = s.anonIndex + (p - s.sBase) := by omega
        rw [hindex]
        change (if s.anonIndex - sSize ≤ s.anonIndex + (p - s.sBase) ∧
          s.anonIndex + (p - s.sBase) < s.anonIndex - sSize + sSize then none
          else m.anon (s.anonIndex + (p - s.sBase))) = _
        rw [if_neg (by omega)]
        rfl
      · intro p j hp hj
        cases hk.symm.trans hj
        rw [hn] at hp
        rw [anonAt_setAmp, if_pos rfl]
        change (if s.anonIndex - sSize ≤ s.anonIndex - sSize + (p - sBase) ∧
          s.anonIndex - sSize + (p - sBase) < s.anonIndex - sSize + sSize then none else _) = none
        rw [if_pos (by omega)]
      · intro j x hj
        rw [anonAt_setAmp, if_neg fun heq : j = k => hj (by rw [heq]; exact hk)]
        rfl

theorem Merges.concat {n : Seg} {q' : Heap × Seg} (hok : s.Ok) (hnew : new.Asked sBase sSize a)
    (hend : s.sEnd = sBase) (hnext : q.2.sEnd = n.sBase) (hok' : n.Ok)
    (hext : (h.anonResv swresv).segvnExtendPrev s sSize a swresv = some q)
    (hconcat : q.1.segvnConcat q.2 n = some q') : Merges h q'.1 [s, n] new q'.2 := by
  obtain ⟨hvp, _, hprot, htype, hoffset, hv, hcases⟩ := segvnExtendPrev_cases hext
  obtain ⟨hvp', _, hprot', htype', hoffset', hamp', hamp'', _, hv', rfl⟩ :=
    segvnConcat_cases hconcat
  have hs : s.amp = none ∧ q = (h.anonResv swresv, s.growUp sSize swresv) := by
    rcases hcases with hnone | ⟨k, m, hk, _, _, rfl⟩
    · exact hnone
    · have hgrown : (((h.anonResv swresv).growBehind k m s sSize).2.growUp sSize swresv).amp =
          s.amp := by
        unfold growBehind
        split
        · rfl
        · rfl
      rw [hgrown, hk] at hamp'
      cases hamp'
  obtain ⟨hnone, rfl⟩ := hs
  have hoffset' : s.vp ≠ none → s.offset + ((s.sSize + sSize : Nat) : Int) = n.offset := hoffset'
  have hsEnd : s.sEnd = s.sBase + s.sSize := rfl
  have hnEnd' : n.sEnd = n.sBase + n.sSize := rfl
  have hnext : s.sBase + (s.sSize + sSize) = n.sBase := hnext
  have hnEnd : new.sEnd = sBase + sSize := by
    unfold Seg.sEnd
    rw [hnew.base, hnew.size]
  have hin : ∀ p, s.contains p = true ↔ s.sBase ≤ p ∧ p < s.sEnd := fun _ => Seg.contains_iff
  have hin' : ∀ p, n.contains p = true ↔ n.sBase ≤ p ∧ p < n.sEnd := fun _ => Seg.contains_iff
  have hn : ∀ p, new.contains p = true ↔ sBase ≤ p ∧ p < sBase + sSize := by
    intro p
    rw [Seg.contains_iff, hnew.base, hnEnd]
  let merged := (s.growUp sSize swresv).growUp n.sSize n.swresv
  have hmerged : ∀ p, merged.contains p = true ↔
      s.sBase ≤ p ∧ p < s.sBase + (s.sSize + sSize + n.sSize) := fun _ => Seg.contains_iff
  have hpage : ∀ p, (merged.amp.bind fun k =>
      ((h.anonResv swresv).anonUnresv 0).anonAt k (merged.slotAt p)) = none := by
    intro p
    change (s.amp.bind _) = none
    rw [hnone]
    rfl
  refine ⟨?_, ?_, ?_, ?_, ?_, ?_, ?_⟩
  · intro p
    simp only [mem_cons, not_mem_nil, or_false, exists_eq_or_imp, exists_eq_left]
    rw [hmerged, hin, hin', hn]
    omega
  · intro t ht p hp
    rcases mem_pair.mp ht with rfl | rfl
    · rw [meaning_visible h t p, Seg.protAt_whole (hok.noVpage hv), hnone]
      exact meaning_merged rfl (fun _ => rfl) (hok.noVpage hv) rfl rfl (hpage p)
    · rw [meaning_visible h t p, Seg.protAt_whole (hok'.noVpage hv'), hamp'']
      refine meaning_merged hvp' (fun hne => ?_) (hok.noVpage hv) hprot' htype' (hpage p)
      have hat := hoffset' (hvp' ▸ hne)
      rw [hin'] at hp
      change s.offset + ((p - s.sBase : Nat) : Int) = _
      omega
  · intro p hp
    rw [hnew.prot, hnew.type, hnew.vp, hnew.offset, hnew.base]
    refine meaning_merged hvp (fun hne => ?_) (hok.noVpage hv) hprot htype (hpage p)
    have hat := hoffset (hvp ▸ hne)
    rw [hn] at hp
    change s.offset + ((p - s.sBase : Nat) : Int) = _
    omega
  · intro t ht
    change t.amp = s.amp
    rcases mem_pair.mp ht with rfl | rfl
    · rfl
    · rw [hamp'', hnone]
  · intro t ht p k m _ hk
    rcases mem_pair.mp ht with rfl | rfl
    · rw [hnone] at hk
      cases hk
    · rw [hamp''] at hk
      cases hk
  · intro p k m _ hk
    have hk : s.amp = some k := hk
    rw [hnone] at hk
    cases hk
  · exact fun _ _ _ _ _ => rfl

end Merges

/-!
## The two worlds
-/

variable {x : Nat × Nat} {a : Crargs} {w w' : World} {space : List Seg}

namespace World

/-- The world after a creation that merges the new segment with its neighbours. -/
structure Merged (w : World) (i sBase sSize : Nat) (a : Crargs) (env : CreateEnv)
    (w' : World) : Prop where
  anonMap : a.amp = none
  envs : (newSwresv a sSize ≠ 0 → env.anonResv) ∧ env.hatMap ∧ env.addmap ∧ ¬ env.kas
  size : 0 < sSize
  space : ∃ space r, w.spaces[i]? = some space ∧
    (∀ s ∈ (space.dropWhile fun s => s.sEnd ≤ sBase).head?, sBase + sSize ≤ s.sBase) ∧
    (w.heap.anonResv (newSwresv a sSize)).merge
      (space.takeWhile fun s => s.sEnd ≤ sBase) (space.dropWhile fun s => s.sEnd ≤ sBase)
      sBase sSize a (newSwresv a sSize) = some r ∧
    w' = { w with heap := r.1, spaces := w.spaces.set i r.2 }

/-- The world had the new segment been kept separate. -/
def separate (w : World) (i sBase sSize : Nat) (a : Crargs) (env : CreateEnv) :
    Option World :=
  w.onSpace i fun space =>
    match (w.heap.anonResv (newSwresv a sSize)).createSeg sBase sSize a
      (newSwresv a sSize) env.anonZero with
    | none => none
    | some (h, s) => some (h, (space.takeWhile fun s => s.sEnd ≤ sBase) ++
        s :: space.dropWhile fun s => s.sEnd ≤ sBase)

def slot (w : World) (i p : Nat) : Option (Nat × Nat) := (w.denotes i p).bind Meaning.slot

def Shares (w : World) (i p j q : Nat) : Prop := ∃ x, w.slot i p = some x ∧ w.slot j q = some x

/-- An identifier or a segment of another address space holds a map. -/
def HeldElsewhere (w : World) (i k : Nat) : Prop :=
  0 < w.shm k ∨ ∃ j other, j ≠ i ∧ w.spaces[j]? = some other ∧ ∃ t ∈ other, t.amp = some k

/-- The maps that are held elsewhere keep their pages. -/
def Keeps (w : World) (i : Nat) (w' : World) : Prop :=
  ∀ k m, w.heap.amps k = some m → w.HeldElsewhere i k →
    ∃ m', w'.heap.amps k = some m' ∧ m'.size = m.size ∧ ∀ x, m'.anon x = m.anon x

/-- What the addresses denote and share does not tell a world with a merged segment from
one where the segments are separate, and maps that are held elsewhere keep their pages. -/
structure Invisible (w : World) (i : Nat) (w' w'' : World) : Prop where
  visible : ∀ j p, (w'.denotes j p).map Meaning.visible = (w''.denotes j p).map Meaning.visible
  shares : ∀ j p j' p', (j, p) ≠ (j', p') → (w'.Shares j p j' p' ↔ w''.Shares j p j' p')
  held : w.Keeps i w'

/-- The creation extends a previous segment whose map is held elsewhere. -/
def ExtendsHeld (w : World) (i sBase : Nat) (a : Crargs) : Prop :=
  ∃ space s k, w.spaces[i]? = some space ∧
    (space.takeWhile fun s => s.sEnd ≤ sBase).getLast? = some s ∧ s.sEnd = sBase ∧
    w.heap.ExtendsPrev s a ∧ s.amp = some k ∧ w.HeldElsewhere i k

/-!
## Merged and separate
-/

/-- A world, the one with a merged segment and the one with separate segments. -/
structure Scene (w w' w'' : World) (i : Nat) (front back olds mid : List Seg)
    (new merged : Seg) : Prop where
  sound : w.Sound
  space : w.spaces[i]? = some (front ++ olds ++ back)
  spaces' : w'.spaces = w.spaces.set i (front ++ [merged] ++ back)
  spaces'' : w''.spaces = w.spaces.set i (front ++ mid ++ back)
  laid' : ∃ hi, Laid 0 (front ++ [merged] ++ back) hi
  laid'' : ∃ hi, Laid 0 (front ++ mid ++ back) hi
  mid : ∀ t, t ∈ mid ↔ t ∈ olds ∨ t = new
  merges : Merges w.heap w'.heap olds new merged
  nonempty : olds ≠ []
  single : ∀ s ∈ olds, ∀ t ∈ olds, s.amp ≠ none → s = t
  kept : ∀ k m, w.heap.amps k = some m → w''.heap.amps k = some m
  newAmp : new.amp = none ∨ new.amp = some w.heap.nextAmp
  empty : ∀ x, w''.heap.anonAt w.heap.nextAmp x = none
  pageprot : new.pageprot = false

section Scene

variable {w w' w'' : World} {i : Nat} {front back olds mid : List Seg} {new merged : Seg}

def rest (w : World) (i : Nat) (front back : List Seg) : List Seg :=
  (w.spaces.take i).flatten ++ front ++ (back ++ (w.spaces.drop (i + 1)).flatten)

section

variable (hs : Scene w w' w'' i front back olds mid new merged)
include hs

theorem Scene.segs_perm :
    w.segs.Perm (olds ++ rest w i front back) := by
  have hflat : w.segs = w.spaces.flatten := rfl
  rw [hflat, spaces_split hs.space]
  have hlist : (w.spaces.take i).flatten ++ (front ++ olds ++ back) ++
      (w.spaces.drop (i + 1)).flatten =
      (w.spaces.take i).flatten ++ front ++ (olds ++
        (back ++ (w.spaces.drop (i + 1)).flatten)) := by simp
  rw [hlist]
  exact perm_append_comm_assoc _ _ _

theorem Scene.live (ht : t ∈ w.segs)
    (hk : t.amp = some k) : ∃ m, w.heap.amps k = some m ∧ t.anonIndex + t.sSize ≤ m.size := by
  have hmap := hs.sound.maps k
  have hmem : t ∈ users w.segs k := mem_users.mpr ⟨ht, hk⟩
  cases hm : w.heap.amps k with
  | none =>
    rw [hm] at hmap
    have hnil : users w.segs k = [] := hmap.1
    rw [hnil] at hmem
    cases hmem
  | some m =>
    rw [hm] at hmap
    exact ⟨m, rfl, hmap.range t hmem⟩

theorem Scene.old_of_amp
    (hk : merged.amp = some k) : ∃ s ∈ olds, s.amp = some k := by
  obtain ⟨s, hmem⟩ := exists_mem_of_ne_nil olds hs.nonempty
  exact ⟨s, hmem, (hs.merges.amp s hmem).trans hk⟩

theorem Scene.held
    (ht : t ∈ rest w i front back) (hk : t.amp = some k) (hmerged : merged.amp = some k)
    (hm : w.heap.amps k = some m) : 1 < m.refcnt := by
  obtain ⟨s, hmem, hsk⟩ := hs.old_of_amp hmerged
  have hmap := hs.sound.maps k
  rw [hm] at hmap
  have hperm : (users w.segs k).Perm (users olds k ++ users (rest w i front back) k) := by
    rw [← users_append]
    exact hs.segs_perm.filter _
  have hlength := hperm.length_eq
  rw [length_append] at hlength
  have hone : 0 < (users olds k).length :=
    length_pos_of_mem (mem_users.mpr ⟨hmem, hsk⟩)
  have htwo : 0 < (users (rest w i front back) k).length :=
    length_pos_of_mem (mem_users.mpr ⟨ht, hk⟩)
  have hcount := hmap.refcnt
  omega

theorem Scene.rest_segs
    (ht : t ∈ rest w i front back) : t ∈ w.segs :=
  hs.segs_perm.mem_iff.mpr (mem_append_right _ ht)

theorem Scene.olds_segs
    (ht : t ∈ olds) : t ∈ w.segs :=
  hs.segs_perm.mem_iff.mpr (mem_append_left _ ht)

end

theorem slotAt_lt (hp : t.contains p = true) : t.slotAt p < t.anonIndex + t.sSize := by
  have hin : t.sBase ≤ p ∧ p < t.sEnd := of_decide_eq_true hp
  have hend : t.sEnd = t.sBase + t.sSize := rfl
  unfold Seg.slotAt
  omega

section

variable (hs : Scene w w' w'' i front back olds mid new merged)
include hs

theorem Scene.rest_meaning
    (ht : t ∈ rest w i front back) (hp : t.contains p = true) :
    w'.heap.meaning t p = w.heap.meaning t p ∧ w''.heap.meaning t p = w.heap.meaning t p := by
  have hlt := slotAt_lt hp
  constructor
  · refine meaning_congr rfl (fun _ => rfl) rfl rfl rfl (fun _ => rfl) fun k hk => ?_
    obtain ⟨m, hm, hrange⟩ := hs.live (hs.rest_segs ht) hk
    refine hs.merges.others k _ m hm fun hmerged => ?_
    exact ⟨hs.held ht hk hmerged hm, by omega⟩
  · refine meaning_congr rfl (fun _ => rfl) rfl rfl rfl (fun _ => rfl) fun k hk => ?_
    obtain ⟨m, hm, _⟩ := hs.live (hs.rest_segs ht) hk
    rw [hs.kept k m hm, hm]

theorem Scene.old_meaning (ht : t ∈ olds)
    (p : Nat) : w''.heap.meaning t p = w.heap.meaning t p := by
  refine meaning_congr rfl (fun _ => rfl) rfl rfl rfl (fun _ => rfl) fun k hk => ?_
  obtain ⟨m, hm, _⟩ := hs.live (hs.olds_segs ht) hk
  rw [hs.kept k m hm, hm]

theorem Scene.new_visible (p : Nat) :
    (w''.heap.meaning new p).visible =
      (new.vp.map fun v => (v, new.offset + ((p - new.sBase : Nat) : Int)), some new.prot,
        new.type, none) := by
  rw [meaning_visible, Seg.protAt_whole hs.pageprot]
  rcases hs.newAmp with hnone | hnext
  · rw [hnone]
    rfl
  · rw [hnext, bind_some, hs.empty]

theorem Scene.places (j p : Nat) :
    (j = i ∧ merged.contains p = true ∧ w'.denotes j p = some (w'.heap.meaning merged p) ∧
      ((∃ s ∈ olds, s.contains p = true ∧ w''.denotes j p = some (w.heap.meaning s p)) ∨
        new.contains p = true ∧ w''.denotes j p = some (w''.heap.meaning new p))) ∨
    (∃ t ∈ rest w i front back, t.contains p = true ∧ w'.denotes j p = some (w.heap.meaning t p) ∧
      w''.denotes j p = some (w.heap.meaning t p)) ∨
    (w'.denotes j p = none ∧ w''.denotes j p = none) := by
  obtain ⟨hi', hlaid'⟩ := hs.laid'
  obtain ⟨hi'', hlaid''⟩ := hs.laid''
  obtain ⟨hlt, _⟩ := List.getElem?_eq_some_iff.mp hs.space
  by_cases hj : j = i
  · subst hj
    have hspace' : w'.spaces[j]? = some (front ++ [merged] ++ back) := by
      rw [hs.spaces']
      exact List.getElem?_set_self hlt
    have hspace'' : w''.spaces[j]? = some (front ++ mid ++ back) := by
      rw [hs.spaces'']
      exact getElem?_set_self hlt
    by_cases hq : merged.contains p = true
    · refine .inl ⟨rfl, hq, denotes_of hspace' hlaid' (by simp) hq, ?_⟩
      rcases (hs.merges.contains p).mp hq with ⟨s, hmem, hp⟩ | hp
      · refine .inl ⟨s, hmem, hp, ?_⟩
        have hmid : s ∈ mid := (hs.mid s).mpr (.inl hmem)
        rw [denotes_of hspace'' hlaid'' (by simp [hmid]) hp, hs.old_meaning hmem]
      · have hmid : new ∈ mid := (hs.mid new).mpr (.inr rfl)
        exact .inr ⟨hp, denotes_of hspace'' hlaid'' (by simp [hmid]) hp⟩
    · refine .inr ?_
      by_cases hex : ∃ t ∈ front ++ back, t.contains p = true
      · obtain ⟨t, ht, hp⟩ := hex
        have hrest : t ∈ rest w j front back := by
          unfold rest
          rcases mem_append.mp ht with ht | ht
          · simp [ht]
          · simp [ht]
        have hmem' : t ∈ front ++ [merged] ++ back := by
          rcases mem_append.mp ht with ht | ht
          · simp [ht]
          · simp [ht]
        have hmem'' : t ∈ front ++ mid ++ back := by
          rcases mem_append.mp ht with ht | ht
          · simp [ht]
          · simp [ht]
        obtain ⟨hmeaning', hmeaning''⟩ := hs.rest_meaning hrest hp
        refine .inl ⟨t, hrest, hp, ?_, ?_⟩
        · rw [denotes_of hspace' hlaid' hmem' hp, hmeaning']
        · rw [denotes_of hspace'' hlaid'' hmem'' hp, hmeaning'']
      · have hnone : ∀ t ∈ front ++ back, t.contains p = false := by
          intro t ht
          by_contra hp
          exact hex ⟨t, ht, by simpa using hp⟩
        refine .inr ⟨denotes_none hspace' fun t ht => ?_, denotes_none hspace'' fun t ht => ?_⟩
        · rcases mem_append.mp ht with ht | ht
          · rcases mem_append.mp ht with ht | ht
            · exact hnone t (mem_append_left _ ht)
            · rw [mem_singleton.mp ht]
              simpa using hq
          · exact hnone t (mem_append_right _ ht)
        · rcases mem_append.mp ht with ht | ht
          · rcases mem_append.mp ht with ht | ht
            · exact hnone t (mem_append_left _ ht)
            · by_contra hp
              have hp : t.contains p = true := by simpa using hp
              refine hq ((hs.merges.contains p).mpr ?_)
              rcases (hs.mid t).mp ht with hmem | rfl
              · exact .inl ⟨t, hmem, hp⟩
              · exact .inr hp
          · exact hnone t (mem_append_right _ ht)
  · refine .inr ?_
    have hsame' : w'.spaces[j]? = w.spaces[j]? := by
      rw [hs.spaces']
      exact getElem?_set_ne (Ne.symm hj)
    have hsame'' : w''.spaces[j]? = w.spaces[j]? := by
      rw [hs.spaces'']
      exact getElem?_set_ne (Ne.symm hj)
    cases hother : w.spaces[j]? with
    | none =>
      refine .inr ⟨?_, ?_⟩
      · unfold denotes
        rw [hsame', hother]
        rfl
      · unfold denotes
        rw [hsame'', hother]
        rfl
    | some other =>
      rw [hother] at hsame' hsame''
      obtain ⟨hi, hlaid⟩ := hs.sound.laid_of hother
      by_cases hex : ∃ t ∈ other, t.contains p = true
      · obtain ⟨t, ht, hp⟩ := hex
        have hrest : t ∈ rest w i front back := by
          unfold rest
          rcases mem_other_space hother hj ht with ht | ht
          · exact mem_append_left _ (mem_append_left _ ht)
          · exact mem_append_right _ (mem_append_right _ ht)
        obtain ⟨hmeaning', hmeaning''⟩ := hs.rest_meaning hrest hp
        refine .inl ⟨t, hrest, hp, ?_, ?_⟩
        · rw [denotes_of hsame' hlaid ht hp, hmeaning']
        · rw [denotes_of hsame'' hlaid ht hp, hmeaning'']
      · have hnone : ∀ t ∈ other, t.contains p = false := by
          intro t ht
          by_contra hp
          exact hex ⟨t, ht, by simpa using hp⟩
        exact .inr ⟨denotes_none hsame' hnone, denotes_none hsame'' hnone⟩

theorem Scene.visible (j p : Nat) :
    (w'.denotes j p).map Meaning.visible = (w''.denotes j p).map Meaning.visible := by
  rcases hs.places j p with ⟨_, _, h', hplace⟩ | ⟨t, _, _, h', h''⟩ | ⟨h', h''⟩
  · rcases hplace with ⟨s, hmem, hp, h''⟩ | ⟨hp, h''⟩
    · rw [h', h'', map_some, map_some, hs.merges.old s hmem p hp]
    · rw [h', h'', map_some, map_some, hs.merges.fresh p hp, hs.new_visible]
  · rw [h', h'']
  · rw [h', h'']

end

def segSlot (s : Seg) (p : Nat) : Option (Nat × Nat) := s.amp.map fun k => (k, s.slotAt p)

theorem slot_of_denotes
    (hdenotes : w.denotes j p = some (h.meaning s p)) : w.slot j p = segSlot s p := by
  unfold slot
  rw [hdenotes]
  rfl

theorem slot_of_none (hdenotes : w.denotes j p = none) : w.slot j p = none := by
  unfold slot
  rw [hdenotes]
  rfl

theorem segSlot_eq_some {x : Nat} :
    segSlot s p = some (k, x) ↔ s.amp = some k ∧ s.slotAt p = x := by
  unfold segSlot
  cases s.amp with
  | none => simp
  | some k' => simp

theorem segSlot_inj (hp : s.contains p = true) (hp' : s.contains p' = true)
    (hx : segSlot s p = some x) (hx' : segSlot s p' = some x) : p = p' := by
  have hslot := (segSlot_eq_some.mp hx).2
  have hslot' := (segSlot_eq_some.mp hx').2
  have hin := Seg.contains_iff.mp hp
  have hin' := Seg.contains_iff.mp hp'
  unfold Seg.slotAt at hslot hslot'
  omega

section

variable (hs : Scene w w' w'' i front back olds mid new merged)
include hs

theorem Scene.new_amp (ht : t ∈ w.segs)
    (hk : t.amp = some k) : new.amp ≠ some k := by
  intro hnew
  obtain ⟨m, hm, _⟩ := hs.live ht hk
  rcases hs.newAmp with hnone | hnext
  · rw [hnone] at hnew
    cases hnew
  · have hfresh := hs.sound.fresh k (le_of_eq (Option.some.inj (hnext.symm.trans hnew)))
    rw [hm] at hfresh
    cases hfresh

theorem Scene.merged_apart {place' : Seg}
    (hplace : place ∈ olds ∨ place = new) (hplace' : place' ∈ olds ∨ place' = new)
    (hp : place.contains p = true) (hp' : place'.contains p' = true)
    (hx : segSlot place p = some x) (hx' : segSlot place' p' = some x) : (j, p) = (j, p') := by
  have hk := (segSlot_eq_some.mp hx).1
  have hk' := (segSlot_eq_some.mp hx').1
  rcases hplace with hmem | rfl
  · rcases hplace' with hmem' | rfl
    · have heq : place = place' := by
        refine hs.single place hmem place' hmem' fun hnone => ?_
        rw [hnone] at hk
        cases hk
      rw [← heq] at hp' hx'
      rw [segSlot_inj hp hp' hx hx']
    · exact absurd hk' (hs.new_amp (hs.olds_segs hmem) hk)
  · rcases hplace' with hmem' | rfl
    · exact absurd hk (hs.new_amp (hs.olds_segs hmem') hk')
    · rw [segSlot_inj hp hp' hx hx']

theorem Scene.merged_shares
    (hplace : place ∈ olds ∨ place = new) (hp : place.contains p = true)
    (ht : t ∈ rest w i front back) (hp' : t.contains p' = true) (hx' : segSlot t p' = some x) :
    segSlot merged p = some x ↔ segSlot place p = some x := by
  obtain ⟨k, y⟩ := x
  obtain ⟨hk', hy'⟩ := segSlot_eq_some.mp hx'
  obtain ⟨m, hm, hrange⟩ := hs.live (hs.rest_segs ht) hk'
  have hlt := slotAt_lt hp'
  rcases hplace with hmem | rfl
  · have hamp := hs.merges.amp place hmem
    rw [segSlot_eq_some, segSlot_eq_some, hamp]
    refine and_congr_right fun hk => ?_
    have hheld := hs.held ht hk' hk hm
    rw [hs.merges.slot place hmem p k m hp (hamp.trans hk) hm hheld]
  · rw [segSlot_eq_some, segSlot_eq_some]
    constructor
    · rintro ⟨hk, hy⟩
      have hbehind := hs.merges.behind p k m hp hk hm (hs.held ht hk' hk hm)
      omega
    · rintro ⟨hk, _⟩
      exact absurd hk (hs.new_amp (hs.rest_segs ht) hk')

theorem Scene.slots (j p : Nat) :
    (j = i ∧ merged.contains p = true ∧ w'.slot j p = segSlot merged p ∧
      ∃ place, (place ∈ olds ∨ place = new) ∧ place.contains p = true ∧
        w''.slot j p = segSlot place p) ∨
    (∃ t ∈ rest w i front back, t.contains p = true ∧ w'.slot j p = segSlot t p ∧
      w''.slot j p = segSlot t p) ∨ (w'.slot j p = none ∧ w''.slot j p = none) := by
  rcases hs.places j p with ⟨hj, hq, h', hplace⟩ | ⟨t, ht, hp, h', h''⟩ | ⟨h', h''⟩
  · refine .inl ⟨hj, hq, slot_of_denotes h', ?_⟩
    rcases hplace with ⟨s, hmem, hp, h''⟩ | ⟨hp, h''⟩
    · exact ⟨s, .inl hmem, hp, slot_of_denotes h''⟩
    · exact ⟨new, .inr rfl, hp, slot_of_denotes h''⟩
  · exact .inr (.inl ⟨t, ht, hp, slot_of_denotes h', slot_of_denotes h''⟩)
  · exact .inr (.inr ⟨slot_of_none h', slot_of_none h''⟩)

end

theorem shares_comm : w.Shares j p j' p' ↔ w.Shares j' p' j p := by
  constructor
  · rintro ⟨x, hx, hx'⟩
    exact ⟨x, hx', hx⟩
  · rintro ⟨x, hx, hx'⟩
    exact ⟨x, hx', hx⟩

theorem Scene.shares (hs : Scene w w' w'' i front back olds mid new merged)
    (hne : (j, p) ≠ (j', p')) : w'.Shares j p j' p' ↔ w''.Shares j p j' p' := by
  -- an address of the merged segment, and one of another segment
  have hcross : ∀ {place t : Seg} {j p j' p' : Nat}, (place ∈ olds ∨ place = new) →
      place.contains p = true → t ∈ rest w i front back → t.contains p' = true →
      w'.slot j p = segSlot merged p → w''.slot j p = segSlot place p →
      w'.slot j' p' = segSlot t p' → w''.slot j' p' = segSlot t p' →
      (w'.Shares j p j' p' ↔ w''.Shares j p j' p') := by
    intro place t j p j' p' hplace hp ht hp' h₁ h₂ h₃ h₄
    unfold Shares
    rw [h₁, h₂, h₃, h₄]
    refine exists_congr fun x => ?_
    constructor
    · rintro ⟨hx, hx'⟩
      exact ⟨(hs.merged_shares hplace hp ht hp' hx').mp hx, hx'⟩
    · rintro ⟨hx, hx'⟩
      exact ⟨(hs.merged_shares hplace hp ht hp' hx').mpr hx, hx'⟩
  -- an address without a segment
  have hnothing : ∀ {j p j' p' : Nat}, w'.slot j p = none → w''.slot j p = none →
      (w'.Shares j p j' p' ↔ w''.Shares j p j' p') := by
    intro j p j' p' h₁ h₂
    unfold Shares
    rw [h₁, h₂]
    simp
  rcases hs.slots j p with ⟨hj, hq, h₁, place, hplace, hp, h₂⟩ | ⟨t, ht, hp, h₁, h₂⟩ | ⟨h₁, h₂⟩
  · rcases hs.slots j' p' with
      ⟨hj', hq', h₃, place', hplace', hp', h₄⟩ | ⟨t', ht', hp', h₃, h₄⟩ | ⟨h₃, h₄⟩
    · subst hj hj'
      constructor
      · rintro ⟨x, hx, hx'⟩
        rw [h₁] at hx
        rw [h₃] at hx'
        exact absurd (by rw [segSlot_inj hq hq' hx hx']) hne
      · rintro ⟨x, hx, hx'⟩
        rw [h₂] at hx
        rw [h₄] at hx'
        exact absurd (hs.merged_apart hplace hplace' hp hp' hx hx') hne
    · exact hcross hplace hp ht' hp' h₁ h₂ h₃ h₄
    · rw [shares_comm, shares_comm (w := w'')]
      exact hnothing h₃ h₄
  · rcases hs.slots j' p' with
      ⟨hj', hq', h₃, place', hplace', hp', h₄⟩ | ⟨t', ht', hp', h₃, h₄⟩ | ⟨h₃, h₄⟩
    · rw [shares_comm, shares_comm (w := w'')]
      exact hcross hplace' hp' ht hp h₃ h₄ h₁ h₂
    · unfold Shares
      rw [h₁, h₂, h₃, h₄]
    · rw [shares_comm, shares_comm (w := w'')]
      exact hnothing h₃ h₄
  · exact hnothing h₁ h₂

end Scene

theorem createSeg_alone (sBase sSize : Nat) (swresv : Int) (anonZero : Nat → Nat)
    (hfresh : h.Fresh) (hamp : a.amp = none) :
    ∃ q, h.createSeg sBase sSize a swresv anonZero = some q ∧ q.2.Asked sBase sSize a ∧
      q.2.pageprot = false ∧ (q.2.amp = none ∨ q.2.amp = some h.nextAmp) ∧
      (∀ k m, h.amps k = some m → q.1.amps k = some m) ∧ ∀ x, q.1.anonAt h.nextAmp x = none := by
  unfold createSeg
  simp only [hamp]
  by_cases hzfod : a.type = .shared ∧ a.vp = none
  · rw [if_pos hzfod]
    refine ⟨_, rfl, ⟨rfl, rfl, rfl, rfl, rfl, rfl⟩, rfl, .inr rfl, ?_, ?_⟩
    · intro k m hm
      change update h.amps h.nextAmp _ k = some m
      have hne : k ≠ h.nextAmp := by
        rintro rfl
        rw [hfresh _ (le_refl _)] at hm
        cases hm
      rw [update_of_ne hne, hm]
    · intro x
      change (update h.amps h.nextAmp _ h.nextAmp).bind _ = none
      rw [update_self]
      rfl
  · rw [if_neg hzfod]
    refine ⟨_, rfl, ⟨rfl, rfl, rfl, rfl, rfl, rfl⟩, rfl, .inl rfl, fun _ _ hm => hm, ?_⟩
    intro x
    unfold anonAt
    rw [hfresh _ (le_refl _)]
    rfl

theorem Sound.held_twice (hw : w.Sound) (hspace : w.spaces[i]? = some space) (hs : s ∈ space)
    (hk : s.amp = some k) (hm : w.heap.amps k = some m) (hheld : w.HeldElsewhere i k) :
    1 < m.refcnt := by
  have hmap := hw.maps k
  rw [hm] at hmap
  have hflat : w.segs = (w.spaces.take i).flatten ++ space ++
      (w.spaces.drop (i + 1)).flatten := spaces_split hspace
  have hcount := hmap.refcnt
  rw [hflat, users_append, users_append, length_append, length_append] at hcount
  have hone : 0 < (users space k).length := length_pos_of_mem (mem_users.mpr ⟨hs, hk⟩)
  rcases hheld with hshm | ⟨j, other, hj, hother, t, ht, htk⟩
  · omega
  · rcases mem_other_space hother hj ht with hmem | hmem
    · have htwo : 0 < (users (w.spaces.take i).flatten k).length :=
        length_pos_of_mem (mem_users.mpr ⟨hmem, htk⟩)
      omega
    · have htwo : 0 < (users (w.spaces.drop (i + 1)).flatten k).length :=
        length_pos_of_mem (mem_users.mpr ⟨hmem, htk⟩)
      omega

/-- The extension of a previous segment leaves a map that is held elsewhere as it was just
when it is not that of the segment. -/
theorem keeps_extendPrev (hw : w.Sound) (hpos : 0 < sSize) (hspace : w.spaces[i]? = some space)
    (hs : s ∈ space) (hext : (w.heap.anonResv swresv).segvnExtendPrev s sSize a swresv = some q)
    (hheap : w'.heap = q.1) : w.Keeps i w' ↔ ¬ ∃ k, s.amp = some k ∧ w.HeldElsewhere i k := by
  obtain ⟨_, _, _, _, _, _, hcases⟩ := segvnExtendPrev_cases hext
  rcases hcases with ⟨hnone, rfl⟩ | ⟨k, m, hk, hm, hheld, rfl⟩
  · refine iff_of_true ?_ ?_
    · intro k m hm _
      rw [hheap]
      exact ⟨m, hm, rfl, fun _ => rfl⟩
    · rintro ⟨k, hk, _⟩
      rw [hnone] at hk
      cases hk
  · have hamps : ∃ m', w'.heap.amps = update w.heap.amps k (some m') ∧
        (m.size - s.anonIndex < s.sSize + sSize → m'.size = s.sSize + sSize + anonSlop) := by
      rw [hheap]
      unfold growBehind
      split
      · exact ⟨_, rfl, fun _ => rfl⟩
      · rename_i hroom
        exact ⟨_, rfl, fun hless => absurd hless hroom⟩
    obtain ⟨m', hamps, hgrown⟩ := hamps
    constructor
    · rintro hkeeps ⟨j, hj, helse⟩
      cases hk.symm.trans hj
      have htwice := hw.held_twice hspace hs hk hm helse
      obtain ⟨m'', hm'', hsize, _⟩ := hkeeps k m hm helse
      rw [hamps, update_self] at hm''
      cases hm''
      omega
    · intro hnot j mj hmj helse
      have hj : j ≠ k := by
        rintro rfl
        exact hnot ⟨j, hk, helse⟩
      refine ⟨mj, ?_, rfl, fun _ => rfl⟩
      rw [hamps, update_of_ne hj, hmj]

theorem extendsHeld_iff {init : List Seg} (hspace : w.spaces[i]? = some space)
    (hbefore : (space.takeWhile fun s => s.sEnd ≤ sBase) = init ++ [s]) (hend : s.sEnd = sBase)
    (hext : w.heap.ExtendsPrev s a) :
    w.ExtendsHeld i sBase a ↔ ∃ k, s.amp = some k ∧ w.HeldElsewhere i k := by
  constructor
  · rintro ⟨space', s', k, hspace', hlast, _, _, hk, hheld⟩
    cases hspace.symm.trans hspace'
    rw [hbefore, getLast?_concat] at hlast
    cases hlast
    exact ⟨k, hk, hheld⟩
  · rintro ⟨k, hk, hheld⟩
    refine ⟨space, s, k, hspace, ?_, hend, hext, hk, hheld⟩
    rw [hbefore, getLast?_concat]

theorem Merged.scene (hw : w.Sound) {env : CreateEnv} (hmerged : w.Merged i sBase sSize a env w') :
    ∃ w'' front back olds mid new merged, w.separate i sBase sSize a env = some w'' ∧
      Scene w w' w'' i front back olds mid new merged ∧
      (w.Keeps i w' ↔ ¬ w.ExtendsHeld i sBase a) := by
  obtain ⟨space, r, hspace, hafter, hmerge, rfl⟩ := hmerged.space
  have hresv : (w.heap.anonResv (newSwresv a sSize)).Fresh := hw.fresh
  obtain ⟨q₀, hseg, hasked, hpageprot, hnewAmp, hkept, hempty⟩ :=
    createSeg_alone sBase sSize (newSwresv a sSize) env.anonZero hresv hmerged.anonMap
  obtain ⟨_, hlaid⟩ := hw.laid_of hspace
  have hseparate : w.separate i sBase sSize a env = some
      { w with
        heap := q₀.1
        spaces := w.spaces.set i ((space.takeWhile fun s => s.sEnd ≤ sBase) ++
          q₀.2 :: space.dropWhile fun s => s.sEnd ≤ sBase) } := by
    unfold separate onSpace
    simp only [hspace, hseg]
  have hsplit : space = (space.takeWhile fun s => s.sEnd ≤ sBase) ++
      space.dropWhile fun s => s.sEnd ≤ sBase := takeWhile_append_dropWhile.symm
  have hbefore : ∀ s ∈ space.takeWhile fun s => s.sEnd ≤ sBase, s.sEnd ≤ sBase := by
    intro s hs
    simpa using mem_takeWhile_imp hs
  have hends : ∀ s, (space.takeWhile fun s => s.sEnd ≤ sBase).getLast? = some s → s ∈ space := by
    intro s hs
    rw [hsplit]
    exact mem_append_left _ (mem_of_getLast? hs)
  rw [hsplit] at hlaid
  obtain ⟨hleft, hi', hright⟩ := hlaid.gap hbefore hafter
  have hnewEnd : q₀.2.sEnd = sBase + sSize := by
    unfold Seg.sEnd
    rw [hasked.base, hasked.size]
  have hnew : Laid sBase [q₀.2] (sBase + sSize) :=
    laid_singleton.mpr ⟨le_of_eq hasked.base.symm, le_of_eq hnewEnd⟩
  have hlaid'' : Laid 0 ((space.takeWhile fun s => s.sEnd ≤ sBase) ++ [q₀.2] ++
      space.dropWhile fun s => s.sEnd ≤ sBase) hi' :=
    laid_append.mpr ⟨_, laid_append.mpr ⟨sBase, hleft, hnew⟩, hright⟩
  have hlaid' := Laid.merge hleft hright hmerge
  have hmem : ∀ t ∈ space, t ∈ w.segs := fun t ht =>
    mem_flatten.mpr ⟨space, mem_of_getElem? hspace, ht⟩
  generalize hbeforeEq : (space.takeWhile fun s => s.sEnd ≤ sBase) = before at *
  generalize hafterEq : (space.dropWhile fun s => s.sEnd ≤ sBase) = after at *
  rcases merge_cases hmerge with
    ⟨init, s, q, rfl, hend, hext, hcases⟩ | ⟨hprev, n, rest, q, rfl, hnext, hext, rfl⟩
  · have hsIn : s ∈ space := hends s getLast?_concat
    have hok : s.Ok := hw.segs s (hmem s hsIn)
    have hiff := extendsHeld_iff hspace hbeforeEq hend (Heap.ExtendsPrev.of_some hext)
    have hrange : ∀ k m, s.amp = some k → w.heap.amps k = some m →
        s.anonIndex + s.sSize ≤ m.size := by
      intro k m hk hm
      have hmap := hw.maps k
      rw [hm] at hmap
      exact hmap.range s (mem_users.mpr ⟨hmem s hsIn, hk⟩)
    rcases hcases with rfl | ⟨n, rest, q', rfl, hnext, hconcat, rfl⟩
    · refine ⟨_, init, after, [s], [s, q₀.2], q₀.2, q.2, hseparate, ?_, ?_⟩
      · exact {
          sound := hw
          space := by rw [hspace, hsplit]
          spaces' := rfl
          spaces'' := by simp
          laid' := ⟨_, hlaid'⟩
          laid'' := ⟨_, by simpa using hlaid''⟩
          mid := by simp
          merges := Merges.extendPrev hok hmerged.size hasked hend hrange hext
          nonempty := by simp
          single := by simp
          kept := hkept
          newAmp := hnewAmp
          empty := hempty
          pageprot := hpageprot }
      · rw [hiff]
        exact keeps_extendPrev hw hmerged.size hspace hsIn hext rfl
    · have hnIn : n ∈ space := by
        rw [hsplit]
        simp
      obtain ⟨_, _, _, _, _, hamp, hamp', _, _, hq'⟩ := segvnConcat_cases hconcat
      have hprevAmp : s.amp = none ∧ q.1 = w.heap.anonResv (newSwresv a sSize) := by
        obtain ⟨_, _, _, _, _, _, hprevCases⟩ := segvnExtendPrev_cases hext
        rcases hprevCases with ⟨hnone, rfl⟩ | ⟨k, m, hk, _, _, rfl⟩
        · exact ⟨hnone, rfl⟩
        · have hgrown : (((w.heap.anonResv (newSwresv a sSize)).growBehind k m s
              sSize).2.growUp sSize (newSwresv a sSize)).amp = s.amp := by
            unfold growBehind
            split
            · rfl
            · rfl
          rw [hgrown, hk] at hamp
          cases hamp
      refine ⟨_, init, rest, [s, n], [s, q₀.2, n], q₀.2, q'.2, hseparate, ?_, ?_⟩
      · exact {
          sound := hw
          space := by rw [hspace, hsplit]; simp
          spaces' := rfl
          spaces'' := by simp
          laid' := ⟨_, hlaid'⟩
          laid'' := ⟨_, by simpa using hlaid''⟩
          mid := by
            simp only [mem_cons, not_mem_nil, or_false]
            tauto
          merges := Merges.concat hok hasked hend hnext (hw.segs n (hmem n hnIn)) hext hconcat
          nonempty := by simp
          single := by
            intro t ht t' _ hne
            refine absurd ?_ hne
            rcases mem_pair.mp ht with rfl | rfl
            · exact hprevAmp.1
            · exact hamp'
          kept := hkept
          newAmp := hnewAmp
          empty := hempty
          pageprot := hpageprot }
      · rw [hiff]
        refine iff_of_true ?_ ?_
        · intro k m hm _
          refine ⟨m, ?_, rfl, fun _ => rfl⟩
          rw [hq', ← hm]
          rw [hprevAmp.2]
          rfl
        · rintro ⟨k, hk, _⟩
          rw [hprevAmp.1] at hk
          cases hk
  · have hnIn : n ∈ space := by
      rw [hsplit]
      simp
    refine ⟨_, before, rest, [n], [q₀.2, n], q₀.2, q.2, hseparate, ?_, ?_⟩
    · exact {
        sound := hw
        space := by rw [hspace, hsplit]; simp
        spaces' := rfl
        spaces'' := by simp
        laid' := ⟨_, hlaid'⟩
        laid'' := ⟨_, by simpa using hlaid''⟩
        mid := by
          simp only [mem_cons, not_mem_nil, or_false]
          tauto
        merges := Merges.extendNext (hw.segs n (hmem n hnIn)) hasked hnext hext
        nonempty := by simp
        single := by simp
        kept := hkept
        newAmp := hnewAmp
        empty := hempty
        pageprot := hpageprot }
    · refine iff_of_true ?_ ?_
      · intro k m hm helse
        refine ⟨m, ?_, rfl, fun _ => rfl⟩
        obtain ⟨_, _, _, _, _, _, hnextCases⟩ := segvnExtendNext_cases hext
        rcases hnextCases with ⟨_, rfl⟩ | ⟨k', m', hk', hm', hone, rfl⟩
        · exact hm
        · have hne : k ≠ k' := by
            rintro rfl
            have htwice := hw.held_twice hspace hnIn hk' hm' helse
            omega
          unfold growBefore
          split
          · change update w.heap.amps k' _ k = some m
            rw [update_of_ne hne, hm]
          · change update w.heap.amps k' _ k = some m
            rw [update_of_ne hne, hm]
      · rintro ⟨space', s, k, hspace', hlast, hend, hprevExt, _, _⟩
        cases hspace.symm.trans hspace'
        rw [hbeforeEq] at hlast
        obtain ⟨q', hq'⟩ := hprevExt.extends sSize (newSwresv a sSize)
        unfold mergePrev at hprev
        rw [hlast, filter_some, if_pos (by simpa using hend), bind_some, hq'] at hprev
        cases hprev

theorem Merged.step {env : CreateEnv} (hmerged : w.Merged i sBase sSize a env w') :
    w.exec (.map i sBase sSize a env) = some w' := by
  obtain ⟨space, r, hspace, hafter, hmerge, rfl⟩ := hmerged.space
  obtain ⟨hresv, hhat, haddmap, hkas⟩ := hmerged.envs
  have hfree : ¬ (sSize = 0 ∨ (space.dropWhile fun s => s.sEnd ≤ sBase).head?.any
      fun s => s.sBase < sBase + sSize) := by
    rintro (hzero | hover)
    · exact absurd hmerged.size (by omega)
    · obtain ⟨s, hs, hlt⟩ := (any_eq_true _ _).mp hover
      have hle := hafter s hs
      have hlt := of_decide_eq_true hlt
      omega
  have hgiven : w.given a = true := by
    unfold given
    rw [hmerged.anonMap]
  have hready : ¬ (newSwresv a sSize ≠ 0 ∧ ¬ env.anonResv) := by
    rintro ⟨hne, hnot⟩
    exact hnot (hresv hne)
  have hmaps : ¬ (¬ env.hatMap ∨ ¬ env.addmap) := by
    rintro (hnot | hnot)
    · exact hnot hhat
    · exact hnot haddmap
  have hcreate : w.heap.asMap space sBase sSize a env = some r := by
    unfold asMap segvnCreate
    simp only [if_neg hfree, if_neg hready, if_neg hmaps, if_pos (And.intro hmerged.anonMap hkas),
      hmerge]
  change (if w.given a = true then _ else _) = _
  rw [if_pos hgiven]
  unfold onSpace
  simp only [hspace, hcreate]

/-- A merging of neighbours is invisible, unless it extends a previous segment whose map
is held elsewhere. -/
theorem merge_invisible_iff {w w' : World} (hw : Reachable Start Step w)
    {i sBase sSize : Nat} {a : Crargs} {env : CreateEnv}
    (hmerged : w.Merged i sBase sSize a env w') : w.exec (.map i sBase sSize a env) = some w' ∧
      ((∃ w'', w.separate i sBase sSize a env = some w'' ∧ w.Invisible i w' w'') ↔
        ¬ w.ExtendsHeld i sBase a) := by
  have hsound := Sound.reachable hw
  refine ⟨hmerged.step, ?_⟩
  obtain ⟨w'', front, back, olds, mid, new, merged, hseparate, hscene, hkeeps⟩ :=
    hmerged.scene hsound
  rw [← hkeeps]
  constructor
  · rintro ⟨w₂, hw₂, hinv⟩
    exact hinv.held
  · intro hkept
    exact ⟨w'', hseparate, hscene.visible, fun _ _ _ _ => hscene.shares, hkept⟩

/-!
## A mapping next to a shared memory segment
-/

def attached : World :=
  after [.asAlloc, .shmget 1 true,
    .map 0 0 1 { zfod .shared 7 with amp := some 0 } calm, .shmhold 0]

def extended : World := (attached.exec (.map 0 1 1 (zfod .shared 7) calm)).getD attached

theorem attached_merged : attached.Merged 0 1 1 (zfod .shared 7) calm extended where
  anonMap := rfl
  envs := ⟨fun _ => rfl, rfl, rfl, by decide⟩
  size := by decide
  space := ⟨_, _, rfl, by decide, rfl, rfl⟩

/-- The page is mapped behind a page that only this address space maps. -/
def alone : World := after [.asAlloc, .map 0 0 1 (zfod .shared 7) calm]

theorem merge_invisible_iff_alone : alone.exec (.map 0 1 1 (zfod .shared 7) calm) =
        some ((alone.exec (.map 0 1 1 (zfod .shared 7) calm)).getD alone) ∧
      ((∃ w'', alone.separate 0 1 1 (zfod .shared 7) calm = some w'' ∧
        alone.Invisible 0 ((alone.exec (.map 0 1 1 (zfod .shared 7) calm)).getD alone) w'') ↔
        ¬ alone.ExtendsHeld 0 1 (zfod .shared 7)) :=
  merge_invisible_iff (after_reachable _)
    { anonMap := rfl
      envs := ⟨fun _ => rfl, rfl, rfl, by decide⟩
      size := by decide
      space := ⟨_, _, rfl, by decide, rfl, rfl⟩ }

/-- The map of the identifier grows: whoever attaches it next maps all of it. -/
theorem merge_grows_held : ¬ ∀ w : World, Reachable Start Step w → ∀ i sBase sSize a env w',
      w.Merged i sBase sSize a env w' →
      ∃ w'', w.separate i sBase sSize a env = some w'' ∧ w.Invisible i w' w'' := by
  intro hall
  obtain ⟨w'', _, hinv⟩ := hall attached (after_reachable _) 0 1 1 (zfod .shared 7) calm
    extended attached_merged
  have hold : (attached.heap.amps 0).map AnonMap.size = some 1 := rfl
  have hnew : (extended.heap.amps 0).map AnonMap.size = some 18 := rfl
  obtain ⟨m, hm, hsize⟩ := map_eq_some_iff.mp hold
  obtain ⟨m', hm', hsize', _⟩ := hinv.held 0 m hm (.inl (by decide))
  rw [hm', map_some, hsize', hsize] at hnew
  exact absurd hnew (by decide)

end World

end Segvn
end Svr4
