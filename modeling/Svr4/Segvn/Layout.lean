import Svr4.Segvn.Creation

/-!
# The segments of an address space

The segments of an address space lie one behind the other and do not overlap.
-/

namespace Svr4
namespace Segvn

open Segvn.Heap Option

/-- Segments one behind the other between two addresses. -/
def Laid (lo : Nat) : List Seg → Nat → Prop
  | [], hi => lo ≤ hi
  | s :: rest, hi => lo ≤ s.sBase ∧ Laid s.sEnd rest hi

section Laid

variable {lo hi lo' hi' p : Nat} {before after old new : List Seg} {s : Seg}

theorem Seg.sBase_le_sEnd (s : Seg) : s.sBase ≤ s.sEnd := Nat.le_add_right _ _

theorem Laid.le (h : Laid lo old hi) : lo ≤ hi := by
  induction old generalizing lo with
  | nil => exact h
  | cons s rest ih => exact le_trans h.1 (le_trans s.sBase_le_sEnd (ih h.2))

theorem Laid.widen (h : Laid lo old hi) (hlo : lo' ≤ lo) (hhi : hi ≤ hi') : Laid lo' old hi' := by
  induction old generalizing lo lo' with
  | nil => exact le_trans hlo (le_trans h hhi)
  | cons s rest ih => exact ⟨le_trans hlo h.1, ih h.2 (le_refl _)⟩

theorem laid_append :
    Laid lo (before ++ after) hi ↔ ∃ mid, Laid lo before mid ∧ Laid mid after hi := by
  induction before generalizing lo with
  | nil =>
    constructor
    · exact fun h => ⟨lo, le_refl lo, h⟩
    · rintro ⟨mid, hle, h⟩
      exact h.widen hle (le_refl hi)
  | cons s rest ih =>
    constructor
    · rintro ⟨hlo, hrest⟩
      obtain ⟨mid, hleft, hright⟩ := ih.mp hrest
      exact ⟨mid, ⟨hlo, hleft⟩, hright⟩
    · rintro ⟨mid, ⟨hlo, hleft⟩, hright⟩
      exact ⟨hlo, ih.mpr ⟨mid, hleft, hright⟩⟩

theorem laid_singleton : Laid lo [s] hi ↔ lo ≤ s.sBase ∧ s.sEnd ≤ hi := Iff.rfl

theorem Laid.replace (h : Laid lo (before ++ old ++ after) hi)
    (hnew : ∀ lo hi, Laid lo old hi → Laid lo new hi) : Laid lo (before ++ new ++ after) hi := by
  obtain ⟨mid, hleft, hafter⟩ := laid_append.mp h
  obtain ⟨mid', hbefore, hold⟩ := laid_append.mp hleft
  exact laid_append.mpr ⟨mid, laid_append.mpr ⟨mid', hbefore, hnew _ _ hold⟩, hafter⟩

theorem Laid.mem (h : Laid lo old hi) (hs : s ∈ old) : lo ≤ s.sBase ∧ s.sEnd ≤ hi := by
  induction old generalizing lo with
  | nil => cases hs
  | cons t rest ih =>
    rcases List.mem_cons.mp hs with rfl | hs
    · exact ⟨h.1, h.2.le⟩
    · obtain ⟨hlo, hhi⟩ := ih h.2 hs
      exact ⟨le_trans h.1 (le_trans t.sBase_le_sEnd hlo), hhi⟩

theorem Laid.cut_right (h : Laid lo old hi) (hlo : lo ≤ hi')
    (hends : ∀ s ∈ old, s.sEnd ≤ hi') : Laid lo old hi' := by
  induction old generalizing lo with
  | nil => exact hlo
  | cons s rest ih =>
    exact ⟨h.1, ih h.2 (hends s List.mem_cons_self) fun t ht => hends t (List.mem_cons_of_mem s ht)⟩

theorem Laid.cut_left (h : Laid lo old hi) (hhead : ∀ s ∈ old.head?, lo' ≤ s.sBase) :
    ∃ hi', Laid lo' old hi' := by
  cases old with
  | nil => exact ⟨lo', le_refl lo'⟩
  | cons s rest => exact ⟨hi, hhead s rfl, h.2⟩

theorem Laid.unique (h : Laid lo (before ++ s :: after) hi) (hp : s.contains p = true) :
    (∀ t ∈ before, t.contains p = false) ∧ ∀ t ∈ after, t.contains p = false := by
  obtain ⟨mid, hbefore, hs⟩ := laid_append.mp h
  have hp : s.sBase ≤ p ∧ p < s.sEnd := of_decide_eq_true hp
  constructor
  · intro t ht
    have hend := (hbefore.mem ht).2
    have hbase := hs.1
    exact decide_eq_false fun hcontains => by omega
  · intro t ht
    have hbase := (hs.2.mem ht).1
    exact decide_eq_false fun hcontains => by omega

end Laid

/-!
## Operations
-/

variable {r : Heap × List Seg} {space before after new : List Seg} {size sBase sSize : Nat}
  {a : Crargs} {swresv : Int} {q : Heap × Seg}

section Operations

variable {h : Heap} {s : Seg} {lo hi : Nat}

theorem Laid.segvnUnmap {addr len : Nat} (hlo : s.sBase ≤ addr) (hhi : addr + len ≤ s.sEnd)
    (hunmap : h.segvnUnmap s addr len = some r) (hlaid : Laid lo [s] hi) : Laid lo r.2 hi := by
  have hend : s.sEnd = s.sBase + s.sSize := rfl
  obtain ⟨hbase, hle⟩ := laid_singleton.mp hlaid
  rcases segvnUnmap_cases hlo hhi hunmap with
    ⟨_, _, rfl⟩ | ⟨_, _, rfl⟩ | ⟨_, _, _, rfl⟩ | ⟨_, _, hmiddle⟩
  · exact hlaid.le
  · refine laid_singleton.mpr ⟨?_, ?_⟩
    · change lo ≤ s.sBase + len
      omega
    · change s.sBase + len + (s.sSize - len) ≤ hi
      omega
  · refine laid_singleton.mpr ⟨hbase, ?_⟩
    change s.sBase + (s.sSize - len) ≤ hi
    omega
  · obtain ⟨_, rfl⟩ := unmapMiddle_cases hmiddle
    refine ⟨hbase, ?_, ?_⟩
    · change s.sBase + (addr - s.sBase) ≤ addr + len
      omega
    · change addr + len + (s.sEnd - (addr + len)) ≤ hi
      omega

theorem Laid.asUnmap {raddr eaddr : Nat} (hle : raddr ≤ eaddr)
    (hunmap : h.asUnmap raddr eaddr space = some r)
    (hlaid : Laid lo space hi) : Laid lo r.2 hi := by
  have hall : ∀ lo hi, Laid lo space hi → Laid lo r.2 hi := by
    refine asUnmap_rule (P := fun _ l _ l' => ∀ lo hi, Laid lo l hi → Laid lo l' hi)
      ?_ ?_ ?_ space h raddr r hle hunmap
    · exact fun _ _ _ _ hlaid => hlaid
    · exact fun _ _ _ _ _ hrest _ _ hlaid => ⟨hlaid.1, hrest _ _ hlaid.2⟩
    · intro h s addr len h₁ pieces rest h' rest' hlo hhi hseg hrest lo hi hlaid
      have hhead : Laid lo [s] s.sEnd := ⟨hlaid.1, le_refl _⟩
      exact laid_append.mpr ⟨s.sEnd, Laid.segvnUnmap hlo hhi hseg hhead, hrest _ _ hlaid.2⟩
  exact hall lo hi hlaid

theorem Laid.gap {base : Nat} (hlaid : Laid 0 (before ++ after) hi)
    (hbefore : ∀ s ∈ before, s.sEnd ≤ base) (hafter : ∀ s ∈ after.head?, base + size ≤ s.sBase) :
    Laid 0 before base ∧ ∃ hi', Laid (base + size) after hi' := by
  obtain ⟨mid, hleft, hright⟩ := laid_append.mp hlaid
  exact ⟨hleft.cut_right (Nat.zero_le _) hbefore, hright.cut_left hafter⟩

theorem Heap.segvnExtendPrev_extent (hext : h.segvnExtendPrev s size a swresv = some q) :
    q.2.sBase = s.sBase ∧ q.2.sEnd = s.sEnd + size := by
  have hend : s.sEnd = s.sBase + s.sSize := rfl
  obtain ⟨_, _, _, _, _, _, hcases⟩ := segvnExtendPrev_cases hext
  rcases hcases with ⟨_, rfl⟩ | ⟨k, m, _, _, _, rfl⟩
  · refine ⟨rfl, ?_⟩
    change s.sBase + (s.sSize + size) = s.sEnd + size
    omega
  · unfold growBehind
    split
    · refine ⟨rfl, ?_⟩
      change s.sBase + (s.sSize + size) = s.sEnd + size
      omega
    · refine ⟨rfl, ?_⟩
      change s.sBase + (s.sSize + size) = s.sEnd + size
      omega

theorem Heap.segvnExtendNext_extent (hsize : size ≤ s.sBase)
    (hext : h.segvnExtendNext s size a swresv = some q) :
    q.2.sBase = s.sBase - size ∧ q.2.sEnd = s.sEnd := by
  have hend : s.sEnd = s.sBase + s.sSize := rfl
  obtain ⟨_, _, _, _, _, _, hcases⟩ := segvnExtendNext_cases hext
  rcases hcases with ⟨_, rfl⟩ | ⟨k, m, _, _, _, rfl⟩
  · refine ⟨rfl, ?_⟩
    change s.sBase - size + (s.sSize + size) = s.sEnd
    omega
  · unfold growBefore
    split
    · refine ⟨rfl, ?_⟩
      change s.sBase - size + (s.sSize + size) = s.sEnd
      omega
    · refine ⟨rfl, ?_⟩
      change s.sBase - size + (s.sSize + size) = s.sEnd
      omega

theorem Heap.segvnConcat_extent {s₁ s₂ : Seg} (hnext : s₁.sEnd = s₂.sBase)
    (hconcat : h.segvnConcat s₁ s₂ = some q) : q.2.sBase = s₁.sBase ∧ q.2.sEnd = s₂.sEnd := by
  obtain ⟨_, _, _, _, _, _, _, _, _, rfl⟩ := segvnConcat_cases hconcat
  refine ⟨rfl, ?_⟩
  change s₁.sBase + (s₁.sSize + s₂.sSize) = s₂.sBase + s₂.sSize
  unfold Seg.sEnd at hnext
  omega

theorem Heap.createSeg_seg {anonZero : Nat → Nat}
    (hcreate : h.createSeg sBase sSize a swresv anonZero = some q) :
    ∃ index amp, q.2 = a.newSeg sBase sSize swresv index amp := by
  unfold createSeg at hcreate
  cases ha : a.amp with
  | none =>
    simp only [ha] at hcreate
    split at hcreate
    · rw [← some.inj hcreate]
      exact ⟨_, _, rfl⟩
    · rw [← some.inj hcreate]
      exact ⟨_, _, rfl⟩
  | some k =>
    simp only [ha] at hcreate
    cases hm : h.amps k with
    | none =>
      simp only [hm] at hcreate
      cases hcreate
    | some m =>
      simp only [hm] at hcreate
      split at hcreate
      · cases hcreate
      · split at hcreate
        · rw [← some.inj hcreate]
          exact ⟨_, _, rfl⟩
        · rw [← some.inj hcreate]
          exact ⟨_, _, rfl⟩

theorem Laid.merge (hbefore : Laid 0 before sBase) (hafter : Laid (sBase + sSize) after hi)
    (hmerge : h.merge before after sBase sSize a swresv = some r) : Laid 0 r.2 hi := by
  rcases merge_cases hmerge with
    ⟨init, s, q, rfl, hend, hext, hcases⟩ | ⟨_, n, rest, q, rfl, hnext, hext, rfl⟩
  · obtain ⟨mid, hinit, hs⟩ := laid_append.mp hbefore
    obtain ⟨hqbase, hqend⟩ := segvnExtendPrev_extent hext
    rcases hcases with rfl | ⟨n, rest, q', rfl, hnext, hconcat, rfl⟩
    · have hq : Laid mid [q.2] (sBase + sSize) := by
        refine laid_singleton.mpr ⟨?_, ?_⟩
        · rw [hqbase]
          exact hs.1
        · rw [hqend, hend]
      exact laid_append.mpr ⟨_, laid_append.mpr ⟨mid, hinit, hq⟩, hafter⟩
    · obtain ⟨hqbase', hqend'⟩ := segvnConcat_extent hnext hconcat
      have hq : Laid mid [q'.2] n.sEnd := by
        refine laid_singleton.mpr ⟨?_, le_of_eq hqend'⟩
        rw [hqbase', hqbase]
        exact hs.1
      exact laid_append.mpr ⟨_, laid_append.mpr ⟨mid, hinit, hq⟩, hafter.2⟩
  · obtain ⟨hqbase, hqend⟩ := segvnExtendNext_extent (by omega) hext
    have hq : Laid sBase [q.2] n.sEnd := by
      refine laid_singleton.mpr ⟨?_, le_of_eq hqend⟩
      omega
    exact laid_append.mpr ⟨_, laid_append.mpr ⟨sBase, hbefore, hq⟩, hafter.2⟩

theorem Laid.asMap {env : CreateEnv} (hlaid : Laid 0 space hi)
    (hmap : h.asMap space sBase sSize a env = some r) : ∃ hi', Laid 0 r.2 hi' := by
  rcases asMap_cases hmap with rfl | ⟨before, after, rfl, hbefore, hafter, _, hcreate⟩
  · exact ⟨hi, hlaid⟩
  · obtain ⟨hleft, hi', hright⟩ := hlaid.gap hbefore hafter
    rcases segvnCreate_cases hcreate with rfl | ⟨_, hmerge⟩ | ⟨q, hseg, rfl⟩
    · exact ⟨hi, hlaid⟩
    · exact ⟨hi', Laid.merge hleft hright hmerge⟩
    · obtain ⟨index, amp, hq⟩ := createSeg_seg hseg
      have hnew : Laid sBase [q.2] (sBase + sSize) := by
        rw [hq]
        exact ⟨le_refl _, le_refl _⟩
      exact ⟨hi', laid_append.mpr ⟨_, laid_append.mpr ⟨sBase, hleft, hnew⟩, hright⟩⟩

theorem World.insert_cases (hinsert : World.insert space s = some new) :
    ∃ before after, space = before ++ after ∧ (∀ t ∈ before, t.sEnd ≤ s.sBase) ∧
      (∀ t ∈ after.head?, s.sEnd ≤ t.sBase) ∧ new = before ++ [s] ++ after := by
  unfold World.insert at hinsert
  simp only at hinsert
  split at hinsert
  · cases hinsert
  · rename_i hfree
    refine ⟨space.takeWhile fun t => t.sEnd ≤ s.sBase,
      space.dropWhile fun t => t.sEnd ≤ s.sBase, List.takeWhile_append_dropWhile.symm,
      ?_, ?_, ?_⟩
    · intro t ht
      simpa using List.mem_takeWhile_imp ht
    · intro t ht
      by_contra hlt
      refine hfree ?_
      rw [Option.mem_def.mp ht]
      simpa using hlt
    · rw [← some.inj hinsert]
      simp

theorem Laid.insert (hlaid : Laid 0 space hi)
    (hinsert : World.insert space s = some new) : ∃ hi', Laid 0 new hi' := by
  obtain ⟨before, after, rfl, hbefore, hafter, rfl⟩ := World.insert_cases hinsert
  obtain ⟨hleft, hi', hright⟩ := hlaid.gap hbefore hafter
  have hnew : Laid s.sBase [s] s.sEnd := ⟨le_refl _, le_refl _⟩
  exact ⟨hi', laid_append.mpr ⟨_, laid_append.mpr ⟨s.sBase, hleft, hnew⟩, hright⟩⟩

theorem Laid.same {s' : Seg} (hbase : s'.sBase = s.sBase) (hsize : s'.sSize = s.sSize)
    (hlaid : Laid lo [s] hi) : Laid lo [s'] hi := by
  have hend : s'.sEnd = s.sEnd := by
    unfold Seg.sEnd
    rw [hbase, hsize]
  refine laid_singleton.mpr ⟨?_, ?_⟩
  · rw [hbase]
    exact hlaid.1
  · rw [hend]
    exact hlaid.2

theorem Seg.segvnVpage_extent (s : Seg) :
    s.segvnVpage.sBase = s.sBase ∧ s.segvnVpage.sSize = s.sSize := by
  obtain ⟨_, _, heq⟩ := s.segvnVpage_eq
  rw [heq]
  exact ⟨rfl, rfl⟩

theorem Heap.segvnSetprot_extent (h : Heap) (s : Seg) (addr len : Nat) (prot : Prot)
    (resv : Bool) (done : Nat) : (h.segvnSetprot s addr len prot resv done).2.sBase = s.sBase ∧
      (h.segvnSetprot s addr len prot resv done).2.sSize = s.sSize := by
  have hpages : ∀ (h : Heap) (s : Seg), (h.setprotPages s addr len prot done).2.sBase = s.sBase ∧
        (h.setprotPages s addr len prot done).2.sSize = s.sSize := by
    intro h s
    unfold setprotPages
    split
    · split
      · exact ⟨rfl, rfl⟩
      · exact ⟨rfl, rfl⟩
    · exact s.segvnVpage_extent
  have hresv : (h.setprotResv s prot).2.sBase = s.sBase ∧
      (h.setprotResv s prot).2.sSize = s.sSize := by
    unfold setprotResv
    split
    · exact ⟨rfl, rfl⟩
    · exact ⟨rfl, rfl⟩
  unfold segvnSetprot
  split
  · exact ⟨rfl, rfl⟩
  · split
    · exact ⟨rfl, rfl⟩
    · obtain ⟨hbase, hsize⟩ := hpages (h.setprotResv s prot).1 (h.setprotResv s prot).2
      exact ⟨hbase.trans hresv.1, hsize.trans hresv.2⟩

theorem Heap.segvnFault_extent (h : Heap) (s : Seg) (page : Nat) (write : Bool)
    (ap : Option Nat) (swresv : Int) : (h.segvnFault s page write ap swresv).2.sBase = s.sBase ∧
      (h.segvnFault s page write ap swresv).2.sSize = s.sSize := by
  unfold segvnFault
  split
  · exact ⟨rfl, rfl⟩
  · exact ⟨rfl, rfl⟩

theorem Heap.segvnLock_extent (h : Heap) (s : Seg) (addr len : Nat) (locks : Nat → Bool)
    (swresv : Int) : (h.segvnLock s addr len locks swresv).2.sBase = s.sBase ∧
      (h.segvnLock s addr len locks swresv).2.sSize = s.sSize := by
  unfold segvnLock
  simp only
  split
  · exact s.segvnVpage_extent
  · exact s.segvnVpage_extent

end Operations

end Segvn
end Svr4
