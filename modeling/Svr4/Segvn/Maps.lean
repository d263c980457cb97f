import Mathlib.Order.Lattice
import Svr4.Segvn.Model

/-!
# Who refers to an anon map

The count of an anon map is that of the segments and of the shared memory
identifiers that refer to it, segments only refer to slots that there are, and
private mappings of one map refer to different slots.  Every operation keeps this;
what it does to some segments does not depend on the others.
-/

namespace Svr4
namespace Segvn

open Function List

/-!
## The users of a map
-/

def users (segs : List Seg) (k : Nat) : List Seg :=
  segs.filter fun s => decide (s.amp = some k)

@[simp] theorem users_nil (k : Nat) : users [] k = [] := rfl

theorem users_append (l₁ l₂ : List Seg) (k : Nat) : users (l₁ ++ l₂) k = users l₁ k ++ users l₂ k :=
  filter_append _ _

variable {s s' : Seg} {k : Nat}

theorem users_self (h : s.amp = some k) : users [s] k = [s] := by
  simp [users, h]

theorem users_other (h : s.amp ≠ some k) : users [s] k = [] := by
  simp [users, h]

variable {l : List Seg}

theorem mem_users : s ∈ users l k ↔ s ∈ l ∧ s.amp = some k := by
  simp [users]

theorem users_all (h : ∀ s ∈ l, s.amp = some k) : users l k = l :=
  filter_eq_self.mpr fun s hs => decide_eq_true (h s hs)

theorem users_all_other {j : Nat} (h : ∀ s ∈ l, s.amp = some k) (hne : j ≠ k) : users l j = [] := by
  refine filter_eq_nil_iff.mpr fun s hs => ?_
  simpa [h s hs] using hne.symm

theorem users_mapless (h : ∀ s ∈ l, s.amp = none) : users l k = [] := by
  refine filter_eq_nil_iff.mpr fun s hs => ?_
  simp [h s hs]

def Seg.covers (i : Nat) (s : Seg) : Bool :=
  decide (s.type = .priv ∧ s.anonIndex ≤ i ∧ i < s.anonIndex + s.sSize)

structure MapOk (m : AnonMap) (shm : Nat) (l : List Seg) : Prop where
  refcnt : m.refcnt = l.length + shm
  live : 0 < m.refcnt
  nonempty : ∀ s ∈ l, 0 < s.sSize
  range : ∀ s ∈ l, s.anonIndex + s.sSize ≤ m.size
  unshared : ∀ s ∈ l, s.type = .priv → shm = 0
  type : ∀ s ∈ l, ∀ t ∈ l, s.type = t.type
  apart : ∀ i, l.countP (Seg.covers i) ≤ 1

def AmpOk (m : Option AnonMap) (shm : Nat) (l : List Seg) : Prop :=
  match m with
  | none => l = [] ∧ shm = 0
  | some m => MapOk m shm l

theorem AmpOk.perm {m : Option AnonMap} {shm : Nat} {l' : List Seg} (h : AmpOk m shm l)
    (hp : l.Perm l') : AmpOk m shm l' := by
  cases m with
  | none => exact ⟨List.Perm.eq_nil (h.1 ▸ hp).symm, h.2⟩
  | some m =>
    refine ⟨?_, h.live, ?_, ?_, ?_, ?_, ?_⟩
    · rw [h.refcnt, hp.length_eq]
    · exact fun s hs => h.nonempty s (hp.mem_iff.mpr hs)
    · exact fun s hs => h.range s (hp.mem_iff.mpr hs)
    · exact fun s hs => h.unshared s (hp.mem_iff.mpr hs)
    · exact fun s hs t ht => h.type s (hp.mem_iff.mpr hs) t (hp.mem_iff.mpr ht)
    · intro i
      rw [← hp.countP_eq]
      exact h.apart i

section MapOk

variable {m m' : AnonMap} {shm shm' : Nat} {old new rest : List Seg}

theorem MapOk.replace (h : MapOk m shm (old ++ rest))
    (hrefcnt : m'.refcnt = (new ++ rest).length + shm') (hlive : 0 < m'.refcnt)
    (hsize : rest ≠ [] → m.size ≤ m'.size) (hpos : ∀ s ∈ new, 0 < s.sSize)
    (hrange : ∀ s ∈ new, s.anonIndex + s.sSize ≤ m'.size)
    (hshm : ∀ s ∈ new ++ rest, s.type = .priv → shm' = 0)
    (htype : ∀ s ∈ new, ∀ t ∈ new ++ rest, s.type = t.type)
    (hcovers : ∀ i, rest ≠ [] → new.countP (Seg.covers i) ≤ old.countP (Seg.covers i))
    (honce : rest = [] → ∀ i, new.countP (Seg.covers i) ≤ 1) : MapOk m' shm' (new ++ rest) where
  refcnt := hrefcnt
  live := hlive
  nonempty s hs := by
    rcases mem_append.mp hs with hs | hs
    · exact hpos s hs
    · exact h.nonempty s (mem_append_right _ hs)
  range s hs := by
    rcases mem_append.mp hs with hs | hs
    · exact hrange s hs
    · exact le_trans (h.range s (mem_append_right _ hs)) (hsize (ne_nil_of_mem hs))
  unshared := hshm
  type s hs t ht := by
    rcases mem_append.mp hs with hs | hs
    · exact htype s hs t ht
    · rcases mem_append.mp ht with ht | ht
      · exact (htype t ht s (mem_append_right _ hs)).symm
      · exact h.type s (mem_append_right _ hs) t (mem_append_right _ ht)
  apart i := by
    rw [countP_append]
    have hold := h.apart i
    rw [countP_append] at hold
    by_cases hrest : rest = []
    · subst hrest
      have hle := honce rfl i
      simpa using hle
    · have hle := hcovers i hrest
      omega

theorem MapOk.type_of (h : MapOk m shm ([s] ++ rest)) (hs : s'.type = s.type) :
    ∀ t ∈ rest, s'.type = t.type := by
  intro t ht
  rw [hs]
  exact h.type s (mem_append_left _ (mem_singleton_self s)) t (mem_append_right _ ht)

theorem MapOk.rest_nil_of_refcnt (h : MapOk m shm ([s] ++ rest))
    (hone : m.refcnt ≤ 1) : rest = [] ∧ shm = 0 := by
  have hcount := h.refcnt
  rw [length_append, length_singleton] at hcount
  exact ⟨eq_nil_of_length_eq_zero (by omega), by omega⟩

theorem Seg.covers_of_le {i : Nat} (htype : s'.type = s.type) (hlo : s.anonIndex ≤ s'.anonIndex)
    (hhi : s'.anonIndex + s'.sSize ≤ s.anonIndex + s.sSize) (h : s'.covers i = true) :
    s.covers i = true := by
  unfold Seg.covers at *
  rw [decide_eq_true_eq] at *
  rw [htype] at h
  exact ⟨h.1, by omega, by omega⟩

theorem countP_covers_le (i : Nat) (h : s'.covers i = true → s.covers i = true) :
    [s'].countP (Seg.covers i) ≤ [s].countP (Seg.covers i) := by
  rw [countP_singleton, countP_singleton]
  by_cases hc : s'.covers i = true
  · rw [if_pos hc, if_pos (h hc)]
  · rw [if_neg hc]
    exact Nat.zero_le _

theorem countP_singleton_le (s : Seg) (i : Nat) : [s].countP (Seg.covers i) ≤ 1 := by
  rw [countP_singleton]
  split <;> omega

theorem MapOk.shrink (h : MapOk m shm ([s] ++ rest)) (htype : s'.type = s.type)
    (hpos : 0 < s'.sSize) (hlo : s.anonIndex ≤ s'.anonIndex)
    (hhi : s'.anonIndex + s'.sSize ≤ s.anonIndex + s.sSize) : MapOk m shm ([s'] ++ rest) := by
  have hmem : s ∈ [s] ++ rest := mem_append_left _ (mem_singleton_self s)
  refine h.replace h.refcnt h.live (fun _ => le_refl _) ?_ ?_ ?_ ?_ ?_ ?_
  · intro t ht
    rw [mem_singleton.mp ht]
    exact hpos
  · intro t ht
    rw [mem_singleton.mp ht]
    exact le_trans hhi (h.range s hmem)
  · intro t ht hpriv
    rcases mem_append.mp ht with ht | ht
    · rw [mem_singleton.mp ht, htype] at hpriv
      exact h.unshared s hmem hpriv
    · exact h.unshared t (mem_append_right _ ht) hpriv
  · intro t ht u hu
    rw [mem_singleton.mp ht]
    rcases mem_append.mp hu with hu | hu
    · rw [mem_singleton.mp hu]
    · exact h.type_of htype u hu
  · exact fun i _ => countP_covers_le i (Seg.covers_of_le htype hlo hhi)
  · exact fun _ i => countP_singleton_le s' i

theorem MapOk.single (hrefcnt : m.refcnt = 1) (hpos : 0 < s.sSize)
    (hsize : s.anonIndex + s.sSize ≤ m.size) : MapOk m 0 [s] where
  refcnt := hrefcnt
  live := by omega
  nonempty t ht := by
    rw [mem_singleton.mp ht]
    exact hpos
  range t ht := by
    rw [mem_singleton.mp ht]
    exact hsize
  unshared _ _ _ := rfl
  type t ht u hu := by rw [mem_singleton.mp ht, mem_singleton.mp hu]
  apart i := countP_singleton_le s i

def AnonMap.shape (m : AnonMap) : Nat × Nat := (m.refcnt, m.size)

theorem AmpOk.reshape {m m' : Option AnonMap} (h : AmpOk m shm rest)
    (hshape : m'.map AnonMap.shape = m.map AnonMap.shape) : AmpOk m' shm rest := by
  cases m with
  | none =>
    have hnone : m' = none := by simpa using hshape
    rw [hnone]
    exact h
  | some m =>
    rcases Option.map_eq_some_iff.mp hshape with ⟨m', rfl, heq⟩
    have hrefcnt : m'.refcnt = m.refcnt := congrArg Prod.fst heq
    have hsize : m'.size = m.size := congrArg Prod.snd heq
    exact ⟨hrefcnt.trans h.refcnt, hrefcnt ▸ h.live, h.nonempty, hsize ▸ h.range,
      h.unshared, h.type, h.apart⟩

end MapOk

/-!
## What an operation does to some segments
-/

/-- A segment by itself. -/
structure Seg.Ok (s : Seg) : Prop where
  size : 0 < s.sSize
  index : s.amp = none → s.anonIndex = 0
  noVpage : s.vpage = none → s.pageprot = false
  vpage : ∀ l, s.vpage = some l → s.pageprot = true ∧ l.length = s.sSize

def Heap.Fresh (h : Heap) : Prop := ∀ k, h.nextAmp ≤ k → h.amps k = none

/--
Some segments are replaced by others, whatever the other segments are: the maps
stay as they should be.
-/
structure Moves (h : Heap) (shm : Nat → Nat) (old : List Seg) (h' : Heap)
    (shm' : Nat → Nat) (new : List Seg) : Prop where
  fresh : h.Fresh → h'.Fresh
  ok : (∀ s ∈ old, s.Ok) → ∀ s ∈ new, s.Ok
  maps : h.Fresh → (∀ s ∈ old, s.Ok) → ∀ k rest, AmpOk (h.amps k) (shm k) (users old k ++ rest) →
    AmpOk (h'.amps k) (shm' k) (users new k ++ rest)

variable {m : AnonMap}

section Moves

variable {h h' h'' : Heap} {shm shm' shm'' : Nat → Nat} {old mid new : List Seg}

theorem Moves.refl (h : Heap) (shm : Nat → Nat) (old : List Seg) : Moves h shm old h shm old :=
  ⟨id, id, fun _ _ _ _ => id⟩

theorem Moves.trans (h₁ : Moves h shm old h' shm' mid) (h₂ : Moves h' shm' mid h'' shm'' new) :
    Moves h shm old h'' shm'' new where
  fresh hf := h₂.fresh (h₁.fresh hf)
  ok hok := h₂.ok (h₁.ok hok)
  maps hf hok k rest hmap :=
    h₂.maps (h₁.fresh hf) (h₁.ok hok) k rest (h₁.maps hf hok k rest hmap)

theorem Moves.frame_left (hm : Moves h shm old h' shm' new) (frame : List Seg) :
    Moves h shm (frame ++ old) h' shm' (frame ++ new) where
  fresh := hm.fresh
  ok hok s hs := by
    rcases mem_append.mp hs with hs | hs
    · exact hok s (mem_append_left _ hs)
    · exact hm.ok (fun t ht => hok t (mem_append_right _ ht)) s hs
  maps hf hok k rest hmap := by
    rw [users_append] at hmap ⊢
    have hperm : (users frame k ++ users old k ++ rest).Perm
        (users old k ++ (users frame k ++ rest)) := by
      rw [← append_assoc]
      exact perm_append_comm.append_right rest
    have hperm' : (users new k ++ (users frame k ++ rest)).Perm
        (users frame k ++ users new k ++ rest) := by
      rw [← append_assoc]
      exact perm_append_comm.append_right rest
    have hold : ∀ s ∈ old, s.Ok := fun t ht => hok t (mem_append_right _ ht)
    exact (hm.maps hf hold k _ (hmap.perm hperm)).perm hperm'

theorem Moves.frame_right (hm : Moves h shm old h' shm' new) (after : List Seg) :
    Moves h shm (old ++ after) h' shm' (new ++ after) where
  fresh := hm.fresh
  ok hok s hs := by
    rcases mem_append.mp hs with hs | hs
    · exact hm.ok (fun t ht => hok t (mem_append_left _ ht)) s hs
    · exact hok s (mem_append_right _ hs)
  maps hf hok k rest hmap := by
    rw [users_append, append_assoc] at hmap ⊢
    have hold : ∀ s ∈ old, s.Ok := fun t ht => hok t (mem_append_left _ ht)
    exact hm.maps hf hold k _ hmap

theorem Moves.frame (hm : Moves h shm old h' shm' new) (before after : List Seg) :
    Moves h shm (before ++ old ++ after) h' shm' (before ++ new ++ after) :=
  (hm.frame_left before).frame_right after

theorem Moves.at_map (k : Nat) (hfresh : h.Fresh → h'.Fresh)
    (hother : ∀ j, j ≠ k → h'.amps j = h.amps j ∧ shm' j = shm j ∧ users new j = users old j)
    (hmap : h.Fresh → (∀ s ∈ old, s.Ok) → ∀ rest, AmpOk (h.amps k) (shm k) (users old k ++ rest) →
      AmpOk (h'.amps k) (shm' k) (users new k ++ rest))
    (hok : (∀ s ∈ old, s.Ok) → ∀ s ∈ new, s.Ok) : Moves h shm old h' shm' new where
  fresh := hfresh
  ok := hok
  maps hf holds j rest hj := by
    by_cases heq : j = k
    · subst heq
      exact hmap hf holds rest hj
    · obtain ⟨hamps, hshm, husers⟩ := hother j heq
      rw [hamps, hshm, husers]
      exact hj

theorem Moves.at_none (hamps : h'.amps = h.amps) (hnext : h'.nextAmp = h.nextAmp)
    (husers : ∀ j, users new j = users old j)
    (hok : (∀ s ∈ old, s.Ok) → ∀ s ∈ new, s.Ok) : Moves h shm old h' shm new where
  fresh hf := by
    unfold Heap.Fresh
    rw [hamps, hnext]
    exact hf
  ok := hok
  maps _ _ j rest hj := by
    rw [hamps, husers]
    exact hj

theorem Moves.contents (hamps : ∀ j, (h'.amps j).map AnonMap.shape =
      (h.amps j).map AnonMap.shape) (hnext : h'.nextAmp = h.nextAmp) :
    Moves h shm old h' shm old where
  fresh hf k hk := by
    have hnone := hamps k
    rw [hf k (hnext ▸ hk)] at hnone
    simpa using hnone
  ok := id
  maps _ _ k rest hmap := hmap.reshape (hamps k)

theorem Moves.shrink (hamp : s'.amp = s.amp) (htype : s'.type = s.type)
    (hlo : s.anonIndex ≤ s'.anonIndex) (hhi : s'.anonIndex + s'.sSize ≤ s.anonIndex + s.sSize)
    (hok : s.Ok → s'.Ok) : Moves h shm [s] h shm [s'] where
  fresh := id
  ok holds t ht := by
    rw [mem_singleton.mp ht]
    exact hok (holds s (mem_singleton_self s))
  maps _ holds k rest hmap := by
    have hpos : 0 < s'.sSize := (hok (holds s (mem_singleton_self s))).size
    by_cases hk : s.amp = some k
    · rw [users_self hk] at hmap
      rw [users_self (hamp.trans hk)]
      cases hm : h.amps k with
      | none =>
        rw [hm] at hmap
        cases hmap.1
      | some m =>
        rw [hm] at hmap
        exact MapOk.shrink hmap htype hpos hlo hhi
    · rw [users_other hk] at hmap
      rw [users_other (hamp ▸ hk)]
      exact hmap

theorem Moves.one (hamps : ∀ j, (h'.amps j).map AnonMap.shape =
      (h.amps j).map AnonMap.shape) (hnext : h'.nextAmp = h.nextAmp) (hamp : s'.amp = s.amp)
    (htype : s'.type = s.type) (hlo : s.anonIndex ≤ s'.anonIndex)
    (hhi : s'.anonIndex + s'.sSize ≤ s.anonIndex + s.sSize) (hok : s.Ok → s'.Ok) :
    Moves h shm [s] h' shm [s'] :=
  (Moves.contents hamps hnext).trans (Moves.shrink hamp htype hlo hhi hok)

theorem Moves.at_amp {m' : Option AnonMap} (hm : h.amps k = some m)
    (hamps : h'.amps = update h.amps k m') (hnext : h'.nextAmp = h.nextAmp)
    (hold : ∀ s ∈ old, s.amp = some k) (hnew : ∀ s ∈ new, s.amp = some k)
    (hshm : ∀ j, j ≠ k → shm' j = shm j)
    (hmap : (∀ s ∈ old, s.Ok) → ∀ rest, MapOk m (shm k) (old ++ rest) →
      AmpOk m' (shm' k) (new ++ rest))
    (hok : (∀ s ∈ old, s.Ok) → ∀ s ∈ new, s.Ok) : Moves h shm old h' shm' new := by
  refine Moves.at_map k ?_ ?_ ?_ hok
  · intro hf j hj
    rw [hnext] at hj
    rw [hamps]
    have hne : j ≠ k := by
      intro heq
      rw [heq] at hj
      rw [hf k hj] at hm
      cases hm
    rw [update_of_ne hne]
    exact hf j hj
  · intro j hne
    rw [hamps, update_of_ne hne, users_all_other hold hne, users_all_other hnew hne]
    exact ⟨rfl, hshm j hne, rfl⟩
  · intro _ holds rest hrest
    rw [users_all hold, hm] at hrest
    rw [hamps, update_self, users_all hnew]
    exact hmap holds rest hrest

theorem Moves.dangling (hs : s.amp = some k) (hm : h.amps k = none) (hamps : h'.amps = h.amps)
    (hnext : h'.nextAmp = h.nextAmp) (hnew : ∀ t ∈ new, t.amp = none ∨ t.amp = some k)
    (hok : s.Ok → ∀ t ∈ new, t.Ok) : Moves h shm [s] h' shm new := by
  refine Moves.at_map k ?_ ?_ ?_ ?_
  · intro hf
    unfold Heap.Fresh
    rw [hamps, hnext]
    exact hf
  · intro j hne
    have hold : users [s] j = [] := users_other (by rw [hs]; simpa using hne.symm)
    refine ⟨congrFun hamps j, rfl, ?_⟩
    rw [hold]
    refine filter_eq_nil_iff.mpr fun t ht => ?_
    rcases hnew t ht with hnone | hsome
    · simp [hnone]
    · simpa [hsome] using hne.symm
  · intro _ _ rest hrest
    rw [hm, users_self hs] at hrest
    cases hrest.1
  · exact fun holds => hok (holds s (mem_singleton_self s))

theorem Moves.mapless (hamps : h'.amps = h.amps) (hnext : h'.nextAmp = h.nextAmp)
    (hold : ∀ s ∈ old, s.amp = none) (hnew : ∀ s ∈ new, s.amp = none)
    (hok : (∀ s ∈ old, s.Ok) → ∀ s ∈ new, s.Ok) : Moves h shm old h' shm new := by
  refine Moves.at_none hamps hnext (fun j => ?_) hok
  rw [users_mapless hold, users_mapless hnew]

theorem Moves.alloc (hrefcnt : m.refcnt = 1)
    (hsize : (∀ t ∈ old, t.Ok) → s.anonIndex + s.sSize ≤ m.size) (hamp : s.amp = some h.nextAmp)
    (hkept : ∀ k, users old k = users mid k) (hok : (∀ t ∈ old, t.Ok) → s.Ok ∧ ∀ t ∈ mid, t.Ok) :
    Moves h shm old (h.newAmp m).1 shm (mid ++ [s]) where
  fresh hf k hk := by
    have hk : h.nextAmp + 1 ≤ k := hk
    have hne : k ≠ h.nextAmp := by omega
    change update h.amps h.nextAmp (some m) k = none
    rw [update_of_ne hne]
    exact hf k (by omega)
  ok holds t ht := by
    rcases mem_append.mp ht with ht | ht
    · exact (hok holds).2 t ht
    · rw [mem_singleton.mp ht]
      exact (hok holds).1
  maps hf holds k rest hmap := by
    rw [hkept] at hmap
    rw [users_append]
    change AmpOk (update h.amps h.nextAmp (some m) k) (shm k) _
    by_cases hk : k = h.nextAmp
    · subst hk
      rw [hf h.nextAmp (Nat.le_refl _)] at hmap
      obtain ⟨hmid, hrest⟩ := append_eq_nil_iff.mp hmap.1
      rw [update_self, users_self hamp, hmid, hrest, hmap.2]
      exact MapOk.single hrefcnt (hok holds).1.size (hsize holds)
    · have hother : s.amp ≠ some k := by
        rw [hamp]
        simpa using Ne.symm hk
      rw [update_of_ne hk, users_other hother, append_nil]
      exact hmap

theorem Moves.alloc_new (hrefcnt : m.refcnt = 1) (hsize : s.anonIndex + s.sSize ≤ m.size)
    (hamp : s.amp = some h.nextAmp) (hok : s.Ok) : Moves h shm [] (h.newAmp m).1 shm [s] := by
  have halloc : Moves h shm [] (h.newAmp m).1 shm ([] ++ [s]) :=
    Moves.alloc hrefcnt (fun _ => hsize) hamp (fun _ => rfl) fun _ => ⟨hok, by simp⟩
  exact halloc

theorem Moves.alloc_one (hrefcnt : m.refcnt = 1) (hsize : s.Ok → s'.anonIndex + s'.sSize ≤ m.size)
    (hamp : s'.amp = some h.nextAmp) (hs : s.amp = none) (hok : s.Ok → s'.Ok) :
    Moves h shm [s] (h.newAmp m).1 shm [s'] := by
  have halloc : Moves h shm [s] (h.newAmp m).1 shm ([] ++ [s']) := by
    refine Moves.alloc hrefcnt (fun holds => ?_) hamp (fun k => ?_) (fun holds => ⟨?_, by simp⟩)
    · exact hsize (holds s (mem_singleton_self s))
    · exact users_mapless (by simpa using hs)
    · exact hok (holds s (mem_singleton_self s))
  exact halloc

end Moves

end Segvn
end Svr4
