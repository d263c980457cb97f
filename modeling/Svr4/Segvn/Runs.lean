import Svr4.Segvn.Layout

/-!
# Runs

In every reachable state the maps are as they should be, and no segments of an
address space overlap.
-/

namespace Svr4
namespace Segvn

open Function Transition List Option

theorem Moves.perm {h h' : Heap} {shm shm' : Nat → Nat} {old old' new new' : List Seg}
    (hm : Moves h shm old h' shm' new) (hold : old'.Perm old) (hnew : new.Perm new') :
    Moves h shm old' h' shm' new' where
  fresh := hm.fresh
  ok holds s hs :=
    hm.ok (fun t ht => holds t (hold.mem_iff.mpr ht)) s (hnew.mem_iff.mpr hs)
  maps hf holds k rest hmap := by
    have husers : (users old' k).Perm (users old k) := hold.filter _
    have husers' : (users new k).Perm (users new' k) := hnew.filter _
    have hall : ∀ s ∈ old, s.Ok := fun t ht => holds t (hold.mem_iff.mpr ht)
    exact (hm.maps hf hall k rest (hmap.perm (husers.append_right rest))).perm
      (husers'.append_right rest)

theorem MapOk.held {m : AnonMap} {k n : Nat} {rest : List Seg} (hmap : MapOk m k rest)
    (hk : 0 < k) (hk' : 0 < n) : MapOk { m with refcnt := m.refcnt - k + n } n rest where
  refcnt := by
    have hcount := hmap.refcnt
    change m.refcnt - k + n = _
    omega
  live := Nat.add_pos_right _ hk'
  nonempty := hmap.nonempty
  range := hmap.range
  unshared s hs hpriv := by
    have hzero := hmap.unshared s hs hpriv
    omega
  type := hmap.type
  apart := hmap.apart

variable {spaces : List (List Seg)} {f : Seg → Heap × List Seg} {s : Seg} {resv addmap : Bool}

namespace World

/-- The maps are as they should be, and no segments overlap. -/
structure Sound (w : World) : Prop where
  fresh : w.heap.Fresh
  segs : ∀ s ∈ w.segs, s.Ok
  maps : ∀ k, AmpOk (w.heap.amps k) (w.shm k) (users w.segs k)
  laid : ∀ space ∈ w.spaces, ∃ hi, Laid 0 space hi

section Steps

variable {w w' : World} {i n : Nat} {space : List Seg}

theorem Sound.moves (hw : w.Sound) (hm : Moves w.heap w.shm w.segs w'.heap w'.shm w'.segs)
    (hlaid : ∀ space ∈ w'.spaces, ∃ hi, Laid 0 space hi) : w'.Sound where
  fresh := hm.fresh hw.fresh
  segs := hm.ok hw.segs
  maps k := by
    have hmap := hm.maps hw.fresh hw.segs k []
    rw [append_nil, append_nil] at hmap
    exact hmap (hw.maps k)
  laid := hlaid

theorem spaces_split (hspace : spaces[i]? = some space) :
    spaces.flatten = (spaces.take i).flatten ++ space ++ (spaces.drop (i + 1)).flatten := by
  obtain ⟨hi, heq⟩ := List.getElem?_eq_some_iff.mp hspace
  conv => lhs; rw [← take_append_drop i spaces, drop_eq_getElem_cons hi, heq]
  rw [flatten_append, flatten_cons, append_assoc]

theorem spaces_set (hspace : spaces[i]? = some space)
    (new : List Seg) : (spaces.set i new).flatten =
      (spaces.take i).flatten ++ new ++ (spaces.drop (i + 1)).flatten := by
  obtain ⟨hi, _⟩ := List.getElem?_eq_some_iff.mp hspace
  rw [set_eq_take_append_cons_drop, if_pos hi, flatten_append, flatten_cons, append_assoc]

theorem onSpace_cases {f : List Seg → Option (Heap × List Seg)} (hrun : w.onSpace i f = some w') :
    (w.spaces[i]? = none ∧ w' = w) ∨ ∃ space r, w.spaces[i]? = some space ∧ f space = some r ∧
      w' = { w with heap := r.1, spaces := w.spaces.set i r.2 } := by
  unfold onSpace at hrun
  cases hspace : w.spaces[i]? with
  | none =>
    simp only [hspace] at hrun
    exact .inl ⟨rfl, (some.inj hrun).symm⟩
  | some space =>
    simp only [hspace] at hrun
    cases hf : f space with
    | none =>
      simp only [hf] at hrun
      cases hrun
    | some r =>
      simp only [hf] at hrun
      exact .inr ⟨space, r, rfl, hf, (some.inj hrun).symm⟩

theorem onSeg_cases (hrun : w.onSeg i n f = some w') :
    w' = w ∨ ∃ space s, w.spaces[i]? = some space ∧ space[n]? = some s ∧ w' = { w with
        heap := (f s).1
        spaces := w.spaces.set i (space.take n ++ (f s).2 ++ space.drop (n + 1)) } := by
  rcases onSpace_cases hrun with ⟨_, rfl⟩ | ⟨space, r, hspace, hf, rfl⟩
  · exact .inl rfl
  · cases hs : space[n]? with
    | none =>
      simp only [hs] at hf
      rw [← some.inj hf]
      obtain ⟨hi, heq⟩ := List.getElem?_eq_some_iff.mp hspace
      refine .inl ?_
      rw [← heq, set_getElem_self]
    | some s =>
      simp only [hs] at hf
      rw [← some.inj hf]
      exact .inr ⟨space, s, hspace, hs, rfl⟩

theorem Sound.onSpace (hw : w.Sound) (hspace : w.spaces[i]? = some space) {h : Heap}
    {new : List Seg} (hm : Moves w.heap w.shm space h w.shm new) (hlaid : ∃ hi, Laid 0 new hi) :
    Sound { w with heap := h, spaces := w.spaces.set i new } := by
  refine hw.moves ?_ ?_
  · change Moves w.heap w.shm w.spaces.flatten h w.shm (w.spaces.set i new).flatten
    rw [spaces_split hspace, spaces_set hspace new]
    exact hm.frame _ _
  · intro space' hspace'
    rcases mem_or_eq_of_mem_set hspace' with hmem | rfl
    · exact hw.laid space' hmem
    · exact hlaid

theorem Sound.laid_of (hw : w.Sound) (hspace : w.spaces[i]? = some space) : ∃ hi, Laid 0 space hi :=
  hw.laid space (mem_of_getElem? hspace)

theorem split_at (hs : space[n]? = some s) : space = space.take n ++ [s] ++ space.drop (n + 1) := by
  obtain ⟨hn, heq⟩ := List.getElem?_eq_some_iff.mp hs
  conv => lhs; rw [← take_append_drop n space, drop_eq_getElem_cons hn, heq]
  rw [append_assoc]
  rfl

theorem Sound.onSeg (hw : w.Sound) (hm : ∀ s, Moves w.heap w.shm [s] (f s).1 w.shm (f s).2)
    (hlaid : ∀ s lo hi, Laid lo [s] hi → Laid lo (f s).2 hi)
    (hrun : w.onSeg i n f = some w') : w'.Sound := by
  rcases onSeg_cases hrun with rfl | ⟨space, s, hspace, hs, rfl⟩
  · exact hw
  · have hsplit := split_at hs
    refine hw.onSpace hspace ?_ ?_
    · have hframe := (hm s).frame (space.take n) (space.drop (n + 1))
      rw [← hsplit] at hframe
      exact hframe
    · obtain ⟨hi, hspaced⟩ := hw.laid_of hspace
      rw [hsplit] at hspaced
      exact ⟨hi, hspaced.replace (hlaid s)⟩

/-!
## Duplicating
-/

theorem dup_cases {j : Nat} (hrun : w.dup s j resv addmap = some w') : w' = w ∨
    (∃ space new, w.spaces[j]? = some space ∧ insert space (w.heap.segvnDup s).2 = some new ∧
      w' = { w with heap := (w.heap.segvnDup s).1, spaces := w.spaces.set j new }) ∨
    w' = { w with heap := (w.heap.segvnDup s).1.segvnFree (w.heap.segvnDup s).2 } := by
  unfold dup at hrun
  split at hrun
  · exact .inl (some.inj hrun).symm
  · rcases onSpace_cases hrun with ⟨_, rfl⟩ | ⟨space, r, hspace, hf, rfl⟩
    · exact .inl rfl
    · have hset : w.spaces.set j space = w.spaces := by
        obtain ⟨hi, heq⟩ := List.getElem?_eq_some_iff.mp hspace
        rw [← heq, set_getElem_self]
      cases hinsert : insert space (w.heap.segvnDup s).2 with
      | none =>
        simp only [hinsert] at hf
        rw [← some.inj hf]
        exact .inl (by simp only [hset])
      | some new =>
        simp only [hinsert] at hf
        split at hf
        · rw [← some.inj hf]
          exact .inr (.inr (by simp only [hset]))
        · rw [← some.inj hf]
          exact .inr (.inl ⟨space, new, hspace, hinsert, rfl⟩)

theorem perm_insert {t : Seg} {front back left before after right : List Seg}
    (h : front ++ [s] ++ back = left ++ (before ++ after) ++ right) :
    List.Perm (front ++ [s, t] ++ back) (left ++ (before ++ [t] ++ after) ++ right) := by
  have hleft : (front ++ [s, t] ++ back).Perm (t :: (front ++ [s] ++ back)) := by
    have hlist : front ++ [s, t] ++ back = front ++ [s] ++ t :: back := by simp
    rw [hlist]
    exact perm_middle
  have hright : (left ++ (before ++ [t] ++ after) ++ right).Perm
      (t :: (left ++ (before ++ after) ++ right)) := by
    have hlist : left ++ (before ++ [t] ++ after) ++ right =
        left ++ before ++ t :: (after ++ right) := by simp
    have hlist' : left ++ (before ++ after) ++ right = left ++ before ++ (after ++ right) := by simp
    rw [hlist, hlist']
    exact perm_middle
  exact hleft.trans (h ▸ hright.symm)

theorem Sound.dup (hw : w.Sound) (hs : s ∈ w.segs) {j : Nat}
    (hrun : w.dup s j resv addmap = some w') : w'.Sound := by
  obtain ⟨front, back, hsegs⟩ := append_of_mem hs
  have hsegs : w.segs = front ++ [s] ++ back := by simp [hsegs]
  have hdup : Moves w.heap w.shm w.segs (w.heap.segvnDup s).1 w.shm
      (front ++ [s, (w.heap.segvnDup s).2] ++ back) := by
    rw [hsegs]
    exact (Moves.segvnDup w.heap w.shm s).frame front back
  rcases dup_cases hrun with rfl | ⟨space, new, hspace, hinsert, rfl⟩ | rfl
  · exact hw
  · obtain ⟨before, after, rfl, _, _, rfl⟩ := insert_cases hinsert
    refine hw.moves (hdup.perm (List.Perm.refl _) ?_) ?_
    · change List.Perm _ (w.spaces.set j _).flatten
      rw [spaces_set hspace]
      refine perm_insert ?_
      rw [← hsegs]
      exact spaces_split hspace
    · intro space' hspace'
      rcases mem_or_eq_of_mem_set hspace' with hmem | rfl
      · exact hw.laid space' hmem
      · obtain ⟨hi, hlaid⟩ := hw.laid_of hspace
        exact hlaid.insert hinsert
  · refine hw.moves ?_ hw.laid
    have hfree : Moves (w.heap.segvnDup s).1 w.shm (front ++ [s, (w.heap.segvnDup s).2] ++ back)
        ((w.heap.segvnDup s).1.segvnFree (w.heap.segvnDup s).2) w.shm (front ++ [s] ++ back) := by
      have hone := (Moves.segvnFree (w.heap.segvnDup s).1 w.shm
        (w.heap.segvnDup s).2).frame (front ++ [s]) back
      simpa using hone
    have hboth := hdup.trans hfree
    rw [← hsegs] at hboth
    exact hboth

/-!
## Identifiers of shared memory
-/

theorem Sound.shmget (hw : w.Sound) (size : Nat) : (w.shmget size).Sound := by
  refine hw.moves ?_ hw.laid
  have hget : Moves w.heap w.shm [] (w.shmget size).heap (w.shmget size).shm [] := by
    refine Moves.at_map w.heap.nextAmp ?_ ?_ ?_ (by simp)
    · intro hf k hk
      have hk : w.heap.nextAmp + 1 ≤ k := hk
      have hne : k ≠ w.heap.nextAmp := by omega
      change update w.heap.amps w.heap.nextAmp _ k = none
      rw [update_of_ne hne]
      exact hf k (by omega)
    · intro j hj
      exact ⟨update_of_ne hj _ _, update_of_ne hj _ _, rfl⟩
    · intro hf _ rest hmap
      rw [hf _ (le_refl _)] at hmap
      have hrest : rest = [] := hmap.1
      rw [hrest]
      change AmpOk (update w.heap.amps w.heap.nextAmp _ w.heap.nextAmp)
        (update w.shm w.heap.nextAmp 2 w.heap.nextAmp) []
      rw [update_self, update_self]
      exact ⟨rfl, Nat.succ_pos 1, by simp, by simp, by simp, by simp, by simp⟩
  have hframe := hget.frame_left w.segs
  rw [append_nil] at hframe
  exact hframe

theorem Sound.shmhold (hw : w.Sound) (k : Nat) : (w.shmhold k).Sound := by
  unfold World.shmhold
  cases hm : w.heap.amps k with
  | none => exact hw
  | some m =>
    simp only
    split
    · exact hw
    · rename_i hk
      refine hw.moves ?_ hw.laid
      have hhold : Moves w.heap w.shm [] (w.heap.setAmp k { m with refcnt := m.refcnt + 1 })
          (update w.shm k (w.shm k + 1)) [] := by
        refine Moves.at_amp hm rfl rfl (by simp) (by simp)
          (fun j hj => update_of_ne hj _ _) ?_ (by simp)
        intro _ rest hmap
        rw [update_self]
        have hheld := hmap.held (Nat.pos_of_ne_zero hk) (Nat.succ_pos (w.shm k))
        have hcount := hmap.refcnt
        have heq : m.refcnt - w.shm k + (w.shm k + 1) = m.refcnt + 1 := by omega
        rw [Nat.succ_eq_add_one, heq] at hheld
        exact hheld
      have hframe := hhold.frame_left w.segs
      rw [append_nil] at hframe
      exact hframe

theorem shmRmAmp_amps {h : Heap} {k : Nat} {m m' : AnonMap} (hm : h.amps k = some m') :
    (shmRmAmp h k m).amps = update h.amps k none := by
  have hm : (h.anonUnresv m.swresv).amps k = some m' := hm
  unfold shmRmAmp
  simp only
  rw [Heap.anonFree_amps _ _ _ hm, update_idem]
  rfl

theorem shmRmAmp_nextAmp (h : Heap) (k : Nat) (m : AnonMap) :
    (shmRmAmp h k m).nextAmp = h.nextAmp :=
  Heap.anonFree_nextAmp _ _ _ _

theorem Sound.shmrele (hw : w.Sound) (k : Nat) : (w.shmrele k).Sound := by
  unfold World.shmrele
  cases hm : w.heap.amps k with
  | none => exact hw
  | some m =>
    simp only
    split
    · exact hw
    · rename_i hk
      let h := w.heap.setAmp k { m with refcnt := m.refcnt - 1 }
      split
      · rename_i hlast
        refine hw.moves ?_ hw.laid
        have hamps : (shmRmAmp h k m).amps = update w.heap.amps k none := by
          have hset : h.amps k = some { m with refcnt := m.refcnt - 1 } :=
            update_self _ _ _
          rw [shmRmAmp_amps hset]
          exact update_idem _ _ _
        have hrele : Moves w.heap w.shm [] (shmRmAmp h k m) (update w.shm k 0) [] := by
          refine Moves.at_amp hm hamps (shmRmAmp_nextAmp _ _ _) (by simp) (by simp)
            (fun j hj => update_of_ne hj _ _) ?_ (by simp)
          intro _ rest hmap
          have hmap : MapOk m (w.shm k) rest := hmap
          have hcount := hmap.refcnt
          have hrest : rest = [] := eq_nil_of_length_eq_zero (by omega)
          rw [update_self, hrest]
          exact ⟨rfl, rfl⟩
        have hframe := hrele.frame_left w.segs
        rw [append_nil] at hframe
        exact hframe
      · refine hw.moves ?_ hw.laid
        have hrele : Moves w.heap w.shm [] h (update w.shm k (w.shm k - 1)) [] := by
          refine Moves.at_amp hm rfl rfl (by simp) (by simp)
            (fun j hj => update_of_ne hj _ _) ?_ (by simp)
          intro _ rest hmap
          have hmap : MapOk m (w.shm k) rest := hmap
          rw [update_self]
          have hheld := hmap.held (n := w.shm k - 1) (by omega) (by omega)
          have hcount := hmap.refcnt
          have heq : m.refcnt - w.shm k + (w.shm k - 1) = m.refcnt - 1 := by omega
          rw [heq] at hheld
          exact hheld
        have hframe := hrele.frame_left w.segs
        rw [append_nil] at hframe
        exact hframe

/-!
## Every step
-/

theorem sound_start : start.Sound where
  fresh _ _ := rfl
  segs s hs := by cases hs
  maps _ := ⟨rfl, rfl⟩
  laid space hspace := by cases hspace

theorem Sound.exec (hw : w.Sound) {e : Event} (hrun : w.exec e = some w') : w'.Sound := by
  cases e with
  | asAlloc =>
    rw [← some.inj hrun]
    refine hw.moves ?_ ?_
    · change Moves w.heap w.shm w.segs w.heap w.shm (w.spaces ++ [[]]).flatten
      have hsegs : (w.spaces ++ [[]]).flatten = w.segs := by
        simp only [World.segs, flatten_append, flatten_cons, flatten_nil, append_nil]
      rw [hsegs]
      exact Moves.refl w.heap w.shm w.segs
    · intro space hspace
      rcases mem_append.mp hspace with hspace | hspace
      · exact hw.laid space hspace
      · rw [mem_singleton.mp hspace]
        exact ⟨0, le_refl 0⟩
  | map i sBase sSize a env =>
    unfold World.exec at hrun
    simp only at hrun
    split at hrun
    · rename_i hgiven
      have hgiven : ∀ k, a.amp = some k → 0 < w.shm k := by
        intro k hk
        unfold World.given at hgiven
        simp only [hk] at hgiven
        exact of_decide_eq_true hgiven
      rcases onSpace_cases hrun with ⟨_, rfl⟩ | ⟨space, r, hspace, hmap, rfl⟩
      · exact hw
      · obtain ⟨hi, hlaid⟩ := hw.laid_of hspace
        exact hw.onSpace hspace (Moves.asMap w.shm hgiven hmap) (Laid.asMap hlaid hmap)
    · rw [← some.inj hrun]
      exact hw
  | unmap i raddr size =>
    rcases onSpace_cases hrun with ⟨_, rfl⟩ | ⟨space, r, hspace, hunmap, rfl⟩
    · exact hw
    · obtain ⟨hi, hlaid⟩ := hw.laid_of hspace
      exact hw.onSpace hspace (Moves.asUnmap w.shm (Nat.le_add_right _ _) hunmap)
        ⟨hi, Laid.asUnmap (Nat.le_add_right _ _) hunmap hlaid⟩
  | free i n =>
    refine hw.onSeg (fun s => Moves.segvnFree w.heap w.shm s) ?_ hrun
    intro s lo hi hlaid
    have hle : lo ≤ hi := hlaid.le
    exact hle
  | dup i n j resv addmap =>
    unfold World.exec at hrun
    simp only at hrun
    split at hrun
    · rw [← some.inj hrun]
      exact hw
    · rename_i s hs
      rcases Option.bind_eq_some_iff.mp hs with ⟨space, hspace, hseg⟩
      have hmem : s ∈ w.segs :=
        mem_flatten.mpr ⟨space, mem_of_getElem? hspace, mem_of_getElem? hseg⟩
      exact hw.dup hmem hrun
  | setprot i n addr len prot resv done =>
    refine hw.onSeg ?_ ?_ hrun
    · intro s
      split
      · exact Moves.segvnSetprot w.heap w.shm s addr len prot resv done
      · exact Moves.refl w.heap w.shm [s]
    · intro s lo hi hlaid
      split
      · obtain ⟨hbase, hsize⟩ := Heap.segvnSetprot_extent w.heap s addr len prot resv done
        exact hlaid.same hbase hsize
      · exact hlaid
  | fault i n page write ap swresv =>
    refine hw.onSeg ?_ ?_ hrun
    · intro s
      split
      · exact Moves.segvnFault w.heap w.shm s page write ap swresv
      · exact Moves.refl w.heap w.shm [s]
    · intro s lo hi hlaid
      split
      · obtain ⟨hbase, hsize⟩ := Heap.segvnFault_extent w.heap s page write ap swresv
        exact hlaid.same hbase hsize
      · exact hlaid
  | lock i n addr len locks swresv =>
    refine hw.onSeg ?_ ?_ hrun
    · exact fun s => Moves.segvnLock w.heap w.shm s addr len locks swresv
    · intro s lo hi hlaid
      obtain ⟨hbase, hsize⟩ := Heap.segvnLock_extent w.heap s addr len locks swresv
      exact hlaid.same hbase hsize
  | shmget size resv =>
    rw [← some.inj hrun]
    split
    · exact hw.shmget size
    · exact hw
  | shmhold k =>
    rw [← some.inj hrun]
    exact hw.shmhold k
  | shmrele k =>
    rw [← some.inj hrun]
    exact hw.shmrele k

end Steps

theorem Sound.reachable {w : World} (hw : Reachable Start Step w) : w.Sound := by
  refine Reachable.invariant ?_ ?_ hw
  · rintro _ rfl
    exact sound_start
  · exact fun _ _ _ hsound hstep => hsound.exec hstep

end World

end Segvn
end Svr4
