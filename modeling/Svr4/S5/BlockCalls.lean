import Svr4.S5.BlockRuns

/-!
# Calls that allocate and free blocks

`blkalloc` and `blkfree` from their beginning to their end, when no other call
comes between.
-/

namespace Svr4
namespace S5

theorem Lists.unique {disk : Nat → Fblk} {n : Nat} {f : Nat → Nat} {l l' : List Nat}
    (h : Lists disk n f l) (h' : Lists disk n f l') : l = l' := by
  induction h generalizing l' with
  | last hzero =>
    cases h' with
    | last => rfl
    | link hne => exact absurd hzero hne
  | link hne hbound rest ih =>
    cases h' with
    | last hzero => exact absurd hzero hne
    | link _ _ rest' => rw [ih rest']
  | more hne rest ih =>
    cases h' with
    | more _ rest' => rw [ih rest']

namespace BlockSys

/-- `blkalloc`; `ok` says whether the link block can be read. -/
def allocate (s : BlockSys) (ok : Bool) : BlockSys × Option AllocResult :=
  match s.blkalloc.1.holder with
  | .reading bno => s.blkalloc.1.readDone bno ok
  | _ => s.blkalloc

/-- `blkfree`. -/
def release (s : BlockSys) (bno : Nat) (incore : Bool) : BlockSys :=
  match (s.blkfree bno incore).holder with
  | .spilling b => (s.blkfree bno incore).spillDone b
  | _ =>
    if bno ∈ (s.blkfree bno incore).freeing then (s.blkfree bno incore).resume bno
    else s.blkfree bno incore

/-- The next block that `blkalloc` takes is a link block. -/
def NeedsLink (s : BlockSys) : Prop := ∃ bno, s.blkalloc.1.holder = .reading bno

def Listed (s : BlockSys) (bno : Nat) : Prop := ∃ l, s.Reaches l ∧ bno ∈ l

variable {s t : BlockSys} {bno : Nat}

theorem listed_iff (hs : s.Start) : s.Listed bno ↔ bno ∈ s.freeBlocks := by
  rcases hs.2.1.chain with ⟨l, hl, -, hmem, -⟩
  rw [← hmem]
  constructor
  · rintro ⟨l', hl', hin⟩
    rw [reaches_nobody hs.2.2.1] at hl hl'
    have hsame : l' = l := by
      rcases hl with ⟨hzero, rfl⟩ | hl
      · rcases hl' with ⟨-, rfl⟩ | hl'
        · rfl
        · exact absurd hl'.pos (by omega)
      · rcases hl' with ⟨hzero, -⟩ | hl'
        · exact absurd hl.pos (by omega)
        · exact hl'.unique hl
    exact hsame ▸ hin
  · exact fun hin => ⟨l, hl, hin⟩

theorem mem_freeBlocks_iff (hs : s.Start) :
    bno ∈ s.freeBlocks ↔ s.fs.sIsize ≤ bno ∧ bno < s.fs.sFsize ∧ bno ∉ s.held := by
  rw [mem_freeBlocks, IsFree, hs.2.2.1, hs.2.2.2]
  simp

theorem ne_zero_of_free (hs : s.Start) (h : bno ∈ s.freeBlocks) : bno ≠ 0 := by
  have hlo := ((mem_freeBlocks_iff hs).mp h).1
  have hpos := hs.1.isize
  omega

/-- The fields that only freeing changes, and the blocks that are held. -/
structure Same (s t : BlockSys) : Prop where
  isize : t.fs.sIsize = s.fs.sIsize
  fsize : t.fs.sFsize = s.fs.sFsize
  freeing : t.freeing = s.freeing
  holder : t.holder = s.holder ∨ ∃ bno, t.holder = .reading bno

theorem allocFinish_same (s : BlockSys) (bno : Nat) :
    Same s (s.allocFinish bno).1 ∧ (s.allocFinish bno).1.holder = s.holder ∧
      (((s.allocFinish bno).2 = some (.allocated bno) ∧
        (s.allocFinish bno).1.held = insert bno s.held) ∨
      ((s.allocFinish bno).2 = some .noSpace ∧ (s.allocFinish bno).1.held = s.held)) := by
  unfold allocFinish
  split
  · exact ⟨⟨rfl, rfl, rfl, .inl rfl⟩, rfl, .inr ⟨rfl, rfl⟩⟩
  · exact ⟨⟨rfl, rfl, rfl, .inl rfl⟩, rfl, .inl ⟨rfl, rfl⟩⟩

theorem blkalloc_same (s : BlockSys) : Same s s.blkalloc.1 ∧ ((s.blkalloc.1.holder = s.holder ∧
        ((∃ bno, s.blkalloc.2 = some (.allocated bno) ∧ s.blkalloc.1.held = insert bno s.held) ∨
        (s.blkalloc.2 = some .noSpace ∧ s.blkalloc.1.held = s.held))) ∨
      ∃ bno, s.blkalloc.1.holder = .reading bno ∧ s.blkalloc.1.held = s.held ∧
        s.blkalloc.1.fs.sNfree = 0 ∧ s.fs.pop s.fs.sNfree = some (bno, 0)) := by
  unfold blkalloc
  cases hpop : s.fs.pop s.fs.sNfree with
  | none => exact ⟨⟨rfl, rfl, rfl, .inl rfl⟩, .inl ⟨rfl, .inr ⟨rfl, rfl⟩⟩⟩
  | some r =>
    rcases r with ⟨bno, n⟩
    dsimp only
    by_cases hzero : n ≤ 0
    · rw [if_pos hzero]
      have hn := Nat.le_zero.mp hzero
      exact ⟨⟨rfl, rfl, rfl, .inr ⟨bno, rfl⟩⟩, .inr ⟨bno, rfl, rfl, hn, by rw [hn]⟩⟩
    · rw [if_neg hzero]
      rcases allocFinish_same { s with fs := { s.fs with sNfree := n } } bno with
        ⟨hsame, hholder, hres⟩
      refine ⟨⟨hsame.isize, hsame.fsize, hsame.freeing, hsame.holder⟩, .inl ⟨hholder, ?_⟩⟩
      rcases hres with hres | hres
      · exact .inl ⟨bno, hres⟩
      · exact .inr hres

theorem Start.of_sound (hs : s.Start) (ho : t.Orderly) (hc : t.Chained) (h : Same s t)
    (hholder : t.holder = .nobody) : t.Start :=
  ⟨ho, hc, hholder, h.freeing.trans hs.2.2.2⟩

theorem Start.flock (hs : s.Start) : s.fs.sFlock = 0 := by
  rw [hs.1.flock, if_pos hs.2.2.1]

inductive Alloc (s : BlockSys) (ok : Bool) : BlockSys → Option AllocResult → Prop where
  | block {t : BlockSys} {bno : Nat} (start : t.Start) (free : bno ∈ s.freeBlocks)
      (rest : t.freeBlocks = s.freeBlocks.erase bno) (held : t.held = insert bno s.held)
      (same : Same s t) (fine : ¬ (s.NeedsLink ∧ ok = false)) :
      Alloc s ok t (some (.allocated bno))
  | none {t : BlockSys} (start : t.Start) (rest : t.freeBlocks = s.freeBlocks)
      (held : t.held = s.held) (fine : ¬ (s.NeedsLink ∧ ok = false)) : Alloc s ok t (some .noSpace)
  /-- the link block cannot be read: the list is lost -/
  | lost {t : BlockSys} {bno : Nat} (needs : s.NeedsLink) (bad : ok = false)
      (listed : s.Listed bno) (held : t.held = s.held) (empty : ∀ b, ¬ t.Listed b) :
      Alloc s ok t (some .noSpace)

theorem alloc_of_sound (hs : s.Start) {ok : Bool} {r : BlockSys × Option AllocResult}
    (ho : r.1.Orderly) (hc : r.1.Chained) (halloc : s.Allocates r.1 r.2) (hsame : Same s r.1)
    (hholder : r.1.holder = .nobody) (hfine : ¬ (s.NeedsLink ∧ ok = false))
    (hres : (∃ bno, r.2 = some (.allocated bno) ∧ r.1.held = insert bno s.held) ∨
      (r.2 = some .noSpace ∧ r.1.held = s.held)) : Alloc s ok r.1 r.2 := by
  have hstart := hs.of_sound ho hc hsame hholder
  rcases hres with ⟨bno, hr, hheld⟩ | ⟨hr, hheld⟩
  · rcases halloc bno hr with ⟨hfree, herase⟩
    rw [hr]
    exact Alloc.block hstart (mem_freeBlocks.mpr hfree) herase hheld hsame hfine
  · rw [hr]
    refine Alloc.none hstart ?_ hheld hfine
    ext b
    rw [mem_freeBlocks_iff hs, mem_freeBlocks_iff hstart, hsame.isize, hsame.fsize, hheld]

theorem allocate_spec (hs : s.Start) (ok : Bool) :
    Alloc s ok (s.allocate ok).1 (s.allocate ok).2 := by
  rcases blkalloc_sound hs.1 hs.2.1 hs.flock with ⟨ho, hc, halloc⟩
  rcases blkalloc_same s with ⟨hsame, ⟨hholder, hres⟩ | ⟨bno, hreading, hheld, hnfree, hpop⟩⟩
  · have hnobody := hholder.trans hs.2.2.1
    have hrun : s.allocate ok = s.blkalloc := by
      unfold allocate
      rw [hnobody]
    rw [hrun]
    refine alloc_of_sound hs ho hc halloc hsame hnobody (fun h => ?_) hres
    rcases h.1 with ⟨b, hb⟩
    rw [hnobody] at hb
    cases hb
  · have hrun : s.allocate ok = s.blkalloc.1.readDone bno ok := by
      unfold allocate
      rw [hreading]
    rw [hrun]
    have hfree : ∀ b, s.blkalloc.1.IsFree b ↔ s.IsFree b := by
      simp [IsFree, hsame.isize, hsame.fsize, hheld, hsame.freeing, hreading, hs.2.2.1]
    cases ok with
    | true =>
      rcases readDone_sound ho hc hreading with ⟨ho', hc', halloc'⟩
      rcases allocFinish_same ({ s.blkalloc.1 with
        fs := { s.blkalloc.1.fs with
          sNfree := (s.blkalloc.1.disk bno).dfNfree
          sFree := bcopyFree (s.blkalloc.1.disk bno).dfFree s.blkalloc.1.fs.sFree
          sFlock := 0 }
        holder := .nobody } : BlockSys) bno with ⟨hsame', hholder', hres⟩
      refine alloc_of_sound hs ho' hc' (fun b hb => ?_) ⟨hsame'.isize.trans hsame.isize,
        hsame'.fsize.trans hsame.fsize, hsame'.freeing.trans hsame.freeing,
        .inl (hholder'.trans hs.2.2.1.symm)⟩ hholder' (fun h => Bool.noConfusion h.2) ?_
      · rcases halloc' b hb with ⟨hb, herase⟩
        refine ⟨(hfree b).mp hb, herase.trans ?_⟩
        congr 1
        ext c
        rw [mem_freeBlocks, mem_freeBlocks, hfree]
      · rcases hres with ⟨hr, hh⟩ | ⟨hr, hh⟩
        · exact .inl ⟨bno, hr, hh.trans (by rw [← hheld])⟩
        · exact .inr ⟨hr, hh.trans hheld⟩
    | false =>
      have hlost : s.blkalloc.1.readDone bno false =
          ({ s.blkalloc.1 with fs := { s.blkalloc.1.fs with sFlock := 0 }, holder := .nobody } :
            BlockSys).nospace := by
        unfold readDone allocFinish
        exact if_pos (.inl (Nat.le_of_eq hnfree))
      rcases hc.list with ⟨l, hreaches, -, hmem, -⟩
      unfold Reaches at hreaches
      rw [hreading] at hreaches
      rcases hreaches with ⟨-, rest, rfl, -⟩
      rw [hlost]
      have hlisted : s.Listed bno := by
        rw [listed_iff hs, mem_freeBlocks, ← hfree, ← hmem]
        exact List.mem_cons_self
      refine Alloc.lost ⟨bno, hreading⟩ rfl hlisted hheld ?_
      · rintro b ⟨l, hl, hb⟩
        rcases hl with ⟨-, rfl⟩ | hl
        · cases hb
        · exact absurd hl.pos (Nat.lt_irrefl 0)

theorem release_idle {incore : Bool} (hrun : s.blkfree bno incore = t) (h : t.holder = .nobody) :
    s.release bno incore = if bno ∈ t.freeing then t.resume bno else t := by
  unfold release
  rw [hrun, h]

theorem release_spilling {incore : Bool} {b : Nat} (hrun : s.blkfree bno incore = t)
    (h : t.holder = .spilling b) : s.release bno incore = t.spillDone b := by
  unfold release
  rw [hrun, h]

theorem release_spec (hs : s.Start) (hb : bno ∈ s.held) (incore : Bool) :
    (s.release bno incore).Start ∧ (s.release bno incore).held = s.held.erase bno ∧
      (s.release bno incore).fs.sIsize = s.fs.sIsize ∧
      (s.release bno incore).fs.sFsize = s.fs.sFsize := by
  rcases blkfree_sound hs.1 hs.2.1 hs.flock hb incore with ⟨ho, hc⟩
  have hgood : ¬ s.fs.badblock bno = true := by
    have hrange := hs.1.held bno hb
    unfold FreeList.badblock
    rw [decide_eq_true_eq]
    omega
  have hfreeing := hs.2.2.2
  have hnobody := hs.2.2.1
  have hnot : bno ∉ s.freeing := by
    rw [hfreeing]
    exact Finset.notMem_empty bno
  generalize hu : s.blkfree bno incore = u at ho hc
  have hrun := hu
  unfold blkfree at hrun
  rw [if_neg hgood] at hrun
  generalize hfs : (if s.fs.sNfree ≤ 0 then
    { s.fs with sNfree := 1, sFree := Function.update s.fs.sFree 0 0 } else s.fs) = fs at hrun
  have hsizes : fs.sIsize = s.fs.sIsize ∧ fs.sFsize = s.fs.sFsize ∧ fs.sFlock = 0 ∧
      fs.sNfree ≠ 0 := by
    rw [← hfs]
    split
    · exact ⟨rfl, rfl, hs.flock, Nat.one_ne_zero⟩
    · exact ⟨rfl, rfl, hs.flock, by omega⟩
  by_cases hfull : fs.sNfree ≥ NICFREE
  · rw [if_pos hfull] at hrun
    subst hrun
    rw [release_spilling hu rfl]
    rcases spillDone_sound ho hc rfl with ⟨ho', hc'⟩
    exact ⟨⟨ho', hc', rfl, hfreeing⟩, rfl, hsizes.1, hsizes.2.1⟩
  · rw [if_neg hfull] at hrun
    cases incore with
    | true =>
      rw [if_pos rfl] at hrun
      subst hrun
      have hin : bno ∈ insert bno s.freeing := Finset.mem_insert_self _ _
      rcases resume_sound ho hc hin ⟨hsizes.2.2.1, Nat.not_le.mp hfull,
        fun hzero => absurd hzero hsizes.2.2.2⟩ with ⟨ho', hc'⟩
      rw [release_idle hu hnobody, if_pos hin]
      refine ⟨⟨ho', hc', hnobody, ?_⟩, rfl, hsizes.1, hsizes.2.1⟩
      show (insert bno s.freeing).erase bno = ∅
      rw [Finset.erase_insert hnot, hfreeing]
    | false =>
      rw [if_neg Bool.false_ne_true] at hrun
      subst hrun
      rw [release_idle hu hnobody, if_neg hnot]
      exact ⟨⟨ho, hc, hnobody, hfreeing⟩, rfl, hsizes.1, hsizes.2.1⟩

end BlockSys
end S5
end Svr4
