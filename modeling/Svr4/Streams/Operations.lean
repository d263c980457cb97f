import Svr4.Streams.Accounting

/-!
# Queue operations and the queue invariant

What `putq`, `putbq`, `rmvq` and `getq` do to the list of
messages of a queue and to the accounts of its bands.
-/

namespace Svr4
namespace Streams

open Blocks RankedList List Option

/-!
## Parts of the state that do not matter
-/

variable {p bp : Nat}

section Frames

variable {m m' : Blocks} {q q' : Queue} {l : List Nat} {c : Nat}

theorem Blocks.rank_congr (h : m'.blk p = m.blk p) : m'.rank p = m.rank p := by
  simp [Blocks.rank, h]

theorem Blocks.band_congr (h : m'.blk p = m.blk p) : m'.band p = m.band p := by
  simp [Blocks.band, h]

theorem level_congr {rank rank' : Nat → Nat}
    (h : ∀ p ∈ l, rank' p = rank p) : level rank' c l = level rank c l := by
  apply filter_congr
  intro p hp
  rw [h p hp]

theorem Blocks.bytes_congr (h : ∀ p ∈ l, m'.blk p = m.blk p) : m'.bytes l c = m.bytes l c := by
  unfold Blocks.bytes
  have hfilter : (l.filter fun p => decide (m'.band p = c)) =
      l.filter fun p => decide (m.band p = c) := by
    apply filter_congr
    intro p hp
    rw [band_congr (h p hp)]
  rw [hfilter]
  congr 1
  apply map_congr_left
  intro p hp
  rw [h p (mem_of_mem_filter hp)]

theorem Queue.Ok.congr (h : q.Ok m l) (hblk : ∀ p ∈ l, m'.blk p = m.blk p)
    (hn : m'.nblk = m.nblk) : q.Ok m' l where
  links := DLinked.congr h.links (fun p hp => by simp [Blocks.next, hblk p hp])
    (fun p hp => by simp [Blocks.prev, hblk p hp])
  valid p hp := by
    rw [hn]
    exact h.valid p hp
  ranked := by
    apply h.ranked.imp_of_mem
    intro a b ha hb hab
    rwa [rank_congr (hblk a ha), rank_congr (hblk b hb)]
  normal p hp := by
    have hp' := h.normal p hp
    unfold Blocks.Normal Blocks.band at hp' ⊢
    rwa [hblk p hp]
  bands p hp := by
    rw [band_congr (hblk p hp)]
    exact h.bands p hp
  delim c hc hc' := by
    rw [level_congr fun p hp => rank_congr (hblk p hp)]
    exact h.delim c hc hc'
  nband := h.nband

theorem Queue.Ok.of_queue {r : Queue} (h : q.Ok m l) (hfirst : r.qFirst = q.qFirst)
    (hlast : r.qLast = q.qLast) (hnband : r.qNband = q.qNband)
    (hdelim : ∀ c, 1 ≤ c → r.delim c = q.delim c) : r.Ok m l where
  links := by
    unfold Queue.Links
    rw [hfirst, hlast]
    exact h.links
  valid := h.valid
  ranked := h.ranked
  normal := h.normal
  bands p hp := by
    rw [hnband]
    exact h.bands p hp
  delim c hc hc' := by
    rw [hdelim c hc]
    exact h.delim c hc (by rwa [hnband] at hc')
  nband := by
    rw [hnband]
    exact h.nband

/-- The parts of a queue that no operation on its messages changes. -/
structure SameFlags (q q' : Queue) : Prop where
  qHiwat : q'.qHiwat = q.qHiwat
  qLowat : q'.qLowat = q.qLowat
  qNoenb : q'.qNoenb = q.qNoenb
  qEnab : q'.qEnab = q.qEnab
  qBack : q'.qBack = q.qBack
  qiSrvp : q'.qiSrvp = q.qiSrvp

theorem SameFlags.refl (q : Queue) : SameFlags q q :=
  ⟨rfl, rfl, rfl, rfl, rfl, rfl⟩

theorem SameFlags.trans {q'' : Queue} (h : SameFlags q q')
    (h' : SameFlags q' q'') : SameFlags q q'' :=
  ⟨h'.1.trans h.1, h'.2.trans h.2, h'.3.trans h.3, h'.4.trans h.4, h'.5.trans h.5, h'.6.trans h.6⟩

theorem SameFlags.of_bare (h : q'.bare = q.bare) : SameFlags q q' :=
  ⟨congrArg (fun x => x.qHiwat) h, congrArg (fun x => x.qLowat) h,
    congrArg (fun x => x.qNoenb) h, congrArg (fun x => x.qEnab) h,
    congrArg (fun x => x.qBack) h, congrArg (fun x => x.qiSrvp) h⟩

theorem Queue.sameFlags_chargeBand (q : Queue) (x : Msgb) : SameFlags q (q.chargeBand x) := by
  unfold Queue.chargeBand
  split <;> exact ⟨rfl, rfl, rfl, rfl, rfl, rfl⟩

end Frames

/-!
## Puts
-/

/-- The band a message is accounted to; high priority goes with band 0. -/
def Msgb.acct (x : Msgb) : Nat := if QPCTL ≤ x.dbType then 0 else x.bBand

structure PutFrame (m m' : Blocks) (l : List Nat) (bp : Nat) : Prop where
  nblk : m'.nblk = m.nblk
  frame : ∀ j, j ∉ l → j ≠ bp → m'.blk j = m.blk j
  rank : m'.rank = m.rank
  dbType : ∀ j, (m'.blk j).dbType = (m.blk j).dbType
  sizes : ∀ j, (m'.blk j).sizes = (m.blk j).sizes
  msgnoget : ∀ j, (m'.blk j).msgnoget = (m.blk j).msgnoget
  band : ∀ j, j ≠ bp → m'.band j = m.band j
  put : m'.band bp = (m.blk bp).acct

section Puts

variable {m m' : Blocks} {q q' : Queue} {l : List Nat} {bp t : Nat}

theorem Placed.ok (hp : Placed m q l bp t m' q') (h : q.Ok m l)
    (hvalid : bp < m.nblk) (hnormal : m.Normal bp)
    (hband : m.band bp ≤ q.qNband) (hlow : m.rank bp ≤ t) (hhigh : t ≤ m.rank bp + 1) :
    q'.Ok m' (insertAt m.rank t bp l) where
  links := hp.links
  valid p hmem := by
    rw [hp.hdr.nblk]
    rcases mem_insertAt.mp hmem with rfl | hmem
    · exact hvalid
    · exact h.valid p hmem
  ranked := by
    rw [hp.hdr.rank]
    exact insertAt_ranked h.ranked hlow hhigh
  normal p hmem := by
    unfold Blocks.Normal
    rw [hp.hdr.dbType, hp.hdr.band]
    rcases mem_insertAt.mp hmem with rfl | hmem
    · exact hnormal
    · exact h.normal p hmem
  bands p hmem := by
    rw [hp.hdr.band, Queue.qNband_of_bare hp.bare]
    rcases mem_insertAt.mp hmem with rfl | hmem
    · exact hband
    · exact h.bands p hmem
  delim c hc hc' := by
    rw [Queue.qNband_of_bare hp.bare] at hc'
    rw [hp.hdr.rank]
    exact hp.delim c hc hc'
  nband := by
    rw [Queue.qNband_of_bare hp.bare]
    exact h.nband

theorem queclass_eq_iff (x : Msgb) : queclass x = QPCTL ↔ QPCTL ≤ x.dbType := by
  unfold queclass
  split
  · simp [*]
  · rename_i h
    have hne : ¬ QNORM = QPCTL := by decide
    simp [h, hne]

theorem Blocks.forceBand_frame (m : Blocks) (bp : Nat) (l : List Nat) :
    PutFrame m (m.forceBand bp) l bp := by
  by_cases h : QPCTL ≤ (m.blk bp).dbType
  · have hrun : m.forceBand bp = m.clearBand bp := by
      simp [forceBand, queclass_eq_iff, h]
    rw [hrun]
    constructor
    · rfl
    · intro j _ hj
      exact Function.update_of_ne hj _ _
    · funext j
      by_cases hj : j = bp
      · simp [Blocks.rank, Msgb.rank, clearBand, hj, h]
      · simp [Blocks.rank, clearBand, hj]
    · intro j
      by_cases hj : j = bp <;> simp [clearBand, hj]
    · intro j
      by_cases hj : j = bp <;> simp [clearBand, hj]
    · intro j
      by_cases hj : j = bp <;> simp [clearBand, hj]
    · intro j hj
      simp [Blocks.band, clearBand, hj]
    · simp [Blocks.band, clearBand, Msgb.acct, h]
  · have hrun : m.forceBand bp = m := by
      simp [forceBand, queclass_eq_iff, h]
    rw [hrun]
    constructor
    · rfl
    · exact fun _ _ _ => rfl
    · rfl
    · exact fun _ => rfl
    · exact fun _ => rfl
    · exact fun _ => rfl
    · exact fun _ _ => rfl
    · simp [Blocks.band, Msgb.acct, h]

theorem Blocks.forceBand_normal (m : Blocks) (bp : Nat) : (m.forceBand bp).Normal bp := by
  have hframe := m.forceBand_frame bp []
  intro hhigh
  rw [hframe.dbType] at hhigh
  rw [hframe.put, Msgb.acct, if_pos hhigh]

theorem Blocks.acct_of_normal (h : m.Normal p) : (m.blk p).acct = m.band p := by
  unfold Msgb.acct
  split
  · rename_i hhigh
    exact (h hhigh).symm
  · rfl

theorem PutFrame.sameHdr (h : PutFrame m m' l bp) (hnormal : m.Normal bp) : SameHdr m m' where
  nblk := h.nblk
  bBand j := by
    by_cases hj : j = bp
    · rw [hj]
      exact h.put.trans (acct_of_normal hnormal)
    · exact h.band j hj
  msgnoget := h.msgnoget
  dbType := h.dbType
  sizes := h.sizes

theorem PutFrame.trans_hdr {m'' : Blocks} (h : PutFrame m m' l bp)
    (hhdr : SameHdr m' m'') (hframe : ∀ j, j ∉ l → j ≠ bp → m''.blk j = m'.blk j) :
    PutFrame m m'' l bp where
  nblk := hhdr.nblk.trans h.nblk
  frame j hj hne := (hframe j hj hne).trans (h.frame j hj hne)
  rank := hhdr.rank.trans h.rank
  dbType j := (hhdr.dbType j).trans (h.dbType j)
  sizes j := (hhdr.sizes j).trans (h.sizes j)
  msgnoget j := (hhdr.msgnoget j).trans (h.msgnoget j)
  band j hj := by
    rw [hhdr.band]
    exact h.band j hj
  put := by
    rw [hhdr.band]
    exact h.put

theorem queclass_lt_iff (x : Msgb) : QNORM < queclass x ↔ QPCTL ≤ x.dbType := by
  unfold queclass
  split
  · rename_i h
    exact ⟨fun _ => h, fun _ => by decide⟩
  · rename_i h
    exact ⟨fun hlt => absurd hlt (by decide), fun hle => absurd hle h⟩

structure PutDone (m : Blocks) (q : Queue) (l : List Nat) (bp t k : Nat)
    (r : Put) : Prop where
  frame : PutFrame m r.m l bp
  nband : q.qNband + k < 256
  grown : k = 0 ∨ q.qNband + k ≤ (m.blk bp).acct
  same : SameFlags q r.q
  done : r.ok = decide ((m.blk bp).acct ≤ q.qNband + k)
  enable : r.enable = (r.ok && (decide (QPCTL ≤ (m.blk bp).dbType) || (canenable q && q.qWantr)))
  put : r.ok = true → r.q.Ok r.m (insertAt m.rank t bp l) ∧ r.q.qNband = q.qNband + k ∧
    ∀ c, r.q.flow c = if c = (m.blk bp).acct then
      ((q.addBands k).flow c).map fun f => f.charge (m.blk bp)
      else (q.addBands k).flow c
  refused : r.ok = false → r.q.Ok r.m l ∧ r.q = q.addBands k

theorem Flow.charge_congr {x y : Msgb} (h : x.sizes = y.sizes) (f : Flow) :
    f.charge x = f.charge y := by
  simp [Flow.charge, h]

theorem putWith_spec {link : Blocks → Queue → Nat → Option (Blocks × Queue)}
    {t : Nat → Nat} (hlow : ∀ r, r ≤ t r) (hhigh : ∀ r, t r ≤ r + 1)
    (hlink : ∀ m q l bp, Queue.Ok m q l → bp ∉ l → m.Normal bp →
      m.band bp ≤ q.qNband → ∃ m' q', link m q bp = some (m', q') ∧
        Placed m q l bp (t (m.rank bp)) m' q')
    (h : q.Ok m l) (hbp : bp ∉ l) (hvalid : bp < m.nblk) (avail : List Bool) :
    ∃ r k, putWith link avail m q bp = some r ∧ PutDone m q l bp (t (m.rank bp)) k r := by
  have hframe := m.forceBand_frame bp l
  have hclear := m.forceBand_frame bp []
  have hnormal := m.forceBand_normal bp
  have hok : q.Ok (m.forceBand bp) l :=
    h.congr (fun p hp => hclear.frame p (by simp) (ne_of_notMem hbp hp)) hclear.nblk
  have hacct : (m.blk bp).acct < 256 := by
    rw [← hframe.put]
    exact (m.forceBand bp).band_lt bp
  have hband : ((m.forceBand bp).blk bp).bBand = (m.blk bp).acct := hframe.put
  rcases growBands_spec ((m.forceBand bp).blk bp).bBand avail q with ⟨k, rest, hgrow, hk⟩
  rw [hband] at hgrow hk
  have hnband := h.nband
  have hroom : q.qNband + k < 256 := by omega
  have hgrown : (q.addBands k).Ok (m.forceBand bp) l := hok.addBands hroom
  have hclass : decide (QNORM < queclass (m.blk bp)) =
      decide (QPCTL ≤ (m.blk bp).dbType) := by
    simp only [queclass_lt_iff]
  have hacct' : (m.forceBand bp).band bp = (m.blk bp).acct := hframe.put
  by_cases hle : (m.blk bp).acct ≤ q.qNband + k
  · rcases hlink (m.forceBand bp) (q.addBands k) l bp hgrown hbp hnormal
      (by rw [Queue.qNband_addBands, hacct']; exact hle) with
      ⟨m', q', hrun, hplaced⟩
    have hput := hframe.trans_hdr hplaced.hdr hplaced.frame
    have hband' : (m'.blk bp).bBand = (m.blk bp).acct := hput.put
    have hgrow' : SameFlags q (q.addBands k) := ⟨rfl, rfl, rfl, rfl, rfl, rfl⟩
    have hsame : SameFlags q (q'.chargeBand (m'.blk bp)) :=
      (hgrow'.trans (SameFlags.of_bare hplaced.bare)).trans (q'.sameFlags_chargeBand _)
    rcases Queue.bare_chargeBand_pointers q' (m'.blk bp) with ⟨hfirst, hlast, hcharged⟩
    have hgrown' := Queue.qNband_of_bare hplaced.bare
    rw [Queue.qNband_addBands] at hgrown'
    refine ⟨⟨m', q'.chargeBand (m'.blk bp), true,
      decide (QNORM < queclass (m.blk bp)) || (canenable (q'.chargeBand (m'.blk bp)) &&
          (q'.chargeBand (m'.blk bp)).qWantr), rest⟩, k, ?_, hput, hroom, hk,
      hsame,
      (decide_eq_true hle).symm, ?_, ?_, ?_⟩
    · simp only [putWith, hband, hgrow, hle, decide_true, if_true, hrun]
      rfl
    · have hwantr : (q'.chargeBand (m'.blk bp)).qWantr = q.qWantr := by
        have hbare := congrArg (fun x => x.qWantr) hplaced.bare
        unfold Queue.chargeBand
        split <;> exact hbare
      rw [hclass]
      simp only [canenable, hsame.qNoenb, hwantr, Bool.true_and]
    · intro _
      have hplaced' := hplaced.ok hgrown (by rw [hframe.nblk]; exact hvalid)
        hnormal (by rw [Queue.qNband_addBands, hacct']; exact hle) ?_ ?_
      · rw [hframe.rank] at hplaced'
        refine ⟨hplaced'.of_queue hfirst hlast hcharged fun c hc =>
          Queue.delim_chargeBand q' _ hc, by rw [hcharged, hgrown'], ?_⟩
        intro c
        rw [Queue.flow_chargeBand, hband', Queue.flow_of_bare hplaced.bare]
        have hcharge : (fun f : Flow => f.charge (m'.blk bp)) = fun f => f.charge (m.blk bp) :=
          funext fun f => Flow.charge_congr (hput.sizes bp) f
        rw [hcharge]
      · exact hlow _
      · exact hhigh _
    · intro hfalse
      cases hfalse
  · refine ⟨⟨m.forceBand bp, q.addBands k, false, false, rest⟩, k, ?_, hframe,
      hroom, hk, ⟨rfl, rfl, rfl, rfl, rfl, rfl⟩, (decide_eq_false hle).symm,
      rfl, ?_, fun _ => ⟨hgrown, rfl⟩⟩
    · simp only [putWith, hband, hgrow, hle, decide_false, Bool.false_eq_true, if_false]
    · intro hfalse
      cases hfalse

theorem putq_spec (h : q.Ok m l) (hbp : bp ∉ l) (hvalid : bp < m.nblk)
    (avail : List Bool) : ∃ r k, putq avail m q bp = some r ∧ PutDone m q l bp (m.rank bp) k r :=
  putWith_spec (t := fun r => r) (fun r => Nat.le_refl r) (fun r => Nat.le_succ r)
    (fun _ _ _ _ h hbp hnormal hband => putqLink_spec h hbp hnormal hband)
    h hbp hvalid avail

theorem putbq_spec (h : q.Ok m l) (hbp : bp ∉ l) (hvalid : bp < m.nblk)
    (avail : List Bool) : ∃ r k, putbq avail m q bp = some r ∧
      PutDone m q l bp (m.rank bp + 1) k r :=
  putWith_spec (t := fun r => r + 1) (fun r => Nat.le_succ r) (fun r => Nat.le_refl (r + 1))
    (fun _ _ _ _ h hbp hnormal hband => putbqLink_spec h hbp hnormal hband)
    h hbp hvalid avail

end Puts

/-!
## Removals
-/

structure Taken (m : Blocks) (q : Queue) (l : List Nat) (mp : Nat) (f : Flow)
    (m' : Blocks) (q' : Queue) (relief : Relief) : Prop where
  ok : q'.Ok m' (l.erase mp)
  hdr : SameHdr m m'
  frame : ∀ j, j ∉ l → m'.blk j = m.blk j
  same : SameFlags q q'
  nband : q'.qNband = q.qNband
  flow : q.flow (m.band mp) = some f
  relief : relief = if (f.take (m.blk mp)).relieved then some [m.band mp]
    else none
  flows : ∀ c, q'.flow c =
    if c = m.band mp then some (f.take (m.blk mp)).relieve else q.flow c

variable {qb : Qband}

section Removals

variable {m m' : Blocks} {q q' : Queue} {l a b : List Nat} {mp : Nat}

theorem erase_of_split (hnodup : (a ++ mp :: b).Nodup) : (a ++ mp :: b).erase mp = a ++ b := by
  have hmp : mp ∉ a := by
    intro hmem
    rw [nodup_append] at hnodup
    exact hnodup.2.2 mp hmem mp (by simp) rfl
  rw [erase_append_right _ hmp, erase_cons_head]

section

variable (h : q.Ok m (a ++ mp :: b))
include h

theorem Relinked.ok_remove
    (hrel : Relinked m q' (a ++ mp :: b) m' q'' (a ++ b)) (hnband : q'.qNband = q.qNband)
    (hdelim : ∀ c, 1 ≤ c → c ≤ q.qNband → q'.delim c = some ((level m.rank c (a ++ b)).head?,
        (level m.rank c (a ++ b)).getLast?)) : q''.Ok m' (a ++ b) where
  links := hrel.links
  valid p hp := by
    rw [hrel.hdr.nblk]
    apply h.valid p
    rcases mem_append.mp hp with hp | hp <;> simp [hp]
  ranked := by
    rw [hrel.hdr.rank]
    exact h.ranked.sublist (by simp)
  normal p hp := by
    unfold Blocks.Normal
    rw [hrel.hdr.dbType, hrel.hdr.band]
    apply h.normal p
    rcases mem_append.mp hp with hp | hp <;> simp [hp]
  bands p hp := by
    have hp' : p ∈ a ++ mp :: b := by
      rcases mem_append.mp hp with hp | hp <;> simp [hp]
    have hbare := Queue.qNband_of_bare hrel.bare
    rw [hrel.hdr.band, hbare, hnband]
    exact h.bands p hp'
  delim c hc hc' := by
    have hbare := Queue.qNband_of_bare hrel.bare
    rw [hbare, hnband] at hc'
    rw [hrel.delim, hrel.hdr.rank]
    exact hdelim c hc hc'
  nband := by
    have hbare := Queue.qNband_of_bare hrel.bare
    rw [hbare, hnband]
    exact h.nband

theorem Queue.Ok.drop_ends (hpos : 1 ≤ m.band mp)
    (hqb : q.band? (m.band mp) = some qb) :
    ((qb.drop m mp).qbFirst, (qb.drop m mp).qbLast) = ((level m.rank (m.band mp) (a ++ b)).head?,
        (level m.rank (m.band mp) (a ++ b)).getLast?) := by
  have hrank : m.rank mp = m.band mp := rank_of_band (h.normal mp (by simp)) rfl hpos
  have hnext : (m.blk mp).bNext = b.head? := DLinked.next_eq h.links
  have hprev : (m.blk mp).bPrev = a.getLast? := DLinked.prev_eq h.links
  have hnodup := DLinked.nodup h.links
  have hranked := h.ranked
  rcases h.band_ends hpos hqb with ⟨hfirst, hlast⟩
  rw [level_append_cons hrank] at hfirst hlast
  -- Among the neighbours the band tells the level.
  have hsame : ∀ p, p ∈ a ++ mp :: b →
      decide ((m.blk p).bBand = (m.blk mp).bBand) =
        decide (m.rank p = m.rank mp) := by
    intro p hp
    have hiff : m.band p = m.band mp ↔ m.rank p = m.rank mp := by
      rw [hrank]
      constructor
      · intro hband
        exact rank_of_band (h.normal p hp) hband hpos
      · intro hr
        exact band_of_rank hr (m.band_lt mp)
    simpa [Blocks.band] using hiff
  have hnextSame : ((m.blk mp).bNext.filter fun j =>
      decide ((m.blk j).bBand = (m.blk mp).bBand)) = (level m.rank (m.band mp) b).head? := by
    have hcut : Ranked m.rank (mp :: b) := hranked.sublist (by simp)
    rw [hnext, ← hrank, ← head?_level hcut]
    cases hb : b.head? with
    | none => rfl
    | some j =>
      have hj : j ∈ a ++ mp :: b := by simp [mem_of_head? hb]
      rw [filter_some, filter_some, hsame j hj]
  have hprevSame : ((m.blk mp).bPrev.filter fun j =>
      decide ((m.blk j).bBand = (m.blk mp).bBand)) = (level m.rank (m.band mp) a).getLast? := by
    have hcut : Ranked m.rank (a ++ [mp]) := hranked.sublist (by simp)
    rw [hprev, ← hrank, ← getLast?_level hcut]
    cases ha : a.getLast? with
    | none => rfl
    | some j =>
      have hj : j ∈ a ++ mp :: b := by simp [mem_of_getLast? ha]
      rw [filter_some, filter_some, hsame j hj]
  have hmpA : mp ∉ level m.rank (m.band mp) a := by
    intro hmem
    rw [nodup_append] at hnodup
    exact hnodup.2.2 mp (mem_level.mp hmem).1 mp (by simp) rfl
  have hmpB : mp ∉ level m.rank (m.band mp) b := by
    intro hmem
    rw [nodup_append] at hnodup
    exact (nodup_cons.mp hnodup.2.1).1 (mem_level.mp hmem).1
  have hlevel : level m.rank (m.band mp) (a ++ b) =
      level m.rank (m.band mp) a ++ level m.rank (m.band mp) b := by
    unfold level
    rw [filter_append]
  rw [hlevel, Prod.mk.injEq]
  constructor
  · unfold Qband.drop
    simp only [hfirst, hnextSame]
    cases hla : level m.rank (m.band mp) a with
    | nil => simp
    | cons i rest =>
      have hne : ¬ i = mp := by
        rintro rfl
        simp [hla] at hmpA
      simp [hne]
  · unfold Qband.drop
    simp only [hlast, hprevSame]
    rw [getLast?_append_cons, getLast?_append]
    cases hlb : level m.rank (m.band mp) b with
    | nil => simp
    | cons i rest =>
      rw [getLast?_cons_cons]
      have hne : ¬ (i :: rest).getLast? = some mp := by
        intro heq
        have hmem := mem_of_getLast? heq
        rw [← hlb] at hmem
        exact hmpB hmem
      rw [if_neg hne]
      cases hget : (i :: rest).getLast? with
      | none => simp at hget
      | some k => rfl

theorem taken_of_unlink {r : Queue}
    (hbare : r.bare = q.bare) (hfirst : r.qFirst = q.qFirst) (hlast : r.qLast = q.qLast)
    (hdelim : ∀ c, 1 ≤ c → c ≤ q.qNband → r.delim c = some ((level m.rank c (a ++ b)).head?,
        (level m.rank c (a ++ b)).getLast?)) :
    ∃ q' relief f, (unlink m r mp).2.dischargeBand (m.blk mp) = some (q', relief) ∧
      Taken m q (a ++ mp :: b) mp f (unlink m r mp).1 q' relief := by
  have hnodup := DLinked.nodup h.links
  have hlinks : r.Links m (a ++ mp :: b) := by
    unfold Queue.Links
    rw [hfirst, hlast]
    exact h.links
  have hrel := unlink_spec hlinks
  have hok := hrel.ok_remove h (Queue.qNband_of_bare hbare) hdelim
  have hunlinked : (unlink m r mp).2.bare = q.bare := hrel.bare.trans hbare
  have hnband := Queue.qNband_of_bare hunlinked
  have hbandLe : (m.blk mp).bBand ≤ (unlink m r mp).2.qNband := by
    rw [hnband]
    exact h.bands mp (by simp)
  rcases Queue.dischargeBand_spec hbandLe with
    ⟨q', relief, f, hrun, hflow, hrelief, hflows, hends, hq', hnband', _⟩
  rw [Queue.flow_of_bare hunlinked] at hflow
  refine ⟨q', relief, f, hrun, ?_, hrel.hdr, ?_, ?_, hnband'.trans hnband, hflow, hrelief, ?_⟩
  · rw [erase_of_split hnodup]
    exact hok.of_queue (by rw [hq']) (by rw [hq']) hnband' hends
  · intro j hj
    apply hrel.frame j hj
    intro hmem
    apply hj
    rcases mem_append.mp hmem with hmem | hmem <;> simp [hmem]
  · apply (SameFlags.of_bare hunlinked).trans
    rw [hq']
    exact ⟨rfl, rfl, rfl, rfl, rfl, rfl⟩
  · intro c
    rw [hflows, Queue.flow_of_bare hunlinked]
    rfl

theorem Queue.Ok.delim_remove_normal
    (hb : m.band mp = 0) : ∀ c, 1 ≤ c → c ≤ q.qNband →
      q.delim c = some ((level m.rank c (a ++ b)).head?, (level m.rank c (a ++ b)).getLast?) := by
  intro c hc hc'
  have hne : m.rank mp ≠ c := by
    intro hrank
    have := h.nband
    rw [band_of_rank hrank (by omega)] at hb
    omega
  rw [h.delim c hc hc', level_remove_of_ne hne]

theorem Queue.Ok.delim_remove_band (hpos : 1 ≤ m.band mp)
    {f : Qband → Qband} (hqb : q.band? (m.band mp) = some qb)
    (hends : ((f qb).qbFirst, (f qb).qbLast) = ((level m.rank (m.band mp) (a ++ b)).head?,
        (level m.rank (m.band mp) (a ++ b)).getLast?)) :
    ∀ c, 1 ≤ c → c ≤ q.qNband → (q.modBand (m.band mp) f).delim c =
      some ((level m.rank c (a ++ b)).head?, (level m.rank c (a ++ b)).getLast?) := by
  intro c hc hc'
  have hrank : m.rank mp = m.band mp := rank_of_band (h.normal mp (by simp)) rfl hpos
  by_cases hne : c = m.band mp
  · rw [hne, Queue.delim, Queue.band?_modBand _ hpos hpos, if_pos rfl, hqb,
      map_some, map_some, hends]
  · have hne' : m.rank mp ≠ c := by
      rw [hrank]
      exact fun heq => hne heq.symm
    rw [Queue.delim_modBand _ hc hpos hne, h.delim c hc hc', level_remove_of_ne hne']

end

theorem rmvq_spec (h : q.Ok m l) (hmp : mp ∈ l) :
    ∃ m' q' relief f, rmvq m q mp = some (m', q', relief) ∧ Taken m q l mp f m' q' relief := by
  rcases append_of_mem hmp with ⟨a, b, rfl⟩
  by_cases hb : m.band mp = 0
  · have hb' : (m.blk mp).bBand = 0 := hb
    rcases taken_of_unlink h rfl rfl rfl (h.delim_remove_normal hb) with
      ⟨q', relief, f, hrun, htaken⟩
    refine ⟨_, q', relief, f, ?_, htaken⟩
    simp only [rmvq, hb', if_true, hrun]
    rfl
  · have hb' : ¬ (m.blk mp).bBand = 0 := hb
    have hpos : 1 ≤ m.band mp := by omega
    rcases Queue.band?_isSome hpos (h.bands mp hmp) with ⟨qb, hqb⟩
    have hqb' : q.band? (m.blk mp).bBand = some qb := hqb
    rcases taken_of_unlink (r := q.modBand (m.band mp) fun qb => qb.drop m mp)
      h (Queue.bare_modBand _ fun _ => rfl) rfl rfl
      (h.delim_remove_band hpos hqb (h.drop_ends hpos hqb)) with
      ⟨q', relief, f, hrun, htaken⟩
    refine ⟨_, q', relief, f, ?_, htaken⟩
    have hrun' : (unlink m (q.modBand (m.blk mp).bBand fun qb => qb.drop m mp)
        mp).2.dischargeBand (m.blk mp) = some (q', relief) := hrun
    simp only [rmvq, hb', if_false, hqb', bind_eq_bind, bind_some, hrun']
    rfl

theorem Queue.Ok.unlink_first (h : q.Ok m (bp :: b)) : unlink m q bp = (match (m.blk bp).bNext with
      | none => ((m.setNext bp none).setPrev bp none, { q with qFirst := none, qLast := none })
      | some j => (((m.setPrev j none).setNext bp none).setPrev bp none,
          { q with qFirst := some j })) := by
  have hprev : (m.blk bp).bPrev = none := DLinked.prev_eq (a := []) h.links
  cases hnext : (m.blk bp).bNext <;> simp [unlink, hprev, hnext]

theorem Queue.Ok.shift_ends (h : q.Ok m (bp :: b)) (hpos : 1 ≤ m.band bp)
    (hqb : q.band? (m.band bp) = some qb) :
    ((qb.shift (m.blk bp).bNext).qbFirst, (qb.shift (m.blk bp).bNext).qbLast) =
      ((level m.rank (m.band bp) b).head?, (level m.rank (m.band bp) b).getLast?) := by
  have hrank : m.rank bp = m.band bp := rank_of_band (h.normal bp (by simp)) rfl hpos
  have hnext : (m.blk bp).bNext = b.head? := DLinked.next_eq (a := []) h.links
  have hnodup := DLinked.nodup h.links
  rcases h.band_ends hpos hqb with ⟨hfirst, hlast⟩
  have hlevel := level_append_cons (a := []) (b := b) hrank
  rw [nil_append] at hlevel
  rw [hlevel] at hfirst hlast
  have hfirst' : qb.qbFirst = some bp := hfirst
  have hbp : bp ∉ level m.rank (m.band bp) b := by
    intro hmem
    exact (nodup_cons.mp hnodup).1 (mem_level.mp hmem).1
  have hhead := head?_level h.ranked
  rw [hrank] at hhead
  cases hrest : level m.rank (m.band bp) b with
  | nil =>
    rw [hrest] at hlast
    have heq : qb.qbFirst = qb.qbLast := by
      rw [hfirst', hlast]
      rfl
    simp [Qband.shift, heq]
  | cons i rest =>
    rw [hrest] at hlast hhead
    have hlast' : qb.qbLast = (i :: rest).getLast? := by
      rw [hlast]
      exact getLast?_cons_cons
    have hne : ¬ qb.qbFirst = qb.qbLast := by
      rw [hfirst', hlast']
      intro heq
      have hmem := mem_of_getLast? heq.symm
      rw [← hrest] at hmem
      exact hbp hmem
    have hb : b.head? = some i := by
      cases hbh : b.head? with
      | none => simp [hbh] at hhead
      | some k =>
        rw [hbh, filter_some] at hhead
        split at hhead
        · exact hhead
        · cases hhead
    have hshift : qb.shift (m.blk bp).bNext = { qb with qbFirst := (m.blk bp).bNext } := if_neg hne
    rw [hshift, hnext, hb]
    simp only [hlast']
    rfl

theorem getqFirst_spec (h : q.Ok m (bp :: b)) : ∃ g f, getqFirst m q bp = some g ∧ g.bp = some bp ∧
      Taken m q (bp :: b) bp f g.m g.q g.relief := by
  have hread : ∀ {m' : Blocks} {q' : Queue} {relief : Relief} {f : Flow},
      Taken m q (bp :: b) bp f m' q' relief →
      Taken m q (bp :: b) bp f m' { q' with qWantr := false } relief := by
    intro m' q' relief f ht
    exact ⟨ht.ok.of_queue rfl rfl rfl fun _ _ => rfl, ht.hdr, ht.frame,
      ht.same.trans ⟨rfl, rfl, rfl, rfl, rfl, rfl⟩, ht.nband, ht.flow,
      ht.relief, ht.flows⟩
  have hall : q.Ok m ([] ++ bp :: b) := h
  by_cases hb : m.band bp = 0
  · have hb' : (m.blk bp).bBand = 0 := hb
    rcases taken_of_unlink hall rfl rfl rfl (hall.delim_remove_normal hb) with
      ⟨q', relief, f, hrun, htaken⟩
    refine ⟨⟨(unlink m q bp).1, { q' with qWantr := false }, some bp, relief⟩,
      f, ?_, rfl, hread htaken⟩
    rw [h.unlink_first] at hrun ⊢
    cases hnext : (m.blk bp).bNext with
    | none =>
      rw [hnext] at hrun
      simp only [getqFirst, hnext, hb', if_true]
      rw [hrun]
      rfl
    | some j =>
      rw [hnext] at hrun
      simp only [getqFirst, hnext, hb', if_true]
      rw [hrun]
      rfl
  · have hb' : ¬ (m.blk bp).bBand = 0 := hb
    have hpos : 1 ≤ m.band bp := by omega
    rcases Queue.band?_isSome hpos (h.bands bp (by simp)) with ⟨qb, hqb⟩
    let q₀ := q.modBand (m.band bp) fun qb => qb.shift (m.blk bp).bNext
    rcases taken_of_unlink hall
      (Queue.bare_modBand _ fun qb => by unfold Qband.shift; split <;> rfl)
      rfl rfl (hall.delim_remove_band hpos hqb (h.shift_ends hpos hqb)) with
      ⟨q', relief, f, hrun, htaken⟩
    refine ⟨⟨(unlink m q₀ bp).1, { q' with qWantr := false }, some bp, relief⟩,
      f, ?_, rfl, hread htaken⟩
    have hprev : (m.blk bp).bPrev = none := DLinked.prev_eq (a := []) h.links
    cases hnext : (m.blk bp).bNext with
    | none =>
      have hunlink : unlink m q₀ bp = ((m.setNext bp none).setPrev bp none,
          { q₀ with qFirst := none, qLast := none }) := by
        simp [unlink, hprev, hnext]
      rw [hunlink] at hrun ⊢
      have hrun' : Queue.dischargeBand (Queue.modBand
          { q with qFirst := none, qLast := none } (m.blk bp).bBand
          fun qb => qb.shift none) (m.blk bp) = some (q', relief) := by
        rw [← hrun]
        simp only [q₀, hnext]
        rfl
      simp only [getqFirst, hnext, hb', if_false]
      rw [hrun']
      rfl
    | some j =>
      have hunlink : unlink m q₀ bp = (((m.setPrev j none).setNext bp none).setPrev bp none,
            { q₀ with qFirst := some j }) := by
        simp [unlink, hprev, hnext]
      rw [hunlink] at hrun ⊢
      have hrun' : Queue.dischargeBand (Queue.modBand { q with qFirst := some j } (m.blk bp).bBand
          fun qb => qb.shift (some j)) (m.blk bp) = some (q', relief) := by
        rw [← hrun]
        simp only [q₀, hnext]
        rfl
      simp only [getqFirst, hnext, hb', if_false]
      rw [hrun']
      rfl

theorem getq_spec (h : q.Ok m l) :
    ∃ g, getq m q = some g ∧ g.bp = (l.find? fun p => !(m.blk p).msgnoget) ∧ (match g.bp with
        | some p => ∃ f, Taken m q l p f g.m g.q g.relief
        | none => g.m = m ∧ if l = [] then g.q = { q with qWantr := true, qWantw := false } ∧
              g.relief = (if q.qWantw then some [0] else none) else g.q = q ∧ g.relief = none) := by
  have hfirst := DLinked.first_eq h.links
  cases l with
  | nil =>
    have hfirst' : q.qFirst = none := hfirst
    exact ⟨⟨m, { q with qWantr := true, qWantw := false }, none,
      if q.qWantw then some [0] else none⟩, by simp [getq, hfirst'], rfl,
      rfl, rfl, rfl⟩
  | cons bp b =>
    have hfirst' : q.qFirst = some bp := hfirst
    by_cases hnoget : (m.blk bp).msgnoget = true
    · cases hfind : (bp :: b).find? fun p => !(m.blk p).msgnoget with
      | none =>
        have hpass : ∀ j ∈ bp :: b, (m.blk j).msgnoget = true := by
          intro j hj
          have := find?_eq_none.mp hfind j hj
          simpa using this
        have hforward : Chain m.next (some bp) (bp :: b) none := by
          rw [← hfirst']
          exact h.links.forward
        have hseek := seek_end (c := fun x => x.msgnoget) (some bp) m.nblk
          hforward hpass h.length_le
        exact ⟨⟨m, q, none, none⟩, by simp [getq, hfirst', hnoget, hseek],
          rfl, rfl, rfl, rfl⟩
      | some p =>
        rcases find?_eq_some_iff_append.mp hfind with ⟨hp, front, back, hsplit, hpass⟩
        have hmem : p ∈ bp :: b := by
          rw [hsplit]
          simp
        rcases rmvq_spec h hmem with ⟨m', q', relief, f, hrun, htaken⟩
        refine ⟨⟨m', q', some p, relief⟩, ?_, rfl, f, htaken⟩
        have hforward : Chain m.next (some bp) (front ++ p :: back) none := by
          rw [← hfirst', ← hsplit]
          exact h.links.forward
        have hlen := h.length_le
        rw [hsplit, length_append, length_cons] at hlen
        have hseek := seek_found (c := fun x => x.msgnoget) (some bp) m.nblk
          hforward (fun j hj => by simpa using hpass j hj)
          (by simpa using hp) (by omega)
        simp [getq, hfirst', hnoget, hseek, hrun]
    · rcases getqFirst_spec h with ⟨g, f, hrun, hbp, htaken⟩
      refine ⟨g, by simp [getq, hfirst', hnoget, hrun], ?_, ?_⟩
      · rw [hbp, find?_cons_of_pos (by simpa using hnoget)]
      · rw [hbp]
        exact ⟨f, htaken⟩

end Removals

end Streams
end Svr4
