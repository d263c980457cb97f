import Svr4.Streams.Guarantees

/-!
# Inserting a message into a queue

The routine `insq` of `io/stream.c` puts a message before a given one
or at the end of a queue.  It trusts its caller with the place, refuses some of
the places that break the order, and moves the ends of the band of the message.
-/

namespace Svr4
namespace Streams

open Blocks RankedList List Queue Option

/-!
## The routine
-/

/-- The checks of `insq` that end at `badord`. -/
def insqBadord (m : Blocks) (q : Queue) (emp : Option Nat) (mp : Nat) : Bool :=
  let x := m.blk mp
  let mcls := queclass x
  match emp with
  | some e =>
    let prev := (m.blk e).bPrev.map m.blk
    (decide (mcls = QPCTL) && prev.any fun y => decide (y.dbType < QPCTL)) ||
    (decide (mcls = QNORM) && decide (x.bBand < (m.blk e).bBand)) ||
    prev.any fun y => decide (y.dbType < QPCTL) && decide (y.bBand < x.bBand)
  | none =>
    (q.qLast.map m.blk).any fun y =>
      decide (mcls = QNORM) && decide (y.bBand < x.bBand)

/-- The part of `insq` that links the message. -/
def insqLink (m : Blocks) (q : Queue) (emp : Option Nat) (mp : Nat) :
    Blocks × Queue :=
  match emp with
  | some e => linkBefore m q mp e
  | none =>
    match q.qLast with
    | some tmp => linkLast m q mp tmp
    | none => linkOnly m q mp

/-- The ends of the band of `mp`, which is linked before `emp`. -/
def Qband.insert (m : Blocks) (emp : Option Nat) (mp : Nat) (qb : Qband) :
    Qband :=
  match qb.qbFirst with
  | none => { qb with qbFirst := some mp, qbLast := some mp }
  | some _ =>
    if qb.qbFirst = emp then { qb with qbFirst := some mp }
    else if ((m.blk mp).bNext.map m.blk).any fun y =>
        decide (y.bBand ≠ (m.blk mp).bBand) then
      { qb with qbLast := some mp }
    else qb

def insq (avail : List Bool) (m : Blocks) (q : Queue) (emp : Option Nat)
    (mp : Nat) : Put :=
  let m := m.forceBand mp
  if insqBadord m q emp mp then ⟨m, q, false, false, avail⟩
  else
    let band := (m.blk mp).bBand
    let (found, q, avail) := growBands band avail q
    if found then
      let (m, q) := insqLink m q emp mp
      let q := if band = 0 then q else q.modBand band fun qb => qb.insert m emp mp
      let q := q.chargeBand (m.blk mp)
      ⟨m, q, true, canenable q && q.qWantr, avail⟩
    else ⟨m, q, false, false, avail⟩

/-!
## Memory for the bands
-/

def granted (avail : List Bool) : Nat := (avail.takeWhile id).length

theorem growBands_eq (pri : Nat) (avail : List Bool) (q : Queue) :
    ∃ rest, growBands pri avail q = (decide (pri ≤ q.qNband + granted avail),
        q.addBands (min (granted avail) (pri - q.qNband)), rest) := by
  induction avail generalizing q with
  | nil => exact ⟨[], by simp [growBands, granted]⟩
  | cons ok rest ih =>
    by_cases hpri : pri ≤ q.qNband
    · have hzero : pri - q.qNband = 0 := by omega
      have hle : pri ≤ q.qNband + granted (ok :: rest) := by omega
      refine ⟨ok :: rest, ?_⟩
      rw [decide_eq_true hle, hzero, Nat.min_zero, addBands_zero]
      simp [growBands, hpri]
    · cases ok with
      | false =>
        refine ⟨rest, ?_⟩
        simp [growBands, granted, hpri]
      | true =>
        rcases ih { q with qBandp := q.qBandp ++ [q.newBand] } with ⟨rest', hrun⟩
        have hlen : qNband { q with qBandp := q.qBandp ++ [q.newBand] } = q.qNband + 1 := by
          simp [qNband]
        have hgranted : granted (true :: rest) = granted rest + 1 := by
          simp [granted]
        have hgrow : growBands pri (true :: rest) q = growBands pri rest
            { q with qBandp := q.qBandp ++ [q.newBand] } := by
          simp [growBands, hpri]
        have hmin : min (granted rest + 1) (pri - q.qNband) =
            min (granted rest) (pri - (q.qNband + 1)) + 1 := by omega
        have hroom : q.qNband + 1 + granted rest = q.qNband + (granted rest + 1) := by omega
        refine ⟨rest', ?_⟩
        rw [hgrow, hrun, hlen, hgranted, hmin, addBands_succ, hroom]

/-!
## The place
-/

section Place

variable {m m' : Blocks} {q q' : Queue} {a b : List Nat} {mp e : Nat}

theorem insqLink_spec (h : q.Links m (a ++ b)) (hmp : mp ∉ a ++ b) :
    Relinked m q (a ++ b) (insqLink m q b.head? mp).1
      (insqLink m q b.head? mp).2 (a ++ mp :: b) := by
  cases b with
  | cons e rest => exact linkBefore_spec h hmp
  | nil =>
    rw [append_nil] at h hmp ⊢
    have hlast : q.qLast = a.getLast? := DLinked.last_eq h
    rcases eq_nil_or_concat' a with rfl | ⟨init, tmp, rfl⟩
    · have hrun : insqLink m q none mp = linkOnly m q mp := by
        simp [insqLink, hlast]
      rw [head?_nil, hrun]
      exact linkOnly_spec mp
    · have hrun : insqLink m q none mp = linkLast m q mp tmp := by
        simp [insqLink, hlast]
      rw [head?_nil, hrun]
      exact linkLast_spec h hmp

/--
The places that pass the checks although they break the order: behind a message
of a lower class, for one of high priority, and before one of high priority,
for any other.
-/
structure InOrder (m : Blocks) (a b : List Nat) (mp : Nat) : Prop where
  high : QPCTL ≤ (m.blk mp).dbType → b = [] → ∀ y, a.getLast? = some y → QPCTL ≤ (m.blk y).dbType
  low : ¬ QPCTL ≤ (m.blk mp).dbType → ∀ y, b.head? = some y → ¬ QPCTL ≤ (m.blk y).dbType

theorem queclass_normal_iff (x : Msgb) : queclass x = QNORM ↔ ¬ QPCTL ≤ x.dbType := by
  rw [← queclass_lt_iff]
  unfold queclass
  split
  · decide
  · decide

theorem insqBadord_end (hlast : q.qLast = a.getLast?) :
    insqBadord m q none mp = false ↔ ¬ QPCTL ≤ (m.blk mp).dbType →
      ∀ y, a.getLast? = some y → m.band mp ≤ m.band y := by
  unfold insqBadord Blocks.band
  simp only [hlast, queclass_normal_iff]
  cases a.getLast? with
  | none => simp
  | some y =>
    by_cases hhigh : QPCTL ≤ (m.blk mp).dbType <;> simp [hhigh]

theorem insqBadord_before (hprev : (m.blk e).bPrev = a.getLast?) :
    insqBadord m q (some e) mp = false ↔ (¬ QPCTL ≤ (m.blk mp).dbType → m.band e ≤ m.band mp) ∧
      ∀ y, a.getLast? = some y → ¬ QPCTL ≤ (m.blk y).dbType →
        ¬ QPCTL ≤ (m.blk mp).dbType ∧ m.band mp ≤ m.band y := by
  unfold insqBadord Blocks.band
  simp only [hprev, queclass_normal_iff, queclass_eq_iff]
  cases a.getLast? with
  | none =>
    by_cases hhigh : QPCTL ≤ (m.blk mp).dbType <;> simp [hhigh]
  | some y =>
    by_cases hhigh : QPCTL ≤ (m.blk mp).dbType <;>
      by_cases hy : QPCTL ≤ (m.blk y).dbType <;> simp [hhigh, hy]

theorem Blocks.le_rank_iff_high (hhigh : QPCTL ≤ (m.blk mp).dbType) {y : Nat} :
    m.rank mp ≤ m.rank y ↔ QPCTL ≤ (m.blk y).dbType := by
  rw [rank_high hhigh]
  constructor
  · intro hle
    by_contra hlow
    have := m.band_lt y
    rw [rank_low hlow] at hle
    omega
  · intro hy
    rw [rank_high hy]

theorem Blocks.band_le_rank (m : Blocks) (y : Nat) : m.band y ≤ m.rank y := by
  have := m.band_lt y
  by_cases hy : QPCTL ≤ (m.blk y).dbType
  · rw [rank_high hy]
    omega
  · rw [rank_low hy]

/-- A place that passes the checks keeps the order in all other cases. -/
theorem ranked_insq_iff (h : q.Ok m (a ++ b)) (hpass : insqBadord m q b.head? mp = false) :
    Ranked m.rank (a ++ mp :: b) ↔ InOrder m a b mp := by
  rw [ranked_insert_iff h.ranked]
  cases b with
  | nil =>
    have hlast : q.qLast = a.getLast? := by
      have hlast := DLinked.last_eq h.links
      rwa [append_nil] at hlast
    have hpass := (insqBadord_end hlast).mp hpass
    constructor
    · rintro ⟨hle, _⟩
      refine ⟨fun hhigh _ y hy => ?_, nofun⟩
      exact (le_rank_iff_high hhigh).mp (hle y hy)
    · rintro ⟨hhigh, _⟩
      refine ⟨fun y hy => ?_, nofun⟩
      by_cases hmp : QPCTL ≤ (m.blk mp).dbType
      · exact (le_rank_iff_high hmp).mpr (hhigh hmp rfl y hy)
      · rw [rank_low hmp]
        exact (hpass hmp y hy).trans (m.band_le_rank y)
  | cons e rest =>
    have hprev : (m.blk e).bPrev = a.getLast? := DLinked.prev_eq h.links
    rcases (insqBadord_before hprev).mp hpass with ⟨hbehind, hbefore⟩
    have hle : ∀ y, a.getLast? = some y → m.rank mp ≤ m.rank y := by
      intro y hy
      by_cases hhigh : QPCTL ≤ (m.blk y).dbType
      · rw [rank_high hhigh]
        exact m.rank_le mp
      · rcases hbefore y hy hhigh with ⟨hmp, hband⟩
        rwa [rank_low hmp, rank_low hhigh]
    constructor
    · rintro ⟨_, hge⟩
      refine ⟨nofun, fun hmp y hy hhigh => ?_⟩
      have hle := hge y hy
      have := m.band_lt mp
      rw [rank_high hhigh, rank_low hmp] at hle
      omega
    · rintro ⟨_, hlow⟩
      refine ⟨hle, fun y hy => ?_⟩
      obtain rfl : e = y := some.inj hy
      by_cases hmp : QPCTL ≤ (m.blk mp).dbType
      · rw [rank_high hmp]
        exact m.rank_le e
      · rw [rank_low hmp, rank_low (hlow hmp e rfl)]
        exact hbehind hmp

end Place

/-!
## The ends of the band
-/

section Ends

variable {m m' : Blocks} {q q' : Queue} {a b : List Nat} {mp c : Nat}
  {qb : Qband}

theorem level_append (rank : Nat → Nat) (c : Nat) (a b : List Nat) :
    level rank c (a ++ b) = level rank c a ++ level rank c b := by
  unfold level
  rw [filter_append]

theorem level_of_first (hnodup : (a ++ b).Nodup) {rank : Nat → Nat} {e : Nat}
    (hfirst : (level rank c (a ++ b)).head? = some e) (he : b.head? = some e) :
    level rank c a = [] ∧ level rank c b ≠ [] := by
  have heb : e ∈ b := mem_of_head? he
  rw [level_append] at hfirst
  cases ha : level rank c a with
  | nil =>
    rw [ha, nil_append] at hfirst
    refine ⟨rfl, ?_⟩
    rintro hnil
    rw [hnil] at hfirst
    cases hfirst
  | cons i rest =>
    rw [ha, cons_append, head?_cons, some.injEq] at hfirst
    have hea : e ∈ a := by
      rw [← hfirst]
      have hi : i ∈ level rank c a := by
        rw [ha]
        simp
      exact (mem_level.mp hi).1
    exact absurd rfl ((nodup_append.mp hnodup).2.2 e hea e heb)

theorem Qband.insert_ends (hnodup : (a ++ b).Nodup)
    (hnormal : ∀ p ∈ b, m.Normal p) (hmp : mp ∉ a ++ b)
    (hord : Ranked m.rank (a ++ mp :: b)) (hrank : m.rank mp = c)
    (hband : m.band mp = c) (hc : 1 ≤ c) (hhdr : SameHdr m m') (hnext : (m'.blk mp).bNext = b.head?)
    (hfirst : qb.qbFirst = (level m.rank c (a ++ b)).head?)
    (hlast : qb.qbLast = (level m.rank c (a ++ b)).getLast?) :
    ((qb.insert m' b.head? mp).qbFirst, (qb.insert m' b.head? mp).qbLast) =
        ((level m.rank c (a ++ mp :: b)).head?, (level m.rank c (a ++ mp :: b)).getLast?) ↔
      (b = [] → level m.rank c a = []) := by
  rw [level_append_cons hrank]
  cases hlevel : (level m.rank c (a ++ b)).head? with
  | none =>
    have hrun : qb.insert m' b.head? mp = { qb with qbFirst := some mp, qbLast := some mp } := by
      simp [Qband.insert, hfirst.trans hlevel]
    have hnil := head?_eq_none_iff.mp hlevel
    rw [level_append, append_eq_nil_iff] at hnil
    simp [hrun, hnil.1, hnil.2]
  | some i =>
    have hqb := hfirst.trans hlevel
    cases b with
    | nil =>
      -- The source moves the last pointer only before a message.
      have hrun : qb.insert m' none mp = qb := by
        simp [Qband.insert, hqb, hnext]
      rw [append_nil] at hlevel hlast hmp
      have hne : level m.rank c a ≠ [] := by
        intro hnil
        rw [hnil] at hlevel
        cases hlevel
      have hlevel' : level m.rank c [] = [] := rfl
      rw [head?_nil, hrun, hlast, hlevel', Prod.mk.injEq,
        getLast?_append, getLast?_singleton, Option.some_or]
      constructor
      · rintro ⟨_, heq⟩
        exact absurd (mem_level.mp (mem_of_getLast? heq)).1 hmp
      · intro hnil
        exact absurd (hnil rfl) hne
    | cons e rest =>
      have hends : level m.rank c (a ++ e :: rest) =
          level m.rank c a ++ level m.rank c (e :: rest) :=
        level_append _ _ _ _
      refine iff_of_true ?_ nofun
      rw [head?_cons] at hnext ⊢
      by_cases hie : i = e
      · have hrun : qb.insert m' (some e) mp = { qb with qbFirst := some mp } := by
          simp [Qband.insert, hqb, hie]
        rcases level_of_first hnodup hlevel (by rw [hie]; rfl) with ⟨hbefore, hbehind⟩
        obtain ⟨j, js, hcons⟩ := exists_cons_of_ne_nil hbehind
        rw [hrun, hlast, hends, hbefore, hcons]
        simp
      · -- Where the band has messages behind, the first of them is there.
        have hbehind : m.rank e ≠ c → level m.rank c (e :: rest) = [] := by
          intro hne
          have hord' := (pairwise_append.mp hord).2.1
          have hnil := level_eq_nil hord' fun y hy => by
            obtain rfl : e = y := some.inj hy
            rw [hrank]
            exact hne
          rwa [hrank] at hnil
        obtain ⟨j, js, hbefore⟩ : ∃ j js, level m.rank c a = j :: js := by
          apply exists_cons_of_ne_nil
          intro hnil
          rw [hends, hnil, nil_append] at hlevel
          by_cases he : m.rank e = c
          · have hhead : (level m.rank c (e :: rest)).head? = some e := by
              simp [level, he]
            rw [hhead, some.injEq] at hlevel
            exact hie hlevel.symm
          · rw [hbehind he] at hlevel
            cases hlevel
        have hif : ¬ i = e := hie
        rw [hends, hbefore] at hlast
        rw [hends, hbefore, cons_append, head?_cons] at hlevel
        obtain rfl : j = i := some.inj hlevel
        by_cases he : m.band e = c
        · have hrun : qb.insert m' (some e) mp = qb := by
            have hband' : (m'.blk e).bBand = (m'.blk mp).bBand := by
              rw [hhdr.bBand, hhdr.bBand]
              exact he.trans hband.symm
            simp [Qband.insert, hqb, hif, hnext, hband']
          have hrank' := rank_of_band (hnormal e (by simp)) he hc
          have hcons : level m.rank c (e :: rest) = e :: level m.rank c rest := by
            simp [level, hrank']
          rw [hrun, hqb, hlast, hbefore, hcons, Prod.mk.injEq,
            getLast?_append, getLast?_append,
            getLast?_cons_cons]
          exact ⟨rfl, rfl⟩
        · have hrun : qb.insert m' (some e) mp = { qb with qbLast := some mp } := by
            have hband' : (m'.blk e).bBand ≠ (m'.blk mp).bBand := by
              rw [hhdr.bBand, hhdr.bBand]
              exact fun heq => he (heq.trans hband)
            simp [Qband.insert, hqb, hif, hnext, hband']
          have hlt : c < 256 := hband ▸ m.band_lt mp
          have hnil := hbehind fun hrank' => he (band_of_rank hrank' hlt)
          rw [hrun, hqb, hbefore, hnil, Prod.mk.injEq, getLast?_append]
          exact ⟨rfl, rfl⟩

end Ends

/-!
## The invariant with the counts
-/

/--
The invariant of a queue: its messages are in order, its bands know their ends,
and its counts are the bytes of the messages.
-/
structure Queue.Kept (m : Blocks) (q : Queue) (l : List Nat) : Prop where
  ok : q.Ok m l
  count_lt : ∀ c f, q.flow c = some f → f.count < 4294967296
  count : ∀ c f, q.flow c = some f → f.count = m.bytes l c

section Kept

variable {m m' : Blocks} {q q' : Queue} {l a b : List Nat} {mp : Nat}

theorem Queue.Kept.congr (h : q.Kept m l) (hblk : ∀ p ∈ l, m'.blk p = m.blk p)
    (hn : m'.nblk = m.nblk) : q.Kept m' l where
  ok := h.ok.congr hblk hn
  count_lt := h.count_lt
  count c f hf := by
    rw [bytes_congr hblk]
    exact h.count c f hf

theorem Queue.Kept.addBands (h : q.Kept m l) {k : Nat}
    (hk : q.qNband + k < 256) : (q.addBands k).Kept m l := by
  have hnew : ∀ c f, (q.addBands k).flow c = some f →
      q.flow c = some f ∨ q.qNband < c ∧ f.count = 0 := by
    intro c f hf
    rw [flow_addBands] at hf
    split at hf
    · exact Or.inl hf
    · rename_i hle
      split at hf
      · exact Or.inr ⟨Nat.lt_of_not_le hle, (some.inj hf) ▸ rfl⟩
      · cases hf
  refine ⟨h.ok.addBands hk, fun c f hf => ?_, fun c f hf => ?_⟩
  · rcases hnew c f hf with hold | ⟨_, hzero⟩
    · exact h.count_lt c f hold
    · omega
  · rcases hnew c f hf with hold | ⟨hlt, hzero⟩
    · exact h.count c f hold
    · have hnone : l.filter (fun p => decide (m.band p = c)) = [] := by
        rw [filter_eq_nil_iff]
        intro p hp
        have := h.ok.bands p hp
        rw [decide_eq_true_eq]
        omega
      rw [hzero, Blocks.bytes, hnone]
      rfl

theorem Blocks.bytes_insert (m : Blocks) (a b : List Nat) (mp c : Nat) : m.bytes (a ++ mp :: b) c =
      (if m.band mp = c then (m.blk mp).bytes else 0) + m.bytes (a ++ b) c := by
  rw [bytes_perm perm_middle, bytes_cons]

theorem charge_count_iff {f : Flow} {x : Msgb} (hlt : f.count < 4294967296) :
    (f.charge x).count = x.bytes + f.count ↔ f.count + x.bytes < 4294967296 := by
  have hcount : (f.charge x).count = ulong ((f.count : Int) + x.bytes) := by
    have hadd := addCount_ulong f.count x.sizes
    rw [ulong_of_lt hlt] at hadd
    exact hadd
  rw [hcount]
  unfold ulong
  omega

/-- What `insq` does to the queue once the band of the message is there. -/
def insqQueue (m m' : Blocks) (q : Queue) (emp : Option Nat) (mp : Nat) :
    Queue :=
  let band := (m.blk mp).bBand
  let q := if band = 0 then q else q.modBand band fun qb => qb.insert m' emp mp
  q.chargeBand (m'.blk mp)

theorem insqQueue_pointers (emp : Option Nat) :
    (insqQueue m m' q emp mp).qFirst = q.qFirst ∧ (insqQueue m m' q emp mp).qLast = q.qLast ∧
      (insqQueue m m' q emp mp).qNband = q.qNband := by
  rcases bare_chargeBand_pointers (if (m.blk mp).bBand = 0 then q
    else q.modBand (m.blk mp).bBand fun qb => qb.insert m' emp mp) (m'.blk mp)
    with ⟨hfirst, hlast, hnband⟩
  unfold insqQueue
  rw [hfirst, hlast, hnband]
  split
  · exact ⟨rfl, rfl, rfl⟩
  · exact ⟨rfl, rfl, qNband_modBand _⟩

theorem insqQueue_delim (emp : Option Nat) {c : Nat} (hc : 1 ≤ c) :
    (insqQueue m m' q emp mp).delim c = if c = m.band mp then (q.band? c).map fun qb =>
        ((qb.insert m' emp mp).qbFirst, (qb.insert m' emp mp).qbLast) else q.delim c := by
  unfold insqQueue
  rw [delim_chargeBand _ _ hc]
  by_cases hzero : (m.blk mp).bBand = 0
  · have hne : ¬ c = m.band mp := by
      unfold Blocks.band
      omega
    rw [if_pos hzero, if_neg hne]
  · rw [if_neg hzero]
    by_cases hcb : c = m.band mp
    · have hcb' : c = (m.blk mp).bBand := hcb
      rw [if_pos hcb, delim, band?_modBand _ hc (by omega), if_pos hcb', Option.map_map]
      rfl
    · have hcb' : ¬ c = (m.blk mp).bBand := hcb
      rw [if_neg hcb, delim_modBand _ hc (by omega) hcb']

theorem insert_bare (emp : Option Nat) (qb : Qband) :
    { qb.insert m' emp mp with qbFirst := none, qbLast := none } =
      { qb with qbFirst := none, qbLast := none } := by
  unfold Qband.insert
  split
  · rfl
  · split
    · rfl
    · split <;> rfl

theorem insqQueue_flow (emp : Option Nat) (hhdr : SameHdr m m') (c : Nat) :
    (insqQueue m m' q emp mp).flow c =
      if c = m.band mp then (q.flow c).map fun f => f.charge (m.blk mp) else q.flow c := by
  have hbare : (if (m.blk mp).bBand = 0 then q else
      q.modBand (m.blk mp).bBand fun qb => qb.insert m' emp mp).bare =
      q.bare := by
    split
    · rfl
    · exact bare_modBand _ (insert_bare emp)
  have hcharge : (fun f : Flow => f.charge (m'.blk mp)) = fun f => f.charge (m.blk mp) :=
    funext fun f => Flow.charge_congr (hhdr.sizes mp) f
  unfold insqQueue
  rw [flow_chargeBand, flow_of_bare hbare, hcharge, hhdr.bBand]
  rfl

/-- The places where the ends of the band come out right. -/
def EndsKept (m : Blocks) (a b : List Nat) (mp : Nat) : Prop :=
  1 ≤ m.band mp → b = [] → level m.rank (m.band mp) a = []

theorem insqQueue_ok_iff (h : q.Ok m (a ++ b)) (hmp : mp ∉ a ++ b)
    (hvalid : mp < m.nblk) (hnormal : m.Normal mp) (hband : m.band mp ≤ q.qNband)
    (hpass : insqBadord m q b.head? mp = false)
    (hrel : Relinked m q (a ++ b) m' q' (a ++ mp :: b)) :
    (insqQueue m m' q' b.head? mp).Ok m' (a ++ mp :: b) ↔ InOrder m a b mp ∧ EndsKept m a b mp := by
  rcases insqQueue_pointers (m := m) (q := q') b.head? with ⟨hfirst, hlast, hnband⟩
  have hnband' := qNband_of_bare hrel.bare
  have hnext : (m'.blk mp).bNext = b.head? := DLinked.next_eq hrel.links
  have hnodup := DLinked.nodup h.links
  have hdelim : Ranked m.rank (a ++ mp :: b) → ∀ c, 1 ≤ c → c ≤ q.qNband →
      ((insqQueue m m' q' b.head? mp).delim c = some ((level m.rank c (a ++ mp :: b)).head?,
            (level m.rank c (a ++ mp :: b)).getLast?) ↔
        (c = m.band mp → EndsKept m a b mp)) := by
    intro hord c hc hc'
    rw [insqQueue_delim _ hc, hrel.band?, hrel.delim]
    by_cases hcb : c = m.band mp
    · have hrank := rank_of_band hnormal hcb.symm hc
      rcases band?_isSome hc hc' with ⟨qb, hqb⟩
      rcases h.band_ends hc hqb with ⟨hhead, htail⟩
      have hends := Qband.insert_ends hnodup
        (fun p hp => h.normal p (by simp [hp])) hmp hord hrank hcb.symm hc
        hrel.hdr hnext hhead htail
      rw [if_pos hcb, hqb, Option.map_some, some.injEq, hends]
      unfold EndsKept
      rw [← hcb]
      exact ⟨fun hnil _ _ => hnil, fun hkept => hkept rfl hc⟩
    · have hrank : m.rank mp ≠ c := by
        intro heq
        have := h.nband
        exact hcb (band_of_rank heq (by omega)).symm
      rw [if_neg hcb, h.delim c hc hc', level_remove_of_ne hrank]
      exact iff_of_true rfl fun heq => absurd heq hcb
  constructor
  · intro hok
    have hord := hok.ranked
    rw [hrel.hdr.rank] at hord
    refine ⟨(ranked_insq_iff h hpass).mp hord, fun hpos => ?_⟩
    have hsome := hok.delim (m.band mp) hpos (by rw [hnband, hnband']; exact hband)
    rw [hrel.hdr.rank] at hsome
    exact (hdelim hord _ hpos hband).mp hsome rfl hpos
  · rintro ⟨hin, hkept⟩
    have hord := (ranked_insq_iff h hpass).mpr hin
    have hmem : ∀ p, p ∈ a ++ mp :: b ↔ p = mp ∨ p ∈ a ++ b := by
      intro p
      rw [perm_middle.mem_iff, mem_cons]
    constructor
    · unfold Queue.Links
      rw [hfirst, hlast]
      exact hrel.links
    · intro p hp
      rw [hrel.hdr.nblk]
      rcases (hmem p).mp hp with rfl | hp
      · exact hvalid
      · exact h.valid p hp
    · rw [hrel.hdr.rank]
      exact hord
    · intro p hp
      unfold Blocks.Normal
      rw [hrel.hdr.dbType, hrel.hdr.band]
      rcases (hmem p).mp hp with rfl | hp
      · exact hnormal
      · exact h.normal p hp
    · intro p hp
      rw [hrel.hdr.band, hnband, hnband']
      rcases (hmem p).mp hp with rfl | hp
      · exact hband
      · exact h.bands p hp
    · intro c hc hc'
      rw [hnband, hnband'] at hc'
      rw [hrel.hdr.rank]
      exact (hdelim hord c hc hc').mpr fun _ => hkept
    · rw [hnband, hnband']
      exact h.nband

theorem insqQueue_count_iff (h : q.Kept m (a ++ b)) (hband : m.band mp ≤ q.qNband)
    (hrel : Relinked m q (a ++ b) m' q' (a ++ mp :: b)) :
    (∀ c f, (insqQueue m m' q' b.head? mp).flow c = some f → f.count = m'.bytes (a ++ mp :: b) c) ↔
      m.bytes (a ++ b) (m.band mp) + (m.blk mp).bytes < 4294967296 := by
  have hflow : ∀ c, (insqQueue m m' q' b.head? mp).flow c =
      if c = m.band mp then (q.flow c).map fun f => f.charge (m.blk mp)
      else q.flow c := by
    intro c
    rw [insqQueue_flow _ hrel.hdr, flow_of_bare hrel.bare]
  rw [hrel.hdr.bytes]
  rcases flow_isSome hband with ⟨f, hf⟩
  have hcount := charge_count_iff (x := m.blk mp) (h.count_lt _ f hf)
  rw [h.count _ f hf] at hcount
  constructor
  · intro hall
    have hnew := hall (m.band mp) (f.charge (m.blk mp)) (by rw [hflow, if_pos rfl, hf]; rfl)
    rw [bytes_insert, if_pos rfl] at hnew
    exact hcount.mp hnew
  · intro hroom c g hg
    rw [hflow] at hg
    rw [bytes_insert]
    split at hg
    · rename_i hc
      rw [hc, hf] at hg
      rw [if_pos hc.symm, hc, ← some.inj hg]
      exact hcount.mpr hroom
    · rename_i hc
      rw [if_neg (Ne.symm hc), Nat.zero_add]
      exact h.count c g hg

theorem insqQueue_count_lt (h : q.Kept m (a ++ b))
    (hrel : Relinked m q (a ++ b) m' q' (a ++ mp :: b)) (c : Nat) (f : Flow)
    (hf : (insqQueue m m' q' b.head? mp).flow c = some f) : f.count < 4294967296 := by
  rw [insqQueue_flow _ hrel.hdr, flow_of_bare hrel.bare] at hf
  split at hf
  · rcases Option.map_eq_some_iff.mp hf with ⟨g, hg, rfl⟩
    have hadd := addCount_ulong g.count (m.blk mp).sizes
    rw [ulong_of_lt (h.count_lt c g hg)] at hadd
    have hcount : (g.charge (m.blk mp)).count = addCount g.count (m.blk mp).sizes := rfl
    rw [hcount, hadd]
    exact ulong_lt _
  · exact h.count_lt c f hf

end Kept

/-!
## When the invariant is kept
-/

def InsqKeeps (avail : List Bool) (m : Blocks) (q : Queue) (l : List Nat)
    (emp : Option Nat) (mp : Nat) : Prop :=
  let r := insq avail m q emp mp
  (r.ok = true → ∃ l', r.q.Kept r.m l') ∧ (r.ok = false → r.q = q ∧ ∀ p ∈ l, r.m.blk p = m.blk p)

/--
Where the promise is kept.  A place that is not refused is fine for a message
whose bands there is memory for, unless it breaks the order or lies behind
messages of the band at the end, and as long as the count does not run over.
Where memory runs out it has to run out at once.
-/
def InsqSafe (avail : List Bool) (m : Blocks) (q : Queue) (a b : List Nat)
    (mp : Nat) : Prop :=
  let band := (m.blk mp).acct
  insqBadord (m.forceBand mp) q b.head? mp = true ∨
    if band ≤ q.qNband + granted avail then
      InOrder m a b mp ∧ (1 ≤ band → b = [] → ∀ p ∈ a, m.band p ≠ band) ∧
        m.bytes (a ++ b) band + (m.blk mp).bytes < 4294967296
    else granted avail = 0

section Guarantee

variable {m m' : Blocks} {q : Queue} {a b : List Nat} {mp : Nat}

theorem endsKept_iff (hframe : PutFrame m m' (a ++ b) mp)
    (hnormal : ∀ p ∈ a, m.Normal p) : EndsKept m' a b mp ↔
      (1 ≤ (m.blk mp).acct → b = [] → ∀ p ∈ a, m.band p ≠ (m.blk mp).acct) := by
  have hlt : (m.blk mp).acct < 256 := by
    rw [← hframe.put]
    exact m'.band_lt mp
  unfold EndsKept
  rw [hframe.put, hframe.rank]
  have hlevel : 1 ≤ (m.blk mp).acct → (level m.rank (m.blk mp).acct a = [] ↔
        ∀ p ∈ a, m.band p ≠ (m.blk mp).acct) := by
    intro hpos
    unfold level
    rw [filter_eq_nil_iff]
    constructor
    · intro hall p hp hband
      exact hall p hp (decide_eq_true (rank_of_band (hnormal p hp) hband hpos))
    · intro hall p hp hrank
      exact hall p hp (band_of_rank (of_decide_eq_true hrank) hlt)
  exact ⟨fun hkept hpos hnil => (hlevel hpos).mp (hkept hpos hnil),
    fun hkept hpos hnil => (hlevel hpos).mpr (hkept hpos hnil)⟩

theorem inOrder_iff (hframe : PutFrame m m' (a ++ b) mp) :
    InOrder m' a b mp ↔ InOrder m a b mp := by
  constructor
  · intro h
    have hhigh := h.high
    have hlow := h.low
    simp only [hframe.dbType] at hhigh hlow
    exact ⟨hhigh, hlow⟩
  · intro h
    refine ⟨?_, ?_⟩
    · simp only [hframe.dbType]
      exact h.high
    · simp only [hframe.dbType]
      exact h.low

theorem insqQueue_kept_iff (h : q.Kept m (a ++ b)) (hmp : mp ∉ a ++ b)
    (hvalid : mp < m.nblk) (hnormal : m.Normal mp) (hband : m.band mp ≤ q.qNband)
    (hpass : insqBadord m q b.head? mp = false) :
    (∃ l', (insqQueue m (insqLink m q b.head? mp).1 (insqLink m q b.head? mp).2
        b.head? mp).Kept (insqLink m q b.head? mp).1 l') ↔ InOrder m a b mp ∧ EndsKept m a b mp ∧
        m.bytes (a ++ b) (m.band mp) + (m.blk mp).bytes < 4294967296 := by
  have hrel := insqLink_spec h.ok.links hmp
  have hok := insqQueue_ok_iff h.ok hmp hvalid hnormal hband hpass hrel
  have hcount := insqQueue_count_iff h hband hrel
  rw [← and_assoc, ← hok, ← hcount]
  constructor
  · rintro ⟨l', hl'⟩
    have hlist : l' = a ++ mp :: b := by
      have hlinks := hl'.ok.links.forward
      rw [(insqQueue_pointers (m := m) _).1] at hlinks
      exact hlinks.unique hrel.links.forward
    rw [hlist] at hl'
    exact ⟨hl'.ok, hl'.count⟩
  · rintro ⟨hok', hcount'⟩
    exact ⟨_, hok', insqQueue_count_lt h hrel, hcount'⟩

theorem insq_found {avail rest : List Bool} {emp : Option Nat} {q' : Queue}
    (hpass : insqBadord (m.forceBand mp) q emp mp = false)
    (hgrow : growBands ((m.forceBand mp).blk mp).bBand avail q = (true, q', rest)) :
    (insq avail m q emp mp).ok = true ∧
      (insq avail m q emp mp).m = (insqLink (m.forceBand mp) q' emp mp).1 ∧
      (insq avail m q emp mp).q = insqQueue (m.forceBand mp) (insqLink (m.forceBand mp) q' emp mp).1
        (insqLink (m.forceBand mp) q' emp mp).2 emp mp := by
  simp only [insq, hpass, Bool.false_eq_true, if_false, hgrow, if_true]
  exact ⟨trivial, trivial, rfl⟩

theorem insq_spec (h : q.Kept m (a ++ b)) (hmp : mp ∉ a ++ b)
    (hvalid : mp < m.nblk) (avail : List Bool) :
    InsqKeeps avail m q (a ++ b) b.head? mp ↔ InsqSafe avail m q a b mp := by
  have hframe := m.forceBand_frame mp (a ++ b)
  have hclear := m.forceBand_frame mp []
  have hblk : ∀ p ∈ a ++ b, (m.forceBand mp).blk p = m.blk p := fun p hp =>
    hclear.frame p (by simp) (ne_of_notMem hmp hp)
  have hkept := h.congr hblk hclear.nblk
  have hnormal := m.forceBand_normal mp
  have hacct : (m.forceBand mp).band mp = (m.blk mp).acct := hframe.put
  have hband : ((m.forceBand mp).blk mp).bBand = (m.blk mp).acct := hframe.put
  have hlt : (m.blk mp).acct < 256 := by
    rw [← hacct]
    exact (m.forceBand mp).band_lt mp
  have hbytes : ((m.forceBand mp).blk mp).bytes = (m.blk mp).bytes := by
    simp [Msgb.bytes, hframe.sizes]
  unfold InsqKeeps InsqSafe
  by_cases hbad : insqBadord (m.forceBand mp) q b.head? mp = true
  · have hrun : insq avail m q b.head? mp = ⟨m.forceBand mp, q, false, false, avail⟩ := by
      simp [insq, hbad]
    simp only [hrun]
    exact iff_of_true ⟨fun h => absurd h Bool.false_ne_true, fun _ => ⟨trivial, hblk⟩⟩ (Or.inl hbad)
  · rw [Bool.not_eq_true] at hbad
    rcases growBands_eq (m.blk mp).acct avail q with ⟨rest, hgrow⟩
    have hbad' : ¬ insqBadord (m.forceBand mp) q b.head? mp = true := by
      rw [hbad]
      decide
    by_cases hroom : (m.blk mp).acct ≤ q.qNband + granted avail
    · rw [decide_eq_true hroom] at hgrow
      have hnband := h.ok.nband
      have hgrown := hkept.addBands
        (k := min (granted avail) ((m.blk mp).acct - q.qNband)) (by omega)
      have hiff := insqQueue_kept_iff hgrown hmp (by rw [hframe.nblk]; exact hvalid) hnormal
        (by rw [qNband_addBands, hacct]; omega) hbad
      rw [inOrder_iff hframe, endsKept_iff hframe
        (fun p hp => h.ok.normal p (by simp [hp])), hacct, bytes_congr hblk,
        hbytes] at hiff
      rcases insq_found hbad (by rw [hband]; exact hgrow) with ⟨hok, hblocks, hqueue⟩
      simp only [hok, hblocks, hqueue, hiff, if_pos hroom, hbad', Bool.false_eq_true, false_or]
      exact ⟨fun hkeeps => hkeeps.1 trivial, fun hsafe => ⟨fun _ => hsafe, Bool.noConfusion⟩⟩
    · rw [decide_eq_false hroom] at hgrow
      have hmin : min (granted avail) ((m.blk mp).acct - q.qNband) = granted avail := by omega
      rw [hmin] at hgrow
      have hrun : insq avail m q b.head? mp =
          ⟨m.forceBand mp, q.addBands (granted avail), false, false, rest⟩ := by
        simp [insq, hbad, hband, hgrow]
      simp only [hrun, if_neg hroom, hbad', Bool.false_eq_true, false_or]
      constructor
      · rintro ⟨_, hsame⟩
        have hlen := congrArg qNband (hsame trivial).1
        rw [qNband_addBands] at hlen
        omega
      · intro hzero
        rw [hzero, addBands_zero]
        exact ⟨False.elim, fun _ => ⟨rfl, hblk⟩⟩

theorem head?_dropWhile {l : List Nat} {emp : Option Nat} (hemp : ∀ e, emp = some e → e ∈ l) :
    (l.dropWhile fun p => decide (some p ≠ emp)).head? = emp := by
  induction l with
  | nil =>
    cases emp with
    | none => rfl
    | some e => cases hemp e rfl
  | cons p rest ih =>
    by_cases hp : some p = emp
    · simp [hp]
    · rw [dropWhile_cons_of_pos (by simp [hp])]
      apply ih
      intro e he
      rcases mem_cons.mp (hemp e he) with rfl | hmem
      · exact absurd he.symm hp
      · exact hmem

theorem Stream.Start.kept {s : Stream} (h : s.Start) (i : Nat) : (s.q i).Kept s.m [] := by
  have hok := h.sound.ok i
  rw [h.msgs] at hok
  refine ⟨hok, fun c f hf => ?_, fun c f hf => ?_⟩
  · rw [(h.flow i c f hf).1]
    decide
  · rw [(h.flow i c f hf).1]
    rfl

def oneInBand : Put := insq [true] twoQueues.m (twoQueues.q 0) none 1

theorem oneInBand_kept : oneInBand.q.Kept oneInBand.m [1] := by
  have hkeeps := (insq_spec (a := []) (b := []) (twoQueues_start.kept 0)
    (by simp) (by decide : 1 < twoQueues.m.nblk) [true]).mpr (by
      refine Or.inr ⟨⟨fun _ _ y hy => ?_, fun _ y hy => ?_⟩, fun _ _ p hp => ?_, by decide⟩
      · cases hy
      · cases hy
      · cases hp)
  rcases hkeeps.1 rfl with ⟨l', hl'⟩
  have hchain : Chain oneInBand.m.next oneInBand.q.qFirst [1] none := ⟨rfl, rfl⟩
  have hlist : l' = [1] := hl'.ok.links.forward.unique hchain
  rwa [← hlist]

end Guarantee

end Streams
end Svr4
