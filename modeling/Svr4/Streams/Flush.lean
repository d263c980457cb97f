import Svr4.Streams.Operations

/-!
# Flushing a message queue

The flush routines keep the messages they do not free in their order, and the
accounts of the bands are built up anew from those messages.
-/

namespace Svr4
namespace Streams

open Blocks RankedList List Option

/-!
## Putting messages back
-/

def Flow.reset (f : Flow) : Flow := { f with count := 0, full := false }

def Flow.charges (m : Blocks) (f : Flow) (l : List Nat) : Flow :=
  l.foldl (fun f p => f.charge (m.blk p)) f

structure Refilled (m : Blocks) (q : Queue) (l : List Nat) (m' : Blocks)
    (q' : Queue) (l' : List Nat) : Prop where
  ok : q'.Ok m' l'
  hdr : SameHdr m m'
  frame : ∀ j, j ∉ l → m'.blk j = m.blk j
  same : SameFlags q q'
  nband : q'.qNband = q.qNband

section Refill

variable {m : Blocks} {q : Queue} {l rest : List Nat}

theorem Flow.charges_congr {m m' : Blocks} (h : SameHdr m m') (f : Flow)
    (l : List Nat) : f.charges m' l = f.charges m l := by
  unfold Flow.charges
  congr 1
  funext f p
  exact Flow.charge_congr (h.sizes p) f

/-- The loop puts the messages to keep behind those it has put back. -/
theorem refill_spec (keep : Msgb → Bool) (fuel : Nat) (mp : Option Nat)
    (avail : List Bool) (enable : Bool) (h : q.Ok m l)
    (hchain : Chain m.next mp rest none) (hnew : ∀ p ∈ rest, p ∉ l)
    (hvalid : ∀ p ∈ rest, p < m.nblk) (hnormal : ∀ p ∈ rest, m.Normal p)
    (hbands : ∀ p ∈ rest, m.band p ≤ q.qNband)
    (hranked : Ranked m.rank (l ++ rest)) (hfuel : rest.length ≤ fuel) :
    ∃ m' q' enable' avail', refill keep fuel mp avail m q enable = some (m', q', enable', avail') ∧
      Refilled m q (l ++ rest) m' q' (l ++ rest.filter fun p => keep (m.blk p)) ∧
      ∀ c, q'.flow c = (q.flow c).map fun f => f.charges m
        ((rest.filter fun p => keep (m.blk p)).filter fun p => m.band p = c) := by
  induction rest generalizing m q l mp fuel avail enable with
  | nil =>
    rw [Chain.nil_iff.mp hchain]
    refine ⟨m, q, enable, avail, by cases fuel <;> rfl, ⟨?_, SameHdr.refl m,
      fun _ _ => rfl, SameFlags.refl q, rfl⟩, ?_⟩
    · simpa using h
    · intro c
      cases q.flow c <;> rfl
  | cons p rest ih =>
    rw [length_cons] at hfuel
    obtain ⟨n, rfl⟩ : ∃ n, fuel = n + 1 := ⟨fuel - 1, by omega⟩
    have hnodup := hchain.nodup
    rcases hchain with ⟨rfl, hrest⟩
    have hp : p ∉ l := hnew p (by simp)
    have hfresh : ∀ j ∈ rest, j ≠ p := by
      intro j hj
      exact ne_of_notMem (nodup_cons.mp hnodup).1 hj
    by_cases hkeep : keep (m.blk p) = true
    · rcases putq_spec h hp (hvalid p (by simp)) avail with ⟨r, k, hrun, hdone⟩
      have hpn := hnormal p (by simp)
      have hacct : (m.blk p).acct = m.band p := acct_of_normal hpn
      have hle := hbands p (by simp)
      have hk : k = 0 := by
        have := hdone.grown
        omega
      subst hk
      have hok : r.ok = true := by
        rw [hdone.done, hacct]
        exact decide_eq_true hle
      rcases hdone.put hok with ⟨hput, hnband, hflows⟩
      have hhdr := hdone.frame.sameHdr hpn
      have hlast : insertAt m.rank (m.rank p) p l = l ++ [p] := by
        apply insertAt_last
        intro j hj
        exact (pairwise_append.mp hranked).2.2 j hj p (by simp)
      rw [hlast] at hput
      have hchain' : Chain r.m.next (m.blk p).bNext rest none := by
        apply hrest.congr
        intro j hj
        have hblk := hdone.frame.frame j (hnew j (by simp [hj])) (hfresh j hj)
        simp [Blocks.next, hblk]
      rcases ih (l := l ++ [p]) n (m.blk p).bNext r.avail (enable || r.enable) hput hchain' (by
          intro j hj
          rw [mem_append, mem_singleton, not_or]
          exact ⟨hnew j (by simp [hj]), hfresh j hj⟩)
        (by
          intro j hj
          rw [hhdr.nblk]
          exact hvalid j (by simp [hj]))
        (by
          intro j hj
          unfold Blocks.Normal
          rw [hhdr.dbType, hhdr.band]
          exact hnormal j (by simp [hj]))
        (by
          intro j hj
          rw [hhdr.band, hnband]
          exact hbands j (by simp [hj]))
        (by rw [hhdr.rank]; simpa using hranked) (by omega) with
        ⟨m', q', enable', avail', hloop, hre, hcharges⟩
      have hsameKeep : (rest.filter fun p => keep (r.m.blk p)) =
          rest.filter fun p => keep (m.blk p) := by
        apply filter_congr
        intro j hj
        rw [hdone.frame.frame j (hnew j (by simp [hj])) (hfresh j hj)]
      have hcons : ((p :: rest).filter fun p => keep (m.blk p)) =
          p :: rest.filter fun p => keep (m.blk p) :=
        filter_cons_of_pos hkeep
      rw [hsameKeep] at hre hcharges
      refine ⟨m', q', enable', avail', ?_, ⟨?_, hhdr.trans hre.hdr, ?_,
        hdone.same.trans hre.same, hre.nband.trans hnband⟩, ?_⟩
      · simp only [refill, hkeep, if_true, hrun, bind_eq_bind, bind_some]
        exact hloop
      · rw [hcons]
        simpa using hre.ok
      · intro j hj
        have hj' : j ∉ l ++ [p] ++ rest := by simpa using hj
        rw [hre.frame j hj']
        apply hdone.frame.frame j
        · intro hmem
          exact hj (by simp [hmem])
        · rintro rfl
          exact hj (by simp)
      · intro c
        rw [hcharges, hflows, hacct, hhdr.band, hcons, Queue.addBands_zero]
        have hcongr : ∀ (f : Flow) (l : List Nat),
            f.charges r.m l = f.charges m l := Flow.charges_congr hhdr
        by_cases hc : c = m.band p
        · rw [if_pos hc, filter_cons_of_pos (by simp [hc]), Option.map_map]
          congr 1
          funext f
          simp only [Function.comp, hcongr]
          rfl
        · have hc' : ¬ m.band p = c := fun heq => hc heq.symm
          rw [if_neg hc, filter_cons_of_neg (by simp [hc'])]
          simp only [hcongr]
    · rcases ih (l := l) n (m.blk p).bNext avail enable h hrest (fun j hj => hnew j (by simp [hj]))
        (fun j hj => hvalid j (by simp [hj]))
        (fun j hj => hnormal j (by simp [hj]))
        (fun j hj => hbands j (by simp [hj]))
        (hranked.sublist (by simp)) (by omega) with
        ⟨m', q', enable', avail', hloop, hre, hcharges⟩
      have hcons : ((p :: rest).filter fun p => keep (m.blk p)) =
          rest.filter fun p => keep (m.blk p) :=
        filter_cons_of_neg hkeep
      refine ⟨m', q', enable', avail', ?_, ⟨?_, hre.hdr, ?_, hre.same, hre.nband⟩, ?_⟩
      · simp only [refill, hkeep, Bool.false_eq_true, if_false]
        exact hloop
      · rw [hcons]
        exact hre.ok
      · intro j hj
        apply hre.frame j
        intro hmem
        apply hj
        rcases mem_append.mp hmem with hmem | hmem <;> simp [hmem]
      · intro c
        rw [hcharges, hcons]

end Refill

/-!
## The flush routines
-/

section Routines

variable {m : Blocks} {q : Queue} {l : List Nat}

theorem Queue.flow_clear (q : Queue) (c : Nat) : q.clear.flow c = (q.flow c).map Flow.reset := by
  by_cases hc : c = 0
  · rw [hc]
    rfl
  · rw [Queue.flow_band (by omega), Queue.flow_band (by omega)]
    unfold Queue.band? Queue.clear
    rw [getElem?_map, Option.map_map, Option.map_map]
    rfl

@[simp] theorem Queue.qNband_clear (q : Queue) : q.clear.qNband = q.qNband := by
  simp [Queue.clear, Queue.qNband]

theorem Queue.Ok.clear (h : q.Ok m l) : q.clear.Ok m [] where
  links := DLinked.nil
  valid := by simp
  ranked := List.Pairwise.nil
  normal := by simp
  bands := by simp
  delim c hc hc' := by
    rw [Queue.qNband_clear] at hc'
    rcases Queue.band?_isSome hc hc' with ⟨qb, hqb⟩
    have hget : q.qBandp[c - 1]? = some qb := hqb
    unfold Queue.delim Queue.band? Queue.clear
    rw [getElem?_map, hget]
    rfl
  nband := by
    rw [Queue.qNband_clear]
    exact h.nband

/-- The account of a band after the messages to keep are put back. -/
def Queue.refilled (m : Blocks) (q : Queue) (l : List Nat) (c : Nat) :
    Option Flow :=
  (q.flow c).map fun f => f.reset.charges m (l.filter fun p => m.band p = c)

theorem Queue.Ok.refill (h : q.Ok m l) (keep : Msgb → Bool) (avail : List Bool) :
    ∃ m' q' enable' avail', refill keep m.nblk q.qFirst avail m q.clear false =
        some (m', q', enable', avail') ∧ Refilled m q l m' q' (l.filter fun p => keep (m.blk p)) ∧
      ∀ c, q'.flow c = q.refilled m (l.filter fun p => keep (m.blk p)) c := by
  rcases refill_spec keep m.nblk q.qFirst avail false h.clear h.links.forward
    (by simp) h.valid h.normal
    (by
      intro p hp
      rw [Queue.qNband_clear]
      exact h.bands p hp)
    h.ranked h.length_le with ⟨m', q', enable', avail', hrun, hre, hflows⟩
  refine ⟨m', q', enable', avail', hrun, ⟨hre.ok, hre.hdr, hre.frame, ?_,
    hre.nband.trans (Queue.qNband_clear q)⟩, ?_⟩
  · have hclear : SameFlags q q.clear := ⟨rfl, rfl, rfl, rfl, rfl, rfl⟩
    exact hclear.trans hre.same
  · intro c
    rw [hflows, Queue.flow_clear, Option.map_map]
    rfl

theorem Queue.qbf_eq (q : Queue) (c : Nat) :
    q.qbf c = ((q.flow c).map Flow.relieved).getD false := by
  by_cases hc : c = 0
  · simp [Queue.qbf, hc, Queue.flow, Queue.relieved, Flow.relieved]
  · rw [Queue.flow_band (by omega)]
    unfold Queue.qbf
    rw [if_neg hc]
    cases q.band? c <;> rfl

/-- The queue after `flushq` has looked for waiting writers. -/
def Queue.relieveAll (q : Queue) : Queue :=
  { q with
    qWantw := if q.relieved then false else q.qWantw
    qBandp := q.qBandp.map fun qb =>
      if qb.relieved then { qb with qbWantw := false } else qb }

theorem Queue.flow_relieveAll (q : Queue) (c : Nat) :
    q.relieveAll.flow c = (q.flow c).map Flow.relieve := by
  by_cases hc : c = 0
  · rw [hc]
    rfl
  · rw [Queue.flow_band (by omega), Queue.flow_band (by omega)]
    unfold Queue.band? Queue.relieveAll
    rw [getElem?_map, Option.map_map, Option.map_map]
    congr 1
    funext qb
    by_cases hr : qb.relieved = true
    · have hf : qb.flow.relieved = true := hr
      have hrel : qb.flow.relieve = { qb.flow with wantw := false } := by
        simp [Flow.relieve, hf]
      simp only [Function.comp, hr, if_true, hrel]
      rfl
    · have hf : ¬ qb.flow.relieved = true := hr
      simp [Function.comp, hr, Flow.relieve, hf]

theorem Queue.delim_relieveAll (q : Queue) (c : Nat) : q.relieveAll.delim c = q.delim c := by
  unfold Queue.delim Queue.band? Queue.relieveAll
  rw [getElem?_map, Option.map_map]
  congr 1
  funext qb
  by_cases hr : qb.relieved = true <;> simp [Function.comp, hr]

theorem Queue.sameFlags_relieveAll (q : Queue) : SameFlags q q.relieveAll :=
  ⟨rfl, rfl, rfl, rfl, rfl, rfl⟩

@[simp] theorem Queue.qNband_relieveAll (q : Queue) : q.relieveAll.qNband = q.qNband := by
  simp [Queue.relieveAll, Queue.qNband]

theorem Queue.backenable_of_relieved {c : Nat} {f : Flow}
    (hf : q.flow c = some f) (hr : f.relieved = true) :
    (q.qBandp.any Qband.relieved || q.relieved) = true := by
  by_cases hc : c = 0
  · rw [hc, Queue.flow_zero, some.injEq] at hf
    have hq : q.relieved = true := by
      rw [← hf] at hr
      exact hr
    simp [hq]
  · rw [Queue.flow_band (by omega)] at hf
    rcases map_eq_some_iff.mp hf with ⟨qb, hqb, rfl⟩
    have hmem : qb ∈ q.qBandp := mem_of_getElem? hqb
    have hany : q.qBandp.any Qband.relieved = true :=
      any_eq_true.mpr ⟨qb, hmem, hr⟩
    simp [hany]

def keptBy (m : Blocks) (flag : Bool) (p : Nat) : Bool :=
  !(flag || datamsg (m.blk p).dbType)

theorem flushq_spec (h : q.Ok m l) (avail : List Bool) (flag : Bool) :
    ∃ r, flushq avail m q flag = some r ∧ Refilled m q l r.m r.q (l.filter (keptBy m flag)) ∧
      (∀ c, r.q.flow c = (q.refilled m (l.filter (keptBy m flag)) c).map Flow.relieve) ∧
      (∀ c f, q.refilled m (l.filter (keptBy m flag)) c = some f →
        f.relieved = true → ∃ bs, r.relief = some bs ∧ (q.qNband < 255 → c ∈ bs)) ∧
      ∀ bs, r.relief = some bs → ∀ c ∈ bs, c < 256 := by
  rcases h.refill (fun x => !(flag || datamsg x.dbType)) avail with
    ⟨m', q', enable', avail', hrun, hre, hflows⟩
  have hkept : (l.filter fun p => !(flag || datamsg (m.blk p).dbType)) =
      l.filter (keptBy m flag) := rfl
  rw [hkept] at hre hflows
  refine ⟨⟨m', q'.relieveAll, enable',
    if (q'.qBandp.any Qband.relieved || q'.relieved) = true
      then some ((List.range q'.bpri).filter q'.qbf) else none, avail'⟩,
    ?_, ⟨?_, hre.hdr, hre.frame, hre.same.trans q'.sameFlags_relieveAll, ?_⟩,
    ?_, ?_, ?_⟩
  · simp only [flushq, hrun, bind_eq_bind, bind_some]
    rfl
  · exact hre.ok.of_queue rfl rfl (Queue.qNband_relieveAll q') fun c _ =>
      Queue.delim_relieveAll q' c
  · rw [Queue.qNband_relieveAll]
    exact hre.nband
  · intro c
    rw [Queue.flow_relieveAll, hflows]
  · intro c f hf hr
    rw [← hflows] at hf
    refine ⟨_, if_pos (Queue.backenable_of_relieved hf hr), ?_⟩
    intro hsmall
    have hle := Queue.le_of_flow hf
    rw [hre.nband] at hle
    rw [mem_filter, mem_range]
    constructor
    · unfold Queue.bpri
      rw [hre.nband]
      omega
    · rw [Queue.qbf_eq, hf]
      simpa using hr
  · intro bs hbs c hc
    have hbs' : (if (q'.qBandp.any Qband.relieved || q'.relieved) = true
        then some ((List.range q'.bpri).filter q'.qbf) else none) = some bs := hbs
    split at hbs'
    · cases hbs'
      have hlt := mem_range.mp (mem_of_mem_filter hc)
      unfold Queue.bpri at hlt
      omega
    · cases hbs'

def keptNormal (m : Blocks) (flag : Bool) (p : Nat) : Bool :=
  !(decide ((m.blk p).bBand = 0) && decide ((m.blk p).dbType < QPCTL) &&
    (flag || datamsg (m.blk p).dbType))

theorem flushband0_spec (h : q.Ok m l) (avail : List Bool) (flag : Bool) :
    ∃ r f, flushband0 avail m q flag = some r ∧
      Refilled m q l r.m r.q (l.filter (keptNormal m flag)) ∧
      q.refilled m (l.filter (keptNormal m flag)) 0 = some f ∧
      r.relief = (if f.relieved then some [0] else none) ∧
      ∀ c, r.q.flow c = if c = 0 then some f.relieve
        else q.refilled m (l.filter (keptNormal m flag)) c := by
  rcases h.refill (fun x => !(decide (x.bBand = 0) && decide (x.dbType < QPCTL)
    && (flag || datamsg x.dbType))) avail with
    ⟨m', q', enable', avail', hrun, hre, hflows⟩
  have hkept : (l.filter fun p => !(decide ((m.blk p).bBand = 0) &&
      decide ((m.blk p).dbType < QPCTL) &&
      (flag || datamsg (m.blk p).dbType))) = l.filter (keptNormal m flag) := rfl
  rw [hkept] at hre hflows
  refine ⟨⟨m', { q' with qWantw := if q'.relieved then false else q'.qWantw },
    enable', if q'.relieved then some [0] else none, avail'⟩, _, ?_,
    ⟨?_, hre.hdr, hre.frame, hre.same.trans ⟨rfl, rfl, rfl, rfl, rfl, rfl⟩,
      hre.nband⟩, (hflows 0).symm.trans (Queue.flow_zero q'), rfl, ?_⟩
  · simp only [flushband0, hrun, bind_eq_bind, bind_some]
    rfl
  · exact hre.ok.of_queue rfl rfl rfl fun _ _ => rfl
  · intro c
    by_cases hc : c = 0
    · rw [if_pos hc, hc]
      rfl
    · rw [if_neg hc, ← hflows c, Queue.flow_band (by omega), Queue.flow_band (by omega)]
      rfl

end Routines

/-!
## Flushing a band
-/

/-- Messages are taken from a queue one after the other. -/
inductive Drained : Blocks → Queue → List Nat → List Relief →
    Blocks → Queue → List Nat → Prop where
  | done {m q l} (h : Queue.Ok m q l) : Drained m q l [] m q l
  | pass {m q l rs m' q' l'} (h : Drained m q l rs m' q' l') :
      Drained m q l (none :: rs) m' q' l'
  | take {m q l p f m₁ q₁ relief rs m' q' l'} (hp : p ∈ l)
      (ht : Taken m q l p f m₁ q₁ relief)
      (h : Drained m₁ q₁ (l.erase p) rs m' q' l') :
      Drained m q l (relief :: rs) m' q' l'

def keptHigh (m : Blocks) (pri : Nat) (flag : Bool) (p : Nat) : Bool :=
  !(decide ((m.blk p).bBand = pri) && (flag || datamsg (m.blk p).dbType))

section Bands

variable {m m' : Blocks} {q q' : Queue} {l l' : List Nat} {rs : List Relief} {pri : Nat}
  {flag : Bool}

theorem Drained.trans {m'' : Blocks} {q'' : Queue} {l'' : List Nat}
    {rs' : List Relief} (h : Drained m q l rs m' q' l') (h' : Drained m' q' l' rs' m'' q'' l'') :
    Drained m q l (rs ++ rs') m'' q'' l'' := by
  induction h with
  | done _ => exact h'
  | pass _ ih => exact Drained.pass (ih h')
  | take hp ht _ ih => exact Drained.take hp ht (ih h')

theorem Drained.ok (h : Drained m q l rs m' q' l') : q'.Ok m' l' := by
  induction h with
  | done h => exact h
  | pass _ ih => exact ih
  | take _ _ _ ih => exact ih

theorem Drained.hdr (h : Drained m q l rs m' q' l') : SameHdr m m' := by
  induction h with
  | done _ => exact SameHdr.refl _
  | pass _ ih => exact ih
  | take _ ht _ ih => exact ht.hdr.trans ih

theorem keptHigh_congr (h : SameHdr m m') : keptHigh m' pri flag = keptHigh m pri flag := by
  funext p
  simp [keptHigh, h.bBand, h.dbType]

theorem flushOne_spec {c : Nat} {d : Bool} {a b : List Nat} {p : Nat} (h : q.Ok m (a ++ p :: b)) :
    ∃ m' q' relief, flushOne c d m q p = some (m', q', relief) ∧
      Drained m q (a ++ p :: b) [relief] m' q' (a ++ ([p].filter (keptHigh m c d)) ++ b) := by
  have hmem : p ∈ a ++ p :: b := by simp
  by_cases hp : (m.blk p).bBand = c ∧ (d = true ∨ datamsg (m.blk p).dbType = true)
  · rcases rmvq_spec h hmem with ⟨m', q', relief, f, hrun, ht⟩
    have hp' : keptHigh m c d p = false := by
      rw [keptHigh, Bool.not_eq_false', Bool.and_eq_true, Bool.or_eq_true]
      simpa using hp
    have hkept : [p].filter (keptHigh m c d) = [] := by
      simp [hp']
    refine ⟨m', q', relief, by rw [flushOne, if_pos hp, hrun], ?_⟩
    have herase := erase_of_split (DLinked.nodup h.links)
    rw [hkept, append_nil, ← herase]
    exact Drained.take hmem ht (Drained.done ht.ok)
  · have hkept : [p].filter (keptHigh m c d) = [p] := by
      have hp' : keptHigh m c d p = true := by
        rw [keptHigh, Bool.not_eq_true', Bool.and_eq_false_imp]
        simpa using hp
      simp [hp']
    refine ⟨m, q, none, by rw [flushOne, if_neg hp], ?_⟩
    rw [hkept, append_assoc, singleton_append]
    exact Drained.pass (Drained.done h)

/-- The loop goes through a run of messages, up to the one behind it. -/
theorem flushLoop_spec {c : Nat} {d : Bool} {a s b : List Nat} (fuel : Nat) (reliefs : List Relief)
    (h : q.Ok m (a ++ s ++ b)) (hfuel : s.length ≤ fuel) :
    ∃ m' q' rs, flushLoop c d b.head? fuel (s ++ b).head? m q reliefs =
        some (b.head?, m', q', reliefs ++ rs) ∧
      Drained m q (a ++ s ++ b) rs m' q' (a ++ s.filter (keptHigh m c d) ++ b) := by
  induction s generalizing a m q fuel reliefs with
  | nil =>
    refine ⟨m, q, [], ?_, by simpa using Drained.done h⟩
    unfold flushLoop
    simp
  | cons p s ih =>
    rw [length_cons] at hfuel
    obtain ⟨n, rfl⟩ : ∃ n, fuel = n + 1 := ⟨fuel - 1, by omega⟩
    have hlist : a ++ p :: s ++ b = a ++ p :: (s ++ b) := by simp
    rw [hlist] at h ⊢
    have hne : ¬ (p :: s ++ b).head? = b.head? := by
      intro heq
      have hp : p ∈ b := mem_of_head? heq.symm
      have hnodup := DLinked.nodup h.links
      rw [nodup_append] at hnodup
      exact (nodup_cons.mp hnodup.2.1).1 (by simp [hp])
    have hnext : (m.blk p).bNext = (s ++ b).head? := DLinked.next_eq h.links
    rcases flushOne_spec h with ⟨m₁, q₁, relief, hone, hd⟩
    have hok := hd.ok
    have hassoc : a ++ [p].filter (keptHigh m c d) ++ (s ++ b) =
        a ++ [p].filter (keptHigh m c d) ++ s ++ b := by simp
    rw [hassoc] at hok hd
    rcases ih n (reliefs ++ [relief]) hok (by omega) with ⟨m', q', rs, hrun, hd'⟩
    refine ⟨m', q', relief :: rs, ?_, ?_⟩
    · unfold flushLoop
      rw [if_neg hne]
      simp only [cons_append, head?_cons, hnext, hone, bind_eq_bind, bind_some]
      rw [hrun]
      simp
    · rw [keptHigh_congr hd.hdr] at hd'
      have hfilter : (p :: s).filter (keptHigh m c d) = [p].filter (keptHigh m c d) ++
            s.filter (keptHigh m c d) := by
        rw [← filter_append]
        rfl
      rw [hfilter, ← append_assoc]
      exact hd.trans hd'

theorem flushbandHigh_spec (h : q.Ok m l) (hpri : 1 ≤ pri) (hle : pri ≤ q.qNband) :
    ∃ m' q' rs, flushbandHigh m q pri flag = some (m', q', rs) ∧
      Drained m q l rs m' q' (l.filter (keptHigh m pri flag)) := by
  rcases Queue.band?_isSome hpri hle with ⟨qb, hqb⟩
  have hends := h.delim pri hpri hle
  rw [Queue.delim, hqb, map_some, some.injEq, Prod.mk.injEq] at hends
  rcases hends with ⟨hfirst, hlast⟩
  -- The queue is the messages above, those of the band, and those below.
  have hsplit := hi_append_level_append_lo h.ranked pri
  have hother : ∀ p ∈ l, m.rank p ≠ pri → keptHigh m pri flag p = true := by
    intro p hp hne
    have hband : ¬ (m.blk p).bBand = pri := by
      intro hband
      exact hne (rank_of_band (h.normal p hp) hband hpri)
    simp [keptHigh, hband]
  have hhi : (hi m.rank (pri + 1) l).filter (keptHigh m pri flag) = hi m.rank (pri + 1) l := by
    rw [filter_eq_self]
    intro p hp
    rcases mem_hi.mp hp with ⟨hmem, hrank⟩
    exact hother p hmem (by omega)
  have hlo : (lo m.rank pri l).filter (keptHigh m pri flag) = lo m.rank pri l := by
    rw [filter_eq_self]
    intro p hp
    rcases mem_lo.mp hp with ⟨hmem, hrank⟩
    exact hother p hmem (by omega)
  have hlen := h.length_le
  have hkept : l.filter (keptHigh m pri flag) = hi m.rank (pri + 1) l ++
      (level m.rank pri l).filter (keptHigh m pri flag) ++ lo m.rank pri l := by
    conv_lhs => rw [← hsplit]
    rw [filter_append, filter_append, hhi, hlo]
  rw [hkept]
  generalize hi m.rank (pri + 1) l = a at *
  generalize level m.rank pri l = s at *
  generalize lo m.rank pri l = b at *
  subst hsplit
  rcases eq_nil_or_concat s with rfl | ⟨init, z, rfl⟩
  · have hfirst' : qb.qbFirst = none := hfirst
    refine ⟨m, q, [], by simp [flushbandHigh, hqb, hfirst'], ?_⟩
    simpa using Drained.done h
  · rw [concat_eq_append] at *
    rw [getLast?_concat] at hlast
    cases init with
    | nil =>
      have hfirst' : qb.qbFirst = some z := hfirst
      have hnext : (m.blk z).bNext = b.head? := by
        have hlinks : q.Links m (a ++ z :: b) := by simpa using h.links
        exact DLinked.next_eq hlinks
      rcases flushLoop_spec m.nblk [] h (by simp at hlen ⊢; omega) with ⟨m', q', rs, hrun, hd⟩
      have hhead : ([] ++ [z] ++ b).head? = some z := rfl
      rw [hhead] at hrun
      cases b with
      | nil =>
        refine ⟨m', q', rs, ?_, hd⟩
        simp only [flushbandHigh, hqb, hfirst', hlast, hnext, if_true,
          bind_eq_bind, bind_some, hrun]
        rfl
      | cons w b =>
        have hw : keptHigh m' pri flag w = true := by
          rw [keptHigh_congr hd.hdr]
          have hmem := hlo ▸ mem_cons_self
          exact (mem_filter.mp hmem).2
        rcases flushOne_spec (c := pri) (d := flag) hd.ok with ⟨m'', q'', relief, hone, hd'⟩
        refine ⟨m'', q'', rs ++ [relief], ?_, ?_⟩
        · rw [head?_cons] at hrun
          simp only [flushbandHigh, hqb, hfirst', hlast, hnext, if_true,
            bind_eq_bind, bind_some, head?_cons, hrun,
            hone]
          rfl
        · have hd' := hd.trans hd'
          simpa [hw] using hd'
    | cons p init =>
      have hfirst' : qb.qbFirst = some p := hfirst
      have hne : ¬ some z = some p := by
        intro heq
        have hnodup := DLinked.nodup h.links
        cases heq
        simp [nodup_append] at hnodup
      have hlist : a ++ (p :: init ++ [z]) ++ b = a ++ (p :: init) ++ z :: b := by
        simp
      rw [hlist] at h hlen ⊢
      rcases flushLoop_spec (c := pri) (d := flag) m.nblk [] h
        (by simp at hlen ⊢; omega) with ⟨m', q', rs, hrun, hd⟩
      rcases flushOne_spec (c := pri) (d := flag) hd.ok with ⟨m'', q'', relief, hone, hd'⟩
      refine ⟨m'', q'', rs ++ [relief], ?_, ?_⟩
      · have hhead : (p :: init ++ z :: b).head? = some p := rfl
        rw [hhead, head?_cons] at hrun
        simp only [flushbandHigh, hqb, hfirst', hlast, hne, if_false,
          bind_eq_bind, bind_some, hrun, hone]
        rfl
      · rw [keptHigh_congr hd.hdr] at hd'
        have hd'' := hd.trans hd'
        rw [filter_append]
        simpa using hd''

end Bands

end Streams
end Svr4
