import Svr4.Lib.RankedList
import Svr4.Streams.Links

/-!
# Order of a message queue

The invariant of one queue: its messages are linked in descending rank, and the
band structures point to the first and the last message of their bands.  High
priority messages rank above every band.
-/

namespace Svr4
namespace Streams

open Blocks RankedList Queue

/-- The place of a message in the order: its band, or above all bands. -/
def Msgb.rank (x : Msgb) : Nat := if QPCTL ≤ x.dbType then 256 else x.bBand

def Msgb.bytes (x : Msgb) : Nat := x.sizes.sum

variable {m m' : Blocks}

namespace Blocks

def rank (m : Blocks) (p : Nat) : Nat := (m.blk p).rank

def band (m : Blocks) (p : Nat) : Nat := (m.blk p).bBand

/-- The bytes of the messages of a list that are accounted to a band. -/
def bytes (m : Blocks) (l : List Nat) (c : Nat) : Nat :=
  ((l.filter fun p => m.band p = c).map fun p => (m.blk p).bytes).sum

theorem SameHdr.rank (h : SameHdr m m') : m'.rank = m.rank := by
  funext p
  simp [Blocks.rank, Msgb.rank, h.dbType, h.bBand]

theorem SameHdr.band (h : SameHdr m m') : m'.band = m.band := by
  funext p
  exact h.bBand p

theorem SameHdr.bytes (h : SameHdr m m') : m'.bytes = m.bytes := by
  funext l c
  simp [Blocks.bytes, h.band, Msgb.bytes, h.sizes]

end Blocks

theorem Msgb.rank_le (x : Msgb) : x.rank ≤ 256 := by
  have := x.bBand_lt
  unfold rank
  split <;> omega

def Blocks.Normal (m : Blocks) (p : Nat) : Prop :=
  QPCTL ≤ (m.blk p).dbType → m.band p = 0

namespace Blocks

variable {m : Blocks} {p c : Nat}

theorem rank_of_band (h : m.Normal p) (hc : m.band p = c) (hpos : 1 ≤ c) : m.rank p = c := by
  unfold rank Msgb.rank
  split
  · rename_i hhigh
    have := h hhigh
    omega
  · exact hc

theorem band_of_rank (hc : m.rank p = c) (hlt : c < 256) : m.band p = c := by
  unfold rank Msgb.rank at hc
  split at hc
  · omega
  · exact hc

theorem rank_high (h : QPCTL ≤ (m.blk p).dbType) : m.rank p = 256 :=
  if_pos h

theorem rank_low (h : ¬ QPCTL ≤ (m.blk p).dbType) : m.rank p = m.band p :=
  if_neg h

theorem band_lt (m : Blocks) (p : Nat) : m.band p < 256 := (m.blk p).bBand_lt

theorem rank_le (m : Blocks) (p : Nat) : m.rank p ≤ 256 := (m.blk p).rank_le

theorem queclass_eq (m : Blocks) (p : Nat) :
    queclass (m.blk p) = if m.rank p = 256 then QPCTL else QNORM := by
  have hlt := m.band_lt p
  by_cases h : QPCTL ≤ (m.blk p).dbType
  · simp [queclass, h, rank_high h]
  · have hne : ¬ m.rank p = 256 := by
      rw [rank_low h]
      omega
    simp [queclass, h, hne]

end Blocks

structure Flow where
  count : Nat
  hiwat : Nat
  lowat : Nat
  full : Bool
  wantw : Bool

def Qband.flow (qb : Qband) : Flow :=
  ⟨qb.qbCount, qb.qbHiwat, qb.qbLowat, qb.qbFull, qb.qbWantw⟩

def Queue.flow (q : Queue) (c : Nat) : Option Flow :=
  if c = 0 then some ⟨q.qCount, q.qHiwat, q.qLowat, q.qFull, q.qWantw⟩
  else (q.band? c).map Qband.flow

def Queue.delim (q : Queue) (c : Nat) : Option (Option Nat × Option Nat) :=
  (q.band? c).map fun qb => (qb.qbFirst, qb.qbLast)

def Queue.bare (q : Queue) : Queue :=
  { q with
    qFirst := none
    qLast := none
    qBandp := q.qBandp.map fun qb => { qb with qbFirst := none, qbLast := none } }

/-- The messages `l` of a queue, in order. -/
structure Queue.Ok (m : Blocks) (q : Queue) (l : List Nat) : Prop where
  links : q.Links m l
  valid : ∀ p ∈ l, p < m.nblk
  ranked : Ranked m.rank l
  normal : ∀ p ∈ l, m.Normal p
  bands : ∀ p ∈ l, m.band p ≤ q.qNband
  delim : ∀ c, 1 ≤ c → c ≤ q.qNband →
    q.delim c = some ((level m.rank c l).head?, (level m.rank c l).getLast?)
  nband : q.qNband < 256

/-!
## Bands of a queue
-/

section Bands

variable {q q' : Queue} {c pri : Nat}

theorem Queue.band?_isSome (hc : 1 ≤ c) (h : c ≤ q.qNband) : ∃ qb, q.band? c = some qb := by
  have hlt : c - 1 < q.qBandp.length := by
    unfold Queue.qNband at h
    omega
  exact ⟨_, List.getElem?_eq_getElem hlt⟩

theorem Queue.le_of_band? {qb : Qband} (hc : 1 ≤ c) (h : q.band? c = some qb) : c ≤ q.qNband := by
  have hlt := (List.getElem?_eq_some_iff.mp h).1
  unfold Queue.qNband
  omega

theorem Queue.band?_modBand (f : Qband → Qband) (hc : 1 ≤ c) (hpri : 1 ≤ pri) :
    (q.modBand pri f).band? c = if c = pri then (q.band? c).map f else q.band? c := by
  unfold Queue.band? Queue.modBand
  by_cases h : c = pri
  · simp [h]
  · have hne : pri - 1 ≠ c - 1 := by omega
    simp [h, hne]

@[simp] theorem Queue.qNband_modBand (f : Qband → Qband) : (q.modBand pri f).qNband = q.qNband := by
  simp [Queue.qNband, Queue.modBand]

theorem Queue.delim_modBand (f : Qband → Qband) (hc : 1 ≤ c) (hpri : 1 ≤ pri)
    (hne : c ≠ pri) : (q.modBand pri f).delim c = q.delim c := by
  simp [Queue.delim, Queue.band?_modBand f hc hpri, hne]

theorem Queue.bare_modBand (f : Qband → Qband)
    (hf : ∀ qb, { f qb with qbFirst := none, qbLast := none } =
      { qb with qbFirst := none, qbLast := none }) :
    (q.modBand pri f).bare = q.bare := by
  have hlist : ∀ (bs : List Qband) (n : Nat), (bs.modify n f).map
        (fun qb => { qb with qbFirst := none, qbLast := none }) =
      bs.map fun qb => { qb with qbFirst := none, qbLast := none } := by
    intro bs
    induction bs with
    | nil => simp
    | cons qb rest ih =>
      intro n
      cases n with
      | zero => simp [hf]
      | succ n => simp [ih]
  simp [Queue.bare, Queue.modBand, hlist]

theorem Queue.qNband_of_bare (h : q'.bare = q.bare) : q'.qNband = q.qNband := by
  have hlen := congrArg (fun x => x.qBandp.length) h
  simpa [Queue.bare, Queue.qNband] using hlen

theorem Queue.flow_of_bare (h : q'.bare = q.bare) (c : Nat) : q'.flow c = q.flow c := by
  have hbare : ∀ x : Queue, x.flow c = x.bare.flow c := by
    intro x
    unfold Queue.flow Queue.band? Queue.bare
    by_cases hc : c = 0
    · simp [hc]
    · simp only [hc, if_false, List.getElem?_map, Option.map_map]
      rfl
  rw [hbare, h, ← hbare]

end Bands

end Streams
end Svr4
