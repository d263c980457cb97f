import Svr4.Streams.Puts

/-!
# Accounting of a message queue

The counts and flags that a queue keeps for band 0 and each of its bands keeps
for itself.  Counts are unsigned longs: they equal the bytes of the messages of
the band modulo their range.
-/

namespace Svr4
namespace Streams

open Blocks RankedList List Queue

/-!
## Unsigned arithmetic
-/

theorem ulong_lt (x : Int) : ulong x < 4294967296 := by
  unfold ulong
  omega

theorem ulong_of_lt {n : Nat} (h : n < 4294967296) : ulong n = n := by
  unfold ulong
  omega

theorem ulong_add (x y : Int) : ulong (ulong x + y) = ulong (x + y) := by
  unfold ulong
  omega

theorem addCount_ulong (x : Int) (sizes : List Nat) :
    addCount (ulong x) sizes = ulong (x + sizes.sum) := by
  induction sizes generalizing x with
  | nil => simp [addCount]
  | cons n rest ih =>
    have hstep : addCount (ulong x) (n :: rest) = addCount (ulong (x + n)) rest := by
      rw [← ulong_add x n]
      rfl
    rw [hstep, ih, sum_cons]
    congr 1
    omega

theorem subCount_ulong (x : Int) (sizes : List Nat) :
    subCount (ulong x) sizes = ulong (x - sizes.sum) := by
  induction sizes generalizing x with
  | nil => simp [subCount]
  | cons n rest ih =>
    have hstep : subCount (ulong x) (n :: rest) = subCount (ulong (x - n)) rest := by
      have hsub := ulong_add x (-n)
      rw [← Int.sub_eq_add_neg, ← Int.sub_eq_add_neg] at hsub
      rw [← hsub]
      rfl
    rw [hstep, ih, sum_cons]
    congr 1
    omega

/-!
## Flows
-/

def Flow.charge (f : Flow) (x : Msgb) : Flow :=
  let count := addCount f.count x.sizes
  { f with
    count := count
    full := if f.hiwat ≤ count then true else f.full }

def Flow.relieved (f : Flow) : Bool := f.wantw && decide (f.count ≤ f.lowat)

def Flow.take (f : Flow) (x : Msgb) : Flow :=
  let count := subCount f.count x.sizes
  { f with
    count := count
    full := if count < f.hiwat then false else f.full }

def Flow.relieve (f : Flow) : Flow :=
  { f with wantw := if f.relieved then false else f.wantw }

section Flows

variable {q q' : Queue} {c pri : Nat} {x : Msgb}

theorem Queue.flow_zero (q : Queue) :
    q.flow 0 = some ⟨q.qCount, q.qHiwat, q.qLowat, q.qFull, q.qWantw⟩ := rfl

theorem Queue.flow_band (hc : 1 ≤ c) : q.flow c = (q.band? c).map Qband.flow := by
  have hne : ¬ c = 0 := by omega
  simp [flow, hne]

theorem Queue.flow_isSome (h : c ≤ q.qNband) : ∃ f, q.flow c = some f := by
  by_cases hc : c = 0
  · rw [hc]
    exact ⟨_, rfl⟩
  · rcases band?_isSome (q := q) (c := c) (by omega) h with ⟨qb, hqb⟩
    exact ⟨qb.flow, by rw [Queue.flow_band (by omega), hqb]; rfl⟩

theorem Queue.le_of_flow {f : Flow} (h : q.flow c = some f) : c ≤ q.qNband := by
  by_cases hc : c = 0
  · omega
  · rw [Queue.flow_band (by omega)] at h
    rcases Option.map_eq_some_iff.mp h with ⟨qb, hqb, _⟩
    exact le_of_band? (by omega) hqb

theorem Queue.flow_modBand (f : Qband → Qband) (hpri : 1 ≤ pri) : (q.modBand pri f).flow c =
      if c = pri then (q.band? c).map fun qb => (f qb).flow else q.flow c := by
  by_cases hc : c = 0
  · have hne : ¬ c = pri := by omega
    rw [if_neg hne, hc]
    rfl
  · rw [Queue.flow_band (by omega), Queue.flow_band (by omega), band?_modBand f (by omega) hpri]
    by_cases h : c = pri
    · simp only [h, if_true, Option.map_map]
      rfl
    · simp only [h, if_false]

theorem Queue.flow_chargeBand (q : Queue) (x : Msgb) (c : Nat) : (q.chargeBand x).flow c =
      if c = x.bBand then (q.flow c).map fun f => f.charge x else q.flow c := by
  unfold chargeBand
  by_cases hx : x.bBand = 0
  · rw [if_pos hx, hx]
    by_cases hc : c = 0
    · rw [if_pos hc, hc]
      rfl
    · rw [if_neg hc, Queue.flow_band (by omega), Queue.flow_band (by omega)]
      rfl
  · rw [if_neg hx, flow_modBand _ (by omega)]
    by_cases hc : c = x.bBand
    · have hpos : 1 ≤ c := by omega
      simp only [hc, if_true, Queue.flow_band (hc ▸ hpos), Option.map_map]
      rfl
    · rw [if_neg hc, if_neg hc]

theorem Queue.bare_chargeBand_pointers (q : Queue) (x : Msgb) :
    (q.chargeBand x).qFirst = q.qFirst ∧ (q.chargeBand x).qLast = q.qLast ∧
      (q.chargeBand x).qNband = q.qNband := by
  unfold chargeBand
  split
  · exact ⟨rfl, rfl, rfl⟩
  · exact ⟨rfl, rfl, qNband_modBand _⟩

theorem Queue.delim_chargeBand (q : Queue) (x : Msgb) (hc : 1 ≤ c) :
    (q.chargeBand x).delim c = q.delim c := by
  unfold chargeBand
  split
  · rfl
  · rename_i hx
    unfold Queue.delim
    rw [band?_modBand _ hc (by omega)]
    split
    · rw [Option.map_map]
      rfl
    · rfl

theorem Queue.dischargeBand_spec (h : x.bBand ≤ q.qNband) :
    ∃ q' relief f, q.dischargeBand x = some (q', relief) ∧ q.flow x.bBand = some f ∧
      relief = (if (f.take x).relieved then some [x.bBand] else none) ∧ (∀ c, q'.flow c =
        if c = x.bBand then some (f.take x).relieve else q.flow c) ∧
      (∀ c, 1 ≤ c → q'.delim c = q.delim c) ∧ q' = { q with
        qCount := q'.qCount, qFull := q'.qFull, qWantw := q'.qWantw,
        qBandp := q'.qBandp } ∧ q'.qNband = q.qNband ∧
      (q'.qBandp.map fun qb => qb.qbBack) = q.qBandp.map fun qb => qb.qbBack := by
  by_cases hx : x.bBand = 0
  · refine ⟨(q.discharge x).1, if (q.discharge x).2 then some [0] else none,
      _, ?_, by rw [hx, flow_zero], ?_, ?_, fun _ _ => rfl, rfl, rfl, rfl⟩
    · simp [dischargeBand, hx]
    · rw [hx]
      rfl
    · intro c
      by_cases hc : c = 0
      · rw [hc, hx, if_pos rfl]
        rfl
      · rw [hx, if_neg hc, Queue.flow_band (by omega), Queue.flow_band (by omega)]
        rfl
  · have hpos : 1 ≤ x.bBand := by omega
    rcases band?_isSome hpos h with ⟨qb, hqb⟩
    refine ⟨q.modBand x.bBand fun _ => (qb.discharge x).1,
      if (qb.discharge x).2 then some [x.bBand] else none, qb.flow, ?_, ?_, rfl,
      ?_, ?_, rfl, qNband_modBand _, ?_⟩
    · simp [dischargeBand, hx, hqb]
    · rw [Queue.flow_band hpos, hqb]
      rfl
    · intro c
      rw [flow_modBand _ hpos]
      by_cases hc : c = x.bBand
      · rw [if_pos hc, if_pos hc, hc, hqb]
        rfl
      · rw [if_neg hc, if_neg hc]
    · intro c hc
      unfold Queue.delim
      rw [band?_modBand _ hc hpos]
      by_cases hne : c = x.bBand
      · rw [if_pos hne, hne, hqb]
        rfl
      · rw [if_neg hne]
    · unfold modBand
      apply ext_getElem?
      intro n
      have hget : q.qBandp[x.bBand - 1]? = some qb := hqb
      rw [getElem?_map, getElem?_map, getElem?_modify]
      by_cases hn : x.bBand - 1 = n
      · rw [← hn, hget]
        simp
        rfl
      · simp [hn]

end Flows

/-!
## Allocating bands
-/

/-- The queue with `k` more bands. -/
def Queue.addBands (q : Queue) (k : Nat) : Queue :=
  { q with qBandp := q.qBandp ++ List.replicate k q.newBand }

section Bands

variable {m : Blocks} {q : Queue} {l : List Nat}

@[simp] theorem Queue.addBands_zero (q : Queue) : q.addBands 0 = q := by
  simp [Queue.addBands]

@[simp] theorem Queue.qNband_addBands (q : Queue) (k : Nat) :
    (q.addBands k).qNband = q.qNband + k := by
  simp [Queue.addBands, Queue.qNband]

theorem Queue.addBands_succ (q : Queue) (k : Nat) :
    q.addBands (k + 1) = Queue.addBands { q with qBandp := q.qBandp ++ [q.newBand] } k := by
  simp only [Queue.addBands, replicate_succ, append_assoc, singleton_append]
  rfl

theorem growBands_spec (pri : Nat) (avail : List Bool) (q : Queue) :
    ∃ k rest, growBands pri avail q = (decide (pri ≤ q.qNband + k), q.addBands k, rest) ∧
      (k = 0 ∨ q.qNband + k ≤ pri) := by
  induction avail generalizing q with
  | nil => exact ⟨0, [], by simp [growBands], Or.inl rfl⟩
  | cons ok rest ih =>
    by_cases hpri : pri ≤ q.qNband
    · exact ⟨0, ok :: rest, by simp [growBands, hpri], Or.inl rfl⟩
    · cases ok with
      | false => exact ⟨0, rest, by simp [growBands, hpri], Or.inl rfl⟩
      | true =>
        rcases ih { q with qBandp := q.qBandp ++ [q.newBand] } with ⟨k, rest', hrun, hk⟩
        have hlen : Queue.qNband { q with qBandp := q.qBandp ++ [q.newBand] } = q.qNband + 1 := by
          simp [Queue.qNband]
        rw [hlen] at hrun hk
        refine ⟨k + 1, rest', ?_, Or.inr (by omega)⟩
        have hgrow : growBands pri (true :: rest) q = growBands pri rest
            { q with qBandp := q.qBandp ++ [q.newBand] } := by
          simp [growBands, hpri]
        have hadd : q.qNband + 1 + k = q.qNband + (k + 1) := by omega
        rw [hgrow, hrun, Queue.addBands_succ, hadd]

theorem Queue.band?_addBands (q : Queue) {c : Nat} (hc : 1 ≤ c) (k : Nat) : (q.addBands k).band? c =
      if c ≤ q.qNband then q.band? c else if c ≤ q.qNband + k then some q.newBand else none := by
  unfold band? Queue.addBands
  rw [getElem?_append, getElem?_replicate]
  unfold Queue.qNband
  by_cases h : c ≤ q.qBandp.length
  · have hlt : c - 1 < q.qBandp.length := by omega
    simp [h, hlt]
  · have hlt : ¬ c - 1 < q.qBandp.length := by omega
    rw [if_neg hlt, if_neg h]
    by_cases hk : c ≤ q.qBandp.length + k
    · rw [if_pos hk, if_pos (by omega)]
    · rw [if_neg hk, if_neg (by omega)]

theorem Queue.flow_addBands (q : Queue) (k c : Nat) : (q.addBands k).flow c =
      if c ≤ q.qNband then q.flow c else if c ≤ q.qNband + k then
        some ⟨0, q.qHiwat, q.qLowat, false, false⟩ else none := by
  by_cases hc : c = 0
  · rw [hc, if_pos (by omega)]
    rfl
  · rw [Queue.flow_band (by omega), Queue.band?_addBands q (by omega), Queue.flow_band (by omega)]
    split
    · rfl
    · split
      · rfl
      · rfl

theorem Queue.Ok.addBands (h : q.Ok m l) {k : Nat} (hk : q.qNband + k < 256) :
    (q.addBands k).Ok m l where
  links := h.links
  valid := h.valid
  ranked := h.ranked
  normal := h.normal
  bands p hp := by
    have := h.bands p hp
    rw [Queue.qNband_addBands]
    omega
  delim c hc hc' := by
    by_cases hle : c ≤ q.qNband
    · rw [← h.delim c hc hle]
      unfold Queue.delim
      rw [Queue.band?_addBands q hc, if_pos hle]
    · rw [Queue.qNband_addBands] at hc'
      -- No message has a band that the queue did not have.
      have hnil : level m.rank c l = [] := by
        unfold level
        rw [filter_eq_nil_iff]
        intro p hp
        rw [decide_eq_true_eq]
        intro hrank
        have hband := h.bands p hp
        rw [band_of_rank hrank (by omega)] at hband
        omega
      unfold Queue.delim
      rw [Queue.band?_addBands q hc, if_neg hle, if_pos hc', hnil]
      rfl
  nband := by
    rw [Queue.qNband_addBands]
    exact hk

end Bands

end Streams
end Svr4
