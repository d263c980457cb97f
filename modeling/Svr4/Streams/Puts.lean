import Mathlib.Data.List.Perm.Subperm
import Svr4.Streams.Order

/-!
# Putting messages on a queue

The routine `putq` puts a message behind its equals and `putbq` puts
it before them, whatever pointers they start from.
-/

namespace Svr4
namespace Streams

open Blocks RankedList List Queue

/-!
## Walks along the queue
-/

variable {c : Msgb → Bool}

theorem Blocks.seek_found {m : Blocks} {a b : List Nat} {tmp : Nat} (p : Option Nat) (fuel : Nat)
    (h : Chain m.next p (a ++ tmp :: b) none) (hpass : ∀ j ∈ a, c (m.blk j))
    (hstop : c (m.blk tmp) = false) (hfuel : a.length < fuel) :
    m.seek c fuel p = some (some tmp) := by
  induction a generalizing p fuel with
  | nil =>
    obtain ⟨n, rfl⟩ : ∃ n, fuel = n + 1 := ⟨fuel - 1, by omega⟩
    rcases h with ⟨rfl, _⟩
    simp [seek, hstop]
  | cons j a ih =>
    obtain ⟨n, rfl⟩ : ∃ n, fuel = n + 1 := ⟨fuel - 1, by omega⟩
    rcases h with ⟨rfl, hrest⟩
    have hj : c (m.blk j) = true := hpass j (by simp)
    rw [length_cons] at hfuel
    simp only [seek, hj, if_true]
    exact ih (m.blk j).bNext n hrest (fun i hi => hpass i (by simp [hi])) (by omega)

theorem Blocks.seek_end {m : Blocks} {l : List Nat} (p : Option Nat) (fuel : Nat)
    (h : Chain m.next p l none) (hpass : ∀ j ∈ l, c (m.blk j)) (hfuel : l.length ≤ fuel) :
    m.seek c fuel p = some none := by
  induction l generalizing p fuel with
  | nil =>
    rw [Chain.nil_iff.mp h]
    cases fuel <;> rfl
  | cons j l ih =>
    rw [length_cons] at hfuel
    obtain ⟨n, rfl⟩ : ∃ n, fuel = n + 1 := ⟨fuel - 1, by omega⟩
    rcases h with ⟨rfl, hrest⟩
    have hj : c (m.blk j) = true := hpass j (by simp)
    simp only [seek, hj, if_true]
    exact ih (m.blk j).bNext n hrest (fun i hi => hpass i (by simp [hi])) (by omega)

theorem length_le_of_valid {l : List Nat} {n : Nat} (hnodup : l.Nodup)
    (hvalid : ∀ p ∈ l, p < n) : l.length ≤ n := by
  have hsub : l ⊆ List.range n := fun p hp => mem_range.mpr (hvalid p hp)
  have hle := (hnodup.subperm hsub).length_le
  rwa [length_range] at hle

namespace Queue.Ok

variable {m : Blocks} {q : Queue} {l a b : List Nat} {bp tmp : Nat}

theorem length_le (h : q.Ok m l) : l.length ≤ m.nblk :=
  length_le_of_valid (DLinked.nodup h.links) h.valid

theorem scan_first (h : q.Ok m (a ++ tmp :: b)) (hpass : ∀ j ∈ a, c (m.blk j))
    (hstop : c (m.blk tmp) = false) : m.scan c q.qFirst = some tmp := by
  have hlen := h.length_le
  rw [length_append, length_cons] at hlen
  rw [scan, seek_found q.qFirst m.nblk h.links.forward hpass hstop (by omega)]
  rfl

theorem scan_from {d : List Nat} {i : Nat} (h : q.Ok m (d ++ (a ++ tmp :: b)))
    (hi : (a ++ tmp :: b).head? = some i) (hpass : ∀ j ∈ a, c (m.blk j))
    (hstop : c (m.blk tmp) = false) : m.scan c (some i) = some tmp := by
  have hlen := h.length_le
  rw [length_append, length_append, length_cons] at hlen
  rcases Chain.append_iff.mp h.links.forward with ⟨p, _, hback⟩
  have hp : p = some i := by
    rw [(Chain.iff_next.mp hback).1, hi]
  rw [hp] at hback
  rw [scan, seek_found (some i) m.nblk hback hpass hstop (by omega)]
  rfl

/-- The two walks by which a place below a threshold is found. -/
theorem scan_behind (h : q.Ok m l) {t : Nat} (ht : t ≤ 256) (hlo : lo m.rank t l = tmp :: b) :
    ∃ i, m.scan (fun y => decide (QPCTL ≤ y.dbType)) q.qFirst = some i ∧
      m.scan (fun y => decide (t ≤ y.bBand)) (some i) = some tmp := by
  have htmp : tmp ∈ l ∧ m.rank tmp < t := by
    rw [← mem_lo, hlo]
    simp
  have hlow : ∀ j, m.rank j < 256 → ¬ QPCTL ≤ (m.blk j).dbType := by
    intro j hj hhigh
    rw [rank_high hhigh] at hj
    omega
  -- High priority messages come first, then the others at or above t.
  have hsplit : l = hi m.rank 256 l ++ (hi m.rank t (lo m.rank 256 l) ++ tmp :: b) := by
    have h₁ := hi_append_lo h.ranked 256
    have h₂ := hi_append_lo (h.ranked.filter fun x => decide (m.rank x < 256)) t
    change hi m.rank t (lo m.rank 256 l) ++ lo m.rank t (lo m.rank 256 l) = lo m.rank 256 l at h₂
    have h₃ : lo m.rank t (lo m.rank 256 l) = lo m.rank t l := by
      unfold lo
      rw [filter_filter]
      apply filter_congr
      intro j _
      by_cases hj : m.rank j < t
      · have hj' : m.rank j < 256 := by omega
        simp [hj, hj']
      · simp [hj]
    rw [h₃, hlo] at h₂
    rw [h₂, h₁]
  have hall := h
  rw [hsplit] at hall
  obtain ⟨i, hhead⟩ : ∃ i, (hi m.rank t (lo m.rank 256 l) ++ tmp :: b).head? = some i := by
    cases hi m.rank t (lo m.rank 256 l) <;> simp
  obtain ⟨rest, hrest⟩ : ∃ rest, hi m.rank t (lo m.rank 256 l) ++ tmp :: b = i :: rest := by
    cases hmid : hi m.rank t (lo m.rank 256 l) ++ tmp :: b with
    | nil => simp at hmid
    | cons j rest =>
      rw [hmid, head?_cons, Option.some.injEq] at hhead
      exact ⟨rest, by rw [hhead]⟩
  refine ⟨i, ?_, ?_⟩
  · rw [hrest] at hall
    apply hall.scan_first
    · intro j hj
      have hj' := (mem_hi.mp hj).2
      rw [decide_eq_true_eq]
      by_contra hnot
      have := m.band_lt j
      rw [rank_low hnot] at hj'
      omega
    · have hmem : i ∈ hi m.rank t (lo m.rank 256 l) ++ tmp :: b := by
        rw [hrest]
        simp
      have hi' : m.rank i < 256 := by
        rcases mem_append.mp hmem with hmem | hmem
        · exact (mem_lo.mp (mem_hi.mp hmem).1).2
        · rw [← hlo] at hmem
          have := (mem_lo.mp hmem).2
          omega
      simpa using hlow i hi'
  · apply hall.scan_from hhead
    · intro j hj
      rcases mem_hi.mp hj with ⟨hj, hjt⟩
      rw [rank_low (hlow j (mem_lo.mp hj).2)] at hjt
      simpa [Blocks.band] using hjt
    · have htmp' := htmp.2
      rw [rank_low (hlow tmp (by omega))] at htmp'
      simpa [Blocks.band] using htmp'

end Queue.Ok

/-!
## Places
-/

section Places

variable {m : Blocks} {q : Queue} {l b : List Nat} {bp tmp t : Nat}

theorem place_before (h : q.Ok m l) (hbp : bp ∉ l) (hlo : lo m.rank t l = tmp :: b) :
    Relinked m q l (linkBefore m q bp tmp).1 (linkBefore m q bp tmp).2
      (insertAt m.rank t bp l) := by
  have hl := hi_append_lo h.ranked t
  rw [hlo] at hl
  have hlinks := h.links
  rw [← hl] at hlinks hbp
  have hplace := linkBefore_spec hlinks hbp
  rw [hl] at hplace
  unfold insertAt
  rwa [hlo]

theorem place_last (h : q.Ok m l) (hbp : bp ∉ l) {last : Nat}
    (hlast : l.getLast? = some last) (hlo : lo m.rank t l = []) :
    Relinked m q l (linkLast m q bp last).1 (linkLast m q bp last).2 (insertAt m.rank t bp l) := by
  have hl := hi_append_lo h.ranked t
  rw [hlo, append_nil] at hl
  obtain ⟨init, rfl⟩ : ∃ init, l = init ++ [last] := by
    rw [getLast?_eq_some_iff] at hlast
    exact hlast
  have hplace := linkLast_spec h.links hbp
  unfold insertAt
  rw [hlo, hl]
  exact hplace

theorem place_after (h : q.Ok m l) (hbp : bp ∉ l) (hhi : (hi m.rank t l).getLast? = some tmp) :
    Relinked m q l (linkAfter m q bp tmp).1 (linkAfter m q bp tmp).2 (insertAt m.rank t bp l) := by
  have hl := hi_append_lo h.ranked t
  obtain ⟨init, hinit⟩ : ∃ init, hi m.rank t l = init ++ [tmp] := by
    rw [getLast?_eq_some_iff] at hhi
    exact hhi
  rw [hinit, append_assoc, singleton_append] at hl
  have hlinks := h.links
  rw [← hl] at hlinks hbp
  have hplace := linkAfter_spec hlinks hbp
  rw [hl] at hplace
  unfold insertAt
  rw [hinit, append_assoc, singleton_append]
  exact hplace

theorem place_only (bp : Nat) :
    Relinked m q [] (linkOnly m q bp).1 (linkOnly m q bp).2 (insertAt m.rank t bp []) :=
  linkOnly_spec bp

theorem Queue.Ok.last_eq (h : q.Ok m l) (hl : l ≠ []) :
    ∃ last, q.qLast = some last ∧ l.getLast? = some last := by
  refine ⟨l.getLast hl, ?_, getLast?_eq_some_getLast hl⟩
  rw [DLinked.last_eq h.links, getLast?_eq_some_getLast hl]

theorem queclass_le_iff {p : Nat} (hband : m.band bp = 0) :
    queclass (m.blk bp) ≤ queclass (m.blk p) ↔ m.rank bp ≤ m.rank p := by
  have hle := m.rank_le p
  rw [queclass_eq, queclass_eq]
  by_cases hbp : QPCTL ≤ (m.blk bp).dbType
  · rw [rank_high hbp]
    by_cases hp : m.rank p = 256
    · simp [hp]
    · have hlt : ¬ 256 ≤ m.rank p := by omega
      simp [hp, hlt, QPCTL, QNORM]
  · rw [rank_low hbp, hband]
    simp [QNORM]

theorem putqNormal_spec (h : q.Ok m l) (hl : l ≠ []) (hbp : bp ∉ l) (hband : m.band bp = 0) :
    ∃ m' q', putqNormal m q bp = some (m', q') ∧
      Relinked m q l m' q' (insertAt m.rank (m.rank bp) bp l) := by
  rcases h.last_eq hl with ⟨last, hlast, hgetLast⟩
  by_cases hle : queclass (m.blk bp) ≤ queclass (m.blk last)
  · refine ⟨_, _, ?_, place_last h hbp hgetLast ?_⟩
    · simp [putqNormal, hlast, hle]
    · rw [lo_eq_nil_iff h.ranked hgetLast]
      exact (queclass_le_iff hband).mp hle
  · have hne : lo m.rank (m.rank bp) l ≠ [] := by
      rw [Ne, lo_eq_nil_iff h.ranked hgetLast]
      exact fun hrank => hle ((queclass_le_iff hband).mpr hrank)
    obtain ⟨tmp, b, hlo⟩ := exists_cons_of_ne_nil hne
    have hscan : m.scan (fun x => decide (queclass (m.blk bp) ≤ queclass x)) q.qFirst =
        some tmp := by
      have hsplit := hi_append_lo h.ranked (m.rank bp)
      rw [hlo] at hsplit
      have hall := h
      rw [← hsplit] at hall
      apply hall.scan_first
      · intro j hj
        rw [decide_eq_true_eq, queclass_le_iff hband]
        exact (mem_hi.mp hj).2
      · rw [decide_eq_false_iff_not, queclass_le_iff hband]
        have htmp : tmp ∈ lo m.rank (m.rank bp) l := by
          rw [hlo]
          simp
        have := (mem_lo.mp htmp).2
        omega
    refine ⟨_, _, ?_, place_before h hbp hlo⟩
    simp [putqNormal, hlast, hle, hscan]

theorem behind_last_iff {l : Nat} (hlow : ¬ QPCTL ≤ (m.blk bp).dbType) (ht : t ≤ 256) :
    queclass (m.blk bp) < queclass (m.blk l) ∨ t ≤ m.band l ↔ t ≤ m.rank l := by
  have hlt := m.band_lt bp
  have hbp : ¬ m.rank bp = 256 := by
    rw [rank_low hlow]
    omega
  rw [queclass_eq, queclass_eq]
  by_cases hlast : QPCTL ≤ (m.blk l).dbType
  · simp [rank_high hlast, hbp, QPCTL, QNORM, ht]
  · have hlt' := m.band_lt l
    have hne : ¬ m.rank l = 256 := by
      rw [rank_low hlast]
      omega
    simp only [hbp, hne, if_false, Nat.lt_irrefl, false_or]
    rw [rank_low hlast]

theorem behind_spec (h : q.Ok m l) (hl : l ≠ []) (hbp : bp ∉ l)
    (hlow : ¬ QPCTL ≤ (m.blk bp).dbType) (ht : t ≤ 256) {c : Nat → Bool}
    (hc : ∀ b, c b = decide (t ≤ b)) :
    ∃ m' q', behind c m q bp = some (m', q') ∧ Relinked m q l m' q' (insertAt m.rank t bp l) := by
  obtain rfl : c = fun b => decide (t ≤ b) := funext hc
  rcases h.last_eq hl with ⟨last, hlast, hgetLast⟩
  have hiff := behind_last_iff (l := last) hlow ht
  have hlo := lo_eq_nil_iff (t := t) h.ranked hgetLast
  by_cases hcond : queclass (m.blk bp) < queclass (m.blk last) ∨ t ≤ m.band last
  · have hcond' : queclass (m.blk bp) < queclass (m.blk last) ∨
      decide (t ≤ (m.blk last).bBand) = true := by
        simpa [Blocks.band] using hcond
    refine ⟨_, _, ?_, place_last h hbp hgetLast (hlo.mpr (hiff.mp hcond))⟩
    simp only [behind, hlast, Option.bind_eq_bind, Option.bind_some, if_pos hcond']
    rfl
  · have hcond' : ¬ (queclass (m.blk bp) < queclass (m.blk last) ∨
      decide (t ≤ (m.blk last).bBand) = true) := by
        simpa [Blocks.band] using hcond
    have hne : lo m.rank t l ≠ [] := fun hnil => hcond (hiff.mpr (hlo.mp hnil))
    obtain ⟨tmp, b, hcons⟩ := exists_cons_of_ne_nil hne
    rcases h.scan_behind ht hcons with ⟨i, hfirst, hsecond⟩
    refine ⟨_, _, ?_, place_before h hbp hcons⟩
    simp only [behind, hlast, Option.bind_eq_bind, Option.bind_some, if_neg hcond', hfirst, hsecond]
    rfl

end Places

/-!
## Delimiters
-/

/--
A message put at a threshold of the queue: the new list, and the delimiters of
its bands.
-/
structure Placed (m : Blocks) (q : Queue) (l : List Nat) (bp t : Nat)
    (m' : Blocks) (q' : Queue) : Prop where
  links : q'.Links m' (insertAt m.rank t bp l)
  hdr : SameHdr m m'
  frame : ∀ j, j ∉ l → j ≠ bp → m'.blk j = m.blk j
  delim : ∀ c, 1 ≤ c → c ≤ q.qNband →
    q'.delim c = some ((level m.rank c (insertAt m.rank t bp l)).head?,
      (level m.rank c (insertAt m.rank t bp l)).getLast?)
  bare : q'.bare = q.bare

section Delimiters

variable {m m' : Blocks} {q q' : Queue} {l l' : List Nat} {bp t : Nat}

theorem Relinked.delim (h : Relinked m q l m' q' l') (c : Nat) : q'.delim c = q.delim c := by
  rw [h.queue]
  rfl

theorem Relinked.bare (h : Relinked m q l m' q' l') : q'.bare = q.bare := by
  rw [h.queue]
  rfl

theorem Relinked.band? (h : Relinked m q l m' q' l') (c : Nat) : q'.band? c = q.band? c := by
  rw [h.queue]
  rfl

theorem Relinked.frame_insert (h : Relinked m q l m' q'
    (insertAt m.rank t bp l)) : ∀ j, j ∉ l → j ≠ bp → m'.blk j = m.blk j := by
  intro j hj hne
  apply h.frame j hj
  rw [mem_insertAt]
  rintro (rfl | hmem)
  · exact hne rfl
  · exact hj hmem

section

variable (h : q.Ok m l)
include h

theorem Relinked.placed_normal (hrel : Relinked m q l m' q' (insertAt m.rank t bp l))
    (hband : m.band bp = 0) : Placed m q l bp t m' q' where
  links := hrel.links
  hdr := hrel.hdr
  frame := hrel.frame_insert
  delim := by
    intro c hc hc'
    have hne : c ≠ m.rank bp := by
      have := h.nband
      by_cases hhigh : QPCTL ≤ (m.blk bp).dbType
      · rw [rank_high hhigh]
        omega
      · rw [rank_low hhigh, hband]
        omega
    rw [hrel.delim, h.delim c hc hc', level_insertAt_of_ne h.ranked hne]
  bare := hrel.bare

theorem Relinked.placed_band (hrel : Relinked m q l m' q' (insertAt m.rank t bp l))
    (hrank : m.rank bp = m.band bp) (hband : 1 ≤ m.band bp)
    (hband' : m.band bp ≤ q.qNband) {f : Qband → Qband}
    (hf : ∀ qb, { f qb with qbFirst := none, qbLast := none } =
      { qb with qbFirst := none, qbLast := none })
    (hends : ∀ qb, q.band? (m.band bp) = some qb → ((f qb).qbFirst, (f qb).qbLast) =
        ((level m.rank (m.band bp) (insertAt m.rank t bp l)).head?,
          (level m.rank (m.band bp) (insertAt m.rank t bp l)).getLast?)) :
    Placed m q l bp t m' (q'.modBand (m.band bp) f) where
  links := hrel.links
  hdr := hrel.hdr
  frame := hrel.frame_insert
  delim := by
    intro c hc hc'
    by_cases hne : c = m.band bp
    · rw [hne]
      rcases Queue.band?_isSome hband hband' with ⟨qb, hqb⟩
      rw [Queue.delim, Queue.band?_modBand f hband hband, if_pos rfl,
        hrel.band?, hqb, Option.map_some, Option.map_some, hends qb hqb]
    · rw [Queue.delim_modBand f hc hband hne, hrel.delim, h.delim c hc hc',
        level_insertAt_of_ne h.ranked (by rw [hrank]; exact hne)]
  bare := by
    rw [bare_modBand f hf]
    exact hrel.bare

theorem Queue.Ok.band_ends {c : Nat} {qb : Qband} (hc : 1 ≤ c)
    (hqb : q.band? c = some qb) : qb.qbFirst = (level m.rank c l).head? ∧
      qb.qbLast = (level m.rank c l).getLast? := by
  have hdelim := h.delim c hc (Queue.le_of_band? hc hqb)
  rw [Queue.delim, hqb, Option.map_some, Option.some.injEq, Prod.mk.injEq] at hdelim
  exact hdelim

theorem putqLink_spec (hbp : bp ∉ l) (hnormal : m.Normal bp)
    (hband : m.band bp ≤ q.qNband) :
    ∃ m' q', putqLink m q bp = some (m', q') ∧ Placed m q l bp (m.rank bp) m' q' := by
  have hfirst := DLinked.first_eq h.links
  by_cases hb : m.band bp = 0
  · have hb' : (m.blk bp).bBand = 0 := hb
    cases l with
    | nil =>
      refine ⟨_, _, ?_, (place_only bp).placed_normal h hb⟩
      simp [putqLink, hfirst, hb']
    | cons p rest =>
      rcases putqNormal_spec h (by simp) hbp hb with ⟨m', q', hrun, hrel⟩
      refine ⟨m', q', ?_, hrel.placed_normal h hb⟩
      simpa [putqLink, hfirst, hb'] using hrun
  · have hb' : ¬ (m.blk bp).bBand = 0 := hb
    have hpos : 1 ≤ m.band bp := by omega
    have hlow : ¬ QPCTL ≤ (m.blk bp).dbType := fun hhigh => hb (hnormal hhigh)
    have hrank : m.rank bp = m.band bp := rank_low hlow
    have hself := level_insertAt_self (l := l) hrank
    rw [hrank]
    cases l with
    | nil =>
      refine ⟨_, _, ?_, (place_only bp).placed_band h hrank hpos hband
        (f := fun qb => { qb with qbFirst := some bp, qbLast := some bp })
        (fun _ => rfl) ?_⟩
      · simp only [putqLink, hfirst, hb', if_false]
        rfl
      · intro qb _
        rw [hself]
        rfl
    | cons p rest =>
      rcases Queue.band?_isSome hpos hband with ⟨qb, hqb⟩
      have hqb' : q.band? (m.blk bp).bBand = some qb := hqb
      rcases h.band_ends hpos hqb with ⟨hhead, hlast⟩
      cases htmp : (level m.rank (m.band bp) (p :: rest)).getLast? with
      | some tmp =>
        obtain ⟨i, hi⟩ : ∃ i, (level m.rank (m.band bp) (p :: rest)).head? = some i := by
          cases hlevel : level m.rank (m.band bp) (p :: rest) with
          | nil => simp [hlevel] at htmp
          | cons i _ => exact ⟨i, rfl⟩
        rw [htmp] at hlast
        rw [hi] at hhead
        have hrel := place_after h hbp (getLast?_hi h.ranked htmp)
        refine ⟨_, _, ?_, hrel.placed_band h hrank hpos hband
          (f := fun qb => { qb with qbLast := some bp })
          (fun _ => rfl) ?_⟩
        · simp [putqLink, hfirst, hb', putqBand, hqb', hhead, hlast]
          rfl
        · intro qb₁ hqb₁
          rw [hqb, Option.some.injEq] at hqb₁
          rw [← hqb₁, hself, hhead, head?_append, hi, getLast?_append]
          rfl
      | none =>
        have hnil : level m.rank (m.band bp) (p :: rest) = [] :=
          getLast?_eq_none_iff.mp htmp
        rw [hnil] at hhead
        have hends : ∀ qb₁ : Qband, q.band? (m.band bp) = some qb₁ →
            (some bp, some bp) = ((level m.rank (m.band bp)
              (insertAt m.rank (m.band bp) bp (p :: rest))).head?,
            (level m.rank (m.band bp) (insertAt m.rank (m.band bp) bp (p :: rest))).getLast?) := by
          intro _ _
          rw [hself, hnil]
          rfl
        rcases behind_spec h (by simp) hbp hlow (by have := m.band_lt bp; omega)
          (c := fun b => decide ((m.blk bp).bBand ≤ b)) (t := m.band bp)
          (fun _ => rfl) with ⟨m', q', hrun, hrel⟩
        refine ⟨_, _, ?_, hrel.placed_band h hrank hpos hband
          (f := fun qb => { qb with qbFirst := some bp, qbLast := some bp })
          (fun _ => rfl) hends⟩
        simp [putqLink, hfirst, hb', putqBand, hqb', hhead, hrun]
        rfl

theorem place_first (hbp : bp ∉ l) (ht : ∀ p ∈ l, m.rank p < t) :
    Relinked m q l (linkFirst m q bp).1 (linkFirst m q bp).2 (insertAt m.rank t bp l) := by
  have hhi : hi m.rank t l = [] := by
    unfold hi
    rw [filter_eq_nil_iff]
    intro p hp
    have := ht p hp
    simp only [decide_eq_true_eq]
    omega
  have hlo : lo m.rank t l = l := by
    unfold lo
    rw [filter_eq_self]
    intro p hp
    simpa using ht p hp
  unfold insertAt
  rw [hhi, hlo]
  exact linkFirst_spec h.links hbp

theorem putbqLink_spec (hbp : bp ∉ l) (hnormal : m.Normal bp)
    (hband : m.band bp ≤ q.qNband) :
    ∃ m' q', putbqLink m q bp = some (m', q') ∧ Placed m q l bp (m.rank bp + 1) m' q' := by
  have hfirst := DLinked.first_eq h.links
  by_cases hhigh : QPCTL ≤ (m.blk bp).dbType
  · have hb : m.band bp = 0 := hnormal hhigh
    have hb' : (m.blk bp).bBand = 0 := hb
    have hrel := place_first (t := m.rank bp + 1) h hbp (by
        intro p _
        have := m.rank_le p
        rw [rank_high hhigh]
        omega)
    refine ⟨_, _, ?_, hrel.placed_normal h hb⟩
    simp [putbqLink, queclass, hhigh, hb']
  · have hrank : m.rank bp = m.band bp := rank_low hhigh
    have hclass : ¬ queclass (m.blk bp) = QPCTL := by
      rw [queclass, if_neg hhigh]
      decide
    have hself := level_insertAt_succ (l := l) hrank
    have hlt := m.band_lt bp
    have hbehind : l ≠ [] → ∃ m' q', putbqBehind m q bp = some (m', q') ∧
        Relinked m q l m' q' (insertAt m.rank (m.rank bp + 1) bp l) := by
      intro hl
      apply behind_spec h hl hbp hhigh (by omega)
      intro b
      rw [hrank]
      rfl
    by_cases hb : m.band bp = 0
    · have hb' : (m.blk bp).bBand = 0 := hb
      cases l with
      | nil =>
        have hrel := place_first (t := m.rank bp + 1) h hbp (by simp)
        refine ⟨_, _, ?_, hrel.placed_normal h hb⟩
        simp [putbqLink, hfirst, hb']
      | cons p rest =>
        rcases hbehind (by simp) with ⟨m', q', hrun, hrel⟩
        refine ⟨m', q', ?_, hrel.placed_normal h hb⟩
        simpa [putbqLink, hfirst, hclass, hb'] using hrun
    · have hb' : ¬ (m.blk bp).bBand = 0 := hb
      have hpos : 1 ≤ m.band bp := by omega
      cases l with
      | nil =>
        have hrel := place_first (t := m.rank bp + 1) h hbp (by simp)
        rw [← hrank] at hself
        refine ⟨_, _, ?_, hrel.placed_band h hrank hpos hband
          (f := fun qb => { qb with qbFirst := some bp, qbLast := some bp })
          (fun _ => rfl) ?_⟩
        · simp [putbqLink, hfirst, hb']
          rfl
        · intro qb _
          rw [← hrank, hself]
          rfl
      | cons p rest =>
        rcases Queue.band?_isSome hpos hband with ⟨qb, hqb⟩
        have hqb' : q.band? (m.blk bp).bBand = some qb := hqb
        rcases h.band_ends hpos hqb with ⟨hhead, hlast⟩
        rw [← hrank] at hself
        cases htmp : (level m.rank (m.band bp) (p :: rest)).head? with
        | some tmp =>
          have hlevel : level m.rank (m.band bp) (p :: rest) ≠ [] := by
            intro hnil
            simp [hnil] at htmp
          rw [htmp] at hhead
          have hlohead := head?_lo h.ranked htmp
          obtain ⟨b, hlo⟩ : ∃ b, lo m.rank (m.band bp + 1) (p :: rest) = tmp :: b :=
            head?_eq_some_iff.mp hlohead
          rw [← hrank] at hlo
          have hrel := place_before h hbp hlo
          refine ⟨_, _, ?_, hrel.placed_band h hrank hpos hband
            (f := fun qb => { qb with qbFirst := some bp })
            (fun _ => rfl) ?_⟩
          · simp [putbqLink, hfirst, hclass, hb', hqb', hhead]
            rfl
          · intro qb₁ hqb₁
            rw [hqb, Option.some.injEq] at hqb₁
            rw [← hqb₁, ← hrank, hself, hlast, head?_cons, hrank]
            cases hrest : level m.rank (m.band bp) (p :: rest) with
            | nil => exact absurd hrest hlevel
            | cons i is => rw [getLast?_cons_cons]
        | none =>
          have hnil : level m.rank (m.band bp) (p :: rest) = [] :=
            head?_eq_none_iff.mp htmp
          rw [htmp] at hhead
          rcases hbehind (by simp) with ⟨m', q', hrun, hrel⟩
          refine ⟨_, _, ?_, hrel.placed_band h hrank hpos hband
            (f := fun qb => { qb with qbFirst := some bp, qbLast := some bp })
            (fun _ => rfl) ?_⟩
          · simp [putbqLink, hfirst, hclass, hb', hqb', hhead, hrun]
            rfl
          · intro qb₁ _
            rw [← hrank, hself, hrank, hnil]
            rfl

end

end Delimiters

end Streams
end Svr4
