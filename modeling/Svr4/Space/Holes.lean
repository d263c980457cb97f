import Svr4.Space.Gap

/-!
# When the hole is right

The search to lower addresses leaves out the lowest segment when there is another one, and
an address space without segments does not look at the address a hole should contain.
`as_gap` is right exactly when neither matters.
-/

namespace Svr4
namespace Space

open Rings List

/-- When `as_gap` gives the right answer.  Bounds that wrap have none.  In the search for
the highest hole between several segments the lowest one must not matter: something fits
above the second one, or what lies below the second one is not accepted, or the lowest one
lies outside the bounds. -/
def Meets (m : Segs) (l : List Nat) (q : Request) : Prop :=
  if word ≤ q.base + q.len then ∀ y k, 0 < k → ¬ Fits m l q y k
  else
    match l with
    | [] => q.ahContain = true →
        q.len < q.minlen ∨ (q.base ≤ q.addr ∧ q.addr < q.base + q.len)
    | [_] => True
    | first :: second :: _ => q.ahHi = true →
        (∃ y k, 0 < k ∧ Fits m l q y k ∧ m.sBase second + m.sSize second ≤ y) ∨
        q.accepts q.base (min (m.sBase second) (q.base + q.len) - q.base) = false ∨
        q.len = 0 ∨ q.base + q.len ≤ m.sBase first ∨ m.sBase first + m.sSize first ≤ q.base

section Answers

variable {m : Segs} {as : As} {l : List Nat} {q : Request}

theorem Fits.sublist {p : List Nat} {x n : Nat} (hf : Fits m l q x n)
    (hsub : ∀ s ∈ p, s ∈ l) : Fits m p q x n :=
  ⟨hf.low, hf.high, hf.space, hf.long, fun a hlo hhi s hs => hf.free a hlo hhi s (hsub s hs),
    hf.contains⟩

theorem Fits.cons {s x n : Nat} {p : List Nat} (hf : Fits m p q x n)
    (hs : ∀ a, x ≤ a → a < x + n → ¬ (m.sBase s ≤ a ∧ a < m.sBase s + m.sSize s)) :
    Fits m (s :: p) q x n := by
  refine ⟨hf.low, hf.high, hf.space, hf.long, fun a hlo hhi t ht => ?_, hf.contains⟩
  rcases mem_cons.mp ht with rfl | ht
  · exact hs a hlo hhi
  · exact hf.free a hlo hhi t ht

theorem empty_right_iff (hsmall : q.base + q.len < word) :
    Right m [] q (if validVaRange q.base q.len q.minlen then some (q.base, q.len) else none) ↔
      Meets m [] q := by
  have hvalid : validVaRange q.base q.len q.minlen = true ↔ q.minlen ≤ q.len := by
    have hsum : add32 q.base q.len = q.base + q.len := Nat.mod_eq_of_lt hsmall
    unfold validVaRange
    simp only
    rw [decide_eq_true_eq, hsum, sub32_eq (by omega) hsmall]
    omega
  have hwrap : ¬ word ≤ q.base + q.len := by omega
  unfold Meets
  rw [if_neg hwrap]
  by_cases hlong : q.minlen ≤ q.len
  · rw [if_pos (hvalid.mpr hlong)]
    constructor
    · intro hright hc
      exact Or.inr (hright.1.contains hc)
    · intro hmeets
      refine ⟨⟨Nat.le_refl _, Nat.le_refl _, by omega, hlong, nofun, fun hc => ?_⟩, by omega, ?_, ?_⟩
      · rcases hmeets hc with hlt | hin
        · omega
        · exact hin
      · intro y k hk hf
        have hlow := hf.low
        have hhigh := hf.high
        split <;> omega
      · intro y k hk hf _ _
        exact ⟨hf.low, hf.high⟩
  · rw [if_neg fun hv => hlong (hvalid.mp hv)]
    refine iff_of_true (fun y k hk hf => ?_) fun _ => Or.inl (by omega)
    have hlow := hf.low
    have hhigh := hf.high
    have hneed := hf.long
    omega

theorem leaveFirst_right_iff {first second : Nat} {t : List Nat}
    (ha : Ascending m (first :: second :: t)) (hsmall : q.base + q.len < word)
    (hhi : q.ahHi = true) {r : Option (Nat × Nat)} (hr : Right m (second :: t) q r) :
    Right m (first :: second :: t) q r ↔ Meets m (first :: second :: t) q := by
  have ha' : Ascending m (second :: t) :=
    ⟨fun s hs => ha.place s (mem_cons_of_mem _ hs), (pairwise_cons.mp ha.sorted).2⟩
  have hfirst := ha.place first mem_cons_self
  have horder := (pairwise_cons.mp ha.sorted).1 second mem_cons_self
  have hlater : ∀ s ∈ t, m.sBase second + m.sSize second ≤ m.sBase s :=
    (pairwise_cons.mp ha'.sorted).1
  have hdown : ∀ {y k : Nat}, Fits m (first :: second :: t) q y k → Fits m (second :: t) q y k :=
    fun hf => hf.sublist fun s hs => mem_cons_of_mem _ hs
  have hwrap : ¬ word ≤ q.base + q.len := by omega
  unfold Meets
  rw [if_neg hwrap]
  constructor
  · intro hright _
    by_contra hnot
    rw [not_or, not_or, not_or, not_or] at hnot
    obtain ⟨habove, hacc, hlen, hbound, hbase⟩ := hnot
    have hacc : q.accepts q.base (min (m.sBase second) (q.base + q.len) - q.base) = true := by
      simpa using hacc
    have hwhat := (accepts_iff (by omega) (by omega)).mp hacc
    -- what lies below the second segment fits when the first one is left out
    have hfits : Fits m (second :: t) q q.base
        (min (m.sBase second) (q.base + q.len) - q.base) := by
      refine ⟨Nat.le_refl _, by omega, by omega, hwhat.1, fun a hlo hhi' s hs => ?_, fun hc => ?_⟩
      · rcases mem_cons.mp hs with rfl | hs
        · omega
        · have hle := hlater s hs
          omega
      · have hin := hwhat.2 hc
        omega
    cases r with
    | none => exact hr _ _ (by omega) hfits
    | some r =>
      have hhighest := hr.2.2.1 _ _ (by omega) hfits
      rw [if_pos hhi] at hhighest
      have hfound := hright.1
      have hpos : 0 < r.2 := by
        rcases hright.2.1 with hpos | hzero
        · exact hpos
        · exact absurd hzero hlen
      have hbelow : r.1 + r.2 ≤ m.sBase second := by
        rcases hfound.beside ha hpos (s := second) (by simp) with hle | hge
        · exact hle
        · exact absurd ⟨r.1, r.2, hpos, hfound, hge⟩ habove
      have hhigh := hfound.high
      have hinside := hr.2.2.2 _ _ (by omega) hfits (by omega) (by omega)
      rcases hfound.beside ha hpos (s := first) (by simp) with hle | hge <;> omega
  · intro hmeets
    cases r with
    | none => exact fun y k hk hf => hr y k hk (hdown hf)
    | some r =>
      refine ⟨hr.1.cons fun z hlo hhi' hin => ?_, hr.2.1,
        fun y k hk hf => hr.2.2.1 y k hk (hdown hf),
        fun y k hk hf => hr.2.2.2 y k hk (hdown hf)⟩
      have hlow := hr.1.low
      have hhigh := hr.1.high
      have hbelow : r.1 + r.2 ≤ m.sBase second := by
        rcases hr.1.beside ha' (by omega) (s := second) (by simp) with hle | hge <;> omega
      rcases hmeets hhi with ⟨y, k, hk, hf, hge⟩ | hacc | hzero | hbound | hbase
      · have hhighest := hr.2.2.1 y k hk (hdown hf)
        rw [if_pos hhi] at hhighest
        omega
      · have hyes : q.accepts q.base (min (m.sBase second) (q.base + q.len) - q.base) = true := by
          refine (accepts_iff (by omega) (by omega)).mpr ⟨?_, fun hc => ?_⟩
          · have hlong := hr.1.long
            omega
          · have hin := hr.1.contains hc
            omega
        rw [hacc] at hyes
        cases hyes
      · omega
      · omega
      · omega

theorem asGap_spec (hr : Rep m as l) (hbase : q.base < word) (hlen : q.len < word) :
    ∃ r, m.asGap as q = some r ∧ (Right m l q r ↔ Meets m l q) := by
  unfold Segs.asGap
  simp only
  by_cases hwrap : word ≤ q.base + q.len
  · have hsum : add32 q.base q.len = q.base + q.len - word := by
      unfold add32
      rw [Nat.mod_eq_sub_mod hwrap, Nat.mod_eq_of_lt (by omega)]
    rw [hsum, if_pos (by omega)]
    refine ⟨none, rfl, ?_⟩
    unfold Meets
    rw [if_pos hwrap]
    rfl
  have hsmall : q.base + q.len < word := by omega
  have hsum : add32 q.base q.len = q.base + q.len := Nat.mod_eq_of_lt hsmall
  rw [hsum, if_neg (by omega)]
  cases l with
  | nil =>
    have hnone : as.aSegs = none := hr.first
    rw [hnone]
    exact ⟨_, rfl, empty_right_iff hsmall⟩
  | cons first t =>
    have hfirst : as.aSegs = some first := hr.first
    have hlength := hr.length_le
    rw [hfirst]
    simp only
    cases hhi : q.ahHi with
    | false =>
      obtain ⟨r, hrun, hright⟩ := gapLo_spec (a := []) hr rfl hhi hsmall rfl (Or.inr rfl)
        nofun (fun y k _ hf => hf.low) hlength
      refine ⟨r, hrun, iff_of_true hright ?_⟩
      unfold Meets
      rw [if_neg hwrap]
      cases t with
      | nil => trivial
      | cons second t =>
        intro hyes
        rw [hhi] at hyes
        cases hyes
    | true =>
      have hback := hr.ring.prev_first
      cases t with
      | nil =>
        have hself : m.sPrev first = first := (Option.some.inj hback).symm
        rw [hself]
        have hone : ∀ {a : List Nat} {s : Nat} {b : List Nat}, [first] = a ++ s :: b →
            a = [] ∧ s = first ∧ b = [] := by
          intro a s b heq
          cases a with
          | nil =>
            injection heq with hs hb
            exact ⟨rfl, hs.symm, hb.symm⟩
          | cons z a =>
            have hlen := congrArg List.length heq
            simp at hlen
        obtain ⟨r, hrun, hright⟩ := gapHi_spec (p := [first]) (a := []) (b := []) hr.ascending
          (fun a s b heq => by
            obtain ⟨rfl, rfl, rfl⟩ := hone heq
            exact hself)
          (fun a z s b heq => by
            obtain ⟨_, _, hb⟩ := hone heq
            cases hb)
          hhi hsmall rfl (Or.inr rfl) nofun (fun y k _ hf => hf.high) hlength
        refine ⟨r, hrun, iff_of_true hright ?_⟩
        unfold Meets
        rw [if_neg hwrap]
        trivial
      | cons second t =>
        have hring : Closed m.sNext m.sPrev first (second :: t) := hr.ring
        have hnodup := hr.ring.nodup
        -- the walk begins with the last segment
        obtain ⟨a, hlast⟩ : ∃ a, second :: t = a ++ [m.sPrev first] := by
          rw [getLast?_cons_cons] at hback
          exact getLast?_eq_some_iff.mp hback
        have ha' : Ascending m (second :: t) :=
          ⟨fun s hs => hr.place s (mem_cons_of_mem _ hs), (pairwise_cons.mp hr.sorted).2⟩
        obtain ⟨r, hrun, hright⟩ := gapHi_spec (p := second :: t) (a := a) (b := [])
          (n := m.used.length) ha'
          (fun c s d heq => by
            rw [heq] at hring
            have hprev := IsRing.prev_eq (m := m) (h := first) (a := c) (s := s) (b := d) hring
            rw [getLast?_cons] at hprev
            exact (Option.some.inj hprev).symm)
          (fun c z s d heq => by
            rintro rfl
            rw [heq] at hnodup
            exact (nodup_cons.mp hnodup).1 (by simp))
          hhi hsmall hlast (Or.inr rfl) nofun (fun y k _ hf => hf.high)
          (by
            have hlen := congrArg List.length hlast
            simp at hlen hlength
            omega)
        exact ⟨r, hrun, leaveFirst_right_iff hr.ascending hsmall hhi hright⟩

end Answers

/-!
## Address spaces and their holes
-/

/-- In every reachable state each address space has a list of segments, which form a ring in
the order of their addresses, do not overlap, and add up to its size; and for every such
list `as_gap` gives an answer that is right exactly under its condition. -/
theorem spaces_listed_gap_right_iff {w : World} {i : Nat} {as : As}
    (hw : Transition.Reachable World.Start World.Step w) (has : w.spaces i = some as) :
    (∃ l, Sized w.segs as l) ∧ ∀ l q, Rep w.segs as l → q.base < word → q.len < word →
      ∃ r, w.segs.asGap as q = some r ∧ (Right w.segs l q r ↔ Meets w.segs l q) := by
  constructor
  · obtain ⟨L, hL⟩ := World.reachable_listed hw
    exact ⟨L i, hL.sized i as has⟩
  · intro l q hr hbase hlen
    exact asGap_spec hr hbase hlen

def twoSegments : Option World :=
  let p (new : Nat) : Segs.Map :=
    { new, create := ⟨false, false, false, false, false⟩, limit := 0x10000000, locks := true
      unmap := ⟨fun _ => false, 9⟩ }
  ((World.start.exec (.asAlloc 0)).bind fun w => w.exec (.map 0 0x1000 0x1000 (p 1))).bind
    fun w => w.exec (.map 0 0x5000 0x1000 (p 2))

/-- The highest hole of four pages below the end of the second segment is asked for. -/
def belowSecond : Request where
  minlen := 0x4000
  base := 0
  len := 0x6000
  ahHi := true
  ahContain := false
  addr := 0

theorem twoSegments_run : ∃ w as, Transition.Reachable World.Start World.Step w ∧
    w.spaces 0 = some as ∧ w.segs.asGap as belowSecond = some (some (0, 0x5000)) ∧
    as.aSegs = some 1 ∧ w.segs.sBase 1 = 0x1000 ∧ w.segs.sSize 1 = 0x1000 := by
  have hrun : ∃ w as, twoSegments = some w ∧ w.spaces 0 = some as ∧
      w.segs.asGap as belowSecond = some (some (0, 0x5000)) ∧ as.aSegs = some 1 ∧
      w.segs.sBase 1 = 0x1000 ∧ w.segs.sSize 1 = 0x1000 :=
    ⟨_, _, rfl, rfl, rfl, rfl, rfl, rfl⟩
  obtain ⟨w, as, htwo, hrest⟩ := hrun
  refine ⟨w, as, ?_, hrest⟩
  unfold twoSegments at htwo
  obtain ⟨w₂, hw₂, h₂⟩ := Option.bind_eq_some_iff.mp htwo
  obtain ⟨w₁, hw₁, h₁⟩ := Option.bind_eq_some_iff.mp hw₂
  have hstart : Transition.Reachable World.Start World.Step World.start :=
    Transition.Reachable.start rfl
  have hreach₁ : Transition.Reachable World.Start World.Step w₁ := hstart.next hw₁
  have hreach₂ : Transition.Reachable World.Start World.Step w₂ := hreach₁.next h₁
  exact hreach₂.next h₂

/-- The range from the bottom to the second segment is reported, though the first segment
lies in it. -/
theorem gap_overlaps_first_segment : ∃ w as,
    Transition.Reachable World.Start World.Step w ∧ w.spaces 0 = some as ∧
    w.segs.asGap as belowSecond = some (some (0, 0x5000)) ∧
    ∀ l, Rep w.segs as l → ¬ Right w.segs l belowSecond (some (0, 0x5000)) := by
  obtain ⟨w, as, hreach, has, hgap, hfirst, hbase, hsize⟩ := twoSegments_run
  refine ⟨w, as, hreach, has, hgap, ?_⟩
  intro l hr hright
  have hin : 1 ∈ l := by
    rw [hr.first] at hfirst
    exact mem_of_mem_head? hfirst
  refine hright.1.free 0x1000 (by decide) (by decide) 1 hin ?_
  rw [hbase, hsize]
  decide

theorem spaces_listed_gap_right_two : ∃ w as l r,
    Transition.Reachable World.Start World.Step w ∧ w.spaces 0 = some as ∧
    Sized w.segs as l ∧ w.segs.asGap as belowSecond = some r ∧
    (Right w.segs l belowSecond r ↔ Meets w.segs l belowSecond) := by
  obtain ⟨w, as, hreach, has, _⟩ := twoSegments_run
  obtain ⟨⟨l, hl⟩, hright⟩ := spaces_listed_gap_right_iff hreach has
  obtain ⟨r, hgap, hiff⟩ := hright l belowSecond hl.rep (by decide) (by decide)
  exact ⟨w, as, l, r, hreach, has, hl, hgap, hiff⟩

end Space
end Svr4
