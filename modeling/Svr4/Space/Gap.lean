import Svr4.Space.Runs

/-!
# Holes in an address space

`as_gap` looks for the lowest or the highest hole between the segments that is long
enough, within given bounds.  It walks along the ring in one direction and the other,
and looks at what remains of the bounds afterwards.
-/

namespace Svr4
namespace Space

open Rings List

/-!
## The search
-/

structure Request where
  minlen : Nat
  base : Nat
  len : Nat
  ahHi : Bool
  ahContain : Bool
  addr : Nat

namespace Request

/-- A part of a hole is long enough, and contains the address. -/
def accepts (q : Request) (base len : Nat) : Bool :=
  validVaRange base len q.minlen &&
    (!q.ahContain || decide (base ≤ q.addr ∧ add32 base len > q.addr))

/-- The part of a hole that lies within the bounds. -/
def clip (lobound hibound lo hi : Nat) : Nat × Nat :=
  (max lo lobound, sub32 (min hi hibound) (max lo lobound))

end Request

namespace Segs

/-- The part of a hole within the bounds, when it is accepted. -/
def gapTry (q : Request) (lobound hibound lo hi : Nat) : Option (Nat × Nat) :=
  let r := Request.clip lobound hibound lo hi
  if q.accepts r.1 r.2 then some r else none

/-- The search from `seg` on to higher addresses. -/
def gapLo (m : Segs) (q : Request) (sseg lobound hibound : Nat) :
    Nat → Nat → Nat → Option (Option (Nat × Nat))
  | 0, _, _ => none
  | fuel + 1, seg, lo =>
    let hi := m.sBase seg
    match if hi > lobound ∧ hi > lo then gapTry q lobound hibound lo hi else none with
    | some r => some (some r)
    | none =>
      let lo := m.sEnd seg
      if lo < hibound ∧ m.sNext seg ≠ sseg then
        gapLo m q sseg lobound hibound fuel (m.sNext seg) lo
      else
        let hi := if hi < lo then hibound else hi
        -- check against upper bound
        if lo < hibound then some (gapTry q lobound hibound lo hi) else some none

/-- The search from `seg` on to lower addresses. -/
def gapHi (m : Segs) (q : Request) (sseg lobound hibound : Nat) :
    Nat → Nat → Nat → Option (Option (Nat × Nat))
  | 0, _, _ => none
  | fuel + 1, seg, hi =>
    let lo := m.sEnd seg
    match if lo < hibound ∧ hi > lo then gapTry q lobound hibound lo hi else none with
    | some r => some (some r)
    | none =>
      let hi := m.sBase seg
      if hi > lobound ∧ m.sPrev seg ≠ sseg then
        gapHi m q sseg lobound hibound fuel (m.sPrev seg) hi
      else
        let lo := if lo > hi then lobound else lo
        -- check against lower bound
        if hi > lobound then some (gapTry q lobound hibound lo hi) else some none

/-- `as_gap`: the part of the hole within the bounds, if there is one. -/
def asGap (m : Segs) (as : As) (q : Request) : Option (Option (Nat × Nat)) :=
  let lobound := q.base
  let hibound := add32 lobound q.len
  if lobound > hibound then some none
  else
    match as.aSegs with
    | none => some (if validVaRange q.base q.len q.minlen then some (q.base, q.len) else none)
    | some sseg =>
      if q.ahHi then gapHi m q sseg lobound hibound m.used.length (m.sPrev sseg) hibound
      else gapLo m q sseg lobound hibound m.used.length sseg lobound

end Segs

/-!
## What the search is for
-/

/-- A range within the bounds that is long enough, overlaps no segment, and contains the
address. -/
structure Fits (m : Segs) (l : List Nat) (q : Request) (x n : Nat) : Prop where
  low : q.base ≤ x
  high : x + n ≤ q.base + q.len
  space : x + n ≤ word
  long : q.minlen ≤ n
  free : ∀ a, x ≤ a → a < x + n → ∀ s ∈ l, ¬ (m.sBase s ≤ a ∧ a < m.sBase s + m.sSize s)
  contains : q.ahContain = true → x ≤ q.addr ∧ q.addr < x + n

/-- The answer is the whole part within the bounds of the lowest, or the highest, hole that
fits; there is none only if nothing fits. -/
def Right (m : Segs) (l : List Nat) (q : Request) : Option (Nat × Nat) → Prop
  | some (x, n) => Fits m l q x n ∧ (0 < n ∨ q.len = 0) ∧
      (∀ y k, 0 < k → Fits m l q y k → if q.ahHi then y + k ≤ x + n else x ≤ y) ∧
      ∀ y k, 0 < k → Fits m l q y k → y < x + n → x < y + k → x ≤ y ∧ y + k ≤ x + n
  | none => ∀ y k, 0 < k → ¬ Fits m l q y k

/-- Segments at ascending places. -/
structure Ascending (m : Segs) (l : List Nat) : Prop where
  place : ∀ s ∈ l, 0 < m.sSize s ∧ m.sBase s + m.sSize s < KVBASE
  sorted : l.Pairwise fun s t => m.sBase s + m.sSize s ≤ m.sBase t

theorem Rep.ascending {m : Segs} {as : As} {l : List Nat} (hr : Rep m as l) : Ascending m l :=
  ⟨hr.place, hr.sorted⟩

section Fitting

variable {m : Segs} {l a b : List Nat} {q : Request} {x n : Nat}

theorem Fits.beside (hf : Fits m l q x n) (ha : Ascending m l) (hn : 0 < n) {s : Nat}
    (hs : s ∈ l) : x + n ≤ m.sBase s ∨ m.sBase s + m.sSize s ≤ x := by
  by_contra hnot
  have hpos := (ha.place s hs).1
  exact hf.free (max x (m.sBase s)) (by omega) (by omega) s hs ⟨by omega, by omega⟩

theorem Ascending.before (ha : Ascending m (a ++ b)) {s t : Nat} (hs : s ∈ a) (ht : t ∈ b) :
    m.sBase s + m.sSize s ≤ m.sBase t :=
  (pairwise_append.mp ha.sorted).2.2 s hs t ht

theorem accepts_iff {a b : Nat} (hle : a ≤ b) (hsmall : b < word) : q.accepts a (b - a) = true ↔
      q.minlen ≤ b - a ∧ (q.ahContain = true → a ≤ q.addr ∧ q.addr < b) := by
  have hsum : add32 a (b - a) = b := by
    unfold add32
    rw [Nat.add_sub_cancel' hle]
    exact Nat.mod_eq_of_lt hsmall
  have hvalid : validVaRange a (b - a) q.minlen = true ↔ q.minlen ≤ b - a := by
    unfold validVaRange
    simp only
    rw [decide_eq_true_eq, hsum, sub32_eq hle hsmall]
    omega
  unfold Request.accepts
  rw [Bool.and_eq_true, hvalid, Bool.or_eq_true, decide_eq_true_eq, hsum]
  cases q.ahContain <;> simp

variable {lo hi : Nat}

section

variable (hsmall : q.base + q.len < word) (hlt : lo ≤ q.base + q.len) (hgt : q.base ≤ hi)
  (hlohi : lo ≤ hi)
include hsmall hlt hgt hlohi

theorem gapTry_spec (r : Option (Nat × Nat))
    (hr : r = Segs.gapTry q q.base (q.base + q.len) lo hi) :
    (∀ x n, r = some (x, n) → x = max lo q.base ∧ x + n = min hi (q.base + q.len) ∧
      q.minlen ≤ n ∧ (q.ahContain = true → x ≤ q.addr ∧ q.addr < x + n)) ∧
    (r = none → ∀ y k, 0 < k → Fits m l q y k → lo ≤ y → ¬ y + k ≤ hi) := by
  have hlen : sub32 (min hi (q.base + q.len)) (max lo q.base) =
      min hi (q.base + q.len) - max lo q.base := sub32_eq (by omega) (by omega)
  have hend : max lo q.base + (min hi (q.base + q.len) - max lo q.base) =
      min hi (q.base + q.len) := by omega
  have haccept := accepts_iff (q := q) (a := max lo q.base) (b := min hi (q.base + q.len))
    (by omega) (by omega)
  unfold Segs.gapTry Request.clip at hr
  rw [hlen] at hr
  by_cases hacc : q.accepts (max lo q.base) (min hi (q.base + q.len) - max lo q.base) = true
  · rw [if_pos hacc] at hr
    refine ⟨?_, fun hnone => (by rw [hr] at hnone; cases hnone)⟩
    intro x n heq
    rw [hr] at heq
    cases heq
    have hacc := haccept.mp hacc
    refine ⟨rfl, hend, hacc.1, ?_⟩
    rw [hend]
    exact hacc.2
  · rw [if_neg hacc] at hr
    refine ⟨fun x n heq => (by rw [hr] at heq; cases heq), fun _ y k hk hf hlow hhigh => hacc ?_⟩
    have hlong := hf.long
    have hbase := hf.low
    have htop := hf.high
    refine haccept.mpr ⟨by omega, fun hc => ?_⟩
    have hin := hf.contains hc
    omega

theorem Right.of_try {x n : Nat}
    (hpos : max lo q.base < min hi (q.base + q.len) ∨ q.len = 0)
    (htry : Segs.gapTry q q.base (q.base + q.len) lo hi = some (x, n))
    (hout : ∀ s ∈ l, m.sBase s + m.sSize s ≤ lo ∨ hi ≤ m.sBase s)
    (hside : ∀ y k, 0 < k → Fits m l q y k → (lo ≤ y ∧ y + k ≤ hi) ∨
      (y + k ≤ lo ∧ q.ahHi = true) ∨ (hi ≤ y ∧ q.ahHi = false)) : Right m l q (some (x, n)) := by
  obtain ⟨hx, hxn, hlong, hcon⟩ :=
    (gapTry_spec (m := m) (l := l) hsmall hlt hgt hlohi _ rfl).1 x n htry
  refine ⟨⟨by omega, by omega, by omega, hlong, ?_, hcon⟩, by omega, ?_, ?_⟩
  · intro z hz hzn s hs hmem
    rcases hout s hs with hbel | hab <;> omega
  · intro y k hk hf
    have hlow := hf.low
    have hhigh := hf.high
    rcases hside y k hk hf with hin | ⟨hbel, hhi⟩ | ⟨hab, hlo⟩
    · split <;> omega
    · rw [if_pos hhi]
      omega
    · rw [hlo]
      change x ≤ y
      omega
  · intro y k hk hf hlt hgt
    have hlow := hf.low
    have hhigh := hf.high
    rcases hside y k hk hf with hin | ⟨hbel, _⟩ | ⟨hab, _⟩ <;> omega

end

end Fitting

/-!
## Upwards
-/

section Upwards

variable {m : Segs} {as : As} {l a b : List Nat} {q : Request}

theorem gapLo_spec {first fuel seg lo : Nat} (hr : Rep m as l) (hfirst : l.head? = some first)
    (hhi : q.ahHi = false) (hsmall : q.base + q.len < word) (hsplit : l = a ++ seg :: b)
    (hlo : lo < q.base + q.len ∨ lo = q.base) (hbelow : ∀ s ∈ a, m.sBase s + m.sSize s ≤ lo)
    (hrest : ∀ y k, 0 < k → Fits m l q y k → lo ≤ y) (hfuel : (seg :: b).length ≤ fuel) :
    ∃ r, m.gapLo q first q.base (q.base + q.len) fuel seg lo = some r ∧ Right m l q r := by
  induction fuel generalizing a b seg lo with
  | zero =>
    rw [length_cons] at hfuel
    omega
  | succ fuel ih =>
    have ha := hr.ascending
    have hin : seg ∈ l := by
      rw [hsplit]
      simp
    have hend := hr.sEnd_eq hin
    have hplace := hr.place seg hin
    have hasc : Ascending m (a ++ seg :: b) := hsplit ▸ ha
    have hbefore : ∀ s ∈ a, m.sBase s + m.sSize s ≤ m.sBase seg :=
      fun s hs => hasc.before hs mem_cons_self
    have hbehind : ∀ s ∈ b, m.sBase seg + m.sSize seg ≤ m.sBase s := by
      have hpair := (pairwise_append.mp hasc.sorted).2.1
      exact (pairwise_cons.mp hpair).1
    have hcases : ∀ s ∈ l, s ∈ a ∨ s = seg ∨ s ∈ b := by
      intro s hs
      rw [hsplit] at hs
      simpa using hs
    rw [Segs.gapLo]
    simp only [hend]
    split
    · -- found before this segment
      rename_i r htry
      split at htry
      · rename_i hcond
        refine ⟨some r, rfl, Right.of_try hsmall (by omega) (by omega) (by omega) (by omega)
          htry ?_ ?_⟩
        · intro s hs
          rcases hcases s hs with hs | rfl | hs
          · exact .inl (hbelow s hs)
          · exact .inr (Nat.le_refl _)
          · have hle := hbehind s hs
            right
            omega
        · intro y k hk hf
          have hy := hrest y k hk hf
          rcases hf.beside ha hk hin with hle | hge
          · exact .inl ⟨hy, hle⟩
          · exact .inr (.inr ⟨by omega, hhi⟩)
      · cases htry
    · rename_i hnone
      -- nothing fits before this segment
      have hrest' : ∀ y k, 0 < k → Fits m l q y k → m.sBase seg + m.sSize seg ≤ y := by
        intro y k hk hf
        rcases hf.beside ha hk hin with hle | hge
        · exfalso
          have hy := hrest y k hk hf
          have hlow := hf.low
          split at hnone
          · exact (gapTry_spec (m := m) (l := l) hsmall (by omega) (by omega) (by omega) _ rfl).2
              hnone y k hk hf hy hle
          · rename_i hcond
            exact hcond ⟨by omega, by omega⟩
        · exact hge
      have hnext : m.sNext seg = b.headD first := by
        refine IsRing.next_eq (a := a) (s := seg) ?_ ?_
        · rw [← hsplit]
          exact hr.ring
        · rw [← hsplit]
          exact hfirst
      split
      · -- on to the next one
        rename_i hagain
        cases b with
        | nil => exact absurd hnext hagain.2
        | cons t b =>
          have ht : m.sNext seg = t := hnext
          rw [ht]
          refine ih (a := a ++ [seg]) (b := b) ?_ (.inl hagain.1) ?_ hrest' ?_
          · rw [hsplit]
            simp
          · intro s hs
            rcases mem_append.mp hs with hs | hs
            · have hle := hbefore s hs
              omega
            · rw [mem_singleton.mp hs]
          · simpa using hfuel
      · rename_i hend'
        have hwrap : (if m.sBase seg < m.sBase seg + m.sSize seg then q.base + q.len
            else m.sBase seg) = q.base + q.len := if_pos (by omega)
        rw [hwrap]
        split
        · -- the upper end
          rename_i hlt
          have hnil : b = [] := by
            cases b with
            | nil => rfl
            | cons t b =>
              exfalso
              refine hend' ⟨hlt, ?_⟩
              rw [hnext]
              intro heq
              have heq : t = first := heq
              subst heq
              have hnodup := hr.ring.nodup
              rw [hsplit] at hnodup hfirst
              cases a with
              | nil =>
                cases hfirst
                exact (nodup_cons.mp hnodup).1 mem_cons_self
              | cons z a =>
                cases hfirst
                exact (nodup_cons.mp hnodup).1 (by simp)
          refine ⟨_, rfl, ?_⟩
          cases htry : Segs.gapTry q q.base (q.base + q.len) (m.sBase seg + m.sSize seg)
              (q.base + q.len) with
          | none =>
            intro y k hk hf
            have hhigh := hf.high
            exact (gapTry_spec (m := m) (l := l) hsmall (by omega) (by omega) (by omega) _
              rfl).2 htry y k hk hf (hrest' y k hk hf) hhigh
          | some r =>
            refine Right.of_try hsmall (by omega) (by omega) (by omega) (by omega) htry ?_ ?_
            · intro s hs
              rcases hcases s hs with hs | rfl | hs
              · have hle := hbefore s hs
                left
                omega
              · exact .inl (Nat.le_refl _)
              · rw [hnil] at hs
                cases hs
            · intro y k hk hf
              exact .inl ⟨hrest' y k hk hf, hf.high⟩
        · rename_i hge
          refine ⟨none, rfl, fun y k hk hf => ?_⟩
          have hhigh := hf.high
          have hy := hrest' y k hk hf
          omega

end Upwards

/-!
## Downwards
-/

section Downwards

variable {m : Segs} {p a b : List Nat} {q : Request}

theorem gapHi_spec {sseg n seg hi : Nat} (ha : Ascending m p)
    (hwalk : ∀ a s b, p = a ++ s :: b → m.sPrev s = a.getLast?.getD sseg)
    (hstop : ∀ a z s b, p = a ++ z :: s :: b → z ≠ sseg)
    (hhi : q.ahHi = true) (hsmall : q.base + q.len < word) (hsplit : p = a ++ seg :: b)
    (htop : q.base < hi ∨ hi = q.base + q.len) (habove : ∀ s ∈ b, hi ≤ m.sBase s)
    (hrest : ∀ y k, 0 < k → Fits m p q y k → y + k ≤ hi) (hfuel : a.length < n) :
    ∃ r, m.gapHi q sseg q.base (q.base + q.len) n seg hi = some r ∧ Right m p q r := by
  induction n generalizing a b seg hi with
  | zero => omega
  | succ n ih =>
    have hin : seg ∈ p := by
      rw [hsplit]
      simp
    have hplace := ha.place seg hin
    have hend := Space.sEnd_eq hplace.2
    have hasc : Ascending m (a ++ seg :: b) := hsplit ▸ ha
    have hbefore : ∀ s ∈ a, m.sBase s + m.sSize s ≤ m.sBase seg :=
      fun s hs => hasc.before hs mem_cons_self
    have hbehind : ∀ s ∈ b, m.sBase seg + m.sSize seg ≤ m.sBase s := by
      have hpair := (pairwise_append.mp hasc.sorted).2.1
      exact (pairwise_cons.mp hpair).1
    have hcases : ∀ s ∈ p, s ∈ a ∨ s = seg ∨ s ∈ b := by
      intro s hs
      rw [hsplit] at hs
      simpa using hs
    have hprev := hwalk a seg b hsplit
    rw [Segs.gapHi]
    simp only [hend]
    split
    · -- found behind this segment
      rename_i r htry
      split at htry
      · rename_i hcond
        refine ⟨some r, rfl, Right.of_try hsmall (by omega) (by omega) (by omega) (by omega)
          htry ?_ ?_⟩
        · intro s hs
          rcases hcases s hs with hs | rfl | hs
          · have hle := hbefore s hs
            left
            omega
          · exact .inl (Nat.le_refl _)
          · exact .inr (habove s hs)
        · intro y k hk hf
          have hy := hrest y k hk hf
          rcases hf.beside ha hk hin with hle | hge
          · exact .inr (.inl ⟨by omega, hhi⟩)
          · exact .inl ⟨hge, hy⟩
      · cases htry
    · rename_i hnone
      -- nothing fits behind this segment
      have hrest' : ∀ y k, 0 < k → Fits m p q y k → y + k ≤ m.sBase seg := by
        intro y k hk hf
        rcases hf.beside ha hk hin with hle | hge
        · exact hle
        · exfalso
          have hy := hrest y k hk hf
          have hhigh := hf.high
          split at hnone
          · exact (gapTry_spec (m := m) (l := p) hsmall (by omega) (by omega) (by omega) _ rfl).2
              hnone y k hk hf hge hy
          · rename_i hcond
            exact hcond ⟨by omega, by omega⟩
      split
      · -- on to the previous one
        rename_i hagain
        rcases eq_nil_or_concat a with hnil | ⟨a', z, hz⟩
        · rw [hnil] at hprev
          exact absurd hprev hagain.2
        · rw [concat_eq_append] at hz
          have hpz : m.sPrev seg = z := by
            rw [hprev, hz]
            simp
          rw [hpz]
          refine ih (a := a') (b := seg :: b) ?_ (.inl hagain.1) ?_ hrest' ?_
          · rw [hsplit, hz]
            simp
          · intro s hs
            rcases mem_cons.mp hs with rfl | hs
            · exact Nat.le_refl _
            · have hle := hbehind s hs
              omega
          · rw [hz, length_append, length_singleton] at hfuel
            omega
      · rename_i hend'
        have hwrap : (if m.sBase seg + m.sSize seg > m.sBase seg then q.base
            else m.sBase seg + m.sSize seg) = q.base := if_pos (by omega)
        rw [hwrap]
        split
        · -- the lower end
          rename_i hgt
          have hnil : a = [] := by
            rcases eq_nil_or_concat a with hnil | ⟨a', z, hz⟩
            · exact hnil
            · exfalso
              rw [concat_eq_append] at hz
              refine hend' ⟨hgt, ?_⟩
              rw [hprev, hz]
              have hlast : ((a' ++ [z]).getLast?).getD sseg = z := by simp
              rw [hlast]
              refine hstop a' z seg b ?_
              rw [hsplit, hz]
              simp
          refine ⟨_, rfl, ?_⟩
          cases htry : Segs.gapTry q q.base (q.base + q.len) q.base (m.sBase seg) with
          | none =>
            intro y k hk hf
            exact (gapTry_spec (m := m) (l := p) hsmall (by omega) (by omega) (by omega) _
              rfl).2 htry y k hk hf hf.low (hrest' y k hk hf)
          | some r =>
            refine Right.of_try hsmall (by omega) (by omega) (by omega) (by omega) htry ?_ ?_
            · intro s hs
              rcases hcases s hs with hs | rfl | hs
              · rw [hnil] at hs
                cases hs
              · exact .inr (Nat.le_refl _)
              · have hle := hbehind s hs
                right
                omega
            · intro y k hk hf
              exact .inl ⟨hf.low, hrest' y k hk hf⟩
        · rename_i hle
          refine ⟨none, rfl, fun y k hk hf => ?_⟩
          have hlow := hf.low
          have hy := hrest' y k hk hf
          omega

end Downwards

end Space
end Svr4
