import Mathlib.Algebra.Order.Ring.Int
import Mathlib.Tactic.Ring

/-!
# The search over the cylinder groups

`hashalloc` of `fs/ufs/ufs_alloc.c` asks an allocator for a block or an
inode: in the preferred cylinder group, then by a quadratic rehash, then in the
groups that are left.  The allocator is any function of a group that answers
with a number, 0 for a refusal, and changes the file system.  The arguments
`ip` and `size`, which `hashalloc` passes on, belong to it.
-/

namespace Svr4
namespace Ufs

open List

def toInt (x : Int) : Int := x.bmod 4294967296

variable {σ : Type*}

/-- An allocator, called for a cylinder group and a preferred block. -/
abbrev Allocator (σ : Type*) := Int → Int → σ → BitVec 32 × σ

/-!
## The routine
-/

/-- The group of the quadratic rehash behind `cg`. -/
def rehash (ncg i cg : Int) : Int :=
  let cg := toInt (cg + i)
  if ncg ≤ cg then toInt (cg - ncg) else cg

/-- The loop of the quadratic rehash; it may need more turns than there is fuel. -/
def rehashLoop (allocator : Allocator σ) (ncg : Int) :
    Nat → Int → Int → σ → Option (BitVec 32 × σ)
  | 0, i, _, s => if i < ncg then none else some (0, s)
  | fuel + 1, i, cg, s =>
    if i < ncg then
      let cg := rehash ncg i cg
      let r := allocator cg 0 s
      if r.1 ≠ 0 then some r
      else rehashLoop allocator ncg fuel (toInt (i * 2)) cg r.2
    else some (0, s)

/-- The group of the brute force search behind `cg`. -/
def after (ncg cg : Int) : Int :=
  let cg := toInt (cg + 1)
  if cg = ncg then 0 else cg

def bruteLoop (allocator : Allocator σ) (ncg : Int) :
    Nat → Int → Int → σ → Option (BitVec 32 × σ)
  | 0, i, _, s => if i < ncg then none else some (0, s)
  | fuel + 1, i, cg, s =>
    if i < ncg then
      let r := allocator cg 0 s
      if r.1 ≠ 0 then some r
      else bruteLoop allocator ncg fuel (toInt (i + 1)) (after ncg cg) r.2
    else some (0, s)

/-- The search of `hashalloc`, where `fuel` turns of a loop are enough. -/
def hashalloc (allocator : Allocator σ) (ncg : Int) (fuel : Nat) (cg pref : Int) (s : σ) :
    Option (BitVec 32 × σ) :=
  let r := allocator cg pref s
  if r.1 ≠ 0 then some r
  else do
    let r ← rehashLoop allocator ncg fuel 1 cg r.2
    if r.1 ≠ 0 then return r
    bruteLoop allocator ncg fuel 2 ((toInt (cg + 2)).tmod ncg) r.2

/-!
## Searches along a list
-/

/-- The allocator is called along a list, until it does not refuse. -/
def search (allocator : Allocator σ) : List (Int × Int) → σ → BitVec 32 × σ
  | [], s => (0, s)
  | p :: ps, s =>
    let r := allocator p.1 p.2 s
    if r.1 ≠ 0 then r else search allocator ps r.2

variable {allocator : Allocator σ}

theorem search_cons_accepted {p : Int × Int} (ps : List (Int × Int)) {s : σ}
    (hr : (allocator p.1 p.2 s).1 ≠ 0) : search allocator (p :: ps) s = allocator p.1 p.2 s :=
  if_pos hr

theorem search_cons_refused {p : Int × Int} (ps : List (Int × Int)) {s : σ}
    (hr : ¬ (allocator p.1 p.2 s).1 ≠ 0) :
    search allocator (p :: ps) s = search allocator ps (allocator p.1 p.2 s).2 :=
  if_neg hr

theorem search_append (allocator : Allocator σ) (ps qs : List (Int × Int)) (s : σ) :
    ((search allocator ps s).1 ≠ 0 → search allocator (ps ++ qs) s = search allocator ps s) ∧
    (¬ (search allocator ps s).1 ≠ 0 →
      search allocator (ps ++ qs) s = search allocator qs (search allocator ps s).2) := by
  induction ps generalizing s with
  | nil => exact ⟨fun h => absurd rfl h, fun _ => rfl⟩
  | cons p ps ih =>
    by_cases hr : (allocator p.1 p.2 s).1 ≠ 0
    · rw [cons_append, search_cons_accepted _ hr, search_cons_accepted _ hr]
      exact ⟨fun _ => rfl, fun h => absurd hr h⟩
    · rw [cons_append, search_cons_refused _ hr, search_cons_refused _ hr]
      exact ih _

def logged (allocator : Allocator σ) : Allocator (σ × List (Int × BitVec 32)) :=
  fun cg pref s =>
    let r := allocator cg pref s.1
    (r.1, r.2, s.2 ++ [(cg, r.1)])

structure FirstSuccess (log : List (Int × BitVec 32)) (r : BitVec 32) : Prop where
  refused : r = 0 → ∀ x ∈ log, x.2 = 0
  success : r ≠ 0 → ∃ before cg, log = before ++ [(cg, r)] ∧ ∀ x ∈ before, x.2 = 0

theorem search_logged (allocator : Allocator σ) (ps : List (Int × Int)) (s : σ)
    (log : List (Int × BitVec 32)) (hlog : ∀ x ∈ log, x.2 = 0) :
    let r := search (logged allocator) ps (s, log)
    FirstSuccess r.2.2 r.1 ∧ (r.1 = 0 → r.2.2 = log ++ ps.map fun p => (p.1, 0)) := by
  induction ps generalizing s log with
  | nil => exact ⟨⟨fun _ => hlog, fun h => absurd rfl h⟩, fun _ => by simp [search]⟩
  | cons p ps ih =>
    simp only [search]
    by_cases hr : ((logged allocator) p.1 p.2 (s, log)).1 ≠ 0
    · simp only [if_pos hr]
      exact ⟨⟨fun hzero => absurd hzero hr, fun _ => ⟨log, p.1, rfl, hlog⟩⟩,
        fun hzero => absurd hzero hr⟩
    · simp only [if_neg hr]
      have hzero : (allocator p.1 p.2 s).1 = 0 := not_not.mp hr
      have hlog' : ∀ x ∈ log ++ [(p.1, (allocator p.1 p.2 s).1)], x.2 = 0 := by
        intro x hx
        rcases mem_append.mp hx with hx | hx
        · exact hlog x hx
        · rw [mem_singleton.mp hx]
          exact hzero
      obtain ⟨hfirst, hall⟩ := ih (allocator p.1 p.2 s).2 _ hlog'
      refine ⟨hfirst, fun h => (hall h).trans ?_⟩
      rw [hzero, append_assoc]
      rfl

/-!
## The groups of the two loops
-/

def rehashes (ncg : Int) : Nat → Int → Int → List (Int × Int)
  | 0, _, _ => []
  | n + 1, i, cg =>
    (rehash ncg i cg, 0) :: rehashes ncg n (toInt (i * 2)) (rehash ncg i cg)

def scanned (ncg : Int) : Nat → Int → List (Int × Int)
  | 0, _ => []
  | n + 1, cg => (cg, 0) :: scanned ncg n (after ncg cg)

theorem toInt_self {x : Int} (hlo : -2147483648 ≤ x) (hhi : x < 2147483648) : toInt x = x := by
  unfold toInt
  rw [Int.bmod_eq_of_le] <;> omega

variable {i : Int} {fuel n : Nat}

section Turns

variable {allocator : Allocator σ} {ncg : Int}

theorem rehashLoop_done (hi : ncg ≤ i) (fuel : Nat) (cg : Int) (s : σ) :
    rehashLoop allocator ncg fuel i cg s = some (0, s) := by
  cases fuel with
  | zero => exact if_neg (by omega)
  | succ fuel => exact if_neg (by omega)

theorem bruteLoop_done (hi : ncg ≤ i) (fuel : Nat) (cg : Int) (s : σ) :
    bruteLoop allocator ncg fuel i cg s = some (0, s) := by
  cases fuel with
  | zero => exact if_neg (by omega)
  | succ fuel => exact if_neg (by omega)

theorem rehashLoop_turn (hi : i < ncg) {cg : Int} {s : σ}
    (hrest : ∀ t, rehashLoop allocator ncg fuel (toInt (i * 2)) (rehash ncg i cg) t =
      some (search allocator (rehashes ncg n (toInt (i * 2)) (rehash ncg i cg)) t)) :
    rehashLoop allocator ncg (fuel + 1) i cg s =
      some (search allocator (rehashes ncg (n + 1) i cg) s) := by
  unfold rehashLoop rehashes
  rw [if_pos hi]
  by_cases hr : (allocator (rehash ncg i cg) 0 s).1 ≠ 0
  · rw [search_cons_accepted _ hr]
    exact if_pos hr
  · rw [search_cons_refused _ hr, ← hrest]
    exact if_neg hr

theorem bruteLoop_eq (n : Nat) (hlo : 0 ≤ i) (hncg : ncg < 2147483648) (hn : ncg = i + n)
    (hfuel : n ≤ fuel) (cg : Int) (s : σ) :
    bruteLoop allocator ncg fuel i cg s = some (search allocator (scanned ncg n cg) s) := by
  induction n generalizing i fuel cg s with
  | zero => exact bruteLoop_done (by omega) fuel cg s
  | succ n ih =>
    obtain ⟨fuel, rfl⟩ : ∃ m, fuel = m + 1 := ⟨fuel - 1, by omega⟩
    have hnext : toInt (i + 1) = i + 1 := toInt_self (by omega) (by omega)
    unfold bruteLoop scanned
    rw [if_pos (by omega), hnext]
    by_cases hr : (allocator cg 0 s).1 ≠ 0
    · rw [search_cons_accepted _ hr]
      exact if_pos hr
    · rw [search_cons_refused _ hr]
      exact (if_neg hr).trans (ih (by omega) (by omega) (by omega) _ _)

end Turns

theorem search_logged_fst (allocator : Allocator σ) (ps : List (Int × Int)) (s : σ)
    (log : List (Int × BitVec 32)) :
    (search (logged allocator) ps (s, log)).1 = (search allocator ps s).1 := by
  induction ps generalizing s log with
  | nil => rfl
  | cons p ps ih =>
    by_cases hr : (allocator p.1 p.2 s).1 ≠ 0
    · have hlog : (logged allocator p.1 p.2 (s, log)).1 ≠ 0 := hr
      rw [search_cons_accepted _ hr, search_cons_accepted _ hlog]
      rfl
    · have hlog : ¬ (logged allocator p.1 p.2 (s, log)).1 ≠ 0 := hr
      rw [search_cons_refused _ hr, search_cons_refused _ hlog]
      exact ih _ _

/-!
## Up to 2^30 groups
-/

section Few

variable {ncg cg : Int}

section

variable (hncg : ncg ≤ 1073741824)
include hncg

theorem rehash_eq (hlo : 0 ≤ cg) (hhi : cg < ncg) (hi : 0 ≤ i)
    (hin : i < ncg) : rehash ncg i cg = (cg + i) % ncg := by
  unfold rehash
  rw [toInt_self (by omega) (by omega)]
  by_cases hwrap : ncg ≤ cg + i
  · rw [if_pos hwrap, toInt_self (by omega) (by omega), ← Int.sub_emod_right,
      Int.emod_eq_of_lt (by omega) (by omega)]
  · rw [if_neg hwrap, Int.emod_eq_of_lt (by omega) (by omega)]

theorem after_eq (hpos : 0 < ncg) (x : Int) :
    after ncg (x % ncg) = (x + 1) % ncg := by
  have hlo := Int.emod_nonneg x (Int.ne_of_gt hpos)
  have hhi := Int.emod_lt_of_pos x hpos
  unfold after
  have hstep : (x + 1) % ncg = (x % ncg + 1) % ncg := (Int.emod_add_emod x ncg 1).symm
  rw [toInt_self (by omega) (by omega), hstep]
  by_cases hlast : x % ncg + 1 = ncg
  · rw [if_pos hlast, hlast, Int.emod_self]
  · rw [if_neg hlast]
    exact (Int.emod_eq_of_lt (by omega) (by omega)).symm

theorem rehashLoop_eq (k a : Nat) (hk : a + k = 30) (cg : Int) :
    ∃ n, ((2 : Int) ^ a < ncg → 0 < n) ∧
      ∀ (σ : Type _) (allocator : Allocator σ) (fuel : Nat) (s : σ), k ≤ fuel →
        rehashLoop allocator ncg fuel (2 ^ a) cg s =
          some (search allocator (rehashes ncg n (2 ^ a) cg) s) := by
  induction k generalizing a cg with
  | zero =>
    obtain rfl : a = 30 := by omega
    exact ⟨0, fun h => absurd h (by omega), fun _ _ fuel s _ =>
      rehashLoop_done hncg fuel cg s⟩
  | succ k ih =>
    by_cases hin : (2 : Int) ^ a < ncg
    · have hdouble : toInt ((2 : Int) ^ a * 2) = 2 ^ (a + 1) := by
        have hpos : (0 : Int) < 2 ^ a := Int.pow_pos (by decide)
        exact toInt_self (by omega) (by omega)
      obtain ⟨n, _, hrun⟩ := ih (a + 1) (by omega) (rehash ncg (2 ^ a) cg)
      refine ⟨n + 1, fun _ => Nat.succ_pos n, fun σ allocator fuel s hfuel => ?_⟩
      obtain ⟨fuel, rfl⟩ : ∃ m, fuel = m + 1 := ⟨fuel - 1, by omega⟩
      refine rehashLoop_turn hin fun t => ?_
      rw [hdouble]
      exact hrun σ allocator fuel t (by omega)
    · exact ⟨0, fun h => absurd h hin, fun _ _ fuel s _ =>
        rehashLoop_done (by omega) fuel cg s⟩

theorem mem_scanned (hpos : 0 < ncg) (n : Nat) (x : Int) {j : Nat}
    (hj : j < n) : ((x + j) % ncg, (0 : Int)) ∈ scanned ncg n (x % ncg) := by
  induction n generalizing x j with
  | zero => exact absurd hj (Nat.not_lt_zero j)
  | succ n ih =>
    unfold scanned
    cases j with
    | zero => simp
    | succ j =>
      rw [after_eq hncg hpos]
      have hin := ih (x + 1) (Nat.lt_of_succ_lt_succ hj)
      rw [Int.add_assoc, Int.add_comm 1 (j : Int)] at hin
      exact mem_cons_of_mem _ hin

end

/-- The groups that `hashalloc` asks, as long as all refuse. -/
def asked (ncg cg pref : Int) (n : Nat) : List (Int × Int) :=
  (cg, pref) :: (rehashes ncg n 1 cg ++ scanned ncg (ncg - 2).toNat ((toInt (cg + 2)).tmod ncg))

theorem mem_asked (hncg : ncg ≤ 1073741824) (hlo : 0 ≤ cg) (hhi : cg < ncg) (pref : Int)
    (hn : 1 < ncg → 0 < n) {g : Int} (hg : 0 ≤ g) (hgn : g < ncg) :
    g ∈ (asked ncg cg pref n).map Prod.fst := by
  have hpos : 0 < ncg := by omega
  have hmod : g = (cg + (g - cg) % ncg) % ncg := by
    have hback : cg + (g - cg) = g := by omega
    rw [Int.add_emod_emod, hback, Int.emod_eq_of_lt hg hgn]
  have hjlo := Int.emod_nonneg (g - cg) (Int.ne_of_gt hpos)
  have hjhi := Int.emod_lt_of_pos (g - cg) hpos
  generalize (g - cg) % ncg = j at hmod hjlo hjhi
  unfold asked
  rw [map_cons, map_append]
  by_cases hzero : j = 0
  · rw [hzero, Int.add_zero, Int.emod_eq_of_lt hlo hhi] at hmod
    rw [hmod]
    exact mem_cons_self
  refine mem_cons_of_mem _ (mem_append.mpr ?_)
  by_cases hone : j = 1
  · obtain ⟨m, rfl⟩ : ∃ m, n = m + 1 := ⟨n - 1, by have := hn (by omega); omega⟩
    refine .inl (mem_map.mpr ⟨_, mem_cons_self, ?_⟩)
    rw [hmod, hone]
    exact rehash_eq hncg hlo hhi (by decide) (by omega)
  · have hstart : (toInt (cg + 2)).tmod ncg = (cg + 2) % ncg := by
      rw [toInt_self (by omega) (by omega), Int.tmod_eq_emod_of_nonneg (by omega)]
    have hin := mem_scanned hncg hpos (ncg - 2).toNat (cg + 2) (j := (j - 2).toNat) (by omega)
    have hplace : cg + 2 + ((j - 2).toNat : Int) = cg + j := by omega
    rw [hplace, ← hmod] at hin
    rw [hstart]
    exact .inr (mem_map.mpr ⟨_, hin, rfl⟩)

theorem hashalloc_eq (hncg : ncg ≤ 1073741824) (cg pref : Int) :
    ∃ n, (1 < ncg → 0 < n) ∧ ∀ (σ : Type _) (allocator : Allocator σ) (s : σ),
        hashalloc allocator ncg (ncg.toNat + 30) cg pref s =
          some (search allocator (asked ncg cg pref n) s) := by
  obtain ⟨n, hn, hrun⟩ := rehashLoop_eq hncg 30 0 rfl cg
  refine ⟨n, hn, fun σ allocator s => ?_⟩
  unfold hashalloc asked
  by_cases hr : (allocator cg pref s).1 ≠ 0
  · rw [if_pos hr, search_cons_accepted _ hr]
  rw [if_neg hr, search_cons_refused _ hr]
  have hrehash := hrun σ allocator (ncg.toNat + 30) (allocator cg pref s).2 (by omega)
  rw [Int.pow_zero] at hrehash
  rw [hrehash, Option.bind_eq_bind, Option.bind_some]
  generalize (allocator cg pref s).2 = t
  obtain ⟨haccept, hrefuse⟩ := search_append allocator (rehashes ncg n 1 cg)
    (scanned ncg (ncg - 2).toNat ((toInt (cg + 2)).tmod ncg)) t
  by_cases hr : (search allocator (rehashes ncg n 1 cg) t).1 ≠ 0
  · rw [haccept hr]
    exact if_pos hr
  · rw [hrefuse hr]
    refine (if_neg hr).trans ?_
    by_cases hmore : 2 ≤ ncg
    · exact bruteLoop_eq _ (by decide) (by omega) (by omega) (by omega) _ _
    · have hnone : (ncg - 2).toNat = 0 := by omega
      rw [hnone]
      exact bruteLoop_done (by omega) _ _ _

end Few

/-!
## More groups
-/

section Many

variable {allocator : Allocator σ} {ncg cg : Int}

/-- The step of the rehash in a turn: it doubles, is negative once and then 0. -/
def Low (i : Int) : Prop := (∃ a ≤ 30, i = 2 ^ a) ∨ i = -2147483648 ∨ i = 0

theorem Low.le (h : Low i) : i ≤ 1073741824 := by
  rcases h with ⟨a, ha, rfl⟩ | rfl | rfl
  · calc (2 : Int) ^ a ≤ 2 ^ 30 := pow_le_pow_right₀ (by decide) ha
      _ = 1073741824 := by decide
  · decide
  · decide

theorem Low.double (h : Low i) : Low (toInt (i * 2)) := by
  rcases h with ⟨a, ha, rfl⟩ | rfl | rfl
  · by_cases hlast : a = 30
    · subst hlast
      exact .inr (.inl (by decide))
    · refine .inl ⟨a + 1, by omega, ?_⟩
      have hpos : (0 : Int) < 2 ^ a := Int.pow_pos (by decide)
      have hle : (2 : Int) ^ a ≤ 2 ^ 29 := pow_le_pow_right₀ (by decide) (by omega)
      rw [toInt_self (by omega) (by omega), Int.pow_succ]
  · exact .inr (.inr (by decide))
  · exact .inr (.inr (by decide))

theorem rehashLoop_endless (hncg : 1073741824 < ncg) (fuel : Nat) (hi : Low i) (cg : Int) (s : σ) :
    ((search allocator (rehashes ncg fuel i cg) s).1 ≠ 0 → rehashLoop allocator ncg fuel i cg s =
        some (search allocator (rehashes ncg fuel i cg) s)) ∧
    (¬ (search allocator (rehashes ncg fuel i cg) s).1 ≠ 0 →
      rehashLoop allocator ncg fuel i cg s = none) := by
  have hin : i < ncg := Int.lt_of_le_of_lt hi.le hncg
  induction fuel generalizing i cg s with
  | zero => exact ⟨fun h => absurd rfl h, fun _ => if_pos hin⟩
  | succ fuel ih =>
    have hdouble := hi.double
    unfold rehashLoop rehashes
    rw [if_pos hin]
    by_cases hr : (allocator (rehash ncg i cg) 0 s).1 ≠ 0
    · rw [search_cons_accepted _ hr]
      exact ⟨fun _ => if_pos hr, fun h => absurd hr h⟩
    · rw [search_cons_refused _ hr]
      obtain ⟨haccept, hrefuse⟩ := ih hdouble (rehash ncg i cg)
        (allocator (rehash ncg i cg) 0 s).2 (Int.lt_of_le_of_lt hdouble.le hncg)
      exact ⟨fun h => (if_neg hr).trans (haccept h), fun h => (if_neg hr).trans (hrefuse h)⟩

/-- The groups that `hashalloc` asks in `n` turns of the quadratic rehash. -/
def askedFirst (ncg cg pref : Int) (n : Nat) : List (Int × Int) :=
  (cg, pref) :: rehashes ncg n 1 cg

theorem hashalloc_endless (hncg : 1073741824 < ncg) (fuel : Nat) (cg pref : Int) (s : σ) :
    ((search allocator (askedFirst ncg cg pref fuel) s).1 ≠ 0 →
      hashalloc allocator ncg fuel cg pref s =
        some (search allocator (askedFirst ncg cg pref fuel) s)) ∧
    (¬ (search allocator (askedFirst ncg cg pref fuel) s).1 ≠ 0 →
      hashalloc allocator ncg fuel cg pref s = none) := by
  unfold hashalloc askedFirst
  by_cases hr : (allocator cg pref s).1 ≠ 0
  · rw [if_pos hr, search_cons_accepted _ hr]
    exact ⟨fun _ => rfl, fun h => absurd hr h⟩
  rw [if_neg hr, search_cons_refused _ hr]
  generalize (allocator cg pref s).2 = t
  have hone : Low 1 := .inl ⟨0, by decide, rfl⟩
  obtain ⟨haccept, hrefuse⟩ : _ ∧ _ :=
    rehashLoop_endless hncg fuel hone cg t
  refine ⟨fun h => ?_, fun h => ?_⟩
  · rw [haccept h]
    exact if_pos h
  · rw [hrefuse h]
    rfl

end Many

/-!
## Completeness
-/

/--
`hashalloc` returns; it returns 0 only if every group has refused, and else the
first success among the groups in the order it asks them.
-/
def Complete (allocator : Allocator σ) (ncg cg pref : Int) (s : σ) : Prop :=
  ∃ fuel r t log, hashalloc (logged allocator) ncg fuel cg pref (s, []) = some (r, t, log) ∧
    FirstSuccess log r ∧ (r = 0 → ∀ g, 0 ≤ g → g < ncg → (g, 0) ∈ log)

variable {allocator : Allocator σ} {ncg cg pref : Int} {s : σ}

theorem complete_of_few (hncg : ncg ≤ 1073741824) (hlo : 0 ≤ cg) (hhi : cg < ncg) :
    Complete allocator ncg cg pref s := by
  obtain ⟨n, hn, hrun⟩ := hashalloc_eq hncg cg pref
  obtain ⟨hfirst, hall⟩ := search_logged allocator (asked ncg cg pref n) s [] nofun
  have hrun := hrun _ (logged allocator) (s, [])
  rcases hsearch : search (logged allocator) (asked ncg cg pref n) (s, []) with ⟨r, t, log⟩
  rw [hsearch] at hfirst hall hrun
  refine ⟨_, r, t, log, hrun, hfirst, fun hzero g hg hgn => ?_⟩
  have hlog : log = _ := hall hzero
  rw [hlog, nil_append]
  obtain ⟨p, hp, rfl⟩ := mem_map.mp (mem_asked hncg hlo hhi pref hn hg hgn)
  exact mem_map.mpr ⟨p, hp, rfl⟩

theorem complete_many_iff (hncg : 1073741824 < ncg) : Complete allocator ncg cg pref s ↔
      ∃ n, (search allocator (askedFirst ncg cg pref n) s).1 ≠ 0 := by
  constructor
  · rintro ⟨fuel, r, t, log, hrun, _⟩
    refine ⟨fuel, fun hrefuse => ?_⟩
    have hzero : ¬ (search (logged allocator) (askedFirst ncg cg pref fuel) (s, [])).1 ≠ 0 := by
      rw [search_logged_fst]
      exact not_not.mpr hrefuse
    rw [(hashalloc_endless hncg fuel cg pref (s, [])).2 hzero] at hrun
    cases hrun
  · rintro ⟨n, haccept⟩
    have hne : (search (logged allocator) (askedFirst ncg cg pref n) (s, [])).1 ≠ 0 := by
      rw [search_logged_fst]
      exact haccept
    have hrun := (hashalloc_endless hncg n cg pref (s, [])).1 hne
    obtain ⟨hfirst, _⟩ := search_logged allocator (askedFirst ncg cg pref n) s [] nofun
    exact ⟨n, _, _, _, hrun, hfirst, fun hzero => absurd hzero hne⟩

/-- The search is complete exactly for up to 2^30 groups, or where the rehash finds
something. -/
theorem hashalloc_complete_iff (hlo : 0 ≤ cg) (hhi : cg < ncg) : Complete allocator ncg cg pref s ↔
      ncg ≤ 1073741824 ∨ ∃ n, (search allocator (askedFirst ncg cg pref n) s).1 ≠ 0 := by
  by_cases hncg : ncg ≤ 1073741824
  · exact iff_of_true (complete_of_few hncg hlo hhi) (.inl hncg)
  · rw [complete_many_iff (by omega)]
    exact ⟨.inr, fun h => h.resolve_left hncg⟩

def full : Allocator Unit := fun _ _ s => (0, s)

theorem search_full (ps : List (Int × Int)) : (search full ps ()).1 = 0 := by
  induction ps with
  | nil => rfl
  | cons p ps ih => exact ih

theorem hashalloc_complete_three : Complete full 3 2 7 () :=
  (hashalloc_complete_iff (by decide) (by decide)).mpr (.inl (by decide))

/-- The step of the rehash overflows before it reaches the number of groups. -/
theorem hashalloc_not_complete : ¬ ∀ (ncg cg pref : Int) (allocator : Allocator Unit),
    ncg < 2147483648 → 0 ≤ cg → cg < ncg → Complete allocator ncg cg pref () := by
  intro hclaim
  have hcomplete := hclaim 1073741825 0 0 full (by decide) (by decide) (by decide)
  obtain ⟨n, hn⟩ := (complete_many_iff (by decide)).mp hcomplete
  exact hn (search_full _)

end Ufs
end Svr4
