import Mathlib.Algebra.BigOperators.Group.Finset.Basic
import Svr4.Dnlc.Lists

/-!
# The entries of the name cache

What ties the entries to the lists, to the holds and to what has been entered;
and that removing an entry, taking one for a new name and moving one keep it.
-/

namespace Svr4
namespace Dnlc

open Function Rings List Option

def refs (v : Nat) (e : Ncache) : Int :=
  (if e.dp = some v then 1 else 0) + (if e.vp = some v then 1 else 0)

def crRefs (c : Nat) (e : Ncache) : Int := if e.cred = some c then 1 else 0

/-- What has happened concerns the vnode that was entered for a key. -/
def Covers (dp : Nat) (name : List Nat) (cred : Option Nat) (vp : Nat) : Log → Prop
  | .entered dp' name' cred' _ => dp' = dp ∧ name' = name ∧ cred' = cred
  | .removed dp' name' => dp' = dp ∧ name' = name
  | .purged => True
  | .purgedVp v => dp = v ∨ vp = v
  | .purgedVfsp vVfsp vfsp => vVfsp dp = vfsp ∨ vVfsp vp = vfsp
  | .purgedEntry dp' name' cred' => dp' = dp ∧ name' = name ∧ cred' = cred

/-- The vnode was the last one entered for the key, and nothing later covers it. -/
def Entered (log : List Log) (dp : Nat) (name : List Nat) (cred : Option Nat)
    (vp : Nat) : Prop :=
  ∃ after before, log = after ++ .entered dp name cred vp :: before ∧
    ∀ x ∈ after, ¬ Covers dp name cred vp x

/-- The entry is for a name in a directory on the chain `h`. -/
def OnChain (e : Ncache) (h : Nat) : Prop :=
  ∃ dp name, e.dp = some dp ∧ e.name = Name.chars name ∧ ncHash name dp = h

structure Sound (s : Cache) (L : List Nat) (B : Nat → List Nat) : Prop where
  lists : Lists s L B
  all : ∀ i, i ∈ L ↔ i < s.ncsize
  mem : ∀ h < ncHashSize, ∀ i, i ∈ B h ↔ i < s.ncsize ∧ OnChain (s.ncache i) h
  shape : ∀ i < s.ncsize,
    ((s.ncache i).dp = none ∧ (s.ncache i).vp = none ∧ (s.ncache i).cred = none) ∨
    ∃ dp vp name, (s.ncache i).dp = some dp ∧ (s.ncache i).vp = some vp ∧
      (s.ncache i).name = Name.chars name
  keys : ∀ i < s.ncsize, ∀ j < s.ncsize, (s.ncache i).dp ≠ none →
    (s.ncache i).dp = (s.ncache j).dp → (s.ncache i).name = (s.ncache j).name →
    (s.ncache i).cred = (s.ncache j).cred → i = j
  vHolds : ∀ v, s.vHolds v = (Finset.range s.ncsize).sum fun i => refs v (s.ncache i)
  crHolds : ∀ c, s.crHolds c = (Finset.range s.ncsize).sum fun i => crRefs c (s.ncache i)
  entered : ∀ i < s.ncsize, ∀ dp vp, (s.ncache i).dp = some dp → (s.ncache i).vp = some vp →
    Entered s.log dp (s.ncache i).name (s.ncache i).cred vp

variable {s t : Cache} {L a b : List Nat} {B : Nat → List Nat} {i j h : Nat}

theorem ncHash_lt (name : Name) (dp : Nat) : ncHash name dp < ncHashSize :=
  Nat.mod_lt _ (by decide)

theorem Name.ext_chars {name name' : Name} (h : name.chars = name'.chars) : name = name' := by
  cases name
  cases name'
  cases h
  rfl

/-!
## Sums over the entries
-/

variable {n dp vp : Nat}

theorem sum_update (f : Ncache → Int) (g : Nat → Ncache) (hi : i < n) (e : Ncache) :
    ((Finset.range n).sum fun k => f (update g i e k)) =
      ((Finset.range n).sum fun k => f (g k)) - f (g i) + f e := by
  have hmem := Finset.mem_range.mpr hi
  have hnew := Finset.add_sum_erase (Finset.range n) (fun k => f (update g i e k)) hmem
  have hold := Finset.add_sum_erase (Finset.range n) (fun k => f (g k)) hmem
  have hrest : ((Finset.range n).erase i).sum (fun k => f (update g i e k)) =
      ((Finset.range n).erase i).sum fun k => f (g k) := by
    refine Finset.sum_congr rfl fun k hk => ?_
    rw [update_of_ne (Finset.ne_of_mem_erase hk)]
  rw [update_self] at hnew
  omega

theorem hold_apply (holds : Nat → Int) (x : Option Nat) (v : Nat) :
    Cache.hold holds x v = holds v + if x = some v then 1 else 0 := by
  cases x with
  | none => simp [Cache.hold]
  | some w =>
    change update holds w (holds w + 1) v = _
    by_cases hv : v = w
    · rw [hv, update_self, if_pos rfl]
    · rw [update_of_ne hv, if_neg fun h => hv (some.inj h).symm]
      simp

theorem rele_apply (holds : Nat → Int) (x : Option Nat) (v : Nat) :
    Cache.rele holds x v = holds v - if x = some v then 1 else 0 := by
  cases x with
  | none => simp [Cache.rele]
  | some w =>
    change update holds w (holds w - 1) v = _
    by_cases hv : v = w
    · rw [hv, update_self, if_pos rfl]
    · rw [update_of_ne hv, if_neg fun h => hv (some.inj h).symm]
      simp

/-!
## What is logged
-/

variable {cred : Option Nat}

theorem Entered.cons {log : List Log} {name : List Nat} {x : Log} (h : Entered log dp name cred vp)
    (hx : ¬ Covers dp name cred vp x) : Entered (x :: log) dp name cred vp := by
  rcases h with ⟨after, before, rfl, hafter⟩
  refine ⟨x :: after, before, rfl, fun y hy => ?_⟩
  rcases mem_cons.mp hy with rfl | hy
  · exact hx
  · exact hafter y hy

theorem entered_first {log : List Log} {name : List Nat} :
    Entered (.entered dp name cred vp :: log) dp name cred vp :=
  ⟨[], log, rfl, nofun⟩

theorem Sound.logged (hs : Sound s L B) {x : Log}
    (hx : ∀ i < s.ncsize, ∀ dp vp, (s.ncache i).dp = some dp → (s.ncache i).vp = some vp →
      ¬ Covers dp (s.ncache i).name (s.ncache i).cred vp x) :
    Sound { s with log := x :: s.log } L B where
  lists := ⟨hs.lists.lru, hs.lists.hash⟩
  all := hs.all
  mem := hs.mem
  shape := hs.shape
  keys := hs.keys
  vHolds := hs.vHolds
  crHolds := hs.crHolds
  entered i hi dp vp hdp hvp := (hs.entered i hi dp vp hdp hvp).cons (hx i hi dp vp hdp hvp)

/-!
## Removing an entry
-/

theorem Sound.lt (hs : Sound s (a ++ i :: b) B) : i < s.ncsize :=
  (hs.all i).mp (by simp)

theorem rm_ncache : (s.dnlcRm i).ncache = update s.ncache i (Cache.clear (s.ncache i)) :=
  rfl

theorem rm_vHolds : (s.dnlcRm i).vHolds =
    Cache.rele (Cache.rele s.vHolds (s.ncache i).dp) (s.ncache i).vp :=
  rfl

theorem rm_crHolds : (s.dnlcRm i).crHolds = Cache.rele s.crHolds (s.ncache i).cred :=
  rfl

theorem rm_ncsize : (s.dnlcRm i).ncsize = s.ncsize := rfl

theorem rm_log : (s.dnlcRm i).log = s.log := rfl

theorem Sound.rm (hs : Sound s (a ++ i :: b) B) :
    Sound (s.dnlcRm i) (i :: (a ++ b)) fun h => (B h).erase i := by
  have hi := hs.lt
  have hself : (s.dnlcRm i).ncache i = Cache.clear (s.ncache i) := by
    rw [rm_ncache, update_self]
  have hother : ∀ j, j ≠ i → (s.dnlcRm i).ncache j = s.ncache j :=
    fun j hj => update_of_ne hj _ _
  refine ⟨hs.lists.dnlcRm, ?_, ?_, ?_, ?_, ?_, ?_, ?_⟩
  · intro j
    rw [← perm_middle.mem_iff]
    exact hs.all j
  · intro h hh j
    rw [(hs.lists.chain_nodup hh).mem_erase_iff, hs.mem h hh]
    by_cases hj : j = i
    · rw [hj]
      refine ⟨fun hmem => absurd rfl hmem.1, ?_⟩
      rintro ⟨_, dp, name, hdp, _⟩
      rw [hself] at hdp
      cases hdp
    · rw [hother j hj]
      exact ⟨fun hmem => hmem.2, fun hmem => ⟨hj, hmem⟩⟩
  · intro j hj
    by_cases hji : j = i
    · rw [hji, hself]
      exact .inl ⟨rfl, rfl, rfl⟩
    · rw [hother j hji]
      exact hs.shape j hj
  · intro j hj k hk hdp hkey hname hcred
    have hji : j ≠ i := by
      rintro rfl
      rw [hself] at hdp
      exact hdp rfl
    have hki : k ≠ i := by
      rintro rfl
      rw [hself] at hkey
      exact hdp hkey
    rw [hother j hji] at hdp hkey hname hcred
    rw [hother k hki] at hkey hname hcred
    exact hs.keys j hj k hk hdp hkey hname hcred
  · intro v
    refine Eq.trans ?_ (sum_update (refs v) s.ncache hi _).symm
    rw [rm_vHolds, rele_apply, rele_apply, hs.vHolds v]
    unfold refs Cache.clear
    simp only [reduceCtorEq, if_false]
    omega
  · intro c
    refine Eq.trans ?_ (sum_update (crRefs c) s.ncache hi _).symm
    rw [rm_crHolds, rele_apply, hs.crHolds c]
    unfold crRefs Cache.clear
    simp only [reduceCtorEq, if_false]
    omega
  · intro j hj dp vp hdp hvp
    have hji : j ≠ i := by
      rintro rfl
      rw [hself] at hdp
      cases hdp
    rw [hother j hji] at hdp hvp ⊢
    exact hs.entered j hj dp vp hdp hvp

/-!
## Taking an entry for a name
-/

theorem Sound.fill (hs : Sound s (i :: b) B) {name : Name} (hnew : ∀ j < s.ncsize,
      ¬ Cache.Matches (s.ncache j) dp name.chars (some cred)) :
    Sound (s.fill i dp name vp cred) (b ++ [i]) (update (fun h => (B h).erase i) (ncHash name dp)
        (i :: (B (ncHash name dp)).erase i)) := by
  have hi : i < s.ncsize := Sound.lt (a := []) hs
  let e : Ncache := ⟨some vp, some dp, name.chars, cred⟩
  have hncache : (s.fill i dp name vp cred).ncache = update s.ncache i e := rfl
  have hsize : (s.fill i dp name vp cred).ncsize = s.ncsize := rfl
  have hvHolds : (s.fill i dp name vp cred).vHolds =
      Cache.hold (Cache.hold (Cache.rele (Cache.rele s.vHolds (s.ncache i).dp)
        (s.ncache i).vp) (some dp)) (some vp) := rfl
  have hcrHolds : (s.fill i dp name vp cred).crHolds =
      Cache.hold (Cache.rele s.crHolds (s.ncache i).cred) cred := rfl
  have hlog : (s.fill i dp name vp cred).log = .entered dp name.chars cred vp :: s.log := rfl
  have hself : (s.fill i dp name vp cred).ncache i = e := by
    rw [hncache, update_self]
  have hother : ∀ j, j ≠ i → (s.fill i dp name vp cred).ncache j = s.ncache j := by
    intro j hj
    rw [hncache, update_of_ne hj]
  -- No other entry has the key.
  have hkey : ∀ j < s.ncsize, some dp = (s.ncache j).dp →
      name.chars = (s.ncache j).name → cred ≠ (s.ncache j).cred := by
    intro j hj hdp hname hcred
    refine hnew j hj ⟨hdp.symm, hname.symm, ?_⟩
    rintro c ⟨⟩
    exact hcred.symm
  refine ⟨hs.lists.fill, ?_, ?_, ?_, ?_, ?_, ?_, ?_⟩
  · intro j
    rw [hsize, (perm_append_singleton i b).mem_iff]
    exact hs.all j
  · intro h hh j
    have herase : j ∈ (B h).erase i ↔ j ≠ i ∧ j < s.ncsize ∧ OnChain (s.ncache j) h := by
      rw [(hs.lists.chain_nodup hh).mem_erase_iff, hs.mem h hh]
    by_cases hj : j = i
    · subst hj
      rw [hself]
      by_cases hh' : h = ncHash name dp
      · subst hh'
        rw [update_self]
        exact ⟨fun _ => ⟨hi, dp, name, rfl, rfl, rfl⟩, fun _ => mem_cons_self⟩
      · rw [update_of_ne hh', herase]
        refine ⟨fun hmem => absurd rfl hmem.1, ?_⟩
        rintro ⟨_, dp', name', hdp, hname, hhash⟩
        rw [← some.inj hdp, ← Name.ext_chars hname] at hhash
        exact absurd hhash.symm hh'
    · rw [hother j hj]
      have hiff : j ∈ update (fun h => (B h).erase i) (ncHash name dp)
          (i :: (B (ncHash name dp)).erase i) h ↔ j ∈ (B h).erase i := by
        by_cases hh' : h = ncHash name dp
        · subst hh'
          rw [update_self, mem_cons]
          exact or_iff_right hj
        · rw [update_of_ne hh']
      rw [hiff, herase]
      exact ⟨fun hmem => hmem.2, fun hmem => ⟨hj, hmem⟩⟩
  · intro j hj
    by_cases hji : j = i
    · rw [hji, hself]
      exact .inr ⟨dp, vp, name, rfl, rfl, rfl⟩
    · rw [hother j hji]
      exact hs.shape j hj
  · intro j hj k hk hdp hdp' hname hcred
    by_cases hji : j = i
    · subst hji
      by_cases hkj : k = j
      · exact hkj.symm
      · rw [hself, hother k hkj] at hdp' hname hcred
        exact absurd hcred (hkey k hk hdp' hname)
    · rw [hother j hji] at hdp hdp' hname hcred
      by_cases hki : k = i
      · subst hki
        rw [hself] at hdp' hname hcred
        exact absurd hcred.symm (hkey j hj hdp'.symm hname.symm)
      · rw [hother k hki] at hdp' hname hcred
        exact hs.keys j hj k hk hdp hdp' hname hcred
  · intro v
    rw [hsize, hncache]
    refine Eq.trans ?_ (sum_update (refs v) s.ncache hi _).symm
    rw [hvHolds, hold_apply, hold_apply, rele_apply, rele_apply, hs.vHolds v]
    have hnew : refs v e = (if some dp = some v then 1 else 0) +
      (if some vp = some v then 1 else 0) := rfl
    have hold : refs v (s.ncache i) = (if (s.ncache i).dp = some v then 1 else 0) +
      (if (s.ncache i).vp = some v then 1 else 0) := rfl
    omega
  · intro c
    refine Eq.trans ?_ (sum_update (crRefs c) s.ncache hi _).symm
    rw [hcrHolds, hold_apply, rele_apply, hs.crHolds c]
    rfl
  · intro j hj dp' vp' hdp hvp
    by_cases hji : j = i
    · subst hji
      rw [hself] at hdp hvp ⊢
      cases hdp
      cases hvp
      exact entered_first
    · rw [hother j hji] at hdp hvp ⊢
      refine (hs.entered j hj dp' vp' hdp hvp).cons ?_
      rintro ⟨rfl, hname, hcred⟩
      exact hkey j hj hdp.symm hname hcred

/-!
## Moving an entry
-/

/-- The two caches differ in their lists only. -/
structure SameEntries (s t : Cache) : Prop where
  ncsize : t.ncsize = s.ncsize
  ncache : t.ncache = s.ncache
  vHolds : t.vHolds = s.vHolds
  crHolds : t.crHolds = s.crHolds
  log : t.log = s.log

theorem SameEntries.trans {u : Cache} (h : SameEntries s t) (h' : SameEntries t u) :
    SameEntries s u :=
  ⟨h'.ncsize.trans h.ncsize, h'.ncache.trans h.ncache, h'.vHolds.trans h.vHolds,
    h'.crHolds.trans h.crHolds, h'.log.trans h.log⟩

theorem sameEntries_touch : SameEntries s (s.touch i h) := by
  have hlru : SameEntries s ((s.ncRmlru (.entry i)).ncInslru (.entry i)
      ((s.ncRmlru (.entry i)).lruPrev .lru)) := ⟨rfl, rfl, rfl, rfl, rfl⟩
  have hhash : ∀ (u : Cache) (p : Ref),
      SameEntries u ((u.ncRmhash (.entry i)).ncInshash (.entry i) p) :=
    fun u p => ⟨rfl, rfl, rfl, rfl, rfl⟩
  unfold Cache.touch
  dsimp only
  split
  · exact hlru.trans (hhash _ _)
  · exact hlru

theorem Sound.touch (hs : Sound s (a ++ i :: b) B) (hh : h < ncHashSize)
    (hi : i ∈ B h) : ∃ B', Sound (s.touch i h) (a ++ b ++ [i]) B' := by
  rcases hs.lists.touch hh hi with ⟨B', hlists, hperm⟩
  have hsame : SameEntries s (s.touch i h) := sameEntries_touch
  refine ⟨B', hlists, ?_, ?_, ?_, ?_, ?_, ?_, ?_⟩
  · intro j
    rw [(perm_append_singleton i (a ++ b)).mem_iff, ← perm_middle.mem_iff, hsame.ncsize]
    exact hs.all j
  · intro k hk j
    rw [(hperm k hk).mem_iff, hsame.ncsize, hsame.ncache]
    exact hs.mem k hk j
  · rw [hsame.ncsize, hsame.ncache]
    exact hs.shape
  · rw [hsame.ncsize, hsame.ncache]
    exact hs.keys
  · rw [hsame.ncsize, hsame.ncache, hsame.vHolds]
    exact hs.vHolds
  · rw [hsame.ncsize, hsame.ncache, hsame.crHolds]
    exact hs.crHolds
  · rw [hsame.ncsize, hsame.ncache, hsame.log]
    exact hs.entered

/-!
## Finding an entry
-/

theorem find_spec {next prev : Ref → Ref} {c : Ncache → Prop} [DecidablePred c]
    {x y : Ref} {l : List Nat} {fuel : Nat} (hy : ∀ i, y ≠ .entry i)
    (hl : Linked next prev x (l.map .entry) y) (hfuel : l.length < fuel) :
    (∃ i ∈ l, c (s.ncache i) ∧ s.find next c fuel (next x) = some (some i)) ∨
    ((∀ i ∈ l, ¬ c (s.ncache i)) ∧ s.find next c fuel (next x) = some none) := by
  induction l generalizing x fuel with
  | nil =>
    right
    refine ⟨nofun, ?_⟩
    rw [hl.1]
    cases fuel with
    | zero => cases hfuel
    | succ fuel =>
      cases y with
      | entry i => exact absurd rfl (hy i)
      | lru => rfl
      | hash k => rfl
  | cons j l ih =>
    cases fuel with
    | zero => cases hfuel
    | succ fuel =>
      rw [hl.1.1]
      unfold Cache.find
      by_cases hc : c (s.ncache j)
      · left
        rw [if_pos hc]
        exact ⟨j, mem_cons_self, hc, rfl⟩
      · rw [if_neg hc]
        rcases ih hl.2 (Nat.lt_of_succ_lt_succ hfuel) with ⟨i, hi, hci, hrun⟩ | ⟨hnone, hrun⟩
        · exact .inl ⟨i, mem_cons_of_mem j hi, hci, hrun⟩
        · refine .inr ⟨fun i hi => ?_, hrun⟩
          rcases mem_cons.mp hi with rfl | hi
          · exact hc
          · exact hnone i hi

theorem length_le_of_lt {l : List Nat} (hnodup : l.Nodup) (hl : ∀ i ∈ l, i < n) : l.length ≤ n := by
  have hsub : l ⊆ List.range n := fun i hi => mem_range.mpr (hl i hi)
  have hle := (subperm_of_subset hnodup hsub).length_le
  rwa [length_range] at hle

theorem Sound.search (hs : Sound s L B) (dp : Nat) (name : Name) (cred : Option (Option Nat)) :
    (∃ i < s.ncsize, i ∈ B (ncHash name dp) ∧ Cache.Matches (s.ncache i) dp name.chars cred ∧
      s.dnlcSearch dp name (ncHash name dp) cred = some (some i)) ∨
    ((∀ i < s.ncsize, ¬ Cache.Matches (s.ncache i) dp name.chars cred) ∧
      s.dnlcSearch dp name (ncHash name dp) cred = some none) := by
  have hh := ncHash_lt name dp
  have hlt : ∀ i ∈ B (ncHash name dp), i < s.ncsize :=
    fun i hi => ((hs.mem _ hh i).mp hi).1
  have hlength := length_le_of_lt (hs.lists.chain_nodup hh) hlt
  rcases find_spec (s := s) (c := fun e => Cache.Matches e dp name.chars cred)
    (y := .hash (ncHash name dp)) (fun _ h => by cases h) (hs.lists.hash.chain _ hh).linked (Nat.lt_succ_of_le hlength) with
    ⟨i, hi, hc, hrun⟩ | ⟨hnone, hrun⟩
  · exact .inl ⟨i, hlt i hi, hi, hc, hrun⟩
  · refine .inr ⟨fun i hi hc => ?_, hrun⟩
    exact hnone i ((hs.mem _ hh i).mpr ⟨hi, dp, name, hc.1, hc.2.1, rfl⟩) hc

theorem Sound.findLru (hs : Sound s L B) (c : Ncache → Prop) [DecidablePred c] :
    (∃ i < s.ncsize, c (s.ncache i) ∧ s.findLru c = some (some i)) ∨
    ((∀ i < s.ncsize, ¬ c (s.ncache i)) ∧ s.findLru c = some none) := by
  have hlength := length_le_of_lt hs.lists.nodup fun i hi => (hs.all i).mp hi
  rcases find_spec (s := s) (c := c) (y := .lru) (fun _ h => by cases h)
    hs.lists.lru.linked (Nat.lt_succ_of_le hlength) with ⟨i, hi, hc, hrun⟩ | ⟨hnone, hrun⟩
  · exact .inl ⟨i, (hs.all i).mp hi, hc, hrun⟩
  · exact .inr ⟨fun i hi => hnone i ((hs.all i).mpr hi), hrun⟩

end Dnlc
end Svr4
