import Svr4.RecordLock.Refinement

/-!
# Running out of records

`flckadj` asks for a record at two places: for the piece of a lock that is
split, and for the new lock.  By then it has deleted and cut the locks of the
owner it met.  This module counts the records from the list at entry, decides
which of the two requests fails, and compares the maps.
-/

namespace Svr4
namespace RecordLock

open NodeList List

/-!
## The locks a request edits
-/

instance (ld : Flock) (f : Filock) : Decidable (Clear ld f) :=
  inferInstanceAs (Decidable (_ ∨ _))

/-- A lock of the requesting owner that the request meets or joins. -/
def Touched (ld : Flock) (f : Filock) : Prop :=
  f.owner = ld.owner ∧ ¬ Clear ld f

instance (ld : Flock) (f : Filock) : Decidable (Touched ld f) :=
  inferInstanceAs (Decidable (_ ∧ _))

/-- The lock reaches behind the request, and the piece there is kept. -/
def Splits (ld : Flock) (f : Filock) : Prop :=
  Touched ld f ∧ ld.lType ≠ f.set.lType ∧ ld.lEnd < f.set.lEnd

instance (ld : Flock) (f : Filock) : Decidable (Splits ld f) :=
  inferInstanceAs (Decidable (_ ∧ _))

/-- The record of the lock is given back: no piece before the request stays. -/
def Dropped (ld : Flock) (f : Filock) : Prop :=
  Touched ld f ∧ (f.set.lStart < ld.lStart → ld.lType = f.set.lType)

instance (ld : Flock) (f : Filock) : Decidable (Dropped ld f) :=
  inferInstanceAs (Decidable (_ ∧ _))

def Contains (ld : Flock) (f : Filock) : Prop :=
  f.owner = ld.owner ∧ f.set.lType = ld.lType ∧ f.set.lStart ≤ ld.lStart ∧ ld.lEnd ≤ f.set.lEnd

instance (ld : Flock) (f : Filock) : Decidable (Contains ld f) :=
  inferInstanceAs (Decidable (_ ∧ _))

def drops (ld : Flock) (lst : List Filock) : Nat :=
  lst.countP fun f => Dropped ld f

/-- The records taken for pieces of split locks: one at most. -/
def splits (ld : Flock) (lst : List Filock) : Nat :=
  if ∃ f ∈ lst, Splits ld f then 1 else 0

/-- The record of a split lock, which is given back after the split. -/
def splitDrops (ld : Flock) (lst : List Filock) : Nat :=
  if ∃ f ∈ lst, Splits ld f ∧ Dropped ld f then 1 else 0

/-- `insflck` finds a record, with so many in use and so many calls made. -/
def Room (t : Tune) (reccnt : Int) (zallocs : Nat) : Prop :=
  reccnt < t.tFlckrec ∧ t.kmemZalloc zallocs = true

instance (t : Tune) (reccnt : Int) (zallocs : Nat) :
    Decidable (Room t reccnt zallocs) :=
  inferInstanceAs (Decidable (_ ∧ _))

def SplitRoom (t : Tune) (k : Kern) (ld : Flock) (lst : List Filock) : Prop :=
  Room t (k.reccnt - drops ld lst + splitDrops ld lst) k.zallocs

def InsertRoom (t : Tune) (k : Kern) (ld : Flock) (lst : List Filock) : Prop :=
  ld.lType = .unlck ∨ Room t (k.reccnt - drops ld lst + splits ld lst) (k.zallocs + splits ld lst)

/--
When a request either finds the records it needs or has edited nothing by the
time it fails.
-/
def HasRoom (t : Tune) (k : Kern) (ld : Flock) (lst : List Filock) : Prop :=
  (∀ f ∈ lst, ¬ Touched ld f) ∨ (∃ f ∈ lst, Contains ld f) ∨
    ((∃ f ∈ lst, Splits ld f) ∧ ¬ SplitRoom t k ld lst ∧ ∀ f ∈ lst, Touched ld f → Splits ld f) ∨
    (((∃ f ∈ lst, Splits ld f) → SplitRoom t k ld lst) ∧ InsertRoom t k ld lst)

variable {ld : Flock} {f : Filock}

theorem Contains.touched (h : Contains ld f) (hld : ld.lStart ≤ ld.lEnd) : Touched ld f := by
  refine ⟨h.1, fun hclear => ?_⟩
  have h1 := h.2.2.1
  have h2 := h.2.2.2
  rcases hclear with hbefore | hafter
  · omega
  · omega

theorem touched_of_covers (hown : f.owner = ld.owner) {x : Int} (hf : f.set.Covers x)
    (hld : ld.Covers x) : Touched ld f := by
  refine ⟨hown, fun hclear => ?_⟩
  have h1 := hf.1
  have h2 := hf.2
  have h3 := hld.1
  have h4 := hld.2
  rcases hclear with hbefore | hafter
  · omega
  · omega

theorem Splits.covers (h : Splits ld f) : f.set.Covers (ld.lEnd + 1) := by
  refine ⟨?_, by have := h.2.2; omega⟩
  by_contra hlt
  refine h.1.2 (.inr ⟨by omega, fun hty => absurd hty h.2.1⟩)

theorem Splits.unique {lst : List Filock} (hwf : WellFormed lst) {g : Filock} (hf : f ∈ lst)
    (hg : g ∈ lst) (hsf : Splits ld f) (hsg : Splits ld g) : f = g :=
  Filock.eq_of_covers hwf hf hg (hsf.1.1.trans hsg.1.1.symm) hsf.covers hsg.covers

/-!
## What is left of the maps
-/

def Unchanged (lst lst' : List Filock) (o : Owner) : Prop :=
  ∀ x ty, Holds lst' o x ty ↔ Holds lst o x ty

section Maps

variable {lst₀ : List Filock} {ld₀ : Flock} {k₀ : Kern} {a : Adj}

theorem Kept.touched_of_widened (h : Kept lst₀ ld₀ k₀ a)
    (hld₀ : ld₀.lStart ≤ ld₀.lEnd) {x : Int} (hx1 : a.ld.lStart ≤ x)
    (hx2 : x ≤ a.ld.lEnd) (hnot : ¬ ld₀.Covers x) :
    ∃ f ∈ lst₀, Touched ld₀ f ∧ f.set.lType = ld₀.lType := by
  have hstart := h.start_le
  have hend := h.end_ge
  unfold Flock.Covers at hnot
  by_cases hlt : x < ld₀.lStart
  · have hmeet := h.widened (ld₀.lStart - 1) (by omega) (by omega)
      fun hcov => by have := hcov.1; omega
    rcases hmeet with ⟨f, hf, hown, hty, hcov⟩
    have h1 := hcov.1
    have h2 := hcov.2
    refine ⟨f, hf, ⟨hown, fun hclear => ?_⟩, hty⟩
    rcases hclear with hbefore | hafter
    · have := hbefore.2 hty.symm
      omega
    · omega
  · have hmeet := h.widened (ld₀.lEnd + 1) (by omega) (by omega)
      fun hcov => by have := hcov.2; omega
    rcases hmeet with ⟨f, hf, hown, hty, hcov⟩
    have h1 := hcov.1
    have h2 := hcov.2
    refine ⟨f, hf, ⟨hown, fun hclear => ?_⟩, hty⟩
    rcases hclear with hbefore | hafter
    · omega
    · have := hafter.2 hty.symm
      omega

theorem Kept.unchanged (h : Kept lst₀ ld₀ k₀ a) (hld₀ : ld₀.lStart ≤ ld₀.lEnd)
    (hkeep : ∀ f ∈ lst₀, Touched ld₀ f → f ∈ a.lst ∧ f.set.lType ≠ ld₀.lType) :
    Unchanged lst₀ a.lst ld₀.owner := by
  intro x ty
  by_cases hin : a.ld.lStart ≤ x ∧ x ≤ a.ld.lEnd
  · refine ⟨h.shrinks x ty, ?_⟩
    rintro ⟨f, hf, hown, hty, hcov⟩
    by_cases hx : ld₀.Covers x
    · have htouch := touched_of_covers hown hcov hx
      exact ⟨f, (hkeep f hf htouch).1, hown, hty, hcov⟩
    · rcases h.touched_of_widened hld₀ hin.1 hin.2 hx with ⟨g, hg, htouch, hgty⟩
      exact absurd hgty (hkeep g hg htouch).2
  · exact h.outside x ty (by omega)

theorem Settled.overlaps (h : Settled lst₀ ld₀ k₀ a) (hf : f ∈ lst₀)
    (hvalid : f.set.lStart ≤ f.set.lEnd) (hld₀ : ld₀.lStart ≤ ld₀.lEnd) (htouch : Touched ld₀ f) :
    ∃ x, f.set.Covers x ∧ a.ld.Covers x := by
  have hstart := h.kept.start_le
  have hend := h.kept.end_ge
  refine (covers_common hvalid (by omega)).mpr ?_
  by_contra hapart
  -- The lock lies outside the request, so it is still there; but it is touched.
  have hheld : ∀ x, f.set.Covers x → Holds a.lst ld₀.owner x f.set.lType := by
    intro x hcov
    have h1 := hcov.1
    have h2 := hcov.2
    exact (h.kept.outside x f.set.lType (by omega)).mpr ⟨f, hf, htouch.1, rfl, hcov⟩
  refine htouch.2 ?_
  by_cases hlt : f.set.lEnd < a.ld.lStart
  · refine .inl ⟨by omega, fun hty => ?_⟩
    rcases hheld f.set.lEnd ⟨hvalid, Int.le_refl _⟩ with ⟨g, hg, hgown, hgty, hgcov⟩
    have h2 := hgcov.2
    have h1 := hgcov.1
    have htype : a.ld.lType = g.set.lType := by
      rw [h.kept.type_eq, hty, hgty]
    rcases h.clear g hg hgown with hbefore | hafter
    · have := hbefore.2 htype
      omega
    · omega
  · refine .inr ⟨by omega, fun hty => ?_⟩
    rcases hheld f.set.lStart ⟨Int.le_refl _, hvalid⟩ with ⟨g, hg, hgown, hgty, hgcov⟩
    have h2 := hgcov.2
    have h1 := hgcov.1
    have htype : a.ld.lType = g.set.lType := by
      rw [h.kept.type_eq, hty, hgty]
    rcases h.clear g hg hgown with hbefore | hafter
    · omega
    · have := hafter.2 htype
      omega

theorem Settled.unchanged_iff (hwf : WellFormed lst₀)
    (h : Settled lst₀ ld₀ k₀ a) (hld₀ : ld₀.lStart ≤ ld₀.lEnd) :
    Unchanged lst₀ a.lst ld₀.owner ↔ ∀ f ∈ lst₀, ¬ Touched ld₀ f := by
  constructor
  · intro hsame f hf htouch
    have hvalid := (hwf.valid f hf).start_le_end
    rcases h.overlaps hf hvalid hld₀ htouch with ⟨x, hcov, hx⟩
    have hheld := (hsame x f.set.lType).mpr ⟨f, hf, htouch.1, rfl, hcov⟩
    exact h.none_inside hx.1 hx.2 f.set.lType hheld
  · intro hnone
    exact h.kept.unchanged hld₀ fun f hf htouch => absurd htouch (hnone f hf)

/-- When a split fails, the map has changed if another lock was touched. -/
theorem LoopInv.unchanged_iff (hwf : WellFormed lst₀) {flp : Filock}
    {rest : List Filock} (h : LoopInv lst₀ ld₀ k₀ (flp :: rest) a)
    (hflp : flp ∈ lst₀) (hsplit : Splits ld₀ flp) (hld₀ : ld₀.lStart ≤ ld₀.lEnd) :
    Unchanged lst₀ a.lst ld₀.owner ↔ ∀ f ∈ lst₀, Touched ld₀ f → Splits ld₀ f := by
  have hstart := h.kept.start_le
  constructor
  · intro hsame f hf htouch
    by_contra hns
    have hne : f ≠ flp := fun heq => hns (heq ▸ hsplit)
    have hvalid := (hwf.valid f hf).start_le_end
    have hown := htouch.1.trans hsplit.1.1.symm
    -- The lock comes before the one that is split.
    have hap : Apart f flp := by
      rcases pairwise_cases hwf.apart hf hflp with heq | hap | hap
      · exact absurd heq hne
      · exact hap
      · refine absurd (.inr ⟨?_, fun _ => ?_⟩) htouch.2
        · have := (hap.2 hown.symm).1
          have := hsplit.2.2
          omega
        · have := (hap.2 hown.symm).1
          have := hsplit.2.2
          omega
    have hbefore := (hap.2 hown).1
    have hnone : ∀ x ty, a.ld.lStart ≤ x → x < flp.set.lStart → ¬ Holds a.lst ld₀.owner x ty := by
      rintro x ty hx1 hx2 ⟨g, hg, hgown, _, hgcov⟩
      have h1 := hgcov.1
      have h2 := hgcov.2
      rcases h.processed g hg hgown with hmem | hb
      · rcases mem_cons.mp hmem with rfl | hin
        · omega
        · have := (h.rest_apart hin).1
          omega
      · have := hb.1
        omega
    have hend : a.ld.lStart ≤ f.set.lEnd := by
      by_contra hlt
      have hheld := (h.kept.outside f.set.lEnd f.set.lType (by omega)).mpr
        ⟨f, hf, htouch.1, rfl, hvalid, Int.le_refl _⟩
      refine htouch.2 (.inl ⟨by omega, fun hty => ?_⟩)
      rcases hheld with ⟨g, hg, hgown, hgty, hgcov⟩
      have h1 := hgcov.1
      have h2 := hgcov.2
      rcases h.processed g hg hgown with hmem | hb
      · rcases mem_cons.mp hmem with rfl | hin
        · omega
        · have := (h.rest_apart hin).1
          omega
      · have htype : a.ld.lType = g.set.lType := by
          rw [h.kept.type_eq, hty, hgty]
        have := hb.2 htype
        omega
    have hheld := (hsame f.set.lEnd f.set.lType).mpr ⟨f, hf, htouch.1, rfl, hvalid, Int.le_refl _⟩
    exact hnone _ _ hend hbefore hheld
  · intro hall
    refine h.kept.unchanged hld₀ fun f hf htouch => ?_
    have hsf := hall f hf htouch
    have heq := hsf.unique hwf hf hflp hsplit
    subst heq
    exact ⟨h.flp_mem, fun hty => hsf.2.1 hty.symm⟩

end Maps

/-!
## Counting records
-/

variable {t : Tune}

theorem insflck_of_room {k : Kern} (h : Room t k.reccnt k.zallocs) (lst : List Filock)
    (lckdat : Flock) (fl : Option Nat) : insflck t lst lckdat fl k = (some k.zallocs,
        insertAfter Filock.addr fl (newFilock k.zallocs lckdat) lst,
        { k with
          reccnt := k.reccnt + 1
          rectot := k.rectot + 1
          zallocs := k.zallocs + 1 }) := by
  have hrec : ¬ k.reccnt ≥ t.tFlckrec := by
    have := h.1
    omega
  unfold insflck
  rw [if_neg hrec, if_neg (by simp [h.2])]
  rfl

theorem insflck_of_no_room {k : Kern} (h : ¬ Room t k.reccnt k.zallocs) (lst : List Filock)
    (lckdat : Flock) (fl : Option Nat) :
    ∃ n, insflck t lst lckdat fl k = (none, lst, { k with zallocs := n }) := by
  unfold insflck
  by_cases hrec : k.reccnt ≥ t.tFlckrec
  · rw [if_pos hrec]
    exact ⟨k.zallocs, rfl⟩
  · have hmem : t.kmemZalloc k.zallocs = false := by
      cases hm : t.kmemZalloc k.zallocs with
      | false => rfl
      | true => exact absurd ⟨by omega, hm⟩ h
    rw [if_neg hrec, if_pos hmem]
    exact ⟨k.zallocs + 1, rfl⟩

/-- The loop invariant, with the records given back so far. -/
structure Tally (lst₀ : List Filock) (ld₀ : Flock) (k₀ : Kern)
    (todo : List Filock) (a : Adj) : Prop where
  inv : LoopInv lst₀ ld₀ k₀ todo a
  sub : ∀ g ∈ todo, g ∈ lst₀
  zallocs : a.k.zallocs = k₀.zallocs
  reccnt : a.k.reccnt + drops ld₀ lst₀ = k₀.reccnt + drops ld₀ todo
  ahead : a.ld = ld₀ ∨ ∀ f ∈ todo, f.owner = ld₀.owner → ld₀.lStart ≤ f.set.lStart ∧
      (ld₀.lType = f.set.lType → ld₀.lStart < f.set.lStart)
  pending : ∀ f ∈ lst₀, Splits ld₀ f ∨ Contains ld₀ f → f ∈ todo

/-- The records in use when the list is ready for the new lock. -/
structure Final (t : Tune) (lst₀ : List Filock) (ld₀ : Flock) (k₀ : Kern)
    (a : Adj) : Prop where
  settled : Settled lst₀ ld₀ k₀ a
  zallocs : a.k.zallocs = k₀.zallocs + splits ld₀ lst₀
  reccnt : a.k.reccnt = k₀.reccnt - drops ld₀ lst₀ + splits ld₀ lst₀
  room : (∃ f ∈ lst₀, Splits ld₀ f) → SplitRoom t k₀ ld₀ lst₀
  free : ∀ f ∈ lst₀, ¬ Contains ld₀ f

def SplitFailed (t : Tune) (lst₀ : List Filock) (ld₀ : Flock) (k₀ : Kern)
    (a : Adj) : Prop :=
  (∃ f ∈ lst₀, Splits ld₀ f) ∧ (∀ f ∈ lst₀, ¬ Contains ld₀ f) ∧ ¬ SplitRoom t k₀ ld₀ lst₀ ∧
    (Unchanged lst₀ a.lst ld₀.owner ↔ ∀ f ∈ lst₀, Touched ld₀ f → Splits ld₀ f)

def TallyPost (t : Tune) (lst₀ : List Filock) (ld₀ : Flock) (k₀ : Kern)
    (rest : List Filock) : AdjStep → Prop
  | .next a => Tally lst₀ ld₀ k₀ rest a
  | .stop a => Final t lst₀ ld₀ k₀ a
  | .ret none _ => ∃ f ∈ lst₀, Contains ld₀ f
  | .ret (some e) a => e = .enolck ∧ SplitFailed t lst₀ ld₀ k₀ a

variable {a' : Adj} {insrtp : Option Nat}

section Tally

variable {lst₀ : List Filock} {ld₀ : Flock} {k₀ : Kern} {flp : Filock}
  {rest : List Filock} {a : Adj}

theorem drops_cons (ld : Flock) (f : Filock) (l : List Filock) :
    drops ld (f :: l) = drops ld l + if Dropped ld f then 1 else 0 := by
  unfold drops
  rw [countP_cons]
  simp

theorem drops_eq_zero {l : List Filock} (h : ∀ f ∈ l, ¬ Touched ld f) : drops ld l = 0 := by
  unfold drops
  rw [countP_eq_zero]
  intro f hf
  simpa using fun hd : Dropped ld f => h f hf hd.1

section

variable (h : Tally lst₀ ld₀ k₀ (flp :: rest) a)
include h

theorem Tally.flp_start
    (hown : flp.owner = ld₀.owner) (hle : a.ld.lStart ≤ flp.set.lStart) :
    ld₀.lStart ≤ flp.set.lStart := by
  rcases h.ahead with heq | hall
  · rw [← heq]
    exact hle
  · exact (hall flp (by simp) hown).1

theorem Tally.next (hinv : LoopInv lst₀ ld₀ k₀ rest a')
    (hz : a'.k.zallocs = a.k.zallocs)
    (hcount : a'.k.reccnt = a.k.reccnt - if Dropped ld₀ flp then 1 else 0)
    (hahead : a'.ld = a.ld ∨ ∀ f ∈ rest, f.owner = ld₀.owner → ld₀.lStart ≤ f.set.lStart ∧
        (ld₀.lType = f.set.lType → ld₀.lStart < f.set.lStart)) (hsplit : ¬ Splits ld₀ flp)
    (hcon : ¬ Contains ld₀ flp) : Tally lst₀ ld₀ k₀ rest a' where
  inv := hinv
  sub := fun g hg => h.sub g (mem_cons_of_mem _ hg)
  zallocs := hz.trans h.zallocs
  reccnt := by
    have hrec := h.reccnt
    rw [drops_cons] at hrec
    rw [hcount]
    split_ifs at hrec ⊢ <;> push_cast at hrec ⊢ <;> omega
  ahead := by
    rcases hahead with heq | hall
    · rw [heq]
      exact h.ahead.imp id fun hall f hf => hall f (mem_cons_of_mem _ hf)
    · exact .inr hall
  pending := by
    intro f hf hboth
    rcases mem_cons.mp (h.pending f hf hboth) with rfl | hin
    · rcases hboth with hs | hc
      · exact absurd hs hsplit
      · exact absurd hc hcon
    · exact hin

theorem Tally.untouched (hld₀ : ld₀.lStart ≤ ld₀.lEnd)
    (hinv : LoopInv lst₀ ld₀ k₀ rest a') (hk : a'.k = a.k) (hld : a'.ld = a.ld)
    (hclear : ¬ Touched ld₀ flp) : Tally lst₀ ld₀ k₀ rest a' := by
  refine h.next hinv (by rw [hk]) ?_ (.inl hld) (fun hs => hclear hs.1)
    fun hc => hclear (hc.touched hld₀)
  rw [hk, if_neg fun hd : Dropped ld₀ flp => hclear hd.1]
  omega

end

theorem Tally.final (t : Tune) (h : Tally lst₀ ld₀ k₀ (flp :: rest) a)
    (hld₀ : ld₀.lStart ≤ ld₀.lEnd) (hset : Settled lst₀ ld₀ k₀ a') (hz : a'.k.zallocs = a.k.zallocs)
    (hcount : a'.k.reccnt = a.k.reccnt - if Dropped ld₀ flp then 1 else 0)
    (hrest : ∀ f ∈ rest, ¬ Touched ld₀ f) (hsplit : ¬ Splits ld₀ flp)
    (hcon : ¬ Contains ld₀ flp) : Final t lst₀ ld₀ k₀ a' := by
  have hnone : ∀ f ∈ lst₀, ¬ (Splits ld₀ f ∨ Contains ld₀ f) := by
    intro f hf hboth
    rcases mem_cons.mp (h.pending f hf hboth) with rfl | hin
    · rcases hboth with hs | hc
      · exact hsplit hs
      · exact hcon hc
    · rcases hboth with hs | hc
      · exact hrest f hin hs.1
      · exact hrest f hin (hc.touched hld₀)
  have hns : ¬ ∃ f ∈ lst₀, Splits ld₀ f := by
    rintro ⟨f, hf, hs⟩
    exact hnone f hf (.inl hs)
  have hzero : splits ld₀ lst₀ = 0 := if_neg hns
  refine ⟨hset, ?_, ?_, fun hs => absurd hs hns, fun f hf hc => hnone f hf (.inr hc)⟩
  · rw [hz, h.zallocs, hzero, Nat.add_zero]
  · have hrec := h.reccnt
    rw [drops_cons, drops_eq_zero hrest] at hrec
    rw [hcount, hzero]
    split_ifs at hrec ⊢ <;> push_cast at hrec ⊢ <;> omega

theorem Tally.splitCount (h : Tally lst₀ ld₀ k₀ (flp :: rest) a)
    (hsplit : Splits ld₀ flp) (hrest : ∀ f ∈ rest, ¬ Touched ld₀ f) :
    a.k.reccnt = k₀.reccnt - drops ld₀ lst₀ + splitDrops ld₀ lst₀ ∧
      (splitDrops ld₀ lst₀ : Int) = if Dropped ld₀ flp then 1 else 0 := by
  have hiff : (∃ f ∈ lst₀, Splits ld₀ f ∧ Dropped ld₀ f) ↔ Dropped ld₀ flp := by
    constructor
    · rintro ⟨f, hf, hs, hd⟩
      rcases mem_cons.mp (h.pending f hf (.inl hs)) with rfl | hin
      · exact hd
      · exact absurd hs.1 (hrest f hin)
    · exact fun hd => ⟨flp, h.sub flp (by simp), hsplit, hd⟩
  have hdrops : (splitDrops ld₀ lst₀ : Int) =
      if Dropped ld₀ flp then 1 else 0 := by
    unfold splitDrops
    by_cases hd : Dropped ld₀ flp
    · rw [if_pos (hiff.mpr hd), if_pos hd]
      rfl
    · rw [if_neg fun hex => hd (hiff.mp hex), if_neg hd]
      rfl
  refine ⟨?_, hdrops⟩
  have hrec := h.reccnt
  rw [drops_cons, drops_eq_zero hrest] at hrec
  rw [hdrops]
  split_ifs at hrec ⊢ <;> push_cast at hrec ⊢ <;> omega

theorem Tally.split (t : Tune) (hwf : WellFormed lst₀)
    (h : Tally lst₀ ld₀ k₀ (flp :: rest) a) (hld₀ : ld₀.lStart ≤ ld₀.lEnd)
    (hsplit : Splits ld₀ flp) (hrest : ∀ f ∈ rest, ¬ Touched ld₀ f)
    {p : Option Nat} {regtyp : StartType × EndType}
    (hpost : StepPost lst₀ ld₀ k₀ rest ({ a with insrtp := p }.split t flp regtyp))
    (hcase : regtyp = (.sMiddle, .eMiddle) ↔ ¬ Dropped ld₀ flp) :
    TallyPost t lst₀ ld₀ k₀ rest ({ a with insrtp := p }.split t flp regtyp) := by
  have hmem := h.sub flp (by simp)
  have hex : ∃ f ∈ lst₀, Splits ld₀ f := ⟨flp, hmem, hsplit⟩
  have hfree : ∀ f ∈ lst₀, ¬ Contains ld₀ f := by
    intro f hf hc
    rcases mem_cons.mp (h.pending f hf (.inr hc)) with rfl | hin
    · exact hsplit.2.1 hc.2.1.symm
    · exact hrest f hin (hc.touched hld₀)
  rcases h.splitCount hsplit hrest with ⟨hrec, hdrops⟩
  have hone : splits ld₀ lst₀ = 1 := if_pos hex
  have hspec : SplitRoom t k₀ ld₀ lst₀ ↔ Room t a.k.reccnt a.k.zallocs := by
    unfold SplitRoom
    rw [hrec, h.zallocs]
  unfold Adj.split at hpost ⊢
  by_cases hr : Room t a.k.reccnt a.k.zallocs
  · simp only [insflck_of_room hr] at hpost ⊢
    by_cases hd : Dropped ld₀ flp
    · rw [if_pos hd] at hdrops
      rw [if_neg fun hreg => (hcase.mp hreg) hd] at hpost ⊢
      refine ⟨hpost, ?_, ?_, fun _ => hspec.mpr hr, hfree⟩
      · simp [hone, h.zallocs]
      · simp only [Adj.del_k, hone, hrec, hdrops]
        omega
    · rw [if_neg hd] at hdrops
      rw [if_pos (hcase.mpr hd)] at hpost ⊢
      refine ⟨hpost, ?_, ?_, fun _ => hspec.mpr hr, hfree⟩
      · simp [hone, h.zallocs]
      · simp only [Adj.shrink_k, wakeprocs_reccnt, hone, hrec, hdrops]
        omega
  · rcases insflck_of_no_room hr a.lst { flp.set with lStart := a.ld.lEnd + 1 }
      (lastBefore (a.ld.lEnd + 1) a.lst flp.addr) with ⟨n, heq⟩
    simp only [heq] at hpost ⊢
    have hiff := h.inv.unchanged_iff hwf hmem hsplit hld₀
    exact ⟨rfl, hex, hfree, fun hs => hr (hspec.mp hs), hiff⟩

section

variable (h : Tally lst₀ ld₀ k₀ (flp :: rest) a) (hown : flp.owner = ld₀.owner)
include h hown

theorem Tally.rest_untouched (hend : ld₀.lEnd ≤ flp.set.lEnd)
    (hsep : ld₀.lEnd = flp.set.lEnd → ld₀.lType = flp.set.lType) : ∀ f ∈ rest, ¬ Touched ld₀ f :=
  fun _ hf htouch =>
    htouch.2 (h.inv.clear_rest hown hend hsep hf htouch.1)

theorem Tally.swallow
    (hflp : flp.set.lStart ≤ flp.set.lEnd) (hle : a.ld.lStart ≤ flp.set.lStart)
    (hend : flp.set.lEnd ≤ a.ld.lEnd) (hty : flp.set.lEnd = a.ld.lEnd → a.ld.lType ≠ flp.set.lType)
    (hinv : LoopInv lst₀ ld₀ k₀ rest a') (hz : a'.k.zallocs = a.k.zallocs)
    (hcount : a'.k.reccnt = a.k.reccnt - 1) (hld : a'.ld = a.ld) : Tally lst₀ ld₀ k₀ rest a' := by
  have hge := h.flp_start hown hle
  have hend₀ := h.inv.end_eq
  rw [h.inv.kept.type_eq, hend₀] at hty
  have hdrop : Dropped ld₀ flp :=
    ⟨touched_of_covers hown ⟨Int.le_refl _, hflp⟩ ⟨hge, by omega⟩,
      fun hcontra => absurd hcontra (by omega)⟩
  refine h.next hinv hz (by rw [hcount, if_pos hdrop]) (.inl hld) (fun hs => ?_) fun hc => ?_
  · have := hs.2.2
    omega
  · have := hc.2.2.2
    exact hty (by omega) hc.2.1.symm

end

theorem Tally.step (t : Tune) (hwf : WellFormed lst₀)
    (h : Tally lst₀ ld₀ k₀ (flp :: rest) a) (hld₀ : ld₀.lStart ≤ ld₀.lEnd) :
    TallyPost t lst₀ ld₀ k₀ rest (flckadjStep t flp a) := by
  have hpost := h.inv.step t hld₀
  have hstart := h.inv.kept.start_le
  have hend₀ := h.inv.end_eq
  have htype := h.inv.kept.type_eq
  have hflp := (h.inv.kept.edited.wf.valid flp h.inv.flp_mem).start_le_end
  unfold flckadjStep at hpost ⊢
  rw [h.inv.kept.owner_eq] at hpost ⊢
  split at hpost
  case isFalse hne =>
    rw [if_neg hne]
    exact h.untouched hld₀ hpost rfl rfl fun htouch => hne htouch.1
  case isTrue hown =>
    rw [if_pos hown]
    generalize hr : flckadjCase t flp a = r at hpost ⊢
    have hcase : CaseOf t flp a r := by
      rw [← hr]
      exact flckadjCase_cases t (by omega) hflp
    cases hcase with
    | before hend hsep hlt =>
      refine h.untouched hld₀ hpost rfl rfl fun htouch => htouch.2 ?_
      rw [htype] at hsep
      exact .inl ⟨by omega, fun hty => by have := hsep hty; omega⟩
    | mark hend hlt =>
      refine h.untouched hld₀ hpost rfl rfl fun htouch => htouch.2 ?_
      exact .inl ⟨by omega, fun _ => by omega⟩
    | past hend hsep =>
      rw [htype, hend₀] at hsep
      have hnot : ¬ Touched ld₀ flp := fun htouch =>
        htouch.2 (.inr ⟨by omega, hsep⟩)
      refine h.final t hld₀ hpost rfl ?_ (h.rest_untouched hown (by omega) (fun _ => by omega))
        (fun hs => hnot hs.1) fun hc => hnot (hc.touched hld₀)
      rw [if_neg fun hd : Dropped ld₀ flp => hnot hd.1]
      omega
    | inside p hty hle hge =>
      exact ⟨flp, h.sub flp (by simp), hown, by rw [← htype, hty], by omega, by omega⟩
    | joinLeft hty hlt hmeet hend =>
      have hld : a.ld = ld₀ := (h.inv.unedited hown (by omega)).2
      rw [hld] at hty hlt hmeet hend
      have hdrop : Dropped ld₀ flp := by
        refine ⟨⟨hown, fun hclear => ?_⟩, fun _ => hty⟩
        rcases hclear with hb | ha
        · have := hb.2 hty
          omega
        · have := ha.1
          omega
      refine h.next hpost (by simp) (by simp [hdrop]) (.inr ?_)
        (fun hs => hs.2.1 hty) (fun hc => by have := hc.2.2.2; omega)
      intro f hf hfown
      have hap := (h.inv.rest_apart hf).2 (hown.trans hfown.symm)
      refine ⟨by omega, fun hfty => ?_⟩
      have := hap.2 (hty.symm.trans hfty)
      omega
    | joinRight hty hlt hmeet hend =>
      rw [htype] at hty
      have hdrop : Dropped ld₀ flp := by
        refine ⟨⟨hown, fun hclear => ?_⟩, fun _ => hty⟩
        rcases hclear with hb | ha
        · have := hb.1
          omega
        · have := ha.2 hty
          omega
      refine h.final t hld₀ hpost (by simp) (by simp [hdrop])
        (h.rest_untouched hown (by omega) fun _ => hty)
        (fun hs => hs.2.1 hty) fun hc => ?_
      have h1 := hc.2.2.1
      rcases h.ahead with heq | hall
      · rw [heq] at hlt
        omega
      · have := (hall flp (by simp) hown).2 hty
        omega
    | swallowAt heq hend hty =>
      exact h.swallow hown hflp (Int.le_of_eq heq) hend hty hpost (by simp) (by simp) rfl
    | swallow hlt hend hty =>
      exact h.swallow hown hflp (Int.le_of_lt hlt) hend hty hpost (by simp) (by simp) rfl
    | cut hty hlt hmeet hend =>
      rw [htype] at hty
      have hnd : ¬ Dropped ld₀ flp := fun hd => hty (hd.2 (by omega))
      refine h.next hpost (by simp) (by simp [hnd]) (.inl rfl)
        (fun hs => ?_) fun hc => hty hc.2.1.symm
      have := hs.2.2
      omega
    | splitStart hty heq hmeet hend =>
      rw [htype] at hty
      have hge := h.flp_start hown (Int.le_of_eq heq)
      have htouch : Touched ld₀ flp :=
        touched_of_covers hown ⟨Int.le_refl _, hflp⟩ ⟨hge, by omega⟩
      refine h.split t hwf hld₀ ⟨htouch, hty, by omega⟩
        (h.rest_untouched hown (by omega) fun _ => by omega) hpost ?_
      refine ⟨fun hreg => by (cases hreg), fun hnd => absurd ⟨htouch, ?_⟩ hnd⟩
      exact fun hcontra => absurd hcontra (by omega)
    | splitMiddle hty hlt hend =>
      rw [htype] at hty
      have htouch : Touched ld₀ flp :=
        touched_of_covers hown ⟨by omega, by omega⟩ (⟨Int.le_refl _, hld₀⟩ : ld₀.Covers ld₀.lStart)
      refine h.split (p := a.insrtp) t hwf hld₀ ⟨htouch, hty, by omega⟩
        (h.rest_untouched hown (by omega) fun _ => by omega) hpost ?_
      exact ⟨fun _ hd => hty (hd.2 (by omega)), fun _ => rfl⟩
    | splitBefore hty hlt hmeet hend =>
      rw [htype] at hty
      have hge := h.flp_start hown (Int.le_of_lt hlt)
      have htouch : Touched ld₀ flp :=
        touched_of_covers hown ⟨Int.le_refl _, hflp⟩ ⟨hge, by omega⟩
      refine h.split (p := a.insrtp) t hwf hld₀ ⟨htouch, hty, by omega⟩
        (h.rest_untouched hown (by omega) fun _ => by omega) hpost ?_
      refine ⟨fun hreg => by (cases hreg), fun hnd => absurd ⟨htouch, ?_⟩ hnd⟩
      exact fun hcontra => absurd hcontra (by omega)

/-- The whole loop, by induction on the locks still to be visited. -/
theorem Tally.run (t : Tune) (hwf : WellFormed lst₀)
    (hld₀ : ld₀.lStart ≤ ld₀.lEnd) {todo : List Filock} {a : Adj} (h : Tally lst₀ ld₀ k₀ todo a) :
    TallyPost t lst₀ ld₀ k₀ [] (flckadjLoop t todo a) := by
  induction todo generalizing a with
  | nil =>
    have hnone : ∀ f ∈ lst₀, ¬ (Splits ld₀ f ∨ Contains ld₀ f) :=
      fun f hf hboth => not_mem_nil (h.pending f hf hboth)
    have hzero : splits ld₀ lst₀ = 0 := by
      refine if_neg ?_
      rintro ⟨f, hf, hs⟩
      exact hnone f hf (.inl hs)
    refine ⟨((h.inv.run t hld₀).1 : Settled lst₀ ld₀ k₀ a), ?_, ?_, ?_,
      fun f hf hc => hnone f hf (.inr hc)⟩
    · rw [h.zallocs, hzero, Nat.add_zero]
    · have hrec := h.reccnt
      simp only [drops, countP_nil] at hrec ⊢
      omega
    · rintro ⟨f, hf, hs⟩
      exact absurd (.inl hs) (hnone f hf)
  | cons flp rest ih =>
    have hstep := h.step t hwf hld₀
    unfold flckadjLoop
    cases hr : flckadjStep t flp a with
    | next a' =>
      rw [hr] at hstep
      exact ih hstep
    | stop a' =>
      rw [hr] at hstep
      exact hstep
    | ret r a' =>
      rw [hr] at hstep
      cases r with
      | none => exact hstep
      | some e => exact hstep

theorem visited_suffix (lst : List Filock) (insrtp : Option Nat) : visited lst insrtp <:+ lst := by
  cases insrtp with
  | none => exact suffix_refl _
  | some p => exact dropWhile_suffix _

theorem StartOk.drops_visited (hwf : WellFormed lst₀) (hstart : StartOk lst₀ insrtp ld₀ k₀) :
    drops ld₀ lst₀ = drops ld₀ (visited lst₀ insrtp) := by
  rcases visited_suffix lst₀ insrtp with ⟨pre, hpre⟩
  have hzero : drops ld₀ pre = 0 := by
    refine drops_eq_zero fun f hf htouch => ?_
    have hmem : f ∈ lst₀ := by
      rw [← hpre]
      exact mem_append_left _ hf
    rcases hstart.behind f hmem htouch.1 with hv | hb
    · have hnodup := hwf.nodup
      rw [← hpre, map_append, nodup_append] at hnodup
      exact hnodup.2.2 f.addr (mem_map_of_mem hf) f.addr (mem_map_of_mem hv) rfl
    · exact htouch.2 (.inl hb)
  calc drops ld₀ lst₀ = drops ld₀ (pre ++ visited lst₀ insrtp) := by rw [hpre]
    _ = drops ld₀ pre + drops ld₀ (visited lst₀ insrtp) := countP_append
    _ = drops ld₀ (visited lst₀ insrtp) := by rw [hzero, Nat.zero_add]

theorem StartOk.tally (hwf : WellFormed lst₀) (haddrs : ∀ f ∈ lst₀, f.addr < k₀.zallocs)
    (hld : ld₀.InRange) (hstart : StartOk lst₀ insrtp ld₀ k₀) :
    Tally lst₀ ld₀ k₀ (visited lst₀ insrtp)
      { lst := lst₀, insrtp := insrtp, ld := ld₀, k := k₀ } where
  inv := hstart.loopInv hwf haddrs hld
  sub := fun g hg => (visited_sublist lst₀ insrtp).subset hg
  zallocs := rfl
  reccnt := by rw [hstart.drops_visited hwf]
  ahead := .inl rfl
  pending := by
    intro f hf hboth
    have htouch : Touched ld₀ f := by
      rcases hboth with hs | hc
      · exact hs.1
      · exact hc.touched hld.start_le_end
    rcases hstart.behind f hf htouch.1 with hmem | hb
    · exact hmem
    · exact absurd (.inl hb) htouch.2

theorem Final.insert (hwf : WellFormed lst₀) (hld₀ : ld₀.lStart ≤ ld₀.lEnd)
    (h : Final t lst₀ ld₀ k₀ a) :
    ((flckadjInsert t a).1 = some .enolck → Unchanged lst₀ (flckadjInsert t a).2.lst ld₀.owner) ↔
      HasRoom t k₀ ld₀ lst₀ := by
  have hroomIff : InsertRoom t k₀ ld₀ lst₀ ↔
      ld₀.lType = .unlck ∨ Room t a.k.reccnt a.k.zallocs := by
    unfold InsertRoom
    rw [h.reccnt, h.zallocs]
  have hfails : (∃ f ∈ lst₀, Splits ld₀ f) → ¬ ¬ SplitRoom t k₀ ld₀ lst₀ :=
    fun hs hno => hno (h.room hs)
  unfold flckadjInsert
  rw [h.settled.kept.type_eq]
  by_cases hun : ld₀.lType = .unlck
  · rw [if_neg (by simpa using hun)]
    have hroom : HasRoom t k₀ ld₀ lst₀ :=
      .inr (.inr (.inr ⟨h.room, .inl hun⟩))
    exact ⟨fun _ => hroom, fun _ hcontra => by cases hcontra⟩
  · rw [if_pos hun]
    by_cases hr : Room t a.k.reccnt a.k.zallocs
    · rw [insflck_of_room hr]
      have hroom : HasRoom t k₀ ld₀ lst₀ :=
        .inr (.inr (.inr ⟨h.room, hroomIff.mpr (.inr hr)⟩))
      exact ⟨fun _ => hroom, fun _ hcontra => by cases hcontra⟩
    · rcases insflck_of_no_room hr a.lst a.ld a.place with ⟨n, heq⟩
      rw [heq]
      have hiff := h.settled.unchanged_iff hwf hld₀
      constructor
      · intro hsame
        exact .inl (hiff.mp (hsame rfl))
      · rintro (hnone | ⟨f, hf, hc⟩ | ⟨hs, hno, _⟩ | ⟨_, hroom⟩) _
        · exact hiff.mpr hnone
        · exact absurd hc (h.free f hf)
        · exact absurd hno (hfails hs)
        · rcases hroomIff.mp hroom with hun' | hr'
          · exact absurd hun' hun
          · exact absurd hr' hr

/-- `flckadj` keeps the owner's map on failure exactly when it has room. -/
theorem flckadj_unchanged_iff (t : Tune) (hwf : WellFormed lst₀)
    (haddrs : ∀ f ∈ lst₀, f.addr < k₀.zallocs) (hld : ld₀.InRange)
    (hstart : StartOk lst₀ insrtp ld₀ k₀) : ((flckadj t lst₀ insrtp ld₀ k₀).1 = some .enolck →
        Unchanged lst₀ (flckadj t lst₀ insrtp ld₀ k₀).2.lst ld₀.owner) ↔ HasRoom t k₀ ld₀ lst₀ := by
  have hrun := (hstart.tally hwf haddrs hld).run t hwf hld.start_le_end
  have hends := ((hstart.loopInv hwf haddrs hld).run t hld.start_le_end).2
  cases hr : flckadjLoop t (visited lst₀ insrtp)
      { lst := lst₀, insrtp := insrtp, ld := ld₀, k := k₀ } with
  | next a => exact absurd hr (hends a)
  | stop a =>
    rw [hr] at hrun
    have hfinal : Final t lst₀ ld₀ k₀ a := hrun
    rw [flckadj_of_stop hr]
    exact hfinal.insert hwf hld.start_le_end
  | ret r a =>
    rw [hr] at hrun
    rw [flckadj_of_ret hr]
    cases r with
    | none =>
      have hin : ∃ f ∈ lst₀, Contains ld₀ f := hrun
      exact ⟨fun _ => .inr (.inl hin), fun _ hcontra => by cases hcontra⟩
    | some e =>
      have hfailed : e = .enolck ∧ SplitFailed t lst₀ ld₀ k₀ a := hrun
      rcases hfailed with ⟨rfl, hex, hfree, hno, hiff⟩
      constructor
      · intro hsame
        exact .inr (.inr (.inl ⟨hex, hno, hiff.mp (hsame rfl)⟩))
      · rintro (hnone | ⟨f, hf, hc⟩ | ⟨_, _, hall⟩ | ⟨hroom, _⟩) _
        · rcases hex with ⟨f, hf, hs⟩
          exact absurd hs.1 (hnone f hf)
        · exact absurd hc (hfree f hf)
        · exact hiff.mpr hall
        · exact absurd (hroom hex) hno

end Tally

/-!
## Failed requests
-/

theorem unchanged_iff_lockAt {lst lst' : List Filock} (hwf : WellFormed lst)
    (hwf' : WellFormed lst') {o : Owner}
    (hothers : ∀ o', o' ≠ o → ∀ x ty, Holds lst' o' x ty ↔ Holds lst o' x ty) :
    Unchanged lst lst' o ↔ ∀ o' x, lockAt lst' o' x = lockAt lst o' x := by
  constructor
  · intro hsame o' x
    by_cases ho : o' = o
    · subst ho
      exact lockAt_congr hwf hwf' (hsame x)
    · exact lockAt_congr hwf hwf' (hothers o' ho x)
  · intro hsame x ty
    rw [← lockAt_eq_some hwf', ← lockAt_eq_some hwf, hsame o x]

/--
A request that finds no record leaves all lock maps alone exactly when, in case
it comes to editing the list, it has room in the sense of `HasRoom`.
-/
theorem reclock_enolck_unchanged_iff {t : Tune} {s : Sys} (hs : s.Reachable t)
    {e : Event} {en : Entry} {vp : Nat} {o : Owner} {r : Retval} {ret : Flock}
    {lst : List Filock} {k : Kern} (hentry : s.entry e = some en)
    (hpass : s.pass t e = some (vp, o, .done r ret lst k)) :
    (r = some .enolck → ∀ o' x, lockAt lst o' x = lockAt (s.filocks en.vp) o' x) ↔
      (en.cmd.setflck = true → Granted en.renv en.lckdat (s.filocks en.vp) →
        HasRoom t en.k en.lckdat (s.filocks en.vp)) := by
  have hok := hs.listsOk
  rcases Sys.pass_done hentry hpass with ⟨_, ld', hrun⟩
  rcases hok.entry hentry with ⟨hld, hz, _⟩
  have hlist := hok.lists en.vp
  rw [← hz] at hlist
  have hcase := reclockPass_cases t en.renv en.cmd en.k hlist.wf hld
  rw [hrun] at hcase
  have hkept : ∀ {r' : Retval} {lst' : List Filock}, lst' = s.filocks en.vp →
      (¬ Granted en.renv en.lckdat (s.filocks en.vp) ∨ en.cmd.setflck = false) →
      ((r' = some .enolck → ∀ o' x, lockAt lst' o' x = lockAt (s.filocks en.vp) o' x) ↔
        (en.cmd.setflck = true → Granted en.renv en.lckdat (s.filocks en.vp) →
          HasRoom t en.k en.lckdat (s.filocks en.vp))) := by
    rintro r' lst' rfl hno
    refine ⟨fun _ hset hgrant => ?_, fun _ _ _ _ => rfl⟩
    rcases hno with hdeny | hunset
    · exact absurd hgrant hdeny
    · rw [hunset] at hset
      cases hset
  generalize hp : Pass.done r ld' lst k = p at hcase
  cases hcase with
  | adjust insrt k'' ra hset hstart hgrant hr hclean =>
    have hpost := flckadj_spec t hlist.wf hlist.addrs hld hgrant.type_ne_bad hstart
    have hiff := flckadj_unchanged_iff t hlist.wf hlist.addrs hld hstart
    rw [hr] at hpost hiff
    cases hp
    rw [unchanged_iff_lockAt hlist.wf hpost.1.wf fun o' ho' => hpost.1.holds_others ho'] at hiff
    rw [hiff]
    exact ⟨fun h _ _ => h, fun h => h hset hgrant⟩
  | report ld'' k'' hset hown hclean =>
    cases hp
    exact hkept rfl (.inr hset)
  | query found hslp hset =>
    cases hp
    exact hkept rfl (.inr hset)
  | refused err he hdeny =>
    cases hp
    exact hkept rfl (.inl hdeny)
  | deadlock found hfound hcon hslp hdeny hdead =>
    cases hp
    exact hkept rfl (.inl hdeny)
  | hangs found hslp hdead => cases hp
  | recorded found hrcmd hdeny =>
    cases hp
    exact hkept rfl (.inl hdeny)
  | remote found sf k'' hrcmd hdeny hdead hins =>
    cases hp
    exact hkept rfl (.inl hdeny)
  | noRecord found k'' hdeny hins =>
    cases hp
    exact hkept rfl (.inl hdeny)
  | sleeps found sf k'' hfound hmem hcon hslp hrcmd hdead hins => cases hp

/--
With a table of one record, process 1 holds a write lock on the bytes 0 to 9
and asks for a read lock on the bytes 5 to 14.
-/
theorem reclock_enolck_unchanged_iff_full :
    ¬ HasRoom (.records 1) ⟨1, 1, 1, [], []⟩ ⟨.rdlck, 0, 5, 14, 0, 1⟩
      [⟨0, ⟨.wrlck, 0, 0, 9, 0, 1⟩, ⟨0, 0⟩⟩] := by
  let q : Request := .fcntl .rdlck 5 10 false
  have hentry : (Sys.after (.records 1) oneLock).entry (.call ⟨1, 0⟩ q) =
      some ⟨0, some ⟨1, 0⟩, ⟨.rdlck, 0, 5, 14, 0, 1⟩, q.cmd, q.renv, ⟨1, 1, 1, [], []⟩⟩ := by decide
  have hpass : (Sys.after (.records 1) oneLock).pass (.records 1) (.call ⟨1, 0⟩ q) =
        some (0, ⟨1, 0⟩, .done (some .enolck) ⟨.rdlck, 0, 5, 10, 0, 1⟩
          [⟨0, ⟨.wrlck, 0, 0, 4, 0, 1⟩, ⟨0, 0⟩⟩] ⟨1, 1, 1, [], []⟩) := by decide
  have hiff := reclock_enolck_unchanged_iff (Sys.after_reachable _ oneLock) hentry hpass
  intro hroom
  have hsame := hiff.mpr (fun _ _ => hroom) rfl ⟨1, 0⟩ 7
  revert hsame
  decide

/-- Such a request returns `ENOLCK`, and the bytes 5 to 9 are unlocked. -/
theorem reclock_enolck_loses_lock :
    ¬ ∀ (t : Tune) (s : Sys), s.Reachable t → ∀ (e : Event) (en : Entry)
      (vp : Nat) (o : Owner) (r : Retval) (ret : Flock) (lst : List Filock)
      (k : Kern), s.entry e = some en → s.pass t e = some (vp, o, .done r ret lst k) →
          r = some .enolck → ∀ o' x, lockAt lst o' x = lockAt (s.filocks en.vp) o' x := by
  intro hall
  let q : Request := .fcntl .rdlck 5 10 false
  have hsame := hall (.records 1) (Sys.after (.records 1) oneLock)
    (Sys.after_reachable _ oneLock) (.call ⟨1, 0⟩ q)
    ⟨0, some ⟨1, 0⟩, ⟨.rdlck, 0, 5, 14, 0, 1⟩, q.cmd, q.renv, ⟨1, 1, 1, [], []⟩⟩
    0 ⟨1, 0⟩ (some .enolck) ⟨.rdlck, 0, 5, 10, 0, 1⟩
    [⟨0, ⟨.wrlck, 0, 0, 4, 0, 1⟩, ⟨0, 0⟩⟩] ⟨1, 1, 1, [], []⟩ (by decide)
    (by decide) rfl ⟨1, 0⟩ 7
  revert hsame
  decide

end RecordLock
end Svr4
