import Mathlib.Algebra.Order.BigOperators.Group.Finset
import Mathlib.Data.Fintype.BigOperators
import Mathlib.Tactic.Ring
import Svr4.Lib.Transition

/-!
# Locks on pages

The routines of `vm/vm_page.c` that lock pages in memory, and the part of
`page_abort` that drops the locks. They keep two counts in each page and three counters.
-/

namespace Svr4
namespace PageLock

open Function Transition Finset

variable {ι : Type}

structure Page where
  pLckcnt : BitVec 16
  pCowcnt : BitVec 16

structure Kernel (ι : Type) where
  page : ι → Page
  availrmem : Int
  pagesPpLocked : BitVec 32
  pagesPpKernel : BitVec 32

def PAGE_LOCK_MAXIMUM : BitVec 16 := 65535

/-- Another lock is counted, unless the page is locked permanently. -/
def another (c : BitVec 16) : BitVec 16 := if c < PAGE_LOCK_MAXIMUM then c + 1 else c

namespace Kernel

/-- `(availrmem - 1) >= pages_pp_maximum`, a comparison of unsigned numbers. -/
def Room (pagesPpMaximum : BitVec 32) (k : Kernel ι) : Prop :=
  pagesPpMaximum ≤ BitVec.ofInt 32 (k.availrmem - 1)

instance (m : BitVec 32) (k : Kernel ι) : Decidable (k.Room m) :=
  inferInstanceAs (Decidable (_ ≤ _))

def reserve (k : Kernel ι) : Kernel ι :=
  { k with availrmem := k.availrmem - 1, pagesPpLocked := k.pagesPpLocked + 1 }

def release (k : Kernel ι) : Kernel ι :=
  { k with availrmem := k.availrmem + 1, pagesPpLocked := k.pagesPpLocked - 1 }

variable [DecidableEq ι]

def setPage (k : Kernel ι) (pp : ι) (x : Page) : Kernel ι := { k with page := update k.page pp x }

def pagePpLock (pagesPpMaximum : BitVec 32) (k : Kernel ι) (pp : ι) (cow kernel : Bool) :
    Kernel ι × Bool :=
  let x := k.page pp
  if cow then
    if k.Room pagesPpMaximum then
      (k.reserve.setPage pp { x with pCowcnt := another x.pCowcnt }, true)
    else (k, false)
  else if x.pLckcnt ≠ 0#16 then (k.setPage pp { x with pLckcnt := another x.pLckcnt }, true)
  else
    let x := { x with pLckcnt := x.pLckcnt + 1 }
    if kernel then ({ k with pagesPpKernel := k.pagesPpKernel + 1 }.setPage pp x, true)
    else if k.Room pagesPpMaximum then (k.reserve.setPage pp x, true)
    else (k, false)

def pagePpUnlock (k : Kernel ι) (pp : ι) (cow kernel : Bool) : Kernel ι :=
  let x := k.page pp
  if cow then k.release.setPage pp { x with pCowcnt := x.pCowcnt - 1 }
  else
    let x := { x with pLckcnt := x.pLckcnt - 1 }
    if x.pLckcnt ≠ 0#16 then k.setPage pp x
    else if kernel then { k with pagesPpKernel := k.pagesPpKernel - 1 }.setPage pp x
    else k.release.setPage pp x

def pagePpUseclaim (k : Kernel ι) (opp npp : ι) : Kernel ι :=
  let k := k.setPage opp { k.page opp with pCowcnt := (k.page opp).pCowcnt - 1 }
  k.setPage npp { k.page npp with pCowcnt := (k.page npp).pCowcnt + 1 }

def pageAddclaim (pagesPpMaximum : BitVec 32) (k : Kernel ι) (pp : ι) : Kernel ι × Bool :=
  let x := { k.page pp with pLckcnt := (k.page pp).pLckcnt - 1 }
  if x.pLckcnt = 0#16 then (k.setPage pp { x with pCowcnt := x.pCowcnt + 1 }, true)
  else if k.Room pagesPpMaximum then
    (k.reserve.setPage pp { x with pCowcnt := another x.pCowcnt }, true)
  else (k.setPage pp { x with pLckcnt := x.pLckcnt + 1 }, false)

def pageSubclaim (k : Kernel ι) (pp : ι) : Kernel ι :=
  let x := { k.page pp with pCowcnt := (k.page pp).pCowcnt - 1 }
  let k := if x.pLckcnt ≠ 0#16 then k.release else k
  k.setPage pp { x with pLckcnt := x.pLckcnt + 1 }

/-- `page_abort`; other routines set `p_keepcnt` and `p_intrans`. -/
def pageAbort (k : Kernel ι) (pp : ι) (keepcnt : Nat) (intrans : Bool) : Kernel ι :=
  if keepcnt ≠ 0 ∨ intrans = true then k
  else
    let x := k.page pp
    let k := if x.pLckcnt ≠ 0#16 then k.release else k
    { k with
      availrmem := k.availrmem + x.pCowcnt.toNat
      pagesPpLocked := k.pagesPpLocked - x.pCowcnt.setWidth 32 }.setPage pp ⟨0, 0⟩

end Kernel

/-!
## Runs

The locks that are held are recorded beside the counters.
-/

/-- The locks on a page; `plain` are those that are not cow locks, by `kernel`, and
`first` is the `kernel` of the one that was counted. -/
structure Locks where
  cow : Nat
  plain : Bool → Nat
  first : Bool

structure System (ι : Type) extends Kernel ι where
  held : ι → Locks

inductive Event (ι : Type) where
  | lock (pp : ι) (cow kernel : Bool)
  | unlock (pp : ι) (cow kernel : Bool)
  | useclaim (opp npp : ι)
  /-- A plain lock becomes a cow lock. -/
  | addclaim (pp : ι) (kernel : Bool)
  /-- A cow lock becomes a user's lock. -/
  | subclaim (pp : ι)
  | abort (pp : ι) (keepcnt : Nat) (intrans : Bool)

namespace Locks

def addCow (h : Locks) : Locks := { h with cow := h.cow + 1 }

def subCow (h : Locks) : Locks := { h with cow := h.cow - 1 }

/-- Another plain lock on a page where `p_lckcnt` was `c`. -/
def addPlain (h : Locks) (c : BitVec 16) (kernel : Bool) : Locks :=
  { h with
    plain := update h.plain kernel (h.plain kernel + 1)
    first := if c = 0#16 then kernel else h.first }

def subPlain (h : Locks) (kernel : Bool) : Locks :=
  { h with plain := update h.plain kernel (h.plain kernel - 1) }

def None (h : Locks) : Prop := h.cow = 0 ∧ ∀ kernel, h.plain kernel = 0

theorem addPlain_count (h : Locks) (c : BitVec 16) (kernel : Bool) :
    (h.addPlain c kernel).plain true + (h.addPlain c kernel).plain false =
      h.plain true + h.plain false + 1 := by
  cases kernel <;> simp [addPlain] <;> omega

theorem subPlain_count {h : Locks} {kernel : Bool} (hpos : 0 < h.plain kernel) :
    (h.subPlain kernel).plain true + (h.subPlain kernel).plain false + 1 =
      h.plain true + h.plain false := by
  cases kernel <;> simp [subPlain] <;> omega

end Locks

namespace System

/-- What is unlocked, or changed to another lock, is locked. -/
def Matched (s : System ι) : Event ι → Prop
  | .lock .. | .abort .. => True
  | .unlock pp cow kernel =>
    if cow then 0 < (s.held pp).cow else 0 < (s.held pp).plain kernel
  | .useclaim pp _ | .subclaim pp => 0 < (s.held pp).cow
  | .addclaim pp kernel => 0 < (s.held pp).plain kernel

variable [DecidableEq ι]

def setHeld (s : System ι) (k : Kernel ι) (pp : ι) (h : Locks) : System ι :=
  ⟨k, update s.held pp h⟩

def next (m : BitVec 32) (s : System ι) : Event ι → System ι
  | .lock pp cow kernel =>
    let (k, ok) := s.pagePpLock m pp cow kernel
    let h := s.held pp
    s.setHeld k pp
      (if !ok then h else if cow then h.addCow else h.addPlain (s.page pp).pLckcnt kernel)
  | .unlock pp cow kernel =>
    s.setHeld (s.pagePpUnlock pp cow kernel) pp
      (if cow then (s.held pp).subCow else (s.held pp).subPlain kernel)
  | .useclaim opp npp =>
    let held := update s.held opp (s.held opp).subCow
    ⟨s.pagePpUseclaim opp npp, update held npp (held npp).addCow⟩
  | .addclaim pp kernel =>
    let (k, ok) := s.pageAddclaim m pp
    s.setHeld k pp (if ok then ((s.held pp).subPlain kernel).addCow else s.held pp)
  | .subclaim pp =>
    s.setHeld (s.pageSubclaim pp) pp ((s.held pp).subCow.addPlain (s.page pp).pLckcnt false)
  | .abort pp keepcnt intrans =>
    s.setHeld (s.pageAbort pp keepcnt intrans) pp
      (if keepcnt ≠ 0 ∨ intrans = true then s.held pp else ⟨0, fun _ => 0, false⟩)

def Step (m : BitVec 32) (s : System ι) (e : Event ι) (t : System ι) : Prop :=
  s.Matched e ∧ t = s.next m e

/-- Nothing is locked; `availrmem` and the number of pages are in the range of an `int`. -/
structure Start [Fintype ι] (avail : Int) (s : System ι) : Prop where
  pages : Fintype.card ι < 2 ^ 31
  range : 0 ≤ avail ∧ avail < 2 ^ 31
  page : ∀ pp, s.page pp = ⟨0, 0⟩
  held : ∀ pp, (s.held pp).None
  availrmem : s.availrmem = avail
  locked : s.pagesPpLocked = 0
  kernel : s.pagesPpKernel = 0

/-- The count of cow locks has room for one that is granted, and `availrmem` is positive. -/
def CowFits (m : BitVec 32) (s : System ι) (pp : ι) : Prop :=
  s.Room m → 0 < s.availrmem ∧ (s.page pp).pCowcnt ≠ PAGE_LOCK_MAXIMUM

/-- No count is at its maximum, `availrmem` is positive where it is compared, and the last
plain lock on a page has the kind of the one that was counted. -/
def Sound (m : BitVec 32) (s : System ι) : Event ι → Prop
  | .lock pp cow kernel =>
    if cow then s.CowFits m pp
    else (s.page pp).pLckcnt ≠ PAGE_LOCK_MAXIMUM ∧
      ((s.page pp).pLckcnt = 0#16 → kernel = false → s.Room m → 0 < s.availrmem)
  | .unlock pp cow kernel =>
    cow = false → (s.page pp).pLckcnt = 1#16 → (s.held pp).first = kernel
  | .useclaim opp npp => opp = npp ∨ (s.page npp).pCowcnt ≠ PAGE_LOCK_MAXIMUM
  | .addclaim pp _ =>
    if (s.page pp).pLckcnt = 1#16 then
      (s.held pp).first = false ∧ (s.page pp).pCowcnt ≠ PAGE_LOCK_MAXIMUM
    else s.CowFits m pp
  | .subclaim pp => (s.page pp).pLckcnt ≠ PAGE_LOCK_MAXIMUM
  | .abort pp keepcnt intrans =>
    keepcnt = 0 → intrans = false → (s.page pp).pLckcnt ≠ 0#16 → (s.held pp).first = false

/-!
## Accounting
-/

structure Accounted [Fintype ι] (avail : Int) (s : System ι) : Prop where
  total : s.availrmem + s.pagesPpLocked.toNat = avail
  sum : s.pagesPpLocked.toNat + s.pagesPpKernel.toNat =
    (∑ pp, (s.page pp).pCowcnt.toNat) + (Finset.univ.filter fun pp => (s.page pp).pLckcnt ≠ 0#16).card
  counts : ∀ pp, (s.page pp).pCowcnt.toNat = (s.held pp).cow ∧
    (s.page pp).pLckcnt.toNat = (s.held pp).plain true + (s.held pp).plain false
  nonneg : 0 ≤ s.availrmem
  released : (∀ pp, (s.held pp).None) →
    s.availrmem = avail ∧ s.pagesPpLocked = 0 ∧ s.pagesPpKernel = 0

/-- One for a page with plain locks that are counted as `b` says. -/
def share (c : BitVec 16) (b : Bool) : Nat := if c = 0#16 then 0 else b.toNat

theorem share_zero (b : Bool) : share 0#16 b = 0 := rfl

theorem share_of_ne {c : BitVec 16} (hc : c ≠ 0#16) (b : Bool) : share c b = b.toNat := if_neg hc

def lockedShare (x : Page) (h : Locks) : Nat := x.pCowcnt.toNat + share x.pLckcnt !h.first

def kernelShare (x : Page) (h : Locks) : Nat := share x.pLckcnt h.first

/-- The ledger with `slack` pages that are reserved for no lock. -/
structure Balanced [Fintype ι] (avail : Int) (slack : Nat) (s : System ι) : Prop where
  total : s.availrmem + s.pagesPpLocked.toNat = avail
  nonneg : 0 ≤ s.availrmem
  counts : ∀ pp, (s.page pp).pCowcnt.toNat = (s.held pp).cow ∧
    (s.page pp).pLckcnt.toNat = (s.held pp).plain true + (s.held pp).plain false
  locked : s.pagesPpLocked.toNat = (∑ pp, lockedShare (s.page pp) (s.held pp)) + slack
  kernel : s.pagesPpKernel.toNat = ∑ pp, kernelShare (s.page pp) (s.held pp)

section Moves

variable [Fintype ι] {avail : Int} {slack slack' : Nat} {s : System ι} {k : Kernel ι} {pp : ι}
  {x : Page} {h : Locks} {d e : Int}

variable (pp) in
omit [DecidableEq ι] in
theorem sum_change {f g : ι → Nat} (hother : ∀ q, q ≠ pp → g q = f q) (hpp : (g pp : Int) = f pp + d) :
    ((∑ q, g q : Nat) : Int) = (∑ q, f q : Nat) + d := by
  classical
  have hrest : ∑ q ∈ Finset.univ.erase pp, g q = ∑ q ∈ Finset.univ.erase pp, f q :=
    sum_congr rfl fun q hq => hother q (ne_of_mem_erase hq)
  have hf := add_sum_erase Finset.univ f (mem_univ pp)
  have hg := add_sum_erase Finset.univ g (mem_univ pp)
  omega

omit [DecidableEq ι] in
theorem sum_kernelShare_le (f : ι → Page) (g : ι → Locks) :
    ∑ q, kernelShare (f q) (g q) ≤ Fintype.card ι := by
  refine (sum_le_card_nsmul _ _ 1 fun q _ => ?_).trans (by simp)
  unfold kernelShare share
  split
  · exact Nat.zero_le 1
  · exact Bool.toNat_le _

theorem Balanced.move (hs : Balanced avail slack s) (hpages : Fintype.card ι < 2 ^ 31)
    (havail : avail < 2 ^ 31) (hpage : k.page = update s.page pp x)
    (hcounts : x.pCowcnt.toNat = h.cow ∧ x.pLckcnt.toNat = h.plain true + h.plain false)
    (hrmem : k.availrmem = s.availrmem - d) (hroom : d ≤ s.availrmem)
    (hlocked : (k.pagesPpLocked.toNat : Int) = (s.pagesPpLocked.toNat + d) % 4294967296)
    (hshare : (lockedShare x h : Int) + slack' = lockedShare (s.page pp) (s.held pp) + slack + d)
    (hkernel : (k.pagesPpKernel.toNat : Int) = (s.pagesPpKernel.toNat + e) % 4294967296)
    (hkshare : (kernelShare x h : Int) = kernelShare (s.page pp) (s.held pp) + e) :
    Balanced avail slack' (s.setHeld k pp h) := by
  have hsum := sum_change pp (f := fun q => lockedShare (s.page q) (s.held q))
    (g := fun q => lockedShare (k.page q) (update s.held pp h q)) (d := d + slack - slack')
    (fun q hq => by rw [hpage, update_of_ne hq, update_of_ne hq])
    (by rw [hpage, update_self, update_self]; omega)
  have hksum := sum_change pp (f := fun q => kernelShare (s.page q) (s.held q))
    (g := fun q => kernelShare (k.page q) (update s.held pp h q)) (d := e)
    (fun q hq => by rw [hpage, update_of_ne hq, update_of_ne hq])
    (by rw [hpage, update_self, update_self]; exact hkshare)
  have hle := sum_kernelShare_le k.page (update s.held pp h)
  rcases hs with ⟨htotal, hnonneg, hcnt, hl, hk⟩
  constructor
  · show k.availrmem + k.pagesPpLocked.toNat = avail
    omega
  · show 0 ≤ k.availrmem
    omega
  · intro q
    show (k.page q).pCowcnt.toNat = (update s.held pp h q).cow ∧ _
    by_cases hq : q = pp
    · subst hq
      simp only [setHeld, hpage, update_self]
      exact hcounts
    · simp only [setHeld, hpage, update_of_ne hq]
      exact hcnt q
  · have hgoal : (k.pagesPpLocked.toNat : Int) =
        (∑ q, lockedShare (k.page q) (update s.held pp h q) : Nat) + slack' := by omega
    exact_mod_cast hgoal
  · have hgoal : (k.pagesPpKernel.toNat : Int) =
        (∑ q, kernelShare (k.page q) (update s.held pp h q) : Nat) := by omega
    exact_mod_cast hgoal

omit [DecidableEq ι] [Fintype ι] in
theorem toNat_same (c : BitVec 32) : (c.toNat : Int) = (c.toNat + 0) % 4294967296 := by
  omega

omit [DecidableEq ι] [Fintype ι] in
theorem toNat_add_one {c : BitVec 16} (hc : c ≠ PAGE_LOCK_MAXIMUM) :
    (c + 1).toNat = c.toNat + 1 := by
  unfold PAGE_LOCK_MAXIMUM at hc
  bv_omega

omit [DecidableEq ι] [Fintype ι] in
theorem toNat_another {c : BitVec 16} (hc : c ≠ PAGE_LOCK_MAXIMUM) :
    (another c).toNat = c.toNat + 1 := by
  have hlt : c < PAGE_LOCK_MAXIMUM := by
    unfold PAGE_LOCK_MAXIMUM at hc ⊢
    bv_omega
  rw [another, if_pos hlt, toNat_add_one hc]

omit [DecidableEq ι] [Fintype ι] in
theorem toNat_sub_one {c : BitVec 16} (hc : c.toNat ≠ 0) : (c - 1).toNat = c.toNat - 1 := by
  bv_omega

omit [DecidableEq ι] [Fintype ι] in
theorem ne_zero_of_toNat {c : BitVec 16} {n : Nat} (hc : c.toNat = n + 1) : c ≠ 0#16 := by
  rintro rfl
  cases hc

variable (hs : Balanced avail slack s) (hpages : Fintype.card ι < 2 ^ 31) (havail : avail < 2 ^ 31)
  (hcounts : x.pCowcnt.toNat = h.cow ∧ x.pLckcnt.toNat = h.plain true + h.plain false)
include hs hpages havail hcounts

theorem Balanced.keep (hkshare : kernelShare x h = kernelShare (s.page pp) (s.held pp))
    (hshare : lockedShare x h + slack' = lockedShare (s.page pp) (s.held pp) + slack) :
    Balanced avail slack' (s.setHeld (s.setPage pp x) pp h) := by
  exact hs.move hpages havail rfl hcounts (Int.sub_zero _).symm hs.nonneg (toNat_same _) (by omega)
    (toNat_same _) (by omega)

theorem Balanced.reserve (hpos : 0 < s.availrmem)
    (hkshare : kernelShare x h = kernelShare (s.page pp) (s.held pp))
    (hshare : lockedShare x h + slack' = lockedShare (s.page pp) (s.held pp) + slack + 1) :
    Balanced avail slack' (s.setHeld (s.toKernel.reserve.setPage pp x) pp h) := by
  have hl : ((s.pagesPpLocked + 1).toNat : Int) = (s.pagesPpLocked.toNat + 1) % 4294967296 := by
    bv_omega
  exact hs.move hpages havail rfl hcounts rfl hpos hl (by omega) (toNat_same _) (by omega)

theorem Balanced.release (hkshare : kernelShare x h = kernelShare (s.page pp) (s.held pp))
    (hshare : lockedShare x h + slack' + 1 = lockedShare (s.page pp) (s.held pp) + slack) :
    Balanced avail slack' (s.setHeld (s.toKernel.release.setPage pp x) pp h) := by
  have hl : ((s.pagesPpLocked - 1).toNat : Int) = (s.pagesPpLocked.toNat + -1) % 4294967296 := by
    bv_omega
  have hnonneg := hs.nonneg
  exact hs.move hpages havail rfl hcounts (Int.sub_neg _ 1).symm (by omega) hl (by omega)
    (toNat_same _) (by omega)

omit hcounts hs in
theorem lock_balanced (hs : Balanced avail 0 s) (m : BitVec 32) {cow kernel : Bool}
    (hsound : s.Sound m (.lock pp cow kernel)) :
    Balanced avail 0 (s.next m (.lock pp cow kernel)) := by
  have hself : Balanced avail 0 (s.setHeld s.toKernel pp (s.held pp)) := by
    rw [setHeld, update_eq_self]
    exact hs
  rcases hs.counts pp with ⟨hcow, hplain⟩
  cases cow with
  | true =>
    by_cases hroom : s.Room m
    · rcases hsound hroom with ⟨hpos, hmax⟩
      have hbump := toNat_another hmax
      simp only [next, Kernel.pagePpLock, if_pos hroom, reduceIte, Bool.not_true,
        Bool.false_eq_true]
      refine hs.reserve hpages havail ⟨hbump.trans (congrArg Nat.succ hcow), hplain⟩ hpos rfl ?_
      simp only [lockedShare, hbump, Locks.addCow]
      omega
    · simp only [next, Kernel.pagePpLock, if_neg hroom, reduceIte]
      exact hself
  | false =>
    rcases hsound with ⟨hmax, hpos⟩
    have hbump := toNat_another hmax
    have hcount := (s.held pp).addPlain_count (s.page pp).pLckcnt kernel
    have hcounts : (another (s.page pp).pLckcnt).toNat = _ :=
      hbump.trans ((congrArg Nat.succ hplain).trans hcount.symm)
    have hne := ne_zero_of_toNat hbump
    by_cases hzero : (s.page pp).pLckcnt = 0#16
    · have hone : another (s.page pp).pLckcnt = 0#16 + 1 := by
        rw [hzero]
        rfl
      have hfirst : ((s.held pp).addPlain (s.page pp).pLckcnt kernel).first = kernel :=
        if_pos hzero
      rw [hone] at hcounts hne
      simp only [next, Kernel.pagePpLock, hzero, Bool.false_eq_true, reduceIte, ne_eq,
        not_true_eq_false]
      rw [hzero] at hcounts hfirst
      cases kernel with
      | true =>
        have hk : ((s.pagesPpKernel + 1).toNat : Int) =
            (s.pagesPpKernel.toNat + 1) % 4294967296 := by bv_omega
        refine hs.move hpages havail rfl ⟨hcow, hcounts⟩ (Int.sub_zero _).symm hs.nonneg
          (toNat_same _) ?_ hk ?_
        · simp only [lockedShare, hzero, share_zero, share_of_ne hne, hfirst]
          rfl
        · simp only [kernelShare, hzero, share_zero, share_of_ne hne, hfirst]
          rfl
      | false =>
        by_cases hroom : s.Room m
        · simp only [if_pos hroom, Bool.false_eq_true, reduceIte, Bool.not_true]
          refine hs.reserve hpages havail ⟨hcow, hcounts⟩ (hpos hzero rfl hroom) ?_ ?_
          · simp only [kernelShare, hzero, share_zero, share_of_ne hne, hfirst, Bool.toNat_false]
          · simp only [lockedShare, hzero, share_zero, share_of_ne hne, hfirst, Bool.not_false,
              Bool.toNat_true]
        · simp only [if_neg hroom, Bool.false_eq_true, reduceIte, Bool.not_false]
          exact hself
    · have hfirst : ((s.held pp).addPlain (s.page pp).pLckcnt kernel).first = (s.held pp).first :=
        if_neg hzero
      simp only [next, Kernel.pagePpLock, Bool.false_eq_true, reduceIte, ne_eq, hzero,
        not_false_eq_true, Bool.not_true]
      refine hs.keep hpages havail ⟨hcow, hcounts⟩ ?_ ?_
      · simp only [kernelShare, share_of_ne hzero, share_of_ne hne, hfirst]
      · simp only [lockedShare, share_of_ne hzero, share_of_ne hne, hfirst]

omit hcounts hs in
theorem unlock_balanced (hs : Balanced avail 0 s) (m : BitVec 32) {cow kernel : Bool}
    (hsound : s.Sound m (.unlock pp cow kernel)) (hmatch : s.Matched (.unlock pp cow kernel)) :
    Balanced avail 0 (s.next m (.unlock pp cow kernel)) := by
  rcases hs.counts pp with ⟨hcow, hplain⟩
  cases cow with
  | true =>
    have hpos : 0 < (s.held pp).cow := hmatch
    have hdrop := toNat_sub_one (c := (s.page pp).pCowcnt) (by omega)
    simp only [next, Kernel.pagePpUnlock, reduceIte]
    refine hs.release hpages havail ⟨hdrop.trans (congrArg Nat.pred hcow), hplain⟩ rfl ?_
    simp only [lockedShare, hdrop, Locks.subCow]
    omega
  | false =>
    have hpos : 0 < (s.held pp).plain kernel := hmatch
    have hcount := Locks.subPlain_count hpos
    have hdrop := toNat_sub_one (c := (s.page pp).pLckcnt) (by omega)
    have hcounts : ((s.page pp).pLckcnt - 1).toNat =
        ((s.held pp).subPlain kernel).plain true + ((s.held pp).subPlain kernel).plain false := by
      omega
    have hne : (s.page pp).pLckcnt ≠ 0#16 := ne_zero_of_toNat (hplain.trans hcount.symm)
    simp only [next, Kernel.pagePpUnlock, Bool.false_eq_true, reduceIte]
    by_cases hzero : (s.page pp).pLckcnt - 1 = 0#16
    · have hfirst : (s.held pp).first = kernel := hsound rfl (by bv_omega)
      rw [hzero] at hcounts
      simp only [hzero, ne_eq, not_true_eq_false, reduceIte]
      cases kernel with
      | true =>
        have hk : ((s.pagesPpKernel - 1).toNat : Int) =
            (s.pagesPpKernel.toNat + -1) % 4294967296 := by bv_omega
        refine hs.move hpages havail rfl ⟨hcow, hcounts⟩ (Int.sub_zero _).symm hs.nonneg
          (toNat_same _) ?_ hk ?_
        · simp only [lockedShare, share_zero, share_of_ne hne, hfirst]
          rfl
        · simp only [kernelShare, share_zero, share_of_ne hne, hfirst]
          rfl
      | false =>
        refine hs.release hpages havail ⟨hcow, hcounts⟩ ?_ ?_
        · simp only [kernelShare, share_zero, share_of_ne hne, hfirst]
          rfl
        · simp only [lockedShare, share_zero, share_of_ne hne, hfirst]
          rfl
    · simp only [hzero, ne_eq, not_false_eq_true, reduceIte]
      refine hs.keep hpages havail ⟨hcow, hcounts⟩ ?_ ?_
      · simp only [kernelShare, share_of_ne hzero, share_of_ne hne, Locks.subPlain]
      · simp only [lockedShare, share_of_ne hzero, share_of_ne hne, Locks.subPlain]

omit hcounts hs in
theorem Balanced.subCow (hs : Balanced avail slack s) (hpos : 0 < (s.held pp).cow) :
    Balanced avail (slack + 1) (s.setHeld (s.setPage pp
      { s.page pp with pCowcnt := (s.page pp).pCowcnt - 1 }) pp (s.held pp).subCow) := by
  rcases hs.counts pp with ⟨hcow, hplain⟩
  have hdrop := toNat_sub_one (c := (s.page pp).pCowcnt) (by omega)
  refine hs.keep hpages havail ⟨hdrop.trans (congrArg Nat.pred hcow), hplain⟩ rfl ?_
  simp only [lockedShare, hdrop, Locks.subCow]
  omega

variable (pp) in
omit hcounts hs in
theorem Balanced.addCow (hs : Balanced avail (slack + 1) s)
    (hmax : (s.page pp).pCowcnt ≠ PAGE_LOCK_MAXIMUM) : Balanced avail slack (s.setHeld (s.setPage pp
      { s.page pp with pCowcnt := (s.page pp).pCowcnt + 1 }) pp (s.held pp).addCow) := by
  rcases hs.counts pp with ⟨hcow, hplain⟩
  have hbump := toNat_add_one hmax
  refine hs.keep hpages havail ⟨hbump.trans (congrArg Nat.succ hcow), hplain⟩ rfl ?_
  simp only [lockedShare, hbump, Locks.addCow]
  omega

omit hcounts hs in
theorem useclaim_balanced (hs : Balanced avail 0 s) (m : BitVec 32) {npp : ι}
    (hsound : s.Sound m (.useclaim pp npp)) (hmatch : s.Matched (.useclaim pp npp)) :
    Balanced avail 0 (s.next m (.useclaim pp npp)) := by
  have hpos : 0 < (s.held pp).cow := hmatch
  refine (hs.subCow hpages havail hpos).addCow npp hpages havail ?_
  show (update s.page pp _ npp).pCowcnt ≠ PAGE_LOCK_MAXIMUM
  by_cases heq : npp = pp
  · have hcow := (hs.counts pp).1
    rw [heq, update_self]
    unfold PAGE_LOCK_MAXIMUM
    bv_omega
  · rw [update_of_ne heq]
    exact hsound.resolve_left fun h => heq h.symm

omit hcounts hs in
theorem addclaim_balanced (hs : Balanced avail 0 s) (m : BitVec 32) {kernel : Bool}
    (hsound : s.Sound m (.addclaim pp kernel)) (hmatch : s.Matched (.addclaim pp kernel)) :
    Balanced avail 0 (s.next m (.addclaim pp kernel)) := by
  rcases hs.counts pp with ⟨hcow, hplain⟩
  have hpos : 0 < (s.held pp).plain kernel := hmatch
  have hcount := Locks.subPlain_count hpos
  have hdrop := toNat_sub_one (c := (s.page pp).pLckcnt) (by omega)
  have hcounts : ((s.page pp).pLckcnt - 1).toNat =
      ((s.held pp).subPlain kernel).plain true + ((s.held pp).subPlain kernel).plain false := by
    omega
  have hne : (s.page pp).pLckcnt ≠ 0#16 := ne_zero_of_toNat (hplain.trans hcount.symm)
  simp only [Sound] at hsound
  simp only [next, Kernel.pageAddclaim]
  by_cases hzero : (s.page pp).pLckcnt - 1 = 0#16
  · rw [if_pos (by bv_omega)] at hsound
    rcases hsound with ⟨hfirst, hmax⟩
    have hbump := toNat_add_one hmax
    simp only [hzero, reduceIte]
    rw [hzero] at hcounts
    refine hs.keep hpages havail ⟨hbump.trans (congrArg Nat.succ hcow), hcounts⟩ ?_ ?_
    · simp only [kernelShare, share_zero, share_of_ne hne, hfirst]
      rfl
    · simp only [lockedShare, hbump, share_zero, share_of_ne hne, hfirst]
      rfl
  · rw [if_neg (by bv_omega)] at hsound
    by_cases hroom : s.Room m
    · rcases hsound hroom with ⟨hrmem, hmax⟩
      have hbump := toNat_another hmax
      simp only [hzero, hroom, reduceIte]
      refine hs.reserve hpages havail ⟨hbump.trans (congrArg Nat.succ hcow), hcounts⟩ hrmem ?_ ?_
      · simp only [kernelShare, share_of_ne hzero, share_of_ne hne, Locks.subPlain, Locks.addCow]
      · simp only [lockedShare, hbump, share_of_ne hzero, share_of_ne hne, Locks.subPlain,
          Locks.addCow]
        omega
    · simp only [hzero, hroom, reduceIte, BitVec.sub_add_cancel, Bool.false_eq_true]
      have hsame : s.setPage pp (s.page pp) = s.toKernel := by
        rw [Kernel.setPage, update_eq_self]
      rw [hsame, setHeld, update_eq_self]
      exact hs

omit hcounts hs in
theorem subclaim_balanced (hs : Balanced avail 0 s) (m : BitVec 32)
    (hsound : s.Sound m (.subclaim pp)) (hmatch : s.Matched (.subclaim pp)) :
    Balanced avail 0 (s.next m (.subclaim pp)) := by
  rcases hs.counts pp with ⟨hcow, hplain⟩
  have hpos : 0 < (s.held pp).cow := hmatch
  have hdrop := toNat_sub_one (c := (s.page pp).pCowcnt) (by omega)
  have hbump := toNat_add_one hsound
  have hcount := (s.held pp).subCow.addPlain_count (s.page pp).pLckcnt false
  have hcounts : ((s.page pp).pLckcnt + 1).toNat = _ :=
    hbump.trans ((congrArg Nat.succ hplain).trans hcount.symm)
  have hne := ne_zero_of_toNat hbump
  simp only [next, Kernel.pageSubclaim]
  by_cases hzero : (s.page pp).pLckcnt = 0#16
  · have hfirst : ((s.held pp).subCow.addPlain (s.page pp).pLckcnt false).first = false :=
      if_pos hzero
    simp only [ne_eq, hzero, not_true_eq_false, reduceIte]
    rw [hzero] at hcounts hfirst hne
    refine hs.keep hpages havail ⟨hdrop.trans (congrArg Nat.pred hcow), hcounts⟩ ?_ ?_
    · simp only [kernelShare, hzero, share_zero, share_of_ne hne, hfirst, Bool.toNat_false]
    · simp only [lockedShare, hzero, share_zero, share_of_ne hne, hfirst, hdrop, Bool.not_false,
        Bool.toNat_true]
      omega
  · have hfirst : ((s.held pp).subCow.addPlain (s.page pp).pLckcnt false).first = (s.held pp).first :=
      if_neg hzero
    simp only [ne_eq, hzero, not_false_eq_true, reduceIte]
    refine hs.release hpages havail ⟨hdrop.trans (congrArg Nat.pred hcow), hcounts⟩ ?_ ?_
    · simp only [kernelShare, share_of_ne hzero, share_of_ne hne, hfirst]
    · simp only [lockedShare, share_of_ne hzero, share_of_ne hne, hfirst, hdrop]
      omega

omit hcounts hs in
theorem abort_balanced (hs : Balanced avail 0 s) (m : BitVec 32) {keepcnt : Nat} {intrans : Bool}
    (hsound : s.Sound m (.abort pp keepcnt intrans)) :
    Balanced avail 0 (s.next m (.abort pp keepcnt intrans)) := by
  have hnonneg := hs.nonneg
  simp only [next, Kernel.pageAbort]
  by_cases hkept : keepcnt ≠ 0 ∨ intrans = true
  · rw [if_pos hkept, if_pos hkept, setHeld, update_eq_self]
    exact hs
  · rw [if_neg hkept, if_neg hkept]
    rw [not_or, not_not, Bool.not_eq_true] at hkept
    by_cases hzero : (s.page pp).pLckcnt = 0#16
    · have hl : ((s.pagesPpLocked - (s.page pp).pCowcnt.setWidth 32).toNat : Int) =
          (s.pagesPpLocked.toNat + -(s.page pp).pCowcnt.toNat) % 4294967296 := by bv_omega
      simp only [hzero, ne_eq, not_true_eq_false, reduceIte]
      refine hs.move hpages havail rfl ⟨rfl, rfl⟩ (Int.sub_neg _ _).symm (by omega) hl ?_
        (toNat_same _) ?_
      · simp only [lockedShare, hzero, share_zero]
        show (0 : Int) + 0 = _
        omega
      · simp only [kernelShare, hzero, share_zero]
        rfl
    · have hfirst := hsound hkept.1 hkept.2 hzero
      have hl : ((s.pagesPpLocked - 1 - (s.page pp).pCowcnt.setWidth 32).toNat : Int) =
          (s.pagesPpLocked.toNat + (-1 - (s.page pp).pCowcnt.toNat)) % 4294967296 := by bv_omega
      simp only [hzero, ne_eq, not_false_eq_true, reduceIte]
      refine hs.move (d := -1 - (s.page pp).pCowcnt.toNat) hpages havail rfl ⟨rfl, rfl⟩ ?_ (by omega)
        hl ?_ (toNat_same _) ?_
      · show s.availrmem + 1 + _ = _
        omega
      · simp only [lockedShare, share_of_ne hzero, hfirst, Bool.not_false, Bool.toNat_true]
        show (0 : Int) + 0 = _
        omega
      · simp only [kernelShare, share_of_ne hzero, hfirst]
        rfl

end Moves

omit [DecidableEq ι] in
theorem lockedShare_add_kernelShare (x : Page) (h : Locks) :
    lockedShare x h + kernelShare x h = x.pCowcnt.toNat + if x.pLckcnt ≠ 0#16 then 1 else 0 := by
  unfold lockedShare kernelShare
  by_cases hzero : x.pLckcnt = 0#16
  · rw [hzero, share_zero, share_zero]
    rfl
  · rw [share_of_ne hzero, share_of_ne hzero, if_pos hzero]
    cases h.first <;> rfl

variable [Fintype ι] {avail : Int} {s : System ι} {m : BitVec 32}

omit [DecidableEq ι] in
theorem Balanced.accounted (hs : Balanced avail 0 s) : Accounted avail s := by
  constructor
  · exact hs.total
  · rw [hs.locked, hs.kernel, Nat.add_zero, ← sum_add_distrib, card_filter,
      ← sum_add_distrib]
    exact sum_congr rfl fun pp _ => lockedShare_add_kernelShare _ _
  · exact hs.counts
  · exact hs.nonneg
  · intro hnone
    have hshares : ∀ pp, lockedShare (s.page pp) (s.held pp) = 0 ∧
        kernelShare (s.page pp) (s.held pp) = 0 := by
      intro pp
      rcases hs.counts pp with ⟨hcow, hplain⟩
      rw [(hnone pp).2, (hnone pp).2] at hplain
      have hzero : (s.page pp).pLckcnt = 0#16 := BitVec.eq_of_toNat_eq hplain
      rw [lockedShare, kernelShare, hzero, share_zero, share_zero, hcow, (hnone pp).1]
      exact ⟨rfl, rfl⟩
    have hl := hs.locked.trans (congrArg (· + 0) (sum_eq_zero fun pp _ => (hshares pp).1))
    have hk := hs.kernel.trans (sum_eq_zero fun pp _ => (hshares pp).2)
    have htotal := hs.total
    exact ⟨by omega, BitVec.eq_of_toNat_eq hl, BitVec.eq_of_toNat_eq hk⟩

theorem balanced_next (hs : Balanced avail 0 s) (hpages : Fintype.card ι < 2 ^ 31)
    (havail : avail < 2 ^ 31) {e : Event ι} (hsound : s.Sound m e) (hmatch : s.Matched e) :
    Balanced avail 0 (s.next m e) := by
  cases e with
  | lock pp cow kernel => exact lock_balanced hpages havail hs m hsound
  | unlock pp cow kernel => exact unlock_balanced hpages havail hs m hsound hmatch
  | useclaim opp npp => exact useclaim_balanced hpages havail hs m hsound hmatch
  | addclaim pp kernel => exact addclaim_balanced hpages havail hs m hsound hmatch
  | subclaim pp => exact subclaim_balanced hpages havail hs m hsound hmatch
  | abort pp keepcnt intrans => exact abort_balanced hpages havail hs m hsound

omit [DecidableEq ι] in
theorem Start.balanced (hs : Start avail s) : Balanced avail 0 s := by
  have hzero : ∀ pp, lockedShare (s.page pp) (s.held pp) = 0 ∧
      kernelShare (s.page pp) (s.held pp) = 0 := by
    intro pp
    rw [hs.page pp]
    exact ⟨rfl, rfl⟩
  constructor
  · rw [hs.availrmem, hs.locked]
    exact Int.add_zero avail
  · exact hs.availrmem ▸ hs.range.1
  · intro pp
    rw [hs.page pp, (hs.held pp).1, (hs.held pp).2, (hs.held pp).2]
    exact ⟨rfl, rfl⟩
  · rw [hs.locked, sum_eq_zero fun pp _ => (hzero pp).1]
    rfl
  · rw [hs.kernel, sum_eq_zero fun pp _ => (hzero pp).2]
    rfl

/-- The counters are in order in every run where no count is at its maximum and the last plain
lock on a page has the kind of the first; what fails changes nothing. -/
theorem locks_accounted (m : BitVec 32) (avail : Int) :
    (∀ s : System ι, ReachableWhen (Start avail) (Step m) (Sound m) s → Accounted avail s) ∧
    (∀ (k : Kernel ι) pp cow kernel, (k.pagePpLock m pp cow kernel).2 = false →
      (k.pagePpLock m pp cow kernel).1 = k) ∧
    ∀ (k : Kernel ι) pp, (k.pageAddclaim m pp).2 = false → (k.pageAddclaim m pp).1 = k := by
  refine ⟨fun s hs => ?_, fun k pp cow kernel hfail => ?_, fun k pp hfail => ?_⟩
  · rcases hs with ⟨s₀, hstart, hrun⟩
    have hinv : Balanced avail 0 s := by
      induction hrun with
      | refl => exact hstart.balanced
      | tail _ hlast ih =>
        rcases hlast with ⟨e, hsound, hmatch, rfl⟩
        exact balanced_next ih hstart.pages hstart.range.2 hsound hmatch
    exact hinv.accounted
  · revert hfail
    unfold Kernel.pagePpLock
    simp only
    split
    · split
      · exact fun h => Bool.noConfusion h
      · exact fun _ => rfl
    · split
      · exact fun h => Bool.noConfusion h
      · split
        · exact fun h => Bool.noConfusion h
        · split
          · exact fun h => Bool.noConfusion h
          · exact fun _ => rfl
  · revert hfail
    unfold Kernel.pageAddclaim
    simp only
    split
    · exact fun h => Bool.noConfusion h
    · split
      · exact fun h => Bool.noConfusion h
      · intro _
        rw [BitVec.sub_add_cancel, Kernel.setPage, update_eq_self]

def unlocked : System Unit := ⟨⟨fun _ => ⟨0, 0⟩, 100, 0, 0⟩, fun _ => ⟨0, fun _ => 0, false⟩⟩

/-- A user's lock, then a lock of the kernel, and the user's is given back first. -/
def mixed : System Unit :=
  (((unlocked.next 0 (.lock () false false)).next 0 (.lock () false true)).next 0
    (.unlock () false false)).next 0 (.unlock () false true)

theorem mixed_not_accounted :
    Reachable (Start 100) (Step 0) mixed ∧ (mixed.held ()).None ∧ mixed.availrmem = 99 ∧
      mixed.pagesPpKernel = -1 ∧ ¬ Accounted 100 mixed := by
  have hnone : (mixed.held ()).None := ⟨rfl, fun kernel => by cases kernel <;> rfl⟩
  refine ⟨?_, hnone, rfl, rfl, fun h => ?_⟩
  · have hstart : Reachable (Start 100) (Step 0) unlocked := Reachable.start
      ⟨by decide, by decide, fun _ => rfl, fun _ => ⟨rfl, fun _ => rfl⟩, rfl, rfl, rfl⟩
    have hnext : ∀ (s : System Unit) e, s.Matched e → Reachable (Start 100) (Step 0) s →
        Reachable (Start 100) (Step 0) (s.next 0 e) := fun _ _ hmatch hs => hs.next ⟨hmatch, rfl⟩
    exact hnext _ (.unlock () false true) Nat.one_pos <|
      hnext _ (.unlock () false false) Nat.one_pos <|
      hnext _ (.lock () false true) trivial <| hnext _ (.lock () false false) trivial hstart
  · exact absurd (h.released fun _ => hnone).1 (by decide)

end System
end PageLock
end Svr4
