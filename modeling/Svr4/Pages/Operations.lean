import Svr4.Pages.Lists
import Svr4.Pages.Names
import Svr4.Pages.Scan

/-!
# The page routines and the lists

What each routine does to the free lists, the names and the counters.  A
request charges the counters before it takes its pages, so they are sound up to
the pages it still has to take.
-/

namespace Svr4
namespace Pages

open Function Rings Vm Pool

/--
The state of the pages, with `d` pages charged to `freemem` that are
still on the lists, and `e` to `dma_freemem`.
-/
structure Sound (c : Pool) (v : Vm) (d e : Int) : Prop where
  lists : ∃ L, Listed c v.free v.age v L
  names : ∃ H V, Named c v H V
  freemem : v.freemem + d = v.total
  dmaFreemem : v.dmaFreemem + e = v.dmaTotal

def Pool.dmaCount (c : Pool) (pp : Nat) : Int := if c.dmaPp pp then 1 else 0

section Counts

variable {c : Pool} {v : Vm} {x : FreeList} {pp : Nat} {a : Bool} {n : Int}

theorem total_addSize : (v.addSize x n).total = v.total + n := by
  cases x <;> simp [Vm.total, Vm.dmaTotal, Vm.addSize] <;> omega

theorem dmaTotal_addSize {p : Nat} :
    (v.addSize (c.listOf p a) n).dmaTotal = v.dmaTotal + n * c.dmaCount p := by
  unfold listOf freelist cachelist dmaCount
  cases c.dmaPp p <;> cases a <;>
    simp [Vm.dmaTotal, Vm.addSize] <;> omega

theorem Pool.dmaPp_of_le (h : c.dmaPp pp = true) {q : Nat} (hq : q ≤ pp) : c.dmaPp q = true := by
  simp only [dmaPp, Bool.and_eq_true, decide_eq_true_eq] at h ⊢
  exact ⟨h.1, Nat.le_trans hq h.2⟩

theorem Pool.listOf_dma : (c.listOf pp a = .dmaPageFreelist ∨
    c.listOf pp a = .dmaPageCachelist) ↔ c.dmaPp pp = true := by
  unfold listOf freelist cachelist
  cases c.dmaPp pp <;> cases a <;> simp

end Counts

variable {L : FreeList → List Nat} {H V : Nat → List Nat} {free age : Nat → Bool}

section Steps

variable {c : Pool} {v v' : Vm} {d e : Int} {pp vp : Nat}

section

variable (h : Sound c v d e)
include h

theorem Sound.recount {f g x y : Int}
    (hd : f + x = v.freemem + d) (he : g + y = v.dmaFreemem + e) :
    Sound c { v with freemem := f, dmaFreemem := g } x y := by
  obtain ⟨L, hL⟩ := h.lists
  obtain ⟨H, V, hn⟩ := h.names
  exact ⟨⟨L, hL.congr (fun _ => rfl) (fun _ => rfl) (fun _ _ => rfl) (fun _ _ => rfl)
    rfl rfl⟩, ⟨H, V, hn.congr (fun _ => rfl) (fun _ => rfl) (fun _ hg => hg) rfl rfl rfl
    rfl rfl⟩, hd.trans h.freemem, he.trans h.dmaFreemem⟩

theorem Sound.rename (hfree : ∀ pp, v'.free pp = v.free pp)
    (hage : ∀ pp, v'.age pp = v.age pp) (hnext : ∀ z, v.free z = true → v'.pNext z = v.pNext z)
    (hprev : ∀ z, v.free z = true → v'.pPrev z = v.pPrev z)
    (hlist : v'.list = v.list) (hsize : v'.size = v.size)
    (hcount : v'.freemem = v.freemem ∧ v'.dmaFreemem = v.dmaFreemem)
    (hnames : ∃ H V, Named c v' H V) : Sound c v' d e := by
  obtain ⟨L, hL⟩ := h.lists
  refine ⟨⟨L, hL.congr hfree hage hnext hprev hlist hsize⟩, hnames, ?_, ?_⟩
  · rw [hcount.1, h.freemem]
    unfold Vm.total Vm.dmaTotal
    rw [hsize]
  · rw [hcount.2, h.dmaFreemem]
    unfold Vm.dmaTotal
    rw [hsize]

theorem Sound.setPage (y : Page)
    (hfree : y.pFree = (v.page pp).pFree) (hage : y.pAge = (v.page pp).pAge)
    (hvnode : y.pVnode = (v.page pp).pVnode) (hoffset : y.pOffset = (v.page pp).pOffset)
    (hgone : y.pGone = false → (v.page pp).pGone = false) : Sound c (v.setPage pp y) d e := by
  have hself : (v.setPage pp y).page pp = y := update_self _ _ _
  have hother : ∀ q, q ≠ pp → (v.setPage pp y).page q = v.page q := fun q hq =>
    update_of_ne hq _ _
  obtain ⟨H, V, hn⟩ := h.names
  refine h.rename (fun q => ?_) (fun q => ?_) (fun _ _ => rfl) (fun _ _ => rfl) rfl
    rfl ⟨rfl, rfl⟩ ⟨H, V, hn.congr (fun q => ?_) (fun q => ?_) (fun q hq => ?_) rfl
      rfl rfl rfl rfl⟩
  · by_cases hq : q = pp
    · simp only [Vm.free, hq, hself, hfree]
    · simp only [Vm.free, hother q hq]
  · by_cases hq : q = pp
    · simp only [Vm.age, hq, hself, hage]
    · simp only [Vm.age, hother q hq]
  · by_cases hq : q = pp
    · rw [hq, hself, hvnode]
    · rw [hother q hq]
  · by_cases hq : q = pp
    · rw [hq, hself, hoffset]
    · rw [hother q hq]
  · by_cases hqp : q = pp
    · rw [hqp, hself] at hq
      rw [hqp]
      exact hgone hq
    · rwa [hother q hqp] at hq

theorem Sound.put (hpp : v.free pp = false) (y : Page)
    (hfree : y.pFree = true) (hvnode : y.pVnode = (v.page pp).pVnode)
    (hoffset : y.pOffset = (v.page pp).pOffset) (hgone : y.pGone = (v.page pp).pGone) {x : FreeList}
    (hx : c.listOf pp y.pAge = x) :
    Sound c ((((v.countFree c pp).setPage pp y).addSize x 1).pageAdd x pp) d e := by
  obtain ⟨L, hL⟩ := h.lists
  obtain ⟨H, V, hn⟩ := h.names
  have hother : ∀ q, q ≠ pp → ((v.countFree c pp).setPage pp y).page q = v.page q :=
    fun q hq => update_of_ne hq _ _
  have hself : ((v.countFree c pp).setPage pp y).page pp = y :=
    update_self _ _ _
  refine ⟨⟨update L x (pp :: L x), ?_⟩, ⟨H, V, hn.congr (fun q => ?_)
    (fun q => ?_) (fun q hq => ?_) rfl rfl rfl rfl rfl⟩, ?_, ?_⟩
  · have hadd := (hL.congr (fun _ => rfl)
      (fun _ => rfl) (fun _ _ => rfl) (fun _ _ => rfl) rfl rfl).add hpp hx
    refine hadd.congr (fun q => ?_) (fun q => ?_) (fun _ _ => rfl) (fun _ _ => rfl) rfl
      rfl
    · by_cases hq : q = pp
      · rw [hq, update_self, ← hfree]
        exact congrArg Page.pFree hself
      · rw [update_of_ne hq]
        exact congrArg Page.pFree (hother q hq)
    · by_cases hq : q = pp
      · rw [hq, update_self]
        exact congrArg Page.pAge hself
      · rw [update_of_ne hq]
        exact congrArg Page.pAge (hother q hq)
  · by_cases hq : q = pp
    · rw [hq, ← hvnode]
      exact congrArg Page.pVnode hself
    · exact congrArg Page.pVnode (hother q hq)
  · by_cases hq : q = pp
    · rw [hq, ← hoffset]
      exact congrArg Page.pOffset hself
    · exact congrArg Page.pOffset (hother q hq)
  · by_cases hqp : q = pp
    · rw [hqp] at hq ⊢
      rw [← hgone, ← hq]
      exact (congrArg Page.pGone hself).symm
    · rw [← hq]
      exact (congrArg Page.pGone (hother q hqp)).symm
  · have htotal := total_addSize (v := (v.countFree c pp).setPage pp y) (x := x) (n := 1)
    have hold : ((v.countFree c pp).setPage pp y).total = v.total := rfl
    have hcount := h.freemem
    change v.freemem + 1 + d = (((v.countFree c pp).setPage pp y).addSize x 1).total
    omega
  · have htotal := dmaTotal_addSize (c := c) (v := (v.countFree c pp).setPage pp y)
      (p := pp) (a := y.pAge) (n := 1)
    have hold : ((v.countFree c pp).setPage pp y).dmaTotal = v.dmaTotal := rfl
    have hcount := h.dmaFreemem
    change (if c.dmaPp pp then v.dmaFreemem + 1 else v.dmaFreemem) + e =
      (((v.countFree c pp).setPage pp y).addSize x 1).dmaTotal
    rw [← hx, htotal, hold]
    unfold dmaCount
    split <;> omega

theorem Sound.advance (x : FreeList) : Sound c (v.advance x) d e := by
  obtain ⟨L, hL⟩ := h.lists
  obtain ⟨l, hl⟩ := hL.advance x
  obtain ⟨H, V, hn⟩ := h.names
  exact ⟨⟨_, hl⟩, ⟨H, V, hn.congr (fun _ => rfl) (fun _ => rfl) (fun _ h => h) rfl rfl rfl
    rfl rfl⟩, h.freemem, h.dmaFreemem⟩

theorem Sound.age_eq (hpp : v.free pp = false) : (v.page pp).pAge = false := by
  obtain ⟨L, hL⟩ := h.lists
  exact hL.age pp hpp

theorem putFree_spec (hpp : v.free pp = false) (dontneed : Bool) :
    Sound c (v.putFree c pp dontneed) d e := by
  have hage := h.age_eq hpp
  cases hvp : (v.page pp).pVnode with
  | none =>
    simp only [Vm.putFree, hvp]
    refine h.put hpp _ ?_ ?_ ?_ ?_ ?_
    · rfl
    · exact hvp.symm
    · rfl
    · rfl
    · rfl
  | some vp =>
    have hput : ∀ y : Page, y.pFree = true → y.pVnode = some vp →
        y.pOffset = (v.page pp).pOffset → y.pGone = (v.page pp).pGone →
        y.pAge = (v.page pp).pAge → Sound c ((((v.countFree c pp).setPage pp
          y).addSize (c.cachelist pp) 1).pageAdd (c.cachelist pp) pp) d e := by
      intro y hfree hvnode hoffset hgone hage'
      refine h.put hpp y hfree (hvnode.trans hvp.symm) hoffset hgone ?_
      rw [hage', hage]
      rfl
    simp only [Vm.putFree, hvp]
    split
    · refine Sound.advance (hput _ ?_ ?_ ?_ ?_ ?_) _ <;> rfl
    · refine hput _ ?_ ?_ ?_ ?_ ?_ <;> rfl

end

/-!
## Freeing
-/

theorem hashout_spec (h : Sound c v d e) (hvp : (v.page pp).pVnode = some vp) :
    ∃ v', v.pageHashout c pp vp = .ok v' ∧ Sound c v' d e ∧
      v'.free = v.free ∧ (∀ q, v.page q = v'.page q ∨ q = pp) ∧
      v'.page pp = { v.page pp with pVnode := none, pOffset := 0, pGone := false } := by
  obtain ⟨H, V, hn⟩ := h.names
  obtain ⟨v', hrun, ⟨hash, heads, next, prev, first, heq⟩, hnames⟩ := hn.hashout hvp
  have hself : v'.page pp = { v.page pp with pVnode := none, pOffset := 0, pGone := false } := by
    rw [heq]
    exact update_self _ _ _
  have hother : ∀ q, q ≠ pp → v'.page q = v.page q := by
    intro q hq
    rw [heq]
    exact update_of_ne hq _ _
  have hfree : ∀ q, v'.free q = v.free q := by
    intro q
    by_cases hq : q = pp
    · simp only [Vm.free, hq, hself]
    · simp only [Vm.free, hother q hq]
  refine ⟨v', hrun, h.rename hfree (fun q => ?_) ?_ ?_ ?_ ?_ ?_ hnames,
    funext hfree, fun q => ?_, hself⟩
  · by_cases hq : q = pp
    · simp only [Vm.age, hq, hself]
    · simp only [Vm.age, hother q hq]
  · intro z _
    rw [heq]
  · intro z _
    rw [heq]
  · rw [heq]
  · rw [heq]
  · rw [heq]
    exact ⟨rfl, rfl⟩
  · by_cases hq : q = pp
    · exact Or.inr hq
    · exact Or.inl (hother q hq).symm

/-- The obligation of the callers of `page_free`. -/
def Vm.Released (v : Vm) (pp : Nat) : Prop :=
  (v.page pp).pKeepcnt = 0 ∧ (v.page pp).pMapping = false ∧
    (v.page pp).pLckcnt = 0 ∧ (v.page pp).pCowcnt = 0

section

variable (h : Sound c v d e)
include h

theorem dropGone_spec (hpp : v.free pp = false) :
    ∃ v', v.dropGone c pp = .ok v' ∧ Sound c v' d e ∧ v'.free pp = false := by
  unfold Vm.dropGone
  cases hgone : (v.page pp).pGone with
  | false => exact ⟨v, rfl, h, hpp⟩
  | true =>
    cases hvp : (v.page pp).pVnode with
    | none => exact ⟨v, rfl, h, hpp⟩
    | some vp =>
      obtain ⟨v', hrun, hs, hfree, _⟩ := hashout_spec h hvp
      exact ⟨v', hrun, hs, (congrFun hfree pp).trans hpp⟩

theorem pageFree_spec (hpp : v.free pp = false)
    (hrel : (v.page pp).pGone = true ∧
      ((v.page pp).pIntrans = true ∨ (v.page pp).pKeepcnt ≠ 0) ∨ v.Released pp) (dontneed : Bool) :
    ∃ v', v.pageFree c pp dontneed = .ok v' ∧ Sound c v' d e := by
  unfold Vm.pageFree
  by_cases hkept : ((v.page pp).pGone && ((v.page pp).pIntrans ||
      decide ((v.page pp).pKeepcnt ≠ 0))) = true
  · simp only [if_pos hkept]
    exact ⟨v, rfl, h⟩
  · simp only [if_neg hkept]
    obtain ⟨v', hrun, hs, hfree⟩ := dropGone_spec h hpp
    rcases hrel with ⟨hgone, hbusy⟩ | ⟨hkeep, hmap, hlck, hcow⟩
    · exact absurd (by simpa [hgone] using hbusy) hkept
    · refine ⟨v'.putFree c pp dontneed, ?_, putFree_spec hs hfree dontneed⟩
      rw [hrun]
      simp [hkeep, hmap, hlck, hcow, bind, Except.bind]
      rfl

theorem pageAbort_spec (hpp : v.free pp = false) :
    ∃ v', v.pageAbort c pp = .ok v' ∧ Sound c v' d e := by
  unfold Vm.pageAbort
  have hmark : ∀ x : Page, x = (if (v.page pp).pVnode = none then v.page pp
      else { v.page pp with pGone := true }) → x.pFree = (v.page pp).pFree ∧
      x.pAge = (v.page pp).pAge ∧ x.pVnode = (v.page pp).pVnode ∧
      x.pOffset = (v.page pp).pOffset ∧
      (x.pGone = false → (v.page pp).pGone = false) := by
    rintro x rfl
    split
    · exact ⟨rfl, rfl, rfl, rfl, id⟩
    · exact ⟨rfl, rfl, rfl, rfl, nofun⟩
  dsimp only
  generalize hx : (if (v.page pp).pVnode = none then v.page pp
    else { v.page pp with pGone := true }) = x
  obtain ⟨hfree, hage, hvnode, hoffset, hgone⟩ := hmark x hx.symm
  have hs := h.setPage x hfree hage hvnode hoffset hgone
  split
  · exact ⟨_, rfl, hs⟩
  · have hself : (v.setPage pp x).page pp = x := update_self _ _ _
    have hs' := hs.setPage { x with
      pLckcnt := 0, pCowcnt := 0, pMapping := false, pRef := false, pMod := false }
      (by rw [hself]) (by rw [hself]) (by rw [hself]) (by rw [hself])
      (by rw [hself]; exact id)
    rename_i hidle
    simp only [Bool.or_eq_true, decide_eq_true_eq, not_or, not_not] at hidle
    refine pageFree_spec hs' ?_ (Or.inr ?_) false
    · simp only [Vm.free, Vm.setPage, update_self]
      exact hfree.trans hpp
    · simp only [Vm.Released, Vm.setPage, update_self]
      exact ⟨by simpa using hidle.1, trivial, trivial, trivial⟩

theorem freeVpPage_spec (vp off eoff pp : Nat) :
    Sound c (v.freeVpPage c vp off eoff pp) d e ∧
      (v.freeVpPage c vp off eoff pp).pVpnext = v.pVpnext := by
  unfold Vm.freeVpPage
  dsimp only
  split
  · exact ⟨h, rfl⟩
  · split
    · exact ⟨h, rfl⟩
    · split
      · exact ⟨h, rfl⟩
      · rename_i hidle
        simp only [not_or, Bool.not_eq_true] at hidle
        have hpp : v.free pp = false := hidle.2.2.1
        have hage := h.age_eq hpp
        refine ⟨Sound.advance ?_ _, rfl⟩
        refine h.put hpp _ ?_ ?_ ?_ ?_ ?_
        · rfl
        · rfl
        · rfl
        · rfl
        · simp [listOf, hage]

theorem freeVpLoop_spec {epp off eoff : Nat} {l : List Nat} {fuel : Nat}
    {next : Nat → Nat} (hnext : v.pVpnext = next)
    (hl : Linked next v.pVpprev pp l epp) (hnot : epp ∉ l) (hfuel : l.length < fuel) :
    ∃ v', freeVpLoop c vp off eoff epp fuel pp v = .ok v' ∧ Sound c v' d e := by
  generalize hprev : v.pVpprev = prev at hl
  clear hprev
  induction l generalizing pp fuel v with
  | nil =>
    obtain ⟨rest, rfl⟩ : ∃ n, fuel = n + 1 := ⟨fuel - 1, by omega⟩
    obtain ⟨hs, hsame⟩ := freeVpPage_spec h vp off eoff pp
    refine ⟨_, ?_, hs⟩
    simp only [freeVpLoop, hsame, hnext, hl.1, if_true]
    rfl
  | cons k l ih =>
    obtain ⟨rest, rfl⟩ : ∃ n, fuel = n + 1 := ⟨fuel - 1, by omega⟩
    obtain ⟨hs, hsame⟩ := freeVpPage_spec h vp off eoff pp
    rw [List.mem_cons, not_or] at hnot
    have hk : ¬ k = epp := fun heq => hnot.1 heq.symm
    obtain ⟨v', hrun, hs'⟩ := ih hs (hsame.trans hnext) hnot.2 (Nat.lt_of_succ_lt_succ hfuel) hl.2
    refine ⟨v', ?_, hs'⟩
    simp only [freeVpLoop, hsame, hnext, hl.1.1, if_neg hk]
    exact hrun

theorem freeVpPages_spec (swapped : Bool) (vp off len : Nat) :
    ∃ v', v.freeVpPages c swapped vp off len = .ok v' ∧ Sound c v' d e := by
  unfold Vm.freeVpPages
  split
  · exact ⟨v, rfl, h⟩
  · cases hfirst : v.vPages vp with
    | none => exact ⟨v, rfl, h⟩
    | some pp =>
      obtain ⟨H, V, hn⟩ := h.names
      have hshown := hn.shown vp
      rw [hfirst] at hshown
      have hlen := hn.ring_length_le vp
      obtain ⟨t, ht, hc⟩ := hshown
      rw [ht, List.length_cons] at hlen
      exact freeVpLoop_spec h rfl hc.linked (List.nodup_cons.mp hc.nodup).1 hlen

end

/-!
## Names
-/

theorem pageEnter_spec (h : Sound c v d e) (hnone : (v.page pp).pVnode = none)
    (hvalid : pp < c.npages) (vp off : Nat) :
    ∃ r, v.pageEnter c pp vp off = .ok r ∧ Sound c r.1 d e := by
  obtain ⟨H, V, hn⟩ := h.names
  obtain ⟨r, hrun, hr⟩ := hn.exists_spec vp off
  cases r with
  | some q =>
    refine ⟨(v, false), ?_, h⟩
    simp only [Vm.pageEnter, hrun, bind, Except.bind]
    rfl
  | none =>
    refine ⟨(v.pageHashin c pp vp off true, true), ?_, ?_⟩
    · simp only [Vm.pageEnter, hrun, bind, Except.bind]
      rfl
    · refine h.rename (fun q => ?_) (fun q => ?_) (fun _ _ => rfl) (fun _ _ => rfl) rfl
        rfl ⟨rfl, rfl⟩ (hn.hashin hnone hvalid true (hr rfl))
      · by_cases hq : q = pp
        · simp [Vm.free, Vm.pageHashin, hq]
        · simp [Vm.free, Vm.pageHashin, hq]
      · by_cases hq : q = pp
        · simp [Vm.age, Vm.pageHashin, hq]
        · simp [Vm.age, Vm.pageHashin, hq]

/-!
## Taking a page
-/

theorem Sound.take (h : Sound c v d e) (hpp : v.free pp = true) :
    ∃ v₁, v.pageSub (c.listOf pp (v.page pp).pAge) pp = .ok v₁ ∧
      v₁.page = v.page ∧ v₁.freemem = v.freemem ∧ v₁.dmaFreemem = v.dmaFreemem ∧
      (∀ z, v.free z = false → v₁.pNext z = v.pNext z ∧ v₁.pPrev z = v.pPrev z) ∧
      ∃ L, Listed c (update v.free pp false) (update v.age pp false)
          (v₁.addSize (c.listOf pp (v.page pp).pAge) (-1)) L ∧
        (∃ H V, Named c (v₁.addSize (c.listOf pp (v.page pp).pAge) (-1)) H V) ∧
        (v₁.addSize (c.listOf pp (v.page pp).pAge) (-1)).total = v.total - 1 ∧
        (v₁.addSize (c.listOf pp (v.page pp).pAge) (-1)).dmaTotal = v.dmaTotal - c.dmaCount pp := by
  obtain ⟨L, hL⟩ := h.lists
  obtain ⟨H, V, hn⟩ := h.names
  obtain ⟨v₁, hrun, _, ⟨head, next, prev, heq⟩, hframe, hlisted⟩ := hL.sub hpp rfl
  refine ⟨v₁, hrun, by rw [heq], by rw [heq], by rw [heq], hframe, _, hlisted, ⟨H, V, ?_⟩, ?_, ?_⟩
  · rw [heq]
    exact hn.congr (fun _ => rfl) (fun _ => rfl) (fun _ hg => hg) rfl rfl rfl rfl rfl
  · rw [total_addSize, heq]
    rfl
  · rw [dmaTotal_addSize, heq]
    have hold : ∀ n : Int, v.dmaTotal + -1 * n = v.dmaTotal - n := by
      omega
    exact hold _

theorem Listed.settle (hL : Listed c (update free pp false) (update age pp false) v L)
    (hn : Named c v H V) (hfree : ∀ q, q ≠ pp → v.free q = free q)
    (hage : ∀ q, q ≠ pp → v.age q = age q) (y : Page) (hy : y.pFree = false)
    (hy' : y.pAge = false) (hvnode : y.pVnode = (v.page pp).pVnode)
    (hoffset : y.pOffset = (v.page pp).pOffset) (hgone : y.pGone = (v.page pp).pGone)
    (hd : v.freemem + d = v.total) (he : v.dmaFreemem + e = v.dmaTotal) :
    Sound c (v.setPage pp y) d e := by
  refine ⟨⟨L, ?_⟩, ⟨H, V, ?_⟩, hd, he⟩
  · refine hL.congr (fun q => ?_) (fun q => ?_) (fun _ _ => rfl) (fun _ _ => rfl) rfl rfl
    · by_cases hq : q = pp
      · simp [Vm.free, Vm.setPage, hq, hy]
      · simp only [Vm.free, Vm.setPage, update_of_ne hq]
        exact hfree q hq
    · by_cases hq : q = pp
      · simp [Vm.age, Vm.setPage, hq, hy']
      · simp only [Vm.age, Vm.setPage, update_of_ne hq]
        exact hage q hq
  · refine hn.congr (fun q => ?_) (fun q => ?_) (fun q hq => ?_) rfl rfl rfl rfl rfl
    · by_cases hq : q = pp
      · simp [Vm.setPage, hq, hvnode]
      · simp [Vm.setPage, hq]
    · by_cases hq : q = pp
      · simp [Vm.setPage, hq, hoffset]
      · simp [Vm.setPage, hq]
    · by_cases hqp : q = pp
      · simpa [Vm.setPage, hqp, hgone] using hq
      · simpa [Vm.setPage, hqp] using hq

theorem pageUnfree_spec (h : Sound c v d e) (hpp : v.free pp = true) :
    ∃ v', v.pageUnfree c pp = .ok v' ∧ Sound c v' d e := by
  obtain ⟨v₁, hrun, hpage, hmem, hdma, _, L, hL, ⟨H, V, hn⟩, htotal, hdmaTotal⟩ :=
    h.take hpp
  have hd := h.freemem
  have he := h.dmaFreemem
  have hsettled := hL.settle hn (d := d - 1) (e := e - c.dmaCount pp)
    (fun q _ => by simp [Vm.free, Vm.addSize, hpage])
    (fun q _ => by simp [Vm.age, Vm.addSize, hpage])
    { v₁.page pp with pFree := false, pAge := false } rfl rfl rfl rfl rfl
    (by rw [htotal]; simp only [Vm.addSize, hmem]; omega)
    (by rw [hdmaTotal]; simp only [Vm.addSize, hdma]; omega)
  have hcount := hsettled.recount (f := v₁.freemem - 1)
    (g := if c.dmaPp pp then v₁.dmaFreemem - 1 else v₁.dmaFreemem) (x := d) (y := e)
    (by simp only [Vm.setPage, Vm.addSize]; omega)
    (by
      simp only [Vm.setPage, Vm.addSize, dmaCount]
      split <;> omega)
  refine ⟨_, ?_, hcount⟩
  simp only [Vm.pageUnfree, hrun, bind, Except.bind]
  rfl

theorem pageReclaim_spec (h : Sound c v d e) (pp : Nat) :
    ∃ v', v.pageReclaim c pp = .ok v' ∧ Sound c v' d e := by
  unfold Vm.pageReclaim
  split
  · rename_i hpp
    exact pageUnfree_spec h hpp
  · exact ⟨v, rfl, h⟩

structure Reused (c : Pool) (v : Vm) (pp : Nat) (d e : Int) (v' : Vm) : Prop where
  sound : Sound c v' (d - 1) (e - c.dmaCount pp)
  free : ∀ q, v'.free q = if q = pp then false else v.free q
  links : ∀ z, v.free z = false → v'.pNext z = v.pNext z ∧ v'.pPrev z = v.pPrev z
  freemem : v'.freemem = v.freemem
  dmaFreemem : v'.dmaFreemem = v.dmaFreemem

theorem dropName_spec (hL : Listed c free age v L) (hn : Named c v H V) (pp : Nat) :
    ∃ v', v.dropName c pp = .ok v' ∧ (∃ x, v'.page = update v.page pp x) ∧
      Listed c free age v' L ∧ (∃ H V, Named c v' H V) ∧
      v'.pNext = v.pNext ∧ v'.pPrev = v.pPrev ∧ v'.freemem = v.freemem ∧
      v'.dmaFreemem = v.dmaFreemem ∧ v'.size = v.size := by
  have hstay : ∃ v', Except.ok v = (.ok v' : Panic Vm) ∧ (∃ x, v'.page = update v.page pp x) ∧
      Listed c free age v' L ∧ (∃ H V, Named c v' H V) ∧
      v'.pNext = v.pNext ∧ v'.pPrev = v.pPrev ∧ v'.freemem = v.freemem ∧
      v'.dmaFreemem = v.dmaFreemem ∧ v'.size = v.size :=
    ⟨v, rfl, ⟨v.page pp, (update_eq_self pp v.page).symm⟩, hL, ⟨H, V, hn⟩, rfl,
      rfl, rfl, rfl, rfl⟩
  unfold Vm.dropName
  cases hage : (v.page pp).pAge with
  | true => exact hstay
  | false =>
    cases hvp : (v.page pp).pVnode with
    | none => exact hstay
    | some vp =>
      obtain ⟨v', hrun, ⟨hash, heads, next, prev, first, heq⟩, hnames⟩ :=
        hn.hashout hvp
      refine ⟨v', hrun, ⟨_, by rw [heq]⟩, ?_, hnames, by rw [heq], by rw [heq],
        by rw [heq], by rw [heq], by rw [heq]⟩
      refine hL.congr (fun _ => rfl) (fun _ => rfl) ?_ ?_ ?_ ?_
      · intro z _
        rw [heq]
      · intro z _
        rw [heq]
      · rw [heq]
      · rw [heq]

theorem pageReuse_spec (h : Sound c v d e) (hpp : v.free pp = true) :
    ∃ v', v.pageReuse c pp = .ok v' ∧ Reused c v pp d e v' := by
  obtain ⟨v₁, hrun, hpage, hmem, hdma, hframe, L, hL, ⟨H, V, hn⟩, htotal, hdmaTotal⟩ :=
    h.take hpp
  obtain ⟨v₂, hdrop, ⟨x, hx⟩, hL', ⟨H', V', hn'⟩, hnext, hprev, hmem', hdma', hsize⟩ :=
    dropName_spec hL hn pp
  have hd := h.freemem
  have he := h.dmaFreemem
  have htotal' : v₂.total = v.total - 1 := by
    rw [← htotal]
    unfold Vm.total Vm.dmaTotal
    rw [hsize]
  have hdmaTotal' : v₂.dmaTotal = v.dmaTotal - c.dmaCount pp := by
    rw [← hdmaTotal]
    unfold Vm.dmaTotal
    rw [hsize]
  have hmem₂ : v₂.freemem = v.freemem := hmem'.trans hmem
  have hdma₂ : v₂.dmaFreemem = v.dmaFreemem := hdma'.trans hdma
  have hother : ∀ q, q ≠ pp → v₂.page q = v.page q := by
    intro q hq
    rw [hx, update_of_ne hq]
    simp only [Vm.addSize, hpage]
  have hsettled := hL'.settle hn' (d := d - 1) (e := e - c.dmaCount pp)
    (fun q hq => by simp only [Vm.free, hother q hq])
    (fun q hq => by simp only [Vm.age, hother q hq])
    { v₂.page pp with
      pFree := false, pMod := false, pNc := false, pAge := false, pLock := false,
      pIntrans := false, pPagein := false, pRef := true, pKeepcnt := 1 }
    rfl rfl rfl rfl rfl (by omega) (by omega)
  refine ⟨_, ?_, hsettled, fun q => ?_, fun z hz => ?_, hmem₂, hdma₂⟩
  · simp only [Vm.pageReuse, hrun, hdrop, bind, Except.bind]
    rfl
  · by_cases hq : q = pp
    · simp [Vm.free, Vm.setPage, hq]
    · simp only [Vm.free, Vm.setPage, update_of_ne hq, if_neg hq, hother q hq]
  · simp only [Vm.setPage, hnext, hprev]
    exact hframe z hz

end Steps

end Pages
end Svr4
