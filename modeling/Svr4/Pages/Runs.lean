import Mathlib.Tactic.IntervalCases
import Svr4.Lib.Transition
import Svr4.Pages.Requests

/-!
# Runs of the page routines

Any sequence of calls, from the state that `page_init` leaves, with the
owners of pages at work in between.  Requests for pages in a row may take DMA
pages without paying for them; as long as none does, the lists, the counters
and the names agree, and no routine panics.
-/

namespace Svr4
namespace Pages

open Rings Vm Transition List

/-!
## Calls
-/

/-- A call of one of the page routines. -/
inductive Op where
  | pageFree (pp : Nat) (dontneed : Bool)
  | pageReclaim (pp : Nat)
  | pageGet (npages : Nat) (flags : Flags)
  | pageGetAligned (npages : Nat) (aligned : Nat → Bool) (flags : Flags)
  | pageAbort (pp : Nat)
  | freeVpPages (swapped : Bool) (vp off len : Nat)
  | pageEnter (pp vp offset : Nat)
  | pageHashout (pp vp : Nat)

def Op.run (c : Pool) (v : Vm) : Op → Panic Vm
  | .pageFree pp dontneed => v.pageFree c pp dontneed
  | .pageReclaim pp => v.pageReclaim c pp
  | .pageGet npages flags => Prod.fst <$> v.pageGet c npages flags
  | .pageGetAligned npages aligned flags =>
    Prod.fst <$> v.pageGetAligned c npages aligned flags
  | .pageAbort pp => v.pageAbort c pp
  | .freeVpPages swapped vp off len => v.freeVpPages c swapped vp off len
  | .pageEnter pp vp offset => Prod.fst <$> v.pageEnter c pp vp offset
  | .pageHashout pp vp => v.pageHashout c pp vp

/--
What the callers owe: a page is freed by its owner, and when nobody uses it any
more; only a page without a name is named, and only one with a name loses it.
-/
def Op.Admits (c : Pool) (v : Vm) : Op → Prop
  | .pageFree pp _ => v.free pp = false ∧
      ((v.page pp).pGone = true ∧
        ((v.page pp).pIntrans = true ∨ (v.page pp).pKeepcnt ≠ 0) ∨ v.Released pp)
  | .pageAbort pp => v.free pp = false
  | .pageEnter pp _ _ => (v.page pp).pVnode = none ∧ pp < c.npages
  | .pageHashout pp vp => (v.page pp).pVnode = some vp
  | _ => True

instance Op.decidableAdmits (c : Pool) (v : Vm) (o : Op) : Decidable (o.Admits c v) := by
  cases o <;> unfold Op.Admits <;> try unfold Vm.Released
  all_goals infer_instance

/--
A request without the DMA check that is granted pages in a row does not get a
DMA page.
-/
def Op.PaysDma (c : Pool) (v : Vm) : Op → Prop
  | .pageGet npages flags => Granted c v flags npages → flags.inRow npages = true →
      (c.dmaCheckOn && flags.dma) = false → Apart c v (fun _ => true) npages
  | .pageGetAligned npages aligned flags => Granted c v flags npages →
      (c.dmaCheckOn && flags.dma) = false → Apart c v aligned npages
  | _ => True

/-- The owners of pages change what is neither a list, a counter nor a name. -/
structure Owners (v v' : Vm) : Prop where
  free : ∀ pp, v'.free pp = v.free pp
  age : ∀ pp, v'.age pp = v.age pp
  vnode : ∀ pp, (v'.page pp).pVnode = (v.page pp).pVnode
  offset : ∀ pp, (v'.page pp).pOffset = (v.page pp).pOffset
  gone : ∀ pp, (v'.page pp).pGone = (v.page pp).pGone
  next : ∀ pp, v.free pp = true → v'.pNext pp = v.pNext pp
  prev : ∀ pp, v.free pp = true → v'.pPrev pp = v.pPrev pp
  lists : v'.list = v.list ∧ v'.size = v.size
  counts : v'.freemem = v.freemem ∧ v'.dmaFreemem = v.dmaFreemem
  chains : v'.pHash = v.pHash ∧ v'.pageHash = v.pageHash
  rings : v'.pVpnext = v.pVpnext ∧ v'.pVpprev = v.pVpprev ∧ v'.vPages = v.vPages

inductive Event where
  | call (o : Op)
  | owners

def Step (c : Pool) (v : Vm) : Event → Vm → Prop
  | .call o, v' => o.Admits c v ∧ o.run c v = .ok v'
  | .owners, v' => Owners v v'

def PaysDma (c : Pool) (v : Vm) : Event → Prop
  | .call o => o.PaysDma c v
  | .owners => True

/-- The state after `page_init`: no page is free, and none has a name. -/
structure Init (v : Vm) : Prop where
  free : ∀ pp, v.free pp = false
  age : ∀ pp, v.age pp = false
  vnode : ∀ pp, (v.page pp).pVnode = none
  list : ∀ x, v.list x = none
  size : ∀ x, v.size x = 0
  freemem : v.freemem = 0
  dmaFreemem : v.dmaFreemem = 0
  pageHash : ∀ h, v.pageHash h = none
  vPages : ∀ vp, v.vPages vp = none

section Runs

variable {c : Pool} {v v' : Vm}

theorem Init.sound (h : Init v) : Sound c v 0 0 := by
  refine ⟨⟨fun _ => [], ?_⟩, ⟨fun _ => [], fun _ => [], ?_⟩, ?_, ?_⟩
  · refine ⟨fun x => ?_, fun x pp => ?_, fun x => h.size x, fun pp _ => h.age pp⟩
    · rw [h.list]
      rfl
    · simp [h.free]
  · refine ⟨fun b => ?_, fun b pp => ?_, fun vp => ?_, fun vp pp => ?_, ?_, ?_⟩
    · rw [h.pageHash]
      rfl
    · simp [h.vnode]
    · rw [h.vPages]
      rfl
    · simp [h.vnode]
    · intro pp pp' vp hvp
      rw [h.vnode] at hvp
      cases hvp
    · intro pp hpp
      exact absurd (h.vnode pp) hpp
  · simp [Vm.total, Vm.dmaTotal, h.size, h.freemem]
  · simp [Vm.dmaTotal, h.size, h.dmaFreemem]

theorem Owners.sound (ho : Owners v v') (h : Sound c v 0 0) : Sound c v' 0 0 := by
  obtain ⟨H, V, hn⟩ := h.names
  exact h.rename ho.free ho.age ho.next ho.prev ho.lists.1 ho.lists.2 ho.counts
    ⟨H, V, hn.congr ho.vnode ho.offset (fun pp hg => (ho.gone pp).symm.trans hg)
      ho.chains.1 ho.chains.2 ho.rings.1 ho.rings.2.1 ho.rings.2.2⟩

theorem Op.run_spec (h : Sound c v 0 0) {o : Op} (hadm : o.Admits c v)
    (hpays : o.PaysDma c v) : ∃ v', o.run c v = .ok v' ∧ Sound c v' 0 0 := by
  have hfst : ∀ {α : Type} {x : Panic (Vm × α)}, (∃ r, x = .ok r ∧ Sound c r.1 0 0) →
      ∃ v', Prod.fst <$> x = .ok v' ∧ Sound c v' 0 0 := by
    rintro α x ⟨r, rfl, hs⟩
    exact ⟨r.1, rfl, hs⟩
  cases o with
  | pageFree pp dontneed => exact pageFree_spec h hadm.1 hadm.2 dontneed
  | pageReclaim pp => exact pageReclaim_spec h pp
  | pageGet npages flags => exact hfst (pageGet_spec h npages flags hpays)
  | pageGetAligned npages aligned flags =>
    exact hfst (pageGetAligned_spec h npages aligned flags hpays)
  | pageAbort pp => exact pageAbort_spec h hadm
  | freeVpPages swapped vp off len => exact freeVpPages_spec h swapped vp off len
  | pageEnter pp vp offset => exact hfst (pageEnter_spec h hadm.1 hadm.2 vp offset)
  | pageHashout pp vp =>
    obtain ⟨v', hrun, hs, _⟩ := hashout_spec h hadm
    exact ⟨v', hrun, hs⟩

theorem sound_of_reachable (h : ReachableWhen Init (Step c) (PaysDma c) v) : Sound c v 0 0 := by
  refine h.invariant (fun _ hinit => hinit.sound) ?_
  intro v e v' hs hpays hstep
  cases e with
  | call o =>
    obtain ⟨v₁, hrun, hs'⟩ := Op.run_spec hs hstep.1 hpays
    obtain rfl : v₁ = v' := Except.ok.inj (hrun.symm.trans hstep.2)
    exact hs'
  | owners => exact Owners.sound hstep hs

/-!
## What holds of the lists, the counters and the names
-/

/-- Each free page is on one list, which its age and its address choose. -/
def Sorted (c : Pool) (v : Vm) : Prop :=
  ∃ L : FreeList → List Nat, (∀ x, Shown v.pNext v.pPrev (v.list x) (L x) ∧ (L x).Nodup) ∧
    (∀ pp, v.free pp = true ↔ ∃ x, pp ∈ L x) ∧
    (∀ x pp, pp ∈ L x → x = c.listOf pp (v.age pp)) ∧
    ∀ x, v.size x = (L x).length

/-- `freemem` and `dma_freemem` count the free pages. -/
def Counted (c : Pool) (v : Vm) : Prop :=
  ∃ F : List Nat, F.Nodup ∧ (∀ pp, pp ∈ F ↔ v.free pp = true) ∧
    v.freemem = F.length ∧ v.dmaFreemem = F.countP c.dmaPp

/-- A page with a vnode is once on its two lists, and no two pages in use have one name. -/
def Identified (c : Pool) (v : Vm) : Prop :=
  (∃ H V : Nat → List Nat, (∀ h, Chain v.pHash (v.pageHash h) (H h) none) ∧
    (∀ vp, Shown v.pVpnext v.pVpprev (v.vPages vp) (V vp)) ∧
    (∀ h pp, (H h).count pp = if (v.page pp).pVnode.map
      (c.pageHashfunc · (v.page pp).pOffset) = some h then 1 else 0) ∧
    ∀ vp pp, (V vp).count pp = if (v.page pp).pVnode = some vp then 1 else 0) ∧
  ∀ pp pp' vp, (v.page pp).pVnode = some vp → (v.page pp').pVnode = some vp →
    (v.page pp).pOffset = (v.page pp').pOffset → (v.page pp).pGone = false →
    (v.page pp').pGone = false → pp = pp'

def Unbroken (c : Pool) (v : Vm) (o : Op) : Prop :=
  o.Admits c v → ∃ v', o.run c v = .ok v'

theorem Sound.sorted (h : Sound c v 0 0) : Sorted c v := by
  obtain ⟨L, hL⟩ := h.lists
  refine ⟨L, fun x => ⟨hL.shown x, (hL.shown x).nodup⟩, fun pp => ?_,
    fun x pp hmem => ((hL.mem x pp).mp hmem).2.symm, hL.size⟩
  constructor
  · intro hfree
    exact ⟨_, (hL.mem _ pp).mpr ⟨hfree, rfl⟩⟩
  · rintro ⟨x, hmem⟩
    exact ((hL.mem x pp).mp hmem).1

theorem Sound.counted (h : Sound c v 0 0) : Counted c v := by
  obtain ⟨L, hL⟩ := h.lists
  have hdma : ∀ x pp, pp ∈ L x → ((x = .dmaPageFreelist ∨ x = .dmaPageCachelist) ↔
      c.dmaPp pp = true) := by
    intro x pp hmem
    rw [← ((hL.mem x pp).mp hmem).2]
    exact Pool.listOf_dma
  have hall : ∀ x, (x = .dmaPageFreelist ∨ x = .dmaPageCachelist) →
      (L x).countP c.dmaPp = (L x).length := fun x hx =>
    countP_eq_length.mpr fun pp hmem => (hdma x pp hmem).mp hx
  have hnone : ∀ x, ¬ (x = .dmaPageFreelist ∨ x = .dmaPageCachelist) →
      (L x).countP c.dmaPp = 0 := fun x hx =>
    countP_eq_zero.mpr fun pp hmem hpp => hx ((hdma x pp hmem).mpr hpp)
  have hapart : ∀ x y, x ≠ y → List.Disjoint (L x) (L y) := fun x y hxy pp hx hy =>
    hxy (hL.eq_of_mem hx hy)
  refine ⟨(L .pageFreelist ++ L .pageCachelist) ++
    (L .dmaPageFreelist ++ L .dmaPageCachelist), ?_, fun pp => ?_, ?_, ?_⟩
  · rw [nodup_append', nodup_append', nodup_append',
      disjoint_append_left, disjoint_append_right, disjoint_append_right]
    exact ⟨⟨(hL.shown _).nodup, (hL.shown _).nodup, hapart _ _ nofun⟩,
      ⟨(hL.shown _).nodup, (hL.shown _).nodup, hapart _ _ nofun⟩,
      ⟨hapart _ _ nofun, hapart _ _ nofun⟩, hapart _ _ nofun, hapart _ _ nofun⟩
  · constructor
    · intro hmem
      simp only [mem_append] at hmem
      rcases hmem with (hmem | hmem) | hmem | hmem
      all_goals exact ((hL.mem _ pp).mp hmem).1
    · intro hfree
      have hmem : pp ∈ L (c.listOf pp (v.age pp)) := (hL.mem _ pp).mpr ⟨hfree, rfl⟩
      simp only [mem_append]
      cases hx : c.listOf pp (v.age pp) <;> rw [hx] at hmem
      · exact .inl (.inl hmem)
      · exact .inl (.inr hmem)
      · exact .inr (.inl hmem)
      · exact .inr (.inr hmem)
  · have htotal := h.freemem
    simp only [Vm.total, Vm.dmaTotal, hL.size] at htotal
    simp only [length_append]
    omega
  · have htotal := h.dmaFreemem
    simp only [Vm.dmaTotal, hL.size] at htotal
    simp only [countP_append, hall _ (.inl rfl), hall _ (.inr rfl)]
    rw [hnone .pageFreelist (by simp), hnone .pageCachelist (by simp)]
    omega

theorem Sound.identified (h : Sound c v 0 0) : Identified c v := by
  obtain ⟨H, V, hn⟩ := h.names
  refine ⟨⟨H, V, hn.chain, hn.shown, fun b pp => ?_, fun vp pp => ?_⟩, hn.one⟩
  · rw [List.Nodup.count (hn.chain b).nodup]
    refine if_congr ?_ rfl rfl
    rw [hn.hashed, Option.map_eq_some_iff]
  · rw [List.Nodup.count (hn.shown vp).nodup]
    exact if_congr (hn.listed vp pp) rfl rfl

/--
In every run in which no request for pages in a row takes a DMA page unpaid, the
lists, the counters and the names are in order in every state, and no routine
panics on such a call.
-/
theorem pages_in_order (h : ReachableWhen Init (Step c) (PaysDma c) v) :
    Sorted c v ∧ Counted c v ∧ Identified c v ∧ ∀ o : Op, o.PaysDma c v → Unbroken c v o := by
  have hs := sound_of_reachable h
  refine ⟨hs.sorted, hs.counted, hs.identified, fun o hpays hadm => ?_⟩
  obtain ⟨v', hrun, _⟩ := Op.run_spec hs hadm hpays
  exact ⟨v', hrun⟩

end Runs

/-!
## Six pages, two of them for DMA
-/

/-- The pool of the example: the pages 0 and 1 are within reach of the DMA. -/
def sixPages : Pool where
  npages := 6
  pageahead := [⟨0, 6⟩]
  maxPageGet := 4
  dmaCheckOn := true
  dmaLimitPp := 1
  dmaMaxPageGet := 2
  minpagefree := 0
  nopageage := false
  pageHashfunc := fun _ _ => 0

def blankPage : Page where
  pLock := true
  pWant := false
  pFree := false
  pIntrans := false
  pGone := false
  pMod := false
  pRef := false
  pPagein := false
  pNc := false
  pAge := false
  pKeepcnt := 0
  pVnode := none
  pOffset := 0
  pMapping := false
  pLckcnt := 0
  pCowcnt := 0

def blankPages : Vm where
  page := fun _ => blankPage
  pNext := id
  pPrev := id
  pHash := fun _ => none
  pVpnext := id
  pVpprev := id
  pageHash := fun _ => none
  vPages := fun _ => none
  list := fun _ => none
  size := fun _ => 0
  freemem := 0
  dmaFreemem := 0

theorem init_blankPages : Init blankPages where
  free _ := rfl
  age _ := rfl
  vnode _ := rfl
  list _ := rfl
  size _ := rfl
  freemem := rfl
  dmaFreemem := rfl
  pageHash _ := rfl
  vPages _ := rfl

/-- One call after the other, as long as the callers keep to what they owe. -/
def Op.calls (c : Pool) : List Op → Vm → Panic Vm
  | [], v => return v
  | o :: rest, v => if o.Admits c v then o.run c v >>= Op.calls c rest else throw "admits"

theorem Op.reachable_calls {c : Pool} {ops : List Op} {v v' : Vm}
    {ok : Vm → Event → Prop} (h : ReachableWhen Init (Step c) ok v)
    (hok : ∀ o ∈ ops, ∀ v, ok v (.call o)) (hrun : Op.calls c ops v = .ok v') :
    ReachableWhen Init (Step c) ok v' := by
  induction ops generalizing v with
  | nil =>
    obtain rfl : v = v' := Except.ok.inj hrun
    exact h
  | cons o rest ih =>
    simp only [Op.calls] at hrun
    by_cases hadm : o.Admits c v
    · rw [if_pos hadm] at hrun
      cases ho : o.run c v with
      | error e =>
        rw [ho] at hrun
        cases hrun
      | ok v₁ =>
        rw [ho] at hrun
        exact ih (h.next (hok o (mem_cons_self ..) v) ⟨hadm, ho⟩)
          (fun o' ho' => hok o' (mem_cons_of_mem o ho')) hrun
    · rw [if_neg hadm] at hrun
      cases hrun

def freeSix : List Op :=
  [.pageFree 5 false, .pageFree 4 false, .pageFree 3 false, .pageFree 2 false,
    .pageFree 1 false, .pageFree 0 false]

/-- `page_get` with `P_PHYSCONTIG`, and with `P_DMA` or without. -/
def inRow (npages : Nat) (dma : Bool) : Op :=
  .pageGet npages ⟨false, true, dma, true⟩

/-- A routine that does not panic, with a state that passes the test. -/
def Panic.passes (x : Panic Vm) (test : Vm → Bool) : Bool :=
  match x with
  | .ok v => test v
  | .error _ => false

theorem Panic.exists_of_passes {x : Panic Vm} {t : Vm → Bool}
    (h : x.passes t = true) : ∃ v, x = .ok v ∧ t v = true := by
  cases x with
  | error e => cases h
  | ok v => exact ⟨v, rfl, h⟩

def Panic.text (x : Panic Vm) : Option String :=
  match x with
  | .ok _ => none
  | .error e => some e

theorem Panic.eq_of_text {x : Panic Vm} {e : String} (h : x.text = some e) : x = .error e := by
  cases x with
  | error e' => rw [Option.some.inj h]
  | ok v => cases h

/-- A run that takes its DMA pages with `P_DMA` keeps everything in order. -/
theorem pages_in_order_six : ∃ v, ReachableWhen Init (Step sixPages) (PaysDma sixPages) v ∧
    v.freemem = 6 ∧ (Sorted sixPages v ∧ Counted sixPages v ∧ Identified sixPages v ∧
      ∀ o : Op, o.PaysDma sixPages v → Unbroken sixPages v o) := by
  obtain ⟨v, hrun, hmem⟩ := Panic.exists_of_passes (x := Op.calls sixPages freeSix blankPages)
    (t := fun v => decide (v.freemem = 6)) (by decide +kernel)
  have hreach : ReachableWhen Init (Step sixPages) (PaysDma sixPages) v := by
    refine Op.reachable_calls (ReachableWhen.start init_blankPages) ?_ hrun
    intro o ho v'
    simp only [freeSix, mem_cons, not_mem_nil, or_false] at ho
    rcases ho with rfl | rfl | rfl | rfl | rfl | rfl <;> exact trivial
  exact ⟨v, hreach, of_decide_eq_true hmem, pages_in_order hreach⟩

/--
A request for two pages in a row without `P_DMA` gets both DMA pages, and
`dma_freemem` stays at two.  The next request for a DMA page panics.
-/
theorem contiguous_unpaid : ∃ v, Reachable Init (Step sixPages) v ∧
    v.dmaFreemem = 2 ∧ ¬ Counted sixPages v ∧ (inRow 1 true).Admits sixPages v ∧
    (inRow 1 true).run sixPages v = .error "page_get: dma_freemem error" := by
  obtain ⟨v, hrun, htest⟩ := Panic.exists_of_passes
    (x := Op.calls sixPages (freeSix ++ [inRow 2 false]) blankPages)
    (t := fun v => decide (v.dmaFreemem = 2) && !v.free 0 && !v.free 1 &&
      decide (((inRow 1 true).run sixPages v).text =
        some "page_get: dma_freemem error")) (by decide +kernel)
  simp only [Bool.and_eq_true, Bool.not_eq_true', decide_eq_true_eq] at htest
  obtain ⟨⟨⟨hdma, hzero⟩, hone⟩, htext⟩ := htest
  refine ⟨v, Op.reachable_calls (Reachable.start init_blankPages) (fun _ _ _ => trivial)
    hrun, hdma, ?_, trivial, Panic.eq_of_text htext⟩
  rintro ⟨F, _, hF, _, hcount⟩
  have hnone : F.countP sixPages.dmaPp = 0 := by
    rw [countP_eq_zero]
    intro pp hmem hpp
    have hfree := (hF pp).mp hmem
    have hle : pp ≤ 1 := of_decide_eq_true hpp
    interval_cases pp
    · rw [hzero] at hfree
      cases hfree
    · rw [hone] at hfree
      cases hfree
  rw [hnone, hdma] at hcount
  cases hcount

end Pages
end Svr4
