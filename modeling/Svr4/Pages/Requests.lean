import Svr4.Pages.Operations

/-!
# Requests for pages

The loops of `page_get` and `page_get_aligned` pay off what the
request has charged, page by page.  They never find a list empty too early, as
long as the pages they take are those that were charged.
-/

namespace Svr4
namespace Pages

open Rings Vm Pool

variable {L : FreeList → List Nat}

section Requests

variable {c : Pool} {v v' : Vm} {d e : Int} {pp : Nat} {plist : Option Nat}
  {P : List Nat}

/-- The list that is to be returned: its pages are not free any more. -/
structure Held (v : Vm) (plist : Option Nat) (P : List Nat) : Prop where
  shown : Shown v.pNext v.pPrev plist P
  busy : ∀ q ∈ P, v.free q = false

theorem Held.start : Held v none [] := ⟨rfl, nofun⟩

theorem keep_spec (h : Sound c v d e) (hheld : Held v plist P)
    (hpp : v.free pp = false) (hnot : pp ∉ P) :
    Sound c (v.keep plist pp).1 d e ∧ Held (v.keep plist pp).1 (v.keep plist pp).2 (pp :: P) := by
  have hout : ∀ z, v.free z = true → z ∉ pp :: P := by
    intro z hz hmem
    rcases List.mem_cons.mp hmem with rfl | hmem
    · rw [hpp] at hz
      cases hz
    · rw [hheld.busy z hmem] at hz
      cases hz
  obtain ⟨H, V, hn⟩ := h.names
  refine ⟨h.rename (fun _ => rfl) (fun _ => rfl)
    (fun z hz => (link_frame hheld.shown (hout z hz)).1)
    (fun z hz => (link_frame hheld.shown (hout z hz)).2) rfl rfl ⟨rfl, rfl⟩
    ⟨H, V, hn.congr (fun _ => rfl) (fun _ => rfl) (fun _ hg => hg) rfl rfl rfl rfl rfl⟩,
    link_front hheld.shown hnot, fun q hq => ?_⟩
  rcases List.mem_cons.mp hq with rfl | hq
  · exact hpp
  · exact hheld.busy q hq

theorem reuse_keep_spec (h : Sound c v d e) (hheld : Held v plist P)
    (hpp : v.free pp = true) : ∃ v₁ v' plist', v.pageReuse c pp = .ok v₁ ∧
      v₁.keep plist pp = (v', plist') ∧
      Sound c v' (d - 1) (e - c.dmaCount pp) ∧ Held v' plist' (pp :: P) ∧
      (∀ q, v'.free q = if q = pp then false else v.free q) ∧
      v'.freemem = v.freemem ∧ v'.dmaFreemem = v.dmaFreemem := by
  obtain ⟨v₁, hrun, hreused⟩ := pageReuse_spec h hpp
  have hnot : pp ∉ P := by
    intro hmem
    rw [hheld.busy pp hmem] at hpp
    cases hpp
  have hbusy : ∀ q ∈ P, v₁.free q = false := by
    intro q hq
    rw [hreused.free]
    split
    · rfl
    · exact hheld.busy q hq
  have hheld₁ : Held v₁ plist P :=
    ⟨hheld.shown.congr (fun z hz => (hreused.links z (hheld.busy z hz)).1)
      fun z hz => (hreused.links z (hheld.busy z hz)).2, hbusy⟩
  have hfree₁ : v₁.free pp = false := by
    rw [hreused.free, if_pos rfl]
  obtain ⟨hs, hheld'⟩ := keep_spec hreused.sound hheld₁ hfree₁ hnot
  exact ⟨v₁, _, _, hrun, rfl, hs, hheld', hreused.free, hreused.freemem, hreused.dmaFreemem⟩

theorem pullRun_spec {dmacheck dma : Bool} (himp : dmacheck = true → dma = true)
    (n : Nat) (hn : n ≤ pp) (h : Sound c v n (if dma then n else 0)) (hheld : Held v plist P)
    (hrun : ∀ i, pp - n ≤ i → i < pp → v.free i = true ∧ c.dmaPp i = dma) :
    ∃ r, pullRun c dmacheck n pp plist v = .ok r ∧ Sound c r.1 0 0 := by
  induction n generalizing pp v plist P with
  | zero =>
    refine ⟨(v, plist), rfl, ?_⟩
    cases dma <;> simpa using h
  | succ n ih =>
    obtain ⟨hfree, hdma⟩ := hrun (pp - 1) (by omega) (by omega)
    obtain ⟨v₁, v', plist', hreuse, hkeep, hs, hheld', hfree', _, _⟩ :=
      reuse_keep_spec h hheld hfree
    have hpanic : ¬ (dmacheck && !c.dmaPp (pp - 1)) = true := by
      rw [hdma]
      cases dmacheck with
      | false => simp
      | true => simp [himp rfl]
    have hs' : Sound c v' n (if dma then n else 0) := by
      have hd : ((n + 1 : Nat) : Int) - 1 = n := by omega
      have he : (if dma = true then ((n + 1 : Nat) : Int) else 0) -
          c.dmaCount (pp - 1) = if dma = true then (n : Int) else 0 := by
        unfold dmaCount
        rw [hdma]
        cases dma <;> simp
      rw [hd, he] at hs
      exact hs
    have hrun' : ∀ i, pp - 1 - n ≤ i → i < pp - 1 → v'.free i = true ∧ c.dmaPp i = dma := by
      intro i hlow hhigh
      obtain ⟨hi, hidma⟩ := hrun i (by omega) (by omega)
      have hne : ¬ i = pp - 1 := by omega
      rw [hfree', if_neg hne]
      exact ⟨hi, hidma⟩
    obtain ⟨r, hr, hsr⟩ := ih (by omega) hs' hheld' hrun'
    refine ⟨r, ?_, hsr⟩
    simp only [pullRun, if_neg hpanic, hreuse, bind, Except.bind, hkeep]
    exact hr

theorem head_spec (hL : Listed c v.free v.age v L) {x : FreeList} (hx : v.list x = some pp) :
    v.free pp = true ∧ c.listOf pp (v.age pp) = x := by
  have hhead := (hL.shown x).head_eq
  rw [hx] at hhead
  exact (hL.mem x pp).mp (List.mem_of_head? hhead.symm)

theorem size_eq_zero (hL : Listed c v.free v.age v L) {x : FreeList}
    (hx : v.list x = none) : v.size x = 0 := by
  have hs := hL.shown x
  rw [hx] at hs
  have hnil : L x = [] := hs
  rw [hL.size, hnil]
  rfl

theorem dmaTotal_eq_zero (hL : Listed c v.free v.age v L)
    (hoff : c.dmaCheckOn = false) : v.dmaTotal = 0 := by
  have hnil : ∀ x, (x = .dmaPageFreelist ∨ x = .dmaPageCachelist) → L x = [] := by
    intro x hx
    rw [List.eq_nil_iff_forall_not_mem]
    intro q hq
    have hdma := (hL.mem x q).mp hq
    have hon := listOf_dma.mp (hdma.2.symm ▸ hx)
    simp [dmaPp, hoff] at hon
  unfold Vm.dmaTotal
  rw [hL.size, hL.size, hnil _ (.inl rfl), hnil _ (.inr rfl)]
  rfl

theorem pick_spec (h : Sound c v d e) (dmacheck : Bool)
    (hroom : if dmacheck then 1 ≤ v.dmaTotal else 1 ≤ v.total) :
    ∃ v' pp, v.pick c dmacheck = .ok (v', pp) ∧ v.free pp = true ∧
      (dmacheck = true → c.dmaPp pp = true) ∧ (∃ g, v' = { v with dmaFreemem := g }) ∧
      Sound c v' d (if dmacheck then e else e + c.dmaCount pp) ∧
      (dmacheck = true → v'.dmaFreemem = v.dmaFreemem) := by
  obtain ⟨L, hL⟩ := h.lists
  cases dmacheck with
  | true =>
    simp only [if_true] at hroom
    have hpage : ∀ pp x, v.list x = some pp → (x = .dmaPageFreelist ∨ x = .dmaPageCachelist) →
        v.free pp = true ∧ (true = true → c.dmaPp pp = true) ∧
        (∃ g, v = { v with dmaFreemem := g }) ∧
        Sound c v d (if true then e else e + c.dmaCount pp) ∧
        (true = true → v.dmaFreemem = v.dmaFreemem) := by
      intro pp x hx hdma
      obtain ⟨hfree, hlist⟩ := head_spec hL hx
      exact ⟨hfree, fun _ => listOf_dma.mp (hlist.symm ▸ hdma), ⟨_, rfl⟩, h, fun _ => rfl⟩
    cases hfirst : v.list .dmaPageFreelist with
    | some pp =>
      refine ⟨v, pp, ?_, hpage pp _ hfirst (.inl rfl)⟩
      simp only [Vm.pick, hfirst, if_true]
      rfl
    | none =>
      cases hcache : v.list .dmaPageCachelist with
      | some pp =>
        refine ⟨v, pp, ?_, hpage pp _ hcache (.inr rfl)⟩
        simp only [Vm.pick, hfirst, hcache, if_true]
        rfl
      | none =>
        unfold Vm.dmaTotal at hroom
        rw [size_eq_zero hL hfirst, size_eq_zero hL hcache] at hroom
        omega
  | false =>
    simp only [Bool.false_eq_true, if_false] at hroom
    have hplain : ∀ pp x, v.list x = some pp → (x = .pageFreelist ∨ x = .pageCachelist) →
        v.free pp = true ∧ (false = true → c.dmaPp pp = true) ∧
        (∃ g, v = { v with dmaFreemem := g }) ∧
        Sound c v d (if false = true then e else e + c.dmaCount pp) ∧
        (false = true → v.dmaFreemem = v.dmaFreemem) := by
      intro pp x hx hnot
      obtain ⟨hfree, hlist⟩ := head_spec hL hx
      have hdma : c.dmaPp pp = false := by
        rw [← Bool.not_eq_true]
        intro hdma
        rcases hnot with rfl | rfl <;>
          rcases listOf_dma.mpr hdma with heq | heq <;>
            rw [hlist] at heq <;> cases heq
      refine ⟨hfree, nofun, ⟨_, rfl⟩, ?_, nofun⟩
      simpa [dmaCount, hdma] using h
    have hpaid : ∀ pp x, v.list x = some pp → (x = .dmaPageFreelist ∨ x = .dmaPageCachelist) →
        v.free pp = true ∧ (false = true → c.dmaPp pp = true) ∧
        (∃ g, { v with dmaFreemem := v.dmaFreemem - 1 } = { v with dmaFreemem := g }) ∧
        Sound c { v with dmaFreemem := v.dmaFreemem - 1 } d
          (if false = true then e else e + c.dmaCount pp) ∧
        (false = true → v.dmaFreemem - 1 = v.dmaFreemem) := by
      intro pp x hx hdma
      obtain ⟨hfree, hlist⟩ := head_spec hL hx
      have hdma' := listOf_dma.mp (hlist.symm ▸ hdma)
      refine ⟨hfree, nofun, ⟨_, rfl⟩, ?_, nofun⟩
      refine h.recount (f := v.freemem) rfl ?_
      simp only [dmaCount, hdma', Bool.false_eq_true, if_false, if_true]
      omega
    cases hfirst : v.list .pageFreelist with
    | some pp =>
      refine ⟨v, pp, ?_, hplain pp _ hfirst (.inl rfl)⟩
      simp only [Vm.pick, hfirst, Bool.false_eq_true, if_false]
      rfl
    | none =>
      cases hcache : v.list .pageCachelist with
      | some pp =>
        refine ⟨v, pp, ?_, hplain pp _ hcache (.inr rfl)⟩
        simp only [Vm.pick, hfirst, hcache, Bool.false_eq_true, if_false]
        rfl
      | none =>
        unfold Vm.total at hroom
        rw [size_eq_zero hL hfirst, size_eq_zero hL hcache] at hroom
        cases hon : c.dmaCheckOn with
        | false =>
          rw [dmaTotal_eq_zero hL hon] at hroom
          omega
        | true =>
          cases hdfirst : v.list .dmaPageFreelist with
          | some pp =>
            refine ⟨_, pp, ?_, hpaid pp _ hdfirst (.inl rfl)⟩
            simp only [Vm.pick, hfirst, hcache, hdfirst, hon, Bool.false_eq_true, if_false, if_true]
            rfl
          | none =>
            cases hdcache : v.list .dmaPageCachelist with
            | some pp =>
              refine ⟨_, pp, ?_, hpaid pp _ hdcache (.inr rfl)⟩
              simp only [Vm.pick, hfirst, hcache, hdfirst, hdcache, hon,
                Bool.false_eq_true, if_false, if_true]
              rfl
            | none =>
              unfold Vm.dmaTotal at hroom
              rw [size_eq_zero hL hdfirst, size_eq_zero hL hdcache] at hroom
              omega

theorem pull_spec (dmacheck : Bool) (n : Nat)
    (h : Sound c v n (if dmacheck then n else 0)) (hheld : Held v plist P)
    (hmem : 0 ≤ v.freemem) (hdma : dmacheck = true → 0 ≤ v.dmaFreemem) :
    ∃ r, pull c dmacheck n plist v = .ok r ∧ Sound c r.1 0 0 := by
  induction n generalizing v plist P with
  | zero =>
    refine ⟨(v, plist), rfl, ?_⟩
    cases dmacheck <;> simpa using h
  | succ n ih =>
    have htotal := h.freemem
    have hdmaTotal := h.dmaFreemem
    have hroom : if dmacheck then 1 ≤ v.dmaTotal else 1 ≤ v.total := by
      cases dmacheck with
      | false =>
        simp only [Bool.false_eq_true, if_false]
        omega
      | true =>
        have := hdma rfl
        simp only [if_true] at hdmaTotal ⊢
        omega
    obtain ⟨v₀, pp, hpick, hfree, hdmapp, ⟨g, rfl⟩, hs₀, hkept⟩ :=
      pick_spec h dmacheck hroom
    have hheld₀ : Held { v with dmaFreemem := g } plist P :=
      ⟨hheld.shown, hheld.busy⟩
    obtain ⟨v₁, v', plist', hreuse, hkeep, hs, hheld', _, hmem', hdma'⟩ :=
      reuse_keep_spec hs₀ hheld₀ hfree
    have hpanic : ¬ (dmacheck && !c.dmaPp pp) = true := by
      cases dmacheck with
      | false => simp
      | true => simp [hdmapp rfl]
    have hs' : Sound c v' n (if dmacheck then n else 0) := by
      have hd : ((n + 1 : Nat) : Int) - 1 = n := by omega
      cases dmacheck with
      | false => simpa using hs
      | true =>
        simp only [if_true, dmaCount, hdmapp rfl] at hs
        simpa using hs
    obtain ⟨r, hr, hsr⟩ := ih hs' hheld' (by rw [hmem']; exact hmem)
      (fun hd => by rw [hdma', hkept hd]; exact hdma hd)
    refine ⟨r, ?_, hsr⟩
    simp only [pull, hpick, bind, Except.bind, if_neg hpanic, hreuse, hkeep]
    exact hr

/-!
## The requests
-/

theorem charge_spec (h : Sound c v 0 0) (dmacheck : Bool) (n : Nat) :
    Sound c (v.charge dmacheck n) n (if dmacheck then n else 0) := by
  refine h.recount (by omega) ?_
  cases dmacheck
  · rfl
  · simp

/--
The run that a request finds without the DMA check has no DMA page, so that
`dma_freemem` need not change.
-/
def Apart (c : Pool) (v : Vm) (aligned : Nat → Bool) (npages : Nat) : Prop :=
  ∀ pp, FirstRun v.free aligned npages c.pageahead pp → ∀ i < npages, c.dmaPp (pp + i) = false

theorem contiguous_spec (h : Sound c v 0 0) {aligned : Nat → Bool}
    {dmacheck b : Bool} {n e : Nat} (himp : b = true → dmacheck = true)
    (hscan : scan c v.free aligned dmacheck n c.pageahead = some e)
    (hapart : dmacheck = false → Apart c v aligned n) :
    ∃ r, pullRun c b n e none (v.charge dmacheck n) = .ok r ∧ Sound c r.1 0 0 := by
  obtain ⟨hpos, hle, hrun, hlast, hfirst⟩ := scan_found hscan
  refine pullRun_spec himp n hle (charge_spec h dmacheck n) Held.start ?_
  intro i hlow hhigh
  have hi : e - n + (i - (e - n)) = i := by omega
  have hfree := (hrun (i - (e - n)) (by omega)).1
  rw [hi] at hfree
  refine ⟨hfree, ?_⟩
  cases dmacheck with
  | true => exact dmaPp_of_le (hlast rfl) (by omega)
  | false =>
    have hdma := hapart rfl _ (hfirst rfl) (i - (e - n)) (by omega)
    rwa [hi] at hdma

theorem Sound.dmaFreemem_le (h : Sound c v 0 0) : v.dmaFreemem ≤ v.freemem := by
  obtain ⟨L, hL⟩ := h.lists
  have htotal := h.freemem
  have hdmaTotal := h.dmaFreemem
  unfold Vm.total at htotal
  rw [hL.size, hL.size] at htotal
  omega

theorem enough_of_not_below {f : Flags} {n : Nat} (hbelow : belowReq c v f n = false) :
    (n : Int) ≤ if (c.dmaCheckOn && f.dma) = true then v.dmaFreemem else v.freemem := by
  have hle := Int.not_lt.mp (of_decide_eq_false hbelow)
  refine Int.le_trans ?_ hle
  split <;> omega

/-- `page_get` asks for pages in a row. -/
def Vm.Flags.inRow (f : Flags) (npages : Nat) : Bool := f.physcontig && decide (1 < npages)

/-- A request that is neither refused nor held up. -/
def Granted (c : Pool) (v : Vm) (f : Flags) (npages : Nat) : Prop :=
  tooLarge c f npages = false ∧ belowReq c v f npages = false

theorem pageGet_spec (h : Sound c v 0 0) (npages : Nat) (f : Flags)
    (hapart : Granted c v f npages → f.inRow npages = true →
      (c.dmaCheckOn && f.dma) = false → Apart c v (fun _ => true) npages) :
    ∃ r, v.pageGet c npages f = .ok r ∧ Sound c r.1 0 0 := by
  unfold Vm.pageGet
  cases hlarge : tooLarge c f npages with
  | true => exact ⟨_, rfl, h⟩
  | false =>
    cases hbelow : belowReq c v f npages with
    | true => exact ⟨_, rfl, h⟩
    | false =>
      simp only [Bool.false_eq_true, if_false]
      by_cases hrow : (f.physcontig && decide (1 < npages)) = true
      · rw [if_pos hrow]
        cases hscan : scan c (fun pp => (v.page pp).pFree) (fun _ => true)
            (c.dmaCheckOn && f.dma) npages c.pageahead with
        | none => exact ⟨_, rfl, h⟩
        | some e =>
          obtain ⟨r, hr, hs⟩ := contiguous_spec h id hscan (hapart ⟨hlarge, hbelow⟩ hrow)
          refine ⟨(r.1, .pages r.2), ?_, hs⟩
          dsimp only
          rw [hr]
          rfl
      · rw [if_neg hrow]
        have hroom := enough_of_not_below hbelow
        have hmem : 0 ≤ (v.charge (c.dmaCheckOn && f.dma) npages).freemem := by
          have hle := h.dmaFreemem_le
          simp only [Vm.charge]
          split at hroom <;> omega
        have hdma : (c.dmaCheckOn && f.dma) = true →
            0 ≤ (v.charge (c.dmaCheckOn && f.dma) npages).dmaFreemem := by
          intro hd
          rw [if_pos hd] at hroom
          simp only [Vm.charge, hd, if_true]
          omega
        obtain ⟨r, hr, hs⟩ := pull_spec (c.dmaCheckOn && f.dma) npages
          (charge_spec h _ npages) Held.start hmem hdma
        refine ⟨(r.1, .pages r.2), ?_, hs⟩
        rw [hr]
        rfl

theorem pageGetAligned_spec (h : Sound c v 0 0) (npages : Nat) (aligned : Nat → Bool)
    (f : Flags) (hapart : Granted c v f npages →
      (c.dmaCheckOn && f.dma) = false → Apart c v aligned npages) :
    ∃ r, v.pageGetAligned c npages aligned f = .ok r ∧ Sound c r.1 0 0 := by
  unfold Vm.pageGetAligned
  cases hlarge : tooLarge c f npages with
  | true => exact ⟨_, rfl, h⟩
  | false =>
    cases hbelow : belowReq c v f npages with
    | true => exact ⟨_, rfl, h⟩
    | false =>
      simp only [Bool.false_eq_true, if_false]
      cases hscan : scan c (fun pp => (v.page pp).pFree) aligned
          (c.dmaCheckOn && f.dma) npages c.pageahead with
      | none => exact ⟨_, rfl, h⟩
      | some e =>
        obtain ⟨r, hr, hs⟩ := contiguous_spec h (b := false) nofun hscan (hapart ⟨hlarge, hbelow⟩)
        refine ⟨(r.1, .pages r.2), ?_, hs⟩
        dsimp only
        rw [hr]
        rfl

end Requests

end Pages
end Svr4
