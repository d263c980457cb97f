import Mathlib.Data.List.Perm.Subperm
import Svr4.Pages.Model

/-!
# The names of pages

A page with a vnode is on the hash chain of its name and on the list of its
vnode, and no two pages that are not gone have the same name.
-/

namespace Svr4
namespace Pages

open Function Rings List Option

/-- The hash chains `H` and the vnode lists `V` hold the named pages. -/
structure Named (c : Pool) (v : Vm) (H V : Nat → List Nat) : Prop where
  chain : ∀ h, Chain v.pHash (v.pageHash h) (H h) none
  hashed : ∀ h pp, pp ∈ H h ↔ ∃ vp, (v.page pp).pVnode = some vp ∧
    c.pageHashfunc vp (v.page pp).pOffset = h
  shown : ∀ vp, Shown v.pVpnext v.pVpprev (v.vPages vp) (V vp)
  listed : ∀ vp pp, pp ∈ V vp ↔ (v.page pp).pVnode = some vp
  one : ∀ pp pp' vp, (v.page pp).pVnode = some vp → (v.page pp').pVnode = some vp →
    (v.page pp).pOffset = (v.page pp').pOffset → (v.page pp).pGone = false →
    (v.page pp').pGone = false → pp = pp'
  valid : ∀ pp, (v.page pp).pVnode ≠ none → pp < c.npages

section Names

variable {c : Pool} {v v' : Vm} {H V : Nat → List Nat} {pp vp off : Nat}

section

variable (h : Named c v H V)
include h

theorem Named.congr (hvnode : ∀ pp, (v'.page pp).pVnode = (v.page pp).pVnode)
    (hoffset : ∀ pp, (v'.page pp).pOffset = (v.page pp).pOffset)
    (hgone : ∀ pp, (v'.page pp).pGone = false → (v.page pp).pGone = false)
    (hhash : v'.pHash = v.pHash) (hheads : v'.pageHash = v.pageHash)
    (hnext : v'.pVpnext = v.pVpnext) (hprev : v'.pVpprev = v.pVpprev)
    (hfirst : v'.vPages = v.vPages) : Named c v' H V where
  chain b := by
    rw [hhash, hheads]
    exact h.chain b
  hashed b pp := by
    simp only [hvnode, hoffset]
    exact h.hashed b pp
  shown vp := by
    rw [hnext, hprev, hfirst]
    exact h.shown vp
  listed vp pp := by
    rw [hvnode]
    exact h.listed vp pp
  one pp pp' vp hp hp' hoff hg hg' := by
    rw [hvnode] at hp hp'
    rw [hoffset, hoffset] at hoff
    exact h.one pp pp' vp hp hp' hoff (hgone pp hg) (hgone pp' hg')
  valid pp hp := by
    rw [hvnode] at hp
    exact h.valid pp hp

theorem Named.length_le (b : Nat) : (H b).length ≤ c.npages := by
  have hsub : H b ⊆ List.range c.npages := by
    intro pp hpp
    obtain ⟨vp, hvp, _⟩ := (h.hashed b pp).mp hpp
    rw [mem_range]
    exact h.valid pp (by rw [hvp]; nofun)
  have hle := ((h.chain b).nodup.subperm hsub).length_le
  rwa [length_range] at hle

theorem Named.ring_length_le (vp : Nat) : (V vp).length ≤ c.npages := by
  have hsub : V vp ⊆ List.range c.npages := by
    intro pp hpp
    rw [mem_range]
    exact h.valid pp (by rw [(h.listed vp pp).mp hpp]; nofun)
  have hle := ((h.shown vp).nodup.subperm hsub).length_le
  rwa [length_range] at hle

theorem Named.seek (b : Nat) (p : Nat → Bool) :
    v.hashSeek c b p = .ok ((H b).find? p) := by
  unfold Vm.hashSeek
  rw [Chain.seek_eq (h.chain b) p (h.length_le b)]
  rfl

theorem Named.exists_spec (vp off : Nat) :
    ∃ r, v.pageExists c vp off = .ok r ∧ (r = none → ∀ pp,
      (v.page pp).pVnode = some vp → (v.page pp).pOffset = off → (v.page pp).pGone = true) := by
  refine ⟨_, h.seek _ _, fun hnone pp hvp hoff => ?_⟩
  have hmem : pp ∈ H (c.pageHashfunc vp off) :=
    (h.hashed _ pp).mpr ⟨vp, hvp, by rw [hoff]⟩
  have hfail := find?_eq_none.mp hnone pp hmem
  simpa [hvp, hoff] using hfail

theorem Named.hashin (hpp : (v.page pp).pVnode = none)
    (hvalid : pp < c.npages) (lock : Bool)
    (hnew : ∀ pp', (v.page pp').pVnode = some vp → (v.page pp').pOffset = off →
      (v.page pp').pGone = true) : ∃ H' V', Named c (v.pageHashin c pp vp off lock) H' V' := by
  have hout : ∀ b, pp ∉ H b := by
    intro b hmem
    obtain ⟨vp', hvp', _⟩ := (h.hashed b pp).mp hmem
    rw [hpp] at hvp'
    cases hvp'
  have hout' : ∀ w, pp ∉ V w := by
    intro w hmem
    rw [(h.listed w pp).mp hmem] at hpp
    cases hpp
  have hother : ∀ q, q ≠ pp → (v.pageHashin c pp vp off lock).page q = v.page q := fun q hq =>
    update_of_ne hq _ _
  have hself : (v.pageHashin c pp vp off lock).page pp =
      { v.page pp with pVnode := some vp, pOffset := off, pLock := lock } :=
    update_self _ _ _
  refine ⟨update H (c.pageHashfunc vp off) (pp :: H (c.pageHashfunc vp off)),
    update V vp (V vp ++ [pp]), ?_, ?_, ?_, ?_, ?_, ?_⟩
  · intro b
    by_cases hb : b = c.pageHashfunc vp off
    · subst hb
      simp only [Vm.pageHashin, update_self]
      exact (h.chain _).push (hout _)
    · simp only [Vm.pageHashin, update_of_ne hb]
      exact (h.chain b).update_of_notMem (hout b)
  · intro b q
    by_cases hq : q = pp
    · rw [hq, hself]
      by_cases hb : b = c.pageHashfunc vp off
      · rw [hb, update_self]
        exact iff_of_true (by simp) ⟨vp, rfl, rfl⟩
      · rw [update_of_ne hb]
        refine iff_of_false (hout b) ?_
        rintro ⟨vp', hvp', heq⟩
        obtain rfl : vp = vp' := some.inj hvp'
        exact hb heq.symm
    · rw [hother q hq, ← h.hashed b q]
      by_cases hb : b = c.pageHashfunc vp off
      · rw [hb, update_self, mem_cons]
        simp [hq]
      · rw [update_of_ne hb]
  · intro w
    by_cases hw : w = vp
    · subst hw
      simp only [Vm.pageHashin, update_self]
      exact link_back (h.shown w) (hout' w)
    · simp only [Vm.pageHashin, update_of_ne hw]
      have hframe : ∀ z ∈ V w, z ∉ pp :: V vp := by
        intro z hz hmem
        rcases mem_cons.mp hmem with rfl | hmem
        · exact hout' w hz
        · have hzw := (h.listed w z).mp hz
          rw [(h.listed vp z).mp hmem] at hzw
          exact hw (some.inj hzw).symm
      exact (h.shown w).congr (fun z hz => (link_frame (h.shown vp) (hframe z hz)).1)
        fun z hz => (link_frame (h.shown vp) (hframe z hz)).2
  · intro w q
    by_cases hq : q = pp
    · rw [hq, hself]
      by_cases hw : w = vp
      · rw [hw, update_self]
        exact iff_of_true (by simp) rfl
      · rw [update_of_ne hw]
        exact iff_of_false (hout' w) fun heq => hw (some.inj heq).symm
    · rw [hother q hq, ← h.listed w q]
      by_cases hw : w = vp
      · rw [hw, update_self, mem_append, mem_singleton]
        simp [hq]
      · rw [update_of_ne hw]
  · intro q q' w hw hw' hoff hg hg'
    by_cases hq : q = pp
    · by_cases hq' : q' = pp
      · rw [hq, hq']
      · rw [hq, hself] at hw hoff hg
        rw [hother q' hq'] at hw' hoff hg'
        obtain rfl : vp = w := some.inj hw
        rw [hnew q' hw' hoff.symm] at hg'
        cases hg'
    · rw [hother q hq] at hw hoff hg
      by_cases hq' : q' = pp
      · rw [hq', hself] at hw' hoff
        obtain rfl : vp = w := some.inj hw'
        rw [hnew q hw hoff] at hg
        cases hg
      · rw [hother q' hq'] at hw' hoff hg'
        exact h.one q q' w hw hw' hoff hg hg'
  · intro q hq
    by_cases hqp : q = pp
    · rwa [hqp]
    · rw [hother q hqp] at hq
      exact h.valid q hq

theorem Named.hashout (hpp : (v.page pp).pVnode = some vp) :
    ∃ v', v.pageHashout c pp vp = .ok v' ∧ (∃ hash heads next prev first, v' = { v with
        page := update v.page pp { v.page pp with pVnode := none, pOffset := 0, pGone := false }
        pHash := hash, pageHash := heads, pVpnext := next, pVpprev := prev
        vPages := first }) ∧ ∃ H' V', Named c v' H' V' := by
  let b := c.pageHashfunc vp (v.page pp).pOffset
  have hmem : pp ∈ H b := (h.hashed b pp).mpr ⟨vp, hpp, rfl⟩
  have hmem' : pp ∈ V vp := (h.listed vp pp).mpr hpp
  have hfind : (H b).find? (fun hp => decide (hp = pp)) = some pp := by
    have hsome : ((H b).find? fun hp => decide (hp = pp)).isSome := by
      rw [find?_isSome]
      exact ⟨pp, hmem, decide_eq_true rfl⟩
    obtain ⟨q, hq⟩ := Option.isSome_iff_exists.mp hsome
    have hqp : q = pp := by simpa using find?_some hq
    rw [hq, hqp]
  obtain ⟨head, links, hunlink, hchain, hframe⟩ :=
    Chain.unlink_spec (h.chain b) hmem (h.length_le b)
  have hrun : v.pageHashout c pp vp = .ok { v with
      page := update v.page pp { v.page pp with pVnode := none, pOffset := 0, pGone := false }
      pHash := update links pp none
      pageHash := update v.pageHash b head
      pVpnext := (cut v.pVpnext v.pVpprev (v.vPages vp) pp).2.1
      pVpprev := (cut v.pVpnext v.pVpprev (v.vPages vp) pp).2.2
      vPages := update v.vPages vp (cut v.pVpnext v.pVpprev (v.vPages vp) pp).1 } := by
    simp only [Vm.pageHashout, h.seek, bind, Except.bind]
    rw [hfind]
    simp only
    rw [hunlink]
    rfl
  have hnodup := (h.chain b).nodup
  have hnotb : pp ∉ (H b).erase pp := fun hin => (hnodup.mem_erase_iff.mp hin).1 rfl
  have hnoth : ∀ b', b' ≠ b → pp ∉ H b' := by
    intro b' hb' hin
    obtain ⟨vp', hvp', heq⟩ := (h.hashed b' pp).mp hin
    obtain rfl : vp = vp' := some.inj (hpp.symm.trans hvp')
    exact hb' heq.symm
  have hnotv : ∀ w, w ≠ vp → pp ∉ V w := by
    intro w hw hin
    have heq := (h.listed w pp).mp hin
    rw [hpp] at heq
    exact hw (some.inj heq).symm
  refine ⟨_, hrun, ⟨_, _, _, _, _, rfl⟩, update H b ((H b).erase pp),
    update V vp ((V vp).erase pp), ?_, ?_, ?_, ?_, ?_, ?_⟩
  · intro b'
    by_cases hb : b' = b
    · subst hb
      simp only [update_self]
      exact hchain.update_of_notMem hnotb
    · simp only [update_of_ne hb]
      apply Chain.update_of_notMem _ (hnoth b' hb)
      refine (h.chain b').congr fun z hz => hframe z ?_
      intro hzb
      obtain ⟨w, hw, heq⟩ := (h.hashed b' z).mp hz
      obtain ⟨w', hw', heq'⟩ := (h.hashed b z).mp hzb
      obtain rfl : w = w' := some.inj (hw.symm.trans hw')
      exact hb (heq.symm.trans heq')
  · intro b' q
    by_cases hq : q = pp
    · rw [hq]
      simp only [update_self]
      refine iff_of_false ?_ nofun
      by_cases hb : b' = b
      · rw [hb, update_self]
        exact hnotb
      · rw [update_of_ne hb]
        exact hnoth b' hb
    · simp only [update_of_ne hq]
      rw [← h.hashed b' q]
      by_cases hb : b' = b
      · rw [hb, update_self, hnodup.mem_erase_iff]
        simp [hq]
      · rw [update_of_ne hb]
  · intro w
    by_cases hw : w = vp
    · subst hw
      simp only [update_self]
      exact cut_shown (h.shown w) hmem'
    · simp only [update_of_ne hw]
      have hout : ∀ z ∈ V w, z ∉ V vp := by
        intro z hz hzv
        have hzw := (h.listed w z).mp hz
        rw [(h.listed vp z).mp hzv] at hzw
        exact hw (some.inj hzw).symm
      exact (h.shown w).congr (fun z hz => (cut_frame (h.shown vp) hmem' (hout z hz)).1)
        fun z hz => (cut_frame (h.shown vp) hmem' (hout z hz)).2
  · intro w q
    by_cases hq : q = pp
    · rw [hq]
      simp only [update_self]
      refine iff_of_false ?_ nofun
      by_cases hw : w = vp
      · rw [hw, update_self]
        exact fun hin => ((h.shown vp).nodup.mem_erase_iff.mp hin).1 rfl
      · rw [update_of_ne hw]
        exact hnotv w hw
    · simp only [update_of_ne hq]
      rw [← h.listed w q]
      by_cases hw : w = vp
      · rw [hw, update_self, (h.shown vp).nodup.mem_erase_iff]
        simp [hq]
      · rw [update_of_ne hw]
  · intro q q' w hw hw' hoff hg hg'
    by_cases hq : q = pp
    · rw [hq] at hw
      simp only [update_self] at hw
      cases hw
    · by_cases hq' : q' = pp
      · rw [hq'] at hw'
        simp only [update_self] at hw'
        cases hw'
      · simp only [update_of_ne hq, update_of_ne hq'] at hw hw' hoff hg hg'
        exact h.one q q' w hw hw' hoff hg hg'
  · intro q hq
    by_cases hqp : q = pp
    · rw [hqp]
      exact h.valid pp (by rw [hpp]; nofun)
    · simp only [update_of_ne hqp] at hq
      exact h.valid q hq

end

end Names

end Pages
end Svr4
