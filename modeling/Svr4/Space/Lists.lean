import Mathlib.Data.List.Perm.Subperm
import Svr4.Lib.Ring
import Svr4.Space.Model

/-!
# The segments of an address space

An address space represents a list of segments: they form a ring from
`a_segs` on, lie at ascending addresses without overlap, and
`a_seglast` is one of them.  This module develops what putting a segment into the
ring and taking one out of it do to the list.
-/

namespace Svr4
namespace Space

open Function Rings List Option

def IsRing (m : Segs) : List Nat → Prop
  | [] => True
  | h :: t => Closed m.sNext m.sPrev h t

/-- An address space represents a list of segments. -/
structure Rep (m : Segs) (as : As) (l : List Nat) : Prop where
  first : as.aSegs = l.head?
  ring : IsRing m l
  used : ∀ s ∈ l, s ∈ m.used
  place : ∀ s ∈ l, 0 < m.sSize s ∧ m.sBase s + m.sSize s < KVBASE
  sorted : l.Pairwise fun s t => m.sBase s + m.sSize s ≤ m.sBase t
  last : ∀ s, as.aSeglast = some s → s ∈ l

def total (m : Segs) (l : List Nat) : Int := (l.map fun s => (m.sSize s : Int)).sum

structure Frame (m : Segs) (l : List Nat) (m' : Segs) (l' : List Nat) : Prop where
  next : ∀ s ∈ m.used, s ∉ l → m'.sNext s = m.sNext s
  prev : ∀ s ∈ m.used, s ∉ l → m'.sPrev s = m.sPrev s
  base : ∀ s ∈ m.used, s ∉ l → m'.sBase s = m.sBase s
  size : ∀ s ∈ m.used, s ∉ l → m'.sSize s = m.sSize s
  used : ∀ s ∈ m.used, s ∉ l → s ∈ m'.used
  fresh : ∀ s ∈ l', s ∈ l ∨ s ∉ m.used
  nodup : m.used.Nodup → m'.used.Nodup

variable {h addr fuel seg first z : Nat}

section Rings

variable {m m' m'' : Segs} {as as' : As} {l l' l'' a b : List Nat} {s : Nat}

theorem Frame.refl (m : Segs) (l : List Nat) : Frame m l m l :=
  ⟨fun _ _ _ => rfl, fun _ _ _ => rfl, fun _ _ _ => rfl, fun _ _ _ => rfl, fun _ hs _ => hs,
    fun _ hs => .inl hs, id⟩

theorem Frame.trans (h : Frame m l m' l') (h' : Frame m' l' m'' l'') : Frame m l m'' l'' := by
  have hout : ∀ s ∈ m.used, s ∉ l → s ∈ m'.used ∧ s ∉ l' := by
    intro s hs hl
    refine ⟨h.used s hs hl, fun hmem => ?_⟩
    rcases h.fresh s hmem with hmem | hnot
    · exact hl hmem
    · exact hnot hs
  refine ⟨?_, ?_, ?_, ?_, ?_, ?_, fun hnodup => h'.nodup (h.nodup hnodup)⟩
  · intro s hs hl
    obtain ⟨hs', hl'⟩ := hout s hs hl
    rw [h'.next s hs' hl', h.next s hs hl]
  · intro s hs hl
    obtain ⟨hs', hl'⟩ := hout s hs hl
    rw [h'.prev s hs' hl', h.prev s hs hl]
  · intro s hs hl
    obtain ⟨hs', hl'⟩ := hout s hs hl
    rw [h'.base s hs' hl', h.base s hs hl]
  · intro s hs hl
    obtain ⟨hs', hl'⟩ := hout s hs hl
    rw [h'.size s hs' hl', h.size s hs hl]
  · intro s hs hl
    obtain ⟨hs', hl'⟩ := hout s hs hl
    exact h'.used s hs' hl'
  · intro s hs
    rcases h'.fresh s hs with hmem | hnot
    · exact h.fresh s hmem
    · by_cases hl : s ∈ l
      · exact .inl hl
      · exact .inr fun hused => hnot (h.used s hused hl)

theorem IsRing.nodup (hr : IsRing m l) : l.Nodup := by
  cases l with
  | nil => exact nodup_nil
  | cons h t => exact Closed.nodup hr

theorem IsRing.congr (hr : IsRing m l) (hnext : ∀ s ∈ l, m'.sNext s = m.sNext s)
    (hprev : ∀ s ∈ l, m'.sPrev s = m.sPrev s) : IsRing m' l := by
  cases l with
  | nil => trivial
  | cons h t => exact Closed.congr hr hnext hprev

theorem total_congr (hsize : ∀ s ∈ l, m'.sSize s = m.sSize s) : total m' l = total m l := by
  unfold total
  rw [map_congr_left fun s hs => by rw [hsize s hs]]

theorem total_append (m : Segs) (l l' : List Nat) : total m (l ++ l') = total m l + total m l' := by
  unfold total
  rw [map_append, sum_append]

theorem total_cons (m : Segs) (s : Nat) (l : List Nat) :
    total m (s :: l) = m.sSize s + total m l := by
  unfold total
  rw [map_cons, sum_cons]

theorem total_nil (m : Segs) : total m [] = 0 := rfl

theorem Rep.congr (hr : Rep m as l) (hnext : ∀ s ∈ l, m'.sNext s = m.sNext s)
    (hprev : ∀ s ∈ l, m'.sPrev s = m.sPrev s) (hbase : ∀ s ∈ l, m'.sBase s = m.sBase s)
    (hsize : ∀ s ∈ l, m'.sSize s = m.sSize s) (hused : ∀ s ∈ l, s ∈ m'.used) : Rep m' as l where
  first := hr.first
  ring := hr.ring.congr hnext hprev
  used := hused
  place s hs := by
    rw [hbase s hs, hsize s hs]
    exact hr.place s hs
  sorted := by
    refine hr.sorted.imp_of_mem ?_
    intro s t hs ht hle
    rw [hbase s hs, hsize s hs, hbase t ht]
    exact hle
  last := hr.last

theorem Rep.frame {k : List Nat} (hr : Rep m as l) (hf : Frame m k m' l')
    (hout : ∀ s ∈ l, s ∉ k) : Rep m' as l :=
  hr.congr (fun s hs => hf.next s (hr.used s hs) (hout s hs))
    (fun s hs => hf.prev s (hr.used s hs) (hout s hs))
    (fun s hs => hf.base s (hr.used s hs) (hout s hs))
    (fun s hs => hf.size s (hr.used s hs) (hout s hs))
    (fun s hs => hf.used s (hr.used s hs) (hout s hs))

theorem Rep.of_as (hr : Rep m as l) (hsegs : as'.aSegs = as.aSegs)
    (hlast : ∀ s, as'.aSeglast = some s → s ∈ l) : Rep m as' l where
  first := hsegs.trans hr.first
  ring := hr.ring
  used := hr.used
  place := hr.place
  sorted := hr.sorted
  last := hlast

theorem Rep.length_le (hr : Rep m as l) : l.length ≤ m.used.length :=
  (subperm_of_subset hr.ring.nodup hr.used).length_le

theorem IsRing.next_eq (hr : IsRing m (a ++ s :: b))
    (hh : (a ++ s :: b).head? = some h) : m.sNext s = b.headD h := by
  cases a with
  | nil =>
    cases hh
    exact Linked.next_eq (Closed.linked hr)
  | cons x a =>
    cases hh
    exact (Linked.append_iff.mp (Closed.linked hr)).2.next_eq

theorem IsRing.prev_eq (hr : IsRing m (h :: (a ++ s :: b))) :
    (h :: a).getLast? = some (m.sPrev s) :=
  (Linked.append_iff.mp (Closed.linked hr)).1.prev_eq

theorem IsRing.prev_first {t : List Nat} (hr : IsRing m (h :: t)) :
    (h :: t).getLast? = some (m.sPrev h) :=
  (Closed.linked hr).prev_eq

theorem sEnd_eq (hplace : m.sBase s + m.sSize s < KVBASE) : m.sEnd s = m.sBase s + m.sSize s := by
  have hk : KVBASE < word := by decide
  exact Nat.mod_eq_of_lt (by omega)

theorem Rep.sEnd_eq (hr : Rep m as l) (hs : s ∈ l) : m.sEnd s = m.sBase s + m.sSize s :=
  Space.sEnd_eq (hr.place s hs).2

end Rings

/-!
## Looking for a segment
-/

namespace Segs

section Search

variable {m : Segs} {as : As} {l a b : List Nat}

theorem segatLoop_mem {sseg : Nat} {r : Option Nat} (hr : IsRing m l) (hseg : seg ∈ l)
    (hloop : m.segatLoop sseg addr fuel seg = some r) : ∀ s, r = some s → s ∈ l := by
  induction fuel generalizing seg with
  | zero => cases hloop
  | succ fuel ih =>
    rw [segatLoop] at hloop
    split at hloop
    · rw [← some.inj hloop]
      rintro s ⟨rfl⟩
      exact hseg
    · split at hloop
      · refine ih ?_ hloop
        cases l with
        | nil => cases hseg
        | cons h t => exact (Closed.neighbours hr hseg).1
      · rw [← some.inj hloop]
        nofun

theorem asSegat_rep {r : As × Option Nat} (hr : Rep m as l) (hsegat : m.asSegat as addr = some r) :
    Rep m r.1 l ∧ r.1.aSize = as.aSize ∧ r.1.aPaglck = as.aPaglck ∧
      r.1.aSegs = as.aSegs ∧ ∀ s, r.2 = some s → s ∈ l := by
  unfold asSegat at hsegat
  simp only at hsegat
  have hhint : ∃ as₁ : As, as₁ =
        (if as.aSeglast = none then { as with aSeglast := as.aSegs } else as) ∧
      Rep m as₁ l ∧ as₁.aSize = as.aSize ∧ as₁.aPaglck = as.aPaglck ∧
      as₁.aSegs = as.aSegs := by
    refine ⟨_, rfl, ?_⟩
    split
    · refine ⟨hr.of_as rfl fun s hs => ?_, rfl, rfl, rfl⟩
      have hs : as.aSegs = some s := hs
      rw [hr.first] at hs
      exact mem_of_mem_head? hs
    · exact ⟨hr, rfl, rfl, rfl⟩
  obtain ⟨as₁, has₁, hr₁, hsize, hlck, hsegs⟩ := hhint
  rw [← has₁] at hsegat
  split at hsegat
  · cases hsegat
    exact ⟨hr₁, hsize, hlck, hsegs, nofun⟩
  · rename_i sseg hlast
    split at hsegat
    · cases hsegat
    · cases hsegat
      exact ⟨hr₁, hsize, hlck, hsegs, nofun⟩
    · rename_i seg hloop
      cases hsegat
      have hmem : seg ∈ l := segatLoop_mem hr₁.ring (hr₁.last _ hlast) hloop seg rfl
      refine ⟨hr₁.of_as rfl ?_, hsize, hlck, hsegs, ?_⟩
      · rintro s ⟨rfl⟩
        exact hmem
      · rintro s ⟨rfl⟩
        exact hmem

/-- A segment of a list shares an address with a range. -/
def Overlaps (m : Segs) (l : List Nat) (base size : Nat) : Prop :=
  ∃ s ∈ l, m.sBase s < base + size ∧ base < m.sBase s + m.sSize s

theorem addsegLoop_spec {p size : Nat} (hr : Rep m as l) (hfirst : l.head? = some first)
    (hsize : 0 < size) (hsplit : l = a ++ seg :: b) (hbefore : ∀ s ∈ a, m.sBase s + m.sSize s ≤ p)
    (hfuel : (seg :: b).length ≤ fuel) :
    (m.addsegLoop first p (p + size) fuel seg = some none ∧ Overlaps m l p size) ∨
    ∃ a' b', l = a' ++ b' ∧ a' ++ b' ≠ [] ∧
      m.addsegLoop first p (p + size) fuel seg = some (some (b'.headD first)) ∧
      (∀ s ∈ a', m.sBase s + m.sSize s ≤ p) ∧
      ∀ s ∈ b'.head?, p < m.sBase s ∧ p + size ≤ m.sBase s := by
  induction fuel generalizing a b seg with
  | zero =>
    rw [length_cons] at hfuel
    omega
  | succ fuel ih =>
    have hseg : seg ∈ l := by
      rw [hsplit]
      simp
    rw [addsegLoop]
    by_cases hlow : p < m.sBase seg
    · rw [if_pos hlow]
      by_cases hover : p + size > m.sBase seg
      · rw [if_pos hover]
        exact .inl ⟨rfl, seg, hseg, by omega, by omega⟩
      · rw [if_neg hover]
        refine .inr ⟨a, seg :: b, hsplit, by simp, rfl, hbefore, ?_⟩
        rintro s ⟨rfl⟩
        exact ⟨hlow, by omega⟩
    · rw [if_neg hlow]
      by_cases hin : p < m.sEnd seg
      · rw [if_pos hin]
        rw [hr.sEnd_eq hseg] at hin
        exact .inl ⟨rfl, seg, hseg, by omega, hin⟩
      · rw [if_neg hin]
        rw [hr.sEnd_eq hseg] at hin
        have hnext : m.sNext seg = b.headD first := by
          refine IsRing.next_eq (a := a) (s := seg) ?_ ?_
          · rw [← hsplit]
            exact hr.ring
          · rw [← hsplit]
            exact hfirst
        have hbefore' : ∀ s ∈ a ++ [seg], m.sBase s + m.sSize s ≤ p := by
          intro s hs
          rcases mem_append.mp hs with hs | hs
          · exact hbefore s hs
          · rw [mem_singleton.mp hs]
            omega
        cases b with
        | nil =>
          have hend : ¬ m.sNext seg ≠ first := by
            rw [hnext]
            exact fun hne => hne rfl
          rw [if_neg hend, hnext]
          exact .inr ⟨a ++ [seg], [], by rw [hsplit]; simp, by simp, rfl, hbefore', nofun⟩
        | cons t b =>
          have ht : m.sNext seg = t := hnext
          have hne : m.sNext seg ≠ first := by
            rw [ht]
            rintro rfl
            have hnodup := hr.ring.nodup
            rw [hsplit] at hnodup hfirst
            cases a with
            | nil =>
              cases hfirst
              exact (nodup_cons.mp hnodup).1 mem_cons_self
            | cons x a =>
              cases hfirst
              exact (nodup_cons.mp hnodup).1 (by simp)
          rw [if_pos hne, ht]
          refine ih (a := a ++ [seg]) (b := b) ?_ hbefore' ?_
          · rw [hsplit]
            simp
          · simpa using hfuel

end Search

end Segs

/-!
## Putting a segment into the ring
-/

namespace Segs

section Insert

variable {m : Segs} {as : As} {l a b : List Nat} {new : Nat}

theorem linkBefore_next (hseg : new ≠ seg) : (m.linkBefore new seg).sNext z =
      if z = m.sPrev seg then new else if z = new then seg else m.sNext z := by
  have hp : update (update m.sPrev new (m.sPrev seg)) seg new new = m.sPrev seg := by
    rw [update_of_ne hseg, update_self]
  change update (update m.sNext new seg)
    (update (update m.sPrev new (m.sPrev seg)) seg new new) new z = _
  rw [hp]
  by_cases hz : z = m.sPrev seg
  · rw [if_pos hz, hz, update_self]
  · rw [if_neg hz, update_of_ne hz]
    by_cases hzn : z = new
    · rw [if_pos hzn, hzn, update_self]
    · rw [if_neg hzn, update_of_ne hzn]

theorem linkBefore_prev : (m.linkBefore new seg).sPrev z =
    if z = seg then new else if z = new then m.sPrev seg else m.sPrev z := by
  change update (update m.sPrev new (m.sPrev seg)) seg new z = _
  by_cases hz : z = seg
  · rw [if_pos hz, hz, update_self]
  · rw [if_neg hz, update_of_ne hz]
    by_cases hzn : z = new
    · rw [if_pos hzn, hzn, update_self]
    · rw [if_neg hzn, update_of_ne hzn]

theorem linkBefore_ring (hr : IsRing m (a ++ b)) (hfirst : (a ++ b).head? = some first)
    (hnew : new ∉ a ++ b) : IsRing (m.linkBefore new (b.headD first)) (a ++ new :: b) := by
  -- behind the last one, or before the one that is found
  have hins : ∀ {c d : List Nat}, Closed m.sNext m.sPrev first (c ++ d) →
      new ∉ first :: (c ++ d) → ∀ seg, (seg = d.headD first) →
      Closed (m.linkBefore new seg).sNext (m.linkBefore new seg).sPrev first (c ++ new :: d) := by
    intro c d hc hmem seg hseg
    have hin : seg ∈ first :: (c ++ d) := by
      rw [hseg]
      cases d with
      | nil => exact mem_cons_self
      | cons x d => simp
    have hne : new ≠ seg := fun heq => hmem (heq ▸ hin)
    have hpin := (hc.neighbours hin).2
    have hnep : new ≠ m.sPrev seg := fun heq => hmem (heq ▸ hpin)
    have hback : m.sNext (m.sPrev seg) = seg := hc.next_prev hin
    have hlast : (first :: c).getLast? = some (m.sPrev seg) := by
      rw [hseg]
      cases d with
      | nil =>
        rw [append_nil] at hc
        exact hc.linked.prev_eq
      | cons x d => exact (Linked.append_iff.mp hc.linked).1.prev_eq
    refine hc.insert hlast hmem ?_ ?_ ?_ ?_ ?_ ?_
    · rw [linkBefore_next hne, if_neg hnep, if_pos rfl, hback]
    · rw [linkBefore_next hne, if_pos rfl]
    · intro z hz hzp
      rw [linkBefore_next hne, if_neg hzp, if_neg hz]
    · rw [linkBefore_prev, if_neg hne, if_pos rfl]
    · rw [hback, linkBefore_prev, if_pos rfl]
    · intro z hz hzs
      rw [hback] at hzs
      rw [linkBefore_prev, if_neg hzs, if_neg hz]
  cases a with
  | nil =>
    cases b with
    | nil => cases hfirst
    | cons x b =>
      cases hfirst
      have hring := hins (c := b) (d := []) (by rw [append_nil]; exact hr)
        (by rw [append_nil]; exact hnew) first rfl
      have hrot := hring.rotate
      exact hrot
  | cons x a =>
    cases hfirst
    exact hins hr hnew _ rfl

theorem asAddseg_spec (hr : Rep m as l) (hnew : new ∉ l) (hused : new ∈ m.used)
    (hplace : 0 < m.sSize new ∧ m.sBase new + m.sSize new < KVBASE) :
    (m.asAddseg as new = some none ∧ Overlaps m l (m.sBase new) (m.sSize new)) ∨
    ∃ m' as' a b, m.asAddseg as new = some (some (m', as')) ∧ l = a ++ b ∧
      Rep m' as' (a ++ new :: b) ∧ m'.sBase = m.sBase ∧ m'.sSize = m.sSize ∧
      m'.used = m.used ∧ as'.aSeglast = as.aSeglast ∧ as'.aSize = as.aSize ∧
      as'.aPaglck = as.aPaglck ∧
      ∀ s, s ∉ l → s ≠ new → m'.sNext s = m.sNext s ∧ m'.sPrev s = m.sPrev s := by
  cases l with
  | nil =>
    have hnone : as.aSegs = none := hr.first
    refine .inr ⟨(m.setNext new new).setPrev new new, { as with aSegs := some new }, [], [],
      ?_, rfl, ?_, rfl, rfl, rfl, rfl, rfl, rfl, ?_⟩
    · unfold asAddseg
      rw [hnone]
    · refine ⟨rfl, ?_, ?_, ?_, pairwise_singleton _ _, ?_⟩
      · exact ⟨⟨update_self _ _ _, update_self _ _ _⟩, nodup_singleton _⟩
      · rintro s hs
        rw [mem_singleton.mp hs]
        exact hused
      · rintro s hs
        rw [mem_singleton.mp hs]
        exact hplace
      · intro s hs
        exact absurd (hr.last s hs) not_mem_nil
    · intro s _ hs
      exact ⟨update_of_ne hs _ _, update_of_ne hs _ _⟩
  | cons first t =>
    have hfirst : as.aSegs = some first := hr.first
    have hend := Space.sEnd_eq hplace.2
    have hfuel : (first :: t).length ≤ m.used.length := hr.length_le
    have hloop := addsegLoop_spec (p := m.sBase new) hr rfl
      hplace.1 (nil_append (first :: t)).symm (fun s hs => absurd hs not_mem_nil) hfuel
    rw [← hend] at hloop
    rcases hloop with ⟨hover, hwhy⟩ | ⟨a, b, hsplit, hne, hfound, hbefore, hafter⟩
    · refine .inl ⟨?_, hwhy⟩
      unfold asAddseg
      rw [hfirst]
      simp only [hover]
    · have hafter : ∀ s ∈ b.head?, m.sBase new < m.sBase s ∧
          m.sBase new + m.sSize new ≤ m.sBase s := by
        intro s hs
        have hs := hafter s hs
        omega
      let seg := b.headD first
      let as' : As := if m.sBase new < m.sBase first then { as with aSegs := some new } else as
      have has' : as'.aSegs = (a ++ new :: b).head? ∧ as'.aSeglast = as.aSeglast ∧
          as'.aSize = as.aSize ∧ as'.aPaglck = as.aPaglck := by
        cases a with
        | nil =>
          rw [nil_append] at hsplit
          have hlow := (hafter first (by rw [← hsplit]; rfl)).1
          have heq : as' = { as with aSegs := some new } := if_pos hlow
          rw [heq]
          exact ⟨rfl, rfl, rfl, rfl⟩
        | cons x a =>
          have hx : x = first := by
            have hhead := congrArg List.head? hsplit
            exact (some.inj hhead).symm
          have hle := hbefore x mem_cons_self
          have hpos := (hr.place first mem_cons_self).1
          rw [hx] at hle
          have heq : as' = as := if_neg (by omega)
          rw [heq, hfirst, hx]
          exact ⟨rfl, rfl, rfl, rfl⟩
      have hseg : seg ∈ first :: t := by
        change b.headD first ∈ _
        rw [hsplit]
        cases b with
        | nil =>
          rw [← hsplit]
          exact mem_cons_self
        | cons x b => simp
      have hnseg : new ≠ seg := fun heq => hnew (heq ▸ hseg)
      have hpin : m.sPrev seg ∈ first :: t := (Closed.neighbours hr.ring hseg).2
      refine .inr ⟨m.linkBefore new seg, as', a, b, ?_, hsplit, ?_, rfl, rfl, rfl,
        has'.2.1, has'.2.2.1, has'.2.2.2, ?_⟩
      · unfold asAddseg
        rw [hfirst]
        simp only [hfound]
        rfl
      · have hr' := hr
        rw [hsplit] at hr' hnew
        refine ⟨has'.1, ?_, ?_, ?_, ?_, ?_⟩
        · refine linkBefore_ring hr'.ring ?_ hnew
          rw [← hsplit]
          rfl
        · intro s hs
          rcases mem_append.mp hs with hs | hs
          · exact hr'.used s (mem_append_left _ hs)
          · rcases mem_cons.mp hs with rfl | hs
            · exact hused
            · exact hr'.used s (mem_append_right _ hs)
        · intro s hs
          rcases mem_append.mp hs with hs | hs
          · exact hr'.place s (mem_append_left _ hs)
          · rcases mem_cons.mp hs with rfl | hs
            · exact hplace
            · exact hr'.place s (mem_append_right _ hs)
        · obtain ⟨ha, hb, hab⟩ := pairwise_append.mp hr'.sorted
          have hnewb : ∀ t ∈ b, m.sBase new + m.sSize new ≤ m.sBase t := by
            intro t ht
            cases b with
            | nil => cases ht
            | cons y b =>
              have hy := (hafter y rfl).2
              rcases mem_cons.mp ht with rfl | ht
              · exact hy
              · have hle := (pairwise_cons.mp hb).1 t ht
                omega
          refine pairwise_append.mpr ⟨ha, pairwise_cons.mpr ⟨hnewb, hb⟩, ?_⟩
          intro s hs t ht
          rcases mem_cons.mp ht with rfl | ht
          · exact hbefore s hs
          · exact hab s hs t ht
        · intro s hs
          rw [has'.2.1] at hs
          have hmem := hr'.last s hs
          rcases mem_append.mp hmem with hmem | hmem
          · exact mem_append_left _ hmem
          · exact mem_append_right _ (mem_cons_of_mem _ hmem)
      · intro s hs hsn
        have hsseg : s ≠ seg := fun heq => hs (heq ▸ hseg)
        have hsprev : s ≠ m.sPrev seg := fun heq => hs (heq ▸ hpin)
        constructor
        · rw [linkBefore_next hnseg, if_neg hsprev, if_neg hsn]
        · rw [linkBefore_prev, if_neg hsseg, if_neg hsn]

end Insert

end Segs

/-!
## Taking a segment out of the ring
-/

namespace Segs

section Remove

variable {m : Segs} {as : As} {l a b : List Nat} {s : Nat}

theorem unlink_ring (hr : IsRing m (a ++ s :: b)) (hne : a ++ b ≠ []) :
    IsRing (m.unlink s) (a ++ b) := by
  have hfields : ∀ {h : Nat} {c d : List Nat}, Closed m.sNext m.sPrev h (c ++ s :: d) →
      Closed (m.unlink s).sNext (m.unlink s).sPrev h (c ++ d) := by
    intro h c d hc
    have hout := hc.remove
    have hnext : (m.unlink s).sPrev = update m.sPrev
        (update m.sNext (m.sPrev s) (m.sNext s) s) (m.sPrev s) := rfl
    have hself : m.sPrev s ≠ s := by
      intro heq
      have hlast := (Linked.append_iff.mp hc.linked).1.prev_mem
      rw [heq] at hlast
      have hnodup := hc.nodup
      rcases mem_cons.mp hlast with rfl | hmem
      · exact (nodup_cons.mp hnodup).1 (by simp)
      · have hdisj := (nodup_append.mp (nodup_cons.mp hnodup).2).2.2
        exact hdisj s hmem s mem_cons_self rfl
    rw [update_of_ne hself.symm] at hnext
    rw [hnext]
    exact hout
  cases a with
  | nil =>
    cases b with
    | nil => exact absurd rfl hne
    | cons h t =>
      have hrot : Closed m.sNext m.sPrev h (t ++ [s]) := by
        have hc : Closed m.sNext m.sPrev s ([] ++ h :: t) := hr
        exact hc.rotate
      have hout := hfields hrot
      rw [append_nil] at hout
      exact hout
  | cons h a => exact hfields hr

theorem asRemove_spec (hr : Rep m as (a ++ s :: b)) :
    ∃ m' as', m.asRemove as s = (m', as') ∧ Rep m' as' (a ++ b) ∧
      m'.sBase = m.sBase ∧ m'.sSize = m.sSize ∧ m'.used = m.used ∧
      as'.aSize = as.aSize ∧ as'.aPaglck = as.aPaglck ∧
      ∀ t, t ∉ a ++ s :: b → m'.sNext t = m.sNext t ∧ m'.sPrev t = m.sPrev t := by
  have hnodup := hr.ring.nodup
  have hsub : (a ++ b).Sublist (a ++ s :: b) :=
    (sublist_cons_self s b).append_left a
  have hsnot : s ∉ a ++ b := by
    rw [perm_middle.nodup_iff] at hnodup
    exact (nodup_cons.mp hnodup).1
  have hin : s ∈ a ++ s :: b := by simp
  have hlast : ∀ t, as.aSeglast = some t → t ≠ s → t ∈ a ++ b := by
    intro t ht hts
    have hmem := hr.last t ht
    rcases mem_append.mp hmem with hmem | hmem
    · exact mem_append_left _ hmem
    · rcases mem_cons.mp hmem with rfl | hmem
      · exact absurd rfl hts
      · exact mem_append_right _ hmem
  -- the first segment when this one is gone
  have hfirst : ∃ as₁ : As, as₁ =
        (if as.aSegs = some s then { as with aSegs := some (m.sNext s) } else as) ∧
      (as₁.aSegs = some s ↔ a ++ b = []) ∧ (a ++ b ≠ [] → as₁.aSegs = (a ++ b).head?) ∧
      as₁.aSeglast = as.aSeglast ∧ as₁.aSize = as.aSize ∧ as₁.aPaglck = as.aPaglck := by
    refine ⟨_, rfl, ?_⟩
    cases a with
    | nil =>
      have hs : as.aSegs = some s := hr.first
      have hnext : m.sNext s = b.headD s := hr.ring.next_eq rfl
      rw [if_pos hs]
      cases b with
      | nil => exact ⟨iff_of_true (by rw [hnext]; rfl) rfl, fun h => absurd rfl h, rfl, rfl, rfl⟩
      | cons t b =>
        have ht : m.sNext s = t := hnext
        refine ⟨iff_of_false ?_ (by simp), fun _ => by rw [ht]; rfl, rfl, rfl, rfl⟩
        rw [ht]
        intro heq
        cases heq
        exact hsnot (by simp)
    | cons h a =>
      have hh : as.aSegs = some h := hr.first
      have hne : ¬ as.aSegs = some s := by
        rw [hh]
        intro heq
        cases heq
        exact hsnot (by simp)
      rw [if_neg hne]
      exact ⟨iff_of_false hne (by simp), fun _ => hh, rfl, rfl, rfl⟩
  obtain ⟨as₁, has₁, hempty, hhead, hl₁, hz₁, hp₁⟩ := hfirst
  -- the pointers and the first segment
  have hlinks : ∃ m' as₂, (m', as₂) = (if as₁.aSegs = some s then (m, { as₁ with aSegs := none })
        else (m.unlink s, as₁)) ∧
      as₂.aSegs = (a ++ b).head? ∧ IsRing m' (a ++ b) ∧ m'.sBase = m.sBase ∧
      m'.sSize = m.sSize ∧ m'.used = m.used ∧ as₂.aSeglast = as.aSeglast ∧
      as₂.aSize = as.aSize ∧ as₂.aPaglck = as.aPaglck ∧
      ∀ t, t ∉ a ++ s :: b → m'.sNext t = m.sNext t ∧ m'.sPrev t = m.sPrev t := by
    by_cases hnil : a ++ b = []
    · refine ⟨m, { as₁ with aSegs := none }, ?_, ?_, ?_, rfl, rfl, rfl, hl₁, hz₁, hp₁,
        fun t _ => ⟨rfl, rfl⟩⟩
      · rw [if_pos (hempty.mpr hnil)]
      · rw [hnil]
        rfl
      · rw [hnil]
        trivial
    · refine ⟨m.unlink s, as₁, ?_, hhead hnil, unlink_ring hr.ring hnil, rfl, rfl, rfl, hl₁,
        hz₁, hp₁, fun t ht => ?_⟩
      · rw [if_neg fun heq => hnil (hempty.mp heq)]
      · have hneigh : m.sNext s ∈ a ++ s :: b ∧ m.sPrev s ∈ a ++ s :: b := by
          have hring := hr.ring
          revert hring hin
          cases hall : a ++ s :: b with
          | nil => exact fun hin => absurd hin not_mem_nil
          | cons h t => exact fun hin hring => Closed.neighbours hring hin
        constructor
        · have htp : t ≠ m.sPrev s := by
            rintro rfl
            exact ht hneigh.2
          exact update_of_ne htp _ _
        · have htn : t ≠ (m.setNext (m.sPrev s) (m.sNext s)).sNext s := by
            change t ≠ update m.sNext (m.sPrev s) (m.sNext s) s
            by_cases hps : s = m.sPrev s
            · rw [← hps, update_self]
              exact fun heq => ht (heq ▸ hneigh.1)
            · rw [update_of_ne hps]
              exact fun heq => ht (heq ▸ hneigh.1)
          exact update_of_ne htn _ _
  obtain ⟨m', as₂, hlink, hhead₂, hring, hbase, hsize, hused, hl₂, hz₂, hp₂, hother⟩ := hlinks
  have hplace : ∀ t ∈ a ++ b, 0 < m'.sSize t ∧ m'.sBase t + m'.sSize t < KVBASE := by
    intro t ht
    rw [hbase, hsize]
    exact hr.place t (hsub.subset ht)
  have hsorted : (a ++ b).Pairwise fun s t => m'.sBase s + m'.sSize s ≤ m'.sBase t := by
    rw [hbase, hsize]
    exact hr.sorted.sublist hsub
  have hmem : ∀ t ∈ a ++ b, t ∈ m'.used := by
    intro t ht
    rw [hused]
    exact hr.used t (hsub.subset ht)
  by_cases hhint : as₂.aSeglast = some s
  · refine ⟨m', { as₂ with aSeglast := as₂.aSegs }, ?_, ?_, hbase, hsize, hused, hz₂, hp₂, hother⟩
    · unfold asRemove
      simp only
      rw [← has₁, ← hlink, if_pos hhint]
    · refine ⟨hhead₂, hring, hmem, hplace, hsorted, fun t ht => ?_⟩
      rw [hhead₂] at ht
      exact mem_of_mem_head? ht
  · refine ⟨m', as₂, ?_, ?_, hbase, hsize, hused, hz₂, hp₂, hother⟩
    · unfold asRemove
      simp only
      rw [← has₁, ← hlink, if_neg hhint]
    · refine ⟨hhead₂, hring, hmem, hplace, hsorted, fun t ht => ?_⟩
      refine hlast t (by rw [← hl₂]; exact ht) ?_
      rintro rfl
      exact hhint ht

theorem segFree_spec (hr : Rep m as (a ++ s :: b)) :
    ∃ m' as', m.segFree as s = (m', as') ∧ Rep m' as' (a ++ b) ∧
      m'.sBase = m.sBase ∧ m'.sSize = m.sSize ∧ m'.used = m.used.erase s ∧
      as'.aSize = as.aSize ∧ as'.aPaglck = as.aPaglck ∧ Frame m (a ++ s :: b) m' (a ++ b) := by
  obtain ⟨m', as', hrun, hr', hbase, hsize, hused, hz, hp, hother⟩ := asRemove_spec hr
  have hnodup := hr.ring.nodup
  have hsnot : s ∉ a ++ b := by
    rw [perm_middle.nodup_iff] at hnodup
    exact (nodup_cons.mp hnodup).1
  have hkeep : ∀ t ∈ m.used, t ≠ s → t ∈ m'.used.erase s := by
    intro t ht hts
    rw [hused]
    exact (mem_erase_of_ne hts).mpr ht
  refine ⟨{ m' with used := m'.used.erase s }, as', ?_, ?_, hbase, hsize, ?_, hz, hp, ?_⟩
  · unfold segFree
    simp only [hrun]
  · refine hr'.congr (fun _ _ => rfl) (fun _ _ => rfl) (fun _ _ => rfl) (fun _ _ => rfl)
      fun t ht => hkeep t ?_ ?_
    · rw [← hused]
      exact hr'.used t ht
    · rintro rfl
      exact hsnot ht
  · rw [← hused]
  · refine ⟨fun t _ ht => (hother t ht).1, fun t _ ht => (hother t ht).2, fun t _ _ => ?_,
      fun t _ _ => ?_, fun t ht hout => hkeep t ht ?_, fun t ht => .inl ?_, fun hnd => ?_⟩
    · exact congrFun hbase t
    · exact congrFun hsize t
    · rintro rfl
      exact hout (by simp)
    · exact ((sublist_cons_self s b).append_left a).subset ht
    · rw [hused]
      exact hnd.erase s

end Remove

end Segs

end Space
end Svr4
