import Svr4.Lib.DoublyLinked
import Svr4.Streams.Queue

/-!
# Links of a message queue

The pointer operations of the queue routines, as changes of the list of
messages.  None of them touches anything but the links of the messages on the
queue and of the one put on it or taken from it.
-/

namespace Svr4
namespace Streams

open Function List Option

variable {m m' : Blocks}

namespace Blocks

def next (m : Blocks) (p : Nat) : Option Nat := (m.blk p).bNext

def prev (m : Blocks) (p : Nat) : Option Nat := (m.blk p).bPrev

/-!
## Writing links
-/

@[simp] theorem next_setNext (m : Blocks) (p : Nat) (v : Option Nat) :
    (m.setNext p v).next = update m.next p v := by
  funext j
  by_cases h : j = p <;> simp [next, setNext, h]

@[simp] theorem prev_setNext (m : Blocks) (p : Nat) (v : Option Nat) :
    (m.setNext p v).prev = m.prev := by
  funext j
  by_cases h : j = p <;> simp [prev, setNext, h]

@[simp] theorem next_setPrev (m : Blocks) (p : Nat) (v : Option Nat) :
    (m.setPrev p v).next = m.next := by
  funext j
  by_cases h : j = p <;> simp [next, setPrev, h]

@[simp] theorem prev_setPrev (m : Blocks) (p : Nat) (v : Option Nat) :
    (m.setPrev p v).prev = update m.prev p v := by
  funext j
  by_cases h : j = p <;> simp [prev, setPrev, h]

theorem blk_setNext_of_ne (m : Blocks) {p j : Nat} (v : Option Nat)
    (h : j ≠ p) : (m.setNext p v).blk j = m.blk j :=
  update_of_ne h _ _

theorem blk_setPrev_of_ne (m : Blocks) {p j : Nat} (v : Option Nat)
    (h : j ≠ p) : (m.setPrev p v).blk j = m.blk j :=
  update_of_ne h _ _

/-- Two states of the blocks that differ in links only. -/
structure SameHdr (m m' : Blocks) : Prop where
  nblk : m'.nblk = m.nblk
  bBand : ∀ p, (m'.blk p).bBand = (m.blk p).bBand
  msgnoget : ∀ p, (m'.blk p).msgnoget = (m.blk p).msgnoget
  dbType : ∀ p, (m'.blk p).dbType = (m.blk p).dbType
  sizes : ∀ p, (m'.blk p).sizes = (m.blk p).sizes

theorem SameHdr.refl (m : Blocks) : SameHdr m m :=
  ⟨rfl, fun _ => rfl, fun _ => rfl, fun _ => rfl, fun _ => rfl⟩

theorem SameHdr.trans {m'' : Blocks} (h : SameHdr m m') (h' : SameHdr m' m'') : SameHdr m m'' where
  nblk := h'.nblk.trans h.nblk
  bBand p := (h'.bBand p).trans (h.bBand p)
  msgnoget p := (h'.msgnoget p).trans (h.msgnoget p)
  dbType p := (h'.dbType p).trans (h.dbType p)
  sizes p := (h'.sizes p).trans (h.sizes p)

theorem sameHdr_setNext (m : Blocks) (p : Nat) (v : Option Nat) : SameHdr m (m.setNext p v) := by
  constructor
  · rfl
  all_goals
    intro j
    by_cases h : j = p <;> simp [setNext, h]

theorem sameHdr_setPrev (m : Blocks) (p : Nat) (v : Option Nat) : SameHdr m (m.setPrev p v) := by
  constructor
  · rfl
  all_goals
    intro j
    by_cases h : j = p <;> simp [setPrev, h]

theorem SameHdr.setNext (h : SameHdr m m') (p : Nat)
    (v : Option Nat) : SameHdr m (m'.setNext p v) :=
  h.trans (sameHdr_setNext m' p v)

theorem SameHdr.setPrev (h : SameHdr m m') (p : Nat)
    (v : Option Nat) : SameHdr m (m'.setPrev p v) :=
  h.trans (sameHdr_setPrev m' p v)

end Blocks

open Blocks

def Queue.Links (m : Blocks) (q : Queue) (l : List Nat) : Prop :=
  DLinked m.next m.prev q.qFirst q.qLast l

/-!
## Operations on links
-/

/-- The list is `l'`, and nothing changes outside the links of the two lists. -/
structure Relinked (m : Blocks) (q : Queue) (l : List Nat) (m' : Blocks)
    (q' : Queue) (l' : List Nat) : Prop where
  links : q'.Links m' l'
  hdr : SameHdr m m'
  frame : ∀ j, j ∉ l → j ∉ l' → m'.blk j = m.blk j
  queue : q' = { q with qFirst := q'.qFirst, qLast := q'.qLast }

variable {m : Blocks} {q : Queue} {l a b : List Nat} {bp tmp : Nat}

theorem linkOnly_spec (bp : Nat) :
    Relinked m q [] (linkOnly m q bp).1 (linkOnly m q bp).2 [bp] where
  links := by
    constructor <;> simp [linkOnly]
  hdr := (sameHdr_setNext _ _ _).setPrev _ _
  frame := by
    intro j _ hj
    have hne : j ≠ bp := by simpa using hj
    simp only [linkOnly]
    rw [blk_setPrev_of_ne _ _ hne, blk_setNext_of_ne _ _ hne]
  queue := rfl

theorem ne_of_notMem {j k : Nat} (hk : k ∉ l) (hj : j ∈ l) : j ≠ k := by
  rintro rfl
  exact hk hj

theorem linkLast_spec (h : q.Links m (a ++ [tmp])) (hbp : bp ∉ a ++ [tmp]) :
    Relinked m q (a ++ [tmp]) (linkLast m q bp tmp).1 (linkLast m q bp tmp).2
      (a ++ [tmp] ++ [bp]) where
  links := by
    have hne : bp ≠ tmp := by
      rintro rfl
      simp at hbp
    have hl : q.Links m (a ++ [tmp] ++ []) := by
      rw [append_nil]
      exact h
    refine DLinked.insert hl (by rwa [append_nil]) ?_ ?_ ?_ ?_ ?_ ?_ ?_ ?_
    · simp [linkLast, hne]
    · intro j hj
      simp only [getLast?_append, getLast?_singleton, Option.some_or,
        some.injEq] at hj
      simp [linkLast, hj]
    · intro j hj hlast
      rw [append_nil] at hj
      have hjt : j ≠ tmp := by
        rintro rfl
        simp at hlast
      simp [linkLast, ne_of_notMem hbp hj, hjt]
    · simp [linkLast]
    · simp
    · intro j hj _
      rw [append_nil] at hj
      simp [linkLast, ne_of_notMem hbp hj]
    · simp [linkLast]
    · simp [linkLast]
  hdr := ((sameHdr_setNext _ _ _).setPrev _ _).setNext _ _
  frame := by
    intro j hj hj'
    have hjb : j ≠ bp := by
      rintro rfl
      simp at hj'
    have hjt : j ≠ tmp := by
      rintro rfl
      simp at hj
    simp only [linkLast]
    rw [blk_setNext_of_ne _ _ hjt, blk_setPrev_of_ne _ _ hjb, blk_setNext_of_ne _ _ hjb]
  queue := rfl

theorem linkBefore_spec (h : q.Links m (a ++ tmp :: b)) (hbp : bp ∉ a ++ tmp :: b) :
    Relinked m q (a ++ tmp :: b) (linkBefore m q bp tmp).1
      (linkBefore m q bp tmp).2 (a ++ bp :: tmp :: b) := by
  have hprev : (m.blk tmp).bPrev = a.getLast? := DLinked.prev_eq h
  have hne : tmp ≠ bp := ne_of_notMem hbp (by simp)
  have hnodup := DLinked.nodup h
  have htmp : tmp ∉ a := by
    rw [nodup_append] at hnodup
    intro hmem
    exact hnodup.2.2 tmp hmem tmp (by simp) rfl
  cases hlast : a.getLast? with
  | none =>
    have ha : a = [] := getLast?_eq_none_iff.mp hlast
    subst ha
    have hrun : linkBefore m q bp tmp =
        (((m.setNext bp (some tmp)).setPrev bp none).setPrev tmp (some bp),
          { q with qFirst := some bp }) := by
      simp [linkBefore, hprev]
    rw [hrun]
    constructor
    · refine DLinked.insert h hbp ?_ ?_ ?_ ?_ ?_ ?_ ?_ ?_
      · simp
      · simp
      · intro j hj _
        simp [ne_of_notMem hbp hj]
      · simp [hne.symm]
      · simp
      · intro j hj hhead
        have hjt : j ≠ tmp := by
          rintro rfl
          simp at hhead
        simp [ne_of_notMem hbp hj, hjt]
      · simp
      · simp
    · exact ((sameHdr_setNext _ _ _).setPrev _ _).setPrev _ _
    · intro j hj hj'
      have hjb : j ≠ bp := by
        rintro rfl
        simp at hj'
      have hjt : j ≠ tmp := by
        rintro rfl
        simp at hj
      rw [blk_setPrev_of_ne _ _ hjt, blk_setPrev_of_ne _ _ hjb, blk_setNext_of_ne _ _ hjb]
    · rfl
  | some i =>
    rw [hlast] at hprev
    have hia : i ∈ a := mem_of_getLast? hlast
    have hib : i ≠ bp := ne_of_notMem hbp (by simp [hia])
    have hrun : linkBefore m q bp tmp = ((((m.setNext bp (some tmp)).setPrev bp (some i)).setNext i
          (some bp)).setPrev tmp (some bp), q) := by
      simp [linkBefore, hprev]
    rw [hrun]
    constructor
    · refine DLinked.insert h hbp ?_ ?_ ?_ ?_ ?_ ?_ ?_ ?_
      · simp [hib.symm]
      · intro j hj
        rw [hlast, some.injEq] at hj
        simp [hj]
      · intro j hj hjlast
        have hji : j ≠ i := by
          rintro rfl
          exact hjlast hlast
        simp [ne_of_notMem hbp hj, hji]
      · simp [hne.symm, hlast]
      · simp
      · intro j hj hhead
        have hjt : j ≠ tmp := by
          rintro rfl
          simp at hhead
        simp [ne_of_notMem hbp hj, hjt]
      · have hane : a ≠ [] := ne_nil_of_mem hia
        simp [hane]
      · simp
    · exact (((sameHdr_setNext _ _ _).setPrev _ _).setNext _ _).setPrev _ _
    · intro j hj hj'
      have hjb : j ≠ bp := by
        rintro rfl
        simp at hj'
      have hjt : j ≠ tmp := by
        rintro rfl
        simp at hj
      have hji : j ≠ i := by
        rintro rfl
        simp [hia] at hj
      rw [blk_setPrev_of_ne _ _ hjt, blk_setNext_of_ne _ _ hji,
        blk_setPrev_of_ne _ _ hjb, blk_setNext_of_ne _ _ hjb]
    · rfl

theorem linkAfter_spec (h : q.Links m (a ++ tmp :: b)) (hbp : bp ∉ a ++ tmp :: b) :
    Relinked m q (a ++ tmp :: b) (linkAfter m q bp tmp).1
      (linkAfter m q bp tmp).2 (a ++ tmp :: bp :: b) := by
  have hnext : (m.blk tmp).bNext = b.head? := DLinked.next_eq h
  have hne : tmp ≠ bp := ne_of_notMem hbp (by simp)
  have hnodup := DLinked.nodup h
  have htmp : tmp ∉ b := by
    rw [nodup_append] at hnodup
    exact (nodup_cons.mp hnodup.2.1).1
  have hl : q.Links m ((a ++ [tmp]) ++ b) := by simpa using h
  have hbp' : bp ∉ (a ++ [tmp]) ++ b := by simpa using hbp
  have hshape : a ++ tmp :: bp :: b = (a ++ [tmp]) ++ bp :: b := by simp
  cases b with
  | nil =>
    have hrun : linkAfter m q bp tmp =
        (((m.setNext bp none).setPrev bp (some tmp)).setNext tmp (some bp),
          { q with qLast := some bp }) := by
      simp [linkAfter, hnext]
    have hshape' : a ++ [tmp, bp] = a ++ [tmp] ++ [bp] := by simp
    rw [hrun, hshape']
    exact linkLast_spec h hbp
  | cons i b =>
    have hib : i ≠ bp := ne_of_notMem hbp (by simp)
    have hrun : linkAfter m q bp tmp = ((((m.setNext bp (some i)).setPrev i (some bp)).setPrev bp
          (some tmp)).setNext tmp (some bp), q) := by
      simp [linkAfter, hnext]
    rw [hrun, hshape]
    constructor
    · refine DLinked.insert hl hbp' ?_ ?_ ?_ ?_ ?_ ?_ ?_ ?_
      · simp [hne.symm]
      · intro j hj
        simp only [getLast?_append, getLast?_singleton,
          Option.some_or, some.injEq] at hj
        simp [hj]
      · intro j hj hjlast
        have hjt : j ≠ tmp := by
          rintro rfl
          simp at hjlast
        simp [ne_of_notMem hbp' hj, hjt]
      · simp
      · intro j hj
        rw [head?_cons, some.injEq] at hj
        simp [← hj, hib]
      · intro j hj hhead
        have hji : j ≠ i := by
          rintro rfl
          simp at hhead
        simp [ne_of_notMem hbp' hj, hji]
      · simp
      · simp
    · exact (((sameHdr_setNext _ _ _).setPrev _ _).setPrev _ _).setNext _ _
    · intro j hj hj'
      have hjb : j ≠ bp := by
        rintro rfl
        simp at hj'
      have hjt : j ≠ tmp := by
        rintro rfl
        simp at hj
      have hji : j ≠ i := by
        rintro rfl
        simp at hj
      rw [blk_setNext_of_ne _ _ hjt, blk_setPrev_of_ne _ _ hjb,
        blk_setPrev_of_ne _ _ hji, blk_setNext_of_ne _ _ hjb]
    · rfl

theorem linkFirst_spec (h : q.Links m l) (hbp : bp ∉ l) :
    Relinked m q l (linkFirst m q bp).1 (linkFirst m q bp).2 (bp :: l) := by
  cases l with
  | nil =>
    have hfirst : q.qFirst = none := DLinked.first_eq h
    have hrun : linkFirst m q bp = linkOnly m q bp := by
      simp [linkFirst, linkOnly, hfirst]
    rw [hrun]
    exact linkOnly_spec bp
  | cons tmp b =>
    have hfirst : q.qFirst = some tmp := DLinked.first_eq h
    have hne : tmp ≠ bp := ne_of_notMem hbp (by simp)
    have hrun : linkFirst m q bp =
        (((m.setNext bp (some tmp)).setPrev tmp (some bp)).setPrev bp none,
          { q with qFirst := some bp }) := by
      simp [linkFirst, hfirst]
    rw [hrun]
    constructor
    · refine DLinked.insert (a := []) h hbp ?_ ?_ ?_ ?_ ?_ ?_ ?_ ?_
      · simp
      · simp
      · intro j hj _
        simp [ne_of_notMem hbp hj]
      · simp
      · intro j hj
        rw [head?_cons, some.injEq] at hj
        simp [← hj, hne]
      · intro j hj hhead
        have hjt : j ≠ tmp := by
          rintro rfl
          simp at hhead
        simp [ne_of_notMem hbp hj, hjt]
      · simp
      · simp
    · exact ((sameHdr_setNext _ _ _).setPrev _ _).setPrev _ _
    · intro j hj hj'
      have hjb : j ≠ bp := by
        rintro rfl
        simp at hj'
      have hjt : j ≠ tmp := by
        rintro rfl
        simp at hj
      rw [blk_setPrev_of_ne _ _ hjb, blk_setPrev_of_ne _ _ hjt, blk_setNext_of_ne _ _ hjb]
    · rfl

theorem unlink_spec {mp : Nat} (h : q.Links m (a ++ mp :: b)) :
    Relinked m q (a ++ mp :: b) (unlink m q mp).1 (unlink m q mp).2 (a ++ b) := by
  have hnext : (m.blk mp).bNext = b.head? := DLinked.next_eq h
  have hprev : (m.blk mp).bPrev = a.getLast? := DLinked.prev_eq h
  have hnodup := DLinked.nodup h
  have hmp : mp ∉ a ++ b := by
    rw [nodup_middle, nodup_cons] at hnodup
    exact hnodup.1
  have hn : m.next mp = b.head? := hnext
  have hp : m.prev mp = a.getLast? := hprev
  constructor
  · refine DLinked.remove h ?_ ?_ ?_ ?_ ?_ ?_
    · intro j hj
      have hjm : j ≠ mp := ne_of_notMem hmp (by simp [mem_of_getLast? hj])
      cases hb : b.head? <;> simp [unlink, hnext, hprev, hj, hb, hjm, hn]
    · intro j hj hjlast
      have hjm : j ≠ mp := ne_of_notMem hmp hj
      cases ha : a.getLast? with
      | none => cases hb : b.head? <;> simp [unlink, hnext, hprev, ha, hb, hjm]
      | some i =>
        have hji : j ≠ i := by
          rintro rfl
          exact hjlast ha
        cases hb : b.head? <;>
          simp [unlink, hnext, hprev, ha, hb, hjm, hji]
    · intro j hj
      have hjm : j ≠ mp := ne_of_notMem hmp (by simp [mem_of_head? hj])
      cases ha : a.getLast? <;> simp [unlink, hnext, hprev, hj, ha, hjm, hp]
    · intro j hj hhead
      have hjm : j ≠ mp := ne_of_notMem hmp hj
      cases hb : b.head? with
      | none => cases ha : a.getLast? <;> simp [unlink, hnext, hprev, ha, hb, hjm]
      | some i =>
        have hji : j ≠ i := by
          rintro rfl
          exact hhead hb
        cases ha : a.getLast? <;>
          simp [unlink, hnext, hprev, ha, hb, hjm, hji]
    · cases ha : a.getLast? with
      | none =>
        have ha' : a = [] := getLast?_eq_none_iff.mp ha
        cases hb : b.head? <;> simp [unlink, hnext, hprev, hb, ha', hn]
      | some i =>
        have ha' : a ≠ [] := ne_nil_of_mem (mem_of_getLast? ha)
        cases hb : b.head? <;> simp [unlink, hnext, hprev, ha, hb, ha']
    · cases hb : b.head? with
      | none =>
        have hb' : b = [] := head?_eq_none_iff.mp hb
        cases ha : a.getLast? <;> simp [unlink, hnext, hprev, ha, hb', hp]
      | some i =>
        have hb' : b ≠ [] := ne_nil_of_mem (mem_of_head? hb)
        cases ha : a.getLast? <;> simp [unlink, hnext, hprev, ha, hb, hb']
  · cases hp : (m.blk mp).bPrev <;> cases hn : (m.blk mp).bNext <;>
      simp only [unlink, hp, hn]
    · exact (sameHdr_setNext _ _ _).setPrev _ _
    · exact ((sameHdr_setPrev _ _ _).setNext _ _).setPrev _ _
    · exact ((sameHdr_setNext _ _ _).setNext _ _).setPrev _ _
    · exact (((sameHdr_setNext _ _ _).setPrev _ _).setNext _ _).setPrev _ _
  · intro j hj _
    have hjm : j ≠ mp := by
      rintro rfl
      simp at hj
    have hja : a.getLast? ≠ some j := by
      intro hlast
      exact hj (mem_append_left _ (mem_of_getLast? hlast))
    have hjb : b.head? ≠ some j := by
      intro hhead
      exact hj (by simp [mem_of_head? hhead])
    cases ha : a.getLast? with
    | none =>
      cases hb : b.head? with
      | none =>
        simp only [unlink, hprev, hnext, ha, hb]
        rw [blk_setPrev_of_ne _ _ hjm, blk_setNext_of_ne _ _ hjm]
      | some i =>
        have hji : j ≠ i := by
          rintro rfl
          exact hjb hb
        simp only [unlink, hprev, hnext, ha, hb]
        rw [blk_setPrev_of_ne _ _ hjm, blk_setNext_of_ne _ _ hjm, blk_setPrev_of_ne _ _ hji]
    | some i =>
      have hji : j ≠ i := by
        rintro rfl
        exact hja ha
      cases hb : b.head? with
      | none =>
        simp only [unlink, hprev, hnext, ha, hb]
        rw [blk_setPrev_of_ne _ _ hjm, blk_setNext_of_ne _ _ hjm, blk_setNext_of_ne _ _ hji]
      | some k =>
        have hjk : j ≠ k := by
          rintro rfl
          exact hjb hb
        simp only [unlink, hprev, hnext, ha, hb]
        rw [blk_setPrev_of_ne _ _ hjm, blk_setNext_of_ne _ _ hjm,
          blk_setPrev_of_ne _ _ hjk, blk_setNext_of_ne _ _ hji]
  · cases hp : (m.blk mp).bPrev <;> cases hn : (m.blk mp).bNext <;>
      simp only [unlink, hp, hn]

end Streams
end Svr4
