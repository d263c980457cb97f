import Mathlib.Data.List.Nodup
import Svr4.Msgq.Model

/-!
# What message queues are for

Messages are put at the end of a queue; a receiver takes the first message, the first of a
type, or the first of the lowest type up to a bound.  A log of calls is explained by what the
queues hold when every call finds the queues as the calls before have left them.
-/

namespace Svr4
namespace Msgq

open Function List

/-- A message, with the place of its sending in the log. -/
structure Message where
  serial : Nat
  type : Int
  text : List Nat

/-- The message that a receiver takes from a list of types, between those before and behind
it. -/
def Takes (msgtyp : Int) (pre : List Int) (type : Int) (post : List Int) : Prop :=
  if msgtyp = 0 then pre = []
  else if 0 < msgtyp then type = msgtyp ∧ ∀ x ∈ pre, x ≠ msgtyp
  else type ≤ -msgtyp ∧ (∀ x ∈ pre, type < x) ∧ ∀ x ∈ post, type ≤ x

def Unmatched (msgtyp : Int) (types : List Int) : Prop :=
  if msgtyp = 0 then types = []
  else if 0 < msgtyp then ∀ x ∈ types, x ≠ msgtyp
  else ∀ x ∈ types, -msgtyp < x

/-- The queues, and the messages that have been received. -/
structure Store where
  queues : Nat → List Message
  received : List Message

def Store.empty : Store := ⟨fun _ => [], []⟩

def Store.put (st : Store) (q : Nat) (l : List Message) : Store :=
  { st with queues := update st.queues q l }

inductive Explains : List Action → Store → Prop
  | nil : Explains [] .empty
  | sent {log : List Action} {st : Store} (q : Nat) (type : Int) (text : List Nat) :
      Explains log st →
      Explains (log ++ [.sent q type text]) (st.put q (st.queues q ++ [⟨log.length, type, text⟩]))
  | received {log : List Action} {st : Store} (q : Nat) (msgtyp : Int) (msgsz : Nat)
      (pre : List Message) (m : Message) (post : List Message) :
      Explains log st → st.queues q = pre ++ m :: post →
      Takes msgtyp (pre.map Message.type) m.type (post.map Message.type) →
      Explains (log ++ [.received q msgtyp msgsz m.type (m.text.take msgsz)])
        { st.put q (pre ++ post) with received := m :: st.received }
  | nomsg {log : List Action} {st : Store} (q : Nat) (msgtyp : Int) :
      Explains log st → Unmatched msgtyp ((st.queues q).map Message.type) →
      Explains (log ++ [.nomsg q msgtyp]) st
  | removed {log : List Action} {st : Store} (q : Nat) :
      Explains log st → Explains (log ++ [.removed q]) (st.put q [])

/-- Every message in the store has been sent, to its queue, and is in one place. -/
structure Store.Sound (st : Store) (log : List Action) : Prop where
  queued : ∀ q, ∀ m ∈ st.queues q, log[m.serial]? = some (.sent q m.type m.text)
  taken : ∀ m ∈ st.received, ∃ q, log[m.serial]? = some (.sent q m.type m.text)
  once : (st.received.map Message.serial).Nodup
  distinct : ∀ q, ((st.queues q).map Message.serial).Nodup
  apart : ∀ q, ∀ m ∈ st.queues q, ∀ m' ∈ st.received, m.serial ≠ m'.serial

section Facts

variable {log : List Action} {st : Store}

theorem Store.put_self (st : Store) (q : Nat) (l : List Message) : (st.put q l).queues q = l :=
  update_self _ _ _

theorem Store.put_of_ne {q q' : Nat} (hne : q' ≠ q) (st : Store) (l : List Message) :
    (st.put q l).queues q' = st.queues q' :=
  update_of_ne hne _ _

theorem getElem?_snoc {a b : Action} {i : Nat} (h : log[i]? = some a) :
    (log ++ [b])[i]? = some a := by
  rw [List.getElem?_append_left]
  · exact h
  · exact (List.getElem?_eq_some_iff.mp h).1

theorem Store.Sound.shrink {q : Nat} {l : List Message} {a : Action} (hs : st.Sound log)
    (hsub : l.Sublist (st.queues q)) : (st.put q l).Sound (log ++ [a]) := by
  have hin : ∀ q' m, m ∈ (st.put q l).queues q' → m ∈ st.queues q' := by
    intro q' m hm
    by_cases hq : q' = q
    · rw [hq, Store.put_self] at hm
      rw [hq]
      exact hsub.subset hm
    · rw [Store.put_of_ne hq] at hm
      exact hm
  refine ⟨fun q' m hm => getElem?_snoc (hs.queued q' m (hin q' m hm)), ?_, hs.once, ?_,
    fun q' m hm => hs.apart q' m (hin q' m hm)⟩
  · intro m hm
    obtain ⟨q', hq'⟩ := hs.taken m hm
    exact ⟨q', getElem?_snoc hq'⟩
  · intro q'
    by_cases hq : q' = q
    · rw [hq, Store.put_self]
      exact (hs.distinct q).sublist (hsub.map _)
    · rw [Store.put_of_ne hq]
      exact hs.distinct q'

theorem Explains.sound (h : Explains log st) : st.Sound log := by
  induction h with
  | nil => exact ⟨nofun, nofun, nodup_nil, fun _ => nodup_nil, nofun⟩
  | @sent log st q type text _ ih =>
    have hfresh : ∀ {m : Message} {q' : Nat},
        log[m.serial]? = some (.sent q' m.type m.text) → m.serial < log.length :=
      fun h => (List.getElem?_eq_some_iff.mp h).1
    refine ⟨?_, ?_, ih.once, ?_, ?_⟩
    · intro q' m hm
      by_cases hq : q' = q
      · rw [hq, Store.put_self] at hm
        rcases mem_append.mp hm with hm | hm
        · rw [hq]
          exact getElem?_snoc (ih.queued q m hm)
        · rw [mem_singleton.mp hm, hq]
          exact List.getElem?_concat_length
      · rw [Store.put_of_ne hq] at hm
        exact getElem?_snoc (ih.queued q' m hm)
    · intro m hm
      obtain ⟨q', hq'⟩ := ih.taken m hm
      exact ⟨q', getElem?_snoc hq'⟩
    · intro q'
      by_cases hq : q' = q
      · rw [hq, Store.put_self, map_append]
        refine List.Nodup.append (ih.distinct q) (nodup_singleton _) ?_
        intro x hx hx'
        obtain ⟨m, hm, rfl⟩ := mem_map.mp hx
        have hlt := hfresh (ih.queued q m hm)
        have heq : m.serial = log.length := mem_singleton.mp hx'
        omega
      · rw [Store.put_of_ne hq]
        exact ih.distinct q'
    · intro q' m hm m' hm'
      obtain ⟨q'', hq''⟩ := ih.taken m' hm'
      by_cases hq : q' = q
      · rw [hq, Store.put_self] at hm
        rcases mem_append.mp hm with hm | hm
        · exact ih.apart q m hm m' hm'
        · rw [mem_singleton.mp hm]
          exact (Nat.ne_of_lt (hfresh hq'')).symm
      · rw [Store.put_of_ne hq] at hm
        exact ih.apart q' m hm m' hm'
  | @received log st q msgtyp msgsz pre m post _ hsplit _ ih =>
    have hsub : (pre ++ post).Sublist (st.queues q) := by
      rw [hsplit]
      exact (sublist_cons_self m post).append_left pre
    have hin : m ∈ st.queues q := by
      rw [hsplit]
      simp
    have hshrunk := ih.shrink (a := .received q msgtyp msgsz m.type (m.text.take msgsz)) hsub
    refine ⟨hshrunk.queued, ?_, ?_, hshrunk.distinct, ?_⟩
    · intro m' hm'
      rcases mem_cons.mp hm' with rfl | hm'
      · exact ⟨q, getElem?_snoc (ih.queued q m' hin)⟩
      · exact hshrunk.taken m' hm'
    · refine nodup_cons.mpr ⟨fun hmem => ?_, ih.once⟩
      obtain ⟨m', hm', heq⟩ := mem_map.mp hmem
      exact ih.apart q m hin m' hm' heq.symm
    · intro q' m' hm' m'' hm''
      rcases mem_cons.mp hm'' with rfl | hm''
      · intro heq
        by_cases hq : q' = q
        · -- the serial numbers of a queue are distinct
          rw [hq, Store.put_self] at hm'
          have hnodup := ih.distinct q
          rw [hsplit, map_append, map_cons, perm_middle.nodup_iff] at hnodup
          refine (nodup_cons.mp hnodup).1 ?_
          rw [← heq, ← map_append]
          exact mem_map_of_mem hm'
        · rw [Store.put_of_ne hq] at hm'
          have h1 := ih.queued q' m' hm'
          have h2 := ih.queued q m'' hin
          rw [heq, h2] at h1
          injection h1 with h1
          injection h1 with hqq
          exact hq hqq.symm
      · exact hshrunk.apart q' m' hm' m'' hm''
  | @nomsg log st q msgtyp _ _ ih =>
    refine ⟨fun q' m hm => getElem?_snoc (ih.queued q' m hm), ?_, ih.once, ih.distinct, ih.apart⟩
    intro m hm
    obtain ⟨q', hq'⟩ := ih.taken m hm
    exact ⟨q', getElem?_snoc hq'⟩
  | @removed log st q _ ih => exact ih.shrink (nil_sublist _)

end Facts

end Msgq
end Svr4
