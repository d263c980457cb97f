import Mathlib.Algebra.BigOperators.Group.List.Basic
import Svr4.Msgq.Layout

/-!
# What a process does at one turn

A turn takes a process from one place where it may sleep to the next.  At most one queue is
locked by it; the other queues, and what other processes hold, stay as they are.
-/

namespace Svr4
namespace Msgq

open Rmap

/-!
## States
-/

/-- The kernel stores the messages of the queues, which the log explains. -/
structure Core (c : Config) (k : Kernel) (g : Ghost) (st : Store) (log : List Action) : Prop where
  laid : Laid c k g
  cbytes : ∀ q, (k.msgque q).msgCbytes = ((g.onq q).map k.msgTs).sum
  texts : ∀ q, (g.onq q).map (fun h => (k.msgType h, k.textOf c h)) =
    (st.queues q).map fun m => (m.type, m.text)
  explains : Explains log st
  unused : ∀ q, (k.msgque q).ipcAlloc = false → g.onq q = []

def Pc.locks : Pc → Option Nat
  | .sndType _ q => some q
  | .sndText _ q _ _ _ => some q
  | .copyout _ q _ _ _ => some q
  | .ctlCopy q _ => some q
  | _ => none

def Pc.holds : Pc → Option Nat
  | .sndText _ _ _ mp _ => some mp
  | _ => none

def Snd.Ok (c : Config) (a : Snd) : Prop := 0 ≤ a.msgsz ∧ a.msgsz ≤ c.msgmax

def Rcv.Ok (a : Rcv) : Prop := long (-a.msgtyp) = -a.msgtyp

def Locked (k : Kernel) (q : Nat) : Prop :=
  (k.msgque q).msglock = true ∧ (k.msgque q).ipcAlloc = true

def PcOk (c : Config) (k : Kernel) (g : Ghost) : Pc → Prop
  | .sndType a q => a.Ok c ∧ Locked k q
  | .getres a _ _ | .waitQueue a _ _ | .waitHeader a _ _ | .waitMap a _ _ => a.Ok c
  | .sndText a q _ mp spot => a.Ok c ∧ Locked k q ∧ a.msgsz.toNat ≠ 0 ∧ 0 < spot ∧
      g.segs mp = System.unitsOf (btoq c a.msgsz.toNat) spot
  | .rcvConv a | .findmsg a _ | .waitMsg a _ => a.Ok
  | .copyout a q smp spmp sz => Locked k q ∧ ∃ pre post, g.onq q = pre ++ smp :: post ∧
      spmp = pre.getLast? ∧ Takes a.msgtyp (pre.map k.msgType) (k.msgType smp)
        (post.map k.msgType) ∧ sz = min a.msgsz.toNat (k.msgTs smp)
  | .ctlCopy q _ => Locked k q
  | _ => True

def Waiting (c : Config) (k : Kernel) (g : Ghost) : Pc → Prop
  | .waitQueue a q _ => (k.msgque q).msgWwait = true ∧
      (k.msgque q).msgQbytes < a.msgsz.toNat + (k.msgque q).msgCbytes
  | .waitHeader _ _ _ => k.msgfp = none
  | .waitMap a _ _ => k.msgmap.mapwant ≠ 0 ∧
      ∀ b, ¬ System.unitsOf (btoq c a.msgsz.toNat) b ⊆ units g.entries
  | .waitMsg a q => (k.msgque q).msgRwait = true ∧
      Unmatched a.msgtyp ((g.onq q).map k.msgType)
  | _ => True

structure Turn (c : Config) (k : Kernel) (g : Ghost) (log : List Action) (p q : Nat) (o : Outcome)
    (g' : Ghost) (st' : Store) : Prop where
  core : Core c o.k g' st' (log ++ o.acts)
  others : ∀ q', q' ≠ q → o.k.msgque q' = k.msgque q' ∧ g'.onq q' = g.onq q' ∧
    ∀ h ∈ g.onq q', o.k.msgType h = k.msgType h ∧ o.k.msgTs h = k.msgTs h
  own : ∀ h p', p' ≠ p → (g'.own h = .held p' ↔ g.own h = .held p') ∧
    (g.own h = .held p' → g'.segs h = g.segs h)
  mine : ∀ h, g'.own h = .held p ↔ o.pc.holds = some h
  pcOk : PcOk c o.k g' o.pc
  locks : o.pc.locks = none ∨ o.pc.locks = some q
  alloc : (o.k.msgque q).ipcAlloc = true ∨
    ((o.k.msgque q).msgRwait = false ∧ (o.k.msgque q).msgWwait = false)

/-- A turn that leaves nobody asleep who could go on. -/
structure Calm (c : Config) (k : Kernel) (g : Ghost) (o : Outcome) (g' : Ghost) : Prop where
  progress : Progress k g o.k g' o.woken
  waiting : Waiting c o.k g' o.pc

variable {ch : Chan}

section Facts

variable {c : Config} {k k' : Kernel} {g g' : Ghost} {st st' : Store} {log : List Action}
  {p q : Nat} {pc : Pc} {ws : List Chan}

theorem Core.amend (hc : Core c k g st log) {f : Queue → Queue}
    (hfirst : (f (k.msgque q)).msgFirst = (k.msgque q).msgFirst)
    (hlast : (f (k.msgque q)).msgLast = (k.msgque q).msgLast)
    (hqnum : (f (k.msgque q)).msgQnum = (k.msgque q).msgQnum)
    (hcbytes : (f (k.msgque q)).msgCbytes = (k.msgque q).msgCbytes)
    (halloc : (f (k.msgque q)).ipcAlloc = (k.msgque q).ipcAlloc) :
    Core c (k.amend q f) g st log := by
  refine ⟨hc.laid.amend hfirst hlast hqnum, fun q' => ?_, hc.texts, hc.explains, fun q' ha => ?_⟩
  · by_cases hq : q' = q
    · rw [hq, amend_self, hcbytes]
      exact hc.cbytes q
    · rw [amend_of_ne hq]
      exact hc.cbytes q'
  · by_cases hq : q' = q
    · rw [hq, amend_self, halloc] at ha
      rw [hq]
      exact hc.unused q ha
    · rw [amend_of_ne hq] at ha
      exact hc.unused q' ha

theorem Pc.wake_facts (ch : Chan) (pc : Pc) : (pc.wake ch).locks = pc.locks ∧
    (pc.wake ch).holds = pc.holds ∧ (PcOk c k g pc → PcOk c k g (pc.wake ch)) ∧
    (Waiting c k g pc → Waiting c k g (pc.wake ch)) := by
  cases pc <;> try exact ⟨rfl, rfl, id, id⟩
  all_goals
    unfold Pc.wake
    dsimp only
    split
    · exact ⟨rfl, rfl, id, fun _ => trivial⟩
    · exact ⟨rfl, rfl, id, id⟩

theorem Pc.wakes_facts (chs : List Chan) (pc : Pc) : (pc.wakes chs).locks = pc.locks ∧
    (pc.wakes chs).holds = pc.holds ∧ (PcOk c k g pc → PcOk c k g (pc.wakes chs)) ∧
    (Waiting c k g pc → Waiting c k g (pc.wakes chs)) := by
  induction chs generalizing pc with
  | nil => exact ⟨rfl, rfl, id, id⟩
  | cons ch chs ih =>
    obtain ⟨hl, hh, hp, hw⟩ := Pc.wake_facts (c := c) (k := k) (g := g) ch pc
    obtain ⟨hl', hh', hp', hw'⟩ := ih (pc.wake ch)
    exact ⟨hl'.trans hl, hh'.trans hh, hp' ∘ hp, hw' ∘ hw⟩

def Pc.on : Pc → Option Chan
  | .waitQueue _ q _ => some (.queue q)
  | .waitHeader _ _ _ => some .header
  | .waitMap _ _ _ => some .map
  | .waitMsg _ q => some (.qnum q)
  | _ => none

theorem Pc.wake_of_on (hon : pc.on ≠ some ch) : pc.wake ch = pc := by
  cases pc <;> simp only [Pc.wake] <;> try rfl
  all_goals exact if_neg fun heq => hon (by rw [heq]; rfl)

theorem Pc.on_wake_self (hon : pc.on = some ch) : (pc.wake ch).on = none := by
  cases pc <;> simp only [Pc.on] at hon <;> try cases hon
  all_goals
    simp only [Pc.wake, if_true]
    rfl

theorem Pc.on_wakes {chs : List Chan} (hon : (pc.wakes chs).on = some ch) :
    pc.wakes chs = pc ∧ ch ∉ chs := by
  induction chs generalizing pc with
  | nil => exact ⟨rfl, List.not_mem_nil⟩
  | cons ch' chs ih =>
    change ((pc.wake ch').wakes chs).on = some ch at hon
    obtain ⟨hsame, hnot⟩ := ih hon
    by_cases hch : pc.on = some ch'
    · rw [hsame, Pc.on_wake_self hch] at hon
      cases hon
    · have hself := Pc.wake_of_on hch
      rw [hself] at hsame hon
      refine ⟨?_, fun hmem => ?_⟩
      · change (pc.wake ch').wakes chs = pc
        rw [hself]
        exact hsame
      · rcases List.mem_cons.mp hmem with rfl | hmem
        · rw [hsame] at hon
          exact hch hon
        · exact hnot hmem

end Facts

end Msgq
end Svr4
