import Svr4.Msgq.Runs

/-!
# What message queues guarantee

Conservation and order of messages in every run without a receiver of the least type, and
no lost wake-ups in every run whose new limits admit nobody who sleeps; with runs that show
that the conditions are needed.
-/

namespace Svr4
namespace Msgq

open Rmap List

/-!
## The start
-/

section Start

variable {c : Config} {w : World}

theorem chain_range {next : Nat → Option Nat} {n : Nat}
    (hnext : ∀ h, next h = if h + 1 < n then some (h + 1) else none) :
    ∀ m i, i + m = n → 0 < m → Chain next (some i) (List.range' i m) none := by
  intro m
  induction m with
  | zero => exact fun i _ h => absurd h (Nat.lt_irrefl 0)
  | succ m ih =>
    intro i hi _
    refine ⟨rfl, ?_⟩
    rw [hnext]
    by_cases hm : m = 0
    · rw [hm, if_neg (by omega)]
      exact rfl
    · rw [if_pos (by omega)]
      exact ih (i + 1) (by omega) (by omega)

theorem start_map (hc : c.Valid) {map : RMap} {lost : Bool}
    (h : rmfree (mapinit (c.msgmap - 2)) c.msgseg 1 = some (map, lost)) :
    ∃ E none, System.Sound (c.msgmap - 2) ⟨map, c.segments, ∅, none⟩ E := by
  have hn : c.msgmap - 2 < 2 ^ 32 := by
    have hm := hc.msgmap
    omega
  have hseg : 1 + c.msgseg ≤ 2 ^ 32 := by
    have hs := hc.msgseg
    omega
  have hnil : (mapinit (c.msgmap - 2)).Ok (c.msgmap - 2) [] :=
    (System.sound_of_start (s := ⟨mapinit (c.msgmap - 2), ∅, ∅, ∅⟩) ⟨rfl, rfl, rfl, rfl⟩).ok
  have hpos : 0 ∉ c.segments := fun hz => absurd hz.1 (by decide)
  have hempty : units ([] : List Slot) = ∅ := by simp [units]
  rcases System.sound_of_freed (s := ⟨mapinit (c.msgmap - 2), ∅, ∅, ∅⟩) hn hnil
    (a := 1) (by omega) (fun _ => by decide) (by rw [hempty]; simp) h with
    ⟨_, hmap⟩ | ⟨_, E, hok, hunits⟩
  · refine ⟨[], c.segments, by rw [hmap]; exact hnil, ?_, ?_, ?_, ?_, hpos⟩
    · simp
    all_goals simp [hempty]
  · have hall : units E = c.segments := by
      rw [hunits, hempty]
      simp [System.unitsOf, Config.segments]
    refine ⟨E, ∅, hok, ?_, ?_, ?_, ?_, hpos⟩
    · rw [hall]
      simp
    all_goals simp

theorem sound_of_start (hc : c.Valid) (h : w.Start c) : ∃ g st, w.Sound c g st ∧ w.Asleep c g := by
  obtain ⟨hque, hnext, hfp, ⟨lost, hmap⟩, hidle, hlog⟩ := h
  obtain ⟨E, gone, hE⟩ := start_map hc hmap
  have htql := hc.msgtql
  have hempty : Ghost.taken ⟨fun _ => [], List.range' 0 c.msgtql, fun _ => .free, fun _ => ∅, gone,
      E⟩ = ∅ := by
    unfold Ghost.taken
    simp
  refine ⟨⟨fun _ => [], List.range' 0 c.msgtql, fun _ => .free, fun _ => ∅, gone, E⟩, .empty,
    ⟨⟨⟨fun q => (hque q).2.1, fun q => (hque q).2.2.1, fun q => (hque q).2.2.2.1, ?_,
      fun h => ?_, fun q h => iff_of_false not_mem_nil nofun, fun h hne => absurd rfl hne, ?_,
      fun _ _ _ => Set.disjoint_empty _, fun _ _ => rfl, nofun⟩, fun q => ?_, fun _ => rfl, ?_,
      fun _ _ => rfl⟩, fun p => ?_, fun p p' q hp => ?_, fun h p => ?_, fun q _ => ?_⟩,
    fun p => ?_⟩
  · rw [hfp]
    exact chain_range hnext c.msgtql 0 (by omega) htql
  · rw [mem_range'_1]
    exact ⟨fun hh => ⟨by omega, rfl⟩, fun hh => ⟨by omega, by omega⟩⟩
  · rw [hempty]
    exact hE
  · exact (hque q).2.2.2.2.2.2.1
  · rw [hlog]
    exact .nil
  · rw [hidle]
    trivial
  · rw [hidle] at hp
    cases hp
  · rw [hidle]
    exact iff_of_false nofun nofun
  · exact ⟨(hque q).2.2.2.2.1, (hque q).2.2.2.2.2.1⟩
  · rw [hidle]
    trivial

end Start

/-!
## Runs
-/

def World.execs (c : Config) : List Event → World → Option World
  | [], w => some w
  | e :: es, w => (w.exec c e).bind (World.execs c es)

variable {c : Config}

theorem reachable_execs {ok : World → Event → Prop} {es : List Event}
    (hok : ∀ w, ∀ e ∈ es, ok w e) : ∀ {w w' : World},
      Transition.ReachableWhen (World.Start c) (World.Step c) ok w → w.execs c es = some w' →
      Transition.ReachableWhen (World.Start c) (World.Step c) ok w' := by
  induction es with
  | nil =>
    intro w w' hw h
    cases h
    exact hw
  | cons e es ih =>
    intro w w' hw h
    obtain ⟨w₁, hstep, hrest⟩ := Option.bind_eq_some_iff.mp h
    exact ih (fun w e he => hok w e (mem_cons_of_mem _ he))
      (hw.next (hok w e mem_cons_self) hstep) hrest

def oneQueue : Config := ⟨10, 8, 1, 1, 8, 2, 4⟩

theorem oneQueue_valid : oneQueue.Valid := by
  constructor <;> decide

def oneQueueMap : RMap :=
  ((rmfree (mapinit 8) 4 1).map Prod.fst).getD (mapinit 8)

def oneQueueStart : World where
  k :=
    { msgque := fun _ => ⟨false, false, false, 0, none, none, 0, 0, 0, false⟩
      msgNext := fun h => if h + 1 < 2 then some (h + 1) else none
      msgType := fun _ => 0
      msgTs := fun _ => 0
      msgSpot := fun _ => 0
      msgfp := some 0
      msgmap := oneQueueMap
      msg := fun _ => 0 }
  procs := fun _ => .idle
  log := []

theorem oneQueueStart_start : oneQueueStart.Start oneQueue := by
  refine ⟨fun q => ⟨rfl, rfl, rfl, rfl, rfl, rfl, rfl, rfl⟩, fun _ => rfl, rfl, ?_, fun _ => rfl, rfl⟩
  exact ⟨false, rfl⟩

/-!
## Conservation and order
-/

/-- The kernel stores what the log leaves on the queues, nothing was received twice, and no header
is lost. -/
def World.Conserved (c : Config) (w : World) : Prop :=
  ∃ g st, Core c w.k g st w.log ∧ st.Sound w.log ∧
    ∀ h p, g.own h = .held p ↔ (w.procs p).holds = some h

theorem reachable_sound {w : World} (hc : c.Valid)
    (hw : Transition.ReachableWhen (World.Start c) (World.Step c) (fun _ e => e.Plain) w) :
    ∃ g st, w.Sound c g st := by
  refine Transition.ReachableWhen.invariant (I := fun w => ∃ g st, w.Sound c g st) ?_ ?_ hw
  · intro w h
    obtain ⟨g, st, hs, _⟩ := sound_of_start hc h
    exact ⟨g, st, hs⟩
  · rintro w e w' ⟨g, st, hs⟩ hplain hstep
    obtain ⟨g', st', hs', _⟩ := keeps_step hc hs hplain hstep
    exact ⟨g', st', hs'⟩

/-- A message without text is on the queue when the lowest type up to any is asked for. -/
def leastType : List Event :=
  [.msgget 0, .msgsnd 0 ⟨0, 0, true⟩, .resume 0 true, .copied 0 (.type 1), .resume 0 true,
    .msgrcv 1 ⟨0, 0, -2 ^ 31, true, true⟩, .resume 1 true, .resume 1 true]

theorem leastType_run : ∃ w, World.execs oneQueue leastType oneQueueStart = some w ∧
    w.log = [.sent 0 1 [], .nomsg 0 (-2 ^ 31)] :=
  ⟨_, rfl, rfl⟩

variable {msgtyp type : Int}

theorem Explains.nomsg_last {log : List Action} {st : Store} {q : Nat}
    (h : Explains (log ++ [.nomsg q msgtyp]) st) :
    Explains log st ∧ Unmatched msgtyp ((st.queues q).map Message.type) := by
  obtain ⟨all, hall⟩ : ∃ all, all = log ++ [.nomsg q msgtyp] := ⟨_, rfl⟩
  rw [← hall] at h
  cases h with
  | nil => simp at hall
  | nomsg q' msgtyp' hlog hun =>
    obtain ⟨hfront, hlast⟩ := append_inj' hall rfl
    cases hlast
    rw [← hfront]
    exact ⟨hlog, hun⟩
  | _ => cases (append_inj' hall rfl).2

theorem Explains.sent_last {log : List Action} {st : Store} {q : Nat} {text : List Nat}
    (h : Explains (log ++ [.sent q type text]) st) : ∃ m ∈ st.queues q, m.type = type := by
  obtain ⟨all, hall⟩ : ∃ all, all = log ++ [.sent q type text] := ⟨_, rfl⟩
  rw [← hall] at h
  cases h with
  | nil => simp at hall
  | sent q' type' text' hlog =>
    cases (append_inj' hall rfl).2
    rw [Store.put_self]
    exact ⟨_, mem_append_right _ (mem_singleton_self _), rfl⟩
  | _ => cases (append_inj' hall rfl).2

def Refused (c : Config) (k : Kernel) : Pc → Prop
  | .waitQueue a q _ => (k.msgque q).msgQbytes < a.msgsz.toNat + (k.msgque q).msgCbytes
  | .waitHeader _ _ _ => k.msgfp = none
  | .waitMap a _ _ => ∃ map, rmalloc k.msgmap (btoq c a.msgsz.toNat) = some (0, map)
  | .waitMsg a q => find c k a.msgtyp q = some none
  | _ => True

theorem Unmatched.not_takes {pre post : List Int}
    (h : Unmatched msgtyp (pre ++ type :: post)) : ¬ Takes msgtyp pre type post := by
  intro htakes
  have hin : type ∈ pre ++ type :: post := by simp
  unfold Unmatched at h
  unfold Takes at htakes
  split at h
  · simp at h
  · rename_i hzero
    rw [if_neg hzero] at htakes
    split at h
    · rename_i hpos
      rw [if_pos hpos] at htakes
      exact h type hin htakes.1
    · rename_i hpos
      rw [if_neg hpos] at htakes
      have hlt := h type hin
      omega

theorem Waiting.refused {k : Kernel} {g : Ghost} {pc : Pc} (hl : Laid c k g) (hpc : PcOk c k g pc)
    (hw : Waiting c k g pc) : Refused c k pc := by
  cases pc with
  | waitQueue a q type => exact hw.2
  | waitHeader a q type => exact hw
  | waitMap a q type =>
    rcases exists_first_fit (btoq c a.msgsz.toNat) g.entries with hnone | ⟨front, e, back, hsplit,
      hfront, he⟩
    · exact ⟨_, rmalloc_none hl.map.ok hnone⟩
    · refine absurd (fun u hu => ?_) (hw.2 e.mAddr)
      have hin : e ∈ g.entries := by
        rw [hsplit]
        simp
      unfold System.unitsOf at hu
      rw [Set.mem_Ico] at hu
      refine ⟨e, hin, ?_⟩
      unfold Slot.stop
      omega
  | waitMsg a q =>
    obtain ⟨r, hrun, hbest⟩ := find_spec hl hpc q
    cases r with
    | none => exact hrun
    | some r =>
      obtain ⟨pre, post, hsplit, _, htakes⟩ := hbest
      have hun := hw.2
      rw [hsplit, map_append, map_cons] at hun
      exact absurd htakes hun.not_takes
  | _ => trivial

/-- In every run whose new limits admit nobody who sleeps, who is asleep cannot go on. -/
theorem asleep_refused {c : Config} {w : World} (hc : c.Valid)
    (hw : Transition.ReachableWhen (World.Start c) (World.Step c)
      (fun w e => e.Plain ∧ w.Fair e) w) : ∀ p, Refused c w.k (w.procs p) := by
  have hinv : ∃ g st, w.Sound c g st ∧ w.Asleep c g := by
    refine Transition.ReachableWhen.invariant
      (I := fun w => ∃ g st, w.Sound c g st ∧ w.Asleep c g) ?_ ?_ hw
    · exact fun w h => sound_of_start hc h
    · rintro w e w' ⟨g, st, hs, hasleep⟩ ⟨hplain, hfair⟩ hstep
      obtain ⟨g', st', hs', hasleep'⟩ := keeps_step hc hs hplain hstep
      exact ⟨g', st', hs', hasleep' hasleep hfair⟩
  obtain ⟨g, st, hs, hasleep⟩ := hinv
  exact fun p => (hasleep p).refused hs.core.laid (hs.pcOk p)

/-- A sender waits for space; its message fits the new limit. -/
theorem raised_limit_not_refused : oneQueue.Valid ∧ ∃ w,
    Transition.Reachable (World.Start oneQueue) (World.Step oneQueue) w ∧
      ¬ ∀ p, Refused oneQueue w.k (w.procs p) := by
  have hrun : ∃ w, World.execs oneQueue
      [.msgget 0, .msgsnd 0 ⟨0, 2, false⟩, .resume 0 true, .copied 0 (.type 1), .resume 0 true,
        .msgctl 1 0 .set, .resume 1 true, .copied 1 (.limit (some 10))]
      oneQueueStart = some w ∧ w.procs 0 = .waitQueue ⟨0, 2, false⟩ 0 1 ∧
        (w.k.msgque 0).msgQbytes = 10 ∧ (w.k.msgque 0).msgCbytes = 0 :=
    ⟨_, rfl, rfl, rfl, rfl⟩
  obtain ⟨w, hrun, hproc, hlimit, hbytes⟩ := hrun
  refine ⟨oneQueue_valid, w, reachable_execs (fun _ _ _ => trivial)
    (Transition.Reachable.start oneQueueStart_start) hrun, fun hall => ?_⟩
  have hlt : (w.k.msgque 0).msgQbytes < 2 + (w.k.msgque 0).msgCbytes := by
    have h0 := hall 0
    rw [hproc] at h0
    exact h0
  rw [hlimit, hbytes] at hlt
  exact absurd hlt (by decide)

/-- A sender waits for space. -/
theorem asleep_refused_sender : oneQueue.Valid ∧ ∃ w : World,
    w.procs 0 = .waitQueue ⟨0, 2, false⟩ 0 1 ∧ ∀ p, Refused oneQueue w.k (w.procs p) := by
  have hrun : ∃ w₁ w₂ w₃ w₄ w₅ : World, oneQueueStart.exec oneQueue (.msgget 0) = some w₁ ∧
      w₁.exec oneQueue (.msgsnd 0 ⟨0, 2, false⟩) = some w₂ ∧
      w₂.exec oneQueue (.resume 0 true) = some w₃ ∧
      w₃.exec oneQueue (.copied 0 (.type 1)) = some w₄ ∧
      w₄.exec oneQueue (.resume 0 true) = some w₅ ∧
      w₂.k.msgmap.mapwant = 0 ∧ w₄.k.msgmap.mapwant = 0 ∧
      w₅.procs 0 = .waitQueue ⟨0, 2, false⟩ 0 1 :=
    ⟨_, _, _, _, _, rfl, rfl, rfl, rfl, rfl, rfl, rfl, rfl⟩
  obtain ⟨w₁, w₂, w₃, w₄, w₅, h₁, h₂, h₃, h₄, h₅, hwant₂, hwant₄, hproc⟩ := hrun
  have hfair : ∀ w : World, w.k.msgmap.mapwant = 0 → w.k.msgmap.mapwant + 1 < 2 ^ 32 := by
    intro w hw
    rw [hw]
    decide
  let Reach := Transition.ReachableWhen (World.Start oneQueue) (World.Step oneQueue)
    (fun w e => e.Plain ∧ w.Fair e)
  have hstart : Reach oneQueueStart := Transition.ReachableWhen.start oneQueueStart_start
  have hnext : ∀ {w w' : World} (e : Event), Reach w → e.Plain → w.Fair e →
      w.exec oneQueue e = some w' → Reach w' :=
    fun e hw hplain hf h => Transition.ReachableWhen.next hw ⟨hplain, hf⟩ h
  have hreach₁ := hnext (.msgget 0) hstart trivial trivial h₁
  have hreach₂ := hnext (.msgsnd 0 ⟨0, 2, false⟩) hreach₁ trivial trivial h₂
  have hreach₃ := hnext (.resume 0 true) hreach₂ trivial (hfair w₂ hwant₂) h₃
  have hreach₄ := hnext (.copied 0 (.type 1)) hreach₃ trivial trivial h₄
  have hreach := hnext (.resume 0 true) hreach₄ trivial (hfair w₄ hwant₄) h₅
  exact ⟨oneQueue_valid, w₅, hproc, asleep_refused oneQueue_valid hreach⟩

end Msgq
end Svr4
