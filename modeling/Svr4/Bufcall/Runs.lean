import Mathlib.Data.List.Perm.Subperm
import Svr4.Bufcall.Events

/-!
# Events over whole runs

What each step does to the list of events, and that in the runs in which no
event that is too big is alone on the list, none is lost and none is run twice.
-/

namespace Svr4
namespace Bufcall

open Function List Option
variable {sep nevent : Nat} {count : Int}

namespace System

open Transition

/-- The list of a system, and the numbers of the events on it. -/
structure Sound (s : System) (l : List Nat) : Prop where
  chain : Chain s.seNext s.bcHead l none
  tail : l ≠ [] → s.bcTail = l.getLast?
  allocated : ∀ sep ∈ l, sep ∈ s.allocated
  nodup : s.allocated.Nodup
  running : ∀ nevent count sep, s.pass = .call nevent count sep → sep ∉ l ∧ sep ∈ s.allocated
  waiting : ∀ sep ∈ l, s.number sep ∉ s.ran ∧ s.number sep ∉ s.cancelled
  inj : ∀ sep ∈ l, ∀ sep' ∈ l, s.number sep = s.number sep' → sep = sep'
  number_lt : ∀ sep ∈ l, s.number sep < s.registered
  ran_lt : ∀ k ∈ s.ran, k < s.registered
  cancelled_lt : ∀ k ∈ s.cancelled, k < s.registered
  complete : ∀ k < s.registered, k ∉ s.ran → k ∉ s.cancelled → ∃ sep ∈ l, s.number sep = k
  once : s.ran.Nodup

variable {s t : System} {l : List Nat}

theorem Sound.length_le (hs : s.Sound l) : l.length ≤ s.allocated.length :=
  (subperm_of_subset hs.chain.nodup hs.allocated).length_le

theorem Sound.head_eq_none (hs : s.Sound l) : s.bcHead = none ↔ l = [] := by
  have hchain := hs.chain
  cases l with
  | nil => exact ⟨fun _ => rfl, fun _ => hchain⟩
  | cons sep rest =>
    rw [hchain.1]
    simp

theorem Sound.nothingLost (hs : s.Sound l) : s.NothingLost :=
  ⟨⟨l, hs.chain, hs.tail, hs.complete⟩, hs.once⟩

theorem sound_of_start (hs : s.Start) : s.Sound [] := by
  rcases hs with ⟨hhead, hallocated, hregistered, hran, hcancelled, hpass⟩
  refine ⟨hhead, fun h => absurd rfl h, by simp, by simp [hallocated], ?_, by simp,
    by simp, by simp, by simp [hran], by simp [hcancelled], ?_, by simp [hran]⟩
  · rw [hpass]
    nofun
  · rw [hregistered]
    exact fun k hk => absurd hk (Nat.not_lt_zero k)

/-!
## Registration
-/

theorem sound_of_registered (hs : s.Sound l) (hsep : sep ∉ s.allocated)
    (hchain : Chain t.seNext t.bcHead (l ++ [sep]) none) (htail : t.bcTail = some sep)
    (hallocated : t.allocated = sep :: s.allocated) (hpass : t.pass = s.pass)
    (hregistered : t.registered = s.registered + 1)
    (hnumber : t.number = update s.number sep s.registered) (hran : t.ran = s.ran)
    (hcancelled : t.cancelled = s.cancelled) : t.Sound (l ++ [sep]) := by
  have hold : ∀ a ∈ l, t.number a = s.number a := by
    intro a ha
    rw [hnumber]
    apply update_of_ne
    rintro rfl
    exact hsep (hs.allocated a ha)
  have hnew : t.number sep = s.registered := by
    rw [hnumber, update_self]
  refine ⟨hchain, fun _ => by rw [htail, getLast?_concat], ?_, ?_, ?_, ?_, ?_,
    ?_, ?_, ?_, ?_, by rw [hran]; exact hs.once⟩
  · intro a ha
    rw [hallocated]
    rcases mem_append.mp ha with ha | ha
    · exact mem_cons_of_mem _ (hs.allocated a ha)
    · rw [mem_singleton.mp ha]
      exact mem_cons_self
  · rw [hallocated]
    exact nodup_cons.mpr ⟨hsep, hs.nodup⟩
  · intro nevent count a ha
    rw [hpass] at ha
    rcases hs.running nevent count a ha with ⟨hnot, hmem⟩
    refine ⟨?_, by rw [hallocated]; exact mem_cons_of_mem _ hmem⟩
    intro hin
    rcases mem_append.mp hin with hin | hin
    · exact hnot hin
    · rw [mem_singleton.mp hin] at hmem
      exact hsep hmem
  · intro a ha
    rw [hran, hcancelled]
    rcases mem_append.mp ha with ha | ha
    · rw [hold a ha]
      exact hs.waiting a ha
    · rw [mem_singleton.mp ha, hnew]
      exact ⟨fun h => Nat.lt_irrefl _ (hs.ran_lt _ h),
        fun h => Nat.lt_irrefl _ (hs.cancelled_lt _ h)⟩
  · intro a ha b hb hab
    rcases mem_append.mp ha with ha | ha
    · have hlt := hs.number_lt a ha
      rw [hold a ha] at hab
      rcases mem_append.mp hb with hb | hb
      · rw [hold b hb] at hab
        exact hs.inj a ha b hb hab
      · rw [mem_singleton.mp hb, hnew] at hab
        omega
    · rw [mem_singleton.mp ha] at hab ⊢
      rcases mem_append.mp hb with hb | hb
      · have hlt := hs.number_lt b hb
        rw [hnew, hold b hb] at hab
        omega
      · exact (mem_singleton.mp hb).symm
  · intro a ha
    rw [hregistered]
    rcases mem_append.mp ha with ha | ha
    · rw [hold a ha]
      exact Nat.lt_succ_of_lt (hs.number_lt a ha)
    · rw [mem_singleton.mp ha, hnew]
      exact Nat.lt_succ_self _
  · intro k hk
    rw [hran] at hk
    rw [hregistered]
    exact Nat.lt_succ_of_lt (hs.ran_lt k hk)
  · intro k hk
    rw [hcancelled] at hk
    rw [hregistered]
    exact Nat.lt_succ_of_lt (hs.cancelled_lt k hk)
  · intro k hk hkran hkcancelled
    rw [hran] at hkran
    rw [hcancelled] at hkcancelled
    rw [hregistered] at hk
    rcases Nat.lt_succ_iff_lt_or_eq.mp hk with hk | rfl
    · rcases hs.complete k hk hkran hkcancelled with ⟨a, ha, hka⟩
      exact ⟨a, mem_append_left _ ha, by rw [hold a ha]; exact hka⟩
    · exact ⟨sep, by simp, hnew⟩

theorem sound_of_bufcall (hs : s.Sound l) (hsep : sep ∉ s.allocated) (size : Int) (func : Nat)
    (arg : Int) : (s.bufcall sep size func arg).Sound (l ++ [sep]) := by
  have hnot : sep ∉ l := fun h => hsep (hs.allocated sep h)
  unfold bufcall
  cases hhead : s.bcHead with
  | none =>
    have hnil := hs.head_eq_none.mp hhead
    subst hnil
    refine sound_of_registered hs hsep ⟨rfl, ?_⟩ rfl rfl rfl rfl rfl rfl rfl
    exact update_self ..
  | some head =>
    have hne : l ≠ [] := by
      intro h
      rw [hs.head_eq_none.mpr h] at hhead
      cases hhead
    have htail := hs.tail hne
    rcases getLast?_isSome.mpr hne |> isSome_iff_exists.mp with ⟨last, hlast⟩
    rw [hlast] at htail
    rw [htail]
    refine sound_of_registered hs hsep ?_ rfl rfl rfl rfl rfl rfl rfl
    have hchain := hs.chain
    rw [hhead] at hchain
    exact hchain.snoc hnot hlast

/-!
## Cancelling
-/

theorem search_spec {np : Nat → Option Nat} {x fuel : Nat} {q h : Option Nat}
    (hchain : Chain np h l none) (hfuel : l.length ≤ fuel) :
    (x ∉ l → ∃ p, search np x fuel q h = some (p, none)) ∧
    ∀ front back, l = front ++ x :: back → x ∉ front → search np x fuel q h =
        some (if front = [] then q else front.getLast?, some x) := by
  induction l generalizing h q fuel with
  | nil =>
    refine ⟨fun _ => ⟨q, ?_⟩, by simp⟩
    rw [Chain.nil_iff.mp hchain]
    unfold search
    rfl
  | cons sep rest ih =>
    rcases hchain with ⟨rfl, hrest⟩
    cases fuel with
    | zero => cases hfuel
    | succ fuel =>
      rcases ih hrest (Nat.le_of_succ_le_succ hfuel) with ⟨hnone, hsome⟩
      refine ⟨fun hid => ?_, fun front back hsplit hid => ?_⟩
      · rcases hnone (fun h => hid (mem_cons_of_mem _ h)) with ⟨p, hp⟩
        have hne : x ≠ sep := by
          rintro rfl
          exact hid mem_cons_self
        refine ⟨p, ?_⟩
        unfold search
        rw [if_neg hne]
        exact hp
      · cases front with
        | nil =>
          rw [nil_append, List.cons.injEq] at hsplit
          rw [hsplit.1]
          unfold search
          rw [if_pos rfl, if_pos rfl]
        | cons a front =>
          rw [cons_append, List.cons.injEq] at hsplit
          have hne : x ≠ sep := by
            rw [hsplit.1]
            exact fun h => hid (h ▸ mem_cons_self)
          unfold search
          rw [if_neg hne, hsome front back hsplit.2 (fun h => hid (mem_cons_of_mem _ h)), hsplit.1]
          cases front with
          | nil => rfl
          | cons b front => rfl

theorem sound_of_cancelled {front back : List Nat} (hs : s.Sound (front ++ sep :: back))
    (hchain : Chain t.seNext t.bcHead (front ++ back) none)
    (htail : front ++ back ≠ [] → t.bcTail = (front ++ back).getLast?)
    (hallocated : t.allocated = s.allocated.erase sep) (hpass : t.pass = s.pass)
    (hregistered : t.registered = s.registered) (hnumber : t.number = s.number)
    (hran : t.ran = s.ran) (hcancelled : t.cancelled = s.number sep :: s.cancelled) :
    t.Sound (front ++ back) := by
  have hnodup := hs.chain.nodup
  have hmiddle : (sep :: (front ++ back)).Nodup :=
    (perm_middle.nodup_iff).mp hnodup
  have hsub : ∀ a ∈ front ++ back, a ∈ front ++ sep :: back := by
    intro a ha
    exact (perm_middle.mem_iff).mpr (mem_cons_of_mem _ ha)
  have hself : sep ∈ front ++ sep :: back := by simp
  have hne : ∀ a ∈ front ++ back, a ≠ sep := by
    rintro a ha rfl
    exact (nodup_cons.mp hmiddle).1 ha
  refine ⟨hchain, htail, ?_, ?_, ?_, ?_, ?_, ?_, ?_, ?_, ?_, by rw [hran]; exact hs.once⟩
  · intro a ha
    rw [hallocated]
    exact (mem_erase_of_ne (hne a ha)).mpr (hs.allocated a (hsub a ha))
  · rw [hallocated]
    exact hs.nodup.erase sep
  · intro nevent count a ha
    rw [hpass] at ha
    rcases hs.running nevent count a ha with ⟨hnot, hmem⟩
    refine ⟨fun h => hnot (hsub a h), ?_⟩
    rw [hallocated]
    refine (mem_erase_of_ne ?_).mpr hmem
    rintro rfl
    exact hnot hself
  · intro a ha
    rw [hran, hcancelled, hnumber]
    refine ⟨(hs.waiting a (hsub a ha)).1, ?_⟩
    intro h
    rcases mem_cons.mp h with h | h
    · exact hne a ha (hs.inj a (hsub a ha) sep hself h)
    · exact (hs.waiting a (hsub a ha)).2 h
  · intro a ha b hb
    rw [hnumber]
    exact hs.inj a (hsub a ha) b (hsub b hb)
  · intro a ha
    rw [hnumber, hregistered]
    exact hs.number_lt a (hsub a ha)
  · intro k hk
    rw [hran] at hk
    rw [hregistered]
    exact hs.ran_lt k hk
  · intro k hk
    rw [hcancelled] at hk
    rw [hregistered]
    rcases mem_cons.mp hk with rfl | hk
    · exact hs.number_lt sep hself
    · exact hs.cancelled_lt k hk
  · intro k hk hkran hkcancelled
    rw [hregistered] at hk
    rw [hran] at hkran
    rw [hcancelled, mem_cons, not_or] at hkcancelled
    rcases hs.complete k hk hkran hkcancelled.2 with ⟨a, ha, hka⟩
    refine ⟨a, ?_, by rw [hnumber]; exact hka⟩
    rcases mem_cons.mp ((perm_middle.mem_iff).mp ha) with rfl | ha
    · exact absurd hka.symm hkcancelled.1
    · exact ha

theorem sound_of_unbufcall {id : Nat} (hs : s.Sound l) (h : s.unbufcall id = some t) :
    ∃ l', t.Sound l' := by
  have hsearch := search_spec (x := id) (q := none) hs.chain hs.length_le
  by_cases hid : id ∈ l
  · rcases append_of_mem hid with ⟨front, back, rfl⟩
    have hnodup := hs.chain.nodup
    have hfront : id ∉ front := by
      intro hmem
      rw [nodup_append] at hnodup
      exact hnodup.2.2 id hmem id (by simp) rfl
    have htail := hs.tail (by simp)
    have hrun := hsearch.2 front back rfl hfront
    unfold unbufcall at h
    rw [hrun] at h
    rcases eq_nil_or_concat front with rfl | ⟨front, psep, rfl⟩
    · rw [if_pos rfl] at h
      simp only [Option.bind_eq_bind, Option.bind_some, Option.pure_def, some.injEq] at h
      have hback : Chain s.seNext (s.seNext id) back none := hs.chain.2
      refine ⟨[] ++ back, ?_⟩
      subst h
      split
      · rename_i hlast
        refine sound_of_cancelled hs hback ?_ rfl rfl rfl rfl rfl rfl
        -- The event was the last one, and there is none before it.
        intro hne
        have hsome : some id = ([] ++ id :: back).getLast? := by
          rw [← htail]
          exact hlast.symm
        rw [nil_append] at hne hsome
        rcases getLast?_isSome.mpr hne |> isSome_iff_exists.mp with ⟨last, hback'⟩
        rw [getLast?_cons, hback'] at hsome
        have heq : id = last := some.inj hsome
        subst heq
        have hmem := mem_of_getLast? hback'
        rw [nil_append, nodup_cons] at hnodup
        exact absurd hmem hnodup.1
      · refine sound_of_cancelled hs hback ?_ rfl rfl rfl rfl rfl rfl
        intro hne
        rw [htail, nil_append, nil_append, getLast?_cons]
        rcases getLast?_isSome.mpr hne |> isSome_iff_exists.mp with ⟨last, hback'⟩
        rw [nil_append] at hback'
        rw [hback']
        rfl
    · have hne : front.concat psep ≠ [] := by simp
      rw [if_neg hne, concat_eq_append, getLast?_concat] at h
      simp only [Option.bind_eq_bind, Option.bind_some, Option.pure_def, some.injEq] at h
      rw [concat_eq_append] at *
      refine ⟨front ++ [psep] ++ back, ?_⟩
      subst h
      split
      · rename_i hlast
        refine sound_of_cancelled hs hs.chain.bypass ?_ rfl rfl rfl rfl rfl rfl
        intro _
        change some psep = _
        have hsome : some id = (front ++ [psep] ++ id :: back).getLast? := by
          rw [← htail]
          exact hlast.symm
        cases back with
        | nil => rw [append_nil, getLast?_concat]
        | cons b back =>
          rw [getLast?_append_cons, getLast?_cons_cons] at hsome
          have hmem := mem_of_getLast? hsome.symm
          rw [nodup_append, nodup_cons] at hnodup
          exact absurd hmem hnodup.2.1.1
      · rename_i hlast
        refine sound_of_cancelled hs hs.chain.bypass ?_ rfl rfl rfl rfl rfl rfl
        intro _
        change s.bcTail = _
        cases back with
        | nil =>
          rw [getLast?_concat] at htail
          exact absurd htail hlast
        | cons b back =>
          rw [htail, getLast?_append_cons, getLast?_append_cons, getLast?_cons_cons]
  · rcases hsearch.1 hid with ⟨p, hrun⟩
    unfold unbufcall at h
    rw [hrun] at h
    cases h
    exact ⟨l, hs⟩

/-!
## The pass
-/

theorem sound_of_run {rest : List Nat} (hs : s.Sound (sep :: rest)) : Sound { s with
      bcHead := s.seNext sep
      pass := .call nevent count sep
      ran := s.number sep :: s.ran } rest := by
  have hnodup := hs.chain.nodup
  have hsep : sep ∉ rest := (nodup_cons.mp hnodup).1
  have hself := mem_cons_self (a := sep) (l := rest)
  have hin : ∀ a ∈ rest, a ∈ sep :: rest := fun a => mem_cons_of_mem sep
  refine ⟨hs.chain.2, ?_, fun a ha => hs.allocated a (hin a ha), hs.nodup, ?_, ?_,
    fun a ha b hb => hs.inj a (hin a ha) b (hin b hb),
    fun a ha => hs.number_lt a (hin a ha), ?_, hs.cancelled_lt, ?_, ?_⟩
  · intro hne
    rw [hs.tail (cons_ne_nil _ _), getLast?_cons_of_ne_nil hne]
  · rintro _ _ _ ⟨⟩
    exact ⟨hsep, hs.allocated sep hself⟩
  · intro a ha
    refine ⟨?_, (hs.waiting a (hin a ha)).2⟩
    intro h
    rcases mem_cons.mp h with h | h
    · have heq := hs.inj a (hin a ha) sep hself h
      subst heq
      exact hsep ha
    · exact (hs.waiting a (hin a ha)).1 h
  · intro k hk
    rcases mem_cons.mp hk with rfl | hk
    · exact hs.number_lt sep hself
    · exact hs.ran_lt k hk
  · intro k hk hkran hkcancelled
    rw [mem_cons, not_or] at hkran
    rcases hs.complete k hk hkran.2 hkcancelled with ⟨a, ha, hka⟩
    rcases mem_cons.mp ha with rfl | ha
    · exact absurd hka.symm hkran.1
    · exact ⟨a, ha, hka⟩
  · exact nodup_cons.mpr ⟨(hs.waiting sep hself).1, hs.once⟩

theorem sound_of_perm {l' : List Nat} (hs : s.Sound l) (hperm : l'.Perm l)
    (hchain : Chain t.seNext t.bcHead l' none) (htail : l' ≠ [] → t.bcTail = l'.getLast?)
    (hallocated : t.allocated = s.allocated)
    (hpass : ∀ nevent count sep, t.pass ≠ .call nevent count sep)
    (hregistered : t.registered = s.registered) (hnumber : t.number = s.number)
    (hran : t.ran = s.ran) (hcancelled : t.cancelled = s.cancelled) : t.Sound l' := by
  have hin : ∀ a ∈ l', a ∈ l := fun a ha => hperm.mem_iff.mp ha
  refine ⟨hchain, htail, ?_, ?_, fun n c a ha => absurd ha (hpass n c a), ?_, ?_, ?_, ?_,
    ?_, ?_, ?_⟩
  · rw [hallocated]
    exact fun a ha => hs.allocated a (hin a ha)
  · rw [hallocated]
    exact hs.nodup
  · rw [hnumber, hran, hcancelled]
    exact fun a ha => hs.waiting a (hin a ha)
  · rw [hnumber]
    exact fun a ha b hb => hs.inj a (hin a ha) b (hin b hb)
  · rw [hnumber, hregistered]
    exact fun a ha => hs.number_lt a (hin a ha)
  · rw [hran, hregistered]
    exact hs.ran_lt
  · rw [hcancelled, hregistered]
    exact hs.cancelled_lt
  · rw [hregistered, hran, hcancelled, hnumber]
    intro k hk hkran hkcancelled
    rcases hs.complete k hk hkran hkcancelled with ⟨a, ha, hka⟩
    exact ⟨a, hperm.mem_iff.mpr ha, hka⟩
  · rw [hran]
    exact hs.once

theorem sound_of_turn {rest : List Nat} (hs : s.Sound (sep :: rest))
    (halone : count < (s.strevent sep).seSize → s.seNext sep ≠ none) :
    ∃ l', (s.turn nevent count sep).Sound l' := by
  unfold turn
  split
  · exact ⟨rest, sound_of_run hs⟩
  · rename_i hbig
    have hsep : sep ∉ rest := (nodup_cons.mp hs.chain.nodup).1
    have hrest : Chain s.seNext (s.seNext sep) rest none := hs.chain.2
    have hne : rest ≠ [] := by
      rintro rfl
      exact halone (by omega) hrest
    rcases getLast?_isSome.mpr hne |> isSome_iff_exists.mp with ⟨last, hlast⟩
    have htail : s.bcTail = some last := by
      rw [hs.tail (cons_ne_nil _ _), getLast?_cons_of_ne_nil hne, hlast]
    rw [htail]
    refine ⟨rest ++ [sep], sound_of_perm hs (perm_append_singleton sep rest)
      (hrest.snoc hsep hlast) ?_ rfl nofun rfl rfl rfl rfl⟩
    intro _
    rw [getLast?_concat]

theorem sound_of_ret (hs : s.Sound l) (hpass : s.pass = .call nevent count sep) :
    Sound { s.sefree sep with pass := .loop nevent count } l := by
  rcases hs.running nevent count sep hpass with ⟨hsep, _⟩
  refine ⟨hs.chain, hs.tail, ?_, hs.nodup.erase sep, nofun, hs.waiting, hs.inj,
    hs.number_lt, hs.ran_lt, hs.cancelled_lt, hs.complete, hs.once⟩
  intro a ha
  have hne : a ≠ sep := by
    rintro rfl
    exact hsep ha
  exact (mem_erase_of_ne hne).mpr (hs.allocated a ha)

theorem sound_of_step {e : Event} (hs : s.Sound l) (hok : s.NotAlone e)
    (hstep : s.Step e t) : ∃ l', t.Sound l' := by
  unfold Step at hstep
  cases e with
  | bufcall sep size func arg =>
    cases sep with
    | none =>
      cases hstep
      exact ⟨l, hs⟩
    | some sep =>
      unfold exec at hstep
      dsimp only at hstep
      split at hstep
      · cases hstep
      · rename_i hsep
        cases hstep
        exact ⟨_, sound_of_bufcall hs hsep size func arg⟩
  | unbufcall id => exact sound_of_unbufcall hs hstep
  | kmemFree =>
    cases hstep
    exact ⟨l, { hs with }⟩
  | begin count =>
    unfold exec at hstep
    dsimp only at hstep
    split at hstep
    · split at hstep
      · rcases map_eq_some_iff.mp hstep with ⟨nevent, _, rfl⟩
        exact ⟨l, { hs with running := nofun }⟩
      · cases hstep
    · cases hstep
  | turn =>
    unfold exec at hstep
    dsimp only at hstep
    split at hstep
    · rename_i nevent count sep hpass hhead
      cases hstep
      have hchain := hs.chain
      cases l with
      | nil =>
        rw [Chain.nil_iff.mp hchain] at hhead
        cases hhead
      | cons a rest =>
        have hsep : a = sep := by
          rw [hchain.1] at hhead
          exact some.inj hhead
        subst hsep
        unfold NotAlone at hok
        rw [hpass, hhead] at hok
        exact sound_of_turn hs hok
    · cases hstep
  | ret =>
    unfold exec at hstep
    dsimp only at hstep
    split at hstep
    · rename_i nevent count sep hpass
      cases hstep
      exact ⟨l, sound_of_ret hs hpass⟩
    · cases hstep
  | finish =>
    unfold exec at hstep
    dsimp only at hstep
    split at hstep
    · rename_i hpass hhead
      cases hstep
      have hnil := hs.head_eq_none.mp hhead
      subst hnil
      exact ⟨[], { hs with running := nofun, tail := fun h => absurd rfl h }⟩
    · cases hstep
      exact ⟨l, { hs with running := nofun }⟩
    · cases hstep

/-- Unless an event too big for the memory is alone on the list, each event that is not cancelled is
run at most once, and is on the list until then. -/
theorem nothing_lost (hs : ReachableWhen Start Step NotAlone s) :
    s.NothingLost := by
  have hsound : ∃ l, s.Sound l := by
    refine hs.invariant (I := fun s => ∃ l, s.Sound l) ?_ ?_
    · exact fun s hstart => ⟨[], sound_of_start hstart⟩
    · rintro s e t ⟨l, hl⟩ hok hstep
      exact sound_of_step hl hok hstep
  rcases hsound with ⟨l, hl⟩
  exact hl.nothingLost

def quiet : System where
  bcHead := none
  bcTail := none
  seNext := fun _ => none
  strevent := fun _ => ⟨0, 0, 0⟩
  allocated := []
  strbcwait := false
  strbcflag := false
  pass := .none
  registered := 0
  number := fun _ => 0
  ran := []
  cancelled := []

/-- The state after some events, of which those that are not possible are none. -/
def run (s : System) (events : List Event) : System :=
  events.foldl (fun s e => (s.exec e).getD s) s

def Meets (ok : System → Event → Prop) : System → List Event → Prop
  | _, [] => True
  | s, e :: rest => ok s e ∧ Meets ok ((s.exec e).getD s) rest

theorem reachable_run {ok : System → Event → Prop} {events : List Event}
    (hs : ReachableWhen Start Step ok s) (hmeets : Meets ok s events) :
    ReachableWhen Start Step ok (s.run events) := by
  induction events generalizing s with
  | nil => exact hs
  | cons e rest ih =>
    refine ih (s := (s.exec e).getD s) ?_ hmeets.2
    cases hexec : s.exec e with
    | none => exact hs
    | some t => exact hs.next hmeets.1 hexec

theorem start_quiet : quiet.Start := ⟨rfl, rfl, rfl, rfl, rfl, rfl⟩

def twoEvents : List Event :=
  [.bufcall (some 0) 100 0 0, .bufcall (some 1) 5 0 0, .kmemFree, .begin 10, .turn, .turn, .ret]

theorem nothing_lost_twoEvents : (quiet.run twoEvents).ran = [1] ∧
    (quiet.run twoEvents).NothingLost := by
  refine ⟨by decide, nothing_lost (reachable_run (ReachableWhen.start start_quiet) ?_)⟩
  exact ⟨trivial, trivial, trivial, trivial, fun _ => nofun,
    fun h => absurd h (by decide), trivial, trivial⟩

/-- The only event is too big: it is no longer on the list. -/
theorem event_lost : ∃ s, Reachable Start Step s ∧ ¬ s.NothingLost := by
  let events : List Event := [.bufcall (some 0) 100 0 0, .kmemFree, .begin 10, .turn]
  refine ⟨quiet.run events, reachable_run (ReachableWhen.start start_quiet)
    ⟨trivial, trivial, trivial, trivial, trivial⟩, ?_⟩
  rintro ⟨⟨l, hchain, _, hcomplete⟩, _⟩
  have hhead : (quiet.run events).bcHead = none := rfl
  rw [hhead] at hchain
  have hnil : l = [] := by
    cases l with
    | nil => rfl
    | cons sep rest => cases hchain.1
  rcases hcomplete 0 (by decide) (by decide) (by decide) with ⟨sep, hsep, _⟩
  rw [hnil] at hsep
  cases hsep

end System
end Bufcall
end Svr4
