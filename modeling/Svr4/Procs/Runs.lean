import Svr4.Lib.Transition
import Svr4.Procs.Lives

/-!
# Runs of processes

Forks, changes of groups, new sessions, exits and the freeing of processes, in
any order.  The lists of the groups, the hash of the pids and the searches are
right in every run; the flags of orphaned groups are, as long as no process
takes the links of its children with it unnoticed.
-/

namespace Svr4
namespace Procs

open Transition List Tables Option

/-!
## Operations
-/

inductive Op where
  | newproc (nolast refused : Bool) (pp cp pidp : Nat)
  | setpgid (execed : Bool) (u : Nat) (pid pgid : Int)
  | setpgrp (u sp : Nat)
  | setsid (u sp : Nat)
  | exit (p : Nat)
  | freeproc (p : Nat)
  | setStat (p : Nat) (stat : Stat)
  | pidSetmin

def Op.run (c : Conf) (v : Tables) : Op → Fault Tables
  | .newproc nolast refused pp cp pidp =>
    Prod.fst <$> v.newproc c nolast refused pp cp pidp
  | .setpgid execed u pid pgid => Prod.fst <$> v.setpgid execed u pid pgid
  | .setpgrp u sp => v.setpgrp u sp
  | .setsid u sp => Prod.fst <$> v.setsid u sp
  | .exit p => Prod.fst <$> v.exit c p
  | .freeproc p => v.freeproc p
  | .setStat p stat => return v.setProc p { v.proc p with pStat := stat }
  | .pidSetmin => return v.pidSetmin

/--
Who does what: processes that run make system calls, the allocator hands out
memory that is not in use, the first two processes do not exit, and processes
are freed when they are zombies or have not got started.
-/
def Op.Admits (c : Conf) (v : Tables) : Op → Prop
  | .newproc _ _ pp cp pidp => pp ∈ v.practive ∧ (v.proc pp).pStat.active = true ∧
      cp ∉ v.practive ∧ Unused v v.practive pidp
  | .setpgid _ u _ _ => u ∈ v.practive
  | .setpgrp u sp => u ∈ v.practive ∧ ∀ q ∈ v.practive, (v.proc q).pSessp ≠ some sp
  | .setsid u sp => u ∈ v.practive ∧ ∀ q ∈ v.practive, (v.proc q).pSessp ≠ some sp
  | .exit p => p ∈ v.practive ∧ p ≠ c.procInit ∧ p ≠ c.procSched ∧
      c.procInit ∈ v.practive ∧ (v.proc c.procInit).pStat.active = true
  | .freeproc p => (∃ q ∈ v.practive, p ∈ v.pChild q) ∧
      (v.proc p).pStat.active = false
  | .setStat p stat => p ∈ v.practive ∧
      ((v.proc p).pStat = .sidl ∧ stat = .srun ∨
        (v.proc p).pStat.active = true ∧ stat.active = true)
  | .pidSetmin => True

instance Op.decidableAdmits (c : Conf) (v : Tables) (o : Op) :
    Decidable (o.Admits c v) := by
  cases o <;> unfold Op.Admits <;> try unfold Unused
  all_goals infer_instance

def Alone (v : Tables) (u : Nat) : Prop :=
  ∀ m ∈ v.practive, (v.proc m).pPgidp = some (v.proc u).pPidp → m = u

def Op.Fine (c : Conf) (v : Tables) : Op → Prop
  | .setpgid execed u pid pgid => ∀ p g g', v.setpgidTarget execed u pid = .ok p →
      v.sid p ≠ some (v.proc p).pPidp → (v.proc p).pPgidp = some g →
      v.setpgidGroup p pgid = .ok (.ok (some g')) → MoveFine v v.practive p g g'
  | .setpgrp u _ => v.sid u ≠ some (v.proc u).pPidp → Alone v u →
      LeaveFine v v.practive u
  | .setsid u _ => (v.proc u).pPgidp ≠ some (v.proc u).pPidp → Alone v u →
      LeaveFine v v.practive u
  | .exit p => ExitFine c v v.practive p
  | _ => True

def Step (c : Conf) (v : Tables) (o : Op) (v' : Tables) : Prop :=
  o.Admits c v ∧ o.run c v = .ok v'

def Fine (c : Conf) (v : Tables) (o : Op) : Prop := o.Fine c v

/-- The state after `pid_init`, with the process `proc_sched`. -/
structure Init (c : Conf) (v : Tables) : Prop where
  procs : 2 ≤ c.vProc
  proc : v.proc c.procSched = ⟨.srun, c.pid0, some c.pid0, some c.session0, none⟩
  pPglink : v.pPglink c.procSched = none
  pChild : v.pChild c.procSched = []
  pid : v.pid c.pid0 = ⟨false, true, 3, 0, 0, some c.procSched⟩
  pidLink : v.pidLink c.pid0 = none
  pidhash : ∀ b, v.pidhash b = if b = 0 then some c.pid0 else none
  sess : v.sess c.session0 = ⟨1, c.pid0⟩
  procdir : v.procdir 0 = .proc c.procSched
  free : ∀ s, 1 ≤ s → s < c.vProc →
    v.procdir s = .next (if s + 1 < c.vProc then some (s + 1) else none)
  procentfree : v.procentfree = some 1
  practive : v.practive = [c.procSched]
  nproc : v.nproc = 1

variable {u sp : Nat}

section Runs

variable {c : Conf} {v v' : Tables} {A S : List Nat} {p g : Nat}

theorem Init.free_chain (h : Init c v) (n s : Nat) (hs : s + n = c.vProc)
    (hpos : 1 ≤ s) : Chain v.nextEntry (if s < c.vProc then some s else none)
      (List.range' s n) none := by
  induction n generalizing s with
  | zero =>
    have hend : ¬ s < c.vProc := by omega
    rw [if_neg hend]
    rfl
  | succ n ih =>
    have hlt : s < c.vProc := by omega
    rw [if_pos hlt, range'_succ]
    refine ⟨rfl, ?_⟩
    have hnext : v.nextEntry s = if s + 1 < c.vProc then some (s + 1) else none := by
      unfold nextEntry
      rw [h.free s hpos hlt]
    rw [hnext]
    exact ih (s + 1) (by omega) (by omega)

theorem Init.sound (h : Init c v) : Sound c v [c.procSched] [c.procSched] := by
  have hsid : v.sid c.procSched = some c.pid0 := by
    unfold sid
    rw [h.proc, Option.map_some, h.sess]
  have hrefs : ∀ g, v.refs [c.procSched] [c.procSched] g = if g = c.pid0 then 3 else 0 := by
    intro g
    unfold refs
    simp only [mem_singleton, exists_eq_left, h.proc, hsid, some.injEq]
    by_cases hg : g = c.pid0
    · simp [hg]
    · simp [hg, Ne.symm hg]
  have hpos : ∀ g, 0 < v.refs [c.procSched] [c.procSched] g → g = c.pid0 := by
    intro g hg
    by_contra hne
    rw [hrefs, if_neg hne] at hg
    omega
  refine ⟨⟨fun b => if b = 0 then [c.pid0] else [], ?_⟩,
    ⟨fun g => if g = c.pid0 then [c.procSched] else [], ?_⟩,
    ⟨List.range' 1 (c.vProc - 1), ?_⟩, ?_⟩
  · refine ⟨fun b => ?_, fun b g hg => ?_, fun b g g' hg hg' _ => ?_, fun g => ?_,
      fun g hg => ?_, fun b => ?_⟩
    · rw [h.pidhash]
      by_cases hb : b = 0
      · rw [if_pos hb, if_pos hb]
        exact ⟨rfl, h.pidLink⟩
      · rw [if_neg hb, if_neg hb]
        rfl
    · by_cases hb : b = 0
      · rw [if_pos hb, mem_singleton] at hg
        rw [hg, h.pid, hb]
        rfl
      · rw [if_neg hb] at hg
        cases hg
    · by_cases hb : b = 0
      · rw [if_pos hb, mem_singleton] at hg hg'
        rw [hg, hg']
      · rw [if_neg hb] at hg
        cases hg
    · constructor
      · rintro ⟨b, hg⟩
        by_cases hb : b = 0
        · rw [if_pos hb, mem_singleton] at hg
          rw [hrefs, if_pos hg]
          omega
        · rw [if_neg hb] at hg
          cases hg
      · intro hg
        exact ⟨0, by rw [if_pos rfl, hpos g hg]; exact mem_singleton_self _⟩
    · rw [hrefs, if_pos (hpos g hg), hpos g hg, h.pid]
    · rw [h.nproc]
      split
      · exact Nat.le_of_ble_eq_true rfl
      · exact Nat.zero_le _
  · refine ⟨fun g hg => ?_, fun g p => ?_⟩
    · rw [if_pos (hpos g hg), hpos g hg, h.pid]
      exact ⟨rfl, h.pPglink⟩
    · rw [mem_singleton]
      by_cases hg : g = c.pid0
      · rw [if_pos hg, mem_singleton, hg]
        refine (and_iff_left_of_imp ?_).symm
        rintro rfl
        rw [h.proc]
      · rw [if_neg hg]
        refine iff_of_false not_mem_nil ?_
        rintro ⟨rfl, heq⟩
        rw [h.proc] at heq
        exact hg (some.inj heq).symm
  · refine ⟨fun p hp q hq _ => ?_, fun g hg => ?_, fun p hp => ?_, ?_, fun s hs => ?_,
      nodup_singleton _, h.practive, h.nproc, ?_⟩
    · rw [mem_singleton.mp hp, mem_singleton.mp hq]
    · rw [hpos g hg, h.pid]
      exact iff_of_true rfl ⟨c.procSched, mem_singleton_self _, by rw [h.proc]⟩
    · rw [mem_singleton.mp hp, h.proc, h.pid]
      exact h.procdir
    · have hchain := h.free_chain (c.vProc - 1) 1 (by have := h.procs; omega) (by omega)
      have hlt : 1 < c.vProc := h.procs
      rw [if_pos hlt, ← h.procentfree] at hchain
      exact hchain
    · rw [mem_range'_1] at hs
      exact ⟨_, h.free s hs.1 (by omega)⟩
    · rw [h.nproc, length_range']
      have := h.procs
      omega
  · refine ⟨nodup_singleton _, fun p hp => hp, fun p hp => ?_, fun p hp s hs => ?_,
      fun p hp q hq _ => ?_, fun q hq p hp _ => ?_⟩
    · exact ⟨c.session0, by rw [mem_singleton.mp hp, h.proc]⟩
    · rw [mem_singleton.mp hp, h.proc] at hs
      rw [← some.inj hs, h.sess]
      simp [h.proc]
    · rw [mem_singleton.mp hp, mem_singleton.mp hq]
    · rw [mem_singleton.mp hp, mem_singleton.mp hq]

theorem Init.orderly (h : Init c v) : Orderly c v v.practive := by
  rw [h.practive]
  have hparent : (v.proc c.procSched).pParent = none := by
    rw [h.proc]
  refine ⟨⟨_, h.sound, fun _ hp => hp⟩, fun p hp => ?_, fun p hp _ => ?_,
    ⟨fun p hp q hq => ?_, fun q hq p => ?_, fun q hq => ?_⟩, ?_⟩
  · exact ⟨c.pid0, by rw [mem_singleton.mp hp, h.proc]⟩
  · rw [mem_singleton.mp hp, h.proc]
  · rw [mem_singleton.mp hp, hparent] at hq
    cases hq
  · rw [mem_singleton.mp hq, h.pChild]
    refine iff_of_false not_mem_nil ?_
    rintro ⟨hp, heq⟩
    rw [mem_singleton.mp hp, hparent] at heq
    cases heq
  · rw [mem_singleton.mp hq, h.pChild]
    exact nodup_nil
  · rintro g ⟨m, hm, hmg⟩
    rw [mem_singleton.mp hm, h.proc] at hmg
    rw [← some.inj hmg, h.pid]
    refine iff_of_true rfl fun m hm _ => ?_
    rw [mem_singleton.mp hm]
    unfold pglinked
    rw [hparent]

/-!
## What the system calls find
-/

theorem Sound.id_inj (h : Sound c v A S) {g' : Nat} (hg : 0 < v.refs A S g)
    (hg' : 0 < v.refs A S g') (heq : (v.pid g).pidId = (v.pid g').pidId) : g = g' := by
  obtain ⟨B, hB⟩ := h.kept
  have hmem := hB.mem hg
  have hmem' := hB.mem hg'
  rw [heq] at hmem
  exact hB.one _ g g' hmem hmem' heq

section

variable (h : Orderly c v A)
include h

theorem Orderly.practive : v.practive = A := by
  obtain ⟨S, hS, _⟩ := h.sound
  obtain ⟨F, hF⟩ := hS.slots
  exact hF.practive

theorem pgmembers_spec (hp : p ∈ A) :
    ∃ r, v.pgmembers (v.pPid p) = .ok r ∧ (r = false ↔ Alone v p) := by
  obtain ⟨S, hS, _⟩ := h.sound
  obtain ⟨F, hF⟩ := hS.slots
  obtain ⟨head, l, hfind, hchain, hnodup, hmem⟩ := pgfind_spec hS (v.pPid p)
  have hle : l.length ≤ v.nproc := by
    rw [hF.nproc]
    exact (hnodup.subperm fun q hq => ((hmem q).mp hq).1).length_le
  have hseek : v.pgSeek head (fun q => decide (v.pPid q ≠ v.pPid p)) =
      .ok (l.find? fun q => decide (v.pPid q ≠ v.pPid p)) := by
    unfold pgSeek
    rw [Chain.seek_eq hchain _ hle]
    rfl
  refine ⟨(l.find? fun q => decide (v.pPid q ≠ v.pPid p)).isSome, ?_, ?_⟩
  · simp only [pgmembers, hfind, bind, Except.bind, hseek]
    rfl
  · rw [← Bool.not_eq_true, List.find?_isSome, Alone, hF.practive]
    constructor
    · intro hno m hm hmg
      by_contra hmp
      refine hno ⟨m, (hmem m).mpr ⟨hm, _, hmg, rfl⟩, ?_⟩
      rw [decide_eq_true_eq]
      intro heq
      exact hmp (hF.inj m hm p hp (hS.id_inj (refs_proc hm) (refs_proc hp) heq))
    · rintro halone ⟨m, hml, hne⟩
      rw [decide_eq_true_eq] at hne
      obtain ⟨hm, g, hg, hid⟩ := (hmem m).mp hml
      have hgp : g = (v.proc p).pPidp :=
        hS.id_inj (refs_group hm hg) (refs_proc hp) hid
      rw [hgp] at hg
      exact hne (congrArg v.pPid (halone m hm hg))

theorem setpgidTarget_mem {execed : Bool} {pid : Int} (hu : u ∈ A)
    (hrun : v.setpgidTarget execed u pid = .ok p) : p ∈ A := by
  unfold setpgidTarget at hrun
  split at hrun
  · exact Except.ok.inj hrun ▸ hu
  · split at hrun
    · cases hrun
    · split at hrun
      · exact Except.ok.inj hrun ▸ hu
      · cases hfind : (v.pChild u).find? fun q => decide ((v.pPid q : Int) = pid) with
        | none =>
          rw [hfind] at hrun
          cases hrun
        | some q =>
          rw [hfind] at hrun
          simp only at hrun
          have hq := (h.family.child u hu q).mp (mem_of_find?_eq_some hfind)
          split at hrun
          · cases hrun
          · split at hrun
            · cases hrun
            · exact Except.ok.inj hrun ▸ hq.1

theorem setpgidGroup_spec (hg : (v.proc p).pPgidp = some g) (pgid : Int) :
    ∃ r, v.setpgidGroup p pgid = .ok r ∧ ∀ g', r = .ok (some g') →
      g ≠ g' ∧ (g' = (v.proc p).pPidp ∨ ∃ q ∈ A, (v.proc q).pPgidp = some g') := by
  obtain ⟨S, hS, _⟩ := h.sound
  unfold setpgidGroup
  split
  · exact ⟨_, rfl, nofun⟩
  · rw [hg]
    generalize (if pgid = 0 then v.pPid p else pgid.toNat) = n
    dsimp only
    split
    · exact ⟨_, rfl, nofun⟩
    · rename_i hother
      split
      · rename_i hown
        refine ⟨_, rfl, fun g' heq => ?_⟩
        obtain rfl : (v.proc p).pPidp = g' := some.inj (Except.ok.inj heq)
        refine ⟨?_, .inl rfl⟩
        rintro rfl
        exact hother hown
      · obtain ⟨head, l, hfind, hchain, hnodup, hmem⟩ := pgfind_spec hS n
        simp only [hfind, bind, Except.bind]
        cases head with
        | none => exact ⟨_, rfl, nofun⟩
        | some q =>
          dsimp only
          split
          · exact ⟨_, rfl, nofun⟩
          · refine ⟨_, rfl, fun g' heq => ?_⟩
            have hqg : (v.proc q).pPgidp = some g' := Except.ok.inj heq
            cases l with
            | nil => cases hchain
            | cons q' l =>
              obtain rfl : q = q' := some.inj hchain.1
              obtain ⟨hq, g₁, hg₁, hid⟩ := (hmem q).mp (mem_cons_self ..)
              rw [hqg] at hg₁
              obtain rfl := some.inj hg₁
              refine ⟨?_, .inr ⟨q, hq, hqg⟩⟩
              rintro rfl
              exact hother hid

theorem setpgid_spec {execed : Bool} {pid pgid : Int} (hu : u ∈ A)
    (hfine : ∀ p g g', v.setpgidTarget execed u pid = .ok p →
      v.sid p ≠ some (v.proc p).pPidp → (v.proc p).pPgidp = some g →
      v.setpgidGroup p pgid = .ok (.ok (some g')) → MoveFine v A p g g') :
    ∃ r, v.setpgid execed u pid pgid = .ok r ∧ Orderly c r.1 A := by
  unfold Tables.setpgid
  cases htarget : v.setpgidTarget execed u pid with
  | error e => exact ⟨(v, some e), rfl, h⟩
  | ok p =>
    have hp := setpgidTarget_mem h hu htarget
    obtain ⟨S, hS, hall⟩ := h.sound
    obtain ⟨s, hs⟩ := hS.sessions.has p (hall p hp)
    obtain ⟨g, hg⟩ := h.grouped p hp
    obtain ⟨r, hgroup, hr⟩ := setpgidGroup_spec h hg pgid
    simp only [hs]
    by_cases hleader : (v.pid (v.sess s).sSidp).pidId = v.pPid p
    · rw [if_pos hleader]
      exact ⟨_, rfl, h⟩
    · rw [if_neg hleader]
      simp only [hgroup, bind, Except.bind]
      cases r with
      | error e => exact ⟨_, rfl, h⟩
      | ok o =>
        cases o with
        | none => exact ⟨_, rfl, h⟩
        | some g' =>
          obtain ⟨hne, hg'⟩ := hr g' rfl
          have hlead : v.sid p ≠ some (v.proc p).pPidp := by
            unfold sid
            rw [hs, Option.map_some]
            intro heq
            apply hleader
            rw [some.inj heq]
            rfl
          obtain ⟨w, hexit, hw⟩ := move_spec h hp hg hne hg' hlead
            (hfine p g g' htarget hlead hg hgroup)
          refine ⟨(w.pgjoin p g', none), ?_, hw⟩
          simp only [hexit]
          rfl

theorem setpgrp_spec (hu : u ∈ A) (hsp : ∀ q ∈ A, (v.proc q).pSessp ≠ some sp)
    (hfine : v.sid u ≠ some (v.proc u).pPidp → Alone v u → LeaveFine v A u) :
    ∃ v', v.setpgrp u sp = .ok v' ∧ Orderly c v' A := by
  obtain ⟨S, hS, hall⟩ := h.sound
  obtain ⟨s, hs⟩ := hS.sessions.has u (hall u hu)
  obtain ⟨r, hmembers, hr⟩ := pgmembers_spec h hu
  have hsid : v.sid u = some (v.sess s).sSidp := by
    unfold sid
    rw [hs]
    rfl
  unfold setpgrp
  simp only [hs]
  by_cases hleader : (v.sess s).sSidp = (v.proc u).pPidp
  · rw [if_pos hleader]
    exact ⟨v, rfl, h⟩
  · rw [if_neg hleader]
    simp only [hmembers, bind, Except.bind]
    cases r with
    | true => exact ⟨v, rfl, h⟩
    | false =>
      have hlead : v.sid u ≠ some (v.proc u).pPidp := by
        rw [hsid]
        exact fun heq => hleader (some.inj heq)
      have halone := hr.mp rfl
      have hout := halone
      unfold Alone at hout
      rw [h.practive] at hout
      obtain ⟨v', hrun, hv'⟩ := sessCreate_spec h hu hsp hlead hout (hfine hlead halone)
      exact ⟨v', hrun, hv'⟩

theorem setsid_spec (hu : u ∈ A) (hsp : ∀ q ∈ A, (v.proc q).pSessp ≠ some sp)
    (hfine : (v.proc u).pPgidp ≠ some (v.proc u).pPidp → Alone v u → LeaveFine v A u) :
    ∃ r, v.setsid u sp = .ok r ∧ Orderly c r.1 A := by
  obtain ⟨r, hmembers, hr⟩ := pgmembers_spec h hu
  unfold setsid
  by_cases hown : (v.proc u).pPgidp = some (v.proc u).pPidp
  · rw [if_pos hown]
    exact ⟨_, rfl, h⟩
  · rw [if_neg hown]
    simp only [hmembers, bind, Except.bind]
    cases r with
    | true => exact ⟨_, rfl, h⟩
    | false =>
      have halone := hr.mp rfl
      have hout := halone
      unfold Alone at hout
      rw [h.practive] at hout
      obtain ⟨v', hrun, hv'⟩ := sessCreate_spec h hu hsp
        (fun hled => hown (h.led u hu hled)) hout (hfine hown halone)
      refine ⟨(v', none), ?_, hv'⟩
      simp only [Bool.false_eq_true, if_false, hrun]
      rfl

theorem setStat_spec {stat : Stat}
    (hstat : (v.proc p).pStat.active = true → stat.active = true) :
    Orderly c (v.setProc p { v.proc p with pStat := stat }) A := by
  obtain ⟨S, hS, hall⟩ := h.sound
  let v' := v.setProc p { v.proc p with pStat := stat }
  have hpidp : ∀ q, (v'.proc q).pPidp = (v.proc q).pPidp := field_update Proc.pPidp rfl
  have hpgidp : ∀ q, (v'.proc q).pPgidp = (v.proc q).pPgidp :=
    field_update Proc.pPgidp rfl
  have hsessp : ∀ q, (v'.proc q).pSessp = (v.proc q).pSessp :=
    field_update Proc.pSessp rfl
  have hparent : ∀ q, (v'.proc q).pParent = (v.proc q).pParent :=
    field_update Proc.pParent rfl
  refine ⟨⟨S, ?_, hall⟩, fun m hm => ?_, fun m hm hled => ?_, ?_, fun k hk => ?_⟩
  · exact hS.congr (fun q _ => hpidp q) (fun q _ => hpgidp q) (fun q _ => hsessp q)
      (fun _ _ _ _ => rfl) (fun k => ⟨(v.pid k).pidPgorphaned, rfl⟩) ⟨_, _, _, _, rfl⟩
  · rw [hpgidp]
    exact h.grouped m hm
  · unfold sid at hled
    rw [hsessp, hpidp] at hled
    rw [hpgidp, hpidp]
    exact h.led m hm hled
  · refine h.family.congr (fun q _ => hparent q) (fun q _ hact => ?_) rfl
    by_cases hq : q = p
    · rw [hq] at hact ⊢
      simp only [v', setProc, Function.update_self]
      exact hstat hact
    · simp only [v', setProc, Function.update_of_ne hq]
      exact hact
  · exact h.flags.keep (fun m _ => by rw [hpgidp]) hk rfl fun m _ _ =>
      pglinked_fields hparent hpgidp hsessp m

theorem pidSetmin_spec : Orderly c v.pidSetmin A := by
  obtain ⟨S, hS, hall⟩ := h.sound
  obtain ⟨B, hB⟩ := hS.kept
  obtain ⟨G, hG⟩ := hS.groups
  obtain ⟨F, hF⟩ := hS.slots
  exact ⟨⟨S, ⟨⟨B, hB.congr (fun _ => rfl) (fun _ => rfl) (fun _ => rfl) rfl rfl rfl⟩,
      ⟨G, hG.congr (fun _ hk => hk) (fun _ _ => rfl) (fun _ _ => rfl) fun _ _ => rfl⟩,
      ⟨F, hF.congr (fun _ hk => hk) (fun _ _ => rfl) (fun _ => rfl) (fun _ => rfl)
        rfl rfl rfl rfl⟩,
      hS.sessions.congr (fun _ _ => rfl) (fun _ _ => rfl) fun _ _ _ _ => rfl⟩, hall⟩,
    h.grouped, h.led,
    h.family.congr (fun _ _ => rfl) (fun _ _ hact => hact) rfl, h.flags⟩

end

/-!
## Runs
-/

theorem Op.run_spec (h : Orderly c v v.practive) {o : Op} (hadm : o.Admits c v)
    (hfine : o.Fine c v) : (∃ v', o.run c v = .ok v' ∧ ∃ A, Orderly c v' A) ∨
      ∃ e, v.seekPid MAXPID v.mpid = .error e ∧ o.run c v = .error e := by
  have hfst : ∀ {α : Type} {x : Fault (Tables × α)}, (∃ r, x = .ok r ∧ ∃ A, Orderly c r.1 A) →
      ∃ v', Prod.fst <$> x = .ok v' ∧ ∃ A, Orderly c v' A := by
    rintro α x ⟨r, rfl, hr⟩
    exact ⟨r.1, rfl, hr⟩
  have hsame : ∀ {x : Fault Tables}, (∃ v', x = .ok v' ∧ Orderly c v' v.practive) →
      ∃ v', x = .ok v' ∧ ∃ A, Orderly c v' A := by
    rintro x ⟨v', hx, hv'⟩
    exact ⟨v', hx, _, hv'⟩
  have hpair : ∀ {α : Type} {x : Fault (Tables × α)}, (∃ r, x = .ok r ∧ Orderly c r.1 v.practive) →
      ∃ r, x = .ok r ∧ ∃ A, Orderly c r.1 A := by
    rintro α x ⟨r, hx, hr⟩
    exact ⟨r, hx, _, hr⟩
  cases o with
  | newproc nolast refused pp cp pidp =>
    obtain ⟨hpp, hactive, hcp, hpidp⟩ := hadm
    cases hassign : v.pidAssign c nolast refused cp pidp with
    | ok r₀ => exact .inl (hfst (newproc_spec h hpp hactive hcp hpidp hassign))
    | error e =>
      right
      obtain ⟨S, hS, _⟩ := h.sound
      cases hseek : v.seekPid MAXPID v.mpid with
      | ok mpid =>
        obtain ⟨r, hr⟩ := pidAssign_ok hS nolast refused cp pidp hseek
        rw [hassign] at hr
        cases hr
      | error e' =>
        refine ⟨e', rfl, ?_⟩
        have he : e' = e := by
          unfold pidAssign at hassign
          split at hassign
          · cases hassign
          · split at hassign
            · cases hassign
            · rw [hseek] at hassign
              exact Except.error.inj hassign
        simp only [Op.run, Tables.newproc, hassign, bind, Except.bind, he]
        rfl
  | setpgid execed u pid pgid =>
    exact .inl (hfst (hpair (setpgid_spec h hadm hfine)))
  | setpgrp u sp => exact .inl (hsame (setpgrp_spec h hadm.1 hadm.2 hfine))
  | setsid u sp => exact .inl (hfst (hpair (setsid_spec h hadm.1 hadm.2 hfine)))
  | exit p =>
    obtain ⟨hp, hne, _, hinit, hactive⟩ := hadm
    exact .inl (hfst (hpair (exit_spec h hp hinit hactive hne hfine)))
  | freeproc p =>
    obtain ⟨⟨q, hq, hmem⟩, hidle⟩ := hadm
    obtain ⟨hp, hpar⟩ := (h.family.child q hq p).mp hmem
    obtain ⟨v', hrun, hv'⟩ := freeproc_spec h hp hidle hpar
    exact .inl ⟨v', hrun, _, hv'⟩
  | setStat p stat =>
    refine .inl ⟨_, rfl, _, setStat_spec h fun hact => ?_⟩
    rcases hadm.2 with ⟨hidl, _⟩ | ⟨_, hstat⟩
    · rw [hidl] at hact
      cases hact
    · exact hstat
  | pidSetmin => exact .inl ⟨_, rfl, _, pidSetmin_spec h⟩

theorem orderly_of_reachable (h : ReachableWhen (Init c) (Step c) (Fine c) v) :
    Orderly c v v.practive := by
  refine h.invariant (fun _ hinit => hinit.orderly) ?_
  intro v o v' hv hfine hstep
  rcases Op.run_spec hv hstep.1 hfine with ⟨v₁, hrun, A, hA⟩ | ⟨e, _, hrun⟩
  · obtain rfl : v₁ = v' := Except.ok.inj (hrun.symm.trans hstep.2)
    rw [hA.practive]
    exact hA
  · rw [hstep.2] at hrun
    cases hrun

/-!
## What holds of processes, groups and sessions
-/

/-- A process, a group or a session refers to the pid structure. -/
def InUse (v : Tables) (g : Nat) : Prop :=
  (∃ p ∈ v.practive, (v.proc p).pPidp = g) ∨
    (∃ p ∈ v.practive, (v.proc p).pPgidp = some g) ∨ ∃ p ∈ v.practive, v.sid p = some g

/-- The list of each group holds its processes, each once. -/
def ListsRight (v : Tables) : Prop :=
  ∃ G : Nat → List Nat, (∀ g p, p ∈ G g ↔ p ∈ v.practive ∧ (v.proc p).pPgidp = some g) ∧
    ∀ g, InUse v g → Chain v.pPglink (v.pid g).pidPglink (G g) none ∧ (G g).Nodup

/--
The hash holds the pid structures in use, and their counts stay within the
six bits of `pid_ref`.
-/
def HashRight (v : Tables) : Prop :=
  (∃ B : Nat → List Nat, (∀ b, Chain v.pidLink (v.pidhash b) (B b) none) ∧
    ∀ b g, g ∈ B b ↔ InUse v g ∧ (v.pid g).pidId % HASHSZ = b) ∧
  ∀ g, InUse v g → 0 < (v.pid g).pidRef ∧ (v.pid g).pidRef ≤ 3

/-- A new pid is the id of no process, group or session. -/
def PidsNew (c : Conf) (v : Tables) : Prop :=
  ∀ nolast refused prp pidp v' pid, v.pidAssign c nolast refused prp pidp = .ok (v', some pid) →
    ∀ p ∈ v.practive, v.pPid p ≠ pid ∧ (∀ g, (v.proc p).pPgidp = some g → (v.pid g).pidId ≠ pid) ∧
      ∀ g, v.sid p = some g → (v.pid g).pidId ≠ pid

/-- `prfind` and `pgfind` find the process and the group with an id. -/
def SearchesRight (v : Tables) : Prop :=
  (∀ pid, ∃ r, v.prfind pid = .ok r ∧ ∀ p, r = some p ↔ p ∈ v.practive ∧ v.pPid p = pid) ∧
  ∀ pgid, ∃ r l, v.pgfind pgid = .ok r ∧ Chain v.pPglink r l none ∧ l.Nodup ∧
    ∀ p, p ∈ l ↔ p ∈ v.practive ∧ ∃ g, (v.proc p).pPgidp = some g ∧ (v.pid g).pidId = pgid

/-- An operation that is admitted returns, but for a fork when there is no pid. -/
def Returns (c : Conf) (v : Tables) (o : Op) : Prop :=
  o.Admits c v → (∃ v', o.run c v = .ok v') ∨
    ∃ e, v.seekPid MAXPID v.mpid = .error e ∧ o.run c v = .error e

/--
In every run whose operations spare the flags, the lists, the flags, the hash
and the searches are right in every state.
-/
theorem procs_in_order (h : ReachableWhen (Init c) (Step c) (Fine c) v) :
    ListsRight v ∧ FlagsRight v v.practive ∧ HashRight v ∧ PidsNew c v ∧
      SearchesRight v ∧ ∀ o : Op, o.Fine c v → Returns c v o := by
  have hv := orderly_of_reachable h
  obtain ⟨S, hS, hall⟩ := hv.sound
  obtain ⟨B, hB⟩ := hS.kept
  obtain ⟨G, hG⟩ := hS.groups
  have huse : ∀ g, InUse v g ↔ 0 < v.refs v.practive S g := by
    intro g
    rw [refs_pos]
    refine or_congr_right (or_congr_right ⟨?_, ?_⟩)
    · rintro ⟨p, hp, hpg⟩
      exact ⟨p, hall p hp, hpg⟩
    · rintro ⟨p, hp, hpg⟩
      exact ⟨p, hS.sessions.sub p hp, hpg⟩
  refine ⟨⟨G, hG.mem, fun g hg => ?_⟩, hv.flags, ⟨⟨B, hB.chain, fun b g => ?_⟩,
    fun g hg => ?_⟩, ?_, ⟨fun pid => prfind_spec hS pid, fun pgid => pgfind_spec hS pgid⟩,
    fun o hfine hadm => ?_⟩
  · have hchain := hG.chain g ((huse g).mp hg)
    exact ⟨hchain, hchain.nodup⟩
  · rw [huse]
    constructor
    · exact fun hmem => ⟨(hB.used g).mp ⟨b, hmem⟩, hB.place b g hmem⟩
    · rintro ⟨hpos, rfl⟩
      exact hB.mem hpos
  · have hpos := (huse g).mp hg
    rw [hB.ref g hpos]
    refine ⟨hpos, ?_⟩
    unfold refs
    split <;> split <;> split <;> omega
  · intro nolast refused prp pidp v' pid hrun p hp
    rcases pidAssign_spec hS hrun with heq | ⟨mpid, pep, next, heq, hfound⟩
    · exact absurd (congrArg Prod.snd heq) nofun
    · have hpid : pid = mpid := some.inj (congrArg Prod.snd heq)
      rw [hpid]
      exact ⟨hfound.pid _ (refs_proc hp), fun g hg => hfound.pid g (refs_group hp hg),
        fun g hg => hfound.pid g (refs_sid (hall p hp) hg)⟩
  · rcases Op.run_spec hv hadm hfine with ⟨v', hrun, _⟩ | hstuck
    · exact .inl ⟨v', hrun⟩
    · exact .inr hstuck

end Runs

/-!
## Three generations
-/

def smallConf : Conf := ⟨8, 0, 1, 0, 0⟩

def started : Tables where
  proc := fun _ => ⟨.srun, 0, some 0, some 0, none⟩
  pPglink := fun _ => none
  pChild := fun _ => []
  pid := fun _ => ⟨false, true, 3, 0, 0, some 0⟩
  pidLink := fun _ => none
  pidhash := fun b => if b = 0 then some 0 else none
  sess := fun _ => ⟨1, 0⟩
  procdir := fun s =>
    if s = 0 then .proc 0 else .next (if s + 1 < 8 then some (s + 1) else none)
  procentfree := some 1
  practive := [0]
  nproc := 1
  mpid := 0
  minpid := 0

theorem init_started : Init smallConf started where
  procs := by decide
  proc := rfl
  pPglink := rfl
  pChild := rfl
  pid := rfl
  pidLink := rfl
  pidhash _ := rfl
  sess := rfl
  procdir := rfl
  free s hpos hlt := by
    have hne : s ≠ 0 := by omega
    exact if_neg hne
  procentfree := rfl
  practive := rfl
  nproc := rfl

/-- One operation after the other, as long as they are admitted. -/
def Op.runs (c : Conf) : List Op → Tables → Fault Tables
  | [], v => return v
  | o :: rest, v => if o.Admits c v then o.run c v >>= Op.runs c rest else throw "admits"

theorem Op.reachable_runs {c : Conf} {ops : List Op} {v v' : Tables}
    {ok : Tables → Op → Prop} (h : ReachableWhen (Init c) (Step c) ok v)
    (hok : ∀ o ∈ ops, ∀ v, ok v o) (hrun : Op.runs c ops v = .ok v') :
    ReachableWhen (Init c) (Step c) ok v' := by
  induction ops generalizing v with
  | nil =>
    obtain rfl : v = v' := Except.ok.inj hrun
    exact h
  | cons o rest ih =>
    simp only [Op.runs] at hrun
    by_cases hadm : o.Admits c v
    · rw [if_pos hadm] at hrun
      cases ho : o.run c v with
      | error e =>
        rw [ho] at hrun
        cases hrun
      | ok v₁ =>
        rw [ho] at hrun
        exact ih (h.next (hok o (mem_cons_self ..) v) ⟨hadm, ho⟩)
          (fun o' ho' => hok o' (mem_cons_of_mem o ho')) hrun
    · rw [if_neg hadm] at hrun
      cases hrun

/-- A run that ends in a state that passes the test. -/
def Fault.passes (x : Fault Tables) (test : Tables → Bool) : Bool :=
  match x with
  | .ok v => test v
  | .error _ => false

theorem Fault.exists_of_passes {x : Fault Tables} {t : Tables → Bool}
    (h : x.passes t = true) : ∃ v, x = .ok v ∧ t v = true := by
  cases x with
  | error e => cases h
  | ok v => exact ⟨v, rfl, h⟩

def threeForks : List Op :=
  [.newproc false false 0 1 1, .setStat 1 .srun, .newproc false false 1 2 2,
    .setStat 2 .srun, .newproc false false 2 3 3]

theorem procs_in_order_forks : ∃ v,
    ReachableWhen (Init smallConf) (Step smallConf) (Fine smallConf) v ∧ v.nproc = 4 ∧
      (ListsRight v ∧ FlagsRight v v.practive ∧ HashRight v ∧ PidsNew smallConf v ∧
        SearchesRight v ∧ ∀ o : Op, o.Fine smallConf v → Returns smallConf v o) := by
  obtain ⟨v, hrun, hcount⟩ := Fault.exists_of_passes
    (x := Op.runs smallConf threeForks started) (t := fun v => decide (v.nproc = 4))
    (by decide +kernel)
  have hreach : ReachableWhen (Init smallConf) (Step smallConf) (Fine smallConf) v := by
    refine Op.reachable_runs (ReachableWhen.start init_started) ?_ hrun
    intro o ho v'
    simp only [threeForks, mem_cons, not_mem_nil, or_false] at ho
    rcases ho with rfl | rfl | rfl | rfl | rfl <;> exact trivial
  exact ⟨v, hreach, of_decide_eq_true hcount, procs_in_order hreach⟩

/-- The middle process goes to a group of its own, and its child links the group left behind. -/
theorem setpgid_leaves_orphaned : ∃ v, Reachable (Init smallConf) (Step smallConf) v ∧
    ¬ FlagsRight v v.practive := by
  obtain ⟨v, hrun, htest⟩ := Fault.exists_of_passes
    (x := Op.runs smallConf (threeForks ++ [.setpgid false 2 0 0]) started)
    (t := fun v => (v.pid 0).pidPgorphaned && decide (3 ∈ v.practive) &&
      decide ((v.proc 3).pPgidp = some 0) && v.pglinked 3) (by decide +kernel)
  simp only [Bool.and_eq_true, decide_eq_true_eq] at htest
  obtain ⟨⟨⟨hflag, hmem⟩, hgroup⟩, hlinked⟩ := htest
  refine ⟨v, Op.reachable_runs (Reachable.start init_started) (fun _ _ _ => trivial) hrun,
    fun hright => ?_⟩
  have hzero := (hright 0 ⟨3, hmem, hgroup⟩).mp hflag 3 hmem hgroup
  rw [hlinked] at hzero
  cases hzero

end Procs
end Svr4
