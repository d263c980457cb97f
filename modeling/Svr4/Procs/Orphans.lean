import Svr4.Procs.Entries

/-!
# Orphaned groups

The flag of a group says that no member is linked: that none has a parent in
another group of the same session.  The operations on a process look at the
process and at the members of its groups, but not always at its children.
-/

namespace Svr4
namespace Procs

open Function Option

def Stat.active : Stat → Bool
  | .srun => true
  | .sstop => true
  | _ => false

/-- Parents and the chains of their children. -/
structure Family (v : Tables) (A : List Nat) : Prop where
  parent : ∀ p ∈ A, ∀ q, (v.proc p).pParent = some q → q ∈ A ∧ (v.proc q).pStat.active = true
  child : ∀ q ∈ A, ∀ p, p ∈ v.pChild q ↔ p ∈ A ∧ (v.proc p).pParent = some q
  nodup : ∀ q ∈ A, (v.pChild q).Nodup

def FlagsRight (v : Tables) (A : List Nat) : Prop :=
  ∀ g, (∃ m ∈ A, (v.proc m).pPgidp = some g) → ((v.pid g).pidPgorphaned = true ↔
      ∀ m ∈ A, (v.proc m).pPgidp = some g → v.pglinked m = false)

/-- The state between the operations. -/
structure Orderly (c : Conf) (v : Tables) (A : List Nat) : Prop where
  sound : ∃ S, Sound c v A S ∧ ∀ p ∈ A, p ∈ S
  grouped : ∀ p ∈ A, ∃ g, (v.proc p).pPgidp = some g
  led : ∀ p ∈ A, v.sid p = some (v.proc p).pPidp → (v.proc p).pPgidp = some (v.proc p).pPidp
  family : Family v A
  flags : FlagsRight v A

/-- A member of the group that is linked, beside a process and its children. -/
def LinkedBeside (v : Tables) (A : List Nat) (p k : Nat) : Prop :=
  ∃ m ∈ A, m ≠ p ∧ (v.proc m).pParent ≠ some p ∧ (v.proc m).pPgidp = some k ∧ v.pglinked m = true

/-- A child in the group, and in the session of its parent. -/
def ChildIn (v : Tables) (A : List Nat) (p k : Nat) : Prop :=
  ∃ m ∈ A, m ≠ p ∧ (v.proc m).pParent = some p ∧ (v.proc m).pPgidp = some k ∧
    (v.proc p).pSessp = (v.proc m).pSessp

def LinkedTo (v : Tables) (p k : Nat) : Prop :=
  ∃ q, (v.proc p).pParent = some q ∧ q ≠ p ∧ (v.proc q).pPgidp ≠ some k ∧
    (v.proc q).pSessp = (v.proc p).pSessp

/--
A process can go from one group to another: it leaves no child behind in an
orphaned group, and where it comes to a child, the group stays linked.
-/
structure MoveFine (v : Tables) (A : List Nat) (p g g' : Nat) : Prop where
  left : (v.pid g).pidPgorphaned = true → ¬ ChildIn v A p g
  joined : ChildIn v A p g' → LinkedTo v p g' ∨ LinkedBeside v A p g'

/-- A process can go to a new session: no group was linked through it alone. -/
def LeaveFine (v : Tables) (A : List Nat) (p : Nat) : Prop :=
  ∀ k, (v.pid k).pidPgorphaned = false → ChildIn v A p k → LinkedBeside v A p k

/-- A process can exit: groups that it links are linked anyway. -/
def ExitFine (c : Conf) (v : Tables) (A : List Nat) (p : Nat) : Prop :=
  ∀ k, (∃ m ∈ A, (v.proc m).pParent = some p ∧ (v.proc m).pPgidp = some k) →
    ((∃ m ∈ A, (v.proc m).pParent = some p ∧ (v.proc m).pPgidp = some k ∧
        (v.proc c.procInit).pPgidp ≠ some k ∧
        (v.proc c.procInit).pSessp = (v.proc m).pSessp) ∨
      ((v.proc p).pPgidp = some k ∧ v.pglinked p = true)) →
    LinkedBeside v A p k

section Links

variable {c : Conf} {v v' : Tables} {A S : List Nat} {p m g g' : Nat} {t : Option Nat}
  {x : Proc}

/-!
## Links
-/

theorem pglinked_child (hpar : (v.proc m).pParent = some p) :
    v.pglinked m = (decide ((v.proc p).pPgidp ≠ (v.proc m).pPgidp) &&
      decide ((v.proc p).pSessp = (v.proc m).pSessp)) := by
  unfold Tables.pglinked
  rw [hpar]

theorem pglinked_update_of_ne (hproc : v'.proc = update v.proc p x)
    (hm : m ≠ p) (hpar : (v.proc m).pParent ≠ some p) : v'.pglinked m = v.pglinked m := by
  unfold Tables.pglinked
  rw [hproc, update_of_ne hm]
  cases hq : (v.proc m).pParent with
  | none => rfl
  | some q =>
    have hqp : q ≠ p := by
      rintro rfl
      exact hpar hq
    simp only [update_of_ne hqp]

theorem pglinked_update_child (hproc : v'.proc = update v.proc p x)
    (hm : m ≠ p) (hpar : (v.proc m).pParent = some p) :
    v'.pglinked m = (decide (x.pPgidp ≠ (v.proc m).pPgidp) &&
      decide (x.pSessp = (v.proc m).pSessp)) := by
  have hpar' : (v'.proc m).pParent = some p := by
    rw [hproc, update_of_ne hm]
    exact hpar
  rw [pglinked_child hpar', hproc, update_self, update_of_ne hm]

theorem Moves.pglinked_self (h : Moves v v' p (some g)) :
    v'.pglinked p = true ↔ LinkedTo v p g := by
  unfold Tables.pglinked LinkedTo
  rw [h.parent]
  cases hq : (v.proc p).pParent with
  | none => simp
  | some q =>
    by_cases hqp : q = p
    · simp [hqp, h.pgidp_self]
    · simp only [Bool.and_eq_true, decide_eq_true_eq, h.pgidp_self, h.sessp, h.pgidp_of_ne hqp]
      constructor
      · exact fun hboth => ⟨q, rfl, hqp, hboth⟩
      · rintro ⟨q', hq', _, hboth⟩
        rw [some.inj hq']
        exact hboth

theorem Moves.trans {w : Tables} {t' : Option Nat} (h : Moves v w p t)
    (h' : Moves w v' p t') : Moves v v' p t' := by
  obtain ⟨pid, link, hash, pglink, heq⟩ := h.eq
  obtain ⟨pid', link', hash', pglink', heq'⟩ := h'.eq
  refine ⟨⟨pid', link', hash', pglink', ?_⟩, fun k => ?_⟩
  · rw [heq', heq]
    simp only [update_self, update_idem]
  · obtain ⟨hid, hslot, hinactive⟩ := h.same k
    obtain ⟨hid', hslot', hinactive'⟩ := h'.same k
    exact ⟨hid'.trans hid, hslot'.trans hslot, hinactive'.trans hinactive⟩

theorem Moves.pChild (h : Moves v v' p t) : v'.pChild = v.pChild := by
  obtain ⟨pid, link, hash, pglink, heq⟩ := h.eq
  rw [heq]

theorem Family.congr (h : Family v A) (hpar : ∀ p ∈ A, (v'.proc p).pParent = (v.proc p).pParent)
    (hstat : ∀ p ∈ A, (v.proc p).pStat.active = true → (v'.proc p).pStat.active = true)
    (hchild : v'.pChild = v.pChild) : Family v' A where
  parent p hp q hq := by
    rw [hpar p hp] at hq
    obtain ⟨hqA, hqs⟩ := h.parent p hp q hq
    exact ⟨hqA, hstat q hqA hqs⟩
  child q hq p := by
    rw [hchild, h.child q hq]
    refine and_congr_right fun hp => ?_
    rw [hpar p hp]
  nodup q hq := by
    rw [hchild]
    exact h.nodup q hq

theorem FlagsRight.keep (h : FlagsRight v A) {k : Nat}
    (hmem : ∀ m ∈ A, (v'.proc m).pPgidp = some k ↔ (v.proc m).pPgidp = some k)
    (hex : ∃ m ∈ A, (v'.proc m).pPgidp = some k)
    (hflag : (v'.pid k).pidPgorphaned = (v.pid k).pidPgorphaned)
    (hlinked : ∀ m ∈ A, (v.proc m).pPgidp = some k → v'.pglinked m = v.pglinked m) :
    (v'.pid k).pidPgorphaned = true ↔
      ∀ m ∈ A, (v'.proc m).pPgidp = some k → v'.pglinked m = false := by
  obtain ⟨m₀, hm₀, hmk₀⟩ := hex
  rw [hflag, h k ⟨m₀, hm₀, (hmem m₀ hm₀).mp hmk₀⟩]
  refine forall_congr' fun m => forall_congr' fun hm => ?_
  rw [hmem m hm]
  refine forall_congr' fun hmk => ?_
  rw [hlinked m hm hmk]

/-!
## A change of groups
-/

theorem move_spec (h : Orderly c v A) (hp : p ∈ A) (hg : (v.proc p).pPgidp = some g)
    (hne : g ≠ g') (hg' : g' = (v.proc p).pPidp ∨ ∃ q ∈ A, (v.proc q).pPgidp = some g')
    (hlead : v.sid p ≠ some (v.proc p).pPidp) (hfine : MoveFine v A p g g') :
    ∃ w, v.pgexit p = .ok w ∧ Orderly c (w.pgjoin p g') A := by
  obtain ⟨S, hS, hall⟩ := h.sound
  obtain ⟨w, hrun, hw, hmoves, hflags⟩ := pgexit_spec hS hp hg
  have hpos : 0 < w.refs A S g' := by
    rcases hg' with rfl | ⟨q, hq, hqg⟩
    · rw [← hmoves.pidp p]
      exact refs_proc hp
    · have hqp : q ≠ p := by
        rintro rfl
        rw [hg] at hqg
        exact hne (some.inj hqg)
      refine refs_group hq ?_
      rw [hmoves.pgidp_of_ne hqp]
      exact hqg
  obtain ⟨hw', hmoves', hflags'⟩ := pgjoin_spec hw hp hmoves.pgidp_self hpos
  have hboth := hmoves.trans hmoves'
  refine ⟨w, hrun, ⟨S, hw', hall⟩, fun m hm => ?_, fun m hm hled => ?_, ?_, ?_⟩
  · by_cases hmp : m = p
    · exact ⟨g', by rw [hmp]; exact hboth.pgidp_self⟩
    · rw [hboth.pgidp_of_ne hmp]
      exact h.grouped m hm
  · rw [hboth.sid, hboth.pidp] at hled
    by_cases hmp : m = p
    · rw [hmp] at hled
      exact absurd hled hlead
    · rw [hboth.pgidp_of_ne hmp, hboth.pidp]
      exact h.led m hm hled
  · exact h.family.congr (fun m _ => hboth.parent m)
      (fun m _ hact => by rw [hboth.stat]; exact hact) hboth.pChild
  -- The flags of the group that is left, of the one that is joined, and of others.
  · intro k hk
    have hmem : ∀ m, m ≠ p → (((w.pgjoin p g').proc m).pPgidp = some k ↔
        (v.proc m).pPgidp = some k) := fun m hm => by rw [hboth.pgidp_of_ne hm]
    have hnext : ∀ m, m ≠ p → (v.proc m).pParent ≠ some p →
        (w.pgjoin p g').pglinked m = v.pglinked m := fun m hm hpar =>
      pglinked_update_of_ne hboth.proc hm hpar
    have hchild : ∀ m, m ≠ p → (v.proc m).pParent = some p →
        (w.pgjoin p g').pglinked m = (decide (some g' ≠ (v.proc m).pPgidp) &&
          decide ((v.proc p).pSessp = (v.proc m).pSessp)) := fun m hm hpar =>
      pglinked_update_child hboth.proc hm hpar
    have hold : ∀ m, (v.proc m).pParent = some p →
        v.pglinked m = (decide (some g ≠ (v.proc m).pPgidp) &&
          decide ((v.proc p).pSessp = (v.proc m).pSessp)) := by
      intro m hpar
      rw [pglinked_child hpar, hg]
    by_cases hkg : k = g
    · subst hkg
      have hout : ¬ ((w.pgjoin p g').proc p).pPgidp = some k := by
        rw [hboth.pgidp_self]
        exact fun heq => hne (some.inj heq).symm
      obtain ⟨m₀, hm₀, hmk₀⟩ := hk
      have hmp₀ : m₀ ≠ p := by
        rintro rfl
        exact hout hmk₀
      have hleft := hflags.2 ⟨m₀, hm₀, hmp₀, (hmem m₀ hmp₀).mp hmk₀⟩
      have hsame : ∀ m ∈ A, m ≠ p → (v.proc m).pPgidp = some k →
          w.pglinked m = (w.pgjoin p g').pglinked m := by
        intro m hm hmp hmk
        by_cases hpar : (v.proc m).pParent = some p
        · rw [hchild m hmp hpar, pglinked_update_child hmoves.proc hmp hpar, hmk]
          have hneq : decide ((none : Option Nat) ≠ some k) = decide (some g' ≠ some k) := by
            rw [decide_eq_true nofun, decide_eq_true]
            exact fun heq => hne (some.inj heq).symm
          exact congrArg (· && _) hneq
        · rw [hnext m hmp hpar, pglinked_update_of_ne hmoves.proc hmp hpar]
      rw [hflags'.1 k hne, hleft]
      constructor
      · rintro (hyes | hnone) m hm hmk
        · have hmp : m ≠ p := by
            rintro rfl
            exact hout hmk
          rw [hmem m hmp] at hmk
          have hzero := (h.flags k ⟨m, hm, hmk⟩).mp hyes m hm hmk
          by_cases hpar : (v.proc m).pParent = some p
          · rw [hchild m hmp hpar, Bool.and_eq_false_iff]
            refine Or.inr (decide_eq_false fun hsess => ?_)
            exact hfine.left hyes ⟨m, hm, hmp, hpar, hmk, hsess⟩
          · rw [hnext m hmp hpar]
            exact hzero
        · have hmp : m ≠ p := by
            rintro rfl
            exact hout hmk
          rw [hmem m hmp] at hmk
          rw [← hsame m hm hmp hmk]
          exact hnone m hm hmp hmk
      · intro hnone
        refine Or.inr fun m hm hmp hmk => ?_
        rw [hsame m hm hmp hmk]
        exact hnone m hm ((hmem m hmp).mpr hmk)
    · by_cases hkg' : k = g'
      · subst hkg'
        have hself : ((w.pgjoin p k).proc p).pPgidp = some k := hboth.pgidp_self
        have hbefore : (∃ m ∈ A, (w.proc m).pPgidp = some k) ↔
            ∃ m ∈ A, (v.proc m).pPgidp = some k := by
          refine exists_congr fun m => and_congr_right fun _ => ?_
          by_cases hmp : m = p
          · rw [hmp, hmoves.pgidp_self, hg]
            exact iff_of_false nofun fun heq => hne (some.inj heq)
          · rw [hmoves.pgidp_of_ne hmp]
        rw [hflags'.2, hbefore, hflags.1 k hkg]
        constructor
        · rintro ⟨hflag, hplain⟩ m hm hmk
          by_cases hmp : m = p
          · rw [hmp]
            exact hplain
          · rw [hmem m hmp] at hmk
            have hzero := (h.flags k ⟨m, hm, hmk⟩).mp (hflag ⟨m, hm, hmk⟩) m hm hmk
            by_cases hpar : (v.proc m).pParent = some p
            · rw [hchild m hmp hpar, hmk]
              simp
            · rw [hnext m hmp hpar]
              exact hzero
        · intro hnone
          have hplain := hnone p hp hself
          refine ⟨fun hex => ?_, hplain⟩
          rw [h.flags k hex]
          intro m hm hmk
          have hmp : m ≠ p := by
            rintro rfl
            rw [hg] at hmk
            exact hne (some.inj hmk)
          have hzero := hnone m hm ((hmem m hmp).mpr hmk)
          by_cases hpar : (v.proc m).pParent = some p
          · rw [hold m hpar, Bool.and_eq_false_iff]
            refine Or.inr (decide_eq_false fun hsess => ?_)
            rcases hfine.joined ⟨m, hm, hmp, hpar, hmk, hsess⟩ with hto | ⟨m', hm', hmp',
              hpar', hmk', hlinked⟩
            · rw [← hboth.pglinked_self, hplain] at hto
              cases hto
            · have hcontra := hnone m' hm' ((hmem m' hmp').mpr hmk')
              rw [hnext m' hmp' hpar', hlinked] at hcontra
              cases hcontra
          · rw [← hnext m hmp hpar]
            exact hzero
      · refine h.flags.keep (fun m hm => ?_) hk ?_ fun m hm hmk => ?_
        · by_cases hmp : m = p
          · rw [hmp, hboth.pgidp_self, hg]
            exact iff_of_false (fun heq => hkg' (some.inj heq).symm)
              fun heq => hkg (some.inj heq).symm
          · exact hmem m hmp
        · rw [hflags'.1 k hkg', hflags.1 k hkg]
        · have hmp : m ≠ p := by
            rintro rfl
            rw [hg] at hmk
            exact hkg (some.inj hmk).symm
          by_cases hpar : (v.proc m).pParent = some p
          · rw [hchild m hmp hpar, hold m hpar, hmk]
            have hneq : decide (some g' ≠ some k) = decide (some g ≠ some k) := by
              rw [decide_eq_true, decide_eq_true]
              · exact fun heq => hkg (some.inj heq).symm
              · exact fun heq => hkg' (some.inj heq).symm
            exact congrArg (· && _) hneq
          · exact hnext m hmp hpar

end Links

end Procs
end Svr4
