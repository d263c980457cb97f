import Svr4.Procs.Structure

/-!
# Joining and leaving a group

`pgjoin` and `pgexit` keep the tables in order, and set the flag of
the group they are about from the members that are linked.
-/

namespace Svr4
namespace Procs

open Function Tables Option

/-- A process changes its group; the groups and pid structures follow. -/
structure Moves (v v' : Tables) (p : Nat) (t : Option Nat) : Prop where
  eq : ∃ pid link hash pglink, v' = { v with
    proc := update v.proc p { v.proc p with pPgidp := t }
    pid := pid
    pidLink := link
    pidhash := hash
    pPglink := pglink }
  same : ∀ k, (v'.pid k).pidId = (v.pid k).pidId ∧ (v'.pid k).pidPrslot = (v.pid k).pidPrslot ∧
    (v'.pid k).pidPrinactive = (v.pid k).pidPrinactive

section Groups

variable {c : Conf} {v v' : Tables} {A S : List Nat} {r : Nat → Nat}
  {G : Nat → List Nat} {p g : Nat} {t : Option Nat}

theorem pglinked_congr (h : v'.proc = v.proc) (p : Nat) : v'.pglinked p = v.pglinked p := by
  unfold pglinked
  rw [h]

section

variable (h : Moves v v' p t)
include h

theorem Moves.proc :
    v'.proc = update v.proc p { v.proc p with pPgidp := t } := by
  obtain ⟨pid, link, hash, pglink, heq⟩ := h.eq
  rw [heq]

theorem Moves.sess : v'.sess = v.sess := by
  obtain ⟨pid, link, hash, pglink, heq⟩ := h.eq
  rw [heq]

theorem Moves.pidp (q : Nat) : (v'.proc q).pPidp = (v.proc q).pPidp := by
  rw [h.proc]
  exact field_update Proc.pPidp (by rfl) q

theorem Moves.sessp (q : Nat) : (v'.proc q).pSessp = (v.proc q).pSessp := by
  rw [h.proc]
  exact field_update Proc.pSessp (by rfl) q

theorem Moves.parent (q : Nat) : (v'.proc q).pParent = (v.proc q).pParent := by
  rw [h.proc]
  exact field_update Proc.pParent (by rfl) q

theorem Moves.stat (q : Nat) : (v'.proc q).pStat = (v.proc q).pStat := by
  rw [h.proc]
  exact field_update Proc.pStat (by rfl) q

theorem Moves.pgidp_self : (v'.proc p).pPgidp = t := by
  rw [h.proc, update_self]

theorem Moves.pgidp_of_ne {q : Nat} (hq : q ≠ p) :
    (v'.proc q).pPgidp = (v.proc q).pPgidp := by
  rw [h.proc, update_of_ne hq]

theorem Moves.sid (q : Nat) : v'.sid q = v.sid q := by
  unfold Tables.sid
  rw [h.sessp, h.sess]

theorem Moves.refs {k : Nat} (hgroup : (∃ q ∈ A, (v'.proc q).pPgidp = some k) ↔
      ∃ q ∈ A, (v.proc q).pPgidp = some k) : v'.refs A S k = v.refs A S k := by
  refine refs_congr ?_ hgroup ?_
  · refine exists_congr fun q => and_congr_right fun _ => ?_
    rw [h.pidp]
  · refine exists_congr fun q => and_congr_right fun _ => ?_
    rw [h.sid]

end

/-!
## Walks
-/

theorem Sound.pgSeek (h : Sound c v A S) (hG : Grouped v A r G) (hg : 0 < r g) (f : Nat → Bool) :
    v.pgSeek (v.pid g).pidPglink f = .ok ((G g).find? f) := by
  have hchain := hG.chain g hg
  obtain ⟨F, hF⟩ := h.slots
  have hle : (G g).length ≤ v.nproc := by
    rw [hF.nproc]
    refine (hchain.nodup.subperm fun p hp => ?_).length_le
    exact ((hG.mem g p).mp hp).1
  unfold Tables.pgSeek
  rw [Chain.seek_eq hchain f hle]
  rfl

/-!
## Flags
-/

theorem Sound.setOrphaned (h : Sound c v A S) (g : Nat) (b : Bool) :
    Sound c (v.setOrphaned g b) A S := by
  obtain ⟨B, hB⟩ := h.kept
  obtain ⟨G, hG⟩ := h.groups
  obtain ⟨F, hF⟩ := h.slots
  exact ⟨⟨B, hB.congr (fun _ => rfl) (field_update Pid.pidId rfl)
      (field_update Pid.pidRef rfl) rfl rfl rfl⟩,
    ⟨G, hG.congr (fun _ hg => hg) (fun _ _ => rfl)
      (fun k _ => field_update Pid.pidPglink (by rfl) k) fun _ _ => rfl⟩,
    ⟨F, hF.congr (fun _ hg => hg) (fun _ _ => rfl) (field_update Pid.pidPrinactive rfl)
      (field_update Pid.pidPrslot rfl) rfl rfl rfl rfl⟩,
    h.sessions.congr (fun _ _ => rfl) (fun _ _ => rfl) fun _ _ _ _ => rfl⟩

theorem Moves.setOrphaned (h : Moves v v' p t) (g : Nat) (b : Bool) :
    Moves v (v'.setOrphaned g b) p t := by
  obtain ⟨pid, link, hash, pglink, heq⟩ := h.eq
  refine ⟨⟨update v'.pid g { v'.pid g with pidPgorphaned := b }, link, hash,
    pglink, ?_⟩, fun k => ?_⟩
  · rw [heq]
    rfl
  · obtain ⟨hid, hslot, hinactive⟩ := h.same k
    exact ⟨(field_update Pid.pidId (by rfl) k).trans hid,
      (field_update Pid.pidPrslot (by rfl) k).trans hslot,
      (field_update Pid.pidPrinactive (by rfl) k).trans hinactive⟩

/-!
## Leaving
-/

theorem moves_pgUnlink (v : Tables) (p g : Nat) (head : Option Nat)
    (links : Nat → Option Nat) : Moves v (v.pgUnlink p g head links) p none :=
  ⟨⟨_, _, _, _, rfl⟩, fun k => ⟨field_update Pid.pidId (by rfl) k,
    field_update Pid.pidPrslot (by rfl) k, field_update Pid.pidPrinactive (by rfl) k⟩⟩

theorem Grouped.unlink (hG : Grouped v A r G) (hpos : 0 < r g) (hp : p ∈ A)
    (hg : (v.proc p).pPgidp = some g) {head : Option Nat} {links : Nat → Option Nat}
    (hchain : Chain links head ((G g).erase p) none)
    (hframe : ∀ i, i ∉ G g → links i = v.pPglink i) :
    Grouped (v.pgUnlink p g head links) A r (update G g ((G g).erase p)) := by
  have hnodup := (hG.chain g hpos).nodup
  have hmoves := moves_pgUnlink v p g head links
  refine ⟨fun k hk => ?_, fun k q => ?_⟩
  · simp only [pgUnlink]
    by_cases hkg : k = g
    · rw [hkg, update_self, update_self]
      refine hchain.update_of_notMem ?_
      rw [hnodup.mem_erase_iff]
      exact fun hmem => hmem.1 rfl
    · rw [update_of_ne hkg, update_of_ne hkg]
      refine (hG.chain k hk).congr fun q hq => ?_
      have hqk := ((hG.mem k q).mp hq).2
      have hqp : q ≠ p := by
        rintro rfl
        rw [hg] at hqk
        exact hkg (some.inj hqk).symm
      have hqg : q ∉ G g := by
        intro hmem
        rw [((hG.mem g q).mp hmem).2] at hqk
        exact hkg (some.inj hqk).symm
      rw [update_of_ne hqp, hframe q hqg]
  · by_cases hqp : q = p
    · rw [hqp, hmoves.pgidp_self]
      refine iff_of_false ?_ nofun
      by_cases hkg : k = g
      · rw [hkg, update_self, hnodup.mem_erase_iff]
        exact fun hmem => hmem.1 rfl
      · rw [update_of_ne hkg, hG.mem, hg]
        exact fun hmem => hkg (some.inj hmem.2).symm
    · rw [hmoves.pgidp_of_ne hqp, ← hG.mem]
      by_cases hkg : k = g
      · rw [hkg, update_self, hnodup.mem_erase_iff]
        exact and_iff_right hqp
      · rw [update_of_ne hkg]

def LeavesFlags (v v' : Tables) (A : List Nat) (p g : Nat) : Prop :=
  (∀ k, k ≠ g → (v'.pid k).pidPgorphaned = (v.pid k).pidPgorphaned) ∧
    ((∃ m ∈ A, m ≠ p ∧ (v.proc m).pPgidp = some g) →
      ((v'.pid g).pidPgorphaned = true ↔ (v.pid g).pidPgorphaned = true ∨
        ∀ m ∈ A, m ≠ p → (v.proc m).pPgidp = some g → v'.pglinked m = false))

theorem Moves.rele {v₁ : Tables} (h : Moves v v₁ p t) (hpids : PidsOnly v₁ v') :
    Moves v v' p t := by
  obtain ⟨pid, link, hash, pglink, heq⟩ := h.eq
  obtain ⟨hsame, pid', link', hash', heq'⟩ := hpids
  refine ⟨⟨pid', link', hash', pglink, ?_⟩, fun k => ?_⟩
  · rw [heq', heq]
  · obtain ⟨n, hk⟩ := hsame k
    rw [hk]
    exact h.same k

theorem pgexit_spec (h : Sound c v A S) (hp : p ∈ A) (hg : (v.proc p).pPgidp = some g) :
    ∃ v', v.pgexit p = .ok v' ∧ Sound c v' A S ∧ Moves v v' p none ∧ LeavesFlags v v' A p g := by
  obtain ⟨B, hB⟩ := h.kept
  obtain ⟨G, hG⟩ := h.groups
  obtain ⟨F, hF⟩ := h.slots
  have hpos : 0 < v.refs A S g := refs_group hp hg
  have hmem : p ∈ G g := (hG.mem g p).mpr ⟨hp, hg⟩
  have hchain := hG.chain g hpos
  have hnodup := hchain.nodup
  have hle : (G g).length ≤ v.nproc := by
    rw [hF.nproc]
    exact (hnodup.subperm fun q hq => ((hG.mem g q).mp hq).1).length_le
  have hfind : ∃ q, (G g).find? (fun q => decide (q = p)) = some q := by
    rw [← Option.isSome_iff_exists, List.find?_isSome]
    exact ⟨p, hmem, by simp⟩
  obtain ⟨found, hfound⟩ := hfind
  obtain ⟨head, links, hrun, hrest, hframe⟩ := Chain.unlink_spec hchain hmem hle
  have hG₁ := hG.unlink hpos hp hg hrest hframe
  have hmoves := moves_pgUnlink v p g head links
  have hother : ∀ k, k ≠ g → (v.pgUnlink p g head links).refs A S k = v.refs A S k := by
    intro k hk
    refine hmoves.refs (exists_congr fun q => and_congr_right fun _ => ?_)
    by_cases hq : q = p
    · rw [hq, hmoves.pgidp_self, hg]
      exact iff_of_false nofun fun heq => hk (some.inj heq).symm
    · rw [hmoves.pgidp_of_ne hq]
  have hflag : ∀ k, ((v.pgUnlink p g head links).pid k).pidPgorphaned =
      (v.pid k).pidPgorphaned := field_update Pid.pidPgorphaned rfl
  have hmembers : ∀ m, m ∈ (G g).erase p ↔ m ∈ A ∧ m ≠ p ∧ (v.proc m).pPgidp = some g := by
    intro m
    rw [hnodup.mem_erase_iff, hG.mem]
    exact and_left_comm
  have hsessions : Sessions (v.pgUnlink p g head links) A S :=
    h.sessions.congr (fun q _ => hmoves.sessp q) (fun q _ => hmoves.pidp q) fun _ _ _ _ => rfl
  have hrunUnlink : v.pgexit p = (if head = none then (v.pgUnlink p g head links).pidRele g
      else if ((v.pgUnlink p g head links).pid g).pidPgorphaned then
        return v.pgUnlink p g head links
      else do
        let linked ← (v.pgUnlink p g head links).pgSeek head (v.pgUnlink p g head links).pglinked
        return if linked.isSome then v.pgUnlink p g head links
          else (v.pgUnlink p g head links).setOrphaned g true) := by
    simp only [pgexit, hg, h.pgSeek hG hpos, hfound, bind, Except.bind, hrun]
    refine if_congr Iff.rfl rfl (if_congr Iff.rfl rfl ?_)
    cases (v.pgUnlink p g head links).pgSeek head (v.pgUnlink p g head links).pglinked with
    | error e => rfl
    | ok linked => cases linked <;> rfl
  by_cases hlast : head = none
  · -- The last process leaves: the group gives up its reference.
    have hempty : (G g).erase p = [] := by
      cases hl : (G g).erase p with
      | nil => rfl
      | cons k l =>
        rw [hl, hlast] at hrest
        cases hrest.1
    have hnone : ¬ ∃ q ∈ A, ((v.pgUnlink p g head links).proc q).pPgidp = some g := by
      rintro ⟨q, hq, hqg⟩
      by_cases hqp : q = p
      · rw [hqp, hmoves.pgidp_self] at hqg
        cases hqg
      · rw [hmoves.pgidp_of_ne hqp] at hqg
        have hin := (hmembers q).mpr ⟨hq, hqp, hqg⟩
        rw [hempty] at hin
        cases hin
    have hB₁ : Kept (v.pgUnlink p g head links) B (v.refs A S) :=
      hB.congr (fun _ => rfl) (field_update Pid.pidId rfl) (field_update Pid.pidRef rfl) rfl rfl rfl
    obtain ⟨v', B', hrele, hpids, hB'⟩ := hB₁.rele hpos
    have hmoves' := hmoves.rele hpids
    have hrefs : ∀ k, v'.refs A S k = update (v.refs A S) g (v.refs A S g - 1) k := by
      intro k
      have hproc : v'.proc = (v.pgUnlink p g head links).proc := by
        rw [hmoves'.proc, hmoves.proc]
      by_cases hk : k = g
      · rw [hk, update_self]
        have hyes : ∃ q ∈ A, (v.proc q).pPgidp = some g := ⟨p, hp, hg⟩
        rw [← hproc] at hnone
        have hfirst : (∃ q ∈ A, (v'.proc q).pPidp = g) ↔ ∃ q ∈ A, (v.proc q).pPidp = g :=
          exists_congr fun q => and_congr_right fun _ => by rw [hmoves'.pidp]
        have hlast : (∃ q ∈ S, v'.sid q = some g) ↔ ∃ q ∈ S, v.sid q = some g :=
          exists_congr fun q => and_congr_right fun _ => by rw [hmoves'.sid]
        unfold refs
        rw [if_neg hnone, if_pos hyes, if_congr hfirst rfl rfl, if_congr hlast rfl rfl]
        omega
      · rw [update_of_ne hk, ← hother k hk]
        refine refs_congr ?_ ?_ ?_
        · rw [hproc]
        · rw [hproc]
        · refine exists_congr fun q => and_congr_right fun _ => ?_
          rw [hmoves'.sid, hmoves.sid]
    have hle' : ∀ k, 0 < v'.refs A S k → 0 < v.refs A S k := by
      intro k hk
      rw [hrefs] at hk
      by_cases hkg : k = g
      · rwa [hkg]
      · rwa [update_of_ne hkg] at hk
    obtain ⟨hsame, pid, link, hash, heq⟩ := hpids
    have hexit : v.pgexit p = .ok v' := by
      rw [hrunUnlink, if_pos hlast]
      exact hrele
    refine ⟨v', hexit, ⟨⟨B', ?_⟩, ⟨update G g ((G g).erase p), ?_⟩, ⟨F, ?_⟩, ?_⟩,
      hmoves', fun k _ => ?_, ?_⟩
    · have hfun : v'.refs A S = update (v.refs A S) g (v.refs A S g - 1) :=
        funext hrefs
      rw [hfun]
      exact hB'
    · refine hG₁.congr hle' (fun q _ => ?_) (fun k _ => ?_) fun q _ => ?_
      · rw [heq]
      · obtain ⟨n, hk⟩ := hsame k
        rw [hk]
      · rw [heq]
    · refine hF.congr hle' (fun q _ => hmoves'.pidp q) (fun k => (hmoves'.same k).2.2)
        (fun k => (hmoves'.same k).2.1) ?_ ?_ ?_ ?_
      all_goals
        rw [heq]
        rfl
    · refine hsessions.congr (fun q _ => ?_) (fun q _ => ?_) fun q _ s _ => ?_
      all_goals rw [heq]
    · obtain ⟨n, hk⟩ := hsame k
      rw [hk]
      exact hflag k
    · rintro ⟨m, hm, hmp, hmg⟩
      have hin := (hmembers m).mpr ⟨hm, hmp, hmg⟩
      rw [hempty] at hin
      cases hin
  · obtain ⟨m₀, l, hcons⟩ : ∃ m₀ l, (G g).erase p = m₀ :: l := by
      cases hl : (G g).erase p with
      | nil =>
        rw [hl] at hrest
        exact absurd hrest hlast
      | cons m₀ l => exact ⟨m₀, l, rfl⟩
    have hm₀ := (hmembers m₀).mp (by rw [hcons]; exact List.mem_cons_self ..)
    have hrefs : (v.pgUnlink p g head links).refs A S = v.refs A S := by
      funext k
      by_cases hk : k = g
      · rw [hk]
        refine hmoves.refs (iff_of_true ⟨m₀, hm₀.1, ?_⟩ ⟨p, hp, hg⟩)
        rw [hmoves.pgidp_of_ne hm₀.2.1]
        exact hm₀.2.2
      · exact hother k hk
    have hsound : Sound c (v.pgUnlink p g head links) A S := by
      refine ⟨⟨B, ?_⟩, ⟨update G g ((G g).erase p), ?_⟩, ⟨F, ?_⟩, hsessions⟩
      · exact hB.congr (fun k => by rw [hrefs]) (field_update Pid.pidId rfl)
          (field_update Pid.pidRef rfl) rfl rfl rfl
      · rw [hrefs]
        exact hG₁
      · exact hF.congr (fun k hk => by rwa [hrefs] at hk) (fun q _ => hmoves.pidp q)
          (fun k => (hmoves.same k).2.2) (fun k => (hmoves.same k).2.1) rfl rfl rfl rfl
    have hpos₁ : 0 < (v.pgUnlink p g head links).refs A S g := by
      rw [hrefs]
      exact hpos
    rw [← hrefs] at hG₁
    have hseek := hsound.pgSeek hG₁ hpos₁ (v.pgUnlink p g head links).pglinked
    have hheadEq : ((v.pgUnlink p g head links).pid g).pidPglink = head := by
      simp only [pgUnlink, update_self]
    rw [hheadEq, update_self] at hseek
    rw [hrunUnlink, if_neg hlast, hflag]
    cases horphaned : (v.pid g).pidPgorphaned with
    | true =>
      refine ⟨_, rfl, hsound, hmoves, fun k _ => hflag k, fun _ => ?_⟩
      rw [hflag, horphaned]
      exact iff_of_true rfl (Or.inl rfl)
    | false =>
      simp only [Bool.false_eq_true, if_false, hseek, bind, Except.bind]
      cases hlinked : ((G g).erase p).find? (v.pgUnlink p g head links).pglinked with
      | some m =>
        refine ⟨v.pgUnlink p g head links, rfl, hsound, hmoves, fun k _ => hflag k, fun _ => ?_⟩
        rw [hflag, horphaned]
        refine iff_of_false Bool.false_ne_true ?_
        rintro (hfalse | hall)
        · cases hfalse
        · have hm := (hmembers m).mp (List.mem_of_find?_eq_some hlinked)
          have hyes := List.find?_some hlinked
          rw [hall m hm.1 hm.2.1 hm.2.2] at hyes
          cases hyes
      | none =>
        refine ⟨(v.pgUnlink p g head links).setOrphaned g true, rfl,
          hsound.setOrphaned g true, hmoves.setOrphaned g true,
          fun k hk => ?_, fun _ => ?_⟩
        · simp only [setOrphaned, setPid, update_of_ne hk]
          exact hflag k
        · refine iff_of_true ?_ (Or.inr fun m hm hmp hmg => ?_)
          · simp only [setOrphaned, setPid, update_self]
          · have hno := List.find?_eq_none.mp hlinked m ((hmembers m).mpr ⟨hm, hmp, hmg⟩)
            rw [Bool.not_eq_true] at hno
            exact (pglinked_congr rfl m).trans hno

/-!
## Joining
-/

theorem moves_pgPush (v : Tables) (p g : Nat) : Moves v (v.pgPush p g) p (some g) :=
  ⟨⟨_, _, _, _, rfl⟩, fun k => ⟨field_update Pid.pidId (by rfl) k,
    field_update Pid.pidPrslot (by rfl) k, field_update Pid.pidPrinactive (by rfl) k⟩⟩

theorem Grouped.push (hG : Grouped v A r G) (hpos : 0 < r g) (hp : p ∈ A)
    (hnone : (v.proc p).pPgidp = none) : Grouped (v.pgPush p g) A r (update G g (p :: G g)) := by
  have hmoves := moves_pgPush v p g
  have hout : ∀ k, p ∉ G k := by
    intro k hmem
    rw [((hG.mem k p).mp hmem).2] at hnone
    cases hnone
  refine ⟨fun k hk => ?_, fun k q => ?_⟩
  · simp only [pgPush]
    by_cases hkg : k = g
    · rw [hkg, update_self, update_self]
      exact (hG.chain g hpos).push (hout g)
    · rw [update_of_ne hkg, update_of_ne hkg]
      exact (hG.chain k hk).update_of_notMem (hout k)
  · by_cases hqp : q = p
    · rw [hqp, hmoves.pgidp_self]
      by_cases hkg : k = g
      · rw [hkg, update_self]
        exact iff_of_true (List.mem_cons_self ..) ⟨hp, rfl⟩
      · rw [update_of_ne hkg]
        exact iff_of_false (hout k) fun hmem => hkg (some.inj hmem.2).symm
    · rw [hmoves.pgidp_of_ne hqp, ← hG.mem]
      by_cases hkg : k = g
      · rw [hkg, update_self, List.mem_cons]
        exact or_iff_right hqp
      · rw [update_of_ne hkg]

def JoinsFlags (v v' : Tables) (A : List Nat) (p g : Nat) : Prop :=
  (∀ k, k ≠ g → (v'.pid k).pidPgorphaned = (v.pid k).pidPgorphaned) ∧
    ((v'.pid g).pidPgorphaned = true ↔ ((∃ m ∈ A, (v.proc m).pPgidp = some g) →
      (v.pid g).pidPgorphaned = true) ∧ v'.pglinked p = false)

theorem Moves.hold {v₁ : Tables} (h : Moves v v₁ p t) (g : Nat) : Moves v (v₁.pidHold g) p t := by
  obtain ⟨pid, link, hash, pglink, heq⟩ := h.eq
  refine ⟨⟨update v₁.pid g { v₁.pid g with pidRef := (v₁.pid g).pidRef + 1 },
    link, hash, pglink, ?_⟩, fun k => ?_⟩
  · rw [heq]
    rfl
  · obtain ⟨hid, hslot, hinactive⟩ := h.same k
    exact ⟨(field_update Pid.pidId (by rfl) k).trans hid,
      (field_update Pid.pidPrslot (by rfl) k).trans hslot,
      (field_update Pid.pidPrinactive (by rfl) k).trans hinactive⟩

theorem pgjoin_spec (h : Sound c v A S) (hp : p ∈ A)
    (hnone : (v.proc p).pPgidp = none) (hpos : 0 < v.refs A S g) :
    Sound c (v.pgjoin p g) A S ∧ Moves v (v.pgjoin p g) p (some g) ∧
      JoinsFlags v (v.pgjoin p g) A p g := by
  obtain ⟨B, hB⟩ := h.kept
  obtain ⟨G, hG⟩ := h.groups
  obtain ⟨F, hF⟩ := h.slots
  have hG₁ := hG.push hpos hp hnone
  have hmoves := moves_pgPush v p g
  have hother : ∀ k, k ≠ g → (v.pgPush p g).refs A S k = v.refs A S k := by
    intro k hk
    refine hmoves.refs (exists_congr fun q => and_congr_right fun _ => ?_)
    by_cases hq : q = p
    · rw [hq, hmoves.pgidp_self, hnone]
      exact iff_of_false (fun heq => hk (some.inj heq).symm) nofun
    · rw [hmoves.pgidp_of_ne hq]
  have hflag : ∀ k, ((v.pgPush p g).pid k).pidPgorphaned = (v.pid k).pidPgorphaned :=
    field_update Pid.pidPgorphaned rfl
  have hsessions : Sessions (v.pgPush p g) A S :=
    h.sessions.congr (fun q _ => hmoves.sessp q) (fun q _ => hmoves.pidp q) fun _ _ _ _ => rfl
  have hself : ∃ q ∈ A, ((v.pgPush p g).proc q).pPgidp = some g :=
    ⟨p, hp, hmoves.pgidp_self⟩
  have hempty : (v.pid g).pidPglink = none ↔ ¬ ∃ m ∈ A, (v.proc m).pPgidp = some g := by
    have hchain := hG.chain g hpos
    constructor
    · rintro hnil ⟨m, hm, hmg⟩
      have hin := (hG.mem g m).mpr ⟨hm, hmg⟩
      rw [hnil] at hchain
      cases hl : G g with
      | nil =>
        rw [hl] at hin
        cases hin
      | cons k l =>
        rw [hl] at hchain
        cases hchain.1
    · intro hno
      cases hl : G g with
      | nil =>
        rw [hl] at hchain
        exact hchain
      | cons k l =>
        have hk := (hG.mem g k).mp (by rw [hl]; exact List.mem_cons_self ..)
        exact absurd ⟨k, hk.1, hk.2⟩ hno
  unfold pgjoin
  cases hold : (v.pid g).pidPglink with
  | none =>
    have hno := hempty.mp hold
    have hB₁ : Kept (v.pgPush p g) B (v.refs A S) :=
      hB.congr (fun _ => rfl) (field_update Pid.pidId rfl) (field_update Pid.pidRef rfl) rfl rfl rfl
    have hB₂ := hB₁.hold hpos
    have hmoves₂ := hmoves.hold g
    have hrefs : ((v.pgPush p g).pidHold g).refs A S =
        update (v.refs A S) g (v.refs A S g + 1) := by
      funext k
      have hsame : ((v.pgPush p g).pidHold g).refs A S k = (v.pgPush p g).refs A S k :=
        rfl
      rw [hsame]
      by_cases hk : k = g
      · rw [hk, update_self]
        have hfirst : (∃ q ∈ A, ((v.pgPush p g).proc q).pPidp = g) ↔
            ∃ q ∈ A, (v.proc q).pPidp = g :=
          exists_congr fun q => and_congr_right fun _ => by rw [hmoves.pidp]
        have hlast : (∃ q ∈ S, (v.pgPush p g).sid q = some g) ↔ ∃ q ∈ S, v.sid q = some g :=
          exists_congr fun q => and_congr_right fun _ => by rw [hmoves.sid]
        unfold refs
        rw [if_pos hself, if_neg hno, if_congr hfirst rfl rfl, if_congr hlast rfl rfl]
        omega
      · rw [update_of_ne hk]
        exact hother k hk
    have hle : ∀ k, 0 < ((v.pgPush p g).pidHold g).refs A S k → 0 < v.refs A S k := by
      intro k hk
      rw [hrefs] at hk
      by_cases hkg : k = g
      · rwa [hkg]
      · rwa [update_of_ne hkg] at hk
    have hsound : Sound c ((v.pgPush p g).pidHold g) A S := by
      refine ⟨⟨B, ?_⟩, ⟨update G g (p :: G g), ?_⟩, ⟨F, ?_⟩, ?_⟩
      · rw [hrefs]
        exact hB₂
      · exact hG₁.congr hle (fun _ _ => rfl)
          (fun k _ => field_update Pid.pidPglink (by rfl) k) fun _ _ => rfl
      · exact hF.congr hle (fun q _ => hmoves₂.pidp q)
          (fun k => (hmoves₂.same k).2.2) (fun k => (hmoves₂.same k).2.1)
          rfl rfl rfl rfl
      · exact hsessions.congr (fun _ _ => rfl) (fun _ _ => rfl) fun _ _ _ _ => rfl
    refine ⟨hsound.setOrphaned _ _, hmoves₂.setOrphaned _ _, fun k hk => ?_, ?_⟩
    · simp only [setOrphaned, setPid, update_of_ne hk, pidHold]
      exact hflag k
    · simp only [setOrphaned, setPid, update_self, Bool.not_eq_true']
      constructor
      · exact fun hlinked => ⟨fun hyes => absurd hyes hno, hlinked⟩
      · exact fun hboth => hboth.2
  | some first =>
    have hyes : ∃ m ∈ A, (v.proc m).pPgidp = some g := by
      by_contra hno
      rw [hempty.mpr hno] at hold
      cases hold
    have hrefs : (v.pgPush p g).refs A S = v.refs A S := by
      funext k
      by_cases hk : k = g
      · rw [hk]
        exact hmoves.refs (iff_of_true hself hyes)
      · exact hother k hk
    have hsound : Sound c (v.pgPush p g) A S := by
      refine ⟨⟨B, ?_⟩, ⟨update G g (p :: G g), ?_⟩, ⟨F, ?_⟩, hsessions⟩
      · exact hB.congr (fun k => by rw [hrefs]) (field_update Pid.pidId rfl)
          (field_update Pid.pidRef rfl) rfl rfl rfl
      · rw [hrefs]
        exact hG₁
      · exact hF.congr (fun k hk => by rwa [hrefs] at hk) (fun q _ => hmoves.pidp q)
          (fun k => (hmoves.same k).2.2) (fun k => (hmoves.same k).2.1) rfl rfl rfl rfl
    dsimp only
    rw [hflag]
    cases horphaned : (v.pid g).pidPgorphaned with
    | false =>
      refine ⟨hsound, hmoves, fun k _ => hflag k, ?_⟩
      change ((v.pgPush p g).pid g).pidPgorphaned = true ↔ _
      rw [hflag, horphaned]
      exact iff_of_false Bool.false_ne_true fun hboth =>
        absurd (hboth.1 hyes) Bool.false_ne_true
    | true =>
      cases hlinked : (v.pgPush p g).pglinked p with
      | false =>
        refine ⟨hsound, hmoves, fun k _ => hflag k, ?_⟩
        change ((v.pgPush p g).pid g).pidPgorphaned = true ↔ _
        rw [hflag, horphaned]
        exact iff_of_true rfl ⟨fun _ => rfl, hlinked⟩
      | true =>
        refine ⟨hsound.setOrphaned _ _, hmoves.setOrphaned _ _, fun k hk => ?_, ?_⟩
        · change ((setOrphaned _ _ _).pid k).pidPgorphaned = _
          simp only [setOrphaned, setPid, update_of_ne hk]
          exact hflag k
        · refine iff_of_false ?_ fun hboth => ?_
          · change ¬ ((setOrphaned _ _ _).pid g).pidPgorphaned = true
            simp only [setOrphaned, setPid, update_self]
            exact Bool.false_ne_true
          · have hsame := hboth.2
            change (v.pgPush p g).pglinked p = false at hsame
            rw [hlinked] at hsame
            cases hsame

end Groups

end Procs
end Svr4
