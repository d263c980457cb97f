import Mathlib.Data.List.Count
import Svr4.Procs.Groups

/-!
# Processes and sessions come and go

A process enters the table with a pid that nothing else has, is counted by a
session, gives its session up, and leaves the table.
-/

namespace Svr4
namespace Procs

open Function List Tables Option

section Members

variable {c : Conf} {v v' : Tables} {A S : List Nat} {r : Nat → Nat}
  {G : Nat → List Nat} {F : List Nat} {p q g s : Nat}

/-!
## Sessions
-/

def SessOnly (v v' : Tables) : Prop :=
  SamePids v v' ∧ (∀ s, (v'.sess s).sSidp = (v.sess s).sSidp) ∧ ∃ pid link hash sess, v' = { v with
      pid := pid, pidLink := link, pidhash := hash, sess := sess }

theorem SessOnly.proc (h : SessOnly v v') : v'.proc = v.proc := by
  obtain ⟨_, _, pid, link, hash, sess, heq⟩ := h
  rw [heq]

theorem SessOnly.sid (h : SessOnly v v') (p : Nat) : v'.sid p = v.sid p := by
  unfold Tables.sid
  rw [h.proc]
  congr 1
  funext s
  exact h.2.1 s

theorem Sessions.erase (h : Sessions v A S) (hp : p ∈ S)
    (hs : (v.proc p).pSessp = some s) (hproc : v'.proc = v.proc)
    (hsid : ∀ k, (v'.sess k).sSidp = (v.sess k).sSidp)
    (hself : (v'.sess s).sRef = (v.sess s).sRef - 1)
    (hother : ∀ k, k ≠ s → (v'.sess k).sRef = (v.sess k).sRef) : Sessions v' A (S.erase p) := by
  have hin : ∀ {q}, q ∈ S.erase p → q ∈ S := fun hq => mem_of_mem_erase hq
  have hsidEq : ∀ q, v'.sid q = v.sid q := by
    intro q
    unfold Tables.sid
    rw [hproc]
    congr 1
    funext k
    exact hsid k
  refine ⟨h.nodup.erase p, fun q hq => h.sub q (hin hq), fun q hq => ?_,
    fun q hq k hk => ?_, fun q hq q' hq' heq => ?_, fun q hq q' hq' heq => ?_⟩
  · rw [hproc]
    exact h.has q (hin hq)
  · rw [hproc] at hk ⊢
    rw [countP_erase]
    by_cases hks : k = s
    · have hone : (p ∈ S ∧ decide ((v.proc p).pSessp = some s) = true) :=
        ⟨hp, by simp [hs]⟩
      rw [hks, hself, if_pos hone, h.ref p hp s hs]
    · have hnone : ¬ (p ∈ S ∧ decide ((v.proc p).pSessp = some k) = true) := by
        rintro ⟨_, heq⟩
        rw [decide_eq_true_eq, hs] at heq
        exact hks (some.inj heq).symm
      rw [hother k hks, if_neg hnone, Nat.sub_zero]
      exact h.ref q (hin hq) k hk
  · rw [hsidEq, hsidEq] at heq
    rw [hproc]
    exact h.one q (hin hq) q' (hin hq') heq
  · rw [hsidEq, hproc] at heq
    rw [hproc]
    exact h.leader q (hin hq) q' (hin hq') heq

theorem sessRele_spec (h : Sound c v A S) (hp : p ∈ S) :
    ∃ v', v.sessRele (v.proc p).pSessp = .ok v' ∧ Sound c v' A (S.erase p) ∧ SessOnly v v' := by
  obtain ⟨s, hs⟩ := h.sessions.has p hp
  obtain ⟨B, hB⟩ := h.kept
  obtain ⟨G, hG⟩ := h.groups
  obtain ⟨F, hF⟩ := h.slots
  have hcount := h.sessions.ref p hp s hs
  let v₁ : Tables := { v with
    sess := update v.sess s { v.sess s with sRef := (v.sess s).sRef - 1 } }
  have hself : (v₁.sess s).sRef = (v.sess s).sRef - 1 := by
    simp only [v₁, update_self]
  have hsidp : ∀ k, (v₁.sess k).sSidp = (v.sess k).sSidp :=
    field_update Sess.sSidp rfl
  have hsessions : Sessions v₁ A (S.erase p) :=
    h.sessions.erase hp hs rfl hsidp hself fun k hk => by
      simp only [v₁, update_of_ne hk]
  have honly : SessOnly v v₁ :=
    ⟨fun k => ⟨(v.pid k).pidRef, rfl⟩, hsidp, ⟨_, _, _, _, rfl⟩⟩
  have hsid : v.sid p = some (v.sess s).sSidp := by
    unfold Tables.sid
    rw [hs]
    rfl
  have hcount' : ((v₁.sess s).sRef = 0) ↔ ¬ ∃ q ∈ S.erase p, (v.proc q).pSessp = some s := by
    have hone : (p ∈ S ∧ decide ((v.proc p).pSessp = some s) = true) := ⟨hp, by simp [hs]⟩
    have herase : (S.erase p).countP (fun q => decide ((v.proc q).pSessp = some s)) =
        (v₁.sess s).sRef := by
      rw [countP_erase, if_pos hone, hself, hcount]
    rw [← herase, countP_eq_zero]
    constructor
    · rintro hnone ⟨q, hq, hqs⟩
      exact hnone q hq (by simp [hqs])
    · intro hnone q hq hqs
      exact hnone ⟨q, hq, of_decide_eq_true hqs⟩
  have hother : ∀ k, k ≠ (v.sess s).sSidp → v₁.refs A (S.erase p) k = v.refs A S k := by
    intro k hk
    refine refs_congr Iff.rfl Iff.rfl ?_
    constructor
    · rintro ⟨q, hq, hqk⟩
      rw [honly.sid] at hqk
      exact ⟨q, mem_of_mem_erase hq, hqk⟩
    · rintro ⟨q, hq, hqk⟩
      have hqp : q ≠ p := by
        rintro rfl
        rw [hsid] at hqk
        exact hk (some.inj hqk).symm
      refine ⟨q, (h.sessions.nodup.mem_erase_iff).mpr ⟨hqp, hq⟩, ?_⟩
      rw [honly.sid]
      exact hqk
  have hpos : 0 < v.refs A S (v.sess s).sSidp := refs_sid hp hsid
  have hyes : ∃ q ∈ S, v.sid q = some (v.sess s).sSidp := ⟨p, hp, hsid⟩
  have hrun : v.sessRele (v.proc p).pSessp =
      if 0 < (v₁.sess s).sRef then return v₁ else v₁.pidRele (v₁.sess s).sSidp := by
    rw [hs]
    rfl
  by_cases hlast : 0 < (v₁.sess s).sRef
  · -- Other processes of the session keep its pid in use.
    obtain ⟨q, hq, hqs⟩ : ∃ q ∈ S.erase p, (v.proc q).pSessp = some s := by
      by_contra hnone
      have := hcount'.mpr hnone
      omega
    have hrefs : v₁.refs A (S.erase p) = v.refs A S := by
      funext k
      by_cases hk : k = (v.sess s).sSidp
      · rw [hk]
        refine refs_congr Iff.rfl Iff.rfl (iff_of_true ⟨q, hq, ?_⟩ hyes)
        rw [honly.sid]
        unfold Tables.sid
        rw [hqs]
        rfl
      · exact hother k hk
    refine ⟨v₁, by rw [hrun, if_pos hlast]; rfl, ⟨⟨B, ?_⟩, ⟨G, ?_⟩, ⟨F, ?_⟩, hsessions⟩, honly⟩
    · exact hB.congr (fun k => by rw [hrefs]) (fun _ => rfl) (fun _ => rfl) rfl rfl rfl
    · exact hG.congr (fun k hk => by rwa [hrefs] at hk) (fun _ _ => rfl) (fun _ _ => rfl)
        fun _ _ => rfl
    · exact hF.congr (fun k hk => by rwa [hrefs] at hk) (fun _ _ => rfl) (fun _ => rfl)
        (fun _ => rfl) rfl rfl rfl rfl
  · -- The session is gone: by its uniqueness no other refers to its pid.
    have hB₁ : Kept v₁ B (v.refs A S) :=
      hB.congr (fun _ => rfl) (fun _ => rfl) (fun _ => rfl) rfl rfl rfl
    obtain ⟨v₂, B', hrele, ⟨hsame, pid, link, hash, heq⟩, hB'⟩ := hB₁.rele hpos
    have hnone : ¬ ∃ q ∈ S.erase p, v₂.sid q = some (v.sess s).sSidp := by
      rintro ⟨q, hq, hqs⟩
      have hqsid : v.sid q = some (v.sess s).sSidp := by
        rw [← hqs, heq]
        exact (honly.sid q).symm
      have hsess := h.sessions.one q (mem_of_mem_erase hq) p hp (hqsid.trans hsid.symm)
      rw [hs] at hsess
      exact (hcount'.mp (by omega)) ⟨q, hq, hsess⟩
    have hrefs : v₂.refs A (S.erase p) = update (v.refs A S) (v.sess s).sSidp
        (v.refs A S (v.sess s).sSidp - 1) := by
      funext k
      by_cases hk : k = (v.sess s).sSidp
      · rw [hk, update_self]
        unfold refs
        rw [if_neg hnone, if_pos hyes, heq]
        rfl
      · rw [update_of_ne hk, ← hother k hk, heq]
        rfl
    have hle : ∀ k, 0 < v₂.refs A (S.erase p) k → 0 < v.refs A S k := by
      intro k hk
      rw [hrefs] at hk
      by_cases hks : k = (v.sess s).sSidp
      · rwa [hks]
      · rwa [update_of_ne hks] at hk
    refine ⟨v₂, ?_, ⟨⟨B', ?_⟩, ⟨G, ?_⟩, ⟨F, ?_⟩, ?_⟩, hsame, ?_, ⟨pid, link, hash, v₁.sess, heq⟩⟩
    · rw [hrun, if_neg hlast, hsidp]
      exact hrele
    · rw [hrefs]
      exact hB'
    · refine hG.congr hle (fun q _ => ?_) (fun k _ => ?_) fun q _ => ?_
      · rw [heq]
      · obtain ⟨n, hk⟩ := hsame k
        rw [hk]
      · rw [heq]
    · refine hF.congr hle (fun q _ => ?_) (fun k => ?_) (fun k => ?_) ?_ ?_ ?_ ?_
      · rw [heq]
      · obtain ⟨n, hk⟩ := hsame k
        rw [hk]
      · obtain ⟨n, hk⟩ := hsame k
        rw [hk]
      all_goals rw [heq]
    · refine hsessions.congr (fun q _ => ?_) (fun q _ => ?_) fun q _ k _ => ?_
      all_goals rw [heq]
    · intro k
      rw [heq]
      exact hsidp k

theorem sessHold_spec (h : Sound c v A S) (hp : p ∈ A) (hout : p ∉ S) (hq : q ∈ S)
    (hsame : (v.proc p).pSessp = (v.proc q).pSessp)
    (hnew : ∀ k ∈ S, v.sid k ≠ some (v.proc p).pPidp) :
    ∃ v', v.sessHold (v.proc p).pSessp = .ok v' ∧ Sound c v' A (p :: S) ∧
      (∃ sess, v' = { v with sess := sess }) ∧
      ∀ k, (v'.sess k).sSidp = (v.sess k).sSidp := by
  obtain ⟨s, hs⟩ := h.sessions.has q hq
  obtain ⟨B, hB⟩ := h.kept
  obtain ⟨G, hG⟩ := h.groups
  obtain ⟨F, hF⟩ := h.slots
  let v₁ : Tables := { v with
    sess := update v.sess s { v.sess s with sRef := (v.sess s).sRef + 1 } }
  have hsidp : ∀ k, (v₁.sess k).sSidp = (v.sess k).sSidp :=
    field_update Sess.sSidp rfl
  have hsid : ∀ k, v₁.sid k = v.sid k := by
    intro k
    unfold Tables.sid
    congr 1
    funext n
    exact hsidp n
  have hps : (v.proc p).pSessp = some s := hsame.trans hs
  have hpq : v.sid p = v.sid q := by
    unfold Tables.sid
    rw [hsame]
  have hrefs : v₁.refs A (p :: S) = v.refs A S := by
    funext k
    refine refs_congr Iff.rfl Iff.rfl ?_
    constructor
    · rintro ⟨n, hn, hnk⟩
      rw [hsid] at hnk
      rcases mem_cons.mp hn with rfl | hn
      · exact ⟨q, hq, hpq.symm.trans hnk⟩
      · exact ⟨n, hn, hnk⟩
    · rintro ⟨n, hn, hnk⟩
      exact ⟨n, mem_cons_of_mem p hn, (hsid n).trans hnk⟩
  refine ⟨v₁, by rw [hps]; rfl, ⟨⟨B, ?_⟩, ⟨G, ?_⟩, ⟨F, ?_⟩, ?_⟩, ⟨_, rfl⟩, hsidp⟩
  · exact hB.congr (fun k => by rw [hrefs]) (fun _ => rfl) (fun _ => rfl) rfl rfl rfl
  · exact hG.congr (fun k hk => by rwa [hrefs] at hk) (fun _ _ => rfl) (fun _ _ => rfl)
      fun _ _ => rfl
  · exact hF.congr (fun k hk => by rwa [hrefs] at hk) (fun _ _ => rfl) (fun _ => rfl)
      (fun _ => rfl) rfl rfl rfl rfl
  · refine ⟨nodup_cons.mpr ⟨hout, h.sessions.nodup⟩, fun n hn => ?_, fun n hn => ?_,
      fun n hn k hk => ?_, fun n hn m hm heq => ?_, fun n hn m hm heq => ?_⟩
    · rcases mem_cons.mp hn with rfl | hn
      · exact hp
      · exact h.sessions.sub n hn
    · rcases mem_cons.mp hn with rfl | hn
      · exact ⟨s, hps⟩
      · exact h.sessions.has n hn
    · rw [countP_cons, hps]
      by_cases hks : k = s
      · have href := h.sessions.ref q hq s hs
        simp only [hks, v₁, update_self, decide_true, if_true]
        omega
      · have hne : decide (some s = some k) = false := by
          rw [decide_eq_false_iff_not]
          exact fun heq => hks (some.inj heq).symm
        simp only [v₁, update_of_ne hks, hne, Bool.false_eq_true, if_false]
        rcases mem_cons.mp hn with rfl | hn
        · rw [hps] at hk
          exact absurd (some.inj hk).symm hks
        · exact h.sessions.ref n hn k hk
    · rw [hsid, hsid] at heq
      have hrep : ∀ m ∈ p :: S, ∃ m' ∈ S, v.sid m' = v.sid m ∧
          (v.proc m').pSessp = (v.proc m).pSessp := by
        intro m hm
        rcases mem_cons.mp hm with rfl | hm
        · exact ⟨q, hq, hpq.symm, hsame.symm⟩
        · exact ⟨m, hm, rfl, rfl⟩
      obtain ⟨n', hn', hnsid, hnsess⟩ := hrep n hn
      obtain ⟨m', hm', hmsid, hmsess⟩ := hrep m hm
      have hone := h.sessions.one n' hn' m' hm' (by rw [hnsid, hmsid, heq])
      exact hnsess.symm.trans (hone.trans hmsess)
    · rw [hsid] at heq
      have hled : ∃ n' ∈ S, v.sid n' = some (v.proc m).pPidp ∧
          (v.proc n').pSessp = (v.proc n).pSessp := by
        rcases mem_cons.mp hn with rfl | hn
        · exact ⟨q, hq, hpq.symm.trans heq, hsame.symm⟩
        · exact ⟨n, hn, heq, rfl⟩
      obtain ⟨n', hn', hnsid, hnsess⟩ := hled
      rcases mem_cons.mp hm with rfl | hm
      · exact absurd hnsid (hnew n' hn')
      · exact (h.sessions.leader n' hn' m hm hnsid).trans hnsess

theorem sessStart_spec (h : Sound c v A S) (hp : p ∈ A) (hout : p ∉ S)
    (hs : (v.proc p).pSessp = some s) (hsess : v.sess s = ⟨1, (v.proc p).pPidp⟩)
    (hfresh : ∀ q ∈ S, (v.proc q).pSessp ≠ some s)
    (hnew : ∀ q ∈ S, v.sid q ≠ some (v.proc p).pPidp) :
    Sound c (v.pidHold (v.proc p).pPidp) A (p :: S) := by
  obtain ⟨B, hB⟩ := h.kept
  obtain ⟨G, hG⟩ := h.groups
  obtain ⟨F, hF⟩ := h.slots
  have hpos : 0 < v.refs A S (v.proc p).pPidp := refs_proc hp
  have hsid : v.sid p = some (v.proc p).pPidp := by
    unfold Tables.sid
    rw [hs, Option.map_some, hsess]
  have hrefs : (v.pidHold (v.proc p).pPidp).refs A (p :: S) = update (v.refs A S) (v.proc p).pPidp
        (v.refs A S (v.proc p).pPidp + 1) := by
    funext k
    change v.refs A (p :: S) k = _
    by_cases hk : k = (v.proc p).pPidp
    · have hyes : ∃ q ∈ p :: S, v.sid q = some (v.proc p).pPidp :=
        ⟨p, mem_cons_self .., hsid⟩
      have hno : ¬ ∃ q ∈ S, v.sid q = some (v.proc p).pPidp := by
        rintro ⟨q, hq, hqs⟩
        exact hnew q hq hqs
      rw [hk, update_self]
      unfold refs
      rw [if_pos hyes, if_neg hno]
    · rw [update_of_ne hk]
      refine refs_congr Iff.rfl Iff.rfl ?_
      constructor
      · rintro ⟨q, hq, hqk⟩
        rcases mem_cons.mp hq with rfl | hq
        · rw [hsid] at hqk
          exact absurd (some.inj hqk).symm hk
        · exact ⟨q, hq, hqk⟩
      · rintro ⟨q, hq, hqk⟩
        exact ⟨q, mem_cons_of_mem p hq, hqk⟩
  have hle : ∀ k, 0 < (v.pidHold (v.proc p).pPidp).refs A (p :: S) k → 0 < v.refs A S k := by
    intro k hk
    rw [hrefs] at hk
    by_cases hkp : k = (v.proc p).pPidp
    · rwa [hkp]
    · rwa [update_of_ne hkp] at hk
  refine ⟨⟨B, ?_⟩, ⟨G, ?_⟩, ⟨F, ?_⟩, ?_⟩
  · rw [hrefs]
    exact hB.hold hpos
  · exact hG.congr hle (fun _ _ => rfl) (fun k _ => field_update Pid.pidPglink (by rfl) k)
      fun _ _ => rfl
  · exact hF.congr hle (fun _ _ => rfl) (field_update Pid.pidPrinactive rfl)
      (field_update Pid.pidPrslot rfl) rfl rfl rfl rfl
  · have hparts : Sessions v A (p :: S) := by
      refine ⟨nodup_cons.mpr ⟨hout, h.sessions.nodup⟩, fun n hn => ?_,
        fun n hn => ?_, fun n hn k hk => ?_, fun n hn m hm heq => ?_,
        fun n hn m hm heq => ?_⟩
      · rcases mem_cons.mp hn with rfl | hn
        · exact hp
        · exact h.sessions.sub n hn
      · rcases mem_cons.mp hn with rfl | hn
        · exact ⟨s, hs⟩
        · exact h.sessions.has n hn
      · rw [countP_cons, hs]
        by_cases hks : k = s
        · have hzero : S.countP (fun m => decide ((v.proc m).pSessp = some s)) = 0 := by
            rw [countP_eq_zero]
            intro m hm hms
            exact hfresh m hm (of_decide_eq_true hms)
          simp only [hks, hsess, hzero, decide_true, if_true]
        · have hne : decide (some s = some k) = false := by
            rw [decide_eq_false_iff_not]
            exact fun heq => hks (some.inj heq).symm
          simp only [hne, Bool.false_eq_true, if_false, Nat.add_zero]
          rcases mem_cons.mp hn with rfl | hn
          · rw [hs] at hk
            exact absurd (some.inj hk).symm hks
          · exact h.sessions.ref n hn k hk
      · rcases mem_cons.mp hn with rfl | hnS
        · rcases mem_cons.mp hm with rfl | hmS
          · rfl
          · rw [hsid] at heq
            exact absurd heq.symm (hnew m hmS)
        · rcases mem_cons.mp hm with rfl | hmS
          · rw [hsid] at heq
            exact absurd heq (hnew n hnS)
          · exact h.sessions.one n hnS m hmS heq
      · rcases mem_cons.mp hn with rfl | hnS
        · have hmA : m ∈ A := by
            rcases mem_cons.mp hm with rfl | hm
            · exact hp
            · exact h.sessions.sub m hm
          rw [hsid] at heq
          rw [hF.inj n hp m hmA (some.inj heq)]
        · rcases mem_cons.mp hm with rfl | hmS
          · exact absurd heq (hnew n hnS)
          · exact h.sessions.leader n hnS m hmS heq
    exact hparts.congr (fun _ _ => rfl) (fun _ _ => rfl) fun _ _ _ _ => rfl

end Members

end Procs
end Svr4
