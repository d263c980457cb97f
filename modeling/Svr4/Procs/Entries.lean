import Svr4.Procs.Members

/-!
# The table of processes

`pid_assign` puts a process in the table, and the end of `pid_exit`
takes it out again.
-/

namespace Svr4
namespace Procs

open Function List Tables Option

variable {prp pidp mpid : Nat}

section Entries

variable {c : Conf} {v v' : Tables} {A S : List Nat} {p g : Nat}

/-!
## A new process
-/

structure Assigned (v : Tables) (A S : List Nat) (mpid pep : Nat)
    (next : Option Nat) : Prop where
  pid : ∀ g, 0 < v.refs A S g → (v.pid g).pidId ≠ mpid
  free : v.procentfree = some pep
  entry : v.procdir pep = .next next

theorem pidAssign_spec (h : Sound c v A S) {nolast refused : Bool} {r : Tables × Option Nat}
    (hrun : v.pidAssign c nolast refused prp pidp = .ok r) : r = (v, none) ∨ ∃ mpid pep next,
      r = (v.enter mpid pep next prp pidp, some mpid) ∧ Assigned v A S mpid pep next := by
  obtain ⟨B, hB⟩ := h.kept
  unfold pidAssign at hrun
  split at hrun
  · exact .inl (Except.ok.inj hrun).symm
  · split at hrun
    · exact .inl (Except.ok.inj hrun).symm
    · cases hseek : v.seekPid MAXPID v.mpid with
      | error e =>
        rw [hseek] at hrun
        cases hrun
      | ok mpid =>
        rw [hseek] at hrun
        cases hfree : v.procentfree with
        | none =>
          rw [hfree] at hrun
          cases hrun
        | some pep =>
          rw [hfree] at hrun
          simp only at hrun
          cases hentry : v.procdir pep with
          | proc p =>
            rw [hentry] at hrun
            cases hrun
          | next next =>
            rw [hentry] at hrun
            exact .inr ⟨mpid, pep, next, (Except.ok.inj hrun).symm,
              fun g hg => hB.seekPid hseek g hg, hfree, hentry⟩

theorem pidAssign_ok (h : Sound c v A S) (nolast refused : Bool) (prp pidp : Nat)
    (hpid : v.seekPid MAXPID v.mpid = .ok mpid) :
    ∃ r, v.pidAssign c nolast refused prp pidp = .ok r := by
  obtain ⟨F, hF⟩ := h.slots
  unfold pidAssign
  split
  · exact ⟨_, rfl⟩
  · rename_i hfull
    split
    · exact ⟨_, rfl⟩
    · have hroom := hF.room
      have hfree := hF.free
      simp only [hpid, bind, Except.bind]
      cases F with
      | nil =>
        exfalso
        rw [length_nil] at hroom
        exact hfull ⟨by omega, .inl (by omega)⟩
      | cons pep F =>
        obtain ⟨n, hn⟩ := hF.next pep (mem_cons_self ..)
        rw [hfree.1]
        simp only [hn]
        exact ⟨_, rfl⟩

theorem enter_spec (h : Sound c v A S) {pep : Nat} {next : Option Nat}
    (hfound : Assigned v A S mpid pep next) (hprp : prp ∉ A) (hpidp : v.refs A S pidp = 0) :
    Sound c (v.enter mpid pep next prp pidp) (prp :: A) S := by
  obtain ⟨B, hB⟩ := h.kept
  obtain ⟨G, hG⟩ := h.groups
  obtain ⟨F, hF⟩ := h.slots
  let v' := v.enter mpid pep next prp pidp
  have hproc : ∀ q ∈ A, v'.proc q = v.proc q := by
    intro q hq
    apply update_of_ne
    rintro rfl
    exact hprp hq
  have hself : v'.proc prp = ⟨.sidl, pidp, none, none, none⟩ := update_self _ _ _
  have hpid : ∀ k, k ≠ pidp → v'.pid k = v.pid k := fun k hk =>
    update_of_ne hk _ _
  have hpidSelf : v'.pid pidp = ⟨false, false, 1, pep, mpid, none⟩ :=
    update_self _ _ _
  have hunused : ¬ ((∃ p ∈ A, (v.proc p).pPidp = pidp) ∨
      (∃ p ∈ A, (v.proc p).pPgidp = some pidp) ∨ ∃ p ∈ S, v.sid p = some pidp) := by
    rw [← refs_pos]
    omega
  rw [not_or, not_or] at hunused
  have hsid : ∀ q ∈ S, v'.sid q = v.sid q := by
    intro q hq
    unfold sid
    rw [hproc q (h.sessions.sub q hq)]
    rfl
  have hsids : ∀ k, (∃ q ∈ S, v'.sid q = some k) ↔ ∃ q ∈ S, v.sid q = some k := fun k =>
    exists_congr fun q => and_congr_right fun hq => by rw [hsid q hq]
  have hgroups : ∀ k, (∃ q ∈ prp :: A, (v'.proc q).pPgidp = some k) ↔
      ∃ q ∈ A, (v.proc q).pPgidp = some k := by
    intro k
    constructor
    · rintro ⟨q, hq, hqk⟩
      rcases mem_cons.mp hq with rfl | hq
      · rw [hself] at hqk
        cases hqk
      · exact ⟨q, hq, by rw [← hproc q hq]; exact hqk⟩
    · rintro ⟨q, hq, hqk⟩
      exact ⟨q, mem_cons_of_mem prp hq, by rw [hproc q hq]; exact hqk⟩
  have hprocs : ∀ k, (∃ q ∈ prp :: A, (v'.proc q).pPidp = k) ↔
      k = pidp ∨ ∃ q ∈ A, (v.proc q).pPidp = k := by
    intro k
    constructor
    · rintro ⟨q, hq, hqk⟩
      rcases mem_cons.mp hq with rfl | hq
      · rw [hself] at hqk
        exact .inl hqk.symm
      · exact .inr ⟨q, hq, by rw [← hproc q hq]; exact hqk⟩
    · rintro (rfl | ⟨q, hq, hqk⟩)
      · exact ⟨prp, mem_cons_self .., by rw [hself]⟩
      · exact ⟨q, mem_cons_of_mem prp hq, by rw [hproc q hq]; exact hqk⟩
  have hrefs : v'.refs (prp :: A) S = update (v.refs A S) pidp 1 := by
    funext k
    by_cases hk : k = pidp
    · rw [hk, update_self]
      have hno : ¬ ∃ q ∈ prp :: A, (v'.proc q).pPgidp = some pidp := by
        rw [hgroups]
        exact hunused.2.1
      have hno' : ¬ ∃ q ∈ S, v'.sid q = some pidp := by
        rw [hsids]
        exact hunused.2.2
      unfold refs
      rw [if_pos ((hprocs pidp).mpr (.inl rfl)), if_neg hno, if_neg hno']
    · rw [update_of_ne hk]
      refine refs_congr ?_ (hgroups k) (hsids k)
      rw [hprocs]
      exact or_iff_right hk
  have hle : ∀ k, k ≠ pidp → 0 < v'.refs (prp :: A) S k → 0 < v.refs A S k := by
    intro k hk hpos
    rwa [hrefs, update_of_ne hk] at hpos
  have hGout : ∀ k, prp ∉ G k := fun k hmem => hprp ((hG.mem k prp).mp hmem).1
  refine ⟨?_, ⟨G, fun k hk => ?_, fun k q => ?_⟩, ?_, ?_⟩
  · rw [hrefs]
    exact hB.enter hpidp hfound.pid
  · by_cases hkp : k = pidp
    · have hnil : G k = [] := by
        rw [eq_nil_iff_forall_not_mem]
        intro q hq
        rw [hkp] at hq
        exact hunused.2.1 ⟨q, (hG.mem pidp q).mp hq⟩
      rw [hnil, hkp, hpidSelf]
      rfl
    · rw [hpid k hkp]
      exact (hG.chain k (hle k hkp hk)).update_of_notMem (hGout k)
  · rw [hG.mem, mem_cons]
    by_cases hq : q = prp
    · rw [hq, hself]
      exact iff_of_false (fun hmem => hprp hmem.1) fun hmem => nomatch hmem.2
    · constructor
      · rintro ⟨hmem, hk⟩
        exact ⟨.inr hmem, by rw [hproc q hmem]; exact hk⟩
      · rintro ⟨rfl | hmem, hk⟩
        · exact absurd rfl hq
        · exact ⟨hmem, by rw [← hproc q hmem]; exact hk⟩
  · obtain ⟨F', hFeq⟩ : ∃ F', F = pep :: F' := by
      have hfree := hF.free
      rw [hfound.free] at hfree
      cases F with
      | nil => cases hfree
      | cons k F' => exact ⟨F', by rw [some.inj hfree.1]⟩
    have hfree := hF.free
    have hnext := hF.next
    have hroom := hF.room
    have hnodup := hF.free.nodup
    rw [hFeq] at hfree hnext hroom hnodup
    have hpep : pep ∉ F' := (nodup_cons.mp hnodup).1
    have hnpidp : ∀ q ∈ A, (v.proc q).pPidp ≠ pidp := fun q hq heq =>
      hunused.1 ⟨q, hq, heq⟩
    have hdir : ∀ s, s ≠ pep → v'.procdir s = v.procdir s := fun s hs =>
      update_of_ne hs _ _
    refine ⟨F', fun q hq q' hq' heq => ?_, fun k hk => ?_, fun q hq => ?_, ?_,
      fun s hs => ?_, nodup_cons.mpr ⟨hprp, hF.nodup⟩, ?_, ?_, ?_⟩
    · rcases mem_cons.mp hq with rfl | hqA
      · rcases mem_cons.mp hq' with rfl | hqA'
        · rfl
        · rw [hself, hproc q' hqA'] at heq
          exact absurd heq.symm (hnpidp q' hqA')
      · rcases mem_cons.mp hq' with rfl | hqA'
        · rw [hself, hproc q hqA] at heq
          exact absurd heq (hnpidp q hqA)
        · rw [hproc q hqA, hproc q' hqA'] at heq
          exact hF.inj q hqA q' hqA' heq
    · rw [hprocs]
      by_cases hkp : k = pidp
      · rw [hkp, hpidSelf]
        exact iff_of_true rfl (.inl rfl)
      · rw [hpid k hkp, hF.active k (hle k hkp hk)]
        exact (or_iff_right hkp).symm
    · rcases mem_cons.mp hq with rfl | hqA
      · rw [hself, hpidSelf]
        exact update_self _ _ _
      · have hslot := hF.slot q hqA
        rw [hproc q hqA, hpid _ (hnpidp q hqA), hdir]
        · exact hslot
        · intro heq
          rw [heq, hfound.entry] at hslot
          cases hslot
    · have hchain := hfree.2
      have hnextEq : v.nextEntry pep = next := by
        unfold nextEntry
        rw [hfound.entry]
      rw [hnextEq] at hchain
      refine hchain.congr fun s hs => ?_
      have hsp : s ≠ pep := by
        rintro rfl
        exact hpep hs
      unfold nextEntry
      rw [hdir s hsp]
    · obtain ⟨n, hn⟩ := hnext s (mem_cons_of_mem pep hs)
      refine ⟨n, ?_⟩
      rw [hdir]
      · exact hn
      · rintro rfl
        exact hpep hs
    · exact congrArg (prp :: ·) hF.practive
    · exact congrArg (· + 1) hF.nproc
    · rw [length_cons] at hroom
      change v.nproc + 1 + F'.length = c.vProc
      omega
  · refine ⟨h.sessions.nodup, fun q hq => mem_cons_of_mem prp (h.sessions.sub q hq),
      fun q hq => ?_, fun q hq s hs => ?_, fun q hq q' hq' heq => ?_,
      fun q hq q' hq' heq => ?_⟩
    · rw [hproc q (h.sessions.sub q hq)]
      exact h.sessions.has q hq
    · rw [hproc q (h.sessions.sub q hq)] at hs
      have href := h.sessions.ref q hq s hs
      change (v.sess s).sRef = _
      rw [href]
      refine countP_congr fun m hm => ?_
      rw [hproc m (h.sessions.sub m hm)]
    · rw [hsid q hq, hsid q' hq'] at heq
      rw [hproc q (h.sessions.sub q hq), hproc q' (h.sessions.sub q' hq')]
      exact h.sessions.one q hq q' hq' heq
    · rw [hsid q hq, hproc q' (h.sessions.sub q' hq')] at heq
      rw [hproc q (h.sessions.sub q hq), hproc q' (h.sessions.sub q' hq')]
      exact h.sessions.leader q hq q' hq' heq

/-!
## The end of a process
-/

structure Frees (v v' : Tables) : Prop where
  proc : v'.proc = v.proc
  pChild : v'.pChild = v.pChild
  sess : v'.sess = v.sess
  orphaned : ∀ k, (v'.pid k).pidPgorphaned = (v.pid k).pidPgorphaned

theorem pidFree_spec (h : Sound c v A S) (hp : p ∈ A) (hout : p ∉ S)
    (hnone : (v.proc p).pPgidp = none) :
    ∃ v', v.pidFree p = .ok v' ∧ Sound c v' (A.erase p) S ∧ Frees v v' := by
  obtain ⟨B, hB⟩ := h.kept
  obtain ⟨G, hG⟩ := h.groups
  obtain ⟨F, hF⟩ := h.slots
  have hnodup := hF.nodup
  have hin : ∀ q, q ∈ A.erase p ↔ q ≠ p ∧ q ∈ A := fun q => hnodup.mem_erase_iff
  have hpos : 0 < v.refs A S (v.proc p).pPidp := refs_proc hp
  generalize hgdef : (v.proc p).pPidp = g at hpos
  have hsole : ∀ q ∈ A, (v.proc q).pPidp = g → q = p := fun q hq heq =>
    hF.inj q hq p hp (heq.trans hgdef.symm)
  let v₁ := v.setPid g { v.pid g with pidPrinactive := true }
  let v₂ : Tables := { v₁ with
    procdir := update v₁.procdir (v₁.pid g).pidPrslot (.next v₁.procentfree)
    procentfree := some (v₁.pid g).pidPrslot }
  have hB₂ : Kept v₂ B (v.refs A S) :=
    hB.congr (fun _ => rfl) (field_update Pid.pidId rfl) (field_update Pid.pidRef rfl)
      rfl rfl rfl
  obtain ⟨v₃, B', hrele, ⟨hsame, pid, link, hash, heq⟩, hB₃⟩ := hB₂.rele hpos
  have hpractive : p ∈ v₃.practive := by
    rw [heq]
    change p ∈ v.practive
    rw [hF.practive]
    exact hp
  let v₄ : Tables := { v₃ with practive := v₃.practive.erase p, nproc := v₃.nproc - 1 }
  have hrun : v.pidFree p = .ok v₄ := by
    have hstep : v.pidFree p = (do
        let w ← v₂.pidRele g
        if p ∈ w.practive then
          return { w with practive := w.practive.erase p, nproc := w.nproc - 1 }
        else throw "practive") := by
      rw [pidFree, hgdef]
    rw [hstep, hrele]
    simp only [bind, Except.bind, if_pos hpractive]
    rfl
  have hproc : v₄.proc = v.proc := by
    simp only [v₄, heq]
    rfl
  have hsess : v₄.sess = v.sess := by
    simp only [v₄, heq]
    rfl
  have hsid : ∀ q, v₄.sid q = v.sid q := by
    intro q
    unfold sid
    rw [hproc, hsess]
  have hpid : ∀ k, v₄.pid k = v₃.pid k := fun _ => rfl
  have hslot : ∀ k, (v₄.pid k).pidPrslot = (v.pid k).pidPrslot := by
    intro k
    obtain ⟨n, hk⟩ := hsame k
    rw [hpid, hk]
    exact field_update Pid.pidPrslot (by rfl) k
  have hhead : ∀ k, (v₄.pid k).pidPglink = (v.pid k).pidPglink := by
    intro k
    obtain ⟨n, hk⟩ := hsame k
    rw [hpid, hk]
    exact field_update Pid.pidPglink (by rfl) k
  have horphaned : ∀ k, (v₄.pid k).pidPgorphaned = (v.pid k).pidPgorphaned := by
    intro k
    obtain ⟨n, hk⟩ := hsame k
    rw [hpid, hk]
    exact field_update Pid.pidPgorphaned (by rfl) k
  have hslotG : (v₁.pid g).pidPrslot = (v.pid g).pidPrslot :=
    field_update Pid.pidPrslot (by rfl) g
  have hdir : v₄.procdir = update v.procdir (v.pid g).pidPrslot (.next v.procentfree) := by
    simp only [v₄, heq, v₂, hslotG]
    rfl
  have hfree : v₄.procentfree = some (v.pid g).pidPrslot := by
    simp only [v₄, heq, v₂, hslotG]
  have hgroups : ∀ k, (∃ q ∈ A.erase p, (v₄.proc q).pPgidp = some k) ↔
      ∃ q ∈ A, (v.proc q).pPgidp = some k := by
    intro k
    rw [hproc]
    constructor
    · rintro ⟨q, hq, hqk⟩
      exact ⟨q, ((hin q).mp hq).2, hqk⟩
    · rintro ⟨q, hq, hqk⟩
      refine ⟨q, (hin q).mpr ⟨?_, hq⟩, hqk⟩
      rintro rfl
      rw [hnone] at hqk
      cases hqk
  have hsids : ∀ k, (∃ q ∈ S, v₄.sid q = some k) ↔ ∃ q ∈ S, v.sid q = some k := fun k =>
    exists_congr fun q => and_congr_right fun _ => by rw [hsid]
  have hprocs : ∀ k, (∃ q ∈ A.erase p, (v₄.proc q).pPidp = k) ↔
      k ≠ g ∧ ∃ q ∈ A, (v.proc q).pPidp = k := by
    intro k
    rw [hproc]
    constructor
    · rintro ⟨q, hq, rfl⟩
      obtain ⟨hqp, hqA⟩ := (hin q).mp hq
      exact ⟨fun heq => hqp (hsole q hqA heq), q, hqA, rfl⟩
    · rintro ⟨hk, q, hq, rfl⟩
      refine ⟨q, (hin q).mpr ⟨?_, hq⟩, rfl⟩
      rintro rfl
      exact hk hgdef
  have hrefs : v₄.refs (A.erase p) S = update (v.refs A S) g (v.refs A S g - 1) := by
    funext k
    by_cases hk : k = g
    · rw [hk, update_self]
      have hno : ¬ ∃ q ∈ A.erase p, (v₄.proc q).pPidp = g := by
        rw [hprocs]
        exact fun hboth => hboth.1 rfl
      have hyes : ∃ q ∈ A, (v.proc q).pPidp = g := ⟨p, hp, hgdef⟩
      unfold refs
      rw [if_neg hno, if_pos hyes, if_congr (hgroups g) rfl rfl, if_congr (hsids g) rfl rfl]
      omega
    · rw [update_of_ne hk]
      refine refs_congr ?_ (hgroups k) (hsids k)
      rw [hprocs]
      exact and_iff_right hk
  have hle : ∀ k, 0 < v₄.refs (A.erase p) S k → 0 < v.refs A S k := by
    intro k hk
    rw [hrefs] at hk
    by_cases hkg : k = g
    · rwa [hkg]
    · rwa [update_of_ne hkg] at hk
  have hnproc : v₄.nproc = A.length - 1 := by
    have hn : v₄.nproc = v.nproc - 1 := by
      simp only [v₄, heq]
      rfl
    rw [hn, hF.nproc]
  have hsub : ∀ q ∈ S, q ∈ A.erase p := by
    intro q hq
    refine (hin q).mpr ⟨?_, h.sessions.sub q hq⟩
    rintro rfl
    exact hout hq
  have hlength : (A.erase p).length = A.length - 1 := length_erase_of_mem hp
  have hpositive : 0 < A.length := length_pos_of_mem hp
  refine ⟨v₄, hrun, ⟨⟨B', ?_⟩, ⟨G, ?_⟩, ⟨(v.pid g).pidPrslot :: F, ?_⟩, ?_⟩,
    hproc, ?_, hsess, horphaned⟩
  · have hk₄ : ∀ b, (B' b).length ≤ 3 * (A.erase p).length := by
      intro b
      have hB₄ : Kept v₃ B' (v₃.refs (A.erase p) S) := by
        have hfun : v₃.refs (A.erase p) S = update (v.refs A S) g (v.refs A S g - 1) := hrefs
        rw [hfun]
        exact hB₃
      exact hB₄.length_le hsub h.sessions.nodup b
    rw [hrefs]
    refine ⟨hB₃.chain, hB₃.place, hB₃.one, hB₃.used, hB₃.ref, fun b => ?_⟩
    have hb := hk₄ b
    omega
  · refine ⟨fun k hk => ?_, fun k q => ?_⟩
    · rw [hhead]
      refine (hG.chain k (hle k hk)).congr fun q _ => ?_
      simp only [v₄, heq]
      rfl
    · rw [hG.mem, hproc, hin]
      constructor
      · rintro ⟨hq, hqk⟩
        refine ⟨⟨?_, hq⟩, hqk⟩
        rintro rfl
        rw [hnone] at hqk
        cases hqk
      · rintro ⟨⟨_, hq⟩, hqk⟩
        exact ⟨hq, hqk⟩
  · have hnotF : (v.pid g).pidPrslot ∉ F := by
      intro hmem
      obtain ⟨n, hn⟩ := hF.next _ hmem
      have hslotP := hF.slot p hp
      rw [hgdef, hn] at hslotP
      cases hslotP
    have hdirOf : ∀ s, s ≠ (v.pid g).pidPrslot → v₄.procdir s = v.procdir s := by
      intro s hs
      rw [hdir, update_of_ne hs]
    refine ⟨fun q hq q' hq' heq' => ?_, fun k hk => ?_, fun q hq => ?_, ?_, fun s hs => ?_,
      hnodup.erase p, ?_, ?_, ?_⟩
    · rw [hproc] at heq'
      exact hF.inj q ((hin q).mp hq).2 q' ((hin q').mp hq').2 heq'
    · rw [hprocs]
      obtain ⟨n, hkn⟩ := hsame k
      by_cases hkg : k = g
      · rw [hkg]
        refine iff_of_false ?_ fun hboth => hboth.1 rfl
        obtain ⟨m, hm⟩ := hsame g
        rw [hpid, hm]
        have hset : (v₂.pid g).pidPrinactive = true := by
          simp only [v₂, v₁, setPid, update_self]
        simp only [hset]
        exact Bool.noConfusion
      · have hkeep : (v₄.pid k).pidPrinactive = (v.pid k).pidPrinactive := by
          rw [hpid, hkn]
          simp only [v₂, v₁, setPid, update_of_ne hkg]
        rw [hkeep, hF.active k (hle k hk)]
        exact (and_iff_right hkg).symm
    · obtain ⟨hqp, hqA⟩ := (hin q).mp hq
      have hslotQ := hF.slot q hqA
      rw [hproc, hslot, hdirOf]
      · exact hslotQ
      · intro heq'
        have hslotP := hF.slot p hp
        rw [heq'] at hslotQ
        rw [hgdef, hslotQ] at hslotP
        exact hqp (Procent.proc.inj hslotP)
    · refine ⟨hfree, ?_⟩
      have hself : v₄.nextEntry (v.pid g).pidPrslot = v.procentfree := by
        unfold nextEntry
        rw [hdir, update_self]
      rw [hself]
      refine hF.free.congr fun s hs => ?_
      have hne : s ≠ (v.pid g).pidPrslot := by
        rintro rfl
        exact hnotF hs
      unfold nextEntry
      rw [hdirOf s hne]
    · rcases mem_cons.mp hs with rfl | hs
      · exact ⟨v.procentfree, by rw [hdir, update_self]⟩
      · obtain ⟨n, hn⟩ := hF.next s hs
        refine ⟨n, ?_⟩
        rw [hdirOf]
        · exact hn
        · rintro rfl
          exact hnotF hs
    · have hpr : v₄.practive = v.practive.erase p := by
        simp only [v₄, heq]
        rfl
      rw [hpr, hF.practive]
    · rw [hnproc, hlength]
    · have hroom := hF.room
      have hn := hF.nproc
      rw [hnproc, length_cons]
      omega
  · refine ⟨h.sessions.nodup, hsub, fun q hq => ?_, fun q hq s hs => ?_,
      fun q hq q' hq' heq' => ?_, fun q hq q' hq' heq' => ?_⟩
    · rw [hproc]
      exact h.sessions.has q hq
    · rw [hproc] at hs ⊢
      rw [hsess]
      exact h.sessions.ref q hq s hs
    · rw [hsid, hsid] at heq'
      rw [hproc]
      exact h.sessions.one q hq q' hq' heq'
    · rw [hsid, hproc] at heq'
      rw [hproc]
      exact h.sessions.leader q hq q' hq' heq'
  · simp only [v₄, heq]
    rfl

/-!
## Finding processes and groups
-/

theorem prfind_spec (h : Sound c v A S) (pid : Nat) :
    ∃ r, v.prfind pid = .ok r ∧ ∀ p, r = some p ↔ p ∈ A ∧ v.pPid p = pid := by
  obtain ⟨B, hB⟩ := h.kept
  obtain ⟨F, hF⟩ := h.slots
  obtain ⟨x, hx, hfound⟩ := hB.lookup pid
  have hhas : ∀ p ∈ A, v.pPid p = pid → x = some (v.proc p).pPidp := fun p hp heq =>
    (hfound _).mpr ⟨refs_proc hp, heq⟩
  unfold prfind
  simp only [hx, bind, Except.bind]
  cases x with
  | none =>
    refine ⟨none, rfl, fun p => iff_of_false nofun ?_⟩
    rintro ⟨hp, heq⟩
    cases hhas p hp heq
  | some g =>
    obtain ⟨hpos, hid⟩ := (hfound g).mp rfl
    have hactive := hF.active g hpos
    cases hinactive : (v.pid g).pidPrinactive with
    | true =>
      rw [hinactive] at hactive
      simp only [hinactive, if_true]
      refine ⟨none, rfl, fun p => iff_of_false nofun ?_⟩
      rintro ⟨hp, heq⟩
      have hg := some.inj (hhas p hp heq)
      cases hactive.mpr ⟨p, hp, hg.symm⟩
    | false =>
      obtain ⟨p, hp, hpg⟩ := hactive.mp hinactive
      have hslot := hF.slot p hp
      rw [hpg] at hslot
      simp only [hinactive, Bool.false_eq_true, if_false, hslot]
      refine ⟨some p, rfl, fun q => ⟨fun heq => ?_, ?_⟩⟩
      · rw [← some.inj heq]
        refine ⟨hp, ?_⟩
        unfold pPid
        rw [hpg]
        exact hid
      · rintro ⟨hq, heq⟩
        have hg := some.inj (hhas q hq heq)
        rw [hF.inj p hp q hq (hpg.trans hg)]

theorem pgfind_spec (h : Sound c v A S) (pgid : Nat) :
    ∃ r l, v.pgfind pgid = .ok r ∧ Chain v.pPglink r l none ∧ l.Nodup ∧
      ∀ p, p ∈ l ↔ p ∈ A ∧ ∃ g, (v.proc p).pPgidp = some g ∧ (v.pid g).pidId = pgid := by
  obtain ⟨B, hB⟩ := h.kept
  obtain ⟨G, hG⟩ := h.groups
  obtain ⟨x, hx, hfound⟩ := hB.lookup pgid
  have hhas : ∀ p ∈ A, ∀ g, (v.proc p).pPgidp = some g → (v.pid g).pidId = pgid →
      x = some g := fun p hp g hg heq => (hfound g).mpr ⟨refs_group hp hg, heq⟩
  unfold pgfind
  simp only [hx, bind, Except.bind]
  cases x with
  | none =>
    refine ⟨none, [], rfl, rfl, nodup_nil, fun p => iff_of_false nofun ?_⟩
    rintro ⟨hp, g, hg, heq⟩
    cases hhas p hp g hg heq
  | some g =>
    obtain ⟨hpos, hid⟩ := (hfound g).mp rfl
    have hchain := hG.chain g hpos
    refine ⟨(v.pid g).pidPglink, G g, rfl, hchain, hchain.nodup, fun p => ?_⟩
    rw [hG.mem]
    refine and_congr_right fun hp => ⟨fun hg => ⟨g, hg, hid⟩, ?_⟩
    rintro ⟨g', hg', heq⟩
    rw [some.inj (hhas p hp g' hg' heq)]
    exact hg'

end Entries

end Procs
end Svr4
