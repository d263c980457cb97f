import Svr4.Procs.Orphans

/-!
# The lives of processes

A process is made by `newproc`, may go to a session of its own, exits, and
is freed.  Each of these leaves the tables in order, where the process does not
carry the links of its children's groups away with it.
-/

namespace Svr4
namespace Procs

open Function List Option

section Lives

variable {c : Conf} {v v' : Tables} {A S : List Nat} {p g : Nat}

theorem Sound.congr (h : Sound c v A S) (hpidp : ∀ q ∈ A, (v'.proc q).pPidp = (v.proc q).pPidp)
    (hpgidp : ∀ q ∈ A, (v'.proc q).pPgidp = (v.proc q).pPgidp)
    (hsessp : ∀ q ∈ S, (v'.proc q).pSessp = (v.proc q).pSessp)
    (hsess : ∀ q ∈ S, ∀ s, (v.proc q).pSessp = some s → v'.sess s = v.sess s)
    (hpid : ∀ k, ∃ b, v'.pid k = { v.pid k with pidPgorphaned := b })
    (hrest : ∃ proc pChild pid sess, v' = { v with
      proc := proc, pChild := pChild, pid := pid, sess := sess }) : Sound c v' A S := by
  obtain ⟨B, hB⟩ := h.kept
  obtain ⟨G, hG⟩ := h.groups
  obtain ⟨F, hF⟩ := h.slots
  obtain ⟨proc, pChild, pid, sess, heq⟩ := hrest
  have hsid : ∀ q ∈ S, v'.sid q = v.sid q := by
    intro q hq
    obtain ⟨s, hs⟩ := h.sessions.has q hq
    unfold Tables.sid
    rw [hsessp q hq, hs, Option.map_some, Option.map_some, hsess q hq s hs]
  have hrefs : ∀ k, v'.refs A S k = v.refs A S k := by
    intro k
    refine refs_congr ?_ ?_ ?_
    · exact exists_congr fun q => and_congr_right fun hq => by rw [hpidp q hq]
    · exact exists_congr fun q => and_congr_right fun hq => by rw [hpgidp q hq]
    · exact exists_congr fun q => and_congr_right fun hq => by rw [hsid q hq]
  have hfield : ∀ {α : Type} (f : Pid → α)
      (_ : ∀ x b, f { x with pidPgorphaned := b } = f x) (k : Nat),
      f (v'.pid k) = f (v.pid k) := by
    intro α f hf k
    obtain ⟨b, hb⟩ := hpid k
    rw [hb, hf]
  refine ⟨⟨B, hB.congr hrefs (hfield Pid.pidId fun _ _ => rfl)
      (hfield Pid.pidRef fun _ _ => rfl) ?_ ?_ ?_⟩,
    ⟨G, hG.congr (fun k hk => by rwa [hrefs] at hk) (fun q _ => ?_)
      (fun k _ => hfield Pid.pidPglink (fun _ _ => rfl) k) hpgidp⟩,
    ⟨F, hF.congr (fun k hk => by rwa [hrefs] at hk) hpidp
      (hfield Pid.pidPrinactive fun _ _ => rfl) (hfield Pid.pidPrslot fun _ _ => rfl)
      ?_ ?_ ?_ ?_⟩,
    h.sessions.congr hsessp hpidp hsess⟩
  all_goals rw [heq]

theorem pglinked_fields (hpar : ∀ q, (v'.proc q).pParent = (v.proc q).pParent)
    (hpgidp : ∀ q, (v'.proc q).pPgidp = (v.proc q).pPgidp)
    (hsessp : ∀ q, (v'.proc q).pSessp = (v.proc q).pSessp) (m : Nat) :
    v'.pglinked m = v.pglinked m := by
  unfold Tables.pglinked
  rw [hpar, hpgidp, hsessp]
  cases (v.proc m).pParent with
  | none => rfl
  | some q => simp only [hpgidp, hsessp]

theorem Family.no_child (h : Family v A) (hidle : (v.proc p).pStat.active = false) :
    ∀ m ∈ A, (v.proc m).pParent ≠ some p := by
  intro m hm hpar
  have hact := (h.parent m hm p hpar).2
  rw [hidle] at hact
  cases hact

/-!
## A new session
-/

theorem sessCreate_spec (h : Orderly c v A) (hp : p ∈ A) {sp : Nat}
    (hsp : ∀ q ∈ A, (v.proc q).pSessp ≠ some sp) (hlead : v.sid p ≠ some (v.proc p).pPidp)
    (halone : ∀ m ∈ A, (v.proc m).pPgidp = some (v.proc p).pPidp → m = p)
    (hfine : LeaveFine v A p) : ∃ v', v.sessCreate p sp = .ok v' ∧ Orderly c v' A := by
  obtain ⟨S, hS, hall⟩ := h.sound
  obtain ⟨g, hg⟩ := h.grouped p hp
  obtain ⟨v₁, hrun₁, hs₁, hmoves, hflags⟩ := pgexit_spec hS hp hg
  obtain ⟨v₂, hrun₂, hs₂, honly⟩ := sessRele_spec hs₁ (hall p hp)
  have hproc₂ : v₂.proc = update v.proc p { v.proc p with pPgidp := none } :=
    honly.proc.trans hmoves.proc
  have hout : p ∉ S.erase p := fun hmem =>
    (hS.sessions.nodup.mem_erase_iff.mp hmem).1 rfl
  have hrestNe : ∀ q ∈ S.erase p, q ≠ p := fun q hq heq => hout (heq ▸ hq)
  have hpidp₂ : (v₂.proc p).pPidp = (v.proc p).pPidp := by
    rw [hproc₂]
    exact field_update Proc.pPidp (by rfl) p
  have hnotsp : ∀ q ∈ S.erase p, (v₂.proc q).pSessp ≠ some sp := by
    intro q hq
    rw [hproc₂, update_of_ne (hrestNe q hq)]
    exact hsp q (hS.sessions.sub q (mem_of_mem_erase hq))
  -- The new session is set up before the process joins its group.
  let v₃ : Tables := { v₂ with sess := update v₂.sess sp ⟨1, (v₂.proc p).pPidp⟩ }.setProc
    p { v₂.proc p with pSessp := some sp }
  have hproc₃ : v₃.proc = update v₂.proc p { v₂.proc p with pSessp := some sp } :=
    rfl
  have hs₃ : Sound c v₃ A (S.erase p) := by
    refine hs₂.congr (fun q _ => field_update Proc.pPidp (by rfl) q)
      (fun q _ => field_update Proc.pPgidp (by rfl) q) (fun q hq => ?_)
      (fun q hq s hs => ?_) (fun k => ⟨(v₂.pid k).pidPgorphaned, rfl⟩)
      ⟨_, _, _, _, rfl⟩
    · rw [hproc₃, update_of_ne (hrestNe q hq)]
    · apply update_of_ne
      rintro rfl
      exact hnotsp q hq hs
  have hpidp₃ : (v₃.proc p).pPidp = (v.proc p).pPidp :=
    (field_update Proc.pPidp (by rfl) p).trans hpidp₂
  have hpgidp₃ : (v₃.proc p).pPgidp = none := by
    rw [hproc₃, update_self, hproc₂, update_self]
  have hpos₃ : 0 < v₃.refs A (S.erase p) (v.proc p).pPidp := by
    rw [← hpidp₃]
    exact refs_proc hp
  obtain ⟨hs₄, hmoves₄, hflags₄⟩ := pgjoin_spec hs₃ hp hpgidp₃ hpos₃
  let v₄ := v₃.pgjoin p (v.proc p).pPidp
  have hproc₄ : v₄.proc = update v.proc p { v.proc p with
      pPgidp := some (v.proc p).pPidp, pSessp := some sp } := by
    rw [hmoves₄.proc, hproc₃, hproc₂]
    simp only [update_self, update_idem]
  have hsess₄ : v₄.sess = update v₂.sess sp ⟨1, (v.proc p).pPidp⟩ := by
    rw [hmoves₄.sess, ← hpidp₂]
    rfl
  have hsidEq : ∀ q ∈ A, q ≠ p → v₄.sid q = v.sid q := by
    intro q hq hqp
    obtain ⟨s, hs⟩ := hS.sessions.has q (hall q hq)
    have hne : s ≠ sp := by
      rintro rfl
      exact hsp q hq hs
    unfold Tables.sid
    rw [hproc₄, update_of_ne hqp, hs, hsess₄, Option.map_some, Option.map_some,
      update_of_ne hne, honly.2.1, hmoves.sess]
  have hself₄ : v₄.proc p = { v.proc p with
      pPgidp := some (v.proc p).pPidp, pSessp := some sp } := by
    rw [hproc₄, update_self]
  have hpidp₄ : (v₄.proc p).pPidp = (v.proc p).pPidp := by
    rw [hself₄]
  have hs₅ : Sound c (v₄.pidHold (v₄.proc p).pPidp) A (p :: S.erase p) := by
    refine sessStart_spec hs₄ hp hout (s := sp) ?_ ?_ (fun q hq => ?_) fun q hq => ?_
    · exact congrArg Proc.pSessp hself₄
    · rw [hpidp₄, hsess₄, update_self]
    · have hq' : v₄.proc q = v.proc q := by
        rw [hproc₄, update_of_ne (hrestNe q hq)]
      rw [hq']
      exact hsp q (hS.sessions.sub q (mem_of_mem_erase hq))
    · have hqS := mem_of_mem_erase hq
      rw [hsidEq q (hS.sessions.sub q hqS) (hrestNe q hq), hpidp₄]
      intro hqlead
      have hsame := hS.sessions.leader q hqS p (hall p hp) hqlead
      apply hlead
      rw [← hqlead]
      unfold Tables.sid
      rw [hsame]
  refine ⟨v₄.pidHold (v₄.proc p).pPidp, ?_, ⟨p :: S.erase p, hs₅, fun q hq => ?_⟩,
    fun m hm => ?_, fun m hm hled => ?_, ?_, ?_⟩
  · rw [hpidp₄]
    simp only [Tables.sessCreate, hrun₁, hrun₂, bind, Except.bind, v₄, v₃, hpidp₂]
    rfl
  · by_cases hqp : q = p
    · rw [hqp]
      exact mem_cons_self ..
    · exact mem_cons_of_mem p (hS.sessions.nodup.mem_erase_iff.mpr ⟨hqp, hall q hq⟩)
  · change ∃ g, (v₄.proc m).pPgidp = some g
    by_cases hmp : m = p
    · exact ⟨_, by rw [hmp, hself₄]⟩
    · rw [hproc₄, update_of_ne hmp]
      exact h.grouped m hm
  · change v₄.sid m = some (v₄.proc m).pPidp at hled
    change (v₄.proc m).pPgidp = some (v₄.proc m).pPidp
    by_cases hmp : m = p
    · rw [hmp, hself₄]
    · rw [hsidEq m hm hmp, hproc₄, update_of_ne hmp] at hled
      rw [hproc₄, update_of_ne hmp]
      exact h.led m hm hled
  · refine h.family.congr (fun m _ => ?_) (fun m _ hact => ?_) ?_
    · change (v₄.proc m).pParent = _
      rw [hproc₄]
      exact field_update Proc.pParent (by rfl) m
    · change (v₄.proc m).pStat.active = true
      rw [hproc₄]
      exact (congrArg Stat.active (field_update Proc.pStat (by rfl) m)).trans hact
    · have hchild₂ : v₂.pChild = v₁.pChild := by
        obtain ⟨_, _, pid, link, hash, sess, heq⟩ := honly
        rw [heq]
      exact hmoves₄.pChild.trans (hchild₂.trans hmoves.pChild)
  -- The flags: no child is linked through the process any more.
  · intro k hk
    change ∃ m ∈ A, (v₄.proc m).pPgidp = some k at hk
    have hflagHold : ((v₄.pidHold (v₄.proc p).pPidp).pid k).pidPgorphaned =
        (v₄.pid k).pidPgorphaned := field_update Pid.pidPgorphaned (by rfl) k
    rw [hflagHold]
    change (v₄.pid k).pidPgorphaned = true ↔
      ∀ m ∈ A, (v₄.proc m).pPgidp = some k → v₄.pglinked m = false
    have hflag₃ : ∀ k, (v₃.pid k).pidPgorphaned = (v₁.pid k).pidPgorphaned := by
      intro k
      obtain ⟨n, hn⟩ := honly.1 k
      change (v₂.pid k).pidPgorphaned = _
      rw [hn]
    have hnext : ∀ m, m ≠ p → (v.proc m).pParent ≠ some p →
        v₄.pglinked m = v.pglinked m := fun m hm hpar =>
      pglinked_update_of_ne hproc₄ hm hpar
    have hchild : ∀ m ∈ A, m ≠ p → (v.proc m).pParent = some p → v₄.pglinked m = false := by
      intro m hm hmp hpar
      rw [pglinked_update_child hproc₄ hmp hpar, Bool.and_eq_false_iff]
      exact .inr (decide_eq_false fun heq => hsp m hm heq.symm)
    have hplain : v₄.pglinked p = false := by
      unfold Tables.pglinked
      rw [hself₄]
      cases hpar : (v.proc p).pParent with
      | none => rfl
      | some q =>
        obtain ⟨hqA, _⟩ := h.family.parent p hp q hpar
        by_cases hqp : q = p
        · simp [hqp, hself₄]
        · have hqs : (v₄.proc q).pSessp ≠ some sp := by
            rw [hproc₄, update_of_ne hqp]
            exact hsp q hqA
          simp [hqs]
    by_cases hkP : k = (v.proc p).pPidp
    · -- The group of the new session has one member.
      have honlyP : ∀ m ∈ A, (v₄.proc m).pPgidp = some k → m = p := by
        intro m hm hmk
        by_contra hmp
        rw [hproc₄, update_of_ne hmp, hkP] at hmk
        exact hmp (halone m hm hmk)
      have hnone : ¬ ∃ m ∈ A, (v₃.proc m).pPgidp = some (v.proc p).pPidp := by
        rintro ⟨m, hm, hmk⟩
        by_cases hmp : m = p
        · rw [hmp, hpgidp₃] at hmk
          cases hmk
        · rw [hproc₃, update_of_ne hmp, hproc₂, update_of_ne hmp] at hmk
          exact hmp (halone m hm hmk)
      have hset := hflags₄.2.mpr ⟨fun hex => absurd hex hnone, hplain⟩
      rw [hkP]
      refine iff_of_true hset fun m hm hmk => ?_
      rw [← hkP] at hmk
      rw [honlyP m hm hmk]
      exact hplain
    · have hmem : ∀ m, (v₄.proc m).pPgidp = some k → m ≠ p := by
        rintro m hmk rfl
        rw [hself₄] at hmk
        exact hkP (some.inj hmk).symm
      have hold : ∀ m, m ≠ p → (v₄.proc m).pPgidp = (v.proc m).pPgidp := by
        intro m hmp
        rw [hproc₄, update_of_ne hmp]
      have hkflag : (v₄.pid k).pidPgorphaned = (v₁.pid k).pidPgorphaned :=
        (hflags₄.1 k hkP).trans (hflag₃ k)
      obtain ⟨m₀, hm₀, hmk₀⟩ := hk
      have hmp₀ := hmem m₀ hmk₀
      rw [hold m₀ hmp₀] at hmk₀
      rw [hkflag]
      have hbeside : LinkedBeside v A p k →
          ¬ ∀ m ∈ A, (v₄.proc m).pPgidp = some k → v₄.pglinked m = false := by
        rintro ⟨m, hm, hmp, hpar, hmk, hlinked⟩ hnone
        have hzero := hnone m hm (by rw [hold m hmp]; exact hmk)
        rw [hnext m hmp hpar, hlinked] at hzero
        cases hzero
      have hdown : (v.pid k).pidPgorphaned = true →
          ∀ m ∈ A, (v₄.proc m).pPgidp = some k → v₄.pglinked m = false := by
        intro hyes m hm hmk
        have hmp := hmem m hmk
        by_cases hpar : (v.proc m).pParent = some p
        · exact hchild m hm hmp hpar
        · rw [hold m hmp] at hmk
          rw [hnext m hmp hpar]
          exact (h.flags k ⟨m, hm, hmk⟩).mp hyes m hm hmk
      by_cases hkg : k = g
      · have hleft := hflags.2 ⟨m₀, hm₀, hmp₀, by rw [← hkg]; exact hmk₀⟩
        rw [hkg] at hbeside hdown ⊢
        rw [hleft]
        constructor
        · rintro (hyes | hnone) m hm hmk
          · exact hdown hyes m hm hmk
          · have hmp := hmem m (by rw [hkg]; exact hmk)
            by_cases hpar : (v.proc m).pParent = some p
            · exact hchild m hm hmp hpar
            · rw [hold m hmp] at hmk
              have hzero := hnone m hm hmp hmk
              rwa [pglinked_update_of_ne hmoves.proc hmp hpar, ← hnext m hmp hpar] at hzero
        · intro hnone
          by_contra hboth
          rw [not_or, Bool.not_eq_true] at hboth
          obtain ⟨hflag, hsome⟩ := hboth
          refine hbeside ?_ hnone
          by_contra hno
          apply hsome
          intro m hm hmp hmk
          by_cases hpar : (v.proc m).pParent = some p
          · rw [pglinked_update_child hmoves.proc hmp hpar, Bool.and_eq_false_iff]
            refine .inr (decide_eq_false fun hsess => hno ?_)
            exact hfine g hflag ⟨m, hm, hmp, hpar, hmk, hsess⟩
          · rw [pglinked_update_of_ne hmoves.proc hmp hpar, ← hnext m hmp hpar]
            exact hnone m hm (by rw [hold m hmp]; exact hmk)
      · rw [hflags.1 k hkg]
        refine ⟨hdown, fun hnone => ?_⟩
        by_contra hflag
        rw [Bool.not_eq_true] at hflag
        have hbelow : ¬ (v.pid k).pidPgorphaned = true := by
          rw [hflag]
          exact nofun
        rw [h.flags k ⟨m₀, hm₀, hmk₀⟩] at hbelow
        push Not at hbelow
        obtain ⟨m, hm, hmk, hlinked⟩ := hbelow
        rw [ne_eq, Bool.not_eq_false] at hlinked
        have hmp : m ≠ p := by
          rintro rfl
          rw [hg] at hmk
          exact hkg (some.inj hmk).symm
        by_cases hpar : (v.proc m).pParent = some p
        · rw [pglinked_child hpar, Bool.and_eq_true, decide_eq_true_eq,
            decide_eq_true_eq] at hlinked
          exact hbeside (hfine k hflag ⟨m, hm, hmp, hpar, hmk, hlinked.2⟩) hnone
        · exact hbeside ⟨m, hm, hmp, hpar, hmk, hlinked⟩ hnone

/-!
## Exit
-/

def OnlyFlags (v v' : Tables) : Prop :=
  (∃ pid, v' = { v with pid := pid }) ∧ ∀ k, ∃ b, v'.pid k = { v.pid k with pidPgorphaned := b }

theorem OnlyFlags.proc (h : OnlyFlags v v') : v'.proc = v.proc := by
  obtain ⟨⟨pid, heq⟩, _⟩ := h
  rw [heq]

theorem OnlyFlags.refl (v : Tables) : OnlyFlags v v :=
  ⟨⟨v.pid, rfl⟩, fun k => ⟨(v.pid k).pidPgorphaned, rfl⟩⟩

theorem OnlyFlags.setOrphaned (h : OnlyFlags v v') (g : Nat) (b : Bool) :
    OnlyFlags v (v'.setOrphaned g b) := by
  obtain ⟨⟨pid, heq⟩, hpid⟩ := h
  refine ⟨⟨update v'.pid g { v'.pid g with pidPgorphaned := b }, ?_⟩, fun k => ?_⟩
  · rw [heq]
    rfl
  · obtain ⟨b', hb'⟩ := hpid k
    simp only [Tables.setOrphaned, Tables.setPid]
    by_cases hk : k = g
    · refine ⟨b, ?_⟩
      rw [hk, update_self, ← hk, hb']
    · exact ⟨b', by rw [update_of_ne hk, hb']⟩

theorem OnlyFlags.linkedBeside (h : OnlyFlags v v') (p k : Nat) :
    LinkedBeside v' A p k ↔ LinkedBeside v A p k := by
  refine exists_congr fun m => ?_
  rw [h.proc, pglinked_congr h.proc]

theorem pgdetachChild_spec (h : Sound c v A S) {cp : Nat} (hcp : cp ∈ A)
    (hg : (v.proc cp).pPgidp = some g) (signalled : List Nat) :
    ∃ v' signalled', Tables.pgdetachChild p (v, signalled) cp = .ok (v', signalled') ∧
      Sound c v' A S ∧ OnlyFlags v v' ∧
      ∀ k, (v'.pid k).pidPgorphaned = true ↔ (v.pid k).pidPgorphaned = true ∨
        (k = g ∧ ¬ LinkedBeside v A p k) := by
  obtain ⟨G, hG⟩ := h.groups
  have hpos : 0 < v.refs A S g := refs_group hcp hg
  simp only [Tables.pgdetachChild, hg]
  cases horphaned : (v.pid g).pidPgorphaned with
  | true =>
    refine ⟨v, signalled, rfl, h, OnlyFlags.refl v, fun k => ?_⟩
    refine ⟨.inl, fun hor => hor.elim id ?_⟩
    rintro ⟨rfl, _⟩
    exact horphaned
  | false =>
    simp only [Bool.false_eq_true, if_false, h.pgSeek hG hpos, bind, Except.bind]
    cases hfind : (G g).find? (v.linkedBeside p) with
    | some m =>
      refine ⟨v, signalled, rfl, h, OnlyFlags.refl v, fun k => ?_⟩
      refine ⟨.inl, fun hor => hor.elim id ?_⟩
      rintro ⟨rfl, hno⟩
      have hm := (hG.mem k m).mp (mem_of_find?_eq_some hfind)
      have hyes := List.find?_some hfind
      simp only [Tables.linkedBeside, Bool.and_eq_true, decide_eq_true_eq] at hyes
      exact absurd ⟨m, hm.1, hyes.1.1, hyes.1.2, hm.2, hyes.2⟩ hno
    | none =>
      have hno : ¬ LinkedBeside v A p g := by
        rintro ⟨m, hm, hmp, hpar, hmg, hlinked⟩
        have hfail := List.find?_eq_none.mp hfind m ((hG.mem g m).mpr ⟨hm, hmg⟩)
        simp only [Tables.linkedBeside, Bool.and_eq_true, decide_eq_true_eq] at hfail
        exact hfail ⟨⟨hmp, hpar⟩, hlinked⟩
      refine ⟨_, _, rfl, h.setOrphaned g true, (OnlyFlags.refl v).setOrphaned g true, fun k => ?_⟩
      simp only [Tables.setOrphaned, Tables.setPid]
      by_cases hk : k = g
      · rw [hk, update_self]
        exact iff_of_true rfl (.inr ⟨rfl, hno⟩)
      · rw [update_of_ne hk]
        exact (or_iff_left fun hboth => hk hboth.1).symm

theorem OnlyFlags.trans {w : Tables} (h : OnlyFlags v w) (h' : OnlyFlags w v') :
    OnlyFlags v v' := by
  obtain ⟨⟨pid, heq⟩, hpid⟩ := h
  obtain ⟨⟨pid', heq'⟩, hpid'⟩ := h'
  refine ⟨⟨pid', by rw [heq', heq]⟩, fun k => ?_⟩
  obtain ⟨b, hb⟩ := hpid k
  obtain ⟨b', hb'⟩ := hpid' k
  exact ⟨b', by rw [hb', hb]⟩

/-- The loop marks the groups of the children that are not linked beside them. -/
theorem pgdetach_loop (h : Sound c v A S) (l : List Nat) (signalled : List Nat)
    (hl : ∀ q ∈ l, q ∈ A ∧ ∃ g, (v.proc q).pPgidp = some g) :
    ∃ v' signalled', l.foldlM (Tables.pgdetachChild p) (v, signalled) =
        (.ok (v', signalled') : Fault _) ∧ Sound c v' A S ∧ OnlyFlags v v' ∧
      ∀ k, (v'.pid k).pidPgorphaned = true ↔ (v.pid k).pidPgorphaned = true ∨
        ((∃ q ∈ l, (v.proc q).pPgidp = some k) ∧ ¬ LinkedBeside v A p k) := by
  induction l generalizing v signalled with
  | nil =>
    refine ⟨v, signalled, rfl, h, OnlyFlags.refl v, fun k => ?_⟩
    exact (or_iff_left fun hboth => by simpa using hboth.1).symm
  | cons cp l ih =>
    obtain ⟨hcp, g, hg⟩ := hl cp (mem_cons_self ..)
    obtain ⟨v₁, s₁, hrun₁, hs₁, honly₁, hflags₁⟩ :=
      pgdetachChild_spec (p := p) h hcp hg signalled
    obtain ⟨v₂, s₂, hrun₂, hs₂, honly₂, hflags₂⟩ := ih hs₁ s₁ fun q hq => by
      rw [honly₁.proc]
      exact hl q (mem_cons_of_mem cp hq)
    refine ⟨v₂, s₂, ?_, hs₂, honly₁.trans honly₂, fun k => ?_⟩
    · simp only [foldlM_cons, hrun₁, bind, Except.bind]
      exact hrun₂
    · rw [hflags₂, hflags₁, honly₁.proc, honly₁.linkedBeside]
      constructor
      · rintro ((hyes | ⟨rfl, hno⟩) | ⟨⟨q, hq, hqk⟩, hno⟩)
        · exact .inl hyes
        · exact .inr ⟨⟨cp, mem_cons_self .., hg⟩, hno⟩
        · exact .inr ⟨⟨q, mem_cons_of_mem cp hq, hqk⟩, hno⟩
      · rintro (hyes | ⟨⟨q, hq, hqk⟩, hno⟩)
        · exact .inl (.inl hyes)
        · rcases mem_cons.mp hq with rfl | hq
          · rw [hg] at hqk
            exact .inl (.inr ⟨(some.inj hqk).symm, hno⟩)
          · exact .inr ⟨⟨q, hq, hqk⟩, hno⟩

theorem exit_spec (h : Orderly c v A) (hp : p ∈ A) (hinit : c.procInit ∈ A)
    (hactive : (v.proc c.procInit).pStat.active = true) (hne : p ≠ c.procInit)
    (hfine : ExitFine c v A p) : ∃ r, v.exit c p = .ok r ∧ Orderly c r.1 A := by
  obtain ⟨S, hS, hall⟩ := h.sound
  have hchild := h.family.child p hp
  unfold Tables.exit
  by_cases hnil : v.pChild p = []
  · rw [if_pos hnil]
    have hnone : ∀ m ∈ A, (v.proc m).pParent ≠ some p := by
      intro m hm hpar
      have hmem := (hchild m).mpr ⟨hm, hpar⟩
      rw [hnil] at hmem
      cases hmem
    refine ⟨_, rfl, ⟨S, ?_, hall⟩, fun m hm => ?_, fun m hm hled => ?_, ?_, ?_⟩
    · exact hS.congr (fun q _ => field_update Proc.pPidp (by rfl) q)
        (fun q _ => field_update Proc.pPgidp (by rfl) q)
        (fun q _ => field_update Proc.pSessp (by rfl) q) (fun _ _ _ _ => rfl)
        (fun k => ⟨(v.pid k).pidPgorphaned, rfl⟩) ⟨_, _, _, _, rfl⟩
    · obtain ⟨g, hg⟩ := h.grouped m hm
      exact ⟨g, (field_update Proc.pPgidp (by rfl) m).trans hg⟩
    · have hpidp := field_update (m := v.proc) (k := p)
        (x := { v.proc p with pStat := .szomb }) Proc.pPidp rfl m
      have hsessp := field_update (m := v.proc) (k := p)
        (x := { v.proc p with pStat := .szomb }) Proc.pSessp rfl m
      have hpgidp := field_update (m := v.proc) (k := p)
        (x := { v.proc p with pStat := .szomb }) Proc.pPgidp rfl m
      simp only [Tables.setProc, Tables.sid, hpidp, hsessp, hpgidp] at hled ⊢
      exact h.led m hm hled
    · refine ⟨fun m hm q hq => ?_, fun q hq m => ?_, fun q hq => h.family.nodup q hq⟩
      · have hpar := (field_update (m := v.proc) (k := p)
          (x := { v.proc p with pStat := .szomb }) Proc.pParent rfl m).symm.trans hq
        obtain ⟨hqA, hqs⟩ := h.family.parent m hm q hpar
        refine ⟨hqA, ?_⟩
        have hqp : q ≠ p := by
          rintro rfl
          exact hnone m hm hpar
        simp only [Tables.setProc, update_of_ne hqp]
        exact hqs
      · have hpar := field_update (m := v.proc) (k := p)
          (x := { v.proc p with pStat := .szomb }) Proc.pParent rfl m
        simp only [Tables.setProc, hpar]
        exact h.family.child q hq m
    · intro k hk
      have hpgidp : ∀ m, ((v.setProc p { v.proc p with pStat := .szomb }).proc m).pPgidp =
          (v.proc m).pPgidp := field_update Proc.pPgidp rfl
      refine h.flags.keep (fun m _ => by rw [hpgidp]) hk rfl fun m _ _ => ?_
      exact pglinked_fields (field_update Proc.pParent (by rfl)) hpgidp
        (field_update Proc.pSessp (by rfl)) m
  · rw [if_neg hnil]
    obtain ⟨w, signalled, hrun, hw, honly, hflags⟩ :=
      pgdetach_loop (p := p) hS (v.pChild p) [] fun q hq => by
        have hq' := (hchild q).mp hq
        exact ⟨hq'.1, h.grouped q hq'.1⟩
    have hwchild : w.pChild = v.pChild := by
      obtain ⟨⟨pid, heq⟩, _⟩ := honly
      rw [heq]
    let v' := (w.disown c p).setProc p { (w.disown c p).proc p with pStat := .szomb }
    have hfield : ∀ {α : Type} (f : Proc → α) (_ : ∀ x q, f { x with pParent := q } = f x)
        (_ : ∀ x s, f { x with pStat := s } = f x) (q : Nat),
        f (v'.proc q) = f (v.proc q) := by
      intro α f hpar hstat q
      have hdis : f ((w.disown c p).proc q) = f (v.proc q) := by
        rw [← honly.proc]
        change f (if q ∈ w.pChild p then _ else _) = _
        split
        · exact hpar _ _
        · rfl
      rw [← hdis]
      exact field_update f (hstat _ _) q
    have hpgidp : ∀ q, (v'.proc q).pPgidp = (v.proc q).pPgidp :=
      hfield Proc.pPgidp (fun _ _ => rfl) fun _ _ => rfl
    have hsessp : ∀ q, (v'.proc q).pSessp = (v.proc q).pSessp :=
      hfield Proc.pSessp (fun _ _ => rfl) fun _ _ => rfl
    have hpidp : ∀ q, (v'.proc q).pPidp = (v.proc q).pPidp :=
      hfield Proc.pPidp (fun _ _ => rfl) fun _ _ => rfl
    have hparent : ∀ q, (v'.proc q).pParent =
        if q ∈ v.pChild p then some c.procInit else (v.proc q).pParent := by
      intro q
      have hset := field_update (m := (w.disown c p).proc) (k := p)
        (x := { (w.disown c p).proc p with pStat := .szomb }) Proc.pParent rfl q
      refine hset.trans ?_
      rw [← hwchild, ← honly.proc]
      change (if q ∈ w.pChild p then _ else _ : Proc).pParent = _
      split <;> rfl
    have hstat : ∀ q, q ≠ p → (v'.proc q).pStat = (v.proc q).pStat := by
      intro q hq
      change (update (w.disown c p).proc p _ q).pStat = _
      rw [update_of_ne hq, ← honly.proc]
      change (if q ∈ w.pChild p then _ else _ : Proc).pStat = _
      split <;> rfl
    have hpid : ∀ k, v'.pid k = w.pid k := fun _ => rfl
    have hvchild : v'.pChild = update (update v.pChild c.procInit
        (v.pChild p ++ v.pChild c.procInit)) p [] := by
      rw [← hwchild]
      rfl
    have hnextP : ∀ m ∈ A, (v.proc m).pParent ≠ some p →
        (v'.proc m).pParent = (v.proc m).pParent := by
      intro m hm hpar
      rw [hparent, if_neg]
      exact fun hmem => hpar ((hchild m).mp hmem).2
    have hchildP : ∀ m ∈ A, (v.proc m).pParent = some p →
        (v'.proc m).pParent = some c.procInit := by
      intro m hm hpar
      rw [hparent, if_pos ((hchild m).mpr ⟨hm, hpar⟩)]
    refine ⟨(v', signalled), ?_, ⟨S, ?_, hall⟩, fun m hm => ?_, fun m hm hled => ?_, ?_, ?_⟩
    · simp only [Tables.pgdetach, hrun, bind, Except.bind]
      rfl
    · refine hS.congr (fun q _ => hpidp q) (fun q _ => hpgidp q) (fun q _ => hsessp q)
        (fun q _ s _ => ?_) (fun k => ?_) ?_
      · obtain ⟨⟨pid, heq⟩, _⟩ := honly
        change w.sess s = v.sess s
        rw [heq]
      · exact honly.2 k
      · obtain ⟨⟨pid, heq⟩, _⟩ := honly
        refine ⟨v'.proc, v'.pChild, v'.pid, v'.sess, ?_⟩
        simp only [v', Tables.setProc, Tables.disown, heq]
    · rw [hpgidp]
      exact h.grouped m hm
    · have hsess : v'.sess = v.sess := by
        obtain ⟨⟨pid, heq⟩, _⟩ := honly
        change w.sess = v.sess
        rw [heq]
      unfold Tables.sid at hled
      rw [hsessp, hsess, hpidp] at hled
      rw [hpgidp, hpidp]
      exact h.led m hm hled
    · refine ⟨fun m hm q hq => ?_, fun q hq m => ?_, fun q hq => ?_⟩
      · by_cases hpar : (v.proc m).pParent = some p
        · rw [hchildP m hm hpar] at hq
          rw [← some.inj hq, hstat _ (Ne.symm hne)]
          exact ⟨hinit, hactive⟩
        · rw [hnextP m hm hpar] at hq
          obtain ⟨hqA, hqs⟩ := h.family.parent m hm q hq
          have hqp : q ≠ p := by
            rintro rfl
            exact hpar hq
          rw [hstat q hqp]
          exact ⟨hqA, hqs⟩
      · rw [hvchild]
        by_cases hqp : q = p
        · rw [hqp, update_self]
          refine iff_of_false not_mem_nil ?_
          rintro ⟨hm, hpar⟩
          by_cases hold : (v.proc m).pParent = some p
          · rw [hchildP m hm hold] at hpar
            exact hne (some.inj hpar).symm
          · rw [hnextP m hm hold] at hpar
            exact hold hpar
        · rw [update_of_ne hqp]
          by_cases hqi : q = c.procInit
          · rw [hqi, update_self, mem_append, hchild,
              h.family.child c.procInit hinit, ← and_or_left]
            refine and_congr_right fun hm => ?_
            by_cases hold : (v.proc m).pParent = some p
            · exact iff_of_true (.inl hold) (hchildP m hm hold)
            · rw [hnextP m hm hold]
              exact or_iff_right hold
          · rw [update_of_ne hqi, h.family.child q hq]
            refine and_congr_right fun hm => ?_
            by_cases hold : (v.proc m).pParent = some p
            · rw [hchildP m hm hold, hold]
              exact iff_of_false (fun heq => hqp (some.inj heq).symm)
                fun heq => hqi (some.inj heq).symm
            · rw [hnextP m hm hold]
      · rw [hvchild]
        by_cases hqp : q = p
        · rw [hqp, update_self]
          exact nodup_nil
        · rw [update_of_ne hqp]
          by_cases hqi : q = c.procInit
          · rw [hqi, update_self, nodup_append']
            refine ⟨h.family.nodup p hp, h.family.nodup _ hinit, fun m hm hm' => ?_⟩
            have hpar := ((hchild m).mp hm).2
            rw [((h.family.child _ hinit m).mp hm').2] at hpar
            exact hne (some.inj hpar).symm
          · rw [update_of_ne hqi]
            exact h.family.nodup q hq
    -- The flags, with the children linked by their new parent.
    · intro k hk
      have hnext : ∀ m ∈ A, (v.proc m).pParent ≠ some p → v'.pglinked m = v.pglinked m := by
        intro m hm hpar
        unfold Tables.pglinked
        rw [hnextP m hm hpar, hpgidp, hsessp]
        cases (v.proc m).pParent with
        | none => rfl
        | some q => simp only [hpgidp, hsessp]
      have hnew : ∀ m ∈ A, (v.proc m).pParent = some p → v'.pglinked m =
          (decide ((v.proc c.procInit).pPgidp ≠ (v.proc m).pPgidp) &&
            decide ((v.proc c.procInit).pSessp = (v.proc m).pSessp)) := by
        intro m hm hpar
        rw [pglinked_child (hchildP m hm hpar), hpgidp, hpgidp, hsessp, hsessp]
      obtain ⟨m₀, hm₀, hmk₀⟩ := hk
      rw [hpgidp] at hmk₀
      have hbeside : LinkedBeside v A p k →
          ¬ ∀ m ∈ A, (v'.proc m).pPgidp = some k → v'.pglinked m = false := by
        rintro ⟨m, hm, _, hpar, hmk, hlinked⟩ hnone
        have hzero := hnone m hm (by rw [hpgidp]; exact hmk)
        rw [hnext m hm hpar, hlinked] at hzero
        cases hzero
      have hinitLinks : ∀ m ∈ A, (v.proc m).pParent = some p →
          (v.proc m).pPgidp = some k → v'.pglinked m = true → LinkedBeside v A p k := by
        intro m hm hpar hmk hlinked
        rw [hnew m hm hpar, Bool.and_eq_true, decide_eq_true_eq, decide_eq_true_eq, hmk] at hlinked
        exact hfine k ⟨m, hm, hpar, hmk⟩ (.inl ⟨m, hm, hpar, hmk, hlinked⟩)
      have hold : (v.pid k).pidPgorphaned = true ↔
          ∀ m ∈ A, (v.proc m).pPgidp = some k → v.pglinked m = false :=
        h.flags k ⟨m₀, hm₀, hmk₀⟩
      rw [hpid, hflags]
      constructor
      · rintro (hyes | ⟨⟨q, hq, hqk⟩, hno⟩) m hm hmk
        · rw [hpgidp] at hmk
          have hzero := hold.mp hyes
          by_cases hpar : (v.proc m).pParent = some p
          · rw [← Bool.not_eq_true]
            intro hlinked
            obtain ⟨m', hm', _, _, hmk', hlinked'⟩ := hinitLinks m hm hpar hmk hlinked
            rw [hzero m' hm' hmk'] at hlinked'
            cases hlinked'
          · rw [hnext m hm hpar]
            exact hzero m hm hmk
        · rw [hpgidp] at hmk
          by_cases hpar : (v.proc m).pParent = some p
          · rw [← Bool.not_eq_true]
            intro hlinked
            exact hno (hinitLinks m hm hpar hmk hlinked)
          · rw [hnext m hm hpar, ← Bool.not_eq_true]
            intro hlinked
            apply hno
            by_cases hmp : m = p
            · rw [hmp] at hmk hlinked
              have hq' := (hchild q).mp hq
              exact hfine k ⟨q, hq'.1, hq'.2, hqk⟩ (.inr ⟨hmk, hlinked⟩)
            · exact ⟨m, hm, hmp, hpar, hmk, hlinked⟩
      · intro hnone
        by_contra hboth
        rw [not_or, hold] at hboth
        obtain ⟨hsome, hnot⟩ := hboth
        push Not at hsome
        obtain ⟨m, hm, hmk, hlinked⟩ := hsome
        rw [ne_eq, Bool.not_eq_false] at hlinked
        by_cases hpar : (v.proc m).pParent = some p
        · refine hbeside ?_ hnone
          by_contra hno
          exact hnot ⟨⟨m, (hchild m).mpr ⟨hm, hpar⟩, hmk⟩, hno⟩
        · have hzero := hnone m hm (by rw [hpgidp]; exact hmk)
          rw [hnext m hm hpar, hlinked] at hzero
          cases hzero

/-!
## The end
-/

theorem freeproc_spec (h : Orderly c v A) (hp : p ∈ A)
    (hidle : (v.proc p).pStat.active = false) {q : Nat} (hpar : (v.proc p).pParent = some q) :
    ∃ v', v.freeproc p = .ok v' ∧ Orderly c v' (A.erase p) := by
  obtain ⟨S, hS, hall⟩ := h.sound
  obtain ⟨g, hg⟩ := h.grouped p hp
  obtain ⟨hqA, hqs⟩ := h.family.parent p hp q hpar
  have hnone := h.family.no_child hidle
  have hmem : p ∈ v.pChild q := (h.family.child q hqA p).mpr ⟨hp, hpar⟩
  let v₀ : Tables := { v with pChild := update v.pChild q ((v.pChild q).erase p) }
  have hs₀ : Sound c v₀ A S :=
    hS.congr (fun _ _ => rfl) (fun _ _ => rfl) (fun _ _ => rfl) (fun _ _ _ _ => rfl)
      (fun k => ⟨(v.pid k).pidPgorphaned, rfl⟩) ⟨_, _, _, _, rfl⟩
  obtain ⟨v₁, hrun₁, hs₁, hmoves, hflags⟩ := pgexit_spec hs₀ hp hg
  obtain ⟨v₂, hrun₂, hs₂, honly⟩ := sessRele_spec hs₁ (hall p hp)
  have hproc₂ : v₂.proc = update v.proc p { v.proc p with pPgidp := none } :=
    honly.proc.trans hmoves.proc
  have hout : p ∉ S.erase p := fun hin => (hS.sessions.nodup.mem_erase_iff.mp hin).1 rfl
  obtain ⟨v₃, hrun₃, hs₃, hfrees⟩ := pidFree_spec hs₂ hp hout (by
    rw [hproc₂, update_self])
  have hproc : v₃.proc = update v.proc p { v.proc p with pPgidp := none } :=
    hfrees.proc.trans hproc₂
  obtain ⟨F, hF⟩ := hS.slots
  have hin : ∀ m, m ∈ A.erase p ↔ m ≠ p ∧ m ∈ A := fun m => hF.nodup.mem_erase_iff
  have hsame : ∀ m, m ≠ p → v₃.proc m = v.proc m := fun m hm => by
    rw [hproc, update_of_ne hm]
  have hchild : v₃.pChild = update v.pChild q ((v.pChild q).erase p) := by
    obtain ⟨_, _, pid, link, hash, sess, heq⟩ := honly
    rw [hfrees.pChild, heq]
    exact hmoves.pChild
  have hsid : ∀ m, m ≠ p → v₃.sid m = v.sid m := by
    intro m hm
    unfold Tables.sid
    rw [hsame m hm]
    congr 1
    funext s
    rw [hfrees.sess, honly.2.1, hmoves.sess]
  refine ⟨v₃, ?_, ⟨S.erase p, hs₃, fun m hm => ?_⟩, fun m hm => ?_, fun m hm hled => ?_, ?_, ?_⟩
  · simp only [Tables.freeproc, hpar, if_pos hmem]
    change v₀.pidExit p = _
    simp only [Tables.pidExit, hrun₁, hrun₂, hrun₃, bind, Except.bind]
  · obtain ⟨hmp, hmA⟩ := (hin m).mp hm
    exact hS.sessions.nodup.mem_erase_iff.mpr ⟨hmp, hall m hmA⟩
  · obtain ⟨hmp, hmA⟩ := (hin m).mp hm
    rw [hsame m hmp]
    exact h.grouped m hmA
  · obtain ⟨hmp, hmA⟩ := (hin m).mp hm
    rw [hsid m hmp, hsame m hmp] at hled
    rw [hsame m hmp]
    exact h.led m hmA hled
  · have hactive : ∀ r, (v.proc r).pStat.active = true → r ≠ p := by
      rintro r hr rfl
      rw [hidle] at hr
      cases hr
    refine ⟨fun m hm r hr => ?_, fun r hr m => ?_, fun r hr => ?_⟩
    · obtain ⟨hmp, hmA⟩ := (hin m).mp hm
      rw [hsame m hmp] at hr
      obtain ⟨hrA, hrs⟩ := h.family.parent m hmA r hr
      have hrp := hactive r hrs
      rw [hsame r hrp]
      exact ⟨(hin r).mpr ⟨hrp, hrA⟩, hrs⟩
    · obtain ⟨hrp, hrA⟩ := (hin r).mp hr
      have hold := h.family.child r hrA m
      have hkeep : m ∈ v₃.pChild r ↔ m ≠ p ∧ m ∈ v.pChild r := by
        rw [hchild]
        by_cases hrq : r = q
        · rw [hrq, update_self, (h.family.nodup q hqA).mem_erase_iff]
        · rw [update_of_ne hrq]
          refine (and_iff_right_of_imp fun hm => ?_).symm
          rintro rfl
          rw [((h.family.child r hrA m).mp hm).2] at hpar
          exact hrq (some.inj hpar)
      rw [hkeep, hold, hin]
      constructor
      · rintro ⟨hmp, hmA, hmr⟩
        rw [hsame m hmp]
        exact ⟨⟨hmp, hmA⟩, hmr⟩
      · rintro ⟨⟨hmp, hmA⟩, hmr⟩
        rw [hsame m hmp] at hmr
        exact ⟨hmp, hmA, hmr⟩
    · obtain ⟨hrp, hrA⟩ := (hin r).mp hr
      rw [hchild]
      by_cases hrq : r = q
      · rw [hrq, update_self]
        exact (h.family.nodup q hqA).erase p
      · rw [update_of_ne hrq]
        exact h.family.nodup r hrA
  · intro k hk
    have hlinked : ∀ m ∈ A, m ≠ p → v₃.pglinked m = v.pglinked m := fun m hm hmp =>
      pglinked_update_of_ne hproc hmp (hnone m hm)
    have hlinked₁ : ∀ m ∈ A, m ≠ p → v₁.pglinked m = v.pglinked m := fun m hm hmp =>
      pglinked_update_of_ne (v := v) hmoves.proc hmp (hnone m hm)
    have hflag : (v₃.pid k).pidPgorphaned = (v₁.pid k).pidPgorphaned := by
      obtain ⟨n, hn⟩ := honly.1 k
      rw [hfrees.orphaned, hn]
    obtain ⟨m₀, hm₀, hmk₀⟩ := hk
    obtain ⟨hmp₀, hmA₀⟩ := (hin m₀).mp hm₀
    rw [hsame m₀ hmp₀] at hmk₀
    have hold := h.flags k ⟨m₀, hmA₀, hmk₀⟩
    rw [hflag]
    have hgoal : (∀ m ∈ A.erase p, (v₃.proc m).pPgidp = some k → v₃.pglinked m = false) ↔
        ∀ m ∈ A, m ≠ p → (v.proc m).pPgidp = some k → v.pglinked m = false := by
      constructor
      · intro hall' m hm hmp hmk
        rw [← hlinked m hm hmp]
        exact hall' m ((hin m).mpr ⟨hmp, hm⟩) (by rw [hsame m hmp]; exact hmk)
      · intro hall' m hm hmk
        obtain ⟨hmp, hmA⟩ := (hin m).mp hm
        rw [hlinked m hmA hmp]
        exact hall' m hmA hmp (by rw [← hsame m hmp]; exact hmk)
    rw [hgoal]
    by_cases hkg : k = g
    · have hleft := hflags.2 ⟨m₀, hmA₀, hmp₀, by rw [← hkg]; exact hmk₀⟩
      rw [hkg] at hold ⊢
      rw [hleft]
      constructor
      · rintro (hyes | hnone') m hm hmp hmk
        · exact hold.mp hyes m hm hmk
        · rw [← hlinked₁ m hm hmp]
          exact hnone' m hm hmp hmk
      · intro hall'
        refine .inr fun m hm hmp hmk => ?_
        rw [hlinked₁ m hm hmp]
        exact hall' m hm hmp hmk
    · rw [hflags.1 k hkg]
      refine hold.trans ?_
      refine forall_congr' fun m => forall_congr' fun hm => ?_
      constructor
      · exact fun hz _ hmk => hz hmk
      · intro hz hmk
        refine hz ?_ hmk
        rintro rfl
        rw [hg] at hmk
        exact hkg (some.inj hmk).symm

/-!
## A new process
-/

def Unused (v : Tables) (A : List Nat) (g : Nat) : Prop :=
  ∀ p ∈ A, (v.proc p).pPidp ≠ g ∧ (v.proc p).pPgidp ≠ some g ∧ v.sid p ≠ some g

theorem refs_unused (h : Unused v A g) (hsub : ∀ p ∈ S, p ∈ A) : v.refs A S g = 0 := by
  rw [← Nat.le_zero, ← Nat.not_lt, refs_pos]
  rintro (⟨p, hp, hpg⟩ | ⟨p, hp, hpg⟩ | ⟨p, hp, hpg⟩)
  · exact (h p hp).1 hpg
  · exact (h p hp).2.1 hpg
  · exact (h p (hsub p hp)).2.2 hpg

theorem newproc_spec (h : Orderly c v A) {pp cp pidp : Nat} (hpp : pp ∈ A)
    (hactive : (v.proc pp).pStat.active = true) (hcp : cp ∉ A) (hpidp : Unused v A pidp)
    {nolast refused : Bool} {r₀ : Tables × Option Nat}
    (hassign : v.pidAssign c nolast refused cp pidp = .ok r₀) :
    ∃ r, v.newproc c nolast refused pp cp pidp = .ok r ∧ ∃ A', Orderly c r.1 A' := by
  obtain ⟨S, hS, hall⟩ := h.sound
  rcases pidAssign_spec hS hassign with rfl | ⟨mpid, pep, next, rfl, hfound⟩
  · refine ⟨(v, none), ?_, A, h⟩
    simp only [Tables.newproc, hassign, bind, Except.bind]
    rfl
  obtain ⟨g, hg⟩ := h.grouped pp hpp
  have hzero : v.refs A S pidp = 0 := refs_unused hpidp hS.sessions.sub
  have hs₁ := enter_spec hS hfound hcp hzero
  let v₁ := v.enter mpid pep next cp pidp
  have hpc : ∀ q ∈ A, q ≠ cp := fun q hq heq => hcp (heq ▸ hq)
  have hproc₁ : ∀ q ∈ A, v₁.proc q = v.proc q := fun q hq =>
    update_of_ne (hpc q hq) _ _
  have hself₁ : v₁.proc cp = ⟨.sidl, pidp, none, none, none⟩ := update_self _ _ _
  have hcpS : cp ∉ S := fun hin => hcp (hS.sessions.sub cp hin)
  let v₂ := v₁.setProc cp { v₁.proc cp with pSessp := (v₁.proc pp).pSessp }
  have hproc₂ : ∀ q ∈ A, v₂.proc q = v.proc q := fun q hq =>
    (update_of_ne (hpc q hq) _ _).trans (hproc₁ q hq)
  have hself₂ : v₂.proc cp = ⟨.sidl, pidp, none, (v.proc pp).pSessp, none⟩ := by
    have heq : v₂.proc cp = { v₁.proc cp with pSessp := (v₁.proc pp).pSessp } :=
      update_self _ _ _
    rw [heq, hself₁, hproc₁ pp hpp]
  have hs₂ : Sound c v₂ (cp :: A) S :=
    hs₁.congr (fun q _ => field_update Proc.pPidp (by rfl) q)
      (fun q _ => field_update Proc.pPgidp (by rfl) q)
      (fun q hq => congrArg Proc.pSessp (update_of_ne (hpc q (hS.sessions.sub q hq)) _ _))
      (fun _ _ _ _ => rfl) (fun k => ⟨(v₁.pid k).pidPgorphaned, rfl⟩) ⟨_, _, _, _, rfl⟩
  have hsid₂ : ∀ q ∈ A, v₂.sid q = v.sid q := by
    intro q hq
    unfold Tables.sid
    rw [hproc₂ q hq]
    rfl
  obtain ⟨v₃, hrun₃, hs₃, ⟨sess, heq₃⟩, hsidp₃⟩ :=
    sessHold_spec hs₂ (mem_cons_self ..) hcpS (hall pp hpp)
      (by rw [hself₂, hproc₂ pp hpp]) fun q hq => by
        have hqA := hS.sessions.sub q hq
        rw [hsid₂ q hqA, hself₂]
        exact (hpidp q hqA).2.2
  have hproc₃ : v₃.proc = v₂.proc := by
    rw [heq₃]
  have hpgidp₃ : (v₃.proc cp).pPgidp = none := by
    rw [hproc₃, hself₂]
  have hppg₃ : (v₃.proc pp).pPgidp = some g := by
    rw [hproc₃, hproc₂ pp hpp]
    exact hg
  have hpos₃ : 0 < v₃.refs (cp :: A) (cp :: S) g :=
    refs_group (mem_cons_of_mem cp hpp) hppg₃
  obtain ⟨hs₄, hmoves, hflags⟩ := pgjoin_spec hs₃ (mem_cons_self ..) hpgidp₃ hpos₃
  let v₄ := v₃.pgjoin cp g
  let v₅ := v₄.adopt pp cp
  have hproc₄ : ∀ q ∈ A, v₄.proc q = v.proc q := by
    intro q hq
    rw [hmoves.proc, update_of_ne (hpc q hq), hproc₃]
    exact hproc₂ q hq
  have hself₄ : v₄.proc cp = ⟨.sidl, pidp, some g, (v.proc pp).pSessp, none⟩ := by
    rw [hmoves.proc, update_self, hproc₃, hself₂]
  have hproc₅ : ∀ q ∈ A, v₅.proc q = v.proc q := fun q hq =>
    (update_of_ne (hpc q hq) _ _).trans (hproc₄ q hq)
  have hself₅ : v₅.proc cp = ⟨.sidl, pidp, some g, (v.proc pp).pSessp, some pp⟩ := by
    have heq : v₅.proc cp = { v₄.proc cp with pParent := some pp } :=
      update_self _ _ _
    rw [heq, hself₄]
  have hs₅ : Sound c v₅ (cp :: A) (cp :: S) :=
    hs₄.congr (fun q _ => field_update Proc.pPidp (by rfl) q)
      (fun q _ => field_update Proc.pPgidp (by rfl) q)
      (fun q _ => field_update Proc.pSessp (by rfl) q) (fun _ _ _ _ => rfl)
      (fun k => ⟨(v₄.pid k).pidPgorphaned, rfl⟩) ⟨_, _, _, _, rfl⟩
  have hsid₅ : ∀ q ∈ A, v₅.sid q = v.sid q := by
    intro q hq
    have hsess : ∀ s, (v₅.sess s).sSidp = (v.sess s).sSidp := by
      intro s
      change (v₄.sess s).sSidp = _
      rw [hmoves.sess, hsidp₃]
      rfl
    unfold Tables.sid
    rw [hproc₅ q hq]
    congr 1
    funext s
    exact hsess s
  have hchild₅ : v₅.pChild = update (update v.pChild cp []) pp (cp :: v.pChild pp) := by
    have h₄ : v₄.pChild = update v.pChild cp [] := by
      rw [hmoves.pChild, heq₃]
      rfl
    change update v₄.pChild pp (cp :: v₄.pChild pp) = _
    rw [h₄, update_of_ne (hpc pp hpp)]
  refine ⟨(v₅, some mpid), ?_, cp :: A, ⟨cp :: S, hs₅, fun q hq => ?_⟩, fun m hm => ?_,
    fun m hm hled => ?_, ?_, ?_⟩
  · have hhold : v₂.sessHold (v₂.proc pp).pSessp = .ok v₃ := by
      rw [hproc₂ pp hpp, ← hrun₃, hself₂]
    simp only [v₂, v₁] at hhold
    simp only [Tables.newproc, hassign, bind, Except.bind, hhold, hppg₃]
    rfl
  · rcases mem_cons.mp hq with rfl | hq
    · exact mem_cons_self ..
    · exact mem_cons_of_mem cp (hall q hq)
  · rcases mem_cons.mp hm with rfl | hm
    · exact ⟨g, congrArg Proc.pPgidp hself₅⟩
    · rw [hproc₅ m hm]
      exact h.grouped m hm
  · rcases mem_cons.mp hm with rfl | hmA
    · have hcpsid : v₅.sid m = v.sid pp := by
        rw [← hsid₅ pp hpp]
        unfold Tables.sid
        rw [hself₅, hproc₅ pp hpp]
      rw [hcpsid, hself₅] at hled
      exact absurd hled (hpidp pp hpp).2.2
    · rw [hsid₅ m hmA, hproc₅ m hmA] at hled
      rw [hproc₅ m hmA]
      exact h.led m hmA hled
  · refine ⟨fun m hm q hq => ?_, fun q hq m => ?_, fun q hq => ?_⟩
    · rcases mem_cons.mp hm with rfl | hm
      · rw [hself₅] at hq
        obtain rfl : pp = q := some.inj hq
        rw [hproc₅ pp hpp]
        exact ⟨mem_cons_of_mem m hpp, hactive⟩
      · rw [hproc₅ m hm] at hq
        obtain ⟨hqA, hqs⟩ := h.family.parent m hm q hq
        rw [hproc₅ q hqA]
        exact ⟨mem_cons_of_mem cp hqA, hqs⟩
    · rw [hchild₅, mem_cons]
      by_cases hmc : m = cp
      · subst hmc
        rw [hself₅]
        by_cases hqpp : q = pp
        · rw [hqpp, update_self]
          exact iff_of_true (mem_cons_self ..) ⟨.inl rfl, rfl⟩
        · rw [update_of_ne hqpp]
          refine iff_of_false ?_ fun hboth => hqpp (some.inj hboth.2).symm
          rcases mem_cons.mp hq with rfl | hqA
          · rw [update_self]
            exact not_mem_nil
          · rw [update_of_ne (hpc q hqA), h.family.child q hqA]
            exact fun hboth => hcp hboth.1
      · have hright : (m = cp ∨ m ∈ A) ∧ (v₅.proc m).pParent = some q ↔
            m ∈ A ∧ (v.proc m).pParent = some q := by
          rw [or_iff_right hmc]
          exact and_congr_right fun hmA => by rw [hproc₅ m hmA]
        rw [hright]
        rcases mem_cons.mp hq with rfl | hqA
        · rw [update_of_ne (fun heq => hpc pp hpp heq.symm), update_self]
          refine iff_of_false not_mem_nil ?_
          rintro ⟨hmA, hmq⟩
          exact hcp (h.family.parent m hmA q hmq).1
        · by_cases hqpp : q = pp
          · rw [hqpp, update_self, mem_cons, or_iff_right hmc]
            exact h.family.child pp hpp m
          · rw [update_of_ne hqpp, update_of_ne (hpc q hqA)]
            exact h.family.child q hqA m
    · rw [hchild₅]
      by_cases hqpp : q = pp
      · rw [hqpp, update_self]
        refine nodup_cons.mpr ⟨fun hmem => ?_, h.family.nodup pp hpp⟩
        exact hcp ((h.family.child pp hpp cp).mp hmem).1
      · rw [update_of_ne hqpp]
        rcases mem_cons.mp hq with rfl | hqA
        · rw [update_self]
          exact nodup_nil
        · rw [update_of_ne (hpc q hqA)]
          exact h.family.nodup q hqA
  -- The new process is in the group of its parent, and so not linked.
  · intro k hk
    have hnext : ∀ m ∈ A, v₅.pglinked m = v.pglinked m := by
      intro m hm
      unfold Tables.pglinked
      rw [hproc₅ m hm]
      cases hq : (v.proc m).pParent with
      | none => rfl
      | some q => simp only [hproc₅ q (h.family.parent m hm q hq).1]
    have hplain : v₅.pglinked cp = false := by
      have hpar : (v₅.proc cp).pParent = some pp := congrArg Proc.pParent hself₅
      rw [pglinked_child hpar, hproc₅ pp hpp, hself₅, hg]
      simp
    have hexists : ∃ m ∈ A, (v.proc m).pPgidp = some k := by
      obtain ⟨m, hm, hmk⟩ := hk
      rcases mem_cons.mp hm with rfl | hm
      · rw [hself₅] at hmk
        exact ⟨pp, hpp, hg.trans hmk⟩
      · rw [hproc₅ m hm] at hmk
        exact ⟨m, hm, hmk⟩
    have hkpidp : k ≠ pidp := by
      rintro rfl
      obtain ⟨m, hm, hmk⟩ := hexists
      exact (hpidp m hm).2.1 hmk
    have hflag₃ : (v₃.pid k).pidPgorphaned = (v.pid k).pidPgorphaned := by
      rw [heq₃]
      exact congrArg Pid.pidPgorphaned (update_of_ne hkpidp _ _)
    have hflag : (v₅.pid k).pidPgorphaned = (v.pid k).pidPgorphaned := by
      change ((v₃.pgjoin cp g).pid k).pidPgorphaned = _
      by_cases hkg : k = g
      · have hunlinked : (v₃.pgjoin cp g).pglinked cp = false := by
          have horphan : ((v₃.pgjoin cp g).proc cp).pParent = none := by
            rw [hself₄]
          unfold Tables.pglinked
          rw [horphan]
        have hmembers : ∃ m ∈ cp :: A, (v₃.proc m).pPgidp = some g :=
          ⟨pp, mem_cons_of_mem cp hpp, hppg₃⟩
        rw [← hflag₃, Bool.eq_iff_iff, hkg, hflags.2]
        exact ⟨fun hboth => hboth.1 hmembers, fun hyes => ⟨fun _ => hyes, hunlinked⟩⟩
      · rw [hflags.1 k hkg, hflag₃]
    rw [hflag, h.flags k hexists]
    constructor
    · intro hall' m hm hmk
      rcases mem_cons.mp hm with rfl | hm
      · exact hplain
      · rw [hnext m hm]
        rw [hproc₅ m hm] at hmk
        exact hall' m hm hmk
    · intro hall' m hm hmk
      rw [← hnext m hm]
      exact hall' m (mem_cons_of_mem cp hm) (by rw [hproc₅ m hm]; exact hmk)

end Lives

end Procs
end Svr4
