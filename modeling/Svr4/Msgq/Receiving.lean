import Mathlib.Data.List.Perm.Subperm
import Svr4.Msgq.Calls

/-!
# The turns of a receiver

The loop of `msgrcv` finds the message that the type asks for; the message leaves its
queue when it has been copied out.
-/

namespace Svr4
namespace Msgq

open Function Rmap List

/-!
## Finding a message
-/

def Best (k : Kernel) (msgtyp : Int) (l : List Nat) : Option (Nat × Option Nat) → Prop
  | none => Unmatched msgtyp (l.map k.msgType)
  | some (smp, spmp) => ∃ pre post, l = pre ++ smp :: post ∧ spmp = pre.getLast? ∧
      Takes msgtyp (pre.map k.msgType) (k.msgType smp) (post.map k.msgType)

variable {pre post types : List Int} {done l : List Nat} {best : Option (Nat × Option Nat)}
  {m mp : Nat}

section Scan

variable {c : Config} {k : Kernel} {g : Ghost} {msgtyp : Int} {q : Nat}

theorem takes_pos {type : Int} (hpos : 0 < msgtyp) :
    Takes msgtyp pre type post ↔ type = msgtyp ∧ ∀ x ∈ pre, x ≠ msgtyp := by
  unfold Takes
  rw [if_neg (by omega), if_pos hpos]

theorem takes_neg {type : Int} (hneg : msgtyp < 0) :
    Takes msgtyp pre type post ↔ type ≤ -msgtyp ∧ (∀ x ∈ pre, type < x) ∧ ∀ x ∈ post, type ≤ x := by
  unfold Takes
  rw [if_neg (by omega), if_neg (by omega)]

theorem unmatched_pos (hpos : 0 < msgtyp) : Unmatched msgtyp types ↔ ∀ x ∈ types, x ≠ msgtyp := by
  unfold Unmatched
  rw [if_neg (by omega), if_pos hpos]

theorem unmatched_neg (hneg : msgtyp < 0) : Unmatched msgtyp types ↔ ∀ x ∈ types, -msgtyp < x := by
  unfold Unmatched
  rw [if_neg (by omega), if_neg (by omega)]

theorem best_pass (hneg : msgtyp < 0) (hbest : Best k msgtyp done best)
    (hpass : best.elim (-msgtyp < k.msgType m) fun b => k.msgType b.1 ≤ k.msgType m) :
    Best k msgtyp (done ++ [m]) best := by
  cases best with
  | none =>
    have hall := (unmatched_neg hneg).mp hbest
    refine (unmatched_neg hneg).mpr fun x hx => ?_
    rw [map_append] at hx
    rcases mem_append.mp hx with hx | hx
    · exact hall x hx
    · rw [mem_singleton.mp hx]
      exact hpass
  | some b =>
    obtain ⟨pre, post, hsplit, hlast, htakes⟩ := hbest
    obtain ⟨hle, hpre, hpost⟩ := (takes_neg hneg).mp htakes
    refine ⟨pre, post ++ [m], by rw [hsplit]; simp, hlast, (takes_neg hneg).mpr
      ⟨hle, hpre, fun x hx => ?_⟩⟩
    rw [map_append] at hx
    rcases mem_append.mp hx with hx | hx
    · exact hpost x hx
    · rw [mem_singleton.mp hx]
      exact hpass

theorem best_take (hneg : msgtyp < 0) (hbest : Best k msgtyp done best)
    (hm : k.msgType m ≤ -msgtyp) (htake : best.elim True fun b => k.msgType m < k.msgType b.1) :
    Best k msgtyp (done ++ [m]) (some (m, done.getLast?)) := by
  refine ⟨done, [], rfl, rfl, (takes_neg hneg).mpr ⟨hm, fun x hx => ?_, nofun⟩⟩
  cases best with
  | none =>
    have hlt := (unmatched_neg hneg).mp hbest x hx
    omega
  | some b =>
    obtain ⟨pre, post, hsplit, _, htakes⟩ := hbest
    obtain ⟨_, hpre, hpost⟩ := (takes_neg hneg).mp htakes
    have hlt : k.msgType m < k.msgType b.1 := htake
    rw [hsplit, map_append, map_cons] at hx
    rcases mem_append.mp hx with hx | hx
    · have hx' := hpre x hx
      omega
    · rcases mem_cons.mp hx with rfl | hx
      · exact hlt
      · have hx' := hpost x hx
        omega

theorem scan_spec (htyp : msgtyp ≠ 0) (hok : long (-msgtyp) = -msgtyp) {n : Nat} :
    ∀ {mp : Option Nat} {done l : List Nat} {best : Option (Nat × Option Nat)},
      Chain k.msgNext mp l none → l.length < n → Best k msgtyp done best →
      (0 < msgtyp → best = none) →
      ∃ r, scan k msgtyp n mp done.getLast? best = some r ∧ Best k msgtyp (done ++ l) r := by
  induction n with
  | zero =>
    omega
  | succ n ih =>
    intro mp done l best hchain hlen hbest hnone
    cases l with
    | nil =>
      have hmp : mp = none := hchain
      rw [hmp, append_nil]
      exact ⟨best, rfl, hbest⟩
    | cons m l =>
      obtain ⟨hmp, hrest⟩ := hchain
      have hlen' : l.length < n := by
        rw [length_cons] at hlen
        omega
      have hlast : some m = (done ++ [m]).getLast? := by simp
      have happ : done ++ m :: l = done ++ [m] ++ l := by simp
      rw [hmp, happ]
      unfold scan
      simp only
      split
      · rename_i hpos
        have hbest₀ := hnone hpos
        split
        · -- of another type
          rename_i hne
          rw [hlast]
          refine ih hrest hlen' ?_ fun _ => hbest₀
          rw [hbest₀] at hbest ⊢
          have hall := (unmatched_pos hpos).mp hbest
          refine (unmatched_pos hpos).mpr fun x hx => ?_
          rw [map_append] at hx
          rcases mem_append.mp hx with hx | hx
          · exact hall x hx
          · rw [mem_singleton.mp hx]
            exact Ne.symm hne
        · rename_i heq
          rw [hbest₀] at hbest
          refine ⟨_, rfl, done, l, by simp, rfl, (takes_pos hpos).mpr
            ⟨?_, (unmatched_pos hpos).mp hbest⟩⟩
          exact (Classical.not_not.mp heq).symm
      · rename_i hnpos
        have hneg : msgtyp < 0 := by omega
        have hno : ∀ {b : Option (Nat × Option Nat)}, 0 < msgtyp → b = none :=
          fun hpos => absurd hpos hnpos
        rw [hok, hlast]
        split
        · rename_i hle
          cases hb : best with
          | none =>
            rw [hb] at hbest
            exact ih hrest hlen' (best_take hneg hbest hle trivial) hno
          | some b =>
            rw [hb] at hbest
            simp only
            split
            · rename_i hsmp
              exact ih hrest hlen' (best_pass hneg hbest hsmp) hno
            · rename_i hsmp
              exact ih hrest hlen' (best_take hneg hbest hle (by
                change k.msgType m < k.msgType b.1
                omega)) hno
        · rename_i hgt
          refine ih hrest hlen' (best_pass hneg hbest ?_) hno
          cases hb : best with
          | none =>
            change -msgtyp < k.msgType m
            omega
          | some b =>
            rw [hb] at hbest
            obtain ⟨_, _, _, _, htakes⟩ := hbest
            have hle := ((takes_neg hneg).mp htakes).1
            change k.msgType b.1 ≤ k.msgType m
            omega

theorem Laid.onq_length (hl : Laid c k g) (q : Nat) : (g.onq q).length ≤ c.msgtql := by
  have hsub : g.onq q ⊆ List.range c.msgtql := by
    intro h hh
    rw [hl.queueOwn] at hh
    exact mem_range.mpr (hl.outside h (by rw [hh]; nofun))
  have hlen := ((hl.onq_nodup q).subperm hsub).length_le
  rw [length_range] at hlen
  exact hlen

theorem find_spec (hl : Laid c k g) (hok : long (-msgtyp) = -msgtyp) (q : Nat) :
    ∃ r, find c k msgtyp q = some r ∧ Best k msgtyp (g.onq q) r := by
  unfold find
  split
  · rename_i hzero
    have hchain := hl.queue q
    refine ⟨_, rfl, ?_⟩
    cases honq : g.onq q with
    | nil =>
      rw [honq] at hchain
      have hfirst : (k.msgque q).msgFirst = none := hchain
      rw [hfirst]
      change Unmatched msgtyp []
      unfold Unmatched
      rw [if_pos hzero]
    | cons m l =>
      rw [honq] at hchain
      rw [hchain.1]
      refine ⟨[], l, rfl, rfl, ?_⟩
      unfold Takes
      rw [if_pos hzero]
      rfl
  · rename_i hne
    have hlen := hl.onq_length q
    have hempty : Best k msgtyp [] none := by
      change Unmatched msgtyp []
      unfold Unmatched
      rw [if_neg hne]
      split
      · exact nofun
      · exact nofun
    have hspec := scan_spec hne hok (n := c.msgtql + 1) (hl.queue q) (by omega) hempty fun _ => rfl
    exact hspec

end Scan

/-!
## Receiving
-/

section Receive

variable {c : Config} {k : Kernel} {g : Ghost} {st : Store} {log : List Action}
  {p q : Nat} {a : Rcv}

theorem turn_findmsg (hcore : Core c k g st log) (hlock : Locked k q)
    (hmine : ∀ h, g.own h ≠ .held p) (ha : a.Ok) :
    ∃ o, findmsg c k a q = some o ∧ Turn c k g log p q o g st ∧ Calm c k g o g := by
  obtain ⟨r, hrun, hbest⟩ := find_spec hcore.laid ha q
  have hexp : Explains (log ++ []) st := by
    rw [append_nil]
    exact hcore.explains
  unfold findmsg
  rw [hrun]
  cases r with
  | none =>
    have hunmatched : Unmatched a.msgtyp ((st.queues q).map Message.type) := by
      have htypes : (g.onq q).map k.msgType = (st.queues q).map Message.type := by
        have htexts := congrArg (List.map Prod.fst) (hcore.texts q)
        rw [map_map, map_map] at htexts
        exact htexts
      rw [← htypes]
      exact hbest
    simp only
    split
    · exact ⟨_, rfl, turn_flags (f := fun qp => { qp with msglock := false }) hcore hlock hmine
        ⟨rfl, rfl, rfl, rfl, rfl⟩ (.nomsg q a.msgtyp hcore.explains hunmatched) rfl
        (.inl rfl) trivial, progress_flags (f := fun qp => { qp with msglock := false })
        .inl .inl rfl (Nat.le_refl _), trivial⟩
    · rw [Kernel.unlock, amend_amend]
      have hwait : Waiting c (k.amend q fun qp => { qp with msgRwait := true, msglock := false })
          g (.waitMsg a q) := by
        unfold Waiting
        simp only [amend_self]
        exact ⟨trivial, hbest⟩
      exact ⟨_, rfl, turn_flags
        (f := fun qp => { qp with msgRwait := true, msglock := false }) hcore hlock hmine
        ⟨rfl, rfl, rfl, rfl, rfl⟩ hexp rfl (.inl rfl) ha, progress_flags
        (f := fun qp => { qp with msgRwait := true, msglock := false }) .inl
        (fun _ => .inl rfl) rfl (Nat.le_refl _), hwait⟩
  | some r =>
    obtain ⟨pre, post, hsplit, hlast, htakes⟩ := hbest
    -- the message is copied out with the queue locked
    have hcopy : ∀ sz, sz = min a.msgsz.toNat (k.msgTs r.1) →
        Turn c k g log p q ⟨k, [], .copyout a q r.1 r.2 sz, []⟩ g st ∧
          Calm c k g ⟨k, [], .copyout a q r.1 r.2 sz, []⟩ g := by
      intro sz hsz
      refine ⟨⟨{ hcore with explains := hexp }, fun _ _ => ⟨rfl, rfl, fun _ _ => ⟨rfl, rfl⟩⟩,
        fun _ _ _ => ⟨Iff.rfl, fun _ => rfl⟩, fun h =>
          iff_of_false (hmine h) (Option.some_ne_none h).symm,
        ⟨hlock, pre, post, hsplit, hlast, htakes, hsz⟩, .inr rfl, .inl hlock.2⟩,
        Progress.refl _ _, trivial⟩
    simp only
    split
    · split
      · obtain ⟨hturn, hcalm⟩ := hcopy a.msgsz.toNat (by omega)
        exact ⟨_, rfl, hturn, hcalm⟩
      · obtain ⟨hturn, hcalm⟩ := turn_ends (q := q) hcore hlock hmine
        exact ⟨_, rfl, hturn, hcalm⟩
    · obtain ⟨hturn, hcalm⟩ := hcopy (k.msgTs r.1) (by omega)
      exact ⟨_, rfl, hturn, hcalm⟩

theorem text_take (k : Kernel) (off n sz : Nat) (h : sz ≤ n) :
    k.text off sz = (k.text off n).take sz := by
  unfold Kernel.text
  rw [← map_take, take_range, Nat.min_eq_left h]

theorem own_free {h p' : Nat} (hown : g.own mp = .queue q) :
    (update g.own mp Place.free h = .held p' ↔ g.own h = .held p') ∧
      (g.own h = .held p' → update g.segs mp ∅ h = g.segs h) := by
  by_cases hm : h = mp
  · rw [hm, update_self, hown]
    exact ⟨iff_of_false nofun nofun, nofun⟩
  · rw [update_of_ne hm, update_of_ne hm]
    exact ⟨Iff.rfl, fun _ => rfl⟩

theorem texts_split {pre post : List Nat} (hcore : Core c k g st log)
    (hsplit : g.onq q = pre ++ mp :: post) :
    ∃ pre' m post', st.queues q = pre' ++ m :: post' ∧ m.type = k.msgType mp ∧
      m.text = k.textOf c mp ∧
      (pre.map fun h => (k.msgType h, k.textOf c h)) = pre'.map (fun m => (m.type, m.text)) ∧
      (post.map fun h => (k.msgType h, k.textOf c h)) = post'.map fun m => (m.type, m.text) := by
  have htexts := hcore.texts q
  rw [hsplit, map_append, map_cons] at htexts
  obtain ⟨pre', rest, hqueue, hpre, hrest⟩ := map_eq_append_iff.mp htexts.symm
  obtain ⟨m, post', hcons, hm, hpost⟩ := map_eq_cons_iff.mp hrest
  rw [hcons] at hqueue
  injection hm with htype htext
  exact ⟨pre', m, post', hqueue, htype, htext, hpre.symm, hpost.symm⟩

theorem map_fst_of_pairs {l' : List Message}
    (h : (l.map fun h => (k.msgType h, k.textOf c h)) = l'.map fun m => (m.type, m.text)) :
    l.map k.msgType = l'.map Message.type := by
  have hfst := congrArg (List.map Prod.fst) h
  rw [map_map, map_map] at hfst
  exact hfst

theorem turn_received {smp : Nat} {spmp : Option Nat} {sz : Nat} (hc : c.Valid)
    (hcore : Core c k g st log) (hpc : PcOk c k g (.copyout a q smp spmp sz))
    (hmine : ∀ h, g.own h ≠ .held p) :
    ∃ o g' st', received c k a q smp spmp sz = some o ∧ Turn c k g log p q o g' st' ∧
      Calm c k g o g' := by
  obtain ⟨hlock, pre, post, hsplit, hlast, htakes, hsz⟩ := hpc
  obtain ⟨pre', m, post', hqueue, htype, htext, hpre, hpost⟩ := texts_split hcore hsplit
  have hown : g.own smp = .queue q := by
    rw [← hcore.laid.queueOwn, hsplit]
    simp
  obtain ⟨k₁, hk₁⟩ :
    ∃ k₁, k₁ = k.amend q fun qp => { qp with msgCbytes := qp.msgCbytes - k.msgTs smp } := ⟨_, rfl⟩
  have hlaid₁ : Laid c k₁ g := by
    rw [hk₁]
    exact hcore.laid.amend rfl rfl rfl
  obtain ⟨k₂, woken, E', lost, hrun, ⟨hlaid₂, hprog₂⟩, htypes, hts, hspots, hmsg, hothers, hkept,
    hwwait⟩ := hlaid₁.msgfree hc hsplit hlast
  obtain ⟨g', hg'⟩ : ∃ g' : Ghost, g' = { g with
      onq := update g.onq q (pre ++ post)
      free := smp :: g.free
      own := update g.own smp .free
      segs := update g.segs smp ∅
      entries := E'
      lost := lost } := ⟨_, rfl⟩
  rw [← hg'] at hlaid₂ hprog₂
  have hfields₁ : k₁.msgType = k.msgType ∧ k₁.msgTs = k.msgTs ∧ k₁.msgSpot = k.msgSpot ∧
      k₁.msg = k.msg := by
    rw [hk₁]
    exact ⟨rfl, rfl, rfl, rfl⟩
  have htypes₂ : k₂.msgType = k.msgType := htypes.trans hfields₁.1
  have hts₂ : k₂.msgTs = k.msgTs := hts.trans hfields₁.2.1
  have htextOf : ∀ h, k₂.textOf c h = k.textOf c h := by
    intro h
    unfold Kernel.textOf
    rw [hspots, hts₂, hfields₁.2.2.1]
    exact text_congr fun i _ => by rw [hmsg, hfields₁.2.2.2]
  have hself₁ : k₁.msgque q = { k.msgque q with
      msgCbytes := (k.msgque q).msgCbytes - k.msgTs smp } := by
    rw [hk₁]
    exact amend_self _
  have hother₂ : ∀ q', q' ≠ q → k₂.msgque q' = k.msgque q' := by
    intro q' hq
    rw [hothers.same q' hq, hk₁]
    exact amend_of_ne hq _
  have honq : ∀ q', q' ≠ q → g'.onq q' = g.onq q' := by
    intro q' hq
    rw [hg']
    exact update_of_ne hq _ _
  have honself : g'.onq q = pre ++ post := by
    rw [hg']
    exact update_self _ _ _
  have hpair : ∀ l : List Nat, (l.map fun h => (k₂.msgType h, k₂.textOf c h)) =
      l.map fun h => (k.msgType h, k.textOf c h) := by
    intro l
    refine map_congr_left fun h _ => ?_
    rw [htypes₂, htextOf]
  have hlock₂ : Locked k₂ q := by
    unfold Locked
    rw [hkept.lock, hkept.alloc, hself₁]
    exact hlock
  -- what the receiver gets
  obtain ⟨act, hact⟩ : ∃ act, act = Action.received q a.msgtyp a.msgsz.toNat (k.msgType smp)
      (k.text (c.msgssz * (k.msgSpot smp).toNat) sz) := ⟨_, rfl⟩
  have hexp : Explains (log ++ [act])
      { st.put q (pre' ++ post') with received := m :: st.received } := by
    have htaken : k.text (c.msgssz * (k.msgSpot smp).toNat) sz = m.text.take a.msgsz.toNat := by
      rw [htext, text_take k _ (k.msgTs smp) sz (by omega), hsz]
      have hlen : (k.textOf c smp).length = k.msgTs smp := by
        unfold Kernel.textOf Kernel.text
        simp
      have hmin : (k.textOf c smp).take (min a.msgsz.toNat (k.textOf c smp).length) =
          (k.textOf c smp).take a.msgsz.toNat := take_eq_take_min.symm
      rw [hlen] at hmin
      exact hmin
    rw [hact, htaken, ← htype]
    refine .received q a.msgtyp a.msgsz.toNat pre' m post' hcore.explains hqueue ?_
    rw [htype, ← map_fst_of_pairs hpre, ← map_fst_of_pairs hpost]
    exact htakes
  have hcore₂ : Core c k₂ g' { st.put q (pre' ++ post') with received := m :: st.received }
      (log ++ [act]) := by
    refine ⟨hlaid₂, fun q' => ?_, fun q' => ?_, hexp, fun q' ha => ?_⟩
    · by_cases hq : q' = q
      · rw [hq, honself, hkept.cbytes, hself₁, hts₂]
        rw [hcore.cbytes q, hsplit]
        simp only [map_append, map_cons, sum_append, sum_cons]
        omega
      · rw [honq q' hq, hother₂ q' hq, hts₂]
        exact hcore.cbytes q'
    · rw [hpair]
      by_cases hq : q' = q
      · rw [hq, honself, map_append, hpre, hpost, ← map_append]
        rw [Store.put_self]
      · rw [honq q' hq, hcore.texts q']
        rw [Store.put_of_ne hq]
    · by_cases hq : q' = q
      · rw [hq, hlock₂.2] at ha
        cases ha
      · rw [honq q' hq]
        rw [hother₂ q' hq] at ha
        exact hcore.unused q' ha
  have hmine' : ∀ h, g'.own h ≠ .held p := by
    intro h hh
    rw [hg'] at hh
    exact hmine h ((own_free hown).1.mp hh)
  have hturn := turn_flags (p := p) (q := q) (w := woken) (x := .idle)
    (f := fun qp => { qp with msglock := false }) hcore₂ hlock₂ hmine' ⟨rfl, rfl, rfl, rfl, rfl⟩
    (by rw [append_nil]; exact hexp) rfl (.inl rfl) trivial
  unfold received
  simp only
  rw [← hk₁, ← hact, hrun]
  refine ⟨_, g', { st.put q (pre' ++ post') with received := m :: st.received }, rfl,
    ⟨?_, fun q' hq => ?_, fun h p' _ => ?_, hturn.mine, trivial, .inl rfl,
    hturn.alloc⟩, ?_, trivial⟩
  · have hcore' := hturn.core
    rw [append_nil] at hcore'
    exact hcore'
  · refine ⟨(hturn.others q' hq).1.trans (hother₂ q' hq), honq q' hq, fun h _ => ?_⟩
    exact ⟨congrFun htypes₂ h, congrFun hts₂ h⟩
  · rw [hg']
    exact own_free hown
  · -- the senders that wait for space have been woken
    have hfirst : Progress k g k₁ g (if (k.msgque q).msgWwait then [.queue q] else []) := by
      rw [hk₁]
      refine progress_amend (fun hk => .inl ?_) .inl
      rw [if_pos hk]
      exact mem_singleton_self _
    have hlast' : Progress k₂ g' (k₂.unlock q) g' [] :=
      progress_flags (f := fun qp => { qp with msglock := false }) .inl .inl rfl (Nat.le_refl _)
    refine ((hfirst.trans hprog₂).trans hlast').more fun ch hch => ?_
    rw [append_nil] at hch
    rcases mem_append.mp hch with hch | hch
    · split at hch
      · rename_i hk
        rw [mem_singleton.mp hch]
        have hk₁w : (k₁.msgque q).msgWwait = true := by
          rw [hself₁]
          exact hk
        rcases hprog₂.queue q hk₁w with hin | ⟨hw, _⟩
        · exact hin
        · rw [hwwait] at hw
          cases hw
      · cases hch
    · exact hch

end Receive

/-!
## Removal
-/

section Remove

variable {c : Config} {k : Kernel} {g : Ghost} {st : Store} {log : List Action} {p q : Nat}

theorem removeLoop_spec (hc : c.Valid) :
    ∀ {k : Kernel} {g : Ghost} {woken : List Chan} {n : Nat}, Laid c k g → g.onq q = l →
      l.length < n → ∃ k' woken' g', removeLoop c q n k woken = some (k', woken ++ woken') ∧
        Laid c k' g' ∧ Progress k g k' g' woken' ∧ g'.onq q = [] ∧
        (∀ q', q' ≠ q → g'.onq q' = g.onq q') ∧
        (k'.msgType = k.msgType ∧ k'.msgTs = k.msgTs ∧ k'.msgSpot = k.msgSpot ∧ k'.msg = k.msg) ∧
        Others q k k' ∧ Kept q k k' ∧ ∀ h p', (g'.own h = .held p' ↔ g.own h = .held p') ∧
          (g.own h = .held p' → g'.segs h = g.segs h) := by
  induction l with
  | nil =>
    intro k g woken fuel hl honq hlen
    obtain ⟨fuel, rfl⟩ : ∃ n, fuel = n + 1 := ⟨fuel - 1, by omega⟩
    have hfirst : (k.msgque q).msgFirst = none := by
      have hchain := hl.queue q
      rw [honq] at hchain
      exact hchain
    refine ⟨k, [], g, ?_, hl, Progress.refl _ _, honq, fun _ _ => rfl, ⟨rfl, rfl, rfl, rfl⟩,
      ⟨fun _ _ => rfl⟩, ⟨rfl, rfl, rfl, rfl, rfl, rfl⟩, fun _ _ => ⟨Iff.rfl, fun _ => rfl⟩⟩
    unfold removeLoop
    rw [hfirst, append_nil]
  | cons mp l ih =>
    intro k g woken fuel hl honq hlen
    obtain ⟨fuel, rfl⟩ : ∃ n, fuel = n + 1 := ⟨fuel - 1, by omega⟩
    have hfirst : (k.msgque q).msgFirst = some mp := by
      have hchain := hl.queue q
      rw [honq] at hchain
      exact hchain.1
    have hown : g.own mp = .queue q := by
      rw [← hl.queueOwn, honq]
      exact mem_cons_self
    obtain ⟨k₁, woken₁, E', lost, hrun, ⟨hl₁, hprog₁⟩, htypes, hts, hspots, hmsg, hothers, hkept,
      _⟩ := hl.msgfree hc (a := []) (m := none) honq rfl
    have honq₁ : update g.onq q ([] ++ l) q = l := update_self _ _ _
    obtain ⟨k', woken', g', hloop, hl', hprog', hnil, honq', ⟨ht', hs', hp', hm'⟩, hothers',
      hkept', hheld'⟩ := ih (n := fuel) hl₁ honq₁ (by
        rw [length_cons] at hlen
        omega)
    refine ⟨k', woken₁ ++ woken', g', ?_, hl', hprog₁.trans hprog', hnil, fun q' hq => ?_,
      ⟨ht'.trans htypes, hs'.trans hts, hp'.trans hspots, hm'.trans hmsg⟩,
      hothers.trans hothers', ?_, fun h p' => ?_⟩
    · unfold removeLoop
      rw [hfirst]
      simp only [hrun]
      rw [hloop, append_assoc]
    · rw [honq' q' hq]
      exact update_of_ne hq _ _
    · exact ⟨hkept'.alloc.trans hkept.alloc, hkept'.seq.trans hkept.seq,
        hkept'.rwait.trans hkept.rwait, hkept'.cbytes.trans hkept.cbytes,
        hkept'.qbytes.trans hkept.qbytes, hkept'.lock.trans hkept.lock⟩
    · obtain ⟨h1, h2⟩ := hheld' h p'
      obtain ⟨h3, h4⟩ := own_free (g := g) (h := h) hown
      exact ⟨h1.trans h3, fun hh => (h2 (h3.mpr hh)).trans (h4 hh)⟩

theorem turn_remove (hc : c.Valid) (hcore : Core c k g st log) (id : Int)
    (hmine : ∀ h, g.own h ≠ .held p) :
    ∃ o g' st', remove c k id q = some o ∧ Turn c k g log p q o g' st' ∧ Calm c k g o g' := by
  have hlen := hcore.laid.onq_length q
  obtain ⟨k₁, woken, g', hrun, hl₁, hprog₁, hnil, honq, ⟨htypes, hts, hspots, hmsg⟩, hothers,
    hkept, hheld⟩ := removeLoop_spec hc hcore.laid rfl (Nat.lt_succ_of_le hlen)
  have htextOf : ∀ h, k₁.textOf c h = k.textOf c h := by
    intro h
    unfold Kernel.textOf
    rw [hspots, hts]
    exact text_congr fun i _ => by rw [hmsg]
  obtain ⟨f, hf⟩ : ∃ f : Queue → Queue, f = fun qp =>
    { qp with
      msgCbytes := 0
      seq := if id.toNat + c.msgmni > INT16_MAX then 0 else qp.seq + 1
      ipcAlloc := false
      msgRwait := false
      msgWwait := false
      msglock := false } := ⟨_, rfl⟩
  have hself : ∀ qp, (f qp).msgFirst = qp.msgFirst ∧ (f qp).msgLast = qp.msgLast ∧
      (f qp).msgQnum = qp.msgQnum ∧ (f qp).msgCbytes = 0 := by
    intro qp
    rw [hf]
    exact ⟨rfl, rfl, rfl, rfl⟩
  have hcore' : Core c (k₁.amend q f) g' (st.put q []) (log ++ [.removed q]) := by
    refine ⟨hl₁.amend (hself _).1 (hself _).2.1 (hself _).2.2.1, fun q' => ?_, fun q' => ?_,
      .removed q hcore.explains, fun q' ha => ?_⟩
    · by_cases hq : q' = q
      · rw [hq, hnil, amend_self, (hself _).2.2.2]
        rfl
      · rw [amend_of_ne hq, hothers.same q' hq, honq q' hq]
        change _ = ((g.onq q').map k₁.msgTs).sum
        rw [hts]
        exact hcore.cbytes q'
    · by_cases hq : q' = q
      · rw [hq, hnil, Store.put_self]
        rfl
      · rw [honq q' hq, Store.put_of_ne hq, ← hcore.texts q']
        refine map_congr_left fun h _ => ?_
        change (k₁.msgType h, k₁.textOf c h) = _
        rw [htypes, htextOf]
    · by_cases hq : q' = q
      · rw [hq]
        exact hnil
      · rw [amend_of_ne hq, hothers.same q' hq] at ha
        rw [honq q' hq]
        exact hcore.unused q' ha
  obtain ⟨receivers, hreceivers⟩ : ∃ ws : List Chan, ws =
    if (k₁.msgque q).msgRwait then [.qnum q] else [] := ⟨_, rfl⟩
  obtain ⟨senders, hsenders⟩ : ∃ ws : List Chan, ws =
    if (k₁.msgque q).msgWwait then [.queue q] else [] := ⟨_, rfl⟩
  have hout : remove c k id q =
      some ⟨k₁.amend q f, woken ++ receivers ++ senders, .idle, [.removed q]⟩ := by
    unfold remove
    rw [hrun]
    simp only
    rw [← hreceivers, ← hsenders, Kernel.unlock, amend_amend, hf, nil_append]
  refine ⟨_, g', st.put q [], hout, ⟨hcore', fun q' hq => ?_, fun h p' _ => hheld h p', fun h => ?_,
    trivial, .inl rfl, .inr ?_⟩, ?_, trivial⟩
  · refine ⟨(amend_of_ne hq f).trans (hothers.same q' hq), honq q' hq, fun h _ => ?_⟩
    exact ⟨congrFun htypes h, congrFun hts h⟩
  · exact iff_of_false (fun hh => hmine h ((hheld h p).1.mp hh)) (Option.some_ne_none h).symm
  · rw [amend_self, hf]
    exact ⟨rfl, rfl⟩
  · have hlast : Progress k₁ g' (k₁.amend q f) g' (receivers ++ senders) := by
      refine progress_amend (fun hk => .inl ?_) (fun hk => .inr ?_)
      · rw [hsenders, if_pos hk]
        exact mem_append_right _ (mem_singleton_self _)
      · rw [hreceivers, if_pos hk]
        exact mem_append_left _ (mem_singleton_self _)
    have hall := hprog₁.trans hlast
    rw [← append_assoc] at hall
    exact hall

end Remove

end Msgq
end Svr4
