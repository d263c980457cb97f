import Svr4.Streams.FlowControl
import Svr4.Streams.Stream

/-!
# Back-enabling and the queues of a stream

The invariant of all queues of a stream, and what enabling a queue and
`setqback` do to them: flags are set and bands without messages appear.
-/

namespace Svr4
namespace Streams

open Function Blocks RankedList List Queue

/-!
## Queues with more bands
-/

/-- The queue `q'` has the messages of `q` and perhaps more bands. -/
structure Widened (q q' : Queue) : Prop where
  ok : ∀ {m l}, q.Ok m l → q'.Ok m l
  keep : ∀ {c f}, q.flow c = some f → q'.flow c = some f
  flows : ∀ {c f}, q'.flow c = some f → q.flow c = some f ∨
    q.qNband < c ∧ f = Flow.fresh q.qHiwat q.qLowat
  back : ∀ {c}, q.back c = true → q'.back c = true
  qHiwat : q'.qHiwat = q.qHiwat
  qLowat : q'.qLowat = q.qLowat
  qiSrvp : q'.qiSrvp = q.qiSrvp
  qNband : q.qNband ≤ q'.qNband

section Widening

variable {q q' q'' : Queue} {pri c : Nat}

theorem Widened.refl (q : Queue) : Widened q q where
  ok h := h
  keep h := h
  flows h := .inl h
  back h := h
  qHiwat := rfl
  qLowat := rfl
  qiSrvp := rfl
  qNband := Nat.le_refl _

theorem Widened.trans (h : Widened q q') (h' : Widened q' q'') : Widened q q'' where
  ok hok := h'.ok (h.ok hok)
  keep hf := h'.keep (h.keep hf)
  flows hf := by
    rcases h'.flows hf with hf | ⟨hlt, hf⟩
    · exact h.flows hf
    · have := h.qNband
      rw [h.qHiwat, h.qLowat] at hf
      exact .inr ⟨by omega, hf⟩
  back hb := h'.back (h.back hb)
  qHiwat := h'.qHiwat.trans h.qHiwat
  qLowat := h'.qLowat.trans h.qLowat
  qiSrvp := h'.qiSrvp.trans h.qiSrvp
  qNband := Nat.le_trans h.qNband h'.qNband

theorem Widened.of_eq (hfirst : q'.qFirst = q.qFirst)
    (hlast : q'.qLast = q.qLast) (hbands : q'.qBandp = q.qBandp)
    (hzero : q'.flow 0 = q.flow 0) (hback : q.qBack = true → q'.qBack = true)
    (hsrvp : q'.qiSrvp = q.qiSrvp) : Widened q q' := by
  have hband : ∀ c, q'.band? c = q.band? c := by
    intro c
    unfold band?
    rw [hbands]
  have hflow : ∀ c, q'.flow c = q.flow c := by
    intro c
    by_cases hc : c = 0
    · rw [hc, hzero]
    · rw [Queue.flow_band (by omega), Queue.flow_band (by omega), hband]
  have hnband : q'.qNband = q.qNband := by
    unfold Queue.qNband
    rw [hbands]
  have hmarks := hzero
  rw [flow_zero, flow_zero, Option.some.injEq, Flow.mk.injEq] at hmarks
  refine ⟨fun h => h.of_queue hfirst hlast hnband ?_, ?_, ?_, ?_, hmarks.2.1,
    hmarks.2.2.1, hsrvp, Nat.le_of_eq hnband.symm⟩
  · intro c _
    unfold delim
    rw [hband]
  · intro c f hf
    rwa [hflow]
  · intro c f hf
    rw [hflow] at hf
    exact .inl hf
  · intro c
    unfold Queue.back
    rw [hband]
    by_cases hc : c = 0
    · rw [if_pos hc, if_pos hc]
      exact hback
    · rw [if_neg hc, if_neg hc]
      exact fun h => h

theorem Widened.addBands (q : Queue) {k : Nat} (hk : q.qNband + k < 256) :
    Widened q (q.addBands k) where
  ok h := h.addBands hk
  keep hf := by
    rw [flow_addBands, if_pos (le_of_flow hf)]
    exact hf
  flows {c f} hf := by
    rw [flow_addBands] at hf
    by_cases hc : c ≤ q.qNband
    · rw [if_pos hc] at hf
      exact .inl hf
    · rw [if_neg hc] at hf
      by_cases hc' : c ≤ q.qNband + k
      · rw [if_pos hc', Option.some.injEq] at hf
        exact .inr ⟨by omega, hf.symm⟩
      · rw [if_neg hc'] at hf
        cases hf
  back {c} hb := by
    unfold Queue.back at hb ⊢
    by_cases hc : c = 0
    · rw [if_pos hc] at hb ⊢
      exact hb
    · rw [if_neg hc] at hb ⊢
      cases hband : q.band? c with
      | none =>
        rw [hband] at hb
        cases hb
      | some qb =>
        have hle := le_of_band? (by omega) hband
        rw [band?_addBands q (by omega), if_pos hle]
        exact hb
  qHiwat := rfl
  qLowat := rfl
  qiSrvp := rfl
  qNband := by
    rw [qNband_addBands]
    omega

theorem Widened.setBack (q : Queue) (hpri : 1 ≤ pri) :
    Widened q (q.modBand pri fun qb => { qb with qbBack := true }) := by
  have hflow : ∀ c, (q.modBand pri fun qb => { qb with qbBack := true }).flow c = q.flow c := by
    intro c
    rw [flow_modBand _ hpri]
    by_cases hc : c = pri
    · have hpos : 1 ≤ c := by omega
      rw [if_pos hc, Queue.flow_band hpos]
      rfl
    · rw [if_neg hc]
  refine ⟨fun h => h.of_queue rfl rfl (qNband_modBand _) ?_, ?_, ?_, ?_,
    rfl, rfl, rfl, Nat.le_of_eq (qNband_modBand _).symm⟩
  · intro c hc
    unfold delim
    rw [band?_modBand _ hc hpri]
    by_cases hne : c = pri
    · rw [if_pos hne, Option.map_map]
      rfl
    · rw [if_neg hne]
  · intro c f hf
    rwa [hflow]
  · intro c f hf
    rw [hflow] at hf
    exact .inl hf
  · intro c hb
    unfold Queue.back at hb ⊢
    by_cases hc : c = 0
    · rw [if_pos hc] at hb ⊢
      exact hb
    · rw [if_neg hc] at hb ⊢
      rw [band?_modBand _ (by omega) hpri]
      by_cases hne : c = pri
      · rw [if_pos hne]
        cases hband : q.band? c with
        | none =>
          rw [hband] at hb
          cases hb
        | some qb => rfl
      · rw [if_neg hne]
        exact hb

theorem setqback_spec (avail : List Bool) (q : Queue) (hq : q.qNband < 256) (hpri : pri < 256) :
    ∃ set q' rest, setqback pri avail q = (set, q', rest) ∧ Widened q q' ∧
      q'.qNband < 256 ∧ q'.qEnab = q.qEnab ∧ (set = true → q'.back pri = true) := by
  by_cases h0 : pri = 0
  · refine ⟨true, { q with qBack := true }, avail, if_pos h0, ?_, hq, rfl, ?_⟩
    · exact Widened.of_eq rfl rfl rfl rfl (fun _ => rfl) rfl
    · simp [Queue.back, h0]
  · rcases growBands_spec pri avail q with ⟨k, rest, hrun, hk⟩
    have hroom : q.qNband + k < 256 := by omega
    have hwide := Widened.addBands q hroom
    by_cases hle : pri ≤ q.qNband + k
    · refine ⟨true, (q.addBands k).modBand pri fun qb =>
        { qb with qbBack := true }, rest, ?_,
        hwide.trans (Widened.setBack _ (by omega)), ?_, rfl, ?_⟩
      · simp [setqback, h0, hrun, hle]
      · rw [qNband_modBand, qNband_addBands]
        exact hroom
      · intro _
        rcases band?_isSome (q := q.addBands k) (c := pri) (by omega)
          (by rw [qNband_addBands]; exact hle) with ⟨qb, hqb⟩
        unfold Queue.back
        rw [if_neg h0, band?_modBand _ (by omega) (by omega), if_pos rfl, hqb]
        rfl
    · refine ⟨false, q.addBands k, rest, ?_, hwide, ?_, rfl, ?_⟩
      · simp [setqback, h0, hrun, hle]
      · rw [qNband_addBands]
        exact hroom
      · intro hfalse
        cases hfalse

theorem setqbacks_spec (bands : List Nat) (avail : List Bool) (q : Queue)
    (hq : q.qNband < 256) (hbands : ∀ c ∈ bands, c < 256) :
    ∃ warned q' rest, setqbacks bands avail q = (warned, q', rest) ∧
      Widened q q' ∧ q'.qNband < 256 ∧ q'.qEnab = q.qEnab ∧
      ∀ c ∈ bands, q'.back c = true ∨ c ∈ warned := by
  induction bands generalizing avail q with
  | nil =>
    exact ⟨[], q, avail, rfl, Widened.refl q, hq, rfl, fun c hc => by cases hc⟩
  | cons pri rest ih =>
    rcases setqback_spec avail q hq (hbands pri (by simp)) with
      ⟨set, q₁, avail₁, hrun, hwide, hq₁, henab, hset⟩
    rcases ih avail₁ q₁ hq₁ (fun c hc => hbands c (by simp [hc])) with
      ⟨warned, q₂, avail₂, hrun', hwide', hq₂, henab', hrest⟩
    refine ⟨if set then warned else pri :: warned, q₂, avail₂, ?_,
      hwide.trans hwide', hq₂, henab'.trans henab, ?_⟩
    · simp only [setqbacks, hrun, hrun']
    · intro c hc
      rcases mem_cons.mp hc with rfl | hc
      · cases set with
        | true => exact .inl (hwide'.back (hset rfl))
        | false => exact .inr (by simp)
      · rcases hrest c hc with hb | hw
        · exact .inl hb
        · right
          cases set with
          | true => exact hw
          | false => exact mem_cons_of_mem _ hw

end Widening

/-!
## The invariant
-/

variable {m : Blocks} {l : List Nat}

theorem Blocks.follow_eq {h : Option Nat} {fuel : Nat} (hchain : Chain m.next h l none)
    (hfuel : l.length ≤ fuel) : m.follow fuel h = l := by
  induction l generalizing h fuel with
  | nil =>
    rw [Chain.nil_iff.mp hchain]
    cases fuel <;> rfl
  | cons p rest ih =>
    rw [length_cons] at hfuel
    obtain ⟨n, rfl⟩ : ∃ n, fuel = n + 1 := ⟨fuel - 1, by omega⟩
    rcases hchain with ⟨rfl, hrest⟩
    unfold follow
    rw [show (m.blk p).bNext = m.next p from rfl, ih hrest (by omega)]

variable {q : Queue}

theorem Queue.Ok.msgs_eq (h : q.Ok m l) : q.msgs m = l :=
  follow_eq h.links.forward h.length_le

/-- The enabled queues are those on the list of `queuerun`. -/
def Stream.Scheduled (s : Stream) : Prop :=
  s.qhead.Nodup ∧ ∀ i, (s.q i).qEnab = true ↔ i ∈ s.qhead

/-- The queues of a stream are in order and share no message. -/
structure Stream.Sound (s : Stream) : Prop where
  ok : ∀ i, (s.q i).Ok s.m (s.msgs i)
  apart : ∀ i j, i ≠ j → ∀ p ∈ s.msgs i, p ∉ s.msgs j
  enab : s.Scheduled

/-- The account of every band of every queue meets a condition. -/
def Stream.Books (P : Account → Prop) (s : Stream) : Prop :=
  ∀ i c f, (s.q i).flow c = some f → P (s.m.account (s.msgs i) c f)

/--
Queues are enabled, and queues get bands and notes of back-enabling, but no
message and no account of a band changes.
-/
structure Stream.Widened (s t : Stream) : Prop where
  m : t.m = s.m
  nq : t.nq = s.nq
  q : ∀ i, Streams.Widened (s.q i) (t.q i)
  enab : s.Scheduled → t.Scheduled
  mono : ∀ i, (s.q i).qEnab = true → (t.q i).qEnab = true

namespace Stream

variable {s t u : Stream} {P : Account → Prop} {i j : Nat}

theorem Widened.refl (s : Stream) : s.Widened s :=
  ⟨rfl, rfl, fun _ => Streams.Widened.refl _, fun h => h, fun _ h => h⟩

theorem Widened.trans (h : s.Widened t) (h' : t.Widened u) : s.Widened u :=
  ⟨h'.m.trans h.m, h'.nq.trans h.nq, fun i => (h.q i).trans (h'.q i),
    fun he => h'.enab (h.enab he), fun i he => h'.mono i (h.mono i he)⟩

theorem Widened.msgs (h : s.Widened t) (hs : s.Sound) (i : Nat) : t.msgs i = s.msgs i := by
  unfold Stream.msgs
  rw [h.m]
  exact ((h.q i).ok (hs.ok i)).msgs_eq

theorem Widened.sound (h : s.Widened t) (hs : s.Sound) : t.Sound where
  ok i := by
    rw [h.msgs hs, h.m]
    exact (h.q i).ok (hs.ok i)
  apart i j hne p hp := by
    rw [h.msgs hs] at hp ⊢
    exact hs.apart i j hne p hp
  enab := h.enab hs.enab

theorem account_fresh {c : Nat} (h : q.Ok m l) (hc : q.qNband < c) (f : Flow) :
    m.account l c f = ⟨f, 0, false⟩ := by
  have hnone : ∀ p ∈ l, ¬ m.band p = c := by
    intro p hp
    have := h.bands p hp
    omega
  have hfilter : (l.filter fun p => decide (m.band p = c)) = [] := by
    rw [filter_eq_nil_iff]
    intro p hp
    simpa using hnone p hp
  have hany : (l.any fun p => decide (m.band p = c)) = false := by
    rw [any_eq_false]
    intro p hp
    simpa using hnone p hp
  simp [Blocks.account, Blocks.bytes, hfilter, hany]

theorem law_fresh (hP : Account.Law P) (hb : s.Books P) :
    P ⟨Flow.fresh (s.q i).qHiwat (s.q i).qLowat, 0, false⟩ :=
  hP.fresh _ (hb i 0 _ (flow_zero _))

theorem Widened.books (h : s.Widened t) (hs : s.Sound) (hP : Account.Law P)
    (hb : s.Books P) : t.Books P := by
  intro i c f hf
  rw [h.m, h.msgs hs]
  rcases (h.q i).flows hf with hf | ⟨hlt, rfl⟩
  · exact hb i c f hf
  · rw [account_fresh (hs.ok i) hlt]
    exact law_fresh hP hb

theorem qenable_widened (s : Stream) (i : Nat) : s.Widened (s.qenable i) := by
  unfold qenable
  by_cases h : ((s.q i).qiSrvp && !(s.q i).qEnab) = true
  · rw [if_pos h]
    refine ⟨rfl, rfl, ?_, ?_, ?_⟩
    · intro j
      by_cases hj : j = i
      · subst hj
        simp only [setQ, update_self]
        exact Streams.Widened.of_eq rfl rfl rfl rfl (fun h => h) rfl
      · simp only [setQ, update_of_ne hj]
        exact Streams.Widened.refl _
    · rintro ⟨hnodup, he⟩
      have hi : i ∉ s.qhead := by
        rw [← he i]
        simp only [Bool.and_eq_true, Bool.not_eq_true'] at h
        simp [h.2]
      refine ⟨hnodup.append (nodup_singleton i) (by simpa using hi), ?_⟩
      intro j
      simp only [setQ, mem_append, mem_singleton]
      by_cases hj : j = i
      · simp [hj]
      · simp [hj, he j]
    · intro j he
      by_cases hj : j = i
      · simp [setQ, hj]
      · simpa [setQ, update_of_ne hj] using he
  · rw [if_neg h]
    exact Widened.refl s

theorem qenable_enab (s : Stream) (h : (s.q i).qiSrvp = true) :
    ((s.qenable i).q i).qEnab = true := by
  unfold qenable
  split
  · simp [setQ]
  · rename_i hno
    simpa [h] using hno

theorem backSrvp_congr (h : ∀ j, (t.q j).qiSrvp = (s.q j).qiSrvp) (i : Nat) :
    t.backSrvp i = s.backSrvp i := by
  induction i with
  | zero => rfl
  | succ i ih =>
    unfold backSrvp
    rw [h, ih]

theorem backSrvp_srvp (h : s.backSrvp i = some j) : (s.q j).qiSrvp = true := by
  induction i with
  | zero => cases h
  | succ i ih =>
    unfold backSrvp at h
    split at h
    · cases h
      assumption
    · exact ih h

theorem setQ_widened (hwide : Streams.Widened (s.q i) q)
    (henab : q.qEnab = (s.q i).qEnab) : s.Widened (s.setQ i q) := by
  have hsame : ∀ j, ((s.setQ i q).q j).qEnab = (s.q j).qEnab := by
    intro j
    by_cases hj : j = i
    · subst hj
      simp [setQ, henab]
    · simp [setQ, update_of_ne hj]
  refine ⟨rfl, rfl, ?_, ?_, ?_⟩
  · intro j
    by_cases hj : j = i
    · subst hj
      simpa [setQ] using hwide
    · simp only [setQ, update_of_ne hj]
      exact Streams.Widened.refl _
  · rintro ⟨hnodup, he⟩
    refine ⟨hnodup, ?_⟩
    intro j
    rw [hsame]
    exact he j
  · intro j he
    rwa [hsame]

theorem backenable_spec (avail : List Bool) (i : Nat) {relief : Relief}
    (hs : s.Sound) (hsmall : Small relief) :
    ∃ warned t rest, s.backenable avail i relief = (warned, t, rest) ∧ s.Widened t ∧
      ∀ bs, relief = some bs → ∀ j, s.backSrvp i = some j → (t.q j).qEnab = true ∧
        ∀ c ∈ bs, (t.q j).back c = true ∨ c ∈ warned := by
  cases relief with
  | none =>
    exact ⟨[], s, avail, rfl, Widened.refl s, fun bs hbs => by cases hbs⟩
  | some bs =>
    cases hback : s.backSrvp i with
    | none =>
      refine ⟨[], s, avail, by simp [backenable, hback], Widened.refl s, ?_⟩
      intro bs' _ j hj
      cases hj
    | some j =>
      have hwide := s.qenable_widened j
      have hok := (hwide.sound hs).ok j
      rcases setqbacks_spec bs avail ((s.qenable j).q j) hok.nband
        (hsmall bs rfl) with ⟨warned, q, rest, hrun, hq, _, henab, hset⟩
      refine ⟨warned, (s.qenable j).setQ j q, rest, ?_, hwide.trans (setQ_widened hq henab), ?_⟩
      · simp only [backenable, hback, hrun]
      · intro bs' hbs' j' hj'
        cases hbs'
        cases hj'
        have hself : ((s.qenable j).setQ j q).q j = q := by simp [setQ]
        rw [hself, henab]
        exact ⟨s.qenable_enab (backSrvp_srvp hback), hset⟩

theorem backenables_spec (i : Nat) (reliefs : List Relief) (avail : List Bool)
    (hs : s.Sound) (hsmall : ∀ relief ∈ reliefs, Small relief) :
    ∃ warned t, backenables i reliefs avail s = (warned, t) ∧ s.Widened t ∧
      ∀ bs, some bs ∈ reliefs → ∀ j, s.backSrvp i = some j → (t.q j).qEnab = true ∧
        ∀ c ∈ bs, (t.q j).back c = true ∨ c ∈ warned := by
  induction reliefs generalizing avail s with
  | nil => exact ⟨[], s, rfl, Widened.refl s, fun bs hbs => by cases hbs⟩
  | cons relief rest ih =>
    rcases backenable_spec avail i hs (hsmall relief (by simp)) with
      ⟨warned, t, avail', hrun, hwide, hset⟩
    rcases ih avail' (hwide.sound hs) (fun r hr => hsmall r (by simp [hr])) with
      ⟨warned', u, hrun', hwide', hset'⟩
    refine ⟨warned ++ warned', u, by simp only [backenables, hrun, hrun'], hwide.trans hwide', ?_⟩
    intro bs hbs j hj
    rcases mem_cons.mp hbs with rfl | hbs
    · rcases hset bs rfl j hj with ⟨he, hb⟩
      refine ⟨hwide'.mono j he, ?_⟩
      intro c hc
      rcases hb c hc with hb | hw
      · exact .inl ((hwide'.q j).back hb)
      · exact .inr (mem_append_left _ hw)
    · have hback := backSrvp_congr (fun k => (hwide.q k).qiSrvp) i
      rw [hj] at hback
      rcases hset' bs hbs j hback with ⟨he, hb⟩
      refine ⟨he, ?_⟩
      intro c hc
      rcases hb c hc with hb | hw
      · exact .inl hb
      · exact .inr (mem_append_right _ hw)

end Stream

end Streams
end Svr4
