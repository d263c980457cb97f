import Svr4.Streams.Enabling

/-!
# Calls on the queues of a stream

What each call does to the messages of the queues, to the accounts of their
bands, and to the queues upstream of one that lets a writer go on.
-/

namespace Svr4
namespace Streams

open Function Blocks RankedList List Queue

variable {m m' : Blocks} {l : List Nat} {q' q : Queue} {c pri bp : Nat} {e : Event} {o : Outcome}

namespace Stream

def effect (s : Stream) : Event → Outcome → Nat → List Nat
  | .putq i bp, o =>
    if o.ok then update s.msgs i
      (insertAt s.m.rank (s.m.rank bp) bp (s.msgs i))
    else s.msgs
  | .putbq i bp, o =>
    if o.ok then update s.msgs i
      (insertAt s.m.rank (s.m.rank bp + 1) bp (s.msgs i))
    else s.msgs
  | .getq i, o =>
    match o.bp with
    | some p => update s.msgs i ((s.msgs i).erase p)
    | none => s.msgs
  | .rmvq i mp, _ => update s.msgs i ((s.msgs i).erase mp)
  | .flushq i flag, _ =>
    update s.msgs i ((s.msgs i).filter (keptBy s.m flag))
  | .flushband i pri flag, _ =>
    update s.msgs i ((s.msgs i).filter (keptBand s.m pri flag))
  | _, _ => s.msgs

/-- A put keeps a condition on the account it charges. -/
def Charges (P : Account → Prop) (s : Stream) : Event → Prop
  | .putq i bp | .putbq i bp => ∀ a : Account,
      a.bytes = s.m.bytes (s.msgs i) (s.m.blk bp).acct → P a → P (a.charge (s.m.blk bp))
  | _ => True

/-- A flush of a queue whose bands are as many as an unsigned char can count. -/
def Wraps (s : Stream) : Event → Prop
  | .flushq i _ => (s.q i).qNband = 255
  | _ => False

structure Call (s : Stream) (e : Event) (t : Stream) (o : Outcome) : Prop where
  sound : t.Sound
  msgs : t.msgs = s.effect e o
  rank : ∀ i, ∀ p ∈ t.msgs i, t.m.rank p = s.m.rank p
  next : ∀ i, e = .getq i → o.bp = (s.msgs i).find? fun p => !(s.m.blk p).msgnoget
  books : ∀ P, Account.Law P → s.Charges P e → s.Books P → t.Books P
  relief : ¬ s.Wraps e → ∀ i c, Cleared (s.q i) (t.q i) c →
    ∀ j, s.backSrvp i = some j → (t.q j).qEnab = true ∧ ((t.q j).back c = true ∨ c ∈ o.warned)

variable {s t : Stream} {P : Account → Prop} {i : Nat} {l' : List Nat}

/-!
## One queue changes
-/

theorem account_congr (h : ∀ p ∈ l, m'.blk p = m.blk p) (c : Nat) (f : Flow) :
    m'.account l c f = m.account l c f := by
  have hany : (l.any fun p => decide (m'.band p = c)) = l.any fun p => decide (m.band p = c) := by
    rw [Bool.eq_iff_iff, any_eq_true, any_eq_true]
    constructor
    · rintro ⟨p, hp, hband⟩
      exact ⟨p, hp, by rwa [band_congr (h p hp)] at hband⟩
    · rintro ⟨p, hp, hband⟩
      exact ⟨p, hp, by rwa [band_congr (h p hp)]⟩
  simp only [Blocks.account, bytes_congr h, hany]

/-- A queue and its messages change, and the other queues do not. -/
structure Local (s : Stream) (i : Nat) (t : Stream) (l : List Nat) : Prop where
  sound : t.Sound
  msgs : t.msgs = update s.msgs i l
  books : ∀ P, s.Books P → (∀ c f, (t.q i).flow c = some f → P (t.m.account l c f)) → t.Books P
  others : ∀ k, k ≠ i → t.q k = s.q k
  srvp : (t.q i).qiSrvp = (s.q i).qiSrvp

theorem Sound.local (hs : s.Sound) (hok : q'.Ok m' l') (hn : m'.nblk = s.m.nblk)
    (hframe : ∀ k, k ≠ i → ∀ p ∈ s.msgs k, m'.blk p = s.m.blk p)
    (hsub : ∀ k, k ≠ i → ∀ p ∈ l', p ∉ s.msgs k)
    (hsame : SameFlags (s.q i) q') : Local s i (s.setMQ i m' q') l' := by
  have hqi : (s.setMQ i m' q').q i = q' := by simp [setMQ]
  have hqk : ∀ k, k ≠ i → (s.setMQ i m' q').q k = s.q k := by
    intro k hk
    simp [setMQ, hk]
  have hokk : ∀ k, k ≠ i → (s.q k).Ok m' (s.msgs k) := fun k hk =>
    (hs.ok k).congr (hframe k hk) hn
  have hmsgs : (s.setMQ i m' q').msgs = update s.msgs i l' := by
    funext k
    unfold msgs
    by_cases hk : k = i
    · subst hk
      rw [hqi, update_self]
      exact hok.msgs_eq
    · rw [hqk k hk, update_of_ne hk]
      exact (hokk k hk).msgs_eq
  refine ⟨⟨?_, ?_, ?_⟩, hmsgs, ?_, hqk, by rw [hqi, hsame.qiSrvp]⟩
  · intro k
    rw [hmsgs]
    by_cases hk : k = i
    · subst hk
      rw [hqi, update_self]
      exact hok
    · rw [hqk k hk, update_of_ne hk]
      exact hokk k hk
  · intro j k hne p hp
    rw [hmsgs] at hp ⊢
    by_cases hj : j = i
    · have hk : k ≠ i := fun h => hne (hj.trans h.symm)
      rw [hj, update_self] at hp
      rw [update_of_ne hk]
      exact hsub k hk p hp
    · rw [update_of_ne hj] at hp
      by_cases hk : k = i
      · rw [hk, update_self]
        exact fun hmem => hsub j hj p hmem hp
      · rw [update_of_ne hk]
        exact hs.apart j k hne p hp
  · refine ⟨hs.enab.1, ?_⟩
    intro k
    have henab : ((s.setMQ i m' q').q k).qEnab = (s.q k).qEnab := by
      by_cases hk : k = i
      · rw [hk, hqi, hsame.qEnab]
      · rw [hqk k hk]
    rw [henab]
    exact hs.enab.2 k
  · intro P hb hq k c f hf
    rw [hmsgs]
    by_cases hk : k = i
    · rw [hk] at hf ⊢
      rw [update_self]
      exact hq c f hf
    · rw [hqk k hk] at hf
      rw [update_of_ne hk]
      change P (m'.account (s.msgs k) c f)
      rw [account_congr (hframe k hk)]
      exact hb k c f hf

theorem law_settles (hP : Account.Law P) {a b : Account}
    (h : Relation.ReflTransGen Account.Settle a b) (ha : P a) : P b := by
  induction h with
  | refl => exact ha
  | tail _ hstep ih => exact hP.settle _ _ hstep ih

theorem Sound.settle (hs : s.Sound) (h : Settled s.m (s.q i) (s.msgs i) m' q' l') :
    Local s i (s.setMQ i m' q') l' := by
  apply hs.local h.ok h.hdr.nblk
  · intro k hk p hp
    exact h.frame p fun hmem => hs.apart i k (Ne.symm hk) p hmem hp
  · intro k hk p hp
    exact hs.apart i k (Ne.symm hk) p (h.sub.subset hp)
  · exact h.same

theorem Local.settled (hl : Local s i t l') (ht : t = s.setMQ i m' q')
    (h : Settled s.m (s.q i) (s.msgs i) m' q' l') (hP : Account.Law P)
    (hb : s.Books P) : t.Books P := by
  apply hl.books P hb
  intro c f' hf'
  subst ht
  have hqi : (s.setMQ i m' q').q i = q' := by simp [setMQ]
  rw [hqi] at hf'
  rcases h.flows c f' hf' with ⟨f, hf, hsteps⟩
  exact law_settles hP hsteps (hb i c f hf)

theorem not_cleared (h : ∀ f, q.flow c = some f → ∃ f', q'.flow c = some f' ∧
      (f.wantw = true → f'.wantw = true)) : ¬ Cleared q q' c := by
  rintro ⟨⟨f, hf, hw⟩, f', hf', hw'⟩
  rcases h f hf with ⟨g, hg, hkeep⟩
  rw [hg, Option.some.injEq] at hf'
  rw [← hf', hkeep hw] at hw'
  cases hw'

theorem not_cleared_widened (h : Streams.Widened q q') (c : Nat) : ¬ Cleared q q' c :=
  not_cleared fun f hf => ⟨f, h.keep hf, fun hw => hw⟩

theorem cleared_of_widened {q₁ : Queue} (hn : q₁.qNband = q.qNband) (h : Streams.Widened q₁ q')
    (hc : Cleared q q' c) : Cleared q q₁ c := by
  rcases hc with ⟨⟨f, hf, hw⟩, f', hf', hw'⟩
  have hle := le_of_flow hf
  rw [← hn] at hle
  rcases flow_isSome hle with ⟨g, hg⟩
  have hkeep := h.keep hg
  rw [hf', Option.some.injEq] at hkeep
  exact ⟨⟨f, hf, hw⟩, g, hg, by rw [← hkeep]; exact hw'⟩

/-!
## Calls that settle accounts
-/

theorem Sound.call (hs : s.Sound) (h : Settled s.m (s.q i) (s.msgs i) m' q' l')
    (hwide : (s.setMQ i m' q').Widened t) (heffect : s.effect e o = update s.msgs i l')
    (hnext : ∀ k, e = .getq k → o.bp = (s.msgs k).find? fun p => !(s.m.blk p).msgnoget)
    (hrelief : ¬ s.Wraps e → ∀ c, Cleared (s.q i) q' c →
      ∀ j, (s.setMQ i m' q').backSrvp i = some j → (t.q j).qEnab = true ∧
        ((t.q j).back c = true ∨ c ∈ o.warned)) : s.Call e t o where
  sound := hwide.sound (hs.settle h).sound
  msgs := by
    rw [heffect, ← (hs.settle h).msgs]
    funext k
    exact hwide.msgs (hs.settle h).sound k
  rank k p _ := by
    rw [hwide.m]
    exact congrFun h.hdr.rank p
  next := hnext
  books P hP _ hb := hwide.books (hs.settle h).sound hP ((hs.settle h).settled rfl h hP hb)
  relief hwraps k c hc j hj := by
    have hl := hs.settle h
    have hqi : (s.setMQ i m' q').q i = q' := by simp [setMQ]
    have hsrvp : ∀ n, ((s.setMQ i m' q').q n).qiSrvp = (s.q n).qiSrvp := by
      intro n
      by_cases hn : n = i
      · rw [hn]
        exact hl.srvp
      · rw [hl.others n hn]
    by_cases hk : k = i
    · rw [hk] at hc hj
      rw [← backSrvp_congr hsrvp i] at hj
      have hwq := hwide.q i
      rw [hqi] at hwq
      exact hrelief hwraps c (cleared_of_widened h.nband hwq hc) j hj
    · have hwq := hwide.q k
      rw [hl.others k hk] at hwq
      exact absurd hc (not_cleared_widened hwq c)

theorem execGetq_call (hs : s.Sound) (avail : List Bool) :
    ∃ t o, s.execGetq avail i = some (t, o) ∧ s.Call (.getq i) t o := by
  rcases getq_settled (hs.ok i) with ⟨g, hrun, hbp, hset, hrelief, hsmall⟩
  have hl := hs.settle hset
  rcases backenable_spec avail i hl.sound hsmall with ⟨warned, t, rest, hback, hwide, hon⟩
  refine ⟨t, ⟨true, g.bp, warned⟩, ?_, hs.call hset hwide ?_ ?_ ?_⟩
  · simp only [execGetq, hrun, Option.bind_eq_bind, Option.bind_some, hback]
    rfl
  · cases hg : g.bp with
    | none => exact (update_eq_self i s.msgs).symm
    | some p => rfl
  · intro k hk
    cases hk
    exact hbp
  · intro _ c hc j hj
    rcases hrelief c hc with ⟨bs, hbs, hmem⟩
    rcases hon bs hbs j hj with ⟨he, hb⟩
    exact ⟨he, hb c hmem⟩

theorem execRmvq_call (hs : s.Sound) (avail : List Bool) {mp : Nat} (hmp : mp ∈ s.msgs i) :
    ∃ t o, s.execRmvq avail i mp = some (t, o) ∧ s.Call (.rmvq i mp) t o := by
  rcases rmvq_spec (hs.ok i) hmp with ⟨m', q', relief, f, hrun, ht⟩
  have hset := ht.settled hmp
  have hl := hs.settle hset
  rcases backenable_spec avail i hl.sound ht.small with ⟨warned, t, rest, hback, hwide, hon⟩
  refine ⟨t, ⟨true, none, warned⟩, ?_, hs.call hset hwide rfl ?_ ?_⟩
  · simp only [execRmvq, hrun, Option.bind_eq_bind, Option.bind_some, hback]
    rfl
  · intro k hk
    cases hk
  · intro _ c hc j hj
    rcases ht.cleared hc with ⟨bs, hbs, hmem⟩
    rcases hon bs hbs j hj with ⟨he, hb⟩
    exact ⟨he, hb c hmem⟩

theorem flushed_call (hs : s.Sound) {r : Flushed} (hset : Settled s.m (s.q i) (s.msgs i) r.m r.q l')
    (heffect : ∀ o, s.effect e o = update s.msgs i l') (hget : ∀ k, e ≠ .getq k)
    (hsmall : Small r.relief) (hrelief : ¬ s.Wraps e → ∀ c, Cleared (s.q i) r.q c →
      ∃ bs, r.relief = some bs ∧ c ∈ bs) : s.Call e (s.flushed i r).1 (s.flushed i r).2 := by
  have hl := hs.settle hset
  have hen : (s.setMQ i r.m r.q).Widened (if r.enable then
      (s.setMQ i r.m r.q).qenable i else s.setMQ i r.m r.q) := by
    split
    · exact qenable_widened _ i
    · exact Widened.refl _
  rcases backenable_spec r.avail i (hen.sound hl.sound) hsmall with
    ⟨warned, t, rest, hback, hwide, hon⟩
  have hrun : s.flushed i r = (t, ⟨true, none, warned⟩) := by
    simp only [flushed, hback]
  rw [hrun]
  refine hs.call hset (hen.trans hwide) (heffect _) (fun k hk => absurd hk (hget k)) ?_
  intro hwraps c hc j hj
  rcases hrelief hwraps c hc with ⟨bs, hbs, hmem⟩
  rw [← backSrvp_congr (fun k => (hen.q k).qiSrvp) i] at hj
  rcases hon bs hbs j hj with ⟨he, hb⟩
  exact ⟨he, hb c hmem⟩

theorem execFlushq_call (hs : s.Sound) (avail : List Bool) (flag : Bool) :
    ∃ t o, s.execFlushq avail i flag = some (t, o) ∧ s.Call (.flushq i flag) t o := by
  rcases flushq_settled (hs.ok i) avail flag with ⟨r, hrun, hset, hrelief, hsmall⟩
  refine ⟨(s.flushed i r).1, (s.flushed i r).2, ?_,
    flushed_call hs hset (fun _ => rfl) (fun k hk => by cases hk) hsmall ?_⟩
  · simp only [execFlushq, hrun, Option.bind_eq_bind, Option.bind_some]
    rfl
  · intro hwraps c hc
    rcases hrelief c hc with ⟨bs, hbs, hmem⟩
    have hnband := (hs.ok i).nband
    have hne : (s.q i).qNband ≠ 255 := hwraps
    exact ⟨bs, hbs, hmem (by omega)⟩

theorem keptBand_zero (m : Blocks) (flag : Bool) : keptBand m 0 flag = keptNormal m flag := by
  funext p
  simp [keptBand, keptNormal]

theorem keptBand_pos (m : Blocks) (flag : Bool) (hpri : 0 < pri) :
    keptBand m pri flag = keptHigh m pri flag := by
  funext p
  simp [keptBand, keptHigh, hpri]

theorem filter_keptBand_of_lt (h : q.Ok m l) (flag : Bool) (hpri : q.qNband < pri) :
    l.filter (keptBand m pri flag) = l := by
  rw [filter_eq_self]
  intro p hp
  have hle := h.bands p hp
  have hne : ¬ (m.blk p).bBand = pri := by
    intro heq
    have : m.band p = pri := heq
    omega
  simp [keptBand, hne]

theorem execFlushband_call (hs : s.Sound) (avail : List Bool) (pri : Nat) (flag : Bool) :
    ∃ t o, s.execFlushband avail i pri flag = some (t, o) ∧ s.Call (.flushband i pri flag) t o := by
  by_cases hlt : (s.q i).qNband < pri
  · refine ⟨s, ⟨true, none, []⟩, by rw [execFlushband, if_pos hlt, done], ?_⟩
    have hset := Settled.refl (hs.ok i)
    have hself : s.setMQ i s.m (s.q i) = s := by simp [setMQ]
    refine hs.call hset (by rw [hself]; exact Widened.refl s) ?_ (fun k hk => by cases hk) ?_
    · simp only [effect, filter_keptBand_of_lt (hs.ok i) flag hlt]
    · intro _ c hc
      exact absurd hc (not_cleared_widened (Streams.Widened.refl _) c)
  · by_cases hpri : pri = 0
    · subst hpri
      rcases flushband0_settled (hs.ok i) avail flag with ⟨r, hrun, hset, hrelief, hsmall⟩
      refine ⟨(s.flushed i r).1, (s.flushed i r).2, ?_,
        flushed_call hs hset ?_ (fun k hk => by cases hk) hsmall (fun _ => hrelief)⟩
      · rw [execFlushband, if_neg hlt, if_pos rfl, hrun]
        rfl
      · intro o
        simp only [effect, keptBand_zero]
    · have hpos : 1 ≤ pri := by omega
      rcases flushbandHigh_spec (hs.ok i) hpos (Nat.le_of_not_lt hlt) with ⟨m', q', rs, hrun, hd⟩
      have hset := hd.settled
      have hl := hs.settle hset
      rcases backenables_spec i rs avail hl.sound hd.small with ⟨warned, t, hback, hwide, hon⟩
      refine ⟨t, ⟨true, none, warned⟩, ?_, hs.call hset hwide ?_ (fun k hk => by cases hk) ?_⟩
      · rw [execFlushband, if_neg hlt, if_neg hpri, hrun]
        simp only [Option.bind_eq_bind, Option.bind_some, hback]
        rfl
      · simp only [effect, keptBand_pos s.m flag hpos]
      · intro _ c hc j hj
        rcases hd.cleared hc with ⟨bs, hbs, hmem⟩
        rcases hon bs hbs j hj with ⟨he, hb⟩
        exact ⟨he, hb c hmem⟩

/-!
## Puts
-/

theorem Widened.call (h : s.Widened t) (hs : s.Sound) (heffect : s.effect e o = s.msgs)
    (hget : ∀ k, e ≠ .getq k) : s.Call e t o where
  sound := h.sound hs
  msgs := by
    rw [heffect]
    funext k
    exact h.msgs hs k
  rank k p _ := by rw [h.m]
  next k hk := absurd hk (hget k)
  books _ hP _ hb := h.books hs hP hb
  relief _ k c hc := absurd hc (not_cleared_widened (h.q k) c)

theorem put_account_old (h : PutFrame m m' l bp) (hbp : bp ∉ l) (c : Nat) (f : Flow) :
    m'.account l c f = m.account l c f := by
  have hold : ∀ p ∈ l, m'.band p = m.band p := by
    intro p hp
    exact h.band p (ne_of_notMem hbp hp)
  have hfilter : (l.filter fun p => decide (m'.band p = c)) =
      l.filter fun p => decide (m.band p = c) := by
    apply filter_congr
    intro p hp
    rw [hold p hp]
  have hbytes : m'.bytes l c = m.bytes l c := by
    unfold Blocks.bytes
    rw [hfilter]
    congr 1
    apply map_congr_left
    intro p _
    simp only [Msgb.bytes, h.sizes]
  have hany : (l.any fun p => decide (m'.band p = c)) = l.any fun p => decide (m.band p = c) := by
    rw [Bool.eq_iff_iff, any_eq_true, any_eq_true]
    constructor
    · rintro ⟨p, hp, hband⟩
      exact ⟨p, hp, by rwa [hold p hp] at hband⟩
    · rintro ⟨p, hp, hband⟩
      exact ⟨p, hp, by rwa [hold p hp]⟩
  simp only [Blocks.account, hbytes, hany]

theorem put_books {t k : Nat} {r : Put} (h : q.Ok m l) (hd : PutDone m q l bp t k r)
    (hok : r.ok = true) (hfresh : P ⟨Flow.fresh q.qHiwat q.qLowat, 0, false⟩)
    (hbooks : ∀ c f, q.flow c = some f → P (m.account l c f))
    (hcharge : ∀ a : Account, a.bytes = m.bytes l (m.blk bp).acct → P a →
      P (a.charge (m.blk bp))) (hbp : bp ∉ l) (c : Nat) (f : Flow) (hf : r.q.flow c = some f) :
    P (r.m.account (insertAt m.rank t bp l) c f) := by
  have hwide := Widened.addBands q hd.nband
  have hgrown : ∀ g, (q.addBands k).flow c = some g → P (m.account l c g) := by
    intro g hg
    rcases hwide.flows hg with hg | ⟨hlt, rfl⟩
    · exact hbooks c g hg
    · rw [account_fresh h hlt]
      exact hfresh
  have hperm : (insertAt m.rank t bp l).Perm (bp :: l) :=
    insertAt_perm h.ranked t bp
  have hmsg : (r.m.blk bp).bytes = (m.blk bp).bytes := by
    simp only [Msgb.bytes, hd.frame.sizes]
  have hold := put_account_old hd.frame hbp c f
  unfold Blocks.account at hold
  rw [Account.mk.injEq] at hold
  have haccount : r.m.account (insertAt m.rank t bp l) c f =
      if c = (m.blk bp).acct then
        ⟨f, m.bytes l c + (m.blk bp).bytes, true⟩
      else m.account l c f := by
    rw [account_perm hperm]
    unfold Blocks.account
    rw [bytes_cons, hd.frame.put, any_cons, hd.frame.put, hold.2.1, hold.2.2, hmsg]
    by_cases hc : c = (m.blk bp).acct
    · simp [hc, Nat.add_comm]
    · have hne : ¬ (m.blk bp).acct = c := fun heq => hc heq.symm
      simp [hc, hne]
  rw [(hd.put hok).2.2] at hf
  rw [haccount]
  by_cases hc : c = (m.blk bp).acct
  · rw [if_pos hc] at hf ⊢
    rcases Option.map_eq_some_iff.mp hf with ⟨g, hg, rfl⟩
    exact hcharge (m.account l c g) (by rw [hc]; rfl) (hgrown g hg)
  · rw [if_neg hc] at hf ⊢
    exact hgrown f hf

theorem execPut_call (hs : s.Sound) {th : Nat}
    {op : List Bool → Blocks → Queue → Nat → Option Put} (avail : List Bool)
    (hop : ∃ r k, op avail s.m (s.q i) bp = some r ∧
      PutDone s.m (s.q i) (s.msgs i) bp th k r) (hfree : s.Free bp) (heffect : ∀ o, s.effect e o =
      if o.ok then update s.msgs i (insertAt s.m.rank th bp (s.msgs i))
      else s.msgs) (hget : ∀ k, e ≠ .getq k) (hcharges : ∀ P, s.Charges P e → ∀ a : Account,
      a.bytes = s.m.bytes (s.msgs i) (s.m.blk bp).acct → P a → P (a.charge (s.m.blk bp))) :
    ∃ t o, s.execPut op avail i bp = some (t, o) ∧ s.Call e t o := by
  rcases hop with ⟨r, k, hrun, hd⟩
  have hen : (s.setMQ i r.m r.q).Widened (if r.enable then
      (s.setMQ i r.m r.q).qenable i else s.setMQ i r.m r.q) := by
    split
    · exact qenable_widened _ i
    · exact Widened.refl _
  have hqi : (s.setMQ i r.m r.q).q i = r.q := by simp [setMQ]
  have hframe : ∀ k, k ≠ i → ∀ p ∈ s.msgs k, r.m.blk p = s.m.blk p := by
    intro k hk p hp
    apply hd.frame.frame p
    · exact fun hmem => hs.apart i k (Ne.symm hk) p hmem hp
    · rintro rfl
      exact hfree k hp
  have hrank : ∀ k, ∀ p ∈ (if r.enable then (s.setMQ i r.m r.q).qenable i
      else s.setMQ i r.m r.q).msgs k,
      (if r.enable then (s.setMQ i r.m r.q).qenable i
        else s.setMQ i r.m r.q).m.rank p = s.m.rank p := by
    intro k p _
    rw [hen.m]
    exact congrFun hd.frame.rank p
  refine ⟨_, ⟨r.ok, none, []⟩, by
    simp only [execPut, hrun, Option.bind_eq_bind, Option.bind_some]; rfl, ?_⟩
  have hwide := Widened.addBands (s.q i) hd.nband
  cases hok : r.ok with
  | true =>
    have hl : Local s i (s.setMQ i r.m r.q) (insertAt s.m.rank th bp (s.msgs i)) := by
      apply hs.local (hd.put hok).1 hd.frame.nblk hframe _ hd.same
      intro k hk p hp
      rcases mem_insertAt.mp hp with rfl | hp
      · exact hfree k
      · exact hs.apart i k (Ne.symm hk) p hp
    refine ⟨hen.sound hl.sound, ?_, hrank, fun k hk => absurd hk (hget k), ?_, ?_⟩
    · rw [heffect, if_pos rfl, ← hl.msgs]
      funext k
      exact hen.msgs hl.sound k
    · intro P hP hcharge hb
      apply hen.books hl.sound hP
      apply hl.books P hb
      intro c f hf
      rw [hqi] at hf
      exact put_books (hs.ok i) hd hok (law_fresh hP hb) (hb i)
        (hcharges P hcharge) (hfree i) c f hf
    · intro _ k c hc
      exfalso
      have hwq := hen.q k
      by_cases hk : k = i
      · subst hk
        rw [hqi] at hwq
        refine not_cleared ?_ hc
        intro f hf
        have hgrown := hwide.keep hf
        have hput := (hd.put hok).2.2 c
        rw [hgrown] at hput
        by_cases hc : c = (s.m.blk bp).acct
        · rw [if_pos hc] at hput
          exact ⟨_, hwq.keep hput, fun hw => hw⟩
        · rw [if_neg hc] at hput
          exact ⟨_, hwq.keep hput, fun hw => hw⟩
      · rw [hl.others k hk] at hwq
        exact not_cleared_widened hwq c hc
  | false =>
    rcases hd.refused hok with ⟨hokq, hq⟩
    have hl : Local s i (s.setMQ i r.m r.q) (s.msgs i) :=
      hs.local hokq hd.frame.nblk hframe (fun k hk p hp => hs.apart i k (Ne.symm hk) p hp) hd.same
    have hwide' : Streams.Widened (s.q i) r.q := by
      rw [hq]
      exact hwide
    refine ⟨hen.sound hl.sound, ?_, hrank, fun k hk => absurd hk (hget k), ?_, ?_⟩
    · have hmsgs : s.effect e ⟨false, none, []⟩ = s.msgs := heffect _
      rw [hmsgs]
      funext k
      rw [hen.msgs hl.sound k, hl.msgs, update_eq_self]
    · intro P hP _ hb
      apply hen.books hl.sound hP
      apply hl.books P hb
      intro c f hf
      rw [hqi] at hf
      change P (r.m.account (s.msgs i) c f)
      rw [put_account_old hd.frame (hfree i)]
      rcases hwide'.flows hf with hf | ⟨hlt, rfl⟩
      · exact hb i c f hf
      · rw [account_fresh (hs.ok i) hlt]
        exact law_fresh hP hb
    · intro _ k c hc
      have hwq := hen.q k
      by_cases hk : k = i
      · rw [hk] at hc hwq
        rw [hqi] at hwq
        exact absurd hc (not_cleared_widened (hwide'.trans hwq) c)
      · rw [hl.others k hk] at hwq
        exact absurd hc (not_cleared_widened hwq c)

/-!
## The other calls
-/

section

variable (hs : s.Sound)
include hs

theorem call_flags (hm : t.m = s.m)
    (hok : ∀ k l, (s.q k).Ok s.m l → (t.q k).Ok s.m l)
    (hflow : ∀ k c, (t.q k).flow c = (s.q k).flow c) (henab : t.Scheduled)
    (heffect : s.effect e o = s.msgs) (hget : ∀ k, e ≠ .getq k) : s.Call e t o := by
  have hmsgs : t.msgs = s.msgs := by
    funext k
    unfold msgs
    rw [hm]
    exact (hok k _ (hs.ok k)).msgs_eq
  refine ⟨⟨?_, ?_, henab⟩, by rw [heffect, hmsgs], (fun _ _ _ => by rw [hm]),
    fun k hk => absurd hk (hget k), ?_, ?_⟩
  · intro k
    rw [hm, hmsgs]
    exact hok k _ (hs.ok k)
  · intro j k hne p hp
    rw [hmsgs] at hp ⊢
    exact hs.apart j k hne p hp
  · intro P _ _ hb k c f hf
    rw [hm, hmsgs]
    rw [hflow] at hf
    exact hb k c f hf
  · intro _ k c hc
    refine absurd hc (not_cleared ?_)
    intro f hf
    exact ⟨f, by rw [hflow]; exact hf, fun hw => hw⟩

theorem setWantw_call {j : Nat} {f : Flow} (hf : (s.q j).flow c = some f)
    (hfull : f.full = true) (hq' : q' = if c = 0 then { s.q j with qWantw := true }
      else (s.q j).modBand c fun qb => { qb with qbWantw := true })
    (heffect : s.effect e o = s.msgs) (hget : ∀ k, e ≠ .getq k) : s.Call e (s.setQ j q') o := by
  have hset := settled_want (hs.ok j) hf hfull hq'
  refine hs.call hset (Widened.refl _) ?_ (fun k hk => absurd hk (hget k)) ?_
  · rw [heffect, update_eq_self]
  · intro _ c' hc'
    refine absurd hc' (not_cleared ?_)
    intro g hg
    subst hq'
    by_cases hc : c = 0
    · rw [if_pos hc, flow_setWantw]
      by_cases hz : c' = 0
      · exact ⟨_, if_pos hz, fun _ => rfl⟩
      · rw [if_neg hz]
        exact ⟨g, hg, fun hw => hw⟩
    · rw [if_neg hc, flow_modBand _ (by omega)]
      by_cases hz : c' = c
      · rw [if_pos hz]
        have hpos : 1 ≤ c' := by omega
        rw [flow_band hpos] at hg
        rcases Option.map_eq_some_iff.mp hg with ⟨qb, hqb, rfl⟩
        exact ⟨_, by rw [hqb, Option.map_some], fun _ => rfl⟩
      · rw [if_neg hz]
        exact ⟨g, hg, fun hw => hw⟩

theorem canput_call (i : Nat) :
    s.Call (.canput i) (s.canput i).2 ⟨(s.canput i).1, none, []⟩ := by
  unfold canput
  simp only
  split
  · rename_i hfull
    exact setWantw_call (c := 0) hs (flow_zero _) hfull rfl rfl (fun k hk => by cases hk)
  · exact (Widened.refl s).call hs rfl (fun k hk => by cases hk)

theorem bcanput_call (i pri : Nat) :
    s.Call (.bcanput i pri) (s.bcanput i pri).2 ⟨(s.bcanput i pri).1, none, []⟩ := by
  have hstay : ∀ o, s.Call (.bcanput i pri) s o := fun o =>
    (Widened.refl s).call hs rfl (fun k hk => by cases hk)
  unfold bcanput
  by_cases hpri : pri = 0
  · rw [if_pos hpri]
    split
    · rename_i hfull
      exact setWantw_call (c := 0) hs (flow_zero _) hfull rfl rfl (fun k hk => by cases hk)
    · exact hstay _
  · rw [if_neg hpri]
    cases hband : (s.q (s.canputAt (s.nq - 1 - i) i)).band? pri with
    | none => exact hstay _
    | some qb =>
      simp only
      split
      · rename_i hfull
        refine setWantw_call (c := pri) (f := qb.flow) hs ?_ hfull ?_ rfl (fun k hk => by cases hk)
        · rw [flow_band (by omega), hband]
          rfl
        · rw [if_neg hpri]
      · exact hstay _

theorem setFlag_call (hwide : Streams.Widened (s.q i) q')
    (henab : q'.qEnab = (s.q i).qEnab) (heffect : s.effect e o = s.msgs) (hget : ∀ k, e ≠ .getq k) :
    s.Call e (s.setQ i q') o :=
  (setQ_widened hwide henab).call hs heffect hget

theorem service_call : s.Call .service s.service ⟨true, none, []⟩ := by
  unfold service
  cases hhead : s.qhead with
  | nil => exact (Widened.refl s).call hs rfl (fun k hk => by cases hk)
  | cons i rest =>
    rcases hs.enab with ⟨hnodup, henab⟩
    rw [hhead] at hnodup henab
    have hrest := nodup_cons.mp hnodup
    refine call_flags hs ?_ ?_ ?_ ?_ rfl (fun k hk => by cases hk)
    · rfl
    · intro k l h
      by_cases hk : k = i
      · subst hk
        simpa [setQ] using h.of_queue (r := { s.q k with qEnab := false })
          rfl rfl rfl fun _ _ => rfl
      · simpa [setQ, hk] using h
    · intro k c
      by_cases hk : k = i
      · subst hk
        simp only [setQ, update_self]
        rfl
      · simp [setQ, hk]
    · refine ⟨hrest.2, ?_⟩
      intro k
      by_cases hk : k = i
      · subst hk
        simpa [setQ] using hrest.1
      · have := henab k
        simpa [setQ, hk] using this

end

theorem flow_serviced (q : Queue) (c : Nat) : flow { q with
      qBack := false
      qBandp := q.qBandp.map fun qb => { qb with qbBack := false } } c =
      q.flow c := by
  by_cases hc : c = 0
  · subst hc
    rfl
  · rw [flow_band (by omega), flow_band (by omega)]
    unfold band?
    rw [List.getElem?_map, Option.map_map]
    rfl

theorem serviced_call (hs : s.Sound) (i : Nat) :
    s.Call (.serviced i) (s.serviced i) ⟨true, none, []⟩ := by
  refine call_flags hs ?_ ?_ ?_ ?_ rfl (fun k hk => by cases hk)
  · rfl
  · intro k l h
    by_cases hk : k = i
    · subst hk
      simp only [serviced, setQ, update_self]
      refine h.of_queue rfl rfl ?_ ?_
      · simp [qNband]
      · intro c _
        unfold delim band?
        rw [List.getElem?_map, Option.map_map]
        rfl
    · simpa [serviced, setQ, hk] using h
  · intro k c
    by_cases hk : k = i
    · subst hk
      simp only [serviced, setQ, update_self]
      exact flow_serviced _ _
    · simp [serviced, setQ, hk]
  · refine ⟨hs.enab.1, ?_⟩
    intro k
    by_cases hk : k = i
    · subst hk
      simpa [serviced, setQ] using hs.enab.2 k
    · simpa [serviced, setQ, hk] using hs.enab.2 k

theorem write_call (hs : s.Sound) (x : Msgb) (hfree : s.Free bp) :
    s.Call (.write bp x) { s with m.blk := update s.m.blk bp x } ⟨true, none, []⟩ := by
  have hl : Local s 0 (s.setMQ 0 { s.m with blk := update s.m.blk bp x } (s.q 0)) (s.msgs 0) := by
    have hblk : ∀ k, ∀ p ∈ s.msgs k, update s.m.blk bp x p = s.m.blk p := by
      intro k p hp
      exact update_of_ne (ne_of_notMem (hfree k) hp) _ _
    exact hs.local ((hs.ok 0).congr (hblk 0) rfl) rfl (fun k _ => hblk k)
      (fun k hk p hp => hs.apart 0 k (Ne.symm hk) p hp) (SameFlags.refl _)
  have ht : s.setMQ 0 { s.m with blk := update s.m.blk bp x } (s.q 0) =
      { s with m.blk := update s.m.blk bp x } := by
    simp [setMQ]
  rw [ht] at hl
  have hmsgs : Stream.msgs { s with m.blk := update s.m.blk bp x } =
      s.msgs := by
    rw [hl.msgs]
    exact update_eq_self 0 s.msgs
  refine ⟨hl.sound, hmsgs, ?_, (fun k hk => by cases hk), ?_, ?_⟩
  · intro k p hp
    rw [hmsgs] at hp
    exact rank_congr (update_of_ne (ne_of_notMem (hfree k) hp) _ _)
  · intro P _ _ hb
    apply hl.books P hb
    intro c f hf
    have hcongr : ∀ p ∈ s.msgs 0, update s.m.blk bp x p = s.m.blk p := by
      intro p hp
      exact update_of_ne (ne_of_notMem (hfree 0) hp) _ _
    rw [account_congr hcongr]
    exact hb 0 c f hf
  · intro _ k c hc
    exact absurd hc (not_cleared_widened (Streams.Widened.refl _) c)

theorem exec_call (hs : s.Sound) (hadm : s.Admits e) (avail : List Bool) :
    ∃ t o, s.exec avail e = some (t, o) ∧ s.Call e t o := by
  cases e with
  | write bp x => exact ⟨_, _, rfl, write_call hs x hadm⟩
  | putq i bp =>
    rcases hadm with ⟨_, hvalid, hfree⟩
    exact execPut_call hs avail (putq_spec (hs.ok i) (hfree i) hvalid avail)
      hfree (fun _ => rfl) (fun k hk => by cases hk) (fun _ h => h)
  | putbq i bp =>
    rcases hadm with ⟨_, hvalid, hfree⟩
    exact execPut_call hs avail (putbq_spec (hs.ok i) (hfree i) hvalid avail)
      hfree (fun _ => rfl) (fun k hk => by cases hk) (fun _ h => h)
  | getq i => exact execGetq_call hs avail
  | rmvq i mp => exact execRmvq_call hs avail hadm.2
  | flushq i flag => exact execFlushq_call hs avail flag
  | flushband i pri flag => exact execFlushband_call hs avail pri flag
  | canput i => exact ⟨_, _, rfl, canput_call hs i⟩
  | bcanput i pri => exact ⟨_, _, rfl, bcanput_call hs i pri⟩
  | noenable i =>
    exact ⟨_, _, rfl, setFlag_call hs
      (Streams.Widened.of_eq rfl rfl rfl rfl (fun h => h) rfl) rfl rfl
      (fun k hk => by cases hk)⟩
  | enableok i =>
    exact ⟨_, _, rfl, setFlag_call hs
      (Streams.Widened.of_eq rfl rfl rfl rfl (fun h => h) rfl) rfl rfl
      (fun k hk => by cases hk)⟩
  | qenable i =>
    exact ⟨_, _, rfl, (qenable_widened s i).call hs rfl (fun k hk => by cases hk)⟩
  | service => exact ⟨_, _, rfl, service_call hs⟩
  | serviced i => exact ⟨_, _, rfl, serviced_call hs i⟩

end Stream

end Streams
end Svr4
