import Svr4.Streams.Calls

/-!
# Guarantees of the message queues

What holds of the queues of a stream after any sequence of calls: the messages
of a queue are its lanes one after the other, the accounts are right as long as
they do not run over, and no writer is forgotten.
-/

namespace Svr4
namespace Streams

open Function Blocks RankedList Transition List

/-!
## Runs
-/

/-- The queues of a stream that nobody has used. -/
structure Stream.Start (s : Stream) : Prop where
  first : ∀ i, (s.q i).qFirst = none
  last : ∀ i, (s.q i).qLast = none
  ends : ∀ i, ∀ qb ∈ (s.q i).qBandp, qb.qbFirst = none ∧ qb.qbLast = none
  flow : ∀ i c f, (s.q i).flow c = some f → f.count = 0 ∧ f.full = false ∧ f.wantw = false
  nband : ∀ i, (s.q i).qNband < 256
  enab : ∀ i, (s.q i).qEnab = false
  qhead : s.qhead = []

/-- A call, the memory it meets, and its outcome. -/
structure Label where
  event : Event
  avail : List Bool
  outcome : Outcome

def Stream.Step (s : Stream) (c : Label) (t : Stream) : Prop :=
  s.Admits c.event ∧ s.exec c.avail c.event = some (t, c.outcome)

/-- The queues together with the lanes they stand for. -/
def LaneStep (s : Stream × Lanes) (c : Label) (t : Stream × Lanes) : Prop :=
  s.1.Step c t.1 ∧ t.2 = s.2.apply s.1.m c.event c.outcome

def LaneStart (s : Stream × Lanes) : Prop :=
  s.1.Start ∧ s.2 = fun _ _ => []

/-- No put takes the bytes of a band out of the range of its count. -/
def Stream.Light (s : Stream) (c : Label) : Prop :=
  match c.event with
  | .putq i bp | .putbq i bp =>
    s.m.bytes (s.msgs i) (s.m.blk bp).acct + (s.m.blk bp).bytes < 4294967296
  | _ => True

section Runs

variable {s t : Stream} {c : Label}

theorem Stream.Start.msgs (h : s.Start) (i : Nat) : s.msgs i = [] := by
  unfold Stream.msgs Queue.msgs
  rw [h.first i]
  cases s.m.nblk <;> rfl

theorem Stream.Start.sound (h : s.Start) : s.Sound where
  ok i := by
    rw [h.msgs]
    refine ⟨?_, by simp, List.Pairwise.nil, by simp, by simp, ?_, h.nband i⟩
    · unfold Queue.Links
      rw [h.first, h.last]
      exact DLinked.nil
    · intro c hc hc'
      rcases Queue.band?_isSome hc hc' with ⟨qb, hqb⟩
      rcases h.ends i qb (mem_of_getElem? hqb) with ⟨hfirst, hlast⟩
      unfold Queue.delim
      rw [hqb, Option.map_some, hfirst, hlast]
      rfl
  apart i j _ p hp := by
    rw [h.msgs] at hp
    cases hp
  enab := by
    refine ⟨by rw [h.qhead]; exact nodup_nil, ?_⟩
    intro i
    rw [h.enab, h.qhead]
    simp

theorem Stream.Start.account (h : s.Start) (i c : Nat) (f : Flow) :
    s.m.account (s.msgs i) c f = ⟨f, 0, false⟩ := by
  rw [h.msgs]
  rfl

theorem Stream.Sound.step (h : s.Sound) (hstep : s.Step c t) : s.Call c.event t c.outcome := by
  rcases Stream.exec_call h hstep.1 c.avail with ⟨t', o', hrun, hcall⟩
  have hrun' := hstep.2
  rw [hrun, Option.some.injEq, Prod.mk.injEq] at hrun'
  rw [← hrun'.1, ← hrun'.2]
  exact hcall

/-- The state after a call, and the outcome of the call. -/
def Stream.after (s : Stream) (e : Event) (avail : List Bool) :
    Stream × Outcome :=
  (s.exec avail e).getD (s, ⟨false, none, []⟩)

theorem Stream.Sound.step_after (h : s.Sound) {e : Event} (hadm : s.Admits e) (avail : List Bool) :
    s.Step ⟨e, avail, (s.after e avail).2⟩ (s.after e avail).1 := by
  rcases Stream.exec_call h hadm avail with ⟨t, o, hrun, _⟩
  refine ⟨hadm, ?_⟩
  simp only [Stream.after, hrun, Option.getD_some]

theorem sound_of_reachable (h : Reachable Stream.Start Stream.Step s) :
    s.Sound :=
  h.invariant (fun _ hs => hs.sound) fun _ _ _ hs hstep => (hs.step hstep).sound

end Runs

/-!
## Lanes
-/

def Stream.InLanes (s : Stream) (a : Lanes) : Prop :=
  ∀ i c, a i c = level s.m.rank c (s.msgs i)

variable {c : Label} {p : Stream × Lanes}

section Lanes

variable {s t : Stream} {a : Lanes} {e : Event} {o : Outcome}

theorem Stream.InLanes.order (h : s.InLanes a) (hs : s.Sound) (i : Nat) : a.order i = s.msgs i := by
  unfold Lanes.order
  have hlanes : a i = fun c => level s.m.rank c (s.msgs i) := funext (h i)
  rw [hlanes]
  exact flat_level (hs.ok i).ranked fun p _ => s.m.rank_le p

theorem level_filter (rank : Nat → Nat) (c : Nat) (p : Nat → Bool)
    (l : List Nat) : level rank c (l.filter p) = (level rank c l).filter p := by
  unfold level
  rw [filter_filter, filter_filter]
  apply filter_congr
  intro x _
  rw [Bool.and_comm]

theorem level_erase (rank : Nat → Nat) (c p : Nat) {l : List Nat}
    (h : l.Nodup) : level rank c (l.erase p) = (level rank c l).erase p := by
  have hlevel : (level rank c l).Nodup := h.filter _
  rw [h.erase_eq_filter, hlevel.erase_eq_filter]
  exact level_filter rank c _ l

theorem apply_eq (h : s.InLanes a) (hs : s.Sound) (hnext : ∀ i, e = .getq i →
      o.bp = (s.msgs i).find? fun p => !(s.m.blk p).msgnoget) (i c : Nat) :
    a.apply s.m e o i c = level s.m.rank c (s.effect e o i) := by
  have hother : ∀ {k : Nat} {f : Nat → List Nat → List Nat} {l : List Nat},
      f c (a k c) = level s.m.rank c l →
      a.onQueue k f i c = level s.m.rank c (update s.msgs k l i) := by
    intro k f l hf
    unfold Lanes.onQueue
    by_cases hk : i = k
    · subst hk
      rw [update_self, update_self]
      exact hf
    · rw [update_of_ne hk, update_of_ne hk]
      exact h i c
  cases e with
  | putq k bp =>
    unfold Lanes.apply Stream.effect
    by_cases hok : o.ok = true
    · simp only [hok, if_true]
      apply hother
      rw [h k c]
      by_cases hc : c = s.m.rank bp
      · rw [if_pos hc, hc, level_insertAt_self rfl]
      · rw [if_neg hc, level_insertAt_of_ne (hs.ok k).ranked hc]
    · simp only [hok]
      exact h i c
  | putbq k bp =>
    unfold Lanes.apply Stream.effect
    by_cases hok : o.ok = true
    · simp only [hok, if_true]
      apply hother
      rw [h k c]
      by_cases hc : c = s.m.rank bp
      · rw [if_pos hc, hc, level_insertAt_succ rfl]
      · rw [if_neg hc, level_insertAt_of_ne (hs.ok k).ranked hc]
    · simp only [hok]
      exact h i c
  | getq k =>
    have hnext' : a.next s.m k = o.bp := by
      rw [hnext k rfl, Lanes.next, h.order hs]
    unfold Lanes.apply Stream.effect
    simp only [hnext']
    cases o.bp with
    | none => exact h i c
    | some p =>
      apply hother
      rw [h k c, level_erase _ _ _ (DLinked.nodup (hs.ok k).links)]
  | rmvq k mp =>
    simp only [Lanes.apply, Stream.effect]
    apply hother
    rw [h k c, level_erase _ _ _ (DLinked.nodup (hs.ok k).links)]
  | flushq k flag =>
    apply hother
    rw [h k c, level_filter]
    rfl
  | flushband k pri flag =>
    apply hother
    rw [h k c, level_filter]
  | write bp x => exact h i c
  | canput k => exact h i c
  | bcanput k pri => exact h i c
  | noenable k => exact h i c
  | enableok k => exact h i c
  | qenable k => exact h i c
  | service => exact h i c
  | serviced k => exact h i c

theorem InLanes.step (h : s.InLanes a) (hs : s.Sound)
    (hstep : s.Step c t) : t.InLanes (a.apply s.m c.event c.outcome) := by
  have hcall := hs.step hstep
  intro i n
  rw [apply_eq h hs hcall.next, ← hcall.msgs]
  exact (level_congr fun p hp => hcall.rank i p hp).symm

theorem lanes_of_reachable (h : Reachable LaneStart LaneStep p) : p.1.Sound ∧ p.1.InLanes p.2 := by
  apply h.invariant
  · rintro ⟨s, a⟩ ⟨hs, rfl⟩
    refine ⟨hs.sound, ?_⟩
    intro i c
    rw [hs.msgs]
    rfl
  · rintro ⟨s, a⟩ c ⟨t, b⟩ ⟨hs, ha⟩ ⟨hstep, rfl⟩
    exact ⟨(hs.step hstep).sound, InLanes.step ha hs hstep⟩

end Lanes

/-!
## Order and accounting
-/

def laneBytes (m : Blocks) (l : List Nat) : Nat :=
  (l.map fun p => (m.blk p).bytes).sum

/-- The bytes of a band; those of high priority go with band 0. -/
def Lanes.bytes (m : Blocks) (a : Lanes) (i c : Nat) : Nat :=
  if c = 0 then laneBytes m (a i 256) + laneBytes m (a i 0)
  else laneBytes m (a i c)

structure Stream.Orderly (s : Stream) (a : Lanes) (i : Nat) : Prop where
  msgs : s.msgs i = a.order i
  links : DLinked s.m.next s.m.prev (s.q i).qFirst (s.q i).qLast (a.order i)
  rank : ∀ c, ∀ p ∈ a i c, s.m.rank p = c
  ends : ∀ c, 1 ≤ c → c ≤ (s.q i).qNband →
    (s.q i).delim c = some ((a i c).head?, (a i c).getLast?)
  beyond : ∀ c, (s.q i).qNband < c → c < 256 → a i c = []
  count : ∀ c f, (s.q i).flow c = some f → f.count = ulong (a.bytes s.m i c)

/-- The account of a band is right and its flag for fullness too. -/
structure Stream.Accounted (s : Stream) (a : Lanes) (i c : Nat) (f : Flow) :
    Prop where
  count : f.count = a.bytes s.m i c
  below : f.count < f.hiwat → f.full = false
  reached : f.hiwat ≤ f.count → (0 < f.hiwat ∨ ∃ p ∈ a.order i, s.m.band p = c) → f.full = true

section Accounting

variable {s : Stream} {a : Lanes}

theorem sum_filter_or {α : Type} (f : α → Nat) (A B : α → Bool) (l : List α)
    (h : ∀ x ∈ l, A x = true → B x = true → False) : ((l.filter fun x => A x || B x).map f).sum =
      ((l.filter A).map f).sum + ((l.filter B).map f).sum := by
  induction l with
  | nil => rfl
  | cons x rest ih =>
    have ih := ih fun y hy => h y (by simp [hy])
    have hx := h x (by simp)
    cases hA : A x with
    | true =>
      have hB : B x = false := by
        cases hB : B x with
        | true => exact (hx hA hB).elim
        | false => rfl
      simp [hA, hB, ih, Nat.add_assoc]
    | false =>
      cases hB : B x with
      | true =>
        simp only [filter_cons, hA, hB, Bool.false_or, if_true,
          Bool.false_eq_true, if_false, map_cons, sum_cons, ih]
        omega
      | false => simp [hA, hB, ih]

theorem bytes_lanes (hs : s.Sound) (ha : s.InLanes a) (i : Nat) {c : Nat}
    (hc : c < 256) : s.m.bytes (s.msgs i) c = a.bytes s.m i c := by
  have hok := hs.ok i
  unfold Lanes.bytes Blocks.bytes laneBytes
  by_cases h0 : c = 0
  · rw [if_pos h0, ha, ha]
    unfold level
    rw [← sum_filter_or]
    · congr 2
      apply filter_congr
      intro p hp
      have hband : s.m.band p = 0 ↔ s.m.rank p = 256 ∨ s.m.rank p = 0 := by
        by_cases hhigh : QPCTL ≤ (s.m.blk p).dbType
        · have hrank := rank_high hhigh
          have hzero := hok.normal p hp hhigh
          simp [hrank, hzero]
        · have hrank := rank_low hhigh
          have hlt := s.m.band_lt p
          omega
      rw [h0]
      simp [hband]
    · intro p _ h256 hzero
      simp only [decide_eq_true_eq] at h256 hzero
      omega
  · rw [if_neg h0, ha]
    congr 2
    apply filter_congr
    intro p hp
    have hiff : s.m.band p = c ↔ s.m.rank p = c :=
      ⟨fun hband => rank_of_band (hok.normal p hp) hband (by omega),
        fun hrank => band_of_rank hrank hc⟩
    simp [hiff]

theorem books_of_reachable {P : Account → Prop} (hP : Account.Law P)
    {init : Stream → Prop} {ok : Stream → Label → Prop} (hinit : ∀ s, init s → s.Sound ∧ s.Books P)
    (hcharge : ∀ s c, ok s c → s.Charges P c.event)
    (h : ReachableWhen init Stream.Step ok s) : s.Sound ∧ s.Books P := by
  apply h.invariant hinit
  rintro s c t ⟨hs, hb⟩ hok hstep
  have hcall := hs.step hstep
  exact ⟨hcall.sound, hcall.books P hP (hcharge s c hok) hb⟩

theorem stream_of_lanes {f : Stream → Label → Prop}
    (h : ReachableWhen LaneStart LaneStep (fun p c => f p.1 c) p) :
    ReachableWhen Stream.Start Stream.Step f p.1 ∧ p.1.InLanes p.2 := by
  have hrun : (ReachableWhen Stream.Start Stream.Step f p.1 ∧ p.1.Sound) ∧ p.1.InLanes p.2 := by
    apply h.invariant
    · rintro ⟨s, a⟩ ⟨hs, rfl⟩
      refine ⟨⟨ReachableWhen.start hs, hs.sound⟩, ?_⟩
      intro i c
      rw [hs.msgs]
      rfl
    · rintro ⟨s, a⟩ c ⟨t, b⟩ ⟨⟨hreach, hs⟩, ha⟩ hok ⟨hstep, rfl⟩
      exact ⟨⟨hreach.next hok hstep, (hs.step hstep).sound⟩, InLanes.step ha hs hstep⟩
  exact ⟨hrun.1.1, hrun.2⟩

theorem Stream.Start.counted (h : s.Start) : s.Books Account.Counted := by
  intro i c f hf
  rw [h.account]
  unfold Account.Counted
  rw [(h.flow i c f hf).1]
  rfl

theorem Stream.Start.exact (h : s.Start) : s.Books Account.Exact := by
  intro i c f hf
  rw [h.account]
  rcases h.flow i c f hf with ⟨hcount, hfull, _⟩
  refine ⟨by simp, hcount, ?_, ?_⟩
  · intro hf'
    rw [hfull] at hf'
    cases hf'
  · intro hle hany
    have hle : f.hiwat ≤ 0 := hle
    have hany : 0 < f.hiwat ∨ false = true := hany
    rcases hany with hpos | hfalse
    · omega
    · cases hfalse

theorem charges_counted (s : Stream) (c : Label) : s.Charges Account.Counted c.event := by
  unfold Stream.Charges
  split
  · exact fun a _ h => h.charge _
  · exact fun a _ h => h.charge _
  · trivial

theorem charges_exact (h : s.Light c) : s.Charges Account.Exact c.event := by
  unfold Stream.Light at h
  unfold Stream.Charges
  split
  · rename_i heq
    rw [heq] at h
    intro a ha hex
    have h : _ + _ < 4294967296 := h
    rw [← ha] at h
    exact hex.charge h
  · rename_i heq
    rw [heq] at h
    intro a ha hex
    have h : _ + _ < 4294967296 := h
    rw [← ha] at h
    exact hex.charge h
  · trivial

theorem orderly_of_reachable (h : Reachable LaneStart LaneStep p)
    (i : Nat) : p.1.Orderly p.2 i := by
  rcases stream_of_lanes (f := fun _ _ => True) h with ⟨hreach, ha⟩
  rcases books_of_reachable Account.Counted.law
    (fun s hs => ⟨hs.sound, hs.counted⟩) (fun s c _ => charges_counted s c)
    hreach with ⟨hs, hb⟩
  have hok := hs.ok i
  have horder := ha.order hs i
  refine ⟨horder.symm, ?_, ?_, ?_, ?_, ?_⟩
  · rw [horder]
    exact hok.links
  · intro c q hq
    rw [ha] at hq
    exact (mem_level.mp hq).2
  · intro c hc hc'
    rw [hok.delim c hc hc', ha]
  · intro c hc hc'
    rw [ha]
    unfold level
    rw [filter_eq_nil_iff]
    intro q hq
    rw [decide_eq_true_eq]
    intro hrank
    have := hok.bands q hq
    rw [band_of_rank hrank hc'] at this
    omega
  · intro c f hf
    have hle := Queue.le_of_flow hf
    have hnband := hok.nband
    rw [← bytes_lanes hs ha i (by omega)]
    exact hb i c f hf

theorem accounted_of_reachable (h : ReachableWhen LaneStart LaneStep (fun p c => p.1.Light c) p)
    (i c : Nat) (f : Flow) (hf : (p.1.q i).flow c = some f) : p.1.Accounted p.2 i c f := by
  rcases stream_of_lanes h with ⟨hreach, ha⟩
  rcases books_of_reachable Account.Exact.law
    (fun s hs => ⟨hs.sound, hs.exact⟩) (fun s c hl => charges_exact hl)
    hreach with ⟨hs, hb⟩
  have hle := Queue.le_of_flow hf
  have hnband := (hs.ok i).nband
  have hexact := hb i c f hf
  have hcount : f.count = p.1.m.bytes (p.1.msgs i) c := hexact.count
  refine ⟨by rw [hcount, bytes_lanes hs ha i (by omega)], ?_, ?_⟩
  · intro hlt
    by_contra hfull
    rw [Bool.not_eq_false] at hfull
    have hhigh : f.hiwat ≤ p.1.m.bytes (p.1.msgs i) c := hexact.high hfull
    omega
  · intro hreached hany
    apply hexact.full
    · change f.hiwat ≤ p.1.m.bytes (p.1.msgs i) c
      omega
    · rcases hany with hpos | ⟨q, hq, hband⟩
      · exact Or.inl hpos
      · right
        rw [ha.order hs] at hq
        exact any_eq_true.mpr ⟨q, hq, by simpa using hband⟩

/--
In every run the messages of a queue are its lanes, from the highest one down,
its bands delimit their lanes, and its counts are the bytes of the lanes as
unsigned longs.  Every call completes, and `getq` delivers the first
message that is not marked.  As long as the bytes of a band stay in range, its
count is exact, and the band is full if and only if the count has reached the
high water mark.
-/
theorem queue_order_and_accounting :
    (∀ p, Reachable LaneStart LaneStep p → ∀ i, p.1.Orderly p.2 i) ∧
    (∀ p, Reachable LaneStart LaneStep p → ∀ e avail, p.1.Admits e →
      ∃ t o, p.1.exec avail e = some (t, o) ∧ ∀ i, e = .getq i → o.bp = p.2.next p.1.m i) ∧
    ∀ p, ReachableWhen LaneStart LaneStep (fun p c => p.1.Light c) p →
      ∀ i c f, (p.1.q i).flow c = some f → p.1.Accounted p.2 i c f := by
  refine ⟨fun p h i => orderly_of_reachable h i, ?_,
    fun p h i c f hf => accounted_of_reachable h i c f hf⟩
  intro p h e avail hadm
  rcases lanes_of_reachable h with ⟨hs, ha⟩
  rcases Stream.exec_call hs hadm avail with ⟨t, o, hrun, hcall⟩
  refine ⟨t, o, hrun, ?_⟩
  intro i he
  rw [hcall.next i he, Lanes.next, ha.order hs]

theorem zero_lt_nband : 0 < 256 := by decide

theorem one_lt_nband : 1 < 256 := by decide

def message (band size : Nat) (h : band < 256) : Msgb :=
  ⟨none, none, band, false, M_DATA, [size], h⟩

def twoQueues : Stream where
  m := { nblk := 3, blk := fun p =>
    if p = 0 then message 0 4 zero_lt_nband else message 1 10 one_lt_nband }
  nq := 2
  q := fun _ => ⟨none, none, 0, 10, 5, false, false, true, false, false, false, [], true⟩
  qhead := []
  serving := []

theorem twoQueues_start : twoQueues.Start := by
  refine ⟨fun _ => rfl, fun _ => rfl, fun _ qb hqb => ?_, ?_, fun _ => ?_, fun _ => rfl, rfl⟩
  · cases hqb
  · intro i c f hf
    by_cases hc : c = 0
    · subst hc
      cases hf
      exact ⟨rfl, rfl, rfl⟩
    · rw [Queue.flow_band (by omega)] at hf
      cases hf
  · change 0 < 256
    decide

theorem twoQueues_free (bp : Nat) : twoQueues.Free bp := by
  intro i
  rw [twoQueues_start.msgs]
  simp

theorem queue_order_and_accounting_put : ((twoQueues.after (.putq 0 1) [true]).1.Orderly
      (Lanes.apply twoQueues.m (fun _ _ => []) (.putq 0 1)
        (twoQueues.after (.putq 0 1) [true]).2) 0) ∧
    (twoQueues.after (.putq 0 1) [true]).1.Accounted
      (Lanes.apply twoQueues.m (fun _ _ => []) (.putq 0 1)
        (twoQueues.after (.putq 0 1) [true]).2) 0 1 ⟨10, 10, 5, true, false⟩ := by
  have hstart : LaneStart (twoQueues, fun _ _ => []) := ⟨twoQueues_start, rfl⟩
  have hadm : twoQueues.Admits (.putq 0 1) :=
    ⟨by decide, by decide, twoQueues_free 1⟩
  have hstep := twoQueues_start.sound.step_after hadm [true]
  refine ⟨queue_order_and_accounting.1 (_, _) ?_ 0,
    queue_order_and_accounting.2.2 (_, _) ?_ 0 1 _ rfl⟩
  · exact (Reachable.start hstart).next ⟨hstep, rfl⟩
  · refine (ReachableWhen.start hstart).next ?_ ⟨hstep, rfl⟩
    have hlist : twoQueues.msgs 0 = [] := twoQueues_start.msgs 0
    change twoQueues.m.bytes (twoQueues.msgs 0) _ + 10 < 4294967296
    rw [hlist]
    decide

/-- Queues without messages, and messages of blocks of the given sizes. -/
def loneQueue (sizes : List Nat) : Stream :=
  { twoQueues with
    m := { nblk := 3, blk := fun _ =>
      { message 0 0 zero_lt_nband with sizes := sizes } } }

theorem loneQueue_start (sizes : List Nat) : (loneQueue sizes).Start :=
  ⟨twoQueues_start.first, twoQueues_start.last, twoQueues_start.ends,
    twoQueues_start.flow, twoQueues_start.nband, twoQueues_start.enab, rfl⟩

theorem loneQueue_putq (sizes : List Nat) :
    ((loneQueue sizes).after (.putq 0 0) []).1.msgs 0 = [0] ∧
    (((loneQueue sizes).after (.putq 0 0) []).1.m.blk 0).sizes = sizes ∧
    (((loneQueue sizes).after (.putq 0 0) []).1.q 0).qCount = addCount 0 sizes ∧
    (((loneQueue sizes).after (.putq 0 0) []).1.q 0).qFull =
      (if 10 ≤ addCount 0 sizes then true else false) ∧
    (((loneQueue sizes).after (.putq 0 0) []).1.q 0).qHiwat = 10 ∧
    Lanes.apply (loneQueue sizes).m (fun _ _ => []) (.putq 0 0)
      ((loneQueue sizes).after (.putq 0 0) []).2 0 256 = [] ∧
    Lanes.apply (loneQueue sizes).m (fun _ _ => []) (.putq 0 0)
      ((loneQueue sizes).after (.putq 0 0) []).2 0 0 = [0] :=
  ⟨rfl, rfl, rfl, rfl, rfl, rfl, rfl⟩

/--
A count runs over: a message of `2 ^ 32` bytes, in 4096 blocks that share
their data, leaves the count at 0 and the queue not full.
-/
theorem queue_count_runs_over : ∃ p, Reachable LaneStart LaneStep p ∧ p.1.msgs 0 = [0] ∧
      p.2.bytes p.1.m 0 0 = 4294967296 ∧ (p.1.q 0).qHiwat = 10 ∧
      (p.1.q 0).qCount = 0 ∧ (p.1.q 0).qFull = false := by
  obtain ⟨sizes, hbytes⟩ : ∃ sizes : List Nat, sizes.sum = 4294967296 := by
    refine ⟨List.replicate 4096 1048576, ?_⟩
    rw [sum_replicate]
    rfl
  have hcount : addCount 0 sizes = 0 := by
    have hsum := addCount_ulong 0 sizes
    rw [hbytes] at hsum
    exact hsum
  have hadm : (loneQueue sizes).Admits (.putq 0 0) := by
    refine ⟨Nat.zero_lt_succ 1, Nat.zero_lt_succ 2, ?_⟩
    intro i
    rw [(loneQueue_start sizes).msgs]
    simp
  have hstep := (loneQueue_start sizes).sound.step_after hadm []
  have hstart : LaneStart (loneQueue sizes, fun _ _ => []) :=
    ⟨loneQueue_start sizes, rfl⟩
  rcases loneQueue_putq sizes with ⟨hmsgs, hsizes, hqcount, hfull, hhiwat, hnone, hlane⟩
  refine ⟨(((loneQueue sizes).after (.putq 0 0) []).1,
    Lanes.apply (loneQueue sizes).m (fun _ _ => []) (.putq 0 0)
      ((loneQueue sizes).after (.putq 0 0) []).2),
    (Reachable.start hstart).next ⟨hstep, rfl⟩, hmsgs, ?_, hhiwat,
    hqcount.trans hcount, ?_⟩
  · simp only [Lanes.bytes, if_true, hnone, hlane, laneBytes, map_nil,
      map_cons, sum_nil, sum_cons, Msgb.bytes, hsizes, hbytes,
      Nat.zero_add, Nat.add_zero]
  · rw [hcount] at hfull
    exact hfull

end Accounting

/-!
## Waiting writers
-/

def Stream.Marked (s : Stream) : Prop :=
  ∀ i c f, (s.q i).flow c = some f → f.lowat < f.hiwat

section Waiting

theorem Stream.Start.waits {s : Stream} (h : s.Start) (hm : s.Marked) :
    s.Books fun a => a.Exact ∧ a.Marked ∧ a.Waits := by
  intro i c f hf
  refine ⟨h.exact i c f hf, hm i c f hf, ?_⟩
  intro hw
  have hw : f.wantw = true := hw
  rw [(h.flow i c f hf).2.2] at hw
  cases hw

theorem charges_waits {s : Stream} (h : s.Light c) :
    s.Charges (fun a => a.Exact ∧ a.Marked ∧ a.Waits) c.event := by
  unfold Stream.Light at h
  unfold Stream.Charges
  split
  · rename_i heq
    rw [heq] at h
    rintro a ha ⟨hex, hm, hw⟩
    have h : _ + _ < 4294967296 := h
    rw [← ha] at h
    exact ⟨hex.charge h, hm.charge _, Account.Waits.charge hex hw h⟩
  · rename_i heq
    rw [heq] at h
    rintro a ha ⟨hex, hm, hw⟩
    have h : _ + _ < 4294967296 := h
    rw [← ha] at h
    exact ⟨hex.charge h, hm.charge _, Account.Waits.charge hex hw h⟩
  · trivial

/--
As long as the bytes of a band stay in range, a writer waits only while they
are above the low water mark.  Every call that lets a writer go on enables the
nearest queue upstream with a service procedure and records the band there,
unless `setqback` warns that it cannot allocate the band.
-/
theorem no_lost_back_enable :
    (∀ s, ReachableWhen (fun s => s.Start ∧ s.Marked) Stream.Step Stream.Light s →
      ∀ i c f, (s.q i).flow c = some f → f.wantw = true →
        f.count = s.m.bytes (s.msgs i) c ∧ f.lowat < f.count) ∧
    ∀ s c t, Reachable Stream.Start Stream.Step s → s.Step c t →
      ¬ s.Wraps c.event → ∀ i pri, Cleared (s.q i) (t.q i) pri → ∀ j, s.backSrvp i = some j →
          (t.q j).qEnab = true ∧ j ∈ t.qhead ∧
            ((t.q j).back pri = true ∨ pri ∈ c.outcome.warned) := by
  constructor
  · intro s h i c f hf hw
    have hbooks := (books_of_reachable Account.Waits.law (fun s hs => ⟨hs.1.sound, hs.1.waits hs.2⟩)
      (fun s c hl => charges_waits hl) h).2 i c f hf
    exact ⟨hbooks.1.count, hbooks.2.2 hw⟩
  · intro s c t h hstep hwraps i pri hc j hj
    have hcall := (sound_of_reachable h).step hstep
    rcases hcall.relief hwraps i pri hc j hj with ⟨henab, hback⟩
    exact ⟨henab, (hcall.sound.enab.2 j).mp henab, hback⟩

/-- Queue 1 after a message of band 1 has been put on it and filled it. -/
def fullBand : Stream := (twoQueues.after (.putq 1 1) [true]).1

def refused : Stream := (fullBand.after (.bcanput 1 1) []).1

theorem fullBand_step : twoQueues.Step
    ⟨.putq 1 1, [true], (twoQueues.after (.putq 1 1) [true]).2⟩ fullBand := by
  have hadm : twoQueues.Admits (.putq 1 1) :=
    ⟨by decide, by decide, twoQueues_free 1⟩
  exact twoQueues_start.sound.step_after hadm [true]

theorem refused_step : fullBand.Step
    ⟨.bcanput 1 1, [], (fullBand.after (.bcanput 1 1) []).2⟩ refused := by
  have hadm : fullBand.Admits (.bcanput 1 1) := ⟨by decide, by decide⟩
  exact (twoQueues_start.sound.step fullBand_step).sound.step_after hadm []

theorem fullBand_reachable : ReachableWhen (fun s => s.Start ∧ s.Marked)
    Stream.Step Stream.Light fullBand := by
  have hmarked : twoQueues.Marked := by
    intro i c f hf
    by_cases hc : c = 0
    · subst hc
      cases hf
      change 5 < 10
      decide
    · rw [Queue.flow_band (by omega)] at hf
      cases hf
  refine (ReachableWhen.start ⟨twoQueues_start, hmarked⟩).next ?_ fullBand_step
  · have hlist : twoQueues.msgs 1 = [] := twoQueues_start.msgs 1
    change twoQueues.m.bytes (twoQueues.msgs 1) _ + 10 < 4294967296
    decide

theorem refused_reachable : ReachableWhen (fun s => s.Start ∧ s.Marked)
    Stream.Step Stream.Light refused := by
  refine fullBand_reachable.next ?_ refused_step
  exact trivial

theorem refused_start : Reachable Stream.Start Stream.Step refused :=
  ((Reachable.start twoQueues_start).next fullBand_step).next refused_step

theorem refused_getq (avail : List Bool) : refused.Step
    ⟨.getq 1, avail, (refused.after (.getq 1) avail).2⟩ (refused.after (.getq 1) avail).1 := by
  have hadm : refused.Admits (.getq 1) := show 1 < 2 by decide
  exact (sound_of_reachable refused_start).step_after hadm avail

theorem refused_cleared (avail : List Bool) :
    Cleared (refused.q 1) ((refused.after (.getq 1) avail).1.q 1) 1 :=
  ⟨⟨⟨10, 10, 5, true, true⟩, rfl, rfl⟩, ⟨0, 10, 5, false, false⟩, rfl, rfl⟩

theorem no_lost_back_enable_getq : 5 < 10 ∧ ((refused.after (.getq 1) [true]).1.q 0).qEnab = true ∧
      0 ∈ (refused.after (.getq 1) [true]).1.qhead :=
  ⟨(no_lost_back_enable.1 refused refused_reachable 1 1 ⟨10, 10, 5, true, true⟩
      rfl rfl).2,
    (no_lost_back_enable.2 refused _ _ refused_start (refused_getq [true])
      (fun h => h) 1 1 (refused_cleared [true]) 0 rfl).1,
    (no_lost_back_enable.2 refused _ _ refused_start (refused_getq [true])
      (fun h => h) 1 1 (refused_cleared [true]) 0 rfl).2.1⟩

/--
A writer of band 1 of queue 1 goes on, but there is no memory for the band in
queue 0, and its service procedure does not see which band it was.
-/
theorem back_enable_not_recorded : Reachable Stream.Start Stream.Step refused ∧
    refused.Step ⟨.getq 1, [], (refused.after (.getq 1) []).2⟩ (refused.after (.getq 1) []).1 ∧
    Cleared (refused.q 1) ((refused.after (.getq 1) []).1.q 1) 1 ∧ refused.backSrvp 1 = some 0 ∧
    ((refused.after (.getq 1) []).1.q 0).back 1 = false :=
  ⟨refused_start, refused_getq [], refused_cleared [], rfl, rfl⟩

end Waiting

end Streams
end Svr4
