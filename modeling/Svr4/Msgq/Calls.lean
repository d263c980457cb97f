import Svr4.Msgq.Turns

/-!
# The turns of the calls

What `msgsnd`, `msgrcv` and `msgctl` do with a locked queue: each turn keeps the
layout, is explained by the log, and wakes those who can go on.
-/

namespace Svr4
namespace Msgq

open Function Rmap List

/-!
## Flags
-/

/-- A change of flags, limits and locks. -/
structure Flags (qp qp' : Queue) : Prop where
  first : qp'.msgFirst = qp.msgFirst
  last : qp'.msgLast = qp.msgLast
  qnum : qp'.msgQnum = qp.msgQnum
  cbytes : qp'.msgCbytes = qp.msgCbytes
  alloc : qp'.ipcAlloc = qp.ipcAlloc

section Flag

variable {c : Config} {k : Kernel} {g : Ghost} {st : Store} {log acts : List Action} {p q : Nat}
  {pc : Pc} {ws : List Chan} {f f' : Queue → Queue}

theorem amend_amend (f f' : Queue → Queue) :
    (k.amend q f).amend q f' = k.amend q fun qp => f' (f qp) := by
  unfold Kernel.amend
  simp

theorem turn_flags {w : List Chan} {x : Pc} (hcore : Core c k g st log) (hlock : Locked k q) (hmine : ∀ h, g.own h ≠ .held p)
    (hf : Flags (k.msgque q) (f (k.msgque q))) (hexp : Explains (log ++ acts) st)
    (hholds : x.holds = none) (hlocks : x.locks = none ∨ x.locks = some q)
    (hpc : PcOk c (k.amend q f) g x) : Turn c k g log p q ⟨k.amend q f, w, x, acts⟩ g st := by
  have hcore' := hcore.amend hf.first hf.last hf.qnum hf.cbytes hf.alloc
  refine ⟨{ hcore' with explains := hexp }, fun q' hq => ⟨amend_of_ne hq f, rfl, fun _ _ => ⟨rfl, rfl⟩⟩,
    fun h p' _ => ⟨Iff.rfl, fun _ => rfl⟩, fun h => ?_, hpc, hlocks, .inl ?_⟩
  · rw [hholds]
    exact iff_of_false (hmine h) nofun
  · rw [amend_self, hf.alloc]
    exact hlock.2

theorem progress_amend
    (hfw : (k.msgque q).msgWwait = true → .queue q ∈ ws ∨ ((f (k.msgque q)).msgWwait = true ∧
      (k.msgque q).msgCbytes ≤ (f (k.msgque q)).msgCbytes ∧
      (f (k.msgque q)).msgQbytes ≤ (k.msgque q).msgQbytes))
    (hfr : (k.msgque q).msgRwait = true → (f (k.msgque q)).msgRwait = true ∨ .qnum q ∈ ws) :
    Progress k g (k.amend q f) g ws := by
  refine ⟨fun hk => .inl hk, fun hk => .inr ⟨hk, Set.Subset.rfl⟩, fun q' hk => ?_,
    fun q' hk => ?_⟩
  · by_cases hq : q' = q
    · rw [hq] at hk ⊢
      rw [amend_self]
      exact hfw hk
    · rw [amend_of_ne hq]
      exact .inr ⟨hk, Nat.le_refl _, Nat.le_refl _⟩
  · by_cases hq : q' = q
    · rw [hq] at hk ⊢
      rw [amend_self]
      rcases hfr hk with hk' | hw
      · exact .inr ⟨hk', fun h hh => ⟨hh, rfl⟩⟩
      · exact .inl hw
    · rw [amend_of_ne hq]
      exact .inr ⟨hk, fun h hh => ⟨hh, rfl⟩⟩

theorem progress_flags
    (hfw : (k.msgque q).msgWwait = true → (f (k.msgque q)).msgWwait = true ∨ .queue q ∈ ws)
    (hfr : (k.msgque q).msgRwait = true → (f (k.msgque q)).msgRwait = true ∨ .qnum q ∈ ws)
    (hc : (f (k.msgque q)).msgCbytes = (k.msgque q).msgCbytes)
    (hb : (f (k.msgque q)).msgQbytes ≤ (k.msgque q).msgQbytes) :
    Progress k g (k.amend q f) g ws := by
  refine progress_amend (fun hk => ?_) hfr
  rcases hfw hk with hk' | hw
  · exact .inr ⟨hk', Nat.le_of_eq hc.symm, hb⟩
  · exact .inl hw

theorem turn_ends (hcore : Core c k g st log) (hlock : Locked k q) (hmine : ∀ h, g.own h ≠ .held p) :
    Turn c k g log p q (.ends k q) g st ∧ Calm c k g (.ends k q) g := by
  constructor
  · exact turn_flags hcore hlock hmine ⟨rfl, rfl, rfl, rfl, rfl⟩
      (by rw [append_nil]; exact hcore.explains) rfl (.inl rfl) trivial
  · exact ⟨progress_flags (f := fun qp => { qp with msglock := false }) .inl .inl rfl
      (Nat.le_refl _), trivial⟩

end Flag

/-!
## Texts
-/

section Text

variable {c : Config} {k k' : Kernel} {g : Ghost} {st : Store} {log : List Action}
  {p q mp spot : Nat} {bytes : List Nat}

theorem text_congr {off n : Nat} (hmsg : ∀ i, i < n → k'.msg (off + i) = k.msg (off + i)) :
    k'.text off n = k.text off n := by
  refine map_congr_left fun i hi => hmsg i (mem_range.mp hi)

theorem copyText_self (k : Kernel) (off : Nat) (bytes : List Nat) :
    (k.copyText off bytes).text off bytes.length = bytes := by
  unfold Kernel.text Kernel.copyText
  refine ext_getElem (by simp) fun i h1 h2 => ?_
  simp [List.getElem?_eq_getElem h2]

theorem copyText_outside {off a : Nat} (h : a < off ∨ off + bytes.length ≤ a) :
    (k.copyText off bytes).msg a = k.msg a := by
  unfold Kernel.copyText
  simp only
  split
  · rw [List.getElem?_eq_none (by omega)]
    rfl
  · rfl

theorem unit_of_byte (hc : c.Valid) {s n i : Nat} (hi : i < n) :
    (c.msgssz * s + i) / c.msgssz + 1 ∈ System.unitsOf (btoq c n) (s + 1) := by
  have hssz := hc.msgssz
  have hdiv : (c.msgssz * s + i) / c.msgssz = s + i / c.msgssz := by
    rw [Nat.mul_add_div hssz]
  have hlt : i / c.msgssz < btoq c n := by
    unfold btoq
    have hle : i / c.msgssz * c.msgssz ≤ i := Nat.div_mul_le_self _ _
    rw [Nat.lt_iff_add_one_le, Nat.le_div_iff_mul_le hssz, Nat.add_mul, Nat.one_mul]
    omega
  unfold System.unitsOf
  rw [Set.mem_Ico]
  generalize i / c.msgssz = d at *
  omega

theorem copyText_textOf (hc : c.Valid) (hl : Laid c k g) (hown : g.own mp = .held p)
    (hsegs : ∀ u ∈ System.unitsOf (btoq c bytes.length) spot, u ∈ g.segs mp) (hspot : 0 < spot)
    {h : Nat} (hh : g.own h = .queue q) :
    (k.copyText (c.msgssz * (spot - 1)) bytes).textOf c h = k.textOf c h := by
  have hne : h ≠ mp := by
    rintro rfl
    rw [hown] at hh
    cases hh
  obtain ⟨hseg, hpos⟩ := hl.segsQueue q h hh
  refine text_congr fun i hi => ?_
  have hts : k.msgTs h ≠ 0 := by
    have hlt : i < k.msgTs h := hi
    omega
  refine copyText_outside ?_
  by_contra hin
  rw [not_or] at hin
  -- a byte in both would lie in a segment of both
  obtain ⟨j, hj⟩ : ∃ j, c.msgssz * (k.msgSpot h).toNat + i = c.msgssz * (spot - 1) + j :=
    ⟨c.msgssz * (k.msgSpot h).toNat + i - c.msgssz * (spot - 1), by
      change ¬ c.msgssz * (k.msgSpot h).toNat + i < _ ∧ _ at hin
      omega⟩
  have hjlt : j < bytes.length := by
    change _ ∧ ¬ _ ≤ c.msgssz * (k.msgSpot h).toNat + i at hin
    omega
  have hu := unit_of_byte hc (s := (k.msgSpot h).toNat) (n := k.msgTs h) (i := i) hi
  have hu' := unit_of_byte hc (s := spot - 1) hjlt
  rw [← hj, Nat.sub_add_cancel hspot] at hu'
  have hadd : (k.msgSpot h + 1).toNat = (k.msgSpot h).toNat + 1 := by
    have h0 := hpos hts
    omega
  rw [hadd] at hseg
  refine Set.disjoint_left.mp (hl.apart h mp hne) ?_ (hsegs _ hu')
  rw [hseg]
  exact hu

end Text

/-!
## Sending
-/

/-- Something a process does before the rest of its turn. -/
structure Prep (k : Kernel) (g : Ghost) (p : Nat) (k' : Kernel) (g' : Ghost) : Prop where
  msgque : k'.msgque = k.msgque
  onq : g'.onq = g.onq
  type : k'.msgType = k.msgType
  ts : k'.msgTs = k.msgTs
  own : ∀ h p', p' ≠ p → (g'.own h = .held p' ↔ g.own h = .held p') ∧
    (g.own h = .held p' → g'.segs h = g.segs h)

section Send

variable {c : Config} {k k' : Kernel} {g g' g'' : Ghost} {st st' : Store} {log : List Action}
  {p q mp cnt : Nat} {type spot : Int} {text : List Nat} {o : Outcome} {ws : List Chan} {a : Snd}

theorem Turn.prep (ht : Turn c k' g' log p q o g'' st') (hp : Prep k g p k' g') :
    Turn c k g log p q o g'' st' := by
  refine ⟨ht.core, fun q' hq => ?_, fun h p' hne => ?_, ht.mine, ht.pcOk, ht.locks, ht.alloc⟩
  · obtain ⟨h1, h2, h3⟩ := ht.others q' hq
    rw [hp.msgque] at h1
    rw [hp.onq] at h2 h3
    rw [hp.type, hp.ts] at h3
    exact ⟨h1, h2, h3⟩
  · obtain ⟨h1, h2⟩ := ht.own h p' hne
    obtain ⟨h3, h4⟩ := hp.own h p' hne
    exact ⟨h1.trans h3, fun hh => (h2 (h3.mpr hh)).trans (h4 hh)⟩

theorem Calm.prep (hcalm : Calm c k' g' o g'') (hp : Progress k g k' g' []) : Calm c k g o g'' :=
  ⟨by
    have hall := hp.trans hcalm.progress
    exact hall, hcalm.waiting⟩

theorem turn_enqueue {s : Int} {t : List Nat} (hcore : Core c k g st log) (hlock : Locked k q)
    (hown : ∀ h, g.own h = .held p ↔ h = mp) (hcnt : cnt < 2 ^ 16) (hlow : -1 ≤ s)
    (hhigh : s < 2 ^ 15) (hspot : cnt ≠ 0 → 0 ≤ s)
    (hsegs : g.segs mp = System.unitsOf (btoq c cnt) (s + 1).toNat)
    (htext : k.text (c.msgssz * s.toNat) cnt = t) :
    ∃ g' st', Turn c k g log p q (enqueue k q type cnt mp s t) g' st' ∧
      Calm c k g (enqueue k q type cnt mp s t) g' := by
  have hheld : g.own mp = .held p := (hown mp).mpr rfl
  obtain ⟨hlaid, hprog⟩ := hcore.laid.enqueue (q := q) hheld hcnt hlow hhigh hspot hsegs
  obtain ⟨htype, hts, hspots, hfp, hmap, hmsg, hwoken, hothers⟩ :=
    enqueue_fields k q type cnt mp s t
  have hqueue := enqueue_queue k q type cnt mp s t
  have hacts : (enqueue k q type cnt mp s t).acts = [.sent q type t] := by
    unfold enqueue
    cases (k.msgque q).msgLast <;> rfl
  have hpc : (enqueue k q type cnt mp s t).pc = .idle := by
    unfold enqueue
    cases (k.msgque q).msgLast <;> rfl
  generalize enqueue k q type cnt mp s t = o at *
  have hnot : ∀ q', mp ∉ g.onq q' := by
    intro q'
    rw [hcore.laid.queueOwn, hheld]
    nofun
  have hne : ∀ q' h, h ∈ g.onq q' → h ≠ mp := by
    rintro q' h hh rfl
    exact hnot q' hh
  have hsmall : ushort cnt = cnt := Nat.mod_eq_of_lt hcnt
  have hshort := short_eq hlow hhigh
  have htextOf : ∀ q' h, h ∈ g.onq q' → o.k.textOf c h = k.textOf c h := by
    intro q' h hh
    have hm := hne q' h hh
    unfold Kernel.textOf
    rw [hspots, hts, update_of_ne hm, update_of_ne hm]
    exact text_congr fun i _ => by rw [hmsg]
  have htypeOf : ∀ q' h, h ∈ g.onq q' → o.k.msgType h = k.msgType h := by
    intro q' h hh
    rw [htype]
    exact update_of_ne (hne q' h hh) _ _
  have htsOf : ∀ q' h, h ∈ g.onq q' → o.k.msgTs h = k.msgTs h := by
    intro q' h hh
    rw [hts]
    exact update_of_ne (hne q' h hh) _ _
  refine ⟨{ g with
    onq := update g.onq q (g.onq q ++ [mp])
    own := update g.own mp (.queue q) },
    st.put q (st.queues q ++ [⟨log.length, type, t⟩]), ⟨⟨hlaid, fun q' => ?_, fun q' => ?_, ?_,
    fun q' ha => ?_⟩, fun q' hq => ⟨hothers q' hq, update_of_ne hq _ _, fun h hh =>
      ⟨htypeOf q' h hh, htsOf q' h hh⟩⟩, fun h p' hp' => ⟨?_, fun _ => rfl⟩, fun h => ?_, ?_, ?_,
      .inl ?_⟩,
    ⟨hprog, ?_⟩⟩
  · by_cases hq : q' = q
    · subst hq
      change _ = ((update g.onq q' (g.onq q' ++ [mp]) q').map o.k.msgTs).sum
      rw [update_self, hqueue, map_append, sum_append, map_congr_left (htsOf q'), ← hcore.cbytes q']
      change _ = _ + (o.k.msgTs mp + 0)
      rw [hts, update_self, hsmall]
      rfl
    · change _ = ((update g.onq q (g.onq q ++ [mp]) q').map o.k.msgTs).sum
      rw [update_of_ne hq, hothers q' hq, map_congr_left (htsOf q')]
      exact hcore.cbytes q'
  · have hsame : ∀ q', (g.onq q').map (fun h => (o.k.msgType h, o.k.textOf c h)) =
        (st.queues q').map fun m => (m.type, m.text) := by
      intro q'
      rw [← hcore.texts q']
      exact map_congr_left fun h hh => by rw [htypeOf q' h hh, htextOf q' h hh]
    by_cases hq : q' = q
    · subst hq
      change (update g.onq q' (g.onq q' ++ [mp]) q').map _ = _
      rw [update_self, Store.put_self, map_append, map_append, hsame q']
      change _ ++ [(o.k.msgType mp, o.k.textOf c mp)] = _ ++ [(type, t)]
      have hmine : o.k.textOf c mp = t := by
        unfold Kernel.textOf
        rw [hspots, hts, update_self, update_self, hsmall, hshort, ← htext]
        exact text_congr fun i _ => by rw [hmsg]
      rw [hmine, htype, update_self]
    · change (update g.onq q (g.onq q ++ [mp]) q').map _ = _
      rw [update_of_ne hq, Store.put_of_ne hq]
      exact hsame q'
  · rw [hacts]
    exact .sent q type t hcore.explains
  · by_cases hq : q' = q
    · subst hq
      rw [hqueue] at ha
      have hyes := hlock.2
      rw [hyes] at ha
      cases ha
    · rw [hothers q' hq] at ha
      change update g.onq q (g.onq q ++ [mp]) q' = []
      rw [update_of_ne hq]
      exact hcore.unused q' ha
  · change update g.own mp (.queue q) h = .held p' ↔ _
    by_cases hm : h = mp
    · rw [hm, update_self, hheld]
      refine iff_of_false nofun fun heq => ?_
      injection heq with heq
      exact hp' heq.symm
    · rw [update_of_ne hm]
  · change update g.own mp (.queue q) h = .held p ↔ _
    rw [hpc]
    refine iff_of_false ?_ nofun
    by_cases hm : h = mp
    · rw [hm, update_self]
      nofun
    · rw [update_of_ne hm, hown]
      exact hm
  · rw [hpc]
    trivial
  · rw [hpc]
    exact .inl rfl
  · rw [hqueue]
    exact hlock.2
  · rw [hpc]
    trivial

theorem take_prep (hcore : Core c k g st log) (hmine : ∀ h, g.own h ≠ .held p)
    (hmp : k.msgfp = some mp) : ∃ g', Core c { k with msgfp := k.msgNext mp } g' st log ∧
      Prep k g p { k with msgfp := k.msgNext mp } g' ∧
      Progress k g { k with msgfp := k.msgNext mp } g' [] ∧
      (∀ h, g'.own h = .held p ↔ h = mp) ∧ g'.segs mp = ∅ ∧ g'.entries = g.entries := by
  obtain ⟨rest, hrest, hfree, hlt, hlaid⟩ := hcore.laid.takeHeader hmp p
  refine ⟨_, ⟨hlaid, hcore.cbytes, hcore.texts, hcore.explains, hcore.unused⟩,
    ⟨rfl, rfl, rfl, rfl, fun h p' hne => ⟨?_, fun _ => rfl⟩⟩, ?_, fun h => ?_,
    hcore.laid.segsFree mp hfree, rfl⟩
  · change update g.own mp (.held p) h = .held p' ↔ _
    by_cases hm : h = mp
    · rw [hm, update_self, hfree]
      refine iff_of_false (fun heq => ?_) nofun
      injection heq with heq
      exact hne heq.symm
    · rw [update_of_ne hm]
  · refine ⟨fun hk => ?_, fun hk => .inr ⟨hk, Set.Subset.rfl⟩,
      fun _ hk => .inr ⟨hk, Nat.le_refl _, Nat.le_refl _⟩,
      fun _ hk => .inr ⟨hk, fun _ hh => ⟨hh, rfl⟩⟩⟩
    rw [hmp] at hk
    cases hk
  · change update g.own mp (.held p) h = .held p ↔ _
    by_cases hm : h = mp
    · rw [hm, update_self]
      exact iff_of_true rfl rfl
    · rw [update_of_ne hm]
      exact iff_of_false (hmine h) hm

theorem turn_back {x : Pc} (hcore : Core c k g st log) (hlock : Locked k q)
    (hown : ∀ h, g.own h = .held p ↔ h = mp)
    (hsegs : g.segs mp = ∅) (hholds : x.holds = none) (hlocks : x.locks = none)
    (hpc : ∀ k' g', PcOk c k' g' x) :
    ∃ g', Turn c k g log p q ⟨(k.putHeader mp).1.unlock q, ws, x, []⟩ g' st ∧
      g'.entries = g.entries ∧
      Progress k g ((k.putHeader mp).1.unlock q) g' (k.putHeader mp).2 := by
  have hheld : g.own mp = .held p := (hown mp).mpr rfl
  have hlaid := hcore.laid.putHeader hheld hsegs
  have hcore' : Core c (k.putHeader mp).1
      { g with free := mp :: g.free, own := update g.own mp .free } st log :=
    ⟨hlaid, hcore.cbytes, hcore.texts, hcore.explains, hcore.unused⟩
  have hnone : ∀ h, update g.own mp Place.free h ≠ .held p := by
    intro h
    by_cases hm : h = mp
    · rw [hm, update_self]
      nofun
    · rw [update_of_ne hm]
      exact fun heq => hm ((hown h).mp heq)
  have hturn := turn_flags (p := p) (q := q) (w := ws)
    (f := fun qp => { qp with msglock := false }) hcore' hlock hnone ⟨rfl, rfl, rfl, rfl, rfl⟩
    (by rw [append_nil]; exact hcore.explains) hholds (.inl hlocks) (hpc _ _)
  refine ⟨_, hturn.prep ⟨rfl, rfl, rfl, rfl, fun h p' hne => ⟨?_, fun _ => rfl⟩⟩, rfl, ?_⟩
  · change update g.own mp Place.free h = .held p' ↔ _
    by_cases hm : h = mp
    · rw [hm, update_self, hheld]
      refine iff_of_false nofun fun heq => ?_
      injection heq with heq
      exact hne heq.symm
    · rw [update_of_ne hm]
  · have hfirst := progress_putHeader (m := mp) k g (update g.own mp .free) (mp :: g.free)
    have hsecond : Progress (k.putHeader mp).1
        { g with free := mp :: g.free, own := update g.own mp .free }
        ((k.putHeader mp).1.unlock q)
        { g with free := mp :: g.free, own := update g.own mp .free } [] :=
      progress_flags (f := fun qp => { qp with msglock := false }) .inl .inl rfl (Nat.le_refl _)
    have hall := hfirst.trans hsecond
    rw [append_nil] at hall
    exact hall

theorem turn_getres (hc : c.Valid) (hcore : Core c k g st log) (hlock : Locked k q)
    (hmine : ∀ h, g.own h ≠ .held p) (ha : a.Ok c) :
    ∃ o g' st', getres c k a q type = some o ∧ Turn c k g log p q o g' st' ∧
      (k.msgmap.mapwant + 1 < 2 ^ 32 → Calm c k g o g') := by
  have hends : ∃ o g' st', some (Outcome.ends k q) = some o ∧ Turn c k g log p q o g' st' ∧
      (k.msgmap.mapwant + 1 < 2 ^ 32 → Calm c k g o g') :=
    ⟨_, g, st, rfl, (turn_ends hcore hlock hmine).1, fun _ => (turn_ends hcore hlock hmine).2⟩
  have hexp : Explains (log ++ []) st := by
    rw [append_nil]
    exact hcore.explains
  unfold getres
  simp only
  split
  · -- no space on the queue
    rename_i hfull
    split
    · exact hends
    · rw [Kernel.unlock, amend_amend]
      have hwait : Waiting c (k.amend q fun qp => { qp with msgWwait := true, msglock := false }) g
          (.waitQueue a q type) := by
        unfold Waiting
        simp only [amend_self]
        exact ⟨trivial, hfull⟩
      exact ⟨_, g, st, rfl, turn_flags
        (f := fun qp => { qp with msgWwait := true, msglock := false }) hcore hlock hmine
        ⟨rfl, rfl, rfl, rfl, rfl⟩ hexp rfl (.inl rfl) ha, fun _ => ⟨progress_flags
        (f := fun qp => { qp with msgWwait := true, msglock := false }) (fun _ => .inl rfl)
        .inl rfl (Nat.le_refl _), hwait⟩⟩
  · split
    · -- no header
      rename_i hnone
      split
      · exact hends
      · refine ⟨_, g, st, rfl, turn_flags (f := fun qp => { qp with msglock := false }) hcore hlock hmine
          ⟨rfl, rfl, rfl, rfl, rfl⟩ hexp rfl (.inl rfl) ha, fun _ => ⟨progress_flags
          (f := fun qp => { qp with msglock := false }) .inl .inl rfl (Nat.le_refl _), hnone⟩⟩
    · rename_i mp hmp
      obtain ⟨g₁, hcore₁, hprep₁, hprog₁, hown₁, hsegs₁, hentries₁⟩ := take_prep hcore hmine hmp
      split
      · -- an empty text
        rename_i hzero
        obtain ⟨g', st', hturn, hcalm⟩ := turn_enqueue (s := -1)
          hcore₁ hlock hown₁ (by decide) (by decide) (by decide) (fun h => absurd rfl h)
          (by
            have hbtoq : btoq c 0 = 0 := by
              have hssz := hc.msgssz
              unfold btoq
              exact Nat.div_eq_of_lt (by omega)
            rw [hsegs₁, hbtoq]
            unfold System.unitsOf
            simp)
          rfl
        exact ⟨_, g', st', rfl, hturn.prep hprep₁, fun _ => hcalm.prep hprog₁⟩
      · rename_i hpos
        have hsize : 0 < btoq c a.msgsz.toNat := by
          have hssz := hc.msgssz
          unfold btoq
          exact Nat.div_pos (by omega) hssz
        obtain ⟨spot, map, hrun, hcase⟩ := hcore₁.laid.rmalloc hc ((hown₁ mp).mpr rfl) hsegs₁ hsize
        rw [hrun]
        rcases hcase with ⟨hzero, hmap, hblocked⟩ | ⟨hspot, E', hlaid₂, hprog₂⟩
        · -- no segments
          simp only [if_pos hzero, hmap]
          obtain ⟨want, hwant⟩ : ∃ want, want =
            if a.nowait = true then k.msgmap.mapwant else ulong (k.msgmap.mapwant + 1) := ⟨_, rfl⟩
          rw [← hwant]
          have hcore₂ : Core c { k with
              msgfp := k.msgNext mp, msgmap := { k.msgmap with mapwant := want } } g₁ st log :=
            ⟨{ hcore₁.laid with map := { hcore₁.laid.map with ok := { hcore₁.laid.map.ok with } } },
              hcore₁.cbytes, hcore₁.texts, hcore₁.explains, hcore₁.unused⟩
          obtain ⟨g', hturn, hentries, hprog⟩ := turn_back (q := q)
            (x := if a.nowait = true then .idle else .waitMap a q type) hcore₂ hlock hown₁ hsegs₁
            (by split <;> rfl) (by split <;> rfl)
            (by
              intro k' g'
              split
              · trivial
              · exact ha)
          refine ⟨_, g', st, rfl, hturn.prep ⟨hprep₁.msgque, hprep₁.onq, hprep₁.type, hprep₁.ts,
            hprep₁.own⟩, fun hsmall => ⟨?_, ?_⟩⟩
          · have hmid : Progress { k with msgfp := k.msgNext mp } g₁ { k with
                msgfp := k.msgNext mp, msgmap := { k.msgmap with mapwant := want } } g₁ [] := by
              refine ⟨fun hk => .inl hk, fun hk => .inr ⟨?_, Set.Subset.rfl⟩,
                fun _ hk => .inr ⟨hk, Nat.le_refl _, Nat.le_refl _⟩,
                fun _ hk => .inr ⟨hk, fun _ hh => ⟨hh, rfl⟩⟩⟩
              change want ≠ 0
              rw [hwant]
              split
              · exact hk
              · rw [ulong_eq hsmall]
                omega
            have hall := (hprog₁.trans hmid).trans hprog
            exact hall
          · split
            · trivial
            · rename_i hwait
              refine ⟨?_, fun b => ?_⟩
              · change want ≠ 0
                rw [hwant, if_neg hwait, ulong_eq hsmall]
                omega
              · rw [hentries, hentries₁]
                have hb := hblocked b
                rw [hentries₁] at hb
                exact hb
        · have hne : ¬ spot = 0 := by omega
          simp only [if_neg hne]
          refine ⟨⟨{ k with msgfp := k.msgNext mp, msgmap := map }, [],
            .sndText a q type mp spot, []⟩, _, st, rfl, ⟨⟨hlaid₂, hcore₁.cbytes, hcore₁.texts, ?_, hcore₁.unused⟩,
            fun q' _ => ⟨rfl, by rw [← hprep₁.onq], fun _ _ => ⟨rfl, rfl⟩⟩, fun h p' hne => ?_,
            fun h => ?_, ?_, .inr rfl, .inl hlock.2⟩, fun _ => ⟨?_, trivial⟩⟩
          · rw [append_nil]
            exact hcore.explains
          · refine ⟨(hprep₁.own h p' hne).1, fun hh => ?_⟩
            have hm : h ≠ mp := by
              rintro rfl
              have hother := (hprep₁.own h p' hne).1.mpr hh
              rw [(hown₁ h).mpr rfl] at hother
              injection hother with heq
              exact hne heq.symm
            change update g₁.segs mp _ h = _
            rw [update_of_ne hm]
            exact (hprep₁.own h p' hne).2 hh
          · change g₁.own h = .held p ↔ some mp = some h
            rw [hown₁]
            exact ⟨fun heq => by rw [heq], fun heq => (Option.some.inj heq).symm⟩
          · exact ⟨ha, hlock, hpos, hspot, update_self _ _ _⟩
          · have hall := hprog₁.trans hprog₂
            exact hall

theorem turn_sendText {spot : Nat} {b : Bool} (hc : c.Valid) (hcore : Core c k g st log)
    (hpc : PcOk c k g (.sndText a q type mp spot)) (hown : ∀ h, g.own h = .held p ↔ h = mp)
    (hlen : if b then text.length ≤ a.msgsz.toNat else text.length = a.msgsz.toNat) :
    ∃ o g' st', sendText c k a q type mp spot text b = some o ∧
      Turn c k g log p q o g' st' ∧ Calm c k g o g' := by
  obtain ⟨ha, hlock, hpos, hspot, hsegs⟩ := hpc
  have hheld : g.own mp = .held p := (hown mp).mpr rfl
  have hcnt : a.msgsz.toNat < 2 ^ 16 := by
    have hmax := hc.msgmax
    have hle := ha.2
    omega
  have hle : text.length ≤ a.msgsz.toNat := by
    cases b
    · exact Nat.le_of_eq hlen
    · exact hlen
  have hsize : 0 < btoq c a.msgsz.toNat := by
    have hssz := hc.msgssz
    unfold btoq
    exact Nat.div_pos (by omega) hssz
  -- the segments bound the place
  have hbound : spot - 1 < 2 ^ 15 := by
    have hin : spot ∈ g.taken := ⟨mp, by
      rw [hsegs]
      unfold System.unitsOf
      rw [Set.mem_Ico]
      omega⟩
    have hput := hcore.laid.map.subset_put.1 hin
    have hhigh : spot < 1 + c.msgseg := hput.2
    have hseg := hc.msgseg
    omega
  -- the copied text
  obtain ⟨k₁, hk₁⟩ : ∃ k₁, k₁ = k.copyText (c.msgssz * (spot - 1)) text := ⟨_, rfl⟩
  have htexts : ∀ q' h, h ∈ g.onq q' → k₁.textOf c h = k.textOf c h := by
    intro q' h hh
    rw [hk₁]
    refine copyText_textOf hc hcore.laid hheld (fun u hu => ?_) hspot
      ((hcore.laid.queueOwn q' h).mp hh)
    rw [hsegs]
    unfold System.unitsOf at hu ⊢
    have hmono : btoq c text.length ≤ btoq c a.msgsz.toNat := by
      unfold btoq
      exact Nat.div_le_div_right (by omega)
    rw [Set.mem_Ico] at hu ⊢
    omega
  have hcore₁ : Core c k₁ g st log := by
    refine ⟨by rw [hk₁]; exact { hcore.laid with }, by rw [hk₁]; exact hcore.cbytes, fun q' => ?_,
      hcore.explains, by rw [hk₁]; exact hcore.unused⟩
    rw [← hcore.texts q']
    refine map_congr_left fun h hh => ?_
    rw [htexts q' h hh, hk₁]
    rfl
  have hprep₁ : Prep k g p k₁ g := by
    rw [hk₁]
    exact ⟨rfl, rfl, rfl, rfl, fun _ _ _ => ⟨Iff.rfl, fun _ => rfl⟩⟩
  have hprog₁ : Progress k g k₁ g [] := by
    rw [hk₁]
    exact ⟨fun hk => .inl hk, fun hk => .inr ⟨hk, Set.Subset.rfl⟩,
      fun _ hk => .inr ⟨hk, Nat.le_refl _, Nat.le_refl _⟩,
      fun _ hk => .inr ⟨hk, fun _ hh => ⟨hh, rfl⟩⟩⟩
  unfold sendText
  rw [← hk₁]
  cases b with
  | true =>
    obtain ⟨k₂, woken, E', lost, hrun, hk₂, hlaid₂, hprog₂⟩ :=
      hcore₁.laid.freeText hc hheld hsegs hsize
    rw [if_pos rfl, hrun]
    have hcore₂ : Core c k₂ { g with
        segs := update g.segs mp ∅, entries := E', lost := lost } st log := by
      rw [hk₂]
      rw [hk₂] at hlaid₂
      exact ⟨hlaid₂, hcore₁.cbytes, hcore₁.texts, hcore₁.explains, hcore₁.unused⟩
    have hprep₂ : Prep k₁ g p k₂ { g with
        segs := update g.segs mp ∅, entries := E', lost := lost } := by
      rw [hk₂]
      refine ⟨rfl, rfl, rfl, rfl, fun h p' hne => ⟨Iff.rfl, fun hh => ?_⟩⟩
      refine update_of_ne ?_ _ _
      rintro rfl
      rw [hheld] at hh
      injection hh with heq
      exact hne heq.symm
    obtain ⟨g', hturn, _, hprog⟩ := turn_back (q := q)
      (x := .idle) hcore₂ (by rw [hk₂, hk₁]; exact hlock) hown (update_self _ _ _) rfl rfl fun _ _ => trivial
    refine ⟨_, g', st, rfl, (hturn.prep hprep₂).prep hprep₁, ⟨?_, trivial⟩⟩
    have hall := (hprog₁.trans hprog₂).trans hprog
    exact hall
  | false =>
    have hcast : ((spot - 1 : Nat) : Int) + 1 = spot := by omega
    obtain ⟨g', st', hturn, hcalm⟩ := turn_enqueue
      (s := (spot - 1 : Nat)) (t := text) (q := q) hcore₁
      (by rw [hk₁]; exact hlock) hown hcnt (by omega) (by exact_mod_cast hbound)
      (fun _ => by omega)
      (by
        rw [hcast, Int.toNat_natCast]
        exact hsegs)
      (by
        rw [Int.toNat_natCast, hk₁]
        have heq : a.msgsz.toNat = text.length := hlen.symm
        rw [heq]
        exact copyText_self k _ text)
    exact ⟨_, g', st', rfl, hturn.prep hprep₁, hcalm.prep hprog₁⟩

end Send

end Msgq
end Svr4
