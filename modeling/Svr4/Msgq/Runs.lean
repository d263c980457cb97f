import Svr4.Msgq.Receiving

/-!
# Message queues under any interleaving

What every step keeps, and from it what holds in every reachable state: messages are
conserved and taken in order, and who is asleep cannot go on.
-/

namespace Svr4
namespace Msgq

open Function Rmap List Option

/-!
## Invariants
-/

structure World.Sound (c : Config) (w : World) (g : Ghost) (st : Store) : Prop where
  core : Core c w.k g st w.log
  pcOk : ∀ p, PcOk c w.k g (w.procs p)
  single : ∀ p p' q, (w.procs p).locks = some q → (w.procs p').locks = some q → p = p'
  own : ∀ h p, g.own h = .held p ↔ (w.procs p).holds = some h
  quiet : ∀ q, (w.k.msgque q).ipcAlloc = false →
    (w.k.msgque q).msgRwait = false ∧ (w.k.msgque q).msgWwait = false

def World.Asleep (c : Config) (w : World) (g : Ghost) : Prop :=
  ∀ p, Waiting c w.k g (w.procs p)

section Facts

variable {c : Config} {k k' : Kernel} {w w' : World} {g g' : Ghost} {st st' : Store}
  {log : List Action} {p p' q : Nat} {pc : Pc} {o : Outcome} {ws : List Chan}

theorem after_self (w : World) (p : Nat) (o : Outcome) : (w.after p o).procs p = o.pc := by
  change update (fun x => (w.procs x).wakes o.woken) p o.pc p = o.pc
  exact update_self _ _ _

theorem after_of_ne (hne : p' ≠ p) : (w.after p o).procs p' = (w.procs p').wakes o.woken := by
  change update (fun x => (w.procs x).wakes o.woken) p o.pc p' = _
  exact update_of_ne hne _ _

theorem goto_self (w : World) (p : Nat) (pc : Pc) : (w.goto p pc).procs p = pc := by
  exact update_self _ _ _

theorem goto_of_ne (hne : p' ≠ p) : (w.goto p pc).procs p' = w.procs p' := by
  exact update_of_ne hne _ _

theorem PcOk.locked (hpc : PcOk c k g pc) (hlocks : pc.locks = some q) : Locked k q := by
  cases pc with
  | sndType a q' =>
    cases hlocks
    exact hpc.2
  | sndText a q' type mp spot =>
    cases hlocks
    exact hpc.2.1
  | copyout a q' smp spmp sz =>
    cases hlocks
    exact hpc.1
  | ctlCopy q' cmd =>
    cases hlocks
    exact hpc
  | _ => cases hlocks

theorem PcOk.others (hpc : PcOk c k g pc) (hpc' : pc.locks ≠ some q)
    (hque : ∀ q', q' ≠ q → k'.msgque q' = k.msgque q' ∧ g'.onq q' = g.onq q' ∧
      ∀ h ∈ g.onq q', k'.msgType h = k.msgType h ∧ k'.msgTs h = k.msgTs h)
    (hsegs : ∀ h, pc.holds = some h → g'.segs h = g.segs h) : PcOk c k' g' pc := by
  have hlock : ∀ q', pc.locks = some q' → Locked k' q' := by
    intro q' hq'
    have hne : q' ≠ q := by
      rintro rfl
      exact hpc' hq'
    unfold Locked
    rw [(hque q' hne).1]
    exact hpc.locked hq'
  cases pc with
  | sndType a q' => exact ⟨hpc.1, hlock q' rfl⟩
  | sndText a q' type mp spot =>
    obtain ⟨ha, _, hsz, hspot, hunits⟩ := hpc
    exact ⟨ha, hlock q' rfl, hsz, hspot, (hsegs mp rfl).trans hunits⟩
  | copyout a q' smp spmp sz =>
    obtain ⟨_, pre, post, hsplit, hlast, htakes, hsz⟩ := hpc
    have hne : q' ≠ q := by
      rintro rfl
      exact hpc' rfl
    obtain ⟨_, honq, hsame⟩ := hque q' hne
    have htype : ∀ l : List Nat, (∀ h ∈ l, h ∈ g.onq q') → l.map k'.msgType = l.map k.msgType :=
      fun l hl => map_congr_left fun h hh => (hsame h (hl h hh)).1
    have hsmp : smp ∈ g.onq q' := by
      rw [hsplit]
      simp
    refine ⟨hlock q' rfl, pre, post, honq.trans hsplit, hlast, ?_, ?_⟩
    · rw [htype pre fun h hh => by rw [hsplit]; exact mem_append_left _ hh,
        htype post fun h hh => by
          rw [hsplit]
          exact mem_append_right _ (mem_cons_of_mem _ hh),
        (hsame smp hsmp).1]
      exact htakes
    · rw [(hsame smp hsmp).2]
      exact hsz
  | ctlCopy q' cmd => exact hlock q' rfl
  | _ => exact hpc

theorem World.Sound.after (hs : w.Sound c g st) (hfree : ∀ p', p' ≠ p → (w.procs p').locks ≠ some q)
    (ht : Turn c w.k g w.log p q o g' st') : (w.after p o).Sound c g' st' := by
  have hself := after_self w p o
  have hother : ∀ {p'}, p' ≠ p → (w.after p o).procs p' = (w.procs p').wakes o.woken :=
    fun hne => after_of_ne hne
  have hlocks : ∀ {p'}, p' ≠ p → ((w.after p o).procs p').locks = (w.procs p').locks := by
    intro p' hne
    rw [hother hne]
    exact (Pc.wakes_facts (c := c) (k := w.k) (g := g) o.woken (w.procs p')).1
  refine ⟨ht.core, fun p' => ?_, fun p₁ p₂ q' h₁ h₂ => ?_, fun h p' => ?_, fun q' hq' => ?_⟩
  · by_cases hp : p' = p
    · rw [hp, hself]
      exact ht.pcOk
    · rw [hother hp]
      refine (Pc.wakes_facts o.woken (w.procs p')).2.2.1 ?_
      exact (hs.pcOk p').others (hfree p' hp) ht.others fun h hh =>
        (ht.own h p' hp).2 ((hs.own h p').mpr hh)
  · by_cases hp₁ : p₁ = p
    · by_cases hp₂ : p₂ = p
      · rw [hp₁, hp₂]
      · rw [hlocks hp₂] at h₂
        rw [hp₁, hself] at h₁
        rcases ht.locks with hn | hq
        · rw [hn] at h₁
          cases h₁
        · rw [hq] at h₁
          rw [some.inj h₁] at hfree
          exact absurd h₂ (hfree p₂ hp₂)
    · rw [hlocks hp₁] at h₁
      by_cases hp₂ : p₂ = p
      · rw [hp₂, hself] at h₂
        rcases ht.locks with hn | hq
        · rw [hn] at h₂
          cases h₂
        · rw [hq] at h₂
          rw [some.inj h₂] at hfree
          exact absurd h₁ (hfree p₁ hp₁)
      · rw [hlocks hp₂] at h₂
        exact hs.single p₁ p₂ q' h₁ h₂
  · by_cases hp : p' = p
    · rw [hp, hself]
      exact ht.mine h
    · rw [hother hp, (Pc.wakes_facts (c := c) (k := w.k) (g := g) o.woken (w.procs p')).2.1]
      exact (ht.own h p' hp).1.trans (hs.own h p')
  · by_cases hq : q' = q
    · rw [hq] at hq' ⊢
      rcases ht.alloc with ha | hquiet
      · change (o.k.msgque q).ipcAlloc = false at hq'
        rw [ha] at hq'
        cases hq'
      · exact hquiet
    · change (o.k.msgque q').ipcAlloc = false at hq'
      change (o.k.msgque q').msgRwait = false ∧ (o.k.msgque q').msgWwait = false
      rw [(ht.others q' hq).1] at hq' ⊢
      exact hs.quiet q' hq'

theorem Waiting.progress (hw : Waiting c k g pc) (hp : Progress k g k' g' ws) :
    Waiting c k' g' (pc.wakes ws) := by
  cases hon : (pc.wakes ws).on with
  | none =>
    cases hpc : pc.wakes ws <;> rw [hpc] at hon
    all_goals trivial
  | some ch =>
    obtain ⟨hsame, hnot⟩ := Pc.on_wakes hon
    rw [hsame] at hon ⊢
    cases pc with
    | waitQueue a q type =>
      cases hon
      rcases hp.queue q hw.1 with hin | ⟨hflag, hc, hb⟩
      · exact absurd hin hnot
      · refine ⟨hflag, ?_⟩
        have hlt := hw.2
        omega
    | waitHeader a q type =>
      cases hon
      exact (hp.header hw).resolve_right hnot
    | waitMap a q type =>
      cases hon
      rcases hp.map hw.1 with hin | ⟨hwant, hsub⟩
      · exact absurd hin hnot
      · exact ⟨hwant, fun b hb => hw.2 b (hb.trans hsub)⟩
    | waitMsg a q =>
      cases hon
      rcases hp.qnum q hw.1 with hin | ⟨hflag, hsub⟩
      · exact absurd hin hnot
      · refine ⟨hflag, ?_⟩
        have hmem : ∀ x ∈ (g'.onq q).map k'.msgType, x ∈ (g.onq q).map k.msgType := by
          intro x hx
          obtain ⟨h, hh, rfl⟩ := mem_map.mp hx
          rw [(hsub h hh).2]
          exact mem_map_of_mem (hsub h hh).1
        have hun := hw.2
        unfold Unmatched at hun ⊢
        split at hun
        · rename_i hzero
          rw [if_pos hzero]
          refine eq_nil_iff_forall_not_mem.mpr fun x hx => ?_
          have hx' := hmem x hx
          rw [hun] at hx'
          cases hx'
        · rename_i hzero
          rw [if_neg hzero]
          split at hun
          · rename_i hpos
            rw [if_pos hpos]
            exact fun x hx => hun x (hmem x hx)
          · rename_i hpos
            rw [if_neg hpos]
            exact fun x hx => hun x (hmem x hx)
    | _ => cases hon

theorem World.Asleep.after (hs : w.Asleep c g) (hc : Calm c w.k g o g') :
    (w.after p o).Asleep c g' := by
  intro p'
  by_cases hp : p' = p
  · rw [hp, after_self]
    exact hc.waiting
  · rw [after_of_ne hp]
    exact (hs p').progress hc.progress

theorem World.Sound.goto (hs : w.Sound c g st) (hlocks : (w.procs p).locks = none)
    (hholds : (w.procs p).holds = none) (hl : pc.locks = none) (hh : pc.holds = none)
    (hpc : PcOk c w.k g pc) : (w.goto p pc).Sound c g st := by
  have hself := goto_self w p pc
  have hother : ∀ {p'}, p' ≠ p → (w.goto p pc).procs p' = w.procs p' := fun hne => goto_of_ne hne
  have hsame : ∀ p', ((w.goto p pc).procs p').locks = (w.procs p').locks ∧
      ((w.goto p pc).procs p').holds = (w.procs p').holds := by
    intro p'
    by_cases hp : p' = p
    · rw [hp, hself, hlocks, hholds]
      exact ⟨hl, hh⟩
    · rw [hother hp]
      exact ⟨rfl, rfl⟩
  refine ⟨hs.core, fun p' => ?_, fun p₁ p₂ q h₁ h₂ => ?_, fun h p' => ?_, hs.quiet⟩
  · by_cases hp : p' = p
    · rw [hp, hself]
      exact hpc
    · rw [hother hp]
      exact hs.pcOk p'
  · rw [(hsame p₁).1] at h₁
    rw [(hsame p₂).1] at h₂
    exact hs.single p₁ p₂ q h₁ h₂
  · rw [(hsame p').2]
    exact hs.own h p'

theorem World.Asleep.goto (hs : w.Asleep c g) (hpc : Waiting c w.k g pc) :
    (w.goto p pc).Asleep c g := by
  intro p'
  by_cases hp : p' = p
  · rw [hp, goto_self]
    exact hpc
  · rw [goto_of_ne hp]
    exact hs p'

/-!
## Locking a queue
-/

theorem msgconv_found {id : Int} (h : msgconv c k id = .found q k') :
    k' = k.amend q (fun qp => { qp with msglock := true }) ∧ (k.msgque q).msglock = false ∧
      (k.msgque q).ipcAlloc = true := by
  unfold msgconv at h
  split at h
  · cases h
  · simp only at h
    split at h
    · cases h
    · rename_i hlock
      split at h
      · cases h
      · rename_i hok
        injection h with hq hk
        rw [not_or] at hok
        rw [← hq]
        refine ⟨hk.symm.trans (by rw [hq]), by simpa using hlock, by simpa using hok.1⟩

theorem Turn.ofAmend {f : Queue → Queue} (ht : Turn c (k.amend q f) g log p q o g' st') :
    Turn c k g log p q o g' st' := by
  refine ⟨ht.core, fun q' hq => ?_, ht.own, ht.mine, ht.pcOk, ht.locks, ht.alloc⟩
  obtain ⟨hque, honq, hsame⟩ := ht.others q' hq
  exact ⟨hque.trans (amend_of_ne hq f), honq, hsame⟩

theorem Calm.ofLock (hc : Calm c (k.amend q fun qp => { qp with msglock := true }) g o g') :
    Calm c k g o g' := by
  have hfirst : Progress k g (k.amend q fun qp => { qp with msglock := true }) g [] :=
    progress_flags (f := fun qp => { qp with msglock := true }) .inl .inl rfl (Nat.le_refl _)
  exact ⟨hfirst.trans hc.progress, hc.waiting⟩

def Keeps (c : Config) (w : World) (g : Ghost) (calm : Prop) (w' : World) : Prop :=
  ∃ g' st', w'.Sound c g' st' ∧ (w.Asleep c g → calm → w'.Asleep c g')

theorem keeps_after {calm : Prop} (hs : w.Sound c g st)
    (hfree : ∀ p', p' ≠ p → (w.procs p').locks ≠ some q)
    (ht : Turn c w.k g w.log p q o g' st') (hc : calm → Calm c w.k g o g') :
    Keeps c w g calm (w.after p o) :=
  ⟨g', st', hs.after hfree ht, fun hasleep hcalm => hasleep.after (hc hcalm)⟩

section

variable (hs : w.Sound c g st) (hlocks : (w.procs p).locks = none)
  (hholds : (w.procs p).holds = none)
include hs hlocks hholds

theorem keeps_goto {calm : Prop} (hl : pc.locks = none) (hh : pc.holds = none)
    (hpc : PcOk c w.k g pc) (hw : Waiting c w.k g pc) : Keeps c w g calm (w.goto p pc) :=
  ⟨g, st, hs.goto hlocks hholds hl hh hpc, fun hasleep _ => hasleep.goto hw⟩

theorem keeps_conv {calm : Prop} {id : Int} {f : Nat → Kernel → Option Outcome}
    (hf : ∀ q k, Core c k g st w.log → Locked k q → k.msgmap = w.k.msgmap →
      (∀ h, g.own h ≠ .held p) → ∃ o g' st', f q k = some o ∧
        Turn c k g w.log p q o g' st' ∧ (calm → Calm c k g o g'))
    (h : w.conv c p id f = some w') : Keeps c w g calm w' := by
  unfold World.conv at h
  cases hconv : msgconv c w.k id with
  | waits =>
    rw [hconv] at h
    cases h
  | invalid =>
    rw [hconv] at h
    cases h
    exact keeps_goto hs hlocks hholds rfl rfl trivial trivial
  | found q k =>
    rw [hconv] at h
    obtain ⟨hk, hlock, halloc⟩ := msgconv_found hconv
    have hmine : ∀ h, g.own h ≠ .held p := by
      intro h hh
      have hsome := (hs.own h p).mp hh
      rw [hholds] at hsome
      cases hsome
    have hlocked : Locked k q := by
      unfold Locked
      rw [hk, amend_self]
      exact ⟨rfl, halloc⟩
    obtain ⟨o, g', st', hrun, hturn, hcalm⟩ := hf q k
      (by rw [hk]; exact hs.core.amend rfl rfl rfl rfl rfl) hlocked (by rw [hk]; rfl) hmine
    have h : (f q k).map (w.after p) = some w' := h
    rw [hrun] at h
    cases h
    rw [hk] at hturn hcalm
    refine keeps_after hs (fun p' _ hp' => ?_) hturn.ofAmend fun hc => (hcalm hc).ofLock
    have hheld := ((hs.pcOk p').locked hp').1
    rw [hlock] at hheld
    cases hheld

end

end Facts

/-!
## Steps
-/

/-- No receiver asks for the lowest type up to one that a long does not hold. -/
def Event.Plain : Event → Prop
  | .msgrcv _ a => a.msgtyp ≠ -2 ^ 31
  | _ => True

/-- The step leaves nobody asleep: the want counter of the map does not overflow, and a new
limit of a queue admits no sender that waits. -/
def World.Fair (w : World) : Event → Prop
  | .resume _ _ => w.k.msgmap.mapwant + 1 < 2 ^ 32
  | .copied p (.limit (some qbytes)) => ∀ q, w.procs p = .ctlCopy q .set →
      ∀ p' a type, w.procs p' = .waitQueue a q type →
        qbytes < a.msgsz.toNat + (w.k.msgque q).msgCbytes
  | _ => True

variable {q : Nat}

section Steps

variable {c : Config} {w w' : World} {g : Ghost} {st : Store} {p : Nat} {calm : Prop}

theorem keeps_same {q₀ : Nat} {k : Kernel} {f : Kernel → Option Outcome}
    (hcore : Core c k g st w.log) (hlock : Locked k q) (hmine : ∀ h, g.own h ≠ .held p)
    (hf : q = q₀ → ∃ o g' st', f k = some o ∧ Turn c k g w.log p q o g' st' ∧
      (calm → Calm c k g o g')) :
    ∃ o g' st', World.same q₀ f q k = some o ∧ Turn c k g w.log p q o g' st' ∧
      (calm → Calm c k g o g') := by
  unfold World.same
  split
  · obtain ⟨hturn, hcalm⟩ := turn_ends hcore hlock hmine
    exact ⟨_, g, st, rfl, hturn, fun _ => hcalm⟩
  · rename_i hq
    exact hf (Classical.not_not.mp hq)

theorem keeps_resume (hc : c.Valid) {access : Bool} (hs : w.Sound c g st)
    (h : w.resume c p access = some w') : Keeps c w g (w.k.msgmap.mapwant + 1 < 2 ^ 32) w' := by
  have hpc := hs.pcOk p
  have hexp : Explains (w.log ++ []) st := by
    rw [append_nil]
    exact hs.core.explains
  -- the locked queue is only looked at
  have hlook : ∀ {q k} (pc), Core c k g st w.log → Locked k q → (∀ h, g.own h ≠ .held p) →
      pc.holds = none → pc.locks = some q → PcOk c k g pc → Waiting c k g pc →
      Turn c k g w.log p q ⟨k, [], pc, []⟩ g st ∧ Calm c k g ⟨k, [], pc, []⟩ g := by
    intro q k pc hcore hlock hmine hholds hlocks hpc hwait
    refine ⟨⟨{ hcore with explains := hexp }, fun _ _ => ⟨rfl, rfl, fun _ _ => ⟨rfl, rfl⟩⟩,
      fun _ _ _ => ⟨Iff.rfl, fun _ => rfl⟩, fun h => iff_of_false (hmine h) ?_, hpc,
      .inr hlocks, .inl hlock.2⟩, Progress.refl _ _, hwait⟩
    rw [hholds]
    nofun
  unfold World.resume at h
  cases hp : w.procs p with
  | sndConv a =>
    rw [hp] at h
    refine keeps_conv hs (by rw [hp]; rfl) (by rw [hp]; rfl) ?_ h
    intro q k hcore hlock _ hmine
    split
    · obtain ⟨hturn, hcalm⟩ := turn_ends hcore hlock hmine
      exact ⟨_, g, st, rfl, hturn, fun _ => hcalm⟩
    · rename_i hok
      obtain ⟨hturn, hcalm⟩ := hlook (.sndType a q) hcore hlock hmine rfl rfl
        ⟨⟨by omega, by omega⟩, hlock⟩ trivial
      exact ⟨_, g, st, rfl, hturn, fun _ => hcalm⟩
  | getres a q₀ type =>
    rw [hp] at h hpc
    refine keeps_conv hs (by rw [hp]; rfl) (by rw [hp]; rfl) ?_ h
    intro q k hcore hlock hmap hmine
    refine keeps_same hcore hlock hmine fun hq => ?_
    obtain ⟨o, g', st', hrun, hturn, hcalm⟩ := turn_getres hc hcore hlock hmine hpc
    rw [hmap] at hcalm
    rw [← hq]
    exact ⟨o, g', st', hrun, hturn, hcalm⟩
  | sndIntr a q₀ space =>
    rw [hp] at h
    refine keeps_conv hs (by rw [hp]; rfl) (by rw [hp]; rfl) ?_ h
    intro q k hcore hlock _ hmine
    refine keeps_same hcore hlock hmine fun hq => ?_
    rw [← hq]
    cases space with
    | false =>
      obtain ⟨hturn, hcalm⟩ := turn_ends hcore hlock hmine
      exact ⟨_, g, st, rfl, hturn, fun _ => hcalm⟩
    | true =>
      simp only [Kernel.unlock, amend_amend]
      exact ⟨_, g, st, rfl, turn_flags
        (f := fun qp => { qp with msgWwait := false, msglock := false }) hcore hlock hmine
        ⟨rfl, rfl, rfl, rfl, rfl⟩ hexp rfl (.inl rfl) trivial, fun _ => ⟨progress_flags
        (f := fun qp => { qp with msgWwait := false, msglock := false })
        (fun _ => .inr (mem_singleton_self _)) .inl rfl (Nat.le_refl _), trivial⟩⟩
  | rcvConv a =>
    rw [hp] at h hpc
    refine keeps_conv hs (by rw [hp]; rfl) (by rw [hp]; rfl) ?_ h
    intro q k hcore hlock _ hmine
    split
    · obtain ⟨hturn, hcalm⟩ := turn_ends hcore hlock hmine
      exact ⟨_, g, st, rfl, hturn, fun _ => hcalm⟩
    · exact ⟨_, g, st, rfl, turn_flags (f := fun qp => { qp with msglock := false }) hcore hlock
        hmine ⟨rfl, rfl, rfl, rfl, rfl⟩ hexp rfl (.inl rfl) hpc, fun _ => ⟨progress_flags
        (f := fun qp => { qp with msglock := false }) .inl .inl rfl (Nat.le_refl _), trivial⟩⟩
  | findmsg a q₀ =>
    rw [hp] at h hpc
    refine keeps_conv hs (by rw [hp]; rfl) (by rw [hp]; rfl) ?_ h
    intro q k hcore hlock _ hmine
    refine keeps_same hcore hlock hmine fun hq => ?_
    obtain ⟨o, hrun, hturn, hcalm⟩ := turn_findmsg hcore hlock hmine hpc
    rw [← hq]
    exact ⟨o, g, st, hrun, hturn, fun _ => hcalm⟩
  | ctlConv id cmd =>
    rw [hp] at h
    refine keeps_conv hs (by rw [hp]; rfl) (by rw [hp]; rfl) ?_ h
    intro q k hcore hlock _ hmine
    split
    · obtain ⟨hturn, hcalm⟩ := turn_ends hcore hlock hmine
      exact ⟨_, g, st, rfl, hturn, fun _ => hcalm⟩
    · split
      · obtain ⟨o, g', st', hrun, hturn, hcalm⟩ := turn_remove hc hcore id hmine
        exact ⟨o, g', st', hrun, hturn, fun _ => hcalm⟩
      · obtain ⟨hturn, hcalm⟩ := hlook (.ctlCopy q cmd) hcore hlock hmine rfl rfl hlock trivial
        exact ⟨_, g, st, rfl, hturn, fun _ => hcalm⟩
  | _ =>
    rw [hp] at h
    cases h

theorem World.Sound.alone (hs : w.Sound c g st) (hp : (w.procs p).locks = some q) :
    ∀ p', p' ≠ p → (w.procs p').locks ≠ some q :=
  fun p' hne hp' => hne (hs.single p' p q hp' hp)

theorem keeps_ends (hs : w.Sound c g st) (hp : (w.procs p).locks = some q)
    (hholds : (w.procs p).holds = none) : Keeps c w g calm (w.after p (.ends w.k q)) := by
  have hmine : ∀ h, g.own h ≠ .held p := by
    intro h hh
    have hsome := (hs.own h p).mp hh
    rw [hholds] at hsome
    cases hsome
  obtain ⟨hturn, hcalm⟩ := turn_ends hs.core ((hs.pcOk p).locked hp) hmine
  exact keeps_after hs (hs.alone hp) hturn fun _ => hcalm

theorem keeps_limit {qbytes : Nat} (hs : w.Sound c g st) (hp : w.procs p = .ctlCopy q .set)
    (hcalm : calm → ∀ p' a type, w.procs p' = .waitQueue a q type →
      qbytes < a.msgsz.toNat + (w.k.msgque q).msgCbytes) : Keeps c w g calm
      (w.after p (.ends (w.k.amend q fun qp => { qp with msgQbytes := qbytes }) q)) := by
  have hlocks : (w.procs p).locks = some q := by
    rw [hp]
    rfl
  have hlock := (hs.pcOk p).locked hlocks
  have hmine : ∀ h, g.own h ≠ .held p := by
    intro h hh
    have hsome := (hs.own h p).mp hh
    rw [hp] at hsome
    cases hsome
  have hexp : Explains (w.log ++ []) st := by
    rw [append_nil]
    exact hs.core.explains
  obtain ⟨f, hf⟩ : ∃ f : Queue → Queue, f =
    fun qp => { qp with msgQbytes := qbytes, msglock := false } := ⟨_, rfl⟩
  have hout : Outcome.ends (w.k.amend q fun qp => { qp with msgQbytes := qbytes }) q =
      ⟨w.k.amend q f, [], .idle, []⟩ := by
    unfold Outcome.ends Kernel.unlock
    rw [amend_amend, hf]
  have hturn : Turn c w.k g w.log p q ⟨w.k.amend q f, [], .idle, []⟩ g st := by
    refine turn_flags hs.core hlock hmine ?_ hexp rfl (.inl rfl) trivial
    rw [hf]
    exact ⟨rfl, rfl, rfl, rfl, rfl⟩
  rw [hout]
  refine ⟨g, st, hs.after (hs.alone hlocks) hturn, fun hasleep hok p' => ?_⟩
  by_cases hne : p' = p
  · rw [hne, after_self]
    trivial
  · rw [after_of_ne hne]
    change Waiting c (w.k.amend q f) g (w.procs p')
    have hwait := hasleep p'
    have hsame : ∀ q', ((w.k.amend q f).msgque q').msgWwait = (w.k.msgque q').msgWwait ∧
        ((w.k.amend q f).msgque q').msgRwait = (w.k.msgque q').msgRwait ∧
        ((w.k.amend q f).msgque q').msgCbytes = (w.k.msgque q').msgCbytes ∧
        (q' ≠ q → (w.k.amend q f).msgque q' = w.k.msgque q') := by
      intro q'
      by_cases hq : q' = q
      · rw [hq, amend_self, hf]
        exact ⟨rfl, rfl, rfl, fun h => absurd rfl h⟩
      · rw [amend_of_ne hq]
        exact ⟨rfl, rfl, rfl, fun _ => rfl⟩
    cases hp' : w.procs p' with
    | waitQueue a q' type =>
      rw [hp'] at hwait
      obtain ⟨hw, _, hc, hother⟩ := hsame q'
      refine ⟨hw.trans hwait.1, ?_⟩
      by_cases hq : q' = q
      · subst hq
        rw [amend_self, hf]
        exact hcalm hok p' a type hp'
      · rw [hother hq]
        exact hwait.2
    | waitHeader a q' type =>
      rw [hp'] at hwait
      exact hwait
    | waitMap a q' type =>
      rw [hp'] at hwait
      exact hwait
    | waitMsg a q' =>
      rw [hp'] at hwait
      exact ⟨(hsame q').2.1.trans hwait.1, hwait.2⟩
    | _ => trivial

end Steps

section Step

variable {c : Config} {w w' : World} {g : Ghost} {st : Store} {p : Nat} {calm : Prop}

theorem keeps_copied (hc : c.Valid) {r : Copied} (hs : w.Sound c g st)
    (h : w.copied c p r = some w') : Keeps c w g (w.Fair (.copied p r)) w' := by
  have hpc := hs.pcOk p
  have hexp : Explains (w.log ++ []) st := by
    rw [append_nil]
    exact hs.core.explains
  have hnone : (w.procs p).holds = none → ∀ h, g.own h ≠ .held p := by
    intro hholds h hh
    have hsome := (hs.own h p).mp hh
    rw [hholds] at hsome
    cases hsome
  unfold World.copied at h
  cases hp : w.procs p with
  | sndType a q =>
    rw [hp] at h hpc
    have hlocks : (w.procs p).locks = some q := by
      rw [hp]
      rfl
    have hholds : (w.procs p).holds = none := by
      rw [hp]
      rfl
    cases r with
    | fault text =>
      cases h
      exact keeps_ends hs hlocks hholds
    | type type =>
      simp only at h
      split at h
      · cases h
      · split at h
        · cases h
          exact keeps_ends hs hlocks hholds
        · cases h
          have hturn : Turn c w.k g w.log p q ⟨w.k.unlock q, [], .getres a q type, []⟩ g st :=
            turn_flags (f := fun qp => { qp with msglock := false }) hs.core hpc.2
              (hnone hholds) ⟨rfl, rfl, rfl, rfl, rfl⟩ hexp rfl (.inl rfl) hpc.1
          exact keeps_after hs (hs.alone hlocks) hturn fun _ => ⟨progress_flags
            (f := fun qp => { qp with msglock := false }) .inl .inl rfl (Nat.le_refl _),
            trivial⟩
    | _ => cases h
  | sndText a q type mp spot =>
    rw [hp] at h hpc
    have hlocks : (w.procs p).locks = some q := by
      rw [hp]
      rfl
    have hown : ∀ h, g.own h = .held p ↔ h = mp := by
      intro h
      rw [hs.own, hp]
      exact ⟨fun heq => (some.inj heq).symm, fun heq => by rw [heq]; rfl⟩
    cases r with
    | fault text =>
      simp only at h
      split at h
      · rename_i hlen
        obtain ⟨o, g', st', hrun, hturn, hcalm⟩ := turn_sendText (b := true)
          hc hs.core hpc hown hlen
        rw [hrun] at h
        cases h
        exact keeps_after hs (hs.alone hlocks) hturn fun _ => hcalm
      · cases h
    | text text =>
      simp only at h
      split at h
      · rename_i hlen
        obtain ⟨o, g', st', hrun, hturn, hcalm⟩ := turn_sendText (b := false)
          hc hs.core hpc hown hlen
        rw [hrun] at h
        cases h
        exact keeps_after hs (hs.alone hlocks) hturn fun _ => hcalm
      · cases h
    | _ => cases h
  | copyout a q smp spmp sz =>
    rw [hp] at h hpc
    have hlocks : (w.procs p).locks = some q := by
      rw [hp]
      rfl
    have hholds : (w.procs p).holds = none := by
      rw [hp]
      rfl
    cases r with
    | fault text =>
      cases h
      exact keeps_ends hs hlocks hholds
    | out =>
      obtain ⟨o, g', st', hrun, hturn, hcalm⟩ := turn_received hc hs.core hpc (hnone hholds)
      simp only at h
      rw [hrun] at h
      cases h
      exact keeps_after hs (hs.alone hlocks) hturn fun _ => hcalm
    | _ => cases h
  | ctlCopy q cmd =>
    rw [hp] at h
    have hlocks : (w.procs p).locks = some q := by
      rw [hp]
      rfl
    have hholds : (w.procs p).holds = none := by
      rw [hp]
      rfl
    cases cmd with
    | rmid => cases r <;> cases h
    | set =>
      cases r with
      | limit qbytes =>
        cases qbytes with
        | none =>
          cases h
          exact keeps_ends hs hlocks hholds
        | some qbytes =>
          cases h
          exact keeps_limit hs hp fun hfair => hfair q hp
      | _ => cases h
    | stat =>
      cases r with
      | out =>
        cases h
        exact keeps_ends hs hlocks hholds
      | _ => cases h
  | _ =>
    rw [hp] at h
    cases r <;> cases h

theorem keeps_signal {woken : Option Bool} (hs : w.Sound c g st)
    (h : w.signal p woken = some w') : Keeps c w g calm w' := by
  unfold World.signal at h
  cases hp : w.procs p with
  | idle | sndType | sndText | copyout | ctlCopy =>
    rw [hp] at h
    cases woken <;> cases h
  | _ =>
    rw [hp] at h
    cases woken with
    | none =>
      cases h
      exact keeps_goto hs (by rw [hp]; rfl) (by rw [hp]; rfl) rfl rfl trivial trivial
    | some space =>
      cases h
      exact keeps_goto hs (by rw [hp]; rfl) (by rw [hp]; rfl) rfl rfl trivial trivial

theorem keeps_call {x : Pc} (hs : w.Sound c g st) (hl : x.locks = none) (hh : x.holds = none)
    (hpc : PcOk c w.k g x) (hw : Waiting c w.k g x) (h : w.call p x = some w') :
    Keeps c w g calm w' := by
  unfold World.call at h
  cases hp : w.procs p with
  | idle =>
    rw [hp] at h
    cases h
    exact keeps_goto hs (by rw [hp]; rfl) (by rw [hp]; rfl) hl hh hpc hw
  | _ =>
    rw [hp] at h
    cases h

theorem keeps_msgget (hs : w.Sound c g st) (h : w.exec c (.msgget q) = some w') :
    Keeps c w g calm w' := by
  unfold World.exec at h
  simp only at h
  split at h
  · rename_i hq
    cases h
    have hunused := hs.core.unused q hq.2
    obtain ⟨f, hf⟩ : ∃ f : Queue → Queue, f = fun qp =>
      { qp with
        ipcAlloc := true
        msgRwait := false
        msgWwait := false
        msgFirst := none
        msgLast := none
        msgQnum := 0
        msgQbytes := ushort c.msgmnb } := ⟨_, rfl⟩
    rw [← hf]
    have hself : ∀ qp, (f qp).msgFirst = none ∧ (f qp).msgLast = none ∧ (f qp).msgQnum = 0 ∧
        (f qp).msgCbytes = qp.msgCbytes ∧ (f qp).ipcAlloc = true := by
      intro qp
      rw [hf]
      exact ⟨rfl, rfl, rfl, rfl, rfl⟩
    have hcore : Core c (w.k.amend q f) g st w.log := by
      refine ⟨?_, fun q' => ?_, hs.core.texts, hs.core.explains, fun q' ha => ?_⟩
      · refine hs.core.laid.amend ?_ ?_ ?_
        · have hchain := hs.core.laid.queue q
          rw [hunused] at hchain
          exact (hself _).1.trans (Eq.symm hchain)
        · rw [(hself _).2.1, hs.core.laid.last q, hunused]
          rfl
        · rw [(hself _).2.2.1, hs.core.laid.qnum q, hunused]
          rfl
      · by_cases hq' : q' = q
        · rw [hq', amend_self, (hself _).2.2.2.1]
          exact hs.core.cbytes q
        · rw [amend_of_ne hq']
          exact hs.core.cbytes q'
      · by_cases hq' : q' = q
        · rw [hq', amend_self, (hself _).2.2.2.2] at ha
          cases ha
        · rw [amend_of_ne hq'] at ha
          exact hs.core.unused q' ha
    have hnot : ∀ p, (w.procs p).locks ≠ some q := by
      intro p hp
      have hlock := ((hs.pcOk p).locked hp).2
      rw [hq.2] at hlock
      cases hlock
    refine ⟨g, st, ⟨hcore, fun p => ?_, hs.single, hs.own, fun q' ha => ?_⟩, fun hasleep _ p => ?_⟩
    · exact (hs.pcOk p).others (hnot p) (fun q' hq' => ⟨amend_of_ne hq' f, rfl,
        fun _ _ => ⟨rfl, rfl⟩⟩) fun _ _ => rfl
    · by_cases hq' : q' = q
      · rw [hq', amend_self, (hself _).2.2.2.2] at ha
        cases ha
      · rw [amend_of_ne hq'] at ha ⊢
        exact hs.quiet q' ha
    · -- nobody sleeps for a queue that was not in use
      have hquiet := hs.quiet q hq.2
      have hprogress : Progress w.k g (w.k.amend q f) g [] := by
        refine progress_amend (fun hk => ?_) (fun hk => ?_)
        · rw [hquiet.2] at hk
          cases hk
        · rw [hquiet.1] at hk
          cases hk
      exact (hasleep p).progress hprogress
  · cases h

theorem keeps_step (hc : c.Valid) {e : Event} (hs : w.Sound c g st) (hplain : e.Plain)
    (h : World.Step c w e w') : Keeps c w g (w.Fair e) w' := by
  cases e with
  | msgget q => exact keeps_msgget hs h
  | msgsnd p a => exact keeps_call (x := .sndConv a) hs rfl rfl trivial trivial h
  | msgrcv p a =>
    change (if long a.msgtyp = a.msgtyp then w.call p (.rcvConv a) else none) = some w' at h
    split at h
    · rename_i hlong
      refine keeps_call (x := .rcvConv a) hs rfl rfl ?_ trivial h
      have hne : a.msgtyp ≠ -2 ^ 31 := hplain
      change long (-a.msgtyp) = -a.msgtyp
      unfold long at hlong ⊢
      have hlow := Int.le_bmod (x := a.msgtyp) (m := 2 ^ 32) (by decide)
      have hhigh := Int.bmod_lt (x := a.msgtyp) (m := 2 ^ 32) (by decide)
      exact Int.bmod_eq_of_le (by omega) (by omega)
    · cases h
  | msgctl p id cmd => exact keeps_call (x := .ctlConv id cmd) hs rfl rfl trivial trivial h
  | resume p access => exact keeps_resume hc hs h
  | copied p r => exact keeps_copied hc hs h
  | signal p woken => exact keeps_signal hs h

end Step

end Msgq
end Svr4
