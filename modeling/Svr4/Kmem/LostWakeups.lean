import Svr4.Kmem.Wakeups

/-!
# Lost wake-ups

A wake-up is lost when a step frees a buffer or pages that meet the request of
a process that stays asleep.  The routines compare the least recorded request
with the size given to `kmem_free`, with the size of a buffer that was
coalesced, or with the pages of a pool; this module says when these comparisons
are enough.
-/

namespace Svr4
namespace Kmem

open List Option

/-!
## What is freed
-/

/-- The steps of `kmem_free` and `kmem_freepool`. -/
def Event.Freeing : Event → Prop
  | .free _ _ => True
  | .freepool => True
  | _ => False

/-- The pool that `kmem_freepool` frees next. -/
def Kma.idlePool (k : Kma) : Option Nat :=
  k.mem.idle2p.getLast?.bind fun p =>
    if (k.mem.pools p).inuse > 0 then none else some p

/-- The buffer `kmem_free` is called for. -/
def Kma.givenBack (k : Kma) : Event → Option (Nat × Nat)
  | .free addr size =>
    if k.isLive addr size then some (addr, size) else none
  | .freepool =>
    k.idlePool.bind fun p =>
      match (k.mem.pools p).range with
      | .big => some (p, headerSize)
      | .small => none
  | _ => none

def outsizePages (addr size : Nat) : Nat :=
  if addr ≠ 0 ∧ MAXABIG < size then btoc size else 0

def Kma.freedPages (k : Kma) : Event → Nat
  | .free addr size =>
    if k.isLive addr size then outsizePages addr size else 0
  | .freepool =>
    match k.idlePool with
    | some p => (k.mem.pools p).range.clicks
    | none => 0
  | _ => 0

def Kma.osizeCompared (k : Kma) : Event → Option Nat
  | .free addr size =>
    if k.isLive addr size ∧ addr ≠ 0 ∧ MAXABIG < size then some size
    else none
  | .freepool => k.idlePool.map fun p => (k.mem.pools p).range.clicks
  | _ => none

def Kma.placements (t : Tune) (k : Kma) (e : Event) : List Placement :=
  match k.step t e with
  | some k' => k'.placed
  | none => []

/-!
## No wake-up is lost
-/

def Kma.released (k k' : Kma) : Nat := (k'.availrmem - k.availrmem).toNat

/-- No process stays asleep for what is there now. -/
structure Kma.NoLost (t : Tune) (k k' : Kma) : Prop where
  buffer : ∀ p f r, k'.phase p = .asleep f (.wanted r) →
    ∀ i a, r.Lists i → k'.mem.On i a → ¬ k.mem.On i a → listSize i < f.size
  pool : ∀ p f r, k'.phase p = .asleep f (.wanted r) →
    r.clicks ≤ k.released k' → k'.memLow t r.clicks
  pages : ∀ p f, k'.phase p = .asleep f .osizeWanted →
    f.size ≤ k.released k' * NBPC → k'.memLow t (btoc f.size)

/-!
## When none is lost
-/

/--
One of the comparisons succeeds: the size given to `kmem_free`, or the
size of a buffer that was coalesced, reaches the record.
-/
def Kma.WakesWanted (t : Tune) (k : Kma) (e : Event) (r : Range) : Prop :=
  (∃ addr size, k.givenBack e = some (addr, size) ∧ addr ≠ 0 ∧ size ≠ 0 ∧
    size ≤ MAXABIG ∧ rangeOf size = r ∧ k.wanted r ≤ size) ∨
  ∃ pl ∈ k.placements t e, pl.tested = true ∧ r.Lists pl.list ∧ k.wanted r ≤ listSize pl.list

def Kma.WakesOsize (k : Kma) (e : Event) : Prop :=
  k.osizeWanted < 2147483648 ∧ ∃ size, k.osizeCompared e = some size ∧ k.osizeWanted ≤ size

/-- Every sleeping process is woken by a comparison, or wants more than what the step gives back. -/
structure Kma.Heeds (t : Tune) (k : Kma) (e : Event) : Prop where
  wanted : ∀ p f r, k.phase p = .asleep f (.wanted r) → k.WakesWanted t e r ∨
      ((∀ pl ∈ k.placements t e, pl.tested = false → r.Lists pl.list →
          ¬ k.mem.On pl.list pl.addr → listSize pl.list < f.size) ∧
        (r.clicks ≤ k.freedPages e → (k.addAvail (k.freedPages e)).memLow t r.clicks))
  osize : ∀ p f, k.phase p = .asleep f .osizeWanted → k.WakesOsize e ∨
      (f.size ≤ k.freedPages e * NBPC → (k.addAvail (k.freedPages e)).memLow t (btoc f.size))

def Kma.Heedful (t : Tune) (k : Kma) (e : Event) : Prop :=
  e.Freeing → k.Heeds t e

/-!
## The effect of a step
-/

variable {k k' : Kma} {addr size p j a : Nat} {m m' : Mem} {t : Tune} {e : Event}

namespace Kma

/-- The state `kmem_free` or `kmem_freepool` starts in. -/
def start (k : Kma) : Event → Kma
  | .free addr size =>
    { k with placed := [], live := k.live.erase (addr, size) }
  | _ => { k with placed := [] }

section

variable (h : k.kmemFree addr size = some k')
include h

theorem kmemFree_outsize (haddr : addr ≠ 0)
    (hsize : MAXABIG < size) : k' = k.freeOsize addr size := by
  unfold kmemFree at h
  rw [if_neg (not_or.mpr ⟨haddr, by omega⟩), if_pos hsize] at h
  exact (some.inj h).symm

theorem kmemFree_nothing (hno : addr = 0 ∨ size = 0) :
    k' = k := by
  unfold kmemFree at h
  rw [if_pos hno] at h
  exact (some.inj h).symm

theorem kmemFree_frees_pages :
    Frees (outsizePages addr size) k k' := by
  unfold outsizePages
  by_cases hno : addr = 0 ∨ size = 0
  · rw [if_neg, kmemFree_nothing h hno]
    · exact Frees.of_setMem fun _ _ ha => ha
    · omega
  · rw [not_or] at hno
    by_cases hsize : MAXABIG < size
    · rw [if_pos ⟨hno.1, hsize⟩, kmemFree_outsize h hno.1 hsize]
      exact (Frees.of_pages k addr (btoc size)).trans (Frees.wakeOsize _ size)
    · rw [if_neg]
      · exact (kmemFree_frees h hno.1 hno.2 (not_lt.mp hsize)).1
      · exact fun hout => hsize hout.2

end

theorem idlePool_eq_some (h : k.idlePool = some p) :
    k.mem.idle2p.getLast? = some p ∧ (k.mem.pools p).inuse = 0 := by
  unfold idlePool at h
  rw [bind_eq_some_iff] at h
  rcases h with ⟨q, hq, h⟩
  split at h
  · cases h
  · cases h
    exact ⟨hq, by omega⟩

theorem on_of_delHash {i : Nat} (h : m.delHash i p = some m') (ha : m'.On j a) : m.On j a := by
  unfold Mem.delHash at h
  split at h
  · cases h
    exact ha
  · cases h

theorem on_of_dropPool (h : m.dropPool p = some m') (ha : m'.On j a) : m.On j a := by
  unfold Mem.dropPool at h
  rw [bind_eq_some_iff] at h
  rcases h with ⟨m₁, hdel, h⟩
  have hm₁ : m₁.On j a := by
    split at h
    · exact on_of_delHash h ha
    · cases h
      exact ha
  apply Mem.On.of_setList _ (on_of_delHash hdel hm₁)
  intro b hb
  exact mem_of_mem_filter hb

theorem popIdle_pools (m : Mem) : m.popIdle.pools = m.pools := rfl

theorem freepool_of_idlePool (h : k.freepool = some k') (hp : k.idlePool = some p) :
    ∃ m k₁, k.mem.idle2p.getLast? = some p ∧ k.mem.popIdle.dropPool p = some m ∧
      (match (k.mem.pools p).range with
        | .big => ((({ k with mem := m }.setPages (k.mem.pools p).startp
            (k.mem.pools p).range.clicks false).addAvail
              (k.mem.pools p).range.clicks).kmemFree p headerSize) = some k₁
        | .small => ({ k with mem := m }.setPages (k.mem.pools p).startp
            (k.mem.pools p).range.clicks false).addAvail (k.mem.pools p).range.clicks = k₁) ∧
      k' = k₁.wakeOsize (k.mem.pools p).range.clicks := by
  rcases idlePool_eq_some hp with ⟨hlast, hinuse⟩
  unfold freepool at h
  rw [hlast] at h
  dsimp only at h
  rw [popIdle_pools, if_neg (by omega), bind_eq_some_iff] at h
  rcases h with ⟨m, hdrop, h⟩
  rw [map_eq_some_iff] at h
  rcases h with ⟨k₁, hfree, rfl⟩
  refine ⟨m, k₁, hlast, hdrop, ?_, rfl⟩
  cases hrange : (k.mem.pools p).range with
  | big =>
    rw [hrange] at hfree
    exact hfree
  | small =>
    rw [hrange] at hfree
    exact some.inj hfree

theorem frees_of_dropPool (hdrop : k.mem.popIdle.dropPool p = some m) (addr clicks : Nat) :
    Frees clicks k (({ k with mem := m }.setPages addr clicks false).addAvail clicks) := by
  have hmem : Frees 0 k { k with mem := m } := by
    apply Frees.of_setMem
    intro i a ha
    have ha' : k.mem.popIdle.On i a := on_of_dropPool hdrop ha
    exact Mem.On.congr rfl ha'
  have hpages := hmem.trans (Frees.of_pages { k with mem := m } addr clicks)
  rw [Nat.zero_add] at hpages
  exact hpages

theorem freepool_frees (h : k.freepool = some k') : Frees (k.freedPages .freepool) k k' := by
  unfold freedPages
  cases hp : k.idlePool with
  | none =>
    unfold idlePool at hp
    unfold freepool at h
    cases hlast : k.mem.idle2p.getLast? with
    | none =>
      rw [hlast] at h
      cases h
      have hwake := (Frees.wakeAllocOn k .small).trans (Frees.wakeAllocOn _ .big)
      apply Frees.trans (n := 0) hwake
      exact Frees.of_setMem fun _ _ ha => ha
    | some p =>
      rw [hlast] at h hp
      dsimp only [bind_some] at h hp
      split at hp
      · rename_i hinuse
        rw [popIdle_pools, if_pos hinuse] at h
        cases h
        exact Frees.of_setMem fun _ _ ha => ha
      · cases hp
  | some p =>
    rcases freepool_of_idlePool h hp with ⟨m, k₁, _, hdrop, hk₁, rfl⟩
    have hpool := frees_of_dropPool hdrop (k.mem.pools p).startp (k.mem.pools p).range.clicks
    apply Frees.trans (n := 0) _ (Frees.wakeOsize k₁ _)
    cases hrange : (k.mem.pools p).range with
    | big =>
      rw [hrange] at hk₁ hpool
      apply Frees.trans (n := 0) hpool
      have hsmall : outsizePages p headerSize = 0 := by
        unfold outsizePages
        rw [if_neg]
        rintro ⟨_, hlt⟩
        exact absurd hlt (by decide)
      rw [← hsmall]
      exact kmemFree_frees_pages hk₁
    | small =>
      rw [hrange] at hk₁ hpool
      rw [← hk₁]
      exact hpool

theorem step_frees (he : e.Freeing)
    (h : k.step t e = some k') : Frees (k.freedPages e) (k.start e) k' := by
  cases e with
  | free addr size =>
    unfold freedPages
    unfold step at h
    dsimp only at h ⊢
    by_cases hlive : (addr, size) ∈ k.live
    · rw [if_pos hlive] at h ⊢
      exact kmemFree_frees_pages h
    · rw [if_neg hlive] at h ⊢
      cases h
      simp only [start, erase_of_not_mem hlive]
      exact Frees.of_setMem fun _ _ ha => ha
  | freepool => exact freepool_frees h
  | alloc p size nosleep => exact he.elim
  | sptalloc p base => exact he.elim
  | resume p => exact he.elim

theorem step_start_phase (k : Kma) (e : Event) : (k.start e).phase = k.phase := by
  cases e <;> rfl

theorem step_start_wanted (k : Kma) (e : Event) : (k.start e).wanted = k.wanted := by
  cases e <;> rfl

theorem step_above_givenBack (h : k.step t e = some k')
    (hback : k.givenBack e = some (addr, size)) (haddr : addr ≠ 0) (hsize : size ≠ 0)
    (hle : size ≤ MAXABIG) : k'.wanted (rangeOf size) = 0 ∨ size < k'.wanted (rangeOf size) := by
  cases e with
  | free a s =>
    unfold givenBack at hback
    dsimp only at hback
    split at hback
    · rename_i hlive
      cases hback
      unfold step at h
      dsimp only at h
      rw [if_pos hlive] at h
      exact (kmemFree_frees h haddr hsize hle).2
    · cases hback
  | freepool =>
    unfold givenBack at hback
    rw [bind_eq_some_iff] at hback
    rcases hback with ⟨p, hp, hback⟩
    rcases freepool_of_idlePool h hp with ⟨m, k₁, _, _, hk₁, rfl⟩
    cases hrange : (k.mem.pools p).range with
    | big =>
      rw [hrange] at hback
      cases hback
      rw [hrange] at hk₁
      have habove := (kmemFree_frees hk₁ haddr hsize hle).2
      rcases (Frees.wakeOsize k₁ Range.big.clicks).reset (rangeOf headerSize) with hzero | hsame
      · exact .inl hzero
      · rw [← hsame] at habove
        exact habove
    | small =>
      rw [hrange] at hback
      cases hback
  | alloc p size nosleep => cases hback
  | sptalloc p base => cases hback
  | resume p => cases hback

theorem step_above_osizeCompared (h : k.step t e = some k')
    (hcomp : k.osizeCompared e = some size) :
    k'.osizeWanted = 0 ∨ 2147483648 ≤ k'.osizeWanted ∨ size < k'.osizeWanted := by
  cases e with
  | free a s =>
    unfold osizeCompared at hcomp
    dsimp only at hcomp
    split at hcomp
    · rename_i hcond
      rcases hcond with ⟨hlive, haddr, hsize⟩
      cases hcomp
      unfold step at h
      dsimp only at h
      rw [if_pos hlive] at h
      rw [kmemFree_outsize h haddr hsize]
      exact wakeOsize_above _ _
    · cases hcomp
  | freepool =>
    unfold osizeCompared at hcomp
    rw [map_eq_some_iff] at hcomp
    rcases hcomp with ⟨p, hp, rfl⟩
    rcases freepool_of_idlePool h hp with ⟨m, k₁, _, _, _, rfl⟩
    exact wakeOsize_above _ _
  | alloc p size nosleep => cases hcomp
  | sptalloc p base => cases hcomp
  | resume p => cases hcomp

theorem step_placements (he : e.Freeing) (h : k.step t e = some k') :
    (∀ i a, k'.mem.On i a → k.mem.On i a ∨ ∃ pl ∈ k.placements t e, pl.list = i ∧ pl.addr = a) ∧
    ∀ pl ∈ k.placements t e, pl.tested = true → ∀ r : Range, r.Lists pl.list →
      k'.wanted r = 0 ∨ listSize pl.list < k'.wanted r := by
  have hplaced : k.placements t e = k'.placed := by
    unfold placements
    rw [h]
  rcases (step_frees he h).placed with ⟨l, hl, hon, htested⟩
  have hstart : (k.start e).placed = [] ∧ (k.start e).mem = k.mem := by
    cases e <;> exact ⟨rfl, rfl⟩
  rw [hstart.1, append_nil] at hl
  rw [hplaced, hl]
  refine ⟨?_, htested⟩
  intro i a ha
  rcases hon i a ha with ha | ha
  · rw [hstart.2] at ha
    exact .inl ha
  · exact .inr ha

theorem memLow_congr {clicks : Nat} (hrmem : k'.availrmem = k.availrmem)
    (hsmem : k'.availsmem = k.availsmem) (h : k.memLow t clicks) : k'.memLow t clicks := by
  unfold memLow at *
  rw [hrmem, hsmem]
  exact h

theorem step_pages (he : e.Freeing) (h : k.step t e = some k') :
    k'.availrmem = (k.addAvail (k.freedPages e)).availrmem ∧
      k'.availsmem = (k.addAvail (k.freedPages e)).availsmem ∧ k.released k' = k.freedPages e := by
  have hfrees := step_frees he h
  have hstart : (k.start e).availrmem = k.availrmem ∧ (k.start e).availsmem = k.availsmem := by
    cases e <;> exact ⟨rfl, rfl⟩
  have hrmem := hfrees.availrmem
  have hsmem := hfrees.availsmem
  rw [hstart.1] at hrmem
  rw [hstart.2] at hsmem
  refine ⟨hrmem, hsmem, ?_⟩
  unfold released
  omega

theorem not_asleep_of_wakesWanted (hk : k.Recorded) (he : e.Freeing) (h : k.step t e = some k')
    {r : Range} (hwakes : k.WakesWanted t e r) (p : Nat) (f : Frame) :
    k'.phase p ≠ .asleep f (.wanted r) := by
  intro hp
  have hfrees := step_frees he h
  rcases hfrees.asleep p f _ hp with ⟨hold, hsame, _⟩
  rw [step_start_phase] at hold
  have hsame := hsame r rfl
  rw [step_start_wanted] at hsame
  have hpos := (hk.wanted p f r hold).1
  rcases hwakes with ⟨addr, size, hback, haddr, hsize, hle, rfl, hrec⟩ | ⟨pl, hpl, htest, hr, hrec⟩
  · have habove := step_above_givenBack h hback haddr hsize hle
    omega
  · have habove := (step_placements he h).2 pl hpl htest r hr
    omega

theorem not_asleep_of_wakesOsize (hk : k.Recorded) (he : e.Freeing) (h : k.step t e = some k')
    (hwakes : k.WakesOsize e) (p : Nat) (f : Frame) : k'.phase p ≠ .asleep f .osizeWanted := by
  intro hp
  have hfrees := step_frees he h
  rcases hfrees.asleep p f _ hp with ⟨hold, _, hsame⟩
  rw [step_start_phase] at hold
  have hsame := hsame rfl
  have hstart : (k.start e).osizeWanted = k.osizeWanted := by
    cases e <;> rfl
  have hpos := (hk.osizeWanted p f hold).1
  rcases hwakes with ⟨hsign, size, hcomp, hle⟩
  have habove := step_above_osizeCompared h hcomp
  omega

theorem step_noLost (hk : k.Recorded) (he : e.Freeing) (hheeds : k.Heeds t e)
    (h : k.step t e = some k') : k.NoLost t k' := by
  have hfrees := step_frees he h
  rcases step_pages he h with ⟨hrmem, hsmem, hreleased⟩
  have hold : ∀ p f c, k'.phase p = .asleep f c → k.phase p = .asleep f c := by
    intro p f c hp
    have hold := (hfrees.asleep p f c hp).1
    rw [step_start_phase] at hold
    exact hold
  have hunwoken : ∀ p f r, k'.phase p = .asleep f (.wanted r) →
      ¬ k.WakesWanted t e r := fun p f r hp hwakes =>
    not_asleep_of_wakesWanted hk he h hwakes p f hp
  constructor
  · intro p f r hp i a hr hon hnew
    have hheeds := (hheeds.wanted p f r (hold p f _ hp)).resolve_left (hunwoken p f r hp)
    rcases (step_placements he h).1 i a hon with hon | ⟨pl, hpl, rfl, rfl⟩
    · exact absurd hon hnew
    · cases htest : pl.tested with
      | false => exact hheeds.1 pl hpl htest hr hnew
      | true =>
        have hrec := hk.wanted p f r (hold p f _ hp)
        have habove : ¬ k.wanted r ≤ listSize pl.list := by
          intro hle
          exact hunwoken p f r hp (.inr ⟨pl, hpl, htest, hr, hle⟩)
        omega
  · intro p f r hp hclicks
    have hheeds := (hheeds.wanted p f r (hold p f _ hp)).resolve_left (hunwoken p f r hp)
    rw [hreleased] at hclicks
    exact memLow_congr hrmem hsmem (hheeds.2 hclicks)
  · intro p f hp hsize
    have hheeds := (hheeds.osize p f (hold p f _ hp)).resolve_left
      fun hwakes => not_asleep_of_wakesOsize hk he h hwakes p f hp
    rw [hreleased] at hsize
    exact memLow_congr hrmem hsmem (hheeds hsize)

/-!
## Runs
-/

theorem Recorded.step (hk : k.Recorded) (h : k.step t e = some k') : k'.Recorded := by
  have hclear : { k with placed := [] }.Recorded := hk.congr rfl rfl rfl
  cases e with
  | alloc p size nosleep =>
    unfold Kma.step at h
    dsimp only at h
    split at h
    · cases h
      exact hclear.kmemAlloc t p size.toNat nosleep
    · cases h
      exact hclear
  | sptalloc p base =>
    unfold Kma.step at h
    dsimp only at h
    split at h
    · rename_i f pool hphase
      have hf : f.Asks := hk.asks p f (by rw [hphase]; rfl)
      split at h
      · cases h
        exact hclear.sptFail p pool hf
      · split at h
        · cases h
          exact hclear.sptDone t p _ pool hf
        · cases h
          exact hclear
    · cases h
      exact hclear
  | resume p =>
    unfold Kma.step at h
    dsimp only at h
    split at h
    · rename_i f chan hphase
      cases h
      exact hclear.resume t p chan (hk.asks p f (by rw [hphase]; rfl))
    · cases h
      exact hclear
  | free addr size =>
    exact (step_frees (e := .free addr size) trivial h).recorded (hk.congr rfl rfl rfl)
  | freepool =>
    exact (step_frees (e := .freepool) trivial h).recorded hclear

theorem init_recorded (availrmem availsmem : Int) : (init availrmem availsmem).Recorded := by
  constructor
  · intro p f r h
    cases h
  · intro p f h
    cases h
  · intro p f h
    cases h

theorem Reachable.recorded (hk : Reachable t k) :
    k.Recorded := by
  have hinit : ∀ k, Init k → k.Recorded := by
    rintro k ⟨availrmem, availsmem, rfl⟩
    exact init_recorded availrmem availsmem
  have hstep : ∀ (k : Kma) (e : Event) (k' : Kma), k.Recorded →
      Step t k e k' → k'.Recorded := fun _ _ _ hk h => hk.step h
  exact Transition.Reachable.invariant hinit hstep hk

theorem run_reachableWhen {events : List Event}
    (hk : Transition.ReachableWhen Init (Step t) (Heedful t) k) (hno : ∀ e ∈ events, ¬ e.Freeing)
    (h : run t events k = some k') : Transition.ReachableWhen Init (Step t) (Heedful t) k' := by
  induction events generalizing k with
  | nil =>
    cases h
    exact hk
  | cons e rest ih =>
    unfold run at h
    rw [bind_eq_some_iff] at h
    rcases h with ⟨k₁, hstep, h⟩
    have hok : k.Heedful t e := fun he =>
      absurd he (hno e mem_cons_self)
    apply ih (hk.next hok hstep) _ h
    intro e' he'
    exact hno e' (mem_cons_of_mem e he')

/-!
### A buffer freed with less than its size

There is memory for one pool of each kind.  A process has all buffers of the big
pool, one of them for 3000 bytes, and another asks for 4000 bytes and sleeps.
-/

def tune25 : Tune := { minarmem := 25, minasmem := 25 }

def bigPoolTaken : List Event :=
  [.alloc 1 3000 false, .sptalloc 1 (some 16384), .sptalloc 1 (some 4096),
    .alloc 1 4096 false, .alloc 1 4096 false, .alloc 1 4096 false,
    .alloc 2 4000 false]

def bigPoolWanted : Kma :=
  (run tune25 bigPoolTaken (init 30 30)).getD (init 30 30)

set_option maxRecDepth 4000 in
theorem run_bigPoolTaken : run tune25 bigPoolTaken (init 30 30) = some bigPoolWanted := by
  rfl

theorem bigPoolWanted_reachableWhen : Transition.ReachableWhen Init (Step tune25) (Heedful tune25)
      bigPoolWanted := by
  apply run_reachableWhen _ _ run_bigPoolTaken
  · exact Transition.ReachableWhen.start ⟨30, 30, rfl⟩
  · intro e he
    simp only [bigPoolTaken, mem_cons, not_mem_nil, or_false] at he
    rcases he with rfl | rfl | rfl | rfl | rfl | rfl | rfl <;> exact id

def bigPoolFreed (addr size : Nat) : Kma :=
  (bigPoolWanted.step tune25 (.free addr size)).getD bigPoolWanted

set_option maxRecDepth 8000 in
theorem step_bigPoolFreed_4096 :
    Step tune25 bigPoolWanted (.free 16384 4096) (bigPoolFreed 16384 4096) := by
  rfl

set_option maxRecDepth 8000 in
theorem step_bigPoolFreed_3000 :
    Step tune25 bigPoolWanted (.free 28672 3000) (bigPoolFreed 28672 3000) := by
  rfl

set_option maxRecDepth 8000 in
theorem bigPoolWanted_heeds : bigPoolWanted.Heedful tune25 (.free 16384 4096) := by
  intro _
  have hrec := Reachable.recorded bigPoolWanted_reachableWhen.reachable
  constructor
  · intro p f r hp
    cases r with
    | big =>
      refine .inl (.inl ⟨16384, 4096, ?_, ?_⟩)
      · decide
      · decide
    | small =>
      have hpos := (hrec.wanted p f .small hp).1
      exact absurd hpos (by decide)
  · intro p f hp
    have hpos := (hrec.osizeWanted p f hp).1
    exact absurd hpos (by decide)

end Kma

end Kmem
end Svr4
