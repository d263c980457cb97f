import Svr4.Kmem.Calls

/-!
# Wake-ups

What a step of `kmem_free` or `kmem_freepool` makes available, which
sleeping processes it wakes, and the requests that are left asleep although
they could be met.
-/

namespace Svr4
namespace Kmem

open Function List Option

/-!
## The wanted records
-/

def Phase.frame : Phase → Option Frame
  | .idle => none
  | .sptalloc f _ => some f
  | .asleep f _ => some f
  | .woken f _ => some f

/-- The call asks for something, and so does the one it is made for. -/
structure Frame.Asks (f : Frame) : Prop where
  size_pos : 0 < f.size
  outer_pos : ∀ o, f.outer = some o → 0 < o.size

/-- A process asleep on a record asks for at least what is recorded. -/
structure Kma.Recorded (k : Kma) : Prop where
  wanted : ∀ p f r, k.phase p = .asleep f (.wanted r) → 0 < k.wanted r ∧ k.wanted r ≤ f.size
  osizeWanted : ∀ p f, k.phase p = .asleep f .osizeWanted →
    0 < k.osizeWanted ∧ k.osizeWanted ≤ f.size
  asks : ∀ p f, (k.phase p).frame = some f → f.Asks

variable {k k' : Kma} {p q size n i addr bufp : Nat} {phase : Phase} {f : Frame}

namespace Kma

@[simp] theorem goto_phase (k : Kma) (p : Nat) (phase : Phase) :
    (k.goto p phase).phase = update k.phase p phase := rfl

@[simp] theorem goto_wanted (k : Kma) (p : Nat) (phase : Phase) :
    (k.goto p phase).wanted = k.wanted := rfl

@[simp] theorem goto_osizeWanted (k : Kma) (p : Nat) (phase : Phase) :
    (k.goto p phase).osizeWanted = k.osizeWanted := rfl

theorem goto_phase_eq {phase' : Phase} (h : (k.goto p phase).phase q = phase') :
    (q = p ∧ phase = phase') ∨ k.phase q = phase' := by
  rw [goto_phase] at h
  by_cases hq : q = p
  · subst hq
    rw [update_self] at h
    exact .inl ⟨rfl, h⟩
  · rw [update_of_ne hq] at h
    exact .inr h

theorem asleep_of_wakeprocs {chan c : Chan} (h : (k.wakeprocs chan).phase p = .asleep f c) :
    k.phase p = .asleep f c ∧ c ≠ chan := by
  simp only [wakeprocs] at h
  cases hphase : k.phase p with
  | asleep g d =>
    rw [hphase] at h
    dsimp only at h
    split at h
    · cases h
    · cases h
      exact ⟨rfl, ‹_›⟩
  | _ =>
    rw [hphase] at h
    cases h

@[simp] theorem wakeprocs_frame (k : Kma) (chan : Chan) (p : Nat) :
    ((k.wakeprocs chan).phase p).frame = (k.phase p).frame := by
  simp only [wakeprocs]
  cases hphase : k.phase p with
  | asleep f c =>
    dsimp only
    split
    · rfl
    · rfl
  | _ => rfl

end Kma

theorem Kma.Recorded.congr (hk : k.Recorded) (hphase : k'.phase = k.phase)
    (hwanted : k'.wanted = k.wanted) (hosize : k'.osizeWanted = k.osizeWanted) : k'.Recorded := by
  constructor
  · intro p f r h
    rw [hphase] at h
    rw [hwanted]
    exact hk.wanted p f r h
  · intro p f h
    rw [hphase] at h
    rw [hosize]
    exact hk.osizeWanted p f h
  · intro p f h
    rw [hphase] at h
    exact hk.asks p f h

theorem Kma.Recorded.wakeprocs (hk : k.Recorded) (chan : Chan) : (k.wakeprocs chan).Recorded := by
  constructor
  · intro p f r h
    exact hk.wanted p f r (asleep_of_wakeprocs h).1
  · intro p f h
    exact hk.osizeWanted p f (asleep_of_wakeprocs h).1
  · intro p f h
    rw [wakeprocs_frame] at h
    exact hk.asks p f h

theorem Kma.goto_asks (hk : ∀ p f, (k.phase p).frame = some f → f.Asks)
    (hsize : ∀ f, phase.frame = some f → f.Asks)
    (h : ((k.goto p phase).phase q).frame = some f) : f.Asks := by
  rcases goto_phase_eq (k := k) (p := p) (q := q) rfl with ⟨_, heq⟩ | heq
  · rw [← heq] at h
    exact hsize f h
  · rw [← heq] at h
    exact hk q f h

theorem Kma.Recorded.goto (hk : k.Recorded) (p : Nat)
    (hwanted : ∀ f r, phase ≠ .asleep f (.wanted r))
    (hosize : ∀ f, phase ≠ .asleep f .osizeWanted) (hsize : ∀ f, phase.frame = some f → f.Asks) :
    (k.goto p phase).Recorded := by
  constructor
  · intro q f r h
    rcases goto_phase_eq h with ⟨_, heq⟩ | hold
    · exact absurd heq (hwanted f r)
    · exact hk.wanted q f r hold
  · intro q f h
    rcases goto_phase_eq h with ⟨_, heq⟩ | hold
    · exact absurd heq (hosize f)
    · exact hk.osizeWanted q f hold
  · intro q f h
    exact goto_asks hk.asks hsize h

theorem Kma.Recorded.idle (hk : k.Recorded) (p : Nat) : (k.goto p .idle).Recorded := by
  apply hk.goto
  · intro f r h
    cases h
  · intro f h
    cases h
  · intro f h
    cases h

theorem Kma.Recorded.sptalloc (hk : k.Recorded) (p : Nat) (pool : Option Range) (hf : f.Asks) :
    (k.goto p (.sptalloc f pool)).Recorded := by
  apply hk.goto
  · intro g r h
    cases h
  · intro g h
    cases h
  · intro g h
    cases h
    exact hf

theorem Kma.Recorded.allocOn (hk : k.Recorded) (p : Nat) (r : Range) (hf : f.Asks) :
    (k.goto p (.asleep f (.allocOn r))).Recorded := by
  apply hk.goto
  · intro g s h
    cases h
  · intro g h
    cases h
  · intro g h
    cases h
    exact hf

theorem minWanted_pos (hsize : 0 < size) (wanted : Nat) : 0 < minWanted size wanted := by
  unfold minWanted
  split <;> omega

theorem minWanted_le (size wanted : Nat) : minWanted size wanted ≤ size := by
  unfold minWanted
  split <;> omega

theorem minWanted_le_wanted (size : Nat) {wanted : Nat} (h : 0 < wanted) :
    minWanted size wanted ≤ wanted := by
  unfold minWanted
  split <;> omega

theorem Kma.Recorded.sleepWanted (hk : k.Recorded) (p : Nat) (r : Range) (hf : f.Asks) : ({ k with
      wanted := update k.wanted r (minWanted f.size (k.wanted r))
      }.goto p (.asleep f (.wanted r))).Recorded := by
  constructor
  · intro q g s h
    rw [goto_wanted]
    dsimp only
    rcases goto_phase_eq h with ⟨_, heq⟩ | hold
    · cases heq
      rw [update_self]
      exact ⟨minWanted_pos hf.size_pos _, minWanted_le _ _⟩
    · have hrec := hk.wanted q g s hold
      by_cases hs : s = r
      · subst hs
        rw [update_self]
        exact ⟨minWanted_pos hf.size_pos _, le_trans (minWanted_le_wanted f.size hrec.1) hrec.2⟩
      · rw [update_of_ne hs]
        exact hrec
  · intro q g h
    rcases goto_phase_eq h with ⟨_, heq⟩ | hold
    · cases heq
    · exact hk.osizeWanted q g hold
  · intro q g h
    apply goto_asks hk.asks _ h
    intro e he
    cases he
    exact hf

theorem Kma.Recorded.sleepOsize (hk : k.Recorded) (p : Nat) (hf : f.Asks) :
    ({ k with osizeWanted := minWanted f.size k.osizeWanted }.goto p
      (.asleep f .osizeWanted)).Recorded := by
  constructor
  · intro q g s h
    rcases goto_phase_eq h with ⟨_, heq⟩ | hold
    · cases heq
    · exact hk.wanted q g s hold
  · intro q g h
    rcases goto_phase_eq h with ⟨_, heq⟩ | hold
    · cases heq
      exact ⟨minWanted_pos hf.size_pos _, minWanted_le _ _⟩
    · have hrec := hk.osizeWanted q g hold
      exact ⟨minWanted_pos hf.size_pos _, le_trans (minWanted_le_wanted f.size hrec.1) hrec.2⟩
  · intro q g h
    apply goto_asks hk.asks _ h
    intro e he
    cases he
    exact hf

/-!
## Allocation keeps the records
-/

theorem Kma.Recorded.allocDone (hk : k.Recorded) (r : Range) : (k.allocDone r).Recorded := by
  apply Kma.Recorded.wakeprocs
  exact hk.congr rfl rfl rfl

theorem Kma.Recorded.noPool (hk : k.Recorded) (p : Nat) (r : Range)
    (hf : f.Asks) : (k.noPool p f r).Recorded := by
  unfold Kma.noPool
  split
  · split
    · exact hk.idle p
    · apply Kma.Recorded.idle
      apply Kma.Recorded.allocDone
      exact hk.congr rfl rfl rfl
  · exact hk.sleepWanted p r hf

theorem Kma.Recorded.newPool (hk : k.Recorded) (t : Tune) (p : Nat) (r : Range) (hf : f.Asks) :
    (k.newPool t p f r).Recorded := by
  unfold Kma.newPool
  split
  · split
    · exact hk.noPool p r hf
    · exact hk.allocOn p r hf
  · split
    · exact (hk.allocDone r).noPool p r hf
    · apply Kma.Recorded.sptalloc _ p _ hf
      exact hk.congr rfl rfl rfl

theorem Kma.Recorded.deliver (hk : k.Recorded) (p addr size : Nat) :
    (k.deliver p addr size).Recorded := by
  apply Kma.Recorded.idle
  exact hk.congr rfl rfl rfl

theorem Kma.Recorded.retry (hk : k.Recorded) (t : Tune) (p : Nat) (r : Range)
    (hf : f.Asks) : (k.retry t p f r).Recorded := by
  unfold Kma.retry
  split
  · apply Kma.Recorded.deliver
    exact hk.congr rfl rfl rfl
  · exact hk.newPool t p r hf

theorem headerFrame_asks (hf : f.Asks) (base : Nat) :
    Frame.Asks
      { size := headerSize
        nosleep := f.nosleep
        outer := some { startp := base, size := f.size } } := by
  constructor
  · show 0 < headerSize
    decide
  · intro o ho
    cases ho
    exact hf.size_pos

section

variable (hk : k.Recorded)
include hk

theorem Kma.Recorded.finish (t : Tune) (p : Nat) (bufp : Nat) (hf : f.Asks) :
    (k.finish t p f bufp).Recorded := by
  unfold Kma.finish
  cases houter : f.outer with
  | none => exact hk.deliver p bufp f.size
  | some o =>
    apply Kma.Recorded.retry
    · apply Kma.Recorded.allocDone
      exact hk.congr rfl rfl rfl
    · constructor
      · exact hf.outer_pos o houter
      · intro o' ho'
        cases ho'

theorem Kma.Recorded.allocTop (t : Tune) (p : Nat)
    (hf : f.Asks) : (k.allocTop t p f).Recorded := by
  unfold Kma.allocTop
  split
  · apply Kma.Recorded.finish _ t p _ hf
    exact hk.congr rfl rfl rfl
  · exact hk.newPool t p _ hf

theorem Kma.Recorded.noPages (p : Nat)
    (hf : f.Asks) : (k.noPages p f).Recorded := by
  unfold Kma.noPages
  split
  · exact hk.idle p
  · exact hk.sleepOsize p hf

theorem Kma.Recorded.osizeagain (t : Tune) (p : Nat)
    (hf : f.Asks) : (k.osizeagain t p f).Recorded := by
  unfold Kma.osizeagain
  split
  · exact hk.noPages p hf
  · apply Kma.Recorded.sptalloc _ p _ hf
    exact hk.congr rfl rfl rfl

theorem Kma.Recorded.kmemAlloc (t : Tune) (p : Nat) (size : Nat)
    (nosleep : Bool) :
    (k.kmemAlloc t p { size := size, nosleep := nosleep, outer := none }).Recorded := by
  unfold Kma.kmemAlloc
  by_cases hzero : size = 0
  · rw [if_pos hzero]
    exact hk.idle p
  · rw [if_neg hzero]
    have hf : Frame.Asks { size := size, nosleep := nosleep, outer := none } := by
      constructor
      · exact Nat.pos_of_ne_zero hzero
      · intro o ho
        cases ho
    split
    · exact hk.allocTop t p hf
    · exact hk.osizeagain t p hf

theorem Kma.Recorded.sptFail (p : Nat) (pool : Option Range)
    (hf : f.Asks) : (k.sptFail p f pool).Recorded := by
  cases pool with
  | some r =>
    apply Kma.Recorded.noPool _ p r hf
    apply Kma.Recorded.allocDone
    exact hk.congr rfl rfl rfl
  | none =>
    apply Kma.Recorded.noPages _ p hf
    exact hk.congr rfl rfl rfl

theorem Kma.Recorded.sptDone (t : Tune) (p : Nat) (base : Nat)
    (pool : Option Range) (hf : f.Asks) : (k.sptDone t p f base pool).Recorded := by
  cases pool with
  | some r =>
    cases r with
    | small =>
      simp only [Kma.sptDone]
      have hdone : Kma.Recorded ({ k.setPages base Range.small.clicks true with
            mem := (k.setPages base Range.small.clicks
              true).mem.addSmallPool base }.allocDone .small) := by
        apply Kma.Recorded.allocDone
        exact hk.congr rfl rfl rfl
      split
      · apply Kma.Recorded.finish _ t p _ hf
        exact hdone.congr rfl rfl rfl
      · exact hdone.newPool t p _ hf
    | big =>
      apply Kma.Recorded.allocTop _ t p (headerFrame_asks hf base)
      exact hk.congr rfl rfl rfl
  | none =>
    apply Kma.Recorded.deliver
    exact hk.congr rfl rfl rfl

theorem Kma.Recorded.resume (t : Tune) (p : Nat) (chan : Chan)
    (hf : f.Asks) : (k.resume t p f chan).Recorded := by
  cases chan with
  | wanted r => exact hk.allocTop t p hf
  | osizeWanted => exact hk.osizeagain t p hf
  | allocOn r => exact hk.newPool t p r hf

end

/-!
## What freeing makes available
-/

/-- What freeing buffers and `clicks` pages does to processes, lists and records. -/
structure Kma.Frees (clicks : Nat) (k k' : Kma) : Prop where
  asleep : ∀ p f c, k'.phase p = .asleep f c → k.phase p = .asleep f c ∧
    (∀ r, c = .wanted r → k'.wanted r = k.wanted r) ∧
    (c = .osizeWanted → k'.osizeWanted = k.osizeWanted)
  frame : ∀ p, (k'.phase p).frame = (k.phase p).frame
  reset : ∀ r, k'.wanted r = 0 ∨ k'.wanted r = k.wanted r
  availrmem : k'.availrmem = k.availrmem + clicks
  availsmem : k'.availsmem = k.availsmem + clicks
  placed : ∃ l, k'.placed = l ++ k.placed ∧
    (∀ i a, k'.mem.On i a → k.mem.On i a ∨ ∃ pl ∈ l, pl.list = i ∧ pl.addr = a) ∧
    ∀ pl ∈ l, pl.tested = true → ∀ r : Range, r.Lists pl.list →
      k'.wanted r = 0 ∨ listSize pl.list < k'.wanted r

variable {r : Range}

namespace Kma

theorem Frees.recorded {clicks : Nat} (h : Frees clicks k k') (hk : k.Recorded) :
    k'.Recorded := by
  constructor
  · intro p f r hp
    rcases h.asleep p f _ hp with ⟨hold, hsame, _⟩
    rw [hsame r rfl]
    exact hk.wanted p f r hold
  · intro p f hp
    rcases h.asleep p f _ hp with ⟨hold, _, hsame⟩
    rw [hsame rfl]
    exact hk.osizeWanted p f hold
  · intro p f hp
    rw [h.frame] at hp
    exact hk.asks p f hp

theorem Frees.trans {m : Nat} {k₁ k₂ k₃ : Kma} (h : Frees m k₁ k₂)
    (h' : Frees n k₂ k₃) : Frees (m + n) k₁ k₃ := by
  constructor
  · intro p f c hp
    rcases h'.asleep p f c hp with ⟨hp₂, hw₂, ho₂⟩
    rcases h.asleep p f c hp₂ with ⟨hp₁, hw₁, ho₁⟩
    refine ⟨hp₁, ?_, ?_⟩
    · intro r hr
      rw [hw₂ r hr, hw₁ r hr]
    · intro hc
      rw [ho₂ hc, ho₁ hc]
  · intro p
    rw [h'.frame, h.frame]
  · intro r
    rcases h'.reset r with hr | hr
    · exact .inl hr
    · rw [hr]
      exact h.reset r
  · rw [h'.availrmem, h.availrmem]
    push_cast
    ring
  · rw [h'.availsmem, h.availsmem]
    push_cast
    ring
  · rcases h.placed with ⟨l, hl, hon, htested⟩
    rcases h'.placed with ⟨l', hl', hon', htested'⟩
    refine ⟨l' ++ l, ?_, ?_, ?_⟩
    · rw [hl', hl, append_assoc]
    · intro i a ha
      rcases hon' i a ha with ha | ⟨pl, hpl, hpl'⟩
      · rcases hon i a ha with ha | ⟨pl, hpl, hpl'⟩
        · exact .inl ha
        · exact .inr ⟨pl, mem_append_right _ hpl, hpl'⟩
      · exact .inr ⟨pl, mem_append_left _ hpl, hpl'⟩
    · intro pl hpl htest r hr
      rcases mem_append.mp hpl with hpl | hpl
      · exact htested' pl hpl htest r hr
      · rcases h'.reset r with hzero | hsame
        · exact .inl hzero
        · rw [hsame]
          exact htested pl hpl htest r hr

theorem Frees.of_setMem {m : Mem} (hon : ∀ i a, m.On i a → k.mem.On i a) :
    Frees 0 k { k with mem := m } := by
  constructor
  · intro p f c hp
    exact ⟨hp, fun _ _ => rfl, fun _ => rfl⟩
  · intro p
    rfl
  · intro r
    exact .inr rfl
  · exact (add_zero _).symm
  · exact (add_zero _).symm
  · refine ⟨[], rfl, ?_, ?_⟩
    · intro i a ha
      exact .inl (hon i a ha)
    · intro pl hpl
      exact absurd hpl not_mem_nil

theorem Frees.of_place {m : Mem} (hon : ∀ j a, m.On j a → k.mem.On j a ∨ (i = j ∧ addr = a)) :
    Frees 0 k ({ k with mem := m }.place i addr false) := by
  constructor
  · intro p f c hp
    exact ⟨hp, fun _ _ => rfl, fun _ => rfl⟩
  · intro p
    rfl
  · intro r
    exact .inr rfl
  · exact (add_zero _).symm
  · exact (add_zero _).symm
  · refine ⟨[{ list := i, addr := addr, tested := false }], rfl, ?_, ?_⟩
    · intro j a ha
      rcases hon j a ha with ha | ⟨hi, haddr⟩
      · exact .inl ha
      · exact .inr ⟨_, mem_singleton_self _, hi, haddr⟩
    · intro pl hpl htest
      rw [mem_singleton] at hpl
      rw [hpl] at htest
      cases htest

theorem wakeWanted_asleep {c : Chan} (h : (k.wakeWanted r size).phase p = .asleep f c) :
    k.phase p = .asleep f c ∧
      (∀ s, c = .wanted s → (k.wakeWanted r size).wanted s = k.wanted s) := by
  unfold wakeWanted at h ⊢
  by_cases htest : k.wanted r > 0 ∧ k.wanted r ≤ size
  · rw [if_pos htest] at h ⊢
    rcases asleep_of_wakeprocs h with ⟨hold, hne⟩
    refine ⟨hold, ?_⟩
    intro s hs
    apply update_of_ne
    intro heq
    exact hne (heq ▸ hs)
  · rw [if_neg htest] at h ⊢
    exact ⟨h, fun _ _ => rfl⟩

theorem wakeWanted_reset (k : Kma) (r : Range) (size : Nat) (s : Range) :
    (k.wakeWanted r size).wanted s = 0 ∨ (k.wakeWanted r size).wanted s = k.wanted s := by
  unfold wakeWanted
  split
  · by_cases hs : s = r
    · subst hs
      exact .inl (update_self _ _ _)
    · exact .inr (update_of_ne hs _ _)
  · exact .inr rfl

theorem wakeWanted_above (k : Kma) (r : Range) (size : Nat) :
    (k.wakeWanted r size).wanted r = 0 ∨ size < (k.wakeWanted r size).wanted r := by
  unfold wakeWanted
  by_cases htest : k.wanted r > 0 ∧ k.wanted r ≤ size
  · rw [if_pos htest]
    exact .inl (update_self _ _ _)
  · rw [if_neg htest]
    omega

@[simp] theorem wakeWanted_frame (k : Kma) (r : Range) (size p : Nat) :
    ((k.wakeWanted r size).phase p).frame = (k.phase p).frame := by
  unfold wakeWanted
  split
  · rw [wakeprocs_frame]
  · rfl

@[simp] theorem wakeWanted_mem (k : Kma) (r : Range) (size : Nat) :
    (k.wakeWanted r size).mem = k.mem := by
  unfold wakeWanted
  split <;> rfl

@[simp] theorem wakeWanted_placed (k : Kma) (r : Range) (size : Nat) :
    (k.wakeWanted r size).placed = k.placed := by
  unfold wakeWanted
  split <;> rfl

@[simp] theorem wakeWanted_osizeWanted (k : Kma) (r : Range) (size : Nat) :
    (k.wakeWanted r size).osizeWanted = k.osizeWanted := by
  unfold wakeWanted
  split <;> rfl

@[simp] theorem wakeWanted_availrmem (k : Kma) (r : Range) (size : Nat) :
    (k.wakeWanted r size).availrmem = k.availrmem := by
  unfold wakeWanted
  split <;> rfl

@[simp] theorem wakeWanted_availsmem (k : Kma) (r : Range) (size : Nat) :
    (k.wakeWanted r size).availsmem = k.availsmem := by
  unfold wakeWanted
  split <;> rfl

theorem Frees.wakeWanted (k : Kma) (r : Range) (size : Nat) : Frees 0 k (k.wakeWanted r size) := by
  constructor
  · intro p f c hp
    rcases wakeWanted_asleep hp with ⟨hold, hsame⟩
    exact ⟨hold, hsame, fun _ => wakeWanted_osizeWanted k r size⟩
  · intro p
    exact wakeWanted_frame k r size p
  · intro s
    exact wakeWanted_reset k r size s
  · rw [wakeWanted_availrmem]
    exact (add_zero _).symm
  · rw [wakeWanted_availsmem]
    exact (add_zero _).symm
  · refine ⟨[], wakeWanted_placed k r size, ?_, ?_⟩
    · intro i a ha
      rw [wakeWanted_mem] at ha
      exact .inl ha
    · intro pl hpl
      exact absurd hpl not_mem_nil

theorem Frees.of_test {m : Mem} (hr : r.Lists i)
    (hon : ∀ j a, m.On j a → k.mem.On j a ∨ (i = j ∧ addr = a)) :
    Frees 0 k (({ k with mem := m }.place i addr true).wakeWanted r (listSize i)) := by
  constructor
  · intro p f c hp
    rcases wakeWanted_asleep hp with ⟨hold, hsame⟩
    exact ⟨hold, hsame, fun _ => wakeWanted_osizeWanted _ r _⟩
  · intro p
    exact wakeWanted_frame _ r _ p
  · intro s
    exact wakeWanted_reset _ r _ s
  · rw [wakeWanted_availrmem]
    exact (add_zero _).symm
  · rw [wakeWanted_availsmem]
    exact (add_zero _).symm
  · refine ⟨[{ list := i, addr := addr, tested := true }], wakeWanted_placed _ r _, ?_, ?_⟩
    · intro j a ha
      rw [wakeWanted_mem] at ha
      rcases hon j a ha with ha | ⟨hi, haddr⟩
      · exact .inl ha
      · exact .inr ⟨_, mem_singleton_self _, hi, haddr⟩
    · intro pl hpl _ s hs
      rw [mem_singleton] at hpl
      rw [hpl] at hs ⊢
      rw [hs.unique hr]
      exact wakeWanted_above _ r _

/--
The coalescing from `freeagain` on, by induction on the number of classes
above the one of the buffer.
-/
theorem freeagain_frees {loc : Loc} {mask : BitVec 32}
    (h : freeagain r n i bufp loc mask k = some k') (hmin : r.minOffset ≤ i)
    (hmax : i + n ≤ r.maxOffset) : Frees 0 k k' := by
  induction n generalizing i bufp loc mask k k' with
  | zero => cases h
  | succ n ih =>
    have hi : r.Lists (i + 1) := ⟨by omega, by omega⟩
    unfold freeagain at h
    dsimp only at h
    split at h
    · -- The buddy is joined; the coalesced buffer is on no list yet.
      have hunlink : ∀ j a, (k.mem.unlink i (bufp ^^^ listSize i)).On j a →
          k.mem.On j a := fun j a ha => ha.of_unlink
      split at h
      · cases h
        apply Frees.of_test hi
        intro j a ha
        split at ha
        · have ha := Mem.On.of_headfree (Mem.On.congr (Mem.setSlack_freelists _ _ _) ha)
          exact ha.imp_left fun ha =>
            hunlink j a (Mem.On.congr (Mem.orWord_freelists _ _ _ _) ha)
        · have ha := Mem.On.of_headfree (Mem.On.congr (Mem.dropInuse_freelists _ _) ha)
          exact ha.imp_left fun ha =>
            hunlink j a (Mem.On.congr (Mem.orWord_freelists _ _ _ _) ha)
      · rw [bind_eq_some_iff] at h
        rcases h with ⟨k₁, hacc, h⟩
        have hacc' : Frees 0 k k₁ := by
          split at hacc
          · rename_i buf2p rest hlist
            split at hacc
            · rw [bind_eq_some_iff] at hacc
              rcases hacc with ⟨loc2, _, hacc⟩
              have hrest : Frees 0 k
                  { k with
                    mem := (k.mem.unlink i (bufp ^^^ listSize i)).setList (i + 1) rest } := by
                apply Frees.of_setMem
                intro j a ha
                apply hunlink
                apply Mem.On.of_setList _ ha
                intro b hb
                rw [hlist]
                exact mem_cons_of_mem _ hb
              exact hrest.trans (ih hacc (by omega) (by omega))
            · cases hacc
              exact Frees.of_setMem hunlink
          · cases hacc
            exact Frees.of_setMem hunlink
        exact hacc'.trans (ih h (by omega) (by omega))
    · cases h
      apply Frees.of_place
      intro j a ha
      exact Mem.On.of_tailfree ha

theorem coalesce_frees (h : k.coalesce r i bufp = some k') (hi : r.Lists i) : Frees 0 k k' := by
  unfold coalesce at h
  rw [bind_eq_some_iff] at h
  rcases h with ⟨loc, _, h⟩
  exact freeagain_frees h hi.1 (by have := hi.2; omega)

end Kma

theorem findFrom_le (size n i : Nat) : findFrom size n i ≤ i + n := by
  induction n generalizing i with
  | zero => exact le_rfl
  | succ n ih =>
    unfold findFrom
    split
    · have := ih (i + 1)
      omega
    · omega

theorem le_findFrom (size n i : Nat) : i ≤ findFrom size n i := by
  induction n generalizing i with
  | zero => exact le_rfl
  | succ n ih =>
    unfold findFrom
    split
    · have := ih (i + 1)
      omega
    · omega

theorem findList_lists (size : Nat) : (rangeOf size).Lists (findList size) := by
  constructor
  · exact le_findFrom _ _ _
  · have hle := findFrom_le size ((rangeOf size).maxOffset - (rangeOf size).minOffset)
      (rangeOf size).minOffset
    have hmin : (rangeOf size).minOffset ≤ (rangeOf size).maxOffset := by
      cases rangeOf size <;> decide
    unfold findList
    dsimp only
    omega

namespace Kma

theorem kmemFree_frees (h : k.kmemFree addr size = some k') (haddr : addr ≠ 0) (hsize : size ≠ 0)
    (hle : size ≤ MAXABIG) :
    Frees 0 k k' ∧ (k'.wanted (rangeOf size) = 0 ∨ size < k'.wanted (rangeOf size)) := by
  have hi := findList_lists size
  unfold kmemFree at h
  rw [if_neg (not_or.mpr ⟨haddr, hsize⟩), if_neg (not_lt.mpr hle)] at h
  rw [map_eq_some_iff] at h
  rcases h with ⟨k₁, hfreed, rfl⟩
  refine ⟨Frees.trans ?_ (Frees.wakeWanted k₁ _ size), wakeWanted_above _ _ _⟩
  split at hfreed
  · split at hfreed
    · cases hfreed
      apply Frees.of_place
      intro j a ha
      exact Mem.On.of_headfree ha
    · rw [map_eq_some_iff] at hfreed
      rcases hfreed with ⟨p, _, rfl⟩
      apply Frees.of_place
      intro j a ha
      exact Mem.On.of_headfree (Mem.On.congr (Mem.dropInuse_freelists _ _) ha)
  · rw [bind_eq_some_iff] at hfreed
    rcases hfreed with ⟨k₂, hcoal, hfreed⟩
    refine Frees.trans (n := 0) (coalesce_frees hcoal hi) ?_
    split at hfreed
    · rename_i buf2p rest hlist
      split at hfreed
      · have hrest : Frees 0 k₂ { k₂ with mem := k₂.mem.setList (findList size) rest } := by
          apply Frees.of_setMem
          intro j a ha
          apply Mem.On.of_setList _ ha
          intro b hb
          rw [hlist]
          exact mem_cons_of_mem _ hb
        exact hrest.trans (coalesce_frees hfreed hi)
      · cases hfreed
        exact Frees.of_setMem fun _ _ ha => ha
    · cases hfreed
      exact Frees.of_setMem fun _ _ ha => ha

/-!
## Pages
-/

theorem Frees.of_pages (k : Kma) (addr clicks : Nat) :
    Frees clicks k ((k.setPages addr clicks false).addAvail clicks) := by
  constructor
  · intro p f c hp
    exact ⟨hp, fun _ _ => rfl, fun _ => rfl⟩
  · intro p
    rfl
  · intro r
    exact .inr rfl
  · rfl
  · rfl
  · refine ⟨[], rfl, ?_, ?_⟩
    · intro i a ha
      exact .inl ha
    · intro pl hpl
      exact absurd hpl not_mem_nil

theorem Frees.wakeAllocOn (k : Kma) (r : Range) : Frees 0 k (k.wakeprocs (.allocOn r)) := by
  constructor
  · intro p f c hp
    exact ⟨(asleep_of_wakeprocs hp).1, fun _ _ => rfl, fun _ => rfl⟩
  · intro p
    rw [wakeprocs_frame]
  · intro s
    exact .inr rfl
  · exact (add_zero _).symm
  · exact (add_zero _).symm
  · refine ⟨[], rfl, ?_, ?_⟩
    · intro i a ha
      exact .inl ha
    · intro pl hpl
      exact absurd hpl not_mem_nil

theorem Frees.wakeOsize (k : Kma) (size : Nat) : Frees 0 k (k.wakeOsize size) := by
  unfold Kma.wakeOsize
  split
  · constructor
    · intro p f c hp
      rcases asleep_of_wakeprocs hp with ⟨hold, hne⟩
      exact ⟨hold, fun _ _ => rfl, fun hc => absurd hc hne⟩
    · intro p
      rw [wakeprocs_frame]
    · intro r
      exact .inr rfl
    · exact (add_zero _).symm
    · exact (add_zero _).symm
    · refine ⟨[], rfl, ?_, ?_⟩
      · intro i a ha
        exact .inl ha
      · intro pl hpl
        exact absurd hpl not_mem_nil
  · exact Frees.of_setMem fun _ _ ha => ha

theorem wakeOsize_above (k : Kma) (size : Nat) :
    (k.wakeOsize size).osizeWanted = 0 ∨ 2147483648 ≤ (k.wakeOsize size).osizeWanted ∨
        size < (k.wakeOsize size).osizeWanted := by
  unfold wakeOsize
  split
  · exact .inl rfl
  · omega

end Kma

end Kmem
end Svr4
