import Svr4.Callout.Runs

/-!
# The clock of the callout table

The time of an entry is an absolute value of `lbolt`, which comes round.
Beside the system a count of the ticks is kept that does not, and for each entry
of the table the tick at which it was to be called.  The two agree as long as no
time passes the largest value; an entry of which the table has a time beyond it is
called at once, and one that is on the table when `lbolt` comes round is not
called before it has come nearly to the same value again.
-/

namespace Svr4
namespace Callout

open Heap Transition Multiset

namespace System

variable {s u : System} {ret : Int}

theorem isHeap_of_timeout (hs : s.IsHeap) {func arg : Nat} {tim : Int}
    (h : s.timeout func arg tim = some (ret, u)) : u.IsHeap := by
  rcases timeout_spec hs h with ⟨_, _, hord, hroom, hu⟩
  have hlimit := hs.limit
  refine ⟨⟨?_, ?_⟩, hord⟩
  · rw [hu]
    dsimp only
    omega
  · rw [hu] at hroom ⊢
    exact hroom

theorem isHeap_of_untimeout (hs : s.IsHeap) {id : Int}
    (h : s.untimeout id = (ret, u)) : u.IsHeap := by
  rcases untimeout_spec hs id h with ⟨_, rfl, _⟩ | ⟨p, _, _, hcontents, hu, hord⟩
  · exact hs
  · have hlimit := hs.limit
    have hpos : 0 < s.contents.card := by
      rw [hcontents, card_cons]
      exact Nat.succ_pos _
    unfold contents at hpos
    rw [card_contents] at hpos
    refine ⟨?_, hord⟩
    rw [hu]
    dsimp only
    omega

theorem isHeap_of_serve (hs : s.IsHeap) {p : Pass} (hdue : s.Due) : (s.serve p).IsHeap := by
  rcases serve_spec hs p hdue with ⟨_, _, hu, hord⟩
  have hlimit := hs.limit
  have hnonneg := hdue.2
  refine ⟨?_, hord⟩
  rw [hu]
  dsimp only
  omega

theorem due_of_serve (h : s.exec .serve = some (ret, u)) :
    s.Due ∧ ∃ p, s.pass = some p ∧ u = s.serve p := by
  unfold exec at h
  dsimp only at h
  split at h
  · rename_i p hp
    split at h
    · rename_i hdue
      cases h
      exact ⟨hdue, p, hp, rfl⟩
    · cases h
  · cases h

theorem not_due_of_finish (h : s.exec .finish = some (ret, u)) :
    ¬ s.Due ∧ u = { s with pass := none } := by
  unfold exec at h
  dsimp only at h
  split at h
  · split at h
    · cases h
    · rename_i hdue
      cases h
      exact ⟨hdue, rfl⟩
  · cases h

theorem isHeap_of_step {e : Event} (hs : s.IsHeap) (h : s.exec e = some (ret, u)) :
    u.IsHeap := by
  cases e with
  | timeout func arg tim => exact isHeap_of_timeout hs h
  | ttimeout func arg tim =>
    unfold exec ttimeout at h
    dsimp only at h
    split at h
    · cases h
      exact hs
    · exact isHeap_of_timeout hs h
  | untimeout id => exact isHeap_of_untimeout hs (Option.some.inj h)
  | begin =>
    unfold exec at h
    dsimp only at h
    split at h <;> cases h
    exact ⟨hs.limit, hs.ordered⟩
  | serve =>
    rcases due_of_serve h with ⟨hdue, p, _, rfl⟩
    exact isHeap_of_serve hs hdue
  | finish =>
    rcases not_due_of_finish h with ⟨_, rfl⟩
    exact ⟨hs.limit, hs.ordered⟩
  | tick =>
    cases h
    exact ⟨hs.limit, hs.ordered⟩

theorem isHeap_of_start (hs : s.Start) : s.IsHeap :=
  (sound_of_start hs).isHeap

theorem due_iff (hs : s.IsHeap) : s.Due ↔ ∃ p ∈ s.contents, p.cTime ≤ s.lbolt := by
  constructor
  · rintro ⟨htime, hnonneg⟩
    exact ⟨s.callout 0, mem_contents.mpr ⟨0, by omega, rfl⟩, htime⟩
  · rintro ⟨p, hp, htime⟩
    rcases mem_contents.mp hp with ⟨i, hi, rfl⟩
    have hroot := hs.ordered.root_le hi
    exact ⟨by omega, by omega⟩

end System

/-!
## Exact time
-/

/-- The system, a count of all ticks, and the ticks at which the entries are to be called. -/
structure Timed where
  sys : System
  ticks : Int
  pending : Multiset (Callo × Int)

namespace Timed

variable {t t' : Timed}

/-- What an event does to the entries: a new one is to be called after its delay. -/
def Moves (t : Timed) (e : Event) (t' : Timed) : Prop :=
  match e with
  | .timeout func arg tim =>
    t'.pending = (t.sys.entry func arg tim, t.ticks + tim) ::ₘ t.pending
  | .ttimeout func arg tim =>
    if t.sys.calllimit + 1 = t.sys.vCall then t'.pending = t.pending
    else t'.pending = (t.sys.entry func arg tim, t.ticks + tim) ::ₘ t.pending
  | .untimeout _ =>
    (t'.sys.cancelled = t.sys.cancelled ∧ t'.pending = t.pending) ∨
      ∃ q, t'.sys.cancelled = q.1 ::ₘ t.sys.cancelled ∧ t.pending = q ::ₘ t'.pending
  | .serve => ∃ q, q.1 = t.sys.callout 0 ∧ t.pending = q ::ₘ t'.pending
  | .begin | .finish | .tick => t'.pending = t.pending

def Start (t : Timed) : Prop := t.sys.Start ∧ t.pending = 0

def Step (t : Timed) (e : Event) (t' : Timed) : Prop :=
  t.sys.Step e t'.sys ∧ t'.ticks = (if e = .tick then t.ticks + 1 else t.ticks) ∧
    t.Moves e t'

/-- The clock routine goes on just while an entry is due, and what it calls is due. -/
structure OnTime (t : Timed) : Prop where
  seen : t.sys.Due ↔ ∃ q ∈ t.pending, q.2 ≤ t.ticks
  called : ∀ t', t.Step .serve t' → ∀ q, t.pending = q ::ₘ t'.pending → q.2 ≤ t.ticks
  left : ∀ t', t.Step .finish t' → ∀ q ∈ t'.pending, t'.ticks < q.2

/--
The time of a new entry is not beyond the largest value, and the clock does not
come round while there are entries.
-/
def NoWrap (t : Timed) : Event → Prop
  | .timeout _ _ tim | .ttimeout _ _ tim =>
    toInt (t.sys.lbolt + tim) = t.sys.lbolt + tim
  | .tick => toInt (t.sys.lbolt + 1) = t.sys.lbolt + 1 ∨ t.sys.calllimit = -1
  | _ => True

/-- The times of the table differ from the exact times by the same number of ticks. -/
structure Kept (t : Timed) : Prop where
  heap : t.sys.IsHeap
  entries : t.pending.map Prod.fst = t.sys.contents
  time : ∀ q ∈ t.pending, q.2 - t.ticks = q.1.cTime - t.sys.lbolt

theorem Kept.onTime (h : t.Kept) : t.OnTime := by
  have hmem : ∀ p, p ∈ t.sys.contents ↔ ∃ q ∈ t.pending, q.1 = p := by
    intro p
    rw [← h.entries, mem_map]
  have hseen : t.sys.Due ↔ ∃ q ∈ t.pending, q.2 ≤ t.ticks := by
    rw [System.due_iff h.heap]
    constructor
    · rintro ⟨p, hp, hle⟩
      rcases (hmem p).mp hp with ⟨q, hq, rfl⟩
      have htime := h.time q hq
      exact ⟨q, hq, by omega⟩
    · rintro ⟨q, hq, hle⟩
      have htime := h.time q hq
      exact ⟨q.1, (hmem q.1).mpr ⟨q, hq, rfl⟩, by omega⟩
  refine ⟨hseen, ?_, ?_⟩
  · rintro t' ⟨⟨ret, hexec⟩, _, q₀, hroot, hpending⟩ q hq
    have heq : q = q₀ := by
      rw [hq] at hpending
      exact (cons_inj_left _).mp hpending
    have hdue := (System.due_of_serve hexec).1
    have htime := h.time q (by rw [hq]; exact mem_cons_self _ _)
    rw [heq, hroot] at htime
    rw [heq]
    have hle := hdue.1
    omega
  · rintro t' ⟨⟨ret, hexec⟩, hticks, hpending⟩ q hq
    rw [if_neg (by decide)] at hticks
    rw [hpending] at hq
    by_contra hle
    exact (System.not_due_of_finish hexec).1 (hseen.mpr ⟨q, hq, by omega⟩)

theorem Kept.start (h : t.Start) : t.Kept := by
  rcases h with ⟨hsys, hpending⟩
  refine ⟨System.isHeap_of_start hsys, ?_, ?_⟩
  · rw [hpending]
    unfold System.contents
    rw [hsys.1]
    rfl
  · rw [hpending]
    nofun

theorem Kept.insert (h : t.Kept) {func arg : Nat} {tim ret : Int}
    (hok : toInt (t.sys.lbolt + tim) = t.sys.lbolt + tim)
    (hexec : t.sys.timeout func arg tim = some (ret, t'.sys)) (hticks : t'.ticks = t.ticks)
    (hpending : t'.pending = (t.sys.entry func arg tim, t.ticks + tim) ::ₘ t.pending) :
    t'.Kept := by
  rcases System.timeout_spec h.heap hexec with ⟨_, hcontents, _, _, hsys⟩
  have hlbolt : t'.sys.lbolt = t.sys.lbolt := by rw [hsys]
  refine ⟨System.isHeap_of_timeout h.heap hexec, ?_, ?_⟩
  · rw [hpending, hcontents, map_cons, h.entries]
  · intro q hq
    rw [hticks, hlbolt]
    rw [hpending] at hq
    rcases mem_cons.mp hq with rfl | hq
    · have htime : (t.sys.entry func arg tim).cTime = t.sys.lbolt + tim := hok
      dsimp only
      omega
    · exact h.time q hq

theorem Kept.same (h : t.Kept) (hheap : t'.sys.IsHeap)
    (hcontents : t'.sys.contents = t.sys.contents) (hlbolt : t'.sys.lbolt = t.sys.lbolt)
    (hticks : t'.ticks = t.ticks) (hpending : t'.pending = t.pending) : t'.Kept where
  heap := hheap
  entries := by rw [hpending, hcontents, h.entries]
  time := by
    rw [hpending, hticks, hlbolt]
    exact h.time

theorem Kept.remove (h : t.Kept) {q : Callo × Int} (hheap : t'.sys.IsHeap)
    (hcontents : t.sys.contents = q.1 ::ₘ t'.sys.contents)
    (hlbolt : t'.sys.lbolt = t.sys.lbolt) (hticks : t'.ticks = t.ticks)
    (hpending : t.pending = q ::ₘ t'.pending) : t'.Kept where
  heap := hheap
  entries := by
    have hentries := h.entries
    rw [hpending, hcontents, map_cons] at hentries
    exact (cons_inj_right _).mp hentries
  time := by
    intro q' hq'
    rw [hticks, hlbolt]
    refine h.time q' ?_
    rw [hpending]
    exact mem_cons_of_mem hq'

theorem Kept.tick (h : t.Kept) (hok : t.NoWrap .tick) (hheap : t'.sys.IsHeap)
    (hsys : t'.sys = { t.sys with lbolt := toInt (t.sys.lbolt + 1) })
    (hticks : t'.ticks = t.ticks + 1) (hpending : t'.pending = t.pending) : t'.Kept where
  heap := hheap
  entries := by
    rw [hpending, h.entries, hsys]
    rfl
  time := by
    intro q hq
    rw [hpending] at hq
    have htime := h.time q hq
    rw [hticks, hsys]
    dsimp only
    rcases hok with hfits | hempty
    · omega
    · have hnone : t.sys.contents = 0 := by
        unfold System.contents
        rw [hempty]
        rfl
      have hin : q.1 ∈ t.sys.contents := by
        rw [← h.entries]
        exact mem_map_of_mem _ hq
      rw [hnone] at hin
      exact absurd hin (notMem_zero _)

theorem Kept.step {e : Event} (h : t.Kept) (hok : t.NoWrap e) (hstep : t.Step e t') :
    t'.Kept := by
  rcases hstep with ⟨⟨ret, hexec⟩, hticks, hmoves⟩
  have hheap := System.isHeap_of_step h.heap hexec
  cases e with
  | timeout func arg tim => exact h.insert hok hexec hticks hmoves
  | ttimeout func arg tim =>
    unfold System.exec System.ttimeout at hexec
    unfold Moves at hmoves
    dsimp only at hexec hmoves
    split at hexec
    · rename_i hfull
      rw [if_pos hfull] at hmoves
      have hsys : t.sys = t'.sys := (Prod.mk.inj (Option.some.inj hexec)).2
      exact h.same hheap (by rw [hsys]) (by rw [hsys]) hticks hmoves
    · rename_i hroom
      rw [if_neg hroom] at hmoves
      exact h.insert hok hexec hticks hmoves
  | untimeout id =>
    rcases System.untimeout_spec h.heap id (Option.some.inj hexec) with
      ⟨_, hsys, _⟩ | ⟨p, _, _, hcontents, hsys, _⟩
    · rcases hmoves with ⟨_, hpending⟩ | ⟨q, hcancelled, _⟩
      · exact h.same hheap (by rw [hsys]) (by rw [hsys]) hticks hpending
      · rw [hsys] at hcancelled
        exact absurd hcancelled (lt_cons_self _ _).ne
    · have hp : t'.sys.cancelled = p ::ₘ t.sys.cancelled := by rw [hsys]
      rcases hmoves with ⟨hcancelled, _⟩ | ⟨q, hcancelled, hpending⟩
      · rw [hp] at hcancelled
        exact absurd hcancelled.symm (lt_cons_self _ _).ne
      · rw [hp] at hcancelled
        have hpq : p = q.1 := (cons_inj_left _).mp hcancelled
        rw [hpq] at hcontents
        exact h.remove hheap hcontents (by rw [hsys]) hticks hpending
  | begin =>
    have hsys : t'.sys = { t.sys with pass := some ⟨[], false⟩ } := by
      unfold System.exec at hexec
      dsimp only at hexec
      split at hexec
      · exact (Prod.mk.inj (Option.some.inj hexec)).2.symm
      · cases hexec
    exact h.same hheap (by rw [hsys]; rfl) (by rw [hsys]) hticks hmoves
  | serve =>
    rcases System.due_of_serve hexec with ⟨hdue, p, _, hsys⟩
    rcases System.serve_spec h.heap p hdue with ⟨hcontents, _, hshape, _⟩
    rcases hmoves with ⟨q, hroot, hpending⟩
    rw [← hsys, ← hroot] at hcontents
    exact h.remove hheap hcontents (by rw [hsys, hshape]) hticks hpending
  | finish =>
    have hsys := (System.not_due_of_finish hexec).2
    exact h.same hheap (by rw [hsys]; rfl) (by rw [hsys]) hticks hmoves
  | tick =>
    have hsys : t'.sys = { t.sys with lbolt := toInt (t.sys.lbolt + 1) } :=
      (Prod.mk.inj (Option.some.inj hexec)).2.symm
    exact h.tick hok hheap hsys hticks hmoves

/-!
## Every run
-/

def atClock (lbolt : Int) : Timed where
  sys := { System.quiet with lbolt := lbolt }
  ticks := 0
  pending := 0

theorem start_atClock (lbolt : Int) : (Timed.atClock lbolt).Start :=
  ⟨⟨rfl, rfl, rfl, rfl, rfl, rfl⟩, rfl⟩

def first (t : Timed) (tim : Int) : Timed :=
  { t with
    sys := t.sys.single 1 0 tim
    pending := {(t.sys.entry 1 0 tim, t.ticks + tim)} }

theorem step_first (lbolt tim : Int) :
    (Timed.atClock lbolt).Step (.timeout 1 0 tim) ((Timed.atClock lbolt).first tim) :=
  ⟨⟨1, System.timeout_single (s := (Timed.atClock lbolt).sys) rfl nofun 1 0 tim⟩, rfl, rfl⟩

end Timed
end Callout
end Svr4
