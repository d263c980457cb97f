import Svr4.Messages.Pullup

/-!
# Runs of the message block routines

The state is the pool together with the message blocks that are live: those
that a routine has returned and that have not been freed.  Between the calls the
holders of the blocks change the parts of a header that are theirs.
-/

namespace Svr4
namespace Messages

open Option

structure System where
  pool : Pool
  /-- the live message blocks -/
  held : List Nat

inductive Call where
  /-- the link, the pointers, the band and the flag of a header -/
  | edit (bp : Nat) (cont : Option Nat) (rptr wptr : Nat) (le : rptr ≤ wptr)
      (band flag : Nat)
  /-- the type of the data block of `bp` -/
  | retype (bp type : Nat)
  /-- the bytes of buffers -/
  | write (mem : Nat → Nat)
  | allocb (size : Int)
  | esballoc (base size : Nat) (frRtn : Option FreeRtn)
  | dupb (bp : Nat)
  | dupmsg (bp : Option Nat)
  | copyb (bp : Nat)
  | pullupmsg (mp : Nat) (len : Int)
  | freeb (bp : Nat)
  | freemsg (bp : Option Nat)

/-- A call, and what the kernel memory allocator returns meanwhile. -/
structure Event where
  call : Call
  kmem : List (Option Nat)

variable {p q : Pool} {l held : List Nat}

namespace Pool

/-- The blocks from `bp` up to the first arrival at `stop`. -/
def uptoLoop (p : Pool) (stop : Option Nat) : Nat → Option Nat → List Nat
  | 0, _ => []
  | fuel + 1, bp =>
    if bp = stop then []
    else match bp with
      | none => []
      | some c => c :: uptoLoop p stop fuel (p.cont c)

def upto (p : Pool) (stop bp : Option Nat) : List Nat := p.uptoLoop stop p.nhdr bp

theorem uptoLoop_eq {stop bp : Option Nat} (fuel : Nat) (hl : Chain p.cont bp l stop)
    (hstop : ∀ c ∈ l, some c ≠ stop) (hfuel : l.length ≤ fuel) : p.uptoLoop stop fuel bp = l := by
  induction l generalizing bp fuel with
  | nil =>
    cases fuel with
    | zero => rfl
    | succ fuel => exact if_pos hl
  | cons c rest ih =>
    obtain ⟨fuel', rfl⟩ : ∃ n, fuel = n + 1 :=
      ⟨fuel - 1, by simp only [List.length_cons] at hfuel; omega⟩
    rcases hl with ⟨rfl, hrest⟩
    unfold uptoLoop
    rw [if_neg (hstop c (by simp))]
    exact congrArg (List.cons c) (ih fuel' hrest
      (fun x hx => hstop x (by simp [hx])) (by simpa using hfuel))

end Pool

namespace System

/-- A call; there is no result where the system does not go on. -/
def exec (s : System) (e : Event) : Option System :=
  let p := { s.pool with kmem := e.kmem }
  match e.call with
  | .edit bp cont rptr wptr le band flag =>
    some ⟨p.setMsgb bp ⟨cont, rptr, wptr, p.datap bp, band, flag, le⟩, s.held⟩
  | .retype bp type =>
    let d := p.datap bp
    some ⟨p.setDatab d { p.datab d with dbType := type }, s.held⟩
  | .write mem => some ⟨{ p with mem := mem }, s.held⟩
  | .allocb size =>
    let (r, q) := p.allocb size
    some ⟨q, r.toList ++ s.held⟩
  | .esballoc base size frRtn =>
    let (r, q) := p.esballoc base size frRtn
    some ⟨q, r.toList ++ s.held⟩
  | .dupb bp =>
    let (r, q) := p.dupb bp
    some ⟨q, r.toList ++ s.held⟩
  | .dupmsg bp => do
      let (r, q) ← p.dupmsg bp
      return ⟨q, (q.upto none r).reverse ++ s.held⟩
  | .copyb bp =>
    let (r, q) := p.copyb bp
    some ⟨q, r.toList ++ s.held⟩
  | .pullupmsg mp len => do
      let (_, q) ← p.pullupmsg mp len
      -- The blocks before the one that the first goes on with are freed.
      let gone := p.upto (q.cont mp) (some mp)
      return ⟨q, s.held.filter fun h => h = mp ∨ h ∉ gone⟩
  | .freeb bp => some ⟨p.freeb bp, s.held.erase bp⟩
  | .freemsg bp => do
      let q ← p.freemsg bp
      return ⟨q, s.held.filter fun h => h ∉ p.upto none bp⟩

/-- The blocks that can be reached from `bp` are live. -/
def Owned (s : System) (bp : Option Nat) : Prop :=
  ∀ l r, Chain s.pool.cont bp l r → ∀ c ∈ l, c ∈ s.held

def Admits (s : System) : Call → Prop
  | .edit bp _ _ _ _ _ _ | .retype bp _ | .dupb bp | .copyb bp | .freeb bp =>
    bp ∈ s.held
  | .dupmsg bp | .freemsg bp => s.Owned bp
  | .pullupmsg mp _ => s.Owned (some mp)
  | _ => True

def Start (s : System) : Prop :=
  s.held = [] ∧ s.pool.mdbs = [] ∧ s.pool.msgs = [] ∧ s.pool.mdbfreelist = [] ∧
    s.pool.msgfreelist = [] ∧ s.pool.log = []

def Step (s : System) (e : Event) (t : System) : Prop :=
  s.Admits e.call ∧ s.exec e = some t

/-- A message that is freed or duplicated ends, and `_DUPB` makes no count wrap. -/
def Safe (s : System) (e : Event) : Prop :=
  match e.call with
  | .freemsg bp => ∃ l, Chain s.pool.cont bp l none
  | .dupmsg bp => ∃ l, Chain s.pool.cont bp l none ∧ s.pool.DupSafe l
  | _ => True

def Sound (s : System) : Prop := Messages.Sound s.pool s.held

variable {s t : System} {e : Event}

theorem sound_of_start (hs : s.Start) : s.Sound := by
  rcases hs with ⟨hheld, hmdbs, hmsgs, hmdbfree, hmsgfree, hlog⟩
  unfold Sound
  rw [hheld]
  have hzero : refs [] (fun h => some (s.pool.datap h)) [] = fun _ => 0 := by
    funext d
    simp [refs]
  refine ⟨?_, by simp, by simp, by simp, ?_⟩
  · rw [hzero]
    constructor <;>
      simp [hmdbs, hmsgs, hmdbfree, hmsgfree, hlog, Pool.takings, Pool.releases]
  · intro d hd
    exact absurd rfl hd

theorem Sound.supply (hs : s.Sound) (k : List (Option Nat)) :
    Messages.Sound { s.pool with kmem := k } s.held :=
  Messages.Sound.congr hs rfl rfl rfl rfl rfl rfl rfl rfl rfl

theorem sound_of_gains {r : Option Nat}
    (hgain : Gains p held r q) : System.Sound ⟨q, r.toList ++ held⟩ := by
  cases r with
  | none => exact hgain.failed rfl
  | some t => exact (hgain.gained t rfl).2.1

theorem sound_of_dupmsg {r : Option Nat} (hres : DupResult p held l r q) :
    System.Sound ⟨q, (q.upto none r).reverse ++ held⟩ := by
  cases r with
  | none =>
    have hnone : q.upto none none = [] := by
      unfold Pool.upto
      cases q.nhdr <;> rfl
    rw [hnone]
    exact hres.1
  | some head =>
    rcases hres with ⟨dups, hdup⟩
    have hlen : dups.length ≤ q.nhdr := by
      apply hdup.sound.counted.length_le hdup.chain.nodup
      intro c hc
      exact List.mem_append_left _ (List.mem_reverse.mpr hc)
    have hall : q.upto none (some head) = dups :=
      Pool.uptoLoop_eq _ hdup.chain (by simp) hlen
    rw [hall]
    exact hdup.sound

theorem sound_of_pullupmsg {mp : Nat} {len : Int} {ok : Bool} (hp : Messages.Sound p held)
    (hheld : ∀ l r, Chain p.cont (some mp) l r → ∀ c ∈ l, c ∈ held)
    (hrun : p.pullupmsg mp len = some (ok, q)) : System.Sound ⟨q, held.filter fun h =>
      h = mp ∨ h ∉ p.upto (q.cont mp) (some mp)⟩ := by
  rcases hp.pullupmsg hheld hrun with ⟨gone, hgone, hfirst, hq⟩
  have hsame : held.filter (fun h => decide (h = mp ∨ h ∉ p.upto (q.cont mp) (some mp))) =
      held.filter fun h => decide (h = mp ∨ h ∉ gone) := by
    by_cases hend : ∀ c ∈ gone, some c ≠ q.cont mp
    · have hlen : gone.length ≤ p.nhdr :=
        hp.counted.length_le (hgone.nodup_of_end hend) (hheld _ _ hgone)
      have hall : p.upto (q.cont mp) (some mp) = gone :=
        Pool.uptoLoop_eq _ hgone hend hlen
      rw [hall]
    · -- The first block goes on with itself.
      have hone : gone = [mp] := hfirst.resolve_left hend
      subst hone
      have hself : some mp = q.cont mp := by
        by_contra hne
        exact hend (by simpa using hne)
      have hnil : p.upto (q.cont mp) (some mp) = [] := by
        unfold Pool.upto
        rw [← hself]
        cases p.nhdr with
        | zero => rfl
        | succ n => exact if_pos rfl
      rw [hnil]
      apply List.filter_congr
      intro h _
      by_cases hh : h = mp <;> simp [hh]
  rw [hsame]
  exact hq

theorem sound_of_step (hs : s.Sound) (hsafe : s.Safe e) (hstep : s.Step e t) :
    t.Sound := by
  rcases e with ⟨c, k⟩
  rcases hstep with ⟨hallow, hrun⟩
  have hp := hs.supply k
  cases c with
  | edit bp cont rptr wptr le band flag =>
    cases hrun
    exact hp.edit _ rfl
  | retype bp type =>
    cases hrun
    exact hp.editData _ rfl rfl rfl
  | write mem =>
    cases hrun
    exact hp.congr rfl rfl rfl rfl rfl rfl rfl rfl rfl
  | allocb size =>
    rcases hp.allocb size with ⟨r, q, hcall, hgain, _⟩
    unfold exec at hrun
    simp only [hcall, some.injEq] at hrun
    rw [← hrun]
    exact sound_of_gains hgain
  | esballoc base size frRtn =>
    rcases hp.esballoc base size frRtn with ⟨r, q, hcall, hgain, _⟩
    unfold exec at hrun
    simp only [hcall, some.injEq] at hrun
    rw [← hrun]
    exact sound_of_gains hgain
  | dupb bp =>
    rcases hp.dupb hallow with ⟨r, q, hcall, hgain, _⟩
    unfold exec at hrun
    simp only [hcall, some.injEq] at hrun
    rw [← hrun]
    exact sound_of_gains hgain
  | copyb bp =>
    rcases hp.copyb bp with ⟨r, q, hcall, hgain, _⟩
    unfold exec at hrun
    simp only [hcall, some.injEq] at hrun
    rw [← hrun]
    exact sound_of_gains hgain
  | dupmsg bp =>
    rcases hsafe with ⟨l, hl, hroom⟩
    rcases hp.dupmsg hl (hallow l none hl) hroom with ⟨r, q, hcall, _, hres⟩
    unfold exec at hrun
    simp only [hcall, bind_eq_bind, bind_some, pure_def, some.injEq] at hrun
    rw [← hrun]
    exact sound_of_dupmsg hres
  | pullupmsg mp len =>
    unfold exec at hrun
    simp only [bind_eq_bind, pure_def, bind_eq_some_iff] at hrun
    rcases hrun with ⟨⟨ok, q⟩, hcall, hrun⟩
    cases hrun
    exact sound_of_pullupmsg hp hallow hcall
  | freeb bp =>
    cases hrun
    exact hp.freeb hallow
  | freemsg bp =>
    rcases hsafe with ⟨l, hl⟩
    rcases hp.freemsg hl (hallow l none hl) with ⟨q, hcall, _, hq⟩
    have hall : Pool.upto { s.pool with kmem := k } none bp = l :=
      Pool.uptoLoop_eq _ hl (by simp) (hp.counted.length_le hl.nodup (hallow l none hl))
    unfold exec at hrun
    simp only [hcall, bind_eq_bind, bind_some, pure_def, some.injEq, hall] at hrun
    rw [← hrun]
    exact hq

theorem sound_of_reachable (hs : Transition.ReachableWhen Start Step Safe s) : s.Sound :=
  hs.invariant (fun _ => sound_of_start)
    fun _ _ _ hinv hsafe hstep => sound_of_step hinv hsafe hstep

end System

end Messages
end Svr4
