import Svr4.Lib.Chain
import Svr4.Lib.Transition

/-!
# Service procedures

The list of queues whose service procedures are to be run: `qenable` of `io/stream.c`,
`qdetach` and the loop of `queuerun` in `os/strsubr.c`.

A pass is a sequence of turns; what service procedures and interrupts enable meanwhile are
steps of their own, and so is what `qdetach` does before it looks at the list.
-/

namespace Svr4
namespace Scheduling

open Function List Transition Option

/-- A queue of a pair that `allocq` hands out. -/
structure Queue where
  pair : Nat
  write : Bool
deriving DecidableEq

structure System where
  qLink : Queue → Option Queue
  /-- `QENAB` -/
  qenab : Queue → Bool
  /-- whether there is a `qi_srvp` -/
  srvp : Queue → Bool
  qhead : Option Queue
  qtail : Option Queue
  /-- whether a pair is allocated -/
  inUse : Nat → Bool

inductive Event where
  /-- `qattach` up to the open routine; the service procedures of the two queues. -/
  | qattach (pair : Nat) (srvp : Bool → Bool)
  | qenable (q : Queue)
  /-- A turn of `queuerun` for the queue `q`. -/
  | service (q : Queue)
  /-- `qdetach` from where it looks at the list. -/
  | qdetach (pair : Nat) (clmode : Bool)

namespace System

def qattach (s : System) (pair : Nat) (srvp : Bool → Bool) : System :=
  { s with
    inUse := update s.inUse pair true
    qenab := fun q => if q.pair = pair then false else s.qenab q
    qLink := fun q => if q.pair = pair then none else s.qLink q
    srvp := fun q => if q.pair = pair then srvp q.write else s.srvp q }

/-- `qenable`; no result stands for the use of a null pointer. -/
def qenable (s : System) (q : Queue) : Option System :=
  if !s.srvp q || s.qenab q then some s
  else
    let s := { s with qenab := update s.qenab q true }
    match s.qhead, s.qtail with
    | none, _ => some { s with qhead := some q, qtail := some q, qLink := update s.qLink q none }
    | some _, some t => some { s with
        qtail := some q
        qLink := update (update s.qLink t (some q)) q none }
    | some _, none => none

/-- A turn of the loop in `queuerun`, up to the call of the service procedure. -/
def turn (s : System) (q : Queue) : System :=
  { s with
    qhead := s.qLink q
    qtail := if s.qLink q = none then none else s.qtail
    qenab := update s.qenab q false }

def remove (s : System) (prev : Option Queue) (q : Queue) : System :=
  { s with
    qLink := match prev with
      | some p => update s.qLink p (s.qLink q)
      | none => s.qLink
    qhead := match prev with
      | some _ => s.qhead
      | none => s.qLink q
    qtail := if s.qtail = some q then prev else s.qtail }

/-- The loop of `qdetach` from `q` on; no result means that it does not end. -/
def dequeue (pair : Nat) : Nat → Option Queue → Option Queue → System → Option System
  | _, none, _, s => some s
  | 0, some _, _, _ => none
  | fuel + 1, some q, prev, s =>
    if q.pair = pair then dequeue pair fuel ((s.remove prev q).qLink q) prev (s.remove prev q)
    else dequeue pair fuel (s.qLink q) (some q) s

def qdetach (fuel : Nat) (s : System) (pair : Nat) (clmode : Bool) : Option System := do
  let s ← if clmode && (s.qenab ⟨pair, false⟩ || s.qenab ⟨pair, true⟩) then
      dequeue pair fuel s.qhead none s
    else some s
  return { s with inUse := update s.inUse pair false }

def Step (s : System) (e : Event) (t : System) : Prop :=
  match e with
  | .qattach pair srvp => s.inUse pair = false ∧ t = s.qattach pair srvp
  | .qenable q => s.inUse q.pair = true ∧ s.qenable q = some t
  | .service q => s.qhead = some q ∧ t = s.turn q
  | .qdetach pair clmode => s.inUse pair = true ∧ ∃ fuel, s.qdetach fuel pair clmode = some t

def Start (s : System) : Prop := s.qhead = none ∧ s.qtail = none ∧ ∀ pair, s.inUse pair = false

/-- `qdetach` after an open that failed finds no enabled queue. -/
def Meets (s : System) : Event → Prop
  | .qdetach pair false => ∀ write, s.qenab ⟨pair, write⟩ = false
  | _ => True

structure Listed (s : System) (l : List Queue) : Prop where
  chain : Chain s.qLink s.qhead l none
  tail : s.qtail = l.getLast?
  mem : ∀ q, q ∈ l ↔ s.inUse q.pair = true ∧ s.qenab q = true
  srvp : ∀ q ∈ l, s.srvp q = true

def After : Event → List Queue → List Queue → Prop
  | .service q, l, l' => l = q :: l'
  | .qdetach pair true, l, l' => l' = l.filter fun q => q.pair ≠ pair
  | _, l, l' => l <+: l'

/-!
## Steps
-/

variable {s t : System} {l front rest : List Queue} {q : Queue} {pair : Nat}

theorem chain_head {np : Queue → Option Queue} {h : Option Queue} (hchain : Chain np h l none) :
    h = l.head? := by
  cases l with
  | nil => exact hchain
  | cons q rest => exact hchain.1

theorem link_of_chain {np : Queue → Option Queue} {h : Option Queue}
    (hchain : Chain np h (front ++ q :: rest) none) : np q = rest.head? := by
  rcases Chain.append_iff.mp hchain with ⟨_, _, _, hrest⟩
  exact chain_head hrest

theorem remove_spec (hchain : Chain s.qLink s.qhead (front ++ q :: rest) none)
    (htail : s.qtail = (front ++ q :: rest).getLast?) :
    let t := s.remove front.getLast? q
    Chain t.qLink t.qhead (front ++ rest) none ∧ t.qtail = (front ++ rest).getLast? ∧
      t.qLink q = rest.head? ∧ t.qenab = s.qenab ∧ t.srvp = s.srvp ∧ t.inUse = s.inUse := by
  have hlink := link_of_chain hchain
  have hlast : (if s.qtail = some q then front.getLast? else s.qtail) =
      (front ++ rest).getLast? := by
    cases rest with
    | nil => rw [htail, getLast?_concat, if_pos rfl, append_nil]
    | cons r rest =>
      have hne : (r :: rest).getLast? ≠ some q := by
        intro heq
        have hbehind := hchain.nodup.of_append_right
        exact (nodup_cons.mp hbehind).1 (mem_of_getLast? heq)
      have hsame : s.qtail = (r :: rest).getLast? := by
        rw [htail, getLast?_append_of_ne_nil _ (cons_ne_nil _ _), getLast?_cons_cons]
      rw [if_neg (hsame ▸ hne), hsame, getLast?_append_of_ne_nil _ (cons_ne_nil _ _)]
  rcases eq_nil_or_concat' front with rfl | ⟨before, p, rfl⟩
  · exact ⟨hchain.2, hlast, hlink, rfl, rfl, rfl⟩
  · have hne : q ≠ p := by
      rintro rfl
      have hnodup := hchain.nodup
      rw [append_assoc, singleton_append] at hnodup
      exact (nodup_cons.mp hnodup.of_append_right).1 mem_cons_self
    rw [getLast?_concat] at hlast ⊢
    exact ⟨hchain.bypass, hlast, (update_of_ne hne _ _).trans hlink, rfl, rfl, rfl⟩

variable (pair front) in
theorem dequeue_spec (fuel : Nat) (hchain : Chain s.qLink s.qhead (front ++ rest) none)
    (htail : s.qtail = (front ++ rest).getLast?) :
    let run := dequeue pair fuel rest.head? front.getLast? s
    (rest.length ≤ fuel → ∃ t, run = some t) ∧ ∀ t, run = some t →
      Chain t.qLink t.qhead (front ++ rest.filter fun q => q.pair ≠ pair) none ∧
      t.qtail = (front ++ rest.filter fun q => q.pair ≠ pair).getLast? ∧
      t.qenab = s.qenab ∧ t.srvp = s.srvp ∧ t.inUse = s.inUse := by
  induction rest generalizing s front fuel with
  | nil =>
    have hrun : dequeue pair fuel none front.getLast? s = some s := by
      cases fuel <;> rfl
    refine ⟨fun _ => ⟨s, hrun⟩, fun t ht => ?_⟩
    rw [← some.inj (hrun.symm.trans ht)]
    exact ⟨hchain, htail, rfl, rfl, rfl⟩
  | cons q rest ih =>
    cases fuel with
    | zero =>
      refine ⟨fun h => absurd h (Nat.not_succ_le_zero _), fun t ht => ?_⟩
      cases ht
    | succ fuel =>
      have hlink := link_of_chain hchain
      rw [head?_cons, dequeue, length_cons, Nat.succ_le_succ_iff]
      by_cases hq : q.pair = pair
      · rcases remove_spec hchain htail with ⟨hchain', htail', hlink', henab, hsrvp, huse⟩
        rw [if_pos hq, filter_cons_of_neg (by simpa using hq), hlink', ← henab, ← hsrvp, ← huse]
        exact ih _ _ hchain' htail'
      · rw [if_neg hq, filter_cons_of_pos (by simpa using hq), hlink]
        have hprev : (front ++ [q]).getLast? = some q := getLast?_concat
        rw [append_cons] at hchain htail ⊢
        rw [← hprev]
        exact ih _ _ hchain htail

theorem qenable_listed (hs : s.Listed l) (hq : s.inUse q.pair = true) :
    ∃ t l', s.qenable q = some t ∧ Listed t l' ∧ l <+: l' := by
  unfold qenable
  by_cases hskip : (!s.srvp q || s.qenab q) = true
  · exact ⟨s, l, if_pos hskip, hs, prefix_rfl⟩
  · rw [if_neg hskip]
    rw [Bool.not_eq_true, Bool.or_eq_false_iff, Bool.not_eq_false'] at hskip
    rcases hskip with ⟨hsrvp, hoff⟩
    have hfresh : q ∉ l := fun hmem => by
      have hon := ((hs.mem q).mp hmem).2
      rw [hoff] at hon
      cases hon
    have hmem : ∀ p, p ∈ l ++ [q] ↔ s.inUse p.pair = true ∧ update s.qenab q true p = true := by
      intro p
      rw [mem_append, mem_singleton, hs.mem p]
      by_cases hp : p = q
      · rw [hp, update_self]
        exact ⟨fun _ => ⟨hq, rfl⟩, fun _ => .inr rfl⟩
      · rw [update_of_ne hp]
        exact ⟨fun h => h.resolve_right hp, .inl⟩
    have hserve : ∀ p ∈ l ++ [q], s.srvp p = true := by
      intro p hp
      rcases mem_append.mp hp with hp | hp
      · exact hs.srvp p hp
      · rw [mem_singleton.mp hp]
        exact hsrvp
    cases l with
    | nil =>
      have hhead : s.qhead = none := hs.chain
      simp only [hhead]
      exact ⟨_, [q], rfl, ⟨⟨rfl, update_self _ _ _⟩, rfl, hmem, hserve⟩, nil_prefix⟩
    | cons h rest =>
      have hhead := hs.chain.1
      have htail := hs.tail
      cases hlast : (h :: rest).getLast? with
      | none => cases List.getLast?_eq_none_iff.mp hlast
      | some last =>
        rw [hlast] at htail
        have hne : last ≠ q := fun heq => hfresh (heq ▸ mem_of_getLast? hlast)
        have hsnoc := hs.chain.snoc hfresh hlast
        rw [update_comm hne.symm] at hsnoc
        simp only [hhead, htail]
        exact ⟨_, (h :: rest) ++ [q], rfl, ⟨hhead ▸ hsnoc, (getLast?_concat).symm, hmem, hserve⟩,
          prefix_append _ _⟩

theorem turn_listed (hs : s.Listed l) (hhead : s.qhead = some q) :
    ∃ rest, l = q :: rest ∧ Listed (s.turn q) rest := by
  cases l with
  | nil => cases hhead.symm.trans hs.chain
  | cons h rest =>
    have hnodup := nodup_cons.mp hs.chain.nodup
    have hchain := hs.chain
    have htail := hs.tail
    have hmem := hs.mem
    rcases hchain with ⟨hh, hrest⟩
    rw [hhead, some.injEq] at hh
    rw [← hh] at hnodup hrest htail hmem ⊢
    refine ⟨rest, rfl, hrest, ?_, fun p => ?_, fun p hp => hs.srvp p (mem_cons_of_mem h hp)⟩
    · have hlink := chain_head hrest
      show (if s.qLink q = none then none else s.qtail) = rest.getLast?
      cases rest with
      | nil => rw [hlink]; rfl
      | cons r rest => rw [hlink, if_neg (fun h => by cases h), htail, getLast?_cons_cons]
    · show p ∈ rest ↔ s.inUse p.pair = true ∧ update s.qenab q false p = true
      by_cases hp : p = q
      · rw [hp, update_self]
        exact ⟨fun h => absurd h hnodup.1, fun h => by cases h.2⟩
      · rw [update_of_ne hp, ← hmem p, mem_cons]
        exact ⟨.inr, fun h => h.resolve_left hp⟩

theorem qdetach_listed (hs : s.Listed l) (hq : s.inUse pair = true) :
    (∃ fuel t, s.qdetach fuel pair true = some t) ∧ ∀ fuel t, s.qdetach fuel pair true = some t →
      Listed t (l.filter fun q => q.pair ≠ pair) := by
  have hmem : ∀ q, q ∈ l.filter (fun q => q.pair ≠ pair) ↔
      update s.inUse pair false q.pair = true ∧ s.qenab q = true := by
    intro q
    rw [mem_filter, hs.mem q, decide_eq_true_eq]
    by_cases hp : q.pair = pair
    · rw [hp, update_self]
      exact ⟨fun h => absurd rfl h.2, fun h => by cases h.1⟩
    · rw [update_of_ne hp]
      exact ⟨And.left, fun h => ⟨h, hp⟩⟩
  have hserve : ∀ q ∈ l.filter (fun q => q.pair ≠ pair), s.srvp q = true :=
    fun q hq => hs.srvp q (mem_of_mem_filter hq)
  have hspec := fun fuel => dequeue_spec [] pair fuel hs.chain hs.tail
  rw [← chain_head hs.chain] at hspec
  simp only [qdetach, Bool.true_and]
  by_cases hon : (s.qenab ⟨pair, false⟩ || s.qenab ⟨pair, true⟩) = true
  · simp only [if_pos hon]
    constructor
    · rcases (hspec l.length).1 (Nat.le_refl _) with ⟨t, ht⟩
      exact ⟨l.length, _, congrArg (· >>= _) ht⟩
    · intro fuel t ht
      rcases Option.bind_eq_some_iff.mp ht with ⟨u, hu, htu⟩
      rcases (hspec fuel).2 u hu with ⟨hchain, htail, henab, hsrvp, huse⟩
      rw [← some.inj htu]
      rw [← henab, ← huse] at hmem
      rw [← hsrvp] at hserve
      exact ⟨hchain, htail, hmem, hserve⟩
  · simp only [if_neg hon]
    refine ⟨⟨0, _, rfl⟩, fun fuel t ht => ?_⟩
    have hall : l.filter (fun q => q.pair ≠ pair) = l := by
      rw [filter_eq_self]
      rintro ⟨p, write⟩ hmine
      rw [decide_eq_true_eq]
      rintro rfl
      have hflag := ((hs.mem _).mp hmine).2
      rw [Bool.not_eq_true, Bool.or_eq_false_iff] at hon
      cases write with
      | false => cases hon.1.symm.trans hflag
      | true => cases hon.2.symm.trans hflag
    rw [hall] at hmem hserve ⊢
    rw [← some.inj ht]
    exact ⟨hs.chain, hs.tail, hmem, hserve⟩

theorem qattach_listed {srvp : Bool → Bool} (hs : s.Listed l) (hfree : s.inUse pair = false) :
    Listed (s.qattach pair srvp) l := by
  have hother : ∀ q ∈ l, q.pair ≠ pair := by
    rintro q hq rfl
    cases hfree.symm.trans ((hs.mem q).mp hq).1
  refine ⟨hs.chain.congr fun q hq => if_neg (hother q hq), hs.tail, fun q => ?_, fun q hq => ?_⟩
  · show _ ↔ update s.inUse pair true q.pair = true ∧
      (if q.pair = pair then false else s.qenab q) = true
    by_cases hp : q.pair = pair
    · rw [if_pos hp]
      exact ⟨fun h => absurd hp (hother q h), fun h => by cases h.2⟩
    · rw [if_neg hp, update_of_ne hp, hs.mem q]
  · exact (if_neg (hother q hq)).trans (hs.srvp q hq)

theorem Listed.step {e : Event} (hs : s.Listed l) (hmeets : s.Meets e) (hstep : s.Step e t) :
    ∃ l', Listed t l' ∧ After e l l' := by
  cases e with
  | qattach pair srvp =>
    rcases hstep with ⟨hfree, rfl⟩
    exact ⟨l, qattach_listed hs hfree, prefix_rfl⟩
  | qenable q =>
    rcases qenable_listed hs hstep.1 with ⟨u, l', hrun, hlisted, hprefix⟩
    rw [some.inj (hstep.2.symm.trans hrun)]
    exact ⟨l', hlisted, hprefix⟩
  | service q =>
    rcases turn_listed hs hstep.1 with ⟨rest, hl, hlisted⟩
    rw [hstep.2]
    exact ⟨rest, hlisted, hl⟩
  | qdetach pair clmode =>
    rcases hstep with ⟨huse, fuel, hrun⟩
    cases clmode with
    | true => exact ⟨_, (qdetach_listed hs huse).2 fuel t hrun, rfl⟩
    | false =>
      refine ⟨l, ?_, prefix_rfl⟩
      rw [← some.inj hrun]
      refine ⟨hs.chain, hs.tail, fun q => ?_, hs.srvp⟩
      show _ ↔ update s.inUse pair false q.pair = true ∧ s.qenab q = true
      by_cases hp : q.pair = pair
      · have hoff := hmeets q.write
        rw [← hp] at hoff
        have hoff' : s.qenab q = false := hoff
        rw [hs.mem q, hoff']
        constructor <;> exact fun h => Bool.noConfusion h.2
      · rw [update_of_ne hp, hs.mem q]

/-!
## Passes
-/

/-- Events one after the other, all of which meet the condition. -/
inductive Passes : System → List Event → System → Prop
  | nil (s : System) : Passes s [] s
  | cons {s u t : System} {e : Event} {es : List Event} (hmeets : s.Meets e) (hstep : s.Step e u)
      (hrest : Passes u es t) : Passes s (e :: es) t

def isService : Event → Bool
  | .service _ => true
  | _ => false

variable {a b : List Queue} {es : List Event}

theorem After.keeps {e : Event} {l' : List Queue} (hafter : After e (a ++ q :: b) l')
    (hserve : e ≠ .service q) (hdetach : ∀ clmode, e ≠ .qdetach q.pair clmode) :
    ∃ a' b', l' = a' ++ q :: b' ∧ a'.length + (if isService e = true then 1 else 0) ≤ a.length := by
  have hbehind : ∀ {m : List Queue}, a ++ q :: b <+: m → ∃ a' b', m = a' ++ q :: b' ∧
      a'.length + 0 ≤ a.length := by
    rintro _ ⟨r, rfl⟩
    exact ⟨a, b ++ r, by rw [append_assoc, cons_append], Nat.le_refl _⟩
  cases e with
  | qattach pair srvp => exact hbehind hafter
  | qenable p => exact hbehind hafter
  | service p =>
    have hl : a ++ q :: b = p :: l' := hafter
    cases a with
    | nil =>
      rw [nil_append, List.cons.injEq] at hl
      exact absurd (congrArg Event.service hl.1.symm) hserve
    | cons x a =>
      rw [cons_append, List.cons.injEq] at hl
      exact ⟨a, b, hl.2.symm, Nat.le_refl _⟩
  | qdetach pair clmode =>
    cases clmode with
    | true =>
      have hp : q.pair ≠ pair := fun heq => hdetach true (congrArg (Event.qdetach · true) heq.symm)
      refine ⟨a.filter fun p => p.pair ≠ pair, b.filter fun p => p.pair ≠ pair, ?_,
        length_filter_le _ a⟩
      rw [show l' = _ from hafter, filter_append, filter_cons_of_pos (by simpa using hp)]
    | false => exact hbehind hafter

theorem Passes.serves (hrun : Passes s es t) (hs : s.Listed (a ++ q :: b)) :
    .service q ∈ es ∨ (∃ clmode, .qdetach q.pair clmode ∈ es) ∨
      ∃ a' b', t.Listed (a' ++ q :: b') ∧ a'.length + es.countP isService ≤ a.length := by
  induction hrun generalizing a b with
  | nil s => exact .inr (.inr ⟨a, b, hs, Nat.le_refl _⟩)
  | @cons s u t e es hmeets hstep hrest ih =>
    by_cases hserve : e = .service q
    · exact .inl (hserve ▸ mem_cons_self)
    · by_cases hdetach : ∃ clmode, e = .qdetach q.pair clmode
      · rcases hdetach with ⟨clmode, rfl⟩
        exact .inr (.inl ⟨clmode, mem_cons_self⟩)
      · rcases hs.step hmeets hstep with ⟨l', hlisted, hafter⟩
        rcases hafter.keeps hserve (not_exists.mp hdetach) with ⟨a', b', rfl, hle⟩
        rcases ih hlisted with hmem | ⟨clmode, hmem⟩ | ⟨c, d, ht, hcount⟩
        · exact .inl (mem_cons_of_mem e hmem)
        · exact .inr (.inl ⟨clmode, mem_cons_of_mem e hmem⟩)
        · refine .inr (.inr ⟨c, d, ht, ?_⟩)
          rw [countP_cons]
          omega

/-- The run list in every run in which `qdetach` after a failed open finds no enabled queue:
it holds the enabled queues, each once, its routines end, and a pass serves what is on it. -/
theorem run_list_exact (s : System) : (ReachableWhen Start Step Meets s → ∃ l, s.Listed l ∧ l.Nodup ∧
      (∀ q, s.inUse q.pair = true → ∃ t, s.Step (.qenable q) t) ∧
      ∀ pair clmode, s.inUse pair = true → ∃ t, s.Step (.qdetach pair clmode) t) ∧
    ∀ l es t, s.Listed l → Passes s es t → ∀ q ∈ l,
      .service q ∈ es ∨ (∃ clmode, .qdetach q.pair clmode ∈ es) ∨
        t.qhead ≠ none ∧ es.countP isService < l.length := by
  constructor
  · intro hs
    have hlisted : ∃ l, s.Listed l := by
      refine hs.invariant (I := fun s => ∃ l, s.Listed l) ?_ ?_
      · rintro s ⟨hhead, htail, hfree⟩
        refine ⟨[], hhead, htail, fun q => ?_, fun q hq => absurd hq not_mem_nil⟩
        rw [hfree]
        exact ⟨fun h => absurd h not_mem_nil, fun h => Bool.noConfusion h.1⟩
      · rintro s e t ⟨l, hl⟩ hmeets hstep
        rcases hl.step hmeets hstep with ⟨l', hl', _⟩
        exact ⟨l', hl'⟩
    rcases hlisted with ⟨l, hl⟩
    refine ⟨l, hl, hl.chain.nodup, fun q hq => ?_, fun pair clmode hq => ?_⟩
    · rcases qenable_listed hl hq with ⟨t, _, ht, _⟩
      exact ⟨t, hq, ht⟩
    · cases clmode with
      | true =>
        rcases (qdetach_listed hl hq).1 with ⟨fuel, t, ht⟩
        exact ⟨t, hq, fuel, ht⟩
      | false => exact ⟨_, hq, 0, rfl⟩
  · intro l es t hl hrun q hq
    rcases append_of_mem hq with ⟨a, b, rfl⟩
    rcases hrun.serves hl with hserve | hdetach | ⟨c, d, ht, hcount⟩
    · exact .inl hserve
    · exact .inr (.inl hdetach)
    · refine .inr (.inr ⟨?_, ?_⟩)
      · rw [chain_head ht.chain]
        cases c <;> exact fun h => by cases h
      · rw [length_append, length_cons]
        omega

/-- A module whose open routine enables its queue and fails, and the next one that is attached. -/
theorem failed_open_listed : ∃ s, Reachable Start Step s ∧ s.qhead = some ⟨0, false⟩ ∧
    s.inUse 0 = true ∧ s.qenab ⟨0, false⟩ = false := by
  let s : System := ⟨fun _ => none, fun _ => false, fun _ => false, none, none, fun _ => false⟩
  have hstart : Reachable Start Step s := Reachable.start ⟨rfl, rfl, fun _ => rfl⟩
  have hopen := hstart.next (e := Event.qattach 0 fun _ => true) ⟨rfl, rfl⟩
  have hon := hopen.next (e := Event.qenable ⟨0, false⟩) ⟨rfl, rfl⟩
  have hfail := hon.next (e := Event.qdetach 0 false) ⟨rfl, 0, rfl⟩
  have hagain := hfail.next (e := Event.qattach 0 fun _ => true) ⟨rfl, rfl⟩
  exact ⟨_, hagain, rfl, rfl, rfl⟩

end System
end Scheduling
end Svr4
