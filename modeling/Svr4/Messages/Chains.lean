import Mathlib.Data.List.Perm.Subperm
import Svr4.Messages.Routines

/-!
# Routines on messages

A message is a chain of blocks through `b_cont`.  `freemsg` gives up
the blocks of a message one after the other, and `dupmsg` duplicates them.
-/

namespace Svr4
namespace Messages

open Function List

variable {held l dups F done rest : List Nat}

theorem Counted.length_le {p : Pool} {n : Nat → Nat} (hp : Counted p held n) (hl : l.Nodup)
    (hsub : ∀ c ∈ l, c ∈ held) : l.length ≤ p.nhdr := by
  have hmem : l ⊆ p.mdbs ++ p.msgs := by
    intro c hc
    exact mem_append.mpr (hp.known c (hsub c hc))
  have hle := (hl.subperm hmem).length_le
  rwa [length_append] at hle

variable {c nbp head : Nat}

theorem filter_erase (hheld : held.Nodup) :
    (held.erase c).filter (fun h => h ∉ l) = held.filter fun h => h ∉ c :: l := by
  rw [hheld.erase_eq_filter, filter_filter]
  apply filter_congr
  intro h _
  by_cases hc : h = c <;> simp [hc]

variable {bp : Option Nat}

namespace Sound

variable {p q : Pool} {held : List Nat}

/-!
## Freeing
-/

theorem freemsgLoop (fuel : Nat) (hp : Sound p held) (hl : Chain p.cont bp l none)
    (hheld : ∀ c ∈ l, c ∈ held) (hfuel : l.length ≤ fuel) :
    ∃ q, Pool.freemsgLoop fuel p bp = some q ∧ q.msgb = p.msgb ∧
      Sound q (held.filter fun h => h ∉ l) := by
  induction l generalizing p held bp fuel with
  | nil =>
    subst hl
    refine ⟨p, by cases fuel <;> rfl, rfl, ?_⟩
    simpa using hp
  | cons c rest ih =>
    obtain ⟨fuel', rfl⟩ : ∃ n, fuel = n + 1 :=
      ⟨fuel - 1, by simp only [length_cons] at hfuel; omega⟩
    have hnodup := hl.nodup
    rcases hl with ⟨rfl, hrest⟩
    rw [nodup_cons] at hnodup
    have hmsgb : (p.freeb c).msgb = p.msgb := Pool.msgb_freeb p c
    have hcont : (p.freeb c).cont = p.cont := by
      funext x
      exact Pool.cont_of_msgb (by rw [hmsgb])
    have hrest' : Chain (p.freeb c).cont (p.cont c) rest none := by
      rw [hcont]
      exact hrest
    have hheld' : ∀ x ∈ rest, x ∈ held.erase c := by
      intro x hx
      have hne : x ≠ c := ne_of_mem_of_not_mem hx hnodup.1
      exact (mem_erase_of_ne hne).mpr (hheld x (by simp [hx]))
    rcases ih fuel' (hp.freeb (hheld c (by simp))) hrest' hheld'
      (by simpa using hfuel) with ⟨q, hrun, hsame, hq⟩
    refine ⟨q, hrun, hsame.trans hmsgb, ?_⟩
    rwa [filter_erase hp.counted.held_nodup] at hq

theorem freemsg (hp : Sound p held) (hl : Chain p.cont bp l none) (hheld : ∀ c ∈ l, c ∈ held) :
    ∃ q, p.freemsg bp = some q ∧ q.msgb = p.msgb ∧ Sound q (held.filter fun h => h ∉ l) :=
  hp.freemsgLoop p.nhdr hl hheld (hp.counted.length_le hl.nodup hheld)

end Sound

/-!
## Duplicating
-/

/--
The reference counts leave room for a duplicate of the message: where the macro
takes a header from the free list, the count is not at its largest value.
-/
def Pool.DupSafe (p : Pool) (l : List Nat) : Prop :=
  ∀ done c rest, l = done ++ c :: rest → done.length < p.msgfreelist.length → p.ref (p.datap c) +
      done.countP (fun b => decide (p.datap b = p.datap c)) ≠ 255

/-- Blocks `dups` are duplicates of `done` in a pool that was `p`. -/
structure Duplicated (p : Pool) (held : List Nat) (q : Pool) (head : Nat)
    (done dups : List Nat) : Prop where
  sound : Sound q (dups.reverse ++ held)
  msgb : ∀ h ∈ held, q.msgb h = p.msgb h
  chain : Chain q.cont (some head) dups none
  datap : dups.map q.datap = done.map p.datap
  free : q.msgfreelist = p.msgfreelist.drop done.length

namespace Pool

theorem msgfreelist_xmsgalloc (p : Pool) : p.xmsgalloc.2.msgfreelist = p.msgfreelist := by
  unfold xmsgalloc
  cases hk : p.kmemAlloc sizeofMbinfo with
  | mk r q =>
    rcases kmemAlloc_eq hk with ⟨k, rfl⟩
    cases r <;> rfl

theorem msgfreelist_dupbMacro (p : Pool) (bp : Nat) :
    (p.dupbMacro bp).2.msgfreelist = p.msgfreelist.tail := by
  unfold dupbMacro
  cases hfree : p.msgfreelist with
  | cons nbp rest => rfl
  | nil =>
    have hx := p.msgfreelist_xmsgalloc
    rw [hfree] at hx
    change (p.dupb bp).2.msgfreelist = []
    unfold dupb
    split
    · exact hfree
    · rw [takeMsgblock_nil hfree]
      split
      · rename_i heq
        rw [heq] at hx
        exact hx
      · rename_i heq
        rw [heq] at hx
        exact hx

@[simp] theorem cont_setCont (p : Pool) (bp : Nat) (c : Option Nat) :
    (p.setCont bp c).cont = update p.cont bp c := by
  funext x
  by_cases hx : x = bp <;> simp [cont, setCont, setMsgb, hx]

@[simp] theorem datap_setCont (p : Pool) (bp : Nat) (c : Option Nat) :
    (p.setCont bp c).datap = p.datap := by
  funext x
  by_cases hx : x = bp <;> simp [datap, setCont, setMsgb, hx]

theorem msgb_setCont_of_ne (p : Pool) {bp x : Nat} (c : Option Nat)
    (hx : x ≠ bp) : (p.setCont bp c).msgb x = p.msgb x :=
  update_of_ne hx _ _

end Pool

theorem Sound.not_held {q : Pool} (hq : Sound q (dups.reverse ++ held)) : ∀ t ∈ dups, t ∉ held := by
  intro t ht hh
  have hnodup := hq.counted.held_nodup
  rw [nodup_append] at hnodup
  exact hnodup.2.2 t (mem_reverse.mpr ht) t hh rfl

theorem last_not_mem (h : (F ++ [nbp]).Nodup) : nbp ∉ F := by
  rw [nodup_append] at h
  exact fun hmem => h.2.2 nbp hmem nbp (by simp) rfl

theorem Sound.giveUp {q : Pool} (hq : Sound q ((F ++ [nbp]).reverse ++ held))
    (hchain : Chain q.cont (some head) (F ++ [nbp]) none) :
    ∃ r, (q.setCont nbp none).freemsg (some head) = some r ∧ Sound r held ∧
      ∀ h ∈ held, r.msgb h = q.msgb h := by
  have hchain' : Chain (q.setCont nbp none).cont (some head) (F ++ [nbp])
      none := by
    rw [Pool.cont_setCont]
    exact hchain.redirect (last_not_mem hchain.nodup)
  have hsound : Sound (q.setCont nbp none) ((F ++ [nbp]).reverse ++ held) :=
    hq.edit _ rfl
  rcases hsound.freemsg hchain' (fun c hc =>
    mem_append_left _ (mem_reverse.mpr hc)) with ⟨r, hrun, hmsgb, hr⟩
  have hback : ((F ++ [nbp]).reverse ++ held).filter (fun h => h ∉ F ++ [nbp]) =
      held := by
    rw [filter_append, filter_eq_nil_iff.mpr, nil_append, filter_eq_self.mpr]
    · intro h hh
      exact decide_eq_true fun hmem => hq.not_held h hmem hh
    · intro h hh
      simpa only [decide_eq_true_eq, not_not] using mem_reverse.mp hh
  rw [hback] at hr
  refine ⟨r, hrun, hr, ?_⟩
  intro h hh
  rw [hmsgb, Pool.msgb_setCont_of_ne]
  rintro rfl
  exact hq.not_held h (by simp) hh

namespace Duplicated

variable {p q : Pool} {held done dups : List Nat} {head : Nat}

theorem countP_map (hq : Duplicated p held q head done dups) (d : Nat) :
    dups.countP (fun b => decide (q.datap b = d)) =
      done.countP fun b => decide (p.datap b = d) := by
  have hcount := congrArg (List.countP fun e => decide (e = d)) hq.datap
  rw [List.countP_map, List.countP_map] at hcount
  exact hcount

theorem ref_eq (hp : Sound p held) (hq : Duplicated p held q head done dups) (hc : c ∈ held) :
    q.ref (q.datap c) = p.ref (p.datap c) +
      done.countP fun b => decide (p.datap b = p.datap c) := by
  have hsame : q.datap c = p.datap c := Pool.datap_of_msgb (hq.msgb c hc)
  rw [hq.sound.ref_eq (mem_append_right _ hc), hp.ref_eq hc, hsame]
  have hheld : held.countP (fun h => decide (some (q.datap h) = some (p.datap c))) =
      held.countP fun h => decide (some (p.datap h) = some (p.datap c)) := by
    apply countP_congr
    intro h hh
    rw [Pool.datap_of_msgb (hq.msgb h hh)]
  have hdups : dups.reverse.countP (fun h => decide (some (q.datap h) = some (p.datap c))) =
      done.countP fun b => decide (p.datap b = p.datap c) := by
    rw [countP_reverse, ← hq.countP_map]
    simp only [Option.some.injEq]
  unfold refs
  rw [countP_append, hdups, hheld]
  simp only [count_nil]
  omega

theorem step {n : Nat} {q' : Pool} (hq : Duplicated p held q head done (F ++ [nbp]))
    (hc : c ∈ held) (hrun : q.dupbMacro c = (some n, q'))
    (hgain : Gains q ((F ++ [nbp]).reverse ++ held) (some n) q') (hdatap : q'.datap n = q.datap c) :
    Duplicated p held (q'.setCont nbp (some n)) head (done ++ [c]) (F ++ [nbp] ++ [n]) := by
  have hnew := hgain.gained n rfl
  have hin : ∀ t ∈ F ++ [nbp], t ∈ (F ++ [nbp]).reverse ++ held := by
    intro t ht
    exact mem_append_left _ (mem_reverse.mpr ht)
  have hne : n ≠ nbp := by
    rintro rfl
    exact hnew.1 (hin n (by simp))
  have hheld : ∀ h ∈ held, h ≠ nbp := by
    rintro h hh rfl
    exact hq.sound.not_held h (by simp) hh
  refine ⟨?_, ?_, ?_, ?_, ?_⟩
  · have hsound : Sound (q'.setCont nbp (some n))
        (n :: ((F ++ [nbp]).reverse ++ held)) := hnew.2.1.edit _ rfl
    simpa using hsound
  · intro h hh
    rw [Pool.msgb_setCont_of_ne _ _ (hheld h hh), hgain.msgb h (mem_append_right _ hh)]
    exact hq.msgb h hh
  · rw [Pool.cont_setCont]
    apply Chain.append_iff.mpr
    refine ⟨some n, ?_, rfl, ?_⟩
    · refine Chain.redirect (m := none) ?_ (last_not_mem hq.chain.nodup)
      exact hq.chain.congr fun t ht => Pool.cont_of_msgb (hgain.msgb t (hin t ht))
    · rw [update_of_ne hne]
      exact hnew.2.2
  · have hold : (F ++ [nbp]).map q'.datap = (F ++ [nbp]).map q.datap := by
      apply map_congr_left
      intro t ht
      exact Pool.datap_of_msgb (hgain.msgb t (hin t ht))
    have hcp : q.datap c = p.datap c := Pool.datap_of_msgb (hq.msgb c hc)
    rw [Pool.datap_setCont, map_append, hold, hq.datap, map_append]
    simp [hdatap, hcp]
  · have hfree := q.msgfreelist_dupbMacro c
    rw [hrun, hq.free] at hfree
    change q'.msgfreelist = _
    rw [hfree, tail_drop, length_append, length_singleton]

end Duplicated

def DupResult (p : Pool) (held l : List Nat) (r : Option Nat) (q : Pool) : Prop :=
  match r with
  | none => Sound q held ∧ ∀ h ∈ held, q.msgb h = p.msgb h
  | some head => ∃ dups, Duplicated p held q head l dups

namespace Sound

variable {p q : Pool} {held : List Nat}

theorem room (hp : Sound p held) (hsafe : p.DupSafe l) (hq : Duplicated p held q head done dups)
    (hl : l = done ++ c :: rest) (hc : c ∈ held) :
    q.msgfreelist ≠ [] → q.ref (q.datap c) ≠ 255 := by
  intro hfree
  rw [hq.ref_eq hp hc]
  apply hsafe done c rest hl
  rw [hq.free, Ne, drop_eq_nil_iff] at hfree
  omega

theorem dupmsgLoop {bp : Nat} (fuel : Nat) (hp : Sound p held) (hsafe : p.DupSafe l)
    (hbp : bp ∈ held) (hq : Duplicated p held q head done (F ++ [nbp])) (hl : l = done ++ rest)
    (hrest : Chain p.cont (p.cont bp) rest none) (hheld : ∀ c ∈ rest, c ∈ held)
    (hfuel : rest.length ≤ fuel) :
    ∃ r q', Pool.dupmsgLoop head fuel q nbp bp = some (r, q') ∧ DupResult p held l r q' := by
  induction rest generalizing q done F nbp bp fuel with
  | nil =>
    have hcont : q.cont bp = none := by
      rw [Pool.cont_of_msgb (hq.msgb bp hbp)]
      exact hrest
    refine ⟨some head, q, ?_, F ++ [nbp], ?_⟩
    · unfold Pool.dupmsgLoop
      rw [hcont]
    · rw [hl, append_nil]
      exact hq
  | cons c rest ih =>
    obtain ⟨fuel', rfl⟩ : ∃ n, fuel = n + 1 :=
      ⟨fuel - 1, by simp only [length_cons] at hfuel; omega⟩
    rcases hrest with ⟨hcont, hrest⟩
    have hc : c ∈ held := hheld c (by simp)
    have hcont' : q.cont bp = some c := by
      rw [Pool.cont_of_msgb (hq.msgb bp hbp)]
      exact hcont
    rcases hq.sound.dupbMacro (mem_append_right _ hc)
      (hp.room hsafe hq hl hc) with ⟨r, q', hrun, hgain, hdatap⟩
    cases r with
    | none =>
      have hin : ∀ t ∈ F ++ [nbp], t ∈ (F ++ [nbp]).reverse ++ held := by
        intro t ht
        exact mem_append_left _ (mem_reverse.mpr ht)
      have hchain : Chain q'.cont (some head) (F ++ [nbp]) none :=
        hq.chain.congr fun t ht =>
          Pool.cont_of_msgb (hgain.msgb t (hin t ht))
      rcases (hgain.failed rfl).giveUp hchain with ⟨r, hfree, hr, hmsgb⟩
      refine ⟨none, r, ?_, hr, ?_⟩
      · unfold Pool.dupmsgLoop
        rw [hcont']
        simp only [hrun]
        rw [hfree]
        rfl
      · intro h hh
        rw [hmsgb h hh, hgain.msgb h (mem_append_right _ hh)]
        exact hq.msgb h hh
    | some n =>
      have hstep := hq.step hc hrun hgain (hdatap n rfl)
      have hnext : l = (done ++ [c]) ++ rest := by rw [hl]; simp
      rcases ih fuel' hc hstep hnext hrest
        (fun x hx => hheld x (by simp [hx])) (by simpa using hfuel) with
        ⟨r, q'', hloop, hres⟩
      refine ⟨r, q'', ?_, hres⟩
      unfold Pool.dupmsgLoop
      rw [hcont']
      simp only [hrun]
      exact hloop

theorem dupmsg (hp : Sound p held) (hl : Chain p.cont bp l none) (hheld : ∀ c ∈ l, c ∈ held)
    (hsafe : p.DupSafe l) :
    ∃ r q, p.dupmsg bp = some (r, q) ∧ (bp = none → r = none) ∧ DupResult p held l r q := by
  cases l with
  | nil =>
    subst hl
    exact ⟨none, p, rfl, fun _ => rfl, hp, fun _ _ => rfl⟩
  | cons c rest =>
    rcases hl with ⟨rfl, hrest⟩
    have hc : c ∈ held := hheld c (by simp)
    have hroom : p.msgfreelist ≠ [] → p.ref (p.datap c) ≠ 255 := by
      intro hfree
      have hpos := length_pos_iff.mpr hfree
      have hlimit := hsafe [] c rest rfl hpos
      simpa using hlimit
    rcases hp.dupbMacro hc hroom with ⟨r, q, hrun, hgain, hdatap⟩
    unfold Pool.dupmsg
    simp only [hrun]
    cases r with
    | none =>
      exact ⟨none, q, rfl, by simp, hgain.failed rfl, hgain.msgb⟩
    | some head =>
      have hnew := hgain.gained head rfl
      have hfirst : Duplicated p held q head [c] ([] ++ [head]) := by
        refine ⟨hnew.2.1, hgain.msgb, ⟨rfl, hnew.2.2⟩, ?_, ?_⟩
        · simp [hdatap head rfl]
        · have hfree := p.msgfreelist_dupbMacro c
          rw [hrun] at hfree
          rw [hfree, length_singleton, drop_one]
      have hroom : rest.length ≤ q.nhdr := by
        apply hnew.2.1.counted.length_le hrest.nodup
        intro x hx
        exact mem_cons_of_mem _ (hheld x (by simp [hx]))
      rcases hp.dupmsgLoop q.nhdr hsafe hc hfirst rfl hrest
        (fun x hx => hheld x (by simp [hx])) hroom with ⟨r, q', hloop, hres⟩
      exact ⟨r, q', hloop, by simp, hres⟩

end Sound

end Messages
end Svr4
