import Mathlib.Data.List.Count
import Svr4.Messages.Model

/-!
# Ties between headers and data blocks

The invariant of the message block pool.  Somebody holds every header that is
not free; a held header may be tied to a data block, and there may be further
references to data blocks in the middle of a routine.  The routines are built
from steps that give up a header, give up a reference, or move one.
-/

namespace Svr4
namespace Messages

open Function List Option

/-- The references to a data block, from held headers and others. -/
def refs (held : List Nat) (dat : Nat → Option Nat) (extra : List Nat)
    (t : Nat) : Nat :=
  held.countP (fun h => decide (dat h = some t)) + extra.count t

def Entry.isTaken (t : Nat) : Entry → Bool
  | .taken d => d = t
  | _ => false

def Entry.isReleased (t : Nat) : Entry → Bool
  | .released d _ => d = t
  | _ => false

def Pool.takings (p : Pool) (t : Nat) : Nat := p.log.countP (Entry.isTaken t)

def Pool.releases (p : Pool) (t : Nat) : Nat :=
  p.log.countP (Entry.isReleased t)

def Pool.ref (p : Pool) (t : Nat) : Nat := (p.datab t).dbRef

def Pool.iswhat (p : Pool) (t : Nat) : Iswhat := (p.datab t).dbIswhat

def Pool.msgaddr (p : Pool) (t : Nat) : Nat := (p.datab t).dbMsgaddr

/--
The headers `held` are held and data block `t` has `n t`
references: the free lists, the reference counts and the states of the triplets
agree with that.
-/
structure Counted (p : Pool) (held : List Nat) (n : Nat → Nat) : Prop where
  lt : ∀ t ∈ p.mdbs ++ p.msgs, t < p.nhdr
  nodup : (p.mdbs ++ p.msgs).Nodup
  held_nodup : held.Nodup
  known : ∀ h ∈ held, h ∈ p.mdbs ∨ h ∈ p.msgs
  mdb_nodup : p.mdbfreelist.Nodup
  msg_nodup : p.msgfreelist.Nodup
  msgfree : ∀ h, h ∈ p.msgfreelist ↔ h ∈ p.msgs ∧ h ∉ held
  mdbfree : ∀ t, t ∈ p.mdbfreelist ↔ t ∈ p.mdbs ∧ t ∉ held ∧ n t = 0
  zero : ∀ t, t ∉ p.mdbs → n t = 0
  ref : ∀ t ∈ p.mdbs, n t ≠ 0 → p.ref t = n t
  small : ∀ t, n t < 256
  notM : ∀ t ∈ p.mdbs, t ∉ p.mdbfreelist → (p.iswhat t = .notM ↔ t ∉ held)
  notD : ∀ t ∈ p.mdbs, t ∉ p.mdbfreelist → (p.iswhat t = .notD ↔ n t = 0)
  life : ∀ t, p.takings t = p.releases t + if n t = 0 then 0 else 1

/--
Beside that, the headers with data are tied to it by `dat`, and there are
references `extra` besides.
-/
structure Tied (p : Pool) (held : List Nat) (dat : Nat → Option Nat)
    (extra : List Nat) : Prop where
  counted : Counted p held (refs held dat extra)
  data : ∀ h ∈ held, ∀ d, dat h = some d → d ∈ p.mdbs
  others : ∀ d ∈ extra, d ∈ p.mdbs
  msgaddr : ∀ h ∈ held, ∀ d, dat h = some d → (p.msgaddr d = h ↔ h ∈ p.mdbs)
  addr : ∀ d, refs held dat extra d ≠ 0 → p.msgaddr d ∈ p.mdbs

variable {dat' : Nat → Option Nat}

section Refs

variable {held extra : List Nat} {dat : Nat → Option Nat} {h d t : Nat}

theorem refs_congr {e : List Nat} (hd : ∀ h ∈ held, dat' h = dat h)
    (t : Nat) : refs held dat' e t = refs held dat e t := by
  unfold refs
  congr 1
  apply countP_congr
  intro x hx
  rw [hd x hx]

theorem refs_perm {held' : List Nat} (hp : held.Perm held') (t : Nat) :
    refs held dat extra t = refs held' dat extra t := by
  unfold refs
  rw [hp.countP_eq]

theorem refs_cons (held : List Nat) (dat : Nat → Option Nat) (extra : List Nat) (h t : Nat) :
    refs (h :: held) dat extra t = refs held dat extra t + if dat h = some t then 1 else 0 := by
  unfold refs
  rw [countP_cons]
  simp only [decide_eq_true_eq]
  omega

theorem refs_extra (held : List Nat) (dat : Nat → Option Nat) (extra : List Nat) (d t : Nat) :
    refs held dat (d :: extra) t = refs held dat extra t + if d = t then 1 else 0 := by
  unfold refs
  rw [count_cons]
  simp only [beq_iff_eq]
  omega

theorem refs_erase (hh : h ∈ held) (hd : dat h = some d) (t : Nat) :
    refs (held.erase h) dat (d :: extra) t = refs held dat extra t := by
  rw [refs_perm (perm_cons_erase hh) t, refs_cons, refs_extra, hd]
  simp only [some.injEq]

theorem refs_erase_none (hh : h ∈ held) (hd : dat h = none) (t : Nat) :
    refs (held.erase h) dat extra t = refs held dat extra t := by
  rw [refs_perm (perm_cons_erase hh) t, refs_cons, hd]
  simp

theorem dat_update {f : Nat → Option Nat} {n : held.Nodup} (v : Option Nat) :
    ∀ x ∈ held.erase h, update f h v x = f x := by
  intro x hx
  exact update_of_ne ((n.mem_erase_iff.mp hx).1) _ _

theorem refs_detach (hnodup : held.Nodup) (hh : h ∈ held) (hd : dat h = some d) (t : Nat) :
    refs held (update dat h none) (d :: extra) t = refs held dat extra t := by
  have hsame := refs_congr (e := d :: extra) (dat_update (h := h) (f := dat) (n := hnodup) none) t
  rw [← refs_erase_none hh (by simp), hsame, refs_erase hh hd]

theorem refs_pos_of_mem (hh : h ∈ held) (hd : dat h = some d) : refs held dat extra d ≠ 0 := by
  unfold refs
  have : 0 < held.countP fun h => decide (dat h = some d) :=
    countP_pos_iff.mpr ⟨h, hh, by simpa using hd⟩
  omega

end Refs

/-!
## Fields
-/

namespace Pool

section

variable (p : Pool) (t : Nat)
include p t

@[simp] theorem ref_setIswhat (w : Iswhat) :
    (p.setIswhat t w).ref = p.ref := by
  funext x
  by_cases h : x = t <;> simp [ref, setIswhat, setDatab, h]

@[simp] theorem iswhat_setIswhat (w : Iswhat) :
    (p.setIswhat t w).iswhat = update p.iswhat t w := by
  funext x
  by_cases h : x = t <;> simp [iswhat, setIswhat, setDatab, h]

@[simp] theorem msgaddr_setIswhat (w : Iswhat) :
    (p.setIswhat t w).msgaddr = p.msgaddr := by
  funext x
  by_cases h : x = t <;> simp [msgaddr, setIswhat, setDatab, h]

@[simp] theorem ref_setRef (r : Int) :
    (p.setRef t r).ref = update p.ref t (uchar r) := by
  funext x
  by_cases h : x = t <;> simp [ref, setRef, setDatab, h]

@[simp] theorem iswhat_setRef (r : Int) :
    (p.setRef t r).iswhat = p.iswhat := by
  funext x
  by_cases h : x = t <;> simp [iswhat, setRef, setDatab, h]

@[simp] theorem msgaddr_setRef (r : Int) :
    (p.setRef t r).msgaddr = p.msgaddr := by
  funext x
  by_cases h : x = t <;> simp [msgaddr, setRef, setDatab, h]

end

theorem takings_note (p : Pool) (e : Entry) (t : Nat) :
    (p.note e).takings t = p.takings t + if e.isTaken t then 1 else 0 := by
  simp [takings, note, countP_append, countP_singleton]

theorem releases_note (p : Pool) (e : Entry) (t : Nat) :
    (p.note e).releases t = p.releases t + if e.isReleased t then 1 else 0 := by
  simp [releases, note, countP_append, countP_singleton]

end Pool

namespace Counted

variable {p q : Pool} {held : List Nat} {n : Nat → Nat} {t : Nat}

section

variable (hp : Counted p held n)
include hp

theorem not_free (h : n t ≠ 0) : t ∉ p.mdbfreelist :=
  fun hmem => h ((hp.mdbfree t).mp hmem).2.2

theorem not_free_of_held (h : t ∈ held) : t ∉ p.mdbfreelist :=
  fun hmem => ((hp.mdbfree t).mp hmem).2.1 h

theorem not_mdbs (h : t ∈ p.msgs) : t ∉ p.mdbs :=
  fun hmem => (nodup_append.mp hp.nodup).2.2 t hmem t h rfl

theorem mem_of_ne_zero (h : n t ≠ 0) : t ∈ p.mdbs := by
  by_contra hno
  exact h (hp.zero t hno)

theorem congr (hmdbs : q.mdbs = p.mdbs)
    (hmsgs : q.msgs = p.msgs) (hmdbfree : q.mdbfreelist = p.mdbfreelist)
    (hmsgfree : q.msgfreelist = p.msgfreelist) (href : ∀ t, t ∉ p.mdbfreelist → q.ref t = p.ref t)
    (hwhat : ∀ t, t ∉ p.mdbfreelist → q.iswhat t = p.iswhat t)
    (hlog : q.log = p.log) : Counted q held n := by
  have hn : q.nhdr = p.nhdr := by
    unfold Pool.nhdr
    rw [hmdbs, hmsgs]
  constructor
  · rw [hmdbs, hmsgs, hn]
    exact hp.lt
  · rw [hmdbs, hmsgs]
    exact hp.nodup
  · exact hp.held_nodup
  · rw [hmdbs, hmsgs]
    exact hp.known
  · rw [hmdbfree]
    exact hp.mdb_nodup
  · rw [hmsgfree]
    exact hp.msg_nodup
  · rw [hmsgfree, hmsgs]
    exact hp.msgfree
  · rw [hmdbfree, hmdbs]
    exact hp.mdbfree
  · rw [hmdbs]
    exact hp.zero
  · intro t ht hn
    rw [hmdbs] at ht
    rw [href t (hp.not_free hn)]
    exact hp.ref t ht hn
  · exact hp.small
  · intro t ht hfree
    rw [hmdbs] at ht
    rw [hmdbfree] at hfree
    rw [hwhat t hfree]
    exact hp.notM t ht hfree
  · intro t ht hfree
    rw [hmdbs] at ht
    rw [hmdbfree] at hfree
    rw [hwhat t hfree]
    exact hp.notD t ht hfree
  · unfold Pool.takings Pool.releases
    rw [hlog]
    exact hp.life

end

end Counted

namespace Tied

variable {p q : Pool} {held extra : List Nat} {dat : Nat → Option Nat} {h d t : Nat}

theorem dat_congr (hp : Tied p held dat extra)
    (hd : ∀ h ∈ held, dat' h = dat h) : Tied p held dat' extra where
  counted := by
    rw [funext (refs_congr hd)]
    exact hp.counted
  data h hh d hdat := by
    rw [hd h hh] at hdat
    exact hp.data h hh d hdat
  others := hp.others
  msgaddr h hh d hdat := by
    rw [hd h hh] at hdat
    exact hp.msgaddr h hh d hdat
  addr d hne := by
    rw [refs_congr hd] at hne
    exact hp.addr d hne

theorem detach (hp : Tied p held dat extra) (hh : h ∈ held) (hd : dat h = some d) :
    Tied p held (update dat h none) (d :: extra) := by
  have hold : ∀ x, ∀ e, update dat h none x = some e → dat x = some e := by
    intro x e hx
    by_cases hxh : x = h
    · rw [hxh, update_self] at hx
      cases hx
    · rwa [update_of_ne hxh] at hx
  refine ⟨?_, fun x hx e he => hp.data x hx e (hold x e he), ?_,
    fun x hx e he => hp.msgaddr x hx e (hold x e he), ?_⟩
  · rw [funext (refs_detach hp.counted.held_nodup hh hd)]
    exact hp.counted
  · intro e he
    rcases mem_cons.mp he with rfl | he
    · exact hp.data h hh e hd
    · exact hp.others e he
  · intro e hne
    rw [refs_detach hp.counted.held_nodup hh hd] at hne
    exact hp.addr e hne

theorem attach (hp : Tied p held dat (d :: extra)) (hh : h ∈ held)
    (hd : dat h = none) (haddr : p.msgaddr d = h ↔ h ∈ p.mdbs) :
    Tied p held (update dat h (some d)) extra := by
  have hback : update (update dat h (some d)) h none = dat := by
    funext x
    by_cases hx : x = h
    · rw [hx, update_self, hd]
    · rw [update_of_ne hx, update_of_ne hx]
  have hrefs : refs held (update dat h (some d)) extra = refs held dat (d :: extra) := by
    funext t
    rw [← refs_detach hp.counted.held_nodup hh (update_self h (some d) dat), hback]
  refine ⟨by rw [hrefs]; exact hp.counted, ?_,
    fun e he => hp.others e (by simp [he]), ?_, by rw [hrefs]; exact hp.addr⟩
  · intro x hx e he
    by_cases hxh : x = h
    · rw [hxh, update_self, some.injEq] at he
      rw [← he]
      exact hp.others d (by simp)
    · rw [update_of_ne hxh] at he
      exact hp.data x hx e he
  · intro x hx e he
    by_cases hxh : x = h
    · rw [hxh, update_self, some.injEq] at he
      rw [hxh, ← he]
      exact haddr
    · rw [update_of_ne hxh] at he
      exact hp.msgaddr x hx e he

end Tied

end Messages
end Svr4
