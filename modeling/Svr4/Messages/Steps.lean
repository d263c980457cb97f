import Svr4.Messages.Ties

/-!
# Steps on the pool

Headers and references are given up and taken one at a time.
-/

namespace Svr4
namespace Messages

open Function List Pool

theorem uchar_of_lt {n : Nat} (h : n < 256) : uchar n = n := by
  unfold uchar
  omega

theorem Pool.kmemAlloc_eq {p q : Pool} {size : Nat} {r : Option Nat}
    (h : p.kmemAlloc size = (r, q)) : ∃ k, q = { p with kmem := k } := by
  unfold kmemAlloc at h
  split at h
  · cases h
    exact ⟨p.kmem, rfl⟩
  · split at h
    · cases h
      exact ⟨p.kmem, rfl⟩
    · rename_i r' rest _
      cases h
      exact ⟨rest, rfl⟩

theorem Pool.takeMsgblock_nil {p : Pool} (h : p.msgfreelist = []) :
    p.takeMsgblock = p.xmsgalloc := by
  unfold Pool.takeMsgblock
  rw [h]

theorem Pool.takeMdbblock_nil {p : Pool} (h : p.mdbfreelist = []) :
    p.takeMdbblock = p.xmdballoc := by
  unfold takeMdbblock
  rw [h]

def plus (n : Nat → Nat) (d : Nat) (t : Nat) : Nat := n t + if d = t then 1 else 0

theorem refs_extra_fun (held : List Nat) (dat : Nat → Option Nat) (extra : List Nat) (d : Nat) :
    refs held dat (d :: extra) = plus (refs held dat extra) d :=
  funext (refs_extra held dat extra d)

section Plus

variable {n : Nat → Nat} {d t : Nat}

theorem plus_self (n : Nat → Nat) (d : Nat) : plus n d d = n d + 1 := by
  simp [plus]

theorem plus_of_ne (h : t ≠ d) : plus n d t = n t := by
  have h' : ¬ d = t := fun heq => h heq.symm
  simp [plus, h']

theorem plus_ne_zero : plus n d d ≠ 0 := by
  rw [plus_self]
  omega

end Plus

namespace Counted

variable {p : Pool} {held : List Nat} {n : Nat → Nat} {h d t : Nat}

/-!
## Giving up
-/

theorem msgfree_erase (hp : Counted p held n) (hmdb : h ∈ p.mdbs) (x : Nat) :
    x ∈ p.msgfreelist ↔ x ∈ p.msgs ∧ x ∉ held.erase h := by
  rw [hp.msgfree, hp.held_nodup.mem_erase_iff]
  constructor
  · exact fun hx => ⟨hx.1, fun hx' => hx.2 hx'.2⟩
  · rintro ⟨hx, hno⟩
    have hne : x ≠ h := by
      rintro rfl
      exact hp.not_mdbs hx hmdb
    exact ⟨hx, fun hx' => hno ⟨hne, hx'⟩⟩

theorem loseHeader (hp : Counted p held n) (hh : h ∈ held) (hmdb : h ∈ p.mdbs)
    (hn : n h ≠ 0) : Counted (p.setIswhat h .notM) (held.erase h) n := by
  have hmem : ∀ x, x ∈ held.erase h ↔ x ≠ h ∧ x ∈ held := fun x =>
    hp.held_nodup.mem_erase_iff
  refine ⟨hp.lt, hp.nodup, hp.held_nodup.erase h,
    fun x hx => hp.known x ((hmem x).mp hx).2, hp.mdb_nodup, hp.msg_nodup,
    hp.msgfree_erase hmdb, ?_, hp.zero, ?_, hp.small, ?_, ?_, hp.life⟩
  · intro t
    change t ∈ p.mdbfreelist ↔ t ∈ p.mdbs ∧ t ∉ held.erase h ∧ n t = 0
    rw [hp.mdbfree, hmem]
    by_cases ht : t = h
    · subst ht
      simp [hn]
    · simp [ht]
  · intro t ht hne
    rw [ref_setIswhat]
    exact hp.ref t ht hne
  · intro t ht hno
    rw [iswhat_setIswhat, hmem]
    by_cases hth : t = h
    · subst hth
      simp
    · rw [update_of_ne hth, hp.notM t ht hno]
      simp [hth]
  · intro t ht hno
    rw [iswhat_setIswhat]
    by_cases hth : t = h
    · subst hth
      simp [hn]
    · rw [update_of_ne hth]
      exact hp.notD t ht hno

theorem freeHeader (hp : Counted p held n) (hh : h ∈ held)
    (haddr : p.msgaddr (p.datap h) = h ↔ h ∈ p.mdbs) :
    Counted (p.freeHeader h) (held.erase h) n := by
  have hmem : ∀ x, x ∈ held.erase h ↔ x ≠ h ∧ x ∈ held := fun x =>
    hp.held_nodup.mem_erase_iff
  have hnodup : (held.erase h).Nodup := hp.held_nodup.erase h
  have hknown : ∀ x ∈ held.erase h, x ∈ p.mdbs ∨ x ∈ p.msgs :=
    fun x hx => hp.known x ((hmem x).mp hx).2
  by_cases hmdb : h ∈ p.mdbs
  · have haddr' : ¬ (p.datab (p.datap h)).dbMsgaddr ≠ h :=
      fun hne => hne (haddr.mpr hmdb)
    have hmsgs := hp.msgfree_erase hmdb
    have hfree := hp.not_free_of_held hh
    by_cases hwhat : p.iswhat h = .notD
    · have hn : n h = 0 := (hp.notD h hmdb hfree).mp hwhat
      have hrun : p.freeHeader h = p.freeMdbblock h := by
        have hwhat' : (p.datab h).dbIswhat = .notD := hwhat
        rw [Pool.freeHeader, if_neg haddr', if_pos hwhat']
      rw [hrun]
      refine ⟨hp.lt, hp.nodup, hnodup, hknown, ?_, hp.msg_nodup, hmsgs, ?_,
        hp.zero, hp.ref, hp.small, ?_, ?_, hp.life⟩
      · exact nodup_cons.mpr ⟨hfree, hp.mdb_nodup⟩
      · intro t
        change t ∈ h :: p.mdbfreelist ↔ t ∈ p.mdbs ∧ t ∉ held.erase h ∧ n t = 0
        rw [mem_cons, hp.mdbfree, hmem]
        by_cases ht : t = h
        · subst ht
          simp [hmdb, hn]
        · simp [ht]
      · intro t ht hno
        have hno : t ∉ h :: p.mdbfreelist := hno
        rw [mem_cons, not_or] at hno
        change p.iswhat t = .notM ↔ _
        rw [hp.notM t ht hno.2, hmem]
        simp [hno.1]
      · intro t ht hno
        have hno : t ∉ h :: p.mdbfreelist := hno
        rw [mem_cons, not_or] at hno
        exact hp.notD t ht hno.2
    · have hn : n h ≠ 0 := fun hn => hwhat ((hp.notD h hmdb hfree).mpr hn)
      have hrun : p.freeHeader h = p.setIswhat h .notM := by
        have hwhat' : ¬ (p.datab h).dbIswhat = .notD := hwhat
        rw [Pool.freeHeader, if_neg haddr', if_neg hwhat']
      rw [hrun]
      exact hp.loseHeader hh hmdb hn
  · have haddr' : (p.datab (p.datap h)).dbMsgaddr ≠ h :=
      fun heq => hmdb (haddr.mp heq)
    have hmsg : h ∈ p.msgs := (hp.known h hh).resolve_left hmdb
    have hne : ∀ t ∈ p.mdbs, t ≠ h := by
      rintro t ht rfl
      exact hmdb ht
    have hrun : p.freeHeader h = p.freeMsgblock h := by
      rw [Pool.freeHeader, if_pos haddr']
    rw [hrun]
    refine ⟨hp.lt, hp.nodup, hnodup, hknown, hp.mdb_nodup, ?_, ?_, ?_,
      hp.zero, hp.ref, hp.small, ?_, hp.notD, hp.life⟩
    · refine nodup_cons.mpr ⟨?_, hp.msg_nodup⟩
      intro hfree
      exact ((hp.msgfree h).mp hfree).2 hh
    · intro x
      change x ∈ h :: p.msgfreelist ↔ x ∈ p.msgs ∧ x ∉ held.erase h
      rw [mem_cons, hp.msgfree, hmem]
      by_cases hx : x = h
      · subst hx
        simp [hmsg]
      · simp [hx]
    · intro t
      change t ∈ p.mdbfreelist ↔ t ∈ p.mdbs ∧ t ∉ held.erase h ∧ n t = 0
      rw [hp.mdbfree, hmem]
      constructor
      · rintro ⟨ht, hno, hz⟩
        exact ⟨ht, fun hx => hno hx.2, hz⟩
      · rintro ⟨ht, hno, hz⟩
        exact ⟨ht, fun hx => hno ⟨hne t ht, hx⟩, hz⟩
    · intro t ht hno
      change p.iswhat t = .notM ↔ _
      rw [hp.notM t ht hno, hmem]
      simp [hne t ht]

theorem dropRef (hp : Counted p held (plus n d)) (hn : n d ≠ 0) :
    Counted (p.setRef d (p.ref d - 1)) held n := by
  have hd : d ∈ p.mdbs := hp.mem_of_ne_zero plus_ne_zero
  have href : p.ref d = n d + 1 := by
    rw [hp.ref d hd plus_ne_zero, plus_self]
  have hsmall : n d < 256 := by
    have := hp.small d
    rw [plus_self] at this
    omega
  have hz : ∀ t, plus n d t = 0 ↔ n t = 0 := by
    intro t
    by_cases ht : t = d
    · subst ht
      simp [plus_self, hn]
    · rw [plus_of_ne ht]
  have hnew : uchar ((p.ref d : Int) - 1) = n d := by
    have hback : ((n d + 1 : Nat) : Int) - 1 = n d := by omega
    rw [href, hback, uchar_of_lt hsmall]
  refine ⟨hp.lt, hp.nodup, hp.held_nodup, hp.known, hp.mdb_nodup, hp.msg_nodup,
    hp.msgfree, ?_, ?_, ?_, ?_, ?_, ?_, ?_⟩
  · intro t
    change t ∈ p.mdbfreelist ↔ t ∈ p.mdbs ∧ t ∉ held ∧ n t = 0
    rw [hp.mdbfree, hz]
  · intro t ht
    rw [← hz]
    exact hp.zero t ht
  · intro t ht hne
    rw [ref_setRef]
    by_cases htd : t = d
    · subst htd
      rw [update_self, hnew]
    · rw [update_of_ne htd, ← plus_of_ne htd (n := n)]
      apply hp.ref t ht
      rw [plus_of_ne htd]
      exact hne
  · intro t
    have := hp.small t
    unfold plus at this
    omega
  · intro t ht hno
    rw [Pool.iswhat_setRef]
    exact hp.notM t ht hno
  · intro t ht hno
    rw [Pool.iswhat_setRef, ← hz]
    exact hp.notD t ht hno
  · intro t
    have := hp.life t
    rw [if_congr (hz t) rfl rfl] at this
    exact this

theorem freeData (hp : Counted p held (plus n d)) : Counted (p.freeData d) held n := by
  have hd : d ∈ p.mdbs := hp.mem_of_ne_zero plus_ne_zero
  have hfree : d ∉ p.mdbfreelist := hp.not_free plus_ne_zero
  have href : p.ref d = n d + 1 := by
    rw [hp.ref d hd plus_ne_zero, plus_self]
  have hsmall : n d < 256 := by
    have := hp.small d
    rw [plus_self] at this
    omega
  have hnew : (p.setRef d (p.ref d - 1)).ref d = n d := by
    have hback : ((n d + 1 : Nat) : Int) - 1 = n d := by omega
    rw [ref_setRef, update_self, href, hback, uchar_of_lt hsmall]
  by_cases hn : n d = 0
  · have hlast : ¬ 0 < ((p.setRef d (p.ref d - 1)).datab d).dbRef := by
      change ¬ 0 < (p.setRef d (p.ref d - 1)).ref d
      omega
    have hz : ∀ t, t ≠ d → (plus n d t = n t) := fun t ht => plus_of_ne ht
    -- The reference count of a data block without references is not used.
    have hrefs : ∀ t ∈ p.mdbs, n t ≠ 0 → (p.setRef d (p.ref d - 1)).ref t = n t := by
      intro t ht hne
      have htd : t ≠ d := by
        rintro rfl
        exact hne hn
      rw [ref_setRef, update_of_ne htd, ← hz t htd]
      apply hp.ref t ht
      rwa [hz t htd]
    have hzero : ∀ t, t ∉ p.mdbs → n t = 0 := by
      intro t ht
      have htd : t ≠ d := by
        rintro rfl
        exact ht hd
      rw [← hz t htd]
      exact hp.zero t ht
    have hless : ∀ t, n t < 256 := by
      intro t
      have := hp.small t
      unfold plus at this
      omega
    have hlife : ∀ b : Buffer, ∀ t, ((p.setRef d (p.ref d - 1)).note (.released d b)).takings t =
          ((p.setRef d (p.ref d - 1)).note (.released d b)).releases t +
            if n t = 0 then 0 else 1 := by
      intro b t
      rw [takings_note, releases_note]
      have hold := hp.life t
      have htak : (p.setRef d (p.ref d - 1)).takings t = p.takings t := rfl
      have hrel : (p.setRef d (p.ref d - 1)).releases t = p.releases t := rfl
      rw [htak, hrel, hold]
      by_cases htd : t = d
      · subst htd
        simp [plus_self, hn, Entry.isTaken, Entry.isReleased]
      · have hdt : ¬ d = t := fun heq => htd heq.symm
        rw [hz t htd]
        simp [Entry.isTaken, Entry.isReleased, hdt]
    by_cases hwhat : p.iswhat d = .notM
    · have hheld : d ∉ held := (hp.notM d hd hfree).mp hwhat
      have hrun : p.freeData d = ((p.setRef d (p.ref d - 1)).note (.released d
          ((p.setRef d (p.ref d - 1)).buffer d))).freeMdbblock d := by
        have hwhat' : ((p.setRef d (p.ref d - 1)).datab d).dbIswhat = .notM := by
          change (p.setRef d (p.ref d - 1)).iswhat d = .notM
          rw [Pool.iswhat_setRef]
          exact hwhat
        unfold Pool.freeData
        exact (if_neg hlast).trans (if_pos hwhat')
      rw [hrun]
      refine ⟨hp.lt, hp.nodup, hp.held_nodup, hp.known, ?_, hp.msg_nodup,
        hp.msgfree, ?_, hzero, hrefs, hless, ?_, ?_, hlife _⟩
      · exact nodup_cons.mpr ⟨hfree, hp.mdb_nodup⟩
      · intro t
        change t ∈ d :: p.mdbfreelist ↔ t ∈ p.mdbs ∧ t ∉ held ∧ n t = 0
        rw [mem_cons, hp.mdbfree]
        by_cases htd : t = d
        · subst htd
          simp [hd, hheld, hn]
        · rw [hz t htd]
          simp [htd]
      · intro t ht hno
        have hno : t ∉ d :: p.mdbfreelist := hno
        rw [mem_cons, not_or] at hno
        change (p.setRef d (p.ref d - 1)).iswhat t = .notM ↔ _
        rw [Pool.iswhat_setRef]
        exact hp.notM t ht hno.2
      · intro t ht hno
        have hno : t ∉ d :: p.mdbfreelist := hno
        rw [mem_cons, not_or] at hno
        change (p.setRef d (p.ref d - 1)).iswhat t = .notD ↔ _
        rw [Pool.iswhat_setRef, ← hz t hno.1]
        exact hp.notD t ht hno.2
    · have hheld : d ∈ held := by
        by_contra hno
        exact hwhat ((hp.notM d hd hfree).mpr hno)
      have hrun : p.freeData d = ((p.setRef d (p.ref d - 1)).note (.released d
          ((p.setRef d (p.ref d - 1)).buffer d))).setIswhat d .notD := by
        have hwhat' : ¬ ((p.setRef d (p.ref d - 1)).datab d).dbIswhat = .notM := by
          change ¬ (p.setRef d (p.ref d - 1)).iswhat d = .notM
          rw [Pool.iswhat_setRef]
          exact hwhat
        unfold Pool.freeData
        exact (if_neg hlast).trans (if_neg hwhat')
      rw [hrun]
      refine ⟨hp.lt, hp.nodup, hp.held_nodup, hp.known, hp.mdb_nodup,
        hp.msg_nodup, hp.msgfree, ?_, hzero, ?_, hless, ?_, ?_, hlife _⟩
      · intro t
        change t ∈ p.mdbfreelist ↔ t ∈ p.mdbs ∧ t ∉ held ∧ n t = 0
        rw [hp.mdbfree]
        by_cases htd : t = d
        · subst htd
          simp [hheld]
        · rw [hz t htd]
      · intro t ht hne
        rw [ref_setIswhat]
        exact hrefs t ht hne
      · intro t ht hno
        rw [iswhat_setIswhat]
        by_cases htd : t = d
        · subst htd
          simp [hheld]
        · rw [update_of_ne htd]
          change (p.setRef d (p.ref d - 1)).iswhat t = .notM ↔ _
          rw [Pool.iswhat_setRef]
          exact hp.notM t ht hno
      · intro t ht hno
        rw [iswhat_setIswhat]
        by_cases htd : t = d
        · subst htd
          simp [hn]
        · rw [update_of_ne htd]
          change (p.setRef d (p.ref d - 1)).iswhat t = .notD ↔ _
          rw [Pool.iswhat_setRef, ← hz t htd]
          exact hp.notD t ht hno
  · have hrun : p.freeData d = p.setRef d (p.ref d - 1) := by
      have hpos : 0 < ((p.setRef d (p.ref d - 1)).datab d).dbRef := by
        change 0 < (p.setRef d (p.ref d - 1)).ref d
        omega
      unfold Pool.freeData
      exact if_pos hpos
    rw [hrun]
    exact hp.dropRef hn

/-!
## Taking
-/

theorem addRef (hp : Counted p held n) (hn : n d ≠ 0) (hlt : n d < 255) :
    Counted (p.setRef d (p.ref d + 1)) held (plus n d) := by
  have hd : d ∈ p.mdbs := hp.mem_of_ne_zero hn
  have hnew : uchar ((p.ref d : Int) + 1) = n d + 1 := by
    have hcast : ((n d : Nat) : Int) + 1 = (n d + 1 : Nat) := by omega
    rw [hp.ref d hd hn, hcast, uchar_of_lt (by omega)]
  have hz : ∀ t, plus n d t = 0 ↔ n t = 0 := by
    intro t
    by_cases ht : t = d
    · subst ht
      simp [plus_self, hn]
    · rw [plus_of_ne ht]
  refine ⟨hp.lt, hp.nodup, hp.held_nodup, hp.known, hp.mdb_nodup, hp.msg_nodup,
    hp.msgfree, ?_, ?_, ?_, ?_, ?_, ?_, ?_⟩
  · intro t
    change t ∈ p.mdbfreelist ↔ t ∈ p.mdbs ∧ t ∉ held ∧ plus n d t = 0
    rw [hp.mdbfree, hz]
  · intro t ht
    rw [hz]
    exact hp.zero t ht
  · intro t ht hne
    rw [ref_setRef]
    by_cases htd : t = d
    · subst htd
      rw [update_self, hnew, plus_self]
    · rw [update_of_ne htd, plus_of_ne htd]
      apply hp.ref t ht
      rwa [plus_of_ne htd] at hne
  · intro t
    by_cases htd : t = d
    · subst htd
      rw [plus_self]
      omega
    · rw [plus_of_ne htd]
      exact hp.small t
  · intro t ht hno
    rw [Pool.iswhat_setRef]
    exact hp.notM t ht hno
  · intro t ht hno
    rw [Pool.iswhat_setRef, hz]
    exact hp.notD t ht hno
  · intro t
    rw [if_congr (hz t) rfl rfl]
    exact hp.life t

theorem mem_nhdr (hp : Counted p held n) : p.nhdr ∉ p.mdbs ∧ p.nhdr ∉ p.msgs := by
  constructor
  · intro hmem
    exact Nat.lt_irrefl _ (hp.lt _ (mem_append_left _ hmem))
  · intro hmem
    exact Nat.lt_irrefl _ (hp.lt _ (mem_append_right _ hmem))

theorem not_held_nhdr (hp : Counted p held n) : p.nhdr ∉ held := by
  intro hmem
  rcases hp.known _ hmem with h | h
  · exact hp.mem_nhdr.1 h
  · exact hp.mem_nhdr.2 h

theorem takeMsgblock (hp : Counted p held n) :
    ∃ r q, p.takeMsgblock = (r, q) ∧ q.mdbs = p.mdbs ∧ q.datab = p.datab ∧
      (∀ x, r ≠ some x → q.msgb x = p.msgb x) ∧
      match r with
      | none => Counted q held n
      | some h => h ∉ held ∧ h ∉ p.mdbs ∧ Counted q (h :: held) n := by
  cases hfree : p.msgfreelist with
  | cons h rest =>
    have hmem : h ∈ p.msgs ∧ h ∉ held := by
      rw [← hp.msgfree, hfree]
      simp
    have hnodup := hp.msg_nodup
    rw [hfree, nodup_cons] at hnodup
    have hmdb : h ∉ p.mdbs := fun hx => hp.not_mdbs hmem.1 hx
    refine ⟨some h, { p with msgfreelist := rest },
      by simp [Pool.takeMsgblock, hfree], rfl, rfl, fun _ _ => rfl, hmem.2,
      hmdb, ?_⟩
    refine ⟨hp.lt, hp.nodup, nodup_cons.mpr ⟨hmem.2, hp.held_nodup⟩, ?_,
      hp.mdb_nodup, hnodup.2, ?_, ?_, hp.zero, hp.ref, hp.small, ?_, hp.notD,
      hp.life⟩
    · intro x hx
      rcases mem_cons.mp hx with rfl | hx
      · exact Or.inr hmem.1
      · exact hp.known x hx
    · intro x
      have hx := hp.msgfree x
      rw [hfree, mem_cons] at hx
      by_cases hxh : x = h
      · subst hxh
        simp [hnodup.1]
      · simp only [hxh, false_or] at hx
        simp [hx, hxh]
    · intro t
      rw [hp.mdbfree, mem_cons, not_or]
      constructor
      · rintro ⟨ht, hno, hz⟩
        refine ⟨ht, ⟨?_, hno⟩, hz⟩
        rintro rfl
        exact hmdb ht
      · rintro ⟨ht, ⟨_, hno⟩, hz⟩
        exact ⟨ht, hno, hz⟩
    · intro t ht hno
      have hth : t ≠ h := by
        rintro rfl
        exact hmdb ht
      change p.iswhat t = .notM ↔ t ∉ h :: held
      rw [hp.notM t ht hno, mem_cons, not_or]
      simp [hth]
  | nil =>
    have hmem := hp.mem_nhdr
    have hheld := hp.not_held_nhdr
    cases hkmem : p.kmemAlloc sizeofMbinfo with
    | mk r q =>
      have hq := kmemAlloc_eq hkmem
      rcases hq with ⟨k, rfl⟩
      cases r with
      | none =>
        exact ⟨none, { p with kmem := k },
          by simp [Pool.takeMsgblock, hfree, Pool.xmsgalloc, hkmem], rfl,
          rfl, fun _ _ => rfl,
          hp.congr rfl rfl rfl rfl (fun _ _ => rfl) (fun _ _ => rfl) rfl⟩
      | some addr =>
        have hrun : p.takeMsgblock = (some p.nhdr, { p with
            kmem := k
            msgs := p.nhdr :: p.msgs
            msgb := update p.msgb p.nhdr ⟨none, 0, 0, 0, 0, 0, Nat.le_refl 0⟩ }) := by
          rw [takeMsgblock_nil hfree, Pool.xmsgalloc, hkmem]
          rfl
        refine ⟨_, _, hrun, rfl, rfl, ?_, hheld, hmem.1, ?_⟩
        · intro x hx
          have hne : x ≠ p.nhdr := fun heq => hx (by rw [heq])
          exact update_of_ne hne _ _
        · refine ⟨?_, ?_, nodup_cons.mpr ⟨hheld, hp.held_nodup⟩, ?_,
            hp.mdb_nodup, hp.msg_nodup, ?_, ?_, hp.zero, hp.ref, hp.small,
            ?_, hp.notD, hp.life⟩
          · intro t ht
            change t < p.mdbs.length + (p.nhdr :: p.msgs).length
            change t < p.nhdr + 1
            rcases mem_append.mp ht with ht | ht
            · have := hp.lt t (mem_append_left _ ht)
              omega
            · rcases mem_cons.mp ht with rfl | ht
              · omega
              · have := hp.lt t (mem_append_right _ ht)
                omega
          · rw [nodup_middle, nodup_cons, mem_append]
            exact ⟨fun hx => hx.elim hmem.1 hmem.2, hp.nodup⟩
          · intro x hx
            rcases mem_cons.mp hx with rfl | hx
            · exact Or.inr (by simp)
            · rcases hp.known x hx with hx | hx
              · exact Or.inl hx
              · exact Or.inr (mem_cons_of_mem _ hx)
          · intro x
            rw [hp.msgfree, mem_cons, mem_cons, not_or]
            by_cases hx : x = p.nhdr
            · subst hx
              simp [hmem.2]
            · simp [hx]
          · intro t
            rw [hp.mdbfree, mem_cons, not_or]
            constructor
            · rintro ⟨ht, hno, hz⟩
              refine ⟨ht, ⟨?_, hno⟩, hz⟩
              rintro rfl
              exact hmem.1 ht
            · rintro ⟨ht, ⟨_, hno⟩, hz⟩
              exact ⟨ht, hno, hz⟩
          · intro t ht hno
            have hth : t ≠ p.nhdr := by
              rintro rfl
              exact hmem.1 ht
            change p.iswhat t = .notM ↔ t ∉ p.nhdr :: held
            rw [hp.notM t ht hno, mem_cons, not_or]
            simp [hth]

end Counted

end Messages
end Svr4
