import Svr4.Messages.Steps

/-!
# Routines on one block

What `allocb`, `esballoc`, `dupb`, `copyb` and `freeb`
do to the ties between headers and data blocks.
-/

namespace Svr4
namespace Messages

open Function List

structure Keeps (p q : Pool) (held : List Nat) (n : Nat → Nat) : Prop where
  msgb : ∀ h ∈ held, q.msgb h = p.msgb h
  datab : ∀ t, n t ≠ 0 → q.datab t = p.datab t
  mdbs : ∀ t ∈ p.mdbs, t ∈ q.mdbs
  held : ∀ h ∈ held, h ∈ q.mdbs → h ∈ p.mdbs

variable {held : List Nat} {n : Nat → Nat}

theorem Keeps.of_eq {p q : Pool} (hmsgb : q.msgb = p.msgb) (hdatab : q.datab = p.datab)
    (hmdbs : q.mdbs = p.mdbs) : Keeps p q held n where
  msgb h _ := by rw [hmsgb]
  datab t _ := by rw [hdatab]
  mdbs t ht := by rwa [hmdbs]
  held h _ ht := by rwa [hmdbs] at ht

theorem Keeps.trans {p q r : Pool} (hpq : Keeps p q held n)
    (hqr : Keeps q r held n) : Keeps p r held n where
  msgb h hh := (hqr.msgb h hh).trans (hpq.msgb h hh)
  datab t ht := (hqr.datab t ht).trans (hpq.datab t ht)
  mdbs t ht := hqr.mdbs t (hpq.mdbs t ht)
  held h hh ht := hpq.held h hh (hqr.held h hh ht)

namespace Counted

variable {p q : Pool} {held : List Nat} {n : Nat → Nat} {t : Nat}

/-!
## Triplets
-/

theorem zeroMdbblock (hp : Counted p held n) (addr : Nat) :
    Counted ((p.zeroMdbblock addr).freeMdbblock p.nhdr) held n ∧
      Keeps p (p.zeroMdbblock addr) held n := by
  have hnew := hp.mem_nhdr
  have hheld := hp.not_held_nhdr
  have hfree : p.nhdr ∉ p.mdbfreelist := fun h => hnew.1 ((hp.mdbfree _).mp h).1
  have hzero : n p.nhdr = 0 := hp.zero _ hnew.1
  have hdatab : ∀ t, t ≠ p.nhdr → (p.zeroMdbblock addr).datab t = p.datab t :=
    fun t ht => update_of_ne ht _ _
  have hold : ∀ {t}, t ∈ p.nhdr :: p.mdbs → t ≠ p.nhdr → t ∈ p.mdbs :=
    fun ht hne => (mem_cons.mp ht).resolve_left hne
  refine ⟨⟨?_, ?_, hp.held_nodup, ?_, ?_, hp.msg_nodup, hp.msgfree, ?_, ?_, ?_,
    hp.small, ?_, ?_, hp.life⟩, ⟨?_, ?_, ?_, ?_⟩⟩
  · intro t ht
    change t < (p.nhdr :: p.mdbs).length + p.msgs.length
    have hlen : (p.nhdr :: p.mdbs).length + p.msgs.length = p.nhdr + 1 := by
      unfold Pool.nhdr
      rw [length_cons]
      omega
    rcases mem_cons.mp ht with rfl | ht
    · omega
    · have := hp.lt t ht
      omega
  · change (p.nhdr :: (p.mdbs ++ p.msgs)).Nodup
    rw [nodup_cons, mem_append]
    exact ⟨fun h => h.elim hnew.1 hnew.2, hp.nodup⟩
  · intro h hh
    exact (hp.known h hh).imp_left fun hmem => mem_cons_of_mem _ hmem
  · exact nodup_cons.mpr ⟨hfree, hp.mdb_nodup⟩
  · intro t
    change t ∈ p.nhdr :: p.mdbfreelist ↔ t ∈ p.nhdr :: p.mdbs ∧ t ∉ held ∧ n t = 0
    rw [mem_cons, mem_cons, hp.mdbfree]
    by_cases ht : t = p.nhdr
    · subst ht
      simp [hheld, hzero]
    · simp [ht]
  · intro t ht
    exact hp.zero t fun hmem => ht (mem_cons_of_mem _ hmem)
  · intro t ht hne
    have hneq : t ≠ p.nhdr := by
      rintro rfl
      exact hne hzero
    change ((p.zeroMdbblock addr).datab t).dbRef = n t
    rw [hdatab t hneq]
    exact hp.ref t (hold ht hneq) hne
  · intro t ht hno
    have hno : t ∉ p.nhdr :: p.mdbfreelist := hno
    rw [mem_cons, not_or] at hno
    change ((p.zeroMdbblock addr).datab t).dbIswhat = .notM ↔ t ∉ held
    rw [hdatab t hno.1]
    exact hp.notM t (hold ht hno.1) hno.2
  · intro t ht hno
    have hno : t ∉ p.nhdr :: p.mdbfreelist := hno
    rw [mem_cons, not_or] at hno
    change ((p.zeroMdbblock addr).datab t).dbIswhat = .notD ↔ n t = 0
    rw [hdatab t hno.1]
    exact hp.notD t (hold ht hno.1) hno.2
  · intro h hh
    have hne : h ≠ p.nhdr := fun heq => hheld (heq ▸ hh)
    exact update_of_ne hne _ _
  · intro t ht
    exact hdatab t fun heq => ht (heq ▸ hzero)
  · intro t ht
    exact mem_cons_of_mem _ ht
  · intro h hh hmem
    exact hold hmem fun heq => hheld (heq ▸ hh)

theorem takeMdbblock (hp : Counted p held n) : ∃ r q, p.takeMdbblock = (r, q) ∧ Keeps p q held n ∧
      match r with
      | none => Counted q held n
      | some t => Counted (q.freeMdbblock t) held n := by
  cases hfree : p.mdbfreelist with
  | cons t rest =>
    refine ⟨some t, { p with mdbfreelist := rest },
      by simp [Pool.takeMdbblock, hfree], Keeps.of_eq rfl rfl rfl, ?_⟩
    have hback : Pool.freeMdbblock { p with mdbfreelist := rest } t = p := by
      unfold Pool.freeMdbblock
      rw [← hfree]
    change Counted (Pool.freeMdbblock { p with mdbfreelist := rest } t) held n
    rw [hback]
    exact hp
  | nil =>
    cases hkmem : p.kmemAlloc sizeofMdbblock with
    | mk r q =>
      rcases Pool.kmemAlloc_eq hkmem with ⟨k, rfl⟩
      have hk : Counted { p with kmem := k } held n :=
        hp.congr rfl rfl rfl rfl (fun _ _ => rfl) (fun _ _ => rfl) rfl
      cases r with
      | none =>
        refine ⟨none, { p with kmem := k }, ?_, Keeps.of_eq rfl rfl rfl, hk⟩
        rw [Pool.takeMdbblock_nil hfree, Pool.xmdballoc, hkmem]
      | some addr =>
        have hnew := hk.zeroMdbblock addr
        have hkeep : Keeps p { p with kmem := k } held n :=
          Keeps.of_eq rfl rfl rfl
        refine ⟨some p.nhdr, _, ?_, hkeep.trans hnew.2, hnew.1⟩
        rw [Pool.takeMdbblock_nil hfree, Pool.xmdballoc, hkmem]
        rfl

theorem take (hp : Counted (p.freeMdbblock t) held n) (href : p.ref t = 1)
    (hwhat : p.iswhat t = .mdbblk) : Counted (p.note (.taken t)) (t :: held) (plus n t) := by
  have hmem := (hp.mdbfree t).mp (mem_cons_self ..)
  have hnodup : t ∉ p.mdbfreelist ∧ p.mdbfreelist.Nodup :=
    nodup_cons.mp hp.mdb_nodup
  have hfree : ∀ x, x ∉ p.mdbfreelist → x ≠ t → x ∉ (p.freeMdbblock t).mdbfreelist := by
    intro x hx hne hmem
    exact (mem_cons.mp hmem).elim hne hx
  refine ⟨hp.lt, hp.nodup, nodup_cons.mpr ⟨hmem.2.1, hp.held_nodup⟩, ?_,
    hnodup.2, hp.msg_nodup, ?_, ?_, ?_, ?_, ?_, ?_, ?_, ?_⟩
  · intro x hx
    rcases mem_cons.mp hx with rfl | hx
    · exact Or.inl hmem.1
    · exact hp.known x hx
  · intro x
    change x ∈ p.msgfreelist ↔ x ∈ p.msgs ∧ x ∉ t :: held
    have hold : x ∈ p.msgfreelist ↔ x ∈ p.msgs ∧ x ∉ held := hp.msgfree x
    rw [hold, mem_cons, not_or]
    constructor
    · rintro ⟨hx, hno⟩
      refine ⟨hx, ?_, hno⟩
      rintro rfl
      exact hp.not_mdbs hx hmem.1
    · exact fun hx => ⟨hx.1, hx.2.2⟩
  · intro x
    change x ∈ p.mdbfreelist ↔ x ∈ p.mdbs ∧ x ∉ t :: held ∧ plus n t x = 0
    by_cases hx : x = t
    · subst hx
      simp [hnodup.1]
    · have hold := hp.mdbfree x
      change x ∈ t :: p.mdbfreelist ↔ x ∈ p.mdbs ∧ x ∉ held ∧ n x = 0 at hold
      rw [plus_of_ne hx]
      simpa [hx] using hold
  · intro x hx
    have hne : x ≠ t := by
      rintro rfl
      exact hx hmem.1
    rw [plus_of_ne hne]
    exact hp.zero x hx
  · intro x hx hne
    by_cases hxt : x = t
    · subst hxt
      rw [plus_self, hmem.2.2]
      exact href
    · rw [plus_of_ne hxt] at hne ⊢
      exact hp.ref x hx hne
  · intro x
    by_cases hxt : x = t
    · subst hxt
      rw [plus_self, hmem.2.2]
      omega
    · rw [plus_of_ne hxt]
      exact hp.small x
  · intro x hx hno
    by_cases hxt : x = t
    · subst hxt
      change p.iswhat x = .notM ↔ _
      simp [hwhat]
    · change p.iswhat x = .notM ↔ _
      have hold : p.iswhat x = .notM ↔ x ∉ held :=
        hp.notM x hx (hfree x hno hxt)
      simp [hold, hxt]
  · intro x hx hno
    by_cases hxt : x = t
    · subst hxt
      change p.iswhat x = .notD ↔ _
      simp [hwhat, plus_ne_zero]
    · rw [plus_of_ne hxt]
      exact hp.notD x hx (hfree x hno hxt)
  · intro x
    have hold : p.takings x = p.releases x + if n x = 0 then 0 else 1 := hp.life x
    rw [Pool.takings_note, Pool.releases_note, hold]
    by_cases hxt : x = t
    · subst hxt
      simp [plus_self, hmem.2.2, Entry.isTaken, Entry.isReleased]
    · have htx : ¬ t = x := fun heq => hxt heq.symm
      rw [plus_of_ne hxt]
      simp [Entry.isTaken, Entry.isReleased, htx]

/-!
## Allocation
-/

theorem not_mem_freeMdbblock {x : Nat} (hx : x ∉ (p.freeMdbblock t).mdbfreelist) : x ≠ t := by
  rintro rfl
  exact hx (mem_cons_self ..)

theorem change (hp : Counted (p.freeMdbblock t) held n) (x : Msgb) (d : Datab)
    (k : List (Option Nat)) : Counted ((Pool.setDatab (Pool.setMsgb { p with kmem := k } t x) t
      d).freeMdbblock t) held n := by
  refine hp.congr rfl rfl rfl rfl ?_ ?_ rfl
  · intro y hy
    change (update p.datab t d y).dbRef = (p.datab y).dbRef
    rw [update_of_ne (not_mem_freeMdbblock hy)]
  · intro y hy
    change (update p.datab t d y).dbIswhat = (p.datab y).dbIswhat
    rw [update_of_ne (not_mem_freeMdbblock hy)]

end Counted

theorem Keeps.change {p q : Pool} {t : Nat} (hk : Keeps p q held n) (hheld : t ∉ held)
    (hn : n t = 0) (x : Msgb) (d : Datab) (k : List (Option Nat)) :
    Keeps p (Pool.setDatab (Pool.setMsgb { q with kmem := k } t x) t d) held n where
  msgb h hh := by
    have hne : h ≠ t := fun heq => hheld (heq ▸ hh)
    change update q.msgb t x h = p.msgb h
    rw [update_of_ne hne]
    exact hk.msgb h hh
  datab y hy := by
    have hne : y ≠ t := fun heq => hy (heq ▸ hn)
    change update q.datab t d y = p.datab y
    rw [update_of_ne hne]
    exact hk.datab y hy
  mdbs := hk.mdbs
  held := hk.held

structure Allocated (p : Pool) (held : List Nat) (n : Nat → Nat) (t : Nat) :
    Prop where
  not_held : t ∉ held
  unused : n t = 0
  counted : Counted p (t :: held) (plus n t)
  mdbs : t ∈ p.mdbs
  datap : p.datap t = t
  cont : p.cont t = none
  msgaddr : p.msgaddr t = t

namespace Counted

variable {p q : Pool} {held : List Nat} {n : Nat → Nat} {t : Nat}

theorem allocated (hp : Counted (p.freeMdbblock t) held n)
    (x : Msgb) (d : Datab) (k : List (Option Nat))
    (hcont : x.bCont = none) (hdatap : x.bDatap = t) (href : d.dbRef = 1)
    (hwhat : d.dbIswhat = .mdbblk) (haddr : d.dbMsgaddr = t) :
    Allocated ((Pool.setDatab (Pool.setMsgb { p with kmem := k } t x) t d).note
      (.taken t)) held n t := by
  have hmem := (hp.mdbfree t).mp (mem_cons_self ..)
  have hx : update p.msgb t x t = x := update_self ..
  have hd : update p.datab t d t = d := update_self ..
  refine ⟨hmem.2.1, hmem.2.2, (hp.change x d k).take ?_ ?_, hmem.1, ?_, ?_, ?_⟩
  · change (update p.datab t d t).dbRef = 1
    rw [hd, href]
  · change (update p.datab t d t).dbIswhat = .mdbblk
    rw [hd, hwhat]
  · change (update p.msgb t x t).bDatap = t
    rw [hx, hdatap]
  · change (update p.msgb t x t).bCont = none
    rw [hx, hcont]
  · change (update p.datab t d t).dbMsgaddr = t
    rw [hd, haddr]

theorem setBuffer (hp : Counted (p.freeMdbblock t) held n)
    (k : List (Option Nat)) (base size lim : Nat) :
    ∃ x d, (Pool.setBuffer { p.initMdbblock t with kmem := k } t base size lim) =
        Pool.setDatab (Pool.setMsgb { p with kmem := k } t x) t d ∧
      Allocated ((Pool.setDatab (Pool.setMsgb { p with kmem := k } t x) t d).note
        (.taken t)) held n t := by
  refine ⟨{ p.msgb t with
      bCont := none, bDatap := t, bBand := 0, bFlag := 0, bRptr := base
      bWptr := base, bRptr_le := Nat.le_refl base },
    { p.datab t with
      dbFrtnp := none, dbRef := 1, dbType := M_DATA, dbIswhat := .mdbblk
      dbMsgaddr := t, dbBase := base, dbSize := size, dbLim := lim },
    ?_, hp.allocated _ _ k rfl rfl rfl rfl rfl⟩
  simp [Pool.setBuffer, Pool.initMdbblock, Pool.setDatab, Pool.setMsgb]

theorem allocb (hp : Counted p held n) (size : Int) :
    ∃ r q, p.allocb size = (r, q) ∧ Keeps p q held n ∧
      match r with
      | none => Counted q held n
      | some t => Allocated q held n t := by
  rcases hp.takeMdbblock with ⟨r, q, htake, hkeep, hq⟩
  cases r with
  | none =>
    refine ⟨none, q, ?_, hkeep, hq⟩
    unfold Pool.allocb
    rw [htake]
  | some t =>
    have hmem := (hq.mdbfree t).mp (mem_cons_self ..)
    have hdone : ∀ k base len lim, p.allocb size =
        (some t, (Pool.setBuffer { q.initMdbblock t with kmem := k } t base len
          lim).note (.taken t)) →
        ∃ r q', p.allocb size = (r, q') ∧ Keeps p q' held n ∧
          match r with
          | none => Counted q' held n
          | some t => Allocated q' held n t := by
      intro k base len lim hrun
      rcases hq.setBuffer k base len lim with ⟨x, d, hset, hnew⟩
      refine ⟨some t, _, hrun, ?_, ?_⟩
      · rw [hset]
        exact (hkeep.change hmem.2.1 hmem.2.2 x d k).trans (Keeps.of_eq rfl rfl rfl)
      · rw [hset]
        exact hnew
    by_cases hsize : (FASTBUF : Int) < size
    · cases hkmem : (q.initMdbblock t).kmemAlloc size.toNat with
      | mk r q' =>
        rcases Pool.kmemAlloc_eq hkmem with ⟨k, rfl⟩
        cases r with
        | none =>
          refine ⟨none, Pool.freeMdbblock { q.initMdbblock t with
            kmem := k } t, ?_, ?_, ?_⟩
          · unfold Pool.allocb
            rw [htake]
            simp only [hkmem, if_pos hsize]
          · have hback := hkeep.change hmem.2.1 hmem.2.2
              ((q.initMdbblock t).msgb t) ((q.initMdbblock t).datab t) k
            exact hback.trans (Keeps.of_eq (by simp [Pool.freeMdbblock,
              Pool.initMdbblock, Pool.setDatab, Pool.setMsgb])
              (by simp [Pool.freeMdbblock, Pool.initMdbblock, Pool.setDatab, Pool.setMsgb]) rfl)
          · exact hq.change _ _ k
        | some buf =>
          apply hdone k buf size.toNat (buf + size.toNat)
          unfold Pool.allocb
          rw [htake]
          simp only [hkmem, if_pos hsize]
    · apply hdone q.kmem (q.databuf t) (if size = 0 then 4 else Pool.uint size)
        (q.databuf t + FASTBUF)
      unfold Pool.allocb
      rw [htake]
      simp only [if_neg hsize]
      rfl

end Counted

/-!
## Frames
-/

namespace Pool

section

variable (p : Pool)
include p

@[simp] theorem msgb_freeHeader (h : Nat) : (p.freeHeader h).msgb = p.msgb := by
  unfold freeHeader
  split
  · rfl
  · split <;> rfl

@[simp] theorem mdbs_freeHeader (h : Nat) : (p.freeHeader h).mdbs = p.mdbs := by
  unfold freeHeader
  split
  · rfl
  · split <;> rfl

@[simp] theorem msgs_freeHeader (h : Nat) : (p.freeHeader h).msgs = p.msgs := by
  unfold freeHeader
  split
  · rfl
  · split <;> rfl

@[simp] theorem msgaddr_freeHeader (h : Nat) : (p.freeHeader h).msgaddr = p.msgaddr := by
  unfold freeHeader
  split
  · rfl
  · split
    · rfl
    · exact msgaddr_setIswhat _ _ _

@[simp] theorem msgb_freeData (d : Nat) : (p.freeData d).msgb = p.msgb := by
  unfold freeData
  dsimp only
  split
  · rfl
  · split <;> rfl

@[simp] theorem mdbs_freeData (d : Nat) : (p.freeData d).mdbs = p.mdbs := by
  unfold freeData
  dsimp only
  split
  · rfl
  · split <;> rfl

@[simp] theorem msgs_freeData (d : Nat) : (p.freeData d).msgs = p.msgs := by
  unfold freeData
  dsimp only
  split
  · rfl
  · split <;> rfl

@[simp] theorem msgaddr_freeData (d : Nat) : (p.freeData d).msgaddr = p.msgaddr := by
  unfold freeData
  dsimp only
  split
  · exact msgaddr_setRef _ _ _
  · split
    · exact msgaddr_setRef _ _ _
    · rw [msgaddr_setIswhat]
      exact msgaddr_setRef _ _ _

@[simp] theorem msgb_freeb (h : Nat) : (p.freeb h).msgb = p.msgb := by
  rw [freeb, msgb_freeData, msgb_freeHeader]

@[simp] theorem mdbs_freeb (h : Nat) : (p.freeb h).mdbs = p.mdbs := by
  rw [freeb, mdbs_freeData, mdbs_freeHeader]

@[simp] theorem msgs_freeb (h : Nat) : (p.freeb h).msgs = p.msgs := by
  rw [freeb, msgs_freeData, msgs_freeHeader]

@[simp] theorem msgaddr_freeb (h : Nat) : (p.freeb h).msgaddr = p.msgaddr := by
  rw [freeb, msgaddr_freeData, msgaddr_freeHeader]

end

end Pool

/-!
## Ties
-/

namespace Tied

variable {p q : Pool} {held extra : List Nat} {dat : Nat → Option Nat} {h d t : Nat}

section

variable (hp : Tied p held dat extra)
include hp

theorem keep (hq : Counted q held (refs held dat extra))
    (hkeep : Keeps p q held (refs held dat extra)) : Tied q held dat extra where
  counted := hq
  data h hh d hd := hkeep.mdbs d (hp.data h hh d hd)
  others d hd := hkeep.mdbs d (hp.others d hd)
  msgaddr h hh d hd := by
    have hsame : q.msgaddr d = p.msgaddr d := by
      unfold Pool.msgaddr
      rw [hkeep.datab d (refs_pos_of_mem hh hd)]
    rw [hsame, hp.msgaddr h hh d hd]
    exact ⟨hkeep.mdbs h, hkeep.held h hh⟩
  addr d hne := by
    have hsame : q.msgaddr d = p.msgaddr d := by
      unfold Pool.msgaddr
      rw [hkeep.datab d hne]
    rw [hsame]
    exact hkeep.mdbs _ (hp.addr d hne)

theorem freeb (hh : h ∈ held) (hd : dat h = some (p.datap h)) :
    Tied (p.freeb h) (held.erase h) dat extra := by
  have hold : ∀ x ∈ held.erase h, x ∈ held := fun x hx =>
    mem_of_mem_erase hx
  have hheader := hp.counted.freeHeader hh (hp.msgaddr h hh _ hd)
  have hrefs : refs held dat extra = plus (refs (held.erase h) dat extra) (p.datap h) := by
    rw [← refs_extra_fun]
    exact (funext (refs_erase hh hd)).symm
  have hless : ∀ d, refs (held.erase h) dat extra d ≠ 0 → refs held dat extra d ≠ 0 := by
    intro d hne hzero
    rw [hrefs] at hzero
    unfold plus at hzero
    omega
  rw [hrefs] at hheader
  refine ⟨hheader.freeData, ?_, ?_, ?_, ?_⟩
  · intro x hx e he
    rw [Pool.mdbs_freeb]
    exact hp.data x (hold x hx) e he
  · rw [Pool.mdbs_freeb]
    exact hp.others
  · intro x hx e he
    rw [Pool.mdbs_freeb, Pool.msgaddr_freeb]
    exact hp.msgaddr x (hold x hx) e he
  · intro d hne
    rw [Pool.mdbs_freeb, Pool.msgaddr_freeb]
    exact hp.addr d (hless d hne)

theorem header (hh : h ∉ held) (hnew : h ∉ p.mdbs)
    (hq : Counted q (h :: held) (refs held dat extra))
    (hmdbs : q.mdbs = p.mdbs) (hdatab : q.datab = p.datab) :
    Tied q (h :: held) (update dat h none) extra := by
  have hdat : ∀ x ∈ held, update dat h none x = dat x := by
    intro x hx
    exact update_of_ne (ne_of_mem_of_not_mem hx hh) _ _
  have hrefs : refs (h :: held) (update dat h none) extra = refs held dat extra := by
    funext t
    rw [refs_cons, update_self, refs_congr hdat]
    simp
  have haddr : q.msgaddr = p.msgaddr := by
    funext t
    unfold Pool.msgaddr
    rw [hdatab]
  refine ⟨by rw [hrefs]; exact hq, ?_, by rw [hmdbs]; exact hp.others, ?_,
    by rw [hrefs, hmdbs, haddr]; exact hp.addr⟩
  · intro x hx e he
    rcases mem_cons.mp hx with rfl | hx
    · rw [update_self] at he
      cases he
    · rw [hdat x hx] at he
      rw [hmdbs]
      exact hp.data x hx e he
  · intro x hx e he
    rcases mem_cons.mp hx with rfl | hx
    · rw [update_self] at he
      cases he
    · rw [hdat x hx] at he
      rw [hmdbs, haddr]
      exact hp.msgaddr x hx e he

section

variable (hq : Allocated q held (refs held dat extra) t)
  (hkeep : Keeps p q held (refs held dat extra))
include hq hkeep

theorem triplet :
    Tied q (t :: held) (update dat t none) (t :: extra) := by
  have hdat : ∀ x ∈ held, update dat t none x = dat x := by
    intro x hx
    exact update_of_ne (ne_of_mem_of_not_mem hx hq.not_held) _ _
  have hrefs : refs (t :: held) (update dat t none) (t :: extra) =
      plus (refs held dat extra) t := by
    rw [refs_extra_fun]
    congr 1
    funext s
    rw [refs_cons, update_self, refs_congr hdat]
    simp
  have hsame : ∀ e, refs held dat extra e ≠ 0 → q.msgaddr e = p.msgaddr e := by
    intro e he
    unfold Pool.msgaddr
    rw [hkeep.datab e he]
  refine ⟨by rw [hrefs]; exact hq.counted, ?_, ?_, ?_, ?_⟩
  · intro x hx e he
    rcases mem_cons.mp hx with rfl | hx
    · rw [update_self] at he
      cases he
    · rw [hdat x hx] at he
      exact hkeep.mdbs e (hp.data x hx e he)
  · intro e he
    rcases mem_cons.mp he with rfl | he
    · exact hq.mdbs
    · exact hkeep.mdbs e (hp.others e he)
  · intro x hx e he
    rcases mem_cons.mp hx with rfl | hx
    · rw [update_self] at he
      cases he
    · rw [hdat x hx] at he
      rw [hsame e (refs_pos_of_mem hx he), hp.msgaddr x hx e he]
      exact ⟨hkeep.mdbs x, hkeep.held x hx⟩
  · intro e he
    by_cases het : e = t
    · rw [het, hq.msgaddr]
      exact hq.mdbs
    · rw [hrefs, plus_of_ne het] at he
      rw [hsame e he]
      exact hkeep.mdbs _ (hp.addr e he)

theorem allocated :
    Tied q (t :: held) (update dat t (some t)) extra := by
  have hnew := (hp.triplet hq hkeep).attach (mem_cons_self ..)
    (update_self ..) (iff_of_true hq.msgaddr hq.mdbs)
  rwa [update_idem] at hnew

end

theorem congr (hmdbs : q.mdbs = p.mdbs)
    (hmsgs : q.msgs = p.msgs) (hmdbfree : q.mdbfreelist = p.mdbfreelist)
    (hmsgfree : q.msgfreelist = p.msgfreelist) (href : q.ref = p.ref)
    (hwhat : q.iswhat = p.iswhat) (haddr : q.msgaddr = p.msgaddr)
    (hlog : q.log = p.log) : Tied q held dat extra where
  counted := hp.counted.congr hmdbs hmsgs hmdbfree hmsgfree
    (fun t _ => by rw [href]) (fun t _ => by rw [hwhat]) hlog
  data h hh d hd := by
    rw [hmdbs]
    exact hp.data h hh d hd
  others := by
    rw [hmdbs]
    exact hp.others
  msgaddr h hh d hd := by
    rw [hmdbs, haddr]
    exact hp.msgaddr h hh d hd
  addr := by
    rw [hmdbs, haddr]
    exact hp.addr

theorem editData (x : Datab)
    (href : x.dbRef = p.ref d) (hwhat : x.dbIswhat = p.iswhat d)
    (haddr : x.dbMsgaddr = p.msgaddr d) : Tied (p.setDatab d x) held dat extra := by
  have hfield : ∀ {α : Type} (f : Datab → α), f x = f (p.datab d) →
      ∀ y, f (update p.datab d x y) = f (p.datab y) := by
    intro α f hf y
    by_cases hy : y = d
    · subst hy
      rw [update_self, hf]
    · rw [update_of_ne hy]
  apply hp.congr (q := p.setDatab d x) rfl rfl rfl rfl _ _ _ rfl
  · exact funext (hfield Datab.dbRef href)
  · exact funext (hfield Datab.dbIswhat hwhat)
  · exact funext (hfield Datab.dbMsgaddr haddr)

theorem replaced (d : Nat) (b : Buffer) :
    Tied (p.note (.replaced d b)) held dat extra := by
  have hc := hp.counted
  refine ⟨⟨hc.lt, hc.nodup, hc.held_nodup, hc.known, hc.mdb_nodup, hc.msg_nodup,
    hc.msgfree, hc.mdbfree, hc.zero, hc.ref, hc.small, hc.notM, hc.notD, ?_⟩,
    hp.data, hp.others, hp.msgaddr, hp.addr⟩
  intro t
  rw [Pool.takings_note, Pool.releases_note]
  exact hc.life t

theorem of_counted {held' extra' : List Nat}
    (hq : Counted q held' (refs held' dat extra')) (hheld : ∀ h ∈ held', h ∈ held)
    (hrefs : ∀ d, refs held' dat extra' d ≠ 0 → refs held dat extra d ≠ 0)
    (hmdbs : q.mdbs = p.mdbs) (haddr : q.msgaddr = p.msgaddr) : Tied q held' dat extra' where
  counted := hq
  data h hh d hd := by
    rw [hmdbs]
    exact hp.data h (hheld h hh) d hd
  others d hd := by
    rw [hmdbs]
    apply hp.counted.mem_of_ne_zero
    apply hrefs
    unfold refs
    have hpos := count_pos_iff.mpr hd
    omega
  msgaddr h hh d hd := by
    rw [hmdbs, haddr]
    exact hp.msgaddr h (hheld h hh) d hd
  addr d hd := by
    rw [hmdbs, haddr]
    exact hp.addr d (hrefs d hd)

theorem addRef (hn : refs held dat extra d ≠ 0)
    (hlt : refs held dat extra d < 255) :
    Tied (p.setRef d (p.ref d + 1)) held dat (d :: extra) := by
  have hq := hp.counted.addRef hn hlt
  rw [← refs_extra_fun] at hq
  apply hp.of_counted hq (fun _ hh => hh) _ rfl (Pool.msgaddr_setRef ..)
  intro t ht
  by_cases htd : t = d
  · rwa [htd]
  · rwa [refs_extra_fun, plus_of_ne htd] at ht

end

theorem dropRef (hp : Tied p held dat (d :: extra)) (hn : refs held dat extra d ≠ 0) :
    Tied (p.setRef d (p.ref d - 1)) held dat extra := by
  have hc := hp.counted
  rw [refs_extra_fun] at hc
  apply hp.of_counted (hc.dropRef hn) (fun _ hh => hh) _ rfl (Pool.msgaddr_setRef ..)
  intro t ht
  rw [refs_extra]
  omega

theorem loseHeader (hp : Tied p held dat extra) (hh : h ∈ held)
    (hd : dat h = none) (hmdb : h ∈ p.mdbs) (hn : refs held dat extra h ≠ 0) :
    Tied (p.setIswhat h .notM) (held.erase h) dat extra := by
  have hrefs : refs (held.erase h) dat extra = refs held dat extra :=
    funext (refs_erase_none hh hd)
  have hq := hp.counted.loseHeader hh hmdb hn
  rw [← hrefs] at hq
  apply hp.of_counted hq (fun _ hx => mem_of_mem_erase hx) _ rfl (Pool.msgaddr_setIswhat ..)
  rw [hrefs]
  exact fun _ ht => ht

end Tied

end Messages
end Svr4
