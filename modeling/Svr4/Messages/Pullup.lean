import Mathlib.Tactic.Ring
import Svr4.Messages.Chains

/-!
# Pulling up

`pullupmsg` moves the first bytes of a message to one buffer.  It frees the
blocks that become empty and, where the data block is shared, connects the first
header to another one.
-/

namespace Svr4
namespace Messages

open Function List

namespace Pool

variable {p : Pool} {bp n : Nat}

@[simp] theorem cont_advance : (p.advance bp n).cont = p.cont := by
  funext x
  by_cases hx : x = bp <;> simp [cont, advance, setMsgb, hx]

@[simp] theorem datap_advance : (p.advance bp n).datap = p.datap := by
  funext x
  by_cases hx : x = bp <;> simp [datap, advance, setMsgb, hx]

variable {x mp wptr : Nat}

theorem size_advance_of_ne (hx : x ≠ bp) : (p.advance bp n).size x = p.size x := by
  simp [size, advance, setMsgb, hx]

theorem advance_empty (h : ((p.advance bp n).msgb bp).bWptr = ((p.advance bp n).msgb bp).bRptr) :
    p.size bp ≤ n := by
  simp only [advance, setMsgb, update_self] at h
  unfold size
  omega

/-!
## Sizes
-/

/-- The blocks from `bp` to `r` hold that many bytes. -/
def bytes (p : Pool) (l : List Nat) : Nat := (l.map p.size).sum

theorem bytes_cons (p : Pool) (c : Nat) (l : List Nat) :
    p.bytes (c :: l) = p.size c + p.bytes l := by
  simp [bytes]

theorem bytes_congr {q : Pool} {l : List Nat} (h : ∀ c ∈ l, q.size c = p.size c) :
    q.bytes l = p.bytes l := by
  unfold bytes
  rw [map_congr_left h]

theorem sint_le {x : Int} (h : -2147483648 ≤ x) : sint x ≤ x := by
  unfold sint
  omega

theorem le_sint (x : Int) : -2147483648 ≤ sint x := by
  unfold sint
  omega

theorem xmsgsizeLoop_spec {type : Nat} (fuel : Nat) {bp : Option Nat}
    {count cnt : Int} (hcount : -2147483648 ≤ count)
    (hrun : xmsgsizeLoop type fuel p bp count = some cnt) :
    ∃ l r, Chain p.cont bp l r ∧ (∀ c ∈ l, (p.datab (p.datap c)).dbType = type) ∧
      (∀ c, r = some c → (p.datab (p.datap c)).dbType ≠ type) ∧ cnt ≤ count + p.bytes l := by
  induction fuel generalizing bp count with
  | zero =>
    cases bp with
    | none =>
      cases hrun
      exact ⟨[], none, rfl, by simp, by simp, by simp [bytes]⟩
    | some b => cases hrun
  | succ fuel ih =>
    cases bp with
    | none =>
      cases hrun
      exact ⟨[], none, rfl, by simp, by simp, by simp [bytes]⟩
    | some b =>
      unfold xmsgsizeLoop at hrun
      by_cases htype : type ≠ (p.datab (p.datap b)).dbType
      · rw [if_pos htype] at hrun
        cases hrun
        refine ⟨[], some b, rfl, by simp, ?_, by simp [bytes]⟩
        rintro c ⟨⟩
        exact htype.symm
      · rw [if_neg htype] at hrun
        rcases ih (le_sint _) hrun with ⟨l, r, hl, hsame, hend, hle⟩
        refine ⟨b :: l, r, ⟨rfl, hl⟩, ?_, hend, ?_⟩
        · intro c hc
          rcases mem_cons.mp hc with rfl | hc
          · exact (not_not.mp htype).symm
          · exact hsame c hc
        · have hround := sint_le (x := count + p.size b) (by omega)
          rw [bytes_cons]
          omega

theorem pullupLen_spec {len n : Int} (hrun : p.pullupLen mp len = some (.inr n)) :
    ∃ l r, Chain p.cont (some mp) l r ∧ l.Nodup ∧
      ((∀ c ∈ l, some c ≠ r) ∨ l = [mp]) ∧ n ≤ p.bytes l := by
  have hone : n = p.size mp → ∃ l r, Chain p.cont (some mp) l r ∧ l.Nodup ∧
        ((∀ c ∈ l, some c ≠ r) ∨ l = [mp]) ∧ n ≤ p.bytes l := by
    rintro rfl
    exact ⟨[mp], p.cont mp, ⟨rfl, rfl⟩, by simp, .inr rfl, by simp [bytes]⟩
  have hall : ∀ cnt, p.xmsgsize mp = some cnt → n ≤ cnt →
      ∃ l r, Chain p.cont (some mp) l r ∧ l.Nodup ∧
        ((∀ c ∈ l, some c ≠ r) ∨ l = [mp]) ∧ n ≤ p.bytes l := by
    intro cnt hcnt hle
    rcases xmsgsizeLoop_spec p.nhdr (by omega) hcnt with ⟨l, r, hl, hsame, hend, hbytes⟩
    have hne : ∀ c ∈ l, some c ≠ r := by
      intro c hc heq
      exact hend c heq.symm (hsame c hc)
    exact ⟨l, r, hl, hl.nodup_of_end hne, .inl hne, by omega⟩
  unfold pullupLen at hrun
  by_cases hlen : len = -1
  · rw [if_pos hlen] at hrun
    by_cases hcont : p.cont mp = none
    · rw [if_pos hcont] at hrun
      split at hrun
      · cases hrun
      · cases hrun
        exact hone rfl
    · rw [if_neg hcont] at hrun
      cases hsize : p.xmsgsize mp with
      | none =>
        rw [hsize] at hrun
        cases hrun
      | some cnt =>
        rw [hsize] at hrun
        cases hrun
        exact hall _ hsize (Int.le_refl _)
  · rw [if_neg hlen] at hrun
    by_cases hfirst : len ≤ p.size mp
    · rw [if_pos hfirst] at hrun
      split at hrun
      · cases hrun
      · cases hrun
        exact hone rfl
    · rw [if_neg hfirst] at hrun
      cases hsize : p.xmsgsize mp with
      | none =>
        rw [hsize] at hrun
        cases hrun
      | some avail =>
        rw [hsize] at hrun
        simp only [Option.bind_eq_bind, Option.bind_some, Option.pure_def,
          Option.some.injEq] at hrun
        split at hrun
        · cases hrun
        · cases hrun
          exact hall _ hsize (by omega)

/-- The parts of the pool that the loop of `pullupmsg` leaves. -/
structure LoopKeeps (p q : Pool) : Prop where
  cont : q.cont = p.cont
  datap : q.datap = p.datap
  mdbs : q.mdbs = p.mdbs
  msgs : q.msgs = p.msgs
  msgaddr : q.msgaddr = p.msgaddr

theorem LoopKeeps.refl (p : Pool) : LoopKeeps p p := ⟨rfl, rfl, rfl, rfl, rfl⟩

theorem LoopKeeps.trans {p q r : Pool} (hpq : LoopKeeps p q)
    (hqr : LoopKeeps q r) : LoopKeeps p r :=
  ⟨hqr.cont.trans hpq.cont, hqr.datap.trans hpq.datap,
    hqr.mdbs.trans hpq.mdbs, hqr.msgs.trans hpq.msgs,
    hqr.msgaddr.trans hpq.msgaddr⟩

def move (p : Pool) (bp n wptr : Nat) : Pool :=
  (p.bcopy (p.msgb bp).bRptr wptr n).advance bp n

theorem move_keeps (p : Pool) (bp n wptr : Nat) : LoopKeeps p (p.move bp n wptr) :=
  ⟨cont_advance, datap_advance, rfl, rfl, rfl⟩

/-- The loop passes over a block, and frees it if it is not the first. -/
def drain (p : Pool) (mp bp n wptr : Nat) : Pool :=
  if bp ≠ mp then (p.move bp n wptr).freeb bp else p.move bp n wptr

theorem pullupLoop_succ {p : Pool} {fuel c : Nat} {len : Int} (hlen : 0 < len) :
    pullupLoop mp (fuel + 1) p len (some c) wptr =
      let n := min (p.size c) len.toNat
      if ((p.move c n wptr).msgb c).bWptr ≠ ((p.move c n wptr).msgb c).bRptr then
        some (p.move c n wptr, some c, wptr + n)
      else pullupLoop mp fuel (p.drain mp c n wptr) (len - n) (p.cont c) (wptr + n) := by
  have hcont : ∀ n, (p.move c n wptr).cont c = p.cont c := fun n =>
    congrFun (p.move_keeps c n wptr).cont c
  rw [← hcont (min (p.size c) len.toNat)]
  conv_lhs => unfold pullupLoop
  rw [if_neg (by omega), if_neg (by omega)]
  rfl

theorem drain_keeps (p : Pool) (mp bp n wptr : Nat) : LoopKeeps p (p.drain mp bp n wptr) := by
  unfold drain
  split
  · refine (p.move_keeps bp n wptr).trans ⟨?_, ?_, mdbs_freeb _ _,
      msgs_freeb _ _, msgaddr_freeb _ _⟩
    · funext x
      exact cont_of_msgb (by rw [msgb_freeb])
    · funext x
      exact datap_of_msgb (by rw [msgb_freeb])
  · exact p.move_keeps bp n wptr

theorem size_drain_of_ne (p : Pool) {bp n : Nat} (hx : x ≠ bp) :
    (p.drain mp bp n wptr).size x = p.size x := by
  have hmove : (p.move bp n wptr).size x = p.size x := size_advance_of_ne hx
  unfold drain
  split
  · rw [← hmove]
    unfold size
    rw [msgb_freeb]
  · exact hmove

end Pool

namespace Tied

variable {p q : Pool} {held extra : List Nat} {dat : Nat → Option Nat}

theorem move (hp : Tied p held dat extra) (bp n wptr : Nat) :
    Tied (p.move bp n wptr) held dat extra :=
  hp.congr rfl rfl rfl rfl rfl rfl rfl rfl

theorem drain {mp bp : Nat} (hp : Tied p held dat extra)
    (hbp : bp ≠ mp → bp ∈ held ∧ dat bp = some (p.datap bp)) (n wptr : Nat) :
    Tied (p.drain mp bp n wptr) (held.filter fun h => h = mp ∨ h ≠ bp) dat
      extra := by
  have hmove := hp.move bp n wptr
  unfold Pool.drain
  by_cases hne : bp ≠ mp
  · rw [if_pos hne]
    have hdat : dat bp = some ((p.move bp n wptr).datap bp) := by
      rw [(p.move_keeps bp n wptr).datap]
      exact (hbp hne).2
    have heq : held.filter (fun h => decide (h = mp ∨ h ≠ bp)) = held.erase bp := by
      rw [hp.counted.held_nodup.erase_eq_filter]
      apply filter_congr
      intro h _
      by_cases hh : h = bp
      · simp [hh, hne]
      · simp [hh]
    rw [heq]
    exact hmove.freeb (hbp hne).1 hdat
  · rw [if_neg hne]
    have hall : held.filter (fun h => decide (h = mp ∨ h ≠ bp)) = held := by
      rw [filter_eq_self]
      intro h _
      simp only [not_not.mp hne]
      by_cases hh : h = mp <;> simp [hh]
    rw [hall]
    exact hmove

/-- The loop of `pullupmsg` has come to `b`. -/
def Passed (p : Pool) (mp : Nat) (held : List Nat) (dat : Nat → Option Nat)
    (extra l : List Nat) (r b : Option Nat) (q : Pool) : Prop :=
  ∃ gone rest, l = gone ++ rest ∧ Chain p.cont b rest r ∧
    Tied q (held.filter fun h => h = mp ∨ h ∉ gone) dat extra ∧ p.LoopKeeps q

variable {l : List Nat} {r b : Option Nat}

theorem passed_nil {mp : Nat} (hl : Chain p.cont b l r) (hq : Tied q held dat extra)
    (hkeep : p.LoopKeeps q) : Passed p mp held dat extra l r b q := by
  refine ⟨[], l, rfl, hl, ?_, hkeep⟩
  simpa using hq

theorem Passed.cons {mp c : Nat} {p' : Pool} (hkeep : p.LoopKeeps p')
    (hq : Passed p' mp (held.filter fun h => h = mp ∨ h ≠ c) dat extra l r b q) :
    Passed p mp held dat extra (c :: l) r b q := by
  rcases hq with ⟨gone, rest, rfl, hrest, htied, hkeep'⟩
  refine ⟨c :: gone, rest, rfl, ?_, ?_, hkeep.trans hkeep'⟩
  · rw [← hkeep.cont]
    exact hrest
  · rw [filter_filter] at htied
    have heq : held.filter (fun h => decide (h = mp ∨ h ∉ c :: gone)) =
        held.filter (fun h => decide (h = mp ∨ h ∉ gone) &&
          decide (h = mp ∨ h ≠ c)) := by
      apply filter_congr
      intro h _
      by_cases hm : h = mp
      · simp [hm]
      · by_cases hc : h = c
        · subst hc
          simp [hm]
        · simp [hm, hc]
    rw [heq]
    exact htied

theorem pullupLoop {mp : Nat} {bp : Option Nat} {len : Int} {wptr w : Nat} (fuel : Nat)
    (hp : Tied p held dat extra) (hl : Chain p.cont bp l r) (hnodup : l.Nodup)
    (hheld : ∀ c ∈ l, c ≠ mp → c ∈ held ∧ dat c = some (p.datap c)) (hlen : len ≤ p.bytes l)
    (hrun : Pool.pullupLoop mp fuel p len bp wptr = some (q, b, w)) :
    Passed p mp held dat extra l r b q := by
  induction fuel generalizing p held bp l len wptr with
  | zero =>
    cases bp with
    | none =>
      cases hrun
      exact passed_nil hl hp (Pool.LoopKeeps.refl _)
    | some c =>
      unfold Pool.pullupLoop at hrun
      split at hrun
      · cases hrun
        exact passed_nil hl hp (Pool.LoopKeeps.refl _)
      · cases hrun
  | succ fuel ih =>
    cases bp with
    | none =>
      cases hrun
      exact passed_nil hl hp (Pool.LoopKeeps.refl _)
    | some c =>
      by_cases hpos : 0 < len
      · cases l with
        | nil =>
          -- The bytes to be moved are in the blocks that are left.
          simp only [Pool.bytes, map_nil, sum_nil] at hlen
          omega
        | cons c' rest =>
          rcases hl with ⟨hc, hrest⟩
          cases hc
          rw [nodup_cons] at hnodup
          rw [Pool.pullupLoop_succ hpos] at hrun
          dsimp only at hrun
          split at hrun
          · cases hrun
            exact passed_nil ⟨rfl, hrest⟩ (hp.move ..) (p.move_keeps ..)
          · rename_i hempty
            have hkeep := p.drain_keeps mp c (min (p.size c) len.toNat) wptr
            have hsize : Pool.bytes (p.drain mp c (min (p.size c) len.toNat) wptr) rest =
                p.bytes rest := by
              apply Pool.bytes_congr
              intro x hx
              exact p.size_drain_of_ne (ne_of_mem_of_not_mem hx hnodup.1)
            have hrest' : Chain (p.drain mp c (min (p.size c) len.toNat)
                wptr).cont (p.cont c) rest r := by
              rw [hkeep.cont]
              exact hrest
            apply Passed.cons hkeep
            apply ih (hp.drain (hheld c (by simp)) _ _) hrest' hnodup.2 _ _ hrun
            · intro x hx hxm
              have hold := hheld x (by simp [hx]) hxm
              have hxc : x ≠ c := ne_of_mem_of_not_mem hx hnodup.1
              rw [hkeep.datap]
              exact ⟨mem_filter.mpr ⟨hold.1, by simp [hxc]⟩, hold.2⟩
            · rw [Pool.bytes_cons] at hlen
              omega
      · unfold Pool.pullupLoop at hrun
        split at hrun
        · cases hrun
          exact passed_nil hl hp (Pool.LoopKeeps.refl _)
        · rw [if_pos (by omega)] at hrun
          cases hrun

/-!
## The header is connected to another data block
-/

theorem setMsgaddr {w x : Nat} (hp : Tied p held dat extra)
    (hw : ∀ h ∈ held, dat h ≠ some w) (hx : x ∈ p.mdbs) :
    Tied (p.setDatab w { p.datab w with dbMsgaddr := x }) held dat extra := by
  have hother : ∀ d, d ≠ w → (p.setDatab w { p.datab w with dbMsgaddr := x }).msgaddr d =
        p.msgaddr d := by
    intro d hd
    simp [Pool.msgaddr, Pool.setDatab, hd]
  have hfield : ∀ {α : Type} (f : Datab → α),
      f { p.datab w with dbMsgaddr := x } = f (p.datab w) → ∀ d,
      f (update p.datab w { p.datab w with dbMsgaddr := x } d) = f (p.datab d) := by
    intro α f hf d
    by_cases hd : d = w
    · subst hd
      rw [update_self, hf]
    · rw [update_of_ne hd]
  refine ⟨hp.counted.congr rfl rfl rfl rfl (fun d _ => hfield Datab.dbRef rfl d)
    (fun d _ => hfield Datab.dbIswhat rfl d) rfl, hp.data, hp.others, ?_, ?_⟩
  · intro h hh d hd
    have hne : d ≠ w := by
      rintro rfl
      exact hw h hh hd
    rw [hother d hne]
    exact hp.msgaddr h hh d hd
  · intro d hd
    by_cases hdw : d = w
    · subst hdw
      simpa [Pool.msgaddr, Pool.setDatab] using hx
    · rw [hother d hdw]
      exact hp.addr d hd

theorem setXconn {t : Nat} (hp : Tied p held dat extra)
    (hM : p.iswhat t ≠ .notM) (hD : p.iswhat t ≠ .notD) :
    Tied (p.setIswhat t .xconn) held dat extra := by
  have hc := hp.counted
  have hwhat : ∀ w : Iswhat, w ≠ .xconn → (w = .notM ∨ w = .notD) → ∀ d,
      ((p.setIswhat t .xconn).iswhat d = w ↔ p.iswhat d = w) := by
    intro w hw hcase d
    rw [Pool.iswhat_setIswhat]
    by_cases hd : d = t
    · subst hd
      rw [update_self]
      rcases hcase with rfl | rfl
      · exact iff_of_false hw.symm hM
      · exact iff_of_false hw.symm hD
    · rw [update_of_ne hd]
  refine hp.of_counted ⟨hc.lt, hc.nodup, hc.held_nodup, hc.known, hc.mdb_nodup,
    hc.msg_nodup, hc.msgfree, hc.mdbfree, hc.zero, ?_, hc.small, ?_, ?_, hc.life⟩
    (fun _ hh => hh) (fun _ hd => hd) rfl (Pool.msgaddr_setIswhat ..)
  · intro d hd hne
    rw [Pool.ref_setIswhat]
    exact hc.ref d hd hne
  · intro d hd hno
    rw [hwhat .notM (by simp) (.inl rfl)]
    exact hc.notM d hd hno
  · intro d hd hno
    rw [hwhat .notD (by simp) (.inr rfl)]
    exact hc.notD d hd hno

end Tied

/-- The part of `reconnect` where `mp` is the header of a triplet. -/
def Pool.crossConnect (p : Pool) (mp w dbp : Nat) : Pool :=
  if (p.datab dbp).dbMsgaddr = mp then
    let p := p.setDatab w { p.datab w with dbMsgaddr := mp }
    if (p.datab mp).dbIswhat ≠ .notD then p.setIswhat mp .xconn else p
  else p

namespace Tied

variable {p q : Pool} {held extra : List Nat} {dat : Nat → Option Nat}

theorem crossConnect {mp w dbp : Nat} (hp : Tied p held dat extra)
    (hmp : mp ∈ held) (hw : ∀ h ∈ held, dat h ≠ some w) (hself : p.msgaddr w = w)
    (hne : mp ≠ w) (haddr : p.msgaddr dbp = mp ↔ mp ∈ p.mdbs) :
    Tied (p.crossConnect mp w dbp) held dat extra ∧ (p.crossConnect mp w dbp).msgb = p.msgb ∧
      (p.crossConnect mp w dbp).mdbs = p.mdbs ∧
      ((p.crossConnect mp w dbp).msgaddr w = mp ↔ mp ∈ p.mdbs) := by
  unfold Pool.crossConnect
  by_cases hat : (p.datab dbp).dbMsgaddr = mp
  · have hmdb : mp ∈ p.mdbs := haddr.mp hat
    rw [if_pos hat]
    have hset := hp.setMsgaddr hw hmdb
    have hnew : (p.setDatab w { p.datab w with dbMsgaddr := mp }).msgaddr w =
        mp := by
      simp [Pool.msgaddr, Pool.setDatab]
    dsimp only
    split
    · rename_i hD
      have hM : (p.setDatab w { p.datab w with dbMsgaddr := mp }).iswhat mp ≠
          .notM := by
        intro hwhat
        have hc := hset.counted
        exact (hc.notM mp hmdb (hc.not_free_of_held hmp)).mp hwhat hmp
      refine ⟨hset.setXconn hM hD, rfl, rfl, ?_⟩
      rw [Pool.msgaddr_setIswhat, hnew]
      exact iff_of_true rfl hmdb
    · refine ⟨hset, rfl, rfl, ?_⟩
      rw [hnew]
      exact iff_of_true rfl hmdb
  · rw [if_neg hat]
    refine ⟨hp, rfl, rfl, ?_⟩
    rw [hself]
    exact iff_of_false hne.symm fun hmdb => hat (haddr.mpr hmdb)

theorem reconnect {mp w dbp wptr : Nat} {bcont : Option Nat}
    (hp : Tied p (w :: held) dat [w]) (hmp : mp ∈ held) (hdmp : dat mp = none)
    (hdw : dat w = none) (hfree : ∀ h ∈ w :: held, dat h ≠ some w)
    (hself : p.msgaddr w = w) (hdatap : p.datap w = w) (haddr : p.msgaddr dbp = mp ↔ mp ∈ p.mdbs) :
    Tied (p.reconnect mp w dbp wptr bcont) held (update dat mp (some w)) [] ∧
      (p.reconnect mp w dbp wptr bcont).datap mp = w ∧
      (p.reconnect mp w dbp wptr bcont).cont mp = bcont ∧
      ∀ h ∈ held, h ≠ mp → (p.reconnect mp w dbp wptr bcont).msgb h = p.msgb h := by
  have hnodup := hp.counted.held_nodup
  rw [nodup_cons] at hnodup
  have hne : mp ≠ w := ne_of_mem_of_not_mem hmp hnodup.1
  have hwmdb : w ∈ p.mdbs := hp.others w (by simp)
  let x : Msgb := { p.msgb w with
    bBand := (p.msgb mp).bBand, bFlag := (p.msgb mp).bFlag
    bWptr := max wptr (p.msgb w).bRptr
    bRptr_le := Nat.le_max_right _ _ }
  have hx : Tied (p.setMsgb w x) (w :: held) dat [w] :=
    hp.congr rfl rfl rfl rfl rfl rfl rfl rfl
  rcases hx.crossConnect (mem_cons_of_mem _ hmp) hfree hself hne haddr with
    ⟨hcross, hmsgb, hmdbs, hat⟩
  have hloss := hcross.loseHeader (mem_cons_self ..) hdw (by rw [hmdbs]; exact hwmdb)
    (by rw [refs_extra, if_pos rfl]; omega)
  rw [erase_cons_head] at hloss
  have hdone := hloss.attach (h := mp) hmp hdmp (by
    rw [Pool.msgaddr_setIswhat]
    change _ ↔ mp ∈ ((p.setMsgb w x).crossConnect mp w dbp).mdbs
    rw [hmdbs]
    exact hat)
  have hother : ∀ h, h ≠ mp → (p.reconnect mp w dbp wptr bcont).msgb h =
      (p.setMsgb w x).msgb h := by
    intro h hh
    exact (update_of_ne hh _ _).trans (congrFun hmsgb h)
  let q := ((p.setMsgb w x).crossConnect mp w dbp).setIswhat w .notM
  have hlast : (p.reconnect mp w dbp wptr bcont).msgb mp = { q.msgb mp with
      bDatap := q.datap w, bRptr := (q.msgb w).bRptr, bWptr := (q.msgb w).bWptr
      bRptr_le := (q.msgb w).bRptr_le, bCont := bcont } :=
    update_self ..
  have hdatap' : (p.reconnect mp w dbp wptr bcont).datap mp = w := by
    have hself' : (p.reconnect mp w dbp wptr bcont).datap mp =
        ((p.setMsgb w x).crossConnect mp w dbp).datap w := by
      unfold Pool.datap
      rw [hlast]
      rfl
    have hx' : (p.setMsgb w x).datap w = p.datap w := by
      simp [Pool.datap, Pool.setMsgb, x]
    rw [hself', Pool.datap_of_msgb (congrFun hmsgb w), hx', hdatap]
  refine ⟨hdone.congr rfl rfl rfl rfl rfl rfl rfl rfl, hdatap', ?_, ?_⟩
  · unfold Pool.cont
    rw [hlast]
  · intro h hh hhm
    rw [hother h hhm]
    exact update_of_ne (ne_of_mem_of_not_mem hh hnodup.1) _ _

end Tied

/-- The blocks before the one that `mp` goes on with are given up. -/
def Pulled (p : Pool) (held : List Nat) (mp : Nat) (l : List Nat) (q : Pool) :
    Prop :=
  ∃ gone, Chain p.cont (some mp) gone (q.cont mp) ∧ (gone <+: l ∨ gone = [mp]) ∧
    Sound q (held.filter fun h => h = mp ∨ h ∉ gone)

namespace Sound

variable {p q : Pool} {held l : List Nat} {mp : Nat} {r : Option Nat} {len : Int}

theorem pulled_of_same (hq : Sound q held) (hcont : q.cont mp = p.cont mp) :
    Pulled p held mp l q := by
  refine ⟨[mp], ⟨rfl, hcont.symm⟩, .inr rfl, ?_⟩
  have hall : held.filter (fun h => decide (h = mp ∨ h ∉ [mp])) = held := by
    rw [filter_eq_self]
    intro h _
    by_cases hh : h = mp <;> simp [hh]
  rw [hall]
  exact hq

theorem pulled_of_passed {gone rest : List Nat} {b : Option Nat}
    (hl : Chain p.cont (some mp) l r) (hsplit : l = gone ++ rest)
    (hrest : Chain p.cont b rest r) (hcont : q.cont mp = b)
    (hq : Sound q (held.filter fun h => h = mp ∨ h ∉ gone)) : Pulled p held mp l q := by
  rw [hsplit] at hl
  rcases Chain.append_iff.mp hl with ⟨m, hgone, hrest'⟩
  refine ⟨gone, ?_, .inl ⟨rest, hsplit.symm⟩, hq⟩
  rw [hcont, hrest.head_unique hrest']
  exact hgone

theorem replaced (hp : Sound p held) (d : Nat) (b : Buffer) : Sound (p.note (.replaced d b)) held :=
  Tied.replaced hp d b

theorem pullupOwn {ok : Bool} (hp : Sound p held)
    (hl : Chain p.cont (some mp) l r) (hnodup : l.Nodup)
    (hheld : ∀ c ∈ l, c ∈ held) (hlen : len ≤ p.bytes l)
    (hrun : p.pullupOwn mp len = some (ok, q)) : Pulled p held mp l q := by
  unfold Pool.pullupOwn at hrun
  cases hkmem : p.kmemAlloc (Pool.uint len) with
  | mk buf p' =>
    rcases Pool.kmemAlloc_eq hkmem with ⟨k, rfl⟩
    rw [hkmem] at hrun
    cases buf with
    | none =>
      cases hrun
      exact pulled_of_same (hp.congr rfl rfl rfl rfl rfl rfl rfl rfl rfl) rfl
    | some newbuf =>
      have hset : Sound (Pool.setDatab { p with kmem := k } (p.datap mp)
          { p.datab (p.datap mp) with dbSize := Pool.uint len }) held :=
        Sound.editData (p := { p with kmem := k })
          (hp.congr rfl rfl rfl rfl rfl rfl rfl rfl rfl) _ rfl rfl rfl
      simp only [Option.bind_eq_bind, Option.pure_def, Option.bind_eq_some_iff] at hrun
      rcases hrun with ⟨⟨p₁, b, w⟩, hloop, hrun⟩
      have hpass := Tied.pullupLoop _ hset hl hnodup (fun c hc _ => ⟨hheld c hc, rfl⟩) hlen hloop
      rcases hpass with ⟨gone, rest, hsplit, hrest, htied, hkeep⟩
      have hp₁ : Sound p₁ (held.filter fun h => h = mp ∨ h ∉ gone) := by
        apply of_tied htied
        intro h _
        rw [hkeep.datap]
      cases hrun
      refine pulled_of_passed hl hsplit hrest ?_ ?_
      · simp [Pool.cont, Pool.setMsgb, Pool.setDatab, Pool.note, Pool.setCont]
      · have hcont : Sound (p₁.setCont mp b)
            (held.filter fun h => h = mp ∨ h ∉ gone) := hp₁.edit _ rfl
        have hnote := hcont.replaced (p.datap mp) ((p₁.setCont mp b).buffer (p.datap mp))
        apply edit
        · apply hnote.editData
          · rfl
          · rfl
          · rfl
        · rfl

end Sound

/-- The first steps of `pullupShared`, with the new data block. -/
def Pool.unshare (p : Pool) (w dbp : Nat) : Pool :=
  let p := p.setDatab w { p.datab w with dbType := (p.datab dbp).dbType }
  p.setRef dbp ((p.datab dbp).dbRef - 1)

/--
The pool while `pullupmsg` moves bytes to the data block of `w`: the
header `mp` has no data block, and nobody has that of `w`.
-/
structure Unshared (p q : Pool) (held : List Nat) (mp w : Nat)
    (dat : Nat → Option Nat) : Prop where
  tied : Tied q (w :: held) dat [w]
  first : dat mp = none
  new : dat w = none
  others : ∀ h ∈ held, h ≠ mp → dat h = some (p.datap h)
  unused : ∀ h ∈ held, p.datap h ≠ w
  msgb : ∀ h ∈ held, q.msgb h = p.msgb h
  addr : q.msgaddr (p.datap mp) = mp ↔ mp ∈ q.mdbs
  self : q.msgaddr w = w
  datap : q.datap w = w

namespace Sound

variable {p q : Pool} {held l : List Nat} {mp : Nat} {r : Option Nat} {len : Int}

theorem unshare {w : Nat} (hp : Sound p held) (hmp : mp ∈ held) (hshared : 1 < p.ref (p.datap mp))
    (hkeep : Keeps p q held (refs held (fun h => some (p.datap h)) []))
    (hnew : Allocated q held (refs held (fun h => some (p.datap h)) []) w) :
    Unshared p (q.unshare w (p.datap mp)) held mp w (update
      (update (fun h => some (p.datap h)) w none) mp none) := by
  have hne : mp ≠ w := ne_of_mem_of_not_mem hmp hnew.not_held
  have hunused : ∀ h ∈ held, p.datap h ≠ w := by
    intro h hh heq
    have hzero := hnew.unused
    rw [← heq] at hzero
    exact refs_datap_pos hh hzero
  let dbp := p.datap mp
  have hdw : dbp ≠ w := hunused mp hmp
  let dat : Nat → Option Nat :=
    update (fun h => some (p.datap h)) w none
  let dat' : Nat → Option Nat := update dat mp none
  have hdat : ∀ h ∈ held, dat h = some (p.datap h) := fun h hh =>
    update_of_ne (ne_of_mem_of_not_mem hh hnew.not_held) _ _
  have hmp' : mp ∈ w :: held := mem_cons_of_mem _ hmp
  let q' := q.setDatab w { q.datab w with dbType := (q.datab dbp).dbType }
  have htriplet : Tied q (w :: held) dat [w] := hp.triplet hnew hkeep
  have htype : Tied q' (w :: held) dat [w] := htriplet.editData _ rfl rfl rfl
  have href : q'.ref dbp = p.ref dbp := by
    have hother : q'.datab dbp = q.datab dbp := update_of_ne hdw _ _
    unfold Pool.ref
    rw [hother, hkeep.datab _ (refs_datap_pos hmp)]
  have hdetach : Tied q' (w :: held) dat' [dbp, w] :=
    htype.detach hmp' (hdat mp hmp)
  have hleft : refs (w :: held) dat' [w] dbp ≠ 0 := by
    have hpos : refs (w :: held) dat' [dbp, w] dbp ≠ 0 := by
      rw [refs_extra_fun]
      exact plus_ne_zero
    have hcount := hdetach.counted.ref _ (hdetach.others _ (by simp)) hpos
    rw [refs_extra_fun, plus_self, href] at hcount
    have hshared' : 1 < p.ref dbp := hshared
    omega
  have haddr : (q.unshare w dbp).msgaddr = q.msgaddr := by
    refine (Pool.msgaddr_setRef ..).trans ?_
    funext d
    by_cases hd : d = w <;> simp [Pool.msgaddr, Pool.setDatab, hd]
  refine ⟨hdetach.dropRef hleft, update_self .., ?_, ?_, hunused, hkeep.msgb, ?_, ?_, hnew.datap⟩
  · exact (update_of_ne hne.symm _ _).trans (update_self ..)
  · intro h hh hhm
    exact (update_of_ne hhm _ _).trans (hdat h hh)
  · rw [haddr]
    exact htriplet.msgaddr mp hmp' dbp (hdat mp hmp)
  · rw [haddr]
    exact hnew.msgaddr

theorem pullupShared {ok : Bool} (hp : Sound p held) (hmp : mp ∈ held)
    (hl : Chain p.cont (some mp) l r) (hnodup : l.Nodup)
    (hheld : ∀ c ∈ l, c ∈ held) (hlen : len ≤ p.bytes l) (hshared : 1 < p.ref (p.datap mp))
    (hrun : p.pullupShared mp len = some (ok, q)) : Pulled p held mp l q := by
  unfold Pool.pullupShared at hrun
  rcases hp.counted.allocb len with ⟨w, p₁, halloc, hkeep, hnew⟩
  rw [halloc] at hrun
  cases w with
  | none =>
    cases hrun
    exact pulled_of_same (hp.fail hnew hkeep) (Pool.cont_of_msgb (hkeep.msgb mp hmp))
  | some w =>
    have hbind : (Pool.pullupLoop mp (p₁.unshare w (p.datap mp)).nhdr
        (p₁.unshare w (p.datap mp)) len (some mp)
        ((p₁.unshare w (p.datap mp)).msgb w).bWptr).bind (fun x =>
          some (true, x.1.reconnect mp w (p.datap mp) x.2.2 x.2.1)) =
        some (ok, q) := hrun
    rcases Option.bind_eq_some_iff.mp hbind with ⟨⟨p₃, b, wptr⟩, hloop, hq⟩
    have hlast : p₃.reconnect mp w (p.datap mp) wptr b = q :=
      congrArg Prod.snd (Option.some.inj hq)
    have hun := hp.unshare hmp hshared hkeep hnew
    revert hun hloop
    generalize p₁.unshare w (p.datap mp) = p₂
    generalize update (update (fun h => some (p.datap h)) w none) mp none = dat
    intro hloop hun
    have hl' : Chain p₂.cont (some mp) l r :=
      hl.congr fun c hc => Pool.cont_of_msgb (hun.msgb c (hheld c hc))
    have hlen' : len ≤ p₂.bytes l := by
      have hsame : p₂.bytes l = p.bytes l := by
        apply Pool.bytes_congr
        intro c hc
        unfold Pool.size
        rw [hun.msgb c (hheld c hc)]
      rw [hsame]
      exact hlen
    have hinuse : ∀ c ∈ l, c ≠ mp → c ∈ w :: held ∧ dat c = some (p₂.datap c) := by
      intro c hc hcm
      refine ⟨mem_cons_of_mem _ (hheld c hc), ?_⟩
      rw [Pool.datap_of_msgb (hun.msgb c (hheld c hc))]
      exact hun.others c (hheld c hc) hcm
    rcases Tied.pullupLoop _ hun.tied hl' hnodup hinuse hlen' hloop with
      ⟨gone, rest, hsplit, hrest, htied, hkeeps⟩
    have hwgone : w ∉ gone := by
      intro hw
      exact hnew.not_held (hheld w (by rw [hsplit]; simp [hw]))
    rw [filter_cons_of_pos (by simp [hwgone])] at htied
    have hmem : ∀ h ∈ held.filter (fun h => decide (h = mp ∨ h ∉ gone)),
        h ∈ held := fun h hh => (mem_filter.mp hh).1
    have hmpin : mp ∈ held.filter fun h => decide (h = mp ∨ h ∉ gone) :=
      mem_filter.mpr ⟨hmp, by simp⟩
    have hfree : ∀ h ∈ w :: held.filter (fun h => decide (h = mp ∨ h ∉ gone)), dat h ≠ some w := by
      intro h hh hat
      rcases mem_cons.mp hh with rfl | hh
      · rw [hun.new] at hat
        cases hat
      · by_cases hhm : h = mp
        · rw [hhm, hun.first] at hat
          cases hat
        · rw [hun.others h (hmem h hh) hhm] at hat
          exact hun.unused h (hmem h hh) (Option.some.inj hat)
    have haddr : p₃.msgaddr (p.datap mp) = mp ↔ mp ∈ p₃.mdbs := by
      rw [hkeeps.msgaddr, hkeeps.mdbs]
      exact hun.addr
    have hself : p₃.msgaddr w = w := by
      rw [hkeeps.msgaddr]
      exact hun.self
    have hdatap : p₃.datap w = w := by
      rw [hkeeps.datap]
      exact hun.datap
    rcases Tied.reconnect htied hmpin hun.first
      hun.new hfree hself hdatap haddr with ⟨hdone, hmp₁, hcont, hmsgb₁⟩
    rw [hlast] at hdone hmp₁ hcont hmsgb₁
    have hrest' : Chain p.cont b rest r := by
      apply hrest.congr
      intro c hc
      have hin : c ∈ held := hheld c (by rw [hsplit]; simp [hc])
      exact (Pool.cont_of_msgb (hun.msgb c hin)).symm
    refine pulled_of_passed hl hsplit hrest' hcont ?_
    apply of_tied hdone
    intro h hh
    by_cases hhm : h = mp
    · subst hhm
      rw [update_self, hmp₁]
    · rw [update_of_ne hhm, hun.others h (hmem h hh) hhm,
        Pool.datap_of_msgb (hmsgb₁ h hh hhm), hkeeps.datap,
        Pool.datap_of_msgb (hun.msgb h (hmem h hh))]

end Sound

theorem Pulled.first {p q : Pool} {held l : List Nat} {mp : Nat} {r : Option Nat}
    (hq : Pulled p held mp l q) (hl : Chain p.cont (some mp) l r)
    (hnodup : l.Nodup) (hend : (∀ c ∈ l, some c ≠ r) ∨ l = [mp]) :
    ∃ gone, Chain p.cont (some mp) gone (q.cont mp) ∧
      ((∀ c ∈ gone, some c ≠ q.cont mp) ∨ gone = [mp]) ∧
      Sound q (held.filter fun h => h = mp ∨ h ∉ gone) := by
  rcases hq with ⟨gone, hgone, hpart, hsound⟩
  refine ⟨gone, hgone, ?_, hsound⟩
  rcases hpart with ⟨rest, rfl⟩ | hone
  · rcases Chain.append_iff.mp hl with ⟨m, hgone', hrest⟩
    have hm := hgone.end_unique hgone'
    rw [hm]
    cases rest with
    | nil =>
      rw [hrest]
      simpa using hend
    | cons x rest =>
      rcases hrest with ⟨rfl, _⟩
      left
      rintro c hc heq
      cases heq
      rw [nodup_append] at hnodup
      exact hnodup.2.2 _ hc _ (mem_cons_self ..) rfl
  · exact .inr hone

theorem Sound.pullupmsg {p q : Pool} {held : List Nat} {mp : Nat} {len : Int}
    {ok : Bool} (hp : Sound p held) (hheld : ∀ l r, Chain p.cont (some mp) l r → ∀ c ∈ l, c ∈ held)
    (hrun : p.pullupmsg mp len = some (ok, q)) : ∃ gone, Chain p.cont (some mp) gone (q.cont mp) ∧
      ((∀ c ∈ gone, some c ≠ q.cont mp) ∨ gone = [mp]) ∧
      Sound q (held.filter fun h => h = mp ∨ h ∉ gone) := by
  have hmp : mp ∈ held := hheld [mp] _ ⟨rfl, rfl⟩ mp (by simp)
  unfold Pool.pullupmsg at hrun
  simp only [Option.bind_eq_bind, Option.pure_def, Option.bind_eq_some_iff] at hrun
  rcases hrun with ⟨n | n, hlen, hrun⟩
  · cases hrun
    have hone : Chain p.cont (some mp) [mp] (p.cont mp) := ⟨rfl, rfl⟩
    exact (hp.pulled_of_same rfl).first hone (nodup_singleton mp) (.inr rfl)
  · rcases Pool.pullupLen_spec hlen with ⟨l, r, hl, hnodup, hend, hbytes⟩
    have hin := hheld l r hl
    dsimp only at hrun
    split at hrun
    · rename_i hshared
      exact (hp.pullupShared hmp hl hnodup hin hbytes hshared hrun).first hl hnodup hend
    · exact (hp.pullupOwn hl hnodup hin hbytes hrun).first hl hnodup hend

end Messages
end Svr4
