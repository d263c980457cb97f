import Svr4.Messages.Blocks

/-!
# Routines between calls

Between calls every held header is tied to the data block it points to, and
there are no other references.  The routines that take or give up one block
keep it so.
-/

namespace Svr4
namespace Messages

open Function

def Sound (p : Pool) (held : List Nat) : Prop :=
  Tied p held (fun h => some (p.datap h)) []

variable {p q : Pool} {h bp : Nat}

theorem refs_datap_pos {held : List Nat} (hh : h ∈ held) :
    refs held (fun h => some (p.datap h)) [] (p.datap h) ≠ 0 :=
  refs_pos_of_mem hh rfl

/-- A routine returns a new block, or none, and leaves the blocks in use. -/
structure Gains (p : Pool) (held : List Nat) (r : Option Nat) (q : Pool) :
    Prop where
  msgb : ∀ h ∈ held, q.msgb h = p.msgb h
  failed : r = none → Sound q held
  gained : ∀ t, r = some t → t ∉ held ∧ Sound q (t :: held) ∧ q.cont t = none

namespace Pool

theorem datap_of_msgb (hsame : q.msgb h = p.msgb h) : q.datap h = p.datap h := by
  unfold datap
  rw [hsame]

theorem cont_of_msgb (hsame : q.msgb h = p.msgb h) : q.cont h = p.cont h := by
  unfold cont
  rw [hsame]

end Pool

namespace Sound

variable {p q : Pool} {held : List Nat} {h t : Nat}

theorem of_tied {dat : Nat → Option Nat} (hp : Tied q held dat [])
    (hdat : ∀ h ∈ held, dat h = some (q.datap h)) : Sound q held :=
  hp.dat_congr fun h hh => (hdat h hh).symm

theorem congr (hp : Sound p held) (hmdbs : q.mdbs = p.mdbs)
    (hmsgs : q.msgs = p.msgs) (hmdbfree : q.mdbfreelist = p.mdbfreelist)
    (hmsgfree : q.msgfreelist = p.msgfreelist) (href : q.ref = p.ref)
    (hwhat : q.iswhat = p.iswhat) (haddr : q.msgaddr = p.msgaddr)
    (hlog : q.log = p.log) (hdatap : q.datap = p.datap) : Sound q held := by
  unfold Sound
  rw [hdatap]
  exact Tied.congr hp hmdbs hmsgs hmdbfree hmsgfree href hwhat haddr hlog

theorem ref_eq (hp : Sound p held) (hh : h ∈ held) :
    p.ref (p.datap h) = refs held (fun h => some (p.datap h)) [] (p.datap h) :=
  hp.counted.ref _ (hp.data h hh _ rfl) (refs_datap_pos hh)

theorem freeb (hp : Sound p held) (hh : h ∈ held) : Sound (p.freeb h) (held.erase h) := by
  apply of_tied (Tied.freeb hp hh rfl)
  intro x _
  rw [Pool.datap_of_msgb]
  rw [Pool.msgb_freeb]

/-!
## Allocation
-/

theorem gain {f : Nat → Option Nat} (hq : Tied q (t :: held) f [])
    (hmsgb : ∀ h ∈ held, q.msgb h = p.msgb h) (hdat : ∀ h ∈ held, f h = some (p.datap h))
    (ht : f t = some (q.datap t)) : Sound q (t :: held) := by
  apply of_tied hq
  intro h hh
  rcases List.mem_cons.mp hh with rfl | hh
  · exact ht
  · rw [hdat h hh, Pool.datap_of_msgb (hmsgb h hh)]

theorem fail (hp : Sound p held) (hq : Counted q held (refs held (fun h => some (p.datap h)) []))
    (hkeep : Keeps p q held (refs held (fun h => some (p.datap h)) [])) : Sound q held := by
  apply of_tied (hp.keep hq hkeep)
  intro h hh
  rw [Pool.datap_of_msgb (hkeep.msgb h hh)]

theorem allocb (hp : Sound p held) (size : Int) :
    ∃ r q, p.allocb size = (r, q) ∧ Gains p held r q ∧ ∀ t, r = some t → q.datap t = t := by
  rcases hp.counted.allocb size with ⟨r, q, hrun, hkeep, hq⟩
  refine ⟨r, q, hrun, ⟨hkeep.msgb, ?_, ?_⟩, ?_⟩
  · rintro rfl
    exact hp.fail hq hkeep
  · rintro t rfl
    refine ⟨hq.not_held, ?_, hq.cont⟩
    apply gain (hp.allocated hq hkeep) hkeep.msgb
    · intro h hh
      exact update_of_ne (ne_of_mem_of_not_mem hh hq.not_held) _ _
    · rw [update_self, hq.datap]
  · rintro t rfl
    exact hq.datap

theorem edit (hp : Sound p held) (x : Msgb) (hx : x.bDatap = p.datap h) :
    Sound (p.setMsgb h x) held := by
  apply hp.congr (q := p.setMsgb h x) rfl rfl rfl rfl rfl rfl rfl rfl
  funext y
  change (update p.msgb h x y).bDatap = (p.msgb y).bDatap
  by_cases hy : y = h
  · subst hy
    rw [update_self, hx]
    rfl
  · rw [update_of_ne hy]

theorem editData (hp : Sound p held) {d : Nat} (x : Datab)
    (href : x.dbRef = p.ref d) (hwhat : x.dbIswhat = p.iswhat d)
    (haddr : x.dbMsgaddr = p.msgaddr d) : Sound (p.setDatab d x) held :=
  Tied.editData hp x href hwhat haddr

end Sound

theorem Gains.edit {held : List Nat} {t : Nat} (hgain : Gains p held (some t) q) (x : Msgb)
    (e : Nat) (d : Datab) (m : Nat → Nat) (hx : x.bDatap = q.datap t) (hcont : x.bCont = none)
    (href : d.dbRef = q.ref e) (hwhat : d.dbIswhat = q.iswhat e)
    (haddr : d.dbMsgaddr = q.msgaddr e) :
    Gains p held (some t) { (q.setDatab e d).setMsgb t x with mem := m } ∧
      Pool.datap { (q.setDatab e d).setMsgb t x with mem := m } t = q.datap t := by
  have hnew := hgain.gained t rfl
  have hself : update q.msgb t x t = x := update_self ..
  refine ⟨⟨?_, by simp, ?_⟩, ?_⟩
  · intro h hh
    have hne : h ≠ t := ne_of_mem_of_not_mem hh hnew.1
    exact (update_of_ne hne _ _).trans (hgain.msgb h hh)
  · rintro t' ht'
    cases ht'
    refine ⟨hnew.1, ?_, ?_⟩
    · have hedit := (hnew.2.1.editData d href hwhat haddr).edit x hx
      exact hedit.congr rfl rfl rfl rfl rfl rfl rfl rfl rfl
    · change (update q.msgb t x t).bCont = none
      rw [hself, hcont]
  · change (update q.msgb t x t).bDatap = q.datap t
    rw [hself, hx]

namespace Sound

variable {p q : Pool} {held : List Nat} {h t : Nat}

theorem esballoc (hp : Sound p held) (base size : Nat) (rtn : Option FreeRtn) :
    ∃ r q, p.esballoc base size rtn = (r, q) ∧ Gains p held r q ∧
      ∀ t, r = some t → q.datap t = t := by
  unfold Pool.esballoc
  by_cases hbad : base = 0 ∨ rtn = none
  · rw [if_pos hbad]
    exact ⟨none, p, rfl, ⟨fun _ _ => rfl, fun _ => hp, by simp⟩, by simp⟩
  · rw [if_neg hbad]
    rcases hp.allocb (-1) with ⟨r, q, hrun, hgain, hdatap⟩
    rw [hrun]
    cases r with
    | none => exact ⟨none, q, rfl, hgain, by simp⟩
    | some t =>
      have hcont := (hgain.gained t rfl).2.2
      have hedit := hgain.edit { q.msgb t with
        bRptr := base, bWptr := base, bRptr_le := Nat.le_refl base }
        (q.datap t) { q.datab (q.datap t) with
          dbFrtnp := rtn, dbBase := base, dbLim := base + size, dbSize := size }
        q.mem rfl hcont rfl rfl rfl
      refine ⟨some t, _, rfl, hedit.1, ?_⟩
      rintro t' ht'
      cases ht'
      exact hedit.2.trans (hdatap t rfl)

theorem copyb (hp : Sound p held) (bp : Nat) :
    ∃ r q, p.copyb bp = (r, q) ∧ Gains p held r q ∧ ∀ t, r = some t → q.datap t = t := by
  unfold Pool.copyb
  dsimp only
  rcases hp.allocb ((p.datab (p.datap bp)).dbLim -
    (p.datab (p.datap bp)).dbBase) with ⟨r, q, hrun, hgain, hdatap⟩
  rw [hrun]
  cases r with
  | none => exact ⟨none, q, rfl, hgain, by simp⟩
  | some t =>
    have hcont := (hgain.gained t rfl).2.2
    refine ⟨some t, _, rfl, ?_⟩
    suffices hedit : Gains p held (some t) _ ∧ Pool.datap _ t = q.datap t by
      refine ⟨hedit.1, ?_⟩
      rintro t' ht'
      cases ht'
      exact hedit.2.trans (hdatap t rfl)
    apply hgain.edit
    · rfl
    · exact hcont
    · rfl
    · rfl
    · rfl

/-!
## Duplicates
-/

section

variable (hp : Sound p held) (hbp : bp ∈ held)
include hp hbp

theorem connect {nbp : Nat}
    (hroom : p.ref (p.datap bp) ≠ 255) (hnbp : nbp ∉ held) (hmdb : nbp ∉ p.mdbs)
    (hq : Counted q (nbp :: held) (refs held (fun h => some (p.datap h)) []))
    (hmdbs : q.mdbs = p.mdbs) (hdatab : q.datab = p.datab)
    (hmsgb : ∀ x, nbp ≠ x → q.msgb x = p.msgb x) :
    Gains p held (some nbp) (q.connect nbp bp) ∧ (q.connect nbp bp).datap nbp = p.datap bp := by
  let dat := update (fun h => some (p.datap h)) nbp none
  have hdat : ∀ h ∈ held, dat h = some (p.datap h) := fun h hh =>
    update_of_ne (ne_of_mem_of_not_mem hh hnbp) _ _
  have hheader : Tied q (nbp :: held) dat [] :=
    Tied.header hp hnbp hmdb hq hmdbs hdatab
  have hbp' : bp ∈ nbp :: held := List.mem_cons_of_mem _ hbp
  have hne : refs (nbp :: held) dat [] (p.datap bp) ≠ 0 :=
    refs_pos_of_mem hbp' (hdat bp hbp)
  have href : q.ref (p.datap bp) = refs (nbp :: held) dat [] (p.datap bp) :=
    hheader.counted.ref _ (hheader.data bp hbp' _ (hdat bp hbp)) hne
  have hsame : q.ref (p.datap bp) = p.ref (p.datap bp) := by
    unfold Pool.ref
    rw [hdatab]
  have hlt : refs (nbp :: held) dat [] (p.datap bp) < 255 := by
    have hsmall := hheader.counted.small (p.datap bp)
    omega
  have hadded := hheader.addRef hne hlt
  have hdatap : q.datap bp = p.datap bp :=
    Pool.datap_of_msgb (hmsgb bp (ne_of_mem_of_not_mem hbp hnbp).symm)
  have haway : (q.setRef (p.datap bp) (q.ref (p.datap bp) + 1)).msgaddr (p.datap bp) = nbp ↔
      nbp ∈ (q.setRef (p.datap bp) (q.ref (p.datap bp) + 1)).mdbs := by
    rw [Pool.msgaddr_setRef]
    change q.msgaddr (p.datap bp) = nbp ↔ nbp ∈ q.mdbs
    rw [hmdbs]
    refine iff_of_false ?_ hmdb
    intro heq
    have hin := hheader.addr _ hne
    rw [heq, hmdbs] at hin
    exact hmdb hin
  have hdone := hadded.attach (List.mem_cons_self ..) (update_self ..) haway
  have hrun : q.connect nbp bp = (q.setRef (p.datap bp)
      (q.ref (p.datap bp) + 1)).setMsgb nbp { q.msgb bp with bCont := none } := by
    unfold Pool.connect
    rw [hdatap]
    rfl
  have hself : (q.connect nbp bp).msgb nbp = { q.msgb bp with bCont := none } := by
    exact update_self ..
  have hother : ∀ h ∈ held, (q.connect nbp bp).msgb h = p.msgb h := by
    intro h hh
    have hnh : h ≠ nbp := ne_of_mem_of_not_mem hh hnbp
    exact (update_of_ne hnh _ _).trans (hmsgb h hnh.symm)
  have hnew : (q.connect nbp bp).datap nbp = p.datap bp := by
    rw [← hdatap]
    unfold Pool.datap
    rw [hself]
  refine ⟨⟨hother, by simp, ?_⟩, hnew⟩
  rintro t ht
  cases ht
  refine ⟨hnbp, ?_, ?_⟩
  · refine gain (f := update dat nbp (some (p.datap bp))) ?_ hother ?_ ?_
    · rw [hrun]
      exact hdone.congr rfl rfl rfl rfl rfl rfl rfl rfl
    · intro h hh
      rw [update_of_ne (ne_of_mem_of_not_mem hh hnbp), hdat h hh]
    · rw [update_self, hnew]
  · unfold Pool.cont
    rw [hself]

/-- `dupb` fails where the reference count has its largest value. -/
theorem dupb :
    ∃ r q, p.dupb bp = (r, q) ∧ Gains p held r q ∧ ∀ t, r = some t → q.datap t = p.datap bp := by
  unfold Pool.dupb
  by_cases hfull : (p.datab (p.datap bp)).dbRef = 255
  · rw [if_pos hfull]
    exact ⟨none, p, rfl, ⟨fun _ _ => rfl, fun _ => hp, by simp⟩, by simp⟩
  · rw [if_neg hfull]
    rcases hp.counted.takeMsgblock with ⟨r, q, hrun, hmdbs, hdatab, hmsgb, hq⟩
    rw [hrun]
    cases r with
    | none =>
      have hkeep : Keeps p q held (refs held (fun h => some (p.datap h)) []) :=
        ⟨fun h _ => hmsgb h (by simp), fun t _ => by rw [hdatab],
          fun t ht => by rwa [hmdbs], fun h _ ht => by rwa [hmdbs] at ht⟩
      exact ⟨none, q, rfl, ⟨hkeep.msgb, fun _ => hp.fail hq hkeep, by simp⟩, by simp⟩
    | some nbp =>
      have hdone := hp.connect hbp hfull hq.1 hq.2.1 hq.2.2 hmdbs hdatab
        fun x hx => hmsgb x (by simpa using hx)
      refine ⟨some nbp, _, rfl, hdone.1, ?_⟩
      rintro t ht
      cases ht
      exact hdone.2

theorem dupbMacro
    (hroom : p.msgfreelist ≠ [] → p.ref (p.datap bp) ≠ 255) :
    ∃ r q, p.dupbMacro bp = (r, q) ∧ Gains p held r q ∧
      ∀ t, r = some t → q.datap t = p.datap bp := by
  unfold Pool.dupbMacro
  cases hfree : p.msgfreelist with
  | nil => exact hp.dupb hbp
  | cons nbp rest =>
    rcases hp.counted.takeMsgblock with ⟨r, q, hrun, hmdbs, hdatab, hmsgb, hq⟩
    have htake : p.takeMsgblock = (some nbp, { p with msgfreelist := rest }) := by
      unfold Pool.takeMsgblock
      rw [hfree]
    rw [htake] at hrun
    cases hrun
    have hdone := hp.connect hbp (hroom (by simp [hfree])) hq.1 hq.2.1 hq.2.2
      hmdbs hdatab fun x hx => hmsgb x (by simpa using hx)
    refine ⟨some nbp, _, rfl, hdone.1, ?_⟩
    rintro t ht
    cases ht
    exact hdone.2

end

end Sound

end Messages
end Svr4
