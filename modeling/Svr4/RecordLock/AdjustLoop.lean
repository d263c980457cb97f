import Svr4.RecordLock.Adjust

/-!
# The loop of flckadj

One round of the loop preserves the loop invariant or leaves the loop in a
state from which the new lock can be inserted; the run of the loop and the
insertion follow from that.
-/

namespace Svr4
namespace RecordLock

open NodeList List

/-- A lock the loop is through with: it lies behind the request. -/
def Behind (ld : Flock) (f : Filock) : Prop :=
  f.set.lEnd < ld.lStart ∧ (ld.lType = f.set.lType → f.set.lEnd + 1 < ld.lStart)

/-- The loop invariant; `todo` are the locks still to be visited. -/
structure LoopInv (lst₀ : List Filock) (ld₀ : Flock) (k₀ : Kern)
    (todo : List Filock) (a : Adj) : Prop where
  kept : Kept lst₀ ld₀ k₀ a
  end_eq : a.ld.lEnd = ld₀.lEnd
  todoMem : ∀ g ∈ todo, g ∈ a.lst
  todoApart : todo.Pairwise Apart
  todoNodup : (todo.map Filock.addr).Nodup
  processed : ∀ f ∈ a.lst, f.owner = ld₀.owner → f ∈ todo ∨ Behind a.ld f
  /-- once something was edited, every lock to come starts in the request -/
  fresh : (a.lst = lst₀ ∧ a.ld = ld₀) ∨ ∀ f ∈ todo, f.owner = ld₀.owner → a.ld.lStart < f.set.lStart

/-- The list is ready for the new lock. -/
structure Settled (lst₀ : List Filock) (ld₀ : Flock) (k₀ : Kern) (a : Adj) :
    Prop where
  kept : Kept lst₀ ld₀ k₀ a
  clear : ∀ f ∈ a.lst, f.owner = ld₀.owner → Clear a.ld f

/-- The request lies inside a lock of its own type, and nothing was edited. -/
def Inside (lst₀ : List Filock) (ld₀ : Flock) (k₀ : Kern) (a : Adj) : Prop :=
  Edited lst₀ ld₀.owner k₀ a.lst a.k ∧ a.ld.owner = ld₀.owner ∧ a.lst = lst₀ ∧
    ∃ f ∈ lst₀, f.owner = ld₀.owner ∧ f.set.lType = ld₀.lType ∧
      f.set.lStart ≤ ld₀.lStart ∧ ld₀.lEnd ≤ f.set.lEnd

def GivenUp (lst₀ : List Filock) (ld₀ : Flock) (k₀ : Kern) (a : Adj) : Prop :=
  Edited lst₀ ld₀.owner k₀ a.lst a.k ∧ a.ld.owner = ld₀.owner ∧
    ∀ x ty, Holds a.lst ld₀.owner x ty → Holds lst₀ ld₀.owner x ty

def StepPost (lst₀ : List Filock) (ld₀ : Flock) (k₀ : Kern)
    (rest : List Filock) : AdjStep → Prop
  | .next a => LoopInv lst₀ ld₀ k₀ rest a
  | .stop a => Settled lst₀ ld₀ k₀ a
  | .ret none a => Inside lst₀ ld₀ k₀ a
  | .ret (some e) a => e = .enolck ∧ GivenUp lst₀ ld₀ k₀ a

variable {g : Filock} {a' a : Adj} {front back : List Filock}

section Round

variable {lst₀ : List Filock} {ld₀ : Flock} {k₀ : Kern} {flp : Filock}
  {rest : List Filock} {a : Adj}

section

variable (h : LoopInv lst₀ ld₀ k₀ (flp :: rest) a)
include h

theorem LoopInv.flp_mem : flp ∈ a.lst :=
  h.todoMem flp (by simp)

theorem LoopInv.rest_apart
    (hg : g ∈ rest) : Apart flp g :=
  (pairwise_cons.mp h.todoApart).1 g hg

theorem LoopInv.rest_addr
    (hg : g ∈ rest) : g.addr ≠ flp.addr := by
  intro heq
  have hnotin := (nodup_cons.mp h.todoNodup).1
  exact hnotin (heq ▸ mem_map_of_mem hg)

theorem LoopInv.tail :
    (∀ g ∈ rest, g ∈ a.lst) ∧ rest.Pairwise Apart ∧ (rest.map Filock.addr).Nodup :=
  ⟨fun g hg => h.todoMem g (mem_cons_of_mem _ hg), (pairwise_cons.mp h.todoApart).2,
    (nodup_cons.mp h.todoNodup).2⟩

theorem LoopInv.pass
    (hbehind : flp.owner = ld₀.owner → Behind a.ld flp) : LoopInv lst₀ ld₀ k₀ rest a where
  kept := h.kept
  end_eq := h.end_eq
  todoMem := h.tail.1
  todoApart := h.tail.2.1
  todoNodup := h.tail.2.2
  processed := by
    intro f hf hown
    rcases h.processed f hf hown with hmem | hb
    · rcases mem_cons.mp hmem with rfl | hin
      · exact .inr (hbehind hown)
      · exact .inl hin
    · exact .inr hb
  fresh := h.fresh.imp id fun hall f hf =>
    hall f (mem_cons_of_mem _ hf)

end

theorem LoopInv.mark (h : LoopInv lst₀ ld₀ k₀ rest a) {p : Nat}
    (hp : ∃ f ∈ a.lst, f.addr = p ∧ f.set.lStart ≤ a.ld.lStart) :
    LoopInv lst₀ ld₀ k₀ rest { a with insrtp := some p } :=
  { h with kept := { h.kept with insrt := fun _ => hp } }

section

variable (h : LoopInv lst₀ ld₀ k₀ (flp :: rest) a) (hown : flp.owner = ld₀.owner)
include h hown

theorem LoopInv.unedited (hle : flp.set.lStart ≤ a.ld.lStart) :
    a.lst = lst₀ ∧ a.ld = ld₀ := by
  rcases h.fresh with hsame | hall
  · exact hsame
  · have := hall flp (by simp) hown
    omega

theorem LoopInv.clear_rest {ld : Flock} (hend : ld.lEnd ≤ flp.set.lEnd)
    (hsep : ld.lEnd = flp.set.lEnd → ld.lType = flp.set.lType) (hg : g ∈ rest)
    (hgown : g.owner = ld₀.owner) : Clear ld g := by
  have hap := (h.rest_apart hg).2 (hown.trans hgown.symm)
  refine .inr ⟨by omega, fun hty => ?_⟩
  by_cases heq : ld.lEnd = flp.set.lEnd
  · have := hap.2 ((hsep heq).symm.trans hty)
    omega
  · omega

theorem LoopInv.past (hend : a.ld.lEnd < flp.set.lStart)
    (hsep : a.ld.lType = flp.set.lType → a.ld.lEnd + 1 < flp.set.lStart) :
    Settled lst₀ ld₀ k₀ a where
  kept := h.kept
  clear := by
    intro f hf hfown
    rcases h.processed f hf hfown with hmem | hb
    · rcases mem_cons.mp hmem with rfl | hin
      · exact .inr ⟨hend, hsep⟩
      · have hap := (h.rest_apart hin).2 (hown.trans hfown.symm)
        have hv := (h.kept.edited.wf.valid flp h.flp_mem).start_le_end
        exact .inr ⟨by omega, fun _ => by omega⟩
    · exact .inl hb

theorem LoopInv.delete
    (hkept : Kept lst₀ ld₀ k₀ a') (hlst : a'.lst = unlink Filock.addr flp.addr a.lst)
    (hend : a'.ld.lEnd = a.ld.lEnd) (hin : a'.ld.lStart ≤ flp.set.lStart)
    (hbehind : ∀ f ∈ a.lst, f.owner = ld₀.owner → Behind a.ld f → Behind a'.ld f) :
    LoopInv lst₀ ld₀ k₀ rest a' where
  kept := hkept
  end_eq := hend.trans h.end_eq
  todoMem := by
    intro g hg
    rw [hlst]
    exact mem_unlink.mpr ⟨h.tail.1 g hg, h.rest_addr hg⟩
  todoApart := h.tail.2.1
  todoNodup := h.tail.2.2
  processed := by
    intro f hf hfown
    rw [hlst] at hf
    rcases mem_unlink.mp hf with ⟨hfa, hne⟩
    rcases h.processed f hfa hfown with hmem | hb
    · rcases mem_cons.mp hmem with rfl | hin
      · exact absurd rfl hne
      · exact .inl hin
    · exact .inr (hbehind f hfa hfown hb)
  fresh := by
    refine .inr fun f hf hfown => ?_
    have hap := (h.rest_apart hf).2 (hown.trans hfown.symm)
    have hv := (h.kept.edited.wf.valid flp h.flp_mem).start_le_end
    omega

end

theorem insertOk_backup_del (hwf : WellFormed a.lst) (hflp : flp ∈ a.lst)
    (hstart : a.ld.lStart = flp.set.lStart) : InsertOk ((a.backup flp).del flp) := by
  have hprev := prevOf_rank hwf.nodup hwf.sorted hflp
  unfold InsertOk
  simp only [Adj.del_insrtp, Adj.backup, Adj.del_lst, Adj.del_ld]
  cases hp : prevOf Filock.addr flp.addr a.lst with
  | none =>
    rw [hp] at hprev
    intro f hf
    have := hprev f (mem_unlink.mp hf).1
    omega
  | some g =>
    rw [hp] at hprev
    exact ⟨g, mem_unlink.mpr ⟨hprev.1, hprev.2.1⟩, rfl, by omega⟩

theorem insertOk_del (hwf : WellFormed a.lst) (hflp : flp ∈ a.lst) (hins : InsertOk a)
    (hlt : a.ld.lStart < flp.set.lStart) (hlst : a'.lst = unlink Filock.addr flp.addr a.lst)
    (hp : a'.insrtp = a.insrtp) (hstart : a'.ld.lStart = a.ld.lStart) : InsertOk a' := by
  unfold InsertOk at hins ⊢
  rw [hp, hlst, hstart]
  cases hcase : a.insrtp with
  | none =>
    rw [hcase] at hins
    exact fun f hf => hins f (mem_unlink.mp hf).1
  | some p =>
    rw [hcase] at hins
    rcases hins with ⟨f, hf, haddr, hle⟩
    refine ⟨f, mem_unlink.mpr ⟨hf, fun hk => ?_⟩, haddr, hle⟩
    rw [eq_of_key_eq hwf.nodup hf hflp hk] at hle
    omega

section

variable (h : LoopInv lst₀ ld₀ k₀ (flp :: rest) a) (hown : flp.owner = ld₀.owner)
include h hown

/-- A lock of the requested type before the request, or touching it, is joined. -/
theorem LoopInv.joinLeft (hty : a.ld.lType = flp.set.lType)
    (hlt : flp.set.lStart < a.ld.lStart)
    (hmeet : a.ld.lStart ≤ flp.set.lEnd + 1) (hend : flp.set.lEnd < a.ld.lEnd) :
    LoopInv lst₀ ld₀ k₀ rest (((a.setStart flp.set.lStart).backup flp).del flp) := by
  have hwf := h.kept.edited.wf
  have hkept : Kept lst₀ ld₀ k₀ (((a.setStart flp.set.lStart).backup flp).del flp) := by
    refine h.kept.delete h.flp_mem hown rfl rfl rfl (Int.le_of_lt hlt)
      (Int.le_refl _) ⟨Int.le_refl _, Int.le_of_lt hend⟩
      (fun _ => ⟨rfl, hmeet, hty⟩) (fun hcontra => absurd hcontra (by omega))
      (fun _ => ?_)
    exact insertOk_backup_del (a := a.setStart flp.set.lStart) hwf h.flp_mem rfl
  refine h.delete hown hkept rfl rfl (Int.le_refl _) ?_
  intro f hf hfown hb
  -- A lock behind the request lies behind the lock that is joined.
  rcases pairwise_cases hwf.apart hf h.flp_mem with rfl | hap | hap
  · have := hb.1
    have := hb.2 hty
    omega
  · have hsep := hap.2 (hfown.trans hown.symm)
    refine ⟨hsep.1, fun hfty => hsep.2 ?_⟩
    have hfty' : a.ld.lType = f.set.lType := hfty
    exact hfty'.symm.trans hty
  · have hsep := hap.2 (hown.trans hfown.symm)
    have hv := (hwf.valid f hf).start_le_end
    have := hb.1
    omega

theorem LoopInv.joinRight (hty : a.ld.lType = flp.set.lType)
    (hlt : a.ld.lStart < flp.set.lStart)
    (hmeet : flp.set.lStart ≤ a.ld.lEnd + 1) (hend : a.ld.lEnd ≤ flp.set.lEnd) :
    Settled lst₀ ld₀ k₀ ((a.setEnd flp.set.lEnd).del flp) where
  kept := by
    refine h.kept.delete h.flp_mem hown rfl rfl rfl (Int.le_refl _) hend
      ⟨Int.le_of_lt hlt, Int.le_refl _⟩
      (fun hcontra => absurd hcontra (by omega)) (fun _ => ⟨rfl, hmeet, hty⟩)
      (fun hne => ?_)
    exact insertOk_del h.kept.edited.wf h.flp_mem (h.kept.insrt hne) hlt rfl rfl
      rfl
  clear := by
    intro f hf hfown
    rcases mem_unlink.mp hf with ⟨hfa, hne⟩
    rcases h.processed f hfa hfown with hmem | hb
    · rcases mem_cons.mp hmem with rfl | hin
      · exact absurd rfl hne
      · refine h.clear_rest hown ?_ ?_ hin hfown
        · exact Int.le_refl _
        · exact fun _ => hty
    · exact .inl hb

theorem LoopInv.swallow
    (hle : a.ld.lStart ≤ flp.set.lStart) (hend : flp.set.lEnd ≤ a.ld.lEnd)
    (hlst : a'.lst = unlink Filock.addr flp.addr a.lst)
    (hk : a'.k = { wakeprocs flp a.k with reccnt := a.k.reccnt - 1 }) (hld : a'.ld = a.ld)
    (hins : ld₀.lType ≠ .unlck → InsertOk a') : LoopInv lst₀ ld₀ k₀ rest a' := by
  have hkept : Kept lst₀ ld₀ k₀ a' :=
    h.kept.delete (s := a.ld.lStart) (e := a.ld.lEnd) h.flp_mem hown hlst hk
      hld (Int.le_refl _) (Int.le_refl _)
      ⟨hle, hend⟩ (fun hcontra => absurd hcontra (by omega))
      (fun hcontra => absurd hcontra (by omega)) hins
  refine h.delete hown hkept hlst (by rw [hld]) (by rw [hld]; exact hle) ?_
  intro f _ _ hb
  rw [hld]
  exact hb

theorem LoopInv.cut (hty : a.ld.lType ≠ flp.set.lType)
    (hlt : flp.set.lStart < a.ld.lStart) (hmeet : a.ld.lStart ≤ flp.set.lEnd)
    (hend : flp.set.lEnd ≤ a.ld.lEnd) : LoopInv lst₀ ld₀ k₀ rest (a.shrink flp) where
  kept := h.kept.shrink h.flp_mem hown hlt hmeet hend
  end_eq := h.end_eq
  todoMem := fun g hg =>
    mem_amend.mpr ⟨g, h.tail.1 g hg, if_neg (h.rest_addr hg)⟩
  todoApart := h.tail.2.1
  todoNodup := h.tail.2.2
  processed := by
    intro f hf hfown
    rcases mem_amend.mp hf with ⟨g, hg, heq⟩
    by_cases hk : g.addr = flp.addr
    · have hgf : g = flp :=
        eq_of_key_eq h.kept.edited.wf.nodup hg h.flp_mem hk
      rw [if_pos hk] at heq
      subst g
      subst f
      refine .inr ⟨?_, fun hcontra => absurd hcontra hty⟩
      show a.ld.lStart - 1 < a.ld.lStart
      omega
    · rw [if_neg hk] at heq
      subst g
      rcases h.processed f hg hfown with hmem | hb
      · rcases mem_cons.mp hmem with rfl | hin
        · exact absurd rfl hk
        · exact .inl hin
      · exact .inr hb
  fresh := by
    refine .inr fun f hf hfown => ?_
    have hap := (h.rest_apart hf).2 (hown.trans hfown.symm)
    show a.ld.lStart < f.set.lStart
    omega

end

/-!
## Splitting a lock

The piece behind the request is linked in first; then the lock is deleted, or
cut off before the request.
-/

theorem LoopInv.clear_other (h : LoopInv lst₀ ld₀ k₀ (flp :: rest) a)
    (hown : flp.owner = ld₀.owner) (hmeet : flp.set.lStart ≤ a.ld.lEnd)
    (hend : a.ld.lEnd < flp.set.lEnd) {f : Filock} (hf : f ∈ a.lst)
    (hne : f.addr ≠ flp.addr) (hfown : f.owner = ld₀.owner) :
    Clear { flp.set with lStart := a.ld.lEnd + 1 } f ∧ Clear a.ld f := by
  constructor
  · rcases pairwise_cases h.kept.edited.wf.apart hf h.flp_mem with rfl | hap | hap
    · exact absurd rfl hne
    · have hsep := (hap.2 (hfown.trans hown.symm)).1
      refine .inl ⟨?_, fun _ => ?_⟩
      · show f.set.lEnd < a.ld.lEnd + 1
        omega
      · show f.set.lEnd + 1 < a.ld.lEnd + 1
        omega
    · exact .inr (hap.2 (hown.trans hfown.symm))
  · rcases h.processed f hf hfown with hmem | hb
    · rcases mem_cons.mp hmem with rfl | hin
      · exact absurd rfl hne
      · exact h.clear_rest hown (Int.le_of_lt hend) (fun heq => absurd heq (by omega)) hin hfown
    · exact .inl hb

theorem InsertOk.insert {b : Adj} (h : InsertOk b) {td : Filock} (hb : b.lst = front ++ back)
    (hlst : a'.lst = front ++ td :: back) (hp : a'.insrtp = b.insrtp) (hld : a'.ld = b.ld)
    (htd : b.ld.lStart ≤ td.set.lStart) : InsertOk a' := by
  have hmem : ∀ f, f ∈ a'.lst ↔ f ∈ b.lst ∨ f = td := by
    intro f
    rw [hlst, hb]
    simp only [mem_append, mem_cons]
    tauto
  unfold InsertOk at h ⊢
  rw [hp, hld]
  cases hcase : b.insrtp with
  | none =>
    rw [hcase] at h
    intro f hf
    rcases (hmem f).mp hf with hin | rfl
    · exact h f hin
    · exact htd
  | some p =>
    rw [hcase] at h
    rcases h with ⟨f, hf, haddr, hle⟩
    exact ⟨f, (hmem f).mpr (.inl hf), haddr, hle⟩

theorem LoopInv.splitInto (hld₀ : ld₀.lStart ≤ ld₀.lEnd) (h : LoopInv lst₀ ld₀ k₀ (flp :: rest) a)
    (hown : flp.owner = ld₀.owner) (hty : a.ld.lType ≠ flp.set.lType)
    (hmeet : flp.set.lStart ≤ a.ld.lEnd) (hend : a.ld.lEnd < flp.set.lEnd) (b : Adj)
    (front back : List Filock) (td : Filock)
    (htd : td.set = { flp.set with lStart := a.ld.lEnd + 1 }) (hstat : td.stat.wakeflg = 0)
    (haddr : td.addr = a.k.zallocs) (hb : b.lst = front ++ back) (hbld : b.ld = a.ld)
    (hbz : b.k.zallocs = a.k.zallocs) (hlst : a'.lst = front ++ td :: back) (hld : a'.ld = a.ld)
    (hp : a'.insrtp = b.insrtp) (hz : a'.k.zallocs = b.k.zallocs + 1)
    (hsleep : a'.k.sleeplcks = b.k.sleeplcks) (hwake : a'.k.wakeups = b.k.wakeups)
    (hedited : Edited lst₀ ld₀.owner k₀ b.lst b.k) (hclear : ∀ f ∈ b.lst, f.owner = ld₀.owner →
      Clear { flp.set with lStart := a.ld.lEnd + 1 } f ∧ Clear a.ld f)
    (hfront : ∀ f ∈ front, f.set.lStart ≤ a.ld.lEnd + 1)
    (hback : ∀ f ∈ back, a.ld.lEnd + 1 ≤ f.set.lStart)
    (hof : ∀ x ty, Holds b.lst ld₀.owner x ty → Holds a.lst ld₀.owner x ty)
    (hiff : ∀ x ty, x < a.ld.lStart ∨ flp.set.lEnd < x →
      (Holds b.lst ld₀.owner x ty ↔ Holds a.lst ld₀.owner x ty))
    (hins : ld₀.lType ≠ .unlck → InsertOk b) : Settled lst₀ ld₀ k₀ a' := by
  have hvalid := h.kept.edited.wf.valid flp h.flp_mem
  have hle := h.kept.start_le
  have hge := h.kept.end_ge
  have htdStart : td.set.lStart = a.ld.lEnd + 1 := by rw [htd]
  have htdOwn : td.owner = ld₀.owner := by
    rw [← hown]
    simp [Filock.owner, htd, Flock.owner]
  have htdValid : td.set.Valid := by
    rw [htd]
    have h1 := hvalid.start_nonneg
    exact ⟨show 0 ≤ a.ld.lEnd + 1 by omega,
      show a.ld.lEnd + 1 ≤ flp.set.lEnd by omega, hvalid.end_le, hvalid.type_set⟩
  have hnew : Edited lst₀ ld₀.owner k₀ a'.lst a'.k := by
    rw [hlst]
    rw [hb] at hedited hclear
    refine hedited.insert hstat htdOwn htdValid (haddr.trans hbz.symm) hz hsleep hwake ?_ ?_ ?_
    · intro f hf hfown
      rw [htd]
      exact (hclear f hf hfown).1
    · intro f hf
      rw [htdStart]
      exact hfront f hf
    · intro f hf
      rw [htdStart]
      exact hback f hf
  rw [hb] at hof hiff hclear
  refine ⟨h.kept.splitTail h.flp_mem hown hmeet htd hlst hld hnew hof hiff ?_, ?_⟩
  · intro hne
    refine (hins hne).insert hb hlst hp (hld.trans hbld.symm) ?_
    rw [hbld, htdStart]
    omega
  · intro f hf hfown
    rw [hld]
    have hcases : f = td ∨ f ∈ front ++ back := by
      rw [hlst] at hf
      simp only [mem_append, mem_cons] at hf ⊢
      tauto
    rcases hcases with rfl | hin
    · refine .inr ⟨?_, fun hcontra => ?_⟩
      · omega
      · rw [htd] at hcontra
        exact absurd hcontra hty
    · exact (hclear f hin hfown).2

theorem LoopInv.insertTail (h : LoopInv lst₀ ld₀ k₀ (flp :: rest) a)
    (hmeet : flp.set.lStart ≤ a.ld.lEnd) (td : Filock) : ∃ front back, a.lst = front ++ back ∧
      insertAfter Filock.addr (lastBefore (a.ld.lEnd + 1) a.lst flp.addr) td
        a.lst = front ++ td :: back ∧ (∀ f ∈ front, f.set.lStart ≤ a.ld.lEnd + 1) ∧
      (∀ f ∈ back, a.ld.lEnd + 1 ≤ f.set.lStart) := by
  rcases insertAfter_lastBefore h.kept.edited.wf (a.ld.lEnd + 1) h.flp_mem (by omega) td
    with ⟨front, back, hsplit, hins, _, hfront, hback⟩
  exact ⟨front, back, hsplit, hins, hfront, hback⟩

theorem wakeprocs_wakeups_congr (flp : Filock) {k k' : Kern} (h : k'.wakeups = k.wakeups) :
    (wakeprocs flp k').wakeups = (wakeprocs flp k).wakeups := by
  unfold wakeprocs
  split <;> simp [h]

theorem LoopInv.givenUp (h : LoopInv lst₀ ld₀ k₀ rest a) {n : Nat} (hn : a.k.zallocs ≤ n)
    (hlst : a'.lst = a.lst) (hld : a'.ld = a.ld)
    (hk : a'.k = { a.k with zallocs := n }) : GivenUp lst₀ ld₀ k₀ a' := by
  refine ⟨?_, ?_, ?_⟩
  · rw [hlst, hk]
    have hedited := h.kept.edited
    exact { hedited with
      addrs := fun f hf => Nat.lt_of_lt_of_le (hedited.addrs f hf) hn
      zallocs := Nat.le_trans hedited.zallocs hn }
  · rw [hld]
    exact h.kept.owner_eq
  · rw [hlst]
    exact h.kept.shrinks

section

variable (t : Tune) (hld₀ : ld₀.lStart ≤ ld₀.lEnd) (h : LoopInv lst₀ ld₀ k₀ (flp :: rest) a)
  (hown : flp.owner = ld₀.owner) (hty : a.ld.lType ≠ flp.set.lType)
include t hld₀ h hown hty

theorem LoopInv.splitDel (hle : a.ld.lStart ≤ flp.set.lStart)
    (hmeet : flp.set.lStart ≤ a.ld.lEnd) (hend : a.ld.lEnd < flp.set.lEnd) {p : Option Nat}
    (hins : ld₀.lType ≠ .unlck → InsertOk ({ a with insrtp := p }.del flp))
    {regtyp : StartType × EndType} (hreg : regtyp ≠ (.sMiddle, .eMiddle)) :
    StepPost lst₀ ld₀ k₀ rest ({ a with insrtp := p }.split t flp regtyp) := by
  have hwf := h.kept.edited.wf
  unfold Adj.split
  simp only [hreg, if_false]
  rcases insflck_cases t a.lst { flp.set with lStart := a.ld.lEnd + 1 }
      (lastBefore (a.ld.lEnd + 1) a.lst flp.addr) a.k with ⟨n, heq, hn⟩ | heq
  · rw [heq]
    exact ⟨rfl, h.givenUp hn rfl rfl rfl⟩
  · rw [heq]
    rcases h.insertTail hmeet (newFilock a.k.zallocs { flp.set with lStart := a.ld.lEnd + 1 })
      with ⟨front, back, hsplit, hlst, hfront, hback⟩
    have hneAddr : a.k.zallocs ≠ flp.addr := by
      have := h.kept.edited.addrs flp h.flp_mem
      omega
    refine h.splitInto hld₀ hown hty hmeet hend ({ a with insrtp := p }.del flp)
      (unlink Filock.addr flp.addr front) (unlink Filock.addr flp.addr back)
      (newFilock a.k.zallocs { flp.set with lStart := a.ld.lEnd + 1 })
      rfl rfl rfl ?_ rfl ?_ ?_ rfl rfl ?_ ?_ ?_ ?_ ?_ ?_ ?_ ?_ ?_ hins
    · simp [hsplit, unlink]
    · simp
    · simp only [Adj.del_lst, hlst]
      simp [unlink, newFilock, hneAddr]
    · simp
    · simp
    · exact wakeprocs_wakeups_congr flp rfl
    · exact h.kept.edited.del h.flp_mem hown
    · intro f hf hfown
      rcases mem_unlink.mp hf with ⟨hfa, hne⟩
      exact h.clear_other hown hmeet hend hfa hne hfown
    · exact fun f hf => hfront f (mem_unlink.mp hf).1
    · exact fun f hf => hback f (mem_unlink.mp hf).1
    · exact fun x ty hx => holds_of_unlink hx
    · intro x ty hx
      refine holds_unlink_iff hwf h.flp_mem fun hcov => ?_
      have h1 := hcov.1
      have h2 := hcov.2
      omega

theorem LoopInv.splitCut (hlt : flp.set.lStart < a.ld.lStart)
    (hend : a.ld.lEnd < flp.set.lEnd) :
    StepPost lst₀ ld₀ k₀ rest (a.split t flp (.sMiddle, .eMiddle)) := by
  have hwf := h.kept.edited.wf
  have hle := h.kept.start_le
  have hge := h.kept.end_ge
  unfold Adj.split
  simp only [if_true]
  rcases insflck_cases t a.lst { flp.set with lStart := a.ld.lEnd + 1 }
      (lastBefore (a.ld.lEnd + 1) a.lst flp.addr) a.k with ⟨n, heq, hn⟩ | heq
  · rw [heq]
    exact ⟨rfl, h.givenUp hn rfl rfl rfl⟩
  · rw [heq]
    rcases h.insertTail (by omega) (newFilock a.k.zallocs { flp.set with lStart := a.ld.lEnd + 1 })
      with ⟨front, back, hsplit, hlst, hfront, hback⟩
    have hneAddr : a.k.zallocs ≠ flp.addr := by
      have := h.kept.edited.addrs flp h.flp_mem
      omega
    have hstarts : ∀ (l : List Filock) (f : Filock),
        f ∈ amend Filock.addr flp.addr (Filock.cutTo (a.ld.lStart - 1)) l →
        ∃ g ∈ l, g.set.lStart = f.set.lStart := by
      intro l f hf
      rcases mem_amend.mp hf with ⟨g, hg, rfl⟩
      refine ⟨g, hg, ?_⟩
      split <;> rfl
    refine h.splitInto hld₀ hown hty (by omega) hend (a.shrink flp)
      (amend Filock.addr flp.addr (Filock.cutTo (a.ld.lStart - 1)) front)
      (amend Filock.addr flp.addr (Filock.cutTo (a.ld.lStart - 1)) back)
      (newFilock a.k.zallocs { flp.set with lStart := a.ld.lEnd + 1 })
      rfl rfl rfl ?_ rfl ?_ ?_ rfl rfl ?_ ?_ ?_ ?_ ?_ ?_ ?_ ?_ ?_ ?_
    · simp [hsplit, amend]
    · simp
    · simp only [Adj.shrink_lst, hlst]
      simp [amend, newFilock, hneAddr]
    · simp
    · simp
    · exact wakeprocs_wakeups_congr flp rfl
    · exact h.kept.edited.cut h.flp_mem hown (by omega) (by omega)
    · intro f hf hfown
      rcases mem_amend.mp hf with ⟨g, hg, heqf⟩
      by_cases hk : g.addr = flp.addr
      · have hgf : g = flp := eq_of_key_eq hwf.nodup hg h.flp_mem hk
        rw [if_pos hk] at heqf
        subst g
        subst f
        refine ⟨.inl ⟨?_, fun _ => ?_⟩, .inl ⟨?_, fun hcontra => ?_⟩⟩
        · show a.ld.lStart - 1 < a.ld.lEnd + 1
          omega
        · show a.ld.lStart - 1 + 1 < a.ld.lEnd + 1
          omega
        · show a.ld.lStart - 1 < a.ld.lStart
          omega
        · exact absurd hcontra hty
      · rw [if_neg hk] at heqf
        subst g
        exact h.clear_other hown (by omega) hend hg hk hfown
    · intro f hf
      rcases hstarts front f hf with ⟨g, hg, hstart⟩
      rw [← hstart]
      exact hfront g hg
    · intro f hf
      rcases hstarts back f hf with ⟨g, hg, hstart⟩
      rw [← hstart]
      exact hback g hg
    · exact fun x ty hx => holds_of_cut hwf h.flp_mem (by omega) hx
    · intro x ty hx
      exact holds_cut_iff hwf h.flp_mem (by omega) (by omega)
    · intro _
      exact ⟨flp.cutTo (a.ld.lStart - 1),
        mem_amend.mpr ⟨flp, h.flp_mem, if_pos rfl⟩, rfl, Int.le_of_lt hlt⟩

end

/-!
## The whole routine
-/

theorem LoopInv.step (t : Tune) (hld₀ : ld₀.lStart ≤ ld₀.lEnd)
    (h : LoopInv lst₀ ld₀ k₀ (flp :: rest) a) :
    StepPost lst₀ ld₀ k₀ rest (flckadjStep t flp a) := by
  have hwf := h.kept.edited.wf
  have hle := h.kept.start_le
  have hge := h.kept.end_ge
  have hvalid := hwf.valid flp h.flp_mem
  have hflp := hvalid.start_le_end
  unfold flckadjStep
  split
  case isFalse hne =>
    rw [h.kept.owner_eq] at hne
    exact h.pass fun hown => absurd hown hne
  case isTrue hown =>
    rw [h.kept.owner_eq] at hown
    generalize hr : flckadjCase t flp a = r
    have hcase : CaseOf t flp a r := by
      rw [← hr]
      exact flckadjCase_cases t (by omega) hflp
    cases hcase with
    | before hend hsep hlt => exact h.pass fun _ => ⟨hend, hsep⟩
    | mark hend hlt =>
      have hpass : LoopInv lst₀ ld₀ k₀ rest a :=
        h.pass fun _ => ⟨by omega, fun _ => hend⟩
      exact hpass.mark ⟨flp, h.flp_mem, rfl, Int.le_of_lt hlt⟩
    | past hend hsep => exact h.past hown hend hsep
    | inside p hty hstart hend =>
      rcases h.unedited hown hstart with ⟨hlst, hld⟩
      have hmem := h.flp_mem
      rw [hlst] at hmem
      rw [hld] at hty hstart hend
      exact ⟨h.kept.edited, h.kept.owner_eq, hlst, flp, hmem, hown, hty.symm, hstart, hend⟩
    | joinLeft hty hlt hmeet hend => exact h.joinLeft hown hty hlt hmeet hend
    | joinRight hty hlt hmeet hend => exact h.joinRight hown hty hlt hmeet hend
    | swallowAt hstart hend hty =>
      exact h.swallow hown (Int.le_of_eq hstart) hend rfl rfl rfl
        fun _ => insertOk_backup_del hwf h.flp_mem hstart
    | swallow hlt hend hty =>
      exact h.swallow hown (Int.le_of_lt hlt) hend rfl rfl rfl
        fun hne => insertOk_del hwf h.flp_mem (h.kept.insrt hne) hlt rfl rfl rfl
    | cut hty hlt hmeet hend => exact h.cut hown hty hlt hmeet hend
    | splitStart hty hstart hmeet hend =>
      exact h.splitDel t hld₀ hown hty (Int.le_of_eq hstart) hmeet hend
        (fun _ => insertOk_backup_del hwf h.flp_mem hstart) (by decide)
    | splitMiddle hty hlt hend => exact h.splitCut t hld₀ hown hty hlt hend
    | splitBefore hty hlt hmeet hend =>
      exact h.splitDel (p := a.insrtp) t hld₀ hown hty (Int.le_of_lt hlt) hmeet hend
        (fun hne => insertOk_del hwf h.flp_mem (h.kept.insrt hne) hlt rfl rfl rfl)
        (by decide)

def LoopPost (lst₀ : List Filock) (ld₀ : Flock) (k₀ : Kern) (r : AdjStep) :
    Prop :=
  StepPost lst₀ ld₀ k₀ [] r ∧ ∀ a, r ≠ .next a

theorem LoopInv.run (t : Tune) (hld₀ : ld₀.lStart ≤ ld₀.lEnd) {todo : List Filock}
    (h : LoopInv lst₀ ld₀ k₀ todo a) : LoopPost lst₀ ld₀ k₀ (flckadjLoop t todo a) := by
  induction todo generalizing a with
  | nil =>
    refine ⟨⟨h.kept, fun f hf hown => ?_⟩, fun _ hcontra => by cases hcontra⟩
    rcases h.processed f hf hown with hmem | hb
    · cases hmem
    · exact .inl hb
  | cons flp rest ih =>
    have hstep := h.step t hld₀
    unfold flckadjLoop
    cases hr : flckadjStep t flp a with
    | next a' =>
      rw [hr] at hstep
      exact ih hstep
    | stop a' =>
      rw [hr] at hstep
      exact ⟨hstep, fun _ hcontra => by cases hcontra⟩
    | ret r a' =>
      rw [hr] at hstep
      refine ⟨?_, fun _ hcontra => by cases hcontra⟩
      cases r with
      | none => exact hstep
      | some e => exact hstep

end Round

/-- A request that may be carried out: the range is one of a file. -/
structure Flock.InRange (ld : Flock) : Prop where
  start_nonneg : 0 ≤ ld.lStart
  start_le_end : ld.lStart ≤ ld.lEnd
  end_le : ld.lEnd ≤ MAXEND

def visited (lst : List Filock) : Option Nat → List Filock
  | none => lst
  | some p => fromNode Filock.addr p lst

/-- A place where the update and the search for the place of the new lock can begin. -/
structure StartOk (lst : List Filock) (insrtp : Option Nat) (ld : Flock)
    (k : Kern) : Prop where
  behind : ∀ f ∈ lst, f.owner = ld.owner → f ∈ visited lst insrtp ∨ Behind ld f
  insrt : ld.lType ≠ .unlck → InsertOk { lst := lst, insrtp := insrtp, ld := ld, k := k }

/-- The map of the owner has been overwritten by the request. -/
def Overwritten (lst lst' : List Filock) (ld : Flock) : Prop :=
  ∀ x ty, Holds lst' ld.owner x ty ↔
    if ld.Covers x then ld.lType ≠ .unlck ∧ ty = ld.lType
    else Holds lst ld.owner x ty

variable {insrtp : Option Nat}

section Routine

variable {lst₀ : List Filock} {ld₀ : Flock} {k₀ : Kern} {a : Adj}

theorem visited_sublist (lst : List Filock) (insrtp : Option Nat) :
    (visited lst insrtp).Sublist lst := by
  cases insrtp with
  | none => exact List.Sublist.refl _
  | some p => exact dropWhile_sublist _

theorem StartOk.loopInv (hwf : WellFormed lst₀) (haddrs : ∀ f ∈ lst₀, f.addr < k₀.zallocs)
    (hld : ld₀.InRange) (hstart : StartOk lst₀ insrtp ld₀ k₀) :
    LoopInv lst₀ ld₀ k₀ (visited lst₀ insrtp)
      { lst := lst₀, insrtp := insrtp, ld := ld₀, k := k₀ } where
  kept :=
    { edited :=
        { wf := hwf
          addrs := haddrs
          others := fun _ _ => Iff.rfl
          frame := fun f hf => .inl ⟨f, hf, rfl, rfl, rfl⟩
          sleeplcks := rfl
          wakeups := List.Subset.refl _
          zallocs := Nat.le_refl _
          stats := fun f hf => .inr ⟨f, hf, rfl⟩ }
      shape := rfl
      start_nonneg := hld.start_nonneg
      start_le := Int.le_refl _
      end_ge := Int.le_refl _
      end_le := hld.end_le
      outside := fun _ _ _ => Iff.rfl
      shrinks := fun _ _ hx => hx
      widened := fun _ h1 h2 hnot => absurd ⟨h1, h2⟩ hnot
      insrt := hstart.insrt }
  end_eq := rfl
  todoMem := fun _ hg => (visited_sublist lst₀ insrtp).subset hg
  todoApart := hwf.apart.sublist (visited_sublist lst₀ insrtp)
  todoNodup := hwf.nodup.sublist ((visited_sublist lst₀ insrtp).map _)
  processed := hstart.behind
  fresh := .inl ⟨rfl, rfl⟩

theorem Settled.none_inside (h : Settled lst₀ ld₀ k₀ a) {x : Int}
    (h1 : a.ld.lStart ≤ x) (h2 : x ≤ a.ld.lEnd) (ty : LckType) : ¬ Holds a.lst ld₀.owner x ty := by
  rintro ⟨f, hf, hown, _, hcov⟩
  have hc1 := hcov.1
  have hc2 := hcov.2
  rcases h.clear f hf hown with hbefore | hafter
  · have := hbefore.1
    omega
  · have := hafter.1
    omega

section

variable (hwf : WellFormed lst₀) (h : Settled lst₀ ld₀ k₀ a)
include hwf h

theorem Settled.widened_iff {x : Int} (h1 : a.ld.lStart ≤ x)
    (h2 : x ≤ a.ld.lEnd) (hnot : ¬ ld₀.Covers x) (ty : LckType) :
    Holds lst₀ ld₀.owner x ty ↔ ty = ld₀.lType := by
  have hwide := h.kept.widened x h1 h2 hnot
  constructor
  · intro hx
    have hsome := (lockAt_eq_some hwf).mpr hx
    rw [(lockAt_eq_some hwf).mpr hwide] at hsome
    exact (Option.some.inj hsome).symm
  · rintro rfl
    exact hwide

theorem Settled.unlock
    (hun : ld₀.lType = .unlck) : Overwritten lst₀ a.lst ld₀ := by
  intro x ty
  by_cases hin : a.ld.lStart ≤ x ∧ x ≤ a.ld.lEnd
  · have hnone := h.none_inside hin.1 hin.2 ty
    by_cases hcov : ld₀.Covers x
    · simp [hcov, hun, hnone]
    · -- An unlock request joins no lock, since no lock has its type.
      rcases h.kept.widened x hin.1 hin.2 hcov with ⟨f, hf, _, hty, _⟩
      rcases (hwf.valid f hf).type_set with hset | hset <;>
        rw [hty, hun] at hset <;> cases hset
  · have hcov : ¬ ld₀.Covers x := by
      intro hcov
      have h1 := h.kept.start_le
      have h2 := h.kept.end_ge
      have h3 := hcov.1
      have h4 := hcov.2
      omega
    rw [if_neg hcov]
    exact h.kept.outside x ty (by omega)

theorem Settled.lock {new : Filock}
    (hset : new.set = a.ld) (hlst : a.lst = front ++ back) (hne : ld₀.lType ≠ .unlck) :
    Overwritten lst₀ (front ++ new :: back) ld₀ := by
  have hown : new.owner = ld₀.owner := by
    rw [← h.kept.owner_eq, ← hset]
    rfl
  have hty : new.set.lType = ld₀.lType := by rw [hset, h.kept.type_eq]
  intro x ty
  rw [holds_insert, ← hlst]
  by_cases hin : a.ld.lStart ≤ x ∧ x ≤ a.ld.lEnd
  · have hcovNew : new.set.Covers x := by rw [hset]; exact hin
    have hnone := h.none_inside hin.1 hin.2 ty
    by_cases hcov : ld₀.Covers x
    · simp only [hnone, hown, hty, hcovNew, hcov, if_true, false_or, true_and, and_true]
      exact ⟨fun heq => ⟨hne, heq.symm⟩, fun heq => heq.2.symm⟩
    · simp only [hnone, hown, hty, hcovNew, hcov, if_false, false_or, true_and, and_true]
      rw [h.widened_iff hwf hin.1 hin.2 hcov ty]
      exact eq_comm
  · have hcovNew : ¬ new.set.Covers x := by rw [hset]; exact hin
    have hcov : ¬ ld₀.Covers x := by
      intro hcov
      have h1 := h.kept.start_le
      have h2 := h.kept.end_ge
      have h3 := hcov.1
      have h4 := hcov.2
      omega
    simp only [hcovNew, hcov, if_false, and_false, or_false]
    exact h.kept.outside x ty (by omega)

end

theorem Inside.overwritten (hwf : WellFormed lst₀) (h : Inside lst₀ ld₀ k₀ a) :
    Overwritten lst₀ a.lst ld₀ := by
  rcases h with ⟨_, _, hlst, f, hf, hown, hty, hstart, hend⟩
  have hne : ld₀.lType ≠ .unlck := by
    rw [← hty]
    rcases (hwf.valid f hf).type_set with hset | hset <;> rw [hset] <;> decide
  intro x ty
  rw [hlst]
  by_cases hcov : ld₀.Covers x
  · rw [if_pos hcov]
    have hfcov : f.set.Covers x :=
      ⟨Int.le_trans hstart hcov.1, Int.le_trans hcov.2 hend⟩
    constructor
    · rintro ⟨g, hg, hgown, hgty, hgcov⟩
      have hgf : g = f :=
        Filock.eq_of_covers hwf hg hf (hgown.trans hown.symm) hgcov hfcov
      refine ⟨hne, ?_⟩
      rw [← hgty, hgf, hty]
    · rintro ⟨_, rfl⟩
      exact ⟨f, hf, hown, hty, hfcov⟩
  · rw [if_neg hcov]

def AdjustPost (lst₀ : List Filock) (ld₀ : Flock) (k₀ : Kern)
    (r : Retval × Adj) : Prop :=
  Edited lst₀ ld₀.owner k₀ r.2.lst r.2.k ∧ r.2.ld.owner = ld₀.owner ∧
    match r.1 with
    | none => Overwritten lst₀ r.2.lst ld₀
    | some e => e = .enolck ∧
        ∀ x ty, Holds r.2.lst ld₀.owner x ty → Holds lst₀ ld₀.owner x ty

theorem Settled.insert (t : Tune) (hwf : WellFormed lst₀)
    (hne : ld₀.lType ≠ .bad) (hld₀ : ld₀.lStart ≤ ld₀.lEnd) (h : Settled lst₀ ld₀ k₀ a) :
    AdjustPost lst₀ ld₀ k₀ (flckadjInsert t a) := by
  have hedited := h.kept.edited
  unfold flckadjInsert
  split
  case isFalse hun =>
    have hty : ld₀.lType = .unlck := by
      rw [← h.kept.type_eq]
      simpa using hun
    exact ⟨hedited, h.kept.owner_eq, h.unlock hwf hty⟩
  case isTrue hset =>
    have htype := h.kept.type_eq
    rw [htype] at hset
    have hins := h.kept.insrt hset
    have hstart := h.kept.start_le
    have hend := h.kept.end_ge
    have hvalid : a.ld.Valid := by
      refine ⟨h.kept.start_nonneg, by omega, h.kept.end_le, ?_⟩
      rw [htype]
      cases hty : ld₀.lType with
      | rdlck => exact .inl rfl
      | wrlck => exact .inr rfl
      | unlck => exact absurd hty hset
      | bad => exact absurd hty hne
    have hplace : ∃ front back, a.lst = front ++ back ∧
        insertAfter Filock.addr a.place (newFilock a.k.zallocs a.ld) a.lst =
          front ++ newFilock a.k.zallocs a.ld :: back ∧
        (∀ f ∈ front, f.set.lStart ≤ a.ld.lStart) ∧
        (∀ f ∈ back, a.ld.lStart ≤ f.set.lStart) := by
      unfold InsertOk at hins
      unfold Adj.place
      cases hcase : a.insrtp with
      | none =>
        rw [hcase] at hins
        exact ⟨[], a.lst, rfl, rfl, by simp, hins⟩
      | some p =>
        rw [hcase] at hins
        rcases hins with ⟨f, hf, rfl, hle⟩
        rcases insertAfter_lastBefore hedited.wf a.ld.lStart hf hle (newFilock a.k.zallocs a.ld)
          with ⟨front, back, hsplit, hlst, _, hfront, hback⟩
        exact ⟨front, back, hsplit, hlst, hfront, hback⟩
    rcases hplace with ⟨front, back, hsplit, hlst, hfront, hback⟩
    rcases insflck_cases t a.lst a.ld a.place a.k with ⟨n, heq, hn⟩ | heq
    · rw [heq]
      refine ⟨?_, h.kept.owner_eq, rfl, h.kept.shrinks⟩
      exact { hedited with
        addrs := fun f hf => Nat.lt_of_lt_of_le (hedited.addrs f hf) hn
        zallocs := Nat.le_trans hedited.zallocs hn }
    · rw [heq, hlst]
      refine ⟨?_, h.kept.owner_eq, h.lock hwf rfl hsplit hset⟩
      have hclear := h.clear
      rw [hsplit] at hedited hclear
      exact hedited.insert rfl h.kept.owner_eq hvalid rfl rfl rfl rfl hclear hfront hback

theorem flckadj_of_stop {t : Tune} (hr : flckadjLoop t (visited lst₀ insrtp)
      { lst := lst₀, insrtp := insrtp, ld := ld₀, k := k₀ } = .stop a) :
    flckadj t lst₀ insrtp ld₀ k₀ = flckadjInsert t a := by
  cases insrtp <;>
    · simp only [visited] at hr
      simp only [flckadj, hr]

theorem flckadj_of_ret {t : Tune} {r : Retval} (hr : flckadjLoop t (visited lst₀ insrtp)
      { lst := lst₀, insrtp := insrtp, ld := ld₀, k := k₀ } = .ret r a) :
    flckadj t lst₀ insrtp ld₀ k₀ = (r, a) := by
  cases insrtp <;>
    · simp only [visited] at hr
      simp only [flckadj, hr]

theorem flckadj_spec (t : Tune) (hwf : WellFormed lst₀) (haddrs : ∀ f ∈ lst₀, f.addr < k₀.zallocs)
    (hld : ld₀.InRange) (hne : ld₀.lType ≠ .bad) (hstart : StartOk lst₀ insrtp ld₀ k₀) :
    AdjustPost lst₀ ld₀ k₀ (flckadj t lst₀ insrtp ld₀ k₀) := by
  have hrun := (hstart.loopInv hwf haddrs hld).run t hld.start_le_end
  cases hr : flckadjLoop t (visited lst₀ insrtp)
      { lst := lst₀, insrtp := insrtp, ld := ld₀, k := k₀ } with
  | next a => exact absurd hr (hrun.2 a)
  | stop a =>
    have hpost := hrun.1
    rw [hr] at hpost
    have hsettled : Settled lst₀ ld₀ k₀ a := hpost
    rw [flckadj_of_stop hr]
    exact hsettled.insert t hwf hne hld.start_le_end
  | ret r a =>
    have hpost := hrun.1
    rw [hr] at hpost
    rw [flckadj_of_ret hr]
    cases r with
    | none =>
      have hinside : Inside lst₀ ld₀ k₀ a := hpost
      exact ⟨hinside.1, hinside.2.1, hinside.overwritten hwf⟩
    | some e =>
      have hgiven : e = .enolck ∧ GivenUp lst₀ ld₀ k₀ a := hpost
      exact ⟨hgiven.2.1, hgiven.2.2.1, hgiven.1, hgiven.2.2.2⟩

end Routine

end RecordLock
end Svr4
