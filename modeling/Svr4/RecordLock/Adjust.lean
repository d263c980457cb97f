import Svr4.RecordLock.Intervals

/-!
# What flckadj does to the byte maps

The loop of `flckadj` deletes, cuts and splits locks of the requesting
owner and widens the request over locks of its own type.  The invariant of the
loop compares the edited list with the list at entry: outside the widened
request the owner's map is unchanged, and where the request was widened the
owner held the requested type before.
-/

namespace Svr4
namespace RecordLock

open NodeList List

section Fields

variable (a : Adj) (flp : Filock) (x : Int)

@[simp] theorem Adj.setStart_k : (a.setStart x).k = a.k := rfl
@[simp] theorem Adj.setEnd_lst : (a.setEnd x).lst = a.lst := rfl
@[simp] theorem Adj.setEnd_ld : (a.setEnd x).ld = { a.ld with lEnd := x } := rfl
@[simp] theorem Adj.setEnd_k : (a.setEnd x).k = a.k := rfl
@[simp] theorem Adj.setEnd_insrtp : (a.setEnd x).insrtp = a.insrtp := rfl
@[simp] theorem Adj.backup_lst : (a.backup flp).lst = a.lst := rfl
@[simp] theorem Adj.backup_ld : (a.backup flp).ld = a.ld := rfl
@[simp] theorem Adj.backup_k : (a.backup flp).k = a.k := rfl
@[simp] theorem Adj.del_lst : (a.del flp).lst = unlink Filock.addr flp.addr a.lst := rfl
@[simp] theorem Adj.del_ld : (a.del flp).ld = a.ld := rfl
@[simp] theorem Adj.del_insrtp : (a.del flp).insrtp = a.insrtp := rfl
@[simp] theorem Adj.del_k :
    (a.del flp).k = { wakeprocs flp a.k with reccnt := a.k.reccnt - 1 } := rfl
@[simp] theorem Adj.shrink_lst : (a.shrink flp).lst =
    amend Filock.addr flp.addr (Filock.cutTo (a.ld.lStart - 1)) a.lst := rfl
@[simp] theorem Adj.shrink_ld : (a.shrink flp).ld = a.ld := rfl
@[simp] theorem Adj.shrink_insrtp : (a.shrink flp).insrtp = some flp.addr := rfl
@[simp] theorem Adj.shrink_k : (a.shrink flp).k = wakeprocs flp a.k := rfl

end Fields

section Wakeprocs

variable (flp : Filock) (k : Kern)

@[simp] theorem wakeprocs_zallocs : (wakeprocs flp k).zallocs = k.zallocs := by
  unfold wakeprocs; split <;> rfl

@[simp] theorem wakeprocs_reccnt : (wakeprocs flp k).reccnt = k.reccnt := by
  unfold wakeprocs; split <;> rfl

@[simp] theorem wakeprocs_sleeplcks : (wakeprocs flp k).sleeplcks = k.sleeplcks := by
  unfold wakeprocs; split <;> rfl

theorem wakeprocs_wakeups_subset : k.wakeups ⊆ (wakeprocs flp k).wakeups := by
  unfold wakeprocs
  split
  · exact subset_cons_self _ _
  · exact List.Subset.refl _

theorem wakeprocs_wakes (h : flp.stat.wakeflg ≠ 0) : flp.addr ∈ (wakeprocs flp k).wakeups := by
  simp [wakeprocs, h]

end Wakeprocs

/-!
## The comparison with the list at entry
-/

/-- Where the new lock may be put: the walk starts at or before its place. -/
def InsertOk (a : Adj) : Prop :=
  match a.insrtp with
  | none => ∀ f ∈ a.lst, a.ld.lStart ≤ f.set.lStart
  | some p => ∃ f ∈ a.lst, f.addr = p ∧ f.set.lStart ≤ a.ld.lStart

/-- A lock stays on the list as it is, or its sleepers have been woken. -/
def KeptOrWoken (lst : List Filock) (k : Kern) (f : Filock) : Prop :=
  (∃ f' ∈ lst, f'.addr = f.addr ∧ f'.owner = f.owner ∧ f'.stat = f.stat) ∨
    (f.stat.wakeflg ≠ 0 → f.addr ∈ k.wakeups)

structure Edited (lst₀ : List Filock) (o : Owner) (k₀ : Kern)
    (lst : List Filock) (k : Kern) : Prop where
  wf : WellFormed lst
  addrs : ∀ f ∈ lst, f.addr < k.zallocs
  others : ∀ f : Filock, f.owner ≠ o → (f ∈ lst ↔ f ∈ lst₀)
  frame : ∀ f ∈ lst₀, KeptOrWoken lst k f
  sleeplcks : k.sleeplcks = k₀.sleeplcks
  wakeups : k₀.wakeups ⊆ k.wakeups
  zallocs : k₀.zallocs ≤ k.zallocs
  /-- the sleep counts are old ones, or 0 -/
  stats : ∀ f ∈ lst, f.stat.wakeflg = 0 ∨ ∃ f₀ ∈ lst₀, f₀.stat = f.stat

/-- The edited list and the widened request against the list at entry. -/
structure Kept (lst₀ : List Filock) (ld₀ : Flock) (k₀ : Kern) (a : Adj) :
    Prop where
  edited : Edited lst₀ ld₀.owner k₀ a.lst a.k
  shape : a.ld = { ld₀ with lStart := a.ld.lStart, lEnd := a.ld.lEnd }
  start_nonneg : 0 ≤ a.ld.lStart
  start_le : a.ld.lStart ≤ ld₀.lStart
  end_ge : ld₀.lEnd ≤ a.ld.lEnd
  end_le : a.ld.lEnd ≤ MAXEND
  outside : ∀ x ty, x < a.ld.lStart ∨ a.ld.lEnd < x →
    (Holds a.lst ld₀.owner x ty ↔ Holds lst₀ ld₀.owner x ty)
  shrinks : ∀ x ty, Holds a.lst ld₀.owner x ty → Holds lst₀ ld₀.owner x ty
  widened : ∀ x, a.ld.lStart ≤ x → x ≤ a.ld.lEnd → ¬ ld₀.Covers x → Holds lst₀ ld₀.owner x ld₀.lType
  insrt : ld₀.lType ≠ .unlck → InsertOk a

variable {lst front back lst₀ : List Filock} {k k' k₀ : Kern} {o : Owner} {flp new : Filock}
  {lEnd x : Int} {ty : LckType}

section Kept

variable {lst₀ : List Filock} {ld₀ : Flock} {k₀ : Kern} {a : Adj}

theorem Kept.type_eq (h : Kept lst₀ ld₀ k₀ a) : a.ld.lType = ld₀.lType := by
  rw [h.shape]

theorem Kept.owner_eq (h : Kept lst₀ ld₀ k₀ a) : a.ld.owner = ld₀.owner := by
  rw [h.shape]
  rfl

theorem KeptOrWoken.mono {f : Filock} (h : KeptOrWoken lst k f) (hsub : k.wakeups ⊆ k'.wakeups)
    {lst' : List Filock} (hlst : ∀ f' ∈ lst, f'.addr = f.addr → f'.stat = f.stat →
      (f' ∈ lst' ∨ (f.stat.wakeflg ≠ 0 → f.addr ∈ k'.wakeups))) : KeptOrWoken lst' k' f := by
  rcases h with ⟨f', hf', haddr, hown, hstat⟩ | hwoken
  · rcases hlst f' hf' haddr hstat with hmem | hwake
    · exact .inl ⟨f', hmem, haddr, hown, hstat⟩
    · exact .inr hwake
  · exact .inr fun hne => hsub (hwoken hne)

theorem Edited.del (h : Edited lst₀ o k₀ lst k) (hflp : flp ∈ lst) (hown : flp.owner = o) :
    Edited lst₀ o k₀ (unlink Filock.addr flp.addr lst)
      { wakeprocs flp k with reccnt := k.reccnt - 1 } where
  wf := h.wf.unlink flp.addr
  addrs := fun f hf => by
    simpa using h.addrs f (mem_unlink.mp hf).1
  others := by
    intro f hne
    rw [mem_unlink, ← h.others f hne]
    constructor
    · exact fun hf => hf.1
    · intro hf
      refine ⟨hf, fun haddr => hne ?_⟩
      rw [eq_of_key_eq h.wf.nodup hf hflp haddr, hown]
  frame := by
    intro f hf
    refine (h.frame f hf).mono (wakeprocs_wakeups_subset flp k) ?_
    intro f' hf' haddr hstat
    by_cases hk : f'.addr = flp.addr
    · have heq : f' = flp := eq_of_key_eq h.wf.nodup hf' hflp hk
      subst f'
      refine .inr fun hne => ?_
      rw [← haddr]
      exact wakeprocs_wakes flp k (by rwa [hstat])
    · exact .inl (mem_unlink.mpr ⟨hf', hk⟩)
  sleeplcks := by simpa using h.sleeplcks
  wakeups := fun _ hx => wakeprocs_wakeups_subset flp k (h.wakeups hx)
  zallocs := by simpa using h.zallocs
  stats := fun f hf => h.stats f (mem_unlink.mp hf).1

theorem Edited.cut (h : Edited lst₀ o k₀ lst k) (hflp : flp ∈ lst) (hown : flp.owner = o)
    (hstart : flp.set.lStart ≤ lEnd) (hend : lEnd ≤ flp.set.lEnd) :
    Edited lst₀ o k₀ (amend Filock.addr flp.addr (Filock.cutTo lEnd) lst) (wakeprocs flp k) where
  wf := h.wf.cut hflp hstart hend
  addrs := by
    intro f hf
    rcases mem_amend.mp hf with ⟨g, hg, rfl⟩
    have hlt := h.addrs g hg
    by_cases hk : g.addr = flp.addr <;> simpa [hk, Filock.cutTo] using hlt
  others := by
    intro f hne
    rw [mem_amend, ← h.others f hne]
    constructor
    · rintro ⟨g, hg, heq⟩
      by_cases hk : g.addr = flp.addr
      · rw [if_pos hk] at heq
        have hgf : g = flp := eq_of_key_eq h.wf.nodup hg hflp hk
        subst g
        subst f
        exact absurd hown hne
      · rw [if_neg hk] at heq
        rwa [← heq]
    · intro hf
      refine ⟨f, hf, if_neg fun hk => hne ?_⟩
      rw [eq_of_key_eq h.wf.nodup hf hflp hk, hown]
  frame := by
    intro f hf
    refine (h.frame f hf).mono (wakeprocs_wakeups_subset flp k) ?_
    intro f' hf' haddr hstat
    by_cases hk : f'.addr = flp.addr
    · have heq : f' = flp := eq_of_key_eq h.wf.nodup hf' hflp hk
      subst f'
      refine .inr fun hne => ?_
      rw [← haddr]
      exact wakeprocs_wakes flp k (by rwa [hstat])
    · exact .inl (mem_amend.mpr ⟨f', hf', if_neg hk⟩)
  sleeplcks := by simpa using h.sleeplcks
  wakeups := fun _ hx => wakeprocs_wakeups_subset flp k (h.wakeups hx)
  zallocs := by simpa using h.zallocs
  stats := by
    intro f hf
    rcases mem_amend.mp hf with ⟨g, hg, rfl⟩
    by_cases hk : g.addr = flp.addr
    · rw [if_pos hk]
      exact .inl rfl
    · rw [if_neg hk]
      exact h.stats g hg

theorem holds_unlink_iff (hwf : WellFormed lst) (hflp : flp ∈ lst) (hx : ¬ flp.set.Covers x) :
    Holds (unlink Filock.addr flp.addr lst) o x ty ↔ Holds lst o x ty := by
  constructor
  · rintro ⟨f, hf, hrest⟩
    exact ⟨f, (mem_unlink.mp hf).1, hrest⟩
  · rintro ⟨f, hf, hown, hty, hcov⟩
    refine ⟨f, mem_unlink.mpr ⟨hf, fun hk => hx ?_⟩, hown, hty, hcov⟩
    rwa [← eq_of_key_eq hwf.nodup hf hflp hk]

theorem holds_of_unlink {k : Nat} (h : Holds (unlink Filock.addr k lst) o x ty) :
    Holds lst o x ty := by
  rcases h with ⟨f, hf, hrest⟩
  exact ⟨f, (mem_unlink.mp hf).1, hrest⟩

theorem holds_cut_iff (hwf : WellFormed lst) (hflp : flp ∈ lst) (hend : lEnd ≤ flp.set.lEnd)
    (hx : x ≤ lEnd ∨ flp.set.lEnd < x) :
    Holds (amend Filock.addr flp.addr (Filock.cutTo lEnd) lst) o x ty ↔ Holds lst o x ty := by
  constructor
  · rintro ⟨f, hf, hown, hty, hcov⟩
    rcases mem_amend.mp hf with ⟨g, hg, heq⟩
    by_cases hk : g.addr = flp.addr
    · have hgf : g = flp := eq_of_key_eq hwf.nodup hg hflp hk
      rw [if_pos hk] at heq
      subst g
      subst f
      exact ⟨flp, hflp, hown, hty, hcov.1, Int.le_trans hcov.2 hend⟩
    · rw [if_neg hk] at heq
      subst g
      exact ⟨f, hg, hown, hty, hcov⟩
  · rintro ⟨f, hf, hown, hty, hcov⟩
    by_cases hk : f.addr = flp.addr
    · have hff : f = flp := eq_of_key_eq hwf.nodup hf hflp hk
      refine ⟨f.cutTo lEnd, mem_amend.mpr ⟨f, hf, if_pos hk⟩, hown, hty, hcov.1, ?_⟩
      show x ≤ lEnd
      have h2 : x ≤ f.set.lEnd := hcov.2
      subst f
      omega
    · exact ⟨f, mem_amend.mpr ⟨f, hf, if_neg hk⟩, hown, hty, hcov⟩

theorem holds_of_cut (hwf : WellFormed lst) (hflp : flp ∈ lst) (hend : lEnd ≤ flp.set.lEnd)
    (h : Holds (amend Filock.addr flp.addr (Filock.cutTo lEnd) lst) o x ty) : Holds lst o x ty := by
  rcases h with ⟨f, hf, hown, hty, hcov⟩
  rcases mem_amend.mp hf with ⟨g, hg, heq⟩
  by_cases hk : g.addr = flp.addr
  · have hgf : g = flp := eq_of_key_eq hwf.nodup hg hflp hk
    rw [if_pos hk] at heq
    subst g
    subst f
    exact ⟨flp, hflp, hown, hty, hcov.1, Int.le_trans hcov.2 hend⟩
  · rw [if_neg hk] at heq
    subst g
    exact ⟨f, hg, hown, hty, hcov⟩

section

variable (h : Kept lst₀ ld₀ k₀ a) (hflp : flp ∈ a.lst) (hown : flp.owner = ld₀.owner)
include h hflp hown

/--
A lock of the owner is deleted while the request is widened to the bounds
`s` and `e`; the widening stays inside the lock and its type.
-/
theorem Kept.delete
    {a' : Adj} {s e : Int} (hlst : a'.lst = unlink Filock.addr flp.addr a.lst)
    (hk : a'.k = { wakeprocs flp a.k with reccnt := a.k.reccnt - 1 })
    (hld : a'.ld = { a.ld with lStart := s, lEnd := e }) (hs : s ≤ a.ld.lStart)
    (he : a.ld.lEnd ≤ e) (hin : s ≤ flp.set.lStart ∧ flp.set.lEnd ≤ e)
    (hleft : s < a.ld.lStart → s = flp.set.lStart ∧
      a.ld.lStart ≤ flp.set.lEnd + 1 ∧ a.ld.lType = flp.set.lType)
    (hright : a.ld.lEnd < e → e = flp.set.lEnd ∧
      flp.set.lStart ≤ a.ld.lEnd + 1 ∧ a.ld.lType = flp.set.lType)
    (hins : ld₀.lType ≠ .unlck → InsertOk a') : Kept lst₀ ld₀ k₀ a' := by
  have hwf := h.edited.wf
  have hvalid := hwf.valid flp hflp
  have hstart : a'.ld.lStart = s := by rw [hld]
  have hend : a'.ld.lEnd = e := by rw [hld]
  refine
    { edited := ?_, shape := ?_, start_nonneg := ?_, start_le := ?_,
      end_ge := ?_, end_le := ?_, outside := ?_, shrinks := ?_, widened := ?_,
      insrt := hins }
  · rw [hlst, hk]
    exact h.edited.del hflp hown
  · rw [hld, h.shape]
  · rw [hstart]
    by_cases hlt : s < a.ld.lStart
    · rw [(hleft hlt).1]
      exact hvalid.start_nonneg
    · have := h.start_nonneg
      omega
  · rw [hstart]
    exact Int.le_trans hs h.start_le
  · rw [hend]
    exact Int.le_trans h.end_ge he
  · rw [hend]
    by_cases hlt : a.ld.lEnd < e
    · rw [(hright hlt).1]
      exact hvalid.end_le
    · have := h.end_le
      omega
  · intro x ty hx
    rw [hlst, ← h.outside x ty (by omega)]
    refine holds_unlink_iff hwf hflp fun hcov => ?_
    have h1 := hcov.1
    have h2 := hcov.2
    omega
  · intro x ty hx
    rw [hlst] at hx
    exact h.shrinks x ty (holds_of_unlink hx)
  · intro x hx1 hx2 hnot
    by_cases hmid : a.ld.lStart ≤ x ∧ x ≤ a.ld.lEnd
    · exact h.widened x hmid.1 hmid.2 hnot
    · -- The byte lies in a part the request was widened by: inside the lock.
      have hty : ld₀.lType = flp.set.lType := by
        rw [← h.type_eq]
        by_cases hlt : s < a.ld.lStart
        · exact (hleft hlt).2.2
        · exact (hright (by omega)).2.2
      refine h.shrinks x ld₀.lType ⟨flp, hflp, hown, hty.symm, ?_⟩
      constructor
      · by_cases hlt : x < a.ld.lStart
        · omega
        · omega
      · by_cases hlt : x < a.ld.lStart
        · omega
        · omega

theorem Kept.shrink
    (hlt : flp.set.lStart < a.ld.lStart) (hmeet : a.ld.lStart ≤ flp.set.lEnd)
    (hend : flp.set.lEnd ≤ a.ld.lEnd) : Kept lst₀ ld₀ k₀ (a.shrink flp) where
  edited := h.edited.cut hflp hown (by omega) (by omega)
  shape := h.shape
  start_nonneg := h.start_nonneg
  start_le := h.start_le
  end_ge := h.end_ge
  end_le := h.end_le
  outside := by
    intro x ty hx
    rw [Adj.shrink_ld] at hx
    rw [← h.outside x ty hx]
    exact holds_cut_iff h.edited.wf hflp (by omega) (by omega)
  shrinks := fun x ty hx =>
    h.shrinks x ty (holds_of_cut h.edited.wf hflp (by omega) hx)
  widened := h.widened
  insrt := fun _ =>
    ⟨flp.cutTo (a.ld.lStart - 1), mem_amend.mpr ⟨flp, hflp, if_pos rfl⟩, rfl, Int.le_of_lt hlt⟩

end

end Kept

/-!
## Putting a record on the list
-/

theorem insflck_cases (t : Tune) (lst : List Filock) (lckdat : Flock) (fl : Option Nat) (k : Kern) :
    (∃ n, insflck t lst lckdat fl k = (none, lst, { k with zallocs := n }) ∧ k.zallocs ≤ n) ∨
      insflck t lst lckdat fl k = (some k.zallocs,
          insertAfter Filock.addr fl (newFilock k.zallocs lckdat) lst,
          { k with
            reccnt := k.reccnt + 1
            rectot := k.rectot + 1
            zallocs := k.zallocs + 1 }) := by
  unfold insflck
  split
  · exact .inl ⟨k.zallocs, rfl, le_refl _⟩
  · split
    · exact .inl ⟨k.zallocs + 1, rfl, Nat.le_succ _⟩
    · exact .inr rfl

/-- The place found by the walk from a lock keeps the list in order. -/
theorem insertAfter_lastBefore (hwf : WellFormed lst) (start : Int) (hflp : flp ∈ lst)
    (hle : flp.set.lStart ≤ start) (new : Filock) : ∃ front back, lst = front ++ back ∧
      insertAfter Filock.addr (lastBefore start lst flp.addr) new lst = front ++ new :: back ∧
      flp ∈ front ∧ (∀ f ∈ front, f.set.lStart ≤ start) ∧ (∀ f ∈ back, start ≤ f.set.lStart) := by
  rcases insertAfter_walk hwf.nodup (fun f => f.set.lStart < start) hflp new
    with ⟨front, back, hsplit, heq, hmem, ⟨last, hlast, hstop⟩, hnext⟩
  have hsorted := hwf.sorted
  rw [hsplit, pairwise_append] at hsorted
  have hlastLe : last.set.lStart ≤ start := by
    rcases hstop with rfl | hlt
    · exact hle
    · exact Int.le_of_lt hlt
  refine ⟨front, back, hsplit, heq, hmem, ?_, ?_⟩
  · intro f hf
    have hfl : f.set.lStart ≤ last.set.lStart := by
      rcases List.getLast?_eq_some_iff.mp hlast with ⟨init, rfl⟩
      rcases mem_append.mp hf with hin | hin
      · exact (pairwise_append.mp hsorted.1).2.2 f hin last (by simp)
      · have heq : f = last := mem_singleton.mp hin
        exact heq ▸ Int.le_refl _
    omega
  · intro f hf
    by_cases hlt : flp.set.lStart < start
    · rcases exists_cons_of_ne_nil (ne_nil_of_mem hf) with ⟨y, rest, rfl⟩
      have hy : start ≤ y.set.lStart := by
        have := hnext hlt y rfl
        omega
      rcases mem_cons.mp hf with rfl | hin
      · exact hy
      · have := (pairwise_cons.mp hsorted.2.1).1 f hin
        omega
    · have := hsorted.2.2 flp hmem f hf
      omega

theorem holds_insert : Holds (front ++ new :: back) o x ty ↔ Holds (front ++ back) o x ty ∨
        (new.owner = o ∧ new.set.lType = ty ∧ new.set.Covers x) := by
  constructor
  · rintro ⟨f, hf, hrest⟩
    rcases mem_append.mp hf with hin | hin
    · exact .inl ⟨f, mem_append_left _ hin, hrest⟩
    · rcases mem_cons.mp hin with rfl | hin
      · exact .inr hrest
      · exact .inl ⟨f, mem_append_right _ hin, hrest⟩
  · rintro (⟨f, hf, hrest⟩ | hrest)
    · refine ⟨f, ?_, hrest⟩
      rcases mem_append.mp hf with hin | hin
      · exact mem_append_left _ hin
      · exact mem_append_right _ (mem_cons_of_mem _ hin)
    · exact ⟨new, by simp, hrest⟩

theorem Edited.insert (h : Edited lst₀ o k₀ (front ++ back) k) (hstat : new.stat.wakeflg = 0)
    (hown : new.owner = o) (hvalid : new.set.Valid) (haddr : new.addr = k.zallocs)
    (hz : k'.zallocs = k.zallocs + 1) (hsleep : k'.sleeplcks = k.sleeplcks)
    (hwake : k'.wakeups = k.wakeups) (hclear : ∀ f ∈ front ++ back, f.owner = o → Clear new.set f)
    (hfront : ∀ f ∈ front, f.set.lStart ≤ new.set.lStart)
    (hback : ∀ f ∈ back, new.set.lStart ≤ f.set.lStart) :
    Edited lst₀ o k₀ (front ++ new :: back) k' where
  wf := by
    refine h.wf.insert hvalid (fun f hf => ?_) (fun f hf hof => ?_) hfront hback
    · have := h.addrs f hf
      omega
    · exact hclear f hf (hof.trans hown)
  addrs := by
    intro f hf
    rcases mem_append.mp hf with hin | hin
    · have := h.addrs f (mem_append_left _ hin)
      omega
    · rcases mem_cons.mp hin with rfl | hin
      · omega
      · have := h.addrs f (mem_append_right _ hin)
        omega
  others := by
    intro f hne
    rw [← h.others f hne]
    have hnew : f ≠ new := fun heq => hne (heq ▸ hown)
    simp [hnew]
  frame := by
    intro f hf
    refine (h.frame f hf).mono (by rw [hwake]; exact List.Subset.refl _) ?_
    intro f' hf' _ _
    refine .inl ?_
    rcases mem_append.mp hf' with hin | hin
    · exact mem_append_left _ hin
    · exact mem_append_right _ (mem_cons_of_mem _ hin)
  sleeplcks := hsleep.trans h.sleeplcks
  wakeups := by
    rw [hwake]
    exact h.wakeups
  zallocs := by
    have := h.zallocs
    omega
  stats := by
    intro f hf
    rcases mem_append.mp hf with hin | hin
    · exact h.stats f (mem_append_left _ hin)
    · rcases mem_cons.mp hin with rfl | hin
      · exact .inl hstat
      · exact h.stats f (mem_append_right _ hin)

theorem Kept.splitTail {ld₀ : Flock} {a : Adj} (h : Kept lst₀ ld₀ k₀ a) (hflp : flp ∈ a.lst)
    (hown : flp.owner = ld₀.owner) (hmeet : flp.set.lStart ≤ a.ld.lEnd) {a' : Adj} {td : Filock}
    (htd : td.set = { flp.set with lStart := a.ld.lEnd + 1 })
    (hlst : a'.lst = front ++ td :: back) (hld : a'.ld = a.ld)
    (hedited : Edited lst₀ ld₀.owner k₀ a'.lst a'.k)
    (hof : ∀ x ty, Holds (front ++ back) ld₀.owner x ty →
      Holds a.lst ld₀.owner x ty) (hiff : ∀ x ty, x < a.ld.lStart ∨ flp.set.lEnd < x →
      (Holds (front ++ back) ld₀.owner x ty ↔ Holds a.lst ld₀.owner x ty))
    (hins : ld₀.lType ≠ .unlck → InsertOk a') : Kept lst₀ ld₀ k₀ a' := by
  have htdOwn : td.owner = ld₀.owner := by
    rw [← hown]
    simp [Filock.owner, htd, Flock.owner]
  have htdCov : ∀ x, td.set.Covers x ↔ a.ld.lEnd + 1 ≤ x ∧ x ≤ flp.set.lEnd := by
    intro x
    rw [htd]
    rfl
  have hnew : ∀ x ty, Holds a'.lst ld₀.owner x ty → Holds a.lst ld₀.owner x ty := by
    intro x ty hx
    rw [hlst, holds_insert] at hx
    rcases hx with hx | ⟨_, hty, hcov⟩
    · exact hof x ty hx
    · refine ⟨flp, hflp, hown, ?_, ?_⟩
      · rw [← hty, htd]
      · have := (htdCov x).mp hcov
        exact ⟨by omega, by omega⟩
  exact
    { edited := hedited
      shape := by rw [hld]; exact h.shape
      start_nonneg := by rw [hld]; exact h.start_nonneg
      start_le := by rw [hld]; exact h.start_le
      end_ge := by rw [hld]; exact h.end_ge
      end_le := by rw [hld]; exact h.end_le
      outside := by
        intro x ty hx
        rw [hld] at hx
        rw [← h.outside x ty hx]
        refine ⟨hnew x ty, fun hold => ?_⟩
        rw [hlst, holds_insert]
        by_cases hfar : x < a.ld.lStart ∨ flp.set.lEnd < x
        · exact .inl ((hiff x ty hfar).mpr hold)
        · -- The byte is in the part of the lock that was split off.
          have hcov : flp.set.Covers x := ⟨by omega, by omega⟩
          rcases hold with ⟨f, hf, hfown, hfty, hfcov⟩
          have hff : f = flp :=
            Filock.eq_of_covers h.edited.wf hf hflp (hfown.trans hown.symm) hfcov hcov
          subst f
          refine .inr ⟨htdOwn, ?_, (htdCov x).mpr ⟨by omega, by omega⟩⟩
          rw [htd]
          exact hfty
      shrinks := fun x ty hx => h.shrinks x ty (hnew x ty hx)
      widened := by
        intro x hx1 hx2 hnot
        rw [hld] at hx1 hx2
        exact h.widened x hx1 hx2 hnot
      insrt := hins }

end RecordLock
end Svr4
