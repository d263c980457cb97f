import Svr4.Semaphore.Semsys
import Svr4.Semaphore.UndoCalls

/-!
# All operations or none

The operations of one `semop` call act on an abstract store: the values of
the semaphores and the adjustments of the processes.  An attempt that succeeds
applies every operation to the store, in list order; one that fails or has to
wait leaves every value and every adjust-on-exit record as it was.
-/

namespace Svr4
namespace Semaphore

/-!
## The abstract store
-/

/-- Values of the semaphores and adjustments of the processes. -/
@[ext] structure Store where
  semval : Nat → Int
  aoe : Nat → Int → Nat → Int

/-- An operation is possible, and so is the adjustment it asks for. -/
def Store.Permits (si : SemInfo) (slot : Nat) (id : Int) (base : Nat)
    (st : Store) (op : Sembuf) : Prop :=
  (op.semOp > 0 → st.semval (base + op.semNum) + op.semOp ≤ si.semvmx) ∧
  (op.semOp < 0 → st.semval (base + op.semNum) + op.semOp ≥ 0) ∧
  (op.semOp = 0 → st.semval (base + op.semNum) = 0) ∧
  (op.semOp ≠ 0 → op.isUndo → op.semOp ≤ si.semaem ∧ -si.semaem ≤ op.semOp ∧
    st.aoe slot id op.semNum - op.semOp ≤ si.semaem ∧
    -si.semaem ≤ st.aoe slot id op.semNum - op.semOp)

instance (si : SemInfo) (slot : Nat) (id : Int) (base : Nat) (st : Store)
    (op : Sembuf) : Decidable (st.Permits si slot id base op) := by
  unfold Store.Permits
  infer_instance

/-- The effect of an operation: the value, and the adjustment on exit. -/
def Store.effect (slot : Nat) (id : Int) (base : Nat) (st : Store)
    (op : Sembuf) : Store where
  semval := Function.update st.semval (base + op.semNum) (st.semval (base + op.semNum) + op.semOp)
  aoe q id' num := st.aoe q id' num -
    if op.isUndo ∧ q = slot ∧ id' = id ∧ num = op.semNum then op.semOp else 0

def Store.apply (si : SemInfo) (slot : Nat) (id : Int) (base : Nat)
    (st : Store) (op : Sembuf) : Option Store :=
  if st.Permits si slot id base op then some (st.effect slot id base op)
  else none

def Sems.store (s : Sems) : Store where
  semval i := (s.sem i).semval.toNat
  aoe := s.undos.aoe

/--
No value and no record differs; a process that had an undo structure still has
one.
-/
structure Sems.Same (s s' : Sems) : Prop where
  semval : ∀ i, (s'.sem i).semval = (s.sem i).semval
  entries : ∀ q, s'.undos.entries q = s.undos.entries q
  owners : ∀ q, (s.undos.semUndo q).isSome → (s'.undos.semUndo q).isSome

theorem Sems.Same.refl (s : Sems) : s.Same s :=
  ⟨fun _ => rfl, fun _ => rfl, fun _ h => h⟩

variable {s s' : Sems}

theorem Sems.Same.trans {s'' : Sems} (h : s.Same s') (h' : s'.Same s'') : s.Same s'' where
  semval i := (h'.semval i).trans (h.semval i)
  entries q := (h'.entries q).trans (h.entries q)
  owners q hq := h'.owners q (h.owners q hq)

theorem Sems.Same.aoe_eq (h : s.Same s') (q : Nat) (id : Int)
    (num : Nat) : s'.undos.aoe q id num = s.undos.aoe q id num := by
  unfold Undos.aoe
  rw [h.entries]

theorem Sems.Same.store_eq (h : s.Same s') : s'.store = s.store := by
  ext i
  · simp [Sems.store, h.semval]
  · simp [Sems.store, h.aoe_eq]

theorem Sems.same_setSem (s : Sems) (semp : Nat) (x : Sem)
    (hx : x.semval = (s.sem semp).semval) : s.Same (s.setSem semp x) where
  semval i := by
    by_cases hi : i = semp
    · subst hi
      simp [Sems.setSem, hx]
    · simp [Sems.setSem, hi]
  entries _ := rfl
  owners _ hq := hq

/-!
## Unsigned shorts
-/

theorem toNat_addShort (x : UInt16) (d : Int) :
    ((addShort x d).toNat : Int) = (x.toNat + d) % 65536 := by
  have hlt := ushort_lt (x.toNat + d)
  unfold addShort
  rw [UInt16.toNat_ofNat_of_lt' (by simpa using hlt)]
  unfold ushort
  omega

theorem addShort_cancel (x : UInt16) (d : Int) : addShort (addShort x d) (-d) = x := by
  apply UInt16.toNat_inj.mp
  have hsum := toNat_addShort x d
  have hback := toNat_addShort (addShort x d) (-d)
  have hx := x.toNat_lt
  omega

/-!
## One operation
-/

section Operation

variable {si : SemInfo} {slot : Nat} {id : Int} {base : Nat} {op : Sembuf}
  {s : Sems}

/-- An operation done: its effect, and that it can be undone. -/
structure OpDone (si : SemInfo) (slot : Nat) (id : Int) (base : Nat)
    (op : Sembuf) (s s' : Sems) : Prop where
  ok : s'.undos.Ok si
  owners : ∀ q, (s.undos.semUndo q).isSome → (s'.undos.semUndo q).isSome
  store : s.store.apply si slot id base op = some s'.store
  undone : ∀ t : Sems, s'.Same t → t.undos.Ok si →
    ∃ t', semundoOne si slot id base op t = some t' ∧ t'.undos.Ok si ∧ s.Same t'

theorem restore_semval {t : Sems} {semp : Nat} {d : Int}
    (hsemp : (t.sem semp).semval = addShort (s.sem semp).semval d)
    (hother : ∀ i, i ≠ semp → (t.sem i).semval = (s.sem i).semval) (i : Nat) :
    ((t.setSem semp ((t.sem semp).restore d)).sem i).semval = (s.sem i).semval := by
  by_cases hi : i = semp
  · subst hi
    simp [Sems.setSem, Sem.restore, hsemp, addShort_cancel]
  · simp [Sems.setSem, hi, hother i hi]

/-- Undoing an adjustment succeeds. -/
theorem semaoe_undo {u u' t : Undos} {val : Int} {num : Nat} (hok : u.Ok si)
    (hpost : SemaoePost si u u' slot val id num none)
    (hne : val ≠ 0) (hentries : ∀ q, t.entries q = u'.entries q)
    (howners : ∀ q, (u'.semUndo q).isSome → (t.semUndo q).isSome) (ht : t.Ok si) :
    ∃ t', semaoe si t slot (-val) id num = some (none, t') ∧ t'.Ok si ∧
      (∀ q, t'.entries q = u.entries q) ∧ (∀ q, (u.semUndo q).isSome → (t'.semUndo q).isSome) := by
  have hdone := hpost.done rfl
  have haem := si.semaem_le
  have hvalue := hdone.value
  have haoe : ∀ q id' num', t.aoe q id' num' = u'.aoe q id' num' := by
    intro q id' num'
    unfold Undos.aoe
    rw [hentries]
  rcases semaoe_spec ht slot (-val) id num (by omega) with ⟨r, t', hrun, hback⟩
  cases r with
  | some e =>
    exfalso
    rcases (hback.refused e rfl).2 with h | h | ⟨hnone, h⟩ | h
    · omega
    · have hattached := howners slot (hdone.attached hne)
      simp [h] at hattached
    · rw [haoe] at hnone
      rw [hentries] at h
      have hroom := hdone.room hne hnone
      omega
    · rw [haoe, hdone.aoe_eq] at h
      have hrange := (hok.entries_ok slot).aoe_range id num
      unfold Undos.aoe at h
      omega
  | none =>
    refine ⟨t', hrun, hback.ok, ?_, ?_⟩
    · intro q
      apply (hback.ok.entries_ok q).ext (hok.entries_ok q)
      intro id' num'
      have hsum := hback.aoe_eq q id' num'
      rw [haoe, hpost.aoe_eq] at hsum
      unfold Undos.aoe at hsum
      rw [hsum]
      split_ifs <;> omega
    · intro q hq
      exact hback.owners q (howners q (hpost.owners q hq))

theorem operate_spec (slot : Nat) (id : Int) (base : Nat) (op : Sembuf)
    (hok : s.undos.Ok si) (hne : op.semOp ≠ 0)
    (hhigh : op.semOp > 0 → ((s.sem (base + op.semNum)).semval.toNat : Int) + op.semOp ≤ si.semvmx)
    (hlow : op.semOp < 0 → ((s.sem (base + op.semNum)).semval.toNat : Int) + op.semOp ≥ 0) :
    ∃ r s', s.adjust si slot id op = some (r, s') ∧
      match r with
      | some _ => s'.undos.Ok si ∧ s.Same s'
      | none => OpDone si slot id base op s
          (s'.setSem (base + op.semNum) ((s'.sem (base + op.semNum)).operate op.semOp)) := by
  have hx := (s.sem (base + op.semNum)).semval.toNat_lt
  have hvmx := si.semvmx_le
  have hvalue := toNat_addShort (s.sem (base + op.semNum)).semval op.semOp
  have hsum : ((addShort (s.sem (base + op.semNum)).semval op.semOp).toNat
      : Int) = (s.sem (base + op.semNum)).semval.toNat + op.semOp := by
    omega
  -- The values after the operation, whatever becomes of the undo tables.
  have hsemval : ∀ u : Undos, ∀ i, ((({ s with undos := u } : Sems).setSem (base + op.semNum)
        ((s.sem (base + op.semNum)).operate op.semOp)).sem i).semval.toNat =
      Function.update s.store.semval (base + op.semNum)
        (s.store.semval (base + op.semNum) + op.semOp) i := by
    intro u i
    by_cases hi : i = base + op.semNum
    · subst hi
      simp [Sems.setSem, Sem.operate, Sems.store, hsum]
    · simp [Sems.setSem, Sems.store, hi]
  -- And what undoing does to the values.
  have hrestore : ∀ t : Sems, ∀ u : Undos, (({ s with undos := u } : Sems).setSem (base + op.semNum)
        ((s.sem (base + op.semNum)).operate op.semOp)).Same t → ∀ i,
      ((t.setSem (base + op.semNum) ((t.sem (base + op.semNum)).restore op.semOp)).sem i).semval =
          (s.sem i).semval := by
    intro t u hsame i
    apply restore_semval
    · rw [hsame.semval]
      simp [Sems.setSem, Sem.operate]
    · intro j hj
      rw [hsame.semval]
      simp [Sems.setSem, hj]
  unfold Sems.adjust
  by_cases hundo : op.isUndo
  · rw [if_pos hundo]
    rcases semaoe_spec hok slot op.semOp id op.semNum op.semOp_range with ⟨r, u', hrun, hpost⟩
    rw [hrun]
    refine ⟨r, _, rfl, ?_⟩
    cases r with
    | some e =>
      exact ⟨hpost.ok, fun i => rfl, hpost.entries_eq, hpost.owners⟩
    | none =>
      have hdone := hpost.done rfl
      have hrange := (hpost.ok.entries_ok slot).aoe_range id op.semNum
      have hkey := hdone.aoe_eq id op.semNum
      change u'.aoe slot id op.semNum ≤ _ ∧ _ ≤ u'.aoe slot id op.semNum at hrange
      constructor
      · exact hpost.ok
      · exact hpost.owners
      · have hpermits : s.store.Permits si slot id base op := by
          refine ⟨hhigh, hlow, fun h => absurd h hne, ?_⟩
          intro _ _
          refine ⟨hdone.value.1, hdone.value.2, ?_, ?_⟩
          · show s.undos.aoe slot id op.semNum - op.semOp ≤ _
            omega
          · show _ ≤ s.undos.aoe slot id op.semNum - op.semOp
            omega
        rw [Store.apply, if_pos hpermits]
        congr 1
        ext i
        · exact (hsemval u' i).symm
        · rename_i id' num'
          have haoe := hpost.aoe_eq i id' num'
          simpa [Store.effect, Sems.store, Sems.setSem, hundo] using haoe.symm
      · intro t hsame ht
        rcases semaoe_undo hok hpost hne hsame.entries hsame.owners ht with
          ⟨t', hback, hok', hentries, howners⟩
        refine ⟨{ t.setSem (base + op.semNum) ((t.sem (base + op.semNum)).restore op.semOp) with
            undos := t' }, ?_, hok', hrestore t u' hsame, hentries,
          howners⟩
        unfold semundoOne
        rw [if_neg hne, if_pos hundo]
        simp only [Sems.setSem, hback, Option.map_some]
  · rw [if_neg hundo]
    refine ⟨none, s, rfl, ?_⟩
    constructor
    · exact hok
    · exact fun q hq => hq
    · have hpermits : s.store.Permits si slot id base op :=
        ⟨hhigh, hlow, fun h => absurd h hne, fun _ h => absurd h hundo⟩
      rw [Store.apply, if_pos hpermits]
      congr 1
      ext i
      · exact (hsemval s.undos i).symm
      · simp [Store.effect, Sems.store, Sems.setSem, hundo]
    · intro t hsame ht
      refine ⟨t.setSem (base + op.semNum) ((t.sem (base + op.semNum)).restore op.semOp), ?_, ht,
        hrestore t s.undos hsame, hsame.entries, hsame.owners⟩
      rw [semundoOne, if_neg hne, if_neg hundo]

theorem semopOne_spec (slot : Nat) (id : Int) (base : Nat) (op : Sembuf) (hok : s.undos.Ok si) :
    ∃ stop s', semopOne si slot id base op s = some (stop, s') ∧
      match stop with
      | some _ => s'.undos.Ok si ∧ s.Same s'
      | none => OpDone si slot id base op s s' := by
  have hsame : s.undos.Ok si ∧ s.Same s := ⟨hok, Sems.Same.refl s⟩
  -- The two branches that carry the operation out differ in the test only.
  have hoperate : op.semOp ≠ 0 → (op.semOp > 0 → ((s.sem (base + op.semNum)).semval.toNat : Int) +
        op.semOp ≤ si.semvmx) →
      (op.semOp < 0 → ((s.sem (base + op.semNum)).semval.toNat : Int) + op.semOp ≥ 0) →
      ∀ f : Option Errno × Sems → Option Stop × Sems,
      (∀ e s, f (some e, s) = (some (Stop.error e), s)) →
      (∀ s, f (none, s) = (none, s.setSem (base + op.semNum)
        ((s.sem (base + op.semNum)).operate op.semOp))) →
      ∃ stop s', (s.adjust si slot id op).map f = some (stop, s') ∧
        match stop with
        | some _ => s'.undos.Ok si ∧ s.Same s'
        | none => OpDone si slot id base op s s' := by
    intro hne hhigh hlow f hfail hdone
    rcases operate_spec slot id base op hok hne hhigh hlow with ⟨r, s', hrun, hpost⟩
    rw [hrun]
    cases r with
    | some e => exact ⟨_, _, congrArg some (hfail e s'), hpost⟩
    | none => exact ⟨_, _, congrArg some (hdone s'), hpost⟩
  unfold semopOne
  by_cases hpos : op.semOp > 0
  · rw [if_pos hpos]
    split_ifs with hmax
    · exact ⟨_, s, rfl, hsame⟩
    · exact hoperate (by omega) (by omega) (by omega) _ (fun _ _ => rfl) fun _ => rfl
  · rw [if_neg hpos]
    by_cases hneg : op.semOp < 0
    · split_ifs with hless
      · exact hoperate (by omega) (by omega) (by omega) _ (fun _ _ => rfl) fun _ => rfl
      · exact ⟨_, s, rfl, hsame⟩
    · have hzero : op.semOp = 0 := by omega
      split_ifs with hval
      · exact ⟨_, s, rfl, hsame⟩
      · refine ⟨none, s, rfl, hok, fun q hq => hq, ?_, ?_⟩
        · have hpermits : s.store.Permits si slot id base op := by
            refine ⟨by omega, by omega, ?_, fun h => absurd hzero h⟩
            intro _
            exact not_not.mp hval
          rw [Store.apply, if_pos hpermits]
          congr 1
          ext i
          · simp [Store.effect, hzero]
          · simp [Store.effect, hzero]
        · intro t ht hok'
          exact ⟨t, by simp [semundoOne, hzero], hok', ht⟩

end Operation

/-!
## The loop and its rollback
-/

section Loop

variable {si : SemInfo} {slot : Nat} {id : Int} {base : Nat}
  {s₀ s : Sems}

/--
From any tables that agree with `s`, undoing the operations `done`
leads back to `s₀`.
-/
def RollsBack (si : SemInfo) (slot : Nat) (id : Int) (base : Nat)
    (done : List Sembuf) (s₀ s : Sems) : Prop :=
  ∀ t : Sems, s.Same t → t.undos.Ok si →
    ∃ t', semundo si slot id base done t = some t' ∧ t'.undos.Ok si ∧ s₀.Same t'

theorem RollsBack.nil (s : Sems) : RollsBack si slot id base [] s s :=
  fun t hsame ht => ⟨t, rfl, ht, hsame⟩

theorem RollsBack.cons {done : List Sembuf} {op : Sembuf}
    (hback : RollsBack si slot id base done s₀ s) (hop : OpDone si slot id base op s s') :
    RollsBack si slot id base (op :: done) s₀ s' := by
  intro t hsame ht
  rcases hop.undone t hsame ht with ⟨t₁, hone, ht₁, hsame₁⟩
  rcases hback t₁ hsame₁ ht₁ with ⟨t', hrun, ht', hsame'⟩
  exact ⟨t', by rw [semundo, hone, Option.bind_some, hrun], ht', hsame'⟩

def AttemptPost (si : SemInfo) (slot : Nat) (id : Int) (base : Nat)
    (ops : List Sembuf) (s₀ s s' : Sems) : Attempt → Prop
  | .done => ops.foldlM (Store.apply si slot id base) s.store = some s'.store
  | .fail _ => s₀.Same s'
  | .sleep _ _ => s₀.Same s'

theorem semopLoop_spec (slot : Nat) (id : Int) (base : Nat)
    (done ops : List Sembuf) (hok : s.undos.Ok si) (hback : RollsBack si slot id base done s₀ s) :
    ∃ a s', semopLoop si slot id base done ops s = some (a, s') ∧
      s'.undos.Ok si ∧ AttemptPost si slot id base ops s₀ s s' a := by
  induction ops generalizing done s with
  | nil => exact ⟨.done, s, rfl, hok, rfl⟩
  | cons op rest ih =>
    rcases semopOne_spec slot id base op hok with ⟨stop, s₁, hone, hpost⟩
    rw [semopLoop, hone, Option.bind_some]
    cases stop with
    | none =>
      rcases ih (op :: done) hpost.ok (hback.cons hpost) with ⟨a, s', hrun, hok', hattempt⟩
      refine ⟨a, s', hrun, hok', ?_⟩
      cases a with
      | done =>
        show (op :: rest).foldlM _ _ = _
        rw [List.foldlM_cons, hpost.store]
        exact hattempt
      | fail e => exact hattempt
      | sleep chan semp => exact hattempt
    | some stop =>
      rcases hpost with ⟨hok₁, hsame⟩
      rcases hback s₁ hsame hok₁ with ⟨s', hundo, hok', hsame'⟩
      dsimp only
      rw [hundo, Option.map_some]
      cases stop with
      | error e => exact ⟨_, _, rfl, hok', hsame'⟩
      | wait chan =>
        by_cases hnowait : op.isNowait
        · simp only [hnowait, if_true]
          exact ⟨_, _, rfl, hok', hsame'⟩
        · simp only [hnowait, if_false]
          refine ⟨_, _, rfl, hok', ?_⟩
          apply hsame'.trans
          apply Sems.same_setSem
          cases chan <;> rfl

theorem setPids_same (pid : Int) (base : Nat) (ops : List Sembuf) (s : Sems) :
    s.Same (setPids pid base ops s) := by
  unfold setPids
  induction ops generalizing s with
  | nil => exact Sems.Same.refl s
  | cons op rest ih =>
    apply Sems.Same.trans _ (ih _)
    apply Sems.same_setSem
    rfl

theorem setPids_undos (pid : Int) (base : Nat) (ops : List Sembuf)
    (s : Sems) : (setPids pid base ops s).undos = s.undos := by
  induction ops generalizing s with
  | nil => rfl
  | cons op rest ih => exact ih _

end Loop

end Semaphore
end Svr4
