import Mathlib.Data.Set.Card
import Mathlib.Logic.Equiv.Basic
import Svr4.Files.Descriptors
import Svr4.Lib.Transition

/-!
# Files and the descriptors that name them

`closef` and `closeall` of `os/fio.c`, `copen`, `close` and `dup` of `fs/vncalls.c`, and
what `newproc`, `pexit` and `exit` do with the descriptors of a process. A process may
sleep in `vn_open` and in `procdup`.
-/

namespace Svr4
namespace Files

open Function Option List Transition

def FNDELAY : Nat := 0x04
def FNONBLOCK : Nat := 0x80

def EBADF : Errno := .other 9
def EINVAL : Errno := .other 22

/-- What `vn_open` returns; a vnode with `VDUP` is that of a descriptor.  A driver that is disabled
counts as an error. -/
inductive Opened where
  | error (e : Nat)
  | vdup (vchr : Bool) (dupfd : Nat)
  | vnode (vp : Nat)

namespace Kernel

def setFile (k : Kernel) (fp : Nat) (f : File) : Kernel :=
  { k with file := k.file.map fun x => if x.1 = fp then (fp, f) else x }

/-- `f_count++` -/
def hold (k : Kernel) (fp : Nat) : Kernel :=
  match k.file.lookup fp with
  | none => k
  | some f => k.setFile fp { f with fCount := f.fCount + 1 }

def closef (k : Kernel) (fp : Nat) : Kernel :=
  match k.file.lookup fp with
  | none => k
  | some f =>
    if f.fCount ≤ 0 then k
    else if f.fCount > 1 then k.setFile fp { f with fCount := f.fCount - 1 }
    else
      { k with
        file := k.file.filter fun x => x.1 ≠ fp
        crRef := k.crRef - 1
        filecnt := k.filecnt - 1 }

/-- `close`; `closed` is what `VOP_CLOSE` returns. -/
def close (k : Kernel) (fd : Nat) (closed : Option Errno) : Option (Kernel × Option Errno) := do
  match ← k.u.getf fd with
  | none => return (k, some EBADF)
  | some fp => return ({ k.closef fp with u := ← k.u.setf fd none }, closed)

def dup (k : Kernel) (mem : Nat → Bool) (fdes : Nat) : Option (Kernel × Except Errno Nat) := do
  match ← k.u.getf fdes with
  | none => return (k, .error EBADF)
  | some fp =>
    match ← k.u.ufalloc mem 0 with
    | (u, .error e) => return ({ k with u := u }, .error e)
    | (u, .ok fd) => return ({ k.hold fp with u := ← u.setf fd (some fp) }, .ok fd)

/-- The two kinds of reads that do not wait exclude each other. -/
def openMode (filemode : Nat) : Nat :=
  let both := FNONBLOCK ||| FNDELAY
  if filemode &&& both = both then filemode - FNDELAY else filemode

/-- `copen` up to `vn_open`. -/
def copen (k : Kernel) (mem : Nat → Bool) (new : Option Nat) (filemode : Nat) :
    Option (Kernel × Except Errno (Nat × Nat)) :=
  if filemode &&& 3 = 0 then some (k, .error EINVAL)
  else k.falloc mem new none (openMode filemode &&& FMASK)

/-- `copen` behind `vn_open`. -/
def opened (k : Kernel) (fp fd : Nat) : Opened → Option (Kernel × Except Errno Nat)
  | .vnode vp => some ({ k with file := k.file.map fun x =>
      if x.1 = fp then (fp, { x.2 with fVnode := some vp }) else x }, .ok fd)
  | .error e => do
    return ({ k with u := ← k.u.setf fd none }.unfalloc fp, .error (.other e))
  | .vdup vchr dupfd => do
    let k := { k with u := ← k.u.setf fd none }.unfalloc fp
    if !vchr then return (k, .error EINVAL)
    match ← k.u.getf dupfd with
    | none => return (k, .error EBADF)
    | some fp => return ({ k.hold fp with u := ← k.u.setf fd (some fp) }, .ok fd)

/-- A loop over the descriptors with files. -/
def forFiles (body : Kernel → Nat → Nat → Option Kernel) : Nat → Nat → Kernel → Option Kernel
  | 0, _, k => some k
  | n + 1, i, k => do
    match ← k.u.getf i with
    | none => forFiles body n (i + 1) k
    | some fp => forFiles body n (i + 1) (← body k i fp)

def closeall (k : Kernel) (flag : Bool) : Option Kernel :=
  forFiles (fun k i fp => do
    return { k.closef fp with u := ← if flag then k.u.setf i none else some k.u }) k.u.uNofiles 0 k

/-- The files of the child are counted in `newproc`. -/
def holdall (k : Kernel) : Option Kernel :=
  forFiles (fun k _ fp => some (k.hold fp)) k.u.uNofiles 0 k

/-!
## The table of files
-/

def count (k : Kernel) (fp : Nat) : Nat :=
  ((k.file.lookup fp).map fun f => f.fCount.toNat).getD 0

variable {ι : Type} {k k' : Kernel} {ref ref' : ι × Nat → Option Nat} {x y : ι × Nat} {fp fd : Nat}
  {f f' : File} {l : List (Nat × File)}

theorem lookup_map (g : File → File) (q : Nat) :
    (l.map fun x => if x.1 = fp then (fp, g x.2) else x).lookup q =
      if q = fp then (l.lookup q).map g else l.lookup q := by
  induction l with
  | nil => simp
  | cons x l ih =>
    rcases x with ⟨a, f⟩
    simp only [map_cons]
    by_cases ha : a = fp <;> by_cases hq : q = a <;> grind

theorem lookup_filter (q : Nat) :
    (l.filter fun x => x.1 ≠ fp).lookup q = if q = fp then none else l.lookup q := by
  induction l with
  | nil => simp
  | cons x l ih =>
    rcases x with ⟨a, f⟩
    by_cases ha : a = fp <;> by_cases hq : q = a <;> grind

/-- The files are counted for the references `ref` of the descriptors of all processes. -/
structure Table (k : Kernel) (ref : ι × Nat → Option Nat) : Prop where
  counted : ∀ fp, {x | ref x = some fp}.encard = k.count fp
  pos : ∀ fp f, k.file.lookup fp = some f → 0 < f.fCount

theorem Table.relabel (h : k.Table ref) (e : ι × Nat ≃ ι × Nat) : k.Table (ref ∘ e) :=
  ⟨fun fp => (Set.encard_preimage_of_injective_subset_range e.injective
    (e.range_eq_univ ▸ Set.subset_univ _)).trans (h.counted fp), h.pos⟩

theorem Table.found (h : k.Table ref) (hx : ref x = some fp) :
    ∃ f, k.file.lookup fp = some f ∧ 0 < f.fCount := by
  have hcount := h.counted fp
  cases hf : k.file.lookup fp with
  | none =>
    rw [count, hf] at hcount
    have hempty := Set.encard_eq_zero.mp (hcount.trans rfl)
    exact absurd (show x ∈ {x | ref x = some fp} from hx) (hempty ▸ Set.notMem_empty x)
  | some f => exact ⟨f, rfl, h.pos fp f hf⟩

theorem lookup_setFile (hf : k.file.lookup fp = some f) (q : Nat) :
    (k.setFile fp f').file.lookup q = if q = fp then some f' else k.file.lookup q := by
  refine (lookup_map (fun _ => f') q).trans ?_
  by_cases hq : q = fp
  · rw [if_pos hq, if_pos hq, hq, hf]
    rfl
  · rw [if_neg hq, if_neg hq]

theorem Table.setFile (h : k.Table ref) (hf : k.file.lookup fp = some f) (hpos : 0 < f'.fCount)
    (hcounted : ∀ q, {x | ref' x = some q}.encard =
      (if q = fp then f'.fCount.toNat else k.count q : Nat)) : (k.setFile fp f').Table ref' := by
  refine ⟨fun q => ?_, fun q g hg => ?_⟩
  · rw [hcounted]
    congr 1
    show _ = ((lookup q _).map _).getD 0
    rw [lookup_setFile hf]
    split <;> rfl
  · rw [lookup_setFile hf] at hg
    split at hg
    · cases hg
      exact hpos
    · exact h.pos q g hg

variable [DecidableEq ι]

theorem encard_update_some (hx : ref x = none) (fp q : Nat) :
    {y | update ref x (some fp) y = some q}.encard =
      {y | ref y = some q}.encard + if q = fp then 1 else 0 := by
  by_cases hq : q = fp
  · have hset : {y | update ref x (some fp) y = some q} = insert x {y | ref y = some q} := by
      ext y
      by_cases hy : y = x
      · simp [hy, hq]
      · simp [hy]
    rw [hset, Set.encard_insert_of_notMem (by simp [hx]), if_pos hq]
  · have hset : {y | update ref x (some fp) y = some q} = {y | ref y = some q} := by
      ext y
      by_cases hy : y = x
      · simp [hy, hx, Ne.symm hq]
      · simp [hy]
    rw [hset, if_neg hq, add_zero]

theorem encard_update_none (hx : ref x = some fp) (q : Nat) : {y | ref y = some q}.encard =
    {y | update ref x none y = some q}.encard + if q = fp then 1 else 0 := by
  have h := encard_update_some (update_self x none ref) fp q
  rwa [update_idem, ← hx, update_eq_self] at h

theorem Table.hold (h : k.Table ref) (hx : ref x = none) (hy : ref y = some fp) :
    (k.hold fp).Table (update ref x (some fp)) := by
  rcases h.found hy with ⟨f, hf, hpos⟩
  unfold Kernel.hold
  rw [hf]
  refine h.setFile hf (Int.lt_add_one_of_le hpos.le) fun q => ?_
  rw [encard_update_some hx, h.counted]
  split
  · next hq =>
    rw [count, hq, hf]
    show ((f.fCount.toNat : ℕ) + 1 : ℕ∞) = _
    rw [Int.toNat_add hpos.le Int.one_nonneg]
    rfl
  · exact add_zero _

theorem Table.closef (h : k.Table ref) (hx : ref x = some fp) :
    (k.closef fp).Table (update ref x none) ∧ k.unfalloc fp = k.closef fp := by
  rcases h.found hx with ⟨f, hf, hpos⟩
  have hleft : ∀ q, {y | update ref x none y = some q}.encard =
      (if q = fp then (f.fCount - 1).toNat else k.count q : Nat) := by
    intro q
    have hcount := (encard_update_none hx q).symm.trans (h.counted q)
    split at hcount
    · next hq =>
      rw [if_pos hq]
      refine ENat.add_left_injective_of_ne_top ENat.one_ne_top (hcount.trans ?_)
      have hstep : f.fCount.toNat = (f.fCount - 1).toNat + 1 := by omega
      rw [count, hq, hf, Option.map_some, getD_some, hstep]
      rfl
    · next hq => rw [if_neg hq, ← hcount, add_zero]
  unfold Kernel.closef unfalloc
  rw [hf]
  dsimp only
  rw [if_neg hpos.not_ge]
  by_cases hmore : f.fCount > 1
  · rw [if_pos hmore, if_neg (by omega)]
    exact ⟨h.setFile hf (Int.sub_pos_of_lt hmore) hleft, rfl⟩
  · rw [if_neg hmore, if_pos (by omega)]
    refine ⟨⟨fun q => (hleft q).trans ?_, fun q g hg => ?_⟩, rfl⟩
    · congr 1
      show _ = ((lookup q (k.file.filter _)).map _).getD 0
      rw [lookup_filter]
      split
      · show _ = 0
        omega
      · rfl
    · rw [lookup_filter] at hg
      split at hg
      · cases hg
      · exact h.pos q g hg

theorem Table.new (h : k.Table ref) (hx : ref x = none) (hnew : k.file.lookup fp = none)
    (hfile : k'.file = (fp, f) :: k.file) (hf : f.fCount = 1) :
    k'.Table (update ref x (some fp)) := by
  have hlookup : ∀ q, k'.file.lookup q = if q = fp then some f else k.file.lookup q := by
    intro q
    rw [hfile]
    grind
  refine ⟨fun q => ?_, fun q g hg => ?_⟩
  · rw [encard_update_some hx, h.counted, count, count, hlookup]
    split
    · next hq =>
      rw [hq, hnew, Option.map_some, hf]
      rfl
    · exact add_zero _
  · rw [hlookup] at hg
    split at hg
    · cases hg
      exact hf ▸ Int.one_pos
    · exact h.pos q g hg

/-!
## Calls
-/

/-- The descriptors of the process `p` that runs are in order. -/
structure Sound (k : Kernel) (p : ι) (ref : ι × Nat → Option Nat) : Prop where
  ok : k.u.Ok
  own : ∀ fd, ref (p, fd) = k.u.entry fd
  table : k.Table ref

/-- All is in order after a call, with the descriptors of the others as they were. -/
def Leaves (p : ι) (ref : ι × Nat → Option Nat) (k : Kernel) : Prop :=
  ∃ ref', k.Sound p ref' ∧ ∀ x : ι × Nat, x.1 ≠ p → ref' x = ref x

variable {p : ι} {o : Option Nat}

omit [DecidableEq ι] in
theorem Sound.leaves (h : k.Sound p ref) : k.Leaves p ref := ⟨ref, h, fun _ _ => rfl⟩

theorem Sound.leaves_update (h : k.Sound p (update ref (p, fd) o)) : k.Leaves p ref :=
  ⟨_, h, fun _ hx => update_of_ne (fun heq => hx (congrArg Prod.fst heq)) ..⟩

omit [DecidableEq ι] in
theorem Table.congr (h : k.Table ref) (hfile : k'.file = k.file) : k'.Table ref :=
  ⟨fun fp => (h.counted fp).trans (by rw [count, count, hfile]), hfile ▸ h.pos⟩

omit [DecidableEq ι] in
theorem Sound.lt (h : k.Sound p ref) (hfd : k.u.entry fd = some fp) : fd < k.u.uNofiles := by
  by_contra hge
  rw [h.ok.entry_of_le (Nat.le_of_not_lt hge)] at hfd
  cases hfd

theorem own_update {e : Nat → Option Nat} (h : ∀ fd, ref (p, fd) = e fd) (fd : Nat) (o : Option Nat)
    (i : Nat) : update ref (p, fd) o (p, i) = update e fd o i := by
  by_cases hi : i = fd
  · rw [hi, update_self, update_self]
  · rw [update_of_ne hi, update_of_ne fun heq => hi (congrArg Prod.snd heq), h]

theorem Sound.setf (h : k.Sound p ref) (hfd : fd < k.u.uNofiles) (o : Option Nat) :
    ∃ u, k.u.setf fd o = some u ∧ u.uNofiles = k.u.uNofiles ∧ ∀ k' : Kernel, k'.u = u →
      k'.Table (update ref (p, fd) o) → k'.Sound p (update ref (p, fd) o) := by
  rcases User.setf_spec h.ok hfd o with ⟨u, hu, hok, hnofiles, hentry⟩
  refine ⟨u, hu, hnofiles, fun k' heq htable => ⟨heq ▸ hok, fun i => ?_, htable⟩⟩
  rw [heq, hentry, own_update h.own]

theorem unfalloc_u (k : Kernel) (fp : Nat) : (k.unfalloc fp).u = k.u := by
  unfold unfalloc
  split
  · rfl
  · split <;> rfl

theorem hold_u (k : Kernel) (fp : Nat) : (k.hold fp).u = k.u := by
  unfold Kernel.hold
  split <;> rfl

theorem close_sound (h : k.Sound p ref) (fd : Nat) (closed : Option Errno) :
    ∃ k' e, k.close fd closed = some (k', e) ∧ k'.Leaves p ref := by
  simp only [close, User.getf_eq h.ok, bind_eq_bind, bind_some]
  cases hfd : k.u.entry fd with
  | none => exact ⟨_, _, rfl, h.leaves⟩
  | some fp =>
    rcases h.setf (h.lt hfd) none with ⟨u, hu, _, hsound⟩
    refine ⟨{ k.closef fp with u := u }, closed, ?_, Sound.leaves_update (hsound _ rfl ?_)⟩
    · simp only [hu, bind_some]
      rfl
    · exact (h.table.closef ((h.own fd).trans hfd)).1.congr rfl

theorem dup_sound (h : k.Sound p ref) (mem : Nat → Bool) (fdes : Nat) :
    ∃ k' r, k.dup mem fdes = some (k', r) ∧ k'.Leaves p ref := by
  simp only [dup, User.getf_eq h.ok, bind_eq_bind, bind_some]
  cases hfd : k.u.entry fdes with
  | none => exact ⟨_, _, rfl, h.leaves⟩
  | some fp =>
    rcases User.ufalloc_spec h.ok mem 0 with ⟨v, r, hrun, hkept, hanswer⟩
    have hv : { k with u := v }.Sound p ref :=
      ⟨hkept.ok, fun fd => (h.own fd).trans (hkept.entry fd).symm, h.table.congr rfl⟩
    simp only [hrun, bind_some]
    cases r with
    | error e => exact ⟨_, _, rfl, hv.leaves⟩
    | ok fd =>
      have hold := h.table.hold ((h.own fd).trans hanswer.1.2.2) ((h.own fdes).trans hfd)
      rcases hv.setf hanswer.2.1 (some fp) with ⟨u, hu, _, hsound⟩
      refine ⟨{ k.hold fp with u := u }, .ok fd, ?_,
        Sound.leaves_update (hsound _ rfl (hold.congr rfl))⟩
      simp only [hu, bind_some]
      rfl

theorem copen_sound (h : k.Sound p ref) {new : Option Nat}
    (hnew : ∀ fp ∈ new, k.file.lookup fp = none) (mem : Nat → Bool) (filemode : Nat) :
    ∃ k' r, k.copen mem new filemode = some (k', r) ∧
      k'.Leaves p ref ∧ ∀ x ∈ r.toOption, k'.u.entry x.2 = some x.1 := by
  unfold copen
  split
  · exact ⟨_, _, rfl, h.leaves, nofun⟩
  · rcases falloc_spec h.ok mem new none (openMode filemode &&& FMASK) with
      ⟨k', r, hrun, hok, hresult⟩
    refine ⟨k', r, hrun, ?_⟩
    cases r with
    | error e =>
      exact ⟨Sound.leaves ⟨hok, fun i => (h.own i).trans (hresult.entry i).symm,
        h.table.congr hresult.file⟩, nofun⟩
    | ok pair =>
      rcases pair with ⟨fp, fd⟩
      rcases hresult with ⟨hfp, -, hnone, hentry, hfile, -⟩
      refine ⟨Sound.leaves_update ⟨hok, fun i => (own_update h.own fd _ i).trans (hentry i).symm,
        h.table.new ((h.own fd).trans hnone) (hnew fp hfp) hfile rfl⟩, fun x hx => ?_⟩
      cases hx
      rw [hentry, update_self]

theorem opened_sound (h : k.Sound p ref) (hfd : k.u.entry fd = some fp) (r : Opened) :
    ∃ k' e, k.opened fp fd r = some (k', e) ∧ k'.Leaves p ref := by
  have hlt := h.lt hfd
  rcases h.setf hlt none with ⟨u, hu, hnofiles, hsound⟩
  have hsame : { k with u := u }.Table ref := h.table.congr rfl
  have hclose := hsame.closef ((h.own fd).trans hfd)
  have hback : ({ k with u := u }.unfalloc fp).Sound p (update ref (p, fd) none) :=
    hsound _ (unfalloc_u { k with u := u } fp) (hclose.2 ▸ hclose.1)
  unfold opened
  cases r with
  | vnode vp =>
    refine ⟨_, _, rfl, Sound.leaves ⟨h.ok, h.own, fun q => ?_, fun q g hg => ?_⟩⟩
    · rw [h.table.counted q, count, count, lookup_map fun f => { f with fVnode := some vp }]
      split
      · rw [Option.map_map]
        rfl
      · rfl
    · rw [lookup_map fun f => { f with fVnode := some vp }] at hg
      split at hg
      · next hq =>
        rcases Option.map_eq_some_iff.mp hg with ⟨f, hf, rfl⟩
        exact h.table.pos q f hf
      · exact h.table.pos q g hg
  | error e =>
    simp only [hu, bind_eq_bind, bind_some]
    exact ⟨_, _, rfl, hback.leaves_update⟩
  | vdup vchr dupfd =>
    simp only [hu, bind_eq_bind, bind_some]
    have hin : fd < ({ k with u := u }.unfalloc fp).u.uNofiles := by
      rw [unfalloc_u]
      exact hnofiles ▸ hlt
    generalize { k with u := u }.unfalloc fp = k₀ at hback hin
    cases vchr with
    | false => exact ⟨_, _, rfl, hback.leaves_update⟩
    | true =>
      simp only [User.getf_eq hback.ok, bind_some, Bool.not_true, Bool.false_eq_true, if_false]
      cases hdup : k₀.u.entry dupfd with
      | none => exact ⟨_, _, rfl, hback.leaves_update⟩
      | some fp =>
        rcases hback.setf hin (some fp) with ⟨v, hv, _, hsound⟩
        have hold := hback.table.hold (update_self ..) ((hback.own dupfd).trans hdup)
        rw [update_idem] at hold hsound
        refine ⟨{ k₀.hold fp with u := v }, .ok fd, ?_,
          Sound.leaves_update (hsound _ rfl (hold.congr rfl))⟩
        simp only [hv, bind_some]
        rfl

/-!
## Loops over the descriptors
-/

theorem forFiles_rule {body : Kernel → Nat → Nat → Option Kernel} {I : Nat → Kernel → Prop}
    {N : Nat}
    (hok : ∀ i k, I i k → k.u.Ok)
    (hskip : ∀ i k, I i k → i < N → k.u.entry i = none → I (i + 1) k)
    (hbody : ∀ i k fp, I i k → i < N → k.u.entry i = some fp →
      ∃ k', body k i fp = some k' ∧ I (i + 1) k')
    (n : Nat) {i : Nat} (hk : I i k) (hi : i + n = N) :
    ∃ k', forFiles body n i k = some k' ∧ I N k' := by
  induction n generalizing i k with
  | zero => exact ⟨k, rfl, hi ▸ hk⟩
  | succ n ih =>
    have hlt : i < N := by omega
    simp only [forFiles, User.getf_eq (hok i k hk), bind_eq_bind, bind_some]
    cases hfd : k.u.entry i with
    | none => exact ih (hskip i k hk hlt hfd) (by omega)
    | some fp =>
      rcases hbody i k fp hk hlt hfd with ⟨k', hrun, hk'⟩
      simp only [hrun, bind_some]
      exact ih hk' (by omega)

/-- The descriptors of one owner up to `i` are those of `g`. -/
def upTo (q : ι) (g : Nat → Option Nat) (ref : ι × Nat → Option Nat) (i : Nat) (x : ι × Nat) :
    Option Nat :=
  if x.1 = q ∧ x.2 < i then g x.2 else ref x

variable {q : ι} {g : Nat → Option Nat} {i : Nat}

theorem upTo_zero : upTo q g ref 0 = ref := funext fun _ => if_neg fun h => Nat.not_lt_zero _ h.2

theorem upTo_here : upTo q g ref i (q, i) = ref (q, i) := if_neg fun h => Nat.lt_irrefl i h.2

theorem upTo_succ : upTo q g ref (i + 1) = update (upTo q g ref i) (q, i) (g i) := by
  funext ⟨a, j⟩
  by_cases hx : (a, j) = (q, i)
  · rcases Prod.mk.inj hx with ⟨ha, hj⟩
    rw [hx, update_self]
    exact if_pos ⟨rfl, Nat.lt_succ_self i⟩
  · rw [update_of_ne hx]
    have hne : a = q → j ≠ i := fun ha hj => hx (by rw [ha, hj])
    unfold upTo
    grind

theorem upTo_skip (h : g i = ref (q, i)) : upTo q g ref (i + 1) = upTo q g ref i := by
  rw [upTo_succ, h.trans upTo_here.symm, update_eq_self]

theorem upTo_all {N : Nat} (h : ∀ fd ≥ N, g fd = ref (q, fd)) (x : ι × Nat) :
    upTo q g ref N x = if x.1 = q then g x.2 else ref x := by
  rcases x with ⟨a, j⟩
  have hj := h j
  unfold upTo
  grind

theorem holdall_sound (h : k.Sound p ref) (hfree : ∀ fd, ref (q, fd) = none) (hq : q ≠ p) :
    ∃ k', k.holdall = some k' ∧ k'.u = k.u ∧ k'.Table (upTo q k.u.entry ref k.u.uNofiles) := by
  refine forFiles_rule (I := fun i k' => k'.u = k.u ∧ k'.Table (upTo q k.u.entry ref i))
    (fun i k' hk => hk.1 ▸ h.ok) (fun i k' hk _ hnone => ⟨hk.1, ?_⟩)
    (fun i k' fp hk _ hfp => ⟨_, rfl, (hold_u k' fp).trans hk.1, ?_⟩) _ ⟨rfl, ?_⟩ (Nat.zero_add _)
  · have hsame : k.u.entry i = ref (q, i) := by rw [← hk.1, hnone, hfree]
    rw [upTo_skip hsame]
    exact hk.2
  · rw [hk.1] at hfp
    rw [upTo_succ, hfp]
    refine hk.2.hold (upTo_here.trans (hfree i)) (x := (q, i)) (y := (p, i)) ?_
    rw [upTo, if_neg fun hp => hq hp.1.symm, h.own, hfp]
  · rw [upTo_zero]
    exact h.table

/-- The loop of `closeall` has come to the descriptor `i`. -/
structure Closing (flag : Bool) (q : ι) (k : Kernel) (ref : ι × Nat → Option Nat) (i : Nat)
    (k' : Kernel) : Prop where
  user : flag = false → k'.u = k.u
  ok : k'.u.Ok
  nofiles : k'.u.uNofiles = k.u.uNofiles
  entry : ∀ fd ≥ i, k'.u.entry fd = k.u.entry fd
  table : k'.Table (upTo q (fun _ => none) ref i)

theorem closeall_closing (flag : Bool) (hu : k.u.Ok) (h : k.Table ref)
    (hown : ∀ fd, ref (q, fd) = k.u.entry fd) :
    ∃ k', k.closeall flag = some k' ∧ Closing flag q k ref k.u.uNofiles k' := by
  refine forFiles_rule (I := Closing flag q k ref) (fun i k' hk => hk.ok)
    (fun i k' hk _ hnone => ?_) (fun i k' fp hk hlt hfp => ?_) _
    ⟨fun _ => rfl, hu, rfl, fun _ _ => rfl, ?_⟩ (Nat.zero_add _)
  · have hsame : none = ref (q, i) := by rw [hown, ← hk.entry i (Nat.le_refl i), hnone]
    refine ⟨hk.user, hk.ok, hk.nofiles, fun fd hfd => hk.entry fd (Nat.le_of_succ_le hfd), ?_⟩
    rw [upTo_skip hsame]
    exact hk.table
  · have hhere := (hown i).trans ((hk.entry i (Nat.le_refl i)).symm.trans hfp)
    have hclose := (hk.table.closef (upTo_here.trans hhere)).1
    rw [← upTo_succ (g := fun _ => none)] at hclose
    have hrest := fun fd hfd => hk.entry fd (Nat.le_of_succ_le hfd)
    cases flag with
    | false => exact ⟨_, rfl, hk.user, hk.ok, hk.nofiles, hrest, hclose.congr rfl⟩
    | true =>
      rcases User.setf_spec hk.ok (hk.nofiles ▸ hlt) none with ⟨u, hset, hok, hnofiles, hkept⟩
      refine ⟨{ k'.closef fp with u := u }, by simp only [if_true, hset]; rfl, nofun, hok,
        hnofiles.trans hk.nofiles, fun fd hfd => ?_, hclose.congr rfl⟩
      exact (hkept fd).trans ((update_of_ne (Nat.ne_of_gt hfd) ..).trans (hrest fd hfd))
  · rw [upTo_zero]
    exact h

inductive Call where
  | copen (mem : Nat → Bool) (new : Option Nat) (filemode : Nat)
  | close (fd : Nat) (closed : Option Errno)
  | dup (mem : Nat → Bool) (fdes : Nat)

/-- The state after a call, and the file and the descriptor that `copen` goes on with. -/
def call (k : Kernel) : Call → Option (Kernel × Option (Nat × Nat))
  | .copen mem new filemode => (k.copen mem new filemode).map fun r => (r.1, r.2.toOption)
  | .close fd closed => (k.close fd closed).map fun r => (r.1, none)
  | .dup mem fdes => (k.dup mem fdes).map fun r => (r.1, none)

/-- `kmem_zalloc` returns memory that is no file. -/
def Fresh (k : Kernel) : Call → Prop
  | .copen _ new _ => ∀ fp ∈ new, k.file.lookup fp = none
  | _ => True

theorem call_sound (h : k.Sound p ref) (c : Call) (hfresh : k.Fresh c) :
    ∃ k' o, k.call c = some (k', o) ∧ k'.Leaves p ref ∧ ∀ x ∈ o, k'.u.entry x.2 = some x.1 := by
  unfold call
  cases c with
  | copen mem new filemode =>
    rcases copen_sound h hfresh mem filemode with ⟨k', r, hrun, hrest⟩
    exact ⟨k', _, congrArg (Option.map _) hrun, hrest⟩
  | close fd closed =>
    rcases close_sound h fd closed with ⟨k', r, hrun, hleaves⟩
    exact ⟨k', _, congrArg (Option.map _) hrun, hleaves, nofun⟩
  | dup mem fdes =>
    rcases dup_sound h mem fdes with ⟨k', r, hrun, hleaves⟩
    exact ⟨k', _, congrArg (Option.map _) hrun, hleaves, nofun⟩

end Kernel

/-!
## The processes
-/

/--
The descriptors of each process, and those of the child that `procdup` makes for it; the file and
the descriptor that a process in `vn_open` goes on with, and the files of all.
-/
structure System (ι : Type) where
  user : Bool × ι → Option User
  opening : ι → Option (Nat × Nat)
  kern : Kernel

inductive Event (ι : Type) where
  | call (p : ι) (c : Kernel.Call)
  | opened (p : ι) (r : Opened)
  | fork (p : ι)
  /-- `procdup` has made the process `c`, or has failed. -/
  | forked (p : ι) (c : Option ι)
  | exit (p : ι)

namespace System

variable {ι : Type} [DecidableEq ι]

def run (s : System ι) (u : User) : Kernel := { s.kern with u := u }

def back (s : System ι) (p : ι) (k : Kernel) (o : Option (Nat × Nat)) : System ι :=
  ⟨update s.user (false, p) (some k.u), update s.opening p o, k⟩

def exec (s : System ι) : Event ι → Option (System ι)
  | .call p c => do
    let (k, o) ← (s.run (← s.user (false, p))).call c
    return s.back p k o
  | .opened p r => do
    let (fp, fd) ← s.opening p
    let (k, _) ← (s.run (← s.user (false, p))).opened fp fd r
    return s.back p k none
  | .fork p => do
    let u ← s.user (false, p)
    return ⟨update s.user (true, p) (some u), s.opening, ← (s.run u).holdall⟩
  | .forked p (some c) =>
    some { s with user := update (update s.user (false, c) (s.user (true, p))) (true, p) none }
  | .forked p none => do
    return ⟨update s.user (true, p) none, s.opening,
      ← (s.run (← s.user (false, p))).closeall false⟩
  | .exit p => do
    return ⟨update s.user (false, p) none, s.opening,
      ← (s.run (← s.user (false, p))).closeall true⟩

/-- A process that does not sleep. -/
structure Runs (s : System ι) (p : ι) (u : User) : Prop where
  user : s.user (false, p) = some u
  child : s.user (true, p) = none
  opening : s.opening p = none

/-- The events that the state of the processes allows. -/
def Admits (s : System ι) : Event ι → Prop
  | .call p c => ∃ u, s.Runs p u ∧ (s.run u).Fresh c
  | .opened p _ => s.opening p ≠ none
  | .fork p | .exit p => ∃ u, s.Runs p u
  | .forked p c => s.user (true, p) ≠ none ∧ ∀ q ∈ c, s.user (false, q) = none

def Step (s : System ι) (e : Event ι) (t : System ι) : Prop := s.Admits e ∧ s.exec e = some t

def Start (s : System ι) : Prop :=
  s.kern.file = [] ∧ (∀ p, s.opening p = none ∧ s.user (true, p) = none) ∧
    ∀ x u, s.user x = some u → u.Ok ∧ ∀ fd, u.entry fd = none

/-- The file that a descriptor of a process, or of the child it is about to have, names. -/
def ref (s : System ι) (x : (Bool × ι) × Nat) : Option Nat := (s.user x.1).bind fun u => u.entry x.2

structure Ok (s : System ι) : Prop where
  user : ∀ x u, s.user x = some u → u.Ok
  child : ∀ p v, s.user (true, p) = some v → s.user (false, p) = some v
  opening : ∀ p x, s.opening p = some x →
    s.user (true, p) = none ∧ s.ref ((false, p), x.2) = some x.1
  table : s.kern.Table s.ref

variable {s t : System ι} {p : ι} {u : User} {k : Kernel} {o : Option (Nat × Nat)}
  {x : (Bool × ι) × Nat} {y : Bool × ι} {v : Option User}

theorem ref_update (h : t.user = update s.user y v) :
    t.ref x = if x.1 = y then v.bind fun u => u.entry x.2 else s.ref x := by
  rw [ref, h, update_apply]
  split <;> rfl

theorem Ok.user_update (h : s.Ok) (ht : t.user = update s.user y v) (hv : ∀ u ∈ v, u.Ok) :
    ∀ x u, t.user x = some u → u.Ok := by
  intro x u hx
  rw [ht, update_apply] at hx
  split at hx
  · exact hv u hx
  · exact h.user x u hx

omit [DecidableEq ι] in
theorem Ok.sound (h : s.Ok) (hp : s.user (false, p) = some u) : (s.run u).Sound (false, p) s.ref :=
  ⟨h.user _ u hp, fun fd => congrArg (·.bind fun u => u.entry fd) hp, h.table.congr rfl⟩

theorem Ok.back (h : s.Ok) (hchild : s.user (true, p) = none) (hk : k.Leaves (false, p) s.ref)
    (ho : ∀ x ∈ o, k.u.entry x.2 = some x.1) : (s.back p k o).Ok := by
  rcases hk with ⟨ref', hk, hother⟩
  have href : (s.back p k o).ref = ref' := by
    funext x
    rw [ref_update rfl]
    split
    · next hx => exact (hx ▸ (hk.own x.2)).symm
    · next hx => exact (hother x hx).symm
  have hcopy : ∀ q, (s.back p k o).user (true, q) = s.user (true, q) :=
    fun q => by simp [System.back]
  refine ⟨h.user_update rfl fun u hu => mem_some.mp hu ▸ hk.ok, fun q v hq => ?_, fun q x hq => ?_,
    href ▸ hk.table⟩
  · rw [hcopy] at hq
    have hne : q ≠ p := by
      rintro rfl
      rw [hchild] at hq
      cases hq
    exact (update_of_ne (fun heq => hne (congrArg Prod.snd heq)) ..).trans (h.child q v hq)
  · rw [hcopy, href]
    replace hq : update s.opening p o q = some x := hq
    rw [update_apply] at hq
    split at hq
    · next heq =>
      subst heq
      exact ⟨hchild, (hk.own x.2).trans (ho x hq)⟩
    · next hne =>
      rw [hother _ fun heq => hne (congrArg Prod.snd heq)]
      exact h.opening q x hq

/-- The descriptors of a process that is not in `vn_open` are given up, or copied for a child. -/
theorem Ok.replace (h : s.Ok) {b : Bool} (hopening : s.opening p = none)
    (hv : ∀ u ∈ v, b = true ∧ s.user (false, p) = some u)
    (hchild : b = false → s.user (true, p) = none)
    (htable : k.Table (System.mk (update s.user (b, p) v) s.opening k).ref) :
    Ok ⟨update s.user (b, p) v, s.opening, k⟩ := by
  have hother : ∀ c q, q ≠ p → update s.user (b, p) v (c, q) = s.user (c, q) :=
    fun c q hq => update_of_ne (fun heq => hq (congrArg Prod.snd heq)) ..
  refine ⟨h.user_update (v := v) (y := (b, p)) rfl fun u hu => h.user _ u (hv u hu).2,
    fun q w hq => ?_, fun q x hq => ?_, htable⟩
  · replace hq : update s.user (b, p) v (true, q) = some w := hq
    show update s.user (b, p) v (false, q) = some w
    by_cases heq : q = p
    · subst heq
      cases b with
      | false => simp [hchild rfl] at hq
      | true =>
        rw [update_self] at hq
        rw [update_of_ne (by simp)]
        exact (hv w hq).2
    · rw [hother _ _ heq] at hq ⊢
      exact h.child q w hq
  · have hne : q ≠ p := fun heq => by
      rw [heq, hopening] at hq
      cases hq
    rw [ref_update (y := (b, p)) (v := v) rfl, if_neg fun heq => hne (congrArg Prod.snd heq)]
    exact ⟨(hother _ _ hne).trans (h.opening q x hq).1, (h.opening q x hq).2⟩

theorem Ok.fork (h : s.Ok) (hp : s.Runs p u) : ∃ k, (s.run u).holdall = some k ∧
    Ok ⟨update s.user (true, p) (some u), s.opening, k⟩ := by
  have hsound := h.sound hp.user
  have hfree : ∀ fd, s.ref ((true, p), fd) = none :=
    fun fd => congrArg (·.bind fun u => u.entry fd) hp.child
  rcases Kernel.holdall_sound hsound hfree nofun with ⟨k, hrun, -, htable⟩
  refine ⟨k, hrun, h.replace hp.opening (fun v hv => ⟨rfl, mem_some.mp hv ▸ hp.user⟩) nofun ?_⟩
  convert htable using 1
  funext x
  exact (ref_update rfl).trans (Kernel.upTo_all
    (fun fd hfd => (hsound.ok.entry_of_le hfd).trans (hfree fd).symm) x).symm

theorem Ok.forked (h : s.Ok) {c : ι} (hp : s.user (true, p) ≠ none)
    (hc : s.user (false, c) = none) :
    Ok { s with user := update (update s.user (false, c) (s.user (true, p))) (true, p) none } := by
  have huser : update (update s.user (false, c) (s.user (true, p))) (true, p) none =
      s.user ∘ Equiv.swap (true, p) (false, c) := by rw [Equiv.comp_swap_eq_update, hc]
  have hcopy : ∀ q, q ≠ p → s.user (Equiv.swap (true, p) (false, c) (true, q)) = s.user (true, q) :=
    fun q hq => by rw [Equiv.swap_apply_of_ne_of_ne (by simp [hq]) (by simp)]
  have hown : ∀ q, s.user (false, q) ≠ none →
      Equiv.swap (true, p) (false, c) (false, q) = (false, q) := fun q hq =>
    Equiv.swap_apply_of_ne_of_ne (by simp) fun heq => hq (heq ▸ hc)
  rw [huser]
  refine ⟨fun x u hx => h.user _ u hx, fun q v hq => ?_, fun q x hq => ?_,
    h.table.relabel ((Equiv.swap (true, p) (false, c)).prodCongr (.refl _))⟩
  · replace hq : s.user (Equiv.swap (true, p) (false, c) (true, q)) = some v := hq
    have hne : q ≠ p := by
      rintro rfl
      rw [Equiv.swap_apply_left, hc] at hq
      cases hq
    rw [hcopy q hne] at hq
    have hself := h.child q v hq
    exact (congrArg s.user (hown q (by rw [hself]; nofun))).trans hself
  · rcases h.opening q x hq with ⟨hnone, href⟩
    have hself : s.user (false, q) ≠ none := fun hnone => by
      rw [ref, hnone] at href
      cases href
    have hne : q ≠ p := fun heq => hp (heq ▸ hnone)
    refine ⟨(hcopy q hne).trans hnone, Eq.trans ?_ href⟩
    exact congrArg (fun y => (s.user y).bind fun u => u.entry x.2) (hown q hself)

/-- `closeall` for a process, or for the child that it was to have. -/
theorem Ok.closeall (h : s.Ok) {b : Bool} (hp : s.user (b, p) = some u)
    (hopening : s.opening p = none)
    (hchild : b = false → s.user (true, p) = none) (flag : Bool) :
    ∃ k, (s.run u).closeall flag = some k ∧ Ok ⟨update s.user (b, p) none, s.opening, k⟩ := by
  have hown : ∀ fd, s.ref ((b, p), fd) = (s.run u).u.entry fd :=
    fun fd => congrArg (·.bind fun u => u.entry fd) hp
  have hok : (s.run u).u.Ok := h.user _ u hp
  rcases Kernel.closeall_closing flag hok (h.table.congr rfl) hown with ⟨k, hrun, hk⟩
  refine ⟨k, hrun, h.replace hopening nofun hchild ?_⟩
  convert hk.table using 1
  funext x
  exact (ref_update rfl).trans (Kernel.upTo_all
    (fun fd hfd => ((hown fd).trans (hok.entry_of_le hfd)).symm) x).symm

omit [DecidableEq ι] in
/-- `procdup` has no file open. -/
theorem Ok.opening_none (h : s.Ok) (hp : s.user (true, p) ≠ none) : s.opening p = none := by
  by_contra hsome
  rcases Option.ne_none_iff_exists'.mp hsome with ⟨x, hx⟩
  exact hp (h.opening p x hx).1

theorem Ok.exec (h : s.Ok) {e : Event ι} (he : s.Admits e) : ∃ t, s.exec e = some t ∧ t.Ok := by
  cases e with
  | call p c =>
    rcases he with ⟨u, hp, hfresh⟩
    rcases Kernel.call_sound (h.sound hp.user) c hfresh with ⟨k, o, hrun, hk, ho⟩
    refine ⟨_, ?_, h.back hp.child hk ho⟩
    simp only [System.exec, hp.user, hrun, bind_eq_bind, bind_some]
    rfl
  | opened p r =>
    rcases Option.ne_none_iff_exists'.mp he with ⟨x, hx⟩
    rcases h.opening p _ hx with ⟨hchild, href⟩
    rcases Option.bind_eq_some_iff.mp href with ⟨u, hp, hfd⟩
    rcases Kernel.opened_sound (h.sound hp) hfd r with ⟨k, e, hrun, hk⟩
    refine ⟨_, ?_, h.back (o := none) hchild hk nofun⟩
    simp only [System.exec, hp, hx, hrun, bind_eq_bind, bind_some]
    rfl
  | fork p =>
    rcases he with ⟨u, hp⟩
    rcases h.fork hp with ⟨k, hrun, hok⟩
    refine ⟨_, ?_, hok⟩
    simp only [System.exec, hp.user, hrun, bind_eq_bind, bind_some]
    rfl
  | forked p c =>
    cases c with
    | some c => exact ⟨_, rfl, h.forked he.1 (he.2 c rfl)⟩
    | none =>
      rcases Option.ne_none_iff_exists'.mp he.1 with ⟨u, hu⟩
      rcases h.closeall hu (h.opening_none he.1) nofun false with ⟨k, hrun, hok⟩
      refine ⟨_, ?_, hok⟩
      simp only [System.exec, h.child p u hu, hrun, bind_eq_bind, bind_some]
      rfl
  | exit p =>
    rcases he with ⟨u, hp⟩
    rcases h.closeall hp.user hp.opening (fun _ => hp.child) true with ⟨k, hrun, hok⟩
    refine ⟨_, ?_, hok⟩
    simp only [System.exec, hp.user, hrun, bind_eq_bind, bind_some]
    rfl

omit [DecidableEq ι] in
theorem Ok.start (h : Start s) : s.Ok := by
  have href : ∀ x, s.ref x = none := fun x => by
    unfold ref
    cases hp : s.user x.1 with
    | none => rfl
    | some u => exact (h.2.2 x.1 u hp).2 x.2
  refine ⟨fun x u hx => (h.2.2 x u hx).1, fun p v hp => ?_, fun p x hp => ?_, fun fp => ?_,
    fun fp f hf => ?_⟩
  · rw [(h.2.1 p).2] at hp
    cases hp
  · rw [(h.2.1 p).1] at hp
    cases hp
  · have hnone : {x | s.ref x = some fp} = ∅ := by
      ext x
      simp [href x]
    rw [hnone, Set.encard_empty, Kernel.count, h.1]
    rfl
  · rw [h.1] at hf
    cases hf

end System
end Files
end Svr4
