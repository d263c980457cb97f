import Mathlib.Tactic.Linarith

/-!
# File descriptors

`ufalloc`, `setf`, `falloc`, `unfalloc` and `fassign` of
`os/fio.c`. The descriptor table is the list of its chunks from `u_flist` on; no
result stands for a chunk that is not there. The callers check that `start` is not negative.
-/

namespace Svr4
namespace Files

open Function Option

def NFPCHUNK : Nat := 24

def FMASK : Nat := 0xFF

structure Ufchunk where
  ufOfile : Nat → Option Nat
  ufPofile : Nat → Nat

/-- A chunk that `kmem_zalloc` returns. -/
def Ufchunk.zero : Ufchunk := ⟨fun _ => none, fun _ => 0⟩

inductive Errno where
  | EMFILE | ENOMEM | ENFILE
  | other (error : Nat)
deriving DecidableEq

structure User where
  uFlist : List Ufchunk
  uNofiles : Nat
  uRval1 : Nat
  /-- `u_rlimit[RLIMIT_NOFILE].rlim_cur` -/
  rlimCur : Nat

namespace User

def setChunk (u : User) (ufp : Nat) (c : Ufchunk) : User := { u with uFlist := u.uFlist.set ufp c }

def chunk (u : User) (ufp : Nat) : Option Ufchunk := u.uFlist[ufp]?

/-- The search of `ufalloc` for an unused entry; `fuel` descriptors are left. -/
def search (u : User) : Nat → Nat → Nat → Nat → Option (Except Errno (Option Nat))
  | 0, _, _, _ => some (.ok none)
  | fuel + 1, i, count, ufp =>
    if i ≥ u.rlimCur then some (.error .EMFILE)
    else
      let j := i / NFPCHUNK
      let (count, ufp) := if j > count then (j, ufp + 1) else (count, ufp)
      (u.chunk ufp).bind fun c =>
        if c.ufOfile (i % NFPCHUNK) = none then some (.ok (some i))
        else search u fuel (i + 1) count ufp

def push (u : User) : User :=
  { u with uFlist := u.uFlist ++ [Ufchunk.zero], uNofiles := u.uNofiles + NFPCHUNK }

/-- Chunks are added, and whether all could be; `mem` tells what `kmem_zalloc` does. -/
def grow (mem : Nat → Bool) : Nat → Nat → User → User × Bool
  | 0, _, u => (u, true)
  | n + 1, k, u => if mem k then grow mem n (k + 1) u.push else (u, false)

/-- The end of `ufalloc`, where the table has to grow. -/
def extend (u : User) (mem : Nat → Bool) (start : Nat) : User × Except Errno Nat :=
  if u.uNofiles ≥ u.rlimCur then (u, .error .EMFILE)
  else if start = 0 then
    if mem 0 then ({ u.push with uRval1 := u.uNofiles }, .ok u.uNofiles) else (u, .error .ENOMEM)
  else
    let j := start / NFPCHUNK + 1 - u.uNofiles / NFPCHUNK
    match u.grow mem (max j 1) 0 with
    | (v, false) => (v, .error .ENOMEM)
    | (v, true) =>
      let fd := if start < u.uNofiles then u.uNofiles else start
      ({ v with uRval1 := fd }, .ok fd)

def ufalloc (u : User) (mem : Nat → Bool) (start : Nat) : Option (User × Except Errno Nat) := do
  if start < u.uNofiles then
    let count := start / NFPCHUNK
    match ← u.search (u.uNofiles - start) start count count with
    | .error e => return (u, .error e)
    | .ok (some i) =>
      let c ← u.chunk (i / NFPCHUNK)
      return ({ u.setChunk (i / NFPCHUNK)
        { c with ufPofile := update c.ufPofile (i % NFPCHUNK) 0 } with uRval1 := i }, .ok i)
    | .ok none => return u.extend mem start
  else if start ≥ u.rlimCur then return (u, .error .EMFILE)
  else return u.extend mem start

def setf (u : User) (fd : Nat) (fp : Option Nat) : Option User := do
  let c ← u.chunk (fd / NFPCHUNK)
  return u.setChunk (fd / NFPCHUNK) { c with ufOfile := update c.ufOfile (fd % NFPCHUNK) fp }

/-- `getf`, without a file for `EBADF`. -/
def getf (u : User) (fd : Nat) : Option (Option Nat) :=
  if fd < NFPCHUNK then (u.chunk 0).map fun c => c.ufOfile fd
  else if fd ≥ u.uNofiles then some none
  else (u.chunk (fd / NFPCHUNK)).map fun c => c.ufOfile (fd % NFPCHUNK)

end User

/-!
## The file table
-/

structure File where
  fCount : Int
  fFlag : Nat
  fVnode : Option Nat
  fOffset : Nat

/-- The process, the files in the order of the file table and the references to its credentials. -/
structure Kernel where
  u : User
  file : List (Nat × File)
  filecnt : Nat
  crRef : Nat
  fileovf : Nat

namespace Kernel

/-- `falloc`; `new` is what `kmem_zalloc` returns for the file structure. -/
def falloc (k : Kernel) (mem : Nat → Bool) (new : Option Nat) (vp : Option Nat) (flag : Nat) :
    Option (Kernel × Except Errno (Nat × Nat)) := do
  match ← k.u.ufalloc mem 0 with
  | (u, .error e) => return ({ k with u := u }, .error e)
  | (u, .ok fd) =>
    match new with
    | none => return ({ k with u := u, fileovf := k.fileovf + 1 }, .error .ENFILE)
    | some fp => return ({ k with
        u := ← u.setf fd fp
        file := (fp, ⟨1, flag, vp, 0⟩) :: k.file
        filecnt := k.filecnt + 1
        crRef := k.crRef + 1 }, .ok (fp, fd))

/-- `unfalloc` for the file at `fp`. -/
def unfalloc (k : Kernel) (fp : Nat) : Kernel :=
  match k.file.lookup fp with
  | none => k
  | some f =>
    if f.fCount - 1 ≤ 0 then
      { k with
        file := k.file.filter fun x => x.1 ≠ fp
        crRef := k.crRef - 1
        filecnt := k.filecnt - 1 }
    else
      { k with file := k.file.map fun x => if x.1 = fp then (fp, { f with fCount := f.fCount - 1 }) else x }

/-- `fassign`; `open` is what `VOP_OPEN` returns, an error or the vnode. -/
def fassign (k : Kernel) (mem : Nat → Bool) (new : Option Nat) (opened : Except Nat Nat) (mode : Nat) :
    Option (Kernel × Except Errno Nat) := do
  match ← k.falloc mem new none (mode &&& FMASK) with
  | (k, .error e) => return (k, .error e)
  | (k, .ok (fp, fd)) =>
    match opened with
    | .error e =>
      let u ← k.u.setf fd none
      return ({ k with u := u }.unfalloc fp, .error (.other e))
    | .ok vp =>
      return ({ k with file := k.file.map fun x =>
        if x.1 = fp then (fp, { x.2 with fVnode := some vp }) else x }, .ok fd)

end Kernel

/-!
## Allocation
-/

namespace User

structure Ok (u : User) : Prop where
  nofiles : u.uNofiles = NFPCHUNK * u.uFlist.length
  some_chunk : 0 < u.uFlist.length

def entry (u : User) (fd : Nat) : Option Nat :=
  (u.chunk (fd / NFPCHUNK)).bind fun c => c.ufOfile (fd % NFPCHUNK)

/-- A descriptor that may be handed out for `start`. -/
def Unused (u : User) (start fd : Nat) : Prop :=
  start ≤ fd ∧ fd < u.rlimCur ∧ u.entry fd = none

variable {u v : User} {mem : Nat → Bool} {start fd i count : Nat}

theorem Ok.chunk (hu : u.Ok) (hi : i < u.uNofiles) : ∃ c, u.chunk (i / NFPCHUNK) = some c := by
  have hlt : i / NFPCHUNK < u.uFlist.length := Nat.div_lt_of_lt_mul (hu.nofiles ▸ hi)
  exact ⟨_, List.getElem?_eq_getElem hlt⟩

theorem Ok.entry_of_le (hu : u.Ok) (hi : u.uNofiles ≤ i) : u.entry i = none := by
  have hle : u.uFlist.length ≤ i / NFPCHUNK :=
    (Nat.le_div_iff_mul_le (by decide)).mpr (by rw [Nat.mul_comm, ← hu.nofiles]; exact hi)
  rw [entry, User.chunk, List.getElem?_eq_none hle]
  rfl

theorem getf_eq (hu : u.Ok) (fd : Nat) : u.getf fd = some (u.entry fd) := by
  have hchunk : fd < u.uNofiles → (u.chunk (fd / NFPCHUNK)).map (fun c => c.ufOfile (fd % NFPCHUNK)) =
      some (u.entry fd) := by
    intro hlt
    rcases hu.chunk hlt with ⟨c, hc⟩
    rw [entry, hc]
    rfl
  unfold getf
  split
  · next hlt =>
      have hpos := hu.some_chunk
      have hin : fd < u.uNofiles := by
        rw [hu.nofiles]
        exact Nat.lt_of_lt_of_le hlt (Nat.le_mul_of_pos_right _ hpos)
      have hgoal := hchunk hin
      rw [Nat.div_eq_of_lt hlt, Nat.mod_eq_of_lt hlt] at hgoal
      exact hgoal
  · split
    · next hle => rw [hu.entry_of_le hle]
    · next hlt => exact hchunk (Nat.lt_of_not_le hlt)

def Finds (u : User) (i : Nat) : Except Errno (Option Nat) → Prop
  | .error e => e = .EMFILE ∧ ∀ k, ¬ u.Unused i k
  | .ok (some fd) => u.Unused i fd ∧ fd < u.uNofiles ∧ ∀ k, u.Unused i k → fd ≤ k
  | .ok none => ∀ k, i ≤ k → k < u.uNofiles → u.entry k ≠ none

theorem Unused.succ {k : Nat} (hk : u.Unused i k) (hi : u.entry i ≠ none) : u.Unused (i + 1) k := by
  refine ⟨Nat.lt_of_le_of_ne hk.1 ?_, hk.2⟩
  rintro rfl
  exact hi hk.2.2

theorem search_finds (hu : u.Ok) (fuel : Nat) (hfuel : i + fuel = u.uNofiles)
    (hcount : count ≤ i / NFPCHUNK) (hnext : i / NFPCHUNK ≤ count + 1) :
    ∃ r, u.search fuel i count count = some r ∧ u.Finds i r := by
  induction fuel generalizing i count with
  | zero => exact ⟨_, rfl, fun k hk hlt => by omega⟩
  | succ fuel ih =>
    rw [search]
    by_cases hlim : i ≥ u.rlimCur
    · exact ⟨_, if_pos hlim, rfl, fun k hk => by have := hk.1; have := hk.2.1; omega⟩
    · have hmove : (if i / NFPCHUNK > count then (i / NFPCHUNK, count + 1) else (count, count)) =
          (i / NFPCHUNK, i / NFPCHUNK) := by
        split
        · rw [show count + 1 = i / NFPCHUNK by omega]
        · rw [show count = i / NFPCHUNK by omega]
      have hin : i < u.uNofiles := by omega
      rcases hu.chunk hin with ⟨c, hc⟩
      have hentry : u.entry i = c.ufOfile (i % NFPCHUNK) := by
        rw [entry, hc]
        rfl
      simp only [if_neg hlim, hmove, hc, bind_some]
      rw [← hentry]
      by_cases hnone : u.entry i = none
      · exact ⟨_, if_pos hnone, ⟨Nat.le_refl i, Nat.lt_of_not_le hlim, hnone⟩, hin, fun k hk => hk.1⟩
      · rw [if_neg hnone]
        have hstep : i / NFPCHUNK ≤ (i + 1) / NFPCHUNK := Nat.div_le_div_right (Nat.le_succ i)
        have hstep' : (i + 1) / NFPCHUNK ≤ i / NFPCHUNK + 1 := by
          unfold NFPCHUNK
          omega
        rcases ih (by omega) hstep hstep' with ⟨r, hr, hfinds⟩
        refine ⟨r, hr, ?_⟩
        cases r with
        | error e => exact ⟨hfinds.1, fun k hk => hfinds.2 k (hk.succ hnone)⟩
        | ok found =>
          cases found with
          | some fd =>
            rcases hfinds with ⟨⟨hle, hrest⟩, hlt, hleast⟩
            exact ⟨⟨Nat.le_of_succ_le hle, hrest⟩, hlt, fun k hk => hleast k (hk.succ hnone)⟩
          | none =>
            intro k hk hlt
            rcases Nat.eq_or_lt_of_le hk with rfl | hlater
            · exact hnone
            · exact hfinds k hlater hlt

/-- The chunks are in order, and no descriptor has changed. -/
structure Kept (u v : User) : Prop where
  ok : v.Ok
  entry : ∀ fd, v.entry fd = u.entry fd
  limit : v.rlimCur = u.rlimCur

theorem Kept.rval (hv : u.Kept v) (n : Nat) : u.Kept { v with uRval1 := n } :=
  ⟨⟨hv.ok.nofiles, hv.ok.some_chunk⟩, hv.entry, hv.limit⟩

theorem entry_setChunk (c : Ufchunk) (hi : i < u.uFlist.length) (fd : Nat) :
    (u.setChunk i c).entry fd =
      if fd / NFPCHUNK = i then c.ufOfile (fd % NFPCHUNK) else u.entry fd := by
  unfold entry chunk setChunk
  split
  · next heq => rw [heq, List.getElem?_set_self hi, bind_some]
  · next hne => rw [List.getElem?_set_ne (fun h => hne h.symm)]

theorem Ok.setChunk (hu : u.Ok) (i : Nat) (c : Ufchunk) : (u.setChunk i c).Ok := by
  constructor
  · exact hu.nofiles.trans (by rw [User.setChunk, List.length_set])
  · rw [User.setChunk, List.length_set]
    exact hu.some_chunk

theorem Ok.kept_push (hu : u.Ok) : u.Kept u.push := by
  have hlength : u.push.uFlist.length = u.uFlist.length + 1 := List.length_append
  refine ⟨⟨?_, hlength ▸ Nat.succ_pos _⟩, fun fd => ?_, rfl⟩
  · rw [hlength, Nat.mul_succ, ← hu.nofiles]
    rfl
  · unfold entry User.chunk push
    rcases Nat.lt_trichotomy (fd / NFPCHUNK) u.uFlist.length with hlt | heq | hgt
    · rw [List.getElem?_append_left hlt]
    · rw [heq, List.getElem?_append_right (Nat.le_refl _), Nat.sub_self,
        List.getElem?_eq_none (Nat.le_refl _)]
      rfl
    · rw [List.getElem?_eq_none (by rw [List.length_append]; exact hgt),
        List.getElem?_eq_none hgt.le]

theorem grow_kept (hu : u.Ok) (mem : Nat → Bool) (n k : Nat) : u.Kept (u.grow mem n k).1 ∧
      if (u.grow mem n k).2 then (u.grow mem n k).1.uNofiles = u.uNofiles + NFPCHUNK * n
      else ∃ j, mem j = false := by
  induction n generalizing u k with
  | zero => exact ⟨⟨hu, fun _ => rfl, rfl⟩, rfl⟩
  | succ n ih =>
    rw [grow]
    cases hk : mem k with
    | false => exact ⟨⟨hu, fun _ => rfl, rfl⟩, k, hk⟩
    | true =>
      rcases ih hu.kept_push.ok (k + 1) with ⟨hkept, hresult⟩
      simp only [reduceIte]
      refine ⟨⟨hkept.ok, fun fd => (hkept.entry fd).trans (hu.kept_push.entry fd), hkept.limit⟩, ?_⟩
      split at hresult
      · next hdone =>
          rw [if_pos hdone, hresult, Nat.mul_succ]
          show u.uNofiles + NFPCHUNK + _ = _
          omega
      · next hfail =>
          rw [if_neg hfail]
          exact hresult

def Answers (u : User) (mem : Nat → Bool) (start : Nat) (v : User) : Except Errno Nat → Prop
  | .ok fd => u.Unused start fd ∧ fd < v.uNofiles ∧ ∀ k, u.Unused start k → fd ≤ k
  | .error e => e = .EMFILE ∧ (∀ k, ¬ u.Unused start k) ∨
      e = .ENOMEM ∧ (∃ j, mem j = false) ∧ ∃ k, u.Unused start k

variable (mem) in
theorem extend_spec (hu : u.Ok) (hused : ∀ k, start ≤ k → k < u.uNofiles → u.entry k ≠ none)
    (hlimit : start < u.uNofiles ∨ start < u.rlimCur) : u.Kept (u.extend mem start).1 ∧
      u.Answers mem start (u.extend mem start).1 (u.extend mem start).2 := by
  have hself : u.Kept u := ⟨hu, fun _ => rfl, rfl⟩
  have hbehind : ∀ k, u.Unused start k → u.uNofiles ≤ k := fun k hk => by
    by_contra hlt
    exact hused k hk.1 (Nat.lt_of_not_le hlt) hk.2.2
  unfold extend
  by_cases hfull : u.uNofiles ≥ u.rlimCur
  · rw [if_pos hfull]
    refine ⟨hself, .inl ⟨rfl, fun k hk => ?_⟩⟩
    have hlt := hk.2.1
    have hle := hbehind k hk
    omega
  · rw [if_neg hfull]
    have hfirst : u.Unused start (if start < u.uNofiles then u.uNofiles else start) := by
      split
      · next hlt => exact ⟨hlt.le, Nat.lt_of_not_le hfull, hu.entry_of_le (Nat.le_refl _)⟩
      · next hge =>
          exact ⟨Nat.le_refl _, hlimit.resolve_left hge, hu.entry_of_le (Nat.le_of_not_lt hge)⟩
    by_cases hzero : start = 0
    · have hpos : 0 < u.uNofiles := by
        rw [hu.nofiles]
        exact Nat.mul_pos (by decide) hu.some_chunk
      rw [if_pos hzero]
      rw [hzero, if_pos hpos, ← hzero] at hfirst
      cases hmem : mem 0 with
      | false => exact ⟨hself, .inr ⟨rfl, ⟨0, hmem⟩, _, hfirst⟩⟩
      | true =>
        have hkept := hu.kept_push
        exact ⟨hkept.rval _, hfirst, Nat.lt_add_of_pos_right (by decide), hbehind⟩
    · rw [if_neg hzero]
      rcases grow_kept hu mem (max (start / NFPCHUNK + 1 - u.uNofiles / NFPCHUNK) 1) 0 with
        ⟨hkept, hresult⟩
      cases hgrow : u.grow mem (max (start / NFPCHUNK + 1 - u.uNofiles / NFPCHUNK) 1) 0 with
      | mk v done =>
        rw [hgrow] at hkept hresult
        simp only [hgrow]
        cases done with
        | false => exact ⟨hkept, .inr ⟨rfl, hresult, _, hfirst⟩⟩
        | true =>
          refine ⟨hkept.rval _, hfirst, ?_, fun k hk => ?_⟩
          · have hnofiles : v.uNofiles = _ := hresult
            rw [hnofiles]
            unfold NFPCHUNK
            split <;> omega
          · have hle := hbehind k hk
            have hstart := hk.1
            split <;> omega

theorem ufalloc_spec (hu : u.Ok) (mem : Nat → Bool) (start : Nat) :
    ∃ v r, u.ufalloc mem start = some (v, r) ∧ u.Kept v ∧ u.Answers mem start v r := by
  have hself : u.Kept u := ⟨hu, fun _ => rfl, rfl⟩
  unfold ufalloc
  by_cases hin : start < u.uNofiles
  · have hfuel : start + (u.uNofiles - start) = u.uNofiles := by omega
    rcases search_finds hu _ hfuel (Nat.le_refl _) (Nat.le_succ _) with ⟨r, hr, hfinds⟩
    simp only [if_pos hin, hr, bind_eq_bind, bind_some]
    cases r with
    | error e => exact ⟨_, _, rfl, hself, .inl hfinds⟩
    | ok found =>
      cases found with
      | none =>
        rcases extend_spec mem hu hfinds (.inl hin) with ⟨hkept, hanswer⟩
        exact ⟨_, _, rfl, hkept, hanswer⟩
      | some i =>
        rcases hfinds with ⟨hunused, hlt, hleast⟩
        rcases hu.chunk hlt with ⟨c, hc⟩
        have hi : i / NFPCHUNK < u.uFlist.length := Nat.div_lt_of_lt_mul (hu.nofiles ▸ hlt)
        have hkept : u.Kept (u.setChunk (i / NFPCHUNK)
            { c with ufPofile := update c.ufPofile (i % NFPCHUNK) 0 }) := by
          refine ⟨hu.setChunk _ _, fun fd => ?_, rfl⟩
          rw [entry_setChunk _ hi]
          split
          · next heq => rw [entry, heq, hc, bind_some]
          · rfl
        simp only [hc, bind_some]
        exact ⟨_, _, rfl, hkept.rval i, hunused, hlt, hleast⟩
  · simp only [if_neg hin]
    by_cases hlim : start ≥ u.rlimCur
    · simp only [if_pos hlim]
      refine ⟨_, _, rfl, hself, .inl ⟨rfl, fun k hk => ?_⟩⟩
      have hle := hk.1
      have hlt := hk.2.1
      omega
    · simp only [if_neg hlim]
      rcases extend_spec mem hu (fun k hk hlt => by omega)
        (.inr (Nat.lt_of_not_le hlim)) with ⟨hkept, hanswer⟩
      exact ⟨_, _, rfl, hkept, hanswer⟩

theorem setf_spec (hu : u.Ok) (hfd : fd < u.uNofiles) (fp : Option Nat) :
    ∃ v, u.setf fd fp = some v ∧ v.Ok ∧ v.uNofiles = u.uNofiles ∧
      ∀ k, v.entry k = update u.entry fd fp k := by
  rcases hu.chunk hfd with ⟨c, hc⟩
  have hi : fd / NFPCHUNK < u.uFlist.length := Nat.div_lt_of_lt_mul (hu.nofiles ▸ hfd)
  refine ⟨u.setChunk (fd / NFPCHUNK) { c with ufOfile := update c.ufOfile (fd % NFPCHUNK) fp }, ?_,
    hu.setChunk _ _, rfl, fun k => ?_⟩
  · rw [setf, hc]
    rfl
  · rw [entry_setChunk _ hi]
    by_cases hk : k = fd
    · rw [hk, if_pos rfl, update_self]
      exact update_self ..
    · rw [update_of_ne hk]
      split
      · next heq =>
          have hmod : k % NFPCHUNK ≠ fd % NFPCHUNK := fun hmod => hk (by
            rw [← Nat.div_add_mod k NFPCHUNK, heq, hmod, Nat.div_add_mod])
          rw [entry, heq, hc, bind_some]
          exact update_of_ne hmod ..
      · rfl

end User

namespace Kernel

/-- Nothing is left behind: no descriptor, no file and no reference. -/
structure Same (k k' : Kernel) : Prop where
  entry : ∀ fd, k'.u.entry fd = k.u.entry fd
  file : k'.file = k.file
  filecnt : k'.filecnt = k.filecnt
  crRef : k'.crRef = k.crRef

variable {k : Kernel} {mem : Nat → Bool} {new : Option Nat}

theorem falloc_spec (hk : k.u.Ok) (mem : Nat → Bool) (new vp : Option Nat) (flag : Nat) :
    ∃ k' r, k.falloc mem new vp flag = some (k', r) ∧ k'.u.Ok ∧ match r with
      | .error _ => k.Same k'
      | .ok (fp, fd) => new = some fp ∧ fd < k'.u.uNofiles ∧ k.u.entry fd = none ∧
          (∀ i, k'.u.entry i = update k.u.entry fd (some fp) i) ∧
          k'.file = (fp, ⟨1, flag, vp, 0⟩) :: k.file ∧ k'.filecnt = k.filecnt + 1 ∧
          k'.crRef = k.crRef + 1 := by
  rcases User.ufalloc_spec hk mem 0 with ⟨v, r, hrun, hkept, hanswer⟩
  simp only [falloc, hrun, bind_eq_bind, bind_some]
  cases r with
  | error e => exact ⟨_, _, rfl, hkept.ok, hkept.entry, rfl, rfl, rfl⟩
  | ok fd =>
    rcases hanswer with ⟨hunused, hlt, _⟩
    cases new with
    | none => exact ⟨_, _, rfl, hkept.ok, hkept.entry, rfl, rfl, rfl⟩
    | some fp =>
      rcases User.setf_spec hkept.ok hlt (some fp) with ⟨w, hw, hok, hnofiles, hentry⟩
      simp only [hw, bind_some]
      refine ⟨_, _, rfl, hok, rfl, hnofiles ▸ hlt, hunused.2.2, fun i => ?_, rfl, rfl, rfl⟩
      rw [hentry, funext hkept.entry]

theorem fassign_spec (hk : k.u.Ok) (hnew : ∀ fp ∈ new, ∀ x ∈ k.file, x.1 ≠ fp)
    (mem : Nat → Bool) (opened : Except Nat Nat) (mode : Nat) :
    ∃ k' r, k.fassign mem new opened mode = some (k', r) ∧ k'.u.Ok ∧
      ∀ e, r = .error e → k.Same k' := by
  rcases falloc_spec hk mem new none (mode &&& FMASK) with ⟨k', r, hrun, hok, hresult⟩
  simp only [fassign, hrun, bind_eq_bind, bind_some]
  cases r with
  | error e => exact ⟨_, _, rfl, hok, fun _ _ => hresult⟩
  | ok pair =>
    rcases pair with ⟨fp, fd⟩
    rcases hresult with ⟨hfp, hlt, hnone, hentry, hfile, hcnt, hcr⟩
    cases opened with
    | ok vp => exact ⟨_, _, rfl, hok, fun e he => by cases he⟩
    | error e =>
      rcases User.setf_spec hok hlt none with ⟨w, hw, hwok, _, hwentry⟩
      have hfree : { k' with u := w }.unfalloc fp =
          { k' with u := w, file := k.file, crRef := k.crRef, filecnt := k.filecnt } := by
        have hothers : k.file.filter (fun x => x.1 ≠ fp) = k.file :=
          List.filter_eq_self.mpr fun x hx => decide_eq_true (hnew fp hfp x hx)
        have hfound : k'.file.lookup fp = some ⟨1, mode &&& FMASK, none, 0⟩ := by
          rw [hfile, List.lookup_cons_self]
        have hlast : ((1 : Int) - 1) ≤ 0 := by decide
        simp only [unfalloc, hfound, if_pos hlast, hcnt, hcr, Nat.add_sub_cancel]
        rw [hfile, List.filter_cons_of_neg (by simp), hothers]
      simp only [hw, bind_some, hfree]
      refine ⟨_, _, rfl, hwok, fun _ _ => ⟨fun i => ?_, rfl, rfl, rfl⟩⟩
      rw [hwentry, funext hentry]
      by_cases hi : i = fd
      · rw [hi, update_self, hnone]
      · rw [update_of_ne hi, update_of_ne hi]

end Kernel

/-- Descriptors are handed out first fit, and what fails leaves nothing behind. -/
theorem descriptors_exact : (∀ (u : User) fd, u.Ok → u.getf fd = some (u.entry fd)) ∧
    (∀ (u : User) mem start, u.Ok → ∃ v r, u.ufalloc mem start = some (v, r) ∧ u.Kept v ∧
      u.Answers mem start v r) ∧
    (∀ (k : Kernel) mem new vp flag, k.u.Ok → ∃ k' r, k.falloc mem new vp flag = some (k', r) ∧
      k'.u.Ok ∧ ∀ e, r = .error e → k.Same k') ∧
    ∀ (k : Kernel) mem new opened mode, k.u.Ok → (∀ fp ∈ new, ∀ x ∈ k.file, x.1 ≠ fp) →
      ∃ k' r, k.fassign mem new opened mode = some (k', r) ∧ k'.u.Ok ∧
        ∀ e, r = .error e → k.Same k' := by
  refine ⟨fun u fd hu => User.getf_eq hu fd, fun u mem start hu => User.ufalloc_spec hu mem start,
    fun k mem new vp flag hk => ?_, fun k mem new opened mode hk hnew =>
      Kernel.fassign_spec hk hnew mem opened mode⟩
  rcases Kernel.falloc_spec hk mem new vp flag with ⟨k', r, hrun, hok, hresult⟩
  refine ⟨k', r, hrun, hok, ?_⟩
  rintro e rfl
  exact hresult

end Files
end Svr4
