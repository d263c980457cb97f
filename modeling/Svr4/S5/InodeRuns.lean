import Mathlib.Data.Finset.Update
import Mathlib.Order.Interval.Finset.Nat
import Svr4.S5.Scan

/-!
# Every free inode is found

A superblock is consistent when its cache holds distinct free inodes, its count is that
of the free inodes, and every free inode is in the cache or not below `s_inode[0]`.
Calls keep this, and report that no inode is left only when none is free, as long as the
scan does not pass over a free inode and `iget` does not fail on an inode below
`s_inode[0]`.
-/

namespace Svr4
namespace S5

open Function List Finset Option

/-!
## Consistent superblocks
-/

variable {x j ino : Nat}

namespace Volume

def IsFree (v : Volume) (ino : Nat) : Prop := v.IsInode ino ∧ v.mode ino = 0

def free (v : Volume) : Finset Nat := (Finset.Icc 1 v.ninodes).filter fun x => v.mode x = 0

/-- An entry of the cache, above the mark of a short scan. -/
def Entry (v : Volume) (j : Nat) : Prop :=
  j < v.fs.sNinode ∧ ∀ i, j ≤ i → i < v.fs.sNinode → v.fs.sInode i ≠ 0

def Cached (v : Volume) (ino : Nat) : Prop := ∃ j, v.Entry j ∧ v.fs.sInode j = ino

/-- The cache holds distinct free inodes, and the count is right. -/
structure Sane (v : Volume) : Prop where
  size : v.ninodes < 65536
  ninode : v.fs.sNinode ≤ NICINOD
  start : v.fs.sInode 0 < 65536
  entries : ∀ j, v.Entry j → v.IsFree (v.fs.sInode j)
  distinct : ∀ i j, v.Entry i → v.Entry j → v.fs.sInode i = v.fs.sInode j → i = j
  tinode : v.fs.sTinode = v.free.card

/-- Every free inode is in the cache or not below the start of a scan. -/
def Covers (v : Volume) : Prop := ∀ x, v.IsFree x → v.Cached x ∨ v.fs.sInode 0 ≤ x

def Consistent (v : Volume) : Prop := v.Sane ∧ v.Covers

def Exhausted (v : Volume) : Prop :=
  v.fs.sNinode = 0 ∨ v.fs.sInode (v.fs.sNinode - 1) = 0

instance (v : Volume) : Decidable v.Exhausted := inferInstanceAs (Decidable (_ ∨ _))

def found (v : Volume) (env : IallocEnv) : List Nat :=
  let start := v.fsINOS (v.fs.sInode 0)
  (List.range' start (v.ninodes + 1 - start)).filter fun x =>
    v.mode x = 0 ∧ env.readError (v.fsITOD x) = false

def Missed (v : Volume) (env : IallocEnv) (x : Nat) : Prop :=
  v.IsFree x ∧ x ∉ v.found env

def Right (v : Volume) : Outcome → Prop
  | .allocated ino => v.IsFree ino
  | .noSpace => ∀ ino, ¬ v.IsFree ino
  | _ => True

def Sound (v : Volume) (op : InodeOp) : Prop :=
  ∃ o v', v.exec op = some (o, v') ∧ v'.Consistent ∧ v.Right o

/-- `iget` does not fail on an inode below the start of the next scan, and if the cache
is used up and the scan passes over a free inode, then it finds others, but not a hundred
above which it would next start. -/
def Meets (v : Volume) : InodeOp → Prop
  | .ialloc _ env =>
    if v.Exhausted then
      (∀ x, v.Missed env x → v.found env ≠ [] ∧ ∀ y ∈ (v.found env)[99]?, y < x) ∧
      ∀ x ∈ (v.found env).head?, env.igetError x ≠ none → (v.found env)[99]? = none
    else
      env.igetError (v.fs.sInode (v.fs.sNinode - 1)) ≠ none →
        v.fs.sInode 0 ≤ v.fs.sInode (v.fs.sNinode - 1)
  | .ifree _ => True

/-!
## Taking an inode
-/

section Take

variable {v : Volume} {a : Attr} {env : IallocEnv} {n : Nat}

theorem mem_free : x ∈ v.free ↔ v.IsFree x := by
  unfold free IsFree IsInode
  rw [Finset.mem_filter, Finset.mem_Icc]

theorem Exhausted.no_entry (hex : v.Exhausted) (j : Nat) : ¬ v.Entry j := by
  rintro ⟨hlt, hnonzero⟩
  rcases hex with hnone | hzero
  · omega
  · exact hnonzero (v.fs.sNinode - 1) (by omega) (by omega) hzero

theorem entry_top (hn : v.fs.sNinode = n + 1) (hne : v.fs.sInode n ≠ 0) : v.Entry n := by
  refine ⟨by omega, fun i hle hlt => ?_⟩
  have hi : i = n := by omega
  rw [hi]
  exact hne

theorem entry_setNinode (hn : v.fs.sNinode = n + 1) (hne : v.fs.sInode n ≠ 0) :
    (v.setNinode n).Entry j ↔ v.Entry j ∧ j ≠ n := by
  constructor
  · rintro ⟨hlt, hnonzero⟩
    have hlt : j < n := hlt
    refine ⟨⟨by omega, fun i hle hi => ?_⟩, by omega⟩
    by_cases heq : i = n
    · rw [heq]
      exact hne
    · exact hnonzero i hle (show i < n by omega)
  · rintro ⟨⟨hlt, hnonzero⟩, hj⟩
    refine ⟨show j < n by omega, fun i hle hi => hnonzero i hle ?_⟩
    have hi : i < n := hi
    omega

theorem Sane.drop (hv : v.Sane) (hn : v.fs.sNinode = n + 1) (hne : v.fs.sInode n ≠ 0) :
    (v.setNinode n).Sane where
  size := hv.size
  ninode := by
    have hle := hv.ninode
    change n ≤ NICINOD
    omega
  start := hv.start
  entries j hj := hv.entries j ((entry_setNinode hn hne).mp hj).1
  distinct i j hi hj :=
    hv.distinct i j ((entry_setNinode hn hne).mp hi).1 ((entry_setNinode hn hne).mp hj).1
  tinode := hv.tinode

theorem Sane.drop_covers (hv : v.Sane) (hn : v.fs.sNinode = n + 1) (hne : v.fs.sInode n ≠ 0) :
    (v.setNinode n).Covers ↔ v.Covers ∧ v.fs.sInode 0 ≤ v.fs.sInode n := by
  have htop := entry_top hn hne
  constructor
  · intro hcovers
    refine ⟨fun x hx => ?_, ?_⟩
    · rcases hcovers x hx with ⟨j, hj, hat⟩ | hle
      · exact .inl ⟨j, ((entry_setNinode hn hne).mp hj).1, hat⟩
      · exact .inr hle
    · rcases hcovers (v.fs.sInode n) (hv.entries n htop) with ⟨j, hj, hat⟩ | hle
      · obtain ⟨hj, hjn⟩ := (entry_setNinode hn hne).mp hj
        exact absurd (hv.distinct j n hj htop hat) hjn
      · exact hle
  · rintro ⟨hcovers, hle⟩ x hx
    rcases hcovers x hx with ⟨j, hj, hat⟩ | hx
    · by_cases hjn : j = n
      · rw [hjn] at hat
        exact .inr (hat ▸ hle)
      · exact .inl ⟨j, (entry_setNinode hn hne).mpr ⟨hj, hjn⟩, hat⟩
    · exact .inr hx

theorem assign_mode (ip : Inode) (a : Attr) : (ip.assign a).iMode = a.mode := by
  unfold Inode.assign
  split <;> rfl

theorem allocate_mode : (v.allocate ino a).mode x = if x = ino then a.mode else v.mode x := by
  change ((update v.inodes ino ((v.inodes ino).assign a)) x).iMode = _
  by_cases hx : x = ino
  · rw [if_pos hx, hx, update_self, assign_mode]
  · rw [if_neg hx, update_of_ne hx]
    rfl

theorem allocate_isFree : (v.allocate ino a).IsFree x ↔ v.IsFree x ∧ x ≠ ino := by
  unfold IsFree
  rw [allocate_mode]
  by_cases hx : x = ino
  · rw [if_pos hx]
    exact iff_of_false (fun h => a.typed h.2) fun h => h.2 hx
  · rw [if_neg hx]
    exact ⟨fun h => ⟨h, hx⟩, And.left⟩

theorem allocate_free : (v.allocate ino a).free = v.free.erase ino := by
  ext x
  rw [mem_free, allocate_isFree, mem_erase, mem_free]
  tauto

theorem Sane.allocate (hv : v.Sane) (hn : v.fs.sNinode = n + 1) (hne : v.fs.sInode n ≠ 0) :
    ((v.setNinode n).allocate (v.fs.sInode n) a).Sane := by
  have htop := entry_top hn hne
  have hdrop := hv.drop hn hne
  exact {
    size := hdrop.size
    ninode := hdrop.ninode
    start := hdrop.start
    entries := by
      intro j hj
      obtain ⟨hold, hjn⟩ := (entry_setNinode hn hne).mp hj
      exact allocate_isFree.mpr ⟨hdrop.entries j hj, fun hat => hjn (hv.distinct j n hold htop hat)⟩
    distinct := hdrop.distinct
    tinode := by
      have hmem : v.fs.sInode n ∈ (v.setNinode n).free := mem_free.mpr (hv.entries n htop)
      rw [allocate_free, card_erase_of_mem hmem, ← hdrop.tinode]
      rfl }

theorem allocate_covers (hn : v.fs.sNinode = n + 1) (hne : v.fs.sInode n ≠ 0) :
    ((v.setNinode n).allocate (v.fs.sInode n) a).Covers ↔ v.Covers := by
  have htop := entry_top hn hne
  constructor
  · intro hcovers x hx
    by_cases hat : x = v.fs.sInode n
    · exact .inl ⟨n, htop, hat.symm⟩
    · rcases hcovers x (allocate_isFree.mpr ⟨hx, hat⟩) with ⟨j, hj, hx⟩ | hle
      · exact .inl ⟨j, ((entry_setNinode hn hne).mp hj).1, hx⟩
      · exact .inr hle
  · intro hcovers x hx
    obtain ⟨hfree, hat⟩ := allocate_isFree.mp hx
    rcases hcovers x hfree with ⟨j, hj, hentry⟩ | hle
    · refine .inl ⟨j, (entry_setNinode hn hne).mpr ⟨hj, ?_⟩, hentry⟩
      rintro rfl
      exact hat hentry.symm
    · exact .inr hle

theorem Sane.take (hv : v.Sane) (hex : ¬ v.Exhausted) (a : Attr) (env : IallocEnv) :
    ∃ o v', take a env v.fs.sNinode v = .done o v' ∧ v'.Sane ∧ v.Right o ∧ o ≠ .noSpace ∧
      (v'.Covers ↔ v.Covers ∧ (env.igetError (v.fs.sInode (v.fs.sNinode - 1)) ≠ none →
        v.fs.sInode 0 ≤ v.fs.sInode (v.fs.sNinode - 1))) := by
  obtain ⟨hpos, hne⟩ := not_or.mp hex
  obtain ⟨n, hn⟩ := Nat.exists_eq_succ_of_ne_zero hpos
  have hn : v.fs.sNinode = n + 1 := hn
  rw [hn, Nat.add_sub_cancel] at hne ⊢
  have hfree := hv.entries n (entry_top hn hne)
  unfold Volume.take
  rw [if_neg hne]
  cases hget : env.igetError (v.fs.sInode n) with
  | some error =>
    refine ⟨_, _, rfl, hv.drop hn hne, trivial, nofun, ?_⟩
    rw [hv.drop_covers hn hne]
    simp
  | none =>
    have hmode : (v.inodes (v.fs.sInode n)).iMode = 0 := hfree.2
    rw [if_pos hmode]
    refine ⟨_, _, rfl, hv.allocate hn hne, hfree, nofun, ?_⟩
    rw [allocate_covers hn hne]
    simp

theorem take_exhausted (hex : v.Exhausted) (a : Attr) (env : IallocEnv) :
    take a env v.fs.sNinode v = .exhausted (v.setNinode (v.fs.sNinode - 1)) := by
  cases hn : v.fs.sNinode with
  | zero =>
    have hsame : v.setNinode 0 = v := by
      unfold setNinode
      rw [← hn]
    rw [hsame]
    rfl
  | succ n =>
    rcases hex with hnone | hzero
    · omega
    · rw [hn, Nat.add_sub_cancel] at hzero
      unfold Volume.take
      rw [if_pos hzero]
      rfl

end Take

/-!
## Filling the cache
-/

section Rescan

variable {v : Volume} {env : IallocEnv}

theorem fsINOS_eq (v : Volume) (x : Nat) : v.fsINOS x = x / v.vfsInopb * v.vfsInopb + 1 := by
  unfold fsINOS vfsInopb
  rw [Nat.shiftRight_eq_div_pow, Nat.shiftLeft_eq]

theorem inopb_pos (v : Volume) : 0 < v.vfsInopb := Nat.two_pow_pos _

theorem fsITOD_eq (v : Volume) (q j i : Nat) (hi : i < v.vfsInopb) :
    v.fsITOD (q * v.vfsInopb + 1 + j * v.vfsInopb + i) = q + 2 + j := by
  have hpos := v.inopb_pos
  have hsum : q * v.vfsInopb + 1 + j * v.vfsInopb + i + (2 * v.vfsInopb - 1) =
      i + (q + 2 + j) * v.vfsInopb := by
    have hexpand : (q + 2 + j) * v.vfsInopb =
        q * v.vfsInopb + 2 * v.vfsInopb + j * v.vfsInopb := by ring
    omega
  unfold fsITOD
  rw [Nat.shiftRight_eq_div_pow, hsum]
  change (i + (q + 2 + j) * v.vfsInopb) / v.vfsInopb = _
  rw [Nat.add_mul_div_right _ _ hpos, Nat.div_eq_of_lt hi, Nat.zero_add]

theorem fsINOS_lt (v : Volume) (hx : x < 65536) : v.fsINOS x < 65536 := by
  have hle : x / v.vfsInopb * v.vfsInopb ≤ x := Nat.div_mul_le_self x _
  have heven : 2 ∣ x / v.vfsInopb * v.vfsInopb := by
    refine Dvd.dvd.mul_left ?_ _
    exact dvd_pow_self 2 (by have height := v.eight; omega)
  rw [fsINOS_eq]
  omega

theorem mem_found : x ∈ v.found env ↔ v.fsINOS (v.fs.sInode 0) ≤ x ∧ x ≤ v.ninodes ∧ v.mode x = 0 ∧
      env.readError (v.fsITOD x) = false := by
  unfold found
  rw [mem_filter, mem_range'_1, decide_eq_true_eq]
  constructor
  · rintro ⟨⟨hle, hlt⟩, hcond⟩
    exact ⟨hle, by omega, hcond⟩
  · rintro ⟨hle, hlt, hcond⟩
    exact ⟨⟨hle, by omega⟩, hcond⟩

theorem found_free (hx : x ∈ v.found env) : v.IsFree x := by
  obtain ⟨hle, hlt, hmode, _⟩ := mem_found.mp hx
  rw [fsINOS_eq] at hle
  exact ⟨⟨by omega, hlt⟩, hmode⟩

theorem found_sorted (v : Volume) (env : IallocEnv) : (v.found env).Pairwise (· < ·) :=
  (pairwise_lt_range' 1 (by decide)).filter _

theorem rescan_eq (hsize : v.ninodes < 65536) (hstart : v.fs.sInode 0 < 65536) :
    v.rescan env = ({ v.fs with sNinode := NICINOD } : Filsys).fill (v.found env) := by
  have hlt := v.fsINOS_lt hstart
  have hfirst := v.fsINOS_eq (v.fs.sInode 0)
  have hblock : v.fsITOD (v.fsINOS (v.fs.sInode 0)) = v.fs.sInode 0 / v.vfsInopb + 2 := by
    have hat := v.fsITOD_eq (v.fs.sInode 0 / v.vfsInopb) 0 0 v.inopb_pos
    rw [Nat.zero_mul, Nat.add_zero, Nat.add_zero, Nat.add_zero, ← hfirst] at hat
    exact hat
  have hcount : (v.fs.sIsize - v.fsITOD (v.fsINOS (v.fs.sInode 0))) * v.vfsInopb =
      v.ninodes + 1 - v.fsINOS (v.fs.sInode 0) := by
    unfold ninodes
    rw [hblock, hfirst, Nat.add_sub_add_right, ← Nat.sub_mul]
    congr 1
    omega
  unfold rescan found
  rw [Nat.mod_eq_of_lt hlt]
  have hscan := @scan_eq v.mode v.vfsInopb env.readError v.fsITOD
    (v.fs.sIsize - v.fsITOD (v.fsINOS (v.fs.sInode 0)))
    (v.fsITOD (v.fsINOS (v.fs.sInode 0))) (v.fsINOS (v.fs.sInode 0))
    { v.fs with sNinode := NICINOD } (fun j i hi => by
      rw [hblock, hfirst]
      exact v.fsITOD_eq _ j i hi) (by omega)
  rw [Nat.mod_eq_of_lt hlt] at hscan
  rw [hscan, hcount]

def refilled (v : Volume) (env : IallocEnv) : Volume :=
  { v with fs := { (v.rescan env).mark with sNinode := NICINOD } }

structure Refills (v : Volume) (env : IallocEnv) : Prop where
  ninode : (v.rescan env).mark.sNinode = NICINOD - (v.found env).length
  isize : (v.rescan env).mark.sIsize = v.fs.sIsize
  tinode : (v.rescan env).mark.sTinode = v.fs.sTinode
  inode : ∀ i, NICINOD - (v.found env).length ≤ i → i < NICINOD →
    (v.rescan env).mark.sInode i = (v.found env).getD (NICINOD - 1 - i) 0
  short : (v.found env).length < NICINOD →
    (v.rescan env).mark.sInode (NICINOD - (v.found env).length - 1) = 0 ∧
      (v.rescan env).mark.sInode 0 = 0

theorem refills (hsize : v.ninodes < 65536) (hstart : v.fs.sInode 0 < 65536) : v.Refills env := by
  obtain ⟨hninode, hisize, htinode, hinode⟩ :=
    Filsys.fill_spec { v.fs with sNinode := NICINOD } (v.found env)
  rw [← rescan_eq hsize hstart] at hninode hisize htinode hinode
  have hninode : (v.rescan env).sNinode = NICINOD - (v.found env).length := hninode
  by_cases hshort : 0 < (v.rescan env).sNinode
  · have hmark : (v.rescan env).mark = { v.rescan env with
        sInode := update (update (v.rescan env).sInode ((v.rescan env).sNinode - 1) 0) 0 0 } := by
      unfold Filsys.mark
      rw [if_pos hshort]
    have hentry : (v.rescan env).mark.sInode = update
        (update (v.rescan env).sInode ((v.rescan env).sNinode - 1) 0) 0 0 := by
      rw [hmark]
    refine ⟨?_, ?_, ?_, fun i hle hlt => ?_, fun _ => ⟨?_, ?_⟩⟩
    · rw [hmark, hninode]
    · rw [hmark, hisize]
    · rw [hmark, htinode]
    · rw [hentry, update_of_ne (by omega), update_of_ne (by omega), hinode]
      exact if_pos ⟨hle, hlt⟩
    · rw [hentry, hninode]
      by_cases hzero : NICINOD - (v.found env).length - 1 = 0
      · rw [hzero, update_self]
      · rw [update_of_ne hzero, update_self]
    · rw [hentry, update_self]
  · have hmark : (v.rescan env).mark = v.rescan env := by
      unfold Filsys.mark
      rw [if_neg hshort]
    refine ⟨?_, ?_, ?_, fun i hle hlt => ?_, fun hless => by omega⟩
    · rw [hmark, hninode]
    · rw [hmark, hisize]
    · rw [hmark, htinode]
    · rw [hmark, hinode]
      exact if_pos ⟨hle, hlt⟩

end Rescan

section Refilled

variable {v : Volume} {env : IallocEnv}

section

variable (hr : v.Refills env)
include hr

theorem Refills.ninodes : (v.refilled env).ninodes = v.ninodes := by
  have hisize : (v.refilled env).fs.sIsize = v.fs.sIsize := hr.isize
  unfold Volume.ninodes
  rw [hisize]
  rfl

theorem Refills.isFree (x : Nat) : (v.refilled env).IsFree x ↔ v.IsFree x := by
  unfold IsFree IsInode
  rw [hr.ninodes]
  rfl

theorem Refills.free : (v.refilled env).free = v.free := by
  ext x
  rw [mem_free, mem_free, hr.isFree]

theorem Refills.at_index (hj : j < NICINOD)
    (hle : NICINOD ≤ (v.found env).length + j) :
    (v.found env)[NICINOD - 1 - j]? = some ((v.refilled env).fs.sInode j) := by
  have hlt : NICINOD - 1 - j < (v.found env).length := by omega
  have hat : (v.refilled env).fs.sInode j = (v.found env).getD (NICINOD - 1 - j) 0 :=
    hr.inode j (by omega) hj
  rw [hat, getD_eq_getElem?_getD, getElem?_eq_getElem hlt, Option.getD_some]

theorem Refills.entry :
    (v.refilled env).Entry j ↔ j < NICINOD ∧ NICINOD ≤ (v.found env).length + j := by
  constructor
  · rintro ⟨hlt, hnonzero⟩
    refine ⟨hlt, ?_⟩
    by_contra hless
    refine hnonzero (NICINOD - (v.found env).length - 1) (by omega) (show _ < NICINOD by omega) ?_
    exact (hr.short (by omega)).1
  · rintro ⟨hlt, hle⟩
    refine ⟨hlt, fun i hji hi => ?_⟩
    have hat := hr.at_index (show i < NICINOD from hi) (by omega)
    have hfree := found_free (mem_of_getElem? hat)
    exact Nat.one_le_iff_ne_zero.mp hfree.1.1

end

theorem Sane.refilled (hv : v.Sane) (hr : v.Refills env) : (v.refilled env).Sane where
  size := by
    rw [hr.ninodes]
    exact hv.size
  ninode := le_refl _
  start := by
    by_cases hshort : (v.found env).length < NICINOD
    · have hzero : (v.refilled env).fs.sInode 0 = 0 := (hr.short hshort).2
      omega
    · have hat := hr.at_index (show 0 < NICINOD by decide) (by omega)
      have hfree := found_free (mem_of_getElem? hat)
      have hsize := hv.size
      have hle := hfree.1.2
      omega
  entries j hj := by
    obtain ⟨hlt, hle⟩ := hr.entry.mp hj
    rw [hr.isFree]
    exact found_free (mem_of_getElem? (hr.at_index hlt hle))
  distinct i j hi hj heq := by
    obtain ⟨hlt, hle⟩ := hr.entry.mp hi
    obtain ⟨hlt', hle'⟩ := hr.entry.mp hj
    have hat := hr.at_index hlt hle
    have hat' := hr.at_index hlt' hle'
    rw [heq, ← hat'] at hat
    have hsame := (getElem?_inj (by omega) (found_sorted v env).nodup).mp hat
    omega
  tinode := by
    have htinode : (v.refilled env).fs.sTinode = v.fs.sTinode := hr.tinode
    rw [hr.free, htinode]
    exact hv.tinode

theorem Refills.covers (hr : v.Refills env) : (v.refilled env).Covers ↔
    ∀ x, v.Missed env x → ∀ y ∈ (v.found env)[99]?, y < x := by
  have hzero : 0 < NICINOD := by decide
  constructor
  · rintro hcovers x ⟨hfree, hmissed⟩ y hy
    have hy : (v.found env)[NICINOD - 1]? = some y := hy
    obtain ⟨hlt, _⟩ := List.getElem?_eq_some_iff.mp hy
    have hat := hr.at_index hzero (by omega)
    rw [Nat.sub_zero, hy] at hat
    rcases hcovers x ((hr.isFree x).mpr hfree) with ⟨j, hj, hentry⟩ | hle
    · obtain ⟨hjlt, hjle⟩ := hr.entry.mp hj
      rw [← hentry] at hmissed
      exact absurd (mem_of_getElem? (hr.at_index hjlt hjle)) hmissed
    · rw [← some.inj hat] at hle
      refine lt_of_le_of_ne hle ?_
      rintro rfl
      exact hmissed (mem_of_getElem? hy)
  · intro hbelow x hx
    have hfree := (hr.isFree x).mp hx
    by_cases hshort : (v.found env).length < NICINOD
    · by_cases hmem : x ∈ v.found env
      · obtain ⟨m, hm⟩ := mem_iff_getElem?.mp hmem
        obtain ⟨hlt, _⟩ := List.getElem?_eq_some_iff.mp hm
        refine .inl ⟨NICINOD - 1 - m, hr.entry.mpr ⟨by omega, by omega⟩, ?_⟩
        have hat := hr.at_index (show NICINOD - 1 - m < NICINOD by omega) (by omega)
        have hindex : NICINOD - 1 - (NICINOD - 1 - m) = m := by omega
        rw [hindex, hm] at hat
        exact (some.inj hat).symm
      · refine .inr ?_
        have hstart : (v.refilled env).fs.sInode 0 = 0 := (hr.short hshort).2
        omega
    · have hstart := hr.at_index hzero (by omega)
      by_cases hmem : x ∈ v.found env
      · obtain ⟨m, hm⟩ := mem_iff_getElem?.mp hmem
        obtain ⟨hlt, hgetm⟩ := List.getElem?_eq_some_iff.mp hm
        by_cases hm100 : m < NICINOD
        · refine .inl ⟨NICINOD - 1 - m, hr.entry.mpr ⟨by omega, by omega⟩, ?_⟩
          have hat := hr.at_index (show NICINOD - 1 - m < NICINOD by omega) (by omega)
          have hindex : NICINOD - 1 - (NICINOD - 1 - m) = m := by omega
          rw [hindex, hm] at hat
          exact (some.inj hat).symm
        · refine .inr ?_
          obtain ⟨hlt', hget⟩ := List.getElem?_eq_some_iff.mp hstart
          rw [← hget, ← hgetm]
          exact le_of_lt (pairwise_iff_getElem.mp (found_sorted v env) _ _ hlt' hlt (by omega))
      · exact .inr (le_of_lt (hbelow x ⟨hfree, hmem⟩ _ hstart))

end Refilled

/-!
## Calls
-/

section Calls

variable {v : Volume}

theorem Sane.outOfInodes {v : Volume} (hv : v.Sane) {w : Volume}
    (hsize : w.ninodes = v.ninodes) (hmode : w.mode = v.mode) (hstart : w.fs.sInode 0 < 65536)
    (hnone : ∀ x, ¬ v.IsFree x) : w.outOfInodes.Consistent := by
  have hfree : ∀ x, ¬ w.outOfInodes.IsFree x := by
    rintro x ⟨⟨hpos, hle⟩, hzero⟩
    have hle : x ≤ w.ninodes := hle
    have hzero : w.mode x = 0 := hzero
    exact hnone x ⟨⟨hpos, hsize ▸ hle⟩, hmode ▸ hzero⟩
  have hentry : ∀ j, ¬ w.outOfInodes.Entry j := fun j hj => absurd hj.1 (Nat.not_lt_zero j)
  refine ⟨?_, fun x hx => absurd hx (hfree x)⟩
  exact {
    size := by
      change w.ninodes < 65536
      rw [hsize]
      exact hv.size
    ninode := Nat.zero_le _
    start := hstart
    entries := fun j hj => absurd hj (hentry j)
    distinct := fun i j hi _ => absurd hi (hentry i)
    tinode := by
      symm
      change w.outOfInodes.free.card = 0
      rw [card_eq_zero, eq_empty_iff_forall_notMem]
      exact fun x hx => hfree x (mem_free.mp hx) }

theorem sound_of {op : InodeOp} {o : Outcome} {v' : Volume} (hexec : v.exec op = some (o, v')) :
    v.Sound op ↔ v'.Consistent ∧ v.Right o := by
  constructor
  · rintro ⟨o', w, hw, hok⟩
    cases hexec.symm.trans hw
    exact hok
  · exact fun hok => ⟨o, v', hexec, hok⟩

theorem Consistent.ialloc (hv : v.Consistent) (a : Attr) (env : IallocEnv) :
    v.Sound (.ialloc a env) ↔ v.Meets (.ialloc a env) := by
  obtain ⟨hsane, hcovers⟩ := hv
  by_cases hex : v.Exhausted
  · have hmeets : v.Meets (.ialloc a env) ↔
        (∀ x, v.Missed env x → v.found env ≠ [] ∧ ∀ y ∈ (v.found env)[99]?, y < x) ∧
        ∀ x ∈ (v.found env).head?, env.igetError x ≠ none → (v.found env)[99]? = none := by
      unfold Meets
      simp only
      rw [if_pos hex]
    rw [hmeets]
    have hr : v.Refills env := refills hsane.size hsane.start
    have hexec : v.exec (.ialloc a env) =
        if 0 < v.fs.sTinode then
          if (v.rescan env).mark.sNinode ≠ NICINOD then
            iallocLoop a env 1 (v.refilled env)
          else some (.noSpace, ({ v with fs := (v.rescan env).mark } : Volume).outOfInodes)
        else some (.noSpace, (v.setNinode (v.fs.sNinode - 1)).outOfInodes) := by
      change iallocLoop a env 2 v = _
      unfold iallocLoop
      rw [take_exhausted hex]
      rfl
    by_cases htinode : 0 < v.fs.sTinode
    · rw [if_pos htinode] at hexec
      have hfree : ∃ x, v.IsFree x := by
        rw [hsane.tinode] at htinode
        obtain ⟨x, hx⟩ := card_pos.mp htinode
        exact ⟨x, mem_free.mp hx⟩
      by_cases hfound : v.found env = []
      · have hfull : ¬ (v.rescan env).mark.sNinode ≠ NICINOD := by
          rw [hr.ninode, hfound]
          exact fun hne => hne rfl
        rw [if_neg hfull] at hexec
        rw [sound_of hexec]
        obtain ⟨x, hx⟩ := hfree
        refine iff_of_false (fun hok => hok.2 x hx) fun hok => ?_
        refine (hok.1 x ⟨hx, ?_⟩).1 hfound
        rw [hfound]
        exact not_mem_nil
      · have hpos := length_pos_of_ne_nil hfound
        have hrefill : (v.rescan env).mark.sNinode ≠ NICINOD := by
          rw [hr.ninode]
          have hhundred : 0 < NICINOD := by decide
          omega
        rw [if_pos hrefill] at hexec
        have htop := hr.at_index (show NICINOD - 1 < NICINOD by decide)
          (by have hhundred : NICINOD = 100 := rfl; omega)
        have hne : ¬ (v.refilled env).Exhausted := by
          have hentry : (v.refilled env).Entry (NICINOD - 1) :=
            hr.entry.mpr ⟨by decide, by have hhundred : NICINOD = 100 := rfl; omega⟩
          exact fun hex' => hex'.no_entry _ hentry
        obtain ⟨o, v', htake, hsane', hright, _, hcovers'⟩ :=
          (hsane.refilled hr).take hne a env
        have hrun : v.exec (.ialloc a env) = some (o, v') := by
          rw [hexec]
          unfold iallocLoop
          rw [htake]
        have hright : v.Right o := by
          cases o with
          | allocated ino => exact (hr.isFree ino).mp hright
          | failed error => trivial
          | noSpace => exact fun ino hino => hright ino ((hr.isFree ino).mpr hino)
          | freed => trivial
        have hiff : v'.Consistent ∧ v.Right o ↔ v'.Covers :=
          ⟨fun hok => hok.1.2, fun hcov => ⟨⟨hsane', hcov⟩, hright⟩⟩
        rw [sound_of hrun, hiff, hcovers', hr.covers]
        refine and_congr ?_ ?_
        · exact ⟨fun hbelow x hx => ⟨hfound, hbelow x hx⟩, fun hok x hx => (hok x hx).2⟩
        · have hhead : (v.found env).head? = some ((v.refilled env).fs.sInode (NICINOD - 1)) := by
            rw [← htop, head?_eq_getElem?]
            rfl
          rw [hhead]
          constructor
          · rintro hle x ⟨rfl⟩ herror
            have hle : (v.refilled env).fs.sInode 0 ≤
              (v.refilled env).fs.sInode (NICINOD - 1) := hle herror
            rw [List.getElem?_eq_none_iff]
            by_contra hlong
            have hstart := hr.at_index (show 0 < NICINOD by decide)
              (by have hhundred : NICINOD = 100 := rfl; omega)
            obtain ⟨hlt, hget⟩ := List.getElem?_eq_some_iff.mp hstart
            obtain ⟨hlt', hget'⟩ := List.getElem?_eq_some_iff.mp htop
            have hsorted := pairwise_iff_getElem.mp (found_sorted v env) _ _ hlt' hlt (by decide)
            omega
          · intro hshort herror
            have hlong := getElem?_eq_none_iff.mp (hshort _ rfl herror)
            have hzero : (v.refilled env).fs.sInode 0 = 0 :=
              (hr.short (by have hhundred : NICINOD = 100 := rfl; omega)).2
            omega
    · rw [if_neg htinode] at hexec
      have hnone : ∀ x, ¬ v.IsFree x := by
        intro x hx
        have hcard := card_pos.mpr ⟨x, mem_free.mpr hx⟩
        rw [← hsane.tinode] at hcard
        exact htinode hcard
      rw [sound_of hexec]
      refine iff_of_true ⟨hsane.outOfInodes rfl rfl hsane.start hnone, hnone⟩ ⟨?_, ?_⟩
      · exact fun x hx => absurd hx.1 (hnone x)
      · intro x hx
        exact absurd (found_free (mem_of_mem_head? hx)) (hnone x)
  · have hmeets : v.Meets (.ialloc a env) ↔ (env.igetError (v.fs.sInode (v.fs.sNinode - 1)) ≠ none →
          v.fs.sInode 0 ≤ v.fs.sInode (v.fs.sNinode - 1)) := by
      unfold Meets
      simp only
      rw [if_neg hex]
    obtain ⟨o, v', htake, hsane', hright, _, hcovers'⟩ := hsane.take hex a env
    have hrun : v.exec (.ialloc a env) = some (o, v') := by
      change iallocLoop a env 2 v = _
      unfold iallocLoop
      rw [htake]
    have hiff : v'.Consistent ∧ v.Right o ↔ v'.Covers :=
      ⟨fun hok => hok.1.2, fun hcov => ⟨⟨hsane', hcov⟩, hright⟩⟩
    rw [sound_of hrun, hiff, hcovers', hmeets]
    exact and_iff_right hcovers

end Calls

section Ifree

variable {v : Volume} {ino : Nat}

theorem ifree_mode (hmode : v.mode ino ≠ 0) (x : Nat) :
    (v.ifree ino).mode x = if x = ino then 0 else v.mode x := by
  have hne : ¬ (v.inodes ino).iMode = 0 := hmode
  unfold ifree
  rw [if_neg hne]
  change (update v.inodes ino { v.inodes ino with iMode := 0 } x).iMode = _
  by_cases hx : x = ino
  · rw [if_pos hx, hx, update_self]
  · rw [if_neg hx, update_of_ne hx]
    rfl

theorem ifree_cases (hmode : v.mode ino ≠ 0) : (v.ifree ino).fs.sIsize = v.fs.sIsize ∧
    (v.ifree ino).fs.sTinode = (v.fs.sTinode + 1) % 65536 ∧
    (((v.fs.sNinode ≥ NICINOD ∨ v.fs.sNinode = 0) ∧ (v.ifree ino).fs.sNinode = v.fs.sNinode ∧
        ((ino < v.fs.sInode 0 ∧ (v.ifree ino).fs.sInode = update v.fs.sInode 0 ino) ∨
          (v.fs.sInode 0 ≤ ino ∧ (v.ifree ino).fs.sInode = v.fs.sInode))) ∨
      (0 < v.fs.sNinode ∧ v.fs.sNinode < NICINOD ∧ (v.ifree ino).fs.sNinode = v.fs.sNinode + 1 ∧
        (v.ifree ino).fs.sInode = update v.fs.sInode v.fs.sNinode ino)) := by
  have hne : ¬ (v.inodes ino).iMode = 0 := hmode
  unfold ifree
  rw [if_neg hne]
  simp only
  by_cases hfull : v.fs.sNinode ≥ NICINOD ∨ v.fs.sNinode = 0
  · rw [if_pos hfull]
    by_cases hlow : ino < v.fs.sInode 0
    · rw [if_pos hlow]
      exact ⟨rfl, rfl, .inl ⟨hfull, rfl, .inl ⟨hlow, rfl⟩⟩⟩
    · rw [if_neg hlow]
      exact ⟨rfl, rfl, .inl ⟨hfull, rfl, .inr ⟨by omega, rfl⟩⟩⟩
  · rw [if_neg hfull]
    exact ⟨rfl, rfl, .inr ⟨by omega, by omega, rfl, rfl⟩⟩

theorem ifree_of_free (hmode : v.mode ino = 0) : v.ifree ino = v := by
  have hzero : (v.inodes ino).iMode = 0 := hmode
  unfold ifree
  rw [if_pos hzero]

theorem ifree_ninodes (hmode : v.mode ino ≠ 0) : (v.ifree ino).ninodes = v.ninodes := by
  have hisize := (ifree_cases hmode).1
  have hinopb : (v.ifree ino).vfsInopb = v.vfsInopb := by
    unfold ifree
    split <;> rfl
  unfold ninodes
  rw [hisize, hinopb]

theorem ifree_isFree (hino : v.IsInode ino) (hmode : v.mode ino ≠ 0) :
    (v.ifree ino).IsFree x ↔ v.IsFree x ∨ x = ino := by
  have hsize := ifree_ninodes hmode
  unfold IsFree IsInode
  rw [hsize, ifree_mode hmode]
  by_cases hx : x = ino
  · rw [if_pos hx]
    exact iff_of_true ⟨hx ▸ hino, rfl⟩ (.inr hx)
  · rw [if_neg hx]
    exact ⟨.inl, fun h => h.resolve_right hx⟩

theorem Consistent.ifree (hv : v.Consistent) (hino : v.IsInode ino) (hmode : v.mode ino ≠ 0) :
    (v.ifree ino).Consistent := by
  obtain ⟨hsane, hcovers⟩ := hv
  have hiff : ∀ x, (v.ifree ino).IsFree x ↔ v.IsFree x ∨ x = ino :=
    fun x => ifree_isFree hino hmode
  have hnot : ¬ v.IsFree ino := fun hfree => hmode hfree.2
  have hsize := ifree_ninodes hmode
  obtain ⟨hisize, htinode, hcases⟩ := ifree_cases hmode
  have hcount : (v.ifree ino).fs.sTinode = (v.ifree ino).free.card := by
    have hinsert : (v.ifree ino).free = insert ino v.free := by
      ext x
      rw [mem_free, hiff, mem_insert, mem_free, or_comm]
    have hmem : ino ∉ v.free := fun hmem => hnot (mem_free.mp hmem)
    have hcard : (insert ino v.free).card = v.free.card + 1 := card_insert_of_notMem hmem
    have hbound : (insert ino v.free).card ≤ v.ninodes := by
      have hsub : insert ino v.free ⊆ Finset.Icc 1 v.ninodes := by
        intro x hx
        rw [Finset.mem_Icc]
        rcases mem_insert.mp hx with rfl | hx
        · exact hino
        · exact (mem_free.mp hx).1
      have hle := card_le_card hsub
      rwa [Nat.card_Icc, Nat.add_sub_cancel] at hle
    have hlt := hsane.size
    rw [htinode, hinsert, hcard, hsane.tinode]
    exact Nat.mod_eq_of_lt (by omega)
  have hsmall : ino < 65536 := by
    have hlt := hsane.size
    have hle := hino.2
    omega
  have hpos : ino ≠ 0 := by
    have hone := hino.1
    omega
  rcases hcases with ⟨_, hninode, hlow | hhigh⟩ | ⟨hsome, hroom, hninode, hinode⟩
  · obtain ⟨hlow, hinode⟩ := hlow
    -- the entries are where they were
    have hzero : ∀ i, (v.ifree ino).fs.sInode i = 0 ↔ v.fs.sInode i = 0 := by
      intro i
      rw [hinode]
      by_cases hi : i = 0
      · rw [hi, update_self]
        omega
      · rw [update_of_ne hi]
    have hentry : ∀ j, (v.ifree ino).Entry j ↔ v.Entry j := by
      intro j
      unfold Entry
      rw [hninode]
      simp only [ne_eq, hzero]
    have hother : ∀ j, j ≠ 0 → (v.ifree ino).fs.sInode j = v.fs.sInode j := by
      intro j hj
      rw [hinode, update_of_ne hj]
    have hfirst : (v.ifree ino).fs.sInode 0 = ino := by rw [hinode, update_self]
    have hnew : ∀ j, v.Entry j → v.fs.sInode j ≠ ino := fun j hj heq =>
      hnot (heq ▸ hsane.entries j hj)
    refine ⟨⟨hsize ▸ hsane.size, hninode ▸ hsane.ninode, ?_, ?_, ?_, hcount⟩, ?_⟩
    · rw [hfirst]
      exact hsmall
    · intro j hj
      rw [hiff]
      by_cases hj0 : j = 0
      · rw [hj0, hfirst]
        exact .inr rfl
      · rw [hother j hj0]
        exact .inl (hsane.entries j ((hentry j).mp hj))
    · intro i j hi hj heq
      have hi := (hentry i).mp hi
      have hj := (hentry j).mp hj
      by_cases hi0 : i = 0
      · by_cases hj0 : j = 0
        · rw [hi0, hj0]
        · rw [hi0, hfirst, hother j hj0] at heq
          exact absurd heq.symm (hnew j hj)
      · by_cases hj0 : j = 0
        · rw [hj0, hfirst, hother i hi0] at heq
          exact absurd heq (hnew i hi)
        · rw [hother i hi0, hother j hj0] at heq
          exact hsane.distinct i j hi hj heq
    · intro x hx
      rw [hfirst]
      rcases (hiff x).mp hx with hfree | rfl
      · rcases hcovers x hfree with ⟨j, hj, hat⟩ | hle
        · by_cases hj0 : j = 0
          · rw [hj0] at hat
            exact .inr (by omega)
          · exact .inl ⟨j, (hentry j).mpr hj, (hother j hj0).trans hat⟩
        · exact .inr (by omega)
      · exact .inr (le_refl _)
  · obtain ⟨hhigh, hinode⟩ := hhigh
    have hentry : ∀ j, (v.ifree ino).Entry j ↔ v.Entry j := by
      intro j
      unfold Entry
      rw [hninode, hinode]
    refine ⟨⟨hsize ▸ hsane.size, hninode ▸ hsane.ninode, ?_, ?_, ?_, hcount⟩, ?_⟩
    · rw [hinode]
      exact hsane.start
    · intro j hj
      rw [hiff, hinode]
      exact .inl (hsane.entries j ((hentry j).mp hj))
    · intro i j hi hj heq
      rw [hinode] at heq
      exact hsane.distinct i j ((hentry i).mp hi) ((hentry j).mp hj) heq
    · intro x hx
      rw [hinode]
      rcases (hiff x).mp hx with hfree | rfl
      · rcases hcovers x hfree with ⟨j, hj, hat⟩ | hle
        · exact .inl ⟨j, (hentry j).mpr hj, (congrFun hinode j).trans hat⟩
        · exact .inr hle
      · exact .inr hhigh
  · -- the inode is put on top of the cache
    have htop : (v.ifree ino).fs.sInode v.fs.sNinode = ino := by
      rw [hinode, update_self]
    have hother : ∀ j, j < v.fs.sNinode → (v.ifree ino).fs.sInode j = v.fs.sInode j := by
      intro j hj
      rw [hinode, update_of_ne (by omega)]
    have hentry : ∀ j, (v.ifree ino).Entry j ↔ v.Entry j ∨ j = v.fs.sNinode := by
      intro j
      unfold Entry
      constructor
      · rintro ⟨hlt, hnonzero⟩
        by_cases hj : j = v.fs.sNinode
        · exact .inr hj
        · refine .inl ⟨by omega, fun i hle hi => ?_⟩
          rw [← hother i hi]
          exact hnonzero i hle (by omega)
      · rintro (⟨hlt, hnonzero⟩ | rfl)
        · refine ⟨by omega, fun i hle hi => ?_⟩
          by_cases heq : i = v.fs.sNinode
          · rw [heq, htop]
            exact hpos
          · rw [hother i (by omega)]
            exact hnonzero i hle (by omega)
        · refine ⟨by omega, fun i hle hi => ?_⟩
          have heq : i = v.fs.sNinode := by omega
          rw [heq, htop]
          exact hpos
    have hnew : ∀ j, v.Entry j → v.fs.sInode j ≠ ino := fun j hj heq =>
      hnot (heq ▸ hsane.entries j hj)
    refine ⟨⟨hsize ▸ hsane.size, ?_, ?_, ?_, ?_, hcount⟩, ?_⟩
    · omega
    · rw [hother 0 hsome]
      exact hsane.start
    · intro j hj
      rw [hiff]
      rcases (hentry j).mp hj with hj | rfl
      · rw [hother j hj.1]
        exact .inl (hsane.entries j hj)
      · exact .inr htop
    · intro i j hi hj heq
      rcases (hentry i).mp hi with hi | rfl
      · rcases (hentry j).mp hj with hj | rfl
        · rw [hother i hi.1, hother j hj.1] at heq
          exact hsane.distinct i j hi hj heq
        · rw [hother i hi.1, htop] at heq
          exact absurd heq (hnew i hi)
      · rcases (hentry j).mp hj with hj | rfl
        · rw [htop, hother j hj.1] at heq
          exact absurd heq.symm (hnew j hj)
        · rfl
    · intro x hx
      rw [hother 0 hsome]
      rcases (hiff x).mp hx with hfree | rfl
      · rcases hcovers x hfree with ⟨j, hj, hat⟩ | hle
        · exact .inl ⟨j, (hentry j).mpr (.inl hj), (hother j hj.1).trans hat⟩
        · exact .inr hle
      · exact .inl ⟨v.fs.sNinode, (hentry _).mpr (.inr rfl), htop⟩

end Ifree

/-!
## Runs
-/

/-- Every call of a sequence does what it should, up to the first that does not. -/
def RunSound : Volume → List InodeOp → Prop
  | _, [] => True
  | v, op :: ops => v.Sound op ∧ ∀ o v', v.exec op = some (o, v') → RunSound v' ops

def RunMeets : Volume → List InodeOp → Prop
  | _, [] => True
  | v, op :: ops => v.Meets op ∧ ∀ o v', v.exec op = some (o, v') → RunMeets v' ops

theorem Consistent.sound_iff {v : Volume} (hv : v.Consistent) (op : InodeOp) :
    v.Sound op ↔ v.Meets op := by
  cases op with
  | ialloc a env => exact hv.ialloc a env
  | ifree ino =>
    refine iff_of_true ?_ trivial
    refine ⟨_, _, rfl, ?_, trivial⟩
    by_cases hino : v.IsInode ino
    · rw [if_pos hino]
      by_cases hmode : v.mode ino = 0
      · rw [ifree_of_free hmode]
        exact hv
      · exact hv.ifree hino hmode
    · rw [if_neg hino]
      exact hv

/-- From a consistent superblock, every call of a sequence keeps it consistent, allocates a
free inode, and reports that none is left only when none is free, if and only if every
call meets the condition. -/
theorem run_sound_iff {v : Volume} (hv : v.Consistent) (ops : List InodeOp) :
    v.RunSound ops ↔ v.RunMeets ops := by
  induction ops generalizing v with
  | nil => exact Iff.rfl
  | cons op ops ih =>
    constructor
    · rintro ⟨hsound, hrest⟩
      refine ⟨(hv.sound_iff op).mp hsound, fun o v' hexec => ?_⟩
      exact (ih ((sound_of hexec).mp hsound).1).mp (hrest o v' hexec)
    · rintro ⟨hmeets, hrest⟩
      have hsound := (hv.sound_iff op).mpr hmeets
      refine ⟨hsound, fun o v' hexec => ?_⟩
      exact (ih ((sound_of hexec).mp hsound).1).mpr (hrest o v' hexec)

/-!
## The last inode of a block
-/

def full : Volume where
  vfsInoshift := 3
  eight := by decide
  fs := { sIsize := 4, sNinode := 0, sInode := fun _ => 16, sTinode := 0 }
  inodes := fun _ =>
    { iMode := 0x81a4, iNlink := 1, iUid := 0, iGid := 0, iSize := 0, iAddr := [], iRdev := 0
      vType := .vreg, vRdev := 0 }

def file : Attr where
  mode := 0x81a4
  nlink := 1
  rdev := 0
  uid := 0
  gid := 0
  typed := by decide

def quiet : IallocEnv where
  igetError := fun _ => none
  readError := fun _ => false

theorem full_consistent : full.Consistent := by
  have hmode : ∀ x, full.mode x ≠ 0 := fun _ => (by decide : (0x81a4 : Nat) ≠ 0)
  have hfree : ∀ x, ¬ full.IsFree x := fun x hx => hmode x hx.2
  have hentry : ∀ j, ¬ full.Entry j := fun j hj => absurd hj.1 (Nat.not_lt_zero j)
  refine ⟨?_, fun x hx => absurd hx (hfree x)⟩
  exact {
    size := by decide
    ninode := by decide
    start := by decide
    entries := fun j hj => absurd hj (hentry j)
    distinct := fun i j hi _ => absurd hi (hentry i)
    tinode := by decide }

theorem run_sound_iff_full :
    full.RunSound [.ifree 3, .ialloc file quiet] ↔ full.RunMeets [.ifree 3, .ialloc file quiet] :=
  run_sound_iff full_consistent _

/-- The last inode of the first block is freed: the scan starts behind it. -/
theorem last_inode_lost : ¬ ∀ v : Volume, v.Consistent → ∀ ops, v.RunSound ops := by
  intro hall
  obtain ⟨_, hrest⟩ := hall full full_consistent [.ifree 8, .ialloc file quiet]
  obtain ⟨⟨o, v', hexec, _, hright⟩, _⟩ := hrest .freed (full.ifree 8) rfl
  have hfirst : ((full.ifree 8).exec (.ialloc file quiet)).map Prod.fst = some .noSpace := by
    decide
  rw [hexec] at hfirst
  cases hfirst
  exact hright 8 ⟨by decide, by decide⟩

end Volume

end S5
end Svr4
