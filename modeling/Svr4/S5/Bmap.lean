import Mathlib.Tactic.Ring
import Svr4.Lib.IndexTree
import Svr4.S5.BlockCalls
import Svr4.S5.Inodes

/-!
# The blocks of a file

`bmap` of `fs/s5/s5bmap.c`, for a file without a block list, finds the block of
a file by way of its indirect blocks, and allocates what is missing for a write.  What a
block holds is seen as pointers; what it holds when it is free is seen in `BlockSys`.
-/

namespace Svr4
namespace S5

open Function IndexTree

/-- Direct blocks have no levels below them, indirect ones one, two and three. -/
def addrLevels (k : Nat) : Nat := k - (NADDR - 4)

inductive Errno where
  | enospc
  | eio
  | efault
  | efbig
deriving DecidableEq

/--
What fails in a call.  An indirect block is known by the number of levels below its
entries, of which `bmap` goes through one each.
-/
structure Faults where
  /-- the link block that `blkalloc` needs for a block of the level cannot be read -/
  link : Nat → Bool
  read : Nat → Bool
  /-- the indirect block cannot be read again, to record a new block -/
  reread : Nat → Bool
  fault : Bool
  incore : Bool

/-- A file: its inode, the contents of its indirect blocks, and the free blocks. -/
structure File where
  sys : BlockSys
  words : Nat → Nat → Nat
  iAddr : Nat → Nat

variable {bn lbn nb : Nat} {r : Nat × Nat}

namespace File

def block (f : File) (p : List Nat) : Nat := IndexTree.block f.iAddr f.words p

/-- The block is put into the inode or into an indirect block. -/
def put (f : File) (nb : Nat) (q : List Nat) : File :=
  { f with
    iAddr := (IndexTree.put f.iAddr f.words nb q).1
    words := (IndexTree.put f.iAddr f.words nb q).2 }

section Bmap

variable (nshift : Nat) (e : Faults) (allocOnly : Bool)

/-- A new block; an indirect one is cleared, and for data the page is brought in. -/
def grab (f : File) (d : Nat) : Except Errno Nat × File :=
  match f.sys.allocate (!e.link d) with
  | (sys, some (.allocated nb)) =>
    if 0 < d then
      (.ok nb, { f with sys := sys, words := update f.words nb fun _ => 0 })
    else if allocOnly = false ∧ e.fault = true then
      (.error .efault, { f with sys := sys.release nb e.incore })
    else (.ok nb, { f with sys := sys })
  | (sys, _) => (.error .enospc, { f with sys := sys })

/-- A missing block: it is allocated and recorded, in the inode or a block read again. -/
def extend (d : Nat) (q : List Nat) (next : Nat → File → Except Errno (Option Nat) × File)
    (f : File) : Except Errno (Option Nat) × File :=
  match f.grab e allocOnly d with
  | (.error err, f) => (.error err, f)
  | (.ok nb, f) =>
    if q.length ≠ 1 ∧ e.reread d = true then (.error .eio, f) else next nb (f.put nb q)

/-- `(bn >> sh) & nmask` -/
def index (bn d : Nat) : Nat := (bn >>> (nshift * d)) &&& (2 ^ nshift - 1)

/-- Fetch through the indirect blocks; `inb` is the block at the place `p`. -/
def fetch (write : Bool) (bn : Nat) :
    Nat → List Nat → Nat → File → Except Errno (Option Nat) × File
  | 0, _, inb, f => (.ok (some inb), f)
  | d + 1, p, inb, f =>
    if e.read d = true then (.error .eio, f)
    else
      let q := index nshift bn d :: p
      if f.words inb (index nshift bn d) ≠ 0 then
        fetch write bn d q (f.words inb (index nshift bn d)) f
      else if write = false then (.ok none, f)
      else extend e allocOnly d q (fetch write bn d q) f

/-- How many levels of indirection there are, and the number among their blocks. -/
def indirection : Nat → Nat → Nat → Option (Nat × Nat)
  | 0, _, _ => none
  | j + 1, sh, bn =>
    if bn < 2 ^ (sh + nshift) then some (NADDR - (j + 1), bn)
    else indirection j (sh + nshift) (bn - 2 ^ (sh + nshift))

/-- The address in the inode under which a block is, and its number there. -/
def slot (lbn : Nat) : Option (Nat × Nat) :=
  if lbn < NADDR - 3 then some (lbn, lbn) else indirection nshift 3 0 (lbn - (NADDR - 3))

/-- `bmap` from `lbmap` on; there is no block number for a hole. -/
def bmap (write : Bool) (lbn : Nat) (f : File) : Except Errno (Option Nat) × File :=
  match slot nshift lbn with
  | none => (.error .efbig, f)
  | some (k, bn) =>
    if f.iAddr k ≠ 0 then fetch nshift e allocOnly write bn (addrLevels k) [k] (f.iAddr k) f
    else if write = false then (.ok none, f)
    else
      extend e allocOnly (addrLevels k) [k] (fetch nshift e allocOnly write bn (addrLevels k) [k]) f

end Bmap

/-!
## Places
-/

section Places

variable (nshift : Nat)

abbrev At : Nat → List Nat → Prop := Place NADDR addrLevels (2 ^ nshift)

/-- The place of a block, from the one with `d` levels below it. -/
def below (bn d : Nat) (p : List Nat) : List Nat := (List.range d).map (index nshift bn) ++ p

def route (lbn : Nat) : Option (List Nat) :=
  (slot nshift lbn).map fun r => below nshift r.2 (addrLevels r.1) [r.1]

variable {nshift : Nat}

theorem below_succ (bn d : Nat) (p : List Nat) :
    below nshift bn (d + 1) p = below nshift bn d (index nshift bn d :: p) := by
  unfold below
  rw [List.range_succ, List.map_append, List.append_assoc]
  rfl

theorem index_lt (bn d : Nat) : index nshift bn d < 2 ^ nshift := by
  unfold index
  rw [Nat.and_two_pow_sub_one_eq_mod]
  exact Nat.mod_lt _ (Nat.two_pow_pos nshift)

theorem below_at {d : Nat} {p : List Nat} (hp : At nshift d p) :
    At nshift 0 (below nshift bn d p) := by
  induction d generalizing p with
  | zero => exact hp
  | succ d ih =>
    rw [below_succ]
    exact ih (Place.entry hp (index_lt bn d))

theorem suffix_below (nshift bn d : Nat) (p : List Nat) : p <:+ below nshift bn d p :=
  List.suffix_append _ _

theorem indirection_lt {j sh : Nat} (h : indirection nshift j sh bn = some r)
    (hj : j < NADDR) : r.1 < NADDR := by
  induction j generalizing sh bn with
  | zero => cases h
  | succ j ih =>
    unfold indirection at h
    split at h
    · cases h
      exact Nat.sub_lt (Nat.zero_lt_of_lt hj) (Nat.succ_pos j)
    · exact ih h (Nat.lt_of_succ_lt hj)

theorem slot_lt (h : slot nshift lbn = some r) : r.1 < NADDR := by
  unfold slot at h
  split at h
  · rename_i hlt
    cases h
    exact Nat.lt_of_lt_of_le hlt (Nat.sub_le _ _)
  · exact indirection_lt h (by decide)

theorem slot_at (h : slot nshift lbn = some r) : At nshift (addrLevels r.1) [r.1] :=
  Place.slot (slot_lt h)

end Places

/-!
## Sound files
-/

/-- The blocks of a file are held, and each is in one place. -/
structure Sound (nshift : Nat) (f : File) : Prop where
  start : f.sys.Start
  held : ∀ d p, At nshift d p → f.block p ≠ 0 → f.block p ∈ f.sys.held
  once : ∀ d d' p q, At nshift d p → At nshift d' q → f.block p = f.block q → f.block p ≠ 0 → p = q

structure Grows (nshift : Nat) (t : List Nat) (f f' : File) : Prop where
  sound : Sound nshift f'
  kept : ∀ d p, At nshift d p → f.block p ≠ 0 → f'.block p = f.block p
  others : ∀ d p, At nshift d p → ¬ p <:+ t → f'.block p = f.block p
  less : ∀ b, b ∈ f'.sys.freeBlocks → b ∈ f.sys.freeBlocks
  found : ∀ b, b ∈ f.sys.freeBlocks → b ∈ f'.sys.freeBlocks ∨ ∃ d p, At nshift d p ∧ f'.block p = b

def Loses (nshift : Nat) (f f' : File) : Prop :=
  ∃ b, f.sys.Listed b ∧ ¬ f'.sys.Listed b ∧ ∀ d p, At nshift d p → f'.block p ≠ b

variable {nshift : Nat} {e : Faults} {allocOnly : Bool} {f f' f'' : File} {t q : List Nat} {d : Nat}

namespace Grows

theorem refl (hf : Sound nshift f) : Grows nshift t f f :=
  ⟨hf, fun _ _ _ _ => rfl, fun _ _ _ _ => rfl, fun _ => id, fun _ => Or.inl⟩

theorem trans (hf : Sound nshift f) (h : Grows nshift t f f') (h' : Grows nshift t f' f'') :
    Grows nshift t f f'' where
  sound := h'.sound
  kept d p hp hb := by
    have hb' := h.kept d p hp hb
    exact (h'.kept d p hp (hb' ▸ hb)).trans hb'
  others d p hp ht := (h'.others d p hp ht).trans (h.others d p hp ht)
  less b hb := h.less b (h'.less b hb)
  found b hb := by
    rcases h.found b hb with hfree | ⟨d, p, hp, hblock⟩
    · exact h'.found b hfree
    · have hne := BlockSys.ne_zero_of_free hf.start hb
      exact Or.inr ⟨d, p, hp, (h'.kept d p hp (hblock ▸ hne)).trans hblock⟩

theorem loses (hf : Sound nshift f) (h : Grows nshift t f f') (h' : Loses nshift f' f'') :
    Loses nshift f f'' := by
  rcases h' with ⟨b, hlisted, hrest⟩
  rw [BlockSys.listed_iff h.sound.start] at hlisted
  exact ⟨b, (BlockSys.listed_iff hf.start).mpr (h.less b hlisted), hrest⟩

end Grows

theorem grows_of_sys (hf : Sound nshift f) {sys : BlockSys} (hs : sys.Start)
    (hheld : sys.held = f.sys.held) (hfree : sys.freeBlocks = f.sys.freeBlocks) :
    Grows nshift t f { f with sys := sys } where
  sound := ⟨hs, fun d p hp hb => hheld ▸ hf.held d p hp hb, hf.once⟩
  kept _ _ _ _ := rfl
  others _ _ _ _ := rfl
  less b hb := hfree ▸ hb
  found b hb := Or.inl (hfree ▸ hb)

theorem block_of_free (hf : Sound nshift f) (hnb : nb ∈ f.sys.freeBlocks) {p : List Nat}
    (hp : At nshift d p) :
    f.block p ≠ nb ∧ IndexTree.block f.iAddr (update f.words nb fun _ => 0) p = f.block p := by
  have hnew : ∀ d p, At nshift d p → f.block p ≠ nb := by
    intro d p hp heq
    have hin := hf.held d p hp (heq ▸ BlockSys.ne_zero_of_free hf.start hnb)
    exact ((BlockSys.mem_freeBlocks_iff hf.start).mp hnb).2.2 (heq ▸ hin)
  exact ⟨hnew d p hp, block_congr hp fun d q hq _ => update_of_ne (hnew _ _ hq) _ _⟩

theorem grows_of_put (hf : Sound nshift f) {sys : BlockSys} {words : Nat → Nat → Nat}
    (hs : sys.Start) (hheld : sys.held = insert nb f.sys.held)
    (hfree : sys.freeBlocks = f.sys.freeBlocks.erase nb) (hnb : nb ∈ f.sys.freeBlocks)
    (hwords : words = if 0 < d then update f.words nb (fun _ => 0) else f.words)
    (hq : At nshift d q) (hhole : f.block q = 0)
    (hparent : ∀ k p, q = k :: p → p ≠ [] → f.block p ≠ 0) (ht : q <:+ t) :
    Grows nshift t f (File.put { f with sys := sys, words := words } nb q) ∧
      (File.put { f with sys := sys, words := words } nb q).block q = nb ∧
      ∀ e p, At nshift e p → p ≠ q →
        (File.put { f with sys := sys, words := words } nb q).block p = f.block p := by
  have hnew : ∀ d p, At nshift d p → f.block p ≠ nb := fun d p hp => (block_of_free hf hnb hp).1
  have hsame : ∀ d p, At nshift d p → IndexTree.block f.iAddr words p = f.block p := by
    intro d p hp
    rw [hwords]
    split
    · exact (block_of_free hf hnb hp).2
    · rfl
  have hput : ∀ e p, At nshift e p → (File.put { f with sys := sys, words := words } nb q).block p =
        if p = q then nb else f.block p := by
    intro e p hp
    rw [← hsame e p hp]
    refine block_put hq ((hsame d q hq).trans hhole)
      (fun d p hp => (hsame d p hp).symm ▸ hnew d p hp) (fun hd => ?_) (fun k p hkp hp => ?_) hp
    · show words nb = _
      rw [hwords, if_pos hd, update_self]
    · subst hkp
      cases hq with
      | slot hk => exact absurd rfl hp
      | entry hq hk =>
        rw [hsame _ _ hq]
        refine ⟨hparent k p rfl hp, fun d p' hp' heq => ?_⟩
        rw [hsame _ _ hp'] at heq
        exact hf.once _ _ _ _ hp' hq heq (heq ▸ hparent k p rfl hp)
  refine ⟨⟨⟨hs, fun e p hp hb => ?_, fun e e' p p' hp hp' heq hb => ?_⟩, fun e p hp hb => ?_,
    fun e p hp hpt => ?_, fun b hb => ?_, fun b hb => ?_⟩, ?_, fun e p hp hne => ?_⟩
  · show _ ∈ sys.held
    rw [hheld]
    rw [hput e p hp] at hb ⊢
    split at hb
    · rw [if_pos ‹_›]
      exact Finset.mem_insert_self _ _
    · rw [if_neg ‹_›]
      exact Finset.mem_insert_of_mem (hf.held e p hp hb)
  · rw [hput e p hp] at heq hb
    rw [hput e' p' hp'] at heq
    split at heq
    · split at heq
      · exact ‹p = q›.trans ‹p' = q›.symm
      · exact absurd heq.symm (hnew e' p' hp')
    · split at heq
      · exact absurd heq (hnew e p hp)
      · rw [if_neg ‹_›] at hb
        exact hf.once e e' p p' hp hp' heq hb
  · rw [hput e p hp, if_neg]
    rintro rfl
    exact hb hhole
  · rw [hput e p hp, if_neg]
    rintro rfl
    exact hpt ht
  · exact Finset.mem_of_mem_erase (hfree ▸ hb)
  · by_cases hbn : b = nb
    · exact Or.inr ⟨d, q, hq, by rw [hput d q hq, if_pos rfl, hbn]⟩
    · exact Or.inl (hfree ▸ Finset.mem_erase.mpr ⟨hbn, hb⟩)
  · rw [hput d q hq, if_pos rfl]
  · rw [hput e p hp, if_neg hne]

end File
end S5
end Svr4
