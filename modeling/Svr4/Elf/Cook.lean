import Svr4.Elf.Model

/-!
# Cooked files

`_elf_cook` and `elf_getdata` of `libelf`: the headers and the data of sections are
translated within the image of the file, or into allocated memory when the file is frozen or a
table does not lie at an aligned offset.  Every access to memory is checked against the image and
the allocated blocks.
-/

namespace Svr4
namespace Elf

open ByteOrder

/-!
## Descriptors
-/

/-- `ed_status` -/
inductive Status where
  | fresh
  | cooked
  | frozen
deriving DecidableEq

/-- `Dnode`; a null buffer is none. -/
structure Dnode where
  dBuf : Option Nat
  dType : ElfType
  dSize : Nat
  dAlign : Nat
  dVersion : Nat
  dbOff : Nat
  dbFsz : Nat
  dbShsz : Nat
  dbBuf : Option Nat
  /-- `DBF_READY` -/
  ready : Bool

/-- `Elf_Scn` -/
structure Scn where
  sShdr : Nat
  sIndex : Nat
  sHdnode : Option Dnode

/-- `Elf`, the descriptor. -/
structure Descriptor where
  /-- The size of the archive that the file is a member of. -/
  edParent : Option Nat
  edMemoff : Nat
  edStatus : Status
  edIdent : Nat
  edFsz : Nat
  edEncode : Nat
  edVersion : Nat
  /-- `ed_kind` is `ELF_K_ELF`. -/
  edKindElf : Bool
  /-- `EDF_READ` -/
  edRead : Bool
  edEhdr : Option Nat
  edPhdr : Option Nat
  edPhdrsz : Nat
  edShdr : Option Nat
  /-- `EDF_EHALLOC` -/
  ehalloc : Bool
  /-- `EDF_PHALLOC` -/
  phalloc : Bool
  /-- `EDF_SHALLOC` -/
  shalloc : Bool
  /-- The list from `ed_hdscn` to `ed_tlscn`. -/
  edHdscn : List Scn

/-- The host, the image of the file, and the requests for memory that are met. -/
structure World where
  host : Order
  edImage : Nat
  edImagesz : Nat
  enough : Nat → Bool

structure State where
  mem : Mem
  /-- Where the next block of memory comes from. -/
  brk : Nat
  blocks : List (Nat × Nat)
  /-- There was an access outside of the image and the blocks. -/
  fault : Bool
  elf : Descriptor

/-!
## Memory
-/

def State.Inside (w : World) (s : State) (a n : Nat) : Prop :=
  n = 0 ∨ (w.edImage ≤ a ∧ a + n ≤ w.edImage + w.edImagesz) ∨
    ∃ b ∈ s.blocks, b.1 ≤ a ∧ a + n ≤ b.1 + b.2

instance (w : World) (s : State) (a n : Nat) : Decidable (s.Inside w a n) := by
  unfold State.Inside
  infer_instance

def touch (w : World) (a n : Nat) (s : State) : State :=
  { s with fault := s.fault || !decide (s.Inside w a n) }

def malloc (w : World) (n : Nat) (s : State) : State × Option Nat :=
  if w.enough n then
    ({ s with brk := s.brk + max n 1, blocks := (s.brk, n) :: s.blocks }, some s.brk)
  else (s, none)

def free (a : Nat) (s : State) : State :=
  { s with blocks := s.blocks.filter fun b => b.1 ≠ a }

def step (w : World) (s : State) (mv : Move) : State :=
  { touch w mv.dst mv.size (touch w mv.src mv.size s) with mem := mv.run s.mem }

/-- The index of a type in `Elf_Type`. -/
def ElfType.code (t : ElfType) : Nat := elfTypes.idxOf t

/-- `elf32_xlatetom`, with the size that it sets. -/
def elf32_xlatetom (w : World) (dst src : ElfData) (s : State) : State × Option Nat :=
  match xlate (elfVersionEncode w.host) w.host (some dst) (some src) s.elf.edEncode false with
  | .error _ => (s, none)
  | .ok o => (o.moves.foldl (step w) s, some o.dSize)

def elf32_fsize (t : ElfType) (count ver : Nat) : Nat :=
  if ver = 0 ∨ ver - 1 ≥ EV_CURRENT then 0 else t.filesz * count

/-- `mtype` and `_elf32_mtype` -/
def elf32_mtype (shType : Nat) : ElfType :=
  match shType with
  | 2 => .sym
  | 4 => .rela
  | 5 => .word
  | 6 => .dyn
  | 9 => .rel
  | 11 => .sym
  | _ => .byte

def SHT_NOBITS : Nat := 8

/-- `_elf_vm` on a file whose pages can be read. -/
def elf_vm (edFsz base sz : Nat) : Bool := !(decide (edFsz ≤ base) || decide (edFsz - base < sz))

/-- The alignments of `elf_getdata`. -/
def ElfType.align (t : ElfType) : Nat :=
  match t with
  | .byte => 1
  | .half => 2
  | _ => 4

/-!
## Headers
-/

def slide (w : World) (s : State) : State × Bool :=
  match s.elf.edParent with
  | none => (s, true)
  | some parFsz =>
    let src := s.elf.edIdent
    let sz := (src - w.edImage) % 4
    if sz = 0 then (s, true)
    else
      let dst := src - sz
      let memoff := s.elf.edMemoff - sz
      let moved := { s with elf := { s.elf with edIdent := dst, edMemoff := memoff } }
      if elf_vm parFsz memoff (sz + s.elf.edFsz) then
        (step w moved (.copy dst src s.elf.edFsz), true)
      else (moved, false)

def State.half (w : World) (s : State) (a : Nat) : Nat := load s.mem w.host 2 a

def State.word (w : World) (s : State) (a : Nat) : Nat := load s.mem w.host 4 a

/-- A table goes to its place in the image, which is then cooked, or into a block. -/
def settle (w : World) (inplace : Bool) (a n : Nat) (s : State) : Option (State × Nat) :=
  if inplace then some ({ s with elf := { s.elf with edStatus := .cooked } }, a)
  else
    match malloc w n s with
    | (t, some b) => some (t, b)
    | (_, none) => none

/-- `ehdr` behind the label `bad`. -/
def badEhdr (s : State) : State :=
  let t := if s.elf.ehalloc then free (s.elf.edEhdr.getD 0) s else s
  { t with elf := { t.elf with ehalloc := false, edEhdr := none } }

/-- `ehdr` with the place of the header set. -/
def readEhdr (w : World) (fsz eh : Nat) (t : State) : State × Bool :=
  if elf_vm t.elf.edFsz 0 fsz then
    match elf32_xlatetom w ⟨eh, ElfType.ehdr.code, ElfType.ehdr.memsz, EV_CURRENT⟩
        ⟨t.elf.edIdent, ElfType.ehdr.code, fsz, t.elf.edVersion⟩ t with
    | (u, none) => (badEhdr u, false)
    | (u, some _) =>
      -- e_version
      let v := touch w (eh + 20) 4 u
      if v.word w (eh + 20) ≠ v.elf.edVersion then (badEhdr v, false) else (v, true)
  else (badEhdr t, false)

def ehdr (w : World) (inplace : Bool) (s : State) : State × Bool :=
  let fsz := elf32_fsize .ehdr 1 s.elf.edVersion
  if fsz > s.elf.edFsz then (s, false)
  else
    let reuse := inplace && decide (fsz ≥ ElfType.ehdr.memsz)
    match settle w reuse s.elf.edIdent ElfType.ehdr.memsz s with
    | none => ({ s with elf := { s.elf with edEhdr := none } }, false)
    | some (t, eh) =>
      readEhdr w fsz eh { t with
        elf := { t.elf with edEhdr := some eh, ehalloc := t.elf.ehalloc || !reuse } }

/-- `phdr` when there is an error. -/
def badPhdr (s : State) : State :=
  let t := if s.elf.phalloc then free (s.elf.edPhdr.getD 0) s else s
  { t with elf := { t.elf with phalloc := false, edPhdr := none } }

/-- `phdr` with the place of the table set. -/
def readPhdr (w : World) (phoff fsz msz ph : Nat) (t : State) : State × Bool :=
  if elf_vm t.elf.edFsz phoff fsz then
    match elf32_xlatetom w ⟨ph, ElfType.phdr.code, msz, EV_CURRENT⟩
        ⟨t.elf.edIdent + phoff, ElfType.phdr.code, fsz, t.elf.edVersion⟩ t with
    | (u, none) => (badPhdr u, false)
    | (u, some _) => ({ u with elf := { u.elf with edPhdrsz := msz } }, true)
  else (badPhdr t, false)

/-- `phdr`, which reads `e_phoff`, `e_phentsize` and `e_phnum`. -/
def phdr (w : World) (inplace : Bool) (s : State) : State × Bool :=
  let eh := s.elf.edEhdr.getD 0
  let s := touch w (eh + 44) 2 s
  let phnum := s.half w (eh + 44)
  if phnum = 0 then (s, true)
  else
    let fsz := elf32_fsize .phdr 1 s.elf.edVersion
    let s := touch w (eh + 42) 2 s
    if s.half w (eh + 42) ≠ fsz then (s, false)
    else
      let fsz := fsz * phnum
      let msz := ElfType.phdr.memsz * phnum
      let s := touch w (eh + 28) 4 s
      let phoff := s.word w (eh + 28)
      if phoff = 0 ∨ s.elf.edFsz ≤ phoff ∨ s.elf.edFsz - phoff < fsz then (s, false)
      else
        let reuse := inplace && decide (fsz ≥ msz) && decide (phoff % 4 = 0)
        match settle w reuse (s.elf.edIdent + phoff) msz s with
        | none => ({ s with elf := { s.elf with edPhdr := none } }, false)
        | some (t, ph) =>
          readPhdr w phoff fsz msz ph { t with
            elf := { t.elf with edPhdr := some ph, phalloc := t.elf.phalloc || !reuse } }

/-- The size of an `Elf_Scn`. -/
def scnSize : Nat := 104

/-- The accesses to a section header of `_elf_cookscn`. -/
def touchShdr (w : World) (sh : Nat) (s : State) : State :=
  touch w (sh + 32) 4 (touch w (sh + 20) 4 (touch w (sh + 16) 4 (touch w (sh + 4) 4 s)))

/-- The section with a section header; section 0 has no data. -/
def scnInit (w : World) (s : State) (index : Nat) : Scn :=
  let sh := s.elf.edShdr.getD 0 + index * ElfType.shdr.memsz
  let shType := s.word w (sh + 4)
  let shOffset := s.word w (sh + 16)
  let shSize := s.word w (sh + 20)
  let t := elf32_mtype shType
  let d : Dnode :=
    { dBuf := none
      dType := t
      dSize := shSize / elf32_fsize t 1 s.elf.edVersion * t.memsz
      dAlign := s.word w (sh + 32)
      dVersion := s.elf.edVersion
      dbOff := shOffset
      dbFsz := if shType ≠ SHT_NOBITS then shSize else 0
      dbShsz := shSize
      dbBuf := none
      ready := false }
  ⟨sh, index, if index = 0 then none else some d⟩

def elf_cookscn (w : World) (cnt : Nat) (s : State) : State × Bool :=
  if cnt = 0 then (s, true)
  else if w.enough (cnt * scnSize) then
    let t := (List.range cnt).foldl
      (fun s i => touchShdr w (s.elf.edShdr.getD 0 + i * ElfType.shdr.memsz) s) s
    ({ t with elf := { t.elf with edHdscn := (List.range cnt).map (scnInit w t) } }, true)
  else (s, false)

/-- `shdr` when there is an error. -/
def badShdr (s : State) : State :=
  let t := if s.elf.shalloc then free (s.elf.edShdr.getD 0) s else s
  { t with elf := { t.elf with shalloc := false, edShdr := none } }

/-- `shdr` with the place of the table set; `e_shnum` is read again. -/
def readShdr (w : World) (eh shoff fsz msz sh : Nat) (t : State) : State × Bool :=
  if elf_vm t.elf.edFsz shoff fsz then
    match elf32_xlatetom w ⟨sh, ElfType.shdr.code, msz, EV_CURRENT⟩
        ⟨t.elf.edIdent + shoff, ElfType.shdr.code, fsz, t.elf.edVersion⟩ t with
    | (u, none) => (badShdr u, false)
    | (u, some _) =>
      let v := touch w (eh + 48) 2 u
      match elf_cookscn w (v.half w (eh + 48)) v with
      | (x, true) => (x, true)
      | (x, false) => (badShdr x, false)
  else (badShdr t, false)

/-- `shdr`, which reads `e_shoff`, `e_shentsize` and `e_shnum`. -/
def shdr (w : World) (inplace : Bool) (s : State) : State × Bool :=
  let eh := s.elf.edEhdr.getD 0
  let s := touch w (eh + 48) 2 s
  let shnum := s.half w (eh + 48)
  if shnum = 0 then (s, true)
  else
    let fsz := elf32_fsize .shdr 1 s.elf.edVersion
    let s := touch w (eh + 46) 2 s
    if s.half w (eh + 46) ≠ fsz then (s, false)
    else
      let fsz := fsz * shnum
      let msz := shnum * ElfType.shdr.memsz
      let s := touch w (eh + 32) 4 s
      let shoff := s.word w (eh + 32)
      if shoff = 0 ∨ s.elf.edFsz ≤ shoff ∨ s.elf.edFsz - shoff < fsz then (s, false)
      else
        let reuse := inplace && decide (fsz ≥ msz) && decide (shoff % 4 = 0)
        match settle w reuse (s.elf.edIdent + shoff) msz s with
        | none => ({ s with elf := { s.elf with edShdr := none } }, false)
        | some (t, sh) =>
          readShdr w eh shoff fsz msz sh { t with
            elf := { t.elf with edShdr := some sh, shalloc := t.elf.shalloc || !reuse } }

/-- The three headers of `_elf_cook`, which are given up from the last to the first. -/
def cookHeaders (w : World) (inplace : Bool) (s : State) : State × Bool :=
  let eh := ehdr w inplace s
  if eh.2 = false then (eh.1, false)
  else
    let ph := phdr w inplace eh.1
    if ph.2 = false then (badEhdr ph.1, false)
    else
      let sh := shdr w inplace ph.1
      if sh.2 = false then (badEhdr (badPhdr sh.1), false)
      else (sh.1, true)

def elf_cook (w : World) (s : State) : State × Bool :=
  if s.elf.edStatus = .cooked ∨ s.elf.edRead = false ∨ s.elf.edKindElf = false then (s, true)
  else
    let slid := if s.elf.edStatus = .fresh then slide w s else (s, true)
    if slid.2 = false then (slid.1, false)
    else cookHeaders w (decide (slid.1.elf.edStatus ≠ .frozen)) slid.1

/-!
## Data
-/

def setDnode (index : Nat) (d : Dnode) (s : State) : State :=
  { s with
    elf := { s.elf with
      edHdscn := s.elf.edHdscn.modify index fun scn => { scn with sHdnode := some d } } }

/-- The destination of the data, within the image when it is cooked. -/
def placeData (w : World) (d : Dnode) (src : ElfData) (s : State) : Option (State × Dnode) :=
  if s.elf.edStatus = .cooked ∧ d.dSize ≤ src.dSize ∧ d.dbOff % d.dType.align = 0 then
    some (s, { d with dBuf := some src.dBuf })
  else if s.elf.edStatus = .fresh then none
  else
    match malloc w d.dSize s with
    | (t, some a) => some (t, { d with dBuf := some a, dbBuf := some a })
    | (_, none) => none

/-- `elf_getdata` for a region of the file. -/
def readData (w : World) (index sh : Nat) (d : Dnode) (s : State) : State × Bool :=
  -- sh_entsize
  let s := touch w (sh + 36) 4 s
  let sz := s.word w (sh + 36)
  if d.dType ≠ .byte ∧ sz > 1 ∧ sz ≠ elf32_fsize d.dType 1 s.elf.edVersion then
    (setDnode index d s, false)
  else if d.dbOff ≥ 2 ^ 31 ∨ d.dbOff ≥ s.elf.edFsz ∨ s.elf.edFsz - d.dbOff < d.dbFsz then
    (setDnode index d s, false)
  else if elf_vm s.elf.edFsz d.dbOff d.dbFsz = false then (setDnode index d s, false)
  else
    let src : ElfData := ⟨s.elf.edIdent + d.dbOff, d.dType.code, d.dbFsz, s.elf.edVersion⟩
    match placeData w d src s with
    | none => (setDnode index d s, false)
    | some (t, d) =>
      match elf32_xlatetom w ⟨d.dBuf.getD 0, d.dType.code, d.dSize, d.dVersion⟩ src t with
      | (u, none) => (setDnode index d u, false)
      | (u, some size) => (setDnode index { d with dSize := size, ready := true } u, true)

/-- `elf_getdata` for the first buffer of a section; it returns whether there is one. -/
def elf_getdata (w : World) (index : Nat) (s : State) : State × Bool :=
  match s.elf.edHdscn[index]? with
  | none => (s, false)
  | some scn =>
    match scn.sHdnode with
    | none => (s, false)
    | some d =>
      if d.ready then (s, true)
      else
        let d := { d with dVersion := EV_CURRENT }
        if d.dbOff = 0 ∨ d.dbFsz = 0 then (setDnode index { d with ready := true } s, true)
        else readData w index scn.sShdr d s

end Elf
end Svr4
