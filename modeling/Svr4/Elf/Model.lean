import Svr4.Lib.ByteOrder

/-!
# Translation of ELF data

`xlate` of `libelf` with the functions of its table, as the bytes they move: every
structure is carried member by member between the layout of the file and the layout of
memory.  The host's own byte order is a parameter.
-/

namespace Svr4
namespace Elf

open ByteOrder

def EV_CURRENT : Nat := 1

def ELFDATANUM : Nat := 3

def dataOrder (encode : Nat) : Order := if encode = 0 then .little else .big

/-- The objects of the macros `tof` and `tom`. -/
inductive Kind where
  | addr
  | byte
  | half
  | off
  | word
  /-- `e_ident` -/
  | ident
deriving DecidableEq

/-- `A_sizeof` and the like, which are the sizes of the members too. -/
def Kind.size : Kind → Nat
  | .addr => 4
  | .byte => 1
  | .half => 2
  | .off => 4
  | .word => 4
  | .ident => 16

def Kind.align : Kind → Nat
  | .addr => 4
  | .byte => 1
  | .half => 2
  | .off => 4
  | .word => 4
  | .ident => 1

inductive ElfType where
  | byte
  | addr
  | dyn
  | ehdr
  | half
  | off
  | phdr
  | rela
  | rel
  | shdr
  | sword
  | sym
  | word
deriving DecidableEq

/-- `ELF_T_BYTE` to `ELF_T_WORD` -/
def elfTypes : List ElfType :=
  [.byte, .addr, .dyn, .ehdr, .half, .off, .phdr, .rela, .rel, .shdr, .sword, .sym, .word]

/-!
## Layouts
-/

/-- The members, which `tof` takes in this order. -/
def ElfType.members : ElfType → List Kind
  | .byte => [.byte]
  | .addr => [.addr]
  -- d_tag, d_val
  | .dyn => [.word, .off]
  -- e_ident, e_type, e_machine, e_version, e_entry, e_phoff, e_shoff, e_flags, e_ehsize,
  -- e_phentsize, e_phnum, e_shentsize, e_shnum, e_shstrndx
  | .ehdr => [.ident, .half, .half, .word, .addr, .off, .off, .word, .half, .half, .half, .half,
      .half, .half]
  | .half => [.half]
  | .off => [.off]
  -- p_type, p_offset, p_vaddr, p_paddr, p_filesz, p_memsz, p_flags, p_align
  | .phdr => [.word, .off, .addr, .addr, .word, .word, .word, .word]
  -- r_offset, r_info, r_addend
  | .rela => [.addr, .word, .word]
  -- r_offset, r_info
  | .rel => [.addr, .word]
  -- sh_name, sh_type, sh_flags, sh_addr, sh_offset, sh_size, sh_link, sh_info, sh_addralign,
  -- sh_entsize
  | .shdr => [.word, .word, .word, .addr, .off, .word, .word, .word, .word, .word]
  | .sword => [.word]
  -- st_name, st_value, st_size, st_info, st_other, st_shndx
  | .sym => [.word, .addr, .word, .byte, .byte, .half]
  | .word => [.word]

def fileIndexes : Nat → List Kind → List Nat
  | _, [] => []
  | i, k :: ks => i :: fileIndexes (i + k.size) ks

def alignUp (i a : Nat) : Nat := (i + a - 1) / a * a

def memOffsets : Nat → List Kind → List Nat
  | _, [] => []
  | i, k :: ks => alignUp i k.align :: memOffsets (alignUp i k.align + k.size) ks

/-- `s_filesz` -/
def ElfType.filesz (t : ElfType) : Nat := (t.members.map Kind.size).sum

/-- `s_memsz` -/
def ElfType.memsz (t : ElfType) : Nat :=
  let stop := t.members.foldl (fun i k => alignUp i k.align + k.size) 0
  alignUp stop (t.members.foldl (fun a k => max a k.align) 1)

/-!
## Moves
-/

inductive Move where
  /-- A number is loaded in one order and stored in another. -/
  | number (dst src n : Nat) (put get : Order)
  /-- `memcpy` -/
  | copy (dst src n : Nat)

def Move.run (m : Mem) : Move → Mem
  | .number dst src n put get => store m put n dst (load m get n src)
  | .copy dst src n => shuffle id m dst src n

def Move.dst : Move → Nat
  | .number dst .. => dst
  | .copy dst .. => dst

def Move.src : Move → Nat
  | .number _ src .. => src
  | .copy _ src _ => src

def Move.size : Move → Nat
  | .number _ _ n _ _ => n
  | .copy _ _ n => n

/-- One of the macros `tof` and `tom`, or the copy of `e_ident`. -/
def Kind.move (k : Kind) (put get : Order) (dst src : Nat) : List Move :=
  match k with
  | .ident => if dst ≠ src then [.copy dst src k.size] else []
  | _ => [.number dst src k.size put get]

/-- The members of one element, from memory to the file. -/
def ElfType.tofElement (t : ElfType) (enc host : Order) (dst src : Nat) : List Move :=
  ((t.members.zip ((fileIndexes 0 t.members).zip (memOffsets 0 t.members))).map
    fun (k, index, offset) => k.move enc host (dst + index) (src + offset)).flatten

/-- From the file to memory; all but `dyn_11_tom` take the members in the other order. -/
def ElfType.tomElement (t : ElfType) (enc host : Order) (dst src : Nat) : List Move :=
  let moves := (t.members.zip ((fileIndexes 0 t.members).zip (memOffsets 0 t.members))).map
    fun (k, index, offset) => k.move host enc (dst + offset) (src + index)
  if t = .dyn then moves.flatten else moves.reverse.flatten

def byteTo (dst src cnt : Nat) : List Move := if dst ≠ src then [.copy dst src cnt] else []

def upward (f : Nat → Nat → List Move) (dsz ssz : Nat) : Nat → Nat → Nat → List Move
  | 0, _, _ => []
  | cnt + 1, dst, src => f dst src ++ upward f dsz ssz cnt (dst + dsz) (src + ssz)

/-- A loop over elements that goes down, from behind the last ones. -/
def downward (f : Nat → Nat → List Move) (dsz ssz : Nat) : Nat → Nat → Nat → List Move
  | 0, _, _ => []
  | cnt + 1, dst, src => f (dst - dsz) (src - ssz) ++ downward f dsz ssz cnt (dst - dsz) (src - ssz)

/-- `x_tof` -/
def ElfType.tof (t : ElfType) (enc host : Order) (dst src cnt : Nat) : List Move :=
  match t with
  | .byte => byteTo dst src cnt
  | _ => upward (t.tofElement enc host) t.filesz t.memsz cnt dst src

/-- `x_tom` -/
def ElfType.tom (t : ElfType) (enc host : Order) (dst src cnt : Nat) : List Move :=
  match t with
  | .byte => byteTo dst src cnt
  | .dyn => upward (t.tomElement enc host) t.memsz t.filesz cnt dst src
  | _ => downward (t.tomElement enc host) t.memsz t.filesz cnt (dst + cnt * t.memsz)
      (src + cnt * t.filesz)

/-!
## Translation
-/

structure ElfData where
  dBuf : Nat
  dType : Nat
  dSize : Nat
  dVersion : Nat

inductive Err where
  | null
  | EREQ_ENCODE
  | EREQ_VER
  | EREQ_TYPE
  | EREQ_DSZ

/-- The size and the type of the destination, and how its bytes come about. -/
structure Outcome where
  dSize : Nat
  dType : Nat
  moves : List Move

def Outcome.run (o : Outcome) (m : Mem) : Mem := o.moves.foldl Move.run m

/-- The function of the table `x32`. -/
def x32 (t : ElfType) (tof : Bool) (enc host : Order) : Nat → Nat → Nat → List Move :=
  if tof then t.tof enc host else t.tom enc host

def fmsize (t : ElfType) (tof : Bool) : Nat × Nat :=
  if tof then (t.filesz, t.memsz) else (t.memsz, t.filesz)

/-- `xlate`; `work` is `_elf_encode`. -/
def xlate (work : Nat) (host : Order) (dst src : Option ElfData) (encode : Nat)
    (tof : Bool) : Except Err Outcome :=
  match dst, src with
  | some dst, some src =>
    if encode = 0 ∨ encode - 1 ≥ ELFDATANUM - 1 then .error .EREQ_ENCODE
    else if dst.dVersion = 0 ∨ dst.dVersion - 1 ≥ EV_CURRENT ∨ src.dVersion = 0 ∨
        src.dVersion - 1 ≥ EV_CURRENT then .error .EREQ_VER
    else
      match elfTypes[src.dType]? with
      | none => .error .EREQ_TYPE
      | some t =>
        let (dsz, ssz) := fmsize t tof
        let cnt := src.dSize / ssz
        if dst.dSize < dsz * cnt then .error .EREQ_DSZ
        else if work = encode ∧ dsz = ssz then
          .ok ⟨src.dSize, src.dType,
            if src.dBuf ≠ dst.dBuf then [.copy dst.dBuf src.dBuf src.dSize] else []⟩
        else
          .ok ⟨dsz * cnt, src.dType,
            if cnt ≠ 0 then x32 t tof (dataOrder (encode - 1)) host dst.dBuf src.dBuf cnt
            else []⟩
  | _, _ => .error .null

/-- `elf_version` finds the encoding of the host, from a number in its memory. -/
def elfVersionEncode (host : Order) : Nat :=
  if elfTypes.any fun t => t.filesz ≠ t.memsz then 0
  else
    let u := store (fun _ => 0) host 4 0 0x10203
    if load u .little 4 0 = 0x10203 then 1
    else if load u .big 4 0 = 0x10203 then 2
    else 0

/-- `_elf_encode`, before or after `elf_version`. -/
def elfEncode (versioned : Bool) (host : Order) : Nat :=
  if versioned then elfVersionEncode host else 0

end Elf
end Svr4
