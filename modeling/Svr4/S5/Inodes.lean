import Mathlib.Data.Nat.Bitwise

/-!
# Inodes of an S5 file system

`ialloc` takes inodes from a cache of `NICINOD` entries in the superblock.  When
the cache is used up, a scan of the i-list fills it again, from the inode that
`s_inode[0]` names.  `ifree` puts an inode into the cache while there is room,
and otherwise remembers it only when it is the smallest.
-/

namespace Svr4
namespace S5

open Function

/-!
## Superblock and inodes
-/

def NICINOD : Nat := 100

def NADDR : Nat := 13

inductive VType where
  | vnon | vfifo | vchr | vdir | vxnam | vblk | vreg | vlnk
deriving DecidableEq

def iftovt (mode : Nat) : VType :=
  match (mode &&& 0xF000) >>> 12 with
  | 1 => .vfifo
  | 2 => .vchr
  | 4 => .vdir
  | 5 => .vxnam
  | 6 => .vblk
  | 8 => .vreg
  | 10 => .vlnk
  | _ => .vnon

/-- An inode; its mode is zero when it is not allocated. -/
structure Inode where
  iMode : Nat
  iNlink : Nat
  iUid : Nat
  iGid : Nat
  iSize : Nat
  iAddr : List Int
  iRdev : Nat
  vType : VType
  vRdev : Nat

/-- The superblock, as far as inodes are concerned. -/
structure Filsys where
  sIsize : Nat
  sNinode : Nat
  sInode : Nat → Nat
  sTinode : Nat

/-- A mounted file system; a block holds `2 ^ vfs_inoshift` inodes, which for the
smallest block are eight. -/
structure Volume where
  vfsInoshift : Nat
  eight : 3 ≤ vfsInoshift
  fs : Filsys
  inodes : Nat → Inode

structure Attr where
  mode : Nat
  nlink : Nat
  rdev : Nat
  uid : Nat
  gid : Nat
  typed : mode ≠ 0

/-- What may fail in `ialloc`: `iget` of an inode, the read of a block. -/
structure IallocEnv where
  igetError : Nat → Option Nat
  readError : Nat → Bool

inductive Outcome where
  | allocated (ino : Nat)
  | failed (error : Nat)
  | noSpace
  | freed
deriving DecidableEq

def NDEVFORMAT : Int := 1

def NODEV : Int := -1

/-- `cmpdev`: the old format of a device number. -/
def cmpdev (x : Nat) : Int :=
  if 0x7f < x >>> 18 ∨ 0xff < x &&& 0x3ffff then NODEV
  else ((x >>> 18) <<< 8 ||| (x &&& 0xff) : Nat)

def getemajor (x : Nat) : Int := if 0xff < x >>> 18 then NODEV else (x >>> 18 : Nat)

def geteminor (x : Nat) : Int := (x &&& 0x3ffff : Nat)

namespace Volume

def vfsInopb (v : Volume) : Nat := 2 ^ v.vfsInoshift

def fsITOD (v : Volume) (x : Nat) : Nat := (x + (2 * v.vfsInopb - 1)) >>> v.vfsInoshift

def fsINOS (v : Volume) (x : Nat) : Nat := ((x >>> v.vfsInoshift) <<< v.vfsInoshift) + 1

end Volume

/-!
## Taking an inode from the cache
-/

def Inode.assign (ip : Inode) (a : Attr) : Inode :=
  let zero := List.replicate NADDR 0
  let ip :=
    { ip with
      vType := iftovt a.mode
      iMode := a.mode
      iNlink := a.nlink
      iUid := a.uid
      iGid := a.gid
      iSize := 0
      iAddr := zero }
  let ip :=
    match iftovt a.mode with
    | .vchr | .vblk =>
      { ip with
        iRdev := a.rdev
        iAddr := [cmpdev a.rdev, NDEVFORMAT, getemajor a.rdev, geteminor a.rdev] ++ zero.drop 4 }
    | .vxnam => { ip with iRdev := a.rdev, iAddr := (a.rdev : Int) :: zero.drop 1 }
    | _ => ip
  { ip with vRdev := ip.iRdev }

namespace Volume

def setNinode (v : Volume) (n : Nat) : Volume := { v with fs := { v.fs with sNinode := n } }

def allocate (v : Volume) (ino : Nat) (a : Attr) : Volume :=
  { v with
    fs := { v.fs with sTinode := v.fs.sTinode - 1 }
    inodes := update v.inodes ino ((v.inodes ino).assign a) }

inductive Taken where
  | done (o : Outcome) (v : Volume)
  | exhausted (v : Volume)

/-- `ialloc` while there are inodes in the cache, of which there are `n`. -/
def take (a : Attr) (env : IallocEnv) : Nat → Volume → Taken
  | 0, v => .exhausted v
  | n + 1, v =>
    if v.fs.sInode n = 0 then .exhausted (v.setNinode n)
    else
      match env.igetError (v.fs.sInode n) with
      | some error => .done (.failed error) (v.setNinode n)
      | none =>
        if (v.inodes (v.fs.sInode n)).iMode = 0 then
          .done (.allocated (v.fs.sInode n)) ((v.setNinode n).allocate (v.fs.sInode n) a)
        -- the inode was allocated after all
        else take a env n (v.setNinode n)

end Volume

/-!
## Filling the cache
-/

def Filsys.stash (fs : Filsys) (ino : Nat) : Filsys :=
  { fs with
    sNinode := fs.sNinode - 1
    sInode := update fs.sInode (fs.sNinode - 1) ino }

/-- The inodes of a block, of which `n` are left. -/
def scanBlock (mode : Nat → Nat) : Nat → Nat → Filsys → Nat × Filsys
  | 0, ino, fs => (ino, fs)
  | n + 1, ino, fs =>
    if fs.sNinode ≤ 0 then (ino, fs)
    else scanBlock mode n ((ino + 1) % 65536) (if mode ino = 0 then fs.stash ino else fs)

/-- The blocks of the i-list, of which `n` are left. -/
def scan (mode : Nat → Nat) (inopb : Nat) (readError : Nat → Bool) :
    Nat → Nat → Nat → Filsys → Filsys
  | 0, _, _, fs => fs
  | n + 1, adr, ino, fs =>
    if readError adr then scan mode inopb readError n (adr + 1) ((ino + inopb) % 65536) fs
    else
      let r := scanBlock mode inopb ino fs
      if r.2.sNinode ≤ 0 then r.2 else scan mode inopb readError n (adr + 1) r.1 r.2

def Filsys.mark (fs : Filsys) : Filsys :=
  if 0 < fs.sNinode then
    { fs with sInode := update (update fs.sInode (fs.sNinode - 1) 0) 0 0 }
  else fs

namespace Volume

def mode (v : Volume) (ino : Nat) : Nat := (v.inodes ino).iMode

def rescan (v : Volume) (env : IallocEnv) : Filsys :=
  let ino := v.fsINOS (v.fs.sInode 0) % 65536
  scan v.mode v.vfsInopb env.readError (v.fs.sIsize - v.fsITOD ino) (v.fsITOD ino) ino
    { v.fs with sNinode := NICINOD }

def outOfInodes (v : Volume) : Volume :=
  { v with fs := { v.fs with sNinode := 0, sTinode := 0 } }

/-- `ialloc`, with at most `fuel` visits of `loop1`. -/
def iallocLoop (a : Attr) (env : IallocEnv) : Nat → Volume → Option (Outcome × Volume)
  | 0, _ => none
  | fuel + 1, v =>
    match take a env v.fs.sNinode v with
    | .done o v => some (o, v)
    | .exhausted v =>
      if 0 < v.fs.sTinode then
        let fs := (v.rescan env).mark
        if fs.sNinode ≠ NICINOD then
          iallocLoop a env fuel { v with fs := { fs with sNinode := NICINOD } }
        else some (.noSpace, ({ v with fs := fs } : Volume).outOfInodes)
      else some (.noSpace, v.outOfInodes)

/-- `ialloc`: the cache is filled at most once. -/
def ialloc (v : Volume) (a : Attr) (env : IallocEnv) : Option (Outcome × Volume) :=
  iallocLoop a env 2 v

def ifree (v : Volume) (ino : Nat) : Volume :=
  if (v.inodes ino).iMode = 0 then v
  else
    let fs := { v.fs with sTinode := (v.fs.sTinode + 1) % 65536 }
    { v with
      inodes := update v.inodes ino { v.inodes ino with iMode := 0 }
      fs :=
        if fs.sNinode ≥ NICINOD ∨ fs.sNinode = 0 then
          if ino < fs.sInode 0 then { fs with sInode := update fs.sInode 0 ino }
          else fs
        else
          { fs with
            sInode := update fs.sInode fs.sNinode ino
            sNinode := fs.sNinode + 1 } }

end Volume

/-!
## Runs
-/

inductive InodeOp where
  | ialloc (a : Attr) (env : IallocEnv)
  | ifree (ino : Nat)

namespace Volume

def ninodes (v : Volume) : Nat := (v.fs.sIsize - 2) * v.vfsInopb

def IsInode (v : Volume) (ino : Nat) : Prop := 1 ≤ ino ∧ ino ≤ v.ninodes

instance (v : Volume) (ino : Nat) : Decidable (v.IsInode ino) :=
  inferInstanceAs (Decidable (_ ∧ _))

/-- One call; an inode that is freed is one of the file system. -/
def exec (v : Volume) : InodeOp → Option (Outcome × Volume)
  | .ialloc a env => v.ialloc a env
  | .ifree ino => some (.freed, if v.IsInode ino then v.ifree ino else v)

end Volume

end S5
end Svr4
