import Svr4.Lib.ByteOrder

/-!
# XDR filters

The filters of `xdr.c` and `xdr_array.c` over any stream, for objects in memory: one
body encodes, decodes and frees.  The storage that is allocated and freed is kept in a log,
with the sizes, and a store outside of a block is noted.
-/

namespace Svr4
namespace Xdr

/-!
## Streams and storage
-/

abbrev Word := BitVec 32

def BYTES_PER_XDR_UNIT : Nat := 4

/-- `enum xdr_op` -/
inductive Op where
  | encode
  | decode
  | free
deriving DecidableEq

/-- `struct xdr_ops`: bytes may arrive also when there are not enough of them, but never
too many. -/
structure Ops (σ : Type) where
  getlong : σ → Option Word × σ
  putlong : σ → Word → Bool × σ
  getbytes : σ → Nat → List UInt8 × Bool × σ
  putbytes : σ → List UInt8 → Bool × σ
  getbytes_le : ∀ s n, (getbytes s n).1.length ≤ n
  getbytes_eq : ∀ s n, (getbytes s n).2.1 = true → (getbytes s n).1.length = n

inductive HeapEvent where
  /-- `mem_alloc` -/
  | alloc (id size : Nat)
  /-- `mem_free` -/
  | free (id size : Nat)
deriving DecidableEq

structure Heap where
  next : Nat
  /-- Something was stored outside of its block. -/
  outside : Bool
  log : List HeapEvent

/-- Which allocations succeed, and what is in new storage. -/
structure Env where
  grants : Nat → Nat → Bool
  garbage : Nat → Nat → UInt8

/-- A stream; `live` says that the object at hand lies in its memory. -/
structure Xdrs (σ : Type) where
  op : Op
  strm : σ
  live : Bool
  heap : Heap

structure Res (σ α : Type) where
  stat : Bool
  obj : α
  xdrs : Xdrs σ

/-- A block of bytes that a pointer leads to. -/
structure Block where
  id : Nat
  cap : Nat
  bytes : Nat → UInt8

section Storage

variable {σ : Type}

def Xdrs.touch (x : Xdrs σ) (within : Bool) : Xdrs σ :=
  { x with heap := { x.heap with outside := x.heap.outside || !within } }

def Xdrs.store (x : Xdrs σ) : Xdrs σ := x.touch x.live

def Xdrs.within (x : Xdrs σ) (live : Bool) : Xdrs σ := { x with live := live }

def Xdrs.memAlloc (env : Env) (x : Xdrs σ) (size : Nat) : Option Block × Xdrs σ :=
  if env.grants x.heap.next size then
    (some ⟨x.heap.next, size, env.garbage x.heap.next⟩,
      { x with
        heap :=
          { x.heap with
            next := x.heap.next + 1
            log := x.heap.log ++ [.alloc x.heap.next size] } })
  else (none, x)

def Xdrs.memFree (x : Xdrs σ) (id size : Nat) : Xdrs σ :=
  { x with heap := { x.heap with log := x.heap.log ++ [.free id size] } }

end Storage

/-!
## Types
-/

inductive Scalar where
  | int
  | uInt
  | long
  | uLong
  | short
  | uShort
  | char
  | uChar
  | bool
  | enum
deriving DecidableEq

def Scalar.width : Scalar → Nat
  | .short | .uShort => 16
  | .char | .uChar => 8
  | _ => 32

mutual

/-- A filter with the arguments that its caller passes. -/
inductive Filter where
  | scalar (k : Scalar)
  | opaqueData (cnt : Nat)
  | bytes (maxsize : Nat)
  | string (maxsize : Nat)
  | array (maxsize elsize : Nat) (elproc : Filter)
  | vector (nelem elemsize : Nat) (xdrElem : Filter)
  | union (choices : Choices)

/-- `struct xdr_discrim`, to the end and the default. -/
inductive Choices where
  | stop
  | dfault (proc : Filter)
  | choice (value : Word) (proc : Filter) (rest : Choices)

end

structure BytesObj where
  sp : Option Block
  size : Word

/-- The pointer to an array with its block, the elements, and the count. -/
structure ArrayObj (α : Type) where
  addr : Option (Nat × Nat)
  elems : Nat → α
  size : Word

mutual

/-- The object of a filter; a union has every arm, of which its discriminant chooses one. -/
def Filter.Obj : Filter → Type
  | .scalar k => BitVec k.width
  | .opaqueData _ => Nat → UInt8
  | .bytes _ => BytesObj
  | .string _ => Option Block
  | .array _ _ f => ArrayObj f.Obj
  | .vector _ _ f => Nat → f.Obj
  | .union cs => Word × cs.Obj

def Choices.Obj : Choices → Type
  | .stop => Unit
  | .dfault f => f.Obj
  | .choice _ f rest => f.Obj × rest.Obj

end

mutual

def Filter.zero : (f : Filter) → f.Obj
  | .scalar k => (0 : BitVec k.width)
  | .opaqueData _ => fun _ => 0
  | .bytes _ => BytesObj.mk none 0
  | .string _ => (none : Option Block)
  | .array _ _ f => ArrayObj.mk none (fun _ => f.zero) 0
  | .vector _ _ f => fun _ => f.zero
  | .union cs => ((0 : Word), cs.zero)

def Choices.zero : (cs : Choices) → cs.Obj
  | .stop => ()
  | .dfault f => f.zero
  | .choice _ f rest => (f.zero, rest.zero)

end

/-!
## Scalars
-/

section Filters

variable {σ : Type} (S : Ops σ) (env : Env)

def xdrLong (x : Xdrs σ) (lp : Word) : Res σ Word :=
  match x.op with
  | .encode => ⟨(S.putlong x.strm lp).1, lp, { x with strm := (S.putlong x.strm lp).2 }⟩
  | .decode =>
    match S.getlong x.strm with
    | (some l, s) => ⟨true, l, { x with strm := s }.store⟩
    | (none, s) => ⟨false, lp, { x with strm := s }⟩
  | .free => ⟨true, lp, x⟩

def xdrULong (x : Xdrs σ) (ulp : Word) : Res σ Word := xdrLong S x ulp

/-- `xdr_int`; an int has the size of a long. -/
def xdrInt (x : Xdrs σ) (ip : Word) : Res σ Word := xdrLong S x ip

def xdrUInt (x : Xdrs σ) (up : Word) : Res σ Word := xdrULong S x up

def xdrAs {w : Nat} (widen : BitVec w → Word) (narrow : Word → BitVec w) (x : Xdrs σ)
    (p : BitVec w) : Res σ (BitVec w) :=
  match x.op with
  | .encode =>
    ⟨(S.putlong x.strm (widen p)).1, p, { x with strm := (S.putlong x.strm (widen p)).2 }⟩
  | .decode =>
    match S.getlong x.strm with
    | (some l, s) => ⟨true, narrow l, { x with strm := s }.store⟩
    | (none, s) => ⟨false, p, { x with strm := s }⟩
  | .free => ⟨true, p, x⟩

def xdrShort (x : Xdrs σ) (sp : BitVec 16) : Res σ (BitVec 16) :=
  xdrAs S (BitVec.signExtend 32) (BitVec.setWidth 16) x sp

def xdrUShort (x : Xdrs σ) (usp : BitVec 16) : Res σ (BitVec 16) :=
  xdrAs S (BitVec.setWidth 32) (BitVec.setWidth 16) x usp

def xdrBool (x : Xdrs σ) (bp : Word) : Res σ Word :=
  xdrAs S (fun b => if b ≠ 0 then 1 else 0) (fun lb => if lb = 0 then 0 else 1) x bp

/-- `xdr_char`; a char has a sign. -/
def xdrChar (x : Xdrs σ) (cp : BitVec 8) : Res σ (BitVec 8) :=
  let r := xdrInt S (x.within true) (cp.signExtend 32)
  if r.stat then ⟨true, r.obj.setWidth 8, (r.xdrs.within x.live).store⟩
  else ⟨false, cp, r.xdrs.within x.live⟩

/-- `xdr_u_char`, whose argument is a pointer to char too. -/
def xdrUChar (x : Xdrs σ) (cp : BitVec 8) : Res σ (BitVec 8) :=
  let r := xdrUInt S (x.within true) (cp.signExtend 32)
  if r.stat then ⟨true, r.obj.setWidth 8, (r.xdrs.within x.live).store⟩
  else ⟨false, cp, r.xdrs.within x.live⟩

/-- `xdr_enum`; an enum has the size of a long. -/
def xdrEnum (x : Xdrs σ) (ep : Word) : Res σ Word := xdrLong S x ep

def Scalar.xdr : (k : Scalar) → Xdrs σ → BitVec k.width → Res σ (BitVec k.width)
  | .int => xdrInt S
  | .uInt => xdrUInt S
  | .long => xdrLong S
  | .uLong => xdrULong S
  | .short => xdrShort S
  | .uShort => xdrUShort S
  | .char => xdrChar S
  | .uChar => xdrUChar S
  | .bool => xdrBool S
  | .enum => xdrEnum S

/-!
## Bytes
-/

def roundup (cnt : Nat) : Nat :=
  if cnt % BYTES_PER_XDR_UNIT > 0 then BYTES_PER_XDR_UNIT - cnt % BYTES_PER_XDR_UNIT else 0

/-- `xdr_opaque`, with the size of the memory that its pointer leads to. -/
def xdrOpaque (x : Xdrs σ) (cp : Nat → UInt8) (cap cnt : Nat) : Res σ (Nat → UInt8) :=
  if cnt = 0 then ⟨true, cp, x⟩
  else
    let rndup := roundup cnt
    match x.op with
    | .decode =>
      let got := S.getbytes x.strm cnt
      let cp := fun i => (got.1[i]?).getD (cp i)
      let x := { x with strm := got.2.2 }.touch (decide (got.1.length ≤ cap))
      if got.2.1 = false then ⟨false, cp, x⟩
      else if rndup = 0 then ⟨true, cp, x⟩
      else
        let crud := S.getbytes got.2.2 rndup
        ⟨crud.2.1, cp, { x with strm := crud.2.2 }⟩
    | .encode =>
      let put := S.putbytes x.strm ((List.range cnt).map cp)
      if put.1 = false then ⟨false, cp, { x with strm := put.2 }⟩
      else if rndup = 0 then ⟨true, cp, { x with strm := put.2 }⟩
      else
        let zero := S.putbytes put.2 (List.replicate rndup 0)
        ⟨zero.1, cp, { x with strm := zero.2 }⟩
    | .free => ⟨true, cp, x⟩

/-- `xdr_opaque` on a block. -/
def xdrBlock (x : Xdrs σ) (b : Block) (cnt : Nat) : Res σ Block :=
  let r := xdrOpaque S x b.bytes b.cap cnt
  ⟨r.stat, { b with bytes := r.obj }, r.xdrs⟩

def Block.null : Block := ⟨0, 0, fun _ => 0⟩

/-- `xdr_bytes` behind the count. -/
def bytesData (x : Xdrs σ) (o : BytesObj) (maxsize : Nat) : Res σ BytesObj :=
  let nodesize := o.size.toNat
  if nodesize > maxsize ∧ x.op ≠ .free then ⟨false, o, x⟩
  else
    match x.op with
    | .decode =>
      if nodesize = 0 then ⟨true, o, x⟩
      else
        let (sp, y) :=
          match o.sp with
          | some b => (some b, x)
          | none => x.store.memAlloc env nodesize
        match sp with
        | none => ⟨false, o, y⟩
        | some b =>
          let q := xdrBlock S y b nodesize
          ⟨q.stat, { o with sp := some q.obj }, q.xdrs⟩
    | .encode =>
      let q := xdrBlock S x (o.sp.getD .null) nodesize
      ⟨q.stat, o, q.xdrs⟩
    | .free =>
      match o.sp with
      | some b => ⟨true, { o with sp := none }, (x.memFree b.id nodesize).store⟩
      | none => ⟨true, o, x⟩

def xdrBytes (x : Xdrs σ) (o : BytesObj) (maxsize : Nat) : Res σ BytesObj :=
  let r := xdrUInt S x o.size
  if r.stat = false then ⟨false, { o with size := r.obj }, r.xdrs⟩
  else bytesData S env r.xdrs { o with size := r.obj } maxsize

def strlen (b : Block) : Nat :=
  ((List.range b.cap).find? fun i => decide (b.bytes i = 0)).getD b.cap

/-- `xdr_string` behind the size. -/
def stringData (x : Xdrs σ) (cpp : Option Block) (size : Word) (maxsize : Nat) :
    Res σ (Option Block) :=
  if size.toNat > maxsize then ⟨false, cpp, x⟩
  else
    let nodesize := (size + 1).toNat
    match x.op with
    | .decode =>
      if nodesize = 0 then ⟨true, cpp, x⟩
      else
        let (sp, y) :=
          match cpp with
          | some b => (some b, x)
          | none => x.store.memAlloc env nodesize
        match sp with
        | none => ⟨false, cpp, y⟩
        | some b =>
          let b := { b with bytes := Function.update b.bytes size.toNat 0 }
          let q := xdrBlock S (y.touch (decide (size.toNat < b.cap))) b size.toNat
          ⟨q.stat, some q.obj, q.xdrs⟩
    | .encode =>
      let q := xdrBlock S x (cpp.getD .null) size.toNat
      ⟨q.stat, cpp, q.xdrs⟩
    | .free => ⟨true, none, (x.memFree (cpp.getD .null).id nodesize).store⟩

def xdrString (x : Xdrs σ) (cpp : Option Block) (maxsize : Nat) : Res σ (Option Block) :=
  if x.op = .free ∧ cpp.isNone then ⟨true, cpp, x⟩
  else
    let size := if x.op = .decode then 0 else BitVec.ofNat 32 (strlen (cpp.getD .null))
    let r := xdrUInt S (x.within true) size
    if r.stat = false then ⟨false, cpp, r.xdrs.within x.live⟩
    else stringData S env (r.xdrs.within x.live) cpp r.obj maxsize

/-!
## Arrays and unions
-/

variable {α : Type}

/-- The loop of `xdr_array` and `xdr_vector`; an element may lie outside of the memory
of the array. -/
def elements (elproc : Xdrs σ → α → Res σ α) (inside : Nat → Bool) :
    Nat → Nat → Xdrs σ → (Nat → α) → Res σ (Nat → α)
  | 0, _, x, elems => ⟨true, elems, x⟩
  | n + 1, i, x, elems =>
    let r := elproc (x.within (inside i)) (elems i)
    let elems := Function.update elems i r.obj
    if r.stat then elements elproc inside n (i + 1) (r.xdrs.within x.live) elems
    else ⟨false, elems, r.xdrs.within x.live⟩

def inBlock (elsize cap : Nat) (i : Nat) : Bool := decide ((i + 1) * elsize ≤ cap)

/-- The elements of an array in its block, which may need freeing. -/
def arrayElems (elproc : Xdrs σ → α → Res σ α) (x : Xdrs σ) (o : ArrayObj α) (id cap elsize : Nat)
    (elems : Nat → α) : Res σ (ArrayObj α) :=
  let q := elements elproc (inBlock elsize cap) o.size.toNat 0 x elems
  if x.op = .free then
    ⟨q.stat, { o with addr := none, elems := q.obj },
      (q.xdrs.memFree id (o.size.toNat * elsize % 2 ^ 32)).store⟩
  else ⟨q.stat, { o with addr := some (id, cap), elems := q.obj }, q.xdrs⟩

/-- `xdr_array` behind the count; `zero` is an element that is all zero. -/
def arrayData (elproc : Xdrs σ → α → Res σ α) (zero : α) (x : Xdrs σ) (o : ArrayObj α)
    (maxsize elsize : Nat) : Res σ (ArrayObj α) :=
  let c := o.size.toNat
  if c > maxsize ∧ x.op ≠ .free then ⟨false, o, x⟩
  else
    let nodesize := c * elsize % 2 ^ 32
    match o.addr, x.op with
    | some (id, cap), _ => arrayElems elproc x o id cap elsize o.elems
    | none, .decode =>
      if c = 0 then ⟨true, o, x⟩
      else
        match x.store.memAlloc env nodesize with
        | (none, y) => ⟨false, o, y⟩
        | (some b, y) => arrayElems elproc y o b.id b.cap elsize fun _ => zero
    | none, .free => ⟨true, o, x⟩
    | none, .encode =>
      let q := elements elproc (inBlock elsize 0) c 0 x o.elems
      ⟨q.stat, { o with elems := q.obj }, q.xdrs⟩

def xdrArray (elproc : Xdrs σ → α → Res σ α) (zero : α) (x : Xdrs σ) (o : ArrayObj α)
    (maxsize elsize : Nat) : Res σ (ArrayObj α) :=
  let r := xdrUInt S x o.size
  if r.stat = false then ⟨false, { o with size := r.obj }, r.xdrs⟩
  else arrayData env elproc zero r.xdrs { o with size := r.obj } maxsize elsize

def xdrVector (xdrElem : Xdrs σ → α → Res σ α) (x : Xdrs σ) (elems : Nat → α) (nelem : Nat) :
    Res σ (Nat → α) :=
  elements xdrElem (fun _ => x.live) nelem 0 x elems

/-- `xdr_union`; the search of the choices is given. -/
def xdrUnion (search : Word → Xdrs σ → α → Res σ α) (x : Xdrs σ) (o : Word × α) :
    Res σ (Word × α) :=
  let r := xdrEnum S x o.1
  if r.stat = false then ⟨false, (r.obj, o.2), r.xdrs⟩
  else
    let q := search r.obj r.xdrs o.2
    ⟨q.stat, (r.obj, q.obj), q.xdrs⟩

mutual

def Filter.xdr : (f : Filter) → Xdrs σ → f.Obj → Res σ f.Obj
  | .scalar k, x, o => k.xdr S x o
  | .opaqueData cnt, x, o => xdrOpaque S x o (if x.live then cnt else 0) cnt
  | .bytes maxsize, x, o => xdrBytes S env x o maxsize
  | .string maxsize, x, o => xdrString S env x o maxsize
  | .array maxsize elsize f, x, o => xdrArray S env f.xdr f.zero x o maxsize elsize
  | .vector nelem _ f, x, o => xdrVector f.xdr x o nelem
  | .union cs, x, o => xdrUnion S cs.xdr x o

/-- The search of `xdr_union`. -/
def Choices.xdr : (cs : Choices) → Word → Xdrs σ → cs.Obj → Res σ cs.Obj
  | .stop, _, x, o => ⟨false, o, x⟩
  | .dfault f, _, x, o => f.xdr x o
  | .choice value f rest, dscm, x, (o, os) =>
    if value = dscm then
      let r := f.xdr x o
      ⟨r.stat, (r.obj, os), r.xdrs⟩
    else
      let r := rest.xdr dscm x os
      ⟨r.stat, (o, r.obj), r.xdrs⟩

end

end Filters

/-!
## The stream in memory
-/

/-- The private fields of a stream in memory; `x_handy` is an int. -/
structure Xdrmem where
  xHandy : Int
  xPrivate : Nat
  mem : ByteOrder.Mem

def xdrmemOps : Ops Xdrmem where
  getlong s :=
    let handy := (s.xHandy - 4).bmod (2 ^ 32)
    if handy < 0 then (none, { s with xHandy := handy })
    else
      (some (BitVec.ofNat 32 (ByteOrder.load s.mem .big 4 s.xPrivate)),
        { s with xHandy := handy, xPrivate := s.xPrivate + 4 })
  putlong s l :=
    let handy := (s.xHandy - 4).bmod (2 ^ 32)
    if handy < 0 then (false, { s with xHandy := handy })
    else
      (true,
        { s with
          xHandy := handy
          xPrivate := s.xPrivate + 4
          mem := ByteOrder.store s.mem .big 4 s.xPrivate l.toNat })
  getbytes s len :=
    let handy := (s.xHandy - len).bmod (2 ^ 32)
    if handy < 0 then ([], false, { s with xHandy := handy })
    else
      ((List.range len).map fun i => s.mem (s.xPrivate + i), true,
        { s with xHandy := handy, xPrivate := s.xPrivate + len })
  putbytes s bytes :=
    let handy := (s.xHandy - bytes.length).bmod (2 ^ 32)
    if handy < 0 then (false, { s with xHandy := handy })
    else
      (true,
        { s with
          xHandy := handy
          xPrivate := s.xPrivate + bytes.length
          mem := fun a =>
            if s.xPrivate ≤ a then (bytes[a - s.xPrivate]?).getD (s.mem a) else s.mem a })
  getbytes_le s n := by
    dsimp only
    split <;> simp
  getbytes_eq s n := by
    dsimp only
    split <;> simp

end Xdr
end Svr4
