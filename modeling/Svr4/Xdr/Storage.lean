import Mathlib.Data.List.Perm.Basic
import Svr4.Xdr.RoundTrip

/-!
# Storage

What a decode allocates and a free pass releases, and what the wire has to hold for both to
agree.
-/

namespace Svr4
namespace Xdr

open Function List

/-!
## What is freed
-/

section Release

variable {α : Type}

/-- The elements give back their storage one after another, up to the first that fails. -/
def releases (release : α → Bool × List (Nat × Nat)) (elems : Nat → α) :
    Nat → Nat → Bool × List (Nat × Nat)
  | 0, _ => (true, [])
  | n + 1, i =>
    let r := release (elems i)
    if r.1 then
      let q := releases release elems n (i + 1)
      (q.1, r.2 ++ q.2)
    else r

end Release

mutual

/-- What the free pass comes to: its result, and the blocks with their sizes. -/
def Filter.release : (f : Filter) → f.Obj → Bool × List (Nat × Nat)
  | .scalar _, _ => (true, [])
  | .opaqueData _, _ => (true, [])
  | .bytes _, o => (true, (BytesObj.sp o).toList.map fun b => (b.id, (BytesObj.size o).toNat))
  | .string maxsize, o =>
    match (o : Option Block) with
    | none => (true, [])
    | some b =>
      let size := BitVec.ofNat 32 (strlen b)
      if size.toNat > maxsize then (false, []) else (true, [(b.id, (size + 1).toNat)])
  | .array _ elsize f, o =>
    match ArrayObj.addr o with
    | none => (true, [])
    | some a =>
      let c := (ArrayObj.size o).toNat
      let q := releases f.release (ArrayObj.elems o) c 0
      (q.1, q.2 ++ [(a.1, c * elsize % 2 ^ 32)])
  | .vector nelem _ f, o => releases f.release o nelem 0
  | .union cs, (dscm, un) => cs.release dscm un

def Choices.release : (cs : Choices) → Word → cs.Obj → Bool × List (Nat × Nat)
  | .stop, _, _ => (false, [])
  | .dfault f, _, o => f.release o
  | .choice value f rest, dscm, (o, os) =>
    if value = dscm then f.release o else rest.release dscm os

end

def freed (l : List (Nat × Nat)) : List HeapEvent := l.map fun a => .free a.1 a.2

def alloced (l : List (Nat × Nat)) : List HeapEvent := l.map fun a => .alloc a.1 a.2

section Frees

variable {σ α : Type} {S : Ops σ} {env : Env} {x : Xdrs σ}

/-- A free pass with its result and what it freed. -/
structure Frees (x : Xdrs σ) (r : Res σ α) (p : Bool × List (Nat × Nat)) : Prop where
  op : r.xdrs.op = .free
  stat : r.stat = p.1
  log : r.xdrs.heap.log = x.heap.log ++ freed p.2

section

variable (hop : x.op = .free)
include hop

theorem frees_scalar (k : Scalar) (o : BitVec k.width) :
    Frees x (k.xdr S x o) (true, []) := by
  have hlong : ∀ (x : Xdrs σ) (w : Word), x.op = .free → xdrLong S x w = ⟨true, w, x⟩ := by
    intro x w hop
    unfold xdrLong
    rw [hop]
  have has : ∀ {w : Nat} (widen : BitVec w → Word) (narrow : Word → BitVec w) (p : BitVec w),
      Frees x (xdrAs S widen narrow x p) (true, []) := by
    intro w widen narrow p
    unfold xdrAs
    rw [hop]
    exact ⟨hop, rfl, (append_nil _).symm⟩
  have hword : ∀ w, Frees x (xdrLong S x w) (true, []) := by
    intro w
    rw [hlong x w hop]
    exact ⟨hop, rfl, (append_nil _).symm⟩
  have hchar : ∀ v : BitVec 8, Frees x (xdrChar S x v) (true, []) := by
    intro v
    have hint : xdrInt S (x.within true) (v.signExtend 32) = _ := hlong _ _ hop
    unfold xdrChar
    rw [hint]
    exact ⟨hop, rfl, (append_nil _).symm⟩
  cases k with
  | short => exact has _ _ o
  | uShort => exact has _ _ o
  | bool =>
    have hbool : Frees x (xdrBool S x o) (true, []) := has _ _ o
    exact hbool
  | char => exact hchar o
  | uChar => exact hchar o
  | _ => exact hword o

theorem frees_opaque (cp : Nat → UInt8) (cap cnt : Nat) :
    Frees x (xdrOpaque S x cp cap cnt) (true, []) := by
  unfold xdrOpaque
  split
  · exact ⟨hop, rfl, (append_nil _).symm⟩
  · rw [hop]
    exact ⟨hop, rfl, (append_nil _).symm⟩

theorem frees_word (w : Word) : xdrUInt S x w = ⟨true, w, x⟩ := by
  unfold xdrUInt xdrULong xdrLong
  rw [hop]

theorem frees_bytes (o : BytesObj) (maxsize : Nat) :
    Frees x (xdrBytes S env x o maxsize) ((Filter.bytes maxsize).release o) := by
  have hmax : ¬ (o.size.toNat > maxsize ∧ x.op ≠ .free) := fun h => h.2 hop
  change Frees x _ (true, o.sp.toList.map fun b => (b.id, o.size.toNat))
  unfold xdrBytes
  rw [frees_word hop]
  unfold bytesData
  simp only [if_neg hmax]
  simp only [hop]
  cases o.sp with
  | none => exact ⟨hop, rfl, (append_nil _).symm⟩
  | some b => exact ⟨hop, rfl, rfl⟩

theorem frees_string (o : Option Block) (maxsize : Nat) :
    Frees x (xdrString S env x o maxsize) ((Filter.string maxsize).release o) := by
  unfold xdrString
  cases o with
  | none =>
    rw [if_pos ⟨hop, rfl⟩]
    exact ⟨hop, rfl, (append_nil _).symm⟩
  | some b =>
    have hnull : ¬ (x.op = .free ∧ (some b).isNone = true) := fun h => Bool.noConfusion h.2
    have hdecode : ¬ x.op = .decode := by
      rw [hop]
      exact Op.noConfusion
    have hsome : (some b).getD .null = b := rfl
    have hword : xdrUInt S (x.within true) (BitVec.ofNat 32 (strlen b)) = _ :=
      frees_word (x := x.within true) hop _
    rw [if_neg hnull]
    simp only [if_neg hdecode, hsome, hword]
    rw [if_neg Bool.noConfusion]
    have hop' : ((x.within true).within x.live).op = .free := hop
    unfold stringData
    rw [hop']
    change Frees x _ (if (BitVec.ofNat 32 (strlen b)).toNat > maxsize then (false, [])
      else (true, [(b.id, (BitVec.ofNat 32 (strlen b) + 1).toNat)]))
    split
    · exact ⟨hop, rfl, (append_nil _).symm⟩
    · exact ⟨hop, rfl, rfl⟩

end

theorem freed_append (l l' : List (Nat × Nat)) : freed (l ++ l') = freed l ++ freed l' :=
  map_append

variable {proc : Xdrs σ → α → Res σ α} {release : α → Bool × List (Nat × Nat)}

section

variable (hproc : ∀ (x : Xdrs σ) o, x.op = .free → Frees x (proc x o) (release o))
include hproc

theorem frees_elements {inside : Nat → Bool} :
    ∀ n i (x : Xdrs σ) elems, x.op = .free →
      Frees x (elements proc inside n i x elems) (releases release elems n i) := by
  intro n
  induction n with
  | zero => exact fun i x elems hop => ⟨hop, rfl, (append_nil _).symm⟩
  | succ n ih =>
    intro i x elems hop
    have hone := hproc (x.within (inside i)) (elems i) hop
    unfold elements releases
    simp only
    rw [← hone.stat]
    split
    · have hrest := ih (i + 1) ((proc (x.within (inside i)) (elems i)).xdrs.within x.live)
        (update elems i (proc (x.within (inside i)) (elems i)).obj) hone.op
      have hlater : ∀ n j (u : α), i < j →
          releases release (update elems i u) n j = releases release elems n j := by
        intro n
        induction n with
        | zero => exact fun _ _ _ => rfl
        | succ n ih =>
          intro j u hj
          unfold releases
          rw [update_of_ne (by omega), ih (j + 1) u (by omega)]
      rw [hlater n (i + 1) _ (Nat.lt_succ_self i)] at hrest
      refine ⟨hrest.op, hrest.stat, hrest.log.trans ?_⟩
      rw [freed_append, ← append_assoc]
      exact congrArg (· ++ _) hone.log
    · rename_i hfalse
      refine ⟨hone.op, ?_, hone.log⟩
      rw [← hone.stat]
      exact (Bool.eq_false_iff.mpr hfalse).symm

theorem frees_array {zero : α} (hop : x.op = .free)
    (o : ArrayObj α) (maxsize elsize : Nat) :
    Frees x (xdrArray S env proc zero x o maxsize elsize)
      (match o.addr with
      | none => (true, [])
      | some a =>
        let q := releases release o.elems o.size.toNat 0
        (q.1, q.2 ++ [(a.1, o.size.toNat * elsize % 2 ^ 32)])) := by
  have hmax : ¬ (o.size.toNat > maxsize ∧ x.op ≠ .free) := fun h => h.2 hop
  unfold xdrArray
  rw [frees_word hop]
  unfold arrayData
  simp only [if_neg hmax]
  cases o.addr with
  | none =>
    simp only [hop]
    exact ⟨hop, rfl, (append_nil _).symm⟩
  | some a =>
    have hrun : Frees x (elements proc (inBlock elsize a.2) o.size.toNat 0 x o.elems)
        (releases release o.elems o.size.toNat 0) :=
      frees_elements hproc o.size.toNat 0 x o.elems hop
    unfold arrayElems
    simp only [if_pos hop]
    refine ⟨hrun.op, hrun.stat, ?_⟩
    rw [freed_append, ← append_assoc]
    exact congrArg (· ++ _) hrun.log

end

mutual

theorem Filter.frees (S : Ops σ) (env : Env) : (f : Filter) → ∀ (x : Xdrs σ) (o : f.Obj),
    x.op = .free → Frees x (f.xdr S env x o) (f.release o)
  | .scalar k, x, o, hop => frees_scalar hop k o
  | .opaqueData cnt, x, o, hop => frees_opaque hop o _ cnt
  | .bytes maxsize, x, o, hop => frees_bytes hop o maxsize
  | .string maxsize, x, o, hop => frees_string hop o maxsize
  | .array maxsize elsize f, x, o, hop =>
    frees_array (fun x o hop => Filter.frees S env f x o hop) hop o maxsize elsize
  | .vector nelem _ f, x, o, hop =>
    frees_elements (fun x o hop => Filter.frees S env f x o hop) nelem 0 x o hop
  | .union cs, x, (dscm, un), hop => by
      have hword : xdrEnum S x dscm = ⟨true, dscm, x⟩ := frees_word hop dscm
      change Frees x (xdrUnion S (cs.xdr S env) x (dscm, un)) (cs.release dscm un)
      have harm := Choices.frees S env cs dscm x un hop
      unfold xdrUnion
      rw [hword]
      exact ⟨harm.op, harm.stat, harm.log⟩

theorem Choices.frees (S : Ops σ) (env : Env) : (cs : Choices) → ∀ (dscm : Word) (x : Xdrs σ)
    (o : cs.Obj), x.op = .free → Frees x (cs.xdr S env dscm x o) (cs.release dscm o)
  | .stop, _, x, _, hop => ⟨hop, rfl, (append_nil _).symm⟩
  | .dfault f, _, x, o, hop => Filter.frees S env f x o hop
  | .choice value f rest, dscm, x, (o, os), hop => by
      change Frees x _ (if value = dscm then f.release o else rest.release dscm os)
      by_cases heq : value = dscm
      · have hrun := Filter.frees S env f x o hop
        rw [Choices.xdr_this heq, if_pos heq]
        exact ⟨hrun.op, hrun.stat, hrun.log⟩
      · have hrun := Choices.frees S env rest dscm x os hop
        rw [Choices.xdr_next heq, if_neg heq]
        exact ⟨hrun.op, hrun.stat, hrun.log⟩

end

end Frees

/-!
## What the wire holds
-/

/-- Whether some bytes are all there, where they end, and whether they harm. -/
structure Scan (σ : Type) where
  ok : Bool
  rest : σ
  clean : Bool

section Scans

variable {σ : Type}

def Scan.andThen (a : Scan σ) (k : σ → Scan σ) : Scan σ :=
  if a.ok then ⟨(k a.rest).ok, (k a.rest).rest, a.clean && (k a.rest).clean⟩ else a

variable (S : Ops σ)

def scanLong (live : Bool) (s : σ) : Scan σ :=
  match S.getlong s with
  | (some _, s) => ⟨true, s, live⟩
  | (none, s) => ⟨false, s, true⟩

def scanPointer (live : Bool) (s : σ) : Scan σ := ⟨true, s, live⟩

def nextWord (s : σ) : Word := (S.getlong s).1.getD 0

/-- Bytes with their padding; `good` says what may arrive. -/
def scanOpaque (good : List UInt8 → Bool) (s : σ) (cnt : Nat) : Scan σ :=
  if cnt = 0 then ⟨true, s, true⟩
  else
    let got := S.getbytes s cnt
    let crud := S.getbytes got.2.2 (roundup cnt)
    if got.2.1 = true ∧ roundup cnt ≠ 0 then ⟨crud.2.1, crud.2.2, good got.1⟩
    else ⟨got.2.1, got.2.2, good got.1⟩

def complete (size : Nat) (got : List UInt8) : Bool :=
  decide (got.length = size) && !got.contains 0

def scans (scan : Bool → σ → Scan σ) (inside : Nat → Bool) : Nat → Nat → σ → Scan σ
  | 0, _, s => ⟨true, s, true⟩
  | n + 1, i, s => (scan (inside i) s).andThen fun s => scans scan inside n (i + 1) s

def scanBytes (live : Bool) (maxsize : Nat) (size : Word) (s : σ) : Scan σ :=
  if size.toNat > maxsize then ⟨false, s, true⟩
  else if size.toNat = 0 then ⟨true, s, true⟩
  else (scanPointer live s).andThen fun s => scanOpaque S (fun _ => true) s size.toNat

def scanString (live : Bool) (maxsize : Nat) (size : Word) (s : σ) : Scan σ :=
  if size.toNat > maxsize then ⟨false, s, true⟩
  else if (size + 1).toNat = 0 then ⟨true, s, true⟩
  else (scanPointer live s).andThen fun s => scanOpaque S (complete size.toNat) s size.toNat

/-- The elements of an array lie in a block of the product in 32 bits. -/
def scanArray (scan : Bool → σ → Scan σ) (live : Bool) (maxsize elsize : Nat) (size : Word) (s : σ) :
    Scan σ :=
  let c := size.toNat
  if c > maxsize then ⟨false, s, true⟩
  else if c = 0 then ⟨true, s, true⟩
  else
    (scanPointer live s).andThen fun s =>
      scans scan (inBlock elsize (c * elsize % 2 ^ 32)) c 0 s

mutual

/-- The bytes of a type, and whether they harm. -/
def Filter.scan : Filter → Bool → σ → Scan σ
  | .scalar _, live, s => scanLong S live s
  | .opaqueData cnt, live, s => scanOpaque S (fun got => live || got.isEmpty) s cnt
  | .bytes maxsize, live, s =>
    (scanLong S live s).andThen (scanBytes S live maxsize (nextWord S s))
  | .string maxsize, live, s =>
    (scanLong S true s).andThen (scanString S live maxsize (nextWord S s))
  | .array maxsize elsize f, live, s =>
    (scanLong S live s).andThen (scanArray f.scan live maxsize elsize (nextWord S s))
  | .vector nelem _ f, live, s => scans f.scan (fun _ => live) nelem 0 s
  | .union cs, live, s => (scanLong S live s).andThen (cs.scan live (nextWord S s))

def Choices.scan : Choices → Bool → Word → σ → Scan σ
  | .stop, _, _, s => ⟨false, s, true⟩
  | .dfault f, live, _, s => f.scan live s
  | .choice value f rest, live, dscm, s =>
    if value = dscm then f.scan live s else rest.scan live dscm s

end

end Scans

mutual

/-- An object whose pointers are null or lead to memory for as much as its filter admits. -/
def Filter.Roomy : (f : Filter) → f.Obj → Prop
  | .scalar _, _ => True
  | .opaqueData _, _ => True
  | .bytes maxsize, o => ∀ b, BytesObj.sp o = some b → ∀ w : Word, w.toNat ≤ maxsize →
      w.toNat ≤ b.cap
  | .string maxsize, o => ∀ b : Block, o = some b → ∀ w : Word, w.toNat ≤ maxsize →
      (w + 1).toNat ≠ 0 → w.toNat < b.cap
  | .array maxsize elsize f, o => ∀ a, ArrayObj.addr o = some a →
      (∀ w : Word, w.toNat ≤ maxsize → w.toNat * elsize ≤ a.2) ∧
      ∀ i < maxsize, f.Roomy (ArrayObj.elems o i)
  | .vector nelem _ f, o => ∀ i < nelem, f.Roomy (o i)
  | .union cs, (_, un) => cs.Roomy un

def Choices.Roomy : (cs : Choices) → cs.Obj → Prop
  | .stop, _ => True
  | .dfault f, o => f.Roomy o
  | .choice _ f rest, (o, os) => f.Roomy o ∧ rest.Roomy os

end

mutual

theorem Filter.roomy_zero : (f : Filter) → f.Roomy f.zero
  | .scalar _ => trivial
  | .opaqueData _ => trivial
  | .bytes _ => by
      intro b h
      cases h
  | .string _ => by
      intro b h
      cases h
  | .array _ _ _ => by
      intro a h
      cases h
  | .vector _ _ f => fun _ _ => f.roomy_zero
  | .union cs => cs.roomy_zero

theorem Choices.roomy_zero : (cs : Choices) → cs.Roomy cs.zero
  | .stop => trivial
  | .dfault f => f.roomy_zero
  | .choice _ f rest => ⟨f.roomy_zero, rest.roomy_zero⟩

end

section Zero

variable {α : Type}

theorem releases_zero {release : α → Bool × List (Nat × Nat)} {zero : α} {elems : Nat → α}
    (hzero : (release zero).2 = []) :
    ∀ n i, (∀ j, i ≤ j → elems j = zero) → (releases release elems n i).2 = [] := by
  intro n
  induction n with
  | zero => exact fun _ _ => rfl
  | succ n ih =>
    intro i helems
    unfold releases
    simp only [helems i (Nat.le_refl i), hzero]
    split
    · rw [ih (i + 1) (fun j hj => helems j (by omega))]
      rfl
    · exact hzero

mutual

theorem Filter.release_zero : (f : Filter) → (f.release f.zero).2 = []
  | .scalar _ => rfl
  | .opaqueData _ => rfl
  | .bytes _ => rfl
  | .string _ => rfl
  | .array _ _ _ => rfl
  | .vector nelem _ f => releases_zero f.release_zero nelem 0 (fun _ _ => rfl)
  | .union cs => cs.release_zero 0

theorem Choices.release_zero : (cs : Choices) → ∀ dscm, (cs.release dscm cs.zero).2 = []
  | .stop, _ => rfl
  | .dfault f, _ => f.release_zero
  | .choice value f rest, dscm => by
      change (if value = dscm then f.release f.zero else rest.release dscm rest.zero).2 = []
      split
      · exact f.release_zero
      · exact rest.release_zero dscm

end

end Zero

/-!
## Decoding
-/

/-- All storage is granted, and new storage is zero. -/
structure Env.Generous (env : Env) : Prop where
  grants : env.Grants
  garbage : ∀ id i, env.garbage id i = 0

def total (l : List (Nat × Nat)) : Nat := (l.map Prod.snd).sum

theorem total_append (l l' : List (Nat × Nat)) : total (l ++ l') = total l + total l' := by
  unfold total
  rw [map_append, sum_append]

theorem alloced_append (l l' : List (Nat × Nat)) :
    alloced (l ++ l') = alloced l ++ alloced l' := map_append

section Decodes

variable {σ α : Type} {S : Ops σ} {env : Env} {x y z : Xdrs σ} {fresh : Prop} {stat stat' : Bool}
  {a b : Scan σ} {p q : Bool × List (Nat × Nat)} {k : σ → Scan σ}

/-- A decode against what the wire holds, and what the free pass gives back of it. -/
structure Decodes (env : Env) (x : Xdrs σ) (fresh : Prop) (stat : Bool) (y : Xdrs σ) (a : Scan σ)
    (p : Bool × List (Nat × Nat)) : Prop where
  op : y.op = .decode
  live : y.live = x.live
  next : stat = true → a.ok = true ∧ y.strm = a.rest
  inside : a.clean = true → x.heap.outside = false → y.heap.outside = false
  stays : x.heap.outside = true → y.heap.outside = true
  full : fresh → env.Generous → a.ok = true → stat = true
  whole : fresh → stat = true → p.1 = true
  log : fresh → ∃ as, y.heap.log = x.heap.log ++ alloced as ∧ total p.2 ≤ total as ∧
    (a.clean = true → p.2.Perm as) ∧
    (env.Generous → a.clean = false → y.heap.outside = true ∨ total p.2 < total as)

theorem Decodes.congr (h : Decodes env x fresh stat y a p) (hp : fresh → q = p) :
    Decodes env x fresh stat y a q := by
  refine ⟨h.op, h.live, h.next, h.inside, h.stays, h.full, fun hf => ?_, fun hf => ?_⟩
  · rw [hp hf]
    exact h.whole hf
  · rw [hp hf]
    exact h.log hf

theorem Decodes.failed (h : Decodes env x fresh false y a p) (hp : fresh → q.2 = p.2) :
    Decodes env x fresh false y a q := by
  refine ⟨h.op, h.live, h.next, h.inside, h.stays, h.full, fun _ => Bool.noConfusion, fun hf => ?_⟩
  rw [hp hf]
  exact h.log hf

theorem Decodes.seq (h : Decodes env x fresh true y a p)
    (h' : Decodes env y fresh stat z (k a.rest) q) :
    Decodes env x fresh stat z (a.andThen k) (q.1, p.2 ++ q.2) := by
  have hthen : a.andThen k = ⟨(k a.rest).ok, (k a.rest).rest, a.clean && (k a.rest).clean⟩ :=
    if_pos (h.next rfl).1
  rw [hthen]
  refine ⟨h'.op, h'.live.trans h.live, h'.next, fun hc hx => ?_, fun hx => h'.stays (h.stays hx),
    h'.full, h'.whole, fun hf => ?_⟩
  · obtain ⟨hca, hcb⟩ := Bool.and_eq_true_iff.mp hc
    exact h'.inside hcb (h.inside hca hx)
  · obtain ⟨as, hlog, hle, hperm, hharm⟩ := h.log hf
    obtain ⟨bs, hlog', hle', hperm', hharm'⟩ := h'.log hf
    refine ⟨as ++ bs, ?_, ?_, fun hc => ?_, fun hg hc => ?_⟩
    · rw [hlog', hlog, alloced_append, append_assoc]
    · rw [total_append, total_append]
      exact Nat.add_le_add hle hle'
    · obtain ⟨hca, hcb⟩ := Bool.and_eq_true_iff.mp hc
      exact (hperm hca).append (hperm' hcb)
    · rw [total_append, total_append]
      rcases Bool.and_eq_false_iff.mp hc with hca | hcb
      · rcases hharm hg hca with hout | hlt
        · exact .inl (h'.stays hout)
        · exact .inr (by omega)
      · rcases hharm' hg hcb with hout | hlt
        · exact .inl hout
        · exact .inr (by omega)

theorem Decodes.behind (h : Decodes env x fresh true y a (true, []))
    (h' : Decodes env y fresh stat z (k a.rest) p) :
    Decodes env x fresh stat z (a.andThen k) p := h.seq h'

theorem Decodes.stop (h : Decodes env x fresh false y a p) :
    Decodes env x fresh false y (a.andThen k) p := by
  have hthen : a.ok = false → a.andThen k = a := fun hok => if_neg (by rw [hok]; exact Bool.noConfusion)
  have hno : fresh → env.Generous → a.ok = false := by
    intro hf hg
    cases hok : a.ok with
    | true => exact absurd (h.full hf hg hok) Bool.noConfusion
    | false => rfl
  have hclean : (a.andThen k).clean = true → a.clean = true := by
    intro hc
    cases hok : a.ok with
    | true =>
      unfold Scan.andThen at hc
      rw [if_pos hok] at hc
      exact (Bool.and_eq_true_iff.mp hc).1
    | false =>
      rw [hthen hok] at hc
      exact hc
  refine ⟨h.op, h.live, Bool.noConfusion, fun hc => h.inside (hclean hc), h.stays,
    fun hf hg hok => ?_, fun _ => Bool.noConfusion, fun hf => ?_⟩
  · rw [hthen (hno hf hg)] at hok
    exact absurd ((hno hf hg).symm.trans hok) Bool.noConfusion
  · obtain ⟨as, hlog, hle, hperm, hharm⟩ := h.log hf
    refine ⟨as, hlog, hle, fun hc => hperm (hclean hc), fun hg hc => hharm hg ?_⟩
    rw [hthen (hno hf hg)] at hc
    exact hc

theorem decodes_refl (hop : x.op = .decode) (stat : Bool) (p : Bool × List (Nat × Nat))
    (hp : fresh → p.2 = [] ∧ (stat = true → p.1 = true)) :
    Decodes env x fresh stat x ⟨stat, x.strm, true⟩ p := by
  refine ⟨hop, rfl, fun h => ⟨h, rfl⟩, fun _ h => h, fun h => h, fun _ _ h => h,
    fun hf => (hp hf).2, fun hf => ⟨[], ?_, ?_, fun _ => ?_, fun _ h => Bool.noConfusion h⟩⟩
  · exact (append_nil _).symm
  · rw [(hp hf).1]
  · rw [(hp hf).1]

variable {live : Bool}

section

variable (hop : x.op = .decode) (hlive : live = true → x.live = true)
  (hfresh : fresh → live = x.live)
include hop hlive hfresh

theorem decodes_read (hsome : ∀ l s, S.getlong x.strm = (some l, s) →
      stat = true ∧ y = Xdrs.store { x with strm := s })
    (hnone : ∀ s, S.getlong x.strm = (none, s) → stat = false ∧ y = { x with strm := s }) :
    Decodes env x fresh stat y (scanLong S live x.strm) (true, []) := by
  have hlog : x.heap.log = x.heap.log ++ alloced [] := (append_nil _).symm
  unfold scanLong
  cases hget : S.getlong x.strm with
  | mk w s =>
    cases w with
    | none =>
      obtain ⟨rfl, rfl⟩ := hnone s hget
      refine ⟨hop, rfl, Bool.noConfusion, fun _ h => h, fun h => h, fun _ _ h => h,
        fun _ => Bool.noConfusion, fun _ => ⟨[], hlog, Nat.le_refl _, fun _ => .nil,
          fun _ h => Bool.noConfusion h⟩⟩
    | some l =>
      obtain ⟨rfl, rfl⟩ := hsome l s hget
      refine ⟨hop, rfl, fun _ => ⟨rfl, rfl⟩, fun hc hx => ?_, fun hx => ?_, fun _ _ _ => rfl,
        fun _ _ => rfl, fun hf => ⟨[], hlog, Nat.le_refl _, fun _ => .nil, fun _ hc => .inl ?_⟩⟩
      · change (x.heap.outside || !x.live) = false
        rw [hx, hlive hc]
        rfl
      · change (x.heap.outside || !x.live) = true
        rw [hx]
        rfl
      · have hc : live = false := hc
        rw [← hfresh hf, hc]
        exact Bool.or_true _

theorem decodes_word (w : Word) :
    Decodes env x fresh (xdrUInt S x w).stat (xdrUInt S x w).xdrs (scanLong S live x.strm)
        (true, []) ∧ ((xdrUInt S x w).stat = true → (xdrUInt S x w).obj = nextWord S x.strm) := by
  unfold xdrUInt xdrULong xdrLong nextWord
  rw [hop]
  constructor
  · refine decodes_read hop hlive hfresh (fun l s hget => ?_) (fun s hget => ?_)
    · simp only [hget]
      exact ⟨trivial, by rw [← hop]⟩
    · simp only [hget]
      exact ⟨trivial, by rw [← hop]⟩
  · intro hstat
    cases hget : S.getlong x.strm with
    | mk v s =>
      cases v with
      | none =>
        rw [hget] at hstat
        exact Bool.noConfusion hstat
      | some l => rfl

theorem decodes_scalar (k : Scalar) (o : BitVec k.width) :
    Decodes env x fresh (k.xdr S x o).stat (k.xdr S x o).xdrs (scanLong S live x.strm)
      (true, []) := by
  have has : ∀ {w : Nat} (widen : BitVec w → Word) (narrow : Word → BitVec w) (p : BitVec w),
      Decodes env x fresh (xdrAs S widen narrow x p).stat (xdrAs S widen narrow x p).xdrs
        (scanLong S live x.strm) (true, []) := by
    intro w widen narrow p
    unfold xdrAs
    rw [hop]
    refine decodes_read hop hlive hfresh (fun l s hget => ?_) (fun s hget => ?_)
    · simp only [hget]
      exact ⟨trivial, by rw [← hop]⟩
    · simp only [hget]
      exact ⟨trivial, by rw [← hop]⟩
  have hword : ∀ w, Decodes env x fresh (xdrLong S x w).stat (xdrLong S x w).xdrs
      (scanLong S live x.strm) (true, []) := fun w => (decodes_word hop hlive hfresh w).1
  have hchar : ∀ v : BitVec 8, Decodes env x fresh (xdrChar S x v).stat (xdrChar S x v).xdrs
      (scanLong S live x.strm) (true, []) := by
    intro v
    unfold xdrChar xdrInt xdrLong Xdrs.within
    rw [hop]
    refine decodes_read hop hlive hfresh (fun l s hget => ?_) (fun s hget => ?_)
    · simp only [hget, if_true]
      unfold Xdrs.store
      rw [touch_true, ← hop]
      exact ⟨trivial, rfl⟩
    · simp only [hget]
      rw [if_neg Bool.noConfusion, ← hop]
      exact ⟨rfl, rfl⟩
  cases k with
  | short => exact has _ _ o
  | uShort => exact has _ _ o
  | bool =>
    have hbool : Decodes env x fresh (xdrBool S x o).stat (xdrBool S x o).xdrs
      (scanLong S live x.strm) (true, []) := has _ _ o
    exact hbool
  | char => exact hchar o
  | uChar => exact hchar o
  | _ => exact hword o

end

variable {cnt size maxsize elsize : Nat}

theorem decodes_opaque {good : List UInt8 → Bool} {cap : Nat} (hop : x.op = .decode)
    (hgood : ∀ got : List UInt8, got.length ≤ cnt → good got = true → got.length ≤ cap)
    (hbad : fresh → ∀ got : List UInt8, good got = false → cap < got.length) (cp : Nat → UInt8) :
    Decodes env x fresh (xdrOpaque S x cp cap cnt).stat (xdrOpaque S x cp cap cnt).xdrs
      (scanOpaque S good x.strm cnt) (true, []) := by
  unfold xdrOpaque scanOpaque
  split
  · exact decodes_refl hop true _ fun _ => ⟨rfl, fun _ => rfl⟩
  · have hle := S.getbytes_le x.strm cnt
    have hstore : ∀ {ok : Bool} {s : σ}, Decodes env x fresh ok
          { Xdrs.touch { x with strm := (S.getbytes x.strm cnt).2.2 }
              (decide ((S.getbytes x.strm cnt).1.length ≤ cap)) with strm := s }
          ⟨ok, s, good (S.getbytes x.strm cnt).1⟩ (true, []) := by
      intro ok s
      have hlog : x.heap.log = x.heap.log ++ alloced [] := (append_nil _).symm
      refine ⟨hop, rfl, fun h => ⟨h, rfl⟩, fun hc hx => ?_, fun hx => ?_, fun _ _ h => h,
        fun _ _ => rfl, fun hf => ⟨[], hlog, Nat.le_refl _, fun _ => .nil, fun _ hc => .inl ?_⟩⟩
      · change (x.heap.outside || !decide _) = false
        rw [hx, decide_eq_true (hgood _ hle hc)]
        rfl
      · change (x.heap.outside || !decide _) = true
        rw [hx]
        rfl
      · have hlt := hbad hf _ hc
        rw [decide_eq_false (by omega)]
        exact Bool.or_true _
    simp only [hop]
    rw [← hop]
    cases hstat : (S.getbytes x.strm cnt).2.1 with
    | false =>
      have hno : ¬ (false = true ∧ roundup cnt ≠ 0) := fun h => Bool.noConfusion h.1
      exact hstore
    | true =>
      by_cases hround : roundup cnt = 0
      · have hno : ¬ (True ∧ roundup cnt ≠ 0) := fun h => h.2 hround
        simp only [if_neg hno, if_pos hround]
        exact hstore
      · have hyes : True ∧ roundup cnt ≠ 0 := ⟨trivial, hround⟩
        simp only [if_pos hyes, if_neg hround]
        exact hstore

variable {x' : Xdrs σ} {c : Block}

theorem Decodes.block (hlive : live = true → x.live = true) (hfresh : fresh → live = x.live)
    (halloc : x.store.memAlloc env size = (some c, x'))
    (h : Decodes env x' fresh stat y (k x.strm) p) :
    Decodes env x fresh stat y ((scanPointer live x.strm).andThen k)
      (p.1, p.2 ++ [(c.id, size)]) := by
  have hthen : (scanPointer live x.strm).andThen k =
      ⟨(k x.strm).ok, (k x.strm).rest, live && (k x.strm).clean⟩ := if_pos rfl
  unfold Xdrs.memAlloc at halloc
  split at halloc
  · cases halloc
    rw [hthen]
    refine ⟨h.op, h.live, h.next, fun hc hx => ?_, fun hx => h.stays ?_, h.full, h.whole,
      fun hf => ?_⟩
    · obtain ⟨hl, hck⟩ := Bool.and_eq_true_iff.mp hc
      refine h.inside hck ?_
      change (x.heap.outside || !x.live) = false
      rw [hx, hlive hl]
      rfl
    · change (x.heap.outside || !x.live) = true
      rw [hx]
      rfl
    · obtain ⟨as, hlog, hle, hperm, hharm⟩ := h.log hf
      refine ⟨(x.heap.next, size) :: as, ?_, ?_, fun hc => ?_, fun hg hc => ?_⟩
      · rw [hlog]
        exact append_assoc _ _ _
      · rw [total_append]
        change total p.2 + (size + 0) ≤ size + total as
        omega
      · obtain ⟨_, hck⟩ := Bool.and_eq_true_iff.mp hc
        exact (perm_append_comm).trans ((hperm hck).cons _)
      · rcases Bool.and_eq_false_iff.mp hc with hl | hck
        · refine .inl (h.stays ?_)
          change (x.heap.outside || !x.live) = true
          rw [← hfresh hf, hl]
          exact Bool.or_true _
        · rcases hharm hg hck with hout | hlt
          · exact .inl hout
          · refine .inr ?_
            rw [total_append]
            change total p.2 + (size + 0) < size + total as
            omega
  · cases halloc

theorem decodes_refused (hop : x.op = .decode) (hlive : live = true → x.live = true)
    (halloc : x.store.memAlloc env size = (none, x')) (hp : fresh → p.2 = []) :
    Decodes env x fresh false x' ((scanPointer live x.strm).andThen k) p := by
  have hthen : (scanPointer live x.strm).andThen k =
      ⟨(k x.strm).ok, (k x.strm).rest, live && (k x.strm).clean⟩ := if_pos rfl
  unfold Xdrs.memAlloc at halloc
  split at halloc
  · cases halloc
  · rename_i hrefused
    cases halloc
    have hno : ¬ env.Generous := fun hg => hrefused (hg.grants _ _)
    refine ⟨hop, rfl, Bool.noConfusion, fun hc hx => ?_, fun hx => ?_, fun _ hg => absurd hg hno,
      fun _ => Bool.noConfusion, fun hf => ⟨[], ?_, ?_, fun _ => ?_, fun hg => absurd hg hno⟩⟩
    · obtain ⟨hl, _⟩ := Bool.and_eq_true_iff.mp hc
      change (x.heap.outside || !x.live) = false
      rw [hx, hlive hl]
      rfl
    · change (x.heap.outside || !x.live) = true
      rw [hx]
      rfl
    · exact (append_nil _).symm
    · rw [hp hf]
    · rw [hp hf]

theorem Decodes.given (hno : ¬ fresh) (h : Decodes env x fresh stat y (k x.strm) p) :
    Decodes env x fresh stat y ((scanPointer live x.strm).andThen k) q := by
  have hthen : (scanPointer live x.strm).andThen k =
      ⟨(k x.strm).ok, (k x.strm).rest, live && (k x.strm).clean⟩ := if_pos rfl
  exact ⟨h.op, h.live, h.next, fun hc => h.inside (Bool.and_eq_true_iff.mp hc).2, h.stays,
    fun hf => absurd hf hno, fun hf => absurd hf hno, fun hf => absurd hf hno⟩

theorem decodes_count {w : Word} {k : Word → σ → Scan σ} {r : Word → Xdrs σ → Res σ α}
    {e : Word → α} {p : α → Bool × List (Nat × Nat)} (hop : x.op = .decode)
    (hlive : live = true → x.live = true) (hfresh : fresh → live = x.live)
    (he : fresh → ∀ v, (p (e v)).2 = []) (h : ∀ v (y : Xdrs σ), y.op = .decode → y.live = x.live →
      Decodes env y fresh (r v y).stat (r v y).xdrs (k v y.strm) (p (r v y).obj)) :
    let q := if (xdrUInt S x w).stat = false then
        ⟨false, e (xdrUInt S x w).obj, (xdrUInt S x w).xdrs⟩
      else r (xdrUInt S x w).obj (xdrUInt S x w).xdrs
    Decodes env x fresh q.stat q.xdrs
      ((scanLong S live x.strm).andThen (k (nextWord S x.strm))) (p q.obj) := by
  obtain ⟨hfirst, hword⟩ : Decodes env x fresh (xdrUInt S x w).stat (xdrUInt S x w).xdrs
      (scanLong S live x.strm) (true, []) ∧ _ := decodes_word hop hlive hfresh w
  intro q
  by_cases hstat : (xdrUInt S x w).stat = false
  · have hq : q = _ := if_pos hstat
    rw [hstat] at hfirst
    rw [hq]
    exact hfirst.stop.failed fun hf => he hf _
  · have hq : q = _ := if_neg hstat
    rw [Bool.not_eq_false] at hstat
    rw [hstat] at hfirst
    rw [hq, hword hstat]
    have hrest := h (nextWord S x.strm) (xdrUInt S x w).xdrs hfirst.op hfirst.live
    rw [(hfirst.next rfl).2] at hrest
    exact hfirst.behind hrest

theorem memAlloc_some (h : x.store.memAlloc env size = (some c, x')) :
    (x'.op = x.op ∧ x'.strm = x.strm) ∧ (c.cap = size ∧ c.bytes = env.garbage c.id) ∧
      x'.heap.log = x.heap.log ++ alloced [(c.id, size)] ∧
      x'.heap.outside = (x.heap.outside || !x.live) := by
  unfold Xdrs.memAlloc at h
  split at h
  · cases h
    exact ⟨⟨rfl, rfl⟩, ⟨rfl, rfl⟩, rfl, rfl⟩
  · cases h

theorem decodes_all (hop : x.op = .decode) (hcap : cnt ≤ c.cap) :
    Decodes env x fresh (xdrBlock S x c cnt).stat (xdrBlock S x c cnt).xdrs
      (scanOpaque S (fun _ => true) x.strm cnt) (true, []) :=
  decodes_opaque hop (fun _ hle _ => Nat.le_trans hle hcap) (fun _ _ h => Bool.noConfusion h)
    c.bytes

theorem decodes_bytesData {o : BytesObj} (hop : x.op = .decode)
    (hlive : live = true → x.live = true) (hfresh : fresh → live = x.live ∧ o.sp = none)
    (hroomy : (Filter.bytes maxsize).Roomy o) :
    Decodes env x fresh (bytesData S env x o maxsize).stat (bytesData S env x o maxsize).xdrs
      (scanBytes S live maxsize o.size x.strm)
      ((Filter.bytes maxsize).release (bytesData S env x o maxsize).obj) := by
  have hfree : x.op ≠ .free := by
    rw [hop]
    exact Op.noConfusion
  have hnil : fresh → ((Filter.bytes maxsize).release o).2 = [] := by
    intro hf
    change (o.sp.toList.map fun b => (b.id, o.size.toNat)) = []
    rw [(hfresh hf).2]
    rfl
  unfold bytesData scanBytes
  by_cases hmax : o.size.toNat > maxsize
  · have hmax' : o.size.toNat > maxsize ∧ x.op ≠ .free := ⟨hmax, hfree⟩
    simp only [if_pos hmax', if_pos hmax]
    exact decodes_refl hop false _ fun hf => ⟨hnil hf, Bool.noConfusion⟩
  · have hmax' : ¬ (o.size.toNat > maxsize ∧ x.op ≠ .free) := fun h => hmax h.1
    simp only [if_neg hmax', if_neg hmax]
    simp only [hop]
    by_cases hzero : o.size.toNat = 0
    · simp only [if_pos hzero]
      exact decodes_refl hop true _ fun hf => ⟨hnil hf, fun _ => rfl⟩
    · simp only [if_neg hzero]
      cases hsp : o.sp with
      | some c =>
        have hno : ¬ fresh := by
          intro hf
          rw [(hfresh hf).2] at hsp
          cases hsp
        have hcap := hroomy c hsp o.size (Nat.le_of_not_lt hmax)
        exact Decodes.given (k := fun s => scanOpaque S (fun _ => true) s o.size.toNat) hno
          (decodes_all hop hcap)
      | none =>
        cases halloc : x.store.memAlloc env o.size.toNat with
        | mk c x' =>
          cases c with
          | none => exact decodes_refused hop hlive halloc hnil
          | some c =>
            obtain ⟨⟨hop', hstrm⟩, ⟨hcap, _⟩, _⟩ := memAlloc_some halloc
            have hrun : Decodes env x' fresh (xdrBlock S x' c o.size.toNat).stat _ _ _ :=
              decodes_all (hop'.trans hop) (Nat.le_of_eq hcap.symm)
            rw [hstrm] at hrun
            exact Decodes.block (k := fun s => scanOpaque S (fun _ => true) s o.size.toNat)
              hlive (fun hf => (hfresh hf).1) halloc hrun

theorem decodes_bytes {o : BytesObj} (hop : x.op = .decode) (hlive : live = true → x.live = true)
    (hfresh : fresh → live = x.live ∧ o.sp = none) (hroomy : (Filter.bytes maxsize).Roomy o) :
    Decodes env x fresh (xdrBytes S env x o maxsize).stat (xdrBytes S env x o maxsize).xdrs
      ((Filter.bytes maxsize).scan S live x.strm)
      ((Filter.bytes maxsize).release (xdrBytes S env x o maxsize).obj) := by
  refine decodes_count (k := scanBytes S live maxsize)
    (r := fun v y => bytesData S env y ⟨o.sp, v⟩ maxsize) (e := fun v => ⟨o.sp, v⟩)
    (p := (Filter.bytes maxsize).release) hop hlive (fun hf => (hfresh hf).1) ?_ ?_
  · intro hf v
    rw [(hfresh hf).2]
    rfl
  · intro v y hop hy
    exact decodes_bytesData (o := ⟨o.sp, v⟩) hop (fun hl => hy.trans (hlive hl))
      (fun hf => ⟨(hfresh hf).1.trans hy.symm, (hfresh hf).2⟩) hroomy

theorem Decodes.within {b : Bool} (h : Decodes env (x.within b) fresh stat y a p) :
    Decodes env x fresh stat (y.within x.live) a p :=
  ⟨h.op, rfl, h.next, h.inside, h.stays, h.full, h.whole, h.log⟩

theorem opaque_decoded (hop : x.op = .decode) (good : List UInt8 → Bool) (cp : Nat → UInt8)
    (cap cnt : Nat) : (xdrOpaque S x cp cap cnt).obj =
        (if cnt = 0 then cp else fun i => ((S.getbytes x.strm cnt).1[i]?).getD (cp i)) ∧
      (xdrOpaque S x cp cap cnt).stat = (scanOpaque S good x.strm cnt).ok ∧
      (xdrOpaque S x cp cap cnt).xdrs.heap.log = x.heap.log ∧ (scanOpaque S good x.strm cnt).clean =
        (if cnt = 0 then true else good (S.getbytes x.strm cnt).1) := by
  unfold xdrOpaque scanOpaque
  by_cases hzero : cnt = 0
  · simp only [if_pos hzero]
    exact ⟨trivial, trivial, trivial, trivial⟩
  · simp only [if_neg hzero, hop]
    cases hstat : (S.getbytes x.strm cnt).2.1 with
    | false =>
      have hno : ¬ (false = true ∧ roundup cnt ≠ 0) := fun h => Bool.noConfusion h.1
      simp only [if_neg hno, if_true]
      exact ⟨trivial, trivial, rfl, trivial⟩
    | true =>
      by_cases hround : roundup cnt = 0
      · have hno : ¬ (True ∧ roundup cnt ≠ 0) := fun h => h.2 hround
        simp only [if_neg hno, if_pos hround]
        exact ⟨rfl, rfl, rfl, trivial⟩
      · have hyes : True ∧ roundup cnt ≠ 0 := ⟨trivial, hround⟩
        simp only [if_pos hyes, if_neg hround]
        exact ⟨rfl, rfl, rfl, trivial⟩

theorem strlen_le {n : Nat} (hzero : c.bytes n = 0) : strlen c ≤ n := by
  by_contra hlt
  exact strlen_nonzero (Nat.lt_of_not_le hlt) hzero

theorem strlen_arrived {cp : Nat → UInt8} {got : List UInt8} (hcap : size < c.cap)
    (hnull : cp size = 0) (hle : got.length ≤ size)
    (hbytes : ∀ i, c.bytes i = (got[i]?).getD (cp i)) :
    strlen c ≤ size ∧ (complete size got = true → strlen c = size) ∧
      ((∀ i < size, cp i = 0) → complete size got = false → strlen c < size) := by
  have hend : c.bytes size = 0 := by
    rw [hbytes, getElem?_eq_none hle]
    exact hnull
  have hin : ∀ i (h : i < got.length), c.bytes i = got[i] := by
    intro i h
    rw [hbytes, getElem?_eq_getElem h]
    rfl
  refine ⟨strlen_le hend, fun hc => ?_, fun hcp hc => ?_⟩
  · obtain ⟨hlen, hnot⟩ := Bool.and_eq_true_iff.mp hc
    have hlen : got.length = size := of_decide_eq_true hlen
    have hnot : 0 ∉ got := by simpa using hnot
    refine strlen_eq hcap hend fun i hi hzero => hnot ?_
    have hlt : i < got.length := by omega
    rw [← hzero, hin i hlt]
    exact getElem_mem hlt
  · rcases Bool.and_eq_false_iff.mp hc with hlen | hnot
    · have hlen : got.length ≠ size := of_decide_eq_false hlen
      have hlt : got.length < size := by omega
      have hzero : c.bytes got.length = 0 := by
        rw [hbytes, getElem?_eq_none (Nat.le_refl _)]
        exact hcp _ hlt
      exact Nat.lt_of_le_of_lt (strlen_le hzero) hlt
    · have hmem : 0 ∈ got := by simpa using hnot
      obtain ⟨i, hi, hzero⟩ := getElem_of_mem hmem
      exact Nat.lt_of_le_of_lt (strlen_le ((hin i hi).trans hzero)) (by omega)

theorem release_string {size : Word} (hle : strlen c ≤ size.toNat) (hmax : size.toNat ≤ maxsize)
    (hone : (size + 1).toNat = size.toNat + 1) :
    (Filter.string maxsize).release (some c) = (true, [(c.id, strlen c + 1)]) := by
  have hlen : (BitVec.ofNat 32 (strlen c)).toNat = strlen c := by
    exact Nat.mod_eq_of_lt (by omega)
  have hnode : (BitVec.ofNat 32 (strlen c) + 1).toNat = strlen c + 1 := by
    rw [BitVec.toNat_add, hlen]
    change (strlen c + 1) % 2 ^ 32 = strlen c + 1
    exact Nat.mod_eq_of_lt (by omega)
  change (if (BitVec.ofNat 32 (strlen c)).toNat > maxsize then (false, [])
    else (true, [(c.id, (BitVec.ofNat 32 (strlen c) + 1).toNat)])) = _
  rw [hlen, hnode, if_neg (by omega)]

section

variable (hop : x.op = .decode) (hlive : live = true → x.live = true)
include hop hlive

theorem decodes_newString {size : Word} (hfresh : fresh → live = x.live)
    (halloc : x.store.memAlloc env (size + 1).toNat = (some c, x')) (hmax : size.toNat ≤ maxsize)
    (hone : (size + 1).toNat = size.toNat + 1) :
    let q := xdrBlock S x' { c with bytes := update c.bytes size.toNat 0 } size.toNat
    Decodes env x fresh q.stat q.xdrs
      ((scanPointer live x.strm).andThen fun s => scanOpaque S (complete size.toNat) s size.toNat)
      ((Filter.string maxsize).release (some q.obj)) := by
  intro q
  obtain ⟨⟨hop', hstrm⟩, ⟨hcap, hgarbage⟩, hlog', hout⟩ := memAlloc_some halloc
  have hlt : size.toNat < c.cap := by omega
  have hrun : Decodes env x' False q.stat q.xdrs
      (scanOpaque S (complete size.toNat) x'.strm size.toNat) (true, []) :=
    decodes_opaque (hop'.trans hop) (fun _ hle _ => Nat.le_trans hle (Nat.le_of_lt hlt))
      (fun hf => absurd hf id) _
  rw [hstrm] at hrun
  have hblock := Decodes.block
    (k := fun s => scanOpaque S (complete size.toNat) s size.toNat) hlive (fun hf => absurd hf id)
    halloc hrun
  obtain ⟨hobj, hstat, hlog, hclean⟩ := opaque_decoded (S := S) (hop'.trans hop)
    (complete size.toNat) (update c.bytes size.toNat 0) c.cap size.toNat
  rw [hstrm] at hobj hstat hclean
  have hthen : (scanPointer live x.strm).andThen
      (fun s => scanOpaque S (complete size.toNat) s size.toNat) =
        ⟨(scanOpaque S (complete size.toNat) x.strm size.toNat).ok,
          (scanOpaque S (complete size.toNat) x.strm size.toNat).rest,
          live && (scanOpaque S (complete size.toNat) x.strm size.toNat).clean⟩ := if_pos rfl
  -- what arrived in front of the null
  obtain ⟨got, hle, hbytes, hgot⟩ : ∃ got : List UInt8, got.length ≤ size.toNat ∧
      (∀ i, q.obj.bytes i = (got[i]?).getD (update c.bytes size.toNat 0 i)) ∧
      (scanOpaque S (complete size.toNat) x.strm size.toNat).clean = complete size.toNat got := by
    by_cases hzero : size.toNat = 0
    · refine ⟨[], Nat.zero_le _, fun i => ?_, ?_⟩
      · have hi := congrFun hobj i
        rw [if_pos hzero] at hi
        exact hi
      · rw [hclean, if_pos hzero, hzero]
        rfl
    · refine ⟨(S.getbytes x.strm size.toNat).1, S.getbytes_le _ _, fun i => ?_, ?_⟩
      · have hi := congrFun hobj i
        rw [if_neg hzero] at hi
        exact hi
      · rw [hclean, if_neg hzero]
  obtain ⟨hlen, hwhole, hshort⟩ := strlen_arrived (c := q.obj) hlt (update_self ..) hle hbytes
  rw [release_string hlen hmax hone]
  refine ⟨hblock.op, hblock.live, hblock.next, hblock.inside, hblock.stays, fun _ _ hok => ?_,
    fun _ _ => rfl, fun hf => ⟨[(c.id, (size + 1).toNat)], hlog.trans hlog', ?_, fun hc => ?_,
      fun hg hc => ?_⟩⟩
  · exact hstat.trans hok
  · change strlen q.obj + 1 + 0 ≤ (size + 1).toNat + 0
    omega
  · have hall := hwhole (hgot ▸ (Bool.and_eq_true_iff.mp hc).2)
    rw [hall, ← hone]
    rfl
  · rw [hthen] at hc
    rcases Bool.and_eq_false_iff.mp hc with hl | hcut
    · refine .inl (hrun.stays ?_)
      rw [hout, ← hfresh hf, hl]
      exact Bool.or_true _
    · refine .inr ?_
      have hcp : ∀ i < size.toNat, update c.bytes size.toNat 0 i = 0 := by
        intro i hi
        rw [update_of_ne (by omega), hgarbage]
        exact hg.garbage _ _
      have hless := hshort hcp (hgot ▸ hcut)
      change strlen q.obj + 1 + 0 < (size + 1).toNat + 0
      omega

theorem decodes_stringData {o : Option Block} {size : Word} (hfresh : fresh → live = x.live ∧ o = none)
    (hroomy : (Filter.string maxsize).Roomy o) :
    Decodes env x fresh (stringData S env x o size maxsize).stat
      (stringData S env x o size maxsize).xdrs (scanString S live maxsize size x.strm)
      ((Filter.string maxsize).release (stringData S env x o size maxsize).obj) := by
  have hnil : fresh → (Filter.string maxsize).release o = (true, []) := by
    intro hf
    rw [(hfresh hf).2]
    rfl
  unfold stringData scanString
  by_cases hmax : size.toNat > maxsize
  · simp only [if_pos hmax]
    exact decodes_refl hop false _ fun hf => ⟨by rw [hnil hf], Bool.noConfusion⟩
  · simp only [if_neg hmax]
    simp only [hop]
    by_cases hzero : (size + 1).toNat = 0
    · simp only [if_pos hzero]
      exact decodes_refl hop true _ fun hf => ⟨by rw [hnil hf], fun _ => by rw [hnil hf]⟩
    · simp only [if_neg hzero]
      have hone : (size + 1).toNat = size.toNat + 1 := by
        change (size.toNat + 1) % 2 ^ 32 ≠ 0 at hzero
        change (size.toNat + 1) % 2 ^ 32 = size.toNat + 1
        have hlt := size.isLt
        omega
      cases o with
      | some c =>
        have hno : ¬ fresh := by
          intro hf
          cases (hfresh hf).2
        have hcap := hroomy c rfl size (Nat.le_of_not_lt hmax) hzero
        simp only [decide_eq_true hcap, touch_true]
        refine Decodes.given (k := fun s => scanOpaque S (complete size.toNat) s size.toNat) hno
          (p := (true, [])) ?_
        exact decodes_opaque hop (fun _ hle _ => Nat.le_trans hle (Nat.le_of_lt hcap))
          (fun hf => absurd hf hno) _
      | none =>
        cases halloc : x.store.memAlloc env (size + 1).toNat with
        | mk c x' =>
          cases c with
          | none => exact decodes_refused hop hlive halloc (fun hf => by rw [hnil hf])
          | some c =>
            obtain ⟨_, ⟨hcap, _⟩, _⟩ := memAlloc_some halloc
            have hlt : size.toNat < c.cap := by omega
            simp only [decide_eq_true hlt, touch_true]
            exact decodes_newString hop hlive (fun hf => (hfresh hf).1) halloc
              (Nat.le_of_not_lt hmax) hone

theorem decodes_string {o : Option Block} (hfresh : fresh → live = x.live ∧ o = none)
    (hroomy : (Filter.string maxsize).Roomy o) :
    Decodes env x fresh (xdrString S env x o maxsize).stat (xdrString S env x o maxsize).xdrs
      ((Filter.string maxsize).scan S live x.strm)
      ((Filter.string maxsize).release (xdrString S env x o maxsize).obj) := by
  have hfree : ¬ (x.op = .free ∧ o.isNone = true) := by
    rw [hop]
    exact fun h => Op.noConfusion h.1
  have hnil : fresh → ((Filter.string maxsize).release o).2 = [] := by
    intro hf
    rw [(hfresh hf).2]
    rfl
  have hop' : (x.within true).op = .decode := hop
  obtain ⟨hfirst, hword⟩ : Decodes env (x.within true) fresh (xdrUInt S (x.within true) 0).stat
      (xdrUInt S (x.within true) 0).xdrs (scanLong S true (x.within true).strm) (true, []) ∧ _ :=
    decodes_word hop' (fun _ => rfl) (fun _ => rfl) 0
  have hfirst := hfirst.within
  have hscan : (Filter.string maxsize).scan S live x.strm =
    (scanLong S true x.strm).andThen (scanString S live maxsize (nextWord S x.strm)) := rfl
  unfold xdrString
  simp only [if_neg hfree, if_pos hop]
  by_cases hstat : (xdrUInt S (x.within true) 0).stat = false
  · rw [hstat] at hfirst
    simp only [if_pos hstat]
    exact hfirst.stop.failed hnil
  · simp only [if_neg hstat]
    rw [Bool.not_eq_false] at hstat
    rw [hstat] at hfirst
    rw [hword hstat]
    have hrest : Decodes env ((xdrUInt S (x.within true) 0).xdrs.within x.live) fresh _ _
        (scanString S live maxsize (nextWord S x.strm) _) _ :=
      decodes_stringData hfirst.op hlive hfresh hroomy
    rw [(hfirst.next rfl).2] at hrest
    exact hfirst.behind hrest

end

variable {proc : Xdrs σ → α → Res σ α} {scan : Bool → σ → Scan σ}
  {release : α → Bool × List (Nat × Nat)} {zero : α}

theorem decodes_elements {roomy : α → Prop} {inside inside' : Nat → Bool} {N : Nat}
    (hzero : (release zero).2 = [])
    (hproc : ∀ (x : Xdrs σ) (o : α) (live : Bool), x.op = .decode → (live = true → x.live = true) →
      (fresh → live = x.live ∧ o = zero) → roomy o →
      Decodes env x fresh (proc x o).stat (proc x o).xdrs (scan live x.strm) (release (proc x o).obj))
    (hin : ∀ i < N, inside' i = true → inside i = true)
    (hfresh : fresh → ∀ i < N, inside' i = inside i) :
    ∀ n i (x : Xdrs σ) elems, i + n = N → x.op = .decode →
      (∀ j < N, i ≤ j → roomy (elems j)) → (fresh → ∀ j, i ≤ j → elems j = zero) →
      let q := elements proc inside n i x elems
      Decodes env x fresh q.stat q.xdrs (scans scan inside' n i x.strm)
        (releases release q.obj n i) ∧ ∀ j < i, q.obj j = elems j := by
  intro n
  induction n with
  | zero =>
    intro i x elems _ hop _ _
    exact ⟨decodes_refl hop true _ fun _ => ⟨rfl, fun _ => rfl⟩, fun _ _ => rfl⟩
  | succ n ih =>
    intro i x elems hi hop hroomy hnew
    have hlt : i < N := by omega
    have hone := (hproc (x.within (inside i)) (elems i) (inside' i) hop (hin i hlt)
      (fun hf => ⟨hfresh hf i hlt, hnew hf i (Nat.le_refl i)⟩)
      (hroomy i hlt (Nat.le_refl i))).within
    unfold elements scans
    by_cases hstat : (proc (x.within (inside i)) (elems i)).stat = true
    · rw [hstat] at hone
      simp only [if_pos hstat]
      have hmine : fresh → ∀ obj : Nat → α, obj i = (proc (x.within (inside i)) (elems i)).obj →
          releases release obj (n + 1) i = ((releases release obj n (i + 1)).1,
              (release (proc (x.within (inside i)) (elems i)).obj).2 ++
                (releases release obj n (i + 1)).2) := by
        intro hf obj hobj
        have hone' := hone.whole hf rfl
        conv => lhs; unfold releases
        rw [hobj]
        simp only [hone', if_true]
      obtain ⟨hrest, hkept⟩ := ih (i + 1)
        ((proc (x.within (inside i)) (elems i)).xdrs.within x.live)
        (update elems i (proc (x.within (inside i)) (elems i)).obj) (by omega) hone.op
        (by
          intro j hj hij
          rw [update_of_ne (by omega)]
          exact hroomy j hj (by omega))
        (by
          intro hf j hij
          rw [update_of_ne (by omega)]
          exact hnew hf j (by omega))
      rw [(hone.next rfl).2] at hrest
      refine ⟨(hone.seq (k := scans scan inside' n (i + 1)) hrest).congr fun hf => ?_,
        fun j hj => ?_⟩
      · refine hmine hf _ ?_
        rw [hkept i (Nat.lt_succ_self i), update_self]
      · rw [hkept j (by omega), update_of_ne (by omega)]
    · simp only [if_neg hstat]
      rw [Bool.not_eq_true] at hstat
      rw [hstat] at hone
      refine ⟨(hone.stop (k := scans scan inside' n (i + 1))).failed fun hf => ?_,
        fun j hj => update_of_ne (by omega) _ _⟩
      have hlater : (releases release
          (update elems i (proc (x.within (inside i)) (elems i)).obj) n (i + 1)).2 = [] := by
        refine releases_zero hzero n (i + 1) fun j hj => ?_
        rw [update_of_ne (by omega)]
        exact hnew hf j (by omega)
      conv => lhs; unfold releases
      rw [update_self]
      simp only
      split
      · rw [hlater, append_nil]
      · rfl

def releaseArray (release : α → Bool × List (Nat × Nat)) (elsize : Nat) (o : ArrayObj α) :
    Bool × List (Nat × Nat) :=
  match o.addr with
  | none => (true, [])
  | some a =>
    let c := o.size.toNat
    let q := releases release o.elems c 0
    (q.1, q.2 ++ [(a.1, c * elsize % 2 ^ 32)])

theorem decodes_arrayData {roomy : α → Prop} {o : ArrayObj α} (hop : x.op = .decode)
    (hlive : live = true → x.live = true) (hfresh : fresh → live = x.live ∧ o.addr = none)
    (hzero : (release zero).2 = []) (hroom : roomy zero)
    (hproc : ∀ (x : Xdrs σ) (o : α) (live : Bool), x.op = .decode → (live = true → x.live = true) →
      (fresh → live = x.live ∧ o = zero) → roomy o →
      Decodes env x fresh (proc x o).stat (proc x o).xdrs (scan live x.strm) (release (proc x o).obj))
    (hroomy : ∀ a, o.addr = some a → (∀ w : Word, w.toNat ≤ maxsize → w.toNat * elsize ≤ a.2) ∧
      ∀ i < maxsize, roomy (o.elems i)) :
    Decodes env x fresh (arrayData env proc zero x o maxsize elsize).stat
      (arrayData env proc zero x o maxsize elsize).xdrs
      (scanArray scan live maxsize elsize o.size x.strm)
      (releaseArray release elsize (arrayData env proc zero x o maxsize elsize).obj) := by
  have hfree : x.op ≠ .free := by
    rw [hop]
    exact Op.noConfusion
  have hnil : fresh → releaseArray release elsize o = (true, []) := by
    intro hf
    unfold releaseArray
    rw [(hfresh hf).2]
  unfold arrayData scanArray
  by_cases hmax : o.size.toNat > maxsize
  · have hmax' : o.size.toNat > maxsize ∧ x.op ≠ .free := ⟨hmax, hfree⟩
    simp only [if_pos hmax', if_pos hmax]
    exact decodes_refl hop false _ fun hf => ⟨by rw [hnil hf], Bool.noConfusion⟩
  · have hmax' : ¬ (o.size.toNat > maxsize ∧ x.op ≠ .free) := fun h => hmax h.1
    simp only [if_neg hmax', if_neg hmax]
    cases haddr : o.addr with
    | some a =>
      have hno : ¬ fresh := by
        intro hf
        rw [(hfresh hf).2] at haddr
        cases haddr
      obtain ⟨hcap, helems⟩ := hroomy a haddr
      have hin := inBlock_of_le (hcap o.size (Nat.le_of_not_lt hmax))
      obtain ⟨hrun, _⟩ := decodes_elements hzero hproc
        (fun i hi _ => hin i hi) (fun hf => absurd hf hno) o.size.toNat 0 x o.elems
        (Nat.zero_add _) hop (fun j hj _ => helems j (by omega)) (fun hf => absurd hf hno)
      unfold arrayElems
      simp only [if_neg hfree]
      by_cases hnone : o.size.toNat = 0
      · rw [hnone] at hrun ⊢
        exact hrun.congr fun hf => absurd hf hno
      · rw [if_neg hnone]
        exact Decodes.given hno hrun
    | none =>
      simp only [hop]
      by_cases hnone : o.size.toNat = 0
      · simp only [if_pos hnone]
        exact decodes_refl hop true _ fun hf => ⟨by rw [hnil hf], fun _ => by rw [hnil hf]⟩
      · simp only [if_neg hnone]
        cases halloc : x.store.memAlloc env (o.size.toNat * elsize % 2 ^ 32) with
        | mk c x' =>
          cases c with
          | none => exact decodes_refused hop hlive halloc (fun hf => by rw [hnil hf])
          | some c =>
            obtain ⟨⟨hop', hstrm⟩, ⟨hcap, _⟩, _⟩ := memAlloc_some halloc
            have hfree' : ¬ x'.op = .free := by
              rw [hop', hop]
              exact Op.noConfusion
            have hin : inBlock elsize (o.size.toNat * elsize % 2 ^ 32) = inBlock elsize c.cap := by
              rw [hcap]
            obtain ⟨hrun, _⟩ := decodes_elements hzero hproc
              (fun i (_ : i < o.size.toNat) h => (congrFun hin i).symm.trans h)
              (fun _ i _ => congrFun hin i) o.size.toNat 0 x' (fun _ => zero)
              (Nat.zero_add _) (hop'.trans hop) (fun _ _ _ => hroom) (fun _ _ _ => rfl)
            rw [hstrm] at hrun
            unfold arrayElems
            simp only [if_neg hfree']
            exact Decodes.block
              (k := fun s => scans scan (inBlock elsize (o.size.toNat * elsize % 2 ^ 32))
                o.size.toNat 0 s)
              hlive (fun hf => (hfresh hf).1) halloc hrun

theorem decodes_array {roomy : α → Prop} {o : ArrayObj α} (hop : x.op = .decode)
    (hlive : live = true → x.live = true) (hfresh : fresh → live = x.live ∧ o.addr = none)
    (hzero : (release zero).2 = []) (hroom : roomy zero)
    (hproc : ∀ (x : Xdrs σ) (o : α) (live : Bool), x.op = .decode → (live = true → x.live = true) →
      (fresh → live = x.live ∧ o = zero) → roomy o →
      Decodes env x fresh (proc x o).stat (proc x o).xdrs (scan live x.strm) (release (proc x o).obj))
    (hroomy : ∀ a, o.addr = some a → (∀ w : Word, w.toNat ≤ maxsize → w.toNat * elsize ≤ a.2) ∧
      ∀ i < maxsize, roomy (o.elems i)) :
    Decodes env x fresh (xdrArray S env proc zero x o maxsize elsize).stat
      (xdrArray S env proc zero x o maxsize elsize).xdrs
      ((scanLong S live x.strm).andThen (scanArray scan live maxsize elsize (nextWord S x.strm)))
      (releaseArray release elsize (xdrArray S env proc zero x o maxsize elsize).obj) := by
  refine decodes_count (k := scanArray scan live maxsize elsize)
    (r := fun v y => arrayData env proc zero y { o with size := v } maxsize elsize)
    (e := fun v => { o with size := v }) (p := releaseArray release elsize) hop hlive
    (fun hf => (hfresh hf).1) ?_ ?_
  · intro hf v
    unfold releaseArray
    rw [(hfresh hf).2]
  · intro v y hop hy
    exact decodes_arrayData (o := { o with size := v }) hop (fun hl => hy.trans (hlive hl))
      (fun hf => ⟨(hfresh hf).1.trans hy.symm, (hfresh hf).2⟩) hzero hroom hproc hroomy

theorem decodes_union {search : Word → Xdrs σ → α → Res σ α} {scan : Bool → Word → σ → Scan σ}
    {release : Word → α → Bool × List (Nat × Nat)} {o : Word × α} (hop : x.op = .decode)
    (hlive : live = true → x.live = true) (hfresh : fresh → live = x.live)
    (hnil : fresh → ∀ v, (release v o.2).2 = [])
    (hsearch : ∀ v (y : Xdrs σ), y.op = .decode → y.live = x.live →
      Decodes env y fresh (search v y o.2).stat (search v y o.2).xdrs (scan live v y.strm)
        (release v (search v y o.2).obj)) :
    Decodes env x fresh (xdrUnion S search x o).stat (xdrUnion S search x o).xdrs
      ((scanLong S live x.strm).andThen (scan live (nextWord S x.strm)))
      (release (xdrUnion S search x o).obj.1 (xdrUnion S search x o).obj.2) :=
  decodes_count (S := S) (w := o.1) (k := scan live)
    (r := fun v y => ⟨(search v y o.2).stat, (v, (search v y o.2).obj), (search v y o.2).xdrs⟩)
    (e := fun v => (v, o.2)) (p := fun u => release u.1 u.2) hop hlive hfresh hnil hsearch

mutual

theorem Filter.decodes (S : Ops σ) (env : Env) (fresh : Prop) : (f : Filter) →
    ∀ (x : Xdrs σ) (o : f.Obj) (live : Bool), x.op = .decode → (live = true → x.live = true) →
    (fresh → live = x.live ∧ o = f.zero) → f.Roomy o →
    Decodes env x fresh (f.xdr S env x o).stat (f.xdr S env x o).xdrs (f.scan S live x.strm)
      (f.release (f.xdr S env x o).obj)
  | .scalar k, x, o, live, hop, hlive, hfresh, _ =>
    decodes_scalar hop hlive (fun hf => (hfresh hf).1) k o
  | .opaqueData cnt, x, o, live, hop, hlive, hfresh, _ => by
      refine decodes_opaque hop (fun got hle hgood => ?_) (fun hf got hbad => ?_) o
      · rcases Bool.or_eq_true_iff.mp hgood with hl | hempty
        · rw [hlive hl, if_pos rfl]
          exact hle
        · rw [isEmpty_iff.mp hempty]
          exact Nat.zero_le _
      · obtain ⟨hl, hempty⟩ := Bool.or_eq_false_iff.mp hbad
        rw [← (hfresh hf).1, hl, if_neg Bool.noConfusion]
        cases got with
        | nil => exact Bool.noConfusion hempty
        | cons _ _ => exact Nat.succ_pos _
  | .bytes maxsize, x, o, live, hop, hlive, hfresh, hroomy =>
    decodes_bytes hop hlive (fun hf => ⟨(hfresh hf).1, by rw [(hfresh hf).2]; rfl⟩) hroomy
  | .string maxsize, x, o, live, hop, hlive, hfresh, hroomy =>
    decodes_string hop hlive hfresh hroomy
  | .array maxsize elsize f, x, o, live, hop, hlive, hfresh, hroomy =>
    decodes_array hop hlive (fun hf => ⟨(hfresh hf).1, by rw [(hfresh hf).2]; rfl⟩)
      f.release_zero f.roomy_zero
      (fun x o live hop hlive hfresh hroomy =>
        Filter.decodes S env fresh f x o live hop hlive hfresh hroomy) hroomy
  | .vector nelem _ f, x, o, live, hop, hlive, hfresh, hroomy =>
    (decodes_elements f.release_zero (fun x o live hop hlive hfresh hroomy =>
        Filter.decodes S env fresh f x o live hop hlive hfresh hroomy)
      (fun _ _ => hlive) (fun hf _ _ => (hfresh hf).1) nelem 0 x o (Nat.zero_add _) hop
      (fun j hj _ => hroomy j hj) (fun hf j _ => by rw [(hfresh hf).2]; rfl)).1
  | .union cs, x, (dscm, un), live, hop, hlive, hfresh, hroomy => by
      have hzero : fresh → un = cs.zero := fun hf => congrArg Prod.snd (hfresh hf).2
      have hnil : fresh → ∀ v, (cs.release v un).2 = [] := by
        intro hf v
        rw [hzero hf]
        exact cs.release_zero v
      have hsearch : ∀ v (y : Xdrs σ), y.op = .decode → y.live = x.live →
          Decodes env y fresh (cs.xdr S env v y un).stat (cs.xdr S env v y un).xdrs
            (cs.scan S live v y.strm) (cs.release v (cs.xdr S env v y un).obj) :=
        fun v y hop hy => Choices.decodes S env fresh cs v y un live hop
          (fun hl => hy.trans (hlive hl)) (fun hf => ⟨(hfresh hf).1.trans hy.symm, hzero hf⟩) hroomy
      exact decodes_union (o := (dscm, un)) hop hlive (fun hf => (hfresh hf).1) hnil hsearch

theorem Choices.decodes (S : Ops σ) (env : Env) (fresh : Prop) : (cs : Choices) →
    ∀ (dscm : Word) (x : Xdrs σ) (o : cs.Obj) (live : Bool), x.op = .decode →
    (live = true → x.live = true) → (fresh → live = x.live ∧ o = cs.zero) → cs.Roomy o →
    Decodes env x fresh (cs.xdr S env dscm x o).stat (cs.xdr S env dscm x o).xdrs
      (cs.scan S live dscm x.strm) (cs.release dscm (cs.xdr S env dscm x o).obj)
  | .stop, _, x, _, _, hop, _, _, _ =>
    decodes_refl hop false _ fun _ => ⟨rfl, Bool.noConfusion⟩
  | .dfault f, _, x, o, live, hop, hlive, hfresh, hroomy =>
    Filter.decodes S env fresh f x o live hop hlive hfresh hroomy
  | .choice value f rest, dscm, x, (o, os), live, hop, hlive, hfresh, hroomy => by
      have ho : fresh → o = f.zero := fun hf => congrArg Prod.fst (hfresh hf).2
      have hos : fresh → os = rest.zero := fun hf => congrArg Prod.snd (hfresh hf).2
      change Decodes env x fresh _ _
        (if value = dscm then f.scan S live x.strm else rest.scan S live dscm x.strm)
        (if value = dscm then f.release _ else rest.release dscm _)
      by_cases heq : value = dscm
      · have hrun := Filter.decodes S env fresh f x o live hop hlive
          (fun hf => ⟨(hfresh hf).1, ho hf⟩) hroomy.1
        rw [Choices.xdr_this heq, if_pos heq, if_pos heq]
        exact hrun
      · have hrun := Choices.decodes S env fresh rest dscm x os live hop hlive
          (fun hf => ⟨(hfresh hf).1, hos hf⟩) hroomy.2
        rw [Choices.xdr_next heq, if_neg heq, if_neg heq]
        exact hrun

end

end Decodes

/-!
## Safety
-/

section Safe

variable {σ : Type}

/-- No store outside, and a free pass that gives back just what was allocated. -/
def Safe (S : Ops σ) (f : Filter) (s : σ) : Prop :=
  (∀ (env : Env) (x : Xdrs σ) (o : f.Obj), x.op = .decode → x.strm = s → x.live = true →
    x.heap.outside = false → f.Roomy o → (f.xdr S env x o).xdrs.heap.outside = false) ∧
  ∀ (env : Env) (x : Xdrs σ) (t : σ), x.op = .decode → x.strm = s → x.live = true →
    x.heap.outside = false →
    let r := f.xdr S env x f.zero
    let q := f.xdr S env ⟨.free, t, true, r.xdrs.heap⟩ r.obj
    ∃ as fs, r.xdrs.heap.log = x.heap.log ++ alloced as ∧
      q.xdrs.heap.log = r.xdrs.heap.log ++ freed fs ∧ fs.Perm as

theorem alloced_injective : Function.Injective alloced :=
  map_injective_iff.mpr fun a b h => by
    cases a
    cases b
    cases h
    rfl

theorem freed_injective : Function.Injective freed :=
  map_injective_iff.mpr fun a b h => by
    cases a
    cases b
    cases h
    rfl

def hugeCount : Xdrmem :=
  ⟨8, 0, poke (fun _ => 0) 0 (longBytes 0x40000000 ++ longBytes 7)⟩

end Safe

end Xdr
end Svr4
