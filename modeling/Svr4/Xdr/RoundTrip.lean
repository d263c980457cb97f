import Svr4.Xdr.Wire

/-!
# Encoding and decoding

A valid value is encoded as its wire format, and what is decoded from there has an equal
value and takes just these bytes.
-/

namespace Svr4
namespace Xdr

open Function ByteOrder List

/-!
## Encoding
-/

section Encode

variable {x : Xdrs Xdrmem} {env : Env} {l : List UInt8} {n k : Nat}

theorem touch_true {σ : Type} (x : Xdrs σ) : x.touch true = x := by
  unfold Xdrs.touch
  simp

variable {w cap cnt maxsize N elsize : Nat}

theorem setWidth_signExtend (hw : w ≤ 32) (v : BitVec w) : (v.signExtend 32).setWidth w = v := by
  refine BitVec.eq_of_getLsbD_eq fun i hi => ?_
  rw [BitVec.getLsbD_setWidth, BitVec.getLsbD_signExtend]
  simp only [hi, decide_true, Bool.true_and, if_true]
  have h32 : i < 32 := by omega
  simp [h32]

/-- A stream that encodes from an object in memory, with some room. -/
structure Xdrs.Writes (x : Xdrs Xdrmem) (n : Nat) : Prop where
  op : x.op = .encode
  live : x.live = true
  room : x.Room n

theorem Xdrs.Writes.le (h : x.Writes n) (hk : k ≤ n) : x.Writes k := ⟨h.op, h.live, h.room.le hk⟩

theorem Xdrs.Writes.wrote (h : x.Writes (l.length + n)) : (x.wrote l).Writes n :=
  ⟨h.op, h.live, h.room.wrote⟩

theorem Xdrs.Writes.store (h : x.Writes n) (l : List UInt8) : (x.wrote l).store = x.wrote l := by
  have hlive : (x.wrote l).live = true := h.live
  unfold Xdrs.store
  rw [hlive, touch_true]

theorem Xdrs.Writes.head {w : Word} (h : x.Writes (longBytes w ++ l).length) :
    x.Writes 4 ∧ (x.wrote (longBytes w)).Writes l.length := by
  rw [length_append] at h
  refine ⟨?_, h.wrote⟩
  exact h.le (Nat.le_add_right _ _)

theorem within_live {σ : Type} {x : Xdrs σ} (h : x.live = true) : x.within true = x := by
  unfold Xdrs.within
  rw [← h]

theorem xdrLong_encode (h : x.Writes 4) (lp : Word) :
    xdrLong xdrmemOps x lp = ⟨true, lp, x.wrote (longBytes lp)⟩ := by
  unfold xdrLong
  rw [h.op]
  simp only [putlong_eq h.room]
  unfold Xdrs.wrote
  rw [← h.op]

theorem xdrAs_encode {widen : BitVec w → Word} {narrow : Word → BitVec w} (h : x.Writes 4)
    (p : BitVec w) :
    xdrAs xdrmemOps widen narrow x p = ⟨true, p, x.wrote (longBytes (widen p))⟩ := by
  unfold xdrAs
  rw [h.op]
  simp only [putlong_eq h.room]
  unfold Xdrs.wrote
  rw [← h.op]

theorem Scalar.encode (k : Scalar) (h : x.Writes 4) (v : BitVec k.width) :
    k.xdr xdrmemOps x v = ⟨true, v, x.wrote (longBytes (k.widen v))⟩ := by
  have hchar : ∀ v : BitVec 8, xdrChar xdrmemOps x v =
      ⟨true, v, x.wrote (longBytes (v.signExtend 32))⟩ := by
    intro v
    have hlong : xdrInt xdrmemOps x (v.signExtend 32) = _ := xdrLong_encode h _
    unfold xdrChar
    rw [within_live h.live, hlong]
    simp only [if_true, setWidth_signExtend (by decide : 8 ≤ 32), h.live]
    rw [within_live (x := x.wrote _) h.live, h.store]
  cases k with
  | short => exact xdrAs_encode h v
  | uShort => exact xdrAs_encode h v
  | bool =>
    have h : xdrBool xdrmemOps x v = _ := xdrAs_encode h v
    exact h
  | char => exact hchar v
  | uChar => exact hchar v
  | _ => exact xdrLong_encode h v

theorem xdrOpaque_encode {cp : Nat → UInt8} (h : x.Writes (padded cp cnt).length) :
    xdrOpaque xdrmemOps x cp cap cnt = ⟨true, cp, x.wrote (padded cp cnt)⟩ := by
  unfold xdrOpaque
  split
  · rename_i hzero
    have hnil : padded cp cnt = [] := by
      rw [hzero]
      rfl
    rw [hnil, wrote_nil]
  · unfold padded at h ⊢
    rw [length_append] at h
    have hfirst := putbytes_eq (h.le (Nat.le_add_right _ _)).room
    have hsecond : xdrmemOps.putbytes (x.wrote ((List.range cnt).map cp)).strm
        (List.replicate (roundup cnt) 0) = _ := putbytes_eq h.wrote.room
    rw [wrote_wrote] at hsecond
    simp only [h.op, hfirst]
    rw [if_neg Bool.noConfusion]
    split
    · rename_i hround
      rw [hround, replicate_zero, append_nil]
      unfold Xdrs.wrote
      rw [← h.op]
    · rw [hsecond]
      unfold Xdrs.wrote
      rw [← h.op]

theorem xdrBlock_encode {b : Block} (h : x.Writes (padded b.bytes cnt).length) :
    xdrBlock xdrmemOps x b cnt = ⟨true, b, x.wrote (padded b.bytes cnt)⟩ := by
  unfold xdrBlock
  rw [xdrOpaque_encode h]

theorem xdrBytes_encode {v : BytesObj} (hv : (Filter.bytes maxsize).Valid v)
    (h : x.Writes ((Filter.bytes maxsize).wire v).length) :
    xdrBytes xdrmemOps env x v maxsize = ⟨true, v, x.wrote ((Filter.bytes maxsize).wire v)⟩ := by
  obtain ⟨hfour, hrest⟩ := h.head
  have hop : (x.wrote (longBytes v.size)).op = .encode := h.op
  have hmax : ¬ (v.size.toNat > maxsize ∧ (x.wrote (longBytes v.size)).op ≠ .free) :=
    fun h => absurd hv.1 (by omega)
  have hlong : xdrUInt xdrmemOps x v.size = _ := xdrLong_encode hfour v.size
  have hblock : xdrBlock xdrmemOps (x.wrote (longBytes v.size)) (v.sp.getD .null)
      v.size.toNat = _ := xdrBlock_encode hrest
  unfold xdrBytes
  rw [hlong]
  simp only
  unfold bytesData
  simp only [if_neg hmax]
  simp only [hop, hblock, wrote_wrote]
  rfl

theorem xdrString_encode {v : Option Block} (hv : (Filter.string maxsize).Valid v)
    (h : x.Writes ((Filter.string maxsize).wire v).length) :
    xdrString xdrmemOps env x v maxsize = ⟨true, v, x.wrote ((Filter.string maxsize).wire v)⟩ := by
  obtain ⟨b, rfl, hcap, hmax, hlen⟩ := hv
  change _ = Res.mk true (some b)
    (x.wrote (longBytes (BitVec.ofNat 32 (strlen b)) ++ padded b.bytes (strlen b)))
  obtain ⟨hfour, hrest⟩ := h.head
  have hsize : (BitVec.ofNat 32 (strlen b)).toNat = strlen b := by
    exact Nat.mod_eq_of_lt (by omega)
  have hlong : xdrUInt xdrmemOps x (BitVec.ofNat 32 (strlen b)) = _ := xdrLong_encode hfour _
  have hblock : xdrBlock xdrmemOps (x.wrote (longBytes (BitVec.ofNat 32 (strlen b)))) b
      (strlen b) = _ := xdrBlock_encode hrest
  have hsome : (some b).getD .null = b := rfl
  have hfree : ¬ (x.op = .free ∧ (some b).isNone = true) := fun h => absurd h.2 Bool.false_ne_true
  have hop : (x.wrote (longBytes (BitVec.ofNat 32 (strlen b)))).op = .encode := h.op
  have hdecode : ¬ x.op = .decode := by
    rw [h.op]
    decide
  unfold xdrString
  rw [if_neg hfree, within_live h.live]
  simp only [if_neg hdecode, hsome, hlong, h.live]
  rw [if_neg (by decide), within_live (x := x.wrote _) h.live]
  unfold stringData
  rw [hsize, if_neg (by omega), hop]
  simp only [hsome, hblock, wrote_wrote]

variable {α : Type} {proc : Xdrs Xdrmem → α → Res Xdrmem α} {wire : α → List UInt8}

theorem elements_encode {elems : Nat → α} {inside : Nat → Bool} (hin : ∀ i < N, inside i = true)
    (hproc : ∀ i < N, ∀ x : Xdrs Xdrmem, x.Writes (wire (elems i)).length →
      proc x (elems i) = ⟨true, elems i, x.wrote (wire (elems i))⟩) :
    ∀ n i (x : Xdrs Xdrmem), i + n = N → x.Writes (wires wire elems n i).length →
      elements proc inside n i x elems = ⟨true, elems, x.wrote (wires wire elems n i)⟩ := by
  intro n
  induction n with
  | zero =>
    intro i x _ _
    unfold wires
    rw [wrote_nil]
    rfl
  | succ n ih =>
    intro i x hi h
    have hlt : i < N := by omega
    unfold wires at h ⊢
    rw [length_append] at h
    have hone := hproc i hlt x (h.le (Nat.le_add_right _ _))
    have hback := within_live (x := x.wrote (wire (elems i))) h.live
    unfold elements
    simp only [hin i hlt, within_live h.live, hone, if_true, update_eq_self, h.live, hback]
    rw [ih (i + 1) (x.wrote (wire (elems i))) (by omega) h.wrote, wrote_wrote]

theorem inBlock_of_le (h : N * elsize ≤ cap) : ∀ i < N, inBlock elsize cap i = true := by
  intro i hi
  have hle : (i + 1) * elsize ≤ N * elsize := Nat.mul_le_mul_right _ hi
  exact decide_eq_true (Nat.le_trans hle h)

theorem xdrArray_encode {zero : α} {o : ArrayObj α} (hmax : o.size.toNat ≤ maxsize)
    (haddr : o.size.toNat ≠ 0 → ∃ id cap, o.addr = some (id, cap) ∧ o.size.toNat * elsize ≤ cap)
    (hproc : ∀ i < o.size.toNat, ∀ x : Xdrs Xdrmem, x.Writes (wire (o.elems i)).length →
      proc x (o.elems i) = ⟨true, o.elems i, x.wrote (wire (o.elems i))⟩)
    (h : x.Writes (longBytes o.size ++ wires wire o.elems o.size.toNat 0).length) :
    xdrArray xdrmemOps env proc zero x o maxsize elsize =
      ⟨true, o, x.wrote (longBytes o.size ++ wires wire o.elems o.size.toNat 0)⟩ := by
  obtain ⟨hfour, hrest⟩ := h.head
  have hnot : ¬ (o.size.toNat > maxsize ∧ (x.wrote (longBytes o.size)).op ≠ .free) :=
    fun h => absurd hmax (by omega)
  have hlong : xdrUInt xdrmemOps x o.size = _ := xdrLong_encode hfour o.size
  have hrun : ∀ cap, o.size.toNat * elsize ≤ cap →
      elements proc (inBlock elsize cap) o.size.toNat 0 (x.wrote (longBytes o.size)) o.elems =
        ⟨true, o.elems, (x.wrote (longBytes o.size)).wrote (wires wire o.elems o.size.toNat 0)⟩ :=
    fun cap hcap => elements_encode (inBlock_of_le hcap) hproc o.size.toNat 0 _ (Nat.zero_add _)
      hrest
  have hop : (x.wrote (longBytes o.size)).op = .encode := h.op
  have hfree : ¬ (x.wrote (longBytes o.size)).op = .free := by
    rw [hop]
    decide
  unfold xdrArray
  rw [hlong]
  simp only
  unfold arrayData
  simp only [if_neg hnot]
  cases ho : o.addr with
  | none =>
    have hzero : o.size.toNat = 0 := by
      by_contra hne
      obtain ⟨id, cap, heq, _⟩ := haddr hne
      rw [ho] at heq
      cases heq
    simp only [hop]
    rw [hrun 0 (by rw [hzero, Nat.zero_mul]), wrote_wrote]
    cases o
    cases ho
    rfl
  | some a =>
    have hcap : o.size.toNat * elsize ≤ a.2 := by
      by_cases hzero : o.size.toNat = 0
      · rw [hzero, Nat.zero_mul]
        exact Nat.zero_le _
      · obtain ⟨id, cap, heq, hle⟩ := haddr hzero
        rw [ho] at heq
        cases heq
        exact hle
    unfold arrayElems
    simp only [if_neg hfree, hrun a.2 hcap, wrote_wrote]
    cases o
    cases ho
    rfl

theorem Choices.xdr_this {σ : Type} {S : Ops σ} {x : Xdrs σ} {value dscm : Word} {f : Filter}
    {rest : Choices} {v : f.Obj} {vs : rest.Obj} (h : value = dscm) :
    (Choices.choice value f rest).xdr S env dscm x (v, vs) =
      ⟨(f.xdr S env x v).stat, ((f.xdr S env x v).obj, vs), (f.xdr S env x v).xdrs⟩ :=
  if_pos h

theorem Choices.xdr_next {σ : Type} {S : Ops σ} {x : Xdrs σ} {value dscm : Word} {f : Filter}
    {rest : Choices} {v : f.Obj} {vs : rest.Obj} (h : ¬ value = dscm) :
    (Choices.choice value f rest).xdr S env dscm x (v, vs) =
      ⟨(rest.xdr S env dscm x vs).stat, (v, (rest.xdr S env dscm x vs).obj),
        (rest.xdr S env dscm x vs).xdrs⟩ :=
  if_neg h

mutual

theorem Filter.encode (env : Env) : (f : Filter) → ∀ (v : f.Obj) (x : Xdrs Xdrmem), f.Valid v →
    x.Writes (f.wire v).length → f.xdr xdrmemOps env x v = ⟨true, v, x.wrote (f.wire v)⟩
  | .scalar k, v, x, _, h => k.encode h v
  | .opaqueData cnt, v, x, _, h => xdrOpaque_encode h
  | .bytes maxsize, v, x, hv, h => xdrBytes_encode hv h
  | .string maxsize, v, x, hv, h => xdrString_encode hv h
  | .array maxsize elsize f, v, x, hv, h =>
    xdrArray_encode hv.1 hv.2.2.1
      (fun i hi x h => Filter.encode env f (ArrayObj.elems v i) x (hv.2.2.2 i hi) h) h
  | .vector nelem _ f, v, x, hv, h => by
      have hproc : ∀ i < nelem, ∀ x : Xdrs Xdrmem, x.Writes (f.wire (v i)).length →
          f.xdr xdrmemOps env x (v i) = ⟨true, v i, x.wrote (f.wire (v i))⟩ :=
        fun i hi x h => Filter.encode env f (v i) x (hv i hi) h
      exact elements_encode (fun _ _ => h.live) hproc nelem 0 x (Nat.zero_add _) h
  | .union cs, (dscm, un), x, hv, h => by
      obtain ⟨hfour, hrest⟩ := h.head
      have hlong : xdrEnum xdrmemOps x dscm = _ := xdrLong_encode hfour dscm
      have harm := Choices.encode env cs dscm un (x.wrote (longBytes dscm)) hv hrest
      change xdrUnion xdrmemOps (cs.xdr xdrmemOps env) x (dscm, un) = _
      unfold xdrUnion
      rw [hlong]
      simp only [harm, wrote_wrote]
      rfl

theorem Choices.encode (env : Env) : (cs : Choices) → ∀ (dscm : Word) (v : cs.Obj)
    (x : Xdrs Xdrmem), cs.Valid dscm v → x.Writes (cs.wire dscm v).length →
    cs.xdr xdrmemOps env dscm x v = ⟨true, v, x.wrote (cs.wire dscm v)⟩
  | .stop, _, _, _, hv, _ => absurd hv id
  | .dfault f, _, v, x, hv, h => Filter.encode env f v x hv h
  | .choice value f rest, dscm, (v, vs), x, hv, h => by
      change (if value = dscm then f.Valid v else rest.Valid dscm vs) at hv
      change x.Writes (if value = dscm then f.wire v else rest.wire dscm vs).length at h
      by_cases heq : value = dscm
      · rw [if_pos heq] at hv h
        have hrun := Filter.encode env f v x hv h
        refine (Choices.xdr_this heq).trans ?_
        refine (congrArg (fun r => Res.mk r.stat (r.obj, vs) r.xdrs) hrun).trans ?_
        exact congrArg (fun l => Res.mk true (v, vs) (x.wrote l)) (if_pos heq).symm
      · rw [if_neg heq] at hv h
        have hrun := Choices.encode env rest dscm vs x hv h
        refine (Choices.xdr_next heq).trans ?_
        refine (congrArg (fun r => Res.mk r.stat (v, r.obj) r.xdrs) hrun).trans ?_
        exact congrArg (fun l => Res.mk true (v, vs) (x.wrote l)) (if_neg heq).symm

end

end Encode

/-!
## Decoding
-/

/-- Some bytes were read, nothing else happened to the stream, and all stores were inside. -/
structure Xdrs.Read (x : Xdrs Xdrmem) (n : Nat) (x' : Xdrs Xdrmem) : Prop where
  op : x'.op = x.op
  strm : x'.strm = (x.advance n).strm
  live : x'.live = x.live
  outside : x'.heap.outside = x.heap.outside

/-- A stream that decodes into an object in memory, with some bytes ahead. -/
structure Xdrs.Ready (x : Xdrs Xdrmem) (l : List UInt8) : Prop where
  op : x.op = .decode
  live : x.live = true
  room : x.Room l.length
  holds : Holds x.strm.mem x.strm.xPrivate l

def Env.Grants (env : Env) : Prop := ∀ id size, env.grants id size = true

section Decode

variable {α : Type} {x x' x'' : Xdrs Xdrmem} {env : Env} {l l' : List UInt8} {n k : Nat}

theorem Xdrs.Read.refl (x : Xdrs Xdrmem) : x.Read 0 x := by
  refine ⟨rfl, ?_, rfl, rfl⟩
  unfold Xdrs.advance
  simp

theorem Xdrs.Read.trans (h : x.Read n x') (h' : x'.Read k x'') : x.Read (n + k) x'' := by
  refine ⟨h'.op.trans h.op, ?_, h'.live.trans h.live, h'.outside.trans h.outside⟩
  rw [h'.strm, ← advance_advance]
  unfold Xdrs.advance
  rw [h.strm]
  rfl

theorem read_advance (x : Xdrs Xdrmem) (n : Nat) : x.Read n (x.advance n) := ⟨rfl, rfl, rfl, rfl⟩

theorem Xdrs.Ready.first (h : x.Ready (l ++ l')) : x.Ready l := by
  refine ⟨h.op, h.live, h.room.le ?_, (holds_append.mp h.holds).1⟩
  rw [length_append]
  exact Nat.le_add_right _ _

theorem Xdrs.Ready.rest (h : x.Ready (l ++ l')) (hread : x.Read l.length x') : x'.Ready l' := by
  have hroom := h.room
  rw [length_append] at hroom
  have hafter := hroom.advance
  refine ⟨hread.op.trans h.op, hread.live.trans h.live, ?_, ?_⟩
  · unfold Xdrs.Room
    rw [hread.strm]
    exact hafter
  · rw [hread.strm]
    exact (holds_append.mp h.holds).2

theorem Xdrs.Ready.store (h : x.Ready l) (hread : x.Read n x') : x'.store = x' := by
  unfold Xdrs.store
  rw [hread.live.trans h.live, touch_true]

variable {w : Word}

theorem xdrLong_decode (h : x.Ready (longBytes w)) (lp : Word) :
    xdrLong xdrmemOps x lp = ⟨true, w, x.advance 4⟩ := by
  have hroom : x.Room 4 := by
    have hroom := h.room
    exact hroom
  unfold xdrLong
  rw [h.op]
  have hstore := h.store (read_advance x 4)
  simp only [getlong_eq hroom h.holds]
  rw [← h.op]
  exact congrArg (Res.mk true w) hstore

theorem xdrAs_decode {w : Nat} {widen : BitVec w → Word} {narrow : Word → BitVec w}
    {v : BitVec w} (h : x.Ready (longBytes (widen v))) (hv : narrow (widen v) = v)
    (p : BitVec w) : xdrAs xdrmemOps widen narrow x p = ⟨true, v, x.advance 4⟩ := by
  have hroom : x.Room 4 := by
    have hroom := h.room
    exact hroom
  unfold xdrAs
  rw [h.op]
  have hstore := h.store (read_advance x 4)
  simp only [getlong_eq hroom h.holds, hv]
  rw [← h.op]
  exact congrArg (Res.mk true v) hstore

theorem Scalar.decode (k : Scalar) {v : BitVec k.width} (hv : (Filter.scalar k).Valid v)
    (h : x.Ready (longBytes (k.widen v))) (o : BitVec k.width) :
    k.xdr xdrmemOps x o = ⟨true, v, x.advance 4⟩ := by
  have hchar : ∀ v o : BitVec 8, x.Ready (longBytes (v.signExtend 32)) →
      xdrChar xdrmemOps x o = ⟨true, v, x.advance 4⟩ := by
    intro v o h
    have hlong : xdrInt xdrmemOps x (o.signExtend 32) = _ := xdrLong_decode h _
    have hlive : (x.advance 4).live = true := h.live
    unfold xdrChar
    rw [within_live h.live, hlong]
    simp only [if_true, setWidth_signExtend (by decide : 8 ≤ 32), h.live, within_live hlive]
    rw [h.store (read_advance x 4)]
  cases k with
  | short => exact xdrAs_decode h (setWidth_signExtend (by decide) v) o
  | uShort =>
    refine xdrAs_decode h ?_ o
    exact BitVec.setWidth_setWidth_of_le v (by decide)
  | bool =>
    refine (xdrAs_decode h ?_ o : xdrBool xdrmemOps x o = _)
    rcases hv rfl with hv | hv
    · rw [hv]
      rfl
    · rw [hv]
      rfl
  | char => exact hchar v o h
  | uChar => exact hchar v o h
  | _ => exact xdrLong_decode h o

theorem xdrOpaque_decode {v : Nat → UInt8} {cap cnt : Nat} (h : x.Ready (padded v cnt))
    (hcap : cnt ≤ cap) (cp : Nat → UInt8) :
    ∃ x', xdrOpaque xdrmemOps x cp cap cnt = ⟨true, fun i => if i < cnt then v i else cp i, x'⟩ ∧
      x.Read (padded v cnt).length x' := by
  unfold xdrOpaque
  split
  · rename_i hzero
    have hnil : (padded v cnt).length = 0 := by
      rw [hzero]
      rfl
    have hcp : (fun i => if i < cnt then v i else cp i) = cp := by
      funext i
      exact if_neg (by omega)
    rw [hnil, hcp]
    exact ⟨x, rfl, .refl x⟩
  · have hcp' : ∀ i, (((List.range cnt).map v)[i]?).getD (cp i) = if i < cnt then v i else cp i := by
      intro i
      split
      · rename_i hlt
        rw [getElem?_map, getElem?_range hlt]
        rfl
      · rename_i hge
        rw [getElem?_eq_none (by simpa using hge)]
        rfl
    have hlen : ((List.range cnt).map v).length = cnt := by simp
    have hread := read_advance x ((List.range cnt).map v).length
    have hfirst := getbytes_eq h.first.room h.first.holds
    have hrest := h.rest hread
    have hsecond := getbytes_eq hrest.room hrest.holds
    rw [length_replicate] at hsecond
    rw [hlen] at hfirst hsecond
    have hwhole : (padded v cnt).length = cnt + roundup cnt := by
      unfold padded
      rw [length_append, hlen, length_replicate]
    have hinside : ((List.range cnt).map v).length ≤ cap := by
      rw [hlen]
      exact hcap
    simp only [h.op, hfirst, hcp', decide_eq_true hinside, touch_true]
    rw [if_neg Bool.noConfusion]
    split
    · rename_i hround
      refine ⟨_, rfl, h.op.symm, ?_, rfl, rfl⟩
      rw [hwhole, hround]
      rfl
    · rw [hsecond]
      refine ⟨_, rfl, h.op.symm, ?_, rfl, rfl⟩
      rw [hwhole, ← advance_advance]

theorem Xdrs.Ready.word (h : x.Ready (longBytes w ++ l)) :
    (∀ lp, xdrLong xdrmemOps x lp = ⟨true, w, x.advance 4⟩) ∧ (x.advance 4).Ready l := by
  refine ⟨fun lp => xdrLong_decode h.first lp, h.rest ?_⟩
  exact read_advance x 4

theorem memAlloc_grants (hgrants : env.Grants) (x : Xdrs Xdrmem) (size : Nat) :
    ∃ x', x.memAlloc env size =
        (some ⟨x.heap.next, size, env.garbage x.heap.next⟩, x') ∧ x.Read 0 x' := by
  unfold Xdrs.memAlloc
  rw [if_pos (hgrants _ _)]
  refine ⟨_, rfl, rfl, ?_, rfl, rfl⟩
  rw [(Xdrs.Read.refl x).strm]

theorem Xdrs.Ready.same (h : x.Ready l) (hread : x.Read 0 x') : x'.Ready l :=
  Xdrs.Ready.rest (x := x) (l := []) h hread

theorem read_word (hread : (x.advance 4).Read l.length x') :
    x.Read (longBytes w ++ l).length x' := by
  rw [length_append, longBytes_length]
  exact (read_advance x 4).trans hread

variable {maxsize : Nat}

theorem xdrBytes_decode {v o : BytesObj} (hgrants : env.Grants)
    (hv : (Filter.bytes maxsize).Valid v) (hfits : (Filter.bytes maxsize).Fits v o)
    (h : x.Ready ((Filter.bytes maxsize).wire v)) :
    ∃ o' x', xdrBytes xdrmemOps env x o maxsize = ⟨true, o', x'⟩ ∧
      x.Read ((Filter.bytes maxsize).wire v).length x' ∧ (Filter.bytes maxsize).Same v o' := by
  obtain ⟨hword, hbytes⟩ := h.word
  have hop : (x.advance 4).op = .decode := h.op
  have hmax : ¬ (v.size.toNat > maxsize ∧ (x.advance 4).op ≠ .free) :=
    fun h => absurd hv.1 (by omega)
  have hlong : xdrUInt xdrmemOps x o.size = _ := hword o.size
  unfold xdrBytes
  rw [hlong]
  unfold bytesData
  simp only [if_neg hmax]
  simp only [hop]
  by_cases hzero : v.size.toNat = 0
  · rw [if_pos hzero]
    refine ⟨_, _, rfl, read_word ?_, rfl, fun i hi => ?_⟩
    · have hnil : (padded (pointed v.sp) v.size.toNat).length = 0 := by
        rw [hzero]
        rfl
      rw [hnil]
      exact .refl _
    · exact absurd hi (by omega)
  · rw [if_neg hzero]
    unfold xdrBlock
    cases hsp : o.sp with
    | none =>
      simp only [h.store (read_advance x 4)]
      obtain ⟨y, halloc, hsame⟩ := memAlloc_grants hgrants (x.advance 4) v.size.toNat
      obtain ⟨x', hplain, hread⟩ := xdrOpaque_decode (hbytes.same hsame)
        (Nat.le_refl v.size.toNat) (env.garbage (x.advance 4).heap.next)
      simp only [halloc, hplain]
      refine ⟨_, _, rfl, read_word ?_, rfl, fun i hi => (if_pos hi).symm⟩
      have hall := hsame.trans hread
      rw [Nat.zero_add] at hall
      exact hall
    | some b =>
      obtain ⟨x', hplain, hread⟩ := xdrOpaque_decode hbytes (hfits b hsp) b.bytes
      simp only [hplain]
      exact ⟨_, _, rfl, read_word hread, rfl, fun i hi => (if_pos hi).symm⟩

variable {b : Block}

theorem strlen_nonzero {i : Nat} (h : i < strlen b) : b.bytes i ≠ 0 := by
  unfold strlen at h
  cases hfind : (List.range b.cap).find? fun i => decide (b.bytes i = 0) with
  | none =>
    rw [hfind] at h
    have hnot := find?_eq_none.mp hfind i (mem_range.mpr h)
    simpa using hnot
  | some n =>
    rw [hfind] at h
    have hbefore := (find?_range_eq_some.mp hfind).2.2 i h
    simpa using hbefore

theorem strlen_zero (h : strlen b < b.cap) : b.bytes (strlen b) = 0 := by
  unfold strlen at h ⊢
  cases hfind : (List.range b.cap).find? fun i => decide (b.bytes i = 0) with
  | none =>
    rw [hfind] at h
    exact absurd h (Nat.lt_irrefl _)
  | some n => simpa using (find?_range_eq_some.mp hfind).1

theorem strlen_eq {n : Nat} (hcap : n < b.cap) (hzero : b.bytes n = 0)
    (h : ∀ i < n, b.bytes i ≠ 0) : strlen b = n := by
  have hfind : (List.range b.cap).find? (fun i => decide (b.bytes i = 0)) = some n := by
    refine find?_range_eq_some.mpr ⟨by simpa using hzero, mem_range.mpr hcap, ?_⟩
    intro i hi
    simpa using h i hi
  unfold strlen
  rw [hfind]
  rfl

theorem string_same {b' : Block} (hcap : strlen b < b.cap) (hcap' : strlen b < b'.cap)
    (hbytes : b'.bytes = fun i =>
      if i < strlen b then b.bytes i else update b'.bytes (strlen b) 0 i) :
    strlen b = strlen b' ∧ ∀ i ≤ strlen b, b.bytes i = b'.bytes i := by
  have hin : ∀ i < strlen b, b'.bytes i = b.bytes i := by
    intro i hi
    rw [hbytes]
    exact if_pos hi
  have hnull : b'.bytes (strlen b) = 0 := by
    rw [hbytes]
    simp
  constructor
  · refine (strlen_eq hcap' hnull fun i hi => ?_).symm
    rw [hin i hi]
    exact strlen_nonzero hi
  · intro i hi
    rcases Nat.lt_or_eq_of_le hi with hlt | heq
    · exact (hin i hlt).symm
    · rw [heq, hnull]
      exact strlen_zero hcap

theorem xdrString_decode {v o : Option Block} (hgrants : env.Grants)
    (hv : (Filter.string maxsize).Valid v) (hfits : (Filter.string maxsize).Fits v o)
    (h : x.Ready ((Filter.string maxsize).wire v)) :
    ∃ o' x', xdrString xdrmemOps env x o maxsize = ⟨true, o', x'⟩ ∧
      x.Read ((Filter.string maxsize).wire v).length x' ∧ (Filter.string maxsize).Same v o' := by
  obtain ⟨b, rfl, hcap, hmax, hlen⟩ := hv
  change x.Ready (longBytes (BitVec.ofNat 32 (strlen b)) ++ padded b.bytes (strlen b)) at h
  obtain ⟨hword, hbytes⟩ := h.word
  have hsize : (BitVec.ofNat 32 (strlen b)).toNat = strlen b := by
    exact Nat.mod_eq_of_lt (by omega)
  have hnode : (BitVec.ofNat 32 (strlen b) + 1).toNat = strlen b + 1 := by
    rw [BitVec.toNat_add, hsize]
    exact Nat.mod_eq_of_lt hlen
  have hfree : ¬ (x.op = .free ∧ o.isNone = true) := by
    rw [h.op]
    exact fun h => Op.noConfusion h.1
  have hlong : ∀ w, xdrUInt xdrmemOps x w = _ := hword
  unfold xdrString
  have hlive : (x.advance 4).live = true := h.live
  have hop : (x.advance 4).op = .decode := h.op
  rw [if_neg hfree, within_live h.live]
  simp only [hlong, h.live, within_live hlive]
  rw [if_neg Bool.noConfusion]
  unfold stringData
  rw [hsize, if_neg (by omega), hnode, hop]
  simp only [if_neg (Nat.succ_ne_zero _), h.store (read_advance x 4)]
  unfold xdrBlock
  cases o with
  | none =>
    obtain ⟨y, halloc, hsame⟩ := memAlloc_grants hgrants (x.advance 4) (strlen b + 1)
    obtain ⟨x', hplain, hread⟩ := xdrOpaque_decode (hbytes.same hsame) (Nat.le_succ (strlen b))
      (update (env.garbage (x.advance 4).heap.next) (strlen b) 0)
    simp only [halloc, decide_eq_true (Nat.lt_succ_self (strlen b)), touch_true, hplain]
    refine ⟨_, _, rfl, read_word ?_, b, _, rfl, rfl, string_same hcap (Nat.lt_succ_self _) ?_⟩
    · have hall := hsame.trans hread
      rw [Nat.zero_add] at hall
      exact hall
    · funext i
      by_cases hi : i < strlen b
      · simp only [if_pos hi]
      · simp only [if_neg hi, update_apply]
        split <;> rfl
  | some a =>
    have hroom : strlen b < a.cap := hfits a rfl
    obtain ⟨x', hplain, hread⟩ := xdrOpaque_decode hbytes (Nat.le_of_lt hroom)
      (update a.bytes (strlen b) 0)
    simp only [decide_eq_true hroom, touch_true, hplain]
    refine ⟨_, _, rfl, read_word hread, b, _, rfl, rfl, string_same hcap hroom ?_⟩
    funext i
    by_cases hi : i < strlen b
    · simp only [if_pos hi]
    · simp only [if_neg hi, update_apply]
      split <;> rfl

variable {proc : Xdrs Xdrmem → α → Res Xdrmem α} {wire : α → List UInt8}

theorem elements_decode {same fits : α → α → Prop} {v : Nat → α} {inside : Nat → Bool} {N : Nat}
    (hin : ∀ i < N, inside i = true)
    (hproc : ∀ i < N, ∀ o, ∀ x : Xdrs Xdrmem, fits (v i) o → x.Ready (wire (v i)) → ∃ o' x',
      proc x o = ⟨true, o', x'⟩ ∧ x.Read (wire (v i)).length x' ∧ same (v i) o') :
    ∀ n i (x : Xdrs Xdrmem) elems, i + n = N → x.Ready (wires wire v n i) →
      (∀ j < i, same (v j) (elems j)) → (∀ j < N, i ≤ j → fits (v j) (elems j)) →
      ∃ o x', elements proc inside n i x elems = ⟨true, o, x'⟩ ∧
        x.Read (wires wire v n i).length x' ∧ ∀ j < N, same (v j) (o j) := by
  intro n
  induction n with
  | zero =>
    intro i x elems hi h hdone _
    refine ⟨elems, x, rfl, .refl x, fun j hj => hdone j ?_⟩
    omega
  | succ n ih =>
    intro i x elems hi h hdone hfits
    have hlt : i < N := by omega
    unfold wires at h ⊢
    obtain ⟨o, x', hrun, hread, hsame⟩ :=
      hproc i hlt (elems i) x (hfits i hlt (Nat.le_refl i)) h.first
    have hrest := h.rest hread
    obtain ⟨os, x'', hruns, hreads, hsames⟩ := ih (i + 1) x' (update elems i o) (by omega) hrest (by
        intro j hj
        by_cases hji : j = i
        · rw [hji, update_self]
          exact hsame
        · rw [update_of_ne hji]
          exact hdone j (by omega))
      (by
        intro j hjN hj
        rw [update_of_ne (by omega)]
        exact hfits j hjN (by omega))
    refine ⟨os, x'', ?_, ?_, hsames⟩
    · unfold elements
      simp only [hin i hlt, within_live h.live, hrun, if_true, h.live,
        within_live (hread.live.trans h.live), hruns]
    · rw [length_append]
      exact hread.trans hreads

theorem xdrArray_decode {same fits : α → α → Prop} {zero : α} {v o : ArrayObj α} {elsize : Nat}
    (hgrants : env.Grants) (hmax : v.size.toNat ≤ maxsize) (hsize : v.size.toNat * elsize < 2 ^ 32)
    (hproc : ∀ i < v.size.toNat, ∀ o, ∀ x : Xdrs Xdrmem, fits (v.elems i) o →
      x.Ready (wire (v.elems i)) → ∃ o' x', proc x o = ⟨true, o', x'⟩ ∧
        x.Read (wire (v.elems i)).length x' ∧ same (v.elems i) o') (hzero : ∀ v, fits v zero)
    (hfits : ∀ a, o.addr = some a → v.size.toNat * elsize ≤ a.2 ∧
      ∀ i < v.size.toNat, fits (v.elems i) (o.elems i))
    (h : x.Ready (longBytes v.size ++ wires wire v.elems v.size.toNat 0)) :
    ∃ o' x', xdrArray xdrmemOps env proc zero x o maxsize elsize = ⟨true, o', x'⟩ ∧
      x.Read (longBytes v.size ++ wires wire v.elems v.size.toNat 0).length x' ∧
      v.size = o'.size ∧ ∀ i < v.size.toNat, same (v.elems i) (o'.elems i) := by
  obtain ⟨hword, helems⟩ := h.word
  have hop : (x.advance 4).op = .decode := h.op
  have hnot : ¬ (v.size.toNat > maxsize ∧ (x.advance 4).op ≠ .free) :=
    fun h => absurd hmax (by omega)
  have hlong : xdrUInt xdrmemOps x o.size = _ := hword o.size
  unfold xdrArray
  rw [hlong]
  unfold arrayData
  simp only [if_neg hnot]
  cases haddr : o.addr with
  | some a =>
    obtain ⟨hcap, hfit⟩ := hfits a haddr
    obtain ⟨os, x', hrun, hread, hsames⟩ := elements_decode (inBlock_of_le hcap) hproc
      v.size.toNat 0 (x.advance 4) o.elems (Nat.zero_add _) helems
      (fun j hj => absurd hj (Nat.not_lt_zero j)) (fun j hj _ => hfit j hj)
    have hfree : ¬ (x.advance 4).op = .free := by
      rw [hop]
      exact Op.noConfusion
    unfold arrayElems
    simp only [hrun, if_neg hfree]
    exact ⟨_, _, rfl, read_word hread, rfl, hsames⟩
  | none =>
    simp only [hop]
    by_cases hnil : v.size.toNat = 0
    · rw [if_pos hnil]
      refine ⟨_, _, rfl, read_word ?_, rfl, fun i hi => ?_⟩
      · rw [hnil]
        exact .refl _
      · exact absurd hi (by omega)
    · obtain ⟨y, halloc, hsame⟩ := memAlloc_grants hgrants (x.advance 4) (v.size.toNat * elsize)
      obtain ⟨os, x', hrun, hread, hsames⟩ :=
        elements_decode (inBlock_of_le (Nat.le_refl (v.size.toNat * elsize))) hproc v.size.toNat 0 y
          (fun _ => zero) (Nat.zero_add _) (helems.same hsame)
          (fun j hj => absurd hj (Nat.not_lt_zero j)) (fun j _ _ => hzero (v.elems j))
      have hfree : ¬ y.op = .free := by
        rw [hsame.op.trans h.op]
        exact Op.noConfusion
      rw [if_neg hnil, Nat.mod_eq_of_lt hsize, h.store (read_advance x 4), halloc]
      unfold arrayElems
      simp only [hrun, if_neg hfree]
      refine ⟨_, _, rfl, read_word ?_, rfl, hsames⟩
      have hall := hsame.trans hread
      rw [Nat.zero_add] at hall
      exact hall

mutual

theorem Filter.decode (env : Env) (hgrants : env.Grants) : (f : Filter) →
    ∀ (v o : f.Obj) (x : Xdrs Xdrmem), f.Valid v → f.Fits v o → x.Ready (f.wire v) →
    ∃ o' x', f.xdr xdrmemOps env x o = ⟨true, o', x'⟩ ∧ x.Read (f.wire v).length x' ∧ f.Same v o'
  | .scalar k, v, o, x, hv, _, h => by
      refine ⟨v, x.advance 4, k.decode hv h _, ?_, rfl⟩
      change x.Read (longBytes (k.widen v)).length _
      exact read_advance x 4
  | .opaqueData cnt, v, o, x, _, _, h => by
      have hcap : cnt ≤ if x.live then cnt else 0 := by
        rw [h.live, if_pos rfl]
      obtain ⟨x', hrun, hread⟩ := xdrOpaque_decode h hcap o
      exact ⟨_, x', hrun, hread, fun i hi => (if_pos hi).symm⟩
  | .bytes maxsize, v, o, x, hv, hfits, h => xdrBytes_decode hgrants hv hfits h
  | .string maxsize, v, o, x, hv, hfits, h => xdrString_decode hgrants hv hfits h
  | .array maxsize elsize f, v, o, x, hv, hfits, h =>
    xdrArray_decode hgrants hv.1 hv.2.1 (fun i hi o x hfits h =>
        Filter.decode env hgrants f (ArrayObj.elems v i) o x (hv.2.2.2 i hi) hfits h)
      f.fits_zero hfits h
  | .vector nelem _ f, v, o, x, hv, hfits, h => by
      have hproc : ∀ i < nelem, ∀ o, ∀ x : Xdrs Xdrmem, f.Fits (v i) o →
          x.Ready (f.wire (v i)) → ∃ o' x',
          f.xdr xdrmemOps env x o = ⟨true, o', x'⟩ ∧ x.Read (f.wire (v i)).length x' ∧
            f.Same (v i) o' :=
        fun i hi o x hfits h => Filter.decode env hgrants f (v i) o x (hv i hi) hfits h
      exact elements_decode (fun _ _ => h.live) hproc nelem 0 x o (Nat.zero_add _) h
        (fun j hj => absurd hj (Nat.not_lt_zero j)) (fun j hj _ => hfits j hj)
  | .union cs, (dscm, un), (dscm', un'), x, hv, hfits, h => by
      obtain ⟨hword, harm⟩ := h.word
      obtain ⟨o, x', hrun, hread, hsame⟩ :=
        Choices.decode env hgrants cs dscm un un' _ hv hfits harm
      have hlong : xdrEnum xdrmemOps x dscm' = _ := hword dscm'
      refine ⟨(dscm, o), x', ?_, read_word hread, rfl, hsame⟩
      change xdrUnion xdrmemOps (cs.xdr xdrmemOps env) x (dscm', un') = _
      unfold xdrUnion
      rw [hlong]
      simp only [hrun]
      rfl

theorem Choices.decode (env : Env) (hgrants : env.Grants) : (cs : Choices) →
    ∀ (dscm : Word) (v o : cs.Obj) (x : Xdrs Xdrmem), cs.Valid dscm v → cs.Fits dscm v o →
    x.Ready (cs.wire dscm v) → ∃ o' x', cs.xdr xdrmemOps env dscm x o = ⟨true, o', x'⟩ ∧
      x.Read (cs.wire dscm v).length x' ∧ cs.Same dscm v o'
  | .stop, _, _, _, _, hv, _, _ => absurd hv id
  | .dfault f, _, v, o, x, hv, hfits, h => Filter.decode env hgrants f v o x hv hfits h
  | .choice value f rest, dscm, (v, vs), (o, os), x, hv, hfits, h => by
      change (if value = dscm then f.Valid v else rest.Valid dscm vs) at hv
      change (if value = dscm then f.Fits v o else rest.Fits dscm vs os) at hfits
      change x.Ready (if value = dscm then f.wire v else rest.wire dscm vs) at h
      change ∃ o' x', _ ∧
        x.Read (if value = dscm then f.wire v else rest.wire dscm vs).length x' ∧ _
      by_cases heq : value = dscm
      · rw [if_pos heq] at hv hfits h
        obtain ⟨o', x', hrun, hread, hsame⟩ := Filter.decode env hgrants f v o x hv hfits h
        refine ⟨(o', os), x', (Choices.xdr_this heq).trans ?_, ?_, ?_⟩
        · exact congrArg (fun r => Res.mk r.stat (r.obj, os) r.xdrs) hrun
        · rw [if_pos heq]
          exact hread
        · exact (if_pos heq).mpr hsame
      · rw [if_neg heq] at hv hfits h
        obtain ⟨o', x', hrun, hread, hsame⟩ :=
          Choices.decode env hgrants rest dscm vs os x hv hfits h
        refine ⟨(o, o'), x', (Choices.xdr_next heq).trans ?_, ?_, ?_⟩
        · exact congrArg (fun r => Res.mk r.stat (o, r.obj) r.xdrs) hrun
        · rw [if_neg heq]
          exact hread
        · exact (if_neg heq).mpr hsame

end

end Decode

/-!
## Consecutive values
-/

abbrev Value := Σ f : Filter, f.Obj

/-- Filters are applied one after another, up to the first that fails. -/
def xdrAll {σ : Type} (S : Ops σ) (env : Env) : List Value → Xdrs σ → Res σ (List Value)
  | [], x => ⟨true, [], x⟩
  | v :: vs, x =>
    let r := v.1.xdr S env x v.2
    if r.stat = false then ⟨false, ⟨v.1, r.obj⟩ :: vs, r.xdrs⟩
    else
      let q := xdrAll S env vs r.xdrs
      ⟨q.stat, ⟨v.1, r.obj⟩ :: q.obj, q.xdrs⟩

def wireAll : List Value → List UInt8
  | [] => []
  | v :: vs => v.1.wire v.2 ++ wireAll vs

inductive Paired (rel : (f : Filter) → f.Obj → f.Obj → Prop) : Value → Value → Prop where
  | mk {f : Filter} {v o : f.Obj} (h : rel f v o) : Paired rel ⟨f, v⟩ ⟨f, o⟩

section Consecutive

variable {env : Env}

theorem wireAll_length (vs : List Value) : 4 ∣ (wireAll vs).length := by
  induction vs with
  | nil => exact ⟨0, rfl⟩
  | cons v vs ih =>
    unfold wireAll
    rw [length_append]
    exact Nat.dvd_add (v.1.wire_length v.2) ih

theorem xdrAll_encode {vs : List Value} (hvalid : ∀ v ∈ vs, v.1.Valid v.2) {x : Xdrs Xdrmem}
    (h : x.Writes (wireAll vs).length) :
    xdrAll xdrmemOps env vs x = ⟨true, vs, x.wrote (wireAll vs)⟩ := by
  induction vs generalizing x with
  | nil =>
    unfold wireAll
    rw [wrote_nil]
    rfl
  | cons v vs ih =>
    unfold wireAll at h ⊢
    rw [length_append] at h
    have hfirst := v.1.encode env v.2 x (hvalid v (mem_cons_self ..)) (h.le (Nat.le_add_right _ _))
    have hrest := ih (fun u hu => hvalid u (mem_cons_of_mem v hu)) h.wrote
    unfold xdrAll
    simp only [hfirst, hrest, wrote_wrote]
    rfl

theorem xdrAll_decode {vs os : List Value} (hgrants : env.Grants)
    (hvalid : ∀ v ∈ vs, v.1.Valid v.2) (hfits : List.Forall₂ (Paired Filter.Fits) vs os)
    {x : Xdrs Xdrmem} (h : x.Ready (wireAll vs)) :
    ∃ os' x', xdrAll xdrmemOps env os x = ⟨true, os', x'⟩ ∧ x.Read (wireAll vs).length x' ∧
      List.Forall₂ (Paired Filter.Same) vs os' := by
  induction hfits generalizing x with
  | nil => exact ⟨[], x, rfl, .refl x, .nil⟩
  | cons hfit _ ih =>
    cases hfit with
    | mk hfit =>
      rename_i vs os _ f v o
      unfold wireAll at h ⊢
      obtain ⟨o', x', hrun, hread, hsame⟩ :=
        f.decode env hgrants v o x (hvalid _ (mem_cons_self ..)) hfit h.first
      obtain ⟨os', x'', hruns, hreads, hsames⟩ :=
        ih (fun u hu => hvalid u (mem_cons_of_mem _ hu)) (h.rest hread)
      refine ⟨⟨f, o'⟩ :: os', x'', ?_, ?_, .cons (.mk hsame) hsames⟩
      · unfold xdrAll
        simp only [hrun, hruns]
        rfl
      · rw [length_append]
        exact hread.trans hreads

/-- Encoding takes whole units and changes no other memory, and from any stream that has these
bytes ahead the values come back, from just these bytes. -/
theorem encode_decode (env : Env) (hgrants : env.Grants) (vs os : List Value)
    (hvalid : ∀ v ∈ vs, v.1.Valid v.2) (hfits : List.Forall₂ (Paired Filter.Fits) vs os)
    (x : Xdrs Xdrmem) (hx : x.Writes (wireAll vs).length) :
    ∃ n x', xdrAll xdrmemOps env vs x = ⟨true, vs, x'⟩ ∧ 4 ∣ n ∧
      x'.strm.xPrivate = x.strm.xPrivate + n ∧ x'.strm.xHandy = x.strm.xHandy - n ∧
      (∀ a, a < x.strm.xPrivate ∨ x.strm.xPrivate + n ≤ a → x'.strm.mem a = x.strm.mem a) ∧
      ∀ y : Xdrs Xdrmem, y.op = .decode → y.live = true → y.Room n →
        (∀ i < n, y.strm.mem (y.strm.xPrivate + i) = x'.strm.mem (x.strm.xPrivate + i)) →
        ∃ os' y', xdrAll xdrmemOps env os y = ⟨true, os', y'⟩ ∧
          List.Forall₂ (Paired Filter.Same) vs os' ∧
          y'.strm = ⟨y.strm.xHandy - n, y.strm.xPrivate + n, y.strm.mem⟩ ∧
          y'.heap.outside = y.heap.outside := by
  refine ⟨(wireAll vs).length, x.wrote (wireAll vs), xdrAll_encode hvalid hx,
    wireAll_length vs, rfl, rfl, fun a ha => poke_outside ha, ?_⟩
  intro y hy hlive hroomy hmem
  have hready : y.Ready (wireAll vs) := by
    refine ⟨hy, hlive, hroomy, fun i hi => ?_⟩
    rw [hmem i hi]
    exact poke_holds x.strm.mem x.strm.xPrivate (wireAll vs) i hi
  obtain ⟨os', y', hrun, hread, hsame⟩ := xdrAll_decode hgrants hvalid hfits hready
  exact ⟨os', y', hrun, hsame, hread.strm, hread.outside⟩

/-- The string of two letters, and the arm of a union with a negative number. -/
def letters : Block := ⟨1, 3, fun i => if i < 2 then 97 else 0⟩

def twoValues : List Value :=
  [⟨.string 10, some letters⟩, ⟨.union (.choice 1 (.scalar .short) .stop), (1, (-1 : BitVec 16), ())⟩]

def twoZeros : List Value := twoValues.map fun v => ⟨v.1, v.1.zero⟩

theorem encode_decode_twoValues :
    let x : Xdrs Xdrmem := ⟨.encode, ⟨64, 0, fun _ => 0⟩, true, ⟨1, false, []⟩⟩
    ∃ n x', xdrAll xdrmemOps ⟨fun _ _ => true, fun _ _ => 0⟩ twoValues x = ⟨true, twoValues, x'⟩ ∧
      4 ∣ n ∧ x'.strm.xPrivate = x.strm.xPrivate + n ∧ x'.strm.xHandy = x.strm.xHandy - n ∧
      (∀ a, a < x.strm.xPrivate ∨ x.strm.xPrivate + n ≤ a → x'.strm.mem a = x.strm.mem a) ∧
      ∀ y : Xdrs Xdrmem, y.op = .decode → y.live = true → y.Room n →
        (∀ i < n, y.strm.mem (y.strm.xPrivate + i) = x'.strm.mem (x.strm.xPrivate + i)) →
        ∃ os' y', xdrAll xdrmemOps ⟨fun _ _ => true, fun _ _ => 0⟩ twoZeros y = ⟨true, os', y'⟩ ∧
          List.Forall₂ (Paired Filter.Same) twoValues os' ∧
          y'.strm = ⟨y.strm.xHandy - n, y.strm.xPrivate + n, y.strm.mem⟩ ∧
          y'.heap.outside = y.heap.outside := by
  refine encode_decode ⟨fun _ _ => true, fun _ _ => 0⟩ (fun _ _ => rfl) twoValues twoZeros ?_ ?_
    ⟨.encode, ⟨64, 0, fun _ => 0⟩, true, ⟨1, false, []⟩⟩ ⟨rfl, rfl, ?_⟩
  · intro v hv
    rcases mem_cons.mp hv with rfl | hv
    · exact ⟨letters, rfl, by decide, by decide, by decide⟩
    · rw [mem_singleton.mp hv]
      exact fun h => Scalar.noConfusion h
  · exact .cons (.mk (Filter.fits_zero _ _)) (.cons (.mk (Filter.fits_zero _ _)) .nil)
  · have hlen : (wireAll twoValues).length = 16 := by decide
    rw [hlen]
    exact ⟨by decide, by decide⟩

end Consecutive

end Xdr
end Svr4
