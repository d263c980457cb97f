import Svr4.Xdr.Model

/-!
# The wire format

What a value looks like on the wire, which values have a wire format, and what the memory
stream does with bytes.
-/

namespace Svr4
namespace Xdr

open ByteOrder List

/-!
## Values
-/

def Scalar.widen : (k : Scalar) → BitVec k.width → Word
  | .int => id
  | .uInt => id
  | .long => id
  | .uLong => id
  | .short => BitVec.signExtend 32
  | .uShort => BitVec.setWidth 32
  | .char => BitVec.signExtend 32
  | .uChar => BitVec.signExtend 32
  | .bool => fun b => if (b : Word) ≠ 0 then 1 else 0
  | .enum => id

def longBytes (w : Word) : List UInt8 :=
  (List.range 4).map fun i => UInt8.ofNat (w.toNat / 256 ^ Order.big.place 4 i)

def padded (cp : Nat → UInt8) (cnt : Nat) : List UInt8 :=
  (List.range cnt).map cp ++ List.replicate (roundup cnt) 0

def pointed (sp : Option Block) : Nat → UInt8 := (sp.getD .null).bytes

def wires {α : Type} (wire : α → List UInt8) (elems : Nat → α) : Nat → Nat → List UInt8
  | 0, _ => []
  | n + 1, i => wire (elems i) ++ wires wire elems n (i + 1)

mutual

def Filter.wire : (f : Filter) → f.Obj → List UInt8
  | .scalar k, v => longBytes (k.widen v)
  | .opaqueData cnt, v => padded v cnt
  | .bytes _, v => longBytes (BytesObj.size v) ++
      padded (pointed (BytesObj.sp v)) (BytesObj.size v).toNat
  | .string _, v => longBytes (BitVec.ofNat 32 (strlen (Option.getD v .null))) ++
      padded (pointed v) (strlen (Option.getD v .null))
  | .array _ _ f, v => longBytes (ArrayObj.size v) ++
      wires f.wire (ArrayObj.elems v) (ArrayObj.size v).toNat 0
  | .vector nelem _ f, v => wires f.wire v nelem 0
  | .union cs, (dscm, un) => longBytes dscm ++ cs.wire dscm un

def Choices.wire : (cs : Choices) → Word → cs.Obj → List UInt8
  | .stop, _, _ => []
  | .dfault f, _, v => f.wire v
  | .choice value f rest, dscm, (v, vs) =>
    if value = dscm then f.wire v else rest.wire dscm vs

end

mutual

/-- A value within the maxima of its filter, which lies in memory. -/
def Filter.Valid : (f : Filter) → f.Obj → Prop
  | .scalar k, v => k = .bool → v = (0 : BitVec k.width) ∨ v = (1 : BitVec k.width)
  | .opaqueData _, _ => True
  | .bytes maxsize, v => (BytesObj.size v).toNat ≤ maxsize ∧ ((BytesObj.size v).toNat ≠ 0 →
      ∃ b, BytesObj.sp v = some b ∧ (BytesObj.size v).toNat ≤ b.cap)
  | .string maxsize, v => ∃ b : Block, v = some b ∧ strlen b < b.cap ∧ strlen b ≤ maxsize ∧
      strlen b + 1 < 2 ^ 32
  | .array maxsize elsize f, v => (ArrayObj.size v).toNat ≤ maxsize ∧
      (ArrayObj.size v).toNat * elsize < 2 ^ 32 ∧
      ((ArrayObj.size v).toNat ≠ 0 → ∃ id cap, ArrayObj.addr v = some (id, cap) ∧
        (ArrayObj.size v).toNat * elsize ≤ cap) ∧
      ∀ i < (ArrayObj.size v).toNat, f.Valid (ArrayObj.elems v i)
  | .vector nelem _ f, v => ∀ i < nelem, f.Valid (v i)
  | .union cs, (dscm, un) => cs.Valid dscm un

def Choices.Valid : (cs : Choices) → Word → cs.Obj → Prop
  | .stop, _, _ => False
  | .dfault f, _, v => f.Valid v
  | .choice value f rest, dscm, (v, vs) =>
    if value = dscm then f.Valid v else rest.Valid dscm vs

end

mutual

def Filter.Same : (f : Filter) → f.Obj → f.Obj → Prop
  | .scalar _, v, o => v = o
  | .opaqueData cnt, v, o => ∀ i < cnt, v i = o i
  | .bytes _, v, o => BytesObj.size v = BytesObj.size o ∧
      ∀ i < (BytesObj.size v).toNat, pointed (BytesObj.sp v) i = pointed (BytesObj.sp o) i
  | .string _, v, o => ∃ b b' : Block, v = some b ∧ o = some b' ∧ strlen b = strlen b' ∧
      ∀ i ≤ strlen b, b.bytes i = b'.bytes i
  | .array _ _ f, v, o => ArrayObj.size v = ArrayObj.size o ∧
      ∀ i < (ArrayObj.size v).toNat, f.Same (ArrayObj.elems v i) (ArrayObj.elems o i)
  | .vector nelem _ f, v, o => ∀ i < nelem, f.Same (v i) (o i)
  | .union cs, (dscm, un), (dscm', un') => dscm = dscm' ∧ cs.Same dscm un un'

def Choices.Same : (cs : Choices) → Word → cs.Obj → cs.Obj → Prop
  | .stop, _, _, _ => False
  | .dfault f, _, v, o => f.Same v o
  | .choice value f rest, dscm, (v, vs), (o, os) =>
    if value = dscm then f.Same v o else rest.Same dscm vs os

end

mutual

/-- An object that a value can be decoded to: its pointers are null or lead to enough memory. -/
def Filter.Fits : (f : Filter) → f.Obj → f.Obj → Prop
  | .scalar _, _, _ => True
  | .opaqueData _, _, _ => True
  | .bytes _, v, o => ∀ b, BytesObj.sp o = some b → (BytesObj.size v).toNat ≤ b.cap
  | .string _, v, o => ∀ b : Block, o = some b → strlen (Option.getD v .null) < b.cap
  | .array _ elsize f, v, o => ∀ a, ArrayObj.addr o = some a →
      (ArrayObj.size v).toNat * elsize ≤ a.2 ∧
      ∀ i < (ArrayObj.size v).toNat, f.Fits (ArrayObj.elems v i) (ArrayObj.elems o i)
  | .vector nelem _ f, v, o => ∀ i < nelem, f.Fits (v i) (o i)
  | .union cs, (dscm, un), (_, un') => cs.Fits dscm un un'

def Choices.Fits : (cs : Choices) → Word → cs.Obj → cs.Obj → Prop
  | .stop, _, _, _ => True
  | .dfault f, _, v, o => f.Fits v o
  | .choice value f rest, dscm, (v, vs), (o, os) =>
    if value = dscm then f.Fits v o else rest.Fits dscm vs os

end

mutual

theorem Filter.fits_zero : (f : Filter) → ∀ v, f.Fits v f.zero
  | .scalar _, _ => trivial
  | .opaqueData _, _ => trivial
  | .bytes _, _ => by
      intro b h
      cases h
  | .string _, _ => by
      intro b h
      cases h
  | .array _ _ _, _ => by
      intro a h
      cases h
  | .vector nelem _ f, v => fun i _ => f.fits_zero (v i)
  | .union cs, (dscm, un) => cs.fits_zero dscm un

theorem Choices.fits_zero : (cs : Choices) → ∀ dscm v, cs.Fits dscm v cs.zero
  | .stop, _, _ => trivial
  | .dfault f, _, v => f.fits_zero v
  | .choice value f rest, dscm, (v, vs) => by
      change if value = dscm then f.Fits v f.zero else rest.Fits dscm vs rest.zero
      split
      · exact f.fits_zero v
      · exact rest.fits_zero dscm vs

end

/-!
## Lengths
-/

section Lengths

theorem longBytes_getElem (w : Word) {i : Nat} (h : i < (longBytes w).length) :
    (longBytes w)[i] = UInt8.ofNat (w.toNat / 256 ^ Order.big.place 4 i) := by
  simp [longBytes]

theorem longBytes_length (w : Word) : (longBytes w).length = 4 := by
  unfold longBytes
  rw [length_map, length_range]

theorem padded_length (cp : Nat → UInt8) (cnt : Nat) : 4 ∣ (padded cp cnt).length := by
  unfold padded roundup BYTES_PER_XDR_UNIT
  rw [length_append, length_map, length_range, length_replicate]
  split <;> omega

theorem wires_length {α : Type} {wire : α → List UInt8} (h : ∀ v, 4 ∣ (wire v).length)
    (elems : Nat → α) (n i : Nat) : 4 ∣ (wires wire elems n i).length := by
  induction n generalizing i with
  | zero => exact ⟨0, rfl⟩
  | succ n ih =>
    unfold wires
    rw [length_append]
    exact Nat.dvd_add (h _) (ih _)

theorem longBytes_dvd (w : Word) : 4 ∣ (longBytes w).length := by
  rw [longBytes_length]

mutual

theorem Filter.wire_length : (f : Filter) → ∀ v, 4 ∣ (f.wire v).length
  | .scalar k, v => longBytes_dvd (k.widen v)
  | .opaqueData cnt, v => padded_length v cnt
  | .bytes _, v => by
      unfold Filter.wire
      rw [length_append]
      exact Nat.dvd_add (longBytes_dvd _) (padded_length _ _)
  | .string _, v => by
      unfold Filter.wire
      rw [length_append]
      exact Nat.dvd_add (longBytes_dvd _) (padded_length _ _)
  | .array _ _ f, v => by
      unfold Filter.wire
      rw [length_append]
      exact Nat.dvd_add (longBytes_dvd _) (wires_length f.wire_length _ _ _)
  | .vector nelem _ f, v => by
      exact wires_length f.wire_length _ _ _
  | .union cs, (dscm, un) => by
      change 4 ∣ (longBytes dscm ++ cs.wire dscm un).length
      rw [length_append]
      exact Nat.dvd_add (longBytes_dvd _) (cs.wire_length dscm un)

theorem Choices.wire_length : (cs : Choices) → ∀ dscm v, 4 ∣ (cs.wire dscm v).length
  | .stop, _, _ => ⟨0, rfl⟩
  | .dfault f, _, v => by
      exact f.wire_length v
  | .choice value f rest, dscm, (v, vs) => by
      change 4 ∣ (if value = dscm then f.wire v else rest.wire dscm vs).length
      split
      · exact f.wire_length v
      · exact rest.wire_length dscm vs

end

end Lengths

/-!
## The stream in memory
-/

def Holds (m : Mem) (p : Nat) (l : List UInt8) : Prop := ∀ i (h : i < l.length), m (p + i) = l[i]

def poke (m : Mem) (p : Nat) (l : List UInt8) : Mem := fun a =>
  if p ≤ a then (l[a - p]?).getD (m a) else m a

def Xdrs.wrote (x : Xdrs Xdrmem) (l : List UInt8) : Xdrs Xdrmem :=
  { x with
    strm := ⟨x.strm.xHandy - l.length, x.strm.xPrivate + l.length,
      poke x.strm.mem x.strm.xPrivate l⟩ }

def Xdrs.advance (x : Xdrs Xdrmem) (n : Nat) : Xdrs Xdrmem :=
  { x with strm := ⟨x.strm.xHandy - n, x.strm.xPrivate + n, x.strm.mem⟩ }

def Xdrs.Room (x : Xdrs Xdrmem) (n : Nat) : Prop :=
  (n : Int) ≤ x.strm.xHandy ∧ x.strm.xHandy < 2 ^ 31

section Stream

variable {x : Xdrs Xdrmem} {m : Mem} {p n k : Nat} {l l' : List UInt8}

theorem holds_append : Holds m p (l ++ l') ↔ Holds m p l ∧ Holds m (p + l.length) l' := by
  constructor
  · intro h
    refine ⟨fun i hi => ?_, fun i hi => ?_⟩
    · have hall := h i (by rw [length_append]; omega)
      rw [getElem_append_left hi] at hall
      exact hall
    · have hall := h (l.length + i) (by rw [length_append]; omega)
      rw [Nat.add_assoc, hall]
      simp
  · rintro ⟨h, h'⟩ i hi
    by_cases hlt : i < l.length
    · rw [getElem_append_left hlt]
      exact h i hlt
    · rw [getElem_append_right (by omega)]
      rw [length_append] at hi
      have hback := h' (i - l.length) (by omega)
      rw [← hback]
      congr 1
      omega

theorem poke_holds (m : Mem) (p : Nat) (l : List UInt8) : Holds (poke m p l) p l := by
  intro i hi
  unfold poke
  rw [if_pos (Nat.le_add_right p i), Nat.add_sub_cancel_left, getElem?_eq_getElem hi]
  rfl

theorem poke_outside {a : Nat} (h : a < p ∨ p + l.length ≤ a) : poke m p l a = m a := by
  unfold poke
  split
  · rw [getElem?_eq_none (by omega)]
    rfl
  · rfl

theorem poke_poke : poke (poke m p l) (p + l.length) l' = poke m p (l ++ l') := by
  funext a
  unfold poke
  by_cases hp : p ≤ a
  · rw [if_pos hp, if_pos hp]
    by_cases hl : p + l.length ≤ a
    · have hnone : l[a - p]? = none := getElem?_eq_none (by omega)
      rw [if_pos hl, getElem?_append_right (by omega), hnone, Nat.sub_sub]
      rfl
    · have hlt : a - p < l.length := by omega
      rw [if_neg hl, getElem?_append_left hlt, getElem?_eq_getElem hlt]
  · have hl : ¬ p + l.length ≤ a := by omega
    rw [if_neg hl, if_neg hp, if_neg hp]

theorem wrote_nil (x : Xdrs Xdrmem) : x.wrote [] = x := by
  have hpoke : poke x.strm.mem x.strm.xPrivate [] = x.strm.mem := by
    funext a
    exact poke_outside (by simp; omega)
  unfold Xdrs.wrote
  rw [hpoke]
  simp

theorem wrote_wrote (x : Xdrs Xdrmem) (l l' : List UInt8) :
    (x.wrote l).wrote l' = x.wrote (l ++ l') := by
  unfold Xdrs.wrote
  simp only [poke_poke, length_append, Nat.cast_add, Nat.add_assoc, Int.sub_sub]

theorem advance_advance (x : Xdrs Xdrmem) (n k : Nat) :
    (x.advance n).advance k = x.advance (n + k) := by
  unfold Xdrs.advance
  simp only [Nat.cast_add, Nat.add_assoc, Int.sub_sub]

theorem Xdrs.Room.wrote (h : x.Room (l.length + n)) : (x.wrote l).Room n := by
  have h1 := h.1
  have h2 := h.2
  unfold Xdrs.Room Xdrs.wrote
  dsimp only
  omega

theorem Xdrs.Room.advance (h : x.Room (k + n)) : (x.advance k).Room n := by
  have h1 := h.1
  have h2 := h.2
  unfold Xdrs.Room Xdrs.advance
  dsimp only
  omega

theorem Xdrs.Room.le (h : x.Room n) (hk : k ≤ n) : x.Room k := by
  have h1 := h.1
  exact ⟨by omega, h.2⟩

theorem Xdrs.Room.handy (h : x.Room n) : (x.strm.xHandy - n).bmod (2 ^ 32) = x.strm.xHandy - n := by
  have h1 := h.1
  have h2 := h.2
  exact Int.bmod_eq_of_le (by omega) (by omega)

theorem putlong_eq (h : x.Room 4) (w : Word) :
    xdrmemOps.putlong x.strm w = (true, (x.wrote (longBytes w)).strm) := by
  have hhandy : (x.strm.xHandy - 4).bmod (2 ^ 32) = x.strm.xHandy - 4 := h.handy
  have h1 : (4 : Int) ≤ x.strm.xHandy := h.1
  have hnot : ¬ x.strm.xHandy - 4 < 0 := by omega
  have hstore : store x.strm.mem .big 4 x.strm.xPrivate w.toNat =
      poke x.strm.mem x.strm.xPrivate (longBytes w) := by
    funext a
    unfold store poke
    have hlen := longBytes_length w
    by_cases hp : x.strm.xPrivate ≤ a
    · rw [if_pos hp]
      by_cases hlt : a < x.strm.xPrivate + 4
      · have hi : a - x.strm.xPrivate < (longBytes w).length := by omega
        rw [if_pos ⟨hp, hlt⟩, getElem?_eq_getElem hi]
        rw [longBytes_getElem]
        rfl
      · rw [if_neg (fun hh => hlt hh.2), getElem?_eq_none (by omega)]
        rfl
    · rw [if_neg hp, if_neg (fun hh => hp hh.1)]
  unfold xdrmemOps Xdrs.wrote
  simp only
  rw [hhandy, if_neg hnot, hstore, longBytes_length]
  rfl

theorem putbytes_eq (h : x.Room l.length) :
    xdrmemOps.putbytes x.strm l = (true, (x.wrote l).strm) := by
  have hhandy := h.handy
  have h1 := h.1
  have hnot : ¬ x.strm.xHandy - l.length < 0 := by omega
  unfold xdrmemOps Xdrs.wrote
  simp only
  rw [hhandy, if_neg hnot]
  rfl

theorem getlong_eq (h : x.Room 4) {w : Word} (hm : Holds x.strm.mem x.strm.xPrivate (longBytes w)) :
    xdrmemOps.getlong x.strm = (some w, (x.advance 4).strm) := by
  have hhandy : (x.strm.xHandy - 4).bmod (2 ^ 32) = x.strm.xHandy - 4 := h.handy
  have h1 : (4 : Int) ≤ x.strm.xHandy := h.1
  have hnot : ¬ x.strm.xHandy - 4 < 0 := by omega
  have hload : load x.strm.mem .big 4 x.strm.xPrivate = w.toNat := by
    have hbytes : ∀ i < 4, x.strm.mem (x.strm.xPrivate + i) =
        UInt8.ofNat (w.toNat / 256 ^ Order.big.place 4 i) := by
      intro i hi
      rw [hm i (by rw [longBytes_length]; exact hi)]
      exact longBytes_getElem w _
    rw [load_bytes hbytes]
    exact Nat.mod_eq_of_lt w.isLt
  unfold xdrmemOps Xdrs.advance
  simp only
  rw [hhandy, if_neg hnot, hload, BitVec.ofNat_toNat]
  rfl

theorem getbytes_eq (h : x.Room l.length) (hm : Holds x.strm.mem x.strm.xPrivate l) :
    xdrmemOps.getbytes x.strm l.length = (l, true, (x.advance l.length).strm) := by
  have hhandy := h.handy
  have h1 := h.1
  have hnot : ¬ x.strm.xHandy - l.length < 0 := by omega
  have hlist : (List.range l.length).map (fun i => x.strm.mem (x.strm.xPrivate + i)) = l := by
    refine ext_getElem (by simp) fun i h1 h2 => ?_
    rw [getElem_map, getElem_range]
    exact hm i h2
  unfold xdrmemOps Xdrs.advance
  simp only
  rw [hhandy, if_neg hnot, hlist]

end Stream

end Xdr
end Svr4
