import Svr4.Lib.Transition

/-!
# Reading a file in pages

`_elf_vm` of `libelf/common/input.c`. A file and the members of its archive share the
image and the map `ed_vm` of the pages that have been read.
-/

namespace Svr4
namespace Paging

open Transition

def PGSZ : Nat := 2048

def NBITS : Nat := 32

def REGSZ : Nat := NBITS * PGSZ

def PGNUM (off : Nat) : Nat := off % REGSZ / PGSZ

def REGNUM (off : Nat) : Nat := off / REGSZ

/-- The image, with the map, which is empty for a file that is mapped; `reads` tells how often
each byte has been read. -/
structure Image where
  edVm : List (BitVec 32)
  edImagesz : Nat
  reads : Nat → Nat

structure Elf where
  edFsz : Nat
  edBaseoff : Nat
  edFd : Int
  /-- `ed_parent->ed_fd` -/
  parentFd : Option Int

inductive Err where
  | EFMT_VM | EIO_VM | EREQ_NOFD

/-- `lseek` and `read`, which gets `got` bytes at most or fails. -/
def Image.fetch (im : Image) (off sz : Nat) (got : Option Nat) : Image × Bool :=
  match got with
  | none => (im, false)
  | some n =>
    ({ im with
      reads := fun i => if off ≤ i ∧ i < off + min n sz then im.reads i + 1 else im.reads i },
      decide (min n sz = sz))

structure Walk where
  image : Image
  hdreg : Nat
  hdbit : BitVec 32
  off : Nat
  sz : Nat
  /-- The number of the next read. -/
  call : Nat

namespace Walk

def advance (w : Walk) : Walk :=
  if w.hdbit = 1#32 <<< (NBITS - 1) then { w with hdbit := 1#32 <<< 0, hdreg := w.hdreg + 1 }
  else { w with hdbit := w.hdbit <<< 1 }

/-- The missing pages, as far as the image goes. -/
def clip (w : Walk) : Nat :=
  if w.image.edImagesz - w.off < w.sz then w.image.edImagesz - w.off else w.sz

def read (io : Nat → Option Nat) (w : Walk) : Walk × Bool :=
  let r := w.image.fetch w.off w.clip (io w.call)
  ({ w with image := r.1, off := w.off + w.clip, sz := 0, call := w.call + 1 }, r.2)

def turn (io : Nat → Option Nat) (fd : Int) (w : Walk) : Option (Except (Image × Err) Walk) :=
  w.image.edVm[w.hdreg]?.map fun word =>
    if word &&& w.hdbit ≠ 0#32 then
      if w.sz ≠ 0 then
        let r := w.read io
        if r.2 then .ok { r.1 with off := r.1.off + PGSZ }.advance
        else .error (r.1.image, .EIO_VM)
      else .ok { w with off := w.off + PGSZ }.advance
    else if fd < 0 then .error (w.image, .EREQ_NOFD)
    else
      let vm := w.image.edVm.set w.hdreg (word ||| w.hdbit)
      .ok { w with image := { w.image with edVm := vm }, sz := w.sz + PGSZ }.advance

def loop (io : Nat → Option Nat) (fd : Int) (tlreg : Nat) (tlbit : BitVec 32) :
    Nat → Walk → Option (Except (Image × Err) Walk)
  | 0, _ => none
  | fuel + 1, w =>
    if w.hdreg = tlreg ∧ w.hdbit = tlbit then some (.ok w)
    else
      match w.turn io fd with
      | some (.ok v) => loop io fd tlreg tlbit fuel v
      | r => r

end Walk

/-- `_elf_vm`, without a result where it reads the map outside; `io` tells what the
reads get. -/
def elfVm (elf : Elf) (base sz : Nat) (io : Nat → Option Nat) (im : Image) :
    Option (Image × Except Err Unit) :=
  if elf.edFsz ≤ base ∨ elf.edFsz - base < sz then some (im, .error .EFMT_VM)
  else if im.edVm = [] ∨ sz = 0 then some (im, .ok ())
  else
    let fd := if elf.parentFd = some (-1) then -1 else elf.edFd
    let base := base + elf.edBaseoff
    let tail := base + sz + PGSZ - 1
    let w : Walk := ⟨im, REGNUM base, 1#32 <<< PGNUM base, base - base % PGSZ, 0, 0⟩
    match w.loop io fd (REGNUM tail) (1#32 <<< PGNUM tail) (tail / PGSZ - base / PGSZ + 1) with
    | none => none
    | some (.error (im, e)) => some (im, .error e)
    | some (.ok w) =>
      if w.sz ≠ 0 then
        if fd < 0 then some (w.image, .error .EREQ_NOFD)
        else
          let r := w.read io
          some (r.1.image, if r.2 then .ok () else .error .EIO_VM)
      else some (w.image, .ok ())

/-!
## Runs
-/

structure Request where
  elf : Elf
  base : Nat
  sz : Nat
  io : Nat → Option Nat

structure Start (im : Image) : Prop where
  edVm : im.edVm = [] ∨ im.edVm = List.replicate (REGNUM im.edImagesz + 1) 0#32
  reads : ∀ i, im.reads i = 0

def Step (im : Image) (r : Request) (im' : Image) : Prop :=
  r.elf.edBaseoff + r.elf.edFsz ≤ im.edImagesz ∧
    ∃ a, elfVm r.elf r.base r.sz r.io im = some (im', a)

def Complete (size : Nat) (io : Nat → Option Nat) : Prop := ∀ k, ∃ n, io k = some n ∧ size ≤ n

/-!
## Pages
-/

def Image.bit (im : Image) (page : Nat) : Bool :=
  (im.edVm[page / NBITS]?.getD 0#32).getLsbD (page % NBITS)

/-- The map has a bit for each page, and what has been read was read once, in a page marked. -/
structure Image.Ok (im : Image) : Prop where
  room : im.edVm ≠ [] → REGNUM im.edImagesz < im.edVm.length
  once : ∀ i, im.reads i ≤ 1
  unread : ∀ i, im.bit (i / PGSZ) = false → im.reads i = 0

def Image.Loaded (im : Image) : Prop :=
  ∀ i, i < im.edImagesz → im.bit (i / PGSZ) = true → im.reads i = 1

theorem one_shiftLeft_inj {a b : Nat} (ha : a < 32) (h : 1#32 <<< a = 1#32 <<< b) : a = b := by
  rw [← BitVec.twoPow_eq, ← BitVec.twoPow_eq] at h
  have hbit := congrArg (BitVec.getLsbD · a) h
  simp only [BitVec.getLsbD_twoPow, ha, decide_true, Bool.true_and] at hbit
  have heq := of_decide_eq_true ((Bool.and_eq_true_iff.mp hbit.symm).2)
  exact heq.symm

section Bits

variable {im : Image} {p q : Nat} {word : BitVec 32}

theorem bit_eq (hword : im.edVm[p / NBITS]? = some word) :
    im.bit p = word.getLsbD (p % NBITS) := by
  rw [Image.bit, hword]
  rfl

theorem and_ne_zero_iff (hword : im.edVm[p / NBITS]? = some word) :
    word &&& 1#32 <<< (p % NBITS) ≠ 0#32 ↔ im.bit p = true := by
  have hlt : p % NBITS < 32 := Nat.mod_lt p (by decide)
  rw [bit_eq hword, ← BitVec.twoPow_eq, BitVec.and_twoPow]
  cases word.getLsbD (p % NBITS) with
  | false => simp
  | true =>
    refine iff_of_true (fun h => ?_) rfl
    have hbit := congrArg (BitVec.getLsbD · (p % NBITS)) h
    simp [hlt] at hbit

theorem bit_set (hword : im.edVm[p / NBITS]? = some word) :
    { im with edVm := im.edVm.set (p / NBITS) (word ||| 1#32 <<< (p % NBITS)) }.bit q =
      (im.bit q || decide (q = p)) := by
  have hp : p % NBITS < 32 := Nat.mod_lt p (by decide)
  unfold Image.bit
  by_cases hreg : q / NBITS = p / NBITS
  · have hpage : q = p ↔ p % NBITS = q % NBITS := by
      unfold NBITS at *
      omega
    have hlt := (List.getElem?_eq_some_iff.mp hword).1
    rw [hreg, List.getElem?_set_self hlt, hword, Option.getD_some, Option.getD_some,
      BitVec.getLsbD_or, ← BitVec.twoPow_eq, BitVec.getLsbD_twoPow, decide_eq_true hp,
      Bool.true_and, decide_eq_decide.mpr hpage]
  · have hpage : q ≠ p := fun h => hreg (by rw [h])
    rw [List.getElem?_set_ne (Ne.symm hreg), decide_eq_false hpage, Bool.or_false]

end Bits

/-!
## Soundness
-/

/-- The walk is at the page `p`; the run that ends there is marked and not read. -/
structure Walk.At (good : Prop) (fd : Int) (size first : Nat) (w : Walk) (p : Nat) : Prop where
  hdreg : w.hdreg = p / NBITS
  hdbit : w.hdbit = 1#32 <<< (p % NBITS)
  run : ∃ q, first ≤ q ∧ w.off = q * PGSZ ∧ w.off + w.sz = p * PGSZ
  ok : w.image.Ok
  full : w.image.edVm ≠ []
  sized : w.image.edImagesz = size
  fresh : ∀ i, w.off ≤ i → i < w.off + w.sz → w.image.reads i = 0
  marked : ∀ r, first ≤ r → r < p → w.image.bit r = true
  loaded : good → ∀ i, i < size → w.image.bit (i / PGSZ) = true →
    w.off ≤ i ∧ i < w.off + w.sz ∨ w.image.reads i = 1
  idle : fd < 0 → w.sz = 0

section Walks

variable {good : Prop} {fd : Int} {size first p : Nat} {w : Walk} {io : Nat → Option Nat}

structure Leaves (good : Prop) (size : Nat) (io : Nat → Option Nat) (im : Image) : Prop where
  ok : im.Ok
  sized : im.edImagesz = size
  loaded : good → Complete size io → im.Loaded

theorem advance_spec (im : Image) (off sz call : Nat) :
    (⟨im, p / NBITS, 1#32 <<< (p % NBITS), off, sz, call⟩ : Walk).advance =
      ⟨im, (p + 1) / NBITS, 1#32 <<< ((p + 1) % NBITS), off, sz, call⟩ := by
  unfold Walk.advance
  split
  · next hlast =>
    have hend := one_shiftLeft_inj (Nat.mod_lt p (by decide)) hlast
    have hnext : (p + 1) / NBITS = p / NBITS + 1 ∧ (p + 1) % NBITS = 0 := by
      unfold NBITS at *
      omega
    rw [hnext.1, hnext.2]
  · next hlast =>
    have hend : p % NBITS ≠ 31 := fun h => hlast (by rw [h]; rfl)
    have hnext : (p + 1) / NBITS = p / NBITS ∧ (p + 1) % NBITS = p % NBITS + 1 := by
      unfold NBITS at *
      omega
    rw [hnext.1, hnext.2, BitVec.shiftLeft_add]

variable (io) in
theorem Walk.At.read (h : w.At good fd size first p) :
    (w.read io).1.image.Ok ∧ (w.read io).1.image.edVm = w.image.edVm ∧
      (w.read io).1.image.edImagesz = size ∧ (Complete size io → (w.read io).2 = true) ∧
      ((w.read io).2 = true → good → (w.read io).1.image.Loaded) := by
  rcases h.run with ⟨q, hfirst, hoff, hend⟩
  have hclip : w.clip ≤ w.sz ∧ w.clip ≤ size ∧ ∀ i, i < size → i < w.off + w.sz → w.off ≤ i →
      i < w.off + w.clip := by
    have hsized := h.sized
    unfold Walk.clip
    split
    · exact ⟨by omega, by omega, fun i _ _ _ => by omega⟩
    · exact ⟨by omega, by omega, fun i _ _ _ => by omega⟩
  unfold Walk.read
  cases hio : io w.call with
  | none =>
    refine ⟨h.ok, rfl, h.sized, fun hcomplete => ?_, fun hfail => Bool.noConfusion hfail⟩
    rcases hcomplete w.call with ⟨n, hn, _⟩
    rw [hio] at hn
    cases hn
  | some n =>
    have hreads : ∀ i, (w.image.fetch w.off w.clip (some n)).1.reads i =
        if w.off ≤ i ∧ i < w.off + min n w.clip then w.image.reads i + 1 else w.image.reads i :=
      fun i => rfl
    have hzero : ∀ i, w.off ≤ i ∧ i < w.off + min n w.clip → w.image.reads i = 0 := fun i hin =>
      h.fresh i hin.1 (by omega)
    refine ⟨⟨h.ok.room, fun i => ?_, fun i hbit => ?_⟩, rfl, h.sized, fun hcomplete => ?_,
      fun hfull hgood i hi hbit => ?_⟩
    · rw [hreads]
      split
      · next hin =>
        have hread := hzero i hin
        omega
      · exact h.ok.once i
    · rw [hreads, if_neg]
      · exact h.ok.unread i hbit
      · intro hin
        have hpage : first ≤ i / PGSZ ∧ i / PGSZ < p := by
          unfold PGSZ at *
          omega
        exact Bool.noConfusion (hbit.symm.trans (h.marked _ hpage.1 hpage.2))
    · rcases hcomplete w.call with ⟨m, hm, hle⟩
      rw [hio] at hm
      cases hm
      exact decide_eq_true (Nat.min_eq_right (Nat.le_trans hclip.2.1 hle))
    · have hsize : min n w.clip = w.clip := of_decide_eq_true hfull
      have hlt : i < size := h.sized ▸ hi
      rw [hsize] at hreads hzero
      rw [hreads]
      rcases h.loaded hgood i hlt hbit with hrun | hone
      · rw [if_pos ⟨hrun.1, hclip.2.2 i hlt hrun.2 hrun.1⟩, h.fresh i hrun.1 hrun.2]
      · rw [if_neg, hone]
        intro hin
        rw [hzero i hin] at hone
        cases hone

/-- The walk behind a page that is present. -/
theorem Walk.At.present (h : w.At good fd size first p) (hfirst : first ≤ p) {im : Image}
    (hbit : w.image.bit p = true) (hvm : im.edVm = w.image.edVm) (hok : im.Ok)
    (hsized : im.edImagesz = size) (hloaded : good → im.Loaded) {off : Nat}
    (hoff : off = p * PGSZ) (call : Nat) : Walk.At good fd size first
      (⟨im, p / NBITS, 1#32 <<< (p % NBITS), off + PGSZ, 0, call⟩ : Walk).advance (p + 1) := by
  have hend : off + PGSZ = (p + 1) * PGSZ := by
    rw [hoff, Nat.succ_mul]
  rw [advance_spec]
  refine ⟨rfl, rfl, ⟨p + 1, by omega, hend, hend⟩, hok, hvm ▸ h.full, hsized, fun i hle hlt => ?_,
    fun r hle hlt => ?_, fun hgood i hi hset => Or.inr (hloaded hgood i (hsized ▸ hi) hset),
    fun _ => rfl⟩
  · exact absurd hlt (Nat.not_lt.mpr hle)
  · rw [Image.bit, hvm]
    rcases Nat.lt_succ_iff_lt_or_eq.mp hlt with hlt | rfl
    · exact h.marked r hle hlt
    · exact hbit

theorem Walk.At.turn (h : w.At good fd size first p) (hin : p * PGSZ < size) (hfirst : first ≤ p) :
    (∃ v, w.turn io fd = some (.ok v) ∧ v.At good fd size first (p + 1)) ∨
      ∃ im e, w.turn io fd = some (.error (im, e)) ∧ Leaves good size io im := by
  have hroom := h.ok.room h.full
  have hreg : p / NBITS < w.image.edVm.length := by
    rw [h.sized] at hroom
    unfold REGNUM REGSZ NBITS PGSZ at *
    omega
  obtain ⟨word, hword⟩ : ∃ word, w.image.edVm[p / NBITS]? = some word :=
    ⟨_, List.getElem?_eq_getElem hreg⟩
  rcases h.run with ⟨q, hq, hoff, hend⟩
  unfold Walk.turn
  rw [h.hdreg, hword, h.hdbit, Option.map_some]
  by_cases hbit : w.image.bit p = true
  · rw [if_pos ((and_ne_zero_iff hword).mpr hbit)]
    by_cases hsz : w.sz = 0
    · rw [if_neg (not_not_intro hsz), hsz]
      refine Or.inl ⟨_, rfl, h.present hfirst hbit rfl h.ok h.sized (fun hgood i hi hset => ?_)
        (by omega) _⟩
      exact (h.loaded hgood i (h.sized ▸ hi) hset).resolve_left (by omega)
    · rw [if_pos hsz]
      rcases h.read io with ⟨hok, hvm, hsized, hcomplete, hloaded⟩
      cases hread : (w.read io).2 with
      | false =>
        refine Or.inr ⟨_, _, by simp only [hread]; rfl, hok, hsized, fun _ hall => ?_⟩
        rw [hcomplete hall] at hread
        cases hread
      | true =>
        have hclip : (w.read io).1 = ⟨(w.read io).1.image, p / NBITS, 1#32 <<< (p % NBITS),
            w.off + w.sz, 0, w.call + 1⟩ := by
          have hsize : w.clip = w.sz := if_neg (by rw [h.sized]; omega)
          unfold Walk.read
          simp only [hsize, h.hdreg, h.hdbit]
        refine Or.inl ⟨_, by simp only [hread]; rfl, ?_⟩
        rw [hclip]
        exact h.present hfirst hbit hvm hok hsized (hloaded hread) hend _
  · rw [if_neg (fun hne => hbit ((and_ne_zero_iff hword).mp hne))]
    have hclear := Bool.not_eq_true _ ▸ hbit
    by_cases hfd : fd < 0
    · right
      refine ⟨_, _, by rw [if_pos hfd], h.ok, h.sized, fun hgood _ i hi hset => ?_⟩
      refine (h.loaded hgood i (h.sized ▸ hi) hset).resolve_left ?_
      have hidle := h.idle hfd
      omega
    · left
      rw [if_neg hfd]
      refine ⟨_, rfl, ?_⟩
      rw [advance_spec]
      have hset : ∀ r, Image.bit { w.image with
          edVm := w.image.edVm.set (p / NBITS) (word ||| 1#32 <<< (p % NBITS)) } r =
            (w.image.bit r || decide (r = p)) := fun r => bit_set hword
      have hpage : ∀ i, i / PGSZ = p ↔ p * PGSZ ≤ i ∧ i < p * PGSZ + PGSZ := fun i => by
        unfold PGSZ
        omega
      refine ⟨rfl, rfl, ⟨q, hq, hoff, ?_⟩, ⟨fun _ => ?_, h.ok.once, fun i hi => ?_⟩, ?_, h.sized,
        fun i hle hlt => ?_, fun r hle hlt => ?_, fun hgood i hi hbits => ?_, fun h => absurd h hfd⟩
      · show w.off + (w.sz + PGSZ) = _
        rw [Nat.succ_mul]
        omega
      · rw [List.length_set]
        exact hroom
      · rw [hset] at hi
        exact h.ok.unread i (Bool.or_eq_false_iff.mp hi).1
      · rw [Ne, List.set_eq_nil_iff]
        exact h.full
      · by_cases hbehind : p * PGSZ ≤ i
        · refine h.ok.unread i ?_
          rw [(hpage i).mpr ⟨hbehind, ?_⟩]
          · exact hclear
          · have hlt : i < w.off + (w.sz + PGSZ) := hlt
            omega
        · exact h.fresh i hle (by omega)
      · rw [hset]
        rcases Nat.lt_succ_iff_lt_or_eq.mp hlt with hlt | rfl
        · rw [h.marked r hle hlt]
          rfl
        · rw [decide_eq_true rfl, Bool.or_true]
      · rw [hset] at hbits
        show w.off ≤ i ∧ i < w.off + (w.sz + PGSZ) ∨ w.image.reads i = 1
        rcases Bool.or_eq_true_iff.mp hbits with hbits | hthis
        · rcases h.loaded hgood i hi hbits with hrun | hone
          · exact Or.inl ⟨hrun.1, by omega⟩
          · exact Or.inr hone
        · have hi' := (hpage i).mp (of_decide_eq_true hthis)
          exact Or.inl ⟨by omega, by omega⟩

variable (io) in
/-- The walk gets to the page `last`, or ends with an error. -/
theorem Walk.At.loop (h : w.At good fd size first p) {last : Nat} (fuel : Nat)
    (hfirst : first ≤ p) (hle : p ≤ last) (hin : ∀ r, r < last → r * PGSZ < size) (hfuel : last < p + fuel) :
    (∃ v, w.loop io fd (last / NBITS) (1#32 <<< (last % NBITS)) fuel = some (.ok v) ∧
        v.At good fd size first last) ∨
      ∃ im e, w.loop io fd (last / NBITS) (1#32 <<< (last % NBITS)) fuel = some (.error (im, e)) ∧
        Leaves good size io im := by
  induction fuel generalizing w p with
  | zero => omega
  | succ fuel ih =>
    rw [Walk.loop]
    by_cases hlast : p = last
    · rw [if_pos ⟨hlast ▸ h.hdreg, hlast ▸ h.hdbit⟩]
      exact Or.inl ⟨w, rfl, hlast ▸ h⟩
    · have hnot : ¬ (w.hdreg = last / NBITS ∧ w.hdbit = 1#32 <<< (last % NBITS)) := by
        rintro ⟨hreg, hbit⟩
        have hpage := one_shiftLeft_inj (Nat.mod_lt p (by decide)) (h.hdbit.symm.trans hbit)
        have hword := h.hdreg.symm.trans hreg
        unfold NBITS at *
        omega
      rw [if_neg hnot]
      rcases h.turn (hin p (by omega)) hfirst with ⟨v, hv, hnext⟩ | ⟨im, e, hv, hleaves⟩
      · rw [hv]
        exact ih hnext (by omega) (by omega) (by omega)
      · rw [hv]
        exact Or.inr ⟨im, e, rfl, hleaves⟩

end Walks

def Image.Present (im : Image) (lo sz : Nat) : Prop := ∀ i, lo ≤ i → i < lo + sz → im.reads i = 1

theorem elfVm_spec {im : Image} (hok : im.Ok) (r : Request)
    (hfits : r.elf.edBaseoff + r.elf.edFsz ≤ im.edImagesz) :
    ∃ im' a, elfVm r.elf r.base r.sz r.io im = some (im', a) ∧
      Leaves im.Loaded im.edImagesz r.io im' ∧ (a = .ok () → im.Loaded → im'.Loaded ∧
        (im.edVm = [] ∨ im'.Present (r.elf.edBaseoff + r.base) r.sz)) := by
  have hself : Leaves im.Loaded im.edImagesz r.io im := ⟨hok, rfl, fun hgood _ => hgood⟩
  unfold elfVm
  by_cases hrange : r.elf.edFsz ≤ r.base ∨ r.elf.edFsz - r.base < r.sz
  · rw [if_pos hrange]
    exact ⟨_, _, rfl, hself, fun h => by cases h⟩
  · rw [if_neg hrange]
    by_cases hnone : im.edVm = [] ∨ r.sz = 0
    · rw [if_pos hnone]
      refine ⟨_, _, rfl, hself, fun _ hgood => ⟨hgood, hnone.imp_right fun hz i hle hlt => ?_⟩⟩
      omega
    · rw [if_neg hnone]
      rw [not_or] at hnone
      obtain ⟨fd, hfd⟩ : ∃ fd, fd = if r.elf.parentFd = some (-1) then -1 else r.elf.edFd := ⟨_, rfl⟩
      obtain ⟨base, hbase⟩ : ∃ base, base = r.base + r.elf.edBaseoff := ⟨_, rfl⟩
      obtain ⟨tail, htail⟩ : ∃ tail, tail = base + r.sz + PGSZ - 1 := ⟨_, rfl⟩
      have hreg : ∀ off, REGNUM off = off / PGSZ / NBITS ∧ PGNUM off = off / PGSZ % NBITS := by
        unfold REGNUM PGNUM REGSZ PGSZ NBITS
        omega
      have hstart : Walk.At im.Loaded fd im.edImagesz (base / PGSZ)
          ⟨im, REGNUM base, 1#32 <<< PGNUM base, base - base % PGSZ, 0, 0⟩ (base / PGSZ) := by
        have hoff : base - base % PGSZ = base / PGSZ * PGSZ := by
          unfold PGSZ
          omega
        refine ⟨(hreg base).1, congrArg (1#32 <<< ·) (hreg base).2, ⟨_, Nat.le_refl _, hoff, hoff⟩, hok, hnone.1,
          rfl, fun i hle hlt => ?_, fun q hle hlt => ?_, fun hgood i hi hbit => ?_, fun _ => rfl⟩
        · exact absurd hlt (Nat.not_lt.mpr hle)
        · omega
        · exact Or.inr (hgood i hi hbit)
      have hpages : ∀ q, q < tail / PGSZ → q * PGSZ < im.edImagesz := fun q hq => by
        unfold PGSZ at *
        omega
      dsimp only
      rw [← hfd, ← hbase, ← htail, (hreg tail).1, (hreg tail).2]
      rcases hstart.loop r.io (tail / PGSZ - base / PGSZ + 1) (Nat.le_refl _)
        (by unfold PGSZ at *; omega) hpages (by omega) with ⟨w, hw, hat⟩ | ⟨im', e, hw, hleaves⟩
      · have hpresent : ∀ im' : Image, im'.edVm = w.image.edVm → im'.edImagesz = im.edImagesz →
            im'.Loaded → im'.Present (r.elf.edBaseoff + r.base) r.sz := by
          intro im' hvm hsized hloaded i hle hlt
          have hbit := hat.marked (i / PGSZ) (Nat.div_le_div_right (by omega))
            (by unfold PGSZ at *; omega)
          refine hloaded i (by omega) ?_
          rw [Image.bit, hvm]
          exact hbit
        rw [hw]
        dsimp only
        by_cases hsz : w.sz = 0
        · rw [if_neg (not_not_intro hsz)]
          have hloaded : im.Loaded → w.image.Loaded := fun hgood i hi hbit =>
            (hat.loaded hgood i (hat.sized ▸ hi) hbit).resolve_left (by omega)
          exact ⟨_, _, rfl, ⟨hat.ok, hat.sized, fun hgood _ => hloaded hgood⟩, fun _ hgood =>
            ⟨hloaded hgood, Or.inr (hpresent _ rfl hat.sized (hloaded hgood))⟩⟩
        · rw [if_pos hsz, if_neg fun hneg => hsz (hat.idle hneg)]
          rcases hat.read r.io with ⟨hok', hvm, hsized, hcomplete, hloaded⟩
          refine ⟨_, _, rfl, ⟨hok', hsized, fun hgood hall => hloaded (hcomplete hall) hgood⟩,
            fun hdone hgood => ?_⟩
          have hread : (w.read r.io).2 = true := by
            cases hread : (w.read r.io).2 with
            | true => rfl
            | false =>
              rw [hread] at hdone
              cases hdone
          exact ⟨hloaded hread hgood, Or.inr (hpresent _ hvm hsized (hloaded hread hgood))⟩
      · rw [hw]
        exact ⟨_, _, rfl, hleaves, fun h => by cases h⟩

theorem Start.ok {im : Image} (h : Start im) : im.Ok ∧ im.Loaded := by
  have hbit : ∀ p, im.bit p = false := by
    intro p
    unfold Image.bit
    rcases h.edVm with hvm | hvm
    · rw [hvm]
      exact BitVec.getLsbD_zero
    · rw [hvm, List.getElem?_replicate]
      split
      · exact BitVec.getLsbD_zero
      · exact BitVec.getLsbD_zero
  refine ⟨⟨fun hne => ?_, fun i => ?_, fun i _ => h.reads i⟩, fun i _ hi => ?_⟩
  · rw [h.edVm.resolve_left hne, List.length_replicate]
    exact Nat.lt_succ_self _
  · rw [h.reads]
    exact Nat.zero_le 1
  · exact Bool.noConfusion ((hbit _).symm.trans hi)

/-- In every run requests return within the map and read nothing twice; where no read fails or is
short, the pages that are marked, and those of a request that succeeds, have been read. -/
theorem paging_sound (im : Image) :
    (Reachable Start Step im → (∀ i, im.reads i ≤ 1) ∧
      ∀ r : Request, r.elf.edBaseoff + r.elf.edFsz ≤ im.edImagesz →
        (elfVm r.elf r.base r.sz r.io im).isSome) ∧
    (ReachableWhen Start Step (fun im r => Complete im.edImagesz r.io) im → im.Loaded ∧
      ∀ (r : Request) im', r.elf.edBaseoff + r.elf.edFsz ≤ im.edImagesz →
        elfVm r.elf r.base r.sz r.io im = some (im', .ok ()) →
          im.edVm = [] ∨ im'.Present (r.elf.edBaseoff + r.base) r.sz) := by
  constructor
  · intro him
    have hok : im.Ok := him.invariant (fun im h => h.ok.1) fun im r im' hok hstep => by
      rcases hstep with ⟨hfits, a, ha⟩
      rcases elfVm_spec hok r hfits with ⟨v, b, hv, hleaves, _⟩
      rw [hv] at ha
      cases ha
      exact hleaves.ok
    refine ⟨hok.once, fun r hfits => ?_⟩
    rcases elfVm_spec hok r hfits with ⟨v, b, hv, _⟩
    rw [hv]
    rfl
  · intro him
    have hinv : im.Ok ∧ im.Loaded :=
      him.invariant (fun im h => h.ok) fun im r im' ⟨hok, hgood⟩ hcomplete hstep => by
        rcases hstep with ⟨hfits, a, ha⟩
        rcases elfVm_spec hok r hfits with ⟨v, b, hv, hleaves, _⟩
        rw [hv] at ha
        cases ha
        exact ⟨hleaves.ok, hleaves.loaded hgood hcomplete⟩
    refine ⟨hinv.2, fun r im' hfits hrun => ?_⟩
    rcases elfVm_spec hinv.1 r hfits with ⟨v, b, hv, _, hanswer⟩
    rw [hv] at hrun
    cases hrun
    exact (hanswer rfl hinv.2).2

/-- A file of one byte of which the first read fails; the next request does without one. -/
theorem failed_read_marked :
    ∃ im im', Reachable Start Step im ∧ elfVm ⟨1, 0, 3, none⟩ 0 1 (fun _ => some 1) im =
      some (im', .ok ()) ∧ im.bit 0 = true ∧ im'.reads 0 = 0 := by
  have hstart : Reachable Start Step ⟨[0#32], 1, fun _ => 0⟩ :=
    Reachable.start ⟨Or.inr rfl, fun _ => rfl⟩
  refine ⟨⟨[1#32], 1, fun _ => 0⟩, ⟨[1#32], 1, fun _ => 0⟩, ?_, rfl, rfl, rfl⟩
  exact hstart.next (e := ⟨⟨1, 0, 3, none⟩, 0, 1, fun _ => none⟩) ⟨by decide, _, rfl⟩

end Paging
end Svr4
