import Svr4.Lib.OnesComplement

/-!
# The checksum of a message

`in_cksum` of `netinet/in_cksum.c`, as it is compiled for the i386: words are
loaded with the low byte first, a byte at an odd address or without a partner is added and
the bytes of the sum are swapped, and carries are folded in after each block.
-/

namespace Svr4
namespace Ip
variable {sum len : Nat} {w done : List UInt8}

namespace Cksum

open OnesComplement List

/-- A message block: the address in `b_rptr` and the bytes up to `b_wptr`. -/
structure Mblk where
  bRptr : Nat
  data : List UInt8

def ulong (x : Nat) : Nat := x % 4294967296

def fold (sum : Nat) : Nat := ulong ((sum &&& 0xffff) + (sum >>> 16))

def swap (sum : Nat) : Nat := ulong ((sum &&& 0xff) <<< 8) ||| (sum >>> 8)

def addByte (sum : Nat) (b : UInt8) : Nat := swap (fold (ulong (sum + b.toNat)))

/-- The loop over the words; it leaves the bytes behind them. -/
def addWords : Nat → Nat → List UInt8 → Nat × List UInt8
  | nwords + 1, sum, a :: b :: w =>
    addWords nwords (ulong (sum + (a.toNat + 256 * b.toNat))) w
  | _, sum, w => (sum, w)

theorem and_low (sum : Nat) : sum &&& 0xffff = sum % 65536 :=
  Nat.and_two_pow_sub_one_eq_mod sum 16

theorem and_byte (sum : Nat) : sum &&& 0xff = sum % 256 :=
  Nat.and_two_pow_sub_one_eq_mod sum 8

theorem high_ne_zero (h : sum &&& 0xffff0000 ≠ 0) : 65536 ≤ sum := by
  by_contra hlt
  refine h (Nat.eq_of_testBit_eq fun i => ?_)
  rw [Nat.testBit_and, Nat.zero_testBit]
  by_cases hi : i < 16
  · have hbit : Nat.testBit (0xffff <<< 16) i = false := by
      rw [Nat.testBit_shiftLeft, decide_eq_false (by omega), Bool.false_and]
    exact (congrArg _ hbit).trans (Bool.and_false _)
  · have hbit : sum.testBit i = false := by
      refine Nat.testBit_lt_two_pow ?_
      calc sum < 2 ^ 16 := by omega
        _ ≤ 2 ^ i := Nat.pow_le_pow_right (by decide) (by omega)
    rw [hbit, Bool.false_and]

theorem fold_eq (h : sum < 4294967296) : fold sum = sum % 65536 + sum / 65536 := by
  unfold fold ulong
  rw [and_low, Nat.shiftRight_eq_div_pow]
  omega

theorem fold_lt (h : sum &&& 0xffff0000 ≠ 0) : fold sum < sum := by
  have hle := high_ne_zero h
  calc fold sum ≤ (sum &&& 0xffff) + (sum >>> 16) := Nat.mod_le _ _
    _ = sum % 65536 + sum / 65536 := by rw [and_low, Nat.shiftRight_eq_div_pow]
    _ < sum := by omega

def foldLoop (sum : Nat) : Nat :=
  if sum &&& 0xffff0000 ≠ 0 then foldLoop (fold sum) else sum
termination_by sum
decreasing_by exact fold_lt ‹_›

def lastByte (fswap : Bool) (sum : Nat) : List UInt8 → Bool × Nat
  | [] => (fswap, sum)
  | b :: _ => (!fswap, addByte sum b)

def aligned (fswap : Bool) (sum : Nat) (w : List UInt8) : Bool × Nat :=
  let r := addWords (w.length >>> 1) sum w
  lastByte fswap (foldLoop r.1) r.2

def block (fswap : Bool) (sum addr : Nat) : List UInt8 → Bool × Nat
  | [] => aligned fswap sum []
  | b :: w =>
    if addr &&& 1 ≠ 0 then aligned (!fswap) (addByte sum b) w
    else aligned fswap sum (b :: w)

/-- The loop over the blocks; the system panics where the message is too short. -/
def inCksumLoop : List Mblk → Nat → Bool → Nat → Option (Bool × Nat)
  | [], len, fswap, sum => if len = 0 then some (fswap, sum) else none
  | mp :: rest, len, fswap, sum =>
    if len = 0 then some (fswap, sum)
    else
      let mlen := min len mp.data.length
      let r := block fswap sum mp.bRptr (mp.data.take mlen)
      inCksumLoop rest (len - mlen) r.1 r.2

def inCksum (mp : List Mblk) (len : Nat) : Option Nat :=
  (inCksumLoop mp len false 0).map fun r =>
    (4294967295 - (if r.1 then swap r.2 else r.2)) % 65536

/-!
## The sum of one block
-/

theorem swap_eq (h : sum ≤ 65535) : swap sum = sum % 256 * 256 + sum / 256 := by
  have hlow : sum / 256 < 2 ^ 8 := by omega
  have hhigh : ulong ((sum % 256) <<< 8) = (sum % 256) <<< 8 := by
    unfold ulong
    omega
  unfold swap
  rw [and_byte, hhigh, Nat.shiftRight_eq_div_pow, ← Nat.shiftLeft_add_eq_or_of_lt hlow,
    Nat.shiftLeft_eq]

theorem addByte_spec (h : sum ≤ 65535) (b : UInt8) :
    addByte sum b ≤ 65535 ∧ Same (addByte sum b) (256 * (sum + b.toNat)) := by
  have hb := b.toNat_lt
  have hsum : ulong (sum + b.toNat) = sum + b.toNat := Nat.mod_eq_of_lt (by omega)
  have hfold : fold (sum + b.toNat) = (sum + b.toNat) % 65536 + (sum + b.toNat) / 65536 :=
    fold_eq (by omega)
  have hle : fold (sum + b.toNat) ≤ 65535 := by omega
  unfold addByte
  rw [hsum, swap_eq hle]
  refine ⟨by omega, (Same.swap _).trans ?_⟩
  rw [hfold]
  exact (Same.fold _).mul 256

theorem addWords_spec (nwords : Nat) (hw : 2 * nwords ≤ w.length)
    (hsum : sum + 65535 * nwords < 4294967296) :
    (addWords nwords sum w).2 = w.drop (2 * nwords) ∧ (addWords nwords sum w).1 < 4294967296 ∧
      Same (addWords nwords sum w).1 (sum + number (w.take (2 * nwords))) := by
  induction nwords generalizing sum w with
  | zero => exact ⟨rfl, by simpa [addWords] using hsum, Same.refl _⟩
  | succ nwords ih =>
    obtain ⟨a, b, w, rfl⟩ : ∃ a b v, w = a :: b :: v := by
      rcases w with _ | ⟨a, _ | ⟨b, v⟩⟩
      · simp at hw
      · simp at hw
        omega
      · exact ⟨a, b, v, rfl⟩
    have ha := a.toNat_lt
    have hb := b.toNat_lt
    have hadd : ulong (sum + (a.toNat + 256 * b.toNat)) =
        sum + (a.toNat + 256 * b.toNat) := Nat.mod_eq_of_lt (by omega)
    simp only [length_cons] at hw
    have hroom : sum + (a.toNat + 256 * b.toNat) + 65535 * nwords < 4294967296 := by omega
    obtain ⟨hrest, hlt, hsame⟩ := ih (w := w) (by omega) hroom
    have htwo : 2 * (nwords + 1) = 2 * nwords + 1 + 1 := by omega
    have hnumber : number (a :: b :: w.take (2 * nwords)) =
        a.toNat + 256 * b.toNat + 65536 * number (w.take (2 * nwords)) := by
      simp only [number]
      ring
    unfold addWords
    have hsplit : sum + (a.toNat + 256 * b.toNat + 65536 * number (w.take (2 * nwords))) =
        sum + (a.toNat + 256 * b.toNat) + 65536 * number (w.take (2 * nwords)) := by omega
    rw [hadd, htwo, drop_succ_cons, drop_succ_cons, take_succ_cons, take_succ_cons, hnumber, hsplit]
    exact ⟨hrest, hlt, hsame.trans ((Same.refl _).add (Same.shift _).symm)⟩

theorem foldLoop_spec (h : sum < 4294967296) : foldLoop sum ≤ 65535 ∧ Same (foldLoop sum) sum := by
  induction sum using foldLoop.induct with
  | case1 sum hhigh ih =>
    have hfold := fold_eq h
    rw [foldLoop, if_pos hhigh]
    obtain ⟨hle, hsame⟩ := ih (by omega)
    refine ⟨hle, hsame.trans ?_⟩
    rw [hfold]
    exact Same.fold sum
  | case2 sum hhigh =>
    rw [foldLoop, if_neg hhigh]
    refine ⟨?_, Same.refl sum⟩
    by_contra hgt
    refine hhigh fun hzero => ?_
    have hshift : (sum &&& 0xffff0000) >>> 16 = (sum >>> 16) &&& 0xffff := by
      rw [Nat.shiftRight_and_distrib]
      rfl
    rw [hzero, Nat.zero_shiftRight, and_low, Nat.shiftRight_eq_div_pow] at hshift
    omega

structure Adds (w : List UInt8) (fswap : Bool) (sum : Nat) (r : Bool × Nat) : Prop where
  fswap : r.1 = (fswap ^^ decide (w.length % 2 = 1))
  le : r.2 ≤ 65535
  same : Same r.2 (256 ^ (w.length % 2) * (sum + number w))

theorem aligned_adds (fswap : Bool) (hsum : sum ≤ 65535)
    (hw : w.length ≤ 65535) : Adds w fswap sum (aligned fswap sum w) := by
  have hwords : w.length >>> 1 = w.length / 2 := Nat.shiftRight_eq_div_pow _ 1
  have hroom : sum + 65535 * (w.length / 2) < 4294967296 := by omega
  obtain ⟨hrest, hlt, hsame⟩ := addWords_spec (w.length / 2) (w := w) (by omega) hroom
  obtain ⟨hle, hfold⟩ := foldLoop_spec hlt
  unfold aligned
  simp only
  rw [hwords, hrest]
  by_cases hodd : w.length % 2 = 1
  · obtain ⟨b, hb⟩ : ∃ b, w.drop (2 * (w.length / 2)) = [b] :=
      length_eq_one_iff.mp (by rw [length_drop]; omega)
    have hsplit := take_append_drop (2 * (w.length / 2)) w
    have hnumber : number w = number (w.take (2 * (w.length / 2))) +
        256 ^ (2 * (w.length / 2)) * b.toNat := by
      rw [hb] at hsplit
      conv => lhs; rw [← hsplit, number_append]
      simp only [number, Nat.mul_zero, Nat.add_zero]
      rw [length_take, Nat.min_eq_left (by omega)]
    obtain ⟨hbyte, hadded⟩ := addByte_spec hle b
    rw [hb]
    refine ⟨?_, hbyte, ?_⟩
    · rw [decide_eq_true hodd, Bool.xor_true]
      rfl
    · rw [hodd, Nat.pow_one, hnumber, ← Nat.add_assoc]
      refine hadded.trans (Same.mul 256 ((hfold.trans hsame).add ?_))
      have heven := Same.weight b.toNat (2 * (w.length / 2))
      rw [Nat.mul_mod_right, Nat.pow_zero, Nat.one_mul] at heven
      exact heven.symm
  · have hall : 2 * (w.length / 2) = w.length := by omega
    have heven : w.length % 2 = 0 := by omega
    rw [hall, take_length] at hsame
    rw [hall, drop_length]
    refine ⟨?_, hle, ?_⟩
    · rw [decide_eq_false hodd, Bool.xor_false]
      rfl
    · rw [heven, Nat.pow_zero, Nat.one_mul]
      exact hfold.trans hsame

theorem block_adds (fswap : Bool) (hsum : sum ≤ 65535) (addr : Nat)
    (hw : w.length ≤ 65535) : Adds w fswap sum (block fswap sum addr w) := by
  cases w with
  | nil => exact aligned_adds fswap hsum hw
  | cons b w =>
    simp only [block]
    by_cases haddr : addr &&& 1 ≠ 0
    · rw [if_pos haddr]
      obtain ⟨hbyte, hadded⟩ := addByte_spec hsum b
      rw [length_cons] at hw
      obtain ⟨hswap, hle, hsame⟩ := aligned_adds (!fswap) hbyte (w := w) (by omega)
      refine ⟨?_, hle, ?_⟩
      · rw [hswap, length_cons]
        by_cases hodd : w.length % 2 = 1
        · have hnext : ¬ (w.length + 1) % 2 = 1 := by omega
          rw [decide_eq_true hodd, decide_eq_false hnext]
          cases fswap <;> rfl
        · have hnext : (w.length + 1) % 2 = 1 := by omega
          rw [decide_eq_false hodd, decide_eq_true hnext]
          cases fswap <;> rfl
      · -- the bytes behind the first one have changed places with it
        have hback : Same (addByte sum b + number w) (256 ^ 1 * (sum + number (b :: w))) := by
          have hring : 256 ^ 1 * (sum + number (b :: w)) =
              256 * (sum + b.toNat) + 65536 * number w := by
            rw [number]
            ring
          rw [hring]
          exact hadded.add (Same.shift _).symm
        have hweight := Same.weight (sum + number (b :: w)) (w.length % 2 + 1)
        rw [Nat.pow_succ, Nat.mul_assoc] at hweight
        have hmod : (w.length % 2 + 1) % 2 = (w.length + 1) % 2 := by omega
        rw [hmod] at hweight
        exact hsame.trans ((Same.mul _ hback).trans hweight)
    · rw [if_neg haddr]
      exact aligned_adds fswap hsum hw

/-!
## The sum of a message
-/

/-- The sum stands for the bytes that have been added. -/
structure Holds (done : List UInt8) (fswap : Bool) (sum : Nat) : Prop where
  fswap : fswap = decide (done.length % 2 = 1)
  le : sum ≤ 65535
  same : Same sum (256 ^ (done.length % 2) * number done)

theorem Holds.adds {fswap : Bool} {r : Bool × Nat} (h : Holds done fswap sum)
    (hr : Adds w fswap sum r) : Holds (done ++ w) r.1 r.2 := by
  refine ⟨?_, hr.le, ?_⟩
  · rw [hr.fswap, h.fswap, length_append]
    rcases Nat.mod_two_eq_zero_or_one done.length with hd | hd <;>
      rcases Nat.mod_two_eq_zero_or_one w.length with hw | hw <;>
      simp [Nat.add_mod, hd, hw]
  · -- 256 to the length, twice, is one
    have hdone : Same (sum + number w)
        (256 ^ done.length * (number done + 256 ^ done.length * number w)) := by
      have htwice := Same.weight (number w) (2 * done.length)
      rw [Nat.mul_mod_right, Nat.pow_zero, Nat.one_mul] at htwice
      have hring : 256 ^ done.length * (number done + 256 ^ done.length * number w) =
          256 ^ done.length * number done + 256 ^ (2 * done.length) * number w := by ring
      rw [hring]
      exact (h.same.trans (Same.weight _ _).symm).add htwice.symm
    rw [number_append, length_append]
    refine hr.same.trans ((Same.weight _ _).symm.trans ((hdone.mul _).trans ?_))
    rw [← Nat.mul_assoc, ← Nat.pow_add, Nat.add_comm w.length]
    exact Same.weight _ _

theorem inCksumLoop_spec (mp : List Mblk) {fswap : Bool} (h : Holds done fswap sum)
    (hlen : len ≤ 65535) (hmp : len ≤ (mp.flatMap Mblk.data).length) :
    ∃ r, inCksumLoop mp len fswap sum = some r ∧
      Holds (done ++ (mp.flatMap Mblk.data).take len) r.1 r.2 := by
  induction mp generalizing done fswap sum len with
  | nil =>
    have hzero : len = 0 := Nat.le_zero.mp hmp
    subst hzero
    exact ⟨_, if_pos rfl, by simpa using h⟩
  | cons mp rest ih =>
    by_cases hzero : len = 0
    · subst hzero
      exact ⟨_, if_pos rfl, by simpa using h⟩
    have hadds := block_adds fswap h.le mp.bRptr
      (w := mp.data.take (min len mp.data.length)) (by rw [length_take]; omega)
    rw [flatMap_cons, length_append] at hmp
    have hleft : len - min len mp.data.length ≤ 65535 := by omega
    obtain ⟨r, hrun, hr⟩ := ih (h.adds hadds) hleft (by omega)
    refine ⟨r, (if_neg hzero).trans hrun, ?_⟩
    have htake : ((mp :: rest).flatMap Mblk.data).take len =
        mp.data.take (min len mp.data.length) ++
          (rest.flatMap Mblk.data).take (len - min len mp.data.length) := by
      rw [flatMap_cons, take_append]
      by_cases hall : len ≤ mp.data.length
      · rw [Nat.min_eq_left hall, Nat.sub_self, Nat.sub_eq_zero_of_le hall]
      · rw [Nat.min_eq_right (by omega), take_length, take_of_length_le (by omega)]
    rw [htake, ← append_assoc]
    exact hr

theorem inCksum_spec {mp : List Mblk} (hlen : len ≤ 65535)
    (hmp : len ≤ (mp.flatMap Mblk.data).length) :
    inCksum mp len = some (65535 - total (words ((mp.flatMap Mblk.data).take len))) := by
  have hstart : Holds [] false 0 := ⟨rfl, by decide, Same.refl 0⟩
  obtain ⟨r, hrun, hr⟩ := inCksumLoop_spec mp hstart hlen hmp
  rw [nil_append] at hr
  generalize (mp.flatMap Mblk.data).take len = bytes at hr
  have hsum : (if r.1 then swap r.2 else r.2) = total (words bytes) := by
    have htotal := total_le (words_le bytes)
    by_cases hodd : bytes.length % 2 = 1
    · have hfswap := hr.fswap
      have hsame := hr.same
      rw [decide_eq_true hodd] at hfswap
      rw [hodd] at hsame
      have hle := hr.le
      have hback : Same (swap r.2) (total (words bytes)) := by
        rw [swap_eq hle]
        refine (Same.swap _).trans ((hsame.mul 256).trans ?_)
        rw [← Nat.mul_assoc]
        exact (Same.shift _).trans (total_words bytes).symm
      rw [hfswap, if_pos rfl]
      refine hback.eq ?_ htotal
      rw [swap_eq hle]
      omega
    · have hfswap := hr.fswap
      have hsame := hr.same
      have heven : bytes.length % 2 = 0 := by omega
      rw [decide_eq_false hodd] at hfswap
      rw [heven, Nat.pow_zero, Nat.one_mul] at hsame
      rw [hfswap, if_neg Bool.false_ne_true]
      exact (hsame.trans (total_words bytes).symm).eq hr.le htotal
  have htotal := total_le (words_le bytes)
  unfold inCksum
  rw [hrun, Option.map_some, hsum]
  congr 1
  omega

/--
The checksum of the first `len` bytes of a message is the complement of their ones'
complement sum, and does not depend on the blocks and their addresses.
-/
theorem in_cksum_of_bytes {mp : List Mblk} {len : Nat} (hlen : len ≤ 65535)
    (hmp : len ≤ (mp.flatMap Mblk.data).length) :
    inCksum mp len = some (65535 - total (words ((mp.flatMap Mblk.data).take len))) ∧
    ∀ addr, inCksum mp len = inCksum [⟨addr, (mp.flatMap Mblk.data).take len⟩] len := by
  refine ⟨inCksum_spec hlen hmp, fun addr => ?_⟩
  have hone : ([⟨addr, (mp.flatMap Mblk.data).take len⟩] : List Mblk).flatMap Mblk.data =
      (mp.flatMap Mblk.data).take len := append_nil _
  have hlength : ((mp.flatMap Mblk.data).take len).length = len := by
    rw [length_take, Nat.min_eq_left hmp]
  rw [inCksum_spec hlen hmp, inCksum_spec hlen (by rw [hone, hlength]), hone,
    take_take, Nat.min_self]

/-- Blocks of one and of two bytes, and an empty one, at odd addresses. -/
def oddBlocks : List Mblk := [⟨1, [0x12]⟩, ⟨7, []⟩, ⟨3, [0x34, 0x56]⟩, ⟨4, [0x78]⟩]

theorem in_cksum_of_bytes_odd : inCksum oddBlocks 3 = some (65535 - (0x3412 + 0x56)) ∧
    ∀ addr, inCksum oddBlocks 3 = inCksum [⟨addr, [0x12, 0x34, 0x56]⟩] 3 :=
  in_cksum_of_bytes (by decide) (by decide)

/-!
## What the receiver sees
-/

/-- What is around the checksum of a packet; the checksum is at an even place. -/
structure Packet where
  front : List UInt8
  back : List UInt8
  even : front.length % 2 = 0
  room : front.length + (back.length + 2) ≤ 65535

namespace Packet

variable (p : Packet)

def length : Nat := p.front.length + (p.back.length + 2)

def bytes (a b : UInt8) : List UInt8 := p.front ++ a :: b :: p.back

/-- A message with the packet in any blocks. -/
abbrev Message (a b : UInt8) := { mp : List Mblk // mp.flatMap Mblk.data = p.bytes a b }

theorem total_bytes (a b : UInt8) : Same (total (words (p.bytes a b)))
    (total (words (p.bytes 0 0)) + (a.toNat + 256 * b.toNat)) := by
  have hnumber : number (p.bytes a b) = number (p.bytes 0 0) +
      256 ^ p.front.length * (a.toNat + 256 * b.toNat) := by
    simp only [bytes, number_append, number, UInt8.toNat_zero]
    ring
  have hweight := Same.weight (a.toNat + 256 * b.toNat) p.front.length
  rw [p.even, Nat.pow_zero, Nat.one_mul] at hweight
  refine (total_words _).trans ?_
  rw [hnumber]
  exact (total_words _).symm.add hweight

variable {p}

theorem inCksum_message {a b : UInt8} (mp : p.Message a b) :
    inCksum mp.1 p.length = some (65535 - total (words (p.bytes a b))) := by
  have hlength : (p.bytes a b).length = p.length := length_append
  have hroom : p.length ≤ 65535 := p.room
  refine (inCksum_spec hroom ?_).trans ?_
  · rw [mp.2]
    exact hlength.ge
  · rw [mp.2, take_of_length_le hlength.le]

/-- The checksum of a packet is 0 just where the field has the checksum for a field of zeros, or
ones where that is 0; the two may come in different blocks. -/
theorem in_cksum_verifies {a b : UInt8} (mp : p.Message a b) (mp₀ : p.Message 0 0) :
    inCksum mp.1 p.length = some 0 ↔ ∃ c, inCksum mp₀.1 p.length = some c ∧
      (a.toNat + 256 * b.toNat = c ∨ c = 0 ∧ a.toNat + 256 * b.toNat = 65535) := by
  have hle := total_le (words_le (p.bytes a b))
  have hle₀ := total_le (words_le (p.bytes 0 0))
  have ha := a.toNat_lt
  have hb := b.toNat_lt
  have hsame := p.total_bytes a b
  have hzero : inCksum mp.1 p.length = some 0 ↔ total (words (p.bytes a b)) = 65535 := by
    rw [inCksum_message, Option.some_inj]
    omega
  have hall : total (words (p.bytes a b)) = 65535 ↔
      Same (total (words (p.bytes 0 0)) + (a.toNat + 256 * b.toNat)) 65535 :=
    ⟨fun h => h ▸ hsame.symm, fun h => (hsame.trans h).eq hle (Nat.le_refl _)⟩
  rw [hzero, hall, inCksum_message]
  constructor
  · rintro ⟨hres, hnone⟩
    exact ⟨_, rfl, by omega⟩
  · rintro ⟨c, hc, hword⟩
    have hc := Option.some_inj.mp hc
    constructor <;> omega

end Packet

end Cksum
end Ip
end Svr4
