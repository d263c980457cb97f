import Mathlib.Data.List.Basic
import Svr4.Ip.Reass

/-!
# Fragments in a queue

Every fragment in a queue is what is left of a packet that has arrived, with its
front cut off.  Offsets are shorts: a fragment from beyond 32767 has a negative
offset, and the queue of such a fragment starts with one.
-/

namespace Svr4
namespace Ip

theorem short_le (x : Int) : short x ≤ 32767 := by
  unfold short
  omega

theorem le_short (x : Int) : -32768 ≤ short x := by
  unfold short
  omega

theorem short_eq {x : Int} (hlo : -32768 ≤ x) (hhi : x ≤ 32767) : short x = x := by
  unfold short
  omega

theorem short_add (x y : Int) : short (short x + y) = short (x + y) := by
  unfold short
  omega

variable {P : Packet}

namespace Packet

def start (P : Packet) : Nat := P.ipOff.toNat % 8192 * 8

def payload (P : Packet) : List UInt8 :=
  (P.data.take P.ipLen.toNat).drop P.hlen

theorem off_le (P : Packet) : P.off ≤ 32767 := short_le _

theorem le_off (P : Packet) : -32768 ≤ P.off := le_short _

theorem off_eq_start (h : 0 ≤ P.off) : P.off = P.start := by
  unfold off short at *
  unfold start
  omega

theorem accepted_eq {data : List UInt8} (h : P.accepted = some data) :
    data = P.data.take P.ipLen.toNat ∧ sizeofIp ≤ P.hlen ∧
      P.hlen ≤ P.ipLen.toNat ∧ P.ipLen.toNat ≤ 32767 ∧ data.length = P.ipLen.toNat := by
  unfold accepted at h
  split at h
  · cases h
  split at h
  · cases h
  split at h
  · cases h
  split at h
  · cases h
  cases h
  have hlt := P.ipLen.toNat_lt
  rename_i hhead _ hlen htotal
  unfold short at hlen
  refine ⟨rfl, by omega, by omega, by omega, ?_⟩
  rw [List.length_take]
  omega

theorem len_eq {data : List UInt8} (h : P.accepted = some data) :
    P.len = P.payload.length ∧ P.payload.length + P.hlen = P.ipLen.toNat := by
  rcases accepted_eq h with ⟨rfl, hhead, hle, hmax, hlen⟩
  unfold len payload
  rw [List.length_drop, hlen]
  unfold short
  omega

end Packet

/-- Fragment `q` is packet `P` without its first `i` bytes. -/
structure CutFrom (recvd : List Packet) (key : Key) (q : Ipasfrag) (P : Packet)
    (i : Nat) : Prop where
  packet : recvd[q.ipfMblk.id]? = some P
  accepted : P.accepted = some q.ipfMblk.data
  key_eq : P.key = key
  hl : q.ipHl = P.ipHl
  mff : q.ipfMff = P.mff
  rptr : q.ipfMblk.bRptr = P.hlen + i
  len : q.ipLen + i = P.len
  le : (i : Int) ≤ P.len
  off : q.ipOff = short (P.off + i)

namespace CutFrom

variable {recvd : List Packet} {key : Key} {q : Ipasfrag} {P : Packet} {i : Nat}

section

variable (h : CutFrom recvd key q P i)
include h

theorem append (new : List Packet) :
    CutFrom (recvd ++ new) key q P i :=
  { h with
    packet := by
      have hlt := (List.getElem?_eq_some_iff.mp h.packet).1
      rw [List.getElem?_append_left hlt]
      exact h.packet }

theorem bytes : q.ipfMblk.bytes = P.payload.drop i := by
  unfold Mblk.bytes Packet.payload
  rw [h.rptr, (Packet.accepted_eq h.accepted).1, List.drop_drop]

theorem length : q.ipLen = q.ipfMblk.bytes.length := by
  have hlen := h.len
  have hle := h.le
  rw [(Packet.len_eq h.accepted).1] at hlen hle
  rw [h.bytes, List.length_drop]
  omega

theorem ipLen_le : q.ipLen ≤ 32767 := by
  have hlen := h.len
  have htotal := Packet.len_eq h.accepted
  have hmax := (Packet.accepted_eq h.accepted).2.2.2.1
  omega

theorem adjmsg {j : Int} (hj : 0 < j) (hlt : j < q.ipLen) :
    CutFrom recvd key { q with
      ipfMblk := Ip.adjmsg q.ipfMblk j
      ipOff := short (q.ipOff + j)
      ipLen := short (q.ipLen - j) } P (i + j.toNat) := by
  have hlength := h.length
  have hroom : ¬ (q.ipfMblk.bytes.length : Int) < j := by omega
  have hmove : Ip.adjmsg q.ipfMblk j = { q.ipfMblk with bRptr := q.ipfMblk.bRptr + j.toNat } := by
    unfold Ip.adjmsg
    rw [if_neg hroom]
  have hlen := h.len
  have hmax := h.ipLen_le
  refine ⟨?_, ?_, h.key_eq, h.hl, h.mff, ?_, ?_, ?_, ?_⟩
  · rw [hmove]
    exact h.packet
  · rw [hmove]
    exact h.accepted
  · rw [hmove]
    change q.ipfMblk.bRptr + j.toNat = P.hlen + (i + j.toNat)
    rw [h.rptr]
    omega
  · change short (q.ipLen - j) + ((i + j.toNat : Nat) : Int) = P.len
    rw [short_eq (by omega) (by omega)]
    omega
  · omega
  · have hsum : P.off + i + j = P.off + ((i + j.toNat : Nat) : Int) := by omega
    rw [h.off, short_add, hsum]

end

end CutFrom

end Ip
end Svr4
