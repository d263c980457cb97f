import Mathlib.Data.List.Perm.Basic
import Mathlib.Data.List.TakeWhile
import Svr4.Ip.Fragments

/-!
# Queues of fragments

`ip_reass` keeps the fragments of a queue cuts of packets, and the
datagrams it returns are put together rightly.
-/

namespace Svr4
namespace Ip

open List

/-- The fragments of a queue. -/
structure Waits (recvd : List Packet) (key : Key) (l : List Ipasfrag) : Prop where
  cut : ∀ q ∈ l, ∃ P i, CutFrom recvd key q P i
  /-- the queue starts with a negative offset if it has a fragment from beyond -/
  neg : ∀ q ∈ l, ∀ P, recvd[q.ipfMblk.id]? = some P → P.off < 0 → ∀ h ∈ l.head?, h.ipOff < 0

namespace Waits

variable {recvd : List Packet} {key : Key} {l : List Ipasfrag}

theorem append (h : Waits recvd key l) (new : List Packet) : Waits (recvd ++ new) key l where
  cut q hq := by
    rcases h.cut q hq with ⟨P, i, hcut⟩
    exact ⟨P, i, hcut.append new⟩
  neg q hq P hP hoff := by
    rcases h.cut q hq with ⟨P', i, hcut⟩
    have hsame := (hcut.append new).packet
    rw [hP] at hsame
    cases hsame
    exact h.neg q hq P hcut.packet hoff

end Waits

/-!
## Trimming
-/

/-- A fragment that is another one with more bytes cut off. -/
def Trimmed (recvd : List Packet) (key : Key) (q q' : Ipasfrag) : Prop :=
  q'.ipfMblk.id = q.ipfMblk.id ∧ ∀ P i, CutFrom recvd key q P i → ∃ j, CutFrom recvd key q' P j

theorem Trimmed.refl (recvd : List Packet) (key : Key) (q : Ipasfrag) : Trimmed recvd key q q :=
  ⟨rfl, fun _ i h => ⟨i, h⟩⟩

variable {recvd : List Packet} {key : Key}

theorem adjmsg_id (m : Mblk) (i : Int) : (adjmsg m i).id = m.id := by
  unfold adjmsg
  split <;> rfl

variable {q ip ip' : Ipasfrag}

theorem trimmed_adjmsg {j : Int} (hj : 0 < j) (hlt : j < q.ipLen) : Trimmed recvd key q { q with
      ipfMblk := adjmsg q.ipfMblk j
      ipOff := short (q.ipOff + j)
      ipLen := short (q.ipLen - j) } :=
  ⟨adjmsg_id _ _, fun _ i h => ⟨i + j.toNat, h.adjmsg hj hlt⟩⟩

namespace Ipasfrag

theorem trimHead_spec {r : List Packet} {k : Key} {qprev : Option Ipasfrag}
    (h : ip.trimHead qprev = some ip') : Trimmed r k ip ip' ∧ (qprev = none → ip' = ip) := by
  cases qprev with
  | none =>
    cases h
    exact ⟨Trimmed.refl r k ip, fun _ => rfl⟩
  | some qprev =>
    refine ⟨?_, by simp⟩
    unfold trimHead at h
    dsimp only at h
    by_cases hover : 0 < qprev.ipOff + qprev.ipLen - ip.ipOff
    · rw [if_pos hover] at h
      by_cases hall : ip.ipLen ≤ qprev.ipOff + qprev.ipLen - ip.ipOff
      · rw [if_pos hall] at h
        cases h
      · rw [if_neg hall] at h
        cases h
        exact trimmed_adjmsg hover (by omega)
    · rw [if_neg hover] at h
      cases h
      exact Trimmed.refl r k ip

theorem trimNext_spec (recvd : List Packet) (key : Key) (ip : Ipasfrag) (l : List Ipasfrag) :
    (∀ q' ∈ (ip.trimNext l).1, ∃ q ∈ l, Trimmed recvd key q q') ∧
      (ip.trimNext l).2 ++ (ip.trimNext l).1.map (fun q => q.ipfMblk.id) =
        l.map fun q => q.ipfMblk.id := by
  induction l with
  | nil => simp [trimNext]
  | cons q rest ih =>
    unfold trimNext
    by_cases hover : q.ipOff < ip.ipOff + ip.ipLen
    · rw [if_pos hover]
      by_cases hpart : ip.ipOff + ip.ipLen - q.ipOff < q.ipLen
      · rw [if_pos hpart]
        refine ⟨?_, by simp [adjmsg_id]⟩
        intro q' hq'
        rcases mem_cons.mp hq' with rfl | hq'
        · exact ⟨q, by simp, trimmed_adjmsg (by omega) hpart⟩
        · exact ⟨q', by simp [hq'], Trimmed.refl recvd key q'⟩
      · rw [if_neg hpart]
        refine ⟨?_, ?_⟩
        · intro q' hq'
          rcases ih.1 q' hq' with ⟨q₀, hq₀, htrim⟩
          exact ⟨q₀, by simp [hq₀], htrim⟩
        · simpa using ih.2
    · rw [if_neg hover]
      exact ⟨fun q' hq' => ⟨q', hq', Trimmed.refl recvd key q'⟩, by simp⟩

end Ipasfrag

/-!
## A new fragment in its place
-/

variable {l : List Ipasfrag} {P : Packet}

theorem Waits.insert {back : List Ipasfrag} (hl : Waits recvd key l)
    (hip : CutFrom recvd key ip P 0)
    (hhead : ip.trimHead (l.takeWhile fun q => q.ipOff ≤ ip.ipOff).getLast? =
      some ip') (hback : ∀ q' ∈ back, ∃ q ∈ l.dropWhile (fun q => q.ipOff ≤ ip.ipOff),
      Trimmed recvd key q q') :
    Waits recvd key ((l.takeWhile fun q => q.ipOff ≤ ip.ipOff) ++ ip' :: back) := by
  have htrim := Ipasfrag.trimHead_spec (r := recvd) (k := key) hhead
  have hfront : ∀ q ∈ l.takeWhile (fun q => q.ipOff ≤ ip.ipOff), q ∈ l :=
    fun q hq => (takeWhile_subset _) hq
  have hrest : ∀ q ∈ l.dropWhile (fun q => q.ipOff ≤ ip.ipOff), q ∈ l :=
    fun q hq => (dropWhile_subset _) hq
  have hoff : ip.ipOff = P.off := by
    have hlo := P.le_off
    have hhi := P.off_le
    rw [hip.off, Int.natCast_zero, Int.add_zero, short_eq hlo hhi]
  constructor
  · intro q hq
    rcases mem_append.mp hq with hq | hq
    · exact hl.cut q (hfront q hq)
    · rcases mem_cons.mp hq with rfl | hq
      · rcases htrim.1.2 P 0 hip with ⟨j, hj⟩
        exact ⟨P, j, hj⟩
      · rcases hback q hq with ⟨q₀, hq₀, htrim₀⟩
        rcases hl.cut q₀ (hrest q₀ hq₀) with ⟨P₀, i, hcut⟩
        rcases htrim₀.2 P₀ i hcut with ⟨j, hj⟩
        exact ⟨P₀, j, hj⟩
  · intro q hq P₁ hP₁ hneg h hh
    -- The head is that of the old queue, or the new fragment before it.
    cases hsplit : l.takeWhile fun q => q.ipOff ≤ ip.ipOff with
    | cons h₀ front =>
      rw [hsplit] at hh
      cases hh
      have hin : h ∈ l.takeWhile fun q => q.ipOff ≤ ip.ipOff := by
        rw [hsplit]
        simp
      have hold : l.head? = some h := by
        cases l with
        | nil => cases hin
        | cons x rest =>
          by_cases hx : x.ipOff ≤ ip.ipOff
          · rw [takeWhile_cons_of_pos (by simpa using hx)] at hsplit
            rw [(List.cons.inj hsplit).1]
            rfl
          · rw [takeWhile_cons_of_neg (by simpa using hx)] at hsplit
            cases hsplit
      have hbelow : h.ipOff ≤ ip.ipOff := by
        simpa using mem_takeWhile_imp hin
      rcases mem_append.mp hq with hq | hq
      · exact hl.neg q (hfront q hq) P₁ hP₁ hneg h hold
      · rcases mem_cons.mp hq with rfl | hq
        · rw [htrim.1.1, hip.packet] at hP₁
          cases hP₁
          omega
        · rcases hback q hq with ⟨q₀, hq₀, htrim₀⟩
          rw [htrim₀.1] at hP₁
          exact hl.neg q₀ (hrest q₀ hq₀) P₁ hP₁ hneg h hold
    | nil =>
      rw [hsplit] at hh hq htrim
      cases hh
      have hsame : ip' = ip := htrim.2 rfl
      rw [hsame]
      rcases mem_cons.mp hq with rfl | hq
      · rw [htrim.1.1, hip.packet] at hP₁
        cases hP₁
        omega
      · rcases hback q hq with ⟨q₀, hq₀, htrim₀⟩
        rw [htrim₀.1] at hP₁
        cases l with
        | nil => cases hq₀
        | cons x rest =>
          have hx : ¬ x.ipOff ≤ ip.ipOff := by
            intro hx
            rw [takeWhile_cons_of_pos (by simpa using hx)] at hsplit
            cases hsplit
          have hfirst := hl.neg q₀ (hrest q₀ hq₀) P₁ hP₁ hneg x rfl
          omega

/-!
## Datagrams
-/

variable {recvd : List Packet}

namespace Datagram

def bytes (d : Datagram) : List UInt8 := d.msg.flatMap Mblk.bytes

def payload (d : Datagram) : List UInt8 := d.bytes.drop (d.ipHl * 4)

/-- The byte `b` of a packet of the datagram was at `j`. -/
def Carried (recvd : List Packet) (key : Key) (j : Nat) (b : UInt8) : Prop :=
  ∃ P ∈ recvd, P.key = key ∧ P.accepted ≠ none ∧ P.start ≤ j ∧ P.payload[j - P.start]? = some b

/-- A datagram has the header of a first fragment and the bytes of fragments in their places. -/
structure Correct (recvd : List Packet) (d : Datagram) : Prop where
  header : ∃ P ∈ recvd, P.key = d.key ∧ P.accepted ≠ none ∧ P.start = 0 ∧
    P.ipHl = d.ipHl ∧ d.bytes.take P.hlen = P.data.take P.hlen
  carried : ∀ j b, d.payload[j]? = some b → Carried recvd d.key j b
  last : ∃ P ∈ recvd, P.key = d.key ∧ P.accepted ≠ none ∧ P.mff = false ∧
    P.start + P.payload.length = d.payload.length
  ipLen : d.ipLen = short d.payload.length

theorem Carried.append {key : Key} {j : Nat} {b : UInt8} (h : Carried recvd key j b)
    (new : List Packet) : Carried (recvd ++ new) key j b := by
  rcases h with ⟨P, hP, hrest⟩
  exact ⟨P, mem_append_left _ hP, hrest⟩

theorem Correct.append {d : Datagram} (h : d.Correct recvd)
    (new : List Packet) : d.Correct (recvd ++ new) where
  header := by
    rcases h.header with ⟨P, hP, hrest⟩
    exact ⟨P, mem_append_left _ hP, hrest⟩
  carried j b hb := (h.carried j b hb).append new
  last := by
    rcases h.last with ⟨P, hP, hrest⟩
    exact ⟨P, mem_append_left _ hP, hrest⟩
  ipLen := h.ipLen

end Datagram

def fragBytes (l : List Ipasfrag) : List UInt8 :=
  l.flatMap fun q => q.ipfMblk.bytes

theorem CutFrom.mem {i : Nat} (h : CutFrom recvd key q P i) : P ∈ recvd :=
  mem_of_getElem? h.packet

theorem CutFrom.accepted_ne {i : Nat} (h : CutFrom recvd key q P i) : P.accepted ≠ none := by
  rw [h.accepted]
  exact Option.some_ne_none _

theorem CutFrom.off_eq {i : Nat} (h : CutFrom recvd key q P i) (hP : 0 ≤ P.off) (hq : 0 ≤ q.ipOff) :
    q.ipOff = P.start + i := by
  have hoff := h.off
  have hle := h.le
  have htotal := Packet.len_eq h.accepted
  have hmax := (Packet.accepted_eq h.accepted).2.2.2.1
  have hPmax := P.off_le
  rw [← Packet.off_eq_start hP]
  unfold short at hoff
  omega

theorem contiguous_carried {n : Nat} {next : Int}
    (hl : ∀ q ∈ l, ∃ P i, CutFrom recvd key q P i ∧ 0 ≤ P.off) (hrun : contiguous n l = some next) :
    next = n + (fragBytes l).length ∧ ∀ j b, (fragBytes l)[j]? = some b →
        Datagram.Carried recvd key (n + j) b := by
  induction l generalizing n with
  | nil =>
    cases hrun
    simp [fragBytes]
  | cons q rest ih =>
    unfold contiguous at hrun
    split at hrun
    · cases hrun
    rename_i hnext
    rcases hl q (by simp) with ⟨P, i, hcut, hP⟩
    have hoff := hcut.off_eq hP (by omega)
    have hlen := hcut.length
    have hsum : (n : Int) + q.ipLen = (n + q.ipfMblk.bytes.length : Nat) := by
      omega
    rw [hsum] at hrun
    rcases ih (fun x hx => hl x (by simp [hx])) hrun with ⟨htotal, hbytes⟩
    have hcons : fragBytes (q :: rest) = q.ipfMblk.bytes ++ fragBytes rest :=
      rfl
    refine ⟨?_, ?_⟩
    · rw [hcons, length_append]
      omega
    · intro j b hb
      rw [hcons] at hb
      by_cases hj : j < q.ipfMblk.bytes.length
      · rw [getElem?_append_left hj, hcut.bytes, getElem?_drop] at hb
        refine ⟨P, hcut.mem, hcut.key_eq, hcut.accepted_ne, by omega, ?_⟩
        have hindex : n + j - P.start = i + j := by omega
        rw [hindex]
        exact hb
      · rw [getElem?_append_right (by omega)] at hb
        have hcarried := hbytes _ b hb
        have hindex : n + q.ipfMblk.bytes.length + (j - q.ipfMblk.bytes.length) = n + j := by omega
        rw [hindex] at hcarried
        exact hcarried

theorem contiguous_last {n next : Int} (hrun : contiguous n l = some next)
    (hlast : l.getLast? = some q) :
    next = q.ipOff + q.ipLen ∧ (0 ≤ n → (∀ x ∈ l, 0 ≤ x.ipLen) → 0 ≤ q.ipOff) := by
  induction l generalizing n with
  | nil => cases hlast
  | cons x rest ih =>
    unfold contiguous at hrun
    split at hrun
    · cases hrun
    rename_i hnext
    cases rest with
    | nil =>
      have hx : x = q := by simpa using hlast
      subst hx
      cases hrun
      refine ⟨by omega, fun hn _ => by omega⟩
    | cons y rest =>
      rcases ih hrun hlast with ⟨heq, hpos⟩
      refine ⟨heq, fun hn hlen => hpos ?_ fun z hz => hlen z (by simp [hz])⟩
      have := hlen x (by simp)
      omega

theorem Ipq.concatenate_correct {fp : Ipq} {next : Int} {qprev : Ipasfrag}
    (hl : Waits recvd fp.key fp.ipqNext) (hrun : contiguous 0 fp.ipqNext = some next)
    (hlast : fp.ipqNext.getLast? = some qprev) (hmff : qprev.ipfMff = false) :
    ∃ d, fp.concatenate next = some d ∧ d.key = fp.key ∧ d.Correct recvd ∧
      d.msg.map Mblk.id = fp.ids := by
  cases hnext : fp.ipqNext with
  | nil =>
    rw [hnext] at hlast
    cases hlast
  | cons ip rest =>
    have hzero : ip.ipOff = 0 := by
      rw [hnext] at hrun
      unfold contiguous at hrun
      split at hrun
      · cases hrun
      · rename_i hoff
        exact not_not.mp hoff
    -- The queue does not start with a negative offset.
    have hcut : ∀ q ∈ fp.ipqNext, ∃ P i, CutFrom recvd fp.key q P i ∧ 0 ≤ P.off := by
      intro q hq
      rcases hl.cut q hq with ⟨P, i, hcut⟩
      refine ⟨P, i, hcut, ?_⟩
      by_contra hneg
      have hhead := hl.neg q hq P hcut.packet (by omega) ip (by rw [hnext]; rfl)
      omega
    rcases hcut ip (by rw [hnext]; simp) with ⟨P, i, hip, hP⟩
    have hstart := hip.off_eq hP (by omega)
    have hfirst : P.start = 0 ∧ i = 0 := by omega
    let d : Datagram :=
      { key := fp.key
        ipHl := ip.ipHl
        ipLen := short next
        msg := { ip.ipfMblk with bRptr := ip.ipfMblk.bRptr - ip.ipHl * 4 } ::
          rest.map Ipasfrag.ipfMblk }
    have hd : fp.concatenate next = some d := by
      unfold concatenate
      rw [hnext]
    have hhl : P.hlen = ip.ipHl * 4 := by
      rw [hip.hl]
      rfl
    have hrptr : ip.ipfMblk.bRptr - ip.ipHl * 4 = 0 := by
      rw [hip.rptr, hhl]
      omega
    have hdata := Packet.accepted_eq hip.accepted
    have hbytes : d.bytes = ip.ipfMblk.data ++ fragBytes rest := by
      change (ip.ipfMblk.data.drop (ip.ipfMblk.bRptr - ip.ipHl * 4)) ++
        (rest.map Ipasfrag.ipfMblk).flatMap Mblk.bytes = _
      rw [hrptr, drop_zero, flatMap_map]
      rfl
    have hpayload : d.payload = fragBytes fp.ipqNext := by
      have hsplit : fragBytes (ip :: rest) = ip.ipfMblk.bytes ++ fragBytes rest := rfl
      have hskip : ip.ipfMblk.bytes = ip.ipfMblk.data.drop (ip.ipHl * 4) := by
        unfold Mblk.bytes
        rw [hip.rptr, hhl, hfirst.2, Nat.add_zero]
      unfold Datagram.payload
      rw [hnext, hsplit, hbytes, hskip, drop_append_of_le_length]
      change (ip.ipHl : Nat) * 4 ≤ _
      omega
    have hrun' : contiguous ((0 : Nat) : Int) fp.ipqNext = some next := hrun
    rcases contiguous_carried hcut hrun' with ⟨htotal, hcarried⟩
    refine ⟨d, hd, rfl, ⟨?_, ?_, ?_, ?_⟩, ?_⟩
    · refine ⟨P, hip.mem, hip.key_eq, hip.accepted_ne, hfirst.1, hip.hl.symm, ?_⟩
      rw [hbytes, take_append_of_le_length (by omega), hdata.1, take_take]
      congr 1
      omega
    · intro j b hb
      rw [hpayload] at hb
      have hj := hcarried j b hb
      rwa [Nat.zero_add] at hj
    · rcases hcut qprev (mem_of_getLast? hlast) with ⟨P', i', hcut', hP'⟩
      rcases contiguous_last hrun hlast with ⟨hend, hnonneg⟩
      have hpos := hnonneg (by omega) (by
        intro x hx
        rcases hcut x hx with ⟨_, _, hx', _⟩
        rw [hx'.length]
        omega)
      have hoff := hcut'.off_eq hP' hpos
      have hlen := hcut'.len
      have hplen := (Packet.len_eq hcut'.accepted).1
      refine ⟨P', hcut'.mem, hcut'.key_eq, hcut'.accepted_ne, ?_, ?_⟩
      · rw [← hcut'.mff]
        exact hmff
      · rw [hpayload]
        omega
    · rw [hpayload]
      change short next = _
      rw [htotal]
      simp
    · unfold ids
      rw [hnext]
      simp [d]

theorem perm_middle_comm {α : Type*} (a b c : List α) (x : α) :
    (a ++ (b ++ x :: c)).Perm (x :: (b ++ (a ++ c))) := by
  have hmiddle : (a ++ (b ++ x :: c)).Perm (x :: (a ++ (b ++ c))) := by
    rw [← append_assoc, ← append_assoc]
    exact perm_middle
  exact hmiddle.trans ((perm_append_comm_assoc a b c).cons x)

structure Reassembled (recvd : List Packet) (key : Key) (taken : List Nat)
    (r : Reassembly) : Prop where
  waits : ∀ fp, r.fp = some fp → fp.key = key ∧ Waits recvd key fp.ipqNext
  correct : ∀ d, r.up = some d → d.key = key ∧ d.Correct recvd
  ids : (r.freed ++ ((r.fp.map Ipq.ids).getD [] ++
    (r.up.map fun d => d.msg.map Mblk.id).getD [])).Perm taken

theorem Ipq.check_spec {q : Ipq} {f : List Nat} (hl : Waits recvd q.key q.ipqNext) :
    Reassembled recvd q.key (f ++ q.ids) (q.check f) := by
  have hwait : Reassembled recvd q.key (f ++ q.ids) ⟨some q, none, f⟩ := by
    refine ⟨?_, by simp, by simp⟩
    rintro fp' ⟨⟩
    exact ⟨rfl, hl⟩
  unfold check
  split
  · rename_i next qprev hrun hlast
    split
    · exact hwait
    · rename_i hmff
      rcases concatenate_correct hl hrun hlast (by simpa using hmff) with
        ⟨d, hd, hkey, hcorrect, hids⟩
      refine ⟨by simp, ?_, ?_⟩
      · rintro d' hd'
        rw [hd] at hd'
        cases hd'
        exact ⟨hkey, hcorrect⟩
      · simp [hd, hids]
  · exact hwait

theorem ipReass_spec {a : Bool} {f : Option Ipq} (hip : CutFrom recvd key ip P 0)
    (hfp : ∀ q, f = some q → q.key = key ∧ Waits recvd key q.ipqNext) :
    Reassembled recvd key (ip.ipfMblk.id :: (f.map Ipq.ids).getD []) (ipReass a key ip f) := by
  cases f with
  | none =>
    unfold ipReass
    dsimp only
    split
    · have hone : Waits recvd key [ip] := by
        refine ⟨?_, ?_⟩
        · rintro q hq
          rw [mem_singleton.mp hq]
          exact ⟨P, 0, hip⟩
        · rintro q hq P' hP' hneg h ⟨⟩
          rw [mem_singleton.mp hq, hip.packet] at hP'
          cases hP'
          have hoff := hip.off
          rw [Int.natCast_zero, Int.add_zero, short_eq P.le_off P.off_le] at hoff
          omega
      exact Ipq.check_spec (q := ⟨key, IPFRAGTTL, [ip]⟩) (f := []) hone
    · exact ⟨by simp, by simp, by simp⟩
  | some f =>
    rcases hfp f rfl with ⟨hkey, hl⟩
    unfold ipReass
    dsimp only
    split
    · refine ⟨?_, by simp, by simp⟩
      rintro q ⟨⟩
      exact ⟨hkey, hl⟩
    · rename_i ip' hhead
      have hnext := Ipasfrag.trimNext_spec recvd key ip'
        (f.ipqNext.dropWhile fun q => q.ipOff ≤ ip.ipOff)
      have hinsert := hl.insert hip hhead hnext.1
      have htrim := (Ipasfrag.trimHead_spec (r := recvd) (k := key) hhead).1.1
      subst hkey
      have hcheck := Ipq.check_spec (q := { f with
        ipqNext := (f.ipqNext.takeWhile fun q => q.ipOff ≤ ip.ipOff) ++
          ip' :: (ip'.trimNext (f.ipqNext.dropWhile fun q =>
            q.ipOff ≤ ip.ipOff)).1 })
        (f := (ip'.trimNext (f.ipqNext.dropWhile fun q =>
          q.ipOff ≤ ip.ipOff)).2) hinsert
      refine ⟨hcheck.waits, hcheck.correct, hcheck.ids.trans ?_⟩
      have hids : f.ids = (f.ipqNext.takeWhile fun q => q.ipOff ≤ ip.ipOff).map
            (fun q => q.ipfMblk.id) ++
          (f.ipqNext.dropWhile fun q => q.ipOff ≤ ip.ipOff).map fun q => q.ipfMblk.id := by
        rw [← map_append, takeWhile_append_dropWhile]
        rfl
      change List.Perm _ (ip.ipfMblk.id :: f.ids)
      rw [hids, ← hnext.2]
      unfold Ipq.ids
      rw [map_append, map_cons, htrim]
      exact perm_middle_comm _ _ _ _

end Ip
end Svr4
