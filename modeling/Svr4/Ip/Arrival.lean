import Svr4.Ip.Reception

/-!
# Fragments in any order

Where the fragments of a datagram do not overlap, nothing is cut off, and they
are put together when the last of them has arrived, whatever their order.
-/

namespace Svr4
namespace Ip

open List

def Tiles : Nat → List Packet → Prop
  | _, [] => True
  | n, P :: rest => P.start = n ∧ Tiles (n + P.payload.length) rest

namespace Packet

def Before (P Q : Packet) : Prop := P.start + P.payload.length ≤ Q.start

structure IsFragment (key : Key) (P : Packet) : Prop where
  key_eq : P.key = key
  accepted : P.accepted.isSome
  ne : P.payload ≠ []
  fragment : P.mff ∨ P.off ≠ 0
  le : P.start + P.payload.length ≤ 32767

variable {key : Key} {P : Packet}

theorem IsFragment.pos (h : P.IsFragment key) : 0 < P.payload.length :=
  length_pos_iff.mpr h.ne

theorem IsFragment.off_eq (h : P.IsFragment key) : P.off = P.start := by
  have hle := h.le
  unfold off short
  unfold start at *
  omega

theorem IsFragment.data_eq (h : P.IsFragment key) :
    P.accepted = some (P.data.take P.ipLen.toNat) ∧ P.len = P.payload.length ∧
      P.hlen ≤ (P.data.take P.ipLen.toNat).length := by
  rcases Option.isSome_iff_exists.mp h.accepted with ⟨data, hdata⟩
  have heq := accepted_eq hdata
  have hlen := (len_eq hdata).1
  refine ⟨?_, hlen, ?_⟩
  · rw [hdata, heq.1]
  · rw [← heq.1]
    omega

end Packet

open Packet

variable {key : Key}

/-!
## Queues
-/

def fragmentOf (a : Nat × Packet) : Ipasfrag :=
  ⟨a.2.ipHl, a.2.mff, a.2.len, a.2.off, ⟨a.1, a.2.data.take a.2.ipLen.toNat, a.2.hlen⟩⟩

@[simp]
theorem fragmentOf_ipOff (a : Nat × Packet) : (fragmentOf a).ipOff = a.2.off :=
  rfl

@[simp]
theorem fragmentOf_ipLen (a : Nat × Packet) : (fragmentOf a).ipLen = a.2.len :=
  rfl

/-- The queue of fragments that have not been cut. -/
def queueOf (key : Key) : List (Nat × Packet) → Option Ipq
  | [] => none
  | a :: rest => some ⟨key, IPFRAGTTL, (a :: rest).map fragmentOf⟩

theorem dropWhile_after {α : Type*} {p : α → Bool} {l : List α}
    (h : l.Pairwise fun a b => p b → p a) : ∀ b ∈ l.dropWhile p, ¬ p b := by
  induction l with
  | nil => simp
  | cons a rest ih =>
    rcases pairwise_cons.mp h with ⟨hhead, hrest⟩
    by_cases ha : p a
    · rw [dropWhile_cons_of_pos ha]
      exact ih hrest
    · rw [dropWhile_cons_of_neg ha]
      intro b hb
      rcases mem_cons.mp hb with rfl | hb
      · exact ha
      · exact fun hpb => ha (hhead b hb hpb)

variable {A : List (Nat × Packet)} {a : Nat × Packet}

theorem insert_before {p : Nat × Packet → Bool} (hp : ∀ b, p b = true ↔ b.2.off ≤ a.2.off)
    (hA : ∀ b ∈ A, b.2.IsFragment key) (ha : a.2.IsFragment key)
    (hsorted : A.Pairwise fun b c => b.2.Before c.2)
    (hapart : ∀ b ∈ A, b.2.Before a.2 ∨ a.2.Before b.2) :
    (∀ b ∈ A.takeWhile p, b.2.Before a.2) ∧ ∀ b ∈ A.dropWhile p, a.2.Before b.2 := by
  have hmono : A.Pairwise fun b c => p c → p b := by
    refine hsorted.imp_of_mem fun {b c} hb hc hbefore hcle => ?_
    rw [hp] at hcle ⊢
    have hboff := (hA b hb).off_eq
    have hcoff := (hA c hc).off_eq
    unfold Before at hbefore
    omega
  have haoff := ha.off_eq
  have hapos := ha.pos
  refine ⟨fun b hb => ?_, fun b hb => ?_⟩
  · have hle := (hp b).mp (mem_takeWhile_imp hb)
    have hmem := (takeWhile_sublist _).subset hb
    have hboff := (hA b hmem).off_eq
    rcases hapart b hmem with hbefore | hbehind
    · exact hbefore
    · unfold Before at hbehind
      omega
  · have hlt := dropWhile_after hmono b hb
    rw [hp] at hlt
    have hmem := (dropWhile_sublist _).subset hb
    have hboff := (hA b hmem).off_eq
    rcases hapart b hmem with hbefore | hbehind
    · unfold Before at hbefore
      omega
    · exact hbehind

theorem trimHead_before (hA : ∀ b ∈ A, b.2.IsFragment key) (ha : a.2.IsFragment key)
    (hbefore : ∀ b ∈ A, b.2.Before a.2) :
    (fragmentOf a).trimHead (A.map fragmentOf).getLast? = some (fragmentOf a) := by
  rw [getLast?_map]
  cases hlast : A.getLast? with
  | none => rfl
  | some b =>
    have hmem := mem_of_getLast? hlast
    have hboff := (hA b hmem).off_eq
    have hblen := (hA b hmem).data_eq.2.1
    have haoff := ha.off_eq
    have hle := hbefore b hmem
    unfold Before at hle
    have hi : ¬ 0 < (fragmentOf b).ipOff + (fragmentOf b).ipLen - (fragmentOf a).ipOff := by
      simp only [fragmentOf_ipOff, fragmentOf_ipLen]
      omega
    unfold Ipasfrag.trimHead
    rw [Option.map_some]
    dsimp only
    rw [if_neg hi]

theorem trimNext_before (hA : ∀ b ∈ A, b.2.IsFragment key) (ha : a.2.IsFragment key)
    (hbefore : ∀ b ∈ A, a.2.Before b.2) :
    (fragmentOf a).trimNext (A.map fragmentOf) = (A.map fragmentOf, []) := by
  cases A with
  | nil => rfl
  | cons b rest =>
    have hboff := (hA b mem_cons_self).off_eq
    have haoff := ha.off_eq
    have halen := ha.data_eq.2.1
    have hle := hbefore b mem_cons_self
    unfold Before at hle
    have hlt : ¬ (fragmentOf b).ipOff < (fragmentOf a).ipOff + (fragmentOf a).ipLen := by
      simp only [fragmentOf_ipOff, fragmentOf_ipLen]
      omega
    unfold Ipasfrag.trimNext
    rw [map_cons]
    dsimp only
    rw [if_neg hlt]

theorem ipReass_some {k : Key} {a : Bool} {ip ip' : Ipasfrag} {f : Ipq}
    {front back back' : List Ipasfrag} {freed : List Nat}
    (hfront : f.ipqNext.takeWhile (fun q => q.ipOff ≤ ip.ipOff) = front)
    (hback : f.ipqNext.dropWhile (fun q => q.ipOff ≤ ip.ipOff) = back)
    (hhead : ip.trimHead front.getLast? = some ip') (hnext : ip'.trimNext back = (back', freed)) :
    ipReass a k ip (some f) = Ipq.check { f with ipqNext := front ++ ip' :: back' } freed := by
  unfold ipReass
  dsimp only
  rw [hfront, hback, hhead]
  dsimp only
  rw [hnext]

theorem ipReass_apart (hA : ∀ b ∈ A, b.2.IsFragment key) (ha : a.2.IsFragment key)
    (hsorted : A.Pairwise fun b c => b.2.Before c.2)
    (hapart : ∀ b ∈ A, b.2.Before a.2 ∨ a.2.Before b.2) :
    ∃ A' : List (Nat × Packet), A'.Perm (a :: A) ∧ (A'.Pairwise fun b c => b.2.Before c.2) ∧
      ipReass true key (fragmentOf a) (queueOf key A) =
        Ipq.check ⟨key, IPFRAGTTL, A'.map fragmentOf⟩ [] := by
  cases A with
  | nil =>
    refine ⟨[a], List.Perm.refl _, pairwise_singleton _ _, ?_⟩
    unfold queueOf ipReass
    rw [if_pos rfl, map_cons, map_nil]
  | cons x rest =>
    generalize hl : x :: rest = A at hA hsorted hapart
    let p : Nat × Packet → Bool :=
      (fun q => q.ipOff ≤ (fragmentOf a).ipOff) ∘ fragmentOf
    have hp : ∀ b, p b = true ↔ (fragmentOf b).ipOff ≤ (fragmentOf a).ipOff := fun b => by
      simp only [p, Function.comp_apply, decide_eq_true_eq]
    rcases insert_before hp hA ha hsorted hapart with ⟨hfront, hback⟩
    have htake : (A.map fragmentOf).takeWhile (fun q => q.ipOff ≤ (fragmentOf a).ipOff) =
          (A.takeWhile p).map fragmentOf := takeWhile_map
    have hdrop : (A.map fragmentOf).dropWhile (fun q => q.ipOff ≤ (fragmentOf a).ipOff) =
          (A.dropWhile p).map fragmentOf := dropWhile_map
    have hsplit : A.takeWhile p ++ A.dropWhile p = A :=
      takeWhile_append_dropWhile
    generalize A.takeWhile p = front at *
    generalize A.dropWhile p = back at *
    subst hsplit
    rcases pairwise_append.mp hsorted with ⟨hpf, hpb, hpfb⟩
    refine ⟨front ++ a :: back, perm_middle, ?_, ?_⟩
    · refine pairwise_append.mpr ⟨hpf, pairwise_cons.mpr ⟨hback, hpb⟩, fun b hb c hc => ?_⟩
      rcases mem_cons.mp hc with rfl | hc
      · exact hfront b hb
      · exact hpfb b hb c hc
    · have hhead := trimHead_before (fun b hb => hA b (mem_append_left _ hb)) ha hfront
      have hnext := trimNext_before (fun b hb => hA b (mem_append_right _ hb)) ha hback
      have hrun := ipReass_some (a := true) (k := key)
        (f := ⟨key, IPFRAGTTL, (front ++ back).map fragmentOf⟩)
        htake hdrop hhead hnext
      have hqueue : queueOf key (front ++ back) =
          some ⟨key, IPFRAGTTL, (front ++ back).map fragmentOf⟩ := by
        rw [← hl]
        rfl
      have hmap : (front ++ a :: back).map fragmentOf =
          front.map fragmentOf ++ fragmentOf a :: back.map fragmentOf :=
        map_append
      rw [hqueue, hrun, hmap]

/-!
## The check for complete reassembly
-/

def carriedBytes (l : List Packet) : List UInt8 := l.flatMap Packet.payload

variable {l left : List Packet}

theorem carriedBytes_perm {l' : List Packet} (h : l.Perm l') :
    (carriedBytes l).length = (carriedBytes l').length :=
  (h.flatMap_right _).length_eq

theorem contiguous_length {n next : Int} (hA : ∀ b ∈ A, b.2.IsFragment key)
    (hrun : contiguous n (A.map fragmentOf) = some next) :
    next = n + (carriedBytes (A.map Prod.snd)).length := by
  induction A generalizing n with
  | nil =>
    cases hrun
    simp [carriedBytes]
  | cons a rest ih =>
    rw [map_cons] at hrun
    unfold contiguous at hrun
    split at hrun
    · cases hrun
    have hrest := ih (fun b hb => hA b (mem_cons_of_mem _ hb)) hrun
    have hlen := (hA a mem_cons_self).data_eq.2.1
    have hcons : carriedBytes ((a :: rest).map Prod.snd) =
        a.2.payload ++ carriedBytes (rest.map Prod.snd) := rfl
    rw [fragmentOf_ipLen] at hrest
    rw [hcons, length_append]
    omega

theorem contiguous_of_tiles {n : Nat} (hA : ∀ b ∈ A, b.2.IsFragment key)
    (htiles : Tiles n (A.map Prod.snd)) : ∃ next, contiguous n (A.map fragmentOf) = some next := by
  induction A generalizing n with
  | nil => exact ⟨n, rfl⟩
  | cons a rest ih =>
    have ha := hA a mem_cons_self
    have hlen := ha.data_eq.2.1
    have hoff := ha.off_eq
    rcases ih (fun b hb => hA b (mem_cons_of_mem _ hb)) htiles.2 with ⟨next, hnext⟩
    have hstart : a.2.start = n := htiles.1
    have hsum : (n : Int) + a.2.len = (n + a.2.payload.length : Nat) := by
      omega
    refine ⟨next, ?_⟩
    rw [map_cons]
    unfold contiguous
    rw [fragmentOf_ipOff, fragmentOf_ipLen, if_neg (by omega), hsum]
    exact hnext

theorem tiles_before {n : Nat} {F : List Packet} (h : Tiles n F) :
    (∀ P ∈ F, n ≤ P.start) ∧ F.Pairwise Before := by
  induction F generalizing n with
  | nil => exact ⟨by simp, List.Pairwise.nil⟩
  | cons P rest ih =>
    rcases h with ⟨hstart, hrest⟩
    rcases ih hrest with ⟨hle, hpair⟩
    refine ⟨fun Q hQ => ?_, pairwise_cons.mpr ⟨fun Q hQ => ?_, hpair⟩⟩
    · rcases mem_cons.mp hQ with rfl | hQ
      · omega
      · have := hle Q hQ
        omega
    · have := hle Q hQ
      unfold Before
      omega

/-- The fragments of one datagram, in the order of their bytes. -/
structure Whole (key : Key) (F : List Packet) : Prop where
  fragments : ∀ P ∈ F, P.IsFragment key
  tiles : Tiles 0 F
  last : ∀ P ∈ F, P.mff = false → P.start + P.payload.length = (carriedBytes F).length
  final : ∀ P, F.getLast? = some P → P.mff = false
  ne : F ≠ []

variable {F : List Packet}

theorem check_incomplete (hF : Whole key F) (hperm : (A.map Prod.snd ++ left).Perm F)
    (hleft : left ≠ []) : Ipq.check ⟨key, IPFRAGTTL, A.map fragmentOf⟩ [] =
      ⟨some ⟨key, IPFRAGTTL, A.map fragmentOf⟩, none, []⟩ := by
  have hmem : ∀ b ∈ A, b.2 ∈ F := fun b hb =>
    hperm.subset (mem_append_left _ (mem_map_of_mem hb))
  have hA : ∀ b ∈ A, b.2.IsFragment key := fun b hb =>
    hF.fragments _ (hmem b hb)
  have hmore : 0 < (carriedBytes left).length := by
    cases left with
    | nil => exact absurd rfl hleft
    | cons P rest =>
      have hP := hF.fragments P (hperm.subset (by simp))
      have hcons : carriedBytes (P :: rest) = P.payload ++ carriedBytes rest := rfl
      have hpos := hP.pos
      rw [hcons, length_append]
      omega
  have htotal := carriedBytes_perm hperm
  have hsplit : carriedBytes (A.map Prod.snd ++ left) =
      carriedBytes (A.map Prod.snd) ++ carriedBytes left := flatMap_append
  rw [hsplit, length_append] at htotal
  unfold Ipq.check
  split
  · rename_i next qprev hrun hlast
    split
    · rfl
    · rename_i hmff
      exfalso
      have hlength := contiguous_length hA hrun
      have hend := (contiguous_last hrun hlast).1
      rw [getLast?_map] at hlast
      rcases Option.map_eq_some_iff.mp hlast with ⟨b, hb, rfl⟩
      have hbA := mem_of_getLast? hb
      have hbmff : b.2.mff = false := eq_false_of_ne_true hmff
      have hblast := hF.last b.2 (hmem b hbA) hbmff
      have hboff := (hA b hbA).off_eq
      have hblen := (hA b hbA).data_eq.2.1
      rw [fragmentOf_ipOff, fragmentOf_ipLen] at hend
      omega
  · rfl

theorem fragBytes_map : fragBytes (A.map fragmentOf) = carriedBytes (A.map Prod.snd) := by
  unfold fragBytes carriedBytes
  rw [flatMap_map, flatMap_map]
  rfl

theorem check_complete (hF : Whole key F) (hA : A.map Prod.snd = F) :
    ∃ d : Datagram, d.key = key ∧ d.payload = carriedBytes F ∧
      Ipq.check ⟨key, IPFRAGTTL, A.map fragmentOf⟩ [] = ⟨none, some d, []⟩ := by
  subst hA
  cases A with
  | nil => exact absurd rfl hF.ne
  | cons a rest =>
    have hfrag : ∀ b ∈ a :: rest, b.2.IsFragment key := fun b hb =>
      hF.fragments _ (mem_map_of_mem hb)
    rcases contiguous_of_tiles hfrag hF.tiles with ⟨next, hrun⟩
    have hzero : contiguous 0 ((a :: rest).map fragmentOf) = some next := hrun
    rcases getLast?_isSome.mpr (cons_ne_nil a rest) |> Option.isSome_iff_exists.mp with ⟨b, hb⟩
    have hlast : ((a :: rest).map fragmentOf).getLast? = some (fragmentOf b) := by
      rw [getLast?_map, hb]
      rfl
    have hmff : b.2.mff = false := by
      apply hF.final
      rw [getLast?_map, hb]
      rfl
    let d : Datagram :=
      { key := key
        ipHl := a.2.ipHl
        ipLen := short next
        msg := { (fragmentOf a).ipfMblk with
          bRptr := (fragmentOf a).ipfMblk.bRptr - a.2.ipHl * 4 } ::
            (rest.map fragmentOf).map Ipasfrag.ipfMblk }
    refine ⟨d, rfl, ?_, ?_⟩
    · have hle := (hfrag a mem_cons_self).data_eq.2.2
      have hfront : (fragmentOf a).ipfMblk.bRptr - a.2.ipHl * 4 = 0 :=
        Nat.sub_self _
      have hbytes : d.bytes = a.2.data.take a.2.ipLen.toNat ++ fragBytes (rest.map fragmentOf) := by
        change (fragmentOf a).ipfMblk.data.drop ((fragmentOf a).ipfMblk.bRptr - a.2.ipHl * 4) ++
            ((rest.map fragmentOf).map Ipasfrag.ipfMblk).flatMap Mblk.bytes = _
        rw [hfront, drop_zero, flatMap_map]
        rfl
      have hdrop : d.payload = d.bytes.drop a.2.hlen := rfl
      rw [hdrop, hbytes, drop_append_of_le_length hle, fragBytes_map]
      rfl
    · unfold Ipq.check
      rw [hzero, hlast]
      dsimp only
      rw [if_neg (by rw [show (fragmentOf b).ipfMff = b.2.mff from rfl, hmff]; simp)]
      rfl

/-!
## Reception
-/

namespace Node

/-- Fragments of a datagram wait, and otherwise nothing has happened. -/
structure Waiting (key : Key) (s t : Node) (A : List (Nat × Packet)) : Prop where
  ipq : t.ipq = (queueOf key A).toList ++ s.ipq
  up : t.up = s.up
  whole : t.whole = s.whole

variable {s t : Node} {P : Packet}

theorem ipintr_fragment (hnone : s.ipq.find? (fun q => q.key = key) = none)
    (ht : Waiting key s t A) (hP : P.IsFragment key) (r : Reassembly)
    (hr : ipReass true key (fragmentOf (t.recvd.length, P)) (queueOf key A) = r) :
    t.ipintr true P = { t with
      recvd := t.recvd ++ [P]
      ipq := r.fp.toList ++ s.ipq
      freed := r.freed ++ t.freed
      up := r.up.toList ++ t.up } := by
  have hfind : t.ipq.find? (fun q => q.key = P.key) = queueOf key A := by
    rw [ht.ipq, hP.key_eq]
    cases A with
    | nil => exact hnone
    | cons a rest => exact find?_cons_of_pos (by simp)
  have hreplace : (if (queueOf key A).isSome then replace key r.fp t.ipq
      else r.fp.toList ++ t.ipq) = r.fp.toList ++ s.ipq := by
    rw [ht.ipq]
    cases A with
    | nil => rfl
    | cons a rest =>
      unfold queueOf
      rw [if_pos Option.isSome_some]
      unfold replace
      exact if_pos rfl
  unfold ipintr
  rw [hP.data_eq.1]
  dsimp only
  rw [if_pos hP.fragment, hfind, hP.key_eq]
  change (let r := ipReass true key (fragmentOf (t.recvd.length, P)) (queueOf key A)
    ({ t with
      recvd := t.recvd ++ [P]
      ipq := if (queueOf key A).isSome then replace key r.fp t.ipq
        else r.fp.toList ++ t.ipq
      freed := r.freed ++ t.freed
      up := r.up.toList ++ t.up } : Node)) = _
  dsimp only
  rw [hr, hreplace]

def Delivered (key : Key) (payload : List UInt8) (s t : Node) : Prop :=
  ∃ d : Datagram, d.key = key ∧ d.payload = payload ∧ t.up = d :: s.up ∧
    t.whole = s.whole ∧ t.ipq = s.ipq

theorem apart_of_pairwise (hpair : F.Pairwise Before)
    (hperm : l.Perm F) : l.Pairwise fun P Q => P.Before Q ∨ Q.Before P := by
  have hsym : ∀ {P Q : Packet}, P.Before Q ∨ Q.Before P → Q.Before P ∨ P.Before Q :=
    fun h => h.symm
  exact (hperm.pairwise_iff hsym).mpr (hpair.imp fun h => Or.inl h)

theorem eq_of_sorted (hF : Whole key F) (hperm : (A.map Prod.snd).Perm F)
    (hsorted : A.Pairwise fun b c => b.2.Before c.2) : A.map Prod.snd = F := by
  refine List.Perm.eq_of_pairwise ?_ (pairwise_map.mpr hsorted) (tiles_before hF.tiles).2 hperm
  intro P Q hP hQ hPQ hQP
  have hpos := (hF.fragments Q hQ).pos
  unfold Before at hPQ hQP
  omega

theorem delivered_of_waiting (hF : Whole key F)
    (hnone : s.ipq.find? (fun q => q.key = key) = none) (ht : Waiting key s t A)
    (hsorted : A.Pairwise fun b c => b.2.Before c.2) (hperm : (A.map Prod.snd ++ left).Perm F)
    (hleft : left ≠ []) :
    Delivered key (carriedBytes F) s (left.foldl (fun u P => u.ipintr true P) t) := by
  induction left generalizing A t with
  | nil => exact absurd rfl hleft
  | cons P rest ih =>
    have hP := hF.fragments P (hperm.subset (by simp))
    have hA : ∀ b ∈ A, b.2.IsFragment key := fun b hb =>
      hF.fragments _ (hperm.subset (mem_append_left _ (mem_map_of_mem hb)))
    have hapart : ∀ b ∈ A, b.2.Before P ∨ P.Before b.2 := by
      have hpair := apart_of_pairwise (tiles_before hF.tiles).2 hperm
      intro b hb
      exact (pairwise_append.mp hpair).2.2 b.2 (mem_map_of_mem hb) P mem_cons_self
    rcases ipReass_apart (a := (t.recvd.length, P)) hA hP hsorted hapart with
      ⟨A', hA', hsorted', hrun⟩
    have hpackets : (A'.map Prod.snd).Perm (P :: A.map Prod.snd) :=
      hA'.map Prod.snd
    have hperm' : (A'.map Prod.snd ++ rest).Perm F := by
      have hmiddle : (A.map Prod.snd ++ P :: rest).Perm
          (P :: (A.map Prod.snd ++ rest)) := perm_middle
      exact (hpackets.append_right rest).trans (hmiddle.symm.trans hperm)
    rw [foldl_cons]
    cases rest with
    | nil =>
      rw [append_nil] at hperm'
      rcases check_complete hF (eq_of_sorted hF hperm' hsorted') with ⟨d, hkey, hpayload, hcheck⟩
      rw [hcheck] at hrun
      rw [ipintr_fragment hnone ht hP _ hrun]
      refine ⟨d, hkey, hpayload, ?_, ht.whole, rfl⟩
      change d :: t.up = d :: s.up
      rw [ht.up]
    | cons Q rest =>
      rw [check_incomplete hF hperm' (cons_ne_nil _ _)] at hrun
      have hnext := ipintr_fragment hnone ht hP _ hrun
      have hqueue : queueOf key A' = some ⟨key, IPFRAGTTL, A'.map fragmentOf⟩ := by
        cases A' with
        | nil => exact absurd hA'.length_eq (by simp)
        | cons a l => rfl
      refine ih (A := A') ⟨?_, ?_, ?_⟩ hsorted' hperm' (cons_ne_nil _ _)
      · rw [hnext, hqueue]
      · rw [hnext]
        exact ht.up
      · rw [hnext]
        exact ht.whole

theorem delivered_of_perm (hF : Whole key F) (hnone : s.ipq.find? (fun q => q.key = key) = none)
    (hl : l.Perm F) :
    Delivered key (carriedBytes F) s (l.foldl (fun u P => u.ipintr true P) s) := by
  refine delivered_of_waiting (A := []) hF hnone ⟨rfl, rfl, rfl⟩ List.Pairwise.nil hl ?_
  intro hnil
  rw [hnil] at hl
  exact hF.ne hl.nil_eq.symm

end Node

end Ip
end Svr4
