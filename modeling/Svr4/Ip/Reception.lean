import Mathlib.Data.List.Range
import Svr4.Ip.Queues

/-!
# Reception of fragments

What holds of a node after any packets, in any order, with time passing and
memory running out in between: every datagram that `ip_reass` has returned
is one, and every message is in one place.
-/

namespace Svr4
namespace Ip

open Transition List Option

namespace Node

def ids (s : Node) : List Nat :=
  s.ipq.flatMap Ipq.ids ++ (s.up.flatMap (fun d => d.msg.map Mblk.id) ++ (s.freed ++ s.whole))

structure Sound (s : Node) : Prop where
  queues : ∀ fp ∈ s.ipq, Waits s.recvd fp.key fp.ipqNext
  up : ∀ d ∈ s.up, d.Correct s.recvd
  ids : s.ids.Perm (List.range s.recvd.length)

/-!
## Queues of datagrams
-/

theorem find?_split {key : Key} {fp : Ipq} {l : List Ipq}
    (h : l.find? (fun q => q.key = key) = some fp) :
    fp.key = key ∧ ∃ a b, l = a ++ fp :: b ∧ ∀ r, replace key r l = a ++ (r.toList ++ b) := by
  induction l with
  | nil => cases h
  | cons q rest ih =>
    by_cases hq : q.key = key
    · rw [find?_cons_of_pos (by simpa using hq)] at h
      cases h
      exact ⟨hq, [], rest, rfl, fun r => if_pos hq⟩
    · rw [find?_cons_of_neg (by simpa using hq)] at h
      rcases ih h with ⟨hkey, a, b, rfl, hreplace⟩
      refine ⟨hkey, q :: a, b, rfl, fun r => ?_⟩
      unfold replace
      rw [if_neg hq, hreplace]
      rfl

theorem replace_of_find?_none {key : Key} {l : List Ipq} {r : Option Ipq}
    (h : l.find? (fun q => q.key = key) = none) : replace key r l = l := by
  induction l with
  | nil => rfl
  | cons q rest ih =>
    have hq : ¬ q.key = key := by
      intro hq
      rw [find?_cons_of_pos (by simpa using hq)] at h
      cases h
    rw [find?_cons_of_neg (by simpa using hq)] at h
    unfold replace
    rw [if_neg hq, ih h]

variable {s t : Node}

theorem sound_of_start (hs : s.Start) : s.Sound := by
  rcases hs with ⟨hipq, hrecvd, hfreed, hwhole, hup⟩
  refine ⟨by simp [hipq], by simp [hup], ?_⟩
  simp [ids, hipq, hrecvd, hfreed, hwhole, hup]

theorem sound_of_arrival {P : Packet} (hs : s.Sound) (hrecvd : t.recvd = s.recvd ++ [P])
    (hqueues : ∀ fp ∈ t.ipq, Waits t.recvd fp.key fp.ipqNext)
    (hup : ∀ d ∈ t.up, d ∈ s.up ∨ d.Correct t.recvd)
    (hids : t.ids.Perm (s.recvd.length :: s.ids)) : t.Sound where
  queues := hqueues
  up d hd := by
    rcases hup d hd with hold | hnew
    · rw [hrecvd]
      exact (hs.up d hold).append [P]
    · exact hnew
  ids := by
    have hrange : (s.recvd.length :: s.ids).Perm (List.range t.recvd.length) := by
      rw [hrecvd, length_append, length_singleton, range_succ]
      exact ((hs.ids.cons _).trans (perm_append_singleton _ _).symm)
    exact hids.trans hrange

theorem queues_arrival (hs : s.Sound) (P : Packet) :
    ∀ fp ∈ s.ipq, Waits (s.recvd ++ [P]) fp.key fp.ipqNext :=
  fun fp hfp => (hs.queues fp hfp).append [P]

theorem flatMap_toList {α β : Type*} (o : Option α) (f : α → List β) :
    o.toList.flatMap f = (o.map f).getD [] := by
  cases o <;> simp

theorem sound_of_reass {P : Packet} {data : List UInt8} {avail : Bool}
    (hs : s.Sound) (hdata : P.accepted = some data) :
    Sound (let fp := s.ipq.find? fun q => q.key = P.key
      let r := ipReass avail P.key
        ⟨P.ipHl, P.mff, P.len, P.off, ⟨s.recvd.length, data, P.hlen⟩⟩ fp
      { s with
        recvd := s.recvd ++ [P]
        ipq := if fp.isSome then replace P.key r.fp s.ipq else r.fp.toList ++ s.ipq
        freed := r.freed ++ s.freed
        up := r.up.toList ++ s.up }) := by
  have hold := queues_arrival hs P
  have hip : CutFrom (s.recvd ++ [P]) P.key
      ⟨P.ipHl, P.mff, P.len, P.off, ⟨s.recvd.length, data, P.hlen⟩⟩ P 0 := by
    refine ⟨by simp, hdata, rfl, rfl, rfl, rfl, by simp, ?_, ?_⟩
    · rw [(Packet.len_eq hdata).1]
      omega
    · rw [Int.natCast_zero, Int.add_zero, short_eq P.le_off P.off_le]
  dsimp only
  cases hfind : s.ipq.find? fun q => q.key = P.key with
  | none =>
    have hr := ipReass_spec (a := avail) (f := none) hip (by simp)
    apply sound_of_arrival (P := P) hs rfl
    · intro fp hfp
      rcases mem_append.mp hfp with hnew | hfp
      · rcases hr.waits fp (mem_toList.mp hnew) with ⟨hkey, hwait⟩
        rw [hkey]
        exact hwait
      · exact hold fp hfp
    · intro d hd
      rcases mem_append.mp hd with hnew | hd
      · exact .inr (hr.correct d (mem_toList.mp hnew)).2
      · exact .inl hd
    · rw [perm_iff_count]
      intro x
      have hcount := hr.ids.count_eq x
      simp only [count_append, count_cons, map_none, getD_none, count_nil] at hcount
      simp only [ids, flatMap_append, flatMap_toList, count_append,
        count_cons, isSome_none, Bool.false_eq_true, if_false]
      omega
  | some fp =>
    rcases find?_split hfind with ⟨hkey, a, b, hsplit, hreplace⟩
    have hmem : fp ∈ s.ipq := by simp [hsplit]
    have hfp : ∀ q, some fp = some q → q.key = P.key ∧ Waits (s.recvd ++ [P]) P.key q.ipqNext := by
      rintro q ⟨⟩
      refine ⟨hkey, ?_⟩
      rw [← hkey]
      exact hold fp hmem
    have hr := ipReass_spec (a := avail) hip hfp
    rw [if_pos (isSome_some), hreplace]
    apply sound_of_arrival (P := P) hs rfl
    · intro q hq
      rcases mem_append.mp hq with hq | hq
      · exact hold q (by simp [hsplit, hq])
      · rcases mem_append.mp hq with hnew | hq
        · rcases hr.waits q (mem_toList.mp hnew) with ⟨hqkey, hwait⟩
          rw [hqkey]
          exact hwait
        · exact hold q (by simp [hsplit, hq])
    · intro d hd
      rcases mem_append.mp hd with hnew | hd
      · exact .inr (hr.correct d (mem_toList.mp hnew)).2
      · exact .inl hd
    · rw [perm_iff_count]
      intro x
      have hcount := hr.ids.count_eq x
      simp only [count_append, count_cons, map_some, getD_some] at hcount
      simp only [ids, hsplit, flatMap_append, flatMap_cons,
        flatMap_toList, count_append, count_cons]
      omega

theorem sound_of_ipintr (hs : s.Sound) (avail : Bool) (P : Packet) : (s.ipintr avail P).Sound := by
  have hold := queues_arrival hs P
  unfold ipintr
  cases hdata : P.accepted with
  | none =>
    refine sound_of_arrival (P := P) hs rfl hold (fun d hd => .inl ?_) ?_
    · exact hd
    · rw [perm_iff_count]
      simp only [ids, count_append, count_cons]
      omega
  | some data =>
    dsimp only
    split
    · exact sound_of_reass hs hdata
    split
    · cases hfind : s.ipq.find? fun q => q.key = P.key with
      | none =>
        rw [replace_of_find?_none hfind]
        refine sound_of_arrival (P := P) hs rfl hold (fun d hd => .inl ?_) ?_
        · exact hd
        · rw [perm_iff_count]
          simp only [ids, count_append, count_cons, map_none, getD_none, count_nil]
          omega
      | some fp =>
        rcases find?_split hfind with ⟨hkey, a, b, hsplit, hreplace⟩
        rw [hreplace]
        refine sound_of_arrival (P := P) hs rfl ?_ (fun d hd => .inl ?_) ?_
        rotate_left
        · exact hd
        · rw [perm_iff_count]
          simp only [ids, hsplit, flatMap_append, flatMap_cons,
            flatMap_toList, count_append, count_cons,
            map_some, getD_some, map_none,
            getD_none, count_nil]
          omega
        · intro q hq
          apply hold
          rw [hsplit]
          simp only [toList_none, nil_append, mem_append] at hq
          rcases hq with hq | hq
          · simp [hq]
          · simp [hq]
    · refine sound_of_arrival (P := P) hs rfl hold (fun d hd => .inl ?_) ?_
      · exact hd
      · rw [perm_iff_count]
        simp only [ids, count_append, count_cons]
        omega

theorem ids_perm_split (l : List Ipq) (p : Ipq → Bool) : ((l.filter p).flatMap Ipq.ids ++
      (l.filter fun fp => !p fp).flatMap Ipq.ids).Perm (l.flatMap Ipq.ids) := by
  rw [← flatMap_append]
  exact (filter_append_perm p l).flatMap_right Ipq.ids

theorem sound_of_ipSlowtimo (hs : s.Sound) : s.ipSlowtimo.Sound := by
  let ipq := s.ipq.map fun fp => { fp with ipqTtl := fp.ipqTtl - 1 }
  have hids : ipq.flatMap Ipq.ids = s.ipq.flatMap Ipq.ids := flatMap_map ..
  refine ⟨?_, hs.up, ?_⟩
  · intro fp hfp
    have hmem : fp ∈ ipq := (mem_filter.mp hfp).1
    rcases mem_map.mp hmem with ⟨fp', hfp', rfl⟩
    exact hs.queues fp' hfp'
  · refine List.Perm.trans ?_ hs.ids
    have hsplit := ids_perm_split ipq fun fp => fp.ipqTtl ≠ 0
    have hnot : (ipq.filter fun fp => !decide (fp.ipqTtl ≠ 0)) =
        ipq.filter fun fp => decide (fp.ipqTtl = 0) := by
      apply filter_congr
      simp
    rw [hnot, hids, perm_iff_count] at hsplit
    rw [perm_iff_count]
    intro x
    have hcount := hsplit x
    simp only [count_append] at hcount
    simp only [ids, ipSlowtimo, count_append]
    change List.count x ((ipq.filter fun fp => decide (fp.ipqTtl ≠ 0)).flatMap
      Ipq.ids) + (_ + (List.count x ((ipq.filter fun fp =>
        decide (fp.ipqTtl = 0)).flatMap Ipq.ids) + _ + _)) = _
    omega

theorem sound_of_ipDrain (hs : s.Sound) : s.ipDrain.Sound := by
  refine ⟨by simp [ipDrain], hs.up, ?_⟩
  refine List.Perm.trans ?_ hs.ids
  rw [perm_iff_count]
  simp only [ids, ipDrain, flatMap_nil, count_append, count_nil]
  omega

theorem sound_of_step {e : Event} (hs : s.Sound) (hstep : s.Step e t) :
    t.Sound := by
  cases hstep
  cases e with
  | ipintr avail P => exact sound_of_ipintr hs avail P
  | ipSlowtimo => exact sound_of_ipSlowtimo hs
  | ipDrain => exact sound_of_ipDrain hs

theorem sound_of_reachable (hs : Reachable Start Step s) : s.Sound :=
  hs.invariant (fun _ => sound_of_start) fun _ _ _ hinv hstep =>
    sound_of_step hinv hstep

/-!
## Guarantees
-/

def quiet : Node := ⟨[], [], [], [], []⟩

def fragment : Bool → Packet
  | false => ⟨⟨1, 2, 3, 17⟩, 5, 28, 0x2000, List.replicate 28 1⟩
  | true => ⟨⟨1, 2, 3, 17⟩, 5, 28, 1, List.replicate 28 2⟩

def twoFragments : Node :=
  (quiet.ipintr true (fragment true)).ipintr true (fragment false)

theorem reachable_twoFragments : Reachable Start Step twoFragments := by
  have hstart : Reachable Start Step quiet :=
    Reachable.start ⟨rfl, rfl, rfl, rfl, rfl⟩
  have hone : Reachable Start Step (quiet.ipintr true (fragment true)) :=
    hstart.next (e := .ipintr true (fragment true)) rfl
  exact hone.next (e := .ipintr true (fragment false)) rfl

end Node

end Ip
end Svr4
