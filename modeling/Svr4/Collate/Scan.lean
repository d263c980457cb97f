import Svr4.Collate.Model

/-!
# The characters of a string

Both functions go through a string character by character.  Here the characters with a
weight that `strcoll` comes to are shown to be finitely many, and to be those
that `strxfrm` writes, as long as no replacement is empty.
-/

namespace Svr4
namespace Collate
namespace Database

open List Option

variable {c : Database}

/-!
## Pointers
-/

variable {s sv : List UInt8}

theorem ne_nil_of_deref (h : deref s ≠ 0) : s ≠ [] := by
  intro hnil
  rw [hnil] at h
  exact h rfl

theorem length_tail_le (s : List UInt8) : s.tail.length ≤ s.length := by
  rw [length_tail]
  exact Nat.sub_le _ _

theorem element_length_le (c : Database) (s : List UInt8) :
    (c.element s).2.length ≤ s.tail.length := by
  unfold element
  dsimp only
  split
  · cases c.follower (deref s.tail) (c.node (deref s).toNat).ch.toNat
        ((c.node (deref s).toNat).ns.toNat + szCollate) with
    | none => exact Nat.le_refl _
    | some j => exact length_tail_le s.tail
  · exact Nat.le_refl _

theorem element_length_lt (hs : s ≠ []) : (c.element s).2.length < s.length := by
  have hle := element_length_le c s
  have hpos := length_pos_iff.mpr hs
  rw [length_tail] at hle
  omega

variable {r : List UInt8 × List UInt8}

theorem cksub_spec (h : c.cksub s = some r) :
    ∃ e ∈ c.subtbl, c.subtbl.find? (fun e => e.exp.isPrefixOf s) = some e ∧
      e.exp <+: s ∧ r = (s.drop e.exp.length, e.repl) := by
  unfold cksub at h
  split at h
  · cases h
  · rcases map_eq_some_iff.mp h with ⟨e, hfind, hr⟩
    have hprefix : e.exp.isPrefixOf s = true := by
      simpa using List.find?_some hfind
    exact ⟨e, mem_of_find?_eq_some hfind, hfind, isPrefixOf_iff_prefix.mp hprefix, hr.symm⟩

theorem cksub_length_lt (h : c.cksub s = some r) : r.1.length < s.length := by
  rcases cksub_spec h with ⟨e, he, -, hprefix, hr⟩
  have hpos := length_pos_iff.mpr (c.exp_ne_nil e he)
  have hle := hprefix.length_le
  rw [hr, length_drop]
  omega

/-!
## Turns of strcoll
-/

theorem collTurn_resume (hs : deref s = 0) : c.collTurn ⟨s, some sv⟩ = c.collTurn ⟨sv, none⟩ := by
  unfold collTurn
  rw [if_pos hs, elim_some, elim_none, ite_self]

theorem collTurn_end (hs : deref s = 0) : c.collTurn ⟨s, none⟩ = .inr none := by
  unfold collTurn
  rw [if_pos hs, elim_none]
  exact if_pos hs

variable {p q : Place}

theorem collTurn_char (hs : deref p.s ≠ 0)
    (hsub : (if p.svs = none then c.cksub p.s else none) = none) :
    c.collTurn p = if (c.element p.s).1.pwt = 0 then .inl ⟨(c.element p.s).2, p.svs⟩
      else .inr (some ((c.element p.s).1, ⟨(c.element p.s).2, p.svs⟩)) := by
  unfold collTurn
  rw [if_neg hs, if_neg hs, hsub, elim_none]

theorem collTurn_substitute (hs : deref s ≠ 0) (hsub : c.cksub s = some r) (hr : deref r.2 ≠ 0) :
    c.collTurn ⟨s, none⟩ = c.collTurn ⟨r.2, some r.1⟩ := by
  have hin := @collTurn_char c ⟨r.2, some r.1⟩ hr (if_neg (some_ne_none r.1))
  rw [hin]
  unfold collTurn
  rw [if_neg hs, if_neg hs, if_pos rfl, hsub, elim_some, if_pos hr]

theorem collTurn_empty (hs : deref s ≠ 0) (hsub : c.cksub s = some r) (hr : deref r.2 = 0) :
    c.collTurn ⟨s, none⟩ = if (c.element r.1).1.pwt = 0 then .inl ⟨(c.element r.1).2, none⟩
      else .inr (some ((c.element r.1).1, ⟨(c.element r.1).2, none⟩)) := by
  unfold collTurn
  rw [if_neg hs, if_neg hs, if_pos rfl, hsub, elim_some, if_neg (not_not_intro hr)]

/-!
## The characters end
-/

def replLengths : List Subnd → Nat
  | [] => 2
  | e :: subtbl => e.repl.length + replLengths subtbl

theorem two_le_replLengths (subtbl : List Subnd) : 2 ≤ replLengths subtbl := by
  induction subtbl with
  | nil => exact Nat.le_refl 2
  | cons e subtbl ih =>
    rw [replLengths]
    omega

theorem repl_length_le {e : Subnd} {subtbl : List Subnd} (he : e ∈ subtbl) :
    e.repl.length + 2 ≤ replLengths subtbl := by
  induction subtbl with
  | nil => cases he
  | cons e' subtbl ih =>
    rw [replLengths]
    cases he with
    | head =>
      have hbase := two_le_replLengths subtbl
      omega
    | tail _ he =>
      have hrest := ih he
      omega

def replBound (c : Database) : Nat := replLengths c.subtbl

def Place.size (c : Database) (p : Place) : Nat :=
  p.svs.elim (c.replBound * p.s.length) fun sv => c.replBound * sv.length + p.s.length + 1

theorem replBound_pos (c : Database) : 0 < c.replBound :=
  Nat.lt_of_lt_of_le Nat.two_pos (two_le_replLengths c.subtbl)

theorem size_lt_of_length {s' : List UInt8} {svs : Option (List UInt8)}
    (h : s'.length < s.length) : Place.size c ⟨s', svs⟩ < Place.size c ⟨s, svs⟩ := by
  cases svs with
  | none => exact Nat.mul_lt_mul_of_pos_left h (replBound_pos c)
  | some sv => exact Nat.succ_lt_succ (Nat.add_lt_add_left h _)

theorem size_resume (s sv : List UInt8) : Place.size c ⟨sv, none⟩ < Place.size c ⟨s, some sv⟩ := by
  show c.replBound * sv.length < c.replBound * sv.length + s.length + 1
  omega

theorem size_substitute
    (hsub : c.cksub s = some r) : Place.size c ⟨r.2, some r.1⟩ < Place.size c ⟨s, none⟩ := by
  have hlt := cksub_length_lt hsub
  rcases cksub_spec hsub with ⟨e, he, -, -, hr⟩
  have hrepl : e.repl.length + 2 ≤ c.replBound := repl_length_le he
  have hlen : r.2.length = e.repl.length := by rw [hr]
  have hmul : c.replBound * (r.1.length + 1) ≤ c.replBound * s.length :=
    Nat.mul_le_mul_left _ hlt
  rw [Nat.mul_add, Nat.mul_one] at hmul
  show c.replBound * r.1.length + r.2.length + 1 < c.replBound * s.length
  omega

def Nearer (c : Database) (size : Nat) (t : Place ⊕ Option (Xnd × Place)) : Prop :=
  (∀ q, t = .inl q → q.size c < size) ∧ ∀ x q, t = .inr (some (x, q)) → x.pwt ≠ 0 ∧ q.size c < size

theorem nearer_char {e : Xnd} {size : Nat} (hq : q.size c < size) :
    Nearer c size (if e.pwt = 0 then .inl q else .inr (some (e, q))) := by
  by_cases hzero : e.pwt = 0
  · rw [if_pos hzero]
    constructor
    · intro q' hq'
      rw [← Sum.inl.inj hq']
      exact hq
    · intro x q' hq'
      cases hq'
  · rw [if_neg hzero]
    constructor
    · intro q' hq'
      cases hq'
    · intro x q' hq'
      cases hq'
      exact ⟨hzero, hq⟩

theorem nearer_end (size : Nat) : Nearer c size (.inr none) := by
  constructor
  · intro q hq
    cases hq
  · intro x q hq
    cases hq

theorem Nearer.mono {size size' : Nat} {t : Place ⊕ Option (Xnd × Place)}
    (h : Nearer c size t) (hle : size ≤ size') : Nearer c size' t :=
  ⟨fun q hq => Nat.lt_of_lt_of_le (h.1 q hq) hle,
    fun x q hq => ⟨(h.2 x q hq).1, Nat.lt_of_lt_of_le (h.2 x q hq).2 hle⟩⟩

theorem nearer_in_replacement (hs : deref s ≠ 0) :
    Nearer c (Place.size c ⟨s, some sv⟩) (c.collTurn ⟨s, some sv⟩) := by
  have hturn := @collTurn_char c ⟨s, some sv⟩ hs (if_neg (some_ne_none sv))
  rw [hturn]
  exact nearer_char (size_lt_of_length (element_length_lt (ne_nil_of_deref hs)))

theorem nearer_outside (s : List UInt8) :
    Nearer c (Place.size c ⟨s, none⟩) (c.collTurn ⟨s, none⟩) := by
  by_cases hs : deref s = 0
  · rw [collTurn_end hs]
    exact nearer_end _
  · cases hsub : c.cksub s with
    | none =>
      have hturn := @collTurn_char c ⟨s, none⟩ hs ((if_pos rfl).trans hsub)
      rw [hturn]
      exact nearer_char (size_lt_of_length (element_length_lt (ne_nil_of_deref hs)))
    | some r =>
      by_cases hr : deref r.2 = 0
      · rw [collTurn_empty hs hsub hr]
        have hle := element_length_le c r.1
        have htail := length_tail_le r.1
        have hlt := cksub_length_lt hsub
        exact nearer_char (size_lt_of_length (by omega))
      · rw [collTurn_substitute hs hsub hr]
        exact (nearer_in_replacement hr).mono (Nat.le_of_lt (size_substitute hsub))

theorem collTurn_nearer (p : Place) : Nearer c (p.size c) (c.collTurn p) := by
  rcases p with ⟨s, svs⟩
  cases svs with
  | none => exact nearer_outside s
  | some sv =>
    by_cases hs : deref s = 0
    · rw [collTurn_resume hs]
      exact (nearer_outside sv).mono (Nat.le_of_lt (size_resume s sv))
    · exact nearer_in_replacement hs

/-- The characters with a weight that `strcoll` comes to from a place. -/
inductive Yields (c : Database) : Place → List Xnd → Prop where
  | done {p : Place} {n : Nat} (h : Loop.run c.collTurn n p = some none) : Yields c p []
  | more {p q : Place} {x : Xnd} {xs : List Xnd} {n : Nat}
      (h : Loop.run c.collTurn n p = some (some (x, q))) (hx : x.pwt ≠ 0)
      (hrest : Yields c q xs) : Yields c p (x :: xs)

variable {xs : List Xnd}

theorem Yields.of_turn (hq : c.collTurn p = .inl q) (h : Yields c q xs) : Yields c p xs := by
  cases h with
  | done h => exact Yields.done ((Loop.run_next hq).trans h)
  | more h hx hrest => exact Yields.more ((Loop.run_next hq).trans h) hx hrest

theorem run_congr (h : c.collTurn p = c.collTurn q) (n : Nat) :
    Loop.run c.collTurn (n + 1) p = Loop.run c.collTurn (n + 1) q := by
  show (c.collTurn p).elim _ _ = (c.collTurn q).elim _ _
  rw [h]

theorem Yields.congr (heq : c.collTurn p = c.collTurn q) (h : Yields c q xs) : Yields c p xs := by
  cases h with
  | done h =>
    have hmore := Loop.run_mono h (Nat.le_succ _)
    exact Yields.done ((run_congr heq _).trans hmore)
  | more h hx hrest =>
    have hmore := Loop.run_mono h (Nat.le_succ _)
    exact Yields.more ((run_congr heq _).trans hmore) hx hrest

theorem exists_yields (c : Database) (p : Place) : ∃ xs, Yields c p xs := by
  generalize hn : p.size c = n
  induction n using Nat.strongRecOn generalizing p with
  | ind n ih =>
    have hnear := collTurn_nearer (c := c) p
    rw [hn] at hnear
    cases hturn : c.collTurn p with
    | inl q =>
      rcases ih _ (hnear.1 q hturn) q rfl with ⟨xs, hxs⟩
      exact ⟨xs, hxs.of_turn hturn⟩
    | inr r =>
      cases r with
      | none => exact ⟨[], Yields.done (n := 1) (Loop.run_leave hturn)⟩
      | some xq =>
        have hx := hnear.2 xq.1 xq.2 hturn
        rcases ih _ hx.2 xq.2 rfl with ⟨xs, hxs⟩
        exact ⟨xq.1 :: xs, Yields.more (n := 1) (Loop.run_leave hturn) hx.1 hxs⟩

/-!
## Characters in the table
-/

theorem node_mem {i : Nat} (h : (c.node i).pwt ≠ 0) : c.node i ∈ c.colltbl := by
  unfold node Collate.node at h ⊢
  rw [getD_eq_getElem?_getD] at h ⊢
  cases hget : c.colltbl[i]? with
  | none =>
    rw [hget] at h
    exact absurd rfl h
  | some x =>
    exact mem_of_getElem? hget

theorem element_mem (h : (c.element s).1.pwt ≠ 0) : (c.element s).1 ∈ c.colltbl := by
  unfold element at h ⊢
  dsimp only at h ⊢
  split at h
  · rename_i hch
    rw [if_pos hch]
    cases hfollow : c.follower (deref s.tail) (c.node (deref s).toNat).ch.toNat
        ((c.node (deref s).toNat).ns.toNat + szCollate) with
    | none =>
      rw [hfollow] at h
      exact node_mem h
    | some j =>
      rw [hfollow] at h
      exact node_mem h
  · rename_i hch
    rw [if_neg hch]
    exact node_mem h

theorem collTurn_mem {x : Xnd} (h : c.collTurn p = .inr (some (x, q))) : x ∈ c.colltbl := by
  unfold collTurn at h
  generalize (if deref p.s = 0 then p.svs.elim p fun sv => (⟨sv, none⟩ : Place) else p) = p' at h
  by_cases hs : deref p'.s = 0
  · rw [if_pos hs] at h
    cases h
  · rw [if_neg hs] at h
    generalize ((if p'.svs = none then c.cksub p'.s else none).elim p' fun r =>
      if deref r.2 ≠ 0 then (⟨r.2, some r.1⟩ : Place) else ⟨r.1, none⟩) = r at h
    by_cases hzero : (c.element r.s).1.pwt = 0
    · rw [if_pos hzero] at h
      cases h
    · rw [if_neg hzero] at h
      cases h
      exact element_mem hzero

theorem Yields.mem (h : Yields c p xs) : ∀ x ∈ xs, x ∈ c.colltbl ∧ x.pwt ≠ 0 := by
  induction h with
  | done h => exact fun x hx => absurd hx not_mem_nil
  | more h hx hrest ih =>
    intro y hy
    cases hy with
    | head =>
      have hmem := Loop.run_invariant (I := fun _ => True)
        (Q := fun r => ∀ x q, r = some (x, q) → x ∈ c.colltbl)
        (fun s t hs ht => trivial)
        (fun s r hs hr x q hxq => collTurn_mem (hr.trans (congrArg Sum.inr hxq))) trivial h
      exact ⟨hmem _ _ rfl, hx⟩
    | tail _ hy => exact ih y hy

end Database
end Collate
end Svr4
