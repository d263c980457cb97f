import Svr4.Collate.Weights

/-!
# The transformed string

Where `strxfrm` has room, the buffer is in the end the primary weights and behind them the
secondary ones.  These are first written downwards from the end of the buffer, and then moved
or, where they overlap with their places, exchanged.
-/

namespace Svr4
namespace Collate
namespace Database

open Function List

/-!
## The reversal
-/

section Reversal

variable {mem : Int → UInt8} {a q e k : Int} {T : Int → UInt8}

/--
So far `j` bytes have been put in their places from `a` on.  Either
they were copied from the end `e` of the buffer, or `m` of them were exchanged.
-/
structure Reversed (mem : Int → UInt8) (a q e k : Int) (T : Int → UInt8) (r : Reversal)
    (j m : Int) : Prop where
  j_nonneg : 0 ≤ j
  m_nonneg : 0 ≤ m
  s1 : r.s1 = a + j
  sptr : r.sptr = e - j
  i : r.i = k - j - m
  place : a + j ≤ q ∧ m = 0 ∨ a + j = q + m
  done : ∀ y, 0 ≤ y → y < j → r.mem (a + y) = T y
  left : ∀ y, j ≤ y → y ≤ k - m → r.mem (e - y) = T y
  exchanged : ∀ y, k - m < y → y ≤ k → r.mem (a + y) = T y
  below : ∀ x, x < a → r.mem x = mem x

theorem Reversed.copy {r : Reversal} {j m : Int} (h : Reversed mem a q e k T r j m)
    (hk : e = q + k) (hi : ¬ r.i < 0) (hs1 : r.s1 < q) : Reversed mem a q e k T
      ⟨update r.mem r.s1 (r.mem r.sptr), r.s1 + 1, r.sptr - 1, r.i - 1⟩ (j + 1) 0 := by
  have hj := h.j_nonneg
  have hs := h.s1
  have hp := h.sptr
  have hri := h.i
  have hzero : m = 0 := by
    rcases h.place with hplace | hplace
    · exact hplace.2
    · have hm := h.m_nonneg
      omega
  constructor
  · omega
  · exact Int.le_refl 0
  · dsimp only
    omega
  · dsimp only
    omega
  · dsimp only
    omega
  · left
    exact ⟨by omega, rfl⟩
  · intro y hy hyj
    dsimp only
    by_cases hlast : y = j
    · rw [hlast, ← hs, update_self, hp]
      exact h.left j (Int.le_refl j) (by omega)
    · rw [update_of_ne (by omega)]
      exact h.done y hy (by omega)
  · intro y hy hyk
    dsimp only
    rw [update_of_ne (by omega)]
    exact h.left y (by omega) (by omega)
  · omega
  · intro x hx
    dsimp only
    rw [update_of_ne (by omega)]
    exact h.below x hx

theorem Reversed.exchange {r : Reversal} {j m : Int} (h : Reversed mem a q e k T r j m)
    (hk : e = q + k) (hi : ¬ r.i < 0) (hs1 : ¬ r.s1 < q) :
    Reversed mem a q e k T ⟨update (update r.mem r.s1 (r.mem r.sptr)) r.sptr (r.mem r.s1),
        r.s1 + 1, r.sptr - 1, r.i - 2⟩ (j + 1) (m + 1) := by
  have hj := h.j_nonneg
  have hs := h.s1
  have hp := h.sptr
  have hri := h.i
  have hplace : a + j = q + m := by
    rcases h.place with hplace | hplace
    · omega
    · exact hplace
  have hfirst : r.mem r.sptr = T j := by
    rw [hp]
    exact h.left j (Int.le_refl j) (by omega)
  have hother : r.mem r.s1 = T (k - m) := by
    have hleft := h.left (k - m) (by omega) (Int.le_refl _)
    rwa [show e - (k - m) = r.s1 by omega] at hleft
  constructor
  · omega
  · omega
  · dsimp only
    omega
  · dsimp only
    omega
  · dsimp only
    omega
  · right
    omega
  · intro y hy hyj
    dsimp only
    by_cases hlast : y = j
    · by_cases hsame : r.s1 = r.sptr
      · rw [hlast, ← hs, hsame, update_self, ← hsame, hother]
        exact congrArg T (by omega)
      · rw [hlast, ← hs, update_of_ne hsame, update_self, hfirst]
    · rw [update_of_ne (by omega), update_of_ne (by omega)]
      exact h.done y hy (by omega)
  · intro y hy hyk
    dsimp only
    rw [update_of_ne (by omega), update_of_ne (by omega)]
    exact h.left y (by omega) (by omega)
  · intro y hy hyk
    dsimp only
    by_cases hlast : y = k - m
    · rw [show a + y = r.sptr by omega, update_self, hother, hlast]
    · rw [update_of_ne (by omega), update_of_ne (by omega)]
      exact h.exchanged y (by omega) hyk
  · intro x hx
    dsimp only
    rw [update_of_ne (by omega), update_of_ne (by omega)]
    exact h.below x hx

theorem reverse_run (haq : a ≤ q) (hk : e = q + k) (hsrc : ∀ y, 0 ≤ y → y ≤ k → mem (e - y) = T y) :
    ∃ t mem', Loop.run (reverseBody q) t ⟨mem, a, e, k⟩ = some mem' ∧
      (∀ y, 0 ≤ y → y ≤ k → mem' (a + y) = T y) ∧ ∀ x, x < a → mem' x = mem x := by
  have hstart : Reversed mem a q e k T ⟨mem, a, e, k⟩ 0 0 := by
    constructor
    · exact Int.le_refl 0
    · exact Int.le_refl 0
    · exact (Int.add_zero a).symm
    · exact (Int.sub_zero e).symm
    · dsimp only
      omega
    · left
      exact ⟨by omega, rfl⟩
    · omega
    · intro y hy hyk
      exact hsrc y hy (by omega)
    · omega
    · exact fun x hx => rfl
  have hnext (r s : Reversal) (hr : ∃ j m, Reversed mem a q e k T r j m)
      (hbody : reverseBody q r = .inl s) :
      (∃ j m, Reversed mem a q e k T s j m) ∧ (s.i + 2).toNat < (r.i + 2).toNat := by
    rcases hr with ⟨j, m, h⟩
    unfold reverseBody at hbody
    by_cases hi : r.i < 0
    · rw [if_pos hi] at hbody
      cases hbody
    · rw [if_neg hi] at hbody
      by_cases hs1 : r.s1 < q
      · rw [if_pos hs1] at hbody
        rw [← Sum.inl.inj hbody]
        exact ⟨⟨_, _, h.copy hk hi hs1⟩, by dsimp only; omega⟩
      · rw [if_neg hs1] at hbody
        rw [← Sum.inl.inj hbody]
        exact ⟨⟨_, _, h.exchange hk hi hs1⟩, by dsimp only; omega⟩
  have hleave (r : Reversal) (mem' : Int → UInt8) (hr : ∃ j m, Reversed mem a q e k T r j m)
      (hbody : reverseBody q r = .inr mem') :
      (∀ y, 0 ≤ y → y ≤ k → mem' (a + y) = T y) ∧ ∀ x, x < a → mem' x = mem x := by
    rcases hr with ⟨j, m, h⟩
    unfold reverseBody at hbody
    by_cases hi : r.i < 0
    · rw [if_pos hi] at hbody
      rw [← Sum.inr.inj hbody]
      have hri := h.i
      constructor
      · intro y hy hyk
        by_cases hyj : y < j
        · exact h.done y hy hyj
        · exact h.exchanged y (by omega) hyk
      · exact h.below
    · rw [if_neg hi] at hbody
      split at hbody <;> cases hbody
  rcases Loop.run_of_measure (fun r => (r.i + 2).toNat) hnext hleave ⟨0, 0, hstart⟩
    (Nat.lt_succ_self _) with ⟨mem', hrun, hmem⟩
  exact ⟨_, mem', hrun, hmem⟩

end Reversal

/-!
## The buffer
-/

/-- The buffer, as long as there was room. -/
structure Layout (n : Nat) (ps ss : List UInt8) (b : Buffer) : Prop where
  len : b.len = ps.length + ss.length
  s1 : b.len < n → b.s1 = ps.length
  secstr : b.len < n → b.secstr = n - 1 - ss.length
  up : b.len < n → ∀ (i : Nat) (h : i < ps.length), b.mem i = ps[i]
  down : b.len < n → ∀ (i : Nat) (h : i < ss.length), b.mem (n - 1 - i) = ss[i]

section Layout

variable {n : Nat} {ps ss : List UInt8} {b : Buffer}

theorem Layout.putPrim (h : Layout n ps ss b) (w : UInt8) :
    Layout n (ps ++ [w]) ss (b.putPrim n w) := by
  have hlen := h.len
  unfold Buffer.putPrim
  by_cases hroom : b.len + 1 < n
  · have hb : b.len < n := by omega
    have hs1 := h.s1 hb
    rw [if_pos hroom]
    constructor
    · rw [length_append, length_singleton]
      dsimp only
      omega
    · rw [length_append, length_singleton]
      dsimp only
      omega
    · intro _
      exact h.secstr hb
    · intro _ i hi
      rw [length_append, length_singleton] at hi
      dsimp only
      by_cases hlast : i = ps.length
      · subst hlast
        rw [← hs1, update_self, getElem_concat_length rfl]
      · rw [update_of_ne (by omega), getElem_append_left (by omega)]
        exact h.up hb i (by omega)
    · intro _ i hi
      dsimp only
      rw [update_of_ne (by omega)]
      exact h.down hb i hi
  · rw [if_neg hroom]
    constructor
    · rw [length_append, length_singleton]
      dsimp only
      omega
    all_goals exact fun hlt => absurd hlt hroom

theorem Layout.putSec (h : Layout n ps ss b) (w : UInt8) :
    Layout n ps (ss ++ [w]) (b.putSec n w) := by
  have hlen := h.len
  unfold Buffer.putSec
  by_cases hroom : b.len + 1 < n
  · have hb : b.len < n := by omega
    have hsecstr := h.secstr hb
    rw [if_pos hroom]
    constructor
    · rw [length_append, length_singleton]
      dsimp only
      omega
    · intro _
      exact h.s1 hb
    · rw [length_append, length_singleton]
      dsimp only
      omega
    · intro _ i hi
      dsimp only
      rw [update_of_ne (by omega)]
      exact h.up hb i hi
    · intro _ i hi
      rw [length_append, length_singleton] at hi
      dsimp only
      by_cases hlast : i = ss.length
      · subst hlast
        rw [← hsecstr, update_self, getElem_concat_length rfl]
      · rw [update_of_ne (by omega), getElem_append_left (by omega)]
        exact h.down hb i (by omega)
  · rw [if_neg hroom]
    constructor
    · rw [length_append, length_singleton]
      dsimp only
      omega
    all_goals exact fun hlt => absurd hlt hroom

def written (xs : List Xnd) : List UInt8 := (xs.map Xnd.sec).filter (· ≠ 0)

theorem Layout.put (h : Layout n ps ss b) {x : Xnd} (hx : x.pwt ≠ 0) :
    Layout n (ps ++ [x.pwt]) (ss ++ written [x]) (b.put n x) := by
  unfold Buffer.put written
  rw [if_pos hx]
  by_cases hsec : x.sec = 0
  · rw [if_neg (not_not_intro hsec), map_singleton,
      filter_cons_of_neg (by simp [hsec]), filter_nil, append_nil]
    exact h.putPrim x.pwt
  · rw [if_pos hsec, map_singleton, filter_cons_of_pos (by simp [hsec]), filter_nil]
    exact (h.putPrim x.pwt).putSec x.sec

theorem written_cons (x : Xnd) (xs : List Xnd) : written (x :: xs) = written [x] ++ written xs := by
  unfold written
  rw [← filter_append, ← map_append, singleton_append]

theorem Layout.foldl (h : Layout n ps ss b) {xs : List Xnd} (hxs : ∀ x ∈ xs, x.pwt ≠ 0) :
    Layout n (ps ++ xs.map Xnd.pwt) (ss ++ written xs) (xs.foldl (Buffer.put n) b) := by
  induction xs generalizing ps ss b with
  | nil =>
    rw [map_nil, append_nil]
    exact (append_nil ss).symm ▸ h
  | cons x xs ih =>
    have hrest := ih (h.put (hxs x mem_cons_self)) (fun y hy => hxs y (mem_cons_of_mem x hy))
    rw [append_assoc, append_assoc, ← written_cons] at hrest
    exact hrest

end Layout

/-!
## The string that is left
-/

/-- The C string at an address, of which at most `n` bytes are looked at. -/
def cstr (mem : Int → UInt8) : Nat → Int → List UInt8
  | 0, _ => []
  | n + 1, a => if mem a = 0 then [] else mem a :: cstr mem n (a + 1)

theorem cstr_eq {mem : Int → UInt8} {l : List UInt8} {n : Nat} {a : Int}
    (hmem : ∀ (i : Nat) (h : i < l.length), mem (a + i) = l[i])
    (hend : mem (a + l.length) = 0) (hl : 0 ∉ l) (hn : l.length < n) : cstr mem n a = l := by
  induction l generalizing n a with
  | nil =>
    cases n with
    | zero => rfl
    | succ n =>
      have hzero : mem a = 0 := by simpa using hend
      rw [cstr, if_pos hzero]
  | cons w l ih =>
    cases n with
    | zero => exact absurd hn (Nat.not_lt_zero _)
    | succ n =>
      have hfirst : mem a = w := by
        have h := hmem 0 (Nat.zero_lt_succ _)
        rwa [Int.natCast_zero, Int.add_zero] at h
      have hne : mem a ≠ 0 := by
        rw [hfirst]
        intro h
        exact hl (by rw [← h]; exact mem_cons_self)
      have hrest (i : Nat) (h : i < l.length) : mem (a + 1 + i) = l[i] := by
        have hnext := hmem (i + 1) (Nat.succ_lt_succ h)
        rw [getElem_cons_succ] at hnext
        rw [← hnext]
        exact congrArg mem (by omega)
      have hend' : mem (a + 1 + l.length) = 0 := by
        rw [← hend, length_cons]
        exact congrArg mem (by omega)
      rw [cstr, if_neg hne, hfirst, ih hrest hend' (fun h => hl (mem_cons_of_mem w h))
        (Nat.lt_of_succ_lt_succ hn)]

/-- `strxfrm` returns the length and leaves memory as given. -/
def Transforms (c : Database) (mem : Int → UInt8) (s : List UInt8) (n : Nat)
    (x : Nat × (Int → UInt8)) : Prop :=
  ∃ t, c.strxfrm t mem s n = some x

theorem zero_notMem_written (xs : List Xnd) : 0 ∉ written xs := by
  intro h
  have hzero := (mem_filter.mp h).2
  exact absurd rfl (of_decide_eq_true hzero)

section Strxfrm

variable {c : Database} {s : List UInt8} {xs : List Xnd}

theorem layout_written (hxs : ∀ x ∈ xs, x.pwt ≠ 0) (n : Nat) (mem : Int → UInt8) :
    Layout n (xs.map Xnd.pwt) (written xs) (xs.foldl (Buffer.put n) ⟨mem, 0, n - 1, 0⟩) := by
  have hempty : Layout n [] [] ⟨mem, 0, n - 1, 0⟩ := by
    constructor
    · rfl
    · exact fun _ => rfl
    · exact fun _ => (Int.sub_zero _).symm
    · exact fun _ i hi => absurd hi (Nat.not_lt_zero i)
    · exact fun _ i hi => absurd hi (Nat.not_lt_zero i)
  have hlayout := hempty.foldl hxs
  rwa [nil_append, nil_append] at hlayout

theorem zero_notMem_pwt (hxs : ∀ x ∈ xs, x.pwt ≠ 0) : 0 ∉ xs.map Xnd.pwt := by
  intro h
  rcases mem_map.mp h with ⟨x, hx, hzero⟩
  exact hxs x hx hzero

theorem strxfrm_writes (hw : Writes c ⟨s, none⟩ xs) (hxs : ∀ x ∈ xs, x.pwt ≠ 0) {n : Nat}
    (hn : (xs.map Xnd.pwt).length + (written xs).length < n) (mem : Int → UInt8) :
    ∃ mem', Transforms c mem s n ((xs.map Xnd.pwt).length + (written xs).length, mem') ∧
      cstr mem' n 0 = xs.map Xnd.pwt ++ written xs := by
  have hlayout := layout_written hxs n mem
  rcases hw n ⟨mem, 0, n - 1, 0⟩ with ⟨t, ht⟩
  generalize xs.foldl (Buffer.put n) ⟨mem, 0, n - 1, 0⟩ = b at hlayout ht
  have hroom : b.len < n := by
    rw [hlayout.len]
    exact hn
  have hs1 := hlayout.s1 hroom
  have hsecstr := hlayout.secstr hroom
  have hps := zero_notMem_pwt hxs
  have hss := zero_notMem_written xs
  generalize xs.map Xnd.pwt = ps at hlayout hn hs1 hps ⊢
  generalize written xs = ss at hlayout hn hsecstr hss ⊢
  -- the secondary weights and the end of the string, downwards from the end of the buffer
  have hsrc (y : Int) (hy : 0 ≤ y) (hyk : y ≤ n - 1 - b.secstr) :
      update b.mem b.secstr 0 (n - 1 - y) = (ss ++ [0]).getD y.toNat 0 := by
    rw [getD_eq_getElem?_getD]
    by_cases hlast : y = ss.length
    · rw [hlast, hsecstr, update_self, Int.toNat_natCast,
        getElem?_append_right (Nat.le_refl _), Nat.sub_self]
      rfl
    · have hlt : y.toNat < ss.length := by omega
      have hdown := hlayout.down hroom y.toNat hlt
      rw [Int.toNat_of_nonneg hy] at hdown
      rw [update_of_ne (by omega), hdown, getElem?_append_left hlt,
        getElem?_eq_getElem hlt, Option.getD_some]
  rcases @reverse_run _ b.s1 b.secstr (n - 1) (n - 1 - b.secstr)
    (fun y => (ss ++ [0]).getD y.toNat 0) (by omega) (by omega) hsrc with
    ⟨t', mem', ht', hplaced, hkept⟩
  refine ⟨mem', ⟨max t t', ?_⟩, ?_⟩
  · unfold strxfrm
    rw [Loop.run_mono ht (Nat.le_max_left t t'), Option.bind_some,
      Loop.run_mono ht' (Nat.le_max_right t t'), Option.map_some, hlayout.len]
  · have hput (y : Nat) (hy : y ≤ ss.length) : mem' (ps.length + y) = (ss ++ [0]).getD y 0 := by
      have h := hplaced y (Int.natCast_nonneg y) (by omega)
      rwa [hs1, Int.toNat_natCast] at h
    apply cstr_eq
    · intro i hi
      rw [length_append] at hi
      rw [Int.zero_add]
      by_cases hlt : i < ps.length
      · rw [getElem_append_left hlt, hkept i (by omega), update_of_ne (by omega)]
        exact hlayout.up hroom i hlt
      · have hi' : i - ps.length < ss.length := by omega
        have h := hput (i - ps.length) (by omega)
        rw [getD_eq_getElem?_getD, getElem?_append_left hi',
          getElem?_eq_getElem hi', Option.getD_some] at h
        rw [getElem_append_right (by omega), ← h]
        exact congrArg mem' (by omega)
    · have h := hput ss.length (Nat.le_refl _)
      rw [getD_eq_getElem?_getD, getElem?_append_right (Nat.le_refl _), Nat.sub_self] at h
      rw [Int.zero_add, length_append, Int.natCast_add]
      exact h
    · intro h
      rcases mem_append.mp h with h | h
      · exact hps h
      · exact hss h
    · rw [length_append]
      exact hn

end Strxfrm

end Database
end Collate
end Svr4
