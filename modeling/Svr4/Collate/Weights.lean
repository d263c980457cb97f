import Svr4.Lib.Collation
import Svr4.Collate.Scan

/-!
# The weights of a string

What the loop of `strxfrm` writes, and what `strcoll` finds, in terms of the
characters of the strings that have a weight.
-/

namespace Svr4
namespace Collate
namespace Database

open List

variable {c : Database}

/-!
## Empty replacements
-/

/-- The substitution is made somewhere: no earlier one is made in its place. -/
def Applies (c : Database) (e : Subnd) : Prop :=
  c.subtbl.find? (fun e' => e'.exp.isPrefixOf e.exp) = some e

def NoEmpty (c : Database) : Prop := ∀ e, c.Applies e → e.repl ≠ []

theorem applies_of_cksub {s : List UInt8} {r : List UInt8 × List UInt8}
    (h : c.cksub s = some r) : ∃ e, c.Applies e ∧ e ∈ c.subtbl ∧ r.2 = e.repl := by
  rcases cksub_spec h with ⟨e, he, hfind, hprefix, hr⟩
  refine ⟨e, ?_, he, congrArg Prod.snd hr⟩
  rcases List.find?_eq_some_iff_append.mp hfind with ⟨-, before, after, hsplit, hnot⟩
  refine List.find?_eq_some_iff_append.mpr
    ⟨ isPrefixOf_iff_prefix.mpr (prefix_refl _), before, after, hsplit, ?_⟩
  intro e' he'
  have hother := hnot e' he'
  rw [Bool.not_eq_true', ← Bool.not_eq_true] at hother ⊢
  exact fun h' => hother ( isPrefixOf_iff_prefix.mpr (( isPrefixOf_iff_prefix.mp h').trans hprefix))

theorem deref_ne_zero {s : List UInt8} (hs : s ≠ []) (hzero : 0 ∉ s) : deref s ≠ 0 := by
  cases s with
  | nil => exact absurd rfl hs
  | cons b s => exact fun h => hzero (by rw [← h]; exact mem_cons_self)

theorem deref_replacement (hno : c.NoEmpty) {s : List UInt8} {r : List UInt8 × List UInt8}
    (h : c.cksub s = some r) : deref r.2 ≠ 0 := by
  rcases applies_of_cksub h with ⟨e, happlies, he, hr⟩
  rw [hr]
  exact deref_ne_zero (hno e happlies) (c.repl_nul e he)

/-!
## The loop of strxfrm
-/

def Writes (c : Database) (p : Place) (xs : List Xnd) : Prop :=
  ∀ (n : Nat) (b : Buffer), ∃ t, Loop.run (c.xfrmBody n) t (p, b) = some (xs.foldl (Buffer.put n) b)

theorem writes_goto {p q : Place} {xs : List Xnd} (hturn : c.xfrmTurn p = .goto q)
    (h : Writes c q xs) : Writes c p xs := by
  intro n b
  rcases h n b with ⟨t, ht⟩
  have hbody : c.xfrmBody n (p, b) = .inl (q, b) := by
    unfold xfrmBody
    rw [hturn]
  exact ⟨t + 1, (Loop.run_next hbody).trans ht⟩

theorem writes_char {p q : Place} {x : Xnd} {xs : List Xnd}
    (hturn : c.xfrmTurn p = .char x q) (h : Writes c q xs) : Writes c p (x :: xs) := by
  intro n b
  rcases h n (b.put n x) with ⟨t, ht⟩
  have hbody : c.xfrmBody n (p, b) = .inl (q, b.put n x) := by
    unfold xfrmBody
    rw [hturn]
  exact ⟨t + 1, (Loop.run_next hbody).trans ht⟩

theorem writes_leave {p : Place} (hturn : c.xfrmTurn p = .leave) : Writes c p [] := by
  intro n b
  have hbody : c.xfrmBody n (p, b) = .inr b := by
    unfold xfrmBody
    rw [hturn]
  exact ⟨1, Loop.run_leave hbody⟩

theorem put_of_zero {x : Xnd} (hx : x.pwt = 0) (n : Nat) (b : Buffer) : b.put n x = b := by
  exact if_neg (not_not_intro hx)

theorem Writes.of_zero {p : Place} {x : Xnd} {xs : List Xnd} (hx : x.pwt = 0)
    (h : Writes c p (x :: xs)) : Writes c p xs := by
  intro n b
  have hrun := h n b
  rwa [foldl_cons, put_of_zero hx] at hrun

theorem xfrmTurn_end {s : List UInt8} (hs : deref s = 0) : c.xfrmTurn ⟨s, none⟩ = .leave := by
  exact if_pos hs

theorem xfrmTurn_resume {s sv : List UInt8} (hs : deref s = 0) :
    c.xfrmTurn ⟨s, some sv⟩ = .goto ⟨sv, none⟩ := by
  exact if_pos hs

theorem xfrmTurn_substitute {s : List UInt8} {r : List UInt8 × List UInt8} (hs : deref s ≠ 0)
    (hsub : c.cksub s = some r) : c.xfrmTurn ⟨s, none⟩ = .goto ⟨r.2, some r.1⟩ := by
  unfold xfrmTurn
  rw [if_neg hs, if_pos rfl, hsub, Option.elim_some]

theorem xfrmTurn_char {p : Place} (hs : deref p.s ≠ 0)
    (hsub : (if p.svs = none then c.cksub p.s else none) = none) :
    c.xfrmTurn p = .char (c.element p.s).1 ⟨(c.element p.s).2, p.svs⟩ := by
  unfold xfrmTurn
  rw [if_neg hs, hsub, Option.elim_none]

theorem both_char {p : Place} (hs : deref p.s ≠ 0)
    (hsub : (if p.svs = none then c.cksub p.s else none) = none) {xs : List Xnd}
    (hy : Yields c ⟨(c.element p.s).2, p.svs⟩ xs) (hw : Writes c ⟨(c.element p.s).2, p.svs⟩ xs) :
    ∃ ys, Yields c p ys ∧ Writes c p ys := by
  have hcoll := collTurn_char hs hsub
  have hchar := writes_char (xfrmTurn_char hs hsub) hw
  by_cases hzero : (c.element p.s).1.pwt = 0
  · rw [if_pos hzero] at hcoll
    exact ⟨xs, hy.of_turn hcoll, hchar.of_zero hzero⟩
  · rw [if_neg hzero] at hcoll
    exact ⟨_, Yields.more (n := 1) (Loop.run_leave hcoll) hzero hy, hchar⟩

theorem exists_writes (hno : c.NoEmpty) (p : Place) : ∃ xs, Yields c p xs ∧ Writes c p xs := by
  generalize hn : p.size c = n
  induction n using Nat.strongRecOn generalizing p with
  | ind n ih =>
    rcases p with ⟨s, svs⟩
    by_cases hs : deref s = 0
    · cases svs with
      | none =>
        exact ⟨[], Yields.done (n := 1) (Loop.run_leave (collTurn_end hs)),
          writes_leave (xfrmTurn_end hs)⟩
      | some sv =>
        rcases ih _ (by rw [← hn]; exact size_resume s sv) ⟨sv, none⟩ rfl with ⟨xs, hy, hw⟩
        exact ⟨xs, hy.congr (collTurn_resume hs), writes_goto (xfrmTurn_resume hs) hw⟩
    · have hshorter := element_length_lt (c := c) (ne_nil_of_deref hs)
      have hrest : Place.size c ⟨(c.element s).2, svs⟩ < n := by
        rw [← hn]
        exact size_lt_of_length hshorter
      cases hsub : (if svs = none then c.cksub s else none) with
      | none =>
        rcases ih _ hrest ⟨(c.element s).2, svs⟩ rfl with ⟨xs, hy, hw⟩
        exact @both_char c ⟨s, svs⟩ hs hsub xs hy hw
      | some r =>
        cases svs with
        | some sv => cases hsub
        | none =>
          have hck : c.cksub s = some r := hsub
          rcases ih _ (by rw [← hn]; exact size_substitute hck) ⟨r.2, some r.1⟩ rfl with
            ⟨xs, hy, hw⟩
          exact ⟨xs, hy.congr (collTurn_substitute hs hck (deref_replacement hno hck)),
            writes_goto (xfrmTurn_substitute hs hck) hw⟩

/-!
## The loop of strcoll
-/

def key (x : Xnd) : UInt8 × UInt8 := (x.pwt, x.sec)

theorem compare_sub (a b : UInt8) : compare ((a.toNat : Int) - b.toNat) 0 = compare a b := by
  rcases Nat.lt_trichotomy a.toNat b.toNat with hlt | heq | hgt
  · rw [Std.compare_eq_lt.mpr (show (a.toNat : Int) - b.toNat < 0 by omega),
      Std.compare_eq_lt.mpr (UInt8.lt_iff_toNat_lt.mpr hlt)]
  · rw [UInt8.toNat_inj.mp heq, Int.sub_self, Std.ReflOrd.compare_self, Std.ReflOrd.compare_self]
  · rw [Std.compare_eq_gt.mpr (show (0 : Int) < (a.toNat : Int) - b.toNat by omega),
      Std.compare_eq_gt.mpr (UInt8.lt_iff_toNat_lt.mpr hgt)]

theorem pwt_pos {x : Xnd} (hx : x.pwt ≠ 0) : 0 < x.pwt.toNat := by
  apply Nat.pos_of_ne_zero
  intro h
  exact hx (UInt8.toNat_inj.mp h)

/-- The order of what is left of the strings, and of a difference found before. -/
def resultFrom (d : Int) (xs ys : List Xnd) : Ordering :=
  (List.compareLex compare (xs.map Xnd.pwt) (ys.map Xnd.pwt)).then
    (if d = 0 then List.compareLex compare (xs.map Xnd.sec) (ys.map Xnd.sec) else compare d 0)

theorem collBody_of_runs {t : Nat} {p q : Place} {d : Int} {x y : Option (Xnd × Place)}
    (hx : Loop.run c.collTurn t p = some x) (hy : Loop.run c.collTurn t q = some y) :
    c.collBody t (p, q, d) = (collStep d x y).elim .inl fun d => .inr (some d) := by
  unfold collBody
  rw [hx, Option.bind_some, hy]
  rfl

/-- Enough turns for `strcoll` to come to a result from where it is. -/
def ResultFrom (c : Database) (p q : Place) (d : Int) (o : Ordering) : Prop :=
  ∃ (n : Nat) (r : Int), compare r 0 = o ∧
    ∀ t k, n ≤ t → n ≤ k → Loop.run (c.collBody t) k (p, q, d) = some (some r)

theorem resultFrom_leave {p q : Place} {d r : Int} {x y : Option (Xnd × Place)} {n m : Nat}
    {o : Ordering} (hx : Loop.run c.collTurn n p = some x)
    (hy : Loop.run c.collTurn m q = some y) (hstep : collStep d x y = .inr r)
    (hr : compare r 0 = o) : ResultFrom c p q d o := by
  refine ⟨n + m + 1, r, hr, fun t k ht hk => ?_⟩
  have hbody := collBody_of_runs (d := d) (Loop.run_mono hx (by omega : n ≤ t))
    (Loop.run_mono hy (by omega : m ≤ t))
  rw [hstep] at hbody
  exact Loop.run_mono (Loop.run_leave (n := 0) hbody) (by omega)

theorem resultFrom_next {p q p' q' : Place} {d d' : Int} {x y : Option (Xnd × Place)}
    {n m : Nat} {o : Ordering} (hx : Loop.run c.collTurn n p = some x)
    (hy : Loop.run c.collTurn m q = some y) (hstep : collStep d x y = .inl (p', q', d'))
    (hrest : ResultFrom c p' q' d' o) : ResultFrom c p q d o := by
  rcases hrest with ⟨l, r, hr, hrun⟩
  refine ⟨n + m + l + 1, r, hr, fun t k ht hk => ?_⟩
  have hbody := collBody_of_runs (d := d) (Loop.run_mono hx (by omega : n ≤ t))
    (Loop.run_mono hy (by omega : m ≤ t))
  rw [hstep] at hbody
  have hnext := (Loop.run_next (n := l) hbody).trans (hrun t l (by omega) (Nat.le_refl l))
  exact Loop.run_mono hnext (by omega)

theorem resultFrom_equal (d : Int) (xs ys : List Xnd) {x y : Xnd} (heq : x.pwt = y.pwt) :
    resultFrom (if d = 0 then (x.sec.toNat : Int) - y.sec.toNat else d) xs ys =
      resultFrom d (x :: xs) (y :: ys) := by
  unfold resultFrom
  rw [List.map_cons, List.map_cons, List.map_cons, List.map_cons, List.compareLex_cons_cons,
    List.compareLex_cons_cons, heq, Std.ReflOrd.compare_self, Ordering.eq_then]
  refine congrArg _ ?_
  by_cases hd : d = 0
  · rw [if_pos hd, if_pos hd, ← compare_sub x.sec y.sec]
    by_cases hsec : (x.sec.toNat : Int) - y.sec.toNat = 0
    · rw [if_pos hsec, hsec]
      rfl
    · rw [if_neg hsec]
      rcases Int.lt_or_gt_of_ne hsec with hlt | hgt
      · rw [Std.compare_eq_lt.mpr hlt]
        rfl
      · rw [Std.compare_eq_gt.mpr hgt]
        rfl
  · rw [if_neg hd, if_neg hd, if_neg hd]

theorem resultFrom_differ (d : Int) (xs ys : List Xnd) {x y : Xnd} (hne : x.pwt ≠ y.pwt) :
    compare ((x.pwt.toNat : Int) - y.pwt.toNat) 0 = resultFrom d (x :: xs) (y :: ys) := by
  unfold resultFrom
  rw [compare_sub, List.map_cons, List.map_cons, List.compareLex_cons_cons]
  cases hcmp : compare x.pwt y.pwt with
  | lt => rfl
  | gt => rfl
  | eq => exact absurd (Std.LawfulEqOrd.eq_of_compare hcmp) hne

theorem strcoll_from {p : Place} {xs : List Xnd} (hp : Yields c p xs) :
    ∀ {q : Place} {ys : List Xnd} (d : Int), Yields c q ys →
      ResultFrom c p q d (resultFrom d xs ys) := by
  induction hp with
  | done hx =>
    intro q ys d hq
    cases hq with
    | done hy =>
      refine resultFrom_leave hx hy rfl ?_
      show compare d 0 = (if d = 0 then _ else compare d 0)
      by_cases hd : d = 0
      · rw [if_pos hd, hd]
        rfl
      · rw [if_neg hd]
    | more hy hy0 hrest =>
      rename_i y _ _
      have hpos := pwt_pos hy0
      have hlt : (0 : Int) - y.pwt.toNat < 0 := by omega
      exact resultFrom_leave hx hy rfl (Std.compare_eq_lt.mpr hlt)
  | more hx hx0 hrest ih =>
    intro q ys d hq
    cases hq with
    | done hy => exact resultFrom_leave hx hy rfl rfl
    | more hy hy0 hrest' =>
      rename_i x xs _ _ y ys _
      by_cases heq : x.pwt = y.pwt
      · have hnext := ih (if d = 0 then (x.sec.toNat : Int) - y.sec.toNat else d) hrest'
        rw [resultFrom_equal d xs ys heq] at hnext
        exact resultFrom_next hx hy (if_neg (not_not_intro heq)) hnext
      · exact resultFrom_leave hx hy (if_pos heq) (resultFrom_differ d xs ys heq)

theorem exists_strcoll {s1 s2 : List UInt8} {xs ys : List Xnd} (hx : Yields c ⟨s1, none⟩ xs)
    (hy : Yields c ⟨s2, none⟩ ys) :
    ∃ (n : Nat) (r : Int), compare r 0 = Collation.order (xs.map key) (ys.map key) ∧
      ∀ t, n ≤ t → c.strcoll t s1 s2 = some r := by
  rcases strcoll_from hx 0 hy with ⟨n, r, hr, hrun⟩
  refine ⟨n, r, ?_, fun t ht => ?_⟩
  · rw [hr]
    unfold resultFrom Collation.order Collation.primaries Collation.secondaries
    rw [if_pos rfl, map_map, map_map, map_map, map_map]
    rfl
  · unfold strcoll
    rw [hrun t t ht ht]
    rfl

end Database
end Collate
end Svr4
