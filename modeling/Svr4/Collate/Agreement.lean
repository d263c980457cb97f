import Svr4.Collate.Transform

/-!
# Agreement of the transform and the comparison

The two functions define one order, for every table in which no substitution that is made
has an empty replacement.
-/

namespace Svr4
namespace Collate

open List

variable {t t' n : Nat} {r : Int} {s1 s2 s : List UInt8} {xs ys : List Xnd} {mem : Int → UInt8}
  {x : Nat × (Int → UInt8)} {p q : Place}

namespace Database

variable {c : Database}

/-!
## Results
-/

/-- `strcoll` returns `r`. -/
def Compares (c : Database) (s1 s2 : List UInt8) (r : Int) : Prop :=
  ∃ t, c.strcoll t s1 s2 = some r

theorem collBody_mono (ht : t ≤ t') {st : Place × Place × Int} {k : Nat}
    (h : Loop.run (c.collBody t) k st = some (some r)) :
    Loop.run (c.collBody t') k st = some (some r) := by
  induction k generalizing st with
  | zero => cases h
  | succ k ih =>
    rcases st with ⟨p, q, d⟩
    cases hx : Loop.run c.collTurn t p with
    | none =>
      have hbody : c.collBody t (p, q, d) = .inr none := by
        unfold collBody
        rw [hx]
        rfl
      rw [Loop.run_leave hbody] at h
      cases h
    | some x =>
      cases hy : Loop.run c.collTurn t q with
      | none =>
        have hbody : c.collBody t (p, q, d) = .inr none := by
          unfold collBody
          rw [hx, Option.bind_some, hy]
          rfl
        rw [Loop.run_leave hbody] at h
        cases h
      | some y =>
        have hbody := collBody_of_runs (d := d) hx hy
        have hbody' := collBody_of_runs (d := d) (Loop.run_mono hx ht) (Loop.run_mono hy ht)
        cases hstep : collStep d x y with
        | inl st =>
          rw [hstep] at hbody hbody'
          rw [Loop.run_next hbody] at h
          rw [Loop.run_next hbody']
          exact ih h
        | inr e =>
          rw [hstep] at hbody hbody'
          rw [Loop.run_leave hbody] at h
          rw [Loop.run_leave hbody']
          exact h

theorem strcoll_mono (ht : t ≤ t')
    (h : c.strcoll t s1 s2 = some r) : c.strcoll t' s1 s2 = some r := by
  unfold strcoll at h ⊢
  have hrun := Option.join_eq_some_iff.mp h
  rw [Loop.run_mono (collBody_mono ht hrun) ht]
  rfl

theorem Compares.unique {r' : Int} (h : Compares c s1 s2 r)
    (h' : Compares c s1 s2 r') : r = r' := by
  rcases h with ⟨t, ht⟩
  rcases h' with ⟨t', ht'⟩
  have hr := strcoll_mono (Nat.le_max_left t t') ht
  have hr' := strcoll_mono (Nat.le_max_right t t') ht'
  rw [hr] at hr'
  exact Option.some.inj hr'

theorem Compares.order (h : Compares c s1 s2 r) (hx : Yields c ⟨s1, none⟩ xs)
    (hy : Yields c ⟨s2, none⟩ ys) : compare r 0 = Collation.order (xs.map key) (ys.map key) := by
  rcases exists_strcoll hx hy with ⟨n, r', hr', hrun⟩
  rw [h.unique ⟨n, hrun n (Nat.le_refl n)⟩, hr']

theorem Transforms.len (h : Transforms c mem s n x) (hw : Writes c ⟨s, none⟩ xs)
    (hxs : ∀ x ∈ xs, x.pwt ≠ 0) : x.1 = (xs.map Xnd.pwt).length + (written xs).length := by
  rcases h with ⟨t, ht⟩
  rcases hw n ⟨mem, 0, n - 1, 0⟩ with ⟨t', ht'⟩
  rcases Option.bind_eq_some_iff.mp ht with ⟨b, hb, hmap⟩
  rcases Option.map_eq_some_iff.mp hmap with ⟨mem', -, hx⟩
  rw [← hx, Loop.run_unique hb ht']
  exact (layout_written hxs n mem).len

theorem Transforms.unique {y : Nat × (Int → UInt8)} (hx : Transforms c mem s n x)
    (hy : Transforms c mem s n y) : x = y := by
  rcases hx with ⟨t, ht⟩
  rcases hy with ⟨t', ht'⟩
  rcases Option.bind_eq_some_iff.mp ht with ⟨b, hb, hmap⟩
  rcases Option.bind_eq_some_iff.mp ht' with ⟨b', hb', hmap'⟩
  rw [← Loop.run_unique hb hb'] at hmap'
  rcases Option.map_eq_some_iff.mp hmap with ⟨mem', hmem, hx⟩
  rcases Option.map_eq_some_iff.mp hmap' with ⟨mem'', hmem', hy⟩
  rw [← hx, ← hy, Loop.run_unique hmem hmem']

theorem Transforms.cstr (h : Transforms c mem s n x) (hfits : x.1 < n)
    (hw : Writes c ⟨s, none⟩ xs) (hxs : ∀ x ∈ xs, x.pwt ≠ 0) :
    Database.cstr x.2 n 0 = Collation.transform 0 (xs.map key) := by
  have hlen := h.len hw hxs
  rcases strxfrm_writes hw hxs (by omega : _ < n) mem with ⟨mem', hmem, hcstr⟩
  rw [h.unique hmem, hcstr]
  unfold Collation.transform Collation.weights Collation.primaries Collation.secondaries written
  rw [map_map, map_map]
  rfl

/-!
## The order
-/

structure Agrees (c : Database) : Prop where
  compares : ∀ s1 s2, ∃ r, Compares c s1 s2 r
  transforms : ∀ s, ∃ len, ∀ n, len < n → ∀ mem, ∃ mem', Transforms c mem s n (len, mem')
  agree : ∀ {s1 s2 r mem1 mem2 n1 n2 x1 x2}, Compares c s1 s2 r →
    Transforms c mem1 s1 n1 x1 → x1.1 < n1 → Transforms c mem2 s2 n2 x2 → x2.1 < n2 →
      List.compareLex compare (cstr x1.2 n1 0) (cstr x2.2 n2 0) = compare r 0
  antisymm : ∀ {s1 s2 r r'}, Compares c s1 s2 r → Compares c s2 s1 r' →
    compare r 0 = (compare r' 0).swap
  trans : ∀ {s1 s2 s3 r r' r''}, Compares c s1 s2 r → Compares c s2 s3 r' →
    Compares c s1 s3 r'' → r ≤ 0 → r' ≤ 0 → r'' ≤ 0

theorem key_below (hx : Yields c ⟨s1, none⟩ xs) (hy : Yields c ⟨s2, none⟩ ys) :
    ∀ k ∈ xs.map key, ∀ l ∈ ys.map key, compare k.2 l.1 = .lt := by
  intro k hk l hl
  rcases mem_map.mp hk with ⟨x, hxmem, hxk⟩
  rcases mem_map.mp hl with ⟨y, hymem, hyl⟩
  have hxin := hx.mem x hxmem
  have hyin := hy.mem y hymem
  rw [← hxk, ← hyl]
  exact Std.compare_eq_lt.mpr (c.below x hxin.1 y hyin.1 hyin.2)

theorem key_aligned (hx : Yields c ⟨s1, none⟩ xs) (hy : Yields c ⟨s2, none⟩ ys) :
    ∀ k ∈ xs.map key, ∀ l ∈ ys.map key, k.1 = l.1 → (k.2 = 0 ↔ l.2 = 0) := by
  intro k hk l hl heq
  rcases mem_map.mp hk with ⟨x, hxmem, hxk⟩
  rcases mem_map.mp hl with ⟨y, hymem, hyl⟩
  have hxin := hx.mem x hxmem
  have hyin := hy.mem y hymem
  rw [← hxk, ← hyl] at heq ⊢
  exact c.aligned x hxin.1 y hyin.1 hxin.2 heq

theorem isLE_iff (r : Int) : (compare r 0).isLE ↔ r ≤ 0 := Std.isLE_compare

theorem agrees_of_writes (h : ∀ s, ∃ xs, Yields c ⟨s, none⟩ xs ∧ Writes c ⟨s, none⟩ xs) :
    Agrees c := by
  constructor
  · intro s1 s2
    rcases h s1 with ⟨xs, hx, -⟩
    rcases h s2 with ⟨ys, hy, -⟩
    rcases exists_strcoll hx hy with ⟨n, r, -, hrun⟩
    exact ⟨r, n, hrun n (Nat.le_refl n)⟩
  · intro s
    rcases h s with ⟨xs, hx, hw⟩
    refine ⟨(xs.map Xnd.pwt).length + (written xs).length, fun n hn mem => ?_⟩
    rcases strxfrm_writes hw (fun x hxmem => (hx.mem x hxmem).2) hn mem with ⟨mem', hmem, -⟩
    exact ⟨mem', hmem⟩
  · intro s1 s2 r mem1 mem2 n1 n2 x1 x2 hr h1 hn1 h2 hn2
    rcases h s1 with ⟨xs, hx, hwx⟩
    rcases h s2 with ⟨ys, hy, hwy⟩
    rw [hr.order hx hy, h1.cstr hn1 hwx (fun x hxmem => (hx.mem x hxmem).2),
      h2.cstr hn2 hwy (fun y hymem => (hy.mem y hymem).2)]
    exact Collation.compareLex_transform 0 (key_below hx hy) (key_below hy hx) (key_aligned hx hy)
  · intro s1 s2 r r' hr hr'
    rcases exists_yields c ⟨s1, none⟩ with ⟨xs, hx⟩
    rcases exists_yields c ⟨s2, none⟩ with ⟨ys, hy⟩
    rw [hr.order hx hy, hr'.order hy hx]
    exact Collation.order_swap _ _
  · intro s1 s2 s3 r r' r'' hr hr' hr'' hle hle'
    rcases exists_yields c ⟨s1, none⟩ with ⟨xs, hx⟩
    rcases exists_yields c ⟨s2, none⟩ with ⟨ys, hy⟩
    rcases exists_yields c ⟨s3, none⟩ with ⟨zs, hz⟩
    rw [← isLE_iff, hr.order hx hy] at hle
    rw [← isLE_iff, hr'.order hy hz] at hle'
    rw [← isLE_iff, hr''.order hx hz]
    exact Collation.order_trans hle hle'

/-!
## Tables in which nothing has a weight
-/

inductive Within (c : Database) : List UInt8 → Prop where
  | first {u : List UInt8} {r : List UInt8 × List UInt8} (h : c.cksub u = some r) : Within c r.2
  | next {s : List UInt8} (h : Within c s) (hs : deref s ≠ 0) : Within c (c.element s).2

/-- The character at the pointer is taken as it is. -/
def Taken (c : Database) (s : List UInt8) : Prop :=
  c.cksub s = none ∨ (∃ u r, c.cksub u = some r ∧ deref r.2 = 0 ∧ r.1 = s) ∨ Within c s

def Weighs (c : Database) : Prop := ∃ s, Taken c s ∧ (c.element s).1.pwt ≠ 0

theorem deref_ne_of_pwt (h : (c.element s).1.pwt ≠ 0) : deref s ≠ 0 := by
  intro hs
  have hch : (c.node (deref s).toNat).ch = 0 := by
    rw [hs]
    exact c.nul_ch
  have hzero : (c.element s).1 = c.node 0 := by
    unfold element
    rw [if_neg (not_not_intro hch), hs]
    rfl
  rw [hzero] at h
  exact h c.nul_pwt

theorem deref_ne_of_cksub {r : List UInt8 × List UInt8} (h : c.cksub s = some r) : deref s ≠ 0 := by
  rcases cksub_spec h with ⟨e, he, -, hpre, -⟩
  rcases hpre with ⟨rest, hrest⟩
  cases hexp : e.exp with
  | nil => exact absurd hexp (c.exp_ne_nil e he)
  | cons b exp =>
    intro hs
    rw [hexp] at hrest
    rw [← hrest] at hs
    have hb : b = 0 := hs
    exact c.exp_nul e he (by rw [hexp, ← hb]; exact mem_cons_self)

theorem weighs_of_char {x : Xnd} (hs : Taken c s)
    (hturn : (if (c.element s).1.pwt = 0 then Sum.inl p
      else .inr (some ((c.element s).1, p))) = .inr (some (x, q))) : Weighs c := by
  refine ⟨s, hs, ?_⟩
  intro hzero
  rw [if_pos hzero] at hturn
  cases hturn

theorem goes_of_char {e : Xnd}
    (hturn : (if e.pwt = 0 then Sum.inl p else .inr (some (e, p))) = .inl q) : q = p := by
  by_cases hzero : e.pwt = 0
  · rw [if_pos hzero] at hturn
    exact (Sum.inl.inj hturn).symm
  · rw [if_neg hzero] at hturn
    cases hturn

/-- A saved pointer is only there while a replacement is gone through. -/
def Inside (c : Database) (p : Place) : Prop := p.svs ≠ none → Within c p.s

structure Turned (c : Database) (t : Place ⊕ Option (Xnd × Place)) : Prop where
  inside : ∀ q, t = .inl q → Inside c q
  weighs : ∀ x q, t = .inr (some (x, q)) → Weighs c

theorem Turned.plain {t : List UInt8} (hs : Taken c s) :
    Turned c (if (c.element s).1.pwt = 0 then .inl ⟨t, none⟩
      else .inr (some ((c.element s).1, ⟨t, none⟩))) := by
  constructor
  · intro q hq
    rw [goes_of_char hq]
    exact fun hsvs => absurd rfl hsvs
  · exact fun x q hq => weighs_of_char hs hq

theorem turned_within {sv : List UInt8} (h : Within c s) (hs : deref s ≠ 0) :
    Turned c (c.collTurn ⟨s, some sv⟩) := by
  have hturn := @collTurn_char c ⟨s, some sv⟩ hs (if_neg (Option.some_ne_none sv))
  rw [hturn]
  constructor
  · intro q hq
    rw [goes_of_char hq]
    exact fun _ => h.next hs
  · exact fun x q hq => weighs_of_char (.inr (.inr h)) hq

theorem turned_outside (s : List UInt8) : Turned c (c.collTurn ⟨s, none⟩) := by
  by_cases hs : deref s = 0
  · rw [collTurn_end hs]
    constructor
    · intro q hq
      cases hq
    · intro x q hq
      cases hq
  · cases hsub : c.cksub s with
    | none =>
      have hturn := @collTurn_char c ⟨s, none⟩ hs ((if_pos rfl).trans hsub)
      rw [hturn]
      exact Turned.plain (.inl hsub)
    | some r =>
      by_cases hr : deref r.2 = 0
      · rw [collTurn_empty hs hsub hr]
        exact Turned.plain (.inr (.inl ⟨s, r, hsub, hr, rfl⟩))
      · rw [collTurn_substitute hs hsub hr]
        exact turned_within (Within.first hsub) hr

theorem turned_collTurn (h : Inside c p) : Turned c (c.collTurn p) := by
  rcases p with ⟨s, svs⟩
  cases svs with
  | none => exact turned_outside s
  | some sv =>
    by_cases hs : deref s = 0
    · rw [collTurn_resume hs]
      exact turned_outside sv
    · exact turned_within (h (Option.some_ne_none sv)) hs

theorem weighs_of_yields {w : List UInt8} {x : Xnd}
    (h : Yields c ⟨w, none⟩ (x :: xs)) : Weighs c := by
  cases h with
  | more h hx hrest =>
    have hall : ∀ x' q, some (x, _) = some (x', q) → Weighs c :=
      @Loop.run_invariant _ _ _ _ _ _ (Inside c) (fun r => ∀ x' q, r = some (x', q) → Weighs c)
        (fun p q hp hq => (turned_collTurn hp).inside q hq)
        (fun p r hp hr x' q hr' => (turned_collTurn hp).weighs x' q (by rw [hr, hr']))
        (fun hsvs => absurd rfl hsvs) h
    exact hall _ _ rfl

def Comes (c : Database) : Prop := ∃ w x xs, Yields c ⟨w, none⟩ (x :: xs)

theorem yields_of_turn {x : Xnd} (hturn : c.collTurn p = .inr (some (x, q)))
    (hx : x.pwt ≠ 0) : ∃ xs, Yields c p (x :: xs) := by
  rcases exists_yields c q with ⟨xs, hxs⟩
  exact ⟨xs, Yields.more (n := 1) (Loop.run_leave hturn) hx hxs⟩

theorem Within.comes (h : Within c s) (hs : deref s ≠ 0) :
    Comes c ∨ ∃ sv w, ∀ xs, Yields c ⟨s, some sv⟩ xs → Yields c ⟨w, none⟩ xs := by
  induction h with
  | @first u r hsub =>
    right
    exact ⟨r.1, u, fun xs hxs =>
      hxs.congr (collTurn_substitute (deref_ne_of_cksub hsub) hsub hs)⟩
  | @next s h hne ih =>
    rcases ih hne with hcomes | ⟨sv, w, hw⟩
    · exact .inl hcomes
    · have hturn := @collTurn_char c ⟨s, some sv⟩ hne (if_neg (Option.some_ne_none sv))
      by_cases hzero : (c.element s).1.pwt = 0
      · rw [if_pos hzero] at hturn
        exact .inr ⟨sv, w, fun xs hxs => hw xs (hxs.of_turn hturn)⟩
      · rw [if_neg hzero] at hturn
        rcases yields_of_turn hturn hzero with ⟨xs, hxs⟩
        exact .inl ⟨w, _, xs, hw _ hxs⟩

theorem Weighs.comes (h : Weighs c) : Comes c := by
  rcases h with ⟨s, htaken, hx⟩
  have hs := deref_ne_of_pwt hx
  rcases htaken with hplain | ⟨u, r, hsub, hr, rfl⟩ | hwithin
  · have hturn := @collTurn_char c ⟨s, none⟩ hs ((if_pos rfl).trans hplain)
    rw [if_neg hx] at hturn
    rcases yields_of_turn hturn hx with ⟨xs, hxs⟩
    exact ⟨s, _, xs, hxs⟩
  · have hturn := collTurn_empty (deref_ne_of_cksub hsub) hsub hr
    rw [if_neg hx] at hturn
    rcases yields_of_turn hturn hx with ⟨xs, hxs⟩
    exact ⟨u, _, xs, hxs⟩
  · rcases hwithin.comes hs with hcomes | ⟨sv, w, hw⟩
    · exact hcomes
    · have hturn := @collTurn_char c ⟨s, some sv⟩ hs (if_neg (Option.some_ne_none sv))
      rw [if_neg hx] at hturn
      rcases yields_of_turn hturn hx with ⟨xs, hxs⟩
      exact ⟨w, _, xs, hw _ hxs⟩

/-- From the place `strcoll` comes to no weight. -/
def Quiet (c : Database) (p : Place) : Prop := ∀ x xs, ¬ Yields c p (x :: xs)

theorem Quiet.congr (heq : c.collTurn q = c.collTurn p) (h : Quiet c p) : Quiet c q :=
  fun x xs hy => h x xs (hy.congr heq.symm)

theorem Quiet.char (h : Quiet c p) (hs : deref p.s ≠ 0)
    (hsub : (if p.svs = none then c.cksub p.s else none) = none) :
    (c.element p.s).1.pwt = 0 ∧ Quiet c ⟨(c.element p.s).2, p.svs⟩ := by
  have hcoll := collTurn_char hs hsub
  by_cases hzero : (c.element p.s).1.pwt = 0
  · rw [if_pos hzero] at hcoll
    exact ⟨hzero, fun x xs hy => h x xs (hy.of_turn hcoll)⟩
  · rw [if_neg hzero] at hcoll
    rcases exists_yields c ⟨(c.element p.s).2, p.svs⟩ with ⟨xs, hxs⟩
    exact absurd (Yields.more (n := 1) (Loop.run_leave hcoll) hzero hxs) (h _ xs)

theorem writes_of_quiet (hall : ∀ w, Quiet c ⟨w, none⟩) (h : Quiet c p) : Writes c p [] := by
  generalize hn : p.size c = n
  induction n using Nat.strongRecOn generalizing p with
  | ind n ih =>
    rcases p with ⟨s, svs⟩
    by_cases hs : deref s = 0
    · cases svs with
      | none => exact writes_leave (xfrmTurn_end hs)
      | some sv =>
        exact writes_goto (xfrmTurn_resume hs)
          (ih _ (by rw [← hn]; exact size_resume s sv) (hall sv) rfl)
    · cases hsub : (if svs = none then c.cksub s else none) with
      | none =>
        have hchar := h.char hs hsub
        have hshorter := element_length_lt (c := c) (ne_nil_of_deref hs)
        have hrest := ih _ (by rw [← hn]; exact size_lt_of_length hshorter) hchar.2 rfl
        exact (writes_char (@xfrmTurn_char c ⟨s, svs⟩ hs hsub) hrest).of_zero hchar.1
      | some r =>
        cases svs with
        | some sv => cases hsub
        | none =>
          have hck : c.cksub s = some r := hsub
          have hquiet : Quiet c ⟨r.2, some r.1⟩ := by
            by_cases hr : deref r.2 = 0
            · exact (hall r.1).congr (collTurn_resume hr)
            · exact h.congr (collTurn_substitute hs hck hr).symm
          exact writes_goto (xfrmTurn_substitute hs hck)
            (ih _ (by rw [← hn]; exact size_substitute hck) hquiet rfl)

/-!
## A substitution by nothing
-/

theorem cksub_of_applies {e : Subnd} (he : c.Applies e) (w : List UInt8) :
    c.cksub (e.exp ++ 0 :: w) = some (0 :: w, e.repl) := by
  rcases List.find?_eq_some_iff_append.mp he with ⟨-, before, after, hsplit, hnot⟩
  have hmem : e ∈ c.subtbl := mem_of_find?_eq_some he
  have hderef : deref (e.exp ++ 0 :: w) = deref e.exp := by
    cases hexp : e.exp with
    | nil => exact absurd hexp (c.exp_ne_nil e hmem)
    | cons b exp => rfl
  have hfind : c.subtbl.find? (fun e' => e'.exp.isPrefixOf (e.exp ++ 0 :: w)) = some e := by
    refine List.find?_eq_some_iff_append.mpr ⟨?_, before, after, hsplit, ?_⟩
    · exact isPrefixOf_iff_prefix.mpr (prefix_append _ _)
    · intro e' he'
      have hother := hnot e' he'
      have hin : e' ∈ c.subtbl := by
        rw [hsplit]
        exact mem_append_left _ he'
      rw [Bool.not_eq_true', ← Bool.not_eq_true] at hother ⊢
      intro h
      apply hother
      rcases prefix_or_prefix_of_prefix ( isPrefixOf_iff_prefix.mp h)
        (prefix_append e.exp (0 :: w)) with hle | hge
      · exact isPrefixOf_iff_prefix.mpr hle
      · -- an expression that is longer has the end of the string in it
        rcases hge with ⟨rest, hrest⟩
        cases rest with
        | nil =>
          rw [append_nil] at hrest
          exact isPrefixOf_iff_prefix.mpr (hrest ▸ prefix_refl _)
        | cons b rest =>
          have hlong := isPrefixOf_iff_prefix.mp h
          rw [← hrest] at hlong
          have htail := (prefix_append_right_inj e.exp).mp hlong
          have hb := (cons_prefix_cons.mp htail).1
          exact absurd (by rw [← hrest, hb]; simp) (c.exp_nul e' hin)
  have hflag : ¬ (c.node (deref e.exp).toNat).swt &&& subflg = 0 := c.flagged e hmem
  unfold cksub
  rw [hderef, if_neg hflag, hfind, Option.map_some, drop_left]

theorem element_nul (w : List UInt8) : c.element (0 :: w) = (c.node 0, w) := by
  have hch : (c.node 0).ch = 0 := c.nul_ch
  exact if_neg (not_not_intro hch)

/--
`strcoll` goes on behind the end of a string that ends in an expression replaced by
nothing; `strxfrm` does not.
-/
theorem not_agrees_of_empty {e : Subnd} (he : c.Applies e) (hrepl : e.repl = [])
    (hw : c.Weighs) : ¬ Agrees c := by
  rcases hw.comes with ⟨w, x, xs, hx⟩
  intro h
  have hmem : e ∈ c.subtbl := mem_of_find?_eq_some he
  have hsub := cksub_of_applies he w
  rw [hrepl] at hsub
  have hs : deref (e.exp ++ 0 :: w) ≠ 0 := by
    cases hexp : e.exp with
    | nil => exact absurd hexp (c.exp_ne_nil e hmem)
    | cons b exp =>
      intro hzero
      exact c.exp_nul e hmem (by rw [hexp, ← (show b = 0 from hzero)]; exact mem_cons_self)
  have hturn : c.collTurn ⟨e.exp ++ 0 :: w, none⟩ = .inl ⟨w, none⟩ := by
    have hempty := collTurn_empty hs hsub rfl
    rw [element_nul] at hempty
    exact hempty.trans (if_pos c.nul_pwt)
  have hlong := hx.of_turn hturn
  have hshort : Yields c ⟨[], none⟩ [] := Yields.done (n := 1) (Loop.run_leave (collTurn_end rfl))
  have hwrites : Writes c ⟨e.exp ++ 0 :: w, none⟩ [] :=
    writes_goto (xfrmTurn_substitute hs hsub)
      (writes_goto (xfrmTurn_resume rfl) (writes_leave (xfrmTurn_end rfl)))
  have hwrites' : Writes c ⟨[], none⟩ [] := writes_leave (xfrmTurn_end rfl)
  rcases h.compares (e.exp ++ 0 :: w) [] with ⟨r, hr⟩
  have hnil : ∀ x ∈ ([] : List Xnd), x.pwt ≠ 0 := fun x hx => absurd hx not_mem_nil
  rcases strxfrm_writes hwrites hnil (n := 1) (Nat.zero_lt_one) (fun _ => 0) with ⟨mem1, h1, hcstr1⟩
  rcases strxfrm_writes hwrites' hnil (n := 1) (Nat.zero_lt_one) (fun _ => 0) with
    ⟨mem2, h2, hcstr2⟩
  have hagree := h.agree hr h1 Nat.zero_lt_one h2 Nat.zero_lt_one
  rw [hr.order hlong hshort, hcstr1, hcstr2] at hagree
  cases hagree

/--
The transform agrees with the comparison for the tables in which no substitution that is
made has an empty replacement, and those in which nothing has a weight, and no others.
-/
theorem agrees_iff (c : Database) : Agrees c ↔ c.NoEmpty ∨ ¬ c.Weighs := by
  constructor
  · intro h
    by_cases hw : c.Weighs
    · left
      exact fun e he hrepl => not_agrees_of_empty he hrepl hw h
    · exact .inr hw
  · rintro (hno | hw)
    · exact agrees_of_writes fun s => exists_writes hno ⟨s, none⟩
    · have hall (w : List UInt8) : Quiet c ⟨w, none⟩ := fun x xs hy => hw (weighs_of_yields hy)
      refine agrees_of_writes fun s => ?_
      rcases exists_yields c ⟨s, none⟩ with ⟨xs, hxs⟩
      cases xs with
      | nil => exact ⟨[], hxs, writes_of_quiet hall (hall s)⟩
      | cons x xs => exact absurd hxs (hall s x xs)

/-!
## A table that drops a character
-/

/-- The character 1 is replaced by nothing, the character 2 has a weight. -/
def droppingNodes : List Xnd := [⟨0, 0, 0, 0⟩, ⟨0, 0, 0x80, 0⟩, ⟨0, 1, 0, 0⟩]

theorem ch_droppingNodes (i : Nat) : (Collate.node droppingNodes i).ch = 0 := by
  rcases i with _ | _ | _ | i <;> rfl

theorem droppingNodes_follower (b : UInt8) (i : Nat)
    (hi : i < (Collate.node droppingNodes b.toNat).ch.toNat) : (Collate.node droppingNodes
      ((Collate.node droppingNodes b.toNat).ns.toNat + szCollate + i)).ch ≠ 0 := by
  rw [ch_droppingNodes] at hi
  exact absurd hi (Nat.not_lt_zero i)

theorem droppingNodes_below : ∀ x ∈ droppingNodes, ∀ y ∈ droppingNodes,
    y.pwt ≠ 0 → x.sec < y.pwt := by decide

theorem droppingNodes_aligned : ∀ x ∈ droppingNodes, ∀ y ∈ droppingNodes,
    x.pwt ≠ 0 → x.pwt = y.pwt → (x.sec = 0 ↔ y.sec = 0) := by decide

theorem droppingSub_exp_ne : ∀ e ∈ [(⟨[1], []⟩ : Subnd)], e.exp ≠ [] := by decide

theorem droppingSub_exp : ∀ e ∈ [(⟨[1], []⟩ : Subnd)], (0 : UInt8) ∉ e.exp := by decide

theorem droppingSub_repl : ∀ e ∈ [(⟨[1], []⟩ : Subnd)], (0 : UInt8) ∉ e.repl := by decide

theorem droppingSub_flagged : ∀ e ∈ [(⟨[1], []⟩ : Subnd)],
    (Collate.node droppingNodes (deref e.exp).toNat).swt &&& subflg ≠ 0 := by decide

def dropping : Database where
  colltbl := droppingNodes
  subtbl := [⟨[1], []⟩]
  nul_pwt := rfl
  nul_ch := rfl
  follower_ne := droppingNodes_follower
  below := droppingNodes_below
  aligned := droppingNodes_aligned
  exp_ne_nil := droppingSub_exp_ne
  exp_nul := droppingSub_exp
  repl_nul := droppingSub_repl
  flagged := droppingSub_flagged

theorem dropping_weighs : Weighs dropping := ⟨[2], .inl rfl, by decide⟩

theorem not_agrees : ¬ ∀ c : Database, Agrees c := by
  intro h
  have happlies : dropping.Applies ⟨[1], []⟩ := rfl
  exact not_agrees_of_empty happlies rfl dropping_weighs (h dropping)

end Database
end Collate
end Svr4
