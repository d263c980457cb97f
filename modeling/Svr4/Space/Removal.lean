import Svr4.Space.Operations

/-!
# Removing mappings

`as_unmap` goes along the ring and lets the segment drivers remove their parts of the
range; a driver may free the segment, shorten it, or split it.  `as_free` frees
the segments one by one.
-/

namespace Svr4
namespace Space

open Function Rings List

/-!
## Pages
-/

variable {a b addr fuel size : Nat}

section Pages

theorem word_pages : word % PAGESIZE = 0 := by decide

theorem pageDown_pages (a : Nat) : pageDown a % PAGESIZE = 0 := by
  exact Nat.mul_mod_left _ _

theorem pageDown_le (a : Nat) : pageDown a ≤ a := Nat.div_mul_le_self a PAGESIZE

theorem pageDown_eq (ha : a % PAGESIZE = 0) : pageDown a = a := by
  exact Nat.div_mul_cancel (Nat.dvd_of_mod_eq_zero ha)

theorem pageUp_pages (a : Nat) : pageUp a % PAGESIZE = 0 := pageDown_pages _

theorem pageUp_eq (ha : a % PAGESIZE = 0) (hsmall : a < KVBASE) : pageUp a = a := by
  have hsum : add32 a (PAGESIZE - 1) = a + (PAGESIZE - 1) :=
    Nat.mod_eq_of_lt (by unfold PAGESIZE word KVBASE at *; omega)
  unfold pageUp pageDown
  unfold PAGESIZE at *
  omega

theorem le_pageUp (hsmall : a < KVBASE) : a ≤ pageUp a ∧ pageUp a ≤ KVBASE := by
  have hsum : add32 a (PAGESIZE - 1) = a + (PAGESIZE - 1) :=
    Nat.mod_eq_of_lt (by unfold PAGESIZE word KVBASE at *; omega)
  unfold pageUp pageDown
  unfold PAGESIZE KVBASE at *
  omega

theorem sub32_eq (hle : b ≤ a) (hsmall : a < word) : sub32 a b = a - b := by
  unfold sub32
  have hsum : a + word - b = (a - b) + word := by omega
  rw [hsum, Nat.add_mod_right]
  exact Nat.mod_eq_of_lt (by omega)

theorem sub32_pages (ha : a % PAGESIZE = 0) (hb : b % PAGESIZE = 0) : sub32 a b % PAGESIZE = 0 := by
  have hw := word_pages
  unfold sub32
  rw [Nat.mod_mod_of_dvd _ (by decide)]
  unfold PAGESIZE at *
  omega

end Pages

variable {u : Unmap}

namespace Segs

/-!
## A part of a segment
-/

section Part

variable {m : Segs} {as : As} {a b : List Nat} {s : Nat}

theorem split_unique {p : Nat → Prop} {a a' b b' : List Nat} (happ : a ++ b = a' ++ b')
    (ha : ∀ x ∈ a, p x) (hb : ∀ x ∈ b, ¬ p x) (ha' : ∀ x ∈ a', p x) (hb' : ∀ x ∈ b', ¬ p x) :
    a = a' ∧ b = b' := by
  induction a generalizing a' with
  | nil =>
    cases a' with
    | nil => exact ⟨rfl, happ⟩
    | cons x a' =>
      rw [nil_append] at happ
      exact absurd (ha' x mem_cons_self) (hb x (by rw [happ]; simp))
  | cons x a ih =>
    cases a' with
    | nil =>
      rw [nil_append] at happ
      exact absurd (ha x mem_cons_self) (hb' x (by rw [← happ]; simp))
    | cons y a' =>
      injection happ with hxy hrest
      obtain ⟨heq, hbb⟩ := ih hrest (fun z hz => ha z (mem_cons_of_mem _ hz))
        fun z hz => ha' z (mem_cons_of_mem _ hz)
      rw [hxy, heq]
      exact ⟨rfl, hbb⟩

inductive Left (m' : Segs) (s addr len base size new : Nat) : List Nat → Prop
  | gone : addr = base → len = size → Left m' s addr len base size new []
  | front : addr = base → len < size → m'.sBase s = addr + len →
      Left m' s addr len base size new [s]
  | back : base < addr → addr + len = base + size → m'.sBase s = base →
      Left m' s addr len base size new [s]
  | split : base < addr → addr + len < base + size → m'.sBase s = base →
      Left m' s addr len base size new [s, new]

theorem unmap_spec {len : Nat} (hr : Rep m as (a ++ s :: b)) (hal : Aligned m (a ++ s :: b))
    (hnew : u.new ∉ m.used) (haddr : m.sBase s ≤ addr) (hlen : 0 < len)
    (hend : addr + len ≤ m.sBase s + m.sSize s) (hpa : addr % PAGESIZE = 0)
    (hpl : len % PAGESIZE = 0) : m.unmap as s addr len u = some none ∨
    ∃ m' as' mid, m.unmap as s addr len u = some (some (m', as')) ∧
      Rep m' as' (a ++ (mid ++ b)) ∧ Frame m (a ++ s :: b) m' (a ++ (mid ++ b)) ∧
      total m' (a ++ (mid ++ b)) = total m (a ++ s :: b) - len ∧
      Aligned m' (a ++ (mid ++ b)) ∧ as'.aSize = as.aSize ∧ as'.aPaglck = as.aPaglck ∧
      Left m' s addr len (m.sBase s) (m.sSize s) u.new mid ∧
      (∀ t ∈ a ++ b, m'.sBase t = m.sBase t) ∧ (u.new ∉ mid → u.new ∉ m'.used) := by
  have hin : s ∈ a ++ s :: b := by simp
  have hsend := hr.sEnd_eq hin
  have hplace := hr.place s hin
  have hk : KVBASE < word := by decide
  have hsum : add32 addr len = addr + len := Nat.mod_eq_of_lt (by omega)
  have hals := hal s hin
  have hnodup := hr.ring.nodup
  have hsnot : s ∉ a ++ b := by
    rw [perm_middle.nodup_iff] at hnodup
    exact (nodup_cons.mp hnodup).1
  have hne : ∀ t ∈ a ++ b, t ≠ s := by
    rintro t ht rfl
    exact hsnot ht
  obtain ⟨hsorta, hsortb, hcross⟩ := pairwise_append.mp hr.sorted
  have hbefore : ∀ t ∈ a, m.sBase t + m.sSize t ≤ m.sBase s :=
    fun t ht => hcross t ht s mem_cons_self
  have hafter : ∀ t ∈ b, m.sBase s + m.sSize s ≤ m.sBase t :=
    fun t ht => (pairwise_cons.mp hsortb).1 t ht
  unfold unmap
  rw [hsum, hsend]
  rw [if_neg (by omega)]
  split
  · exact .inl rfl
  refine .inr ?_
  split
  · -- the whole segment
    rename_i hall
    obtain ⟨m₁, as₁, hfree, hr₁, hbase₁, hsize₁, hused₁, hz₁, hp₁, hf₁⟩ := segFree_spec hr
    refine ⟨m₁, as₁, [], by rw [hfree], hr₁, hf₁, ?_, ?_, hz₁, hp₁, .gone hall.1 hall.2,
      fun t _ => congrFun hbase₁ t, fun _ hmem => hnew ?_⟩
    · have hsame : total m₁ (a ++ b) = total m (a ++ b) :=
        total_congr fun t _ => congrFun hsize₁ t
      rw [nil_append, hsame, total_middle m a b s, hall.2]
      ring
    · exact hal.subset (fun t ht => ((sublist_cons_self s b).append_left a).subset ht) hbase₁ hsize₁
    · rw [hused₁] at hmem
      exact mem_of_mem_erase hmem
  rename_i hnotall
  split
  · -- its beginning
    rename_i hfront
    have hlt : len < m.sSize s := by
      rcases Nat.lt_or_ge len (m.sSize s) with hlt | hge
      · exact hlt
      · exact absurd ⟨hfront, by omega⟩ hnotall
    have hbase₁ : add32 (m.sBase s) len = addr + len := by rw [← hfront, hsum]
    have hsize₁ : sub32 (m.sSize s) len = m.sSize s - len := sub32_eq (by omega) (by omega)
    rw [hbase₁, hsize₁]
    let m₁ := (m.setBase s (addr + len)).setSize s (m.sSize s - len)
    have hb₁ : m₁.sBase s = addr + len := update_self _ _ _
    have hs₁ : m₁.sSize s = m.sSize s - len := update_self _ _ _
    obtain ⟨hr₁, hf₁, ht₁⟩ := hr.resize (n := m₁) rfl rfl rfl
      (fun t ht => update_of_ne ht _ _) (fun t ht => update_of_ne ht _ _)
      (by rw [hb₁, hs₁]; omega)
      (fun t ht => by have hle := hbefore t ht; rw [hb₁]; omega)
      (fun t ht => by have hle := hafter t ht; rw [hb₁, hs₁]; omega)
    refine ⟨m₁, as, [s], rfl, hr₁, hf₁, ?_, ?_, rfl, rfl, .front hfront hlt hb₁,
      fun t ht => update_of_ne (hne t ht) _ _, fun _ => hnew⟩
    · rw [singleton_append, ht₁, hs₁]
      omega
    · refine hal.resize (fun t ht => .inl ht) (fun t ht => update_of_ne ht _ _)
        (fun t ht => update_of_ne ht _ _) ?_
      rw [hb₁, hs₁]
      exact ⟨pages_add hpa hpl, pages_sub hals.2 hpl⟩
  rename_i hnotfront
  have hgt : m.sBase s < addr := by omega
  split
  · -- its end
    rename_i hback
    have hsize₁ : sub32 (m.sSize s) len = m.sSize s - len := sub32_eq (by omega) (by omega)
    rw [hsize₁]
    let m₁ := m.setSize s (m.sSize s - len)
    have hs₁ : m₁.sSize s = m.sSize s - len := update_self _ _ _
    obtain ⟨hr₁, hf₁, ht₁⟩ := hr.resize (n := m₁) rfl rfl rfl
      (fun _ _ => rfl) (fun t ht => update_of_ne ht _ _)
      (by
        rw [hs₁]
        change _ ∧ m.sBase s + (m.sSize s - len) < KVBASE
        omega)
      (fun t ht => hbefore t ht)
      (fun t ht => by
        have hle := hafter t ht
        rw [hs₁]
        change m.sBase s + (m.sSize s - len) ≤ m.sBase t
        omega)
    refine ⟨m₁, as, [s], rfl, hr₁, hf₁, ?_, ?_, rfl, rfl, .back hgt hback rfl,
      fun t _ => rfl, fun _ => hnew⟩
    · rw [singleton_append, ht₁, hs₁]
      omega
    · refine hal.resize (fun t ht => .inl ht) (fun _ _ => rfl)
        (fun t ht => update_of_ne ht _ _) ?_
      rw [hs₁]
      exact ⟨hals.1, pages_sub hals.2 hpl⟩
  · -- its middle
    rename_i hnotback
    have hlt : addr + len < m.sBase s + m.sSize s := by omega
    have hnsize : sub32 (m.sBase s + m.sSize s) (addr + len) =
        m.sBase s + m.sSize s - (addr + len) := sub32_eq (by omega) (by omega)
    have hsize₁ : sub32 addr (m.sBase s) = addr - m.sBase s := sub32_eq (by omega) (by omega)
    simp only
    rw [hnsize, hsize₁]
    let m₁ := m.setSize s (addr - m.sBase s)
    have hs₁ : m₁.sSize s = addr - m.sBase s := update_self _ _ _
    obtain ⟨hr₁, hf₁, ht₁⟩ := hr.resize (n := m₁) rfl rfl rfl
      (fun _ _ => rfl) (fun t ht => update_of_ne ht _ _)
      (by
        rw [hs₁]
        change _ ∧ m.sBase s + (addr - m.sBase s) < KVBASE
        omega)
      (fun t ht => hbefore t ht)
      (fun t ht => by
        have hle := hafter t ht
        rw [hs₁]
        change m.sBase s + (addr - m.sBase s) ≤ m.sBase t
        omega)
    have hal₁ : Aligned m₁ (a ++ s :: b) := by
      refine hal.resize (fun t ht => .inl ht) (fun _ _ => rfl)
        (fun t ht => update_of_ne ht _ _) ?_
      rw [hs₁]
      exact ⟨hals.1, pages_sub hpa hals.1⟩
    have hnbase : pageDown (addr + len) = addr + len := pageDown_eq (pages_add hpa hpl)
    have hall : addr + len + (m.sBase s + m.sSize s - (addr + len)) = m.sBase s + m.sSize s := by
      omega
    have hwhole : sub32 (pageUp (add32 (addr + len) (m.sBase s + m.sSize s - (addr + len))))
        (pageDown (addr + len)) = m.sBase s + m.sSize s - (addr + len) := by
      have hadd : add32 (addr + len) (m.sBase s + m.sSize s - (addr + len)) =
          m.sBase s + m.sSize s := by
        unfold add32
        rw [hall]
        exact Nat.mod_eq_of_lt (by omega)
      rw [hadd, hnbase, pageUp_eq (pages_add hals.1 hals.2) hplace.2]
      exact hnsize
    have hnew₁ : u.new ∉ (m.setSize s (addr - m.sBase s)).used := hnew
    have hsm₁ : ∀ t, t ≠ s → m₁.sSize t = m.sSize t := fun t ht => update_of_ne ht _ _
    rw [if_neg hnew₁]
    rcases segAlloc_spec hr₁ hnew (addr + len) (m.sBase s + m.sSize s - (addr + len)) with
      ⟨_, hwhy⟩ | ⟨m₂, as₂, a', b', hrun, hsplit, hr₂, hf₂, hbn, hsn, hkeep, hused, hz₂, hp₂⟩
    · -- there is room for the new segment
      obtain ⟨t, ht, hlo, hhi⟩ := hwhy _ hwhole.symm (by omega) (by rw [hnbase]; omega)
      change m.sBase t < _ at hlo
      change _ < m.sBase t + _ at hhi
      rcases mem_append.mp ht with hmem | hmem
      · rw [hsm₁ t (hne t (mem_append_left _ hmem))] at hhi
        have hle := hbefore t hmem
        omega
      · rcases mem_cons.mp hmem with rfl | hmem
        · omega
        · have hle := hafter t hmem
          omega
    · rw [hnbase] at hbn
      rw [hwhole] at hsn
      -- the new segment stands behind the old one
      have hnewl : u.new ∉ a ++ s :: b := fun hmem => hnew (hr.used _ hmem)
      obtain ⟨hsa, hsb, hsab⟩ := pairwise_append.mp hr₂.sorted
      have hplace₂ := hr₂.place
      have hkb : ∀ t ∈ a ++ s :: b, m₂.sBase t = m.sBase t := by
        intro t ht
        exact (hkeep t fun heq => hnewl (heq ▸ ht)).1
      have hpos : a ++ [s] = a' ∧ b = b' := by
        refine split_unique (p := fun t => m.sBase t < addr + len) (by rw [← hsplit]; simp)
          ?_ ?_ ?_ ?_
        · intro t ht
          rcases mem_append.mp ht with hmem | hmem
          · have hle := hbefore t hmem
            omega
          · rw [mem_singleton.mp hmem]
            omega
        · intro t ht
          have hle := hafter t ht
          omega
        · intro t ht
          have hmem : t ∈ a ++ s :: b := hsplit ▸ mem_append_left _ ht
          have hle := hsab t ht u.new mem_cons_self
          have hsz := (hplace₂ t (mem_append_left _ ht)).1
          rw [hkb t hmem, hbn] at hle
          omega
        · intro t ht
          have hmem : t ∈ a ++ s :: b := hsplit ▸ mem_append_right _ ht
          have hle := (pairwise_cons.mp hsb).1 t ht
          rw [hkb t hmem, hbn] at hle
          omega
      obtain ⟨rfl, rfl⟩ := hpos
      have hlist : a ++ [s] ++ u.new :: b = a ++ ([s, u.new] ++ b) := by simp
      rw [hlist] at hr₂ hf₂
      refine ⟨m₂, as₂, [s, u.new], ?_, hr₂, hf₁.trans hf₂, ?_, ?_, hz₂, hp₂, .split hgt hlt ?_,
        fun t ht => hkb t (((sublist_cons_self s b).append_left a).subset ht), fun hmem => absurd (by simp) hmem⟩
      · have hrun₁ : (m.setSize s (addr - m.sBase s)).segAlloc as (addr + len)
            (m.sBase s + m.sSize s - (addr + len)) u.new = some (some (m₂, as₂)) := hrun
        simp only [hrun₁]
      · have hsame : total m₂ (a ++ s :: b) = total m₁ (a ++ s :: b) :=
          total_congr fun t ht => (hkeep t fun heq => hnewl (heq ▸ ht)).2
        rw [← hlist, total_middle, hsn, show a ++ [s] ++ b = a ++ s :: b by simp, hsame, ht₁, hs₁]
        omega
      · intro t ht
        by_cases htn : t = u.new
        · rw [htn, hbn, hsn]
          exact ⟨pages_add hpa hpl, pages_sub (pages_add hals.1 hals.2) (pages_add hpa hpl)⟩
        · rw [(hkeep t htn).1, (hkeep t htn).2]
          refine hal₁ t ?_
          simp only [mem_append, mem_cons, not_mem_nil, or_false] at ht ⊢
          tauto
      · exact hkb s hin

end Part

/-!
## The whole range
-/

section Range

variable {m : Segs} {as : As} {l a b : List Nat} {seg : Nat}

theorem unmapLoop_spec {eaddr raddr : Nat} (hs : Sized m as (a ++ seg :: b)) (hle : raddr ≤ eaddr)
    (hstart : raddr < eaddr ∨ eaddr ≤ m.sBase seg) (hnew : raddr < eaddr → u.new ∉ m.used)
    (hpr : raddr % PAGESIZE = 0) (hpe : eaddr % PAGESIZE = 0) (hfuel : b.length + 2 ≤ fuel) :
    ∃ m' as' l' ok, unmapLoop u eaddr fuel seg raddr m as = some (m', as', ok) ∧
      Sized m' as' l' ∧ Frame m (a ++ seg :: b) m' l' ∧ as'.aPaglck = as.aPaglck := by
  induction fuel generalizing m as a b seg raddr with
  | zero => omega
  | succ fuel ih =>
    have hin : seg ∈ a ++ seg :: b := by simp
    have hend := hs.rep.sEnd_eq hin
    have hplace := hs.rep.place seg hin
    have hk : KVBASE < word := by decide
    have hals := hs.aligned seg hin
    obtain ⟨hsorta, hsortb, hcross⟩ := pairwise_append.mp hs.rep.sorted
    have hdone : ∀ ok : Bool, ∃ m' as' l' ok', some (m, as, ok) = some (m', as', ok') ∧
        Sized m' as' l' ∧ Frame m (a ++ seg :: b) m' l' ∧ as'.aPaglck = as.aPaglck :=
      fun ok => ⟨m, as, _, ok, rfl, hs, Frame.refl m _, rfl⟩
    rw [unmapLoop]
    simp only [hend]
    split
    · -- not there yet
      rename_i hover
      split
      · rename_i hagain
        cases b with
        | cons n d =>
          have hnext : m.sNext seg = n := by
            obtain ⟨h, hh⟩ : ∃ h, (a ++ seg :: n :: d).head? = some h := by
              cases a with
              | nil => exact ⟨seg, rfl⟩
              | cons h a => exact ⟨h, rfl⟩
            exact hs.rep.ring.next_eq hh
          have hlist : a ++ seg :: n :: d = (a ++ [seg]) ++ n :: d := by simp
          rw [hlist] at hs
          rw [hnext, hlist]
          refine ih hs hle ?_ hnew hpr ?_
          · rcases hstart with hlt' | hge
            · exact .inl hlt'
            · right
              omega
          · rw [length_cons] at hfuel
            omega
        | nil =>
          exfalso
          cases a with
          | nil =>
            have hnext : m.sNext seg = seg := hs.rep.ring.next_eq (a := []) (b := []) rfl
            rw [hnext] at hagain
            omega
          | cons h a =>
            have hnext : m.sNext seg = h := hs.rep.ring.next_eq (a := h :: a) (b := []) rfl
            have hlt := hcross h mem_cons_self seg mem_cons_self
            rw [hnext] at hagain
            omega
      · exact hdone true
    split
    · exact hdone true
    rename_i hnot hbelow
    have hraddr : raddr < eaddr := by
      rcases hstart with hlt | hge
      · exact hlt
      · exact absurd hge hbelow
    have hfresh := hnew hraddr
    -- the part of the range in this segment
    obtain ⟨r, hr⟩ : ∃ r, r = if raddr < m.sBase seg then m.sBase seg else raddr := ⟨_, rfl⟩
    obtain ⟨e, he⟩ : ∃ e, e =
      if eaddr > m.sBase seg + m.sSize seg then m.sBase seg + m.sSize seg else eaddr := ⟨_, rfl⟩
    have hrb : m.sBase seg ≤ r ∧ r < e ∧ r < eaddr ∧ r % PAGESIZE = 0 ∧ e % PAGESIZE = 0 := by
      have hpend := pages_add hals.1 hals.2
      rw [hr, he]
      split <;> split <;> refine ⟨?_, ?_, ?_, ?_, ?_⟩ <;> omega
    have heb : e ≤ m.sBase seg + m.sSize seg ∧ e ≤ eaddr ∧
        (e = eaddr ∨ e = m.sBase seg + m.sSize seg) := by
      rw [he]
      split <;> omega
    rw [← hr, ← he]
    have hsub : sub32 e r = e - r := sub32_eq (by omega) (by omega)
    have hadd : add32 r (e - r) = e := by
      unfold add32
      rw [Nat.add_sub_cancel' (by omega)]
      exact Nat.mod_eq_of_lt (by omega)
    rw [hsub, hadd]
    rcases unmap_spec (u := u) hs.rep hs.aligned hfresh hrb.1 (show 0 < e - r by omega) (by omega)
      hrb.2.2.2.1 (pages_sub hrb.2.2.2.2 hrb.2.2.2.1) with
      herr | ⟨m₁, as₁, mid, hrun, hr₁, hf₁, ht₁, hal₁, hz₁, hp₁, hleft, hbase₁, hfresh₁⟩
    · rw [herr]
      exact hdone false
    rw [hrun]
    simp only
    have hs₁ : Sized m₁ { as₁ with aSize := as₁.aSize - ((e - r : Nat) : Int) }
        (a ++ (mid ++ b)) := by
      refine ⟨hr₁.of_as rfl hr₁.last, ?_, hal₁⟩
      rw [hz₁, ht₁, hs.size]
    have hdone₁ : ∀ ok : Bool, ∃ m' as' l' ok',
        some (m₁, ({ as₁ with aSize := as₁.aSize - ((e - r : Nat) : Int) } : As), ok) =
          some (m', as', ok') ∧
        Sized m' as' l' ∧ Frame m (a ++ seg :: b) m' l' ∧ as'.aPaglck = as.aPaglck :=
      fun ok => ⟨m₁, _, _, ok, rfl, hs₁, hf₁, hp₁⟩
    split
    · rename_i hagain
      cases b with
      | cons n d =>
        have hnext : m.sNext seg = n := by
          obtain ⟨h, hh⟩ : ∃ h, (a ++ seg :: n :: d).head? = some h := by
            cases a with
            | nil => exact ⟨seg, rfl⟩
            | cons h a => exact ⟨h, rfl⟩
          exact hs.rep.ring.next_eq hh
        have hlist : a ++ (mid ++ n :: d) = (a ++ mid) ++ n :: d := by simp
        have hlt := (pairwise_cons.mp hsortb).1 n mem_cons_self
        rw [hlist] at hs₁ hf₁
        rw [hnext]
        have hfresh₂ : e < eaddr → u.new ∉ m₁.used := by
          intro hlte
          have hall : e = m.sBase seg + m.sSize seg := by omega
          have hnews : u.new ≠ seg := fun heq => hfresh (heq ▸ hs.rep.used seg hin)
          refine hfresh₁ ?_
          cases hleft with
          | gone _ _ => exact not_mem_nil
          | front _ _ _ => simpa using hnews
          | back _ _ _ => simpa using hnews
          | split _ hinside _ => omega
        obtain ⟨m₂, as₂, l₂, ok, hloop, hs₂, hf₂, hp₂⟩ := ih hs₁ heb.2.1 (by
            rw [hbase₁ n (by simp)]
            omega)
          hfresh₂ hrb.2.2.2.2
          (by
            rw [length_cons] at hfuel
            omega)
        exact ⟨m₂, as₂, l₂, ok, hloop, hs₂, hf₁.trans hf₂, hp₂.trans hp₁⟩
      | nil =>
        cases a with
        | nil =>
          have hnext : m.sNext seg = seg := hs.rep.ring.next_eq (a := []) (b := []) rfl
          rw [hnext] at hagain ⊢
          cases hleft with
          | gone _ _ => exact absurd hs₁.rep.first hagain.1
          | back _ _ hsame =>
            omega
          | split _ _ hsame =>
            omega
          | front _ hshort hmoved =>
            -- the segment starts where the range ends
            have hend₁ := hs₁.rep.sEnd_eq (mem_singleton_self seg)
            have hplace₁ := hs₁.rep.place seg (mem_singleton_self seg)
            cases fuel with
            | zero => omega
            | succ fuel =>
              rw [unmapLoop]
              rw [if_neg (by rw [hend₁]; omega), if_pos (by omega)]
              exact ⟨m₁, _, _, true, rfl, hs₁, hf₁, hp₁⟩
        | cons h a =>
          have hnext : m.sNext seg = h := hs.rep.ring.next_eq (a := h :: a) (b := []) rfl
          have hlt := hcross h mem_cons_self seg mem_cons_self
          rw [hnext, hbase₁ h (by simp)] at hagain
          omega
    · exact hdone₁ true

theorem asUnmap_spec (hs : Sized m as l) (hlt : pageDown addr < pageUp (add32 addr size))
    (hnew : u.new ∉ m.used) :
    ∃ m' as' l' ok, m.asUnmap as addr size u = some (m', as', ok) ∧ Sized m' as' l' ∧
      Frame m l m' l' ∧ as'.aPaglck = as.aPaglck := by
  unfold asUnmap
  rw [if_neg hnew]
  cases l with
  | nil =>
    have hnone : as.aSegs = none := hs.rep.first
    rw [hnone]
    exact ⟨m, as, [], true, rfl, hs, Frame.refl m _, rfl⟩
  | cons first t =>
    have hfirst : as.aSegs = some first := hs.rep.first
    have hlen := hs.rep.length_le
    rw [hfirst]
    rw [length_cons] at hlen
    exact unmapLoop_spec (a := []) hs (Nat.le_of_lt hlt) (.inl hlt) (fun _ => hnew)
      (pageDown_pages _) (pageUp_pages _) (by omega)

theorem pages_of_validUsrRange (hvalid : validUsrRange addr size = true) :
    pageDown addr < pageUp (add32 addr size) := by
  unfold validUsrRange at hvalid
  have hrange := of_decide_eq_true hvalid
  have hup := le_pageUp (a := add32 addr size) (by omega)
  have hdown := pageDown_le addr
  omega

end Range

/-!
## All segments
-/

section Free

variable {m : Segs} {as : As} {l : List Nat}

theorem freeLoop_spec (hr : Rep m as l) (hfuel : l.length < fuel) :
    ∃ m', freeLoop fuel m as = some m' ∧ Frame m l m' [] := by
  induction fuel generalizing m as l with
  | zero => omega
  | succ fuel ih =>
    rw [freeLoop]
    cases l with
    | nil =>
      have hnone : as.aSegs = none := hr.first
      rw [hnone]
      exact ⟨m, rfl, Frame.refl m _⟩
    | cons seg t =>
      have hfirst : as.aSegs = some seg := hr.first
      rw [hfirst]
      obtain ⟨m₁, as₁, hfree, hr₁, _, _, _, _, _, hf₁⟩ := segFree_spec (a := []) hr
      rw [length_cons] at hfuel
      obtain ⟨m₂, hloop, hf₂⟩ := ih hr₁ (by rw [nil_append]; omega)
      refine ⟨m₂, ?_, hf₁.trans hf₂⟩
      simp only [hfree]
      exact hloop

theorem asFree_spec (hr : Rep m as l) : ∃ m', m.asFree as = some m' ∧ Frame m l m' [] :=
  freeLoop_spec hr (Nat.lt_succ_of_le hr.length_le)

end Free

end Segs

end Space
end Svr4
