import Svr4.Lib.Chain
import Svr4.Msgq.Queues
import Svr4.Rmap.Runs

/-!
# Headers and segments

Every header is on the free list, on one queue, or held by a sender, and the segments of
the headers, the map and the segments that were lost make up all segments.  This module
develops what the parts of the calls do to headers and segments, and what they do for the
processes that wait.
-/

namespace Svr4
namespace Msgq

open Function Rmap List

/-!
## The layout
-/

/-- Where a header is. -/
inductive Place where
  | free
  | queue (q : Nat)
  | held (p : Nat)
deriving DecidableEq

/-- The lists, the places and segments of the headers, what was lost, and the map. -/
structure Ghost where
  onq : Nat → List Nat
  free : List Nat
  own : Nat → Place
  segs : Nat → Set Nat
  lost : Set Nat
  entries : List Slot

def Ghost.taken (g : Ghost) : Set Nat := {u | ∃ h, u ∈ g.segs h}

def Config.segments (c : Config) : Set Nat := Set.Ico 1 (1 + c.msgseg)

structure Laid (c : Config) (k : Kernel) (g : Ghost) : Prop where
  queue : ∀ q, Chain k.msgNext (k.msgque q).msgFirst (g.onq q) none
  last : ∀ q, (k.msgque q).msgLast = (g.onq q).getLast?
  qnum : ∀ q, (k.msgque q).msgQnum = (g.onq q).length
  free : Chain k.msgNext k.msgfp g.free none
  freeOwn : ∀ h, h ∈ g.free ↔ h < c.msgtql ∧ g.own h = .free
  queueOwn : ∀ q h, h ∈ g.onq q ↔ g.own h = .queue q
  outside : ∀ h, g.own h ≠ .free → h < c.msgtql
  map : System.Sound (c.msgmap - 2) ⟨k.msgmap, c.segments, g.taken, g.lost⟩ g.entries
  apart : ∀ h h', h ≠ h' → Disjoint (g.segs h) (g.segs h')
  segsFree : ∀ h, g.own h = .free → g.segs h = ∅
  segsQueue : ∀ q h, g.own h = .queue q →
    g.segs h = System.unitsOf (btoq c (k.msgTs h)) (k.msgSpot h + 1).toNat ∧
      (k.msgTs h ≠ 0 → 0 ≤ k.msgSpot h)

/-- Those that wait are woken, or what they wait for has not come nearer. -/
structure Progress (k : Kernel) (g : Ghost) (k' : Kernel) (g' : Ghost) (woken : List Chan) :
    Prop where
  header : k.msgfp = none → k'.msgfp = none ∨ .header ∈ woken
  map : k.msgmap.mapwant ≠ 0 → .map ∈ woken ∨
    (k'.msgmap.mapwant ≠ 0 ∧ units g'.entries ⊆ units g.entries)
  queue : ∀ q, (k.msgque q).msgWwait = true → .queue q ∈ woken ∨
    ((k'.msgque q).msgWwait = true ∧ (k.msgque q).msgCbytes ≤ (k'.msgque q).msgCbytes ∧
      (k'.msgque q).msgQbytes ≤ (k.msgque q).msgQbytes)
  qnum : ∀ q, (k.msgque q).msgRwait = true → .qnum q ∈ woken ∨
    ((k'.msgque q).msgRwait = true ∧ ∀ h ∈ g'.onq q, h ∈ g.onq q ∧ k'.msgType h = k.msgType h)

/-- The queues that a part of a call leaves alone keep their fields. -/
structure Others (q : Nat) (k k' : Kernel) : Prop where
  same : ∀ q', q' ≠ q → k'.msgque q' = k.msgque q'

section Basics

variable {c : Config} {k k' k'' : Kernel} {g g' g'' : Ghost} {ws ws' : List Chan} {q h : Nat}

theorem Progress.refl (k : Kernel) (g : Ghost) : Progress k g k g [] :=
  ⟨fun h => .inl h, fun h => .inr ⟨h, Set.Subset.rfl⟩,
    fun _ h => .inr ⟨h, Nat.le_refl _, Nat.le_refl _⟩,
    fun _ h => .inr ⟨h, fun _ hh => ⟨hh, rfl⟩⟩⟩

theorem Progress.trans (h : Progress k g k' g' ws) (h' : Progress k' g' k'' g'' ws') :
    Progress k g k'' g'' (ws ++ ws') := by
  refine ⟨fun hk => ?_, fun hk => ?_, fun q hk => ?_, fun q hk => ?_⟩
  · rcases h.header hk with hn | hw
    · rcases h'.header hn with hn' | hw
      · exact .inl hn'
      · exact .inr (mem_append_right _ hw)
    · exact .inr (mem_append_left _ hw)
  · rcases h.map hk with hw | ⟨hn, hsub⟩
    · exact .inl (mem_append_left _ hw)
    · rcases h'.map hn with hw | ⟨hn', hsub'⟩
      · exact .inl (mem_append_right _ hw)
      · exact .inr ⟨hn', hsub'.trans hsub⟩
  · rcases h.queue q hk with hw | ⟨hn, hc, hb⟩
    · exact .inl (mem_append_left _ hw)
    · rcases h'.queue q hn with hw | ⟨hn', hc', hb'⟩
      · exact .inl (mem_append_right _ hw)
      · exact .inr ⟨hn', hc.trans hc', hb'.trans hb⟩
  · rcases h.qnum q hk with hw | ⟨hn, hin⟩
    · exact .inl (mem_append_left _ hw)
    · rcases h'.qnum q hn with hw | ⟨hn', hin'⟩
      · exact .inl (mem_append_right _ hw)
      · refine .inr ⟨hn', fun x hx => ?_⟩
        obtain ⟨hx', htype'⟩ := hin' x hx
        obtain ⟨hx'', htype⟩ := hin x hx'
        exact ⟨hx'', htype'.trans htype⟩

theorem Progress.more (h : Progress k g k' g' ws) (hsub : ∀ ch ∈ ws, ch ∈ ws') :
    Progress k g k' g' ws' :=
  ⟨fun hk => (h.header hk).imp id (hsub _), fun hk => (h.map hk).imp (hsub _) id,
    fun q hk => (h.queue q hk).imp (hsub _) id, fun q hk => (h.qnum q hk).imp (hsub _) id⟩

def Kernel.textOf (c : Config) (k : Kernel) (h : Nat) : List Nat :=
  k.text (c.msgssz * (k.msgSpot h).toNat) (k.msgTs h)

theorem amend_self (f : Queue → Queue) : (k.amend q f).msgque q = f (k.msgque q) :=
  update_self _ _ _

theorem amend_of_ne {q' : Nat} (hne : q' ≠ q) (f : Queue → Queue) :
    (k.amend q f).msgque q' = k.msgque q' :=
  update_of_ne hne _ _

theorem Others.trans (h : Others q k k') (h' : Others q k' k'') : Others q k k'' :=
  ⟨fun q' hne => (h'.same q' hne).trans (h.same q' hne)⟩

theorem Laid.onq_nodup (hl : Laid c k g) (q : Nat) : (g.onq q).Nodup := (hl.queue q).nodup

theorem Laid.free_nodup (hl : Laid c k g) : g.free.Nodup := hl.free.nodup

theorem Laid.amend (hl : Laid c k g) {f : Queue → Queue}
    (hfirst : (f (k.msgque q)).msgFirst = (k.msgque q).msgFirst)
    (hlast : (f (k.msgque q)).msgLast = (k.msgque q).msgLast)
    (hqnum : (f (k.msgque q)).msgQnum = (k.msgque q).msgQnum) : Laid c (k.amend q f) g := by
  have hcases : ∀ q', ((k.amend q f).msgque q').msgFirst = (k.msgque q').msgFirst ∧
      ((k.amend q f).msgque q').msgLast = (k.msgque q').msgLast ∧
      ((k.amend q f).msgque q').msgQnum = (k.msgque q').msgQnum := by
    intro q'
    by_cases hq : q' = q
    · rw [hq, amend_self]
      exact ⟨hfirst, hlast, hqnum⟩
    · rw [amend_of_ne hq]
      exact ⟨rfl, rfl, rfl⟩
  exact
    { hl with
      queue := fun q' => by
        rw [(hcases q').1]
        exact hl.queue q'
      last := fun q' => by
        rw [(hcases q').2.1]
        exact hl.last q'
      qnum := fun q' => by
        rw [(hcases q').2.2]
        exact hl.qnum q' }

theorem Laid.free_cons (hl : Laid c k g) {mp : Nat} (hmp : k.msgfp = some mp) :
    ∃ rest, g.free = mp :: rest := by
  have hchain := hl.free
  rw [hmp] at hchain
  cases hfree : g.free with
  | nil =>
    rw [hfree] at hchain
    cases hchain
  | cons h rest =>
    rw [hfree] at hchain
    rw [Option.some.inj hchain.1]
    exact ⟨rest, rfl⟩

end Basics

/-!
## Headers
-/

section Headers

variable {c : Config} {k : Kernel} {g : Ghost} {q mp p : Nat}

theorem Laid.takeHeader (hl : Laid c k g) (hmp : k.msgfp = some mp) (p : Nat) :
    ∃ rest, g.free = mp :: rest ∧ g.own mp = .free ∧ mp < c.msgtql ∧
      Laid c { k with msgfp := k.msgNext mp }
        { g with free := rest, own := update g.own mp (.held p) } := by
  obtain ⟨rest, hrest⟩ := hl.free_cons hmp
  have hin : mp ∈ g.free := by
    rw [hrest]
    exact mem_cons_self
  obtain ⟨hlt, hown⟩ := (hl.freeOwn mp).mp hin
  have hnodup := hl.free_nodup
  rw [hrest] at hnodup
  have hnot := (nodup_cons.mp hnodup).1
  have hother : ∀ h, h ≠ mp → update g.own mp (.held p) h = g.own h :=
    fun h hne => update_of_ne hne _ _
  have hself : update g.own mp (.held p) mp = .held p := update_self _ _ _
  have hsub : ∀ h pl, update g.own mp (.held p) h = pl → pl ≠ .held p → g.own h = pl := by
    intro h pl heq hne
    by_cases hm : h = mp
    · rw [hm, hself] at heq
      exact absurd heq.symm hne
    · rw [← hother h hm]
      exact heq
  refine ⟨rest, hrest, hown, hlt, ?_⟩
  refine
    { hl with
      free := ?_
      freeOwn := fun h => ?_
      queueOwn := fun q' h => ?_
      outside := fun h hne => ?_
      segsFree := fun h hf => hl.segsFree h (hsub h _ hf nofun)
      segsQueue := fun q' h hq => hl.segsQueue q' h (hsub h _ hq nofun) }
  · have hchain := hl.free
    rw [hrest] at hchain
    exact hchain.2
  · change h ∈ rest ↔ h < c.msgtql ∧ update g.own mp (.held p) h = .free
    by_cases hm : h = mp
    · rw [hm, hself]
      exact iff_of_false hnot nofun
    · rw [hother h hm, ← hl.freeOwn h, hrest, mem_cons]
      exact ⟨.inr, fun hmem => hmem.resolve_left hm⟩
  · change h ∈ g.onq q' ↔ update g.own mp (.held p) h = .queue q'
    by_cases hm : h = mp
    · rw [hm, hself, hl.queueOwn, hown]
      exact iff_of_false nofun nofun
    · rw [hother h hm]
      exact hl.queueOwn q' h
  · by_cases hm : h = mp
    · rw [hm]
      exact hlt
    · exact hl.outside h (by rw [← hother h hm]; exact hne)

theorem Laid.putHeader (hl : Laid c k g) (hown : g.own mp = .held p) (hsegs : g.segs mp = ∅) :
    Laid c (k.putHeader mp).1 { g with free := mp :: g.free, own := update g.own mp .free } := by
  have hother : ∀ h, h ≠ mp → update g.own mp Place.free h = g.own h :=
    fun h hne => update_of_ne hne _ _
  have hself : update g.own mp Place.free mp = .free := update_self _ _ _
  have hfree : mp ∉ g.free := by
    rw [hl.freeOwn, hown]
    nofun
  have honq : ∀ q', mp ∉ g.onq q' := by
    intro q'
    rw [hl.queueOwn, hown]
    nofun
  refine
    { hl with
      queue := fun q' => (hl.queue q').update_of_notMem (honq q')
      free := hl.free.push hfree
      freeOwn := fun h => ?_
      queueOwn := fun q' h => ?_
      outside := fun h hne => ?_
      segsFree := fun h hf => ?_
      segsQueue := fun q' h hq => ?_ }
  · change h ∈ mp :: g.free ↔ h < c.msgtql ∧ update g.own mp Place.free h = .free
    by_cases hm : h = mp
    · rw [hm, hself]
      exact iff_of_true mem_cons_self ⟨hl.outside mp (by rw [hown]; nofun), rfl⟩
    · rw [hother h hm, ← hl.freeOwn h, mem_cons]
      exact ⟨fun hmem => hmem.resolve_left hm, .inr⟩
  · change h ∈ g.onq q' ↔ update g.own mp Place.free h = .queue q'
    by_cases hm : h = mp
    · rw [hm, hself]
      exact iff_of_false (honq q') nofun
    · rw [hother h hm]
      exact hl.queueOwn q' h
  · by_cases hm : h = mp
    · rw [hm]
      exact hl.outside mp (by rw [hown]; nofun)
    · exact hl.outside h (by rw [← hother h hm]; exact hne)
  · by_cases hm : h = mp
    · rw [hm]
      exact hsegs
    · exact hl.segsFree h (by rw [← hother h hm]; exact hf)
  · change update g.own mp Place.free h = .queue q' at hq
    by_cases hm : h = mp
    · rw [hm, hself] at hq
      cases hq
    · rw [hother h hm] at hq
      exact hl.segsQueue q' h hq

theorem progress_putHeader {m : Nat} (k : Kernel) (g : Ghost) (own : Nat → Place) (free : List Nat) :
    Progress k g (k.putHeader m).1 { g with own, free } (k.putHeader m).2 := by
  refine ⟨fun hk => .inr ?_, fun hk => .inr ⟨hk, Set.Subset.rfl⟩,
    fun q hk => .inr ⟨hk, Nat.le_refl _, Nat.le_refl _⟩,
    fun q hk => .inr ⟨hk, fun h hh => ⟨hh, rfl⟩⟩⟩
  unfold Kernel.putHeader
  rw [if_pos hk]
  exact mem_singleton_self _

end Headers

/-!
## Segments
-/

section Segments

variable {c : Config} {k : Kernel} {g : Ghost} {q mp p size a : Nat}

theorem taken_update {m : Nat} (g : Ghost) (s : Set Nat) :
    Ghost.taken { g with segs := update g.segs m s } = {u | u ∈ s ∨ ∃ h, h ≠ m ∧ u ∈ g.segs h} := by
  ext u
  constructor
  · rintro ⟨h, hu⟩
    by_cases hm : h = m
    · change u ∈ update g.segs m s h at hu
      rw [hm, update_self] at hu
      exact .inl hu
    · change u ∈ update g.segs m s h at hu
      rw [update_of_ne hm] at hu
      exact .inr ⟨h, hm, hu⟩
  · rintro (hu | ⟨h, hm, hu⟩)
    · refine ⟨m, ?_⟩
      change u ∈ update g.segs m s m
      rw [update_self]
      exact hu
    · refine ⟨h, ?_⟩
      change u ∈ update g.segs m s h
      rw [update_of_ne hm]
      exact hu

theorem taken_split (g : Ghost) (mp : Nat) :
    g.taken = g.segs mp ∪ {u | ∃ h, h ≠ mp ∧ u ∈ g.segs h} := by
  ext u
  constructor
  · rintro ⟨h, hu⟩
    by_cases hm : h = mp
    · exact .inl (hm ▸ hu)
    · exact .inr ⟨h, hm, hu⟩
  · rintro (hu | ⟨h, _, hu⟩)
    · exact ⟨mp, hu⟩
    · exact ⟨h, hu⟩

theorem Laid.freeText (hc : c.Valid) (hl : Laid c k g) (hown : g.own mp = .held p)
    (hsegs : g.segs mp = System.unitsOf size a) (hsize : 0 < size) :
    ∃ k' woken E' lost, k.freeText size a = some (k', woken) ∧
      k' = { k with msgmap := k'.msgmap } ∧
      (let g' := { g with segs := update g.segs mp ∅, entries := E', lost := lost }
      Laid c k' g' ∧ Progress k g k' g' woken) := by
  have hn : c.msgmap - 2 < 2 ^ 32 := by
    have hm := hc.msgmap
    omega
  obtain ⟨hput, _, _⟩ := hl.map.subset_put
  have hin : System.unitsOf size a ⊆ g.taken := by
    rw [← hsegs]
    exact fun u hu => ⟨mp, hu⟩
  have hbound : 1 ≤ a ∧ a + size ≤ 1 + c.msgseg := by
    have hlow : a ∈ c.segments := hput (hin ⟨Nat.le_refl a, by omega⟩)
    have hhigh : a + size - 1 ∈ c.segments := hput (hin ⟨by omega, by omega⟩)
    have h1 := hlow.1
    have h2 := hhigh.2
    omega
  have hseg := hc.msgseg
  have hle : a + size ≤ 2 ^ 32 := by omega
  have hdisj : Disjoint (System.unitsOf size a) (units g.entries) :=
    hl.map.held_free.mono_left hin
  -- what remains with the other headers
  have hrest : ∀ (E : List Slot) (lost : Set Nat),
      Ghost.taken { g with segs := update g.segs mp ∅, entries := E, lost := lost } =
        {u | ∃ h, h ≠ mp ∧ u ∈ g.segs h} := by
    intro E lost
    have htaken := taken_update (m := mp) g ∅
    simp only [Set.mem_empty_iff_false, false_or] at htaken
    exact htaken
  have hout : Disjoint (System.unitsOf size a) {u | ∃ h, h ≠ mp ∧ u ∈ g.segs h} := by
    rw [Set.disjoint_left]
    rintro u hu ⟨h, hne, hu'⟩
    rw [← hsegs] at hu
    exact Set.disjoint_left.mp (hl.apart mp h hne.symm) hu hu'
  have hrestin : {u | ∃ h, h ≠ mp ∧ u ∈ g.segs h} ⊆ g.taken := fun u ⟨h, _, hu⟩ => ⟨h, hu⟩
  have hall : g.taken = System.unitsOf size a ∪ {u | ∃ h, h ≠ mp ∧ u ∈ g.segs h} := by
    rw [← hsegs]
    exact taken_split g mp
  -- the parts that do not depend on the map
  have hlaid : ∀ (map : RMap) (E : List Slot) (lost : Set Nat), System.Sound (c.msgmap - 2)
        ⟨map, c.segments, {u | ∃ h, h ≠ mp ∧ u ∈ g.segs h}, lost⟩ E →
      Laid c { k with msgmap := map }
        { g with segs := update g.segs mp ∅, entries := E, lost := lost } := by
    intro map E lost hsound
    have hupd : ∀ h, h ≠ mp → update g.segs mp ∅ h = g.segs h :=
      fun h hne => update_of_ne hne _ _
    refine
      { hl with
        map := ?_
        apart := fun h h' hne => ?_
        segsFree := fun h hf => ?_
        segsQueue := fun q' h hq => ?_ }
    · rw [hrest]
      exact hsound
    · change Disjoint (update g.segs mp ∅ h) (update g.segs mp ∅ h')
      by_cases hm : h = mp
      · rw [hm, update_self]
        exact Set.empty_disjoint _
      · by_cases hm' : h' = mp
        · rw [hm', update_self]
          exact Set.disjoint_empty _
        · rw [hupd h hm, hupd h' hm']
          exact hl.apart h h' hne
    · have hm : h ≠ mp := by
        rintro rfl
        rw [show g.own h = .free from hf] at hown
        cases hown
      change update g.segs mp ∅ h = ∅
      rw [hupd h hm]
      exact hl.segsFree h hf
    · have hm : h ≠ mp := by
        rintro rfl
        rw [show g.own h = .queue q' from hq] at hown
        cases hown
      change update g.segs mp ∅ h = _ ∧ _
      rw [hupd h hm]
      exact hl.segsQueue q' h hq
  have hfrees := rmfree_spec hl.map.ok hn hsize (by omega) hle hdisj
  rcases hfrees with hrun | ⟨map, E', hrun, hok, hunits⟩
  · -- the map overflows
    refine ⟨{ k with msgmap := k.msgmap }, [], g.entries, g.lost ∪ System.unitsOf size a, ?_, rfl,
      hlaid _ _ _ ⟨hl.map.ok, ?_, ?_, ?_, ?_, hl.map.put_pos⟩, ?_⟩
    · unfold Kernel.freeText
      rw [hrun]
      simp
    · have hwhole : g.taken ∪ units g.entries ∪ g.lost = c.segments := hl.map.all
      rw [← hwhole, hall]
      ext u
      simp only [Set.mem_union]
      tauto
    · exact hl.map.held_free.mono_left hrestin
    · exact Set.disjoint_union_right.mpr ⟨hl.map.held_lost.mono_left hrestin, hout.symm⟩
    · exact Set.disjoint_union_right.mpr ⟨hl.map.free_lost, hdisj.symm⟩
    · exact ⟨fun hk => .inl hk, fun hk => .inr ⟨hk, Set.Subset.rfl⟩,
        fun _ hk => .inr ⟨hk, Nat.le_refl _, Nat.le_refl _⟩,
        fun _ hk => .inr ⟨hk, fun _ hh => ⟨hh, rfl⟩⟩⟩
  · refine ⟨{ k with msgmap := map }, if size ≠ 0 ∧ k.msgmap.mapwant ≠ 0 then [.map] else [], E',
      g.lost, ?_, rfl, hlaid _ _ _ ⟨hok, ?_, ?_, hl.map.held_lost.mono_left hrestin, ?_,
        hl.map.put_pos⟩, ?_⟩
    · unfold Kernel.freeText
      rw [hrun]
      simp
    · have hwhole : g.taken ∪ units g.entries ∪ g.lost = c.segments := hl.map.all
      have hico : Set.Ico a (a + size) = System.unitsOf size a := rfl
      rw [← hwhole, hall, hunits, hico]
      ext u
      simp only [Set.mem_union]
      tauto
    · rw [hunits]
      exact Set.disjoint_union_right.mpr ⟨hl.map.held_free.mono_left hrestin, hout.symm⟩
    · rw [hunits]
      exact Set.disjoint_union_left.mpr ⟨hl.map.free_lost, hl.map.held_lost.mono_left hin⟩
    · refine ⟨fun hk => .inl hk, fun hk => .inl ?_,
        fun _ hk => .inr ⟨hk, Nat.le_refl _, Nat.le_refl _⟩,
        fun _ hk => .inr ⟨hk, fun _ hh => ⟨hh, rfl⟩⟩⟩
      rw [if_pos ⟨by omega, hk⟩]
      exact mem_singleton_self _

theorem rmalloc_mapwant {mp mp' : RMap} {spot : Nat}
    (h : Rmap.rmalloc mp size = some (spot, mp')) : mp'.mapwant = mp.mapwant := by
  unfold Rmap.rmalloc at h
  split at h
  · cases h
    rfl
  · obtain ⟨r, _, heq⟩ := Option.map_eq_some_iff.mp h
    cases heq
    rfl

theorem Laid.rmalloc (hc : c.Valid) (hl : Laid c k g) (hown : g.own mp = .held p)
    (hsegs : g.segs mp = ∅) (hsize : 0 < size) :
    ∃ spot map, Rmap.rmalloc k.msgmap size = some (spot, map) ∧
      ((spot = 0 ∧ map = k.msgmap ∧ ∀ a, ¬ System.unitsOf size a ⊆ units g.entries) ∨
      (0 < spot ∧ ∃ E',
        let g' := { g with
          segs := update g.segs mp (System.unitsOf size spot), entries := E' }
        let k' := { k with msgmap := map }
        Laid c k' g' ∧ Progress k g k' g' [])) := by
  have hn : c.msgmap - 2 < 2 ^ 32 := by
    have hm := hc.msgmap
    omega
  rcases exists_first_fit size g.entries with hnone | ⟨front, e, back, hsplit, hfront, he⟩
  · refine ⟨0, k.msgmap, rmalloc_none hl.map.ok hnone, .inl ⟨rfl, rfl, fun a hin => ?_⟩⟩
    obtain ⟨x, hx, hlo, hhi⟩ := hl.map.ok.spread.interval (by omega) hin
    have hlt := hnone x hx
    unfold Slot.stop at hhi
    omega
  · have hok := hl.map.ok
    rw [hsplit] at hok
    obtain ⟨map, E', hrun, hok', hunits⟩ := rmalloc_some hok hn hsize hfront he
    have hin : e ∈ g.entries := by
      rw [hsplit]
      simp
    have hpos := hl.map.ok.addr_pos e hin
    rw [← hsplit] at hunits
    have hunits : units E' = units g.entries \ System.unitsOf size e.mAddr := hunits
    have hsub : System.unitsOf size e.mAddr ⊆ units g.entries := by
      intro u hu
      refine ⟨e, hin, hu.1, ?_⟩
      have hlt := hu.2
      unfold Slot.stop
      omega
    refine ⟨e.mAddr, map, hrun, .inr ⟨hpos, E', ?_, ?_⟩⟩
    · have htaken : Ghost.taken { g with
          segs := update g.segs mp (System.unitsOf size e.mAddr), entries := E' } =
          g.taken ∪ System.unitsOf size e.mAddr := by
        have hupd := taken_update (m := mp) g (System.unitsOf size e.mAddr)
        rw [taken_split g mp, hsegs, Set.empty_union, Set.union_comm]
        exact hupd
      have hupd : ∀ h, h ≠ mp → update g.segs mp (System.unitsOf size e.mAddr) h = g.segs h :=
        fun h hne => update_of_ne hne _ _
      have hout : ∀ h, h ≠ mp → Disjoint (System.unitsOf size e.mAddr) (g.segs h) := by
        intro h _
        rw [Set.disjoint_left]
        intro u hu hu'
        have hfree := hl.map.held_free
        exact Set.disjoint_left.mp hfree ⟨h, hu'⟩ (hsub hu)
      refine
        { hl with
          map := ⟨hok', ?_, ?_, ?_, ?_, hl.map.put_pos⟩
          apart := fun h h' hne => ?_
          segsFree := fun h hf => ?_
          segsQueue := fun q' h hq => ?_ }
      · have hwhole : g.taken ∪ units g.entries ∪ g.lost = c.segments := hl.map.all
        rw [htaken, hunits, ← hwhole, Set.union_assoc g.taken, Set.union_sdiff_cancel hsub]
      · rw [htaken, hunits]
        exact Set.disjoint_union_left.mpr
          ⟨hl.map.held_free.mono_right Set.sdiff_subset, Set.disjoint_sdiff_right⟩
      · rw [htaken]
        exact Set.disjoint_union_left.mpr ⟨hl.map.held_lost, hl.map.free_lost.mono_left hsub⟩
      · rw [hunits]
        exact hl.map.free_lost.mono_left Set.sdiff_subset
      · change Disjoint (update g.segs mp _ h) (update g.segs mp _ h')
        by_cases hm : h = mp
        · have hm' : h' ≠ mp := fun heq => hne (hm.trans heq.symm)
          rw [hm, update_self, hupd h' hm']
          exact hout h' hm'
        · by_cases hm' : h' = mp
          · rw [hm', update_self, hupd h hm]
            exact (hout h hm).symm
          · rw [hupd h hm, hupd h' hm']
            exact hl.apart h h' hne
      · have hm : h ≠ mp := by
          rintro rfl
          rw [show g.own h = .free from hf] at hown
          cases hown
        change update g.segs mp _ h = ∅
        rw [hupd h hm]
        exact hl.segsFree h hf
      · have hm : h ≠ mp := by
          rintro rfl
          rw [show g.own h = .queue q' from hq] at hown
          cases hown
        change update g.segs mp _ h = _ ∧ _
        rw [hupd h hm]
        exact hl.segsQueue q' h hq
    · refine ⟨fun hk => .inl hk, fun hk => .inr ⟨?_, ?_⟩,
        fun _ hk => .inr ⟨hk, Nat.le_refl _, Nat.le_refl _⟩,
        fun _ hk => .inr ⟨hk, fun _ hh => ⟨hh, rfl⟩⟩⟩
      · rw [rmalloc_mapwant hrun]
        exact hk
      · rw [hunits]
        exact Set.sdiff_subset

end Segments

/-!
## Putting a message on a queue
-/

section Enqueue

variable {c : Config} {k : Kernel} {g : Ghost} {q mp p cnt : Nat} {type spot : Int}
  {text : List Nat}

theorem short_eq {x : Int} (h : -1 ≤ x) (h' : x < 2 ^ 15) : short x = x := by
  exact Int.bmod_eq_of_le (by omega) (by omega)

theorem enqueue_queue (k : Kernel) (q : Nat) (type : Int) (cnt mp : Nat) (spot : Int)
    (text : List Nat) : (enqueue k q type cnt mp spot text).k.msgque q =
      { k.msgque q with
        msgQnum := (k.msgque q).msgQnum + 1
        msgCbytes := (k.msgque q).msgCbytes + cnt
        msgFirst := if (k.msgque q).msgLast = none then some mp else (k.msgque q).msgFirst
        msgLast := some mp
        msgRwait := false
        msglock := false } := by
  cases hlast : (k.msgque q).msgLast <;>
    simp [enqueue, Kernel.unlock, Kernel.amend, Kernel.setNext, hlast]

theorem enqueue_next (k : Kernel) (q : Nat) (type : Int) (cnt mp : Nat) (spot : Int)
    (text : List Nat) : (enqueue k q type cnt mp spot text).k.msgNext =
      match (k.msgque q).msgLast with
      | none => update k.msgNext mp none
      | some last => update (update k.msgNext mp none) last (some mp) := by
  cases hlast : (k.msgque q).msgLast <;>
    simp [enqueue, Kernel.unlock, Kernel.amend, Kernel.setNext, hlast]

theorem enqueue_fields (k : Kernel) (q : Nat) (type : Int) (cnt mp : Nat) (spot : Int)
    (text : List Nat) :
    let o := enqueue k q type cnt mp spot text
    o.k.msgType = update k.msgType mp type ∧ o.k.msgTs = update k.msgTs mp (ushort cnt) ∧
      o.k.msgSpot = update k.msgSpot mp (short spot) ∧
      o.k.msgfp = k.msgfp ∧ o.k.msgmap = k.msgmap ∧ o.k.msg = k.msg ∧
      o.woken = (if (k.msgque q).msgRwait then [.qnum q] else []) ∧
      (∀ q', q' ≠ q → o.k.msgque q' = k.msgque q') := by
  cases hlast : (k.msgque q).msgLast <;>
    simp +contextual [enqueue, Kernel.unlock, Kernel.amend, Kernel.setNext, hlast]

theorem Laid.enqueue (hl : Laid c k g) (hown : g.own mp = .held p) (hcnt : cnt < 2 ^ 16)
    (hlow : -1 ≤ spot) (hhigh : spot < 2 ^ 15) (hspot : cnt ≠ 0 → 0 ≤ spot)
    (hsegs : g.segs mp = System.unitsOf (btoq c cnt) (spot + 1).toNat) :
    let o := Msgq.enqueue k q type cnt mp spot text
    let g' := { g with
      onq := update g.onq q (g.onq q ++ [mp])
      own := update g.own mp (.queue q) }
    Laid c o.k g' ∧ Progress k g o.k g' o.woken := by
  obtain ⟨htype, hts, hspots, hfp, hmap, hmsg, hwoken, hothers⟩ :=
    enqueue_fields k q type cnt mp spot text
  have hqueue := enqueue_queue k q type cnt mp spot text
  have hnext := enqueue_next k q type cnt mp spot text
  generalize Msgq.enqueue k q type cnt mp spot text = o at *
  have honq : ∀ q', mp ∉ g.onq q' := by
    intro q'
    rw [hl.queueOwn, hown]
    nofun
  have hfree : mp ∉ g.free := by
    rw [hl.freeOwn, hown]
    nofun
  have hself : update g.own mp (.queue q) mp = .queue q := update_self _ _ _
  have hother : ∀ h, h ≠ mp → update g.own mp (.queue q) h = g.own h :=
    fun h hne => update_of_ne hne _ _
  have honself : update g.onq q (g.onq q ++ [mp]) q = g.onq q ++ [mp] :=
    update_self _ _ _
  have honother : ∀ q', q' ≠ q → update g.onq q (g.onq q ++ [mp]) q' = g.onq q' :=
    fun q' hne => update_of_ne hne _ _
  have hlastq := hl.last q
  -- the pointers outside the queue stay
  have hkeep : ∀ {h : Option Nat} {l : List Nat}, Chain k.msgNext h l none → mp ∉ l →
      (∀ x ∈ l, x ∉ g.onq q) → Chain o.k.msgNext h l none := by
    intro h l hchain hm hout
    rw [hnext]
    cases hlast : (k.msgque q).msgLast with
    | none => exact hchain.update_of_notMem hm
    | some last =>
      refine (hchain.update_of_notMem hm).update_of_notMem fun hmem => hout last hmem ?_
      rw [hlast] at hlastq
      exact mem_of_getLast? hlastq.symm
  constructor
  · refine
      { hl with
        queue := fun q' => ?_
        last := fun q' => ?_
        qnum := fun q' => ?_
        free := ?_
        freeOwn := fun h => ?_
        queueOwn := fun q' h => ?_
        outside := fun h hne => ?_
        map := ?_
        segsFree := fun h hf => ?_
        segsQueue := fun q' h hq => ?_ }
    · by_cases hq : q' = q
      · subst hq
        change Chain _ _ (update g.onq q' (g.onq q' ++ [mp]) q') none
        rw [honself, hqueue, hnext]
        have hchain := hl.queue q'
        cases hlast : (k.msgque q').msgLast with
        | none =>
          rw [hlast] at hlastq
          rw [getLast?_eq_none_iff.mp hlastq.symm]
          exact ⟨rfl, update_self _ _ _⟩
        | some last =>
          rw [hlast] at hlastq
          exact hchain.snoc (honq q') hlastq.symm
      · change Chain _ _ (update g.onq q (g.onq q ++ [mp]) q') none
        rw [honother q' hq, hothers q' hq]
        refine hkeep (hl.queue q') (honq q') fun x hx hx' => hq ?_
        rw [hl.queueOwn] at hx hx'
        rw [hx] at hx'
        injection hx'
    · by_cases hq : q' = q
      · subst hq
        change _ = (update g.onq q' (g.onq q' ++ [mp]) q').getLast?
        rw [honself, hqueue]
        simp
      · change _ = (update g.onq q (g.onq q ++ [mp]) q').getLast?
        rw [honother q' hq, hothers q' hq]
        exact hl.last q'
    · by_cases hq : q' = q
      · subst hq
        change _ = (update g.onq q' (g.onq q' ++ [mp]) q').length
        rw [honself, hqueue, length_append]
        rw [hl.qnum q']
        rfl
      · change _ = (update g.onq q (g.onq q ++ [mp]) q').length
        rw [honother q' hq, hothers q' hq]
        exact hl.qnum q'
    · rw [hfp]
      refine hkeep hl.free hfree fun x hx hx' => ?_
      rw [hl.queueOwn] at hx'
      rw [hl.freeOwn, hx'] at hx
      cases hx.2
    · change h ∈ g.free ↔ h < c.msgtql ∧ update g.own mp (.queue q) h = .free
      by_cases hm : h = mp
      · rw [hm, hself]
        exact iff_of_false hfree nofun
      · rw [hother h hm]
        exact hl.freeOwn h
    · change h ∈ update g.onq q (g.onq q ++ [mp]) q' ↔ update g.own mp (.queue q) h = .queue q'
      by_cases hm : h = mp
      · rw [hm, hself]
        by_cases hq : q' = q
        · rw [hq, honself]
          exact iff_of_true (by simp) rfl
        · rw [honother q' hq]
          refine iff_of_false (honq q') fun heq => hq ?_
          injection heq with heq
          exact heq.symm
      · rw [hother h hm, ← hl.queueOwn]
        by_cases hq : q' = q
        · rw [hq, honself, mem_append, mem_singleton]
          exact ⟨fun hmem => hmem.resolve_right hm, .inl⟩
        · rw [honother q' hq]
    · by_cases hm : h = mp
      · rw [hm]
        exact hl.outside mp (by rw [hown]; nofun)
      · exact hl.outside h (by rw [← hother h hm]; exact hne)
    · rw [hmap]
      exact hl.map
    · change update g.own mp (.queue q) h = .free at hf
      by_cases hm : h = mp
      · rw [hm, hself] at hf
        cases hf
      · rw [hother h hm] at hf
        exact hl.segsFree h hf
    · change update g.own mp (.queue q) h = .queue q' at hq
      rw [hts, hspots]
      by_cases hm : h = mp
      · rw [hm, update_self, update_self, short_eq hlow hhigh]
        have hsmall : ushort cnt = cnt := Nat.mod_eq_of_lt hcnt
        rw [hsmall]
        exact ⟨hsegs, hspot⟩
      · rw [hother h hm] at hq
        rw [update_of_ne hm, update_of_ne hm]
        exact hl.segsQueue q' h hq
  · refine ⟨fun hk => .inl (hfp.trans hk), fun hk => .inr ⟨?_, Set.Subset.rfl⟩,
      fun q' hk => .inr ?_, fun q' hk => ?_⟩
    · rw [hmap]
      exact hk
    · by_cases hq : q' = q
      · subst hq
        rw [hqueue]
        exact ⟨hk, Nat.le_add_right _ _, Nat.le_refl _⟩
      · rw [hothers q' hq]
        exact ⟨hk, Nat.le_refl _, Nat.le_refl _⟩
    · by_cases hq : q' = q
      · subst hq
        left
        rw [hwoken, if_pos hk]
        exact mem_singleton_self _
      · right
        rw [hothers q' hq]
        refine ⟨hk, fun h hh => ?_⟩
        change h ∈ update g.onq q (g.onq q ++ [mp]) q' at hh
        rw [honother q' hq] at hh
        refine ⟨hh, ?_⟩
        rw [htype]
        refine update_of_ne ?_ _ _
        rintro rfl
        exact honq q' hh

end Enqueue

/-!
## Freeing a message
-/

section Free

variable {c : Config} {k : Kernel} {g : Ghost} {q mp p : Nat} {pmp : Option Nat}
  {pre post : List Nat}

theorem unlinkMsg_fields (hne : ∀ j, pmp = some j → j ≠ mp) :
    (k.unlinkMsg q pmp mp).msgque q =
      { k.msgque q with
        msgFirst := if pmp = none then k.msgNext mp else (k.msgque q).msgFirst
        msgLast := if k.msgNext mp = none then pmp else (k.msgque q).msgLast
        msgQnum := (k.msgque q).msgQnum - 1 } ∧ (k.unlinkMsg q pmp mp).msgNext =
      pmp.elim k.msgNext (fun j => update k.msgNext j (k.msgNext mp)) ∧
    (∀ q', q' ≠ q → (k.unlinkMsg q pmp mp).msgque q' = k.msgque q') := by
  cases pmp with
  | none =>
    by_cases hnext : k.msgNext mp = none <;>
      simp +contextual [Kernel.unlinkMsg, Kernel.amend, hnext]
  | some j =>
    have hj : mp ≠ j := (hne j rfl).symm
    by_cases hnext : k.msgNext mp = none <;>
      simp +contextual [Kernel.unlinkMsg, Kernel.amend, Kernel.setNext, update_of_ne hj, hnext]

theorem unlinkMsg_rest (k : Kernel) (q : Nat) (pmp : Option Nat) (mp : Nat) :
    let k' := k.unlinkMsg q pmp mp
    k'.msgType = k.msgType ∧ k'.msgTs = k.msgTs ∧ k'.msgSpot = k.msgSpot ∧
      k'.msgfp = k.msgfp ∧ k'.msgmap = k.msgmap ∧ k'.msg = k.msg := by
  unfold Kernel.unlinkMsg
  cases pmp with
  | none =>
    by_cases hnext : k.msgNext mp = none <;> simp [Kernel.amend, hnext]
  | some j =>
    by_cases hnext : update k.msgNext j (k.msgNext mp) mp = none <;>
      simp [Kernel.amend, Kernel.setNext, hnext]

theorem Laid.unlink (hl : Laid c k g) (hsplit : g.onq q = pre ++ mp :: post)
    (hpmp : pmp = pre.getLast?) (p : Nat) :
    let k' := k.unlinkMsg q pmp mp
    let g' := { g with
      onq := update g.onq q (pre ++ post)
      own := update g.own mp (.held p) }
    Laid c k' g' ∧ Progress k g k' g' [] := by
  have hnodup := hl.onq_nodup q
  rw [hsplit] at hnodup
  have hmid := hnodup
  rw [perm_middle.nodup_iff] at hmid
  have hnot := (nodup_cons.mp hmid).1
  have hne : ∀ j, pmp = some j → j ≠ mp := by
    rintro j hj rfl
    rw [hpmp] at hj
    exact hnot (mem_append_left _ (mem_of_getLast? hj))
  obtain ⟨hqueue, hnext, hothers⟩ := unlinkMsg_fields (k := k) (q := q) hne
  obtain ⟨htype, hts, hspot, hfp, hmap, hmsg⟩ := unlinkMsg_rest k q pmp mp
  generalize k.unlinkMsg q pmp mp = k' at *
  have hown : g.own mp = .queue q := by
    rw [← hl.queueOwn, hsplit]
    simp
  have hself : update g.own mp (.held p) mp = .held p := update_self _ _ _
  have hother : ∀ h, h ≠ mp → update g.own mp (.held p) h = g.own h :=
    fun h hne => update_of_ne hne _ _
  have honself : update g.onq q (pre ++ post) q = pre ++ post := update_self _ _ _
  have honother : ∀ q', q' ≠ q → update g.onq q (pre ++ post) q' = g.onq q' :=
    fun q' hne => update_of_ne hne _ _
  have hchain := hl.queue q
  rw [hsplit] at hchain
  have hmpnext : k.msgNext mp = post.head? := by
    obtain ⟨_, _, _, hback⟩ := Chain.append_iff.mp hchain
    cases hpost : post with
    | nil =>
      rw [hpost] at hback
      exact hback
    | cons x post' =>
      rw [hpost] at hback
      exact hback.1
  have hkeep : ∀ {h : Option Nat} {l : List Nat}, Chain k.msgNext h l none →
      (∀ x ∈ l, x ∉ g.onq q) → Chain k'.msgNext h l none := by
    intro h l hch hout
    rw [hnext]
    cases hj : pmp with
    | none => exact hch
    | some j =>
      refine hch.update_of_notMem fun hmem => hout j hmem ?_
      rw [hpmp] at hj
      rw [hsplit]
      exact mem_append_left _ (mem_of_getLast? hj)
  constructor
  · refine
      { hl with
        queue := fun q' => ?_
        last := fun q' => ?_
        qnum := fun q' => ?_
        free := ?_
        freeOwn := fun h => ?_
        queueOwn := fun q' h => ?_
        outside := fun h hne => ?_
        map := ?_
        segsFree := fun h hf => ?_
        segsQueue := fun q' h hq => ?_ }
    · by_cases hq : q' = q
      · subst hq
        change Chain _ _ (update g.onq q' (pre ++ post) q') none
        rw [honself, hqueue, hnext]
        rcases eq_nil_or_concat pre with hnil | ⟨front, j, hpre⟩
        · rw [hnil] at hpmp hchain ⊢
          rw [hpmp]
          exact hchain.2
        · rw [concat_eq_append] at hpre
          rw [hpre] at hpmp hchain ⊢
          have hj : pmp = some j := by
            rw [hpmp]
            simp
          rw [hj]
          exact hchain.bypass
      · change Chain _ _ (update g.onq q (pre ++ post) q') none
        rw [honother q' hq, hothers q' hq]
        refine hkeep (hl.queue q') fun x hx hx' => hq ?_
        rw [hl.queueOwn] at hx hx'
        rw [hx] at hx'
        injection hx'
    · by_cases hq : q' = q
      · subst hq
        change _ = (update g.onq q' (pre ++ post) q').getLast?
        rw [honself, hqueue]
        simp only
        rw [hmpnext]
        cases hpost : post with
        | nil => rw [append_nil, head?_nil, if_pos rfl, hpmp]
        | cons x post' =>
          rw [if_neg (by simp), hl.last q', hsplit, hpost]
          simp [getLast?_append]
      · change _ = (update g.onq q (pre ++ post) q').getLast?
        rw [honother q' hq, hothers q' hq]
        exact hl.last q'
    · by_cases hq : q' = q
      · subst hq
        change _ = (update g.onq q' (pre ++ post) q').length
        rw [honself, hqueue]
        change (k.msgque q').msgQnum - 1 = _
        rw [hl.qnum q', hsplit, length_append, length_cons, length_append]
        omega
      · change _ = (update g.onq q (pre ++ post) q').length
        rw [honother q' hq, hothers q' hq]
        exact hl.qnum q'
    · rw [hfp]
      refine hkeep hl.free fun x hx hx' => ?_
      rw [hl.queueOwn] at hx'
      rw [hl.freeOwn, hx'] at hx
      cases hx.2
    · change h ∈ g.free ↔ h < c.msgtql ∧ update g.own mp (.held p) h = .free
      by_cases hm : h = mp
      · rw [hm, hself, hl.freeOwn, hown]
        exact iff_of_false (fun hf => nomatch hf.2) (fun hf => nomatch hf.2)
      · rw [hother h hm]
        exact hl.freeOwn h
    · change h ∈ update g.onq q (pre ++ post) q' ↔ update g.own mp (.held p) h = .queue q'
      by_cases hm : h = mp
      · rw [hm, hself]
        refine iff_of_false ?_ nofun
        by_cases hq : q' = q
        · rw [hq, honself]
          exact hnot
        · rw [honother q' hq, hl.queueOwn, hown]
          intro heq
          injection heq with heq
          exact hq heq.symm
      · rw [hother h hm, ← hl.queueOwn]
        by_cases hq : q' = q
        · rw [hq, honself, hsplit]
          simp only [mem_append, mem_cons]
          tauto
        · rw [honother q' hq]
    · by_cases hm : h = mp
      · rw [hm]
        exact hl.outside mp (by rw [hown]; nofun)
      · exact hl.outside h (by rw [← hother h hm]; exact hne)
    · rw [hmap]
      exact hl.map
    · change update g.own mp (.held p) h = .free at hf
      by_cases hm : h = mp
      · rw [hm, hself] at hf
        cases hf
      · rw [hother h hm] at hf
        exact hl.segsFree h hf
    · change update g.own mp (.held p) h = .queue q' at hq
      rw [hts, hspot]
      by_cases hm : h = mp
      · rw [hm, hself] at hq
        cases hq
      · rw [hother h hm] at hq
        exact hl.segsQueue q' h hq
  · refine ⟨fun hk => .inl (hfp.trans hk), fun hk => .inr ⟨?_, Set.Subset.rfl⟩,
      fun q' hk => .inr ?_, fun q' hk => .inr ?_⟩
    · rw [hmap]
      exact hk
    · by_cases hq : q' = q
      · subst hq
        rw [hqueue]
        exact ⟨hk, Nat.le_refl _, Nat.le_refl _⟩
      · rw [hothers q' hq]
        exact ⟨hk, Nat.le_refl _, Nat.le_refl _⟩
    · by_cases hq : q' = q
      · subst hq
        rw [hqueue]
        refine ⟨hk, fun h hh => ?_⟩
        change h ∈ update g.onq q' (pre ++ post) q' at hh
        rw [honself] at hh
        rw [hsplit, htype]
        exact ⟨((sublist_cons_self mp post).append_left pre).subset hh, rfl⟩
      · rw [hothers q' hq]
        refine ⟨hk, fun h hh => ?_⟩
        change h ∈ update g.onq q (pre ++ post) q' at hh
        rw [honother q' hq] at hh
        rw [htype]
        exact ⟨hh, rfl⟩

structure Kept (q : Nat) (k k' : Kernel) : Prop where
  alloc : (k'.msgque q).ipcAlloc = (k.msgque q).ipcAlloc
  seq : (k'.msgque q).seq = (k.msgque q).seq
  rwait : (k'.msgque q).msgRwait = (k.msgque q).msgRwait
  cbytes : (k'.msgque q).msgCbytes = (k.msgque q).msgCbytes
  qbytes : (k'.msgque q).msgQbytes = (k.msgque q).msgQbytes
  lock : (k'.msgque q).msglock = (k.msgque q).msglock

theorem Laid.msgfree {a : List Nat} {m : Option Nat} (hc : c.Valid) (hl : Laid c k g) (hsplit : g.onq q = a ++ mp :: post)
    (hpmp : m = a.getLast?) :
    ∃ k' woken E' lost, k.msgfree c q m mp = some (k', woken) ∧
      (let g' := { g with
        onq := update g.onq q (a ++ post)
        free := mp :: g.free
        own := update g.own mp .free
        segs := update g.segs mp ∅
        entries := E'
        lost := lost }
      Laid c k' g' ∧ Progress k g k' g' woken) ∧
      k'.msgType = k.msgType ∧ k'.msgTs = k.msgTs ∧ k'.msgSpot = k.msgSpot ∧ k'.msg = k.msg ∧
      Others q k k' ∧ Kept q k k' ∧ (k'.msgque q).msgWwait = false := by
  obtain ⟨hl₁, hpr₁⟩ := hl.unlink hsplit hpmp 0
  obtain ⟨htype, hts, hspot, hfp, hmap, hmsg⟩ := unlinkMsg_rest k q m mp
  have hnot : mp ∉ a ++ post := by
    have hnodup := hl.onq_nodup q
    rw [hsplit, perm_middle.nodup_iff] at hnodup
    exact (nodup_cons.mp hnodup).1
  have hne : ∀ j, m = some j → j ≠ mp := by
    rintro j hj rfl
    rw [hpmp] at hj
    exact hnot (mem_append_left _ (mem_of_getLast? hj))
  obtain ⟨hqueue, _, hothers⟩ := unlinkMsg_fields (k := k) (q := q) hne
  have hown : g.own mp = .queue q := by
    rw [← hl.queueOwn, hsplit]
    simp
  unfold Kernel.msgfree
  simp only
  generalize k.unlinkMsg q m mp = k₁ at *
  -- the senders that wait for space
  obtain ⟨k₂, hk₂⟩ : ∃ k₂, k₂ = k₁.amend q fun qp => { qp with msgWwait := false } := ⟨_, rfl⟩
  obtain ⟨wakes, hwakes⟩ :
    ∃ wakes : List Chan, wakes = if (k₁.msgque q).msgWwait then [.queue q] else [] := ⟨_, rfl⟩
  rw [← hwakes, ← hk₂]
  have hself₂ : k₂.msgque q = { k₁.msgque q with msgWwait := false } := by
    rw [hk₂]
    exact amend_self _
  have hother₂ : ∀ q', q' ≠ q → k₂.msgque q' = k₁.msgque q' := by
    intro q' hq
    rw [hk₂]
    exact amend_of_ne hq _
  have hrest₂ : k₂.msgType = k₁.msgType ∧ k₂.msgTs = k₁.msgTs ∧ k₂.msgSpot = k₁.msgSpot ∧
      k₂.msgfp = k₁.msgfp ∧ k₂.msgmap = k₁.msgmap ∧ k₂.msg = k₁.msg := by
    rw [hk₂]
    exact ⟨rfl, rfl, rfl, rfl, rfl, rfl⟩
  have hl₂ : Laid c k₂ { g with
      onq := update g.onq q (a ++ post)
      own := update g.own mp (.held 0) } := by
    rw [hk₂]
    exact hl₁.amend rfl rfl rfl
  have hpr₂ : ∀ g₀, Progress k₁ g₀ k₂ g₀ wakes := by
    intro g₀
    refine ⟨fun hk => .inl (hrest₂.2.2.2.1.trans hk), fun hk => .inr ⟨?_, Set.Subset.rfl⟩,
      fun q' hk => ?_, fun q' hk => .inr ⟨?_, fun h hh => ⟨hh, by rw [hrest₂.1]⟩⟩⟩
    · rw [hrest₂.2.2.2.2.1]
      exact hk
    · by_cases hq : q' = q
      · left
        rw [hwakes, ← hq, if_pos hk]
        exact mem_singleton_self _
      · right
        rw [hother₂ q' hq]
        exact ⟨hk, Nat.le_refl _, Nat.le_refl _⟩
    · by_cases hq : q' = q
      · rw [hq] at hk ⊢
        rw [hself₂]
        exact hk
      · rw [hother₂ q' hq]
        exact hk
  have hts₂ : k₂.msgTs mp = k.msgTs mp := by rw [hrest₂.2.1, hts]
  have hspot₂ : k₂.msgSpot mp = k.msgSpot mp := by rw [hrest₂.2.2.1, hspot]
  have hsegs := (hl.segsQueue q mp hown).1
  have hheld : update g.own mp (.held 0) mp = .held 0 := update_self _ _ _
  -- the segments
  have htext : ∃ k₃ woken E' lost,
      (if k₂.msgTs mp ≠ 0 then k₂.freeText (btoq c (k₂.msgTs mp)) (k₂.msgSpot mp + 1).toNat
      else some (k₂, [])) = some (k₃, woken) ∧ k₃ = { k₂ with msgmap := k₃.msgmap } ∧
      (let g₂ := { g with
        onq := update g.onq q (a ++ post)
        own := update g.own mp (.held 0) }
      let g₃ := { g₂ with segs := update g.segs mp ∅, entries := E', lost := lost }
      Laid c k₃ g₃ ∧ Progress k₂ g₂ k₃ g₃ woken) := by
    by_cases hzero : k₂.msgTs mp ≠ 0
    · rw [if_pos hzero]
      refine hl₂.freeText hc hheld ?_ ?_
      · rw [hts₂, hspot₂]
        exact hsegs
      · have hssz := hc.msgssz
        unfold btoq
        exact Nat.div_pos (by omega) hssz
    · rw [if_neg hzero]
      have hzero : k₂.msgTs mp = 0 := by omega
      have hempty : g.segs mp = ∅ := by
        rw [hsegs, ← hts₂, hzero]
        have hbtoq : btoq c 0 = 0 := by
          have hssz := hc.msgssz
          unfold btoq
          exact Nat.div_eq_of_lt (by omega)
        rw [hbtoq]
        unfold System.unitsOf
        simp
      have hsame : update g.segs mp ∅ = g.segs := by
        rw [← hempty]
        exact update_eq_self mp g.segs
      refine ⟨k₂, [], g.entries, g.lost, rfl, rfl, ?_⟩
      simp only
      rw [hsame]
      exact ⟨hl₂, Progress.refl _ _⟩
  obtain ⟨k₃, woken, E', lost, hrun, hk₃, hl₃, hpr₃⟩ := htext
  rw [hrun]
  have hl₄ := hl₃.putHeader (p := 0) hheld (update_self _ _ _)
  have hidem : update (update g.own mp (.held 0)) mp Place.free =
      update g.own mp .free := update_idem _ _ _
  rw [hk₃] at hl₄ hpr₃ ⊢
  refine ⟨_, _, E', lost, rfl, ⟨?_, ?_⟩, ?_, ?_, ?_, ?_, ⟨fun q' hq => ?_⟩, ?_, ?_⟩
  · rw [← hidem]
    exact hl₄
  · have hall := ((hpr₁.trans (hpr₂ _)).trans hpr₃).trans (progress_putHeader (m := mp) _ _
      (update g.own mp .free) (mp :: g.free))
    exact hall
  · exact hrest₂.1.trans htype
  · exact hrest₂.2.1.trans hts
  · exact hrest₂.2.2.1.trans hspot
  · exact hrest₂.2.2.2.2.2.trans hmsg
  · exact (hother₂ q' hq).trans (hothers q' hq)
  · have hfinal : ((Kernel.putHeader { k₂ with msgmap := k₃.msgmap } mp).1).msgque q =
        { k₁.msgque q with msgWwait := false } := hself₂
    constructor <;> rw [hfinal, hqueue]
  · have hfinal : ((Kernel.putHeader { k₂ with msgmap := k₃.msgmap } mp).1).msgque q =
        { k₁.msgque q with msgWwait := false } := hself₂
    rw [hfinal]

end Free

end Msgq
end Svr4
