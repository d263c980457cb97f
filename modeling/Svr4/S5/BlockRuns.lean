import Svr4.S5.Blocks

/-!
# The chain of free blocks

What the superblock lists, through the blocks that hold further entries, is a stack of
blocks, from which `blkalloc` takes the first and onto which `blkfree` puts one.
-/

namespace Svr4
namespace S5

open Function Transition List

/-!
## What entries list
-/

/-- `Lists disk n f l`: the `n` entries `f`, and the blocks through them, list
the blocks `l`, in the order in which they are taken. -/
inductive Lists (disk : Nat → Fblk) : Nat → (Nat → Nat) → List Nat → Prop
  | last {f : Nat → Nat} (hzero : f 0 = 0) : Lists disk 1 f []
  | link {f : Nat → Nat} {l : List Nat} (hne : f 0 ≠ 0)
      (hbound : (disk (f 0)).dfNfree ≤ NICFREE)
      (rest : Lists disk (disk (f 0)).dfNfree (disk (f 0)).dfFree l) : Lists disk 1 f (f 0 :: l)
  | more {n : Nat} {f : Nat → Nat} {l : List Nat} (hne : f (n + 1) ≠ 0)
      (rest : Lists disk (n + 1) f l) : Lists disk (n + 2) f (f (n + 1) :: l)

variable {b bno n : Nat}

section Lists

variable {disk disk' : Nat → Fblk} {n : Nat} {f f' : Nat → Nat} {l : List Nat}

theorem Lists.pos (hl : Lists disk n f l) : 0 < n := by
  cases hl with
  | last => exact Nat.one_pos
  | link => exact Nat.one_pos
  | more => exact Nat.succ_pos _

theorem Lists.congr (hl : Lists disk n f l) (hf : ∀ i, i < n → f' i = f i)
    (hdisk : ∀ b ∈ l, disk' b = disk b) : Lists disk' n f' l := by
  induction hl generalizing f' with
  | last hzero =>
    refine Lists.last ?_
    rw [hf 0 Nat.one_pos, hzero]
  | @link f l hne hbound rest ih =>
    have hfirst : f' 0 = f 0 := hf 0 Nat.one_pos
    have hblock : disk' (f' 0) = disk (f 0) := by
      rw [hfirst]
      exact hdisk _ mem_cons_self
    rw [← hfirst]
    refine Lists.link (by rwa [hfirst]) (by rwa [hblock]) ?_
    rw [hblock]
    exact ih (fun _ _ => rfl) fun b hb => hdisk b (mem_cons_of_mem _ hb)
  | @more n f l hne rest ih =>
    have hfirst : f' (n + 1) = f (n + 1) := hf (n + 1) (by omega)
    rw [← hfirst]
    refine Lists.more (by rwa [hfirst]) ?_
    exact ih (fun i hi => hf i (by omega)) fun b hb => hdisk b (mem_cons_of_mem _ hb)

theorem Lists.push (hl : Lists disk n f l) (hb : b ≠ 0) :
    Lists disk (n + 1) (update f n b) (b :: l) := by
  obtain ⟨m, rfl⟩ := Nat.exists_eq_succ_of_ne_zero (Nat.pos_iff_ne_zero.mp hl.pos)
  have htop : update f (m + 1) b (m + 1) = b := update_self _ _ _
  have hrest : Lists disk (m + 1) (update f (m + 1) b) l :=
    hl.congr (fun i hi => update_of_ne (by omega) _ _) fun _ _ => rfl
  have hmore := Lists.more (by rwa [htop]) hrest
  rwa [htop] at hmore

theorem Lists.spill (hb : b ≠ 0) (hbound : (disk b).dfNfree ≤ NICFREE)
    (hl : Lists disk (disk b).dfNfree (disk b).dfFree l) (hf : f 0 = b) :
    Lists disk 1 f (b :: l) := by
  subst hf
  exact Lists.link hb hbound hl

theorem Lists.uncons (hl : Lists disk (n + 1) f (b :: l)) : f n = b ∧ b ≠ 0 ∧
    (n = 0 → (disk b).dfNfree ≤ NICFREE ∧ Lists disk (disk b).dfNfree (disk b).dfFree l) ∧
    (n ≠ 0 → Lists disk n f l) := by
  cases hl with
  | link hne hbound rest => exact ⟨rfl, hne, fun _ => ⟨hbound, rest⟩, fun h => absurd rfl h⟩
  | more hne rest => exact ⟨rfl, hne, fun h => absurd h (Nat.succ_ne_zero _), fun _ => rest⟩

theorem Lists.nil_iff (hl : Lists disk n f []) : n = 1 ∧ f 0 = 0 := by
  cases hl with
  | last hzero => exact ⟨rfl, hzero⟩

end Lists

/-!
## Sound states
-/

variable {l : List Nat}

namespace BlockSys

/-- What is listed from the superblock, and from the block that `blkalloc` reads. -/
def Reaches (s : BlockSys) (l : List Nat) : Prop :=
  match s.holder with
  | .reading bno =>
    s.fs.sNfree = 0 ∧ ∃ rest, l = bno :: rest ∧ bno ≠ 0 ∧ (s.disk bno).dfNfree ≤ NICFREE ∧
      Lists s.disk (s.disk bno).dfNfree (s.disk bno).dfFree rest
  | .spilling _ => s.fs.sNfree = NICFREE ∧ Lists s.disk s.fs.sNfree s.fs.sFree l
  | .nobody => (s.fs.sNfree = 0 ∧ l = []) ∨ Lists s.disk s.fs.sNfree s.fs.sFree l

/-- The free blocks are listed, each once, and counted. -/
structure Chained (s : BlockSys) : Prop where
  bound : s.fs.sNfree ≤ NICFREE
  chain : ∃ l, s.Reaches l ∧ l.Nodup ∧ (∀ bno, bno ∈ l ↔ bno ∈ s.freeBlocks) ∧
    s.fs.sTfree = s.freeBlocks.card

/-- The lock is held by the call that is asleep with it, and no block is passed on twice. -/
structure Orderly (s : BlockSys) : Prop where
  isize : 0 < s.fs.sIsize
  flock : s.fs.sFlock = if s.holder = .nobody then 0 else 1
  held : ∀ bno ∈ s.held, s.fs.sIsize ≤ bno ∧ bno < s.fs.sFsize
  freeing : ∀ bno ∈ s.freeing, s.fs.sIsize ≤ bno ∧ bno < s.fs.sFsize ∧ bno ∉ s.held
  spilling : ∀ bno, s.holder = .spilling bno →
    s.fs.sIsize ≤ bno ∧ bno < s.fs.sFsize ∧ bno ∉ s.held ∧ bno ∉ s.freeing

def Start (s : BlockSys) : Prop :=
  s.Orderly ∧ s.Chained ∧ s.holder = .nobody ∧ s.freeing = ∅

/-- Blocks that hold entries can be read, and `blkfree` finds the list as it left it
when it has the old buffer: nobody has the lock, there is room, and there are entries, unless
the block happens to hold what ends the list. -/
def Meets (s : BlockSys) : BlockEvent → Prop
  | .readDone ok => ok = true
  | .resume bno =>
    s.fs.sFlock = 0 ∧ s.fs.sNfree < NICFREE ∧
      (s.fs.sNfree = 0 → (s.disk bno).dfNfree = 1 ∧ (s.disk bno).dfFree 0 = 0)
  | _ => True

section Steps

variable {s : BlockSys}

theorem mem_freeBlocks : bno ∈ s.freeBlocks ↔ s.IsFree bno := by
  unfold freeBlocks
  rw [Finset.mem_filter, Finset.mem_range]
  exact ⟨And.right, fun h => ⟨h.2.1, h⟩⟩

theorem Chained.of_list (hbound : s.fs.sNfree ≤ NICFREE) (hreaches : s.Reaches l)
    (hnodup : l.Nodup) (hmem : ∀ bno, bno ∈ l ↔ s.IsFree bno)
    (hcount : s.fs.sTfree = l.length) : s.Chained := by
  have hfree : ∀ bno, bno ∈ l ↔ bno ∈ s.freeBlocks := fun bno => by
    rw [hmem, mem_freeBlocks]
  refine ⟨hbound, l, hreaches, hnodup, hfree, ?_⟩
  have hset : l.toFinset = s.freeBlocks := by
    ext bno
    rw [mem_toFinset, hfree]
  rw [hcount, ← hset, toFinset_card_of_nodup hnodup]

theorem Chained.list (hs : s.Chained) : ∃ l, s.Reaches l ∧ l.Nodup ∧
    (∀ bno, bno ∈ l ↔ s.IsFree bno) ∧ s.fs.sTfree = l.length := by
  obtain ⟨l, hreaches, hnodup, hmem, hcount⟩ := hs.chain
  refine ⟨l, hreaches, hnodup, fun bno => by rw [hmem, mem_freeBlocks], ?_⟩
  have hset : l.toFinset = s.freeBlocks := by
    ext bno
    rw [mem_toFinset, hmem]
  rw [hcount, ← hset, toFinset_card_of_nodup hnodup]

theorem reaches_nobody (hnobody : s.holder = .nobody) :
    s.Reaches l ↔ (s.fs.sNfree = 0 ∧ l = []) ∨ Lists s.disk s.fs.sNfree s.fs.sFree l := by
  unfold Reaches
  rw [hnobody]

theorem nospace_sound (ho : s.Orderly) (hnobody : s.holder = .nobody)
    (hnone : ∀ bno, ¬ s.IsFree bno) : s.nospace.1.Orderly ∧ s.nospace.1.Chained := by
  refine ⟨⟨ho.isize, ho.flock, ho.held, ho.freeing, ho.spilling⟩, ?_⟩
  have hreaches : s.nospace.1.Reaches [] :=
    (reaches_nobody (s := s.nospace.1) hnobody).mpr (.inl ⟨rfl, rfl⟩)
  exact Chained.of_list (Nat.zero_le _) hreaches nodup_nil
    (fun bno => iff_of_false not_mem_nil (hnone bno)) rfl

theorem allocFinish_sound (ho : s.Orderly) (hnobody : s.holder = .nobody) {rest : List Nat}
    (hl : Lists s.disk s.fs.sNfree s.fs.sFree rest) (hbound : s.fs.sNfree ≤ NICFREE)
    (hnodup : (bno :: rest).Nodup) (hmem : ∀ b, b ∈ bno :: rest ↔ s.IsFree b)
    (hcount : s.fs.sTfree = (bno :: rest).length) :
    ∃ s', s.allocFinish bno = (s', some (.allocated bno)) ∧ s'.Orderly ∧ s'.Chained ∧
      s.IsFree bno ∧ s'.freeBlocks = s.freeBlocks.erase bno := by
  have hfree : s.IsFree bno := (hmem bno).mp mem_cons_self
  have hpos := hl.pos
  have hgood : ¬ (s.fs.sNfree ≤ 0 ∨ s.fs.sNfree > NICFREE) := by omega
  unfold allocFinish
  rw [if_neg hgood]
  refine ⟨_, rfl, ⟨ho.isize, ho.flock, ?_, ?_, ?_⟩, ?_, hfree, ?_⟩
  · intro b hb
    rcases Finset.mem_insert.mp hb with rfl | hb
    · exact ⟨hfree.1, hfree.2.1⟩
    · exact ho.held b hb
  · intro b hb
    obtain ⟨hlo, hhi, hnot⟩ := ho.freeing b hb
    refine ⟨hlo, hhi, fun hin => ?_⟩
    rcases Finset.mem_insert.mp hin with rfl | hin
    · exact hfree.2.2.2.1 hb
    · exact hnot hin
  · intro b hb
    rw [hnobody] at hb
    cases hb
  · rw [nodup_cons] at hnodup
    refine Chained.of_list (l := rest) hbound ((reaches_nobody hnobody).mpr (.inr hl))
      hnodup.2 (fun b => ?_) ?_
    · constructor
      · intro hb
        obtain ⟨hlo, hhi, hheld, hrest⟩ := (hmem b).mp (mem_cons_of_mem _ hb)
        refine ⟨hlo, hhi, fun hin => ?_, hrest⟩
        rcases Finset.mem_insert.mp hin with rfl | hin
        · exact hnodup.1 hb
        · exact hheld hin
      · rintro ⟨hlo, hhi, hheld, hrest⟩
        have hold : s.IsFree b := ⟨hlo, hhi, fun hin => hheld (Finset.mem_insert_of_mem hin), hrest⟩
        rcases mem_cons.mp ((hmem b).mpr hold) with rfl | hb
        · exact absurd (Finset.mem_insert_self _ _) hheld
        · exact hb
    · rw [hcount, length_cons, if_pos (Nat.succ_ne_zero _), Nat.add_sub_cancel]
  · ext b
    rw [Finset.mem_erase, mem_freeBlocks, mem_freeBlocks]
    constructor
    · rintro ⟨hlo, hhi, hheld, hrest⟩
      refine ⟨?_, hlo, hhi, fun hin => hheld (Finset.mem_insert_of_mem hin), hrest⟩
      rintro rfl
      exact hheld (Finset.mem_insert_self _ _)
    · rintro ⟨hne, hlo, hhi, hheld, hrest⟩
      refine ⟨hlo, hhi, fun hin => ?_, hrest⟩
      rcases Finset.mem_insert.mp hin with rfl | hin
      · exact hne rfl
      · exact hheld hin

def Allocates (s s' : BlockSys) (r : Option AllocResult) : Prop :=
  ∀ bno, r = some (.allocated bno) → s.IsFree bno ∧ s'.freeBlocks = s.freeBlocks.erase bno

theorem pop_nil {fs : FreeList} (hn : n = 0 ∨ (n = 1 ∧ fs.sFree 0 = 0)) : fs.pop n = none := by
  rcases hn with rfl | ⟨rfl, hzero⟩
  · rfl
  · unfold FreeList.pop
    rw [if_pos hzero]

theorem pop_cons {fs : FreeList} (hne : fs.sFree n ≠ 0) (hlo : fs.sIsize ≤ fs.sFree n)
    (hhi : fs.sFree n < fs.sFsize) : fs.pop (n + 1) = some (fs.sFree n, n) := by
  have hgood : ¬ fs.badblock (fs.sFree n) = true := by
    unfold FreeList.badblock
    rw [decide_eq_true_eq]
    omega
  unfold FreeList.pop
  rw [if_neg hne, if_neg hgood]

theorem blkalloc_sound (ho : s.Orderly) (hc : s.Chained) (hflock : s.fs.sFlock = 0) :
    s.blkalloc.1.Orderly ∧ s.blkalloc.1.Chained ∧ s.Allocates s.blkalloc.1 s.blkalloc.2 := by
  have hnobody : s.holder = .nobody := by
    by_contra hne
    have hlock := ho.flock
    rw [if_neg hne] at hlock
    omega
  obtain ⟨l, hreaches, hnodup, hmem, hcount⟩ := hc.list
  rw [reaches_nobody hnobody] at hreaches
  cases l with
  | nil =>
    have hnil : s.fs.sNfree = 0 ∨ (s.fs.sNfree = 1 ∧ s.fs.sFree 0 = 0) := by
      rcases hreaches with ⟨hzero, _⟩ | hl
      · exact .inl hzero
      · exact .inr hl.nil_iff
    have hsame : s.blkalloc = s.nospace := by
      unfold blkalloc
      rw [pop_nil hnil]
    obtain ⟨ho', hc'⟩ := nospace_sound ho hnobody fun b hb => not_mem_nil ((hmem b).mpr hb)
    rw [hsame]
    exact ⟨ho', hc', nofun⟩
  | cons bno rest =>
    have hl : Lists s.disk s.fs.sNfree s.fs.sFree (bno :: rest) := by
      rcases hreaches with ⟨_, hnil⟩ | hl
      · cases hnil
      · exact hl
    obtain ⟨n, hn⟩ := Nat.exists_eq_succ_of_ne_zero (Nat.pos_iff_ne_zero.mp hl.pos)
    have hbound := hc.bound
    rw [hn] at hl hbound
    obtain ⟨htop, hne, hlink, hmore⟩ := hl.uncons
    have hfree : s.IsFree bno := (hmem bno).mp mem_cons_self
    have hpop : s.fs.pop s.fs.sNfree = some (bno, n) := by
      rw [hn, pop_cons (by rwa [htop]) (by rw [htop]; exact hfree.1)
        (by rw [htop]; exact hfree.2.1), htop]
    by_cases hzero : n ≤ 0
    · have hz : n = 0 := by omega
      subst hz
      obtain ⟨hdf, hrest⟩ := hlink rfl
      have hrun : s.blkalloc = ({ s with
          fs := { s.fs with sNfree := 0, sFlock := s.fs.sFlock + 1 }
          holder := .reading bno }, none) := by
        unfold blkalloc
        rw [hpop]
        rfl
      rw [hrun]
      refine ⟨⟨ho.isize, ?_, ho.held, ho.freeing, nofun⟩, ?_, nofun⟩
      · change s.fs.sFlock + 1 = 1
        rw [hflock]
      · refine Chained.of_list (l := bno :: rest) (Nat.zero_le _)
          ⟨rfl, rest, rfl, hne, hdf, hrest⟩ hnodup (fun b => ?_) hcount
        rw [hmem]
        constructor
        · rintro ⟨hlo, hhi, hheld, hfreeing, _⟩
          exact ⟨hlo, hhi, hheld, hfreeing, nofun⟩
        · rintro ⟨hlo, hhi, hheld, hfreeing, _⟩
          exact ⟨hlo, hhi, hheld, hfreeing, by rw [hnobody]; nofun⟩
    · have hrest := hmore (by omega)
      let t : BlockSys := { s with fs := { s.fs with sNfree := n } }
      have hrun : s.blkalloc = t.allocFinish bno := by
        unfold blkalloc
        rw [hpop]
        simp only
        rw [if_neg hzero]
      have hot : t.Orderly := ⟨ho.isize, ho.flock, ho.held, ho.freeing, ho.spilling⟩
      obtain ⟨s', hs', ho', hc', hfree', herase⟩ :=
        allocFinish_sound (s := t) hot hnobody hrest (show n ≤ NICFREE by omega) hnodup hmem hcount
      rw [hrun, hs']
      refine ⟨ho', hc', ?_⟩
      rintro b ⟨rfl⟩
      exact ⟨hfree', herase⟩

theorem readDone_sound (ho : s.Orderly) (hc : s.Chained) (hreading : s.holder = .reading bno) :
    (s.readDone bno true).1.Orderly ∧ (s.readDone bno true).1.Chained ∧
      s.Allocates (s.readDone bno true).1 (s.readDone bno true).2 := by
  obtain ⟨l, hreaches, hnodup, hmem, hcount⟩ := hc.list
  unfold Reaches at hreaches
  rw [hreading] at hreaches
  obtain ⟨_, rest, rfl, hne, hbound, hl⟩ := hreaches
  let t : BlockSys :=
    { s with
      fs :=
        { s.fs with
          sNfree := (s.disk bno).dfNfree
          sFree := bcopyFree (s.disk bno).dfFree s.fs.sFree
          sFlock := 0 }
      holder := .nobody }
  have hrun : s.readDone bno true = t.allocFinish bno := rfl
  have hfree : ∀ b, t.IsFree b ↔ s.IsFree b := by
    intro b
    constructor
    · rintro ⟨hlo, hhi, hheld, hfreeing, _⟩
      exact ⟨hlo, hhi, hheld, hfreeing, by rw [hreading]; nofun⟩
    · rintro ⟨hlo, hhi, hheld, hfreeing, _⟩
      exact ⟨hlo, hhi, hheld, hfreeing, nofun⟩
  have hset : t.freeBlocks = s.freeBlocks := by
    ext b
    rw [mem_freeBlocks, mem_freeBlocks, hfree]
  have hot : t.Orderly := ⟨ho.isize, rfl, ho.held, ho.freeing, nofun⟩
  have hlt : Lists t.disk t.fs.sNfree t.fs.sFree rest := by
    refine hl.congr (fun i hi => ?_) fun _ _ => rfl
    exact if_pos (show i < NICFREE by omega)
  obtain ⟨s', hs', ho', hc', hfree', herase⟩ := allocFinish_sound hot rfl hlt hbound hnodup
    (fun b => by rw [hmem, hfree]) hcount
  rw [hrun, hs']
  refine ⟨ho', hc', ?_⟩
  rintro b ⟨rfl⟩
  exact ⟨(hfree _).mp hfree', by rw [herase, hset]⟩

theorem push_sound {t : BlockSys} (ho : t.Orderly) (hnobody : t.holder = .nobody)
    (hl : Lists t.disk t.fs.sNfree t.fs.sFree l) (hroom : t.fs.sNfree < NICFREE)
    (hnodup : l.Nodup) (hrange : t.fs.sIsize ≤ bno ∧ bno < t.fs.sFsize) (hnot : bno ∉ l)
    (hmem : ∀ b, b ∈ bno :: l ↔ t.IsFree b) (hcount : t.fs.sTfree = l.length) :
    ({ t with fs := t.fs.push bno } : BlockSys).Orderly ∧
      ({ t with fs := t.fs.push bno } : BlockSys).Chained := by
  have hisize := ho.isize
  have hpush : Lists t.disk (t.fs.sNfree + 1) (update t.fs.sFree t.fs.sNfree bno)
      (bno :: l) := hl.push (by omega)
  refine ⟨⟨ho.isize, ho.flock, ho.held, ho.freeing, ho.spilling⟩, ?_⟩
  refine Chained.of_list (l := bno :: l) (show t.fs.sNfree + 1 ≤ NICFREE by omega)
    ((reaches_nobody (s := { t with fs := t.fs.push bno }) hnobody).mpr (.inr hpush))
    (nodup_cons.mpr ⟨hnot, hnodup⟩) hmem ?_
  change t.fs.sTfree + 1 = _
  rw [hcount, length_cons]

section

variable (ho : s.Orderly) (hc : s.Chained)
include ho hc

theorem blkfree_sound (hflock : s.fs.sFlock = 0)
    (hheld : bno ∈ s.held) (incore : Bool) :
    (s.blkfree bno incore).Orderly ∧ (s.blkfree bno incore).Chained := by
  have hnobody : s.holder = .nobody := by
    by_contra hne
    have hlock := ho.flock
    rw [if_neg hne] at hlock
    omega
  obtain ⟨l, hreaches, hnodup, hmem, hcount⟩ := hc.list
  rw [reaches_nobody hnobody] at hreaches
  obtain ⟨hlo, hhi⟩ := ho.held bno hheld
  have hbound := hc.bound
  have hnot : bno ∉ l := fun hin => ((hmem bno).mp hin).2.2.1 hheld
  have hfreeing : bno ∉ s.freeing := fun hin => (ho.freeing bno hin).2.2 hheld
  have hgood : ¬ s.fs.badblock bno = true := by
    unfold FreeList.badblock
    rw [decide_eq_true_eq]
    omega
  -- the list with an entry that ends it
  obtain ⟨fs, hfs, hl, hnfree, hsame⟩ : ∃ fs : FreeList, fs = (if s.fs.sNfree ≤ 0 then
          { s.fs with sNfree := 1, sFree := update s.fs.sFree 0 0 }
        else s.fs) ∧
      Lists s.disk fs.sNfree fs.sFree l ∧ fs.sNfree ≤ NICFREE ∧
      (fs.sIsize = s.fs.sIsize ∧ fs.sFsize = s.fs.sFsize ∧ fs.sFlock = s.fs.sFlock ∧
        fs.sTfree = s.fs.sTfree) := by
    by_cases hzero : s.fs.sNfree ≤ 0
    · refine ⟨_, rfl, ?_⟩
      rw [if_pos hzero]
      have hnil : l = [] := by
        rcases hreaches with ⟨_, hnil⟩ | hl
        · exact hnil
        · exact absurd hl.pos (by omega)
      have hend : update s.fs.sFree 0 0 0 = 0 := update_self _ _ _
      rw [hnil]
      exact ⟨Lists.last hend, show 1 ≤ NICFREE by decide, rfl, rfl, rfl, rfl⟩
    · refine ⟨_, rfl, ?_⟩
      rw [if_neg hzero]
      rcases hreaches with ⟨hnone, _⟩ | hl
      · omega
      · exact ⟨hl, hbound, rfl, rfl, rfl, rfl⟩
  obtain ⟨hisize, hfsize, hlock, htfree⟩ := hsame
  have hrun : s.blkfree bno incore =
      if fs.sNfree ≥ NICFREE then
        { s with
          held := s.held.erase bno
          fs := { fs with sFlock := fs.sFlock + 1 }
          holder := .spilling bno }
      else if incore then
        { s with held := s.held.erase bno, fs := fs, freeing := insert bno s.freeing }
      else { s with held := s.held.erase bno, fs := fs.push bno } := by
    unfold blkfree
    simp only
    rw [if_neg hgood, ← hfs]
  have hheldErase : ∀ b ∈ s.held.erase bno, s.fs.sIsize ≤ b ∧ b < s.fs.sFsize := fun b hb =>
    ho.held b (Finset.mem_of_mem_erase hb)
  -- a block is free that was free
  have hkeep : ∀ b, b ≠ bno → (b ∉ s.held.erase bno ↔ b ∉ s.held) := by
    intro b hb
    rw [Finset.mem_erase, not_and]
    exact ⟨fun h => h hb, fun h _ => h⟩
  rw [hrun]
  by_cases hfull : fs.sNfree ≥ NICFREE
  · rw [if_pos hfull]
    refine ⟨⟨?_, ?_, ?_, ?_, ?_⟩, ?_⟩
    · rw [hisize]
      exact ho.isize
    · change fs.sFlock + 1 = 1
      rw [hlock, hflock]
    · intro b hb
      rw [hisize, hfsize]
      exact hheldErase b hb
    · intro b hb
      rw [hisize, hfsize]
      obtain ⟨hblo, hbhi, hbheld⟩ := ho.freeing b hb
      exact ⟨hblo, hbhi, fun hin => hbheld (Finset.mem_of_mem_erase hin)⟩
    · rintro b ⟨rfl⟩
      rw [hisize, hfsize]
      exact ⟨hlo, hhi, Finset.notMem_erase _ _, hfreeing⟩
    · refine Chained.of_list (l := l) hnfree ⟨by change fs.sNfree = NICFREE; omega, hl⟩ hnodup
        (fun b => ?_) (htfree.trans hcount)
      rw [hmem]
      unfold IsFree
      rw [hisize, hfsize, hnobody]
      by_cases hb : b = bno
      · subst hb
        exact iff_of_false (fun h => h.2.2.1 hheld) fun h => h.2.2.2.2 rfl
      · rw [hkeep b hb]
        have hother : Holder.spilling bno ≠ .spilling b := fun heq => by
          cases heq
          exact hb rfl
        have hnone : Holder.nobody ≠ .spilling b := nofun
        simp only [ne_eq, hother, hnone, not_false_eq_true, and_true]
  · rw [if_neg hfull]
    cases incore with
    | true =>
      rw [if_pos rfl]
      refine ⟨⟨?_, ?_, ?_, ?_, ?_⟩, ?_⟩
      · rw [hisize]
        exact ho.isize
      · rw [hlock]
        exact ho.flock
      · intro b hb
        rw [hisize, hfsize]
        exact hheldErase b hb
      · intro b hb
        rw [hisize, hfsize]
        rcases Finset.mem_insert.mp hb with rfl | hb
        · exact ⟨hlo, hhi, Finset.notMem_erase _ _⟩
        · obtain ⟨hblo, hbhi, hbheld⟩ := ho.freeing b hb
          exact ⟨hblo, hbhi, fun hin => hbheld (Finset.mem_of_mem_erase hin)⟩
      · intro b hb
        rw [hnobody] at hb
        cases hb
      · refine Chained.of_list (l := l) hnfree ((reaches_nobody (s := { s with
            held := s.held.erase bno, fs := fs, freeing := insert bno s.freeing })
            hnobody).mpr (.inr hl)) hnodup (fun b => ?_) (htfree.trans hcount)
        rw [hmem]
        unfold IsFree
        rw [hisize, hfsize, Finset.mem_insert, not_or]
        by_cases hb : b = bno
        · subst hb
          exact iff_of_false (fun h => h.2.2.1 hheld) fun h => h.2.2.2.1.1 rfl
        · rw [hkeep b hb]
          simp only [hb, not_false_eq_true, true_and]
    | false =>
      let t : BlockSys := { s with held := s.held.erase bno, fs := fs }
      have hot : t.Orderly := by
        refine ⟨?_, ?_, ?_, ?_, ?_⟩
        · rw [hisize]
          exact ho.isize
        · rw [hlock]
          exact ho.flock
        · intro b hb
          rw [hisize, hfsize]
          exact hheldErase b hb
        · intro b hb
          rw [hisize, hfsize]
          obtain ⟨hblo, hbhi, hbheld⟩ := ho.freeing b hb
          exact ⟨hblo, hbhi, fun hin => hbheld (Finset.mem_of_mem_erase hin)⟩
        · intro b hb
          have hb : s.holder = .spilling b := hb
          rw [hnobody] at hb
          cases hb
      refine push_sound (t := t) hot hnobody hl (show fs.sNfree < NICFREE by omega) hnodup
        ?_ hnot (fun b => ?_) (htfree.trans hcount)
      · rw [hisize, hfsize]
        exact ⟨hlo, hhi⟩
      · rw [mem_cons, hmem]
        change _ ↔ fs.sIsize ≤ b ∧ b < fs.sFsize ∧ b ∉ s.held.erase bno ∧ b ∉ s.freeing ∧
          s.holder ≠ .spilling b
        rw [hisize, hfsize]
        by_cases hb : b = bno
        · subst hb
          refine iff_of_true (.inl rfl) ⟨hlo, hhi, Finset.notMem_erase _ _, hfreeing, ?_⟩
          rw [hnobody]
          nofun
        · rw [hkeep b hb]
          exact ⟨fun h => h.resolve_left hb, .inr⟩

theorem spillDone_sound (hspilling : s.holder = .spilling bno) :
    (s.spillDone bno).Orderly ∧ (s.spillDone bno).Chained := by
  obtain ⟨l, hreaches, hnodup, hmem, hcount⟩ := hc.list
  unfold Reaches at hreaches
  rw [hspilling] at hreaches
  obtain ⟨hnfree, hl⟩ := hreaches
  obtain ⟨hlo, hhi, hheld, hfreeing⟩ := ho.spilling bno hspilling
  have hisize := ho.isize
  have hnot : bno ∉ l := fun hin => ((hmem bno).mp hin).2.2.2.2 hspilling
  let block : Fblk :=
    { dfNfree := s.fs.sNfree, dfFree := bcopyFree s.fs.sFree (s.disk bno).dfFree }
  have hdisk : update s.disk bno block bno = block := update_self _ _ _
  have hlists : Lists (update s.disk bno block) s.fs.sNfree
      (bcopyFree s.fs.sFree (s.disk bno).dfFree) l := by
    refine hl.congr (fun i hi => if_pos (by omega)) fun b hb => ?_
    refine update_of_ne ?_ _ _
    rintro rfl
    exact hnot hb
  have hspill : Lists (update s.disk bno block) 1 (update s.fs.sFree 0 bno) (bno :: l) := by
    refine Lists.spill (by omega) ?_ ?_ (update_self _ _ _)
    · rw [hdisk]
      exact le_of_eq hnfree
    · rw [hdisk]
      exact hlists
  refine ⟨⟨ho.isize, rfl, ho.held, ho.freeing, nofun⟩, ?_⟩
  refine Chained.of_list (l := bno :: l) (show 0 + 1 ≤ NICFREE by decide)
    ((reaches_nobody (s := s.spillDone bno) rfl).mpr (.inr hspill))
    (nodup_cons.mpr ⟨hnot, hnodup⟩) (fun b => ?_) ?_
  · rw [mem_cons, hmem]
    constructor
    · rintro (rfl | ⟨hblo, hbhi, hbheld, hbfreeing, _⟩)
      · exact ⟨hlo, hhi, hheld, hfreeing, nofun⟩
      · exact ⟨hblo, hbhi, hbheld, hbfreeing, nofun⟩
    · rintro ⟨hblo, hbhi, hbheld, hbfreeing, _⟩
      by_cases hb : b = bno
      · exact .inl hb
      · refine .inr ⟨hblo, hbhi, hbheld, hbfreeing, fun heq => ?_⟩
        rw [hspilling] at heq
        cases heq
        exact hb rfl
  · change s.fs.sTfree + 1 = _
    rw [hcount, length_cons]

theorem resume_sound (hin : bno ∈ s.freeing)
    (hmeets : s.Meets (.resume bno)) : (s.resume bno).Orderly ∧ (s.resume bno).Chained := by
  obtain ⟨hflock, hroom, hempty⟩ := hmeets
  have hnobody : s.holder = .nobody := by
    by_contra hne
    have hlock := ho.flock
    rw [if_neg hne] at hlock
    omega
  obtain ⟨l, hreaches, hnodup, hmem, hcount⟩ := hc.list
  rw [reaches_nobody hnobody] at hreaches
  obtain ⟨hlo, hhi, hheld⟩ := ho.freeing bno hin
  have hisize := ho.isize
  have hnot : bno ∉ l := fun hl => ((hmem bno).mp hl).2.2.2.1 hin
  let t : BlockSys := { s with freeing := s.freeing.erase bno }
  have hot : t.Orderly := by
    refine ⟨ho.isize, ho.flock, ho.held, fun b hb => ?_, fun b hb => ?_⟩
    · exact ho.freeing b (Finset.mem_of_mem_erase hb)
    · have hb : s.holder = .spilling b := hb
      rw [hnobody] at hb
      cases hb
  have hfree : ∀ b, b ∈ bno :: l ↔ t.IsFree b := by
    intro b
    rw [mem_cons, hmem]
    change _ ↔ s.fs.sIsize ≤ b ∧ b < s.fs.sFsize ∧ b ∉ s.held ∧ b ∉ s.freeing.erase bno ∧
      s.holder ≠ .spilling b
    by_cases hb : b = bno
    · subst hb
      refine iff_of_true (.inl rfl) ⟨hlo, hhi, hheld, Finset.notMem_erase _ _, ?_⟩
      rw [hnobody]
      nofun
    · have hkeep : b ∉ s.freeing.erase bno ↔ b ∉ s.freeing := by
        rw [Finset.mem_erase, not_and]
        exact ⟨fun h => h hb, fun h _ => h⟩
      rw [hkeep]
      exact ⟨fun h => h.resolve_left hb, .inr⟩
  rcases hreaches with ⟨hzero, rfl⟩ | hl
  · -- the block ends the list itself
    obtain ⟨hdf, hend⟩ := hempty hzero
    have hlast : Lists s.disk 1 (update s.fs.sFree 0 bno) [bno] := by
      refine Lists.spill (by omega) ?_ ?_ (update_self _ _ _)
      · rw [hdf]
        decide
      · rw [hdf]
        exact Lists.last hend
    have hsum : s.fs.sNfree + 1 = 1 := by omega
    refine ⟨⟨ho.isize, ho.flock, ho.held, hot.freeing, hot.spilling⟩, ?_⟩
    refine Chained.of_list (l := [bno]) (show s.fs.sNfree + 1 ≤ NICFREE by omega)
      ((reaches_nobody (s := s.resume bno) hnobody).mpr (.inr ?_))
      (nodup_singleton _) hfree ?_
    · change Lists s.disk (s.fs.sNfree + 1) (update s.fs.sFree s.fs.sNfree bno) [bno]
      rw [hsum, hzero]
      exact hlast
    · change s.fs.sTfree + 1 = 1
      rw [hcount]
      rfl
  · exact push_sound (t := t) hot hnobody hl hroom hnodup ⟨hlo, hhi⟩ hnot hfree hcount

theorem write_sound (hheld : bno ∈ s.held) (data : Fblk) :
    ({ s with disk := update s.disk bno data } : BlockSys).Orderly ∧
      ({ s with disk := update s.disk bno data } : BlockSys).Chained := by
  obtain ⟨l, hreaches, hnodup, hmem, hcount⟩ := hc.list
  have hdisk : ∀ b ∈ l, update s.disk bno data b = s.disk b := by
    intro b hb
    refine update_of_ne ?_ _ _
    rintro rfl
    exact ((hmem b).mp hb).2.2.1 hheld
  refine ⟨⟨ho.isize, ho.flock, ho.held, ho.freeing, ho.spilling⟩, ?_⟩
  refine Chained.of_list (l := l) hc.bound ?_ hnodup hmem hcount
  unfold Reaches at hreaches ⊢
  simp only
  cases hholder : s.holder with
  | nobody =>
    rw [hholder] at hreaches
    exact hreaches.imp_right fun hl => hl.congr (fun _ _ => rfl) hdisk
  | spilling b =>
    rw [hholder] at hreaches
    exact ⟨hreaches.1, hreaches.2.congr (fun _ _ => rfl) hdisk⟩
  | reading b =>
    rw [hholder] at hreaches
    obtain ⟨hzero, rest, rfl, hne, hbound, hl⟩ := hreaches
    have hb := hdisk b mem_cons_self
    refine ⟨hzero, rest, rfl, hne, ?_, ?_⟩
    · rw [hb]
      exact hbound
    · rw [hb]
      exact hl.congr (fun _ _ => rfl) fun c hc => hdisk c (mem_cons_of_mem _ hc)

theorem exec_sound {e : BlockEvent} {s' : BlockSys}
    {r : Option AllocResult} (hmeets : s.Meets e) (hexec : s.exec e = some (s', r)) :
    s'.Orderly ∧ s'.Chained ∧ s.Allocates s' r := by
  cases e with
  | blkalloc =>
    unfold exec at hexec
    simp only at hexec
    split at hexec
    · rename_i hflock
      have hsound := blkalloc_sound ho hc hflock
      rw [Option.some.inj hexec] at hsound
      exact hsound
    · cases hexec
  | readDone ok =>
    have hok : ok = true := hmeets
    subst hok
    unfold exec at hexec
    simp only at hexec
    split at hexec
    · rename_i bno hreading
      have hsound := readDone_sound ho hc hreading
      rw [Option.some.inj hexec] at hsound
      exact hsound
    · cases hexec
  | blkfree bno incore =>
    unfold exec at hexec
    simp only at hexec
    split at hexec
    · rename_i hheld
      cases hexec
      obtain ⟨ho', hc'⟩ := blkfree_sound ho hc hheld.1 hheld.2 incore
      exact ⟨ho', hc', nofun⟩
    · cases hexec
  | spillDone =>
    unfold exec at hexec
    simp only at hexec
    split at hexec
    · rename_i bno hspilling
      cases hexec
      obtain ⟨ho', hc'⟩ := spillDone_sound ho hc hspilling
      exact ⟨ho', hc', nofun⟩
    · cases hexec
  | resume bno =>
    unfold exec at hexec
    simp only at hexec
    split at hexec
    · rename_i hin
      cases hexec
      obtain ⟨ho', hc'⟩ := resume_sound ho hc hin hmeets
      exact ⟨ho', hc', nofun⟩
    · cases hexec
  | write bno data =>
    unfold exec at hexec
    simp only at hexec
    split at hexec
    · rename_i hheld
      cases hexec
      obtain ⟨ho', hc'⟩ := write_sound ho hc hheld data
      exact ⟨ho', hc', nofun⟩
    · cases hexec

end

end Steps

/-!
## Runs
-/

def exhausted : BlockSys where
  fs := { sIsize := 2, sFsize := 4, sNfree := 0, sFree := fun _ => 0, sFlock := 0, sTfree := 0 }
  disk := fun _ => { dfNfree := 1, dfFree := fun _ => 3 }
  holder := .nobody
  freeing := ∅
  held := {2, 3}

theorem exhausted_start : Start exhausted := by
  have hnone : ∀ b, ¬ exhausted.IsFree b := by
    rintro b ⟨hlo, hhi, hheld, _⟩
    have hlo : 2 ≤ b := hlo
    have hhi : b < 4 := hhi
    refine hheld ?_
    change b ∈ ({2, 3} : Finset Nat)
    rw [Finset.mem_insert, Finset.mem_singleton]
    omega
  refine ⟨⟨by decide, rfl, by decide, by decide, nofun⟩, ?_, rfl, rfl⟩
  exact Chained.of_list (l := []) (by decide) (.inl ⟨rfl, rfl⟩) nodup_nil
    (fun b => iff_of_false not_mem_nil (hnone b)) rfl

/-- A call frees a block and sleeps for its old buffer; meanwhile the list runs out. -/
def stranded : BlockSys := ((exhausted.blkfree 2 true).blkalloc.1).resume 2

theorem stranded_reachable : Reachable Start Step stranded := by
  have hfreed : Reachable Start Step (exhausted.blkfree 2 true) :=
    (Reachable.start exhausted_start).next (e := .blkfree 2 true) ⟨none, rfl⟩
  have hempty : Reachable Start Step (exhausted.blkfree 2 true).blkalloc.1 :=
    hfreed.next (e := .blkalloc) ⟨some .noSpace, rfl⟩
  exact hempty.next (e := .resume 2) ⟨none, rfl⟩

end BlockSys

end S5
end Svr4
