import Svr4.Elf.Parts

/-!
# Cooking a file

The headers and the sections that `_elf_cook` finds in a file that is fit to be cooked, and
the data that `elf_getdata` makes of it, are those of the file, wherever they are put.
-/

namespace Svr4
namespace Elf

open Function ByteOrder List

/-!
## Sections of a file
-/

/-- The headers pass the checks. -/
structure File.Accepted (f : File) : Prop where
  encode : f.encode = 1 ∨ f.encode = 2
  version : f.word 20 = 1
  phdr : f.phnum = 0 ∨ (f.half 42 = 32 ∧ f.phoff ≠ 0 ∧ f.phoff < f.fsz ∧
    32 * f.phnum ≤ f.fsz - f.phoff)
  shdr : f.shnum = 0 ∨ (f.half 46 = 40 ∧ f.shoff ≠ 0 ∧ f.shoff < f.fsz ∧
    40 * f.shnum ≤ f.fsz - f.shoff)

def File.Ok (f : File) (i : Nat) : Prop :=
  i ≠ 0 ∧ i < f.shnum ∧ (f.shWord i 16 = 0 ∨ f.shWord i 4 = SHT_NOBITS ∨ f.shWord i 20 = 0 ∨
    (Part.data i).Present f)

instance (f : File) (i : Nat) : Decidable ((Part.data i).Present f) := by
  unfold Part.Present Part.Entries
  infer_instance

instance (f : File) (i : Nat) : Decidable (f.Ok i) := by
  unfold File.Ok
  infer_instance

/-- The buffer of a section, which may have been asked for. -/
def File.dnode (f : File) (place : Part → Option Nat) (asked : Nat → Bool) (i : Nat) (d : Dnode) :
    Prop :=
  d.dBuf = place (.data i) ∧ d.dType = (Part.data i).type f ∧ d.dSize = (Part.data i).size f ∧
    d.dAlign = f.shWord i 32 ∧ d.dVersion = 1 ∧ d.dbOff = f.shWord i 16 ∧
    d.dbFsz = (if f.shWord i 4 ≠ SHT_NOBITS then f.shWord i 20 else 0) ∧
    d.ready = (asked i && decide (f.Ok i))

/-- The sections of the file, with the section headers at some address. -/
def File.scns (f : File) (sh : Nat) (place : Part → Option Nat) (asked : Nat → Bool)
    (l : List Scn) : Prop :=
  l.length = f.shnum ∧ ∀ i < f.shnum, ∃ scn, l[i]? = some scn ∧ scn.sShdr = sh + i * 40 ∧
    (i = 0 → scn.sHdnode = none) ∧
    (i ≠ 0 → ∃ d, scn.sHdnode = some d ∧ f.dnode place asked i d)

structure Begun (f : File) (base : Nat) (e : Descriptor) : Prop where
  edIdent : e.edIdent = base
  edFsz : e.edFsz = f.fsz
  edEncode : e.edEncode = f.encode
  edVersion : e.edVersion = 1

variable {a n e : Nat}

section Members

variable {w : World} {f : File} {base : Nat} {place : Part → Option Nat} {s : State}

theorem Kept.elf (hk : Kept w f base place s) (e : Descriptor) :
    Kept w f base place { s with elf := e } :=
  ⟨hk.unread, hk.present, hk.holds, hk.site, hk.inside, hk.top, hk.fault⟩

theorem Kept.member (hk : Kept w f base place s) {p : Part} (hp : place p = some a) (kind : Kind)
    (k i : Nat) (hplaced : (kind, i) ∈ (p.type f).placed) (hkind : kind ≠ .ident)
    (hle : k * (p.type f).filesz + i + kind.size ≤ p.size f) :
    s.Inside w (a + (k * (p.type f).filesz + i)) kind.size ∧
      load s.mem w.host kind.size (a + (k * (p.type f).filesz + i)) =
        load f.raw f.order kind.size (p.off f + (k * (p.type f).filesz + i)) :=
  ⟨Inside.sub (hk.inside p a hp) (by omega) (by omega),
    load_carried hplaced hkind (hk.holds p a hp) hle⟩

theorem size_ehdr (f : File) : Part.ehdr.size f = 52 := by
  change 52 * (52 / 52) = 52
  rfl

theorem size_phdr (f : File) : Part.phdr.size f = 32 * f.phnum := by
  change 32 * (32 * f.phnum / 32) = 32 * f.phnum
  rw [Nat.mul_div_cancel_left _ (by decide)]

theorem size_shdr (f : File) : Part.shdr.size f = 40 * f.shnum := by
  change 40 * (40 * f.shnum / 40) = 40 * f.shnum
  rw [Nat.mul_div_cancel_left _ (by decide)]

section

variable (hk : Kept w f base place s) (hp : place .ehdr = some a)
include hk hp

theorem Kept.ehdrMember (kind : Kind)
    (i : Nat) (hplaced : (kind, i) ∈ ElfType.ehdr.placed) (hkind : kind ≠ .ident) :
    s.Inside w (a + i) kind.size ∧
      load s.mem w.host kind.size (a + i) = load f.raw f.order kind.size i := by
  have hle := placed_le ElfType.ehdr _ hplaced
  have h := hk.member hp kind 0 i hplaced hkind (by
    rw [size_ehdr]
    change i + kind.size ≤ 52 at hle
    omega)
  have hzero : 0 * (Part.ehdr.type f).filesz + i = i := by omega
  have hoff : Part.ehdr.off f + (0 * (Part.ehdr.type f).filesz + i) = i := by
    change 0 + _ = i
    omega
  rw [hoff, hzero] at h
  exact h

theorem Kept.ehdrWord (kind : Kind)
    (i : Nat) (hplaced : (kind, i) ∈ ElfType.ehdr.placed) (hsize : kind.size = 4) :
    s.Inside w (a + i) 4 ∧ s.word w (a + i) = f.word i := by
  have hkind : kind ≠ .ident := by
    rintro rfl
    cases hsize
  have h := hk.ehdrMember hp kind i hplaced hkind
  rwa [hsize] at h

theorem Kept.ehdrHalf (i : Nat)
    (hplaced : (Kind.half, i) ∈ ElfType.ehdr.placed) :
    s.Inside w (a + i) 2 ∧ s.half w (a + i) = f.half i :=
  hk.ehdrMember hp .half i hplaced (by decide)

end

theorem Kept.shdrMember (hk : Kept w f base place s) (hp : place .shdr = some a) (kind : Kind)
    (k i : Nat) (hplaced : (kind, i) ∈ ElfType.shdr.placed) (hsize : kind.size = 4)
    (hkn : k < f.shnum) :
    s.Inside w (a + k * 40 + i) 4 ∧ s.word w (a + k * 40 + i) = f.shWord k i := by
  have hle := placed_le ElfType.shdr _ hplaced
  have hkind : kind ≠ .ident := by
    rintro rfl
    cases hsize
  have h := hk.member hp kind k i hplaced hkind (by
    rw [size_shdr]
    change i + kind.size ≤ 40 at hle
    change k * 40 + i + kind.size ≤ _
    omega)
  rw [hsize] at h
  rw [Nat.add_assoc]
  exact h

theorem Kept.malloc (hsane : Sane w f base) (hk : Kept w f base place s) (p : Part)
    (hn : p.size f ≤ n) :
    ∃ t, malloc w n s = (t, some s.brk) ∧ t.elf = s.elf ∧ Kept w f base place t ∧
      Site w f base place p s.brk t := by
  refine ⟨_, if_pos (hsane.memory n), rfl, ?_, ?_⟩
  · refine ⟨hk.unread, hk.present, hk.holds, fun q b hq => ?_, fun q b hq => ?_, ?_, hk.fault⟩
    · rcases hk.site q b hq with h | ⟨h, h'⟩
      · exact .inl h
      · refine .inr ⟨h, ?_⟩
        change b + q.size f ≤ s.brk + max n 1
        omega
    · rcases hk.inside q b hq with h | h | ⟨c, hc, h⟩
      · exact .inl h
      · exact .inr (.inl h)
      · exact .inr (.inr ⟨c, mem_cons_of_mem _ hc, h⟩)
    · have htop := hk.top
      change _ ≤ s.brk + max n 1
      omega
  · refine .inr ⟨hk.top, ?_, .inr (.inr ⟨_, mem_cons_self, Nat.le_refl _, ?_⟩), ?_⟩
    · change s.brk + p.size f ≤ s.brk + max n 1
      omega
    · omega
    · intro q b hq hb
      rcases hk.site q b hq with rfl | ⟨_, h⟩
      · have hbound := hsane.bound q (hk.present q _ hq)
        have himage := hsane.image
        have hle := q.size_le f
        have htop := hk.top
        omega
      · exact h

end Members

/-!
## Cooking
-/

section Cook

variable {w : World} {f : File} {base : Nat} {place : Part → Option Nat} {s : State}

theorem elf_vm_true {fsz b : Nat} (hb : b < fsz) (hn : n ≤ fsz - b) : elf_vm fsz b n = true := by
  unfold elf_vm
  rw [decide_eq_false (by omega), decide_eq_false (by omega)]
  rfl

theorem fsize_one (t : ElfType) : elf32_fsize t 1 1 = t.filesz := by
  unfold elf32_fsize
  rw [if_neg (by decide), Nat.mul_one]

section

variable (hsane : Sane w f base) (hk : Kept w f base place s)
include hsane hk

theorem settle_ok {p : Part} (inplace : Bool)
    (halign : inplace = true → p.off f % (p.type f).align = 0) (hn : p.size f ≤ n) :
    ∃ t a, settle w inplace (base + p.off f) n s = some (t, a) ∧
      t.elf = { s.elf with edStatus := if inplace then .cooked else s.elf.edStatus } ∧
      Kept w f base place t ∧ Site w f base place p a t := by
  cases inplace with
  | true => exact ⟨_, _, rfl, rfl, hk.elf _, .inl ⟨rfl, halign rfl⟩⟩
  | false =>
    obtain ⟨t, hmalloc, helf, hkt, hsite⟩ := hk.malloc hsane p hn
    refine ⟨t, s.brk, ?_, helf, hkt, hsite⟩
    unfold settle
    rw [if_neg Bool.false_ne_true, hmalloc]

theorem ehdr_ok (hb : Begun f base s.elf)
    (hnone : place .ehdr = none) (hversion : f.word 20 = 1) (inplace : Bool) :
    ∃ u a, ehdr w inplace s = (u, true) ∧ Kept w f base (update place .ehdr (some a)) u ∧
      u.elf = { s.elf with
        edEhdr := some a
        edStatus := if inplace then .cooked else s.elf.edStatus
        ehalloc := s.elf.ehalloc || !inplace } := by
  have hfsz : elf32_fsize .ehdr 1 s.elf.edVersion = 52 := by
    rw [hb.edVersion]
    rfl
  have hbound : 52 ≤ f.fsz := by
    have h := hsane.bound .ehdr trivial
    change 0 + 52 ≤ f.fsz at h
    omega
  have hreuse : (inplace && decide (52 ≥ ElfType.ehdr.memsz)) = inplace := Bool.and_true inplace
  obtain ⟨t, a, hsettle, helf, hkt, hsite⟩ :=
    settle_ok hsane hk (p := .ehdr) (n := ElfType.ehdr.memsz) inplace (fun _ => rfl)
      (Nat.le_of_eq (size_ehdr f))
  obtain ⟨t', ht'⟩ : ∃ t', t' = { t with
    elf := { t.elf with edEhdr := some a, ehalloc := t.elf.ehalloc || !inplace } } := ⟨_, rfl⟩
  have hbt : Begun f base t'.elf := by
    rw [ht', helf]
    exact ⟨hb.edIdent, hb.edFsz, hb.edEncode, hb.edVersion⟩
  have hkt' : Kept w f base place t' := by
    rw [ht']
    exact hkt.elf _
  obtain ⟨u, hxlate, huelf, _, _, hku⟩ :=
    hkt'.translate hsane (p := .ehdr) trivial hnone hbt.edEncode
      (Nat.le_of_eq (size_ehdr f)) (by rw [ht']; exact hsite)
  obtain ⟨hin, hword⟩ :=
    hku.ehdrWord (update_self _ _ _) .word 20 (by decide) rfl
  refine ⟨u, a, ?_, hku, ?_⟩
  · unfold ehdr
    rw [hfsz, if_neg (by rw [hb.edFsz]; omega)]
    dsimp only
    rw [hreuse, hb.edIdent]
    change settle w inplace base ElfType.ehdr.memsz s = some (t, a) at hsettle
    rw [hsettle]
    change readEhdr w 52 a { t with
      elf := { t.elf with edEhdr := some a, ehalloc := t.elf.ehalloc || !inplace } } = (u, true)
    change elf32_xlatetom w ⟨a, ElfType.ehdr.code, ElfType.ehdr.memsz, EV_CURRENT⟩
      ⟨base, ElfType.ehdr.code, 52, EV_CURRENT⟩ t' = _ at hxlate
    have hver : t'.elf.edVersion = EV_CURRENT := hbt.edVersion
    have hvm : elf_vm t'.elf.edFsz 0 52 = true := by
      rw [hbt.edFsz]
      exact elf_vm_true (by omega) (by omega)
    rw [← ht']
    unfold readEhdr
    rw [if_pos hvm, hbt.edIdent, hver, hxlate]
    dsimp only
    rw [touch_inside hin, huelf, hver]
    exact if_neg (not_not_intro (hword.trans hversion))
  · rw [huelf, ht', helf]

theorem phdr_ok (hb : Begun f base s.elf)
    (hacc : f.Accepted) (hnone : place .phdr = none) (heh : s.elf.edEhdr = some e)
    (he : place .ehdr = some e) (hzero : f.phnum ≠ 0) (inplace : Bool) :
    ∃ u a reuse, phdr w inplace s = (u, true) ∧
      Kept w f base (update place .phdr (some a)) u ∧ (reuse = true → inplace = true) ∧
      u.elf = { s.elf with
        edPhdr := some a
        edStatus := if reuse then .cooked else s.elf.edStatus
        phalloc := s.elf.phalloc || !reuse
        edPhdrsz := 32 * f.phnum } := by
  obtain ⟨hentsize, hpos, hlt, hle⟩ := hacc.phdr.resolve_left hzero
  have hfsz : elf32_fsize .phdr 1 s.elf.edVersion = 32 := by
    rw [hb.edVersion]
    rfl
  have hmsz : ElfType.phdr.memsz * f.phnum = 32 * f.phnum := rfl
  obtain ⟨hin, hphnum⟩ := hk.ehdrHalf he 44 (by decide)
  obtain ⟨hin', hphentsize⟩ := hk.ehdrHalf he 42 (by decide)
  obtain ⟨hin'', hphoff⟩ := hk.ehdrWord he .off 28 (by decide) rfl
  obtain ⟨reuse, hreuse⟩ : ∃ reuse, reuse =
      (inplace && decide (32 * f.phnum ≥ 32 * f.phnum) && decide (f.phoff % 4 = 0)) := ⟨_, rfl⟩
  have halign : reuse = true → inplace = true ∧ f.phoff % 4 = 0 := by
    rw [hreuse]
    simp
  obtain ⟨t, a, hsettle, helf, hkt, hsite⟩ :=
    settle_ok hsane hk (p := .phdr) (n := 32 * f.phnum) reuse (fun h => (halign h).2)
      (Nat.le_of_eq (size_phdr f))
  obtain ⟨t', ht'⟩ : ∃ t', t' = { t with
    elf := { t.elf with edPhdr := some a, phalloc := t.elf.phalloc || !reuse } } := ⟨_, rfl⟩
  have hbt : Begun f base t'.elf := by
    rw [ht', helf]
    exact ⟨hb.edIdent, hb.edFsz, hb.edEncode, hb.edVersion⟩
  have hkt' : Kept w f base place t' := by
    rw [ht']
    exact hkt.elf _
  obtain ⟨u, hxlate, huelf, _, _, hku⟩ :=
    hkt'.translate hsane (p := .phdr) hzero hnone hbt.edEncode
      (Nat.le_of_eq (size_phdr f)) (by rw [ht']; exact hsite)
  refine ⟨{ u with elf := { u.elf with edPhdrsz := 32 * f.phnum } }, a, reuse, ?_, hku.elf _,
    fun h => (halign h).1, ?_⟩
  · have hphnum' : s.half w (e + 44) = f.phnum := hphnum
    have hphoff' : s.word w (e + 28) = f.phoff := hphoff
    unfold phdr
    rw [heh]
    dsimp only [Option.getD_some]
    rw [touch_inside hin, hphnum', if_neg hzero, touch_inside hin', hphentsize, hfsz,
      if_neg (not_not_intro hentsize), touch_inside hin'', hphoff', hb.edFsz, if_neg (by omega),
      hmsz, ← hreuse, hb.edIdent]
    change settle w reuse (base + f.phoff) (32 * f.phnum) s = some (t, a) at hsettle
    rw [hsettle]
    change readPhdr w f.phoff (32 * f.phnum) (32 * f.phnum) a { t with
      elf := { t.elf with edPhdr := some a, phalloc := t.elf.phalloc || !reuse } } = _
    rw [← ht']
    change elf32_xlatetom w ⟨a, ElfType.phdr.code, 32 * f.phnum, EV_CURRENT⟩
      ⟨base + f.phoff, ElfType.phdr.code, 32 * f.phnum, EV_CURRENT⟩ t' = _ at hxlate
    have hver : t'.elf.edVersion = EV_CURRENT := hbt.edVersion
    have hvm : elf_vm t'.elf.edFsz f.phoff (32 * f.phnum) = true := by
      rw [hbt.edFsz]
      exact elf_vm_true hlt hle
    unfold readPhdr
    rw [if_pos hvm, hbt.edIdent, hver, hxlate]
  · rw [huelf, ht', helf]

end

theorem touchShdr_ok (hk : Kept w f base place s) {i : Nat} (ha : place .shdr = some a)
    (hi : i < f.shnum) : touchShdr w (a + i * 40) s = s := by
  have htype := (hk.shdrMember ha .word i 4 (by decide) rfl hi).1
  have hoff := (hk.shdrMember ha .off i 16 (by decide) rfl hi).1
  have hsize := (hk.shdrMember ha .word i 20 (by decide) rfl hi).1
  have halign := (hk.shdrMember ha .word i 32 (by decide) rfl hi).1
  unfold touchShdr
  rw [touch_inside htype, touch_inside hoff, touch_inside hsize, touch_inside halign]

theorem foldl_same {α β : Type} {g : α → β → α} {x : α} {l : List β} (h : ∀ y ∈ l, g x y = x) :
    l.foldl g x = x := by
  induction l with
  | nil => rfl
  | cons y l ih =>
    rw [foldl_cons, h y mem_cons_self]
    exact ih fun z hz => h z (mem_cons_of_mem _ hz)

theorem cookscn_ok (hsane : Sane w f base) (hk : Kept w f base place s) (hb : Begun f base s.elf)
    (hsh : s.elf.edShdr = some a) (ha : place .shdr = some a) (hzero : f.shnum ≠ 0)
    (hnone : ∀ i, place (.data i) = none) :
    ∃ l, elf_cookscn w f.shnum s = ({ s with elf := { s.elf with edHdscn := l } }, true) ∧
      f.scns a place (fun _ => false) l := by
  have htouch : (List.range f.shnum).foldl
      (fun s i => touchShdr w (s.elf.edShdr.getD 0 + i * ElfType.shdr.memsz) s) s = s := by
    refine foldl_same fun i hi => ?_
    rw [hsh]
    exact touchShdr_ok hk ha (mem_range.mp hi)
  refine ⟨(List.range f.shnum).map (scnInit w s), ?_, ?_, ?_⟩
  · unfold elf_cookscn
    rw [if_neg hzero, if_pos (hsane.memory _)]
    rw [htouch]
  · rw [length_map, length_range]
  · intro i hi
    refine ⟨scnInit w s i, ?_, ?_, fun h0 => ?_, fun h0 => ?_⟩
    · rw [List.getElem?_map, List.getElem?_range hi]
      rfl
    · unfold scnInit
      rw [hsh]
      rfl
    · exact if_pos h0
    · have htype := (hk.shdrMember ha .word i 4 (by decide) rfl hi).2
      have hoff := (hk.shdrMember ha .off i 16 (by decide) rfl hi).2
      have hsize := (hk.shdrMember ha .word i 20 (by decide) rfl hi).2
      have halign := (hk.shdrMember ha .word i 32 (by decide) rfl hi).2
      refine ⟨_, if_neg h0, (hnone i).symm, ?_, ?_, ?_, hb.edVersion, ?_, ?_, rfl⟩
      · rw [hsh]
        exact congrArg elf32_mtype htype
      · change s.word w (s.elf.edShdr.getD 0 + i * 40 + 20) /
          elf32_fsize (elf32_mtype (s.word w (s.elf.edShdr.getD 0 + i * 40 + 4))) 1
            s.elf.edVersion *
          (elf32_mtype (s.word w (s.elf.edShdr.getD 0 + i * 40 + 4))).memsz = _
        rw [hsh, hb.edVersion, fsize_one, memsz_eq, Option.getD_some, htype, hsize, Nat.mul_comm]
        rfl
      · rw [hsh]
        exact halign
      · rw [hsh]
        exact hoff
      · change (if s.word w (s.elf.edShdr.getD 0 + i * 40 + 4) ≠ SHT_NOBITS then
          s.word w (s.elf.edShdr.getD 0 + i * 40 + 20) else 0) = _
        rw [hsh, Option.getD_some, htype, hsize]

theorem shdr_ok (hsane : Sane w f base) (hk : Kept w f base place s) (hb : Begun f base s.elf)
    (hacc : f.Accepted) (hnone : place .shdr = none) (hdata : ∀ i, place (.data i) = none)
    (heh : s.elf.edEhdr = some e) (he : place .ehdr = some e) (hzero : f.shnum ≠ 0)
    (inplace : Bool) : ∃ u a reuse l, shdr w inplace s = (u, true) ∧
      Kept w f base (update place .shdr (some a)) u ∧ (reuse = true → inplace = true) ∧
      f.scns a (update place .shdr (some a)) (fun _ => false) l ∧ u.elf = { s.elf with
        edShdr := some a
        edStatus := if reuse then .cooked else s.elf.edStatus
        shalloc := s.elf.shalloc || !reuse
        edHdscn := l } := by
  obtain ⟨hentsize, hpos, hlt, hle⟩ := hacc.shdr.resolve_left hzero
  have hfsz : elf32_fsize .shdr 1 s.elf.edVersion = 40 := by
    rw [hb.edVersion]
    rfl
  have hmsz : f.shnum * ElfType.shdr.memsz = 40 * f.shnum := Nat.mul_comm _ _
  obtain ⟨hin, hshnum⟩ := hk.ehdrHalf he 48 (by decide)
  obtain ⟨hin', hshentsize⟩ := hk.ehdrHalf he 46 (by decide)
  obtain ⟨hin'', hshoff⟩ := hk.ehdrWord he .off 32 (by decide) rfl
  obtain ⟨reuse, hreuse⟩ : ∃ reuse, reuse =
      (inplace && decide (40 * f.shnum ≥ 40 * f.shnum) && decide (f.shoff % 4 = 0)) := ⟨_, rfl⟩
  have halign : reuse = true → inplace = true ∧ f.shoff % 4 = 0 := by
    rw [hreuse]
    simp
  obtain ⟨t, a, hsettle, helf, hkt, hsite⟩ :=
    settle_ok hsane hk (p := .shdr) (n := 40 * f.shnum) reuse (fun h => (halign h).2)
      (Nat.le_of_eq (size_shdr f))
  obtain ⟨t', ht'⟩ : ∃ t', t' = { t with
    elf := { t.elf with edShdr := some a, shalloc := t.elf.shalloc || !reuse } } := ⟨_, rfl⟩
  have hbt : Begun f base t'.elf := by
    rw [ht', helf]
    exact ⟨hb.edIdent, hb.edFsz, hb.edEncode, hb.edVersion⟩
  have hkt' : Kept w f base place t' := by
    rw [ht']
    exact hkt.elf _
  obtain ⟨v, hxlate, hvelf, _, _, hkv⟩ :=
    hkt'.translate hsane (p := .shdr) hzero hnone hbt.edEncode
      (Nat.le_of_eq (size_shdr f)) (by rw [ht']; exact hsite)
  have hev : update place .shdr (some a) .ehdr = some e := by
    exact he
  obtain ⟨hinv, hshnumv⟩ := hkv.ehdrHalf hev 48 (by decide)
  have hbv : Begun f base v.elf := by
    rw [hvelf]
    exact hbt
  have hshv : v.elf.edShdr = some a := by
    rw [hvelf, ht']
  obtain ⟨l, hcookscn, hl⟩ := cookscn_ok hsane hkv hbv hshv (update_self _ _ _) hzero fun i => by
      rw [update_of_ne (by simp)]
      exact hdata i
  refine ⟨{ v with elf := { v.elf with edHdscn := l } }, a, reuse, l, ?_, hkv.elf _,
    fun h => (halign h).1, hl, ?_⟩
  · have hshnum' : s.half w (e + 48) = f.shnum := hshnum
    have hshoff' : s.word w (e + 32) = f.shoff := hshoff
    have hshnumv' : v.half w (e + 48) = f.shnum := hshnumv
    unfold shdr
    rw [heh]
    dsimp only [Option.getD_some]
    rw [touch_inside hin, hshnum', if_neg hzero, touch_inside hin', hshentsize, hfsz,
      if_neg (not_not_intro hentsize), touch_inside hin'', hshoff', hb.edFsz, if_neg (by omega),
      hmsz, ← hreuse, hb.edIdent]
    change settle w reuse (base + f.shoff) (40 * f.shnum) s = some (t, a) at hsettle
    rw [hsettle]
    change readShdr w e f.shoff (40 * f.shnum) (40 * f.shnum) a { t with
      elf := { t.elf with edShdr := some a, shalloc := t.elf.shalloc || !reuse } } = _
    rw [← ht']
    change elf32_xlatetom w ⟨a, ElfType.shdr.code, 40 * f.shnum, EV_CURRENT⟩
      ⟨base + f.shoff, ElfType.shdr.code, 40 * f.shnum, EV_CURRENT⟩ t' = _ at hxlate
    have hver : t'.elf.edVersion = EV_CURRENT := hbt.edVersion
    have hvm : elf_vm t'.elf.edFsz f.shoff (40 * f.shnum) = true := by
      rw [hbt.edFsz]
      exact elf_vm_true hlt hle
    unfold readShdr
    rw [if_pos hvm, hbt.edIdent, hver, hxlate]
    dsimp only
    rw [touch_inside hinv, hshnumv', hcookscn]
  · rw [hvelf, ht', helf]

end Cook

end Elf
end Svr4
