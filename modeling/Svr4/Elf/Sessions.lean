import Svr4.Elf.Cooking

/-!
# Sessions

A file is opened, cooked, and asked for the data of sections, in any order and as often as one
likes.  When the file is fit for it, what is seen depends on the file and on what has been asked
for, and not on where the headers and the data have been put.
-/

namespace Svr4
namespace Elf

open Function ByteOrder Option

/-!
## What is seen
-/

def bytes (m : Mem) (a n : Nat) : List UInt8 := (List.range n).map fun x => m (a + x)

structure Seen where
  dType : ElfType
  dSize : Nat
  dAlign : Nat
  dVersion : Nat
  dBuf : Option (List UInt8)
deriving DecidableEq

/-- The headers, and the data of the sections that are ready. -/
structure View where
  ehdr : Option (List UInt8)
  phdr : Option (List UInt8)
  shdr : Option (List UInt8)
  data : List (Option (Option Seen))
deriving DecidableEq

def Dnode.seen (m : Mem) (d : Dnode) : Option Seen :=
  if d.ready then
    some ⟨d.dType, d.dSize, d.dAlign, d.dVersion, d.dBuf.map fun a => bytes m a d.dSize⟩
  else none

def State.view (s : State) : View where
  ehdr := s.elf.edEhdr.map fun a => bytes s.mem a ElfType.ehdr.memsz
  phdr := s.elf.edPhdr.map fun a => bytes s.mem a s.elf.edPhdrsz
  shdr := s.elf.edShdr.map fun a =>
    bytes s.mem a (ElfType.shdr.memsz * s.elf.edHdscn.length)
  data := s.elf.edHdscn.map fun scn => scn.sHdnode.map (Dnode.seen s.mem)

def requests (w : World) : List Nat → State → State × List Bool
  | [], s => (s, [])
  | i :: is, s =>
    let a := elf_getdata w i s
    let b := requests w is a.1
    (b.1, a.2 :: b.2)

/-- `_elf_cook` and then `elf_getdata` on some sections. -/
def session (w : World) (is : List Nat) (s : State) : State × Bool × List Bool :=
  let c := elf_cook w s
  let r := requests w is c.1
  (r.1, c.2, r.2)

/-!
## Opened files
-/

structure Opened (w : World) (s : State) : Prop where
  edStatus : s.elf.edStatus = .fresh
  edKindElf : s.elf.edKindElf = true
  edRead : s.elf.edRead = true
  ident : 16 ≤ s.elf.edFsz
  image : w.edImage ≤ s.elf.edIdent ∧ s.elf.edIdent + s.elf.edFsz ≤ w.edImage + w.edImagesz
  /-- A member lies behind the header of the archive and its own. -/
  parent : ∀ fsz, s.elf.edParent = some fsz → 60 ≤ s.elf.edMemoff ∧
    s.elf.edIdent = w.edImage + s.elf.edMemoff ∧ s.elf.edMemoff + s.elf.edFsz ≤ fsz
  edEncode : s.elf.edEncode = (s.mem (s.elf.edIdent + 5)).toNat
  edVersion : s.elf.edVersion = max 1 (s.mem (s.elf.edIdent + 6)).toNat
  edEhdr : s.elf.edEhdr = none
  edPhdr : s.elf.edPhdr = none
  edPhdrsz : s.elf.edPhdrsz = 0
  edShdr : s.elf.edShdr = none
  ehalloc : s.elf.ehalloc = false
  phalloc : s.elf.phalloc = false
  shalloc : s.elf.shalloc = false
  edHdscn : s.elf.edHdscn = []
  brk : w.edImage + w.edImagesz ≤ s.brk
  fault : s.fault = false

def State.frozen (s : State) : State := { s with elf := { s.elf with edStatus := .frozen } }

def State.file (s : State) : File :=
  ⟨fun x => s.mem (s.elf.edIdent + x), s.elf.edFsz, s.elf.edEncode, s.elf.edVersion⟩

/-!
## The slide
-/

section Slide

variable {w : World} {s : State}

theorem slide_ok (h : Opened w s) : ∃ t base memoff, slide w s = (t, true) ∧
    t.elf = { s.elf with edIdent := base, edMemoff := memoff } ∧
    (w.edImage ≤ base ∧ base + s.elf.edFsz ≤ w.edImage + w.edImagesz) ∧
    (∀ x < s.elf.edFsz, t.mem (base + x) = s.file.raw x) ∧
    t.brk = s.brk ∧ t.blocks = s.blocks ∧ t.fault = false ∧
    (s.elf.edParent = none ∨ (base - w.edImage) % 4 = 0) := by
  cases hpar : s.elf.edParent with
  | none =>
    refine ⟨s, s.elf.edIdent, s.elf.edMemoff, ?_, rfl, h.image, fun _ _ => rfl, rfl, rfl,
      h.fault, .inl rfl⟩
    unfold slide
    rw [hpar]
  | some fsz =>
    obtain ⟨hmemoff, hident, hfsz⟩ := h.parent fsz hpar
    have himage := h.image
    by_cases haligned : (s.elf.edIdent - w.edImage) % 4 = 0
    · refine ⟨s, s.elf.edIdent, s.elf.edMemoff, ?_, rfl, h.image, fun _ _ => rfl, rfl, rfl,
        h.fault, .inr haligned⟩
      unfold slide
      rw [hpar]
      exact if_pos haligned
    · obtain ⟨sz, hsz⟩ : ∃ sz, sz = (s.elf.edIdent - w.edImage) % 4 := ⟨_, rfl⟩
      obtain ⟨moved, hmoved⟩ : ∃ moved : State, moved = { s with
        elf := { s.elf with
          edIdent := s.elf.edIdent - sz, edMemoff := s.elf.edMemoff - sz } } := ⟨_, rfl⟩
      have hsrc : moved.Inside w s.elf.edIdent s.elf.edFsz := .inr (.inl himage)
      have hdst : moved.Inside w (s.elf.edIdent - sz) s.elf.edFsz := .inr (.inl (by omega))
      obtain ⟨t, ht⟩ : ∃ t : State, t = { moved with
        mem := shuffle id moved.mem (s.elf.edIdent - sz) s.elf.edIdent s.elf.edFsz } := ⟨_, rfl⟩
      have hstep : step w moved (.copy (s.elf.edIdent - sz) s.elf.edIdent s.elf.edFsz) = t := by
        have hmv : ∀ mv ∈ [Move.copy (s.elf.edIdent - sz) s.elf.edIdent s.elf.edFsz],
            moved.Inside w mv.dst mv.size ∧ moved.Inside w mv.src mv.size := by
          intro mv hmv
          rw [List.mem_singleton.mp hmv]
          exact ⟨hdst, hsrc⟩
        rw [ht]
        exact moves_run hmv
      have hvm : elf_vm fsz (s.elf.edMemoff - sz) (sz + s.elf.edFsz) = true :=
        elf_vm_true (by omega) (by omega)
      have hslide : slide w s = (t, true) := by
        unfold slide
        rw [hpar]
        dsimp only
        rw [if_neg haligned, ← hsz, hvm, if_pos rfl, ← hmoved, hstep]
      have hraw : ∀ x < s.elf.edFsz, t.mem (s.elf.edIdent - sz + x) = s.mem (s.elf.edIdent + x) := by
        intro x hx
        have hback : s.elf.edIdent - sz + x - (s.elf.edIdent - sz) = x := by omega
        rw [ht, hmoved]
        change shuffle id s.mem (s.elf.edIdent - sz) s.elf.edIdent s.elf.edFsz _ = _
        unfold shuffle
        rw [if_pos ⟨Nat.le_add_right _ _, by omega⟩, hback]
        rfl
      refine ⟨t, s.elf.edIdent - sz, s.elf.edMemoff - sz, hslide, ?_, by omega, hraw, ?_, ?_, ?_,
        .inr (by omega)⟩
      · rw [ht, hmoved]
      · rw [ht, hmoved]
      · rw [ht, hmoved]
      · rw [ht, hmoved]
        exact h.fault

end Slide

/-!
## Fit files
-/

/-- The files that are given up at once, and those whose headers and sections fit. -/
structure Fit (w : World) (f : File) : Prop where
  memory : ∀ n, w.enough n = true
  headers : f.fsz < 52 ∨ f.version ≠ 1 ∨ f.Accepted ∧
    (f.encode = elfVersionEncode w.host → ∀ i, (Part.data i).Present f →
      f.shWord i 20 % (elf32_mtype (f.shWord i 4)).filesz = 0) ∧
    (f.encode ≠ elfVersionEncode w.host → ∀ p q : Part, p.Present f → q.Present f → p ≠ q →
      p.Rewritten f → p.off f + p.len f ≤ q.off f ∨ q.off f + q.len f ≤ p.off f)

/-- A file that has been cooked, and the sections that have been asked for. -/
structure Cooked (w : World) (f : File) (base : Nat) (asked : Nat → Bool)
    (place : Part → Option Nat) (s : State) : Prop where
  begun : Begun f base s.elf
  kept : Kept w f base place s
  edStatus : s.elf.edStatus ≠ .fresh
  edEhdr : s.elf.edEhdr = place .ehdr ∧ place .ehdr ≠ none
  edPhdr : s.elf.edPhdr = place .phdr ∧ (place .phdr = none ↔ f.phnum = 0) ∧
    s.elf.edPhdrsz = 32 * f.phnum
  edShdr : s.elf.edShdr = place .shdr ∧ (place .shdr = none ↔ f.shnum = 0)
  edHdscn : f.scns ((place .shdr).getD 0) place asked s.elf.edHdscn
  data : ∀ i, place (.data i) ≠ none ↔ asked i = true ∧ (Part.data i).Present f

section Fitness

variable {w : World} {f : File} {base : Nat} {s : State}

theorem sane_of (hmemory : ∀ n, w.enough n = true) (hsize : 52 ≤ f.fsz) (hacc : f.Accepted)
    (hwhole : f.encode = elfVersionEncode w.host → ∀ i, (Part.data i).Present f →
      f.shWord i 20 % (elf32_mtype (f.shWord i 4)).filesz = 0)
    (hapart : f.encode ≠ elfVersionEncode w.host → ∀ p q : Part, p.Present f → q.Present f →
      p ≠ q → p.Rewritten f → p.off f + p.len f ≤ q.off f ∨ q.off f + q.len f ≤ p.off f)
    (himage : w.edImage ≤ base ∧ base + f.fsz ≤ w.edImage + w.edImagesz) : Sane w f base := by
  refine ⟨hmemory, hacc.encode, himage, fun p hp => ?_, fun hsame p hp => ?_, hapart⟩
  · cases p with
    | ehdr =>
      change 0 + 52 ≤ f.fsz
      omega
    | phdr =>
      obtain ⟨_, _, hlt, hle⟩ := hacc.phdr.resolve_left hp
      change f.phoff + 32 * f.phnum ≤ f.fsz
      omega
    | shdr =>
      obtain ⟨_, _, hlt, hle⟩ := hacc.shdr.resolve_left hp
      change f.shoff + 40 * f.shnum ≤ f.fsz
      omega
    | data i =>
      obtain ⟨_, _, _, _, _, _, _, hlt, hle⟩ := hp
      change f.shWord i 16 + f.shWord i 20 ≤ f.fsz
      omega
  · cases p with
    | ehdr => exact size_ehdr f
    | phdr => exact size_phdr f
    | shdr => exact size_shdr f
    | data i => exact Nat.mul_div_cancel' (Nat.dvd_of_mod_eq_zero (hwhole hsame i hp))

theorem kept_start (hsane : Sane w f base) (hraw : ∀ x < f.fsz, s.mem (base + x) = f.raw x)
    (hbrk : w.edImage + w.edImagesz ≤ s.brk) (hfault : s.fault = false) :
    Kept w f base (fun _ => none) s := by
  refine ⟨fun p hp _ x hx => ?_, nofun, nofun, nofun, nofun, hbrk, hfault⟩
  have hbound := hsane.bound p hp
  exact hraw _ (by omega)

theorem cookHeaders_ok (hsane : Sane w f base) (hacc : f.Accepted)
    (hk : Kept w f base (fun _ => none) s) (hb : Begun f base s.elf) (hph : s.elf.edPhdr = none)
    (hphsz : s.elf.edPhdrsz = 0) (hsh : s.elf.edShdr = none) (hscn : s.elf.edHdscn = [])
    (inplace : Bool) (hstatus : inplace = true ∨ s.elf.edStatus ≠ .fresh) :
    ∃ u place, cookHeaders w inplace s = (u, true) ∧ Cooked w f base (fun _ => false) place u := by
  obtain ⟨t, e, hehdr, hkt, htelf⟩ := ehdr_ok hsane hk hb rfl hacc.version inplace
  obtain ⟨place₁, hplace₁⟩ : ∃ place₁ : Part → Option Nat,
    place₁ = update (fun _ => none) .ehdr (some e) := ⟨_, rfl⟩
  rw [← hplace₁] at hkt
  have hbt : Begun f base t.elf := by
    rw [htelf]
    exact ⟨hb.edIdent, hb.edFsz, hb.edEncode, hb.edVersion⟩
  have het : t.elf.edEhdr = some e := by rw [htelf]
  have he₁ : place₁ .ehdr = some e := by
    rw [hplace₁]
    exact update_self _ _ _
  have hother₁ : ∀ p, p ≠ .ehdr → place₁ p = none := by
    intro p hp
    rw [hplace₁, update_of_ne hp]
  have hst : t.elf.edStatus ≠ .fresh := by
    rw [htelf]
    rcases hstatus with rfl | hne
    · simp
    · cases inplace
      · exact hne
      · simp
  -- the program headers, if there are any
  obtain ⟨u, place₂, hphdr, hku, hbu, heu, hphu, hshu, hscnu, hsu, he₂, hphn, hother₂⟩ :
      ∃ u place₂, phdr w inplace t = (u, true) ∧ Kept w f base place₂ u ∧ Begun f base u.elf ∧
        u.elf.edEhdr = some e ∧
        (u.elf.edPhdr = place₂ .phdr ∧ u.elf.edPhdrsz = 32 * f.phnum) ∧
        u.elf.edShdr = none ∧ u.elf.edHdscn = [] ∧ u.elf.edStatus ≠ .fresh ∧
        place₂ .ehdr = some e ∧ (place₂ .phdr = none ↔ f.phnum = 0) ∧
        ∀ p, p ≠ .ehdr → p ≠ .phdr → place₂ p = none := by
    by_cases hzero : f.phnum = 0
    · refine ⟨t, place₁, ?_, hkt, hbt, het, ⟨?_, ?_⟩, ?_, ?_, hst, he₁, ?_, fun p hp _ =>
        hother₁ p hp⟩
      · obtain ⟨hin, hphnum⟩ := hkt.ehdrHalf he₁ 44 (by decide)
        unfold phdr
        rw [het]
        dsimp only [getD_some]
        rw [touch_inside hin, hphnum]
        exact if_pos hzero
      · rw [htelf, hother₁ _ (by decide)]
        exact hph
      · rw [htelf, hzero]
        exact hphsz
      · rw [htelf]
        exact hsh
      · rw [htelf]
        exact hscn
      · exact ⟨fun _ => hzero, fun _ => hother₁ _ (by decide)⟩
    · obtain ⟨u, a, reuse, hphdr, hku, _, huelf⟩ :=
        phdr_ok hsane hkt hbt hacc (hother₁ _ (by decide)) het he₁ hzero inplace
      refine ⟨u, _, hphdr, hku, ?_, ?_, ⟨?_, ?_⟩, ?_, ?_, ?_, ?_, ?_, fun p hp hp' => ?_⟩
      · rw [huelf]
        exact ⟨hbt.edIdent, hbt.edFsz, hbt.edEncode, hbt.edVersion⟩
      · rw [huelf]
        exact het
      · rw [huelf, update_self]
      · rw [huelf]
      · rw [huelf, htelf]
        exact hsh
      · rw [huelf, htelf]
        exact hscn
      · rw [huelf]
        cases reuse
        · exact hst
        · simp
      · rw [update_of_ne (by decide)]
        exact he₁
      · rw [update_self]
        exact ⟨nofun, fun h => absurd h hzero⟩
      · rw [update_of_ne hp']
        exact hother₁ p hp
  have hcook : ∀ {v}, shdr w inplace u = (v, true) → cookHeaders w inplace s = (v, true) := by
    intro v hshdr
    unfold cookHeaders
    rw [hehdr]
    rw [if_neg Bool.noConfusion, hphdr]
    rw [if_neg Bool.noConfusion, hshdr]
    exact if_neg Bool.noConfusion
  by_cases hzero : f.shnum = 0
  · obtain ⟨hin, hshnum⟩ := hku.ehdrHalf he₂ 48 (by decide)
    have hshdr : shdr w inplace u = (u, true) := by
      unfold shdr
      rw [heu]
      dsimp only [getD_some]
      rw [touch_inside hin, hshnum]
      exact if_pos hzero
    refine ⟨u, place₂, hcook hshdr, hbu, hku, hsu, ?_, ⟨hphu.1, hphn, hphu.2⟩, ?_, ?_, fun i => ?_⟩
    · rw [heu, he₂]
      exact ⟨rfl, nofun⟩
    · rw [hshu, hother₂ .shdr (by decide) (by decide)]
      exact ⟨rfl, fun _ => hzero, fun _ => rfl⟩
    · rw [hscnu]
      exact ⟨hzero.symm, fun i hi => absurd hi (by omega)⟩
    · rw [hother₂ _ (by simp) (by simp)]
      simp
  · obtain ⟨v, a, reuse, l, hshdr, hkv, _, hl, hvelf⟩ :=
      shdr_ok hsane hku hbu hacc (hother₂ _ (by decide) (by decide))
        (fun i => hother₂ _ (by simp) (by simp)) heu he₂ hzero inplace
    refine ⟨v, _, hcook hshdr, ?_, hkv, ?_, ?_, ⟨?_, ?_, ?_⟩, ?_, ?_, fun i => ?_⟩
    · rw [hvelf]
      exact ⟨hbu.edIdent, hbu.edFsz, hbu.edEncode, hbu.edVersion⟩
    · rw [hvelf]
      cases reuse
      · exact hsu
      · simp
    · rw [hvelf, update_of_ne (by decide), he₂]
      exact ⟨heu, nofun⟩
    · rw [hvelf, update_of_ne (by decide)]
      exact hphu.1
    · exact hphn
    · rw [hvelf]
      exact hphu.2
    · rw [hvelf, update_self]
      exact ⟨rfl, nofun, fun h => absurd h hzero⟩
    · rw [hvelf, update_self]
      exact hl
    · rw [update_of_ne (by simp), hother₂ _ (by simp) (by simp)]
      simp

end Fitness

/-!
## Requests
-/

variable {i a : Nat} {d : Dnode}

section Requests

variable {w : World} {f : File} {base : Nat} {asked : Nat → Bool} {place : Part → Option Nat}
  {s : State}

theorem scns_modify {sh : Nat} {place' : Part → Option Nat} {asked' : Nat → Bool} {l : List Scn}
    (hl : f.scns sh place asked l) (hi : i ≠ 0) (hd : f.dnode place' asked' i d)
    (hsame : ∀ j, j ≠ i → place' (.data j) = place (.data j) ∧ asked' j = asked j) :
    f.scns sh place' asked' (l.modify i fun scn => { scn with sHdnode := some d }) := by
  refine ⟨(List.length_modify ..).trans hl.1, fun j hj => ?_⟩
  obtain ⟨scn, hscn, hsh, hzero, hdnode⟩ := hl.2 j hj
  by_cases hji : j = i
  · subst hji
    refine ⟨{ scn with sHdnode := some d }, ?_, hsh, fun h0 => absurd h0 hi, fun _ => ⟨d, rfl, hd⟩⟩
    rw [List.getElem?_modify, hscn]
    simp
  · refine ⟨scn, ?_, hsh, hzero, fun h0 => ?_⟩
    · rw [List.getElem?_modify, hscn]
      simp [Ne.symm hji]
    · obtain ⟨d', hd', hspec⟩ := hdnode h0
      refine ⟨d', hd', ?_⟩
      obtain ⟨hplace, hasked⟩ := hsame j hji
      unfold File.dnode at hspec ⊢
      rw [hplace, hasked]
      exact hspec

section

variable (h : Cooked w f base asked place s)
include h

theorem Cooked.same (hi : ¬ f.Ok i ∨ asked i = true) :
    Cooked w f base (update asked i true) place s := by
  refine ⟨h.begun, h.kept, h.edStatus, h.edEhdr, h.edPhdr, h.edShdr, ⟨h.edHdscn.1, fun j hj => ?_⟩,
    fun j => ?_⟩
  · obtain ⟨scn, hscn, hsh, hzero, hdnode⟩ := h.edHdscn.2 j hj
    refine ⟨scn, hscn, hsh, hzero, fun h0 => ?_⟩
    obtain ⟨d, hd, h₁, h₂, h₃, h₄, h₅, h₆, h₇, hready⟩ := hdnode h0
    refine ⟨d, hd, h₁, h₂, h₃, h₄, h₅, h₆, h₇, ?_⟩
    by_cases hji : j = i
    · subst hji
      rw [update_self, hready]
      rcases hi with hok | hasked
      · rw [decide_eq_false hok, Bool.and_false, Bool.and_false]
      · rw [hasked]
    · rw [update_of_ne hji]
      exact hready
  · by_cases hji : j = i
    · subst hji
      rw [update_self, h.data j]
      refine ⟨fun hp => ⟨rfl, hp.2⟩, fun hp => ⟨?_, hp.2⟩⟩
      rcases hi with hok | hasked
      · exact absurd ⟨hp.2.1, hp.2.2.1, .inr (.inr (.inr hp.2))⟩ hok
      · exact hasked
    · rw [update_of_ne hji]
      exact h.data j

theorem Cooked.put (hi : i ≠ 0)
    (hd : f.dnode place asked i d) : Cooked w f base asked place (setDnode i d s) :=
  ⟨⟨h.begun.edIdent, h.begun.edFsz, h.begun.edEncode, h.begun.edVersion⟩, h.kept.elf _, h.edStatus,
    h.edEhdr, h.edPhdr, h.edShdr, scns_modify h.edHdscn hi hd fun _ _ => ⟨rfl, rfl⟩, h.data⟩

theorem Cooked.empty (hi : i ≠ 0) (hok : f.Ok i)
    (hdata : ¬ (Part.data i).Present f) (hd : f.dnode place asked i d) :
    Cooked w f base (update asked i true) place (setDnode i { d with ready := true } s) := by
  obtain ⟨h₁, h₂, h₃, h₄, h₅, h₆, h₇, _⟩ := hd
  refine ⟨⟨h.begun.edIdent, h.begun.edFsz, h.begun.edEncode, h.begun.edVersion⟩, h.kept.elf _,
    h.edStatus, h.edEhdr, h.edPhdr, h.edShdr, scns_modify h.edHdscn hi ⟨h₁, h₂, h₃, h₄, h₅, h₆, h₇,
      ?_⟩ fun j hj => ⟨rfl, update_of_ne hj _ _⟩, fun j => ?_⟩
  · rw [update_self, decide_eq_true hok]
    rfl
  · by_cases hji : j = i
    · subst hji
      rw [h.data j]
      exact ⟨fun hp => absurd hp.2 hdata, fun hp => absurd hp.2 hdata⟩
    · rw [update_of_ne hji]
      exact h.data j

theorem Cooked.ready {u : State} (hi : i ≠ 0)
    (hdata : (Part.data i).Present f) (hd : f.dnode place asked i d)
    (hku : Kept w f base (update place (.data i) (some a)) u) (huelf : u.elf = s.elf)
    {b : Option Nat} :
    Cooked w f base (update asked i true) (update place (.data i) (some a)) (setDnode i { d with
        dBuf := some a, dbBuf := b, dSize := (Part.data i).size f, ready := true } u) := by
  obtain ⟨_, h₂, _, h₄, h₅, h₆, h₇, _⟩ := hd
  have hother : ∀ p : Part, p ≠ .data i → update place (.data i) (some a) p = place p :=
    fun p hp => update_of_ne hp _ _
  have hbegun : Begun f base u.elf := by
    rw [huelf]
    exact h.begun
  refine ⟨⟨hbegun.edIdent, hbegun.edFsz, hbegun.edEncode, hbegun.edVersion⟩, hku.elf _, ?_, ?_, ?_,
    ?_, ?_, fun j => ?_⟩
  · change u.elf.edStatus ≠ _
    rw [huelf]
    exact h.edStatus
  · change u.elf.edEhdr = _ ∧ _
    rw [huelf]
    exact h.edEhdr
  · change u.elf.edPhdr = _ ∧ _ ∧ u.elf.edPhdrsz = _
    rw [huelf]
    exact h.edPhdr
  · change u.elf.edShdr = _ ∧ _
    rw [huelf]
    exact h.edShdr
  · change f.scns _ _ _ (u.elf.edHdscn.modify i _)
    rw [huelf]
    have hok : f.Ok i := ⟨hdata.1, hdata.2.1, .inr (.inr (.inr hdata))⟩
    refine scns_modify h.edHdscn hi ⟨?_, h₂, rfl, h₄, h₅, h₆, h₇, ?_⟩ fun j hj =>
      ⟨hother _ (by simpa using hj), update_of_ne hj _ _⟩
    · rw [update_self]
    · rw [update_self, decide_eq_true hok]
      rfl
  · by_cases hji : j = i
    · subst hji
      rw [update_self, update_self]
      exact ⟨fun _ => ⟨rfl, hdata⟩, fun _ => nofun⟩
    · rw [update_of_ne hji, hother _ (by simpa using hji)]
      exact h.data j

end

section

variable (hsane : Sane w f base) (h : Cooked w f base asked place s)
include hsane h

theorem placeData_ok
    (hd : f.dnode place asked i d) {x : ElfData} (hsrc : x.dBuf = base + (Part.data i).off f) :
    ∃ t a b, placeData w d x s = some (t, { d with dBuf := some a, dbBuf := b }) ∧
      t.elf = s.elf ∧ Kept w f base place t ∧ Site w f base place (.data i) a t := by
  obtain ⟨_, htype, hsize, _, _, hoff, _, _⟩ := hd
  unfold placeData
  by_cases hin : s.elf.edStatus = .cooked ∧ d.dSize ≤ x.dSize ∧ d.dbOff % d.dType.align = 0
  · rw [if_pos hin]
    refine ⟨s, _, d.dbBuf, rfl, rfl, h.kept, .inl ⟨hsrc, ?_⟩⟩
    have haligned := hin.2.2
    rw [hoff, htype] at haligned
    exact haligned
  · rw [if_neg hin, if_neg h.edStatus]
    obtain ⟨t, hmalloc, helf, hkt, hsite⟩ := h.kept.malloc hsane (.data i) (Nat.le_of_eq hsize.symm)
    rw [hmalloc]
    exact ⟨t, s.brk, some s.brk, rfl, helf, hkt, hsite⟩

theorem readData_ok (hi : i ≠ 0)
    (hlen : i < f.shnum) (hd : f.dnode place asked i d) (hready : d.ready = false)
    (hoffzero : d.dbOff ≠ 0) (hfszzero : d.dbFsz ≠ 0) (ha : place .shdr = some a) :
    ∃ u place', readData w i (a + i * 40) d s = (u, decide (f.Ok i)) ∧
      Cooked w f base (update asked i true) place' u := by
  obtain ⟨_, htype, hsize, _, hver, hoff, hfsz, hasked⟩ := hd
  obtain ⟨hin, hentsize⟩ := h.kept.shdrMember ha .word i 36 (by decide) rfl hlen
  have hbits : f.shWord i 4 ≠ SHT_NOBITS := by
    intro hbits
    rw [if_neg (not_not_intro hbits)] at hfsz
    exact hfszzero hfsz
  rw [if_pos hbits] at hfsz
  have hokdata : f.Ok i ↔ (Part.data i).Present f := by
    refine ⟨fun hok => ?_, fun hdata => ⟨hi, hlen, .inr (.inr (.inr hdata))⟩⟩
    rcases hok.2.2 with h0 | h0 | h0 | hdata
    · exact absurd (hoff.trans h0) hoffzero
    · exact absurd h0 hbits
    · exact absurd (hfsz.trans h0) hfszzero
    · exact hdata
  have hd : f.dnode place asked i d := by
    refine ⟨‹_›, htype, hsize, ‹_›, hver, hoff, ?_, hasked⟩
    rw [if_pos hbits]
    exact hfsz
  have hput := h.put hi hd
  unfold readData
  dsimp only
  rw [touch_inside hin, hentsize, h.begun.edVersion, fsize_one, h.begun.edFsz]
  by_cases hent : d.dType ≠ .byte ∧ f.shWord i 36 > 1 ∧ f.shWord i 36 ≠ d.dType.filesz
  · have hok : ¬ f.Ok i := by
      rw [hokdata]
      intro hdata
      have hentries := hdata.2.2.2.2.2.1
      rw [htype] at hent
      exact hent.2.2 (hentries hent.1 hent.2.1)
    rw [if_pos hent, decide_eq_false hok]
    exact ⟨_, place, rfl, hput.same (.inl hok)⟩
  rw [if_neg hent]
  by_cases hbound : d.dbOff ≥ 2 ^ 31 ∨ d.dbOff ≥ f.fsz ∨ f.fsz - d.dbOff < d.dbFsz
  · have hok : ¬ f.Ok i := by
      rw [hokdata]
      rintro ⟨_, _, _, _, _, _, hsigned, hlt, hle⟩
      omega
    rw [if_pos hbound, decide_eq_false hok]
    exact ⟨_, place, rfl, hput.same (.inl hok)⟩
  rw [if_neg hbound]
  have hdata : (Part.data i).Present f := by
    rw [hoff] at hoffzero hbound
    rw [hfsz] at hfszzero hbound
    refine ⟨hi, hlen, hbits, hoffzero, hfszzero, fun hbyte hsz => ?_, by omega, by omega, by omega⟩
    rw [htype] at hent
    by_contra hne
    exact hent ⟨hbyte, hsz, hne⟩
  have hok : f.Ok i := hokdata.mpr hdata
  have hnot : asked i = false := by
    rw [hready, decide_eq_true hok, Bool.and_true] at hasked
    exact hasked.symm
  have hnone : place (.data i) = none := by
    by_contra hne
    have hyes := ((h.data i).mp hne).1
    rw [hnot] at hyes
    cases hyes
  have hvm : elf_vm f.fsz d.dbOff d.dbFsz = true := elf_vm_true (by omega) (by omega)
  rw [hvm, if_neg Bool.noConfusion, h.begun.edIdent, decide_eq_true hok]
  obtain ⟨t, b, b', hplace, htelf, hkt, hsite⟩ := placeData_ok hsane h hd
    (x := ⟨base + d.dbOff, d.dType.code, d.dbFsz, 1⟩) (by rw [hoff]; rfl)
  rw [hplace]
  dsimp only
  obtain ⟨u, hxlate, huelf, _, _, hku⟩ := hkt.translate hsane hdata hnone
    (by rw [htelf]; exact h.begun.edEncode) (Nat.le_of_eq hsize.symm) hsite
  have hxlate' : elf32_xlatetom w ⟨b, d.dType.code, d.dSize, d.dVersion⟩
      ⟨base + d.dbOff, d.dType.code, d.dbFsz, 1⟩ t = (u, some ((Part.data i).size f)) := by
    rw [htype, hver, hoff, hfsz]
    exact hxlate
  rw [getD_some, hxlate']
  exact ⟨_, _, rfl, h.ready hi hdata hd hku (huelf.trans htelf)⟩

theorem getdata_ok (i : Nat) :
    ∃ u place', elf_getdata w i s = (u, decide (f.Ok i)) ∧
      Cooked w f base (update asked i true) place' u := by
  by_cases hlen : i < f.shnum
  swap
  · -- there is no such section
    have hok : ¬ f.Ok i := fun hok => hlen hok.2.1
    refine ⟨s, place, ?_, h.same (.inl hok)⟩
    have hnone : s.elf.edHdscn[i]? = none := by
      rw [List.getElem?_eq_none_iff, h.edHdscn.1]
      exact Nat.not_lt.mp hlen
    unfold elf_getdata
    rw [hnone, decide_eq_false hok]
  obtain ⟨scn, hscn, hsh, hzero, hdnode⟩ := h.edHdscn.2 i hlen
  by_cases h0 : i = 0
  · have hok : ¬ f.Ok i := fun hok => hok.1 h0
    refine ⟨s, place, ?_, h.same (.inl hok)⟩
    unfold elf_getdata
    rw [hscn]
    dsimp only
    rw [hzero h0, decide_eq_false hok]
  obtain ⟨d, hd, hspec⟩ := hdnode h0
  obtain ⟨_, _, _, _, hver, hoff, hfsz, hready⟩ := id hspec
  have hdv : { d with dVersion := EV_CURRENT } = d := by
    cases d
    simp only at hver
    rw [hver]
    rfl
  have hdr : { d with dVersion := EV_CURRENT, ready := true } = { d with ready := true } := by
    rw [hver]
    rfl
  unfold elf_getdata
  rw [hscn]
  dsimp only
  rw [hd]
  dsimp only
  by_cases hr : d.ready = true
  · rw [hr] at hready
    obtain ⟨hasked, hok⟩ := Bool.and_eq_true_iff.mp hready.symm
    rw [if_pos hr, hok]
    exact ⟨s, place, rfl, h.same (.inr hasked)⟩
  rw [if_neg hr]
  by_cases hempty : d.dbOff = 0 ∨ d.dbFsz = 0
  · rw [if_pos hempty]
    have hregion : f.shWord i 16 = 0 ∨ f.shWord i 4 = SHT_NOBITS ∨ f.shWord i 20 = 0 := by
      rcases hempty with h0 | h0
      · exact .inl (hoff.symm.trans h0)
      · rw [hfsz] at h0
        split at h0
        · exact .inr (.inr h0)
        · rename_i hbits
          exact .inr (.inl (not_not.mp hbits))
    have hok : f.Ok i := by
      refine ⟨h0, hlen, ?_⟩
      rcases hregion with h₁ | h₁ | h₁
      · exact .inl h₁
      · exact .inr (.inl h₁)
      · exact .inr (.inr (.inl h₁))
    have hdata : ¬ (Part.data i).Present f := by
      intro hdata
      rcases hregion with h₁ | h₁ | h₁
      · exact hdata.2.2.2.1 h₁
      · exact hdata.2.2.1 h₁
      · exact hdata.2.2.2.2.1 h₁
    rw [decide_eq_true hok, hdr]
    exact ⟨_, place, rfl, h.empty h0 hok hdata hspec⟩
  · rw [if_neg hempty, hsh, hdv]
    obtain ⟨a, ha⟩ : ∃ a, place .shdr = some a := by
      refine ne_none_iff_exists'.mp fun hnone => ?_
      have hnum := h.edShdr.2.mp hnone
      omega
    rw [ha, getD_some]
    exact readData_ok hsane h h0 hlen hspec (Bool.eq_false_iff.mpr hr) (fun h0 => hempty (.inl h0))
      (fun h0 => hempty (.inr h0)) ha

end

end Requests

/-!
## The whole
-/

def File.bytes (host : Order) (f : File) (p : Part) : List UInt8 :=
  (List.range (p.size f)).map fun x => f.raw (p.off f + (p.type f).carry host f.order x)

def File.seen (host : Order) (f : File) (asked : Nat → Bool) (i : Nat) : Option Seen :=
  if asked i && decide (f.Ok i) then
    some ⟨(Part.data i).type f, (Part.data i).size f, f.shWord i 32, 1,
      if (Part.data i).Present f then some (f.bytes host (.data i)) else none⟩
  else none

def File.view (host : Order) (f : File) (asked : Nat → Bool) : View where
  ehdr := some (f.bytes host .ehdr)
  phdr := if f.phnum = 0 then none else some (f.bytes host .phdr)
  shdr := if f.shnum = 0 then none else some (f.bytes host .shdr)
  data := (List.range f.shnum).map fun i => if i = 0 then none else some (f.seen host asked i)

/-- The files are read safely, frozen or not, and one that cannot be cooked stays as it is. -/
structure Dependable (w : World) (s : State) : Prop where
  safe : ∀ t, t = s ∨ t = s.frozen → ∀ is, (session w is t).1.fault = false
  same : ∀ is, (session w is s).2 = (session w is s.frozen).2 ∧
    (session w is s).1.view = (session w is s.frozen).1.view
  again : ∀ t, t = s ∨ t = s.frozen → (elf_cook w t).2 = false →
    ((elf_cook w t).1.elf.edEhdr = none ∧ (elf_cook w t).1.elf.edPhdr = none ∧
      (elf_cook w t).1.elf.edShdr = none) ∧ (elf_cook w (elf_cook w t).1).2 = false

section Whole

variable {w : World} {f : File} {base : Nat} {asked : Nat → Bool} {place : Part → Option Nat}
  {s : State}

def ask (is : List Nat) (asked : Nat → Bool) : Nat → Bool :=
  is.foldl (fun g i => update g i true) asked

theorem requests_ok (hsane : Sane w f base) (h : Cooked w f base asked place s) (is : List Nat) :
    ∃ u place', requests w is s = (u, is.map fun i => decide (f.Ok i)) ∧
      Cooked w f base (ask is asked) place' u := by
  induction is generalizing asked place s with
  | nil => exact ⟨s, place, rfl, h⟩
  | cons i is ih =>
    obtain ⟨t, place₁, hget, ht⟩ := getdata_ok hsane h i
    obtain ⟨u, place₂, hrest, hu⟩ := ih ht
    refine ⟨u, place₂, ?_, hu⟩
    unfold requests
    rw [hget]
    dsimp only
    rw [hrest]
    rfl

theorem Holds.bytes {host : Order} {p : Part} {m : Mem} (h : Holds host f p m a) :
    Elf.bytes m a (p.size f) = f.bytes host p :=
  List.map_congr_left fun x hx => h x (List.mem_range.mp hx)

theorem Cooked.view (h : Cooked w f base asked place s) : s.view = f.view w.host asked := by
  have hbytes : ∀ (p : Part) a, place p = some a → bytes s.mem a (p.size f) = f.bytes w.host p :=
    fun p a hp => (h.kept.holds p a hp).bytes
  have hehdr : s.view.ehdr = some (f.bytes w.host .ehdr) := by
    obtain ⟨a, ha⟩ := ne_none_iff_exists'.mp h.edEhdr.2
    have hsize : ElfType.ehdr.memsz = Part.ehdr.size f := (size_ehdr f).symm
    change s.elf.edEhdr.map (fun a => bytes s.mem a ElfType.ehdr.memsz) = _
    rw [h.edEhdr.1, ha, hsize]
    exact congrArg some (hbytes .ehdr a ha)
  have hphdr : s.view.phdr = if f.phnum = 0 then none else some (f.bytes w.host .phdr) := by
    change s.elf.edPhdr.map _ = _
    rw [h.edPhdr.1]
    by_cases hzero : f.phnum = 0
    · rw [h.edPhdr.2.1.mpr hzero, if_pos hzero]
      rfl
    · obtain ⟨a, ha⟩ := ne_none_iff_exists'.mp (mt h.edPhdr.2.1.mp hzero)
      rw [ha, if_neg hzero, h.edPhdr.2.2, ← size_phdr]
      exact congrArg some (hbytes .phdr a ha)
  have hshdr : s.view.shdr = if f.shnum = 0 then none else some (f.bytes w.host .shdr) := by
    change s.elf.edShdr.map _ = _
    rw [h.edShdr.1, h.edHdscn.1]
    by_cases hzero : f.shnum = 0
    · rw [h.edShdr.2.mpr hzero, if_pos hzero]
      rfl
    · obtain ⟨a, ha⟩ := ne_none_iff_exists'.mp (mt h.edShdr.2.mp hzero)
      have hsize : ElfType.shdr.memsz * f.shnum = Part.shdr.size f := (size_shdr f).symm
      rw [ha, if_neg hzero, hsize]
      exact congrArg some (hbytes .shdr a ha)
  have hdata : s.view.data = (List.range f.shnum).map fun i =>
      if i = 0 then none else some (f.seen w.host asked i) := by
    refine List.ext_getElem? fun i => ?_
    change (s.elf.edHdscn.map _)[i]? = _
    rw [List.getElem?_map, List.getElem?_map]
    by_cases hi : i < f.shnum
    · obtain ⟨scn, hscn, _, hzero, hdnode⟩ := h.edHdscn.2 i hi
      rw [hscn, List.getElem?_range hi]
      refine congrArg some ?_
      change scn.sHdnode.map (Dnode.seen s.mem) =
        if i = 0 then none else some (f.seen w.host asked i)
      by_cases h0 : i = 0
      · rw [hzero h0]
        exact (if_pos h0).symm
      · obtain ⟨d, hd, hbuf, htype, hsize, halign, hver, _, _, hready⟩ := hdnode h0
        rw [hd]
        dsimp only [map_some]
        rw [if_neg h0]
        unfold Dnode.seen File.seen
        rw [hready, htype, hsize, halign, hver, hbuf]
        by_cases hr : (asked i && decide (f.Ok i)) = true
        · have hasked := (Bool.and_eq_true_iff.mp hr).1
          by_cases hp : (Part.data i).Present f
          · obtain ⟨a, ha⟩ := ne_none_iff_exists'.mp ((h.data i).mpr ⟨hasked, hp⟩)
            rw [if_pos hp, ha]
            have hb := hbytes (.data i) a ha
            simp only [map_some, hb]
          · have hnone : place (.data i) = none := by
              by_contra hne
              exact hp ((h.data i).mp hne).2
            rw [if_neg hp, hnone]
            rfl
        · rw [if_neg hr, if_neg hr]
    · have hlen := h.edHdscn.1
      rw [List.getElem?_eq_none (by omega), List.getElem?_eq_none (by simpa using hi)]
      rfl
  change View.mk _ _ _ _ = View.mk _ _ _ _
  rw [← hehdr, ← hphdr, ← hshdr, ← hdata]
  rfl

end Whole

end Elf
end Svr4
