import Svr4.Elf.Sessions

/-!
# Dependable files

A file that is fit is read safely, with the same result whether it is cooked or frozen, and when
it cannot be cooked it stays so.
-/

namespace Svr4
namespace Elf

open ByteOrder

/-!
## Files that are given up at once
-/

section Short

variable {w : World} {s : State}

theorem ehdr_short (hmemory : ∀ n, w.enough n = true) (hnone : s.elf.edEhdr = none)
    (halloc : s.elf.ehalloc = false) (hpos : s.elf.edVersion ≠ 0)
    (hshort : s.elf.edFsz < 52 ∨ s.elf.edVersion ≠ 1) (inplace : Bool) :
    ∃ u, ehdr w inplace s = (u, false) ∧ u.elf = s.elf ∧ u.mem = s.mem ∧ u.fault = s.fault := by
  by_cases hver : s.elf.edVersion = 1
  · have hsize : s.elf.edFsz < 52 := hshort.resolve_right (not_not_intro hver)
    have hfsize : elf32_fsize .ehdr 1 s.elf.edVersion = 52 := by
      rw [hver]
      rfl
    refine ⟨s, ?_, rfl, rfl, rfl⟩
    unfold ehdr
    rw [hfsize]
    exact if_pos hsize
  · have hcurrent : EV_CURRENT = 1 := rfl
    have hbig : s.elf.edVersion - 1 ≥ EV_CURRENT := by omega
    have hfsize : elf32_fsize .ehdr 1 s.elf.edVersion = 0 := if_pos (.inr hbig)
    have hreuse : (inplace && decide (0 ≥ ElfType.ehdr.memsz)) = false := Bool.and_false _
    obtain ⟨t, ht⟩ : ∃ t : State, t = { s with
      brk := s.brk + max ElfType.ehdr.memsz 1, blocks := (s.brk, ElfType.ehdr.memsz) :: s.blocks } :=
      ⟨_, rfl⟩
    have hsettle : settle w false s.elf.edIdent ElfType.ehdr.memsz s = some (t, s.brk) := by
      have hmalloc : malloc w ElfType.ehdr.memsz s = (t, some s.brk) := by
        rw [ht]
        exact if_pos (hmemory _)
      unfold settle
      rw [if_neg Bool.noConfusion, hmalloc]
    obtain ⟨v, hv⟩ : ∃ v : State, v = { t with
      elf := { t.elf with edEhdr := some s.brk, ehalloc := true } } := ⟨_, rfl⟩
    have hread : readEhdr w 0 s.brk v = (badEhdr v, false) := by
      unfold readEhdr
      split
      · have hxlate : (elf32_xlatetom w ⟨s.brk, ElfType.ehdr.code, ElfType.ehdr.memsz, EV_CURRENT⟩
            ⟨v.elf.edIdent, ElfType.ehdr.code, 0, v.elf.edVersion⟩ v) = (v, none) := by
          have hvver : v.elf.edVersion = s.elf.edVersion := by rw [hv, ht]
          unfold elf32_xlatetom xlate
          dsimp only
          rw [hvver]
          split
          · rfl
          · rename_i o heq
            split at heq
            · cases heq
            · rw [if_pos (.inr (.inr (.inr hbig)))] at heq
              cases heq
        rw [hxlate]
      · rfl
    have hbad : (badEhdr v).elf = s.elf ∧ (badEhdr v).mem = s.mem ∧
        (badEhdr v).fault = s.fault := by
      unfold badEhdr
      rw [hv, ht]
      refine ⟨?_, rfl, rfl⟩
      rw [← hnone, ← halloc]
      rfl
    refine ⟨badEhdr v, ?_, hbad⟩
    unfold ehdr
    rw [hfsize, if_neg (Nat.not_lt_zero _)]
    dsimp only
    rw [hreuse, hsettle]
    change readEhdr w 0 s.brk { t with
      elf := { t.elf with edEhdr := some s.brk, ehalloc := t.elf.ehalloc || true } } = _
    rw [Bool.or_true, ← hv, hread]

end Short

/-!
## The two ways
-/

section Ways

variable {w : World} {s t : State}

/-- Where the headers are looked for, cooked or frozen, and again when that has failed. -/
structure Start (w : World) (s t : State) (inplace : Bool) (base : Nat) (t₀ : State) : Prop where
  cook : elf_cook w t = cookHeaders w inplace t₀
  again : ∀ u, u.elf = t₀.elf → elf_cook w u = cookHeaders w inplace u
  elf : ∃ memoff, t₀.elf = { s.elf with
    edIdent := base, edMemoff := memoff, edStatus := if inplace then .fresh else .frozen }
  image : w.edImage ≤ base ∧ base + s.file.fsz ≤ w.edImage + w.edImagesz
  raw : ∀ x < s.file.fsz, t₀.mem (base + x) = s.file.raw x
  brk : w.edImage + w.edImagesz ≤ t₀.brk
  fault : t₀.fault = false

theorem cook_fresh {u v : State} (hstatus : u.elf.edStatus = .fresh) (hread : u.elf.edRead = true)
    (hkind : u.elf.edKindElf = true) (hslide : slide w u = (v, true))
    (hv : v.elf.edStatus = .fresh) : elf_cook w u = cookHeaders w true v := by
  unfold elf_cook
  rw [if_neg (by rw [hstatus, hread, hkind]; simp)]
  rw [if_pos hstatus, hslide]
  rw [if_neg Bool.noConfusion, hv]
  rfl

theorem start_fresh (h : Opened w s) : ∃ base t₀, Start w s s true base t₀ := by
  obtain ⟨t₀, base, memoff, hslide, helf, himage, hraw, hbrk, _, hfault, haligned⟩ := slide_ok h
  have hstatus : t₀.elf.edStatus = .fresh := by
    rw [helf]
    exact h.edStatus
  have hread : t₀.elf.edRead = true := by
    rw [helf]
    exact h.edRead
  have hkind : t₀.elf.edKindElf = true := by
    rw [helf]
    exact h.edKindElf
  refine ⟨base, t₀, cook_fresh h.edStatus h.edRead h.edKindElf hslide hstatus, fun u hu => ?_,
    ⟨memoff, ?_⟩, himage, hraw, by rw [hbrk]; exact h.brk, hfault⟩
  · -- a second slide finds the file aligned
    have hagain : slide w u = (u, true) := by
      unfold slide
      rw [hu, helf]
      rcases haligned with hnone | haligned
      · rw [hnone]
      · cases s.elf.edParent with
        | none => rfl
        | some fsz => exact if_pos haligned
    exact cook_fresh (by rw [hu]; exact hstatus) (by rw [hu]; exact hread)
      (by rw [hu]; exact hkind) hagain (by rw [hu]; exact hstatus)
  · rw [helf, ← h.edStatus]
    rfl

theorem cook_frozen {u : State} (hstatus : u.elf.edStatus = .frozen) (hread : u.elf.edRead = true)
    (hkind : u.elf.edKindElf = true) : elf_cook w u = cookHeaders w false u := by
  have hslid : (if u.elf.edStatus = .fresh then slide w u else (u, true)) = (u, true) :=
    if_neg (by rw [hstatus]; simp)
  unfold elf_cook
  rw [if_neg (by rw [hstatus, hread, hkind]; simp), hslid]
  rw [if_neg Bool.noConfusion, hstatus]
  rfl

theorem start_frozen (h : Opened w s) : Start w s s.frozen false s.elf.edIdent s.frozen :=
  ⟨cook_frozen rfl h.edRead h.edKindElf,
    fun u hu => cook_frozen (by rw [hu]; rfl) (by rw [hu]; exact h.edRead)
      (by rw [hu]; exact h.edKindElf),
    ⟨s.elf.edMemoff, rfl⟩, h.image, fun _ _ => rfl, h.brk, h.fault⟩

end Ways

/-!
## What is fit
-/

section Fit

variable {w : World} {s t t₀ : State} {inplace : Bool} {base : Nat}

theorem session_short (h : Opened w s) (hmemory : ∀ n, w.enough n = true)
    (hstart : Start w s t inplace base t₀)
    (hshort : s.file.fsz < 52 ∨ s.file.version ≠ 1) (is : List Nat) :
    (session w is t).1.fault = false ∧ (session w is t).2 = (false, is.map fun _ => false) ∧
      (session w is t).1.view = ⟨none, none, none, []⟩ ∧
      ((elf_cook w t).1.elf.edEhdr = none ∧ (elf_cook w t).1.elf.edPhdr = none ∧
        (elf_cook w t).1.elf.edShdr = none) ∧ (elf_cook w (elf_cook w t).1).2 = false := by
  obtain ⟨memoff, helf⟩ := hstart.elf
  have hpos : s.elf.edVersion ≠ 0 := by
    have hmax : 1 ≤ max 1 (s.mem (s.elf.edIdent + 6)).toNat := Nat.le_max_left _ _
    rw [h.edVersion]
    omega
  have hfails : ∀ v : State, v.elf = t₀.elf → ∃ u, cookHeaders w inplace v = (u, false) ∧
      u.elf = t₀.elf ∧ u.fault = v.fault := by
    intro v hv
    obtain ⟨u, hehdr, huelf, _, hufault⟩ := ehdr_short (s := v) hmemory
      (by rw [hv, helf]; exact h.edEhdr) (by rw [hv, helf]; exact h.ehalloc)
      (by rw [hv, helf]; exact hpos) (by rw [hv, helf]; exact hshort) inplace
    refine ⟨u, ?_, huelf.trans hv, hufault⟩
    unfold cookHeaders
    rw [hehdr]
    exact if_pos rfl
  obtain ⟨u, hcook, huelf, hufault⟩ := hfails t₀ rfl
  have hcook' : elf_cook w t = (u, false) := hstart.cook.trans hcook
  have hscn : u.elf.edHdscn = [] := by
    rw [huelf, helf]
    exact h.edHdscn
  have hrequests : requests w is u = (u, is.map fun _ => false) := by
    induction is with
    | nil => rfl
    | cons i is ih =>
      have hget : elf_getdata w i u = (u, false) := by
        unfold elf_getdata
        rw [hscn]
        rfl
      unfold requests
      rw [hget]
      dsimp only
      rw [ih]
      rfl
  have hehdr : u.elf.edEhdr = none := by
    rw [huelf, helf]
    exact h.edEhdr
  have hphdr : u.elf.edPhdr = none := by
    rw [huelf, helf]
    exact h.edPhdr
  have hshdr : u.elf.edShdr = none := by
    rw [huelf, helf]
    exact h.edShdr
  have hsession : session w is t = (u, false, is.map fun _ => false) := by
    unfold session
    dsimp only
    rw [hcook', hrequests]
  rw [hsession, hcook']
  refine ⟨hufault.trans hstart.fault, rfl, ?_, ⟨hehdr, hphdr, hshdr⟩, ?_⟩
  · unfold State.view
    rw [hehdr, hphdr, hshdr, hscn]
    rfl
  · obtain ⟨v, hagain, _⟩ := hfails u huelf
    rw [hstart.again u huelf, hagain]

theorem session_accepted (h : Opened w s) (hsane : Sane w s.file base)
    (hacc : s.file.Accepted) (hversion : s.file.version = 1)
    (hstart : Start w s t inplace base t₀) (is : List Nat) : (session w is t).1.fault = false ∧
      (session w is t).2 = (true, is.map fun i => decide (s.file.Ok i)) ∧
      (session w is t).1.view = s.file.view w.host (ask is fun _ => false) ∧
      (elf_cook w t).2 = true := by
  obtain ⟨memoff, helf⟩ := hstart.elf
  have hbegun : Begun s.file base t₀.elf := by
    rw [helf]
    exact ⟨rfl, rfl, rfl, hversion⟩
  have hkept := kept_start hsane hstart.raw hstart.brk hstart.fault
  obtain ⟨u, place, hcook, hu⟩ := cookHeaders_ok hsane hacc hkept hbegun
    (by rw [helf]; exact h.edPhdr) (by rw [helf]; exact h.edPhdrsz) (by rw [helf]; exact h.edShdr)
    (by rw [helf]; exact h.edHdscn) inplace (by
      rw [helf]
      cases inplace with
      | true => exact .inl rfl
      | false => exact .inr (by simp))
  obtain ⟨v, place', hrequests, hv⟩ := requests_ok hsane hu is
  have hcook' : elf_cook w t = (u, true) := hstart.cook.trans hcook
  have hsession : session w is t = (v, true, is.map fun i => decide (s.file.Ok i)) := by
    unfold session
    dsimp only
    rw [hcook', hrequests]
  rw [hsession, hcook']
  exact ⟨hv.kept.fault, rfl, hv.view, rfl⟩

end Fit

/-!
## Two files
-/

section Files

def headerFile (version : UInt8) : State where
  mem := fun x =>
    ([0x7f, 0x45, 0x4c, 0x46, 1, 1, 1, 0, 0, 0, 0, 0, 0, 0, 0, 0, 2, 0, 3, 0, version] :
      List UInt8).getD (x - 16) 0
  brk := 128
  blocks := []
  fault := false
  elf :=
    { edParent := none
      edMemoff := 0
      edStatus := .fresh
      edIdent := 16
      edFsz := 52
      edEncode := 1
      edVersion := 1
      edKindElf := true
      edRead := true
      edEhdr := none
      edPhdr := none
      edPhdrsz := 0
      edShdr := none
      ehalloc := false
      phalloc := false
      shalloc := false
      edHdscn := [] }

def pc : World := ⟨.little, 16, 52, fun _ => true⟩

theorem headerFile_opened (version : UInt8) : Opened pc (headerFile version) := by
  refine ⟨rfl, rfl, rfl, ?_, ?_, nofun, rfl, rfl, rfl, rfl, rfl, rfl, rfl, rfl, rfl, rfl, ?_, rfl⟩
  · change 16 ≤ 52
    decide
  · change 16 ≤ 16 ∧ 16 + 52 ≤ 16 + 52
    decide
  · change 16 + 52 ≤ 128
    decide

end Files

end Elf
end Svr4
