import Svr4.Elf.Cook
import Svr4.Elf.Translation

/-!
# Parts of a file

The headers and the data of the sections, as they lie in the file.  A part is translated once,
within the image or into a block of its own, and as long as no part lies over one that is
translated within the image, each translation leaves all the other parts as they are.
-/

namespace Svr4
namespace Elf

open Function ByteOrder List

/-!
## What a file says
-/

/-- The bytes of a file, with what `elf_begin` reads from `e_ident`. -/
structure File where
  raw : Mem
  fsz : Nat
  encode : Nat
  version : Nat

namespace File

variable (f : File)

def order : Order := dataOrder (f.encode - 1)

def half (a : Nat) : Nat := load f.raw f.order 2 a

def word (a : Nat) : Nat := load f.raw f.order 4 a

def phoff : Nat := f.word 28

def shoff : Nat := f.word 32

def phnum : Nat := f.half 44

def shnum : Nat := f.half 48

def shWord (i k : Nat) : Nat := f.word (f.shoff + (i * 40 + k))

end File

inductive Part where
  | ehdr
  | phdr
  | shdr
  | data (i : Nat)
deriving DecidableEq

namespace Part

def type (f : File) : Part → ElfType
  | .ehdr => .ehdr
  | .phdr => .phdr
  | .shdr => .shdr
  | .data i => elf32_mtype (f.shWord i 4)

def off (f : File) : Part → Nat
  | .ehdr => 0
  | .phdr => f.phoff
  | .shdr => f.shoff
  | .data i => f.shWord i 16

def len (f : File) : Part → Nat
  | .ehdr => 52
  | .phdr => 32 * f.phnum
  | .shdr => 40 * f.shnum
  | .data i => f.shWord i 20

/-- The entries of a section have the size that its type needs, or none is given. -/
def Entries (f : File) (i : Nat) : Prop :=
  elf32_mtype (f.shWord i 4) ≠ .byte → f.shWord i 36 > 1 →
    f.shWord i 36 = (elf32_mtype (f.shWord i 4)).filesz

def Present (f : File) : Part → Prop
  | .ehdr => True
  | .phdr => f.phnum ≠ 0
  | .shdr => f.shnum ≠ 0
  | .data i =>
    i ≠ 0 ∧ i < f.shnum ∧ f.shWord i 4 ≠ SHT_NOBITS ∧ f.shWord i 16 ≠ 0 ∧ f.shWord i 20 ≠ 0 ∧
      Entries f i ∧ f.shWord i 16 < 2 ^ 31 ∧ f.shWord i 16 < f.fsz ∧
      f.shWord i 20 ≤ f.fsz - f.shWord i 16

/-- The parts that are translated within the image when it is not frozen. -/
def Rewritten (f : File) (p : Part) : Prop :=
  p.off f % (p.type f).align = 0 ∧ p.type f ≠ .byte

def size (f : File) (p : Part) : Nat := (p.type f).filesz * (p.len f / (p.type f).filesz)

theorem size_le (f : File) (p : Part) : p.size f ≤ p.len f := Nat.mul_div_le _ _

end Part

/-- The bytes of a translated part at some address. -/
def Holds (host : Order) (f : File) (p : Part) (m : Mem) (a : Nat) : Prop :=
  ∀ x < p.size f, m (a + x) = f.raw (p.off f + (p.type f).carry host f.order x)

/-!
## Moves
-/

variable {n a k b ds : Nat}

section Moves

variable {host : Order} {dst src : ElfData} {encode work : Nat} {t : ElfType}

theorem run_outside {d y : Nat} {mvs : List Move}
    (h : ∀ mv ∈ mvs, d ≤ mv.dst ∧ mv.dst + mv.size ≤ d + n) (hy : ¬ (d ≤ y ∧ y < d + n)) (m : Mem) :
    mvs.foldl Move.run m y = m y := by
  induction mvs generalizing m with
  | nil => rfl
  | cons mv mvs ih =>
    rw [foldl_cons, ih fun mv' hmv' => h mv' (mem_cons_of_mem _ hmv')]
    obtain ⟨hlo, hhi⟩ := h mv mem_cons_self
    cases mv with
    | number a b k put get =>
      change d ≤ a at hlo
      change a + k ≤ d + n at hhi
      exact if_neg (by omega)
    | copy a b k =>
      change d ≤ a at hlo
      change a + k ≤ d + n at hhi
      exact if_neg (by omega)

theorem outcome_places : ∀ mv ∈ (outcome work host dst src encode false t).moves,
    ∃ o, mv.dst = dst.dBuf + o ∧ mv.src = src.dBuf + o ∧
      o + mv.size ≤ (outcome work host dst src encode false t).dSize := by
  intro mv hmv
  unfold outcome at hmv ⊢
  split at hmv
  · rename_i hsame
    rw [if_pos hsame]
    split at hmv
    · rw [mem_singleton.mp hmv]
      exact ⟨0, rfl, rfl, Nat.le_of_eq (Nat.zero_add _)⟩
    · cases hmv
  · rename_i hother
    rw [if_neg hother]
    change mv ∈ (if src.dSize / t.filesz ≠ 0 then _ else []) at hmv
    split at hmv
    · obtain ⟨o, hdst, hsrc, hle⟩ := x32_places mv hmv
      exact ⟨o, hdst, hsrc, by rw [Nat.mul_comm] at hle; exact hle⟩
    · cases hmv

theorem outcome_inPlace (hplace : dst.dBuf = src.dBuf) (h : work = encode ∨ t = .byte) :
    (outcome work host dst src encode false t).moves = [] := by
  unfold outcome
  split
  · exact if_neg (by simp [hplace])
  · rename_i hother
    rcases h with hsame | rfl
    · exact absurd hsame hother
    · split
      · exact if_neg (by simp [hplace])
      · rfl

end Moves

/-!
## Members
-/

theorem load_carried {host enc : Order} {m raw : Mem} {off i : Nat} {t : ElfType} {kind : Kind}
    (hp : (kind, i) ∈ t.placed) (hkind : kind ≠ .ident)
    (hread : ∀ x < n, m (a + x) = raw (off + t.carry host enc x))
    (hle : k * t.filesz + i + kind.size ≤ n) : load m host kind.size (a + (k * t.filesz + i)) =
      load raw enc kind.size (off + (k * t.filesz + i)) := by
  refine value_congr fun j hj => ?_
  have hplace : host.place kind.size j < kind.size := Order.place_lt hj
  have hperm : kind.perm host enc (host.place kind.size j) = enc.place kind.size j := by
    cases kind with
    | ident => exact absurd rfl hkind
    | _ => exact congrArg (enc.place _) (Order.place_place hj)
  rw [Nat.add_assoc, hread _ (by omega), carry_element hp hplace, hperm, Nat.add_assoc off]

/-!
## Translation of a part
-/

/-- The places of the file in the image, and the lengths and places that its parts have there. -/
structure Sane (w : World) (f : File) (base : Nat) : Prop where
  memory : ∀ n, w.enough n = true
  encode : f.encode = 1 ∨ f.encode = 2
  image : w.edImage ≤ base ∧ base + f.fsz ≤ w.edImage + w.edImagesz
  bound : ∀ p : Part, p.Present f → p.off f + p.len f ≤ f.fsz
  /-- What is copied consists of elements. -/
  whole : f.encode = elfVersionEncode w.host → ∀ p : Part, p.Present f → p.size f = p.len f
  /-- What is translated within the image is a part of nothing else. -/
  apart : f.encode ≠ elfVersionEncode w.host → ∀ p q : Part, p.Present f → q.Present f → p ≠ q →
    p.Rewritten f → p.off f + p.len f ≤ q.off f ∨ q.off f + q.len f ≤ p.off f

/-- Where the parts are that have been translated, and that the others are as in the file. -/
structure Kept (w : World) (f : File) (base : Nat) (place : Part → Option Nat) (s : State) :
    Prop where
  unread : ∀ p : Part, p.Present f → place p = none →
    ∀ x < p.len f, s.mem (base + (p.off f + x)) = f.raw (p.off f + x)
  present : ∀ (p : Part) a, place p = some a → p.Present f
  holds : ∀ (p : Part) a, place p = some a → Holds w.host f p s.mem a
  site : ∀ (p : Part) a, place p = some a →
    a = base + p.off f ∨ (w.edImage + w.edImagesz ≤ a ∧ a + p.size f ≤ s.brk)
  inside : ∀ (p : Part) a, place p = some a → s.Inside w a (p.size f)
  top : w.edImage + w.edImagesz ≤ s.brk
  fault : s.fault = false

/-- Where a part may go: its own place in the image, or a block behind all the others. -/
def Site (w : World) (f : File) (base : Nat) (place : Part → Option Nat) (p : Part) (a : Nat)
    (s : State) : Prop :=
  (a = base + p.off f ∧ p.off f % (p.type f).align = 0) ∨
    (w.edImage + w.edImagesz ≤ a ∧ a + p.size f ≤ s.brk ∧ s.Inside w a (p.size f) ∧
      ∀ q b, place q = some b → w.edImage + w.edImagesz ≤ b → b + q.size f ≤ a)

section Translate

variable {w : World} {f : File} {base : Nat} {place : Part → Option Nat} {s : State}

theorem touch_inside (h : s.Inside w a n) : touch w a n s = s := by
  unfold touch
  rw [decide_eq_true h]
  simp

theorem Inside.sub (h : s.Inside w a n) (hlo : a ≤ b) (hhi : b + k ≤ a + n) : s.Inside w b k := by
  rcases h with h | h | ⟨c, hc, hclo, hchi⟩
  · exact .inl (by omega)
  · exact .inr (.inl (by omega))
  · exact .inr (.inr ⟨c, hc, by omega, by omega⟩)

theorem moves_run {mvs : List Move} (h : ∀ mv ∈ mvs, s.Inside w mv.dst mv.size ∧
    s.Inside w mv.src mv.size) :
    mvs.foldl (step w) s = { s with mem := mvs.foldl Move.run s.mem } := by
  induction mvs generalizing s with
  | nil => rfl
  | cons mv mvs ih =>
    obtain ⟨hdst, hsrc⟩ := h mv mem_cons_self
    have hstep : step w s mv = { s with mem := mv.run s.mem } := by
      unfold step
      rw [touch_inside hsrc, touch_inside hdst]
    rw [foldl_cons, hstep]
    exact ih (s := { s with mem := mv.run s.mem }) fun mv' hmv' =>
      h mv' (mem_cons_of_mem _ hmv')

theorem elfTypes_code (t : ElfType) : elfTypes[t.code]? = some t := by
  cases t <;> rfl

theorem xlate_outcome {host : Order} {encode work : Nat} {t : ElfType}
    (hencode : encode = 1 ∨ encode = 2) (hsize : t.filesz * (n / t.filesz) ≤ ds) :
    xlate work host (some ⟨a, t.code, ds, EV_CURRENT⟩) (some ⟨b, t.code, n, EV_CURRENT⟩)
        encode false =
      .ok (outcome work host ⟨a, t.code, ds, EV_CURRENT⟩ ⟨b, t.code, n, EV_CURRENT⟩ encode
        false t) := by
  have hnum : ELFDATANUM = 3 := rfl
  have hver : EV_CURRENT = 1 := rfl
  unfold xlate outcome
  dsimp only
  rw [if_neg (by omega), if_neg (by omega), elfTypes_code]
  simp only [fmsize_eq, and_true]
  rw [if_neg (Nat.not_lt.mpr hsize)]
  split <;> rfl

theorem Sane.inside (h : Sane w f base) {p : Part} (hp : p.Present f) {o : Nat}
    (hn : o + n ≤ p.len f) : s.Inside w (base + p.off f + o) n := by
  have himage := h.image
  have hbound := h.bound p hp
  exact .inr (.inl (by omega))

theorem Kept.translate (hsane : Sane w f base) (hk : Kept w f base place s) {p : Part}
    (hp : p.Present f) (hnone : place p = none) (hencode : s.elf.edEncode = f.encode)
    (hds : p.size f ≤ ds) (ha : Site w f base place p a s) :
    ∃ u, elf32_xlatetom w ⟨a, (p.type f).code, ds, EV_CURRENT⟩
        ⟨base + p.off f, (p.type f).code, p.len f, EV_CURRENT⟩ s = (u, some (p.size f)) ∧
      u.elf = s.elf ∧ u.brk = s.brk ∧ u.blocks = s.blocks ∧
      Kept w f base (update place p (some a)) u := by
  obtain ⟨o, ho⟩ : ∃ o, o = outcome (elfVersionEncode w.host) w.host
      ⟨a, (p.type f).code, ds, EV_CURRENT⟩ ⟨base + p.off f, (p.type f).code, p.len f, EV_CURRENT⟩
      f.encode false (p.type f) := ⟨_, rfl⟩
  have hxlate : xlate (elfVersionEncode w.host) w.host (some ⟨a, (p.type f).code, ds, EV_CURRENT⟩)
      (some ⟨base + p.off f, (p.type f).code, p.len f, EV_CURRENT⟩) f.encode false = .ok o := by
    rw [ho]
    exact xlate_outcome hsane.encode hds
  have hsize : o.dSize = p.size f := by
    rw [ho, outcome_dSize]
    split
    · rename_i hsame
      exact (hsane.whole hsame.symm p hp).symm
    · rfl
  have himage := hsane.image
  have hbound := hsane.bound p hp
  have hle := p.size_le f
  have hdst : s.Inside w a (p.size f) := by
    rcases ha with ⟨rfl, _⟩ | ⟨_, _, hin, _⟩
    · exact hsane.inside (o := 0) hp (by omega)
    · exact hin
  have hplaces : ∀ mv ∈ o.moves, ∃ d, mv.dst = a + d ∧ mv.src = base + p.off f + d ∧
      d + mv.size ≤ p.size f := by
    rw [← hsize, ho]
    exact outcome_places
  have hmoves : o.moves.foldl (step w) s = { s with mem := o.run s.mem } := by
    refine moves_run fun mv hmv => ?_
    obtain ⟨d, hmvdst, hmvsrc, hd⟩ := hplaces mv hmv
    rw [hmvdst, hmvsrc]
    exact ⟨Inside.sub hdst (by omega) (by omega), hsane.inside hp (by omega)⟩
  -- the bytes of the other parts
  have houtside : ∀ y, ¬ (a ≤ y ∧ y < a + p.size f) → o.run s.mem y = s.mem y := by
    intro y hy
    refine run_outside (fun mv hmv => ?_) hy s.mem
    obtain ⟨d, hmvdst, _, hd⟩ := hplaces mv hmv
    omega
  have hothers : ∀ q : Part, q ≠ p → q.Present f → ∀ y, (base + q.off f ≤ y ∧ y < base + q.off f + q.len f) →
      o.run s.mem y = s.mem y := by
    intro q hne hq y hy
    have hqbound := hsane.bound q hq
    rcases ha with ⟨rfl, halign⟩ | ⟨hend, _, _, _⟩
    · by_cases hstill : elfVersionEncode w.host = f.encode ∨ p.type f = .byte
      · have hnil : o.moves = [] := by
          rw [ho]
          exact outcome_inPlace rfl hstill
        unfold Outcome.run
        rw [hnil]
        rfl
      · have hapart := hsane.apart (fun heq => hstill (.inl heq.symm)) p q hp hq hne.symm
          ⟨halign, fun heq => hstill (.inr heq)⟩
        exact houtside y (by omega)
    · exact houtside y (by omega)
  have hblocks : ∀ (q : Part) b, place q = some b → w.edImage + w.edImagesz ≤ b → ∀ y,
      (b ≤ y ∧ y < b + q.size f) → o.run s.mem y = s.mem y := by
    intro q b hq hb y hy
    refine houtside y ?_
    rcases ha with ⟨rfl, _⟩ | ⟨_, _, _, hbehind⟩
    · omega
    · have := hbehind q b hq hb
      omega
  refine ⟨{ s with mem := o.run s.mem }, ?_, rfl, rfl, rfl, ?_⟩
  · unfold elf32_xlatetom
    rw [hencode, hxlate]
    change (o.moves.foldl (step w) s, some o.dSize) = _
    rw [hmoves, hsize]
  constructor
  · intro q hq hqnone x hx
    have hne : q ≠ p := by
      rintro rfl
      rw [update_self] at hqnone
      cases hqnone
    rw [update_of_ne hne] at hqnone
    change o.run s.mem _ = _
    rw [hothers q hne hq _ (by omega)]
    exact hk.unread q hq hqnone x hx
  · intro q b hq
    by_cases hne : q = p
    · rw [hne]
      exact hp
    · rw [update_of_ne hne] at hq
      exact hk.present q b hq
  · intro q b hq
    by_cases hne : q = p
    · subst hne
      rw [update_self] at hq
      cases hq
      intro x hx
      have hbuf : Buffers a (base + q.off f) (q.len f) := by
        rcases ha with ⟨rfl, _⟩ | ⟨hend, _, _, _⟩
        · exact .inl rfl
        · exact .inr (.inr (by omega))
      have hcarry : (q.type f).carry w.host f.order x < q.len f := by
        have hcnt := hx
        unfold Part.size at hcnt hle
        rw [Nat.mul_comm] at hcnt hle
        exact Nat.lt_of_lt_of_le (carry_lt hcnt) hle
      have hrun : (outcome (elfVersionEncode w.host) w.host ⟨a, (q.type f).code, ds, EV_CURRENT⟩
          ⟨base + q.off f, (q.type f).code, q.len f, EV_CURRENT⟩ f.encode false
          (q.type f)).run s.mem (a + x) =
          s.mem (base + q.off f + (q.type f).carry w.host f.order x) :=
        outcome_run (.inr rfl) hsane.encode rfl hbuf s.mem x hx
      rw [ho]
      refine hrun.trans ?_
      rw [Nat.add_assoc]
      exact hk.unread q hp hnone _ hcarry
    · rw [update_of_ne hne] at hq
      intro x hx
      change o.run s.mem _ = _
      have hqle := q.size_le f
      have hsame : o.run s.mem (b + x) = s.mem (b + x) := by
        rcases hk.site q b hq with rfl | ⟨hb, _⟩
        · exact hothers q hne (hk.present q _ hq) _ (by omega)
        · exact hblocks q b hq hb _ (by omega)
      rw [hsame]
      exact hk.holds q b hq x hx
  · intro q b hq
    by_cases hne : q = p
    · subst hne
      rw [update_self] at hq
      cases hq
      rcases ha with ⟨rfl, _⟩ | ⟨hend, hbrk, _, _⟩
      · exact .inl rfl
      · exact .inr ⟨hend, hbrk⟩
    · rw [update_of_ne hne] at hq
      exact hk.site q b hq
  · intro q b hq
    by_cases hne : q = p
    · subst hne
      rw [update_self] at hq
      cases hq
      exact hdst
    · rw [update_of_ne hne] at hq
      exact hk.inside q b hq
  · exact hk.top
  · exact hk.fault

end Translate

end Elf
end Svr4
