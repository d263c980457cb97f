import Svr4.S5.Bmap

/-!
# Failures of block allocation

A write that fails has lost blocks if the list of the free blocks was lost, or if a new
block could not be recorded because its indirect block could not be read again.
-/

namespace Svr4
namespace S5

open Function IndexTree

variable {r : Except Errno (Option Nat) × File}

namespace File

/-!
## What may fail
-/

section Conditions

variable (nshift : Nat) (e : Faults) (allocOnly : Bool)

def Taken (d : Nat) (s : BlockSys) : Prop :=
  ∃ nb, (s.allocate (!e.link d)).2 = some (.allocated nb)

/--
Nothing is lost where a block is missing: the link block that an allocation needs can be
read, and so can the indirect block that records a block, unless the inode records it.
-/
def Refunds : Nat → Prop → BlockSys → Prop
  | 0, top, s =>
    ¬ (s.NeedsLink ∧ e.link 0 = true) ∧
    (Taken e 0 s → (allocOnly = false ∧ e.fault = true) ∨ top ∨ e.reread 0 = false)
  | d + 1, top, s =>
    ¬ (s.NeedsLink ∧ e.link (d + 1) = true) ∧
    (Taken e (d + 1) s → (top ∨ e.reread (d + 1) = false) ∧
      (e.read d = true ∨ Refunds d False (s.allocate (!e.link (d + 1))).1))

def Spares (f : File) (bn : Nat) : Nat → Nat → Prop
  | 0, _ => True
  | d + 1, inb =>
    e.read d = true ∨
      if f.words inb (index nshift bn d) ≠ 0 then Spares f bn d (f.words inb (index nshift bn d))
      else Refunds e allocOnly d False f.sys

/-- Nothing is lost in a write of the logical block. -/
def Saves (lbn : Nat) (f : File) : Prop :=
  match slot nshift lbn with
  | none => True
  | some (k, bn) =>
    if f.iAddr k ≠ 0 then Spares nshift e allocOnly f bn (addrLevels k) (f.iAddr k)
    else Refunds e allocOnly (addrLevels k) True f.sys

end Conditions

variable {nshift : Nat} {e : Faults} {allocOnly : Bool} {f f' : File} {t p q : List Nat}
  {d bn inb nb lbn : Nat}

/-!
## Reading
-/

theorem block_cons_of_ne (hp : f.block p ≠ 0) (k : Nat) :
    f.block (k :: p) = f.words (f.block p) k := by
  cases p with
  | nil => exact absurd rfl hp
  | cons j p => exact (block_cons (List.cons_ne_nil j p)).trans (if_neg hp)

theorem block_below_of_hole (hp : At nshift d p) (h : f.block p = 0) :
    f.block (below nshift bn d p) = 0 := by
  induction d generalizing p with
  | zero => exact h
  | succ d ih =>
    rw [below_succ]
    refine ih (Place.entry hp (index_lt bn d)) ?_
    exact (block_cons hp.ne_nil).trans (if_pos h)

theorem fetch_read (he : ∀ d, e.read d = false) (hp : At nshift d p) (hin : f.block p = inb)
    (hne : inb ≠ 0) : (fetch nshift e allocOnly false bn d p inb f).1 =
      .ok (if f.block (below nshift bn d p) = 0 then none
        else some (f.block (below nshift bn d p))) := by
  induction d generalizing p inb with
  | zero =>
    have hblock : f.block (below nshift bn 0 p) = inb := hin
    rw [hblock, if_neg hne]
    rfl
  | succ d ih =>
    have hword := (block_cons_of_ne (hin ▸ hne) (index nshift bn d)).trans
      (congrArg (fun b => f.words b (index nshift bn d)) hin)
    have hq := Place.entry hp (index_lt bn d)
    rw [below_succ]
    unfold fetch
    rw [if_neg (by rw [he d]; exact Bool.false_ne_true)]
    by_cases hzero : f.words inb (index nshift bn d) = 0
    · rw [if_neg (not_not_intro hzero), if_pos rfl,
        if_pos (block_below_of_hole hq (hword.trans hzero))]
    · rw [if_pos hzero]
      exact ih hq hword hzero

/-- Every read of the logical block, in which all blocks can be read, finds this block. -/
def Finds (nshift lbn nb : Nat) (f : File) : Prop :=
  ∀ e allocOnly, (∀ d, e.read d = false) → (f.bmap nshift e allocOnly false lbn).1 = .ok (some nb)

theorem finds_iff : Finds nshift lbn nb f ↔
    nb ≠ 0 ∧ ∃ t, route nshift lbn = some t ∧ f.block t = nb := by
  have hread : ∀ e allocOnly, (∀ d, e.read d = false) → (f.bmap nshift e allocOnly false lbn).1 =
        match route nshift lbn with
        | none => .error .efbig
        | some t => .ok (if f.block t = 0 then none else some (f.block t)) := by
    intro e allocOnly he
    unfold bmap route
    cases hslot : slot nshift lbn with
    | none => rfl
    | some r =>
      rcases r with ⟨k, bn⟩
      have hp := slot_at hslot
      show (if f.iAddr k ≠ 0 then _ else _ : Except Errno (Option Nat) × File).1 = _
      by_cases hzero : f.iAddr k = 0
      · rw [if_neg (not_not_intro hzero), if_pos rfl]
        show _ = Except.ok _
        rw [if_pos (block_below_of_hole hp hzero)]
      · rw [if_pos hzero]
        exact fetch_read he hp rfl hzero
  constructor
  · intro h
    have hfound := h ⟨fun _ => false, fun _ => false, fun _ => false, false, false⟩ false
      fun _ => rfl
    rw [hread _ _ fun _ => rfl] at hfound
    cases hroute : route nshift lbn with
    | none =>
      rw [hroute] at hfound
      cases hfound
    | some t =>
      rw [hroute] at hfound
      dsimp only at hfound
      split at hfound
      · cases hfound
      · rename_i hne
        cases hfound
        exact ⟨hne, t, rfl, rfl⟩
  · rintro ⟨hne, t, hroute, rfl⟩ e allocOnly he
    rw [hread e allocOnly he, hroute]
    dsimp only
    rw [if_neg hne]

/-!
## Writing
-/

theorem loses_of_free (hf : Sound nshift f) (hnb : nb ∈ f.sys.freeBlocks)
    (hsame : ∀ d p, At nshift d p → f'.block p = f.block p) (hgone : ¬ f'.sys.Listed nb) :
    Loses nshift f f' := by
  refine ⟨nb, (BlockSys.listed_iff hf.start).mpr hnb, hgone, fun d p hp => ?_⟩
  rw [hsame d p hp]
  exact (block_of_free hf hnb hp).1

inductive Extended (nshift : Nat) (e : Faults) (allocOnly : Bool) (d : Nat) (q t : List Nat)
    (next : Nat → File → Except Errno (Option Nat) × File) (f : File) :
    Except Errno (Option Nat) × File → Prop where
  | lost {f' : File} (needs : f.sys.NeedsLink ∧ e.link d = true) (loses : Loses nshift f f') :
      Extended nshift e allocOnly d q t next f (.error .enospc, f')
  | full {f' : File} (fine : ¬ (f.sys.NeedsLink ∧ e.link d = true)) (none : ¬ Taken e d f.sys)
      (grows : Grows nshift t f f') : Extended nshift e allocOnly d q t next f (.error .enospc, f')
  | fault {f' : File} (fine : ¬ (f.sys.NeedsLink ∧ e.link d = true)) (data : d = 0)
      (page : allocOnly = false ∧ e.fault = true) (grows : Grows nshift t f f') :
      Extended nshift e allocOnly d q t next f (.error .efault, f')
  | unread {f' : File} (taken : Taken e d f.sys)
      (page : ¬ (d = 0 ∧ allocOnly = false ∧ e.fault = true)) (deep : q.length ≠ 1)
      (bad : e.reread d = true) (loses : Loses nshift f f') :
      Extended nshift e allocOnly d q t next f (.error .eio, f')
  | recorded {f' : File} {nb : Nat} (fine : ¬ (f.sys.NeedsLink ∧ e.link d = true))
      (taken : Taken e d f.sys) (read : q.length = 1 ∨ e.reread d = false)
      (sys : f'.sys = (f.sys.allocate (!e.link d)).1) (grows : Grows nshift t f f')
      (block : f'.block q = nb) (real : nb ≠ 0)
      (rest : ∀ e p, At nshift e p → p ≠ q → f'.block p = f.block p) :
      Extended nshift e allocOnly d q t next f (next nb f')

theorem extend_cases (e : Faults) (allocOnly : Bool) (hf : Sound nshift f) (hq : At nshift d q)
    (hhole : f.block q = 0) (hparent : ∀ k p, q = k :: p → p ≠ [] → f.block p ≠ 0) (ht : q <:+ t)
    (next : Nat → File → Except Errno (Option Nat) × File) :
    Extended nshift e allocOnly d q t next f (extend e allocOnly d q next f) := by
  have hspec := BlockSys.allocate_spec hf.start (!e.link d)
  have hlink : (!e.link d) = false ↔ e.link d = true := by simp
  generalize hrun : f.sys.allocate (!e.link d) = r at hspec
  rcases r with ⟨sys, a⟩
  cases hspec with
  | lost needs bad listed held empty =>
    have hstep : extend e allocOnly d q next f = (.error .enospc, { f with sys := sys }) := by
      unfold extend grab
      rw [hrun]
    rw [hstep]
    exact .lost ⟨needs, hlink.mp bad⟩ (loses_of_free hf ((BlockSys.listed_iff hf.start).mp listed)
      (fun _ _ _ => rfl) (empty _))
  | none start rest held fine =>
    have hstep : extend e allocOnly d q next f = (.error .enospc, { f with sys := sys }) := by
      unfold extend grab
      rw [hrun]
    rw [hstep]
    refine .full (by rwa [hlink] at fine) ?_ (grows_of_sys hf start held rest)
    rintro ⟨nb, hnb⟩
    rw [hrun] at hnb
    cases hnb
  | @block nb start free rest held same fine =>
    have htaken : Taken e d f.sys := ⟨nb, by rw [hrun]⟩
    have hheld : nb ∈ sys.held := held ▸ Finset.mem_insert_self _ _
    have hnot := ((BlockSys.mem_freeBlocks_iff hf.start).mp free).2.2
    rw [hlink] at fine
    by_cases hpage : d = 0 ∧ allocOnly = false ∧ e.fault = true
    · have hstep : extend e allocOnly d q next f =
          (.error .efault, { f with sys := sys.release nb e.incore }) := by
        unfold extend grab
        rw [hrun]
        dsimp only
        rw [if_neg (by omega), if_pos hpage.2]
      rcases BlockSys.release_spec start hheld e.incore with ⟨hs, hback, hlo, hhi⟩
      have hsame : (sys.release nb e.incore).held = f.sys.held := by
        rw [hback, held, Finset.erase_insert hnot]
      rw [hstep]
      refine .fault fine hpage.1 hpage.2 (grows_of_sys hf hs hsame ?_)
      ext b
      rw [BlockSys.mem_freeBlocks_iff hs, BlockSys.mem_freeBlocks_iff hf.start, hsame,
        hlo, hhi, same.isize, same.fsize]
    · generalize hwords : (if 0 < d then update f.words nb (fun _ => 0) else f.words) =
        words
      have hgrab : grab e allocOnly f d = (.ok nb, { f with sys := sys, words := words }) := by
        unfold grab
        rw [hrun, ← hwords]
        dsimp only
        by_cases hpos : 0 < d
        · rw [if_pos hpos, if_pos hpos]
        · rw [if_neg hpos, if_neg hpos, if_neg (fun h => hpage ⟨Nat.eq_zero_of_not_pos hpos, h⟩)]
      by_cases hbad : q.length ≠ 1 ∧ e.reread d = true
      · have hstep : extend e allocOnly d q next f =
            (.error .eio, { f with sys := sys, words := words }) := by
          unfold extend
          rw [hgrab]
          exact if_pos hbad
        rw [hstep]
        refine .unread htaken hpage hbad.1 hbad.2 (loses_of_free hf free (fun d p hp => ?_) ?_)
        · rw [← hwords]
          split
          · exact (block_of_free hf free hp).2
          · rfl
        · rw [BlockSys.listed_iff start, rest]
          exact Finset.notMem_erase _ _
      · have hstep : extend e allocOnly d q next f =
            next nb (File.put { f with sys := sys, words := words } nb q) := by
          unfold extend
          rw [hgrab]
          exact if_neg hbad
        rcases grows_of_put hf start held rest free hwords.symm hq hhole hparent ht with
          ⟨hgrows, hblock, hrest⟩
        rw [hstep]
        refine .recorded fine htaken ?_ (by rw [hrun]; rfl) hgrows hblock
          (BlockSys.ne_zero_of_free hf.start free) hrest
        by_cases htop : q.length = 1
        · exact .inl htop
        · exact .inr (Bool.eq_false_iff.mpr fun h => hbad ⟨htop, h⟩)

/-- The outcome of a write, with the block for the place `t`, and if it is safe. -/
structure Outcome (nshift : Nat) (t : List Nat) (f : File)
    (r : Except Errno (Option Nat) × File) (safe : Prop) : Prop where
  grows : safe → Grows nshift t f r.2
  block : ∀ nb, r.1 = .ok nb → safe ∧ r.2.block t ≠ 0 ∧ nb = some (r.2.block t)
  loses : ¬ safe → Loses nshift f r.2

theorem outcome_error (err : Errno) (h : Grows nshift t f f') {safe : Prop} (hsafe : safe) :
    Outcome nshift t f (.error err, f') safe where
  grows _ := h
  block _ hok := by cases hok
  loses hnot := absurd hsafe hnot

theorem outcome_lost (err : Errno) (h : Loses nshift f f') {safe : Prop} (hsafe : ¬ safe) :
    Outcome nshift t f (.error err, f') safe where
  grows hnot := absurd hnot hsafe
  block _ hok := by cases hok
  loses _ := h

theorem Outcome.after {safe safe' : Prop} (h : Outcome nshift t f' r safe) (hf : Sound nshift f)
    (hgrows : Grows nshift t f f') (hsafe : safe ↔ safe') : Outcome nshift t f r safe' where
  grows hs := hgrows.trans hf (h.grows (hsafe.mpr hs))
  block nb hok := ⟨hsafe.mp (h.block nb hok).1, (h.block nb hok).2⟩
  loses hs := hgrows.loses hf (h.loses fun hnot => hs (hsafe.mp hnot))

/-- A missing block is filled in, with those below it; the induction is on the levels. -/
theorem extend_outcome (e : Faults) (allocOnly : Bool) (bn : Nat) (hf : Sound nshift f)
    (hq : At nshift d q) (hhole : f.block q = 0)
    (hparent : ∀ k p, q = k :: p → p ≠ [] → f.block p ≠ 0) : Outcome nshift (below nshift bn d q) f
      (extend e allocOnly d q (fetch nshift e allocOnly true bn d q) f)
      (Refunds e allocOnly d (q.length = 1) f.sys) := by
  induction d generalizing f q with
  | zero =>
    have hcases := extend_cases e allocOnly hf hq hhole hparent
      (suffix_below nshift bn 0 q) (fetch nshift e allocOnly true bn 0 q)
    generalize extend e allocOnly 0 q (fetch nshift e allocOnly true bn 0 q) f = r at hcases ⊢
    rcases hcases with ⟨needs, loses⟩ | ⟨fine, none, grows⟩ | ⟨fine, -, page, grows⟩ |
      ⟨taken, page, deep, bad, loses⟩ | ⟨fine, taken, read, sys, grows, block, real, rest⟩
    · exact outcome_lost _ loses fun h => h.1 needs
    · exact outcome_error _ grows ⟨fine, fun h => absurd h none⟩
    · exact outcome_error _ grows ⟨fine, fun _ => .inl page⟩
    · refine outcome_lost _ loses fun h => ?_
      rcases h.2 taken with hpage | htop | hread
      · exact page ⟨rfl, hpage⟩
      · exact deep htop
      · rw [bad] at hread
        cases hread
    · have hsafe : Refunds e allocOnly 0 (q.length = 1) f.sys := ⟨fine, fun _ => .inr read⟩
      refine ⟨fun _ => grows, fun nb hok => ⟨hsafe, ?_⟩, fun h => absurd hsafe h⟩
      cases hok
      exact ⟨fun h => real (block.symm.trans h), congrArg some block.symm⟩
  | succ d ih =>
    have hcases := extend_cases e allocOnly hf hq hhole hparent
      (suffix_below nshift bn (d + 1) q) (fetch nshift e allocOnly true bn (d + 1) q)
    generalize extend e allocOnly (d + 1) q (fetch nshift e allocOnly true bn (d + 1) q) f = r
      at hcases ⊢
    rcases hcases with ⟨needs, loses⟩ | ⟨fine, none, grows⟩ | ⟨fine, data, page, grows⟩ |
      ⟨taken, page, deep, bad, loses⟩ | ⟨fine, taken, read, sys, grows, block, real, rest⟩
    · exact outcome_lost _ loses fun h => h.1 needs
    · exact outcome_error _ grows ⟨fine, fun h => absurd h none⟩
    · cases data
    · refine outcome_lost _ loses fun h => ?_
      rcases (h.2 taken).1 with htop | hread
      · exact deep htop
      · rw [bad] at hread
        cases hread
    · rename_i f' nb
      unfold fetch
      by_cases hread : e.read d = true
      · rw [if_pos hread]
        exact outcome_error _ grows ⟨fine, fun _ => ⟨read, .inl hread⟩⟩
      · -- the new block is empty, so that the next one is missing too
        have hq' := Place.entry hq (index_lt bn d)
        have hempty : f'.block (index nshift bn d :: q) = 0 := by
          rw [rest _ _ hq' (fun h => absurd (congrArg List.length h) (by simp))]
          exact (block_cons hq.ne_nil).trans (if_pos hhole)
        have hword : f'.words nb (index nshift bn d) = 0 := by
          rw [← block, ← block_cons_of_ne (block.symm ▸ real), hempty]
        rw [if_neg hread]
        rw [if_neg (not_not_intro hword), if_neg (by decide), below_succ]
        have hdeep : ¬ (index nshift bn d :: q).length = 1 := fun h =>
          hq.ne_nil (List.length_eq_zero_iff.mp (Nat.succ.inj h))
        refine (ih grows.sound hq' hempty fun k p heq _ => ?_).after hf
          (below_succ bn d q ▸ grows) ?_
        · rw [← (List.cons.inj heq).2, block]
          exact real
        · rw [sys, eq_false hdeep]
          constructor
          · exact fun h => ⟨fine, fun _ => ⟨read, .inr h⟩⟩
          · exact fun h => (h.2 taken).2.resolve_left hread

theorem fetch_outcome (hf : Sound nshift f) (hp : At nshift d p) (hin : f.block p = inb)
    (hne : inb ≠ 0) :
    Outcome nshift (below nshift bn d p) f (fetch nshift e allocOnly true bn d p inb f)
      (Spares nshift e allocOnly f bn d inb) := by
  induction d generalizing p inb with
  | zero =>
    refine ⟨fun _ => Grows.refl hf, fun nb hok => ⟨trivial, ?_⟩, fun h => absurd trivial h⟩
    cases hok
    exact ⟨fun h => hne (hin.symm.trans h), congrArg some hin.symm⟩
  | succ d ih =>
    have hword := (block_cons_of_ne (hin ▸ hne) (index nshift bn d)).trans
      (congrArg (fun b => f.words b (index nshift bn d)) hin)
    have hq := Place.entry hp (index_lt bn d)
    rw [below_succ]
    unfold fetch Spares
    by_cases hread : e.read d = true
    · rw [if_pos hread]
      exact outcome_error _ (Grows.refl hf) (.inl hread)
    · rw [if_neg hread]
      by_cases hzero : f.words inb (index nshift bn d) = 0
      · have hdeep : ¬ (index nshift bn d :: p).length = 1 := fun h =>
          hp.ne_nil (List.length_eq_zero_iff.mp (Nat.succ.inj h))
        have hout := extend_outcome e allocOnly bn hf hq (hword.trans hzero) fun k p heq _ => by
            rw [← (List.cons.inj heq).2, hin]
            exact hne
        rw [if_neg (not_not_intro hzero), if_neg (not_not_intro hzero), if_neg (by decide)]
        rw [eq_false hdeep] at hout
        exact hout.after hf (Grows.refl hf) (or_iff_right hread).symm
      · rw [if_pos hzero, if_pos hzero]
        exact (ih hq hword hzero).after hf (Grows.refl hf) (or_iff_right hread).symm

theorem bmap_outcome (hf : Sound nshift f) (e : Faults) (allocOnly : Bool) {r : Nat × Nat}
    (hslot : slot nshift lbn = some r) : Outcome nshift (below nshift r.2 (addrLevels r.1) [r.1]) f
      (f.bmap nshift e allocOnly true lbn) (Saves nshift e allocOnly lbn f) := by
  rcases r with ⟨k, bn⟩
  have hp := slot_at hslot
  unfold bmap Saves
  rw [hslot]
  dsimp only
  by_cases hzero : f.iAddr k = 0
  · have hout := extend_outcome e allocOnly bn hf hp hzero fun j p heq hne =>
      absurd (List.cons.inj heq).2.symm hne
    rw [if_neg (not_not_intro hzero), if_neg (not_not_intro hzero), if_neg (by decide)]
    rwa [eq_true (show [k].length = 1 from rfl)] at hout
  · rw [if_pos hzero, if_pos hzero]
    exact fetch_outcome hf hp rfl hzero

/-!
## No block is lost
-/

/-- When a write fails no block is lost; when it does not, its block is found. -/
structure Keeps (nshift lbn : Nat) (f : File) (r : Except Errno (Option Nat) × File) : Prop where
  free : ∀ err, r.1 = .error err → ∀ nb, f.sys.Listed nb →
    r.2.sys.Listed nb ∨ ∃ d p, At nshift d p ∧ r.2.block p = nb
  mapped : ∀ err, r.1 = .error err → ∀ l nb, Finds nshift l nb f → Finds nshift l nb r.2
  found : ∀ nb, r.1 = .ok nb → ∃ b, nb = some b ∧ Finds nshift lbn b r.2

theorem Outcome.keeps {safe : Prop} (hf : Sound nshift f) (h : Outcome nshift t f r safe)
    (hroute : route nshift lbn = some t) (hsafe : safe) : Keeps nshift lbn f r := by
  have hgrows := h.grows hsafe
  refine ⟨fun err _ nb hnb => ?_, fun err _ l nb hfinds => ?_, fun nb hok => ?_⟩
  · rw [BlockSys.listed_iff hf.start] at hnb
    rw [BlockSys.listed_iff hgrows.sound.start]
    exact hgrows.found nb hnb
  · rw [finds_iff] at hfinds ⊢
    rcases hfinds with ⟨hne, t', hroute', rfl⟩
    have hplace : At nshift 0 t' := by
      unfold route at hroute'
      rcases Option.map_eq_some_iff.mp hroute' with ⟨r, hslot, rfl⟩
      exact below_at (slot_at hslot)
    exact ⟨hne, t', hroute', hgrows.kept 0 t' hplace hne⟩
  · rcases (h.block nb hok).2 with ⟨hne, hnb⟩
    exact ⟨r.2.block t, hnb, finds_iff.mpr ⟨hne, t, hroute, rfl⟩⟩

theorem Outcome.not_keeps {safe : Prop} (h : Outcome nshift t f r safe)
    (hsafe : ¬ safe) : ¬ Keeps nshift lbn f r := by
  intro hkeeps
  rcases h.loses hsafe with ⟨b, hlisted, hgone, hnowhere⟩
  cases hr : r.1 with
  | ok nb => exact hsafe (h.block nb hr).1
  | error err =>
    rcases hkeeps.free err hr b hlisted with hin | ⟨d, p, hp, hblock⟩
    · exact hgone hin
    · exact hnowhere d p hp hblock

theorem keeps_bmap_iff (hf : Sound nshift f) (e : Faults) (allocOnly : Bool) (lbn : Nat) :
    Keeps nshift lbn f (f.bmap nshift e allocOnly true lbn) ↔ Saves nshift e allocOnly lbn f := by
  cases hslot : slot nshift lbn with
  | none =>
    have hrun : f.bmap nshift e allocOnly true lbn = (.error .efbig, f) := by
      unfold bmap
      rw [hslot]
    have hsaves : Saves nshift e allocOnly lbn f := by
      unfold Saves
      rw [hslot]
      exact trivial
    rw [hrun]
    exact iff_of_true ⟨fun _ _ _ hnb => .inl hnb, fun _ _ _ _ hfinds => hfinds,
      fun _ hok => by cases hok⟩ hsaves
  | some r =>
    have hout := bmap_outcome hf e allocOnly hslot
    have hroute : route nshift lbn = some (below nshift r.2 (addrLevels r.1) [r.1]) := by
      unfold route
      rw [hslot]
      rfl
    constructor
    · intro hkeeps
      by_contra hsafe
      exact hout.not_keeps hsafe hkeeps
    · exact hout.keeps hf hroute

def hollow : File where
  sys := BlockSys.exhausted.release 3 false
  words := fun _ _ => 0
  iAddr := update (fun _ => 0) 10 2

theorem hollow_block {p : List Nat} (h : hollow.block p ≠ 0) : p = [10] ∧ hollow.block p = 2 := by
  cases p with
  | nil => exact absurd rfl h
  | cons k p =>
    cases p with
    | nil =>
      by_cases hk : k = 10
      · subst hk
        exact ⟨rfl, rfl⟩
      · refine absurd ?_ h
        show update (fun _ => 0) 10 2 k = 0
        rw [update_of_ne hk]
    | cons j p =>
      refine absurd ?_ h
      exact ite_self 0

theorem hollow_sound (nshift : Nat) : Sound nshift hollow := by
  rcases BlockSys.release_spec BlockSys.exhausted_start (by decide : 3 ∈ BlockSys.exhausted.held)
    false with ⟨hs, hheld, -⟩
  refine ⟨hs, fun d p hp hb => ?_, fun d d' p q hp hq heq hb => ?_⟩
  · rw [(hollow_block hb).2]
    show 2 ∈ (BlockSys.exhausted.release 3 false).held
    decide
  · exact (hollow_block hb).1.trans (hollow_block (heq ▸ hb)).1.symm

theorem keeps_bmap_hollow :
    Keeps 7 10 hollow (hollow.bmap 7 ⟨fun _ => false, fun _ => false, fun _ => false, true, false⟩
      false true 10) ↔
    Saves 7 ⟨fun _ => false, fun _ => false, fun _ => false, true, false⟩ false 10 hollow :=
  keeps_bmap_iff (hollow_sound 7) _ _ _

/-- The indirect block cannot be read again: the new block is not given back. -/
theorem not_keeps_bmap : ∃ nshift e allocOnly lbn f, Sound nshift f ∧
      ¬ Keeps nshift lbn f (f.bmap nshift e allocOnly true lbn) := by
  refine ⟨7, ⟨fun _ => false, fun _ => false, fun _ => true, false, false⟩, true, 10, hollow,
    hollow_sound 7, ?_⟩
  have hslot : slot 7 10 = some (10, 0) := by decide
  refine (bmap_outcome (hollow_sound 7) _ _ hslot).not_keeps fun hsaves => ?_
  rcases hsaves with hread | hrefunds
  · cases hread
  · rcases hrefunds.2 ⟨3, rfl⟩ with hpage | htop | hreread
    · cases hpage.1
    · exact htop
    · cases hreread

end File
end S5
end Svr4
