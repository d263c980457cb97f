import Mathlib.Data.Fintype.Card
import Mathlib.Data.List.Range
import Svr4.Semaphore.Records

/-!
# The undo tables

What holds of the undo tables between two calls, and what `semaoe`,
`semunrm` and the release of a structure do to them.
-/

namespace Svr4
namespace Semaphore

open Function List

/-- The structures, their owners and records, and the two chains are in order. -/
structure Undos.Ok (si : SemInfo) (u : Undos) : Prop where
  owner_inj : ∀ p q i, u.semUndo p = some i → u.semUndo q = some i → p = q
  owner_lt : ∀ p i, u.semUndo p = some i → i < si.semmnu
  owned : ∀ i, u.unEnt i ≠ [] → ∃ p, u.semUndo p = some i
  records : ∀ i, RecordsOk si (u.unEnt i)
  active : ∃ l, Chain u.unNp u.semunp l none ∧ ∀ i, i ∈ l ↔ u.unEnt i ≠ []
  free : ∃ l, Chain u.unNp u.semfup l none ∧ ∀ i, i ∈ l ↔ i < si.semmnu ∧ ∀ p, u.semUndo p ≠ some i

def Undos.aoe (u : Undos) (slot : Nat) (id : Int) (num : Nat) : Int :=
  Semaphore.aoe (u.entries slot) id num

theorem length_le_of_lt {n : Nat} {l : List Nat} (hnodup : l.Nodup)
    (hlt : ∀ i ∈ l, i < n) : l.length ≤ n := by
  have hsub : l.Subperm (List.range n) := by
    apply hnodup.subperm
    intro i hi
    exact mem_range.mpr (hlt i hi)
  simpa using hsub.length_le

/-!
## The initial tables
-/

theorem seminit_chain (si : SemInfo) (n : Nat) {i : Nat} (hi : i + n + 1 = si.semmnu) :
    Chain (Undos.seminit si).unNp (some i) (List.range' i (n + 1)) none := by
  induction n generalizing i with
  | zero =>
    have hlast : ¬ i + 1 < si.semmnu := by omega
    simp [Undos.seminit, hlast]
  | succ n ih =>
    have hnext : i + 1 < si.semmnu := by omega
    refine ⟨rfl, ?_⟩
    have hnp : (Undos.seminit si).unNp i = some (i + 1) := by
      simp [Undos.seminit, hnext]
    rw [hnp]
    apply ih
    omega

theorem seminit_ok (si : SemInfo) : (Undos.seminit si).Ok si where
  owner_inj p q i hp := by cases hp
  owner_lt p i hp := by cases hp
  owned i hi := absurd rfl hi
  records i := RecordsOk.nil si
  active := ⟨[], rfl, fun i => by simp [Undos.seminit]⟩
  free := by
    have hpos := si.semmnu_pos
    refine ⟨_, seminit_chain si (si.semmnu - 1) (i := 0) (by omega), ?_⟩
    simp [Undos.seminit, mem_range']
    omega

/-!
## Editing one structure
-/

variable {ents : List Undo}

section Edit

variable {si : SemInfo} {u : Undos} {slot up : Nat}

theorem Undos.entries_of_owner (hup : u.semUndo slot = some up) : u.entries slot = u.unEnt up := by
  simp [Undos.entries, hup]

section

variable (hok : u.Ok si)
include hok

theorem Undos.Ok.entries_ok (q : Nat) : RecordsOk si (u.entries q) := by
  unfold Undos.entries
  split
  · exact RecordsOk.nil si
  · exact hok.records _

theorem Undos.Ok.owner_ne (hup : u.semUndo slot = some up)
    {q j : Nat} (hq : u.semUndo q = some j) (hne : q ≠ slot) : j ≠ up := by
  rintro rfl
  exact hne (hok.owner_inj q slot j hq hup)

theorem Undos.Ok.active_length {l : List Nat}
    (hchain : Chain u.unNp u.semunp l none)
    (hmem : ∀ i, i ∈ l ↔ u.unEnt i ≠ []) : l.length ≤ si.semmnu := by
  apply length_le_of_lt hchain.nodup
  intro i hi
  rcases hok.owned i ((hmem i).mp hi) with ⟨p, hp⟩
  exact hok.owner_lt p i hp

section

variable (hup : u.semUndo slot = some up) (hents : RecordsOk si ents)
include hup hents

theorem Undos.Ok.edit
    {np : Nat → Option Nat} {head : Option Nat} (hactive : ∃ l, Chain np head l none ∧
      ∀ i, i ∈ l ↔ update u.unEnt up ents i ≠ [])
    (hframe : ∀ i, (∀ q, u.semUndo q ≠ some i) → np i = u.unNp i) :
    Undos.Ok si
      { u with
        unNp := np
        unEnt := update u.unEnt up ents
        semunp := head } where
  owner_inj := hok.owner_inj
  owner_lt := hok.owner_lt
  owned i hi := by
    by_cases heq : i = up
    · exact ⟨slot, heq ▸ hup⟩
    · apply hok.owned i
      simpa [heq] using hi
  records i := by
    by_cases heq : i = up
    · subst heq
      simpa using hents
    · simpa [heq] using hok.records i
  active := hactive
  free := by
    rcases hok.free with ⟨l, hchain, hmem⟩
    refine ⟨l, hchain.congr ?_, hmem⟩
    intro i hi
    exact hframe i ((hmem i).mp hi).2

theorem Undos.Ok.edit_active (hold : u.unEnt up ≠ []) (hnew : ents ≠ []) :
    Undos.Ok si { u with unEnt := update u.unEnt up ents } := by
  apply hok.edit hup hents _ (fun i _ => rfl)
  rcases hok.active with ⟨l, hchain, hmem⟩
  refine ⟨l, hchain, ?_⟩
  intro i
  rw [hmem]
  by_cases heq : i = up
  · subst heq
    simp [hold, hnew]
  · rw [update_of_ne heq]

theorem Undos.Ok.edit_first (hold : u.unEnt up = []) (hnew : ents ≠ []) :
    Undos.Ok si
      { u with
        unNp := update u.unNp up u.semunp
        unEnt := update u.unEnt up ents
        semunp := some up } := by
  apply hok.edit hup hents
  · rcases hok.active with ⟨l, hchain, hmem⟩
    have hnot : up ∉ l := by
      rw [hmem]
      simp [hold]
    refine ⟨up :: l, hchain.push hnot, ?_⟩
    intro i
    by_cases heq : i = up
    · subst heq
      simp [hnew]
    · rw [update_of_ne heq, ← hmem, mem_cons]
      simp [heq]
  · intro i hfree
    apply update_of_ne
    rintro rfl
    exact hfree slot hup

end

theorem Undos.Ok.unlink (hup : u.semUndo slot = some up) (hold : u.unEnt up ≠ []) :
    ∃ head np, Chain.unlink u.unNp si.semmnu u.semunp up = some (head, np) ∧ (∀ p, Undos.Ok si
        { u with
          unNp := update np up p
          unEnt := update u.unEnt up []
          semunp := head }) := by
  rcases hok.active with ⟨l, hchain, hmem⟩
  have hup_mem : up ∈ l := (hmem up).mpr hold
  rcases hchain.unlink_spec hup_mem (hok.active_length hchain hmem) with
    ⟨head, np, hrun, hlinked, hframe⟩
  refine ⟨head, np, hrun, ?_⟩
  intro p
  have hnot : up ∉ l.erase up := hchain.nodup.not_mem_erase
  apply hok.edit hup (RecordsOk.nil si)
  · refine ⟨l.erase up, hlinked.update_of_notMem hnot, ?_⟩
    intro i
    rw [hchain.nodup.mem_erase_iff, hmem]
    by_cases heq : i = up
    · simp [heq]
    · simp [heq]
  · intro i hfree
    rw [update_of_ne]
    · apply hframe
      intro hi
      rcases hok.owned i ((hmem i).mp hi) with ⟨q, hq⟩
      exact hfree q hq
    · rintro rfl
      exact hfree slot hup

end

end Edit

/-!
## Attaching a structure
-/

section Attach

variable {si : SemInfo} {u : Undos} {slot up : Nat}

theorem Undos.Ok.unowned_empty (hok : u.Ok si)
    (hunowned : ∀ q, u.semUndo q ≠ some up) : u.unEnt up = [] := by
  by_contra hne
  rcases hok.owned up hne with ⟨q, hq⟩
  exact hunowned q hq

theorem Undos.Ok.free_cons (hok : u.Ok si) (hhead : u.semfup = some up) :
    ∃ rest, Chain u.unNp u.semfup (up :: rest) none ∧ ∀ i, i ∈ up :: rest ↔
        i < si.semmnu ∧ ∀ p, u.semUndo p ≠ some i := by
  rcases hok.free with ⟨free, hchain, hfree⟩
  cases free with
  | nil =>
    rw [hhead] at hchain
    cases hchain
  | cons i rest =>
    obtain rfl : up = i := by
      rw [hhead] at hchain
      exact Option.some.inj hchain.1
    exact ⟨rest, hchain, hfree⟩

theorem Undos.take_semUndo (u : Undos) (slot up q : Nat) : (u.take slot up).semUndo q =
      if q = slot then some up else u.semUndo q := by
  simp [Undos.take, update_apply]

theorem Undos.Ok.take (hok : u.Ok si) (hnone : u.semUndo slot = none)
    (hhead : u.semfup = some up) : (u.take slot up).Ok si := by
  rcases hok.free_cons hhead with ⟨rest, hchain, hfree⟩
  have hnodup := nodup_cons.mp hchain.nodup
  rcases (hfree up).mp (by simp) with ⟨hlt, hunowned⟩
  have howner : ∀ {q i}, (u.take slot up).semUndo q = some i →
      (q = slot ∧ i = up) ∨ (q ≠ slot ∧ u.semUndo q = some i) := by
    intro q i hq
    rw [Undos.take_semUndo] at hq
    split_ifs at hq with hqs
    · exact Or.inl ⟨hqs, (Option.some.inj hq).symm⟩
    · exact Or.inr ⟨hqs, hq⟩
  constructor
  · intro p q i hp hq
    rcases howner hp with ⟨hps, rfl⟩ | ⟨_, hp'⟩
    · rcases howner hq with ⟨hqs, _⟩ | ⟨_, hq'⟩
      · rw [hps, hqs]
      · exact absurd hq' (hunowned q)
    · rcases howner hq with ⟨_, rfl⟩ | ⟨_, hq'⟩
      · exact absurd hp' (hunowned p)
      · exact hok.owner_inj p q i hp' hq'
  · intro p i hp
    rcases howner hp with ⟨_, rfl⟩ | ⟨_, hp⟩
    · exact hlt
    · exact hok.owner_lt p i hp
  · intro i hi
    rcases hok.owned i hi with ⟨p, hp⟩
    have hps : p ≠ slot := by
      rintro rfl
      rw [hnone] at hp
      cases hp
    exact ⟨p, by simpa [Undos.take_semUndo, hps] using hp⟩
  · exact hok.records
  · rcases hok.active with ⟨l, hact, hactive⟩
    refine ⟨l, hact.update_of_notMem ?_, hactive⟩
    rw [hactive]
    simp [hok.unowned_empty hunowned]
  · refine ⟨rest, hchain.2.update_of_notMem hnodup.1, ?_⟩
    intro i
    have hi := hfree i
    rw [mem_cons] at hi
    constructor
    · intro hmem
      rcases hi.mp (Or.inr hmem) with ⟨hilt, hq⟩
      refine ⟨hilt, ?_⟩
      intro q hq'
      rcases howner hq' with ⟨_, rfl⟩ | ⟨_, hq'⟩
      · exact hnodup.1 hmem
      · exact hq q hq'
    · rintro ⟨hilt, hq⟩
      have hne : i ≠ up := by
        rintro rfl
        exact hq slot (by simp [Undos.take_semUndo])
      have hold : ∀ q, u.semUndo q ≠ some i := by
        intro q hq'
        by_cases hqs : q = slot
        · rw [hqs, hnone] at hq'
          cases hq'
        · exact hq q (by simpa [Undos.take_semUndo, hqs] using hq')
      exact (hi.mpr ⟨hilt, hold⟩).resolve_left hne

theorem attach_spec (hok : u.Ok si) (slot : Nat) : (u.attach slot = none ∧ u.semUndo slot = none) ∨
    ∃ up u', u.attach slot = some (up, u') ∧ u'.Ok si ∧
      u'.semUndo slot = some up ∧ (∀ q, u'.entries q = u.entries q) ∧
      (∀ q, (u.semUndo q).isSome → (u'.semUndo q).isSome) := by
  cases howner : u.semUndo slot with
  | some up =>
    right
    exact ⟨up, u, by simp [Undos.attach, howner], hok, howner, fun q => rfl, fun q hq => hq⟩
  | none =>
    cases hhead : u.semfup with
    | none => exact Or.inl ⟨by simp [Undos.attach, howner, hhead], rfl⟩
    | some up =>
      right
      rcases hok.free_cons hhead with ⟨rest, _, hfree⟩
      have hempty : u.unEnt up = [] :=
        hok.unowned_empty ((hfree up).mp (by simp)).2
      refine ⟨up, u.take slot up, by simp [Undos.attach, howner, hhead],
        hok.take howner hhead, by simp [Undos.take_semUndo], ?_, ?_⟩
      · intro q
        unfold Undos.entries
        by_cases hqs : q = slot
        · simp [hqs, howner, Undos.take, hempty]
        · simp [hqs, Undos.take]
      · intro q hq
        rw [Undos.take_semUndo]
        split_ifs
        · rfl
        · exact hq

end Attach

end Semaphore
end Svr4
