import Svr4.RecordLock.Model

/-!
# Lock lists as interval maps

A lock list stands for one map from bytes to lock types per owner.  This module
states the representation invariant of the lists, reads a list as a map, and
collects what the list operations do to both.  It ends with the inversion of
one round of `flckadj`.
-/

namespace Svr4
namespace RecordLock

open NodeList List

/-!
## The representation invariant
-/

/-- A lock that can be on a list: a non-empty range and one of two types. -/
structure Flock.Valid (ld : Flock) : Prop where
  start_nonneg : 0 ≤ ld.lStart
  start_le_end : ld.lStart ≤ ld.lEnd
  end_le : ld.lEnd ≤ MAXEND
  type_set : ld.lType = .rdlck ∨ ld.lType = .wrlck

/-- `b` follows `a` in a list: in order, and apart if of one owner. -/
def Apart (a b : Filock) : Prop :=
  a.set.lStart ≤ b.set.lStart ∧ (a.owner = b.owner → a.set.lEnd < b.set.lStart ∧
        (a.set.lType = b.set.lType → a.set.lEnd + 1 < b.set.lStart))

structure WellFormed (lst : List Filock) : Prop where
  apart : lst.Pairwise Apart
  valid : ∀ f ∈ lst, f.set.Valid
  nodup : (lst.map Filock.addr).Nodup

/-- Locks are sorted by start, and those of one owner disjoint. -/
structure RepInvariant (lst : List Filock) : Prop where
  sorted : lst.Pairwise fun a b => a.set.lStart ≤ b.set.lStart
  disjoint : lst.Pairwise fun a b => a.owner = b.owner →
    a.set.lEnd < b.set.lStart ∨ b.set.lEnd < a.set.lStart
  separate : lst.Pairwise fun a b => a.owner = b.owner → a.set.lType = b.set.lType →
      a.set.lEnd + 1 < b.set.lStart ∨ b.set.lEnd + 1 < a.set.lStart

variable {lst : List Filock}

theorem WellFormed.repInvariant (h : WellFormed lst) : RepInvariant lst where
  sorted := h.apart.imp fun hab => hab.1
  disjoint := h.apart.imp fun hab hown => Or.inl (hab.2 hown).1
  separate := h.apart.imp fun hab hown htype => Or.inl ((hab.2 hown).2 htype)

theorem WellFormed.nil : WellFormed [] where
  apart := List.Pairwise.nil
  valid := by simp
  nodup := by simp

theorem WellFormed.sorted (h : WellFormed lst) :
    lst.Pairwise fun a b => a.set.lStart ≤ b.set.lStart :=
  h.repInvariant.sorted

/-!
## Byte maps
-/

def Flock.Covers (ld : Flock) (x : Int) : Prop :=
  ld.lStart ≤ x ∧ x ≤ ld.lEnd

instance (ld : Flock) (x : Int) : Decidable (ld.Covers x) :=
  inferInstanceAs (Decidable (_ ∧ _))

/-- The owner holds a lock of the given type on the byte. -/
def Holds (lst : List Filock) (o : Owner) (x : Int) (ty : LckType) : Prop :=
  ∃ f ∈ lst, f.owner = o ∧ f.set.lType = ty ∧ f.set.Covers x

def lockAt (lst : List Filock) (o : Owner) (x : Int) : Option LckType :=
  (lst.find? fun f => f.owner = o ∧ f.set.Covers x).map fun f => f.set.lType

/-- The map overwritten by a request: an unlock request leaves no lock. -/
def overwrite (m : Int → Option LckType) (ld : Flock) (x : Int) :
    Option LckType :=
  if ld.Covers x then if ld.lType = .unlck then none else some ld.lType
  else m x

theorem Filock.eq_of_covers (h : WellFormed lst) {f g : Filock} (hf : f ∈ lst) (hg : g ∈ lst)
    (hown : f.owner = g.owner) {x : Int} (hfx : f.set.Covers x) (hgx : g.set.Covers x) : f = g := by
  rcases pairwise_cases h.apart hf hg with heq | hfg | hgf
  · exact heq
  · have hlt := (hfg.2 hown).1
    have h1 := hfx.2
    have h2 := hgx.1
    omega
  · have hlt := (hgf.2 hown.symm).1
    have h1 := hgx.2
    have h2 := hfx.1
    omega

theorem lockAt_eq_some (h : WellFormed lst) {o : Owner} {x : Int} {ty : LckType} :
    lockAt lst o x = some ty ↔ Holds lst o x ty := by
  unfold lockAt Holds
  constructor
  · intro hsome
    rcases Option.map_eq_some_iff.mp hsome with ⟨f, hfind, hty⟩
    have hprop := find?_some hfind
    have hmem := mem_of_find?_eq_some hfind
    simp only [decide_eq_true_eq] at hprop
    exact ⟨f, hmem, hprop.1, hty, hprop.2⟩
  · rintro ⟨f, hmem, hown, hty, hcov⟩
    cases hfind : lst.find? fun f => f.owner = o ∧ f.set.Covers x with
    | none =>
      have hnone := find?_eq_none.mp hfind f hmem
      simp [hown, hcov] at hnone
    | some g =>
      have hprop := find?_some hfind
      simp only [decide_eq_true_eq] at hprop
      have heq : g = f :=
        Filock.eq_of_covers h (mem_of_find?_eq_some hfind) hmem
          (hprop.1.trans hown.symm) hprop.2 hcov
      simp [heq, hty]

theorem lockAt_congr {lst' : List Filock} (h : WellFormed lst) (h' : WellFormed lst') {o : Owner}
    {x : Int} (hiff : ∀ ty, Holds lst' o x ty ↔ Holds lst o x ty) :
    lockAt lst' o x = lockAt lst o x := by
  apply Option.ext
  intro ty
  rw [lockAt_eq_some h', lockAt_eq_some h]
  exact hiff ty

/-!
## List operations
-/

theorem WellFormed.unlink (h : WellFormed lst) (k : Nat) :
    WellFormed (unlink Filock.addr k lst) where
  apart := h.apart.sublist (unlink_sublist k lst)
  valid := fun f hf => h.valid f (mem_unlink.mp hf).1
  nodup := h.nodup.sublist ((unlink_sublist k lst).map _)

variable {flp : Filock}

theorem WellFormed.cut (h : WellFormed lst) (hflp : flp ∈ lst) {lEnd : Int}
    (hstart : flp.set.lStart ≤ lEnd) (hend : lEnd ≤ flp.set.lEnd) :
    WellFormed (amend Filock.addr flp.addr (Filock.cutTo lEnd) lst) where
  apart := by
    unfold amend
    rw [pairwise_map]
    refine h.apart.imp_of_mem ?_
    intro a b ha _ hab
    by_cases hka : a.addr = flp.addr
    · have haf : a = flp := eq_of_key_eq h.nodup ha hflp hka
      subst a
      by_cases hkb : b.addr = flp.addr <;>
        simp only [hkb, if_true, if_false, Apart, Filock.owner, Flock.owner,
          Filock.cutTo] at hab ⊢ <;>
        refine ⟨hab.1, fun hown => ?_⟩ <;>
        have hsep := hab.2 hown <;>
        refine ⟨by omega, fun hty => ?_⟩ <;>
        have hgap := hsep.2 hty <;>
        omega
    · by_cases hkb : b.addr = flp.addr <;>
        simpa only [hka, hkb, if_true, if_false, Apart, Filock.owner,
          Flock.owner, Filock.cutTo] using hab
  valid := by
    intro f hf
    rcases mem_amend.mp hf with ⟨g, hg, rfl⟩
    by_cases hk : g.addr = flp.addr
    · have hgf : g = flp := eq_of_key_eq h.nodup hg hflp hk
      subst g
      have hv := h.valid flp hflp
      simp only [if_true]
      exact ⟨hv.start_nonneg, hstart, Int.le_trans hend hv.end_le, hv.type_set⟩
    · simpa only [hk, if_false] using h.valid g hg
  nodup := by
    rw [amend_keys (f := Filock.cutTo lEnd) (fun _ => rfl)]
    exact h.nodup

/-- A lock of the requesting owner that the request neither meets nor joins. -/
def Clear (ld : Flock) (f : Filock) : Prop :=
  (f.set.lEnd < ld.lStart ∧ (ld.lType = f.set.lType → f.set.lEnd + 1 < ld.lStart)) ∨
    (ld.lEnd < f.set.lStart ∧ (ld.lType = f.set.lType → ld.lEnd + 1 < f.set.lStart))

theorem WellFormed.insert {front back : List Filock}
    (h : WellFormed (front ++ back)) {new : Filock} (hvalid : new.set.Valid)
    (haddr : ∀ f ∈ front ++ back, f.addr ≠ new.addr)
    (hclear : ∀ f ∈ front ++ back, f.owner = new.owner → Clear new.set f)
    (hfront : ∀ f ∈ front, f.set.lStart ≤ new.set.lStart)
    (hback : ∀ f ∈ back, new.set.lStart ≤ f.set.lStart) : WellFormed (front ++ new :: back) where
  apart := by
    have hall := pairwise_append.mp h.apart
    refine pairwise_append.mpr ⟨hall.1, ?_, ?_⟩
    · refine pairwise_cons.mpr ⟨?_, hall.2.1⟩
      intro f hf
      refine ⟨hback f hf, fun hown => ?_⟩
      have hmem : f ∈ front ++ back := mem_append_right _ hf
      have hv := h.valid f hmem
      rcases hclear f hmem hown.symm with hbefore | hafter
      · have h1 := hback f hf
        have h2 := hv.start_le_end
        exact absurd hbefore.1 (by omega)
      · exact hafter
    · intro f hf g hg
      rcases mem_cons.mp hg with rfl | hg
      · refine ⟨hfront f hf, fun hown => ?_⟩
        have hmem : f ∈ front ++ back := mem_append_left _ hf
        rcases hclear f hmem hown with hbefore | hafter
        · exact ⟨hbefore.1, fun hty => hbefore.2 hty.symm⟩
        · have h1 := hfront f hf
          have h2 := hvalid.start_le_end
          exact absurd hafter.1 (by omega)
      · exact hall.2.2 f hf g hg
  valid := by
    intro f hf
    rcases mem_append.mp hf with hf | hf
    · exact h.valid f (mem_append_left _ hf)
    · rcases mem_cons.mp hf with rfl | hf
      · exact hvalid
      · exact h.valid f (mem_append_right _ hf)
  nodup := by
    have hnodup := h.nodup
    rw [map_append] at hnodup ⊢
    rw [map_cons, nodup_middle, nodup_cons]
    refine ⟨?_, hnodup⟩
    intro hmem
    rw [← map_append] at hmem
    rcases mem_map.mp hmem with ⟨f, hf, heq⟩
    exact haddr f hf heq

/-!
## One round of flckadj
-/

def StartType.Says (ld : Flock) (flp : Filock) : StartType → Prop
  | .sBefore => ld.lStart < flp.set.lStart
  | .sStart => ld.lStart = flp.set.lStart
  | .sMiddle => flp.set.lStart < ld.lStart ∧ ld.lStart ≤ flp.set.lEnd
  | .sEnd => flp.set.lStart < ld.lStart ∧ ld.lStart = flp.set.lEnd + 1
  | .sAfter => flp.set.lStart < ld.lStart ∧ flp.set.lEnd + 1 < ld.lStart

def EndType.Says (ld : Flock) (flp : Filock) : EndType → Prop
  | .eBefore => ld.lEnd + 1 < flp.set.lStart
  | .eStart => ld.lEnd + 1 = flp.set.lStart
  | .eMiddle => flp.set.lStart ≤ ld.lEnd ∧ ld.lEnd < flp.set.lEnd
  | .eEnd => ld.lEnd = flp.set.lEnd
  | .eAfter => flp.set.lEnd < ld.lEnd

theorem regflck_says {ld : Flock} (hld : ld.lStart ≤ ld.lEnd)
    (hflp : flp.set.lStart ≤ flp.set.lEnd) :
    (regflck ld flp).1.Says ld flp ∧ (regflck ld flp).2.Says ld flp := by
  unfold regflck regflckEnd
  split_ifs <;> simp only [StartType.Says, EndType.Says] <;> omega

/--
The rounds of `flckadj` on a lock of the requesting owner.  The two type
comparisons of a case and the region types leave these possibilities.
-/
inductive CaseOf (t : Tune) (flp : Filock) (a : Adj) : AdjStep → Prop where
  | before (hend : flp.set.lEnd < a.ld.lStart)
      (hsep : a.ld.lType = flp.set.lType → flp.set.lEnd + 1 < a.ld.lStart)
      (hlt : flp.set.lStart < a.ld.lStart) :
      CaseOf t flp a (.next a)
  | mark (hend : flp.set.lEnd + 1 < a.ld.lStart)
      (hlt : flp.set.lStart < a.ld.lStart) :
      CaseOf t flp a (.next { a with insrtp := some flp.addr })
  | past (hend : a.ld.lEnd < flp.set.lStart)
      (hsep : a.ld.lType = flp.set.lType → a.ld.lEnd + 1 < flp.set.lStart) :
      CaseOf t flp a (.stop a)
  | inside (p : Option Nat) (hty : a.ld.lType = flp.set.lType)
      (hstart : flp.set.lStart ≤ a.ld.lStart) (hend : a.ld.lEnd ≤ flp.set.lEnd) :
      CaseOf t flp a (.ret none { a with insrtp := p })
  | joinLeft (hty : a.ld.lType = flp.set.lType)
      (hlt : flp.set.lStart < a.ld.lStart)
      (hmeet : a.ld.lStart ≤ flp.set.lEnd + 1) (hend : flp.set.lEnd < a.ld.lEnd) :
      CaseOf t flp a (.next (((a.setStart flp.set.lStart).backup flp).del flp))
  | joinRight (hty : a.ld.lType = flp.set.lType)
      (hlt : a.ld.lStart < flp.set.lStart)
      (hmeet : flp.set.lStart ≤ a.ld.lEnd + 1) (hend : a.ld.lEnd ≤ flp.set.lEnd) :
      CaseOf t flp a (.stop ((a.setEnd flp.set.lEnd).del flp))
  | swallowAt (hstart : a.ld.lStart = flp.set.lStart)
      (hend : flp.set.lEnd ≤ a.ld.lEnd)
      (hty : flp.set.lEnd = a.ld.lEnd → a.ld.lType ≠ flp.set.lType) :
      CaseOf t flp a (.next ((a.backup flp).del flp))
  | swallow (hlt : a.ld.lStart < flp.set.lStart)
      (hend : flp.set.lEnd ≤ a.ld.lEnd)
      (hty : flp.set.lEnd = a.ld.lEnd → a.ld.lType ≠ flp.set.lType) :
      CaseOf t flp a (.next (a.del flp))
  | cut (hty : a.ld.lType ≠ flp.set.lType) (hlt : flp.set.lStart < a.ld.lStart)
      (hmeet : a.ld.lStart ≤ flp.set.lEnd) (hend : flp.set.lEnd ≤ a.ld.lEnd) :
      CaseOf t flp a (.next (a.shrink flp))
  | splitStart (hty : a.ld.lType ≠ flp.set.lType)
      (hstart : a.ld.lStart = flp.set.lStart)
      (hmeet : flp.set.lStart ≤ a.ld.lEnd) (hend : a.ld.lEnd < flp.set.lEnd) :
      CaseOf t flp a ((a.backup flp).split t flp (.sStart, .eMiddle))
  | splitMiddle (hty : a.ld.lType ≠ flp.set.lType)
      (hlt : flp.set.lStart < a.ld.lStart) (hend : a.ld.lEnd < flp.set.lEnd) :
      CaseOf t flp a (a.split t flp (.sMiddle, .eMiddle))
  | splitBefore (hty : a.ld.lType ≠ flp.set.lType)
      (hlt : a.ld.lStart < flp.set.lStart)
      (hmeet : flp.set.lStart ≤ a.ld.lEnd) (hend : a.ld.lEnd < flp.set.lEnd) :
      CaseOf t flp a (a.split t flp (.sBefore, .eMiddle))

theorem flckadjCase_cases (t : Tune) {a : Adj} (hld : a.ld.lStart ≤ a.ld.lEnd)
    (hflp : flp.set.lStart ≤ flp.set.lEnd) : CaseOf t flp a (flckadjCase t flp a) := by
  have hsays := regflck_says hld hflp
  unfold flckadjCase
  rcases hreg : regflck a.ld flp with ⟨s, e⟩
  rw [hreg] at hsays
  by_cases hty : a.ld.lType = flp.set.lType
  · cases s <;> cases e <;>
      simp only [StartType.Says, EndType.Says, hty, if_true] at hsays ⊢
    case sBefore.eBefore => exact .past (by omega) (fun _ => by omega)
    case sBefore.eStart => exact .joinRight hty (by omega) (by omega) (by omega)
    case sBefore.eMiddle => exact .joinRight hty (by omega) (by omega) (by omega)
    case sBefore.eEnd =>
      have heq : a.setEnd flp.set.lEnd = a := by
        rw [← hsays.2]
        rfl
      have hjoin : CaseOf t flp a (.stop ((a.setEnd flp.set.lEnd).del flp)) :=
        .joinRight hty (by omega) (by omega) (by omega)
      rwa [heq] at hjoin
    case sBefore.eAfter => exact .swallow (by omega) (by omega) (fun _ => by omega)
    case sStart.eMiddle => exact .inside _ hty (by omega) (by omega)
    case sStart.eEnd => exact .inside a.insrtp hty (by omega) (by omega)
    case sStart.eAfter => exact .swallowAt (by omega) (by omega) (fun _ => by omega)
    case sMiddle.eMiddle => exact .inside a.insrtp hty (by omega) (by omega)
    case sMiddle.eEnd => exact .inside a.insrtp hty (by omega) (by omega)
    case sMiddle.eAfter => exact .joinLeft hty (by omega) (by omega) (by omega)
    case sEnd.eAfter => exact .joinLeft hty (by omega) (by omega) (by omega)
    case sAfter.eAfter => exact .mark (by omega) (by omega)
    -- The remaining pairs of region types describe no request.
    all_goals omega
  · cases s <;> cases e <;>
      simp only [StartType.Says, EndType.Says, hty, if_false] at hsays ⊢
    case sBefore.eBefore => exact .past (by omega) (fun h => absurd h hty)
    case sBefore.eStart => exact .past (by omega) (fun h => absurd h hty)
    case sBefore.eMiddle => exact .splitBefore hty (by omega) (by omega) (by omega)
    case sBefore.eEnd => exact .swallow (by omega) (by omega) (fun _ => hty)
    case sBefore.eAfter => exact .swallow (by omega) (by omega) (fun _ => hty)
    case sStart.eMiddle => exact .splitStart hty (by omega) (by omega) (by omega)
    case sStart.eEnd => exact .swallowAt (by omega) (by omega) (fun _ => hty)
    case sStart.eAfter => exact .swallowAt (by omega) (by omega) (fun _ => hty)
    case sMiddle.eMiddle => exact .splitMiddle hty (by omega) (by omega)
    case sMiddle.eEnd => exact .cut hty (by omega) (by omega) (by omega)
    case sMiddle.eAfter => exact .cut hty (by omega) (by omega) (by omega)
    case sEnd.eAfter =>
      exact .before (by omega) (fun h => absurd h hty) (by omega)
    case sAfter.eAfter => exact .mark (by omega) (by omega)
    all_goals omega

end RecordLock
end Svr4
