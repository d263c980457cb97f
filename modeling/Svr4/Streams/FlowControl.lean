import Mathlib.Algebra.Order.BigOperators.Group.List
import Mathlib.Data.List.Induction
import Svr4.Streams.Flush

/-!
# Accounts of the bands

What a queue records for a band, beside the messages of the band.  Apart from
a put, the routines only settle accounts: they take messages away, account
anew for those that are kept, and note or forget waiting writers.
-/

namespace Svr4
namespace Streams

open Blocks RankedList List

/-!
## Accounts
-/

/--
The record of a band, the bytes of its messages, and whether there are any.
-/
structure Account where
  flow : Flow
  bytes : Nat
  any : Bool

def Blocks.account (m : Blocks) (l : List Nat) (c : Nat) (f : Flow) : Account :=
  ⟨f, m.bytes l c, l.any fun p => decide (m.band p = c)⟩

def Flow.fresh (hiwat lowat : Nat) : Flow := ⟨0, hiwat, lowat, false, false⟩

def Account.charge (a : Account) (x : Msgb) : Account :=
  ⟨a.flow.charge x, a.bytes + x.bytes, true⟩

def Flow.recharge (f : Flow) (kept : List Msgb) : Flow :=
  kept.foldl Flow.charge f.reset

def total (kept : List Msgb) : Nat := (kept.map Msgb.bytes).sum

/-- One change of an account by something other than a put. -/
inductive Account.Settle : Account → Account → Prop where
  | take (f : Flow) (n : Nat) (any : Bool) (x : Msgb) :
      Settle ⟨f, n + x.bytes, true⟩ ⟨(f.take x).relieve, n, any⟩
  | rebuild (f : Flow) (n : Nat) (any : Bool) (kept : List Msgb)
      (hle : total kept ≤ n) (hany : kept ≠ [] → any = true) :
      Settle ⟨f, n, any⟩ ⟨(f.recharge kept).relieve, total kept, !kept.isEmpty⟩
  | restore (f : Flow) (any : Bool) (kept : List Msgb)
      (hany : kept ≠ [] → any = true) :
      Settle ⟨f, total kept, any⟩ ⟨f.recharge kept, total kept, !kept.isEmpty⟩
  | want (f : Flow) (n : Nat) (any : Bool) (hfull : f.full = true) :
      Settle ⟨f, n, any⟩ ⟨{ f with wantw := true }, n, any⟩
  | forget (f : Flow) (n : Nat) (any : Bool) :
      Settle ⟨f, n, any⟩ ⟨{ f with wantw := false }, n, any⟩

/-- A property of accounts that holds of new bands and survives settling. -/
structure Account.Law (P : Account → Prop) : Prop where
  fresh : ∀ a, P a → P ⟨Flow.fresh a.flow.hiwat a.flow.lowat, 0, false⟩
  settle : ∀ a b, Account.Settle a b → P a → P b

def Account.Counted (a : Account) : Prop := a.flow.count = ulong a.bytes

/--
The count is the number of bytes, and the band is full as soon as the count
reaches the high water mark and until it falls below it.
-/
structure Account.Exact (a : Account) : Prop where
  lt : a.bytes < 4294967296
  count : a.flow.count = a.bytes
  high : a.flow.full = true → a.flow.hiwat ≤ a.bytes
  full : a.flow.hiwat ≤ a.bytes → 0 < a.flow.hiwat ∨ a.any = true → a.flow.full = true

def Account.Marked (a : Account) : Prop := a.flow.lowat < a.flow.hiwat

/-- A writer waits only while the count is above the low water mark. -/
def Account.Waits (a : Account) : Prop :=
  a.flow.wantw = true → a.flow.lowat < a.flow.count

section Flows

variable {f : Flow} {n : Nat} {x : Msgb} {kept : List Msgb}

@[simp] theorem Flow.charge_hiwat (f : Flow) (x : Msgb) : (f.charge x).hiwat = f.hiwat := rfl

@[simp] theorem Flow.charge_lowat (f : Flow) (x : Msgb) : (f.charge x).lowat = f.lowat := rfl

@[simp] theorem Flow.charge_wantw (f : Flow) (x : Msgb) : (f.charge x).wantw = f.wantw := rfl

theorem Flow.charge_count (h : f.count = ulong n) :
    (f.charge x).count = ulong (n + x.bytes : Nat) := by
  have hsum := addCount_ulong n x.sizes
  rw [← h] at hsum
  unfold Flow.charge
  rw [hsum]
  simp [Msgb.bytes]

theorem Flow.take_count (h : f.count = ulong (n + x.bytes : Nat)) : (f.take x).count = ulong n := by
  have hsum := subCount_ulong (n + x.bytes : Nat) x.sizes
  rw [← h] at hsum
  unfold Flow.take
  rw [hsum]
  simp [Msgb.bytes]

@[simp] theorem Flow.relieve_count (f : Flow) : f.relieve.count = f.count := rfl

@[simp] theorem Flow.relieve_hiwat (f : Flow) : f.relieve.hiwat = f.hiwat := rfl

@[simp] theorem Flow.relieve_lowat (f : Flow) : f.relieve.lowat = f.lowat := rfl

@[simp] theorem Flow.relieve_full (f : Flow) : f.relieve.full = f.full := rfl

theorem Flow.relieve_waits (f : Flow) :
    f.relieve.wantw = true → f.relieve.lowat < f.relieve.count := by
  unfold Flow.relieve Flow.relieved
  cases f.wantw <;> simp

theorem Flow.relieve_of_not (h : f.relieved = false) : f.relieve = f := by
  simp [Flow.relieve, h]

theorem Flow.recharge_concat (f : Flow) (x : Msgb) (kept : List Msgb) :
    f.recharge (kept ++ [x]) = (f.recharge kept).charge x := by
  simp [Flow.recharge]

theorem total_concat (kept : List Msgb) (x : Msgb) :
    total (kept ++ [x]) = total kept + x.bytes := by
  simp [total]

theorem Flow.recharge_rest (f : Flow) (kept : List Msgb) :
    (f.recharge kept).hiwat = f.hiwat ∧ (f.recharge kept).lowat = f.lowat ∧
      (f.recharge kept).wantw = f.wantw := by
  induction kept using List.reverseRecOn with
  | nil => exact ⟨rfl, rfl, rfl⟩
  | append_singleton kept x ih => rwa [Flow.recharge_concat]

theorem Flow.recharge_count (f : Flow) (kept : List Msgb) :
    (f.recharge kept).count = ulong (total kept) := by
  induction kept using List.reverseRecOn with
  | nil => rfl
  | append_singleton kept x ih =>
    rw [Flow.recharge_concat, total_concat]
    exact Flow.charge_count ih

end Flows

/-!
## Laws
-/

theorem Account.Counted.law : Account.Law Account.Counted where
  fresh _ _ := by simp [Counted, Flow.fresh, ulong]
  settle a b hstep h := by
    cases hstep with
    | take f n any x => exact Flow.take_count h
    | rebuild f n any kept hle hany => exact Flow.recharge_count f kept
    | restore f any kept hany => exact Flow.recharge_count f kept
    | want f n any hfull => exact h
    | forget f n any => exact h

variable {a : Account}

theorem Account.Counted.charge (h : a.Counted) (x : Msgb) : (a.charge x).Counted :=
  Flow.charge_count h

theorem Account.Marked.law : Account.Law Account.Marked where
  fresh _ h := h
  settle a b hstep h := by
    cases hstep with
    | take f n any x => exact h
    | rebuild f n any kept hle hany =>
      rcases f.recharge_rest kept with ⟨hhi, hlo, _⟩
      unfold Marked at h ⊢
      simpa [hhi, hlo] using h
    | restore f any kept hany =>
      rcases f.recharge_rest kept with ⟨hhi, hlo, _⟩
      unfold Marked at h ⊢
      simpa [hhi, hlo] using h
    | want f n any hfull => exact h
    | forget f n any => exact h

theorem Account.Marked.charge (h : a.Marked) (x : Msgb) : (a.charge x).Marked :=
  h

theorem Account.Exact.charge (h : a.Exact) {x : Msgb}
    (hlt : a.bytes + x.bytes < 4294967296) : (a.charge x).Exact := by
  have hcount : (a.flow.charge x).count = a.bytes + x.bytes := by
    rw [Flow.charge_count (n := a.bytes) (by rw [h.count, ulong_of_lt h.lt]), ulong_of_lt hlt]
  have hfull : (a.flow.charge x).full =
      if a.flow.hiwat ≤ a.bytes + x.bytes then true else a.flow.full := by
    have := hcount
    unfold Flow.charge at this ⊢
    simp only at this ⊢
    rw [this]
  refine ⟨hlt, hcount, ?_, ?_⟩
  · intro hf
    have hf' : (a.flow.charge x).full = true := hf
    rw [hfull] at hf'
    split at hf'
    · assumption
    · have := h.high hf'
      omega
  · intro hle _
    have hle' : a.flow.hiwat ≤ a.bytes + x.bytes := hle
    change (a.flow.charge x).full = true
    rw [hfull, if_pos hle']

theorem Account.exact_recharge (f : Flow) (kept : List Msgb) (hlt : total kept < 4294967296) :
    Account.Exact ⟨f.recharge kept, total kept, !kept.isEmpty⟩ := by
  induction kept using List.reverseRecOn with
  | nil =>
    refine ⟨hlt, rfl, ?_, ?_⟩
    · intro hf
      cases hf
    · intro hle hany
      simp only [total, map_nil, sum_nil, isEmpty_nil,
        Bool.not_true, Bool.false_eq_true, or_false] at hle hany
      omega
  | append_singleton kept x ih =>
    rw [total_concat] at hlt
    have hcharged := (ih (by omega)).charge (x := x) hlt
    have hany : (!(kept ++ [x]).isEmpty) = true := by simp
    rw [Flow.recharge_concat, total_concat, hany]
    exact hcharged

theorem Account.Exact.relieve (h : a.Exact) : Account.Exact ⟨a.flow.relieve, a.bytes, a.any⟩ :=
  ⟨h.lt, h.count, h.high, h.full⟩

theorem Account.Exact.law : Account.Law Account.Exact where
  fresh a _ := by
    refine ⟨by simp, rfl, ?_, ?_⟩
    · intro hf
      cases hf
    · intro hle hany
      simp only [Flow.fresh, Bool.false_eq_true, or_false] at hle hany
      omega
  settle a b hstep h := by
    cases hstep with
    | take f n any x =>
      have hlt : n + x.bytes < 4294967296 := h.lt
      have hcount : (f.take x).count = n := by
        rw [Flow.take_count (n := n)
          (by rw [ulong_of_lt hlt]; exact h.count), ulong_of_lt (by omega)]
      have hfull : (f.take x).full = if n < f.hiwat then false else f.full := by
        have := hcount
        unfold Flow.take at this ⊢
        simp only at this ⊢
        rw [this]
      refine Account.Exact.relieve (a := ⟨f.take x, n, any⟩)
        ⟨show n < 4294967296 by omega, hcount, ?_, ?_⟩
      · intro hf
        have hf' : (f.take x).full = true := hf
        rw [hfull] at hf'
        change f.hiwat ≤ n
        split at hf'
        · cases hf'
        · omega
      · intro hle _
        have hle' : f.hiwat ≤ n := hle
        rw [hfull, if_neg (by omega)]
        have hbefore : f.hiwat ≤ n + x.bytes := by omega
        exact h.full hbefore (Or.inr rfl)
    | rebuild f n any kept hle hany =>
      have hlt : n < 4294967296 := h.lt
      exact (Account.exact_recharge f kept (by omega)).relieve
    | restore f any kept hany => exact Account.exact_recharge f kept h.lt
    | want f n any hfull => exact ⟨h.lt, h.count, h.high, h.full⟩
    | forget f n any => exact ⟨h.lt, h.count, h.high, h.full⟩

theorem Account.Waits.law : Account.Law fun a => a.Exact ∧ a.Marked ∧ a.Waits where
  fresh a h := by
    refine ⟨Account.Exact.law.fresh a h.1, h.2.1, ?_⟩
    intro hw
    cases hw
  settle a b hstep h := by
    refine ⟨Account.Exact.law.settle a b hstep h.1, Account.Marked.law.settle a b hstep h.2.1, ?_⟩
    cases hstep with
    | take f n any x => exact Flow.relieve_waits _
    | rebuild f n any kept hle hany => exact Flow.relieve_waits _
    | restore f any kept hany =>
      rcases f.recharge_rest kept with ⟨_, hlo, hw⟩
      have hcount : (f.recharge kept).count = f.count := by
        rw [Flow.recharge_count, ulong_of_lt h.1.lt]
        exact h.1.count.symm
      have hwaits := h.2.2
      unfold Account.Waits at hwaits ⊢
      simpa [hcount, hlo, hw] using hwaits
    | want f n any hfull =>
      intro _
      have hmark : f.lowat < f.hiwat := h.2.1
      have hcount : f.count = n := h.1.count
      have hhigh : f.hiwat ≤ n := h.1.high hfull
      change f.lowat < f.count
      omega
    | forget f n any =>
      intro hw
      cases hw

theorem Account.Waits.charge (h : a.Exact) (hw : a.Waits) {x : Msgb}
    (hlt : a.bytes + x.bytes < 4294967296) : (a.charge x).Waits := by
  intro hwait
  have hbefore := hw hwait
  have hcount : (a.flow.charge x).count = a.bytes + x.bytes :=
    (h.charge hlt).count
  have hold := h.count
  change a.flow.lowat < (a.flow.charge x).count
  omega

/-!
## Settling a queue
-/

structure Settled (m : Blocks) (q : Queue) (l : List Nat) (m' : Blocks)
    (q' : Queue) (l' : List Nat) : Prop where
  ok : q'.Ok m' l'
  sub : l'.Sublist l
  hdr : SameHdr m m'
  frame : ∀ j, j ∉ l → m'.blk j = m.blk j
  same : SameFlags q q'
  nband : q'.qNband = q.qNband
  flows : ∀ c f', q'.flow c = some f' → ∃ f, q.flow c = some f ∧
    Relation.ReflTransGen Account.Settle (m.account l c f) (m'.account l' c f')

/-- A writer that waited for the band waits no longer. -/
def Cleared (q q' : Queue) (c : Nat) : Prop :=
  (∃ f, q.flow c = some f ∧ f.wantw = true) ∧ ∃ f', q'.flow c = some f' ∧ f'.wantw = false

def Small (relief : Relief) : Prop := ∀ bs, relief = some bs → ∀ c ∈ bs, c < 256

theorem small_none : Small none := by
  intro bs hbs
  cases hbs

theorem small_singleton {c : Nat} (h : c < 256) : Small (some [c]) := by
  rintro bs hbs c' hc'
  cases hbs
  rwa [mem_singleton.mp hc']

variable {rs : List Relief}

section Settling

variable {m m' m'' : Blocks} {q q' q'' : Queue} {l l' l'' : List Nat} {c mp : Nat} {f : Flow}
  {relief : Relief}

theorem Blocks.account_hdr (h : SameHdr m m') : m'.account l c f = m.account l c f := by
  simp [Blocks.account, h.bytes, h.band]

theorem Blocks.bytes_perm (h : l.Perm l') : m.bytes l c = m.bytes l' c :=
  ((h.filter _).map _).sum_eq

theorem Blocks.bytes_cons (m : Blocks) (p : Nat) (l : List Nat) (c : Nat) :
    m.bytes (p :: l) c = (if m.band p = c then (m.blk p).bytes else 0) + m.bytes l c := by
  unfold Blocks.bytes
  by_cases h : m.band p = c
  · simp [h]
  · simp [h]

theorem Blocks.any_perm (h : l.Perm l') :
    (l.any fun p => decide (m.band p = c)) = l'.any fun p => decide (m.band p = c) := by
  rw [Bool.eq_iff_iff, any_eq_true, any_eq_true]
  simp only [h.mem_iff]

theorem Blocks.account_perm (h : l.Perm l') : m.account l c f = m.account l' c f := by
  simp only [Blocks.account, bytes_perm h, any_perm h]

theorem Settled.refl (h : q.Ok m l) : Settled m q l m q l :=
  ⟨h, List.Sublist.refl l, SameHdr.refl m, fun _ _ => rfl, SameFlags.refl q, rfl,
    fun _ f' hf => ⟨f', hf, Relation.ReflTransGen.refl⟩⟩

theorem Settled.trans (h : Settled m q l m' q' l')
    (h' : Settled m' q' l' m'' q'' l'') : Settled m q l m'' q'' l'' where
  ok := h'.ok
  sub := h'.sub.trans h.sub
  hdr := h.hdr.trans h'.hdr
  frame j hj := by
    rw [h'.frame j fun hmem => hj (h.sub.subset hmem), h.frame j hj]
  same := h.same.trans h'.same
  nband := h'.nband.trans h.nband
  flows c f'' hf'' := by
    rcases h'.flows c f'' hf'' with ⟨f', hf', hsteps'⟩
    rcases h.flows c f' hf' with ⟨f, hf, hsteps⟩
    exact ⟨f, hf, hsteps.trans hsteps'⟩

theorem Taken.settled (h : Taken m q l mp f m' q' relief) (hmp : mp ∈ l) :
    Settled m q l m' q' (l.erase mp) where
  ok := h.ok
  sub := erase_sublist
  hdr := h.hdr
  frame := h.frame
  same := h.same
  nband := h.nband
  flows c f' hf' := by
    rw [h.flows] at hf'
    have hperm : l.Perm (mp :: l.erase mp) := perm_cons_erase hmp
    by_cases hc : c = m.band mp
    · rw [if_pos hc, Option.some.injEq] at hf'
      refine ⟨f, by rw [hc]; exact h.flow, Relation.ReflTransGen.single ?_⟩
      have hbytes : m.bytes l c = m.bytes (l.erase mp) c + (m.blk mp).bytes := by
        rw [bytes_perm hperm, bytes_cons, if_pos hc.symm, Nat.add_comm]
      have hany : (l.any fun p => decide (m.band p = c)) = true :=
        any_eq_true.mpr ⟨mp, hmp, by simp [hc]⟩
      rw [account_hdr h.hdr, ← hf']
      unfold Blocks.account
      rw [hbytes, hany]
      exact Account.Settle.take f _ _ _
    · rw [if_neg hc] at hf'
      refine ⟨f', hf', ?_⟩
      have hne : ¬ m.band mp = c := fun heq => hc heq.symm
      have hsame : m.account l c f' = m.account (l.erase mp) c f' := by
        rw [account_perm hperm]
        simp [Blocks.account, bytes_cons, hne]
      rw [account_hdr h.hdr, hsame]

theorem Taken.cleared (h : Taken m q l mp f m' q' relief)
    (hc : Cleared q q' c) : ∃ bs, relief = some bs ∧ c ∈ bs := by
  rcases hc with ⟨⟨f₁, hf₁, hw₁⟩, f₂, hf₂, hw₂⟩
  rw [h.flows] at hf₂
  by_cases hband : c = m.band mp
  · rw [if_pos hband, Option.some.injEq] at hf₂
    rw [hband, h.flow, Option.some.injEq] at hf₁
    have hrel : (f.take (m.blk mp)).relieved = true := by
      by_contra hno
      rw [Bool.not_eq_true] at hno
      rw [← hf₂, Flow.relieve_of_not hno] at hw₂
      rw [← hf₁] at hw₁
      have hkeep : (f.take (m.blk mp)).wantw = f.wantw := rfl
      rw [hkeep, hw₁] at hw₂
      cases hw₂
    exact ⟨_, by rw [h.relief, if_pos hrel], by simp [hband]⟩
  · rw [if_neg hband, hf₁, Option.some.injEq] at hf₂
    rw [← hf₂, hw₁] at hw₂
    cases hw₂

theorem Taken.small (h : Taken m q l mp f m' q' relief) : Small relief := by
  rw [h.relief]
  split
  · exact small_singleton (m.band_lt mp)
  · exact small_none

theorem Drained.small (h : Drained m q l rs m' q' l') : ∀ relief ∈ rs, Small relief := by
  induction h with
  | done _ => simp
  | pass _ ih =>
    intro relief hmem
    rcases mem_cons.mp hmem with rfl | hmem
    · exact small_none
    · exact ih relief hmem
  | take _ ht _ ih =>
    intro relief hmem
    rcases mem_cons.mp hmem with rfl | hmem
    · exact ht.small
    · exact ih relief hmem

theorem Drained.settled (h : Drained m q l rs m' q' l') : Settled m q l m' q' l' := by
  induction h with
  | done h => exact Settled.refl h
  | pass _ ih => exact ih
  | take hp ht _ ih => exact (ht.settled hp).trans ih

theorem Drained.cleared (h : Drained m q l rs m' q' l')
    (hc : Cleared q q' c) : ∃ bs, some bs ∈ rs ∧ c ∈ bs := by
  induction h with
  | done _ =>
    rcases hc with ⟨⟨f₁, hf₁, hw₁⟩, f₂, hf₂, hw₂⟩
    rw [hf₁, Option.some.injEq] at hf₂
    rw [← hf₂, hw₁] at hw₂
    cases hw₂
  | pass _ ih =>
    rcases ih hc with ⟨bs, hbs, hmem⟩
    exact ⟨bs, by simp [hbs], hmem⟩
  | @take m q l p f m₁ q₁ relief rs m' q' l' hp ht _ ih =>
    rcases hc with ⟨⟨f₁, hf₁, hw₁⟩, hafter⟩
    -- The writer either goes on at this message or waits for another.
    have hle := Queue.le_of_flow hf₁
    rw [← ht.nband] at hle
    rcases Queue.flow_isSome hle with ⟨g, hg⟩
    by_cases hw : g.wantw = true
    · rcases ih ⟨⟨g, hg, hw⟩, hafter⟩ with ⟨bs, hbs, hmem⟩
      exact ⟨bs, by simp [hbs], hmem⟩
    · rw [Bool.not_eq_true] at hw
      rcases ht.cleared ⟨⟨f₁, hf₁, hw₁⟩, g, hg, hw⟩ with ⟨bs, hbs, hmem⟩
      exact ⟨bs, by simp [hbs], hmem⟩

/-- The messages of a band that are kept, as they are accounted for. -/
def Blocks.bandMsgs (m : Blocks) (l : List Nat) (c : Nat) : List Msgb :=
  (l.filter fun p => decide (m.band p = c)).map m.blk

theorem Queue.refilled_eq (m : Blocks) (q : Queue) (l : List Nat) (c : Nat) :
    q.refilled m l c = (q.flow c).map fun f => f.recharge (m.bandMsgs l c) := by
  unfold Queue.refilled Flow.recharge Flow.charges Blocks.bandMsgs
  simp only [foldl_map]

theorem Blocks.total_bandMsgs (m : Blocks) (l : List Nat) (c : Nat) :
    total (m.bandMsgs l c) = m.bytes l c := by
  unfold total Blocks.bandMsgs Blocks.bytes
  rw [map_map]
  rfl

theorem Blocks.any_bandMsgs (m : Blocks) (l : List Nat) (c : Nat) :
    (!(m.bandMsgs l c).isEmpty) = l.any fun p => decide (m.band p = c) := by
  rw [Bool.eq_iff_iff, any_eq_true]
  simp only [Blocks.bandMsgs, Bool.not_eq_true', isEmpty_eq_false_iff,
    ne_eq, map_eq_nil_iff, filter_eq_nil_iff]
  push Not
  rfl

theorem Blocks.bytes_sublist (h : l'.Sublist l) : m.bytes l' c ≤ m.bytes l c :=
  ((h.filter _).map _).sum_le_sum (by simp)

theorem Blocks.any_sublist (h : l'.Sublist l)
    (hany : (l'.any fun p => decide (m.band p = c)) = true) :
    (l.any fun p => decide (m.band p = c)) = true := by
  rcases any_eq_true.mp hany with ⟨p, hp, hband⟩
  exact any_eq_true.mpr ⟨p, h.subset hp, hband⟩

theorem settle_rebuild (hsub : l'.Sublist l) :
    Account.Settle (m.account l c f) (m.account l' c (f.recharge (m.bandMsgs l' c)).relieve) := by
  have hstep := Account.Settle.rebuild f (m.bytes l c)
    (l.any fun p => decide (m.band p = c)) (m.bandMsgs l' c)
    (by rw [Blocks.total_bandMsgs]; exact Blocks.bytes_sublist hsub)
    (by
      intro hne
      apply Blocks.any_sublist hsub
      rw [← Blocks.any_bandMsgs]
      simpa [isEmpty_eq_false_iff] using hne)
  rw [Blocks.total_bandMsgs, Blocks.any_bandMsgs] at hstep
  exact hstep

theorem settle_restore (hsame : (l'.filter fun p => decide (m.band p = c)) =
      l.filter fun p => decide (m.band p = c)) :
    Account.Settle (m.account l c f) (m.account l' c (f.recharge (m.bandMsgs l' c))) := by
  have hmsgs : m.bandMsgs l' c = m.bandMsgs l c := by
    unfold Blocks.bandMsgs
    rw [hsame]
  have hstep := Account.Settle.restore f (l.any fun p => decide (m.band p = c)) (m.bandMsgs l' c)
    (by
      intro hne
      rw [hmsgs] at hne
      rw [← Blocks.any_bandMsgs]
      simpa [isEmpty_eq_false_iff] using hne)
  rw [Blocks.any_bandMsgs, Blocks.total_bandMsgs] at hstep
  have hbytes : m.bytes l c = m.bytes l' c := by
    unfold Blocks.bytes
    rw [hsame]
  unfold Blocks.account
  rw [hbytes]
  exact hstep

end Settling

/-!
## The routines
-/

variable {q' : Queue}

section Routines

variable {m : Blocks} {q : Queue} {l : List Nat}

theorem Refilled.settled {m' : Blocks} {l' : List Nat} (h : Refilled m q l m' q' l')
    (hsub : l'.Sublist l) (hflows : ∀ c f', q'.flow c = some f' → ∃ f, q.flow c = some f ∧
      Account.Settle (m.account l c f) (m.account l' c f')) : Settled m q l m' q' l' where
  ok := h.ok
  sub := hsub
  hdr := h.hdr
  frame := h.frame
  same := h.same
  nband := h.nband
  flows c f' hf' := by
    rcases hflows c f' hf' with ⟨f, hf, hstep⟩
    refine ⟨f, hf, Relation.ReflTransGen.single ?_⟩
    rwa [account_hdr h.hdr]

theorem flushq_settled (h : q.Ok m l) (avail : List Bool) (flag : Bool) :
    ∃ r, flushq avail m q flag = some r ∧ Settled m q l r.m r.q (l.filter (keptBy m flag)) ∧
      (∀ c, Cleared q r.q c → ∃ bs, r.relief = some bs ∧ (q.qNband < 255 → c ∈ bs)) ∧
      Small r.relief := by
  rcases flushq_spec h avail flag with ⟨r, hrun, hre, hflows, hrelief, hsmall⟩
  have hflow : ∀ c, r.q.flow c = (q.flow c).map fun f =>
      (f.recharge (m.bandMsgs (l.filter (keptBy m flag)) c)).relieve := by
    intro c
    rw [hflows, Queue.refilled_eq, Option.map_map]
    rfl
  refine ⟨r, hrun, hre.settled filter_sublist ?_, ?_, hsmall⟩
  · intro c f' hf'
    rw [hflow] at hf'
    rcases Option.map_eq_some_iff.mp hf' with ⟨f, hf, rfl⟩
    exact ⟨f, hf, settle_rebuild filter_sublist⟩
  · rintro c ⟨⟨f, hf, hw⟩, f', hf', hw'⟩
    rw [hflow, hf, Option.map_some, Option.some.injEq] at hf'
    refine hrelief c _ (by rw [Queue.refilled_eq, hf, Option.map_some]) ?_
    by_contra hno
    rw [Bool.not_eq_true] at hno
    rw [← hf', Flow.relieve_of_not hno, (f.recharge_rest _).2.2, hw] at hw'
    cases hw'

theorem flushband0_settled (h : q.Ok m l) (avail : List Bool) (flag : Bool) :
    ∃ r, flushband0 avail m q flag = some r ∧ Settled m q l r.m r.q (l.filter (keptNormal m flag)) ∧
      (∀ c, Cleared q r.q c → ∃ bs, r.relief = some bs ∧ c ∈ bs) ∧ Small r.relief := by
  rcases flushband0_spec h avail flag with ⟨r, f₀, hrun, hre, hf₀, hrelief, hflows⟩
  rw [Queue.refilled_eq] at hf₀
  rcases Option.map_eq_some_iff.mp hf₀ with ⟨g, hg, rfl⟩
  have hflow : ∀ c, c ≠ 0 → r.q.flow c = (q.flow c).map fun f =>
      f.recharge (m.bandMsgs (l.filter (keptNormal m flag)) c) := by
    intro c hc
    rw [hflows, if_neg hc, Queue.refilled_eq]
  -- Messages of the other bands are all kept.
  have hkept : ∀ c, c ≠ 0 → ((l.filter (keptNormal m flag)).filter
      fun p => decide (m.band p = c)) = l.filter fun p => decide (m.band p = c) := by
    intro c hc
    rw [filter_filter]
    apply filter_congr
    intro p _
    by_cases hp : m.band p = c
    · have hp' : ¬ (m.blk p).bBand = 0 := by
        intro h0
        exact hc (hp.symm.trans h0)
      simp [hp, keptNormal, hp']
    · simp [hp]
  refine ⟨r, hrun, hre.settled filter_sublist ?_, ?_, ?_⟩
  · intro c f' hf'
    by_cases hc : c = 0
    · rw [hflows, if_pos hc, Option.some.injEq] at hf'
      subst hc
      rw [← hf']
      exact ⟨g, hg, settle_rebuild filter_sublist⟩
    · rw [hflow c hc] at hf'
      rcases Option.map_eq_some_iff.mp hf' with ⟨f, hf, rfl⟩
      exact ⟨f, hf, settle_restore (hkept c hc)⟩
  · rintro c ⟨⟨f, hf, hw⟩, f', hf', hw'⟩
    by_cases hc : c = 0
    · rw [hflows, if_pos hc, Option.some.injEq] at hf'
      subst hc
      rw [hg, Option.some.injEq] at hf
      subst hf
      refine ⟨[0], ?_, by simp⟩
      rw [hrelief, if_pos]
      by_contra hno
      rw [Bool.not_eq_true] at hno
      rw [← hf', Flow.relieve_of_not hno, (g.recharge_rest _).2.2, hw] at hw'
      cases hw'
    · rw [hflow c hc, hf, Option.map_some, Option.some.injEq] at hf'
      rw [← hf', (f.recharge_rest _).2.2, hw] at hw'
      cases hw'
  · rw [hrelief]
    split
    · exact small_singleton (by omega)
    · exact small_none

theorem settled_band {c₀ : Nat} {f₀ f₁ : Flow} (h : q.Ok m l) (hfirst : q'.qFirst = q.qFirst)
    (hlast : q'.qLast = q.qLast) (hnband : q'.qNband = q.qNband) (hsame : SameFlags q q')
    (hdelim : ∀ c, 1 ≤ c → q'.delim c = q.delim c) (hf₀ : q.flow c₀ = some f₀)
    (hflows : ∀ c, q'.flow c = if c = c₀ then some f₁ else q.flow c)
    (hstep : Account.Settle (m.account l c₀ f₀) (m.account l c₀ f₁)) : Settled m q l m q' l where
  ok := h.of_queue hfirst hlast hnband hdelim
  sub := List.Sublist.refl l
  hdr := SameHdr.refl m
  frame _ _ := rfl
  same := hsame
  nband := hnband
  flows c f' hf' := by
    rw [hflows] at hf'
    by_cases hc : c = c₀
    · rw [if_pos hc, Option.some.injEq] at hf'
      subst hc hf'
      exact ⟨f₀, hf₀, Relation.ReflTransGen.single hstep⟩
    · rw [if_neg hc] at hf'
      exact ⟨f', hf', Relation.ReflTransGen.refl⟩

theorem Queue.flow_setWantw (q : Queue) (w : Bool) (c : Nat) : Queue.flow { q with qWantw := w } c =
      if c = 0 then some ⟨q.qCount, q.qHiwat, q.qLowat, q.qFull, w⟩ else q.flow c := by
  by_cases hc : c = 0
  · simp [Queue.flow, hc]
  · rw [if_neg hc, Queue.flow_band (by omega), Queue.flow_band (by omega)]
    rfl

theorem settled_empty (h : q.Ok m l) :
    Settled m q l m { q with qWantr := true, qWantw := false } l :=
  settled_band h rfl rfl rfl ⟨rfl, rfl, rfl, rfl, rfl, rfl⟩ (fun _ _ => rfl) q.flow_zero
    (Queue.flow_setWantw { q with qWantr := true } false)
    (Account.Settle.forget _ _ _)

theorem getq_settled (h : q.Ok m l) :
    ∃ g, getq m q = some g ∧ g.bp = (l.find? fun p => !(m.blk p).msgnoget) ∧
      Settled m q l g.m g.q (match g.bp with
        | some p => l.erase p
        | none => l) ∧ (∀ c, Cleared q g.q c → ∃ bs, g.relief = some bs ∧ c ∈ bs) ∧
      Small g.relief := by
  rcases getq_spec h with ⟨g, hrun, hbp, hg⟩
  refine ⟨g, hrun, hbp, ?_⟩
  have hstay : ∀ c, ¬ Cleared q q c := by
    rintro c ⟨⟨f, hf, hw⟩, f', hf', hw'⟩
    rw [hf, Option.some.injEq] at hf'
    rw [← hf', hw] at hw'
    cases hw'
  cases hfound : g.bp with
  | some p =>
    rw [hfound] at hg hbp
    rcases hg with ⟨f, ht⟩
    have hmem : p ∈ l := mem_of_find?_eq_some hbp.symm
    exact ⟨ht.settled hmem, fun c hc => ht.cleared hc, ht.small⟩
  | none =>
    rw [hfound] at hg
    rcases hg with ⟨hm, hg⟩
    rw [hm]
    by_cases hl : l = []
    · rw [if_pos hl] at hg
      rcases hg with ⟨hq, hrelief⟩
      rw [hq, hrelief]
      refine ⟨settled_empty h, ?_, ?_⟩
      rotate_left
      · split
        · exact small_singleton (by omega)
        · exact small_none
      rintro c ⟨⟨f, hf, hw⟩, f', hf', hw'⟩
      by_cases hc : c = 0
      · subst hc
        rw [Queue.flow_zero, Option.some.injEq] at hf
        rw [← hf] at hw
        exact ⟨[0], if_pos hw, by simp⟩
      · have hkeep := Queue.flow_setWantw { q with qWantr := true } false c
        rw [if_neg hc] at hkeep
        have hf'' : q.flow c = some f' := by
          rw [← hf', hkeep]
          rfl
        rw [hf, Option.some.injEq] at hf''
        rw [← hf'', hw] at hw'
        cases hw'
    · rw [if_neg hl] at hg
      rw [hg.1, hg.2]
      exact ⟨Settled.refl h, fun c hc => absurd hc (hstay c), small_none⟩

theorem settled_want {c : Nat} {f : Flow} (h : q.Ok m l) (hf : q.flow c = some f)
    (hfull : f.full = true) (hq' : q' = if c = 0 then { q with qWantw := true }
      else q.modBand c fun qb => { qb with qbWantw := true }) :
    Settled m q l m q' l := by
  subst hq'
  by_cases hc : c = 0
  · subst hc
    rw [Queue.flow_zero, Option.some.injEq] at hf
    subst hf
    exact settled_band h rfl rfl rfl ⟨rfl, rfl, rfl, rfl, rfl, rfl⟩
      (fun _ _ => rfl) q.flow_zero (q.flow_setWantw true)
      (Account.Settle.want _ _ _ hfull)
  · rw [if_neg hc]
    have hpos : 1 ≤ c := by omega
    rw [Queue.flow_band hpos] at hf
    rcases Option.map_eq_some_iff.mp hf with ⟨qb, hqb, rfl⟩
    refine settled_band h
      rfl rfl (Queue.qNband_modBand _) ⟨rfl, rfl, rfl, rfl, rfl, rfl⟩ ?_
      (by rw [Queue.flow_band hpos, hqb]; rfl) ?_
      (Account.Settle.want _ _ _ hfull)
    · intro c' hc'
      unfold Queue.delim
      rw [Queue.band?_modBand _ hc' hpos]
      by_cases hne : c' = c
      · rw [if_pos hne, Option.map_map]
        rfl
      · rw [if_neg hne]
    · intro c'
      rw [Queue.flow_modBand _ hpos]
      by_cases hne : c' = c
      · rw [if_pos hne, if_pos hne, hne, hqb]
        rfl
      · rw [if_neg hne, if_neg hne]

end Routines

end Streams
end Svr4
