import Svr4.RecordLock.Refinement

/-!
# Lock ranges

A request names its range by a start, a length and a `whence`; the range
itself is a matter of exact arithmetic.  `reclock` computes it in 32 bits
and looks at the signs of the results, which detects every sum that is too
large, and a sum that is too small unless it wraps round to a place in the file.
-/

namespace Svr4
namespace RecordLock

open NodeList

/-!
## Exact ranges
-/

def IsOff (x : Int) : Prop := -2147483648 ≤ x ∧ x ≤ 2147483647

variable {x offset size whence base start len : Int}

theorem offT_of_isOff (h : IsOff x) : offT x = x := by
  unfold offT IsOff at *
  rw [Int.bmod_eq_of_le_mul_two] <;> omega

theorem offT_above (hlo : 2147483648 ≤ x) (hhi : x ≤ 4294967294) : offT x = x - 4294967296 := by
  have hturn : offT x = offT (x - 4294967296) := by
    unfold offT
    exact (Int.sub_bmod_right x 4294967296).symm
  rw [hturn]
  exact offT_of_isOff ⟨by omega, by omega⟩

theorem offT_below (hlo : -4294967296 ≤ x) (hhi : x < -2147483648) : offT x = x + 4294967296 := by
  have hturn : offT x = offT (x + 4294967296) := by
    unfold offT
    exact (Int.add_bmod_right x 4294967296).symm
  rw [hturn]
  exact offT_of_isOff ⟨by omega, by omega⟩

/-- A range of bytes, with its last byte. -/
structure ByteRange where
  first : Int
  last : Int
deriving DecidableEq

def ByteRange.InFile (r : ByteRange) : Prop :=
  0 ≤ r.first ∧ r.first ≤ r.last ∧ r.last ≤ MAXEND

/-- The place a `whence` counts from. -/
def whenceBase (whence offset size : Int) : Option Int :=
  if whence = 0 then some 0
  else if whence = 1 then some offset
  else if whence = 2 then some size
  else none

/--
The range of `len` bytes from `start` on, where the length 0 means up
to the largest end and a negative length the bytes before.
-/
def exactRange (start len : Int) : ByteRange :=
  if len = 0 then ⟨start, MAXEND⟩
  else if 0 < len then ⟨start, start + len - 1⟩
  else ⟨start + len, start - 1⟩

/-- The range that the start and length of `lckdat` denote. -/
def Flock.denoted (lckdat : Flock) (offset size : Int) : Option ByteRange :=
  (whenceBase lckdat.lWhence offset size).map fun base =>
    exactRange (base + lckdat.lStart) lckdat.lEnd

/-!
## The checks of reclock
-/

theorem offT_isOff (x : Int) : IsOff (offT x) := by
  have hlo : -((4294967296 : Int) / 2) ≤ offT x := Int.le_bmod (by decide)
  have hhi := offT_le x
  unfold MAXEND at hhi
  exact ⟨by omega, by omega⟩

variable {lckdat ld : Flock}

theorem convoff_eq (whence : Int) (hstart : IsOff lckdat.lStart) :
    convoff lckdat whence offset (.ok size) =
      match whenceBase lckdat.lWhence offset size, whenceBase whence offset size with
      | some base, some base' => if offT (base + lckdat.lStart) < 0 then .error .einval
        else .ok { lckdat with
          lStart := offT (offT (base + lckdat.lStart) - base'), lWhence := whence }
      | _, _ => .error .einval := by
  have hself : offT lckdat.lStart = lckdat.lStart := offT_of_isOff hstart
  have hagain : ∀ x, offT (offT x) = offT x := fun x => offT_of_isOff (offT_isOff x)
  unfold convoff whenceBase
  simp only [bind, Except.bind, pure, Except.pure, throw, throwThe, MonadExceptOf.throw,
    Int.add_comm lckdat.lStart]
  by_cases h1 : whence = 1
  · split_ifs <;> simp_all
  · by_cases h2 : whence = 2
    · split_ifs <;> simp_all
    · by_cases h0 : whence = 0
      · split_ifs <;> simp_all
      · split_ifs <;> simp_all

theorem lenToEnd_eq (hstart : 0 ≤ lckdat.lStart) (hmax : lckdat.lStart ≤ MAXEND)
    (hlen : IsOff lckdat.lEnd) : lenToEnd lckdat =
      if 0 ≤ lckdat.lEnd ∧ (exactRange lckdat.lStart lckdat.lEnd).last ≤ MAXEND then
        .ok { lckdat with lEnd := (exactRange lckdat.lStart lckdat.lEnd).last }
      else .error .einval := by
  unfold IsOff at hlen
  unfold MAXEND at *
  unfold lenToEnd exactRange
  by_cases hneg : lckdat.lEnd < 0
  · rw [if_pos hneg, if_neg (by omega)]
  · rw [if_neg hneg]
    by_cases hzero : lckdat.lEnd = 0
    · simp only [hzero, if_true]
      unfold MAXEND
      rw [if_neg (by omega), if_pos (by omega)]
    · simp only [hzero, if_false]
      rw [if_pos (show 0 < lckdat.lEnd by omega)]
      by_cases hfits : lckdat.lStart + lckdat.lEnd - 1 ≤ 2147483647
      · have hsum : offT (lckdat.lEnd + (lckdat.lStart - 1)) = lckdat.lStart + lckdat.lEnd - 1 := by
          rw [offT_of_isOff ⟨by omega, by omega⟩]
          omega
        rw [hsum, if_neg (by omega), if_pos ⟨by omega, hfits⟩]
      · rw [offT_above (by omega) (by omega), if_pos (by omega), if_neg fun h => hfits h.2]

section Request

variable {q : Request} {size : Int}

/-- The request as `reclock` sees it when it comes to the loop. -/
def Request.converted (q : Request) (base : Int) : Flock :=
  { q.lckdat with
    lWhence := 0
    lStart := offT (base + q.lckdat.lStart)
    lEnd := (exactRange (offT (base + q.lckdat.lStart)) q.lckdat.lEnd).last }

theorem reclockEnter_eq (hstart : IsOff q.lckdat.lStart) (hlen : IsOff q.lckdat.lEnd)
    (hsize : q.vaSize = .ok size) (haccess : accessError q = none) : reclockEnter q =
      match whenceBase q.lckdat.lWhence q.offset size with
      | none => .error .einval
      | some base => if 0 ≤ offT (base + q.lckdat.lStart) ∧ 0 ≤ q.lckdat.lEnd ∧
            (q.converted base).lEnd ≤ MAXEND then .ok (q.converted base) else .error .einval := by
  have hself : ∀ x, offT (offT x - 0) = offT x := by
    intro x
    rw [Int.sub_zero]
    exact offT_of_isOff (offT_isOff x)
  have hwhence : whenceBase 0 q.offset size = some 0 := rfl
  unfold reclockEnter
  rw [haccess, hsize, convoff_eq 0 hstart, hwhence]
  cases whenceBase q.lckdat.lWhence q.offset size with
  | none => rfl
  | some base =>
    dsimp only
    by_cases hneg : offT (base + q.lckdat.lStart) < 0
    · rw [if_pos hneg, if_neg fun h => by omega]
    · rw [if_neg hneg]
      dsimp only
      rw [hself]
      have hlast : lenToEnd { q.lckdat with
            lStart := offT (base + q.lckdat.lStart), lWhence := 0 } = _ :=
        lenToEnd_eq (show 0 ≤ offT (base + q.lckdat.lStart) by omega) (offT_le _) hlen
      rw [hlast]
      unfold Request.converted
      by_cases hok : 0 ≤ q.lckdat.lEnd ∧
          (exactRange (offT (base + q.lckdat.lStart)) q.lckdat.lEnd).last ≤ MAXEND
      · rw [if_pos hok, if_pos ⟨by omega, hok⟩]
      · rw [if_neg hok, if_neg fun h => hok h.2]

/-!
## What is accepted
-/

/-- The start is too small by so much that it wraps round into the file. -/
def Request.Wraps (q : Request) (size : Int) : Prop :=
  ∃ base, whenceBase q.lckdat.lWhence q.offset size = some base ∧
    base + q.lckdat.lStart < -2147483648 ∧ 0 ≤ q.lckdat.lEnd ∧
    base + q.lckdat.lStart + 4294967296 + q.lckdat.lEnd - 1 ≤ MAXEND

theorem isOff_whenceBase (hoff : IsOff offset) (hsize : IsOff size)
    (hbase : whenceBase whence offset size = some base) : IsOff base := by
  unfold whenceBase at hbase
  split_ifs at hbase <;> cases hbase
  · exact ⟨by decide, by decide⟩
  · exact hoff
  · exact hsize

theorem exactRange_first (hlen : 0 ≤ len) : (exactRange start len).first = start := by
  unfold exactRange
  split_ifs
  · rfl
  · rfl
  · omega

theorem le_exactRange_last (hlen : 0 ≤ len) (hmax : start ≤ MAXEND) :
    start ≤ (exactRange start len).last := by
  unfold exactRange
  split_ifs
  · exact hmax
  · dsimp only
    omega
  · omega

theorem accepted_exact (hstart : IsOff q.lckdat.lStart) (hlen : IsOff q.lckdat.lEnd)
    (hbase : IsOff base) (hva : q.vaSize = .ok size) (haccess : accessError q = none)
    (hwhence : whenceBase q.lckdat.lWhence q.offset size = some base) (hwraps : ¬ q.Wraps size)
    (h : reclockEnter q = .ok ld) : ld = q.converted base ∧ 0 ≤ q.lckdat.lEnd ∧
      offT (base + q.lckdat.lStart) = base + q.lckdat.lStart ∧
      (exactRange (base + q.lckdat.lStart) q.lckdat.lEnd).InFile := by
  rw [reclockEnter_eq hstart hlen hva haccess, hwhence] at h
  dsimp only at h
  split at h
  · rename_i hok
    cases h
    rcases hok with ⟨hpos, hnonneg, hlast⟩
    have hself : offT (base + q.lckdat.lStart) = base + q.lckdat.lStart := by
      by_cases hlow : base + q.lckdat.lStart < -2147483648
      · refine absurd ⟨base, hwhence, hlow, hnonneg, ?_⟩ hwraps
        have hturn : offT (base + q.lckdat.lStart) = base + q.lckdat.lStart + 4294967296 :=
          offT_below (by unfold IsOff at *; omega) hlow
        unfold Request.converted exactRange at hlast
        unfold MAXEND at *
        split_ifs at hlast <;> dsimp only at hlast <;> omega
      · by_cases hhigh : 2147483648 ≤ base + q.lckdat.lStart
        · have hturn : offT (base + q.lckdat.lStart) = base + q.lckdat.lStart - 4294967296 :=
            offT_above hhigh (by unfold IsOff at *; omega)
          unfold IsOff at *
          omega
        · exact offT_of_isOff ⟨by omega, by omega⟩
    refine ⟨rfl, hnonneg, hself, ?_⟩
    unfold Request.converted at hlast
    rw [hself] at hlast hpos
    have hmax : base + q.lckdat.lStart ≤ MAXEND := by
      rw [← hself]
      exact offT_le _
    refine ⟨?_, ?_, hlast⟩
    · rw [exactRange_first hnonneg]
      exact hpos
    · rw [exactRange_first hnonneg]
      exact le_exactRange_last hnonneg hmax
  · cases h

theorem wraps_accepted (hstart : IsOff q.lckdat.lStart) (hlen : IsOff q.lckdat.lEnd)
    (hoff : IsOff q.offset) (hsize : IsOff size) (hva : q.vaSize = .ok size)
    (haccess : accessError q = none) (hwraps : q.Wraps size) :
    ∃ ld r, reclockEnter q = .ok ld ∧ q.lckdat.denoted q.offset size = some r ∧ ¬ r.InFile := by
  rcases hwraps with ⟨base, hwhence, hlow, hnonneg, hlast⟩
  have hbase := isOff_whenceBase hoff hsize hwhence
  have hturn : offT (base + q.lckdat.lStart) = base + q.lckdat.lStart + 4294967296 :=
    offT_below (by unfold IsOff at *; omega) hlow
  refine ⟨q.converted base, exactRange (base + q.lckdat.lStart) q.lckdat.lEnd, ?_, ?_, ?_⟩
  · rw [reclockEnter_eq hstart hlen hva haccess, hwhence]
    refine if_pos ⟨?_, hnonneg, ?_⟩
    · unfold IsOff at *
      omega
    · unfold Request.converted exactRange
      rw [hturn]
      split_ifs
      · exact Int.le_refl _
      · omega
      · omega
  · unfold Flock.denoted
    rw [hwhence]
    rfl
  · intro hin
    have hfirst := hin.1
    rw [exactRange_first hnonneg] at hfirst
    omega

end Request

theorem restoreLen_denoted (hwhence : ld.lWhence = 0) (hin : ld.InRange) (offset size : Int) :
    (restoreLen ld).denoted offset size = some ⟨ld.lStart, ld.lEnd⟩ := by
  rcases hin with ⟨hstart, hle, hend⟩
  unfold restoreLen Flock.denoted whenceBase
  by_cases hmax : ld.lEnd = MAXEND
  · simp [hwhence, exactRange, hmax]
  · rw [if_neg hmax]
    have hlen : offT (ld.lEnd - (ld.lStart - 1)) = ld.lEnd - (ld.lStart - 1) := by
      unfold MAXEND at *
      exact offT_of_isOff ⟨by omega, by omega⟩
    simp only [hwhence, hlen, if_true, Option.map_some, exactRange]
    rw [if_neg (by omega), if_pos (by omega)]
    simp only [Option.some.injEq, ByteRange.mk.injEq]
    omega

theorem convoff_back (hwhence : ld.lWhence = 0) (hin : ld.InRange)
    (hbase : whenceBase whence offset size = some base) :
    ∃ ld', convoff ld whence offset (.ok size) = .ok ld' ∧
      convoff ld' 0 offset (.ok size) = .ok ld := by
  rcases hin with ⟨hstart, hle, hend⟩
  have hoff : IsOff ld.lStart := by
    unfold MAXEND at *
    exact ⟨by omega, by omega⟩
  have hself : offT (0 + ld.lStart) = ld.lStart := by
    rw [Int.zero_add]
    exact offT_of_isOff hoff
  have hzero : whenceBase 0 offset size = some 0 := rfl
  refine ⟨{ ld with lStart := offT (ld.lStart - base), lWhence := whence }, ?_, ?_⟩
  · rw [convoff_eq whence hoff, hwhence, hbase, hzero]
    dsimp only
    rw [hself, if_neg (by omega)]
  · have hback : offT (base + offT (ld.lStart - base)) = ld.lStart := by
      have hsum : offT (base + offT (ld.lStart - base)) = offT (base + (ld.lStart - base)) := by
        unfold offT
        exact Int.add_bmod_bmod
      rw [hsum, show base + (ld.lStart - base) = ld.lStart by omega]
      exact offT_of_isOff hoff
    rw [convoff_eq 0 (offT_isOff _), hzero]
    rw [hbase]
    dsimp only
    rw [hback, if_neg (by omega), Int.sub_zero, offT_of_isOff hoff, ← hwhence]

/-!
## The range law
-/

/--
A request at a list is accepted only for an exact range in the file, which is the
one that is stored and that the returned length denotes; a lock that is set
covers just these bytes; every other request fails, with `EINVAL` if it gets
through the access check, and the list stays; and a lock with a range in the file
can be converted to any place and back.
-/
structure RangeExact (t : Tune) (q : Request) (size : Int) (lst : List Filock)
    (k : Kern) : Prop where
  accepted : ∀ ld, reclockEnter q = .ok ld →
    ∃ r, q.lckdat.denoted q.offset size = some r ∧ r.InFile ∧
      ld.lStart = r.first ∧ ld.lEnd = r.last ∧
      (restoreLen ld).denoted q.offset size = some r ∧
      (q.cmd.setflck = true → ∀ ret lst' k', reclock t q lst k = .done none ret lst' k' →
        ∀ x, lockAt lst' q.lckdat.owner x =
          if r.first ≤ x ∧ x ≤ r.last then
            if q.lckdat.lType = .unlck then none else some q.lckdat.lType
          else lockAt lst q.lckdat.owner x)
  rejected : ∀ e, reclockEnter q = .error e → (accessError q = some e ∨ e = .einval) ∧
      reclock t q lst k = .done (some e) q.lckdat lst k
  back : ∀ ld : Flock, ld.lWhence = 0 → ld.InRange → ∀ whence base,
    whenceBase whence q.offset size = some base →
    ∃ ld', convoff ld whence q.offset (.ok size) = .ok ld' ∧
      convoff ld' 0 q.offset (.ok size) = .ok ld

theorem reclock_lockAt {t : Tune} {q : Request} {lst lst' : List Filock} {k k' : Kern}
    {ret : Flock} (hlist : ListOk lst k.zallocs) (hq : reclockEnter q = .ok ld)
    (hset : q.cmd.setflck = true) (h : reclock t q lst k = .done none ret lst' k') (x : Int) :
    lockAt lst' q.lckdat.owner x = overwrite (lockAt lst q.lckdat.owner) ld x := by
  rcases reclockEnter_ok hq with ⟨hld, hown, _⟩
  rcases reclock_done hq h with ⟨ld', hrun⟩
  have hcase := reclockPass_cases t q.renv q.cmd k hlist.wf hld
  rw [hrun] at hcase
  have hwf' := (hcase.listOk hlist hld rfl).1.wf
  have hover := (hcase.overwritten hlist hld hset).1
  rw [← hown]
  exact hover.lockAt hlist.wf hwf' x

theorem reclockEnter_error {q : Request} {e : Errno} (hstart : IsOff q.lckdat.lStart)
    (hlen : IsOff q.lckdat.lEnd) (hva : q.vaSize = .ok size) (h : reclockEnter q = .error e) :
    accessError q = some e ∨ e = .einval := by
  cases haccess : accessError q with
  | some e' =>
    unfold reclockEnter at h
    rw [haccess] at h
    cases h
    exact Or.inl rfl
  | none =>
    right
    rw [reclockEnter_eq hstart hlen hva haccess] at h
    split at h
    · cases h
      rfl
    · split at h
      · cases h
      · cases h
        rfl

def offsetLock : Request :=
  { Request.fcntl .wrlck 3 3 false with
    lckdat := ⟨.wrlck, 1, 3, 3, 0, 0⟩
    offset := 10 }

end RecordLock
end Svr4
