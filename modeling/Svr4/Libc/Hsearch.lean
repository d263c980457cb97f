import Mathlib.Data.Finset.Card
import Mathlib.Data.Nat.ModEq
import Mathlib.Tactic.Ring

/-!
# The hash table

`hcreate`, `hdestroy` and `hsearch` of `port/gen/hsearch.c`, as they are
compiled without a switch: open addressing (`OPEN`) with the multiplicative hashes
(`MULT`).
-/

namespace Svr4
namespace Hsearch

open Function

inductive ACTION where
  | FIND
  | ENTER
deriving DecidableEq

abbrev Key := List Int8

structure ENTRY where
  key : Key
  data : Nat
deriving DecidableEq

/-- The slots of a table; the key of an empty one is `NULL`. -/
abbrev Slots := Nat → Option ENTRY

structure Statics where
  table : Option Slots
  count : Nat
  length : Nat
  m : Nat

/-!
## The hashes

Numbers are `unsigned int` of 32 bits.
-/

def shifts (n : Nat) : Nat := if n = 0 then 0 else shifts (n / 2) + 1
termination_by n
decreasing_by omega

/-- The bits of a byte are counted by shifting `~0`. -/
def bitsper : Nat := shifts 255

def FACTOR : Nat := 4022687899

def crunch (key : Key) : Nat :=
  (key.foldl (fun sum c => (sum + (c.toInt % 4294967296).toNat) % 4294967296) 0
    + key.length) % 4294967296

def shift (m : Nat) : Nat := bitsper * 4 - m

def hashm (m : Nat) (key : Key) : Nat :=
  (crunch key * FACTOR % 4294967296) >>> shift m

def hash2m (m : Nat) (key : Key) : Nat :=
  (((crunch key * FACTOR % 4294967296) <<< m % 4294967296) >>> shift m) ||| 1

/-!
## The functions
-/

namespace Statics

def start : Statics := ⟨none, 0, 0, 0⟩

/-- The loop of `hcreate`: `length`, and `m`. -/
def grow (unsize length m : Nat) : Nat × Nat :=
  if unsize = 0 then (length, m)
  else grow (unsize / 2) (length * 2 % 4294967296) (m + 1)
termination_by unsize
decreasing_by omega

/-- `hcreate`, with the answer of `calloc`. -/
def hcreate (size : Int) (calloc : Bool) (s : Statics) : Bool × Statics :=
  if size ≤ 0 then (false, s)
  else
    let g := grow size.toNat 1 0
    (calloc, { s with
      table := if calloc then some fun _ => none else none, length := g.1, m := g.2 })

def hdestroy (s : Statics) : Statics := { s with table := none, count := 0 }

/-- From the label `D2`, for so many slots at most: the slot that is empty or holds the
key. -/
def probe (slots : Slots) (length : Nat) (key : Key) (c : Nat) : Nat → Nat → Option Nat
  | 0, _ => none
  | n + 1, i =>
    match slots i with
    | none => some i
    | some e =>
      if e.key = key then some i
      else probe slots length key c n ((i + c) % 4294967296 % length)

/-- A match, or the label `D6`. -/
def arrive (s : Statics) (slots : Slots) (item : ENTRY) (action : ACTION) (i : Nat) :
    Option Nat × Statics :=
  if (slots i).isSome then (some i, s)
  else if action = .FIND then (none, s)
  else if s.count = s.length - 1 then (none, s)
  else (some i, { s with table := some (update slots i (some item)), count := s.count + 1 })

/-- `hsearch`, with its first `n` probes: the slot whose address is returned, or
`NULL`. -/
def hsearchWithin (n : Nat) (s : Statics) (item : ENTRY) (action : ACTION) :
    Option (Option Nat × Statics) :=
  s.table.bind fun slots =>
    (probe slots s.length item.key (hash2m s.m item.key) n (hashm s.m item.key)).map
      (s.arrive slots item action)

def item (s : Statics) (i : Nat) : Option ENTRY := s.table.bind (· i)

/-- `hsearch` once for each operation: what is read at the addresses returned. -/
def run : List (ENTRY × ACTION) → Statics → Option (List (Option ENTRY) × Statics)
  | [], s => some ([], s)
  | (e, action) :: rest, s =>
    (s.hsearchWithin s.length e action).bind fun r =>
      (run rest r.2).map fun q => (r.1.bind r.2.item :: q.1, q.2)

/-- The calls of a program that has one table at a time. -/
inductive Reached : Statics → Prop where
  | start : Reached start
  | hcreate {s : Statics} {size : Int} {calloc : Bool} :
      Reached s → s.table = none → Reached (s.hcreate size calloc).2
  | hsearch {s t : Statics} {n : Nat} {e : ENTRY} {action : ACTION} {r : Option Nat} :
      Reached s → s.hsearchWithin n e action = some (r, t) → Reached t
  | hdestroy {s : Statics} : Reached s → Reached s.hdestroy

end Statics

/-!
## What the table is for
-/

/-- A store of at most `capacity` entries: the answer, and what is then stored. -/
def respond (capacity : Nat) (stored : List ENTRY) (item : ENTRY) (action : ACTION) :
    Option ENTRY × List ENTRY :=
  match stored.find? (fun e => e.key = item.key) with
  | some e => (some e, stored)
  | none =>
    if action = .FIND ∨ stored.length = capacity then (none, stored)
    else (some item, item :: stored)

def answers (capacity : Nat) : List ENTRY → List (ENTRY × ACTION) → List (Option ENTRY)
  | _, [] => []
  | stored, (e, action) :: rest =>
    let r := respond capacity stored e action
    r.1 :: answers capacity r.2 rest

/-!
## The probe sequence
-/

theorem lt_two_pow_shifts (n : Nat) : n < 2 ^ shifts n := by
  induction n using Nat.strongRecOn with
  | ind n ih =>
    rw [shifts]
    split
    · next h => simp [h]
    · next h =>
        have hhalf := ih (n / 2) (by omega)
        omega

variable {n m length c i k : Nat}

theorem two_pow_shifts_le (h : n ≠ 0) : 2 ^ shifts n ≤ 2 * n := by
  induction n using Nat.strongRecOn with
  | ind n ih =>
    rw [shifts, if_neg h, Nat.pow_succ]
    rcases Nat.eq_zero_or_pos (n / 2) with hzero | hpos
    · rw [hzero, shifts, if_pos rfl]
      omega
    · have hhalf := ih (n / 2) (by omega) (by omega)
      omega

theorem bitsper_eq : bitsper = 8 := by
  simp [bitsper, shifts]

theorem shiftRight_lt (hm : m ≤ 32) (x : Nat) : (x % 4294967296) >>> shift m < 2 ^ m := by
  have hpow : 2 ^ shift m * 2 ^ m = 4294967296 := by
    rw [shift, bitsper_eq, ← Nat.pow_add, Nat.sub_add_cancel hm]
  rw [Nat.shiftRight_eq_div_pow]
  apply Nat.div_lt_of_lt_mul
  rw [hpow]
  exact Nat.mod_lt _ (by decide)

theorem hashm_lt (hm : m ≤ 32) (key : Key) : hashm m key < 2 ^ m :=
  shiftRight_lt hm _

theorem hash2m_lt (hpos : 1 ≤ m) (hm : m ≤ 32) (key : Key) : hash2m m key < 2 ^ m :=
  Nat.or_lt_two_pow (shiftRight_lt hm _) (Nat.one_lt_two_pow (Nat.one_le_iff_ne_zero.mp hpos))

theorem hash2m_coprime (m : Nat) (key : Key) : (hash2m m key).Coprime (2 ^ m) := by
  apply Nat.Coprime.pow_right
  have hodd : hash2m m key % 2 = 1 := by simp [hash2m]
  rw [Nat.Coprime, Nat.gcd_comm, Nat.gcd_rec, hodd, Nat.gcd_one_left]

def slot (length c i k : Nat) : Nat := (i + k * c) % length

theorem slot_zero (hi : i < length) : slot length c i 0 = i := by
  rw [slot, Nat.zero_mul, Nat.add_zero, Nat.mod_eq_of_lt hi]

theorem slot_step (k : Nat) (hsmall : i + c < 4294967296) :
    slot length c ((i + c) % 4294967296 % length) k = slot length c i (k + 1) := by
  rw [slot, slot, Nat.mod_eq_of_lt hsmall, Nat.mod_add_mod, Nat.add_mul, Nat.one_mul,
    Nat.add_assoc, Nat.add_comm c]

theorem exists_slot {t : Nat} (hc : c.Coprime length) (hone : 1 < length)
    (ht : t < length) : ∃ k < length, slot length c i k = t := by
  rcases Nat.exists_mul_mod_eq_one_of_coprime hc hone with ⟨x, -, hx⟩
  rcases Nat.exists_eq_add_of_le (Nat.mod_lt i (Nat.zero_lt_of_lt hone)).le with ⟨d, hd⟩
  refine ⟨x * (t + d) % length, Nat.mod_lt _ (Nat.zero_lt_of_lt hone), ?_⟩
  have hmul : x * (t + d) % length * c ≡ t + d [MOD length] :=
    calc x * (t + d) % length * c ≡ x * (t + d) * c [MOD length] :=
          (Nat.mod_modEq _ _).mul_right c
      _ = c * x * (t + d) := by ring
      _ ≡ 1 * (t + d) [MOD length] :=
          Nat.ModEq.mul_right _ (by rw [Nat.ModEq, hx, Nat.mod_eq_of_lt hone])
      _ = t + d := Nat.one_mul _
  have hsum : i + x * (t + d) % length * c ≡ t [MOD length] :=
    calc i + x * (t + d) % length * c ≡ i % length + (t + d) [MOD length] :=
          (Nat.mod_modEq i length).symm.add hmul
      _ = t + length := by rw [Nat.add_left_comm, ← hd]
      _ ≡ t [MOD length] := by simp [Nat.ModEq]
  rw [slot, hsum, Nat.mod_eq_of_lt ht]

def Stops (slots : Slots) (key : Key) (i : Nat) : Prop :=
  ∀ e, slots i = some e → e.key = key

variable {key : Key}

theorem probe_of_stops {slots : Slots} (hc : c < length) (hlength : length ≤ 2147483648)
    (hi : i < length) (hk : k < n) (hstop : Stops slots key (slot length c i k)) :
    ∃ j, Statics.probe slots length key c n i = some (slot length c i j) ∧
      Stops slots key (slot length c i j) ∧
      ∀ l < j, ∃ e, slots (slot length c i l) = some e ∧ e.key ≠ key := by
  induction n generalizing i k with
  | zero => exact absurd hk (Nat.not_lt_zero k)
  | succ n ih =>
    have hhere : slot length c i 0 = i := slot_zero hi
    by_cases hend : Stops slots key i
    · refine ⟨0, ?_, hhere.symm ▸ hend, fun l hl => absurd hl (Nat.not_lt_zero l)⟩
      rw [Statics.probe, hhere]
      cases hslot : slots i with
      | none => rfl
      | some e => exact if_pos (hend e hslot)
    · have hentry : ∃ e, slots i = some e ∧ e.key ≠ key := by
        simpa [Stops] using hend
      rcases hentry with ⟨e, hslot, hkey⟩
      cases k with
      | zero => exact absurd (hhere ▸ hstop) hend
      | succ k =>
        have hstep : ∀ j, slot length c ((i + c) % 4294967296 % length) j =
            slot length c i (j + 1) := fun j => slot_step j (by omega)
        rcases ih (Nat.mod_lt _ (Nat.zero_lt_of_lt hi)) (Nat.lt_of_succ_lt_succ hk)
          ((hstep k).symm ▸ hstop) with ⟨j, hprobe, hlast, hbefore⟩
        rw [hstep] at hprobe hlast
        refine ⟨j + 1, ?_, hlast, ?_⟩
        · rw [Statics.probe, hslot]
          exact (if_neg hkey).trans hprobe
        · intro l hl
          cases l with
          | zero => exact ⟨e, hhere.symm ▸ hslot, hkey⟩
          | succ l =>
            rw [← hstep]
            exact hbefore l (Nat.lt_of_succ_lt_succ hl)

/-!
## The invariant
-/

def path (s : Statics) (key : Key) : Nat → Nat :=
  slot s.length (hash2m s.m key) (hashm s.m key)

/-- Every entry is found on the way of its key before an empty slot or another entry of that
key, and a slot is left empty. -/
structure Holds (s : Statics) (slots : Slots) (stored : List ENTRY) : Prop where
  table : s.table = some slots
  pos : 1 ≤ s.m
  le : s.m ≤ 31
  length : s.length = 2 ^ s.m
  occupied : ((Finset.range s.length).filter fun i => slots i ≠ none).card = stored.length
  count : s.count = stored.length
  room : stored.length < s.length
  stored_iff : ∀ e, e ∈ stored ↔ ∃ i, slots i = some e
  placed : ∀ i e, slots i = some e → ∃ k, path s e.key k = i ∧
    ∀ l < k, ∃ e', slots (path s e.key l) = some e' ∧ e'.key ≠ e.key

namespace Holds

variable {s : Statics} {slots : Slots} {stored : List ENTRY}

section

variable (h : Holds s slots stored)
include h

theorem length_le : s.length ≤ 2147483648 := by
  rw [h.length]
  exact Nat.pow_le_pow_right (by decide) h.le

theorem one_lt_length : 1 < s.length := by
  rw [h.length]
  exact Nat.one_lt_two_pow (Nat.one_le_iff_ne_zero.mp h.pos)

theorem path_lt (key : Key) (k : Nat) : path s key k < s.length :=
  Nat.mod_lt _ (Nat.zero_lt_of_lt h.one_lt_length)

theorem item_eq : s.item = slots := by
  funext i
  rw [Statics.item, h.table]
  rfl

theorem exists_empty : ∃ i < s.length, slots i = none := by
  by_contra hnone
  have hfull : (Finset.range s.length).filter (fun i => slots i ≠ none) =
      Finset.range s.length := by
    apply Finset.filter_true_of_mem
    intro i hi hempty
    exact hnone ⟨i, Finset.mem_range.mp hi, hempty⟩
  have hcard := h.occupied
  rw [hfull, Finset.card_range] at hcard
  exact absurd h.room (by omega)

theorem probe (key : Key) :
    ∃ k, Statics.probe slots s.length key (hash2m s.m key) s.length (hashm s.m key) =
        some (path s key k) ∧ Stops slots key (path s key k) ∧
      ∀ l < k, ∃ e, slots (path s key l) = some e ∧ e.key ≠ key := by
  rcases h.exists_empty with ⟨t, ht, hempty⟩
  have hcoprime : (hash2m s.m key).Coprime s.length := h.length ▸ hash2m_coprime s.m key
  rcases exists_slot (i := hashm s.m key) hcoprime h.one_lt_length ht with ⟨k, hk, hslot⟩
  have hstop : Stops slots key (path s key k) := by
    intro e he
    rw [path, hslot, hempty] at he
    cases he
  have hstep : hash2m s.m key < s.length :=
    h.length ▸ hash2m_lt h.pos (Nat.le_trans h.le (by decide)) key
  have hstart : hashm s.m key < s.length :=
    h.length ▸ hashm_lt (Nat.le_trans h.le (by decide)) key
  exact probe_of_stops hstep h.length_le hstart hk hstop

end

theorem path_unique {k' : Nat} (hk : Stops slots key (path s key k))
    (hbefore : ∀ l < k, ∃ e, slots (path s key l) = some e ∧ e.key ≠ key)
    (hk' : Stops slots key (path s key k'))
    (hbefore' : ∀ l < k', ∃ e, slots (path s key l) = some e ∧ e.key ≠ key) : k = k' := by
  rcases Nat.lt_trichotomy k k' with hlt | heq | hlt
  · rcases hbefore' k hlt with ⟨e, he, hne⟩
    exact absurd (hk e he) hne
  · exact heq
  · rcases hbefore k' hlt with ⟨e, he, hne⟩
    exact absurd (hk' e he) hne

theorem find_eq (h : Holds s slots stored) (hk : Stops slots key (path s key k))
    (hbefore : ∀ l < k, ∃ e, slots (path s key l) = some e ∧ e.key ≠ key) :
    stored.find? (fun d => d.key = key) = slots (path s key k) := by
  cases hfind : stored.find? (fun d => d.key = key) with
  | none =>
    cases hslot : slots (path s key k) with
    | none => rfl
    | some e =>
      have hmem := List.find?_eq_none.mp hfind e ((h.stored_iff e).mpr ⟨_, hslot⟩)
      exact absurd (decide_eq_true (hk e hslot)) hmem
  | some d =>
    have hkey : d.key = key := by simpa using List.find?_some hfind
    rcases (h.stored_iff d).mp (List.mem_of_find?_eq_some hfind) with ⟨j, hj⟩
    rcases h.placed j d hj with ⟨k', rfl, hbefore'⟩
    rw [hkey] at hj hbefore'
    have hstop : Stops slots key (path s key k') := by
      intro e he
      rw [hj] at he
      cases he
      exact hkey
    rw [path_unique hk hbefore hstop hbefore', hj]

theorem update_of_some {j : Nat} {e item : ENTRY} (hj : slots j = none)
    (hi : slots i = some e) : update slots j (some item) i = some e := by
  have hne : i ≠ j := by
    rintro rfl
    rw [hj] at hi
    cases hi
  rw [update_of_ne hne, hi]

theorem enter (h : Holds s slots stored) (item : ENTRY) (hempty : slots (path s item.key k) = none)
    (hbefore : ∀ l < k, ∃ e, slots (path s item.key l) = some e ∧ e.key ≠ item.key)
    (hroom : stored.length ≠ s.length - 1) : Holds { s with
      table := some (update slots (path s item.key k) (some item))
      count := s.count + 1 } (update slots (path s item.key k) (some item)) (item :: stored) := by
  have hnew : ∀ i e, update slots (path s item.key k) (some item) i = some e →
      i = path s item.key k ∧ e = item ∨ slots i = some e := by
    intro i e hi
    by_cases hne : i = path s item.key k
    · rw [hne, update_self] at hi
      exact Or.inl ⟨hne, (Option.some.inj hi).symm⟩
    · rw [update_of_ne hne] at hi
      exact Or.inr hi
  constructor
  case table => rfl
  case pos => exact h.pos
  case le => exact h.le
  case length => exact h.length
  case occupied =>
    have hset : (Finset.range s.length).filter
        (fun i => update slots (path s item.key k) (some item) i ≠ none) =
        insert (path s item.key k) ((Finset.range s.length).filter fun i => slots i ≠ none) := by
      ext i
      by_cases hi : i = path s item.key k
      · simp [hi, h.path_lt]
      · simp [hi]
    rw [hset, Finset.card_insert_of_notMem (by simp [hempty]), h.occupied, List.length_cons]
  case count => exact congrArg (· + 1) h.count
  case room =>
    have hlt := h.room
    show stored.length + 1 < s.length
    omega
  case stored_iff =>
    intro e
    constructor
    · intro he
      rcases List.mem_cons.mp he with rfl | he
      · exact ⟨_, update_self ..⟩
      · rcases (h.stored_iff e).mp he with ⟨i, hi⟩
        exact ⟨i, update_of_some hempty hi⟩
    · rintro ⟨i, hi⟩
      rcases hnew i e hi with ⟨-, rfl⟩ | hi
      · exact List.mem_cons_self
      · exact List.mem_cons_of_mem _ ((h.stored_iff e).mpr ⟨i, hi⟩)
  case placed =>
    intro i e hi
    rcases hnew i e hi with ⟨rfl, rfl⟩ | hi
    · refine ⟨k, rfl, fun l hl => ?_⟩
      rcases hbefore l hl with ⟨d, hd, hne⟩
      exact ⟨d, update_of_some hempty hd, hne⟩
    · rcases h.placed i e hi with ⟨k', hk', hbefore'⟩
      refine ⟨k', hk', fun l hl => ?_⟩
      rcases hbefore' l hl with ⟨d, hd, hne⟩
      exact ⟨d, update_of_some hempty hd, hne⟩

/-- One call answers as the store does, and leaves every entry in its slot. -/
theorem hsearch (h : Holds s slots stored) (item : ENTRY) (action : ACTION) :
    ∃ r t slots', s.hsearchWithin s.length item action = some (r, t) ∧ t.length = s.length ∧
      Holds t slots' (respond (s.length - 1) stored item action).2 ∧
      r.bind t.item = (respond (s.length - 1) stored item action).1 ∧
      ∀ i e, s.item i = some e → t.item i = some e := by
  rcases h.probe item.key with ⟨k, hprobe, hstop, hbefore⟩
  have hcall : s.hsearchWithin s.length item action =
      some (s.arrive slots item action (path s item.key k)) := by
    rw [Statics.hsearchWithin, h.table]
    exact congrArg (Option.map _) hprobe
  rw [hcall, respond, h.find_eq hstop hbefore, Statics.arrive]
  cases hslot : slots (path s item.key k) with
  | some e =>
    refine ⟨some (path s item.key k), s, slots, rfl, rfl, h, ?_, fun i e he => he⟩
    rw [Option.bind_some, h.item_eq, hslot]
  | none =>
    by_cases hfail : action = .FIND ∨ stored.length = s.length - 1
    · rw [if_pos hfail]
      refine ⟨none, s, slots, ?_, rfl, h, rfl, fun i e he => he⟩
      rcases hfail with hfail | hfail
      · simp [hfail]
      · simp [h.count, hfail]
    · rw [if_neg hfail]
      rcases not_or.mp hfail with ⟨haction, hroom⟩
      have hent := h.enter item hslot hbefore hroom
      refine ⟨some (path s item.key k), _, _, ?_, ?_, hent, ?_, ?_⟩
      · simp [haction, h.count, hroom]
      · rfl
      · rw [Option.bind_some, hent.item_eq, update_self]
      · intro i e he
        rw [h.item_eq] at he
        rw [hent.item_eq, update_of_some hslot he]

theorem run (h : Holds s slots stored) (ops : List (ENTRY × ACTION)) :
    ∃ t slots' stored', s.run ops = some (answers (s.length - 1) stored ops, t) ∧
      Holds t slots' stored' ∧ ∀ i e, s.item i = some e → t.item i = some e := by
  induction ops generalizing s slots stored with
  | nil => exact ⟨s, slots, stored, rfl, h, fun i e he => he⟩
  | cons op rest ih =>
    rcases h.hsearch op.1 op.2 with ⟨r, t, slots', hcall, hlength, ht, hr, hkeep⟩
    rcases ih ht with ⟨u, slots'', stored'', hrun, hu, hkeep'⟩
    refine ⟨u, slots'', stored'', ?_, hu, fun i e he => hkeep' i e (hkeep i e he)⟩
    rw [Statics.run, hcall, answers, ← hr]
    show Option.map _ (Statics.run rest t) = _
    rw [hrun, hlength]
    rfl

end Holds

/-!
## A table from its creation on
-/

variable {s : Statics}

namespace Statics

theorem grow_eq (n m : Nat) (hm : m + shifts n < 32) :
    grow n (2 ^ m) m = (2 ^ (m + shifts n), m + shifts n) := by
  induction n using Nat.strongRecOn generalizing m with
  | ind n ih =>
    rw [grow]
    rw [shifts] at hm ⊢
    split at hm
    · next h => simp [h]
    · next h =>
        have hlt : 2 ^ m * 2 < 4294967296 := by
          have hpow := Nat.pow_lt_pow_right (a := 2) (by decide) (show m + 1 < 32 by omega)
          exact hpow
        rw [if_neg h, if_neg h, Nat.mod_eq_of_lt hlt, ← Nat.pow_succ]
        rw [ih (n / 2) (by omega) (m + 1) (by omega)]
        simp [Nat.add_assoc, Nat.add_comm]

theorem Reached.count_eq_zero (h : Reached s) (hnone : s.table = none) : s.count = 0 := by
  induction h with
  | start => rfl
  | hcreate h hidle ih =>
    rw [Statics.hcreate]
    split
    · exact ih hidle
    · exact ih hidle
  | hsearch h hcall ih =>
    rcases Option.bind_eq_some_iff.mp hcall with ⟨slots, hslots, hmap⟩
    rcases Option.map_eq_some_iff.mp hmap with ⟨i, -, hi⟩
    have htable := congrArg (fun r => r.2.table) hi
    rw [hnone, arrive] at htable
    split_ifs at htable <;> simp [hslots] at htable
  | hdestroy h ih => rfl

theorem holds_hcreate (hcount : s.count = 0) {size : Int} (hpos : 0 < size)
    (hint : size < 2147483648) : Holds (s.hcreate size true).2 (fun _ => none) [] ∧
      size ≤ (s.hcreate size true).2.length - 1 ∧ (s.hcreate size true).1 = true := by
  have hshifts : shifts size.toNat < 32 := by
    have hle := two_pow_shifts_le (n := size.toNat) (by omega)
    by_contra hlarge
    have hpow := Nat.pow_le_pow_right (n := 2) (by decide) (Nat.le_of_not_lt hlarge)
    omega
  have hsize := lt_two_pow_shifts size.toNat
  have hcreate : s.hcreate size true = (true, { s with
      table := some fun _ => none, length := 2 ^ shifts size.toNat, m := shifts size.toNat }) := by
    rw [Statics.hcreate, if_neg (Int.not_le.mpr hpos)]
    have hgrow := grow_eq size.toNat 0 (by omega)
    rw [Nat.zero_add] at hgrow
    rw [← Nat.pow_zero 2, hgrow]
    rfl
  rw [hcreate]
  refine ⟨?_, ?_, rfl⟩
  · constructor
    case table => rfl
    case pos =>
      rw [shifts, if_neg (by omega)]
      exact Nat.le_add_left 1 _
    case le => exact Nat.le_of_lt_succ hshifts
    case length => rfl
    case occupied => simp
    case count => exact hcount
    case room => exact Nat.pos_of_ne_zero (by simp)
    case stored_iff => simp
    case placed => simp
  · show size ≤ ((2 ^ shifts size.toNat : Nat) : Int) - 1
    omega

/-- From the creation of a table on every operation ends and answers as a store of at least
`size` entries does; an entry stays in its slot. -/
theorem hsearch_exact (hs : Reached s) (hidle : s.table = none) {size : Int} (hpos : 0 < size)
    (hint : size < 2147483648) :
    (s.hcreate size true).1 = true ∧ size ≤ (s.hcreate size true).2.length - 1 ∧ ∀ ops, ∃ t,
        (s.hcreate size true).2.run ops =
          some (answers ((s.hcreate size true).2.length - 1) [] ops, t) ∧
        ∀ more, ∃ outs u, t.run more = some (outs, u) ∧
          ∀ i e, t.item i = some e → u.item i = some e := by
  rcases holds_hcreate (hs.count_eq_zero hidle) hpos hint with ⟨hholds, hsize, htrue⟩
  refine ⟨htrue, hsize, fun ops => ?_⟩
  rcases hholds.run ops with ⟨t, slots, stored, hrun, ht, -⟩
  refine ⟨t, hrun, fun more => ?_⟩
  rcases ht.run more with ⟨u, slots', stored', hrun', -, hkeep⟩
  exact ⟨_, u, hrun', hkeep⟩

theorem hsearch_exact_one :
    (start.hcreate 1 true).1 = true ∧ 1 ≤ ((start.hcreate 1 true).2.length : Int) - 1 ∧ ∀ ops, ∃ t,
        (start.hcreate 1 true).2.run ops =
          some (answers ((start.hcreate 1 true).2.length - 1) [] ops, t) ∧
        ∀ more, ∃ outs u, t.run more = some (outs, u) ∧
          ∀ i e, t.item i = some e → u.item i = some e :=
  hsearch_exact .start rfl (by decide) (by decide)

end Statics

end Hsearch
end Svr4
