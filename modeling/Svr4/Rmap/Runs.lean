import Svr4.Rmap.Model

/-!
# Maps over whole runs

The entries of a map are spread out and are followed by empty slots.  What
`rmalloc` and `rmfree` do to the entries, and what holds in every run.
-/

namespace Svr4
namespace Rmap

open Extents Transition List

abbrev units (E : List Slot) : Set Nat := cover Slot.mAddr Slot.stop E

/-- The map has the entries `E`, and `n` slots for entries at all. -/
structure RMap.Ok (mp : RMap) (n : Nat) (E : List Slot) : Prop where
  slots : mp.slots = E ++ replicate (mp.mapsize + 1) Slot.zero
  count : mp.mapsize + E.length = n
  spread : Spread Slot.mAddr Slot.stop E
  nonempty : ∀ bp ∈ E, 0 < bp.mSize
  addr_pos : ∀ bp ∈ E, 0 < bp.mAddr
  stop_le : ∀ bp ∈ E, bp.stop ≤ 2 ^ 32

variable {mp : RMap} {n k size a : Nat} {E front back : List Slot} {e : Slot}

theorem RMap.Ok.lt_stop (hok : mp.Ok n E) : ∀ bp ∈ E, bp.mAddr < bp.stop := by
  intro bp hbp
  have hpos := hok.nonempty bp hbp
  unfold Slot.stop
  omega

theorem ulong_eq {x : Nat} (h : x < 2 ^ 32) : ulong x = x := Nat.mod_eq_of_lt h

/-!
## The loops over the slots
-/

theorem moveDown_spec (bp : Slot) (hE : ∀ x ∈ E, 0 < x.mSize) :
    moveDown (bp :: (E ++ replicate (k + 1) Slot.zero)) =
      some (E ++ replicate (k + 2) Slot.zero) := by
  induction E generalizing bp with
  | nil => rfl
  | cons x rest ih =>
    have hx : ¬ x.mSize = 0 := by
      have := hE x mem_cons_self
      omega
    rw [cons_append]
    unfold moveDown
    rw [if_neg hx, ih x fun y hy => hE y (mem_cons_of_mem _ hy)]
    rfl

theorem compress_spec {bp : Slot} (hbp : 0 < bp.mSize) (hE : ∀ x ∈ E, 0 < x.mSize) :
    compress (bp :: (E ++ replicate (k + 1) Slot.zero)) =
      some (E ++ replicate (k + 2) Slot.zero) := by
  have hne : ¬ bp.mSize = 0 := by omega
  induction E generalizing bp with
  | nil =>
    unfold compress
    rw [if_neg hne]
    rfl
  | cons x rest ih =>
    have hx := hE x mem_cons_self
    unfold compress
    rw [if_neg hne, cons_append]
    rw [ih hx (fun y hy => hE y (mem_cons_of_mem _ hy)) (by omega)]
    rfl

theorem moveUp_spec (hE : ∀ x ∈ E, 0 < x.mSize) :
    moveUp size a (E ++ replicate (k + 1) Slot.zero) =
      some (⟨size, a⟩ :: (E ++ replicate k Slot.zero)) := by
  induction E generalizing size a with
  | nil => rfl
  | cons x rest ih =>
    have hx : ¬ x.mSize = 0 := by
      have := hE x mem_cons_self
      omega
    rw [cons_append]
    unfold moveUp
    rw [if_neg hx, ih fun y hy => hE y (mem_cons_of_mem _ hy)]
    rfl

/-!
## Allocation
-/

theorem rmallocLoop_none (hE : ∀ x ∈ E, 0 < x.mSize ∧ x.mSize < size) :
    rmallocLoop size (E ++ replicate (k + 1) Slot.zero) =
      some (0, E ++ replicate (k + 1) Slot.zero, false) := by
  induction E with
  | nil => rfl
  | cons x rest ih =>
    rcases hE x mem_cons_self with ⟨hpos, hlt⟩
    rw [cons_append]
    unfold rmallocLoop
    rw [if_neg (by omega), if_neg (by omega), ih fun y hy => hE y (mem_cons_of_mem _ hy)]
    rfl

theorem rmallocLoop_skip (hfront : ∀ x ∈ front, 0 < x.mSize ∧ x.mSize < size)
    {slots slots' : List Slot} {gone : Bool} (h : rmallocLoop size slots = some (a, slots', gone)) :
    rmallocLoop size (front ++ slots) = some (a, front ++ slots', gone) := by
  induction front with
  | nil => exact h
  | cons x rest ih =>
    rcases hfront x mem_cons_self with ⟨hpos, hlt⟩
    rw [cons_append]
    unfold rmallocLoop
    rw [if_neg (by omega), if_neg (by omega), ih fun y hy => hfront y (mem_cons_of_mem _ hy)]
    rfl

theorem exists_first_fit (size : Nat) (E : List Slot) :
    (∀ x ∈ E, x.mSize < size) ∨ ∃ front e back, E = front ++ e :: back ∧
        (∀ x ∈ front, x.mSize < size) ∧ size ≤ e.mSize := by
  induction E with
  | nil => exact .inl (by simp)
  | cons x rest ih =>
    by_cases hx : size ≤ x.mSize
    · exact .inr ⟨[], x, rest, rfl, by simp, hx⟩
    · rcases ih with hnone | ⟨front, e, back, rfl, hfront, he⟩
      · left
        intro y hy
        rcases mem_cons.mp hy with rfl | hy
        · omega
        · exact hnone y hy
      · refine .inr ⟨x :: front, e, back, rfl, ?_, he⟩
        intro y hy
        rcases mem_cons.mp hy with rfl | hy
        · omega
        · exact hfront y hy

theorem rmalloc_none (hok : mp.Ok n E) (hnone : ∀ x ∈ E, x.mSize < size) :
    rmalloc mp size = some (0, mp) := by
  unfold rmalloc
  split
  · rfl
  · rw [hok.slots, rmallocLoop_none fun x hx => ⟨hok.nonempty x hx, hnone x hx⟩, ← hok.slots]
    rfl

/-!
## Changes of one entry
-/

variable {mp' : RMap}

theorem RMap.Ok.remove {m : RMap} (hok : mp.Ok n (front ++ e :: back))
    (hmapsize : m.mapsize = mp.mapsize + 1)
    (hslots : m.slots = front ++ (back ++ replicate (mp.mapsize + 2) Slot.zero)) :
    m.Ok n (front ++ back) := by
  have hsub : ∀ x ∈ front ++ back, x ∈ front ++ e :: back := by
    intro x hx
    simp only [mem_append, mem_cons] at hx ⊢
    tauto
  have hcount := hok.count
  refine ⟨?_, ?_, hok.spread.drop_middle, fun x hx => hok.nonempty x (hsub x hx),
    fun x hx => hok.addr_pos x (hsub x hx), fun x hx => hok.stop_le x (hsub x hx)⟩
  · rw [hslots, hmapsize, append_assoc]
  · rw [length_append, length_cons] at hcount
    rw [hmapsize, length_append]
    omega

theorem RMap.Ok.insert (hok : mp.Ok n (front ++ back)) (hmapsize : mp'.mapsize + 1 = mp.mapsize)
    (hslots : mp'.slots = front ++ (e :: (back ++ replicate (mp'.mapsize + 1) Slot.zero)))
    (hpos : 0 < e.mSize) (haddr : 0 < e.mAddr) (hstop : e.stop ≤ 2 ^ 32)
    (hfront : ∀ x ∈ front, x.stop < e.mAddr)
    (hback : ∀ x ∈ back, e.stop < x.mAddr) : mp'.Ok n (front ++ e :: back) := by
  have hcases : ∀ x ∈ front ++ e :: back, x = e ∨ x ∈ front ++ back := by
    intro x hx
    simp only [mem_append, mem_cons] at hx ⊢
    tauto
  have hcount := hok.count
  refine ⟨?_, ?_, hok.spread.insert hfront hback, ?_, ?_, ?_⟩
  · rw [hslots, append_assoc, cons_append]
  · rw [length_append] at hcount
    rw [length_append, length_cons]
    omega
  · intro x hx
    rcases hcases x hx with rfl | hx
    · exact hpos
    · exact hok.nonempty x hx
  · intro x hx
    rcases hcases x hx with rfl | hx
    · exact haddr
    · exact hok.addr_pos x hx
  · intro x hx
    rcases hcases x hx with rfl | hx
    · exact hstop
    · exact hok.stop_le x hx

theorem RMap.Ok.replace {e' : Slot} (hok : mp.Ok n (front ++ e :: back))
    (hmapsize : mp'.mapsize = mp.mapsize)
    (hslots : mp'.slots = front ++ (e' :: (back ++ replicate (mp.mapsize + 1) Slot.zero)))
    (hpos : 0 < e'.mSize) (haddr : 0 < e'.mAddr) (hstop : e'.stop ≤ 2 ^ 32)
    (hfront : ∀ x ∈ front, x.stop < e'.mAddr) (hback : ∀ x ∈ back, e'.stop < x.mAddr) :
    mp'.Ok n (front ++ e' :: back) := by
  have hremoved := hok.remove (m := ⟨mp.mapsize + 1, 0,
    front ++ (back ++ replicate (mp.mapsize + 2) Slot.zero)⟩) rfl rfl
  refine hremoved.insert (by rw [hmapsize]) ?_ hpos haddr hstop hfront hback
  rw [hslots, hmapsize]

theorem rmalloc_some (hok : mp.Ok n (front ++ e :: back)) (hn : n < 2 ^ 32)
    (hsize : 0 < size) (hfront : ∀ x ∈ front, x.mSize < size) (he : size ≤ e.mSize) :
    ∃ mp' E', rmalloc mp size = some (e.mAddr, mp') ∧ mp'.Ok n E' ∧
      units E' = units (front ++ e :: back) \ Set.Ico e.mAddr (e.mAddr + size) := by
  have hmem : e ∈ front ++ e :: back := by simp
  have hstop := hok.stop_le e hmem
  have hskip : ∀ x ∈ front, 0 < x.mSize ∧ x.mSize < size := fun x hx =>
    ⟨hok.nonempty x (mem_append_left _ hx), hfront x hx⟩
  have hne : ¬ e.mSize = 0 := by omega
  have hslots : mp.slots = front ++ (e :: (back ++ replicate (mp.mapsize + 1) Slot.zero)) := by
    rw [hok.slots, append_assoc, cons_append]
  by_cases hall : e.mSize = size
  · have hmove := moveDown_spec (k := mp.mapsize)
      ⟨e.mSize - size, ulong (e.mAddr + size)⟩ (fun x hx =>
        hok.nonempty x (mem_append_right _ (mem_cons_of_mem _ hx)))
    have hloop : rmallocLoop size mp.slots = some (e.mAddr, front ++ (back ++
        replicate (mp.mapsize + 2) Slot.zero), true) := by
      rw [hslots]
      apply rmallocLoop_skip hskip
      unfold rmallocLoop
      dsimp only
      rw [if_neg hne, if_pos he, if_pos (by omega), hmove]
      rfl
    have hmapsize : ulong (mp.mapsize + 1) = mp.mapsize + 1 := by
      have hcount := hok.count
      rw [length_append, length_cons] at hcount
      exact ulong_eq (by omega)
    refine ⟨{ mp with
      mapsize := mp.mapsize + 1
      slots := front ++ (back ++ replicate (mp.mapsize + 2) Slot.zero) },
      front ++ back, ?_, hok.remove rfl rfl, ?_⟩
    · unfold rmalloc
      rw [if_neg (by omega), hloop, Option.map_some]
      dsimp only
      rw [if_pos rfl, hmapsize]
    · unfold units
      rw [hok.spread.cover_drop]
      unfold Slot.stop
      rw [hall]
  · let e' : Slot := ⟨e.mSize - size, ulong (e.mAddr + size)⟩
    have haddr : e'.mAddr = e.mAddr + size := by
      unfold Slot.stop at hstop
      exact ulong_eq (by omega)
    have hstop' : e'.stop = e.stop := by
      unfold Slot.stop
      rw [haddr]
      change e.mAddr + size + (e.mSize - size) = _
      omega
    have hloop : rmallocLoop size mp.slots = some (e.mAddr, front ++ (e' :: (back ++
        replicate (mp.mapsize + 1) Slot.zero)), false) := by
      rw [hslots]
      apply rmallocLoop_skip hskip
      unfold rmallocLoop
      dsimp only
      rw [if_neg hne, if_pos he, if_neg (by omega)]
    rcases hok.spread.around with ⟨hbefore, hbehind⟩
    have hepos' : 0 < e'.mSize := by
      change 0 < e.mSize - size
      omega
    refine ⟨{ mp with slots := front ++ (e' :: (back ++
      replicate (mp.mapsize + 1) Slot.zero)) }, front ++ e' :: back, ?_,
      hok.replace rfl rfl hepos' (by omega) (by omega) (fun y hy => ?_) (fun y hy => ?_), ?_⟩
    · unfold rmalloc
      rw [if_neg (by omega), hloop, Option.map_some]
      dsimp only
      rw [if_neg Bool.false_ne_true]
    · have := hbefore y hy
      omega
    · rw [hstop']
      exact hbehind y hy
    · have htake := hok.spread.cover_take (by omega) hstop' (by unfold Slot.stop; omega)
      unfold units
      rw [htake, haddr]

/-!
## Freeing
-/

/--
Units between the entries `front` and `back` of a map, with the slot
`bp` behind `front`.
-/
structure Gap (mp : RMap) (n size a : Nat) (front back : List Slot) (bp : Slot)
    (rest : List Slot) : Prop where
  ok : mp.Ok n (front ++ back)
  bound : n < 2 ^ 32
  size_pos : 0 < size
  addr_pos : 0 < a
  stop_le : a + size ≤ 2 ^ 32
  before : ∀ x ∈ front, x.stop ≤ a
  behind : ∀ x ∈ back, a + size ≤ x.mAddr
  slots : bp :: rest = back ++ replicate (mp.mapsize + 1) Slot.zero

variable {bp : Slot} {rest : List Slot}

section

variable (h : Gap mp n size a front back bp rest)
include h

theorem Gap.slot_cases :
    (back = [] ∧ bp = Slot.zero) ∨ ∃ back', back = bp :: back' ∧
      rest = back' ++ replicate (mp.mapsize + 1) Slot.zero := by
  have hslots := h.slots
  cases back with
  | nil =>
    rw [nil_append, replicate_succ, List.cons.injEq] at hslots
    exact .inl ⟨rfl, hslots.1⟩
  | cons b back =>
    rcases hslots with ⟨rfl, rfl⟩
    exact .inr ⟨back, rfl, rfl⟩

theorem Gap.touch_iff
    (hbp : bp ∈ back) : ulong (a + size) = bp.mAddr ↔ bp.mAddr = a + size := by
  have hle := h.behind bp hbp
  have hstop := h.ok.stop_le bp (mem_append_right _ hbp)
  have hpos := h.ok.nonempty bp (mem_append_right _ hbp)
  unfold Slot.stop at hstop
  rw [ulong_eq (by omega)]
  exact eq_comm

theorem Gap.back_lt
    (hnext : bp ∈ back → bp.mAddr ≠ a + size) : ∀ x ∈ back, a + size < x.mAddr := by
  have hspread := h.ok.spread
  rcases h.slot_cases with ⟨rfl, _⟩ | ⟨back', rfl, _⟩
  · simp
  · have hle := h.behind bp mem_cons_self
    have hne := hnext mem_cons_self
    intro x hx
    rcases mem_cons.mp hx with rfl | hx
    · omega
    · have hlt := hspread.around.2 x hx
      unfold Slot.stop at hlt
      omega

theorem Gap.next (haddr : bp.mAddr ≠ 0)
    (htouch : ulong (a + size) = bp.mAddr) : bp.mAddr = a + size ∧ ∃ back', back = bp :: back' ∧
      rest = back' ++ replicate (mp.mapsize + 1) Slot.zero := by
  rcases h.slot_cases with ⟨_, rfl⟩ | ⟨back', hback, hrest⟩
  · exact absurd rfl haddr
  · exact ⟨(h.touch_iff (by rw [hback]; exact mem_cons_self)).mp htouch, back', hback, hrest⟩

end

def Frees (mp : RMap) (n size a : Nat) (E : List Slot)
    (r : Option (RMap × Bool)) : Prop :=
  r = some (mp, true) ∨ ∃ mp' E', r = some (mp', false) ∧ mp'.Ok n E' ∧
    units E' = units E ∪ Set.Ico a (a + size)

theorem wake_ok (hok : mp.Ok n E) : mp.wake.Ok n E := { hok with }

theorem Gap.merge_both {prev : Slot} (h : Gap mp n size a (front ++ [prev]) back bp rest)
    (hprev : prev.mAddr + prev.mSize = a) (haddr : bp.mAddr ≠ 0)
    (htouch : ulong (a + size) = bp.mAddr) :
    Frees mp n size a (front ++ [prev] ++ back) ((compress (bp :: rest)).map fun slots => ({ mp with
          mapsize := ulong (mp.mapsize + 1)
          slots := front ++ (⟨ulong (ulong (prev.mSize + size) + bp.mSize),
            prev.mAddr⟩ : Slot) :: slots }.wake, false)) := by
  rcases h.next haddr htouch with ⟨hnext, back', rfl, rfl⟩
  have hbp := h.ok.nonempty bp (by simp)
  have hpaddr := h.ok.addr_pos prev (by simp)
  have hbstop := h.ok.stop_le bp (by simp)
  have hcount := h.ok.count
  have hbound := h.bound
  unfold Slot.stop at hbstop
  let e' : Slot := ⟨prev.mSize + size + bp.mSize, prev.mAddr⟩
  have he' : (⟨ulong (ulong (prev.mSize + size) + bp.mSize), prev.mAddr⟩ : Slot) =
      e' := by
    rw [ulong_eq (x := prev.mSize + size) (by omega), ulong_eq (by omega)]
  have hmapsize : ulong (mp.mapsize + 1) = mp.mapsize + 1 := by
    simp only [length_append, length_cons] at hcount
    exact ulong_eq (by omega)
  have hrun := compress_spec (k := mp.mapsize) hbp (E := back') fun x hx =>
    h.ok.nonempty x (by simp [hx])
  have hremoved := h.ok.remove (m := { mp with
    mapsize := mp.mapsize + 1
    slots := front ++ [prev] ++ (back' ++ replicate (mp.mapsize + 2) Slot.zero) }) rfl rfl
  rw [← append_cons front prev back'] at hremoved
  have hestop : e'.stop = bp.stop := by
    change prev.mAddr + (prev.mSize + size + bp.mSize) = bp.mAddr + bp.mSize
    omega
  have haround := hremoved.spread.around
  have hbehind := (h.ok.spread.around).2
  have hok : RMap.Ok { mp with
      mapsize := mp.mapsize + 1
      slots := front ++ (e' :: (back' ++
        replicate (mp.mapsize + 2) Slot.zero)) } n (front ++ e' :: back') := by
    refine hremoved.replace rfl rfl ?_ hpaddr ?_ haround.1 ?_
    · change 0 < prev.mSize + size + bp.mSize
      omega
    · rw [hestop]
      exact hbstop
    · rw [hestop]
      exact hbehind
  right
  refine ⟨_, _, ?_, wake_ok hok, ?_⟩
  · rw [hrun, he', hmapsize]
    rfl
  · have hleft : units (front ++ [prev] ++ bp :: back') =
        Set.Ico bp.mAddr bp.stop ∪ (Set.Ico prev.mAddr prev.stop ∪ units (front ++ back')) := by
      unfold units
      rw [cover_middle, append_assoc, singleton_append, cover_middle]
    rw [hleft]
    unfold units
    rw [cover_middle, hestop]
    unfold Slot.stop
    ext u
    simp only [Set.mem_union, Set.mem_Ico]
    change prev.mAddr ≤ u ∧ u < bp.mAddr + bp.mSize ∨ _ ↔ _
    generalize (u ∈ cover _ _ (front ++ back')) = others
    by_cases hothers : others
    · simp only [hothers, or_true, true_or]
    · simp only [hothers, or_false]
      omega

theorem Gap.merge_left {prev : Slot} (h : Gap mp n size a (front ++ [prev]) back bp rest)
    (hprev : prev.mAddr + prev.mSize = a) (hnext : ¬ (bp.mAddr ≠ 0 ∧ ulong (a + size) = bp.mAddr)) :
    Frees mp n size a (front ++ [prev] ++ back) (some ({ mp with
        slots := front ++ (⟨ulong (prev.mSize + size), prev.mAddr⟩ : Slot) :: bp :: rest }.wake,
          false)) := by
  have hback := h.back_lt (by
    intro hbp haddr
    have hpos := h.ok.addr_pos bp (mem_append_right _ hbp)
    exact hnext ⟨by omega, (h.touch_iff hbp).mpr haddr⟩)
  have hppos := h.ok.nonempty prev (by simp)
  have hpaddr := h.ok.addr_pos prev (by simp)
  have hstop := h.stop_le
  let e' : Slot := ⟨prev.mSize + size, prev.mAddr⟩
  have he' : (⟨ulong (prev.mSize + size), prev.mAddr⟩ : Slot) = e' := by
    rw [ulong_eq (by omega)]
  have hestop : e'.stop = a + size := by
    change prev.mAddr + (prev.mSize + size) = _
    omega
  have hok := h.ok
  rw [append_assoc, singleton_append] at hok
  have hnew : RMap.Ok { mp with
      slots := front ++ (e' :: (back ++
        replicate (mp.mapsize + 1) Slot.zero)) } n (front ++ e' :: back) := by
    refine hok.replace rfl rfl ?_ hpaddr ?_ hok.spread.around.1 ?_
    · change 0 < prev.mSize + size
      omega
    · rw [hestop]
      exact hstop
    · rw [hestop]
      exact hback
  right
  refine ⟨_, _, ?_, wake_ok hnew, ?_⟩
  · rw [he', h.slots]
  · rw [append_assoc, singleton_append]
    unfold units
    rw [cover_middle, cover_middle, hestop]
    unfold Slot.stop
    ext u
    simp only [Set.mem_union, Set.mem_Ico]
    change prev.mAddr ≤ u ∧ u < a + size ∨ _ ↔ _
    generalize (u ∈ cover _ _ (front ++ back)) = others
    by_cases hothers : others
    · simp only [hothers, or_true, true_or]
    · simp only [hothers, or_false]
      omega

theorem Gap.unmerged (h : Gap mp n size a front back bp rest) (hfront : ∀ x ∈ front, x.stop < a) :
    Frees mp n size a (front ++ back) (if ulong (a + size) = bp.mAddr ∧ bp.mSize ≠ 0 then
        some ({ mp with slots := front ++
          (⟨ulong (bp.mSize + size), ulong (bp.mAddr + 2 ^ 32 - size)⟩ : Slot) ::
            rest }.wake, false) else if mp.mapsize = 0 then some (mp, true)
      else (moveUp size a (bp :: rest)).map fun slots =>
        ({ mp with mapsize := mp.mapsize - 1, slots := front ++ slots }.wake, false)) := by
  have hunits : ∀ e : Slot, e.mAddr = a → e.stop = a + size →
      units (front ++ e :: back) = units (front ++ back) ∪ Set.Ico a (a + size) := by
    intro e haddr hestop
    unfold units
    rw [cover_middle, haddr, hestop, Set.union_comm]
  split
  · rename_i htouch
    rcases h.slot_cases with ⟨_, rfl⟩ | ⟨back', rfl, rfl⟩
    · exact absurd rfl htouch.2
    have hnext := (h.touch_iff mem_cons_self).mp htouch.1
    have hbstop := h.ok.stop_le bp (by simp)
    unfold Slot.stop at hbstop
    let e' : Slot := ⟨bp.mSize + size, a⟩
    have he' : (⟨ulong (bp.mSize + size), ulong (bp.mAddr + 2 ^ 32 - size)⟩ : Slot) =
        e' := by
      have haddr : ulong (bp.mAddr + 2 ^ 32 - size) = a := by
        unfold ulong
        omega
      rw [haddr, ulong_eq (by have := h.addr_pos; omega)]
    have hestop : e'.stop = bp.stop := by
      change a + (bp.mSize + size) = bp.mAddr + bp.mSize
      omega
    have hnew : RMap.Ok { mp with
        slots := front ++ (e' :: (back' ++
          replicate (mp.mapsize + 1) Slot.zero)) } n (front ++ e' :: back') := by
      refine h.ok.replace rfl rfl ?_ h.addr_pos ?_ hfront ?_
      · change 0 < bp.mSize + size
        omega
      · rw [hestop]
        exact hbstop
      · rw [hestop]
        exact h.ok.spread.around.2
    right
    refine ⟨_, _, by rw [he'], wake_ok hnew, ?_⟩
    unfold units
    rw [cover_middle, cover_middle, hestop]
    unfold Slot.stop
    ext u
    simp only [Set.mem_union, Set.mem_Ico]
    change a ≤ u ∧ u < bp.mAddr + bp.mSize ∨ _ ↔ _
    generalize (u ∈ cover _ _ (front ++ back')) = others
    by_cases hothers : others
    · simp only [hothers, or_true, true_or]
    · simp only [hothers, or_false]
      omega
  split
  · exact .inl rfl
  · rename_i hnext hroom
    have hback := h.back_lt (by
      intro hbp haddr
      have hpos := h.ok.nonempty bp (mem_append_right _ hbp)
      exact hnext ⟨(h.touch_iff hbp).mpr haddr, by omega⟩)
    let e : Slot := ⟨size, a⟩
    have hrun : moveUp size a (bp :: rest) =
        some (e :: (back ++ replicate mp.mapsize Slot.zero)) := by
      rw [h.slots]
      exact moveUp_spec fun x hx => h.ok.nonempty x (mem_append_right _ hx)
    have hmapsize : mp.mapsize - 1 + 1 = mp.mapsize := by omega
    have hnew : RMap.Ok { mp with
        mapsize := mp.mapsize - 1
        slots := front ++ (e :: (back ++
          replicate mp.mapsize Slot.zero)) } n (front ++ e :: back) := by
      refine h.ok.insert hmapsize ?_ h.size_pos h.addr_pos h.stop_le hfront hback
      rw [hmapsize]
    right
    refine ⟨_, _, ?_, wake_ok hnew, hunits e rfl rfl⟩
    rw [hrun]
    rfl

theorem Gap.rmfreeAt_spec (h : Gap mp n size a front back bp rest) :
    Frees mp n size a (front ++ back) (rmfreeAt mp size a front bp rest) := by
  have hpos := h.size_pos
  have hstop := h.stop_le
  unfold rmfreeAt
  rcases eq_nil_or_concat front with rfl | ⟨front, prev, rfl⟩
  · exact h.unmerged (by simp)
  rw [concat_eq_append] at *
  have hprev := h.before prev (by simp)
  have hulong : ulong (prev.mAddr + prev.mSize) = prev.mAddr + prev.mSize := by
    unfold Slot.stop at hprev
    exact ulong_eq (by omega)
  rw [getLast?_concat]
  dsimp only
  rw [hulong]
  split
  · rename_i htouch
    rw [dropLast_concat]
    split
    · rename_i hnext
      exact h.merge_both htouch hnext.1 hnext.2
    · rename_i hnext
      exact h.merge_left htouch hnext
  · rename_i htouch
    apply h.unmerged
    intro x hx
    have hspread := h.ok.spread
    rw [append_assoc, singleton_append] at hspread
    rcases mem_append.mp hx with hx | hx
    · have hlt := hspread.around.1 x hx
      unfold Slot.stop at hlt hprev ⊢
      omega
    · rw [mem_singleton.mp hx]
      unfold Slot.stop at hprev ⊢
      omega

theorem search_spec {p : Slot → Bool} (hfront : ∀ x ∈ front, p x) (hbp : ¬ p bp) :
    (front ++ bp :: rest).takeWhile p = front ∧ (front ++ bp :: rest).dropWhile p = bp :: rest := by
  rw [takeWhile_append_of_pos hfront, dropWhile_append_of_pos hfront,
    takeWhile_cons_of_neg hbp, dropWhile_cons_of_neg hbp, append_nil]
  exact ⟨rfl, rfl⟩

theorem rmfree_spec (hok : mp.Ok n E) (hn : n < 2 ^ 32) (hsize : 0 < size)
    (haddr : 0 < a) (hend : a + size ≤ 2 ^ 32)
    (hdisjoint : Disjoint (Set.Ico a (a + size)) (units E)) :
    Frees mp n size a E (rmfree mp size a) := by
  rcases hok.spread.split hok.lt_stop a with ⟨front, back, rfl, hfront, hback⟩
  rcases around_of_disjoint (b := a + size) (by omega) hok.lt_stop hdisjoint with ⟨hbefore, hbehind⟩
  obtain ⟨bp, rest, hslots⟩ : ∃ bp rest,
      bp :: rest = back ++ replicate (mp.mapsize + 1) Slot.zero := by
    cases back with
    | nil => exact ⟨Slot.zero, replicate mp.mapsize Slot.zero, rfl⟩
    | cons b back => exact ⟨b, _, rfl⟩
  have hgap : Gap mp n size a front back bp rest := by
    refine ⟨hok, hn, hsize, haddr, hend, fun x hx => ?_, fun x hx => ?_, hslots⟩
    · exact hbefore x (mem_append_left _ hx) (hfront x hx)
    · exact hbehind x (mem_append_right _ hx) (hback x hx)
  have hall : mp.slots = front ++ bp :: rest := by
    rw [hok.slots, append_assoc, hslots]
  have hpass : ∀ x ∈ front, decide (x.mAddr ≤ a ∧ x.mSize ≠ 0) = true := by
    intro x hx
    have hpos := hok.nonempty x (mem_append_left _ hx)
    exact decide_eq_true ⟨hfront x hx, by omega⟩
  have hstop : ¬ decide (bp.mAddr ≤ a ∧ bp.mSize ≠ 0) = true := by
    rw [decide_eq_true_iff]
    rintro ⟨hle, hne⟩
    rcases hgap.slot_cases with ⟨_, rfl⟩ | ⟨back', rfl, _⟩
    · exact hne rfl
    · have := hback bp mem_cons_self
      omega
  rcases search_spec hpass hstop with ⟨htake, hdrop⟩
  unfold rmfree
  rw [if_neg (by omega), hall]
  dsimp only
  rw [htake, hdrop]
  exact hgap.rmfreeAt_spec

/-!
## Runs
-/

variable {mp : RMap}

namespace System

variable {s t : System}

/-- The map is in order, and every unit that was put in is in one place. -/
structure Sound (n : Nat) (s : System) (E : List Slot) : Prop where
  ok : s.map.Ok n E
  all : s.held ∪ units E ∪ s.lost = s.put
  held_free : Disjoint s.held (units E)
  held_lost : Disjoint s.held s.lost
  free_lost : Disjoint (units E) s.lost
  put_pos : 0 ∉ s.put

/-- The start, with room for `n` entries. -/
def StartWith (n : Nat) (s : System) : Prop :=
  s.map = mapinit n ∧ s.put = ∅ ∧ s.held = ∅ ∧ s.lost = ∅

theorem sound_of_start (hs : StartWith n s) : s.Sound n [] := by
  rcases hs with ⟨hmap, hput, hheld, hlost⟩
  refine ⟨?_, ?_, ?_, ?_, ?_, ?_⟩
  · rw [hmap]
    exact ⟨rfl, rfl, List.Pairwise.nil, by simp, by simp, by simp⟩
  all_goals simp [hput, hheld, hlost, units]

theorem sound_of_freed {lost : Bool} (hn : n < 2 ^ 32) (hok : s.map.Ok n E)
    (hsize : a + size ≤ 2 ^ 32) (haddr : 0 < size → 0 < a)
    (hdisjoint : Disjoint (unitsOf size a) (units E))
    (hrun : Rmap.rmfree s.map size a = some (mp, lost)) :
    (lost = true ∧ mp = s.map) ∨ (lost = false ∧ ∃ E', mp.Ok n E' ∧
      units E' = units E ∪ unitsOf size a) := by
  by_cases hzero : size = 0
  · subst hzero
    unfold Rmap.rmfree at hrun
    cases hrun
    refine .inr ⟨rfl, E, hok, ?_⟩
    simp [unitsOf]
  · have hfrees := rmfree_spec hok hn (Nat.pos_of_ne_zero hzero)
      (haddr (Nat.pos_of_ne_zero hzero)) hsize hdisjoint
    rcases hfrees with hlost | ⟨mp', E', hrun', hok', hunits⟩
    · rw [hlost] at hrun
      cases hrun
      exact .inl ⟨rfl, rfl⟩
    · rw [hrun'] at hrun
      cases hrun
      exact .inr ⟨rfl, E', hok', hunits⟩

theorem sound_of_given {lost : Bool} {held put : Set Nat} (hn : n < 2 ^ 32) (hs : s.Sound n E)
    (hsize : a + size ≤ 2 ^ 32) (hrun : Rmap.rmfree s.map size a = some (mp, lost))
    (hheld : held ⊆ s.held) (hall : held ∪ units E ∪ s.lost ∪ unitsOf size a = put)
    (hput : 0 ∉ put) (hfree : Disjoint (unitsOf size a) (units E))
    (hnot : Disjoint (unitsOf size a) held) (hlost : Disjoint (unitsOf size a) s.lost) :
    ∃ E', Sound n { s.given mp lost (unitsOf size a) with
      held := held
      put := put } E' := by
  have haddr : 0 < size → 0 < a := by
    by_contra hzero
    apply hput
    rw [← hall]
    right
    unfold unitsOf
    rw [Set.mem_Ico]
    omega
  have hheld_free : Disjoint held (units E) := hs.held_free.mono_left hheld
  have hheld_lost : Disjoint held s.lost := hs.held_lost.mono_left hheld
  rcases sound_of_freed hn hs.ok hsize haddr hfree hrun with ⟨rfl, rfl⟩ | ⟨rfl, E', hok, hunits⟩
  · refine ⟨E, hs.ok, ?_, hheld_free, ?_, ?_, hput⟩
    · change held ∪ units E ∪ (s.lost ∪ unitsOf size a) = put
      rw [← hall, Set.union_assoc _ s.lost]
    · exact Set.disjoint_union_right.mpr ⟨hheld_lost, hnot.symm⟩
    · exact Set.disjoint_union_right.mpr ⟨hs.free_lost, hfree.symm⟩
  · refine ⟨E', hok, ?_, ?_, hheld_lost, ?_, hput⟩
    · change held ∪ units E' ∪ s.lost = put
      rw [hunits, ← hall, ← Set.union_assoc, Set.union_right_comm]
    · rw [hunits]
      exact Set.disjoint_union_right.mpr ⟨hheld_free, hnot.symm⟩
    · rw [hunits]
      exact Set.disjoint_union_left.mpr ⟨hs.free_lost, hlost⟩

theorem Sound.subset_put (hs : s.Sound n E) :
    s.held ⊆ s.put ∧ units E ⊆ s.put ∧ s.lost ⊆ s.put := by
  rw [← hs.all]
  exact ⟨fun u hu => .inl (.inl hu), fun u hu => .inl (.inr hu), fun u hu => .inr hu⟩

theorem sound_of_rmalloc (hn : n < 2 ^ 32) (hs : s.Sound n E)
    (hrun : Rmap.rmalloc s.map size = some (a, mp)) : ∃ E', Sound n { s with
      map := mp
      held := if a = 0 then s.held else s.held ∪ unitsOf size a } E' := by
  by_cases hzero : size = 0
  · subst hzero
    unfold Rmap.rmalloc at hrun
    cases hrun
    exact ⟨E, { hs with }⟩
  rcases exists_first_fit size E with hnone | ⟨front, e, back, rfl, hfront, he⟩
  · rw [rmalloc_none hs.ok hnone] at hrun
    cases hrun
    exact ⟨E, { hs with }⟩
  · rcases rmalloc_some hs.ok hn (Nat.pos_of_ne_zero hzero) hfront he with
      ⟨mp', E', hrun', hok, hunits⟩
    rw [hrun'] at hrun
    cases hrun
    have hne : ¬ e.mAddr = 0 := by
      have := hs.ok.addr_pos e (by simp)
      omega
    have hin : unitsOf size e.mAddr ⊆ units (front ++ e :: back) := by
      intro u hu
      refine ⟨e, by simp, hu.1, ?_⟩
      have hlt := hu.2
      unfold Slot.stop
      omega
    refine ⟨E', hok, ?_, ?_, ?_, ?_, hs.put_pos⟩
    · rw [if_neg hne, hunits, Set.union_assoc s.held, ← hs.all]
      change s.held ∪ (unitsOf size e.mAddr ∪
        (units (front ++ e :: back) \ unitsOf size e.mAddr)) ∪ s.lost = _
      rw [Set.union_sdiff_cancel hin]
    · rw [if_neg hne, hunits]
      exact Set.disjoint_union_left.mpr
        ⟨hs.held_free.mono_right Set.sdiff_subset, Set.disjoint_sdiff_right⟩
    · rw [if_neg hne]
      exact Set.disjoint_union_left.mpr ⟨hs.held_lost, hs.free_lost.mono_left hin⟩
    · rw [hunits]
      exact hs.free_lost.mono_left Set.sdiff_subset

theorem sound_of_step {e : Event} (hn : n < 2 ^ 32) (hs : s.Sound n E)
    (hok : s.NoUnitZero e) (hstep : s.Step e t) : ∃ E', t.Sound n E' := by
  rcases hs.subset_put with ⟨hheld, hfree, hlost⟩
  cases e with
  | put size a =>
    rcases hstep with ⟨hsize, hnew, mp, lost, hrun, rfl⟩
    refine sound_of_given hn hs hsize hrun (Set.Subset.refl _) ?_ ?_
      (hnew.mono_right hfree) (hnew.mono_right hheld) (hnew.mono_right hlost)
    · change s.held ∪ units E ∪ s.lost ∪ unitsOf size a = _
      rw [hs.all]
    · rintro (hzero | hzero)
      · exact hs.put_pos hzero
      · have hpos : 0 < a := hok
        have hle : a ≤ 0 := hzero.1
        omega
  | rmalloc size =>
    rcases hstep with ⟨a, mp, _, hrun, rfl⟩
    exact sound_of_rmalloc hn hs hrun
  | rmfree size a =>
    rcases hstep with ⟨hsize, hin, mp, lost, hrun, rfl⟩
    refine sound_of_given hn hs hsize hrun Set.sdiff_subset ?_ hs.put_pos
      (hs.held_free.mono_left hin) Set.disjoint_sdiff_right
      (hs.held_lost.mono_left hin)
    change _ = s.put
    rw [← hs.all]
    ext u
    simp only [Set.mem_union, Set.mem_sdiff]
    tauto
  | want =>
    cases hstep
    exact ⟨E, { hs with ok := { hs.ok with } }⟩

/--
The map in every run: its entries are sorted, not empty and with gaps between
them, the slots behind them are empty, and with `mapsize` there are always
`n`.  Each unit that was put in and is not lost is held or in the map, not
both.  Units that are held can be freed, and `rmalloc` takes units from the
first entry that is large enough, returning 0 if there is none.
-/
theorem map_invariants (hn : n < 2 ^ 32) (hs : ReachableWhen (StartWith n) Step NoUnitZero s) :
    ∃ E, s.map.Ok n E ∧ s.held ∪ units E = s.put \ s.lost ∧ Disjoint s.held (units E) ∧
      (∀ size a, a + size ≤ 2 ^ 32 → unitsOf size a ⊆ s.held → (Rmap.rmfree s.map size a).isSome) ∧
      ∀ size, 0 < size → ∃ a mp, Rmap.rmalloc s.map size = some (a, mp) ∧
        (a = 0 ↔ ∀ bp ∈ E, bp.mSize < size) ∧
        (a ≠ 0 → (E.find? fun bp => size ≤ bp.mSize).map Slot.mAddr = some a ∧
          unitsOf size a ⊆ units E ∧ Disjoint (unitsOf size a) s.held) := by
  have hsound : ∃ E, s.Sound n E := by
    refine hs.invariant (I := fun s => ∃ E, s.Sound n E) ?_ ?_
    · exact fun s hstart => ⟨[], sound_of_start hstart⟩
    · rintro s e t ⟨E, hE⟩ hok hstep
      exact sound_of_step hn hE hok hstep
  rcases hsound with ⟨E, hE⟩
  refine ⟨E, hE.ok, ?_, hE.held_free, ?_, ?_⟩
  · rw [← hE.all, Set.union_sdiff_right]
    exact ((Set.disjoint_union_left.mpr ⟨hE.held_lost, hE.free_lost⟩).sdiff_eq_left).symm
  · intro size a hsize hin
    by_cases hzero : size = 0
    · unfold Rmap.rmfree
      rw [if_pos hzero]
      rfl
    · have haddr : 0 < a := by
        by_contra hle
        apply hE.put_pos
        apply hE.subset_put.1
        apply hin
        unfold unitsOf
        rw [Set.mem_Ico]
        omega
      rcases rmfree_spec hE.ok hn (Nat.pos_of_ne_zero hzero) haddr hsize
        (hE.held_free.mono_left hin) with hrun | ⟨mp, _, hrun, _⟩
      · rw [hrun]
        rfl
      · rw [hrun]
        rfl
  · intro size hsize
    rcases exists_first_fit size E with hnone | ⟨front, e, back, rfl, hfront, he⟩
    · exact ⟨0, s.map, rmalloc_none hE.ok hnone, by simpa using hnone, fun h => absurd rfl h⟩
    · rcases rmalloc_some hE.ok hn hsize hfront he with ⟨mp, E', hrun, _, _⟩
      have haddr := hE.ok.addr_pos e (by simp)
      have hin : unitsOf size e.mAddr ⊆ units (front ++ e :: back) := by
        intro u hu
        refine ⟨e, by simp, hu.1, ?_⟩
        have hlt := hu.2
        unfold Slot.stop
        omega
      refine ⟨e.mAddr, mp, hrun, ⟨fun h => by omega, fun h => ?_⟩,
        fun _ => ⟨?_, hin, (hE.held_free.mono_right hin).symm⟩⟩
      · have := h e (by simp)
        omega
      · have hskip : front.find? (fun bp => decide (size ≤ bp.mSize)) = none := by
          rw [find?_eq_none]
          intro x hx hle
          have hlt := hfront x hx
          have := of_decide_eq_true hle
          omega
        have hfind : (e :: back).find? (fun bp => decide (size ≤ bp.mSize)) =
            some e := find?_cons_of_pos (by simpa using he)
        rw [find?_append, hskip, Option.none_or, hfind]
        rfl

def three : System := ⟨mapinit 3, ∅, ∅, ∅⟩

def freedMap (mp : RMap) (size a : Nat) : RMap :=
  ((Rmap.rmfree mp size a).map Prod.fst).getD mp

def filled (a : Nat) : System :=
  { three with map := freedMap (mapinit 3) 10 a, put := ∅ ∪ unitsOf 10 a }

theorem reachable_filled {a : Nat} (ok : System → Event → Prop)
    (hok : ok three (.put 10 a)) (ha : a = 0 ∨ a = 20) :
    ReachableWhen (StartWith 3) Step ok (filled a) := by
  have hstart : ReachableWhen (StartWith 3) Step ok three :=
    ReachableWhen.start ⟨rfl, rfl, rfl, rfl⟩
  refine hstart.next hok ⟨by omega, Set.disjoint_empty _, freedMap (mapinit 3) 10 a, false, ?_, rfl⟩
  rcases ha with rfl | rfl
  · rfl
  · rfl

def granted : System :=
  { filled 20 with
    map := ⟨2, 0, [⟨6, 24⟩, Slot.zero, Slot.zero, Slot.zero]⟩
    held := ∅ ∪ unitsOf 4 20 }

theorem reachable_granted : ReachableWhen (StartWith 3) Step NoUnitZero granted := by
  have hfilled := reachable_filled NoUnitZero (a := 20) (Nat.succ_pos 19) (.inr rfl)
  refine hfilled.next (e := .rmalloc 4) trivial ⟨20, _, by decide, rfl, rfl⟩

theorem map_invariants_granted :
    ∃ E, granted.map.Ok 3 E ∧ granted.held ∪ units E = granted.put \ granted.lost ∧
      Disjoint granted.held (units E) := by
  rcases map_invariants (by decide) reachable_granted with ⟨E, hok, hall, hdisjoint, _⟩
  exact ⟨E, hok, hall, hdisjoint⟩

/--
With unit 0 in the map a grant is told by 0, and no unit at all is granted
although there are entries.
-/
theorem zero_is_no_failure :
    ∃ s : System, Reachable (StartWith 3) Step s ∧ s.map.slots.head? = some ⟨10, 0⟩ ∧
      (Rmap.rmalloc s.map 4).map Prod.fst = some 0 ∧ (Rmap.rmalloc s.map 0).map Prod.fst = some 0 :=
  ⟨filled 0, reachable_filled _ trivial (.inl rfl), by decide, by decide, by decide⟩

end System

end Rmap
end Svr4
