import Svr4.Semaphore.UndoTable

/-!
# What the undo routines do

One lemma for each routine that edits the undo tables: `semaoe`,
`semunrm`, and the release of a structure in `semexit`.  Each keeps
the tables in order, ends its searches of the active chain, and has a plain
effect on the adjustments.
-/

namespace Svr4
namespace Semaphore

open Function List

/-!
## Refusals
-/

/-- Why `semaoe` leaves the records as they are and reports an error. -/
inductive Refused (si : SemInfo) (u : Undos) (slot : Nat) (val id : Int)
    (num : Nat) : Errno → Prop where
  | value (h : val > si.semaem ∨ val < -si.semaem) :
      Refused si u slot val id num .ERANGE
  | noStructure (h : u.semUndo slot = none) :
      Refused si u slot val id num .ENOSPC
  | full (hnone : u.aoe slot id num = 0)
      (h : (u.entries slot).length ≥ si.semume) :
      Refused si u slot val id num .EINVAL
  | sum (h : u.aoe slot id num - val > si.semaem ∨
      u.aoe slot id num - val < -si.semaem) :
      Refused si u slot val id num .ERANGE

structure Adjusted (si : SemInfo) (u u' : Undos) (slot : Nat) (val id : Int)
    (num : Nat) : Prop where
  value : val ≤ si.semaem ∧ -si.semaem ≤ val
  aoe_eq : ∀ id' num', u'.aoe slot id' num' =
    if id' = id ∧ num' = num then u.aoe slot id num - val
    else u.aoe slot id' num'
  attached : val ≠ 0 → (u'.semUndo slot).isSome
  room : val ≠ 0 → u'.aoe slot id num = 0 → (u'.entries slot).length < si.semume

variable {u' : Undos} {front back : List Undo}

section Adjust

variable {si : SemInfo} {u : Undos} {slot up : Nat} {val id : Int} {num : Nat}

theorem short_sum_test (si : SemInfo) {x : Int} (hlow : -32768 ≤ x) (hhigh : x ≤ 32768) :
    (short x > si.semaem ∨ short x < -si.semaem) ↔ (x > si.semaem ∨ x < -si.semaem) := by
  by_cases hedge : x = 32768
  · subst hedge
    have hwrap : short 32768 = -32768 := rfl
    omega
  · rw [short_of_range hlow (by omega)]

/-- The outcome of `adjust` on the structure `up` of the process. -/
structure AdjustPost (si : SemInfo) (u u' : Undos) (slot up : Nat)
    (val id : Int) (num : Nat) (r : Option Errno) : Prop where
  ok : u'.Ok si
  owners : u'.semUndo = u.semUndo
  others : ∀ i, i ≠ up → u'.unEnt i = u.unEnt i
  done : r = none → ∀ id' num', aoe (u'.unEnt up) id' num' =
    if id' = id ∧ num' = num then aoe (u.unEnt up) id num - val
    else aoe (u.unEnt up) id' num'
  room : r = none → aoe (u'.unEnt up) id num = 0 → (u'.unEnt up).length < si.semume
  refused : ∀ e, r = some e → u'.unEnt up = u.unEnt up ∧ Refused si u slot val id num e

theorem AdjustPost.of_edit {ents : List Undo} (hok' : u'.Ok si) (howners : u'.semUndo = u.semUndo)
    (hunEnt : u'.unEnt = update u.unEnt up ents) (haoe : ∀ id' num', aoe ents id' num' =
      if id' = id ∧ num' = num then aoe (u.unEnt up) id num - val else aoe (u.unEnt up) id' num')
    (hroom : aoe (u.unEnt up) id num - val = 0 → ents.length < si.semume) :
    AdjustPost si u u' slot up val id num none := by
  constructor
  · exact hok'
  · exact howners
  · intro i hi
    rw [hunEnt, update_of_ne hi]
  · intro _ id' num'
    rw [hunEnt, update_self]
    exact haoe id' num'
  · intro _ hzero
    rw [hunEnt, update_self] at hzero ⊢
    rw [haoe] at hzero
    exact hroom (by simpa using hzero)
  · nofun

theorem adjust_absent (hok : u.Ok si) (hup : u.semUndo slot = some up)
    (hsearch : search id num (u.unEnt up) = (front, none, back)) (hne : val ≠ 0)
    (hval : val ≤ si.semaem ∧ -si.semaem ≤ val) :
    ∃ r u', u.adjust si up val id num = some (r, u') ∧ AdjustPost si u u' slot up val id num r := by
  have hfound := search_spec id num (hok.records up).sorted
  rw [hsearch] at hfound
  have habsent : aoe (u.unEnt up) id num = 0 := by
    simpa using hfound.aoe_eq
  have haem := si.semaem_le
  have hshort : short (-val) = -val :=
    short_of_range (by omega) (by omega)
  unfold Undos.adjust
  rw [hsearch]
  by_cases hfull : (u.unEnt up).length ≥ si.semume
  · simp only [hfull, if_true]
    refine ⟨some .EINVAL, u, rfl, hok, rfl, fun i _ => rfl, nofun, nofun, ?_⟩
    rintro e ⟨⟩
    refine ⟨rfl, Refused.full ?_ ?_⟩
    · rw [Undos.aoe, Undos.entries_of_owner hup]
      exact habsent
    · rw [Undos.entries_of_owner hup]
      exact hfull
  · have hents := hfound.put (hok.records up) (fun _ => by omega)
      (a := -val) (by omega) (by omega) (by omega)
    have hput : ∀ id' num', aoe (front ++ { unId := id, unNum := num, unAoe := -val } :: back)
          id' num' =
        if id' = id ∧ num' = num then aoe (u.unEnt up) id num - val
        else aoe (u.unEnt up) id' num' := by
      intro id' num'
      rw [hfound.aoe_put, habsent, Int.zero_sub]
    have hroom : aoe (u.unEnt up) id num - val = 0 →
        (front ++ { unId := id, unNum := num, unAoe := -val } :: back).length < si.semume := by
      omega
    simp only [hfull, if_false, hshort]
    by_cases hfirst : u.unEnt up = []
    · refine ⟨none, _, rfl, AdjustPost.of_edit ?_ ?_ ?_ hput hroom⟩
      · simp only [hfirst, if_true]
        exact hok.edit_first hup hents hfirst (by simp)
      · simp [hfirst]
      · simp [hfirst]
    · refine ⟨none, _, rfl, AdjustPost.of_edit ?_ ?_ ?_ hput hroom⟩
      · simp only [hfirst, if_false]
        exact hok.edit_active hup hents hfirst (by simp)
      · simp [hfirst]
      · simp [hfirst]

theorem adjust_present (hok : u.Ok si) (hup : u.semUndo slot = some up) {uup : Undo}
    (hsearch : search id num (u.unEnt up) = (front, some uup, back))
    (hval : val ≤ si.semaem ∧ -si.semaem ≤ val) :
    ∃ r u', u.adjust si up val id num = some (r, u') ∧ AdjustPost si u u' slot up val id num r := by
  have hfound := search_spec id num (hok.records up).sorted
  rw [hsearch] at hfound
  have hsplit : u.unEnt up = front ++ uup :: back := by
    simpa using hfound.split
  have hmem : uup ∈ u.unEnt up := by simp [hsplit]
  have hactive : u.unEnt up ≠ [] := ne_nil_of_mem hmem
  have hold : aoe (u.unEnt up) id num = uup.unAoe := by
    simpa using hfound.aoe_eq
  have hrange := (hok.records up).aoe_le uup hmem
  have haem := si.semaem_le
  have hfor : uup.unId = id ∧ uup.unNum = num := by
    simpa [Undo.isFor] using hfound.isFor uup (by simp)
  have hkey : ∀ a, ({ uup with unAoe := a } : Undo) = { unId := id, unNum := num, unAoe := a } := by
    simp [hfor]
  have htest := short_sum_test si (x := uup.unAoe - val) (by omega) (by omega)
  unfold Undos.adjust
  rw [hsearch]
  simp only [htest]
  by_cases hbad : uup.unAoe - val > si.semaem ∨ uup.unAoe - val < -si.semaem
  · -- The sum is taken back.
    have hback : short (short (uup.unAoe - val) + val) = uup.unAoe := by
      rw [short_short_add, Int.sub_add_cancel]
      exact short_of_range (by omega) (by omega)
    have hsame : update u.unEnt up (front ++ uup :: back) =
        u.unEnt := by
      rw [← hsplit, update_eq_self]
    rw [if_pos hbad, hback, hsame]
    refine ⟨some .ERANGE, u, rfl, hok, rfl, fun i _ => rfl, nofun, nofun, ?_⟩
    rintro e ⟨⟩
    refine ⟨rfl, Refused.sum ?_⟩
    rw [Undos.aoe, Undos.entries_of_owner hup, hold]
    exact hbad
  · have hshort : short (uup.unAoe - val) = uup.unAoe - val :=
      short_of_range (by omega) (by omega)
    rw [if_neg hbad, hshort]
    by_cases hzero : uup.unAoe - val = 0
    · have hdrop : ∀ id' num', aoe (front ++ back) id' num' =
          if id' = id ∧ num' = num then aoe (u.unEnt up) id num - val
          else aoe (u.unEnt up) id' num' := by
        intro id' num'
        rw [hfound.aoe_drop, hold, hzero]
      have hroom : (front ++ back).length < si.semume := by
        have hle := (hok.records up).length_le
        rw [hsplit] at hle
        simp only [length_append, length_cons] at hle ⊢
        omega
      rw [if_pos hzero]
      by_cases hlast : front ++ back = []
      · rcases hok.unlink hup hactive with ⟨head, np, hrun, hunlinked⟩
        simp only [hlast, if_true, Undos.retire, hrun, Option.map_some]
        refine ⟨none, _, rfl, AdjustPost.of_edit (hunlinked none) rfl ?_ hdrop fun _ => hroom⟩
        rw [hlast]
      · simp only [hlast, if_false]
        have hents : RecordsOk si (front ++ back) := by
          apply (hok.records up).sublist
          rw [hsplit]
          exact (sublist_cons_self uup back).append_left front
        exact ⟨none, _, rfl, AdjustPost.of_edit
          (hok.edit_active hup hents hactive hlast) rfl rfl hdrop
          fun _ => hroom⟩
    · have hents := hfound.put (hok.records up) nofun
        (a := uup.unAoe - val) hzero (by omega) (by omega)
      have hput := hfound.aoe_put (uup.unAoe - val)
      rw [← hold] at hput
      rw [if_neg hzero, hkey]
      refine ⟨none, _, rfl, AdjustPost.of_edit
        (hok.edit_active hup hents hactive (by simp)) rfl rfl ?_ ?_⟩
      · rw [← hold]
        exact hput
      · rw [hold]
        exact fun hgone => absurd hgone hzero

theorem adjust_spec (id : Int) (num : Nat) (hok : u.Ok si)
    (hup : u.semUndo slot = some up) (hne : val ≠ 0) (hval : val ≤ si.semaem ∧ -si.semaem ≤ val) :
    ∃ r u', u.adjust si up val id num = some (r, u') ∧ AdjustPost si u u' slot up val id num r := by
  rcases hsearch : search id num (u.unEnt up) with ⟨front, found, back⟩
  cases found with
  | none => exact adjust_absent hok hup hsearch hne hval
  | some uup => exact adjust_present hok hup hsearch hval

end Adjust

/-!
## Adjusting the record of a process
-/

section Semaoe

variable {si : SemInfo} {u : Undos} {slot : Nat} {val id : Int} {num : Nat}

structure SemaoePost (si : SemInfo) (u u' : Undos) (slot : Nat)
    (val id : Int) (num : Nat) (r : Option Errno) : Prop where
  ok : u'.Ok si
  owners : ∀ q, (u.semUndo q).isSome → (u'.semUndo q).isSome
  others : ∀ q, q ≠ slot → u'.entries q = u.entries q
  done : r = none → Adjusted si u u' slot val id num
  refused : ∀ e, r = some e → u'.entries slot = u.entries slot ∧ Refused si u slot val id num e

theorem SemaoePost.of_unchanged (hok : u.Ok si) {r : Option Errno}
    (hdone : r = none → Adjusted si u u slot val id num)
    (hrefused : ∀ e, r = some e → Refused si u slot val id num e) :
    SemaoePost si u u slot val id num r where
  ok := hok
  owners _ hq := hq
  others _ _ := rfl
  done := hdone
  refused e he := ⟨rfl, hrefused e he⟩

theorem semaoe_spec (hok : u.Ok si) (slot : Nat) (val id : Int) (num : Nat)
    (hshort : -32768 ≤ val ∧ val < 32768) :
    ∃ r u', semaoe si u slot val id num = some (r, u') ∧ SemaoePost si u u' slot val id num r := by
  unfold semaoe
  rw [short_of_range hshort.1 hshort.2]
  by_cases hzero : val = 0
  · refine ⟨none, u, by simp [hzero], SemaoePost.of_unchanged hok ?_ nofun⟩
    intro _
    constructor
    · omega
    · intro id' num'
      split_ifs with hkey
      · rw [hzero, hkey.1, hkey.2, Int.sub_zero]
      · rfl
    · exact fun hne => absurd hzero hne
    · exact fun hne => absurd hzero hne
  · by_cases hbad : val > si.semaem ∨ val < -si.semaem
    · refine ⟨some .ERANGE, u, by simp only [hzero, hbad, if_true, if_false],
        SemaoePost.of_unchanged hok nofun ?_⟩
      rintro e ⟨⟩
      exact Refused.value hbad
    · simp only [hzero, hbad, if_false]
      rcases attach_spec hok slot with ⟨hnone, howner⟩ |
        ⟨up, u₁, hattach, hok₁, hup, hentries, howners⟩
      · rw [hnone]
        refine ⟨some .ENOSPC, u, rfl, SemaoePost.of_unchanged hok nofun ?_⟩
        rintro e ⟨⟩
        exact Refused.noStructure howner
      · rw [hattach]
        rcases adjust_spec id num hok₁ hup hzero (by omega) with ⟨r, u', hrun, hpost⟩
        refine ⟨r, u', hrun, ?_⟩
        have hup' : u'.semUndo slot = some up := by
          rw [hpost.owners]
          exact hup
        -- The records of the process are those of its structure.
        have hslot' : u'.entries slot = u'.unEnt up :=
          Undos.entries_of_owner hup'
        have hslot : u.entries slot = u₁.unEnt up := by
          rw [← hentries]
          exact Undos.entries_of_owner hup
        constructor
        · exact hpost.ok
        · intro q hq
          rw [hpost.owners]
          exact howners q hq
        · intro q hq
          rw [← hentries q]
          unfold Undos.entries
          rw [hpost.owners]
          cases hj : u₁.semUndo q with
          | none => rfl
          | some j => exact hpost.others j (hok₁.owner_ne hup hj hq)
        · intro hr
          constructor
          · omega
          · intro id' num'
            unfold Undos.aoe
            rw [hslot', hslot]
            exact hpost.done hr id' num'
          · simp [hup']
          · intro _
            unfold Undos.aoe
            rw [hslot']
            exact hpost.room hr
        · intro e he
          rcases hpost.refused e he with ⟨hsame, hrefused⟩
          refine ⟨by rw [hslot', hslot, hsame], ?_⟩
          have haoe : u₁.aoe slot id num = u.aoe slot id num := by
            unfold Undos.aoe
            rw [hentries]
          cases hrefused with
          | value h => exact Refused.value h
          | noStructure h =>
            rw [hup] at h
            cases h
          | full hnone h =>
            exact Refused.full (haoe ▸ hnone) (hentries slot ▸ h)
          | sum h => exact Refused.sum (haoe ▸ h)

theorem SemaoePost.aoe_eq (hpost : SemaoePost si u u' slot val id num none) (q : Nat) (id' : Int)
    (num' : Nat) : u'.aoe q id' num' = u.aoe q id' num' -
      if q = slot ∧ id' = id ∧ num' = num then val else 0 := by
  by_cases hq : q = slot
  · subst hq
    rw [(hpost.done rfl).aoe_eq]
    by_cases hkey : id' = id ∧ num' = num
    · rcases hkey with ⟨rfl, rfl⟩
      simp
    · simp [hkey]
  · unfold Undos.aoe
    rw [hpost.others q hq]
    simp [hq]

theorem SemaoePost.entries_eq {e : Errno} (hpost : SemaoePost si u u' slot val id num (some e))
    (q : Nat) : u'.entries q = u.entries q := by
  by_cases hq : q = slot
  · rw [hq]
    exact (hpost.refused e rfl).1
  · exact hpost.others q hq

end Semaoe

/-!
## Clearing the records of reset semaphores
-/

section Semunrm

variable {si : SemInfo} {u : Undos} {id : Int} {low high : Nat}

structure Purged (id : Int) (low high : Nat) (u u' : Undos)
    (pre post : List Nat) : Prop where
  chain : Chain u'.unNp u'.semunp
    (pre ++ post.filter fun i => purge id low high (u.unEnt i) ≠ []) none
  unNp : ∀ i, i ∉ pre ++ post → u'.unNp i = u.unNp i
  unEnt : ∀ i, u'.unEnt i =
    if i ∈ post then purge id low high (u.unEnt i) else u.unEnt i
  semUndo : u'.semUndo = u.semUndo
  semfup : u'.semfup = u.semfup

theorem Purged.cons {u₁ : Undos} {pre pre₁ rest : List Nat} {k : Nat}
    (hrest : Purged id low high u₁ u' pre₁ rest) (hk : k ∉ rest) (hpre : pre₁ = pre ++
      [k].filter fun i => purge id low high (u.unEnt i) ≠ [])
    (hunNp : ∀ i, i ∉ pre ++ k :: rest → u₁.unNp i = u.unNp i) (hunEnt : u₁.unEnt =
      update u.unEnt k (purge id low high (u.unEnt k)))
    (hsemUndo : u₁.semUndo = u.semUndo) (hsemfup : u₁.semfup = u.semfup) :
    Purged id low high u u' pre (k :: rest) := by
  have hother : ∀ i, i ≠ k → u₁.unEnt i = u.unEnt i := by
    intro i hi
    rw [hunEnt, update_of_ne hi]
  constructor
  · have hchain := hrest.chain
    have hfilter : (rest.filter fun i =>
          purge id low high (u₁.unEnt i) ≠ []) =
        rest.filter fun i => purge id low high (u.unEnt i) ≠ [] := by
      apply filter_congr
      intro i hi
      rw [hother i fun heq => hk (heq ▸ hi)]
    rw [hfilter, hpre, append_assoc, ← filter_append] at hchain
    exact hchain
  · intro i hi
    rw [← hunNp i hi]
    apply hrest.unNp
    rw [hpre]
    intro hmem
    apply hi
    simp only [mem_append, mem_filter, mem_cons, not_mem_nil, or_false] at hmem ⊢
    tauto
  · intro i
    rw [hrest.unEnt]
    by_cases hi : i = k
    · subst hi
      rw [if_neg hk, if_pos (by simp), hunEnt, update_self]
    · simp [hother i hi, hi]
  · rw [hrest.semUndo, hsemUndo]
  · rw [hrest.semfup, hsemfup]

theorem semunrmLoop_spec (id : Int) (low high : Nat) (fuel : Nat) (pre post : List Nat)
    {pp p : Option Nat} (hchain : Chain u.unNp u.semunp (pre ++ post) none)
    (hpp : pp = pre.getLast?) (hp : Chain u.unNp p post none) (hfuel : post.length ≤ fuel) :
    ∃ u', semunrmLoop id low high fuel pp p u = some u' ∧ Purged id low high u u' pre post := by
  induction post generalizing fuel pre pp p u with
  | nil =>
    obtain rfl : p = none := hp
    refine ⟨u, by cases fuel <;> rfl, by simpa using hchain, fun i _ => rfl, by simp, rfl, rfl⟩
  | cons k rest ih =>
    obtain ⟨fuel, rfl⟩ : ∃ n, fuel = n + 1 :=
      ⟨fuel - 1, by simp only [length_cons] at hfuel; omega⟩
    have hroom : rest.length ≤ fuel := by simpa using hfuel
    have hnodup := hchain.nodup
    have hk : k ∉ rest :=
      (nodup_cons.mp (nodup_append.mp hnodup).2.1).1
    rcases hp with ⟨rfl, hrest⟩
    unfold semunrmLoop
    by_cases hkeep : purge id low high (u.unEnt k) ≠ []
    · rw [if_neg hkeep]
      have hlast : some k = (pre ++ [k]).getLast? := by simp
      rcases ih (u := { u with
            unEnt := update u.unEnt k (purge id low high (u.unEnt k)) })
          fuel (pre ++ [k]) (by simpa using hchain) hlast hrest hroom with
        ⟨u', hrun, hpost⟩
      exact ⟨u', hrun, hpost.cons hk (by simp [hkeep]) (fun i _ => rfl)
        rfl rfl rfl⟩
    · have hgone : purge id low high (u.unEnt k) = [] := not_not.mp hkeep
      rw [if_pos hgone]
      rcases eq_nil_or_concat pre with rfl | ⟨front, pred, rfl⟩
      · obtain rfl : pp = none := hpp
        have hlinked := hrest.update_of_notMem (p := none) hk
        rcases ih (u := { u with
              unEnt := update u.unEnt k (purge id low high (u.unEnt k))
              semunp := u.unNp k
              unNp := update u.unNp k none })
            fuel [] hlinked rfl hlinked hroom with
          ⟨u', hrun, hpost⟩
        refine ⟨u', hrun, hpost.cons hk (by simp [hgone]) ?_ rfl rfl rfl⟩
        intro i hi
        apply update_of_ne
        rintro rfl
        simp at hi
      · obtain rfl : pp = some pred := by simpa using hpp
        rw [concat_eq_append] at hnodup hchain
        rcases nodup_append.mp hnodup with ⟨hfirst, _, hcross⟩
        have hpred : pred ∉ k :: rest :=
          fun hmem => hcross pred (by simp) pred hmem rfl
        have hk_front : k ∉ front ++ [pred] :=
          fun hmem => hcross k hmem k (by simp) rfl
        have hpred_front : pred ∉ front := fun hmem =>
          (nodup_append.mp hfirst).2.2 pred hmem pred (by simp) rfl
        rcases Chain.append_iff.mp hchain with ⟨m, hfront, rfl, _⟩
        -- The predecessor now leads to the structure behind the one purged.
        have hrest' : Chain (update (update u.unNp pred
            (u.unNp k)) k none) (u.unNp k) rest none := by
          apply Chain.update_of_notMem _ hk
          apply hrest.update_of_notMem
          exact fun hmem => hpred (mem_cons_of_mem k hmem)
        have hlinked : Chain (update (update u.unNp pred
            (u.unNp k)) k none) u.semunp ((front ++ [pred]) ++ rest)
            none := by
          apply Chain.append_iff.mpr
          refine ⟨u.unNp k, ?_, hrest'⟩
          exact (hfront.redirect hpred_front).update_of_notMem hk_front
        have hlast : some pred = (front ++ [pred]).getLast? := by simp
        rcases ih (u := { u with
              unEnt := update u.unEnt k (purge id low high (u.unEnt k))
              unNp := update (update u.unNp pred (u.unNp k)) k none })
            fuel (front ++ [pred]) hlinked hlast hrest' hroom with
          ⟨u', hrun, hpost⟩
        refine ⟨u', hrun, hpost.cons hk (by simp [hgone]) ?_ rfl rfl rfl⟩
        intro i hi
        have hik : i ≠ k := by
          rintro rfl
          simp at hi
        have hipred : i ≠ pred := by
          rintro rfl
          simp at hi
        show update (update u.unNp pred _) k none i = _
        rw [update_of_ne hik, update_of_ne hipred]

/-- The records within the range are gone, all others are as before. -/
structure SemunrmPost (si : SemInfo) (id : Int) (low high : Nat)
    (u u' : Undos) : Prop where
  ok : u'.Ok si
  owners : u'.semUndo = u.semUndo
  aoe_eq : ∀ q id' num, u'.aoe q id' num =
    if id' = id ∧ low ≤ num ∧ num ≤ high then 0 else u.aoe q id' num

theorem semunrm_spec (hok : u.Ok si) (id : Int) (low high : Nat) :
    ∃ u', semunrm si u id low high = some u' ∧ SemunrmPost si id low high u u' := by
  rcases hok.active with ⟨l, hchain, hmem⟩
  rcases semunrmLoop_spec id low high si.semmnu [] l hchain rfl hchain
      (hok.active_length hchain hmem) with
    ⟨u', hrun, hpost⟩
  have hunEnt : ∀ i, u'.unEnt i = purge id low high (u.unEnt i) := by
    intro i
    rw [hpost.unEnt]
    split_ifs with hi
    · rfl
    · have hempty : u.unEnt i = [] := by
        by_contra hne
        exact hi ((hmem i).mpr hne)
      rw [hempty]
      rfl
  refine ⟨u', hrun, ?_, hpost.semUndo, ?_⟩
  · constructor
    · rw [hpost.semUndo]
      exact hok.owner_inj
    · rw [hpost.semUndo]
      exact hok.owner_lt
    · intro i hi
      rw [hpost.semUndo]
      apply hok.owned i
      intro hempty
      rw [hunEnt, hempty] at hi
      exact hi rfl
    · intro i
      rw [hunEnt]
      exact purge_ok id low high (hok.records i)
    · refine ⟨_, hpost.chain, ?_⟩
      intro i
      rw [hunEnt]
      simp only [nil_append, mem_filter, hmem, decide_eq_true_eq]
      constructor
      · exact fun h => h.2
      · intro hne
        refine ⟨?_, hne⟩
        intro hempty
        rw [hempty] at hne
        exact hne rfl
    · rcases hok.free with ⟨free, hfree, hfree_mem⟩
      rw [hpost.semUndo, hpost.semfup]
      refine ⟨free, hfree.congr ?_, hfree_mem⟩
      intro i hi
      apply hpost.unNp
      simp only [nil_append, hmem, not_not]
      exact hok.unowned_empty ((hfree_mem i).mp hi).2
  · intro q id' num
    unfold Undos.aoe Undos.entries
    rw [hpost.semUndo]
    cases u.semUndo q with
    | none => simp
    | some i =>
      simp only [hunEnt]
      exact aoe_purge id low high (hok.records i).sorted id' num

end Semunrm

/-!
## Releasing the structure of an exiting process
-/

/-- The records of the process are gone, and it owns no structure. -/
structure ReleasePost (si : SemInfo) (slot : Nat) (u u' : Undos) :
    Prop where
  ok : u'.Ok si
  entries_self : u'.entries slot = []
  others : ∀ q, q ≠ slot → u'.entries q = u.entries q

section Release

variable {si : SemInfo} {u : Undos} {slot up : Nat}

theorem Undos.Ok.give_back (hok : u.Ok si) (hup : u.semUndo slot = some up)
    (hempty : u.unEnt up = []) :
    Undos.Ok si
      { u with
        unNp := update u.unNp up u.semfup
        semfup := some up
        semUndo := update u.semUndo slot none } := by
  have howner : ∀ {q i}, update u.semUndo slot none q = some i →
      q ≠ slot ∧ u.semUndo q = some i := by
    intro q i hq
    rw [update_apply] at hq
    split_ifs at hq with hqs
    exact ⟨hqs, hq⟩
  constructor
  · intro p q i hp hq
    exact hok.owner_inj p q i (howner hp).2 (howner hq).2
  · intro p i hp
    exact hok.owner_lt p i (howner hp).2
  · intro i hi
    rcases hok.owned i hi with ⟨q, hq⟩
    refine ⟨q, ?_⟩
    have hqs : q ≠ slot := by
      rintro rfl
      rw [hup] at hq
      cases hq
      exact hi hempty
    simpa [hqs] using hq
  · exact hok.records
  · rcases hok.active with ⟨l, hchain, hmem⟩
    refine ⟨l, hchain.update_of_notMem ?_, hmem⟩
    rw [hmem]
    simp [hempty]
  · rcases hok.free with ⟨l, hchain, hmem⟩
    have hnot : up ∉ l := fun hi => ((hmem up).mp hi).2 slot hup
    refine ⟨up :: l, hchain.push hnot, ?_⟩
    intro i
    rw [mem_cons, hmem]
    constructor
    · rintro (rfl | ⟨hlt, hfree⟩)
      · refine ⟨hok.owner_lt slot i hup, ?_⟩
        intro q hq
        rcases howner hq with ⟨hqs, hq⟩
        exact hok.owner_ne hup hq hqs rfl
      · exact ⟨hlt, fun q hq => hfree q (howner hq).2⟩
    · rintro ⟨hlt, hfree⟩
      by_cases hi : i = up
      · exact Or.inl hi
      · refine Or.inr ⟨hlt, ?_⟩
        intro q hq
        by_cases hqs : q = slot
        · rw [hqs, hup] at hq
          exact hi (Option.some.inj hq).symm
        · exact hfree q (by simpa [hqs] using hq)

theorem release_spec (hok : u.Ok si) (slot : Nat) :
    ∃ u', u.release si slot = some u' ∧ ReleasePost si slot u u' := by
  unfold Undos.release
  cases hup : u.semUndo slot with
  | none =>
    exact ⟨u, rfl, hok, by simp [Undos.entries, hup], fun q _ => rfl⟩
  | some up =>
    -- The records are dropped first; then the structure is given back.
    have hgive : ∀ v : Undos, v.Ok si → v.semUndo = u.semUndo → v.unEnt = update u.unEnt up [] →
        ReleasePost si slot u
          { v with
            unNp := update v.unNp up v.semfup
            semfup := some up
            semUndo := update v.semUndo slot none } := by
      intro v hv howners hunEnt
      have hvup : v.semUndo slot = some up := by rw [howners, hup]
      refine ⟨hv.give_back hvup (by simp [hunEnt]), by simp [Undos.entries], ?_⟩
      intro q hq
      simp only [Undos.entries, update_of_ne hq, howners]
      cases hj : u.semUndo q with
      | none => rfl
      | some j =>
        simp only [hunEnt]
        exact update_of_ne (hok.owner_ne hup hj hq) _ _
    by_cases hempty : u.unEnt up = []
    · simp only [hempty, if_true, Option.map_some]
      refine ⟨_, rfl, hgive u hok rfl ?_⟩
      rw [← hempty, update_eq_self]
    · rcases hok.unlink hup hempty with ⟨head, np, hrun, hunlinked⟩
      simp only [hempty, if_false, hrun, Option.map_some]
      refine ⟨_, rfl, ?_⟩
      have hpost := hgive _ (hunlinked none) rfl rfl
      simpa [update_idem] using hpost

end Release

end Semaphore
end Svr4
