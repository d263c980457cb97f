import Svr4.Dnlc.Model

/-!
# The lists of the name cache

The LRU list is a ring, each hash chain is one, and an entry that is on no chain
is linked to itself.  What the routines do to these lists.
-/

namespace Svr4
namespace Dnlc

open Function Rings List

variable {next prev next' prev' : Ref → Ref} {B B' : Nat → List Nat}
  {off off' : Nat → Prop} {L a b : List Nat} {i j h : Nat} {s : Cache}

theorem entry_mem {l : List Nat} : Ref.entry i ∈ l.map Ref.entry ↔ i ∈ l :=
  mem_map_of_injective fun _ _ heq => Ref.entry.inj heq

theorem map_split : (a ++ i :: b).map Ref.entry =
    a.map Ref.entry ++ Ref.entry i :: b.map Ref.entry := by
  rw [map_append, map_cons]

/-- The entries `off` are on no chain, and their links are not looked at. -/
structure HashLists (next prev : Ref → Ref) (B : Nat → List Nat) (off : Nat → Prop) :
    Prop where
  chain : ∀ h < ncHashSize, Closed next prev (.hash h) ((B h).map .entry)
  disjoint : ∀ h < ncHashSize, ∀ h' < ncHashSize, ∀ i ∈ B h, i ∈ B h' → h = h'
  self : ∀ i, (∀ h < ncHashSize, i ∉ B h) → ¬ off i →
    next (.entry i) = .entry i ∧ prev (.entry i) = .entry i

theorem HashLists.mono (hl : HashLists next prev B off) (hoff : ∀ i, off i → off' i) :
    HashLists next prev B off' where
  chain := hl.chain
  disjoint := hl.disjoint
  self i hi hnot := hl.self i hi fun h => hnot (hoff i h)

theorem HashLists.congr (hl : HashLists next prev B off)
    (hB : ∀ h < ncHashSize, B' h = B h) : HashLists next prev B' off where
  chain h hh := by
    rw [hB h hh]
    exact hl.chain h hh
  disjoint h hh h' hh' := by
    rw [hB h hh, hB h' hh']
    exact hl.disjoint h hh h' hh'
  self i hi := hl.self i fun h hh => by
    have hmem := hi h hh
    rwa [hB h hh] at hmem

variable {x p : Ref}

theorem HashLists.apart (hl : HashLists next prev B off) {h' : Nat} (hh : h < ncHashSize)
    (hh' : h' < ncHashSize) (hne : h' ≠ h) (hx : x ∈ Ref.hash h :: (B h).map .entry) :
    ∀ z ∈ Ref.hash h' :: (B h').map Ref.entry, z ≠ x := by
  rintro z hz rfl
  rcases mem_cons.mp hx with rfl | hx
  · rcases mem_cons.mp hz with heq | hz
    · exact hne (Ref.hash.inj heq).symm
    · rcases mem_map.mp hz with ⟨_, _, heq⟩
      cases heq
  · rcases mem_map.mp hx with ⟨k, hk, rfl⟩
    rcases mem_cons.mp hz with heq | hz
    · cases heq
    · exact hne (hl.disjoint h' hh' h hh k (entry_mem.mp hz) hk)

theorem HashLists.alone (hi : ∀ h < ncHashSize, i ∉ B h) (hh : h < ncHashSize)
    (hx : x ∈ Ref.hash h :: (B h).map .entry) : Ref.entry i ≠ x := by
  rintro rfl
  rcases mem_cons.mp hx with heq | hx
  · cases heq
  · exact hi h hh (entry_mem.mp hx)

theorem HashLists.remove (hl : HashLists next prev B off) (hh : h < ncHashSize)
    (hB : B h = a ++ i :: b) : HashLists (update next (prev (.entry i)) (next (.entry i)))
      (update prev (next (.entry i)) (prev (.entry i)))
      (update B h (a ++ b)) (fun j => j = i ∨ off j) := by
  have hring := hl.chain h hh
  have hmem : Ref.entry i ∈ Ref.hash h :: (B h).map .entry := by
    rw [hB, map_split]
    simp
  rcases hring.neighbours hmem with ⟨hn, hp⟩
  rw [hB, map_split] at hring
  have hsub : ∀ h' k, k ∈ update B h (a ++ b) h' → k ∈ B h' := by
    intro h' k hk
    by_cases heq : h' = h
    · subst heq
      rw [update_self] at hk
      rw [hB]
      exact (perm_middle.mem_iff).mpr (mem_cons_of_mem i hk)
    · rwa [update_of_ne heq] at hk
  refine ⟨fun h' hh' => ?_, ?_, fun j hj hoff => ?_⟩
  · by_cases heq : h' = h
    · subst heq
      rw [update_self, map_append]
      exact hring.remove
    · rw [update_of_ne heq]
      refine (hl.chain h' hh').congr (fun z hz => ?_) fun z hz => ?_
      · exact update_of_ne (hl.apart hh hh' heq hp z hz) _ _
      · exact update_of_ne (hl.apart hh hh' heq hn z hz) _ _
  · exact fun k hk k' hk' j hj hj' =>
      hl.disjoint k hk k' hk' j (hsub k j hj) (hsub k' j hj')
  · rw [not_or] at hoff
    have hnot : ∀ k < ncHashSize, j ∉ B k := by
      intro k hk hin
      by_cases heq : k = h
      · subst heq
        have hself := hj k hk
        rw [update_self] at hself
        rw [hB, perm_middle.mem_iff, mem_cons] at hin
        exact hin.elim hoff.1 hself
      · have hself := hj k hk
        rw [update_of_ne heq] at hself
        exact hself hin
    rw [update_of_ne (HashLists.alone hnot hh hp), update_of_ne (HashLists.alone hnot hh hn)]
    exact hl.self j hnot hoff.2

theorem HashLists.remove_self (hl : HashLists next prev B off)
    (hi : ∀ h < ncHashSize, i ∉ B h) (hoff : ¬ off i) :
    HashLists (update next (prev (.entry i)) (next (.entry i)))
      (update prev (next (.entry i)) (prev (.entry i))) B (fun j => j = i ∨ off j) := by
  rcases hl.self i hi hoff with ⟨hn, hp⟩
  have hnext : update next (prev (.entry i)) (next (.entry i)) = next := by
    rw [hp]
    exact update_eq_self _ _
  have hprev : update prev (next (.entry i)) (prev (.entry i)) = prev := by
    rw [hn]
    exact update_eq_self _ _
  rw [hnext, hprev]
  exact hl.mono fun j => Or.inr

section

variable (hl : HashLists next prev B (fun j => j = i)) (hi : ∀ h < ncHashSize, i ∉ B h)
include hl hi

theorem HashLists.insert (hh : h < ncHashSize) (hB : B h = a ++ b)
    (hlast : (Ref.hash h :: a.map .entry).getLast? = some p) (hnextk : next' (.entry i) = next p)
    (hnextp : next' p = .entry i) (hnext : ∀ z, z ≠ .entry i → z ≠ p → next' z = next z)
    (hprevk : prev' (.entry i) = p) (hprevq : prev' (next p) = .entry i)
    (hprev : ∀ z, z ≠ .entry i → z ≠ next p → prev' z = prev z) :
    HashLists next' prev' (update B h (a ++ i :: b)) fun _ => False := by
  have hring := hl.chain h hh
  have hpmem : p ∈ Ref.hash h :: (B h).map .entry := by
    rw [hB, map_append, ← cons_append]
    exact mem_append_left _ (mem_of_getLast? hlast)
  have hqmem := (hring.neighbours hpmem).1
  have hself : ∀ k < ncHashSize, ∀ z ∈ Ref.hash k :: (B k).map Ref.entry, z ≠ Ref.entry i :=
    fun k hk z hz heq => HashLists.alone hi hk hz heq.symm
  have hcases : ∀ k j, j ∈ update B h (a ++ i :: b) k → (k = h ∧ j = i) ∨ j ∈ B k := by
    intro k j hj
    by_cases heq : k = h
    · subst heq
      rw [update_self, perm_middle.mem_iff, mem_cons] at hj
      rw [hB]
      exact hj.imp (fun hji => ⟨rfl, hji⟩) id
    · rw [update_of_ne heq] at hj
      exact Or.inr hj
  refine ⟨fun k hk => ?_, ?_, fun j hj _ => ?_⟩
  · by_cases heq : k = h
    · subst heq
      rw [update_self, map_split]
      rw [hB, map_append] at hring
      refine hring.insert hlast ?_ hnextk hnextp hnext hprevk hprevq hprev
      intro hmem
      rw [← map_append, ← hB] at hmem
      exact hself k hk _ hmem rfl
    · rw [update_of_ne heq]
      refine (hl.chain k hk).congr (fun z hz => ?_) fun z hz => ?_
      · exact hnext z (hself k hk z hz) (hl.apart hh hk heq hpmem z hz)
      · exact hprev z (hself k hk z hz) (hl.apart hh hk heq hqmem z hz)
  · intro k hk k' hk' j hj hj'
    rcases hcases k j hj with ⟨hkh, hji⟩ | hold
    · rcases hcases k' j hj' with ⟨hkh', _⟩ | hold'
      · exact hkh.trans hkh'.symm
      · rw [hji] at hold'
        exact absurd hold' (hi k' hk')
    · rcases hcases k' j hj' with ⟨_, hji⟩ | hold'
      · rw [hji] at hold
        exact absurd hold (hi k hk)
      · exact hl.disjoint k hk k' hk' j hold hold'
  · have hne : j ≠ i := by
      rintro rfl
      have hmem := hj h hh
      exact hmem (by simp)
    have hnot : ∀ k < ncHashSize, j ∉ B k := by
      intro k hk hmem
      have hk' := hj k hk
      by_cases heq : k = h
      · subst heq
        rw [update_self, perm_middle.mem_iff] at hk'
        rw [hB] at hmem
        exact hk' (mem_cons_of_mem i hmem)
      · rw [update_of_ne heq] at hk'
        exact hk' hmem
    have hji : Ref.entry j ≠ Ref.entry i := fun heq => hne (Ref.entry.inj heq)
    rw [hnext _ hji (HashLists.alone hnot hh hpmem), hprev _ hji (HashLists.alone hnot hh hqmem)]
    exact hl.self j hnot hne

theorem HashLists.null : HashLists (update next (.entry i) (.entry i))
      (update prev (.entry i) (.entry i)) B fun _ => False where
  chain h hh := by
    refine (hl.chain h hh).congr (fun z hz => ?_) fun z hz => ?_
    · exact update_of_ne (fun heq => HashLists.alone hi hh hz heq.symm) _ _
    · exact update_of_ne (fun heq => HashLists.alone hi hh hz heq.symm) _ _
  disjoint := hl.disjoint
  self j hj _ := by
    by_cases heq : j = i
    · rw [heq, update_self, update_self]
      exact ⟨rfl, rfl⟩
    · have hne : Ref.entry j ≠ Ref.entry i := fun h => heq (Ref.entry.inj h)
      rw [update_of_ne hne, update_of_ne hne]
      exact hl.self j hj heq

end

/-!
## The routines
-/

structure Lists (s : Cache) (L : List Nat) (B : Nat → List Nat) : Prop where
  lru : Closed s.lruNext s.lruPrev .lru (L.map .entry)
  hash : HashLists s.hashNext s.hashPrev B fun _ => False

theorem Lists.nodup (hl : Lists s L B) : L.Nodup :=
  List.Nodup.of_map _ (nodup_cons.mp hl.lru.nodup).2

theorem Lists.chain_nodup (hl : Lists s L B) (hh : h < ncHashSize) : (B h).Nodup :=
  List.Nodup.of_map _ (nodup_cons.mp (hl.hash.chain h hh).nodup).2

theorem update_apply_self {f : Ref → Ref} (p x : Ref) : update f p (f x) x = f x := by
  by_cases hx : x = p
  · rw [hx, update_self]
  · exact update_of_ne hx _ _

theorem Lists.rmhash (hl : Lists s L B) (i : Nat) :
    HashLists (s.ncRmhash (.entry i)).hashNext (s.ncRmhash (.entry i)).hashPrev
      (fun h => (B h).erase i) fun j => j = i := by
  have hlinks : (s.ncRmhash (.entry i)).hashPrev =
      update s.hashPrev (s.hashNext (.entry i)) (s.hashPrev (.entry i)) := by
    unfold Cache.ncRmhash
    dsimp only
    rw [update_apply_self]
  have hshrink : HashLists (update s.hashNext (s.hashPrev (.entry i)) (s.hashNext (.entry i)))
      (update s.hashPrev (s.hashNext (.entry i)) (s.hashPrev (.entry i)))
      (fun h => (B h).erase i) (fun j => j = i ∨ False) := by
    by_cases hon : ∃ h < ncHashSize, i ∈ B h
    · rcases hon with ⟨h, hh, hmem⟩
      rcases append_of_mem hmem with ⟨a, b, hB⟩
      refine (hl.hash.remove hh hB).congr fun k hk => ?_
      by_cases heq : k = h
      · subst heq
        have hnodup := hl.chain_nodup hh
        rw [hB, nodup_append] at hnodup
        have hnot : i ∉ a := fun hmem => hnodup.2.2 i hmem i mem_cons_self rfl
        rw [update_self, hB, erase_append_right _ hnot, erase_cons_head]
      · rw [update_of_ne heq]
        refine erase_of_not_mem fun hmem' => heq ?_
        exact hl.hash.disjoint k hk h hh i hmem' hmem
    · have hnot : ∀ h < ncHashSize, i ∉ B h := fun h hh hmem => hon ⟨h, hh, hmem⟩
      refine (hl.hash.remove_self hnot id).congr fun k hk => ?_
      exact erase_of_not_mem (hnot k hk)
  rw [hlinks]
  exact hshrink.mono fun j hj => hj.resolve_right id

theorem notMem_erase (hl : Lists s L B) (i : Nat) : ∀ h < ncHashSize, i ∉ (B h).erase i :=
  fun _ hh => (hl.chain_nodup hh).not_mem_erase

theorem Lists.rmlru (hl : Lists s (a ++ i :: b) B) :
    Closed (s.ncRmlru (.entry i)).lruNext (s.ncRmlru (.entry i)).lruPrev .lru
      ((a ++ b).map .entry) := by
  have hring := hl.lru
  rw [map_split] at hring
  unfold Cache.ncRmlru
  dsimp only
  rw [update_apply_self, map_append]
  exact hring.remove

theorem inslru (hl : Closed s.lruNext s.lruPrev .lru ((a ++ b).map .entry)) (hi : i ∉ a ++ b)
    (hp : (Ref.lru :: a.map .entry).getLast? = some p) :
    Closed (s.ncInslru (.entry i) p).lruNext (s.ncInslru (.entry i) p).lruPrev .lru
      ((a ++ i :: b).map .entry) := by
  have hnot : Ref.entry i ∉ Ref.lru :: (a ++ b).map .entry := by
    intro hmem
    rcases mem_cons.mp hmem with heq | hmem
    · cases heq
    · exact hi (entry_mem.mp hmem)
  have hpmem : p ∈ Ref.lru :: (a ++ b).map .entry := by
    rw [map_append, ← cons_append]
    exact mem_append_left _ (mem_of_getLast? hp)
  have hqmem := (hl.neighbours hpmem).1
  have hpi : p ≠ Ref.entry i := by
    rintro rfl
    exact hnot hpmem
  have hqi : s.lruNext p ≠ Ref.entry i := fun heq => hnot (heq ▸ hqmem)
  rw [map_append] at hl hnot
  rw [map_split]
  unfold Cache.ncInslru
  dsimp only
  refine hl.insert hp hnot ?_ ?_ ?_ ?_ ?_ ?_
  · exact update_self ..
  · rw [update_of_ne hpi, update_self]
  · intro z hz hzp
    rw [update_of_ne hz, update_of_ne hzp]
  · exact update_self ..
  · rw [update_of_ne hqi, update_self]
  · intro z hz hzq
    rw [update_of_ne hz, update_of_ne hzq]

theorem inshash (hl : HashLists s.hashNext s.hashPrev B (fun j => j = i))
    (hi : ∀ h < ncHashSize, i ∉ B h) (hh : h < ncHashSize) (hB : B h = a ++ b)
    (hp : (Ref.hash h :: a.map .entry).getLast? = some p) :
    HashLists (s.ncInshash (.entry i) p).hashNext (s.ncInshash (.entry i) p).hashPrev
      (update B h (a ++ i :: b)) fun _ => False := by
  have hpmem : p ∈ Ref.hash h :: (B h).map .entry := by
    rw [hB, map_append, ← cons_append]
    exact mem_append_left _ (mem_of_getLast? hp)
  have hqmem := ((hl.chain h hh).neighbours hpmem).1
  have hpi : p ≠ Ref.entry i := Ne.symm (HashLists.alone hi hh hpmem)
  have hqi : s.hashNext p ≠ Ref.entry i := Ne.symm (HashLists.alone hi hh hqmem)
  unfold Cache.ncInshash
  dsimp only
  rw [update_of_ne hpi]
  refine hl.insert hi hh hB hp ?_ ?_ ?_ ?_ ?_ ?_
  · rw [update_of_ne hpi.symm, update_self]
  · exact update_self ..
  · intro z hz hzp
    rw [update_of_ne hzp, update_of_ne hz]
  · rw [update_of_ne hqi.symm, update_self]
  · exact update_self ..
  · intro z hz hzq
    rw [update_of_ne hzq, update_of_ne hz]

theorem lru_last (hl : Closed s.lruNext s.lruPrev .lru (L.map .entry)) :
    (Ref.lru :: L.map .entry).getLast? = some (s.lruPrev .lru) :=
  hl.linked.prev_eq

theorem Lists.dnlcRm (hl : Lists s (a ++ i :: b) B) :
    Lists (s.dnlcRm i) (i :: (a ++ b)) fun h => (B h).erase i := by
  have hnot := (nodup_cons.mp ((perm_middle.nodup_iff).mp hl.nodup)).1
  refine ⟨?_, ?_⟩
  · exact inslru (s := (s.ncRmlru (.entry i)).ncRmhash (.entry i)) (a := []) hl.rmlru hnot
      rfl
  · exact (hl.rmhash i).null (notMem_erase hl i)

theorem Lists.fill {dp vp : Nat} {name : Name} {cred : Option Nat} (hl : Lists s (i :: b) B) :
    Lists (s.fill i dp name vp cred) (b ++ [i]) (update (fun h => (B h).erase i) (ncHash name dp)
        (i :: (B (ncHash name dp)).erase i)) := by
  have hlru : Closed (s.ncRmlru (.entry i)).lruNext (s.ncRmlru (.entry i)).lruPrev .lru
      (b.map .entry) := Lists.rmlru (a := []) hl
  have hnot : i ∉ b := (nodup_cons.mp hl.nodup).1
  have hhash : ncHash name dp < ncHashSize := Nat.mod_lt _ (by decide)
  refine ⟨?_, ?_⟩
  · refine inslru (s := (s.ncRmlru (.entry i)).ncRmhash (.entry i)) (a := b) (b := [])
      ?_ ?_ (lru_last hlru)
    · rw [append_nil]
      exact hlru
    · rw [append_nil]
      exact hnot
  · exact inshash (s := (s.ncRmlru (.entry i)).ncRmhash (.entry i)) (a := [])
      (hl.rmhash i) (notMem_erase hl i) hhash rfl rfl

theorem Lists.touch (hl : Lists s (a ++ i :: b) B) (hh : h < ncHashSize) (hi : i ∈ B h) :
    ∃ B', Lists (s.touch i h) (a ++ b ++ [i]) B' ∧ ∀ k < ncHashSize, (B' k).Perm (B k) := by
  have hnot := (nodup_cons.mp ((perm_middle.nodup_iff).mp hl.nodup)).1
  have hlru : Closed ((s.ncRmlru (.entry i)).ncInslru (.entry i)
        ((s.ncRmlru (.entry i)).lruPrev .lru)).lruNext
      ((s.ncRmlru (.entry i)).ncInslru (.entry i)
        ((s.ncRmlru (.entry i)).lruPrev .lru)).lruPrev .lru
      ((a ++ b ++ [i]).map .entry) := by
    refine inslru (a := a ++ b) (b := []) ?_ ?_ (lru_last hl.rmlru)
    · rw [append_nil]
      exact hl.rmlru
    · rw [append_nil]
      exact hnot
  unfold Cache.touch
  dsimp only
  split
  · rename_i hfar
    rcases append_of_mem hi with ⟨front, d, hB⟩
    have hring := hl.hash.chain h hh
    have hnodup := hl.chain_nodup hh
    rw [hB, map_split] at hring
    have hleft := (Linked.append_iff.mp hring.linked).1
    rw [hB] at hnodup
    have hfront : i ∉ front := by
      intro hmem
      rw [nodup_append] at hnodup
      exact hnodup.2.2 i hmem i mem_cons_self rfl
    rcases eq_nil_or_concat front with rfl | ⟨c, p, rfl⟩
    · exact absurd hleft.2 hfar
    · rw [concat_eq_append] at hB hnodup hfront hleft
      have hprev : s.hashPrev (.entry i) = .entry p := by
        have hlast := hleft.prev_eq
        rw [map_append, ← cons_append, map_singleton, List.getLast?_concat] at hlast
        exact (Option.some.inj hlast).symm
      have herase : (B h).erase i = c ++ p :: d := by
        rw [hB, erase_append_right _ hfront, erase_cons_head]
        simp
      have hshort := hl.rmhash i
      have hstay : (s.ncRmhash (.entry i)).hashPrev (.entry i) = .entry p := by
        unfold Cache.ncRmhash
        dsimp only
        rw [update_apply_self]
        exact hprev
      have hchain := hshort.chain h hh
      rw [herase, map_split] at hchain
      have hlast := (Linked.append_iff.mp hchain.linked).1.prev_eq
      rw [← hstay] at hlast
      have hins := inshash (s := s.ncRmhash (.entry i)) hshort (notMem_erase hl i) hh herase hlast
      refine ⟨_, ⟨hlru, hins⟩, fun k hk => ?_⟩
      by_cases hkh : k = h
      · subst hkh
        rw [update_self, hB]
        simpa using (List.Perm.swap p i d).append_left c
      · rw [update_of_ne hkh]
        rw [erase_of_not_mem]
        intro hmem
        exact hkh (hl.hash.disjoint k hk h hh i hmem hi)
  · exact ⟨B, ⟨hlru, hl.hash⟩, fun k _ => List.Perm.refl _⟩

end Dnlc
end Svr4
