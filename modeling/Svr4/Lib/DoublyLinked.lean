import Svr4.Lib.Chain

/-!
# Doubly linked lists

A doubly linked list is threaded through two pointers of its nodes: the nodes
form a chain along `next` from the first node, and the same nodes in
reverse form a chain along `prev` from the last one.  The rules of this
module say which pointers an insertion or a removal has to change.
-/

namespace Svr4

open List

namespace Chain

variable {κ : Type*} {np : κ → Option κ} {h : Option κ} {l : List κ}

/-- A null-terminated chain, pointer by pointer. -/
theorem iff_next : Chain np h l none ↔ h = l.head? ∧ ∀ a k b, l = a ++ k :: b → np k = b.head? := by
  induction l generalizing h with
  | nil => simp
  | cons j rest ih =>
    rw [cons_iff, ih]
    constructor
    · rintro ⟨hj, hhead, hnext⟩
      refine ⟨hj, ?_⟩
      intro a k b hsplit
      cases a with
      | nil =>
        rcases hsplit with ⟨rfl, rfl⟩
        exact hhead
      | cons i a =>
        rw [cons_append, List.cons.injEq] at hsplit
        exact hnext a k b hsplit.2
    · rintro ⟨hj, hnext⟩
      refine ⟨hj, hnext [] j rest rfl, ?_⟩
      intro a k b hsplit
      exact hnext (j :: a) k b (by rw [hsplit, cons_append])

end Chain

/-- The nodes `l` in order, linked both ways between the two ends. -/
structure DLinked {κ : Type*} (next prev : κ → Option κ)
    (first last : Option κ) (l : List κ) : Prop where
  forward : Chain next first l none
  backward : Chain prev last l.reverse none

namespace DLinked

variable {κ : Type*} {next prev next' prev' : κ → Option κ}
  {first last first' last' : Option κ} {l a b : List κ} {k : κ}

theorem nil : DLinked next prev none none [] :=
  ⟨rfl, rfl⟩

theorem first_eq (h : DLinked next prev first last l) : first = l.head? :=
  (Chain.iff_next.mp h.forward).1

theorem last_eq (h : DLinked next prev first last l) : last = l.getLast? := by
  rw [(Chain.iff_next.mp h.backward).1, head?_reverse]

theorem next_eq (h : DLinked next prev first last (a ++ k :: b)) : next k = b.head? :=
  (Chain.iff_next.mp h.forward).2 a k b rfl

theorem prev_eq (h : DLinked next prev first last (a ++ k :: b)) : prev k = a.getLast? := by
  have hback := (Chain.iff_next.mp h.backward).2 b.reverse k a.reverse (by simp)
  rw [hback, head?_reverse]

theorem nodup (h : DLinked next prev first last l) : l.Nodup :=
  h.forward.nodup

/-- Only the pointers of the nodes of the list matter. -/
theorem congr (h : DLinked next prev first last l)
    (hnext : ∀ k ∈ l, next' k = next k) (hprev : ∀ k ∈ l, prev' k = prev k) :
    DLinked next' prev' first last l where
  forward := h.forward.congr hnext
  backward := h.backward.congr fun k hk => hprev k (mem_reverse.mp hk)

/-- The last node of the front part is none of the nodes behind it. -/
theorem getLast?_ne_of_behind {d : List κ} {j : κ} (hnodup : (a ++ d).Nodup) (hj : j ∈ d) :
    a.getLast? ≠ some j := by
  intro hlast
  rw [nodup_append] at hnodup
  exact hnodup.2.2 j (mem_of_getLast? hlast) j hj rfl

theorem getLast?_ne_of_before {c e d : List κ} {i j : κ}
    (hnodup : (c ++ j :: i :: e ++ d).Nodup) : (c ++ j :: i :: e).getLast? ≠ some j := by
  intro hlast
  rw [getLast?_append_cons, getLast?_cons_cons] at hlast
  have hmem := mem_of_getLast? hlast
  rw [append_assoc, nodup_append] at hnodup
  have htail := (nodup_cons.mp hnodup.2.1).1
  exact htail (mem_append_left d hmem)

/-!
## Insertion
-/

/-- The forward pointers after a node `k` is put between two parts. -/
theorem chain_insert {m : κ → Option κ} {f : Option κ} (h : Chain next first (a ++ b) none) (hk : k ∉ a ++ b)
    (hnew : m k = b.head?) (hbefore : ∀ j, a.getLast? = some j → m j = some k)
    (hrest : ∀ j ∈ a ++ b, a.getLast? ≠ some j → m j = next j)
    (hfirst : f = if a = [] then some k else first) : Chain m f (a ++ k :: b) none := by
  have hnodup := h.nodup
  rw [Chain.iff_next] at h ⊢
  rcases h with ⟨hhead, hnext⟩
  constructor
  · rw [hfirst, hhead]
    cases a <;> simp
  · intro c j d hsplit
    rcases append_eq_append_iff.mp hsplit with ⟨e, hc, hd⟩ | ⟨e, ha, hd⟩
    · cases e with
      | nil =>
        rcases hd with ⟨rfl, rfl⟩
        exact hnew
      | cons i e =>
        rcases hd with ⟨rfl, rfl⟩
        rw [hrest j (by simp) (getLast?_ne_of_behind hnodup (by simp))]
        exact hnext (a ++ e) j d (by simp)
    · cases e with
      | nil =>
        rcases hd with ⟨rfl, rfl⟩
        exact hnew
      | cons i e =>
        rcases hd with ⟨rfl, rfl⟩
        subst ha
        cases e with
        | nil => exact hbefore j (by simp)
        | cons i e =>
          rw [hrest j (by simp) (getLast?_ne_of_before hnodup)]
          simpa using hnext c j (i :: e ++ b) (by simp)

/-- Put a node between two parts of the list. -/
theorem insert (h : DLinked next prev first last (a ++ b)) (hk : k ∉ a ++ b)
    (hnext : next' k = b.head?) (hbefore : ∀ j, a.getLast? = some j → next' j = some k)
    (hnextRest : ∀ j ∈ a ++ b, a.getLast? ≠ some j → next' j = next j)
    (hprev : prev' k = a.getLast?) (hbehind : ∀ j, b.head? = some j → prev' j = some k)
    (hprevRest : ∀ j ∈ a ++ b, b.head? ≠ some j → prev' j = prev j)
    (hfirst : first' = if a = [] then some k else first)
    (hlast : last' = if b = [] then some k else last) :
    DLinked next' prev' first' last' (a ++ k :: b) where
  forward := chain_insert h.forward hk hnext hbefore hnextRest hfirst
  backward := by
    have hback : Chain prev last (b.reverse ++ a.reverse) none := by
      rw [← reverse_append]
      exact h.backward
    have hnew := chain_insert (k := k) (m := prev') (f := last') hback
      (by simpa [and_comm] using hk)
      (by rw [hprev, head?_reverse])
      (by rw [getLast?_reverse]; exact hbehind)
      (by
        intro j hj hne
        rw [getLast?_reverse] at hne
        exact hprevRest j (by simpa [or_comm] using hj) hne)
      (by rw [hlast]; simp)
    simpa using hnew

/-!
## Removal
-/

theorem chain_remove {f : Option κ} (h : Chain next first (a ++ k :: b) none)
    (hbefore : ∀ j, a.getLast? = some j → next' j = next k)
    (hrest : ∀ j ∈ a ++ b, a.getLast? ≠ some j → next' j = next j)
    (hfirst : f = if a = [] then next k else first) : Chain next' f (a ++ b) none := by
  have hnodup := h.nodup
  rw [Chain.iff_next] at h ⊢
  rcases h with ⟨hhead, hnext⟩
  have hk : next k = b.head? := hnext a k b rfl
  constructor
  · rw [hfirst, hhead, hk]
    cases a <;> simp
  · intro c j d hsplit
    rcases append_eq_append_iff.mp hsplit with ⟨e, hc, hd⟩ | ⟨e, ha, hd⟩
    · subst hc hd
      rw [hrest j (by simp) (getLast?_ne_of_behind hnodup (by simp))]
      exact hnext (a ++ k :: e) j d (by simp)
    · cases e with
      | nil =>
        rw [append_nil] at ha
        subst ha hd
        rw [hrest j (by simp) (getLast?_ne_of_behind hnodup (by simp))]
        exact hnext (a ++ [k]) j d (by simp)
      | cons i e =>
        rcases hd with ⟨rfl, rfl⟩
        subst ha
        cases e with
        | nil =>
          rw [hbefore j (by simp), hk]
          simp
        | cons i e =>
          rw [hrest j (by simp) (getLast?_ne_of_before hnodup)]
          simpa using hnext c j (i :: e ++ k :: b) (by simp)

/-- Take a node out of the list. -/
theorem remove (h : DLinked next prev first last (a ++ k :: b))
    (hbefore : ∀ j, a.getLast? = some j → next' j = next k)
    (hnextRest : ∀ j ∈ a ++ b, a.getLast? ≠ some j → next' j = next j)
    (hbehind : ∀ j, b.head? = some j → prev' j = prev k)
    (hprevRest : ∀ j ∈ a ++ b, b.head? ≠ some j → prev' j = prev j)
    (hfirst : first' = if a = [] then next k else first)
    (hlast : last' = if b = [] then prev k else last) :
    DLinked next' prev' first' last' (a ++ b) where
  forward := chain_remove h.forward hbefore hnextRest hfirst
  backward := by
    have hback : Chain prev last (b.reverse ++ k :: a.reverse) none := by
      simpa using h.backward
    have hnew := chain_remove (f := last') hback (by rw [getLast?_reverse]; exact hbehind) (by
        intro j hj hne
        rw [getLast?_reverse] at hne
        exact hprevRest j (by simpa [or_comm] using hj) hne)
      (by rw [hlast]; simp)
    simpa using hnew

end DLinked
end Svr4
