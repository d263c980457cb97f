import Mathlib.Data.List.Pairwise

/-!
# Binary search trees

`tsearch`, `tdelete` and `twalk` of `port/gen/tsearch.c`.  A tree is
what its pointers lead to; each node is known by its address, which `malloc` gave.
-/

namespace Svr4
namespace Tsearch

open List

variable {K : Type}

inductive Node (K : Type) where
  | null
  | node (addr : Nat) (key : K) (llink rlink : Node K)

inductive Visit where
  | preorder
  | postorder
  | endorder
  | leaf

def Visit.inOrder : Visit → Bool
  | postorder | leaf => true
  | _ => false

namespace Node

section Functions

variable (compar : K → K → Int)

/-- `tsearch`, with the answer of `malloc`: the tree, and the node returned. -/
def tsearch (key : K) (q : Option Nat) : Node K → Node K × Option Nat
  | null => (q.elim null fun q => node q key null null, q)
  | node p k llink rlink =>
    let r := compar key k
    if r = 0 then (node p k llink rlink, some p)
    else if r < 0 then
      let t := tsearch key q llink
      (node p k t.1 rlink, t.2)
    else
      let t := tsearch key q rlink
      (node p k llink t.1, t.2)

/-- The node without a left link is found and cut off: `r->llink = q->rlink`. -/
def cut : Node K → Option ((Nat × K) × Node K)
  | null => none
  | node q k null rlink => some ((q, k), rlink)
  | node r k (node p l ll lr) rlink =>
    (cut (node p l ll lr)).map fun c => (c.1, node r k c.2 rlink)

def replacement : Node K → Node K → Node K
  | null, r => r
  | q, null => q
  | q, node r k null rlink => node r k q rlink
  | q, node r k llink rlink =>
    ((node r k llink rlink).cut).elim q fun c => node c.1.1 c.1.2 q c.2

/-- The loop of `tdelete`, below the node `p`: the node returned, and the tree. -/
def deleteBelow (key : K) (p : Nat) : Node K → Option (Nat × Node K)
  | null => none
  | node a k llink rlink =>
    let ans := compar key k
    if ans = 0 then some (p, replacement llink rlink)
    else if ans < 0 then (deleteBelow key a llink).map fun t => (t.1, node a k t.2 rlink)
    else (deleteBelow key a rlink).map fun t => (t.1, node a k llink t.2)

/-- `tdelete`; above the root is the root. -/
def tdelete (key : K) : Node K → Option (Nat × Node K)
  | null => none
  | node a k llink rlink => deleteBelow compar key a (node a k llink rlink)

end Functions

def isNull : Node K → Bool
  | null => true
  | node .. => false

/-- `twalk`: the calls of the action. -/
def twalk (level : Nat) : Node K → List ((Nat × K) × Visit × Nat)
  | null => []
  | node p k llink rlink =>
    if llink.isNull ∧ rlink.isNull then [((p, k), .leaf, level)]
    else
      ((p, k), .preorder, level) :: twalk (level + 1) llink ++
        ((p, k), .postorder, level) :: twalk (level + 1) rlink ++ [((p, k), .endorder, level)]

def nodes : Node K → List (Nat × K)
  | null => []
  | node p k llink rlink => nodes llink ++ (p, k) :: nodes rlink

end Node

/-!
## Comparison
-/

/-- A comparison function that is consistent. -/
structure Consistent (compar : K → K → Int) : Prop where
  swap : ∀ a b, compar a b < 0 ↔ 0 < compar b a
  trans : ∀ a b c, compar a b ≤ 0 → compar b c ≤ 0 → compar a c ≤ 0

def Ordered (compar : K → K → Int) (l : List (Nat × K)) : Prop :=
  l.Pairwise fun a b => compar a.2 b.2 < 0

variable {compar : K → K → Int} {a b c k : K}

theorem Consistent.lt_of_lt_of_le (hc : Consistent compar) (hab : compar a b < 0)
    (hbc : compar b c ≤ 0) : compar a c < 0 := by
  by_contra hge
  have hca : compar c a ≤ 0 := by
    have hswap := hc.swap a c
    by_contra hlt
    omega
  have hba := hc.trans b c a hbc hca
  have hswap := hc.swap a b
  omega

theorem Consistent.lt_of_le_of_lt (hc : Consistent compar) (hab : compar a b ≤ 0)
    (hbc : compar b c < 0) : compar a c < 0 := by
  by_contra hge
  have hca : compar c a ≤ 0 := by
    have hswap := hc.swap a c
    by_contra hlt
    omega
  have hcb := hc.trans c a b hca hab
  have hswap := hc.swap b c
  omega

/-!
## Search
-/

variable {llink rlink t : Node K} {e : Nat × K}

namespace Node

variable {key : K}

theorem ordered_node {p : Nat} : Ordered compar (node p k llink rlink).nodes ↔
      Ordered compar llink.nodes ∧ Ordered compar rlink.nodes ∧
        (∀ e ∈ llink.nodes, compar e.2 k < 0) ∧ (∀ e ∈ rlink.nodes, compar k e.2 < 0) ∧
        ∀ e ∈ llink.nodes, ∀ e' ∈ rlink.nodes, compar e.2 e'.2 < 0 := by
  show List.Pairwise _ (llink.nodes ++ (p, k) :: rlink.nodes) ↔ _
  rw [pairwise_append, pairwise_cons]
  simp only [mem_cons, forall_eq_or_imp]
  constructor
  · rintro ⟨hl, ⟨hk, hr⟩, hlr⟩
    exact ⟨hl, hr, fun e he => (hlr e he).1, hk, fun e he => (hlr e he).2⟩
  · rintro ⟨hl, hr, hlk, hk, hlr⟩
    exact ⟨hl, ⟨hk, hr⟩, fun e he => ⟨hlk e he, hlr e he⟩⟩

section

variable (hc : Consistent compar)
include hc

theorem compar_left {p : Nat}
    (h : Ordered compar (node p k llink rlink).nodes) (hkey : compar key k ≤ 0) :
    ∀ e ∈ rlink.nodes, compar key e.2 < 0 :=
  fun e he => hc.lt_of_le_of_lt hkey ((ordered_node.mp h).2.2.2.1 e he)

theorem compar_right {p : Nat}
    (h : Ordered compar (node p k llink rlink).nodes) (hkey : 0 ≤ compar key k) :
    ∀ e ∈ llink.nodes, 0 < compar key e.2 := by
  intro e he
  have hswap := hc.swap key k
  have hle : compar k key ≤ 0 := by
    have hback := hc.swap k key
    omega
  exact (hc.swap e.2 key).mp (hc.lt_of_lt_of_le ((ordered_node.mp h).2.2.1 e he) hle)

theorem tsearch_absent (ht : Ordered compar t.nodes) (q : Option Nat)
    (habsent : ∀ e ∈ t.nodes, compar key e.2 ≠ 0) :
    (t.tsearch compar key q).2 = q ∧ ∃ l r, t.nodes = l ++ r ∧
      (t.tsearch compar key q).1.nodes = l ++ (q.toList.map fun q => (q, key)) ++ r ∧
      (∀ e ∈ l, 0 < compar key e.2) ∧ ∀ e ∈ r, compar key e.2 < 0 := by
  induction t with
  | null =>
    refine ⟨rfl, [], [], rfl, ?_, nofun, nofun⟩
    cases q <;> rfl
  | node p k llink rlink ihl ihr =>
    rcases ordered_node.mp ht with ⟨hl, hr, -⟩
    have hne : compar key k ≠ 0 := habsent (p, k) (mem_append_right _ mem_cons_self)
    unfold tsearch
    rw [if_neg hne]
    by_cases hlt : compar key k < 0
    · rcases ihl hl fun e he => habsent e (mem_append_left _ he) with
        ⟨hq, l, r, hsplit, hnew, hbelow, habove⟩
      have hright := compar_left hc ht (Int.le_of_lt hlt)
      rw [if_pos hlt]
      refine ⟨hq, l, r ++ (p, k) :: rlink.nodes, ?_, ?_, hbelow, fun e he => ?_⟩
      · show llink.nodes ++ _ = _
        rw [hsplit, append_assoc]
      · show (llink.tsearch compar key q).1.nodes ++ _ = _
        rw [hnew, append_assoc _ r]
      · rcases mem_append.mp he with he | he
        · exact habove e he
        · rcases mem_cons.mp he with rfl | he
          · exact hlt
          · exact hright e he
    · rcases ihr hr fun e he => habsent e (mem_append_right _ (mem_cons_of_mem _ he)) with
        ⟨hq, l, r, hsplit, hnew, hbelow, habove⟩
      have hleft := compar_right hc ht (Int.not_lt.mp hlt)
      rw [if_neg hlt]
      refine ⟨hq, llink.nodes ++ (p, k) :: l, r, ?_, ?_, fun e he => ?_, habove⟩
      · show _ ++ (p, k) :: rlink.nodes = _
        rw [hsplit, append_assoc]
        rfl
      · show _ ++ (p, k) :: (rlink.tsearch compar key q).1.nodes = _
        rw [hnew]
        simp only [append_assoc, cons_append]
      · rcases mem_append.mp he with he | he
        · exact hleft e he
        · rcases mem_cons.mp he with rfl | he
          · show 0 < compar key k
            omega
          · exact hbelow e he

theorem tsearch_found (ht : Ordered compar t.nodes) (q : Option Nat)
    (he : e ∈ t.nodes) (hkey : compar key e.2 = 0) : t.tsearch compar key q = (t, some e.1) := by
  induction t with
  | null => cases he
  | node p k llink rlink ihl ihr =>
    rcases ordered_node.mp ht with ⟨hl, hr, -⟩
    unfold tsearch
    rcases mem_append.mp he with hin | hin
    · have hlt : compar key k < 0 := by
        by_contra hge
        have hpos := compar_right hc ht (Int.not_lt.mp hge) e hin
        omega
      rw [if_neg (by omega), if_pos hlt, ihl hl hin]
    · rcases mem_cons.mp hin with rfl | hin
      · rw [if_pos hkey]
      · have hgt : ¬ compar key k ≤ 0 := by
          intro hle
          have hneg := compar_left hc ht hle e hin
          omega
        rw [if_neg (by omega), if_neg (by omega), ihr hr hin]

end

/-!
## Deletion
-/

theorem cut_nodes (h : t ≠ null) : ∃ c, t.cut = some c ∧ t.nodes = c.1 :: c.2.nodes := by
  induction t with
  | null => exact absurd rfl h
  | node r k llink rlink ihl ihr =>
    cases llink with
    | null => exact ⟨_, rfl, rfl⟩
    | node p l ll lr =>
      rcases ihl (fun h => nomatch h) with ⟨c, hcut, hnodes⟩
      refine ⟨(c.1, node r k c.2 rlink), ?_, ?_⟩
      · show ((node p l ll lr).cut).map _ = _
        rw [hcut]
        rfl
      · show (node p l ll lr).nodes ++ _ = _
        rw [hnodes]
        rfl

theorem replacement_nodes (llink rlink : Node K) :
    (replacement llink rlink).nodes = llink.nodes ++ rlink.nodes := by
  cases llink with
  | null => cases rlink <;> rfl
  | node p l ll lr =>
    cases rlink with
    | null => exact (append_nil _).symm
    | node r k rl rr =>
      cases rl with
      | null => rfl
      | node p' l' ll' lr' =>
        rcases cut_nodes (t := node r k (node p' l' ll' lr') rr) (fun h => nomatch h) with
          ⟨c, hcut, hnodes⟩
        show Node.nodes (((node r k (node p' l' ll' lr') rr).cut).elim _ _) = _
        rw [hcut, hnodes]
        rfl

theorem deleteBelow_absent (p : Nat) (habsent : ∀ e ∈ t.nodes, compar key e.2 ≠ 0) :
    t.deleteBelow compar key p = none := by
  induction t generalizing p with
  | null => rfl
  | node a k llink rlink ihl ihr =>
    have hne : compar key k ≠ 0 := habsent (a, k) (mem_append_right _ mem_cons_self)
    unfold deleteBelow
    rw [if_neg hne, ihl a fun e he => habsent e (mem_append_left _ he),
      ihr a fun e he => habsent e (mem_append_right _ (mem_cons_of_mem _ he))]
    exact ite_self _

abbrev others (compar : K → K → Int) (key : K) (l : List (Nat × K)) : List (Nat × K) :=
  l.filter fun e => compar key e.2 ≠ 0

theorem others_eq_self {l : List (Nat × K)} (h : ∀ e ∈ l, compar key e.2 ≠ 0) :
    others compar key l = l :=
  filter_eq_self.mpr fun e he => decide_eq_true (h e he)

theorem deleteBelow_found (hc : Consistent compar) (ht : Ordered compar t.nodes) (p : Nat)
    (he : e ∈ t.nodes) (hkey : compar key e.2 = 0) :
    ∃ r, t.deleteBelow compar key p = some r ∧ r.2.nodes = others compar key t.nodes := by
  induction t generalizing p with
  | null => cases he
  | node a k llink rlink ihl ihr =>
    rcases ordered_node.mp ht with ⟨hl, hr, -⟩
    have hsplit : others compar key (node a k llink rlink).nodes =
        others compar key llink.nodes ++ others compar key ((a, k) :: rlink.nodes) :=
      filter_append _ _
    have hleft : 0 ≤ compar key k → others compar key llink.nodes = llink.nodes :=
      fun hle => others_eq_self fun e he => (Int.ne_of_lt (compar_right hc ht hle e he)).symm
    have hright : compar key k ≤ 0 → others compar key rlink.nodes = rlink.nodes :=
      fun hle => others_eq_self fun e he => Int.ne_of_lt (compar_left hc ht hle e he)
    rw [hsplit]
    unfold deleteBelow
    by_cases heq : compar key k = 0
    · have hroot : others compar key ((a, k) :: rlink.nodes) = others compar key rlink.nodes :=
        filter_cons_of_neg (by simpa using heq)
      rw [if_pos heq, hroot, hleft (Int.le_of_eq heq.symm), hright (Int.le_of_eq heq)]
      exact ⟨_, rfl, replacement_nodes llink rlink⟩
    have hroot : others compar key ((a, k) :: rlink.nodes) =
        (a, k) :: others compar key rlink.nodes := filter_cons_of_pos (by simpa using heq)
    rw [if_neg heq, hroot]
    by_cases hlt : compar key k < 0
    · have hin : e ∈ llink.nodes := by
        rcases mem_append.mp he with hin | hin
        · exact hin
        · rcases mem_cons.mp hin with rfl | hin
          · exact absurd hkey heq
          · have hneg := compar_left hc ht (Int.le_of_lt hlt) e hin
            omega
      rcases ihl hl a hin with ⟨r, hrun, hnodes⟩
      rw [if_pos hlt, hrun, hright (Int.le_of_lt hlt)]
      exact ⟨_, rfl, congrArg (· ++ _) hnodes⟩
    · have hin : e ∈ rlink.nodes := by
        rcases mem_append.mp he with hin | hin
        · have hpos := compar_right hc ht (Int.not_lt.mp hlt) e hin
          omega
        · rcases mem_cons.mp hin with rfl | hin
          · exact absurd hkey heq
          · exact hin
      rcases ihr hr a hin with ⟨r, hrun, hnodes⟩
      rw [if_neg hlt, hrun, hleft (Int.not_lt.mp hlt)]
      exact ⟨_, rfl, congrArg (fun l => llink.nodes ++ (a, k) :: l) hnodes⟩

theorem tdelete_absent (habsent : ∀ e ∈ t.nodes, compar key e.2 ≠ 0) :
    t.tdelete compar key = none := by
  cases t with
  | null => rfl
  | node a k llink rlink => exact deleteBelow_absent a habsent

theorem tdelete_found (hc : Consistent compar) (ht : Ordered compar t.nodes) (he : e ∈ t.nodes)
    (hkey : compar key e.2 = 0) :
    ∃ r, t.tdelete compar key = some r ∧ r.2.nodes = others compar key t.nodes := by
  cases t with
  | null => cases he
  | node a k llink rlink => exact deleteBelow_found hc ht a he hkey

def visited (calls : List ((Nat × K) × Visit × Nat)) : List (Nat × K) :=
  (calls.filter fun v => v.2.1.inOrder).map Prod.fst

theorem twalk_nodes (t : Node K) (level : Nat) : visited (t.twalk level) = t.nodes := by
  unfold visited
  induction t generalizing level with
  | null => rfl
  | node p k llink rlink ihl ihr =>
    unfold twalk
    by_cases hleaf : llink.isNull = true ∧ rlink.isNull = true
    · cases llink with
      | null =>
        cases rlink with
        | null => rfl
        | node => cases hleaf.2
      | node => cases hleaf.1
    · rw [if_neg hleaf]
      have hpre : Visit.preorder.inOrder = false := rfl
      have hpost : Visit.postorder.inOrder = true := rfl
      have hend : Visit.endorder.inOrder = false := rfl
      simp [ihl, ihr, nodes, hpre, hpost, hend]

end Node

/-!
## Sequences of calls
-/

inductive Call (K : Type) where
  | tsearch (key : K) (q : Option Nat)
  | tdelete (key : K)

def exec (compar : K → K → Int) (t : Node K) : Call K → Node K
  | .tsearch key q => (t.tsearch compar key q).1
  | .tdelete key => (t.tdelete compar key).elim t Prod.snd

def update (compar : K → K → Int) (m : List (Nat × K)) : Call K → List (Nat × K)
  | .tsearch key q =>
    if ∃ e ∈ m, compar key e.2 = 0 then m else (q.toList.map fun q => (q, key)) ++ m
  | .tdelete key => Node.others compar key m

/-- A tree represents a map, and its nodes are found and visited. -/
structure Represents (compar : K → K → Int) (t : Node K) (m : List (Nat × K)) : Prop where
  ordered : Ordered compar t.nodes
  perm : t.nodes.Perm m
  found : ∀ key q, ∀ e ∈ m, compar key e.2 = 0 → t.tsearch compar key q = (t, some e.1)
  absent : ∀ key q, (∀ e ∈ m, compar key e.2 ≠ 0) →
    (t.tsearch compar key q).2 = q ∧ t.tdelete compar key = none
  walked : ∀ level, Node.visited (t.twalk level) = t.nodes

variable {m : List (Nat × K)}

theorem Represents.of_perm (hc : Consistent compar) (ht : Ordered compar t.nodes)
    (hm : t.nodes.Perm m) : Represents compar t m where
  ordered := ht
  perm := hm
  found _ q _ he hkey := Node.tsearch_found hc ht q (hm.mem_iff.mpr he) hkey
  absent _ q h :=
    have habsent := fun e he => h e (hm.mem_iff.mp he)
    ⟨(Node.tsearch_absent hc ht q habsent).1, Node.tdelete_absent habsent⟩
  walked := t.twalk_nodes

theorem Represents.exec (hc : Consistent compar) (h : Represents compar t m) (call : Call K) :
    Represents compar (exec compar t call) (update compar m call) := by
  cases call with
  | tsearch key q =>
    unfold Tsearch.exec update
    dsimp only
    by_cases hin : ∃ e ∈ m, compar key e.2 = 0
    · rcases hin with ⟨e, he, hkey⟩
      rw [if_pos ⟨e, he, hkey⟩, h.found key q e he hkey]
      exact h
    · have habsent : ∀ e ∈ t.nodes, compar key e.2 ≠ 0 :=
        fun e he hkey => hin ⟨e, h.perm.mem_iff.mp he, hkey⟩
      rcases (Node.tsearch_absent hc h.ordered q habsent).2 with
        ⟨l, r, hsplit, hnew, hbelow, habove⟩
      have hordered := h.ordered
      have hperm := h.perm
      rw [hsplit] at hordered hperm
      rw [if_neg hin]
      refine .of_perm hc ?_ ?_
      · rw [hnew]
        unfold Ordered at hordered ⊢
        rw [pairwise_append] at hordered
        cases q with
        | none =>
          show List.Pairwise _ (l ++ [] ++ r)
          rw [append_nil, pairwise_append]
          exact hordered
        | some q =>
          rw [append_assoc, pairwise_append]
          refine ⟨hordered.1, pairwise_cons.mpr ⟨habove, hordered.2.1⟩, fun e he e' he' => ?_⟩
          rcases mem_cons.mp he' with rfl | he'
          · exact (hc.swap e.2 key).mpr (hbelow e he)
          · exact hordered.2.2 e he e' he'
      · rw [hnew, append_assoc]
        refine (perm_append_comm_assoc _ _ _).trans (hperm.append_left _)
  | tdelete key =>
    unfold Tsearch.exec update
    dsimp only
    by_cases hin : ∃ e ∈ t.nodes, compar key e.2 = 0
    · rcases hin with ⟨e, he, hkey⟩
      rcases Node.tdelete_found hc h.ordered he hkey with ⟨r, hrun, hnodes⟩
      rw [hrun]
      refine .of_perm hc ?_ ?_
      · show Ordered compar r.2.nodes
        rw [hnodes]
        exact h.ordered.filter _
      · show r.2.nodes.Perm _
        rw [hnodes]
        exact h.perm.filter _
    · have habsent : ∀ e ∈ t.nodes, compar key e.2 ≠ 0 := fun e he hkey => hin ⟨e, he, hkey⟩
      rw [Node.tdelete_absent habsent,
        Node.others_eq_self fun e he => habsent e (h.perm.mem_iff.mpr he)]
      exact h

theorem represents_of_calls (hc : Consistent compar) (calls : List (Call K)) :
    Represents compar (calls.foldl (exec compar) .null) (calls.foldl (update compar) []) := by
  have hrun : ∀ t m, Represents compar t m →
      Represents compar (calls.foldl (Tsearch.exec compar) t) (calls.foldl (update compar) m) := by
    induction calls with
    | nil => exact fun _ _ h => h
    | cons call calls ih => exact fun t m h => ih _ _ (h.exec hc call)
  exact hrun _ _ (.of_perm hc List.Pairwise.nil (List.Perm.refl _))

theorem represents_of_numbers : Represents (fun a b : Int => a - b)
      (([.tsearch 2 (some 16), .tsearch 1 (some 32), .tdelete 2] : List (Call Int)).foldl
        (exec fun a b => a - b) .null)
      (([.tsearch 2 (some 16), .tsearch 1 (some 32), .tdelete 2] : List (Call Int)).foldl
        (update fun a b => a - b) []) :=
  represents_of_calls ⟨fun a b => by omega, fun a b c _ _ => by omega⟩ _

end Tsearch
end Svr4
