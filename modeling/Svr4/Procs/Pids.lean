import Mathlib.Data.List.Perm.Subperm
import Svr4.Procs.Model

/-!
# Pid structures

The hash table holds the pid structures that something refers to, and their
reference counts are the numbers of references.
-/

namespace Svr4
namespace Procs

open Function List Tables

theorem field_update {α β : Type} {m : Nat → α} (f : α → β) {k : Nat} {x : α}
    (hx : f x = f (m k)) (i : Nat) : f (update m k x i) = f (m i) := by
  by_cases hi : i = k
  · rw [hi, update_self, hx]
  · rw [update_of_ne hi]

/-- The pid structures on the hash chains `B` have the references `r`. -/
structure Kept (v : Tables) (B : Nat → List Nat) (r : Nat → Nat) : Prop where
  chain : ∀ b, Chain v.pidLink (v.pidhash b) (B b) none
  place : ∀ b g, g ∈ B b → (v.pid g).pidId % HASHSZ = b
  one : ∀ b g g', g ∈ B b → g' ∈ B b → (v.pid g).pidId = (v.pid g').pidId → g = g'
  used : ∀ g, (∃ b, g ∈ B b) ↔ 0 < r g
  ref : ∀ g, 0 < r g → (v.pid g).pidRef = r g
  room : ∀ b, (B b).length ≤ 3 * v.nproc

section Kept

variable {v v' : Tables} {B : Nat → List Nat} {r r' : Nat → Nat} {g : Nat}

theorem Kept.mem (h : Kept v B r) (hg : 0 < r g) : g ∈ B ((v.pid g).pidId % HASHSZ) := by
  obtain ⟨b, hb⟩ := (h.used g).mpr hg
  rwa [h.place b g hb]

theorem Kept.recount (h : Kept v B r) (hid : ∀ g, (v'.pid g).pidId = (v.pid g).pidId)
    (hlink : v'.pidLink = v.pidLink) (hhash : v'.pidhash = v.pidhash)
    (hnproc : v'.nproc = v.nproc) (hpos : ∀ g, 0 < r' g ↔ 0 < r g)
    (href : ∀ g, 0 < r' g → (v'.pid g).pidRef = r' g) : Kept v' B r' where
  chain b := by
    rw [hlink, hhash]
    exact h.chain b
  place b g hg := by
    rw [hid]
    exact h.place b g hg
  one b g g' hg hg' heq := by
    rw [hid, hid] at heq
    exact h.one b g g' hg hg' heq
  used g := (h.used g).trans (hpos g).symm
  ref := href
  room b := by
    rw [hnproc]
    exact h.room b

theorem Kept.congr (h : Kept v B r) (hr : ∀ g, r' g = r g)
    (hid : ∀ g, (v'.pid g).pidId = (v.pid g).pidId)
    (href : ∀ g, (v'.pid g).pidRef = (v.pid g).pidRef)
    (hlink : v'.pidLink = v.pidLink) (hhash : v'.pidhash = v.pidhash)
    (hnproc : v'.nproc = v.nproc) : Kept v' B r' := by
  refine h.recount hid hlink hhash hnproc (fun g => by rw [hr]) fun g hg => ?_
  rw [hr] at hg ⊢
  rw [href]
  exact h.ref g hg

theorem Kept.seek (h : Kept v B r) (b : Nat) (p : Nat → Bool) :
    v.pidSeek b p = .ok ((B b).find? p) := by
  unfold pidSeek
  rw [Chain.seek_eq (h.chain b) p (h.room b)]
  rfl

theorem Kept.lookup (h : Kept v B r) (pid : Nat) :
    ∃ x, v.pidLookup pid = .ok x ∧ ∀ g, x = some g ↔ 0 < r g ∧ (v.pid g).pidId = pid := by
  refine ⟨_, h.seek _ _, fun g => ?_⟩
  constructor
  · intro hfind
    have hmem := mem_of_find?_eq_some hfind
    have hid := find?_some hfind
    exact ⟨(h.used g).mp ⟨_, hmem⟩, of_decide_eq_true hid⟩
  · rintro ⟨hg, rfl⟩
    have hmem := h.mem hg
    cases hfind : (B ((v.pid g).pidId % HASHSZ)).find? fun x =>
        decide ((v.pid x).pidId = (v.pid g).pidId) with
    | none =>
      have hfail := find?_eq_none.mp hfind g hmem
      simp at hfail
    | some g' =>
      have hmem' := mem_of_find?_eq_some hfind
      have hid := find?_some hfind
      rw [h.one _ g' g hmem' hmem (of_decide_eq_true hid)]

/-!
## References
-/

theorem Kept.hold (h : Kept v B r) (hg : 0 < r g) :
    Kept (v.pidHold g) B (update r g (r g + 1)) := by
  refine h.recount (field_update Pid.pidId rfl) rfl rfl rfl (fun k => ?_) fun k hk => ?_
  · by_cases hkg : k = g
    · rw [hkg, update_self]
      omega
    · rw [update_of_ne hkg]
  · simp only [pidHold, setPid]
    by_cases hkg : k = g
    · rw [hkg, update_self, update_self]
      exact congrArg (· + 1) (h.ref g hg)
    · rw [update_of_ne hkg] at hk ⊢
      rw [update_of_ne hkg]
      exact h.ref k hk

def SamePids (v v' : Tables) : Prop :=
  ∀ g, ∃ n, v'.pid g = { v.pid g with pidRef := n }

def PidsOnly (v v' : Tables) : Prop :=
  SamePids v v' ∧ ∃ pid link hash, v' = { v with pid := pid, pidLink := link, pidhash := hash }

theorem Kept.unhash (h : Kept v B r) (hg : 0 < r g) :
    ∃ v' B', v.pidUnhash g = .ok v' ∧ PidsOnly v v' ∧ Kept v' B' (update r g 0) := by
  have hmem := h.mem hg
  have hfind : (B ((v.pid g).pidId % HASHSZ)).find? (fun x => decide (x = g)) = some g := by
    rw [find?_eq_some_iff_append]
    obtain ⟨front, back, hsplit⟩ := append_of_mem hmem
    refine ⟨by simp, front, back, hsplit, fun a ha => ?_⟩
    have hnodup := (h.chain ((v.pid g).pidId % HASHSZ)).nodup
    rw [hsplit, nodup_append] at hnodup
    simpa using hnodup.2.2 a ha g (by simp)
  obtain ⟨head, links, hrun, hchain, hframe⟩ :=
    Chain.unlink_spec (h.chain _) hmem (h.room _)
  have hapart : ∀ b, b ≠ (v.pid g).pidId % HASHSZ → ∀ k ∈ B b,
      k ∉ B ((v.pid g).pidId % HASHSZ) := by
    intro b hb k hk hk'
    rw [h.place b k hk |>.symm] at hb
    exact hb (h.place _ k hk')
  refine ⟨{ v with
      pidLink := links
      pidhash := update v.pidhash ((v.pid g).pidId % HASHSZ) head },
    update B ((v.pid g).pidId % HASHSZ) ((B ((v.pid g).pidId % HASHSZ)).erase g), ?_,
    ⟨fun k => ⟨(v.pid k).pidRef, rfl⟩, ⟨_, _, _, rfl⟩⟩, ?_⟩
  · simp only [pidUnhash, h.seek, hfind, bind, Except.bind, hrun]
    rfl
  · refine ⟨fun b => ?_, fun b k hk => ?_, fun b k k' hk hk' heq => ?_, fun k => ?_,
      fun k hk => ?_, fun b => ?_⟩
    · dsimp only
      by_cases hb : b = (v.pid g).pidId % HASHSZ
      · rw [hb, update_self, update_self]
        exact hchain
      · rw [update_of_ne hb, update_of_ne hb]
        exact (h.chain b).congr fun k hk => hframe k (hapart b hb k hk)
    · by_cases hb : b = (v.pid g).pidId % HASHSZ
      · rw [hb, update_self] at hk
        rw [hb]
        exact h.place _ k (mem_of_mem_erase hk)
      · rw [update_of_ne hb] at hk
        exact h.place b k hk
    · by_cases hb : b = (v.pid g).pidId % HASHSZ
      · rw [hb, update_self] at hk hk'
        exact h.one _ k k' (mem_of_mem_erase hk) (mem_of_mem_erase hk') heq
      · rw [update_of_ne hb] at hk hk'
        exact h.one b k k' hk hk' heq
    · have hnodup := (h.chain ((v.pid g).pidId % HASHSZ)).nodup
      by_cases hk : k = g
      · rw [hk, update_self]
        refine iff_of_false ?_ (by omega)
        rintro ⟨b, hb⟩
        by_cases hbg : b = (v.pid g).pidId % HASHSZ
        · rw [hbg, update_self, hnodup.mem_erase_iff] at hb
          exact hb.1 rfl
        · rw [update_of_ne hbg] at hb
          exact hapart b hbg g hb hmem
      · rw [update_of_ne hk, ← h.used k]
        constructor
        · rintro ⟨b, hb⟩
          refine ⟨b, ?_⟩
          by_cases hbg : b = (v.pid g).pidId % HASHSZ
          · rw [hbg, update_self] at hb
            rw [hbg]
            exact mem_of_mem_erase hb
          · rwa [update_of_ne hbg] at hb
        · rintro ⟨b, hb⟩
          refine ⟨b, ?_⟩
          by_cases hbg : b = (v.pid g).pidId % HASHSZ
          · rw [hbg] at hb
            rw [hbg, update_self, hnodup.mem_erase_iff]
            exact ⟨hk, hb⟩
          · rwa [update_of_ne hbg]
    · by_cases hkg : k = g
      · rw [hkg, update_self] at hk
        omega
      · rw [update_of_ne hkg] at hk ⊢
        exact h.ref k hk
    · by_cases hb : b = (v.pid g).pidId % HASHSZ
      · rw [hb, update_self]
        exact Nat.le_trans (length_erase_le ..) (h.room _)
      · rw [update_of_ne hb]
        exact h.room b

theorem Kept.rele (h : Kept v B r) (hg : 0 < r g) :
    ∃ v' B', v.pidRele g = .ok v' ∧ PidsOnly v v' ∧ Kept v' B' (update r g (r g - 1)) := by
  have href := h.ref g hg
  unfold pidRele
  by_cases hlast : 1 < (v.pid g).pidRef
  · rw [if_pos hlast]
    refine ⟨_, B, rfl, ⟨fun k => ?_, ⟨_, _, _, rfl⟩⟩, ?_⟩
    · by_cases hkg : k = g
      · refine ⟨(v.pid g).pidRef - 1, ?_⟩
        simp only [setPid, hkg, update_self]
      · refine ⟨(v.pid k).pidRef, ?_⟩
        simp only [setPid, update_of_ne hkg]
    · refine h.recount (field_update Pid.pidId rfl) rfl rfl rfl (fun k => ?_) fun k hk => ?_
      · by_cases hkg : k = g
        · rw [hkg, update_self]
          omega
        · rw [update_of_ne hkg]
      · simp only [setPid]
        by_cases hkg : k = g
        · rw [hkg, update_self, update_self]
          exact congrArg (· - 1) href
        · rw [update_of_ne hkg] at hk ⊢
          rw [update_of_ne hkg]
          exact h.ref k hk
  · rw [if_neg hlast]
    have hzero : r g - 1 = 0 := by omega
    rw [hzero]
    exact h.unhash hg

/-!
## New structures
-/

theorem Kept.seekPid (h : Kept v B r) {turns mpid pid : Nat}
    (hrun : v.seekPid turns mpid = .ok pid) (g : Nat) (hg : 0 < r g) : (v.pid g).pidId ≠ pid := by
  induction turns generalizing mpid with
  | zero => cases hrun
  | succ turns ih =>
    obtain ⟨x, hx, hfound⟩ := h.lookup (v.nextPid mpid)
    simp only [Tables.seekPid, hx, bind, Except.bind] at hrun
    cases x with
    | none =>
      obtain rfl : v.nextPid mpid = pid := Except.ok.inj hrun
      intro hid
      exact absurd ((hfound g).mpr ⟨hg, hid⟩) nofun
    | some k => exact ih hrun

theorem Kept.enter (h : Kept v B r) {mpid pep : Nat} {next : Option Nat} {prp : Nat}
    (hg : r g = 0) (hfresh : ∀ k, 0 < r k → (v.pid k).pidId ≠ mpid) :
    ∃ B', Kept (v.enter mpid pep next prp g) B' (update r g 1) := by
  have hout : ∀ b, g ∉ B b := by
    intro b hmem
    have := (h.used g).mp ⟨b, hmem⟩
    omega
  have hother : ∀ b k, k ∈ B b → (v.enter mpid pep next prp g).pid k = v.pid k := by
    intro b k hk
    apply update_of_ne
    rintro rfl
    exact hout b hk
  have hself : (v.enter mpid pep next prp g).pid g = ⟨false, false, 1, pep, mpid, none⟩ :=
    update_self _ _ _
  refine ⟨update B (mpid % HASHSZ) (g :: B (mpid % HASHSZ)), fun b => ?_,
    fun b k hk => ?_, fun b k k' hk hk' heq => ?_, fun k => ?_, fun k hk => ?_,
    fun b => ?_⟩
  · simp only [Tables.enter]
    by_cases hb : b = mpid % HASHSZ
    · rw [hb, update_self, update_self]
      exact (h.chain _).push (hout _)
    · rw [update_of_ne hb, update_of_ne hb]
      exact (h.chain b).update_of_notMem (hout b)
  · by_cases hb : b = mpid % HASHSZ
    · rw [hb, update_self] at hk
      rw [hb]
      rcases mem_cons.mp hk with rfl | hk
      · rw [hself]
      · rw [hother _ k hk]
        exact h.place _ k hk
    · rw [update_of_ne hb] at hk
      rw [hother b k hk]
      exact h.place b k hk
  · by_cases hb : b = mpid % HASHSZ
    · rw [hb, update_self] at hk hk'
      rcases mem_cons.mp hk with rfl | hkb
      · rcases mem_cons.mp hk' with rfl | hkb'
        · rfl
        · rw [hself, hother _ k' hkb'] at heq
          exact absurd heq.symm (hfresh k' ((h.used k').mp ⟨_, hkb'⟩))
      · rcases mem_cons.mp hk' with rfl | hkb'
        · rw [hself, hother _ k hkb] at heq
          exact absurd heq (hfresh k ((h.used k).mp ⟨_, hkb⟩))
        · rw [hother _ k hkb, hother _ k' hkb'] at heq
          exact h.one _ k k' hkb hkb' heq
    · rw [update_of_ne hb] at hk hk'
      rw [hother b k hk, hother b k' hk'] at heq
      exact h.one b k k' hk hk' heq
  · by_cases hkg : k = g
    · rw [hkg, update_self]
      refine iff_of_true ⟨mpid % HASHSZ, ?_⟩ (by omega)
      rw [update_self]
      exact mem_cons_self ..
    · rw [update_of_ne hkg, ← h.used k]
      refine exists_congr fun b => ?_
      by_cases hb : b = mpid % HASHSZ
      · rw [hb, update_self, mem_cons]
        exact or_iff_right hkg
      · rw [update_of_ne hb]
  · by_cases hkg : k = g
    · rw [hkg, hself, update_self]
    · rw [update_of_ne hkg] at hk ⊢
      obtain ⟨b, hb⟩ := (h.used k).mpr hk
      rw [hother b k hb]
      exact h.ref k hk
  · simp only [Tables.enter]
    by_cases hb : b = mpid % HASHSZ
    · have hroom := h.room (mpid % HASHSZ)
      rw [hb, update_self, length_cons]
      omega
    · have hroom := h.room b
      rw [update_of_ne hb]
      omega

end Kept

end Procs
end Svr4
