import Svr4.Procs.Pids

/-!
# The tables of processes, groups and sessions

A process that is in the table refers to its pid structure; so does a group
that has members, and a session that has processes.  In the middle of an
operation a process may be in no group, or in no session: `A` are the
processes in the table, and `S` those whose session counts them.
-/

namespace Svr4
namespace Procs

open List

namespace Tables

/-- `p_sessp->s_sidp` -/
def sid (v : Tables) (p : Nat) : Option Nat :=
  (v.proc p).pSessp.map fun s => (v.sess s).sSidp

/-- The roles in which a pid structure is in use: process, group, session. -/
def refs (v : Tables) (A S : List Nat) (g : Nat) : Nat :=
  (if ∃ p ∈ A, (v.proc p).pPidp = g then 1 else 0) +
    (if ∃ p ∈ A, (v.proc p).pPgidp = some g then 1 else 0) +
    (if ∃ p ∈ S, v.sid p = some g then 1 else 0)

/-- The entry behind a free entry of the directory. -/
def nextEntry (v : Tables) (s : Nat) : Option Nat :=
  match v.procdir s with
  | .proc _ => none
  | .next n => n

end Tables

/-- The lists `G` hold the processes of the groups. -/
structure Grouped (v : Tables) (A : List Nat) (r : Nat → Nat) (G : Nat → List Nat) :
    Prop where
  chain : ∀ g, 0 < r g → Chain v.pPglink (v.pid g).pidPglink (G g) none
  mem : ∀ g p, p ∈ G g ↔ p ∈ A ∧ (v.proc p).pPgidp = some g

/-- The processes in the table, their directory entries, and the free entries. -/
structure Slotted (c : Conf) (v : Tables) (A : List Nat) (r : Nat → Nat)
    (F : List Nat) : Prop where
  inj : ∀ p ∈ A, ∀ q ∈ A, (v.proc p).pPidp = (v.proc q).pPidp → p = q
  active : ∀ g, 0 < r g → ((v.pid g).pidPrinactive = false ↔ ∃ p ∈ A, (v.proc p).pPidp = g)
  slot : ∀ p ∈ A, v.procdir (v.pid (v.proc p).pPidp).pidPrslot = .proc p
  free : Chain v.nextEntry v.procentfree F none
  next : ∀ s ∈ F, ∃ n, v.procdir s = .next n
  nodup : A.Nodup
  practive : v.practive = A
  nproc : v.nproc = A.length
  room : v.nproc + F.length = c.vProc

/-- The sessions count their processes; a process is in the session it leads. -/
structure Sessions (v : Tables) (A S : List Nat) : Prop where
  nodup : S.Nodup
  sub : ∀ p ∈ S, p ∈ A
  has : ∀ p ∈ S, ∃ s, (v.proc p).pSessp = some s
  ref : ∀ p ∈ S, ∀ s, (v.proc p).pSessp = some s →
    (v.sess s).sRef = S.countP fun q => decide ((v.proc q).pSessp = some s)
  one : ∀ p ∈ S, ∀ q ∈ S, v.sid p = v.sid q → (v.proc p).pSessp = (v.proc q).pSessp
  leader : ∀ q ∈ S, ∀ p ∈ S, v.sid q = some (v.proc p).pPidp → (v.proc p).pSessp = (v.proc q).pSessp

structure Sound (c : Conf) (v : Tables) (A S : List Nat) : Prop where
  kept : ∃ B, Kept v B (v.refs A S)
  groups : ∃ G, Grouped v A (v.refs A S) G
  slots : ∃ F, Slotted c v A (v.refs A S) F
  sessions : Sessions v A S

section Parts

variable {c : Conf} {v v' : Tables} {A S : List Nat} {r r' : Nat → Nat}
  {G : Nat → List Nat} {F : List Nat} {p q g s : Nat}

/-!
## References
-/

theorem refs_proc (hp : p ∈ A) : 0 < v.refs A S (v.proc p).pPidp := by
  have hex : ∃ q ∈ A, (v.proc q).pPidp = (v.proc p).pPidp := ⟨p, hp, rfl⟩
  unfold Tables.refs
  rw [if_pos hex]
  omega

theorem refs_group (hp : p ∈ A) (hg : (v.proc p).pPgidp = some g) : 0 < v.refs A S g := by
  have hex : ∃ q ∈ A, (v.proc q).pPgidp = some g := ⟨p, hp, hg⟩
  unfold Tables.refs
  rw [if_pos hex]
  omega

theorem refs_sid (hp : p ∈ S) (hg : v.sid p = some g) : 0 < v.refs A S g := by
  have hex : ∃ q ∈ S, v.sid q = some g := ⟨p, hp, hg⟩
  unfold Tables.refs
  rw [if_pos hex]
  omega

theorem refs_pos : 0 < v.refs A S g ↔ (∃ p ∈ A, (v.proc p).pPidp = g) ∨
    (∃ p ∈ A, (v.proc p).pPgidp = some g) ∨ ∃ p ∈ S, v.sid p = some g := by
  constructor
  · intro hpos
    by_contra hnone
    rw [not_or, not_or] at hnone
    unfold Tables.refs at hpos
    rw [if_neg hnone.1, if_neg hnone.2.1, if_neg hnone.2.2] at hpos
    omega
  · rintro (⟨p, hp, rfl⟩ | ⟨p, hp, hg⟩ | ⟨p, hp, hg⟩)
    · exact refs_proc hp
    · exact refs_group hp hg
    · exact refs_sid hp hg

theorem refs_congr {A' S' : List Nat}
    (hproc : (∃ p ∈ A', (v'.proc p).pPidp = g) ↔ ∃ p ∈ A, (v.proc p).pPidp = g)
    (hgroup : (∃ p ∈ A', (v'.proc p).pPgidp = some g) ↔ ∃ p ∈ A, (v.proc p).pPgidp = some g)
    (hsid : (∃ p ∈ S', v'.sid p = some g) ↔ ∃ p ∈ S, v.sid p = some g) :
    v'.refs A' S' g = v.refs A S g := by
  unfold Tables.refs
  rw [if_congr hproc rfl rfl, if_congr hgroup rfl rfl, if_congr hsid rfl rfl]

theorem Kept.length_le {B : Nat → List Nat} (h : Kept v B (v.refs A S))
    (hsub : ∀ p ∈ S, p ∈ A) (hnodup : S.Nodup) (b : Nat) : (B b).length ≤ 3 * A.length := by
  have hin : B b ⊆ A.map (fun p => (v.proc p).pPidp) ++
      (A.filterMap (fun p => (v.proc p).pPgidp) ++ S.filterMap v.sid) := by
    intro g hg
    simp only [mem_append, mem_map, mem_filterMap]
    exact refs_pos.mp ((h.used g).mp ⟨b, hg⟩)
  have hle := ((h.chain b).nodup.subperm hin).length_le
  have hS := (hnodup.subperm hsub).length_le
  have hgroups := length_filterMap_le (fun p => (v.proc p).pPgidp) A
  have hsids := length_filterMap_le v.sid S
  simp only [length_append, length_map] at hle
  omega

/-!
## Frames
-/

theorem Grouped.congr (h : Grouped v A r G) (hr : ∀ g, 0 < r' g → 0 < r g)
    (hlink : ∀ p ∈ A, v'.pPglink p = v.pPglink p)
    (hhead : ∀ g, 0 < r' g → (v'.pid g).pidPglink = (v.pid g).pidPglink)
    (hgroup : ∀ p ∈ A, (v'.proc p).pPgidp = (v.proc p).pPgidp) : Grouped v' A r' G where
  chain g hg := by
    rw [hhead g hg]
    exact (h.chain g (hr g hg)).congr fun p hp => hlink p ((h.mem g p).mp hp).1
  mem g p := by
    rw [h.mem]
    refine and_congr_right fun hp => ?_
    rw [hgroup p hp]

theorem Slotted.congr (h : Slotted c v A r F) (hr : ∀ g, 0 < r' g → 0 < r g)
    (hpid : ∀ p ∈ A, (v'.proc p).pPidp = (v.proc p).pPidp)
    (hinactive : ∀ g, (v'.pid g).pidPrinactive = (v.pid g).pidPrinactive)
    (hslot : ∀ g, (v'.pid g).pidPrslot = (v.pid g).pidPrslot)
    (hdir : v'.procdir = v.procdir) (hfree : v'.procentfree = v.procentfree)
    (hpractive : v'.practive = v.practive) (hnproc : v'.nproc = v.nproc) : Slotted c v' A r' F where
  inj p hp q hq heq := by
    rw [hpid p hp, hpid q hq] at heq
    exact h.inj p hp q hq heq
  active g hg := by
    rw [hinactive, h.active g (hr g hg)]
    refine exists_congr fun p => and_congr_right fun hp => ?_
    rw [hpid p hp]
  slot p hp := by
    rw [hpid p hp, hslot, hdir]
    exact h.slot p hp
  free := by
    have hnext : v'.nextEntry = v.nextEntry := by
      unfold Tables.nextEntry
      rw [hdir]
    rw [hnext, hfree]
    exact h.free
  next s hs := by
    rw [hdir]
    exact h.next s hs
  nodup := h.nodup
  practive := hpractive.trans h.practive
  nproc := hnproc.trans h.nproc
  room := by
    rw [hnproc]
    exact h.room

theorem Sessions.congr (h : Sessions v A S)
    (hsess : ∀ p ∈ S, (v'.proc p).pSessp = (v.proc p).pSessp)
    (hpid : ∀ p ∈ A, (v'.proc p).pPidp = (v.proc p).pPidp)
    (hs : ∀ p ∈ S, ∀ s, (v.proc p).pSessp = some s → v'.sess s = v.sess s) : Sessions v' A S := by
  have hsid : ∀ p ∈ S, v'.sid p = v.sid p := by
    intro p hp
    obtain ⟨s, hps⟩ := h.has p hp
    unfold Tables.sid
    rw [hsess p hp, hps, Option.map_some, Option.map_some, hs p hp s hps]
  refine ⟨h.nodup, h.sub, fun p hp => ?_, fun p hp s hps => ?_, fun p hp q hq heq => ?_,
    fun q hq p hp heq => ?_⟩
  · rw [hsess p hp]
    exact h.has p hp
  · rw [hsess p hp] at hps
    rw [hs p hp s hps, h.ref p hp s hps]
    refine countP_congr fun q hq => ?_
    rw [hsess q hq]
  · rw [hsid p hp, hsid q hq] at heq
    rw [hsess p hp, hsess q hq]
    exact h.one p hp q hq heq
  · rw [hsid q hq, hpid p (h.sub p hp)] at heq
    rw [hsess p hp, hsess q hq]
    exact h.leader q hq p hp heq

end Parts

end Procs
end Svr4
