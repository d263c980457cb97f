import Svr4.Tcp.Sending

/-!
# The segment size

What keeps `t_maxseg` positive: option areas whose options lie inside and whose last
size is not zero, and interfaces that carry more than the headers.  Under these no option
is read outside its area, the congestion window is never divided by zero, and the loop
of `tcp_output` ends.
-/

namespace Svr4
namespace Tcp

open ByteOrder List Option BitVec

variable {i k n : Nat} {rest : List UInt8} {env : Nat → SendEnv} {t s : Sender}
  {idle sendalot : Bool}

namespace Sender

variable {tp : Sender} {route again : Route}

/-!
## The size of an interface
-/

def size (route : Route) : Int :=
  route.maxtu.elim tcpMss fun maxtu =>
    if route.isLocal then fitted maxtu
    else if ((BitVec.ofInt 32 (fitted maxtu)).toNat : Int) < tcpMss then fitted maxtu else tcpMss

/-- Limiting a segment size by the routes, asked for twice, does not make it zero: the
first is no limit, or the second has room behind the headers. -/
def Sizable (route again : Route) : Prop :=
  65535 < size route ∨ size again % 65536 ≠ 0

theorem mss_snd : (tp.mss route).2 = size route := by
  unfold mss size
  cases route.maxtu with
  | none => rfl
  | some maxtu =>
    dsimp only [Option.elim]
    rw [apply_ite Prod.snd]

theorem mss_fst (tp : Sender) (route : Route) : (tp.mss route).1 = tp ∨
    ∃ cwnd : BitVec 32, cwnd.toNat ≤ 512 ∧ (tp.mss route).1 = { tp with sndCwnd := cwnd } := by
  unfold mss
  cases route.maxtu with
  | none => exact .inl rfl
  | some maxtu =>
    split
    · exact .inl rfl
    · refine .inr ⟨_, ?_, rfl⟩
      split
      · rename_i hlt
        exact Nat.le_of_lt (Int.ofNat_lt.mp hlt)
      · decide

theorem mss_tMaxseg : (tp.mss route).1.tMaxseg = tp.tMaxseg := by
  rcases mss_fst tp route with h | ⟨cwnd, _, h⟩ <;> rw [h]

theorem limitMaxseg_pos (hsize : Sizable route again) (h : 0 < tp.tMaxseg.toNat) :
    0 < (tp.limitMaxseg route again).tMaxseg.toNat := by
  unfold limitMaxseg
  dsimp only
  rw [mss_snd, mss_snd]
  by_cases hlt : (tp.tMaxseg.toNat : Int) < size route
  · rw [if_pos hlt, mss_tMaxseg]
    exact h
  · rw [if_neg hlt]
    rw [toNat_ofInt]
    rcases hsize with hbig | hrest
    · omega
    · omega

/-!
## Option areas
-/

/-- The bytes of an option area, whole options up to where a walk over them stops, and the
segment sizes that they announce.  An option that is longer than what is left ends the
walk; of a maximum segment size all four bytes are there. -/
inductive Options (syn : Bool) : List UInt8 → List Nat → Prop where
  | finished : Options syn [] []
  | eol (rest : List UInt8) : Options syn (tcpoptEol :: rest) []
  | nop {rest : List UInt8} {sizes : List Nat} (h : Options syn rest sizes) :
      Options syn (tcpoptNop :: rest) sizes
  | stop {kind : UInt8} (rest : List UInt8) (heol : kind ≠ tcpoptEol)
      (hnop : kind ≠ tcpoptNop) : Options syn (kind :: 0 :: rest) []
  | maxseg {hi lo : UInt8} {rest : List UInt8} {sizes : List Nat} (hsyn : syn = true)
      (h : Options syn rest sizes) :
      Options syn (tcpoptMaxseg :: 4 :: hi :: lo :: rest) ((hi.toNat * 256 + lo.toNat) :: sizes)
  | other {kind len : UInt8} {rest : List UInt8} {sizes : List Nat}
      (heol : kind ≠ tcpoptEol) (hnop : kind ≠ tcpoptNop) (hlen : len.toNat ≠ 0)
      (hother : ¬ (kind = tcpoptMaxseg ∧ len.toNat = 4 ∧ syn = true))
      (h : Options syn ((kind :: len :: rest).drop len.toNat) sizes) :
      Options syn (kind :: len :: rest) sizes

section Walks

variable {area : List UInt8} {beyond : Mem} {syn : Bool} {routes : Nat → Route × Route} {w v : Walk}
  {sizes : List Nat}

/-- The walk has come to the bytes `rest` of the area. -/
structure Walk.Before (area : List UInt8) (w : Walk) (rest : List UInt8) : Prop where
  rest_eq : area.drop w.cp = rest
  cnt_eq : w.cnt = (area.length : Int) - w.cp

def Walk.Inside (area : List UInt8) (w : Walk) : Prop := ∀ i ∈ w.reads, i < area.length

theorem lt_of_drop (h : area.drop i = rest) (hk : k < rest.length) : i + k < area.length := by
  subst h
  rw [length_drop] at hk
  omega

theorem memory_of_drop (h : area.drop i = rest)
    (hk : k < rest.length) : memory area beyond (i + k) = rest[k] := by
  have hlt := lt_of_drop h hk
  subst h
  unfold memory
  rw [List.getElem?_eq_getElem hlt, getElem_drop]
  rfl

theorem Walk.Before.of_eq (h : w.Before area rest) (hcp : v.cp = w.cp)
    (hcnt : v.cnt = w.cnt) : v.Before area rest := by
  constructor
  · rw [hcp, h.rest_eq]
  · rw [hcp, hcnt, h.cnt_eq]

theorem Walk.Before.advance (h : w.Before area rest) (n : Nat) :
    (w.advance n).Before area (rest.drop n) := by
  constructor
  · rw [← h.rest_eq, drop_drop]
    rfl
  · show w.cnt - n = _
    rw [h.cnt_eq]
    push_cast [Walk.advance]
    omega

theorem Walk.Before.cnt_pos (h : w.Before area rest) : 0 < w.cnt ↔ rest ≠ [] := by
  rw [h.cnt_eq, ← h.rest_eq, Ne, drop_eq_nil_iff]
  omega

theorem Walk.Inside.read (h : w.Inside area) (hi : w.cp + i < area.length) :
    (w.read i).Inside area := by
  intro j hj
  rcases mem_append.mp hj with hj | hj
  · exact h j hj
  · rw [mem_singleton.mp hj]
    exact hi

theorem dooptionsBody_of_option {kind len : UInt8} (h : w.Before area (kind :: len :: rest))
    (heol : kind ≠ tcpoptEol) (hnop : kind ≠ tcpoptNop) :
    dooptionsBody (memory area beyond) syn routes w = if len.toNat = 0 then .inr ((w.read 0).read 1)
      else if kind = tcpoptMaxseg ∧ len.toNat = 4 ∧ syn then
        .inl ({ (((w.read 0).read 1).read 2).read 3 with
          tp := { w.tp with
            tMaxseg := BitVec.ofNat 16 (ntohs (load (memory area beyond) .little 2 (w.cp + 2))) }
              |>.limitMaxseg (routes w.cp).1 (routes w.cp).2 }.advance len.toNat)
      else .inl (((w.read 0).read 1).advance len.toNat) := by
  have hpos := h.cnt_pos.mpr (cons_ne_nil _ _)
  have hkind : memory area beyond w.cp = kind :=
    memory_of_drop h.rest_eq (k := 0) (Nat.succ_pos _)
  have hlen : memory area beyond (w.cp + 1) = len :=
    memory_of_drop h.rest_eq (k := 1) (by simp)
  unfold dooptionsBody
  rw [if_pos hpos]
  dsimp only [Walk.read]
  rw [hkind, hlen, if_neg heol, if_neg hnop]

theorem dooptionsBody_of_byte {kind : UInt8} (h : w.Before area (kind :: rest)) :
    (kind = tcpoptEol → dooptionsBody (memory area beyond) syn routes w = .inr (w.read 0)) ∧
    (kind = tcpoptNop →
      dooptionsBody (memory area beyond) syn routes w = .inl ((w.read 0).advance 1)) := by
  have hpos := h.cnt_pos.mpr (cons_ne_nil _ _)
  have hkind : memory area beyond w.cp = kind :=
    memory_of_drop h.rest_eq (k := 0) (Nat.succ_pos _)
  unfold dooptionsBody
  rw [if_pos hpos]
  rw [hkind]
  constructor
  · intro heol
    rw [if_pos heol]
  · intro hnop
    rw [hnop]
    rfl

theorem dooptionsBody_of_nil (h : w.Before area []) :
    dooptionsBody (memory area beyond) syn routes w = .inr w := by
  unfold dooptionsBody
  rw [if_neg]
  rw [h.cnt_pos]
  exact not_not_intro rfl

theorem ntohs_load {hi lo : UInt8} (h : w.Before area (tcpoptMaxseg :: 4 :: hi :: lo :: rest)) :
    ntohs (load (memory area beyond) .little 2 (w.cp + 2)) = hi.toNat * 256 + lo.toNat := by
  have hfirst : memory area beyond (w.cp + 2) = hi :=
    memory_of_drop h.rest_eq (k := 2) (by simp)
  have hsecond : memory area beyond (w.cp + 3) = lo :=
    memory_of_drop h.rest_eq (k := 3) (by simp)
  have hload : load (memory area beyond) .little 2 (w.cp + 2) = hi.toNat + lo.toNat * 256 := by
    unfold load
    simp only [value, Order.place, Nat.add_zero, hfirst, hsecond, Nat.add_assoc, Nat.reduceAdd]
    omega
  have hlt := hi.toNat_lt
  unfold ntohs
  omega

theorem getLastD_pos {a b : Nat} (h : 0 < b → 0 < a) :
    0 < sizes.getLastD b → 0 < sizes.getLastD a := by
  cases sizes with
  | nil => exact h
  | cons size sizes =>
    exact id

theorem inside_bytes {kind len : UInt8} (hin : w.Inside area)
    (h : w.Before area (kind :: len :: rest)) : ((w.read 0).read 1).Inside area := by
  have hzero := lt_of_drop h.rest_eq (k := 0) (Nat.succ_pos _)
  have hone := lt_of_drop h.rest_eq (k := 1) (by simp)
  exact (hin.read hzero).read hone

/-- The walk over an area of options reads only in it, and leaves a segment size that is
not zero if the last size that is announced, or the one it found, is not. -/
theorem dooptions_of_options (hroutes : ∀ i, Sizable (routes i).1 (routes i).2)
    (hoptions : Options syn rest sizes) (hbefore : w.Before area rest) (hin : w.Inside area) :
    ∃ turns v, Loop.run (dooptionsBody (memory area beyond) syn routes) turns w = some v ∧
      v.Inside area ∧ (0 < sizes.getLastD w.tp.tMaxseg.toNat → 0 < v.tp.tMaxseg.toNat) := by
  induction hoptions generalizing w with
  | finished => exact ⟨1, w, Loop.run_leave (dooptionsBody_of_nil hbefore), hin, id⟩
  | eol rest =>
    have hzero := lt_of_drop hbefore.rest_eq (k := 0) (Nat.succ_pos _)
    exact ⟨1, w.read 0, Loop.run_leave ((dooptionsBody_of_byte hbefore).1 rfl), hin.read hzero, id⟩
  | nop _ ih =>
    have hzero := lt_of_drop hbefore.rest_eq (k := 0) (Nat.succ_pos _)
    have hnext := (hbefore.of_eq (v := w.read 0) rfl rfl).advance 1
    rcases ih hnext (hin.read hzero) with ⟨turns, v, hrun, hv, hsize⟩
    refine ⟨turns + 1, v, ?_, hv, hsize⟩
    rw [Loop.run_next ((dooptionsBody_of_byte hbefore).2 rfl)]
    exact hrun
  | stop rest heol hnop =>
    refine ⟨1, (w.read 0).read 1, Loop.run_leave ?_, inside_bytes hin hbefore, id⟩
    rw [dooptionsBody_of_option hbefore heol hnop]
    rfl
  | @maxseg hi lo rest sizes hsyn _ ih =>
    have htwo := lt_of_drop hbefore.rest_eq (k := 2) (by simp)
    have hthree := lt_of_drop hbefore.rest_eq (k := 3) (by simp)
    have hvalue : ntohs (load (memory area beyond) .little 2 (w.cp + 2)) =
        hi.toNat * 256 + lo.toNat := ntohs_load hbefore
    have hsmall : hi.toNat * 256 + lo.toNat < 65536 := by
      have hhi := hi.toNat_lt
      have hlo := lo.toNat_lt
      omega
    let tp := { w.tp with tMaxseg := BitVec.ofNat 16 (hi.toNat * 256 + lo.toNat) }
      |>.limitMaxseg (routes w.cp).1 (routes w.cp).2
    let next := { (((w.read 0).read 1).read 2).read 3 with tp := tp }
    have hbody : dooptionsBody (memory area beyond) syn routes w = .inl (next.advance 4) := by
      rw [dooptionsBody_of_option hbefore (by decide) (by decide), hvalue, hsyn]
      rfl
    have hnext : next.Inside area := ((inside_bytes hin hbefore).read htwo).read hthree
    have hpositive : 0 < hi.toNat * 256 + lo.toNat → 0 < tp.tMaxseg.toNat := by
      intro hpos
      apply limitMaxseg_pos (hroutes w.cp)
      rw [toNat_ofNat, Nat.mod_eq_of_lt hsmall]
      exact hpos
    rcases ih ((hbefore.of_eq (v := next) rfl rfl).advance 4) hnext with ⟨turns, v, hrun, hv, hsize⟩
    refine ⟨turns + 1, v, ?_, hv, ?_⟩
    · rw [Loop.run_next hbody]
      exact hrun
    · rw [getLastD_cons]
      intro hlast
      exact hsize (getLastD_pos hpositive hlast)
  | @other kind len rest sizes heol hnop hlen hother _ ih =>
    have hbytes := inside_bytes hin hbefore
    have hnext := (hbefore.of_eq (v := (w.read 0).read 1) rfl rfl).advance len.toNat
    have hbody : dooptionsBody (memory area beyond) syn routes w =
        .inl (((w.read 0).read 1).advance len.toNat) := by
      rw [dooptionsBody_of_option hbefore heol hnop, if_neg hlen, if_neg hother]
    rcases ih hnext hbytes with ⟨turns, v, hrun, hv, hsize⟩
    refine ⟨turns + 1, v, ?_, hv, hsize⟩
    rw [Loop.run_next hbody]
    exact hrun

end Walks

/-!
## One turn of `tcp_output`
-/

structure Same (s t : Sender) : Prop where
  maxseg : t.tMaxseg = s.tMaxseg
  inpQ : t.inpQ = s.inpQ
  una : t.sndUna = s.sndUna
  wnd : t.sndWnd = s.sndWnd
  qsize : t.tQsize = s.tQsize
  force : t.force = s.force

namespace Same

variable {s t u : Sender}

theorem refl (s : Sender) : Same s s := ⟨rfl, rfl, rfl, rfl, rfl, rfl⟩

theorem trans (hst : Same s t) (htu : Same t u) : Same s u where
  maxseg := htu.maxseg.trans hst.maxseg
  inpQ := htu.inpQ.trans hst.inpQ
  una := htu.una.trans hst.una
  wnd := htu.wnd.trans hst.wnd
  qsize := htu.qsize.trans hst.qsize
  force := htu.force.trans hst.force

end Same

/-- A piece of a turn that leaves `snd_nxt` and the persist timer, and the congestion
window unless it makes it small. -/
structure Quiet (s t : Sender) : Prop extends Same s t where
  nxt : t.sndNxt = s.sndNxt
  persist : t.timerPersist = s.timerPersist
  cwnd : t.sndCwnd = s.sndCwnd ∨ t.sndCwnd.toNat ≤ 512

namespace Quiet

variable {s t u : Sender}

theorem refl (s : Sender) : Quiet s s := ⟨Same.refl s, rfl, rfl, .inl rfl⟩

theorem trans (hst : Quiet s t) (htu : Quiet t u) : Quiet s u where
  toSame := hst.toSame.trans htu.toSame
  nxt := htu.nxt.trans hst.nxt
  persist := htu.persist.trans hst.persist
  cwnd := by
    rcases htu.cwnd with h | h
    · rw [h]
      exact hst.cwnd
    · exact .inr h

end Quiet

theorem mss_quiet (tp : Sender) (route : Route) : Quiet tp (tp.mss route).1 := by
  rcases mss_fst tp route with h | ⟨cwnd, hle, h⟩
  · rw [h]
    exact Quiet.refl tp
  · rw [h]
    exact ⟨⟨rfl, rfl, rfl, rfl, rfl, rfl⟩, rfl, rfl, .inr hle⟩

theorem initopt_quiet (tp : Sender) (flags : Flags) (route again : Route) :
    Quiet tp (tp.initopt flags route again).1 := by
  unfold initopt
  split
  · dsimp only
    split
    · exact mss_quiet tp route
    · exact (mss_quiet tp route).trans (mss_quiet _ again)
  · exact Quiet.refl tp

theorem urgent_quiet (tp : Sender) : Quiet tp tp.urgent := by
  unfold urgent
  split
  · exact Quiet.refl tp
  · exact ⟨⟨rfl, rfl, rfl, rfl, rfl, rfl⟩, rfl, rfl, .inl rfl⟩

theorem advertised_quiet (tp : Sender) (win : Int) : Quiet tp (tp.advertised win) := by
  unfold advertised
  dsimp only
  split <;> exact ⟨⟨rfl, rfl, rfl, rfl, rfl, rfl⟩, rfl, rfl, .inl rfl⟩

theorem forced_spec (tp : Sender) (win : BitVec 32) :
    Same tp (tp.forced win).1 ∧ (tp.forced win).1.sndNxt = tp.sndNxt ∧
      (tp.forced win).1.sndCwnd = tp.sndCwnd ∧
      (tp.forced win).2 = (if tp.force ∧ win = 0 then 1#32 else win) ∧
      ((tp.force = true → tp.timerPersist = 0 ∨ win ≠ 0) → tp.force = true →
        (tp.forced win).1.timerPersist = 0) := by
  unfold forced
  by_cases hforce : tp.force = true
  · rw [if_pos hforce]
    by_cases hwin : win = 0
    · rw [if_pos hwin, if_pos ⟨hforce, hwin⟩]
      refine ⟨Same.refl tp, rfl, rfl, rfl, ?_⟩
      intro h _
      exact (h hforce).resolve_right (not_not_intro hwin)
    · rw [if_neg hwin, if_neg (fun h => hwin h.2)]
      exact ⟨⟨rfl, rfl, rfl, rfl, rfl, rfl⟩, rfl, rfl, rfl, fun _ _ => rfl⟩
  · rw [if_neg hforce, if_neg (fun h => hforce h.1)]
    exact ⟨Same.refl tp, rfl, rfl, rfl, fun _ h => (hforce h).elim⟩

theorem refin_spec (tp : Sender) (flags : Flags) :
    Same tp (tp.refin flags) ∧ (tp.refin flags).sndCwnd = tp.sndCwnd ∧
      (tp.refin flags).timerPersist = tp.timerPersist ∧ ((tp.refin flags).sndNxt = tp.sndNxt ∨
        flags.fin = true ∧ (tp.refin flags).sndNxt = tp.sndNxt - 1) := by
  unfold refin
  split
  · rename_i h
    exact ⟨⟨rfl, rfl, rfl, rfl, rfl, rfl⟩, rfl, rfl, .inr ⟨h.1, rfl⟩⟩
  · exact ⟨Same.refl tp, rfl, rfl, .inl rfl⟩

theorem timed_quiet (tp : Sender) : Quiet tp tp.timed := by
  unfold timed
  split
  · exact ⟨⟨rfl, rfl, rfl, rfl, rfl, rfl⟩, rfl, rfl, .inl rfl⟩
  · exact Quiet.refl tp

theorem timed_sndCwnd (tp : Sender) : tp.timed.sndCwnd = tp.sndCwnd := by
  unfold timed
  split <;> rfl

theorem setRexmt_spec (tp : Sender) :
    Same tp tp.setRexmt ∧ tp.setRexmt.sndCwnd = tp.sndCwnd ∧ tp.setRexmt.sndNxt = tp.sndNxt ∧
      (tp.timerPersist = 0 → tp.setRexmt.timerPersist = 0) := by
  unfold setRexmt
  split
  · split
    · exact ⟨⟨rfl, rfl, rfl, rfl, rfl, rfl⟩, rfl, rfl, fun _ => rfl⟩
    · exact ⟨⟨rfl, rfl, rfl, rfl, rfl, rfl⟩, rfl, rfl, id⟩
  · exact ⟨Same.refl tp, rfl, rfl, id⟩

theorem sent_spec (tp : Sender) (flags : Flags) (len : Int) (h : tp.force = true → tp.timerPersist = 0) :
    Same tp (tp.sent flags len) ∧ (tp.sent flags len).sndCwnd = tp.sndCwnd ∧
      (tp.force = true → (tp.sent flags len).timerPersist = 0) ∧
      (tp.sent flags len).sndNxt = tp.behind flags len := by
  have hadvance : ¬ tp.force = true ∨ tp.timerPersist = 0 := by
    by_cases hforce : tp.force = true
    · exact .inr (h hforce)
    · exact .inl hforce
  unfold sent
  rw [if_pos hadvance]
  generalize hu : { tp with
    sndNxt := tp.behind flags len
    sentfin := tp.sentfin ∨ flags.fin } = u
  have hsame : Same tp u := by
    rw [← hu]
    exact ⟨rfl, rfl, rfl, rfl, rfl, rfl⟩
  have htimed := timed_quiet u
  rcases setRexmt_spec u.timed with ⟨hset, hcwnd, hnxt, hpersist⟩
  constructor
  · exact (hsame.trans htimed.toSame).trans hset
  · constructor
    · rw [hcwnd, timed_sndCwnd, ← hu]
    · constructor
      · intro hforce
        apply hpersist
        rw [htimed.persist, ← hu]
        exact h hforce
      · rw [hnxt, htimed.nxt, ← hu]

theorem behind_spec (tp : Sender) (flags : Flags) (len : Int) :
    ∃ e ≤ 2, (flags.fin = true → 1 ≤ e) ∧
      tp.behind flags len = tp.sndNxt + BitVec.ofInt 32 len + BitVec.ofNat 32 e := by
  unfold behind
  cases flags.fin <;> cases flags.syn
  · exact ⟨0, by decide, Bool.noConfusion, by
      simp only [Bool.false_eq_true, if_false]
      bv_omega⟩
  · exact ⟨1, by decide, Bool.noConfusion, by
      simp only [Bool.false_eq_true, if_true, if_false]
      bv_omega⟩
  · exact ⟨1, by decide, fun _ => by decide, by
      simp only [Bool.false_eq_true, if_true, if_false]
      bv_omega⟩
  · exact ⟨2, by decide, fun _ => by decide, by
      simp only [if_true]
      bv_omega⟩

structure Went (tp t : Sender) (len : Int) : Prop extends Same tp t where
  persist : t.force = true → t.timerPersist = 0
  cwnd : t.sndCwnd = tp.sndCwnd ∨ t.sndCwnd.toNat ≤ 512
  nxt : ∃ e ≤ 2, t.sndNxt = tp.sndNxt + BitVec.ofInt 32 len + BitVec.ofNat 32 e

theorem transmit_spec {env : SendEnv} {flags : Flags} {len win : Int}
    (hpersist : tp.force = true → tp.timerPersist = 0)
    (h : (tp.transmit env flags len win).1 = some t) :
    Went tp t (if len ≠ 0 ∧ ¬ env.dupblks then 0 else len) := by
  unfold transmit at h
  split at h
  · cases h
  · dsimp only at h
    generalize (if len ≠ 0 ∧ ¬ env.dupblks = true then 0 else len) = n at h ⊢
    split at h
    · cases h
    · split at h
      · cases h
      · cases h
        rcases refin_spec tp flags with ⟨hsame, hcwnd, htimer, hback⟩
        have hopt := initopt_quiet (tp.refin flags) flags env.route env.again
        have hurgent := urgent_quiet ((tp.refin flags).initopt flags env.route env.again).1
        have hquiet := hopt.trans hurgent
        generalize ((tp.refin flags).initopt flags env.route env.again).1.urgent = u at hquiet ⊢
        have hstopped : u.force = true → u.timerPersist = 0 := by
          intro hforce
          rw [hquiet.persist, htimer]
          exact hpersist (by rw [← hsame.force, ← hquiet.force, hforce])
        rcases sent_spec u flags n hstopped with ⟨hsent, hsentcwnd, hsentpersist, hnxt⟩
        have hlast := advertised_quiet (u.sent flags n) win
        refine ⟨((hsame.trans hquiet.toSame).trans hsent).trans hlast.toSame, ?_, ?_, ?_⟩
        · intro hforce
          rw [hlast.persist]
          exact hsentpersist (by rw [← hsent.force, ← hlast.force, hforce])
        · rcases hlast.cwnd with hc | hc
          · rw [hc, hsentcwnd, ← hcwnd]
            exact hquiet.cwnd
          · exact .inr hc
        · rcases behind_spec u flags n with ⟨e, hle, hone, hbehind⟩
          rw [hlast.nxt, hnxt, hbehind, hquiet.nxt]
          rcases hback with hkept | ⟨hfin, hkept⟩
          · exact ⟨e, hle, by rw [hkept]⟩
          · have hpos := hone hfin
            refine ⟨e - 1, by omega, ?_⟩
            generalize BitVec.ofInt 32 n = k
            bv_omega

/-- The window that a turn sends into: one byte if a closed one is probed. -/
def window (tp : Sender) : BitVec 32 :=
  if tp.force ∧ umin tp.sndWnd tp.sndCwnd = 0 then 1#32 else umin tp.sndWnd tp.sndCwnd

def room (tp : Sender) : Int := tp.sendable tp.window

/-- `snd_nxt` is not behind `snd_una` when a closed window may be probed. -/
def Probes (tp : Sender) : Prop :=
  tp.force = true → tp.timerPersist = 0 ∨ 0 ≤ (tp.sndNxt - tp.sndUna).toInt

theorem umin_toNat_le (x y : BitVec 32) : (umin x y).toNat ≤ y.toNat := by
  unfold umin
  split
  · rename_i h
    rw [BitVec.ult, decide_eq_true_eq] at h
    omega
  · exact le_refl _

theorem sendable_probe (hoff : 0 ≤ (tp.sndNxt - tp.sndUna).toInt) : tp.sendable 1#32 ≤ 1 := by
  unfold sendable
  split
  · have hle := umin_toNat_le tp.tQsize 1#32
    rw [toInt_eq_toNat_cond] at hoff ⊢
    split at hoff <;> split <;> bv_omega
  · decide

theorem sendable_of_same (h : Same s t) (hnxt : t.sndNxt = s.sndNxt)
    (win : BitVec 32) : t.sendable win = s.sendable win := by
  unfold sendable
  rw [h.inpQ, h.qsize, h.una, hnxt]

theorem outputSegment_next {env : SendEnv} {off : Seq} {len : Int} {s : Nat × Sender}
    (h : tp.outputSegment env idle off n len sendalot = .inl s) : sendalot = true ∧ s.1 = n + 1 ∧
      ∃ win, (tp.transmit env (tp.segmentFlags len) len win).1 = some s.2 := by
  unfold outputSegment at h
  dsimp only at h
  generalize (if (tp.hiwat - tp.tIqsize).toInt < 0 then 0 else (tp.hiwat - tp.tIqsize).toInt) =
    win at h
  split at h
  · cases ht : (tp.transmit env (tp.segmentFlags len) len win).1 with
    | none =>
      rw [ht] at h
      cases h
    | some t =>
      rw [ht, elim_some] at h
      split at h
      · rename_i hmany
        cases h
        exact ⟨hmany, rfl, win, ht⟩
      · cases h
  · cases h

theorem outputBody_next {s : Nat × Sender} (hseg : 0 < tp.tMaxseg.toNat) (hprobes : tp.Probes)
    (h : outputBody env idle (n, tp) = .inl s) : (tp.tMaxseg.toNat : Int) < tp.room ∧ s.1 = n + 1 ∧
      Went tp s.2 (if (env n).dupblks then tp.tMaxseg.toNat else 0) := by
  rcases forced_spec tp (umin tp.sndWnd tp.sndCwnd) with ⟨hsame, hnxt, hcwnd, hwin, hstop⟩
  have hroom : (tp.forced (umin tp.sndWnd tp.sndCwnd)).1.sendable
      (tp.forced (umin tp.sndWnd tp.sndCwnd)).2 = tp.room := by
    rw [sendable_of_same hsame hnxt, hwin]
    rfl
  unfold outputBody at h
  dsimp only at h
  rw [hroom] at h
  generalize (tp.forced (umin tp.sndWnd tp.sndCwnd)).1 = u at h hsame hnxt hcwnd hstop
  by_cases hneg : tp.room < 0
  · rw [if_pos hneg, if_pos hneg, if_neg (Int.not_lt.mpr (Int.natCast_nonneg _))] at h
    cases (outputSegment_next h).1
  rw [if_neg hneg, if_neg hneg, hsame.maxseg] at h
  by_cases hmany : (tp.tMaxseg.toNat : Int) < tp.room
  · rw [if_pos hmany] at h
    have hclosed : tp.force = true → tp.timerPersist = 0 ∨ umin tp.sndWnd tp.sndCwnd ≠ 0 := by
      intro hforce
      rcases hprobes hforce with hz | hoff
      · exact .inl hz
      · refine .inr fun hzero => ?_
        have hone := sendable_probe hoff
        unfold room window at hmany
        rw [if_pos ⟨hforce, hzero⟩] at hmany
        omega
    have hstopped : u.force = true → u.timerPersist = 0 := by
      intro hforce
      rw [hsame.force] at hforce
      exact hstop hclosed hforce
    rcases outputSegment_next h with ⟨_, hturn, _, htransmit⟩
    have hwent := transmit_spec hstopped htransmit
    have hlen : (if (tp.tMaxseg.toNat : Int) ≠ 0 ∧ ¬ (env n).dupblks = true then 0
        else (tp.tMaxseg.toNat : Int)) = if (env n).dupblks then (tp.tMaxseg.toNat : Int) else 0 := by
      cases (env n).dupblks with
      | true => simp
      | false => simp
    rw [hlen] at hwent
    refine ⟨hmany, hturn, hsame.trans hwent.toSame, hwent.persist, ?_, ?_⟩
    · rw [← hcwnd]
      exact hwent.cwnd
    · rw [← hnxt]
      exact hwent.nxt
  · rw [if_neg hmany] at h
    cases (outputSegment_next h).1

/-!
## The loop of `tcp_output`
-/

theorem toInt_sub_ofNat {x : BitVec 32} (hx : 0 < x.toInt)
    (hk : (k : Int) ≤ x.toInt + 1) : (x - BitVec.ofNat 32 k).toInt = x.toInt - k := by
  rw [toInt_eq_toNat_cond] at hx hk ⊢
  rw [toInt_eq_toNat_cond, toNat_sub, toNat_ofNat]
  split at hx <;> split <;> omega

theorem toInt_add_ofNat {x : BitVec 32} (hx : x.toInt + k ≤ 1024) :
    (x + BitVec.ofNat 32 k).toInt = x.toInt + k := by
  rw [toInt_eq_toNat_cond] at hx ⊢
  rw [toInt_eq_toNat_cond, toNat_add, toNat_ofNat]
  split at hx <;> split <;> omega

theorem toInt_small {m off : BitVec 32} (hm : m.toNat ≤ 512) (h : 0 < (m - off).toInt) :
    off.toInt = m.toNat - (m - off).toInt := by
  rw [toInt_eq_toNat_cond] at h
  rw [toInt_eq_toNat_cond, toInt_eq_toNat_cond]
  rw [toNat_sub] at h ⊢
  split at h
  · split <;> omega
  · omega

/-- How far a call has still to go. -/
def rank (tp : Sender) : Nat :=
  if tp.sndCwnd.toNat ≤ 512 then (1024 - (tp.sndNxt - tp.sndUna).toInt).toNat
  else 8589934592 + tp.room.toNat

theorem room_eq (tp : Sender) (hpos : 0 < tp.room) : tp.inpQ.isSome = true ∧
      tp.room = (umin tp.tQsize tp.window - (tp.sndNxt - tp.sndUna)).toInt := by
  unfold room sendable at *
  split
  · rename_i h
    exact ⟨h, rfl⟩
  · rename_i h
    rw [if_neg h] at hpos
    omega

section Turns

variable {t : Sender} {len : Nat}

theorem Went.off (h : Went tp t len) :
    ∃ e ≤ 2, t.sndNxt - t.sndUna = (tp.sndNxt - tp.sndUna) + BitVec.ofNat 32 (len + e) := by
  rcases h.nxt with ⟨e, hle, hnxt⟩
  refine ⟨e, hle, ?_⟩
  rw [hnxt, h.una, ofInt_natCast, ofNat_add]
  bv_omega

theorem Went.room_le (h : Went tp t len) (hcwnd : t.sndCwnd = tp.sndCwnd)
    (hlen : (len : Int) < tp.room) (hpos : 1 < tp.room) :
    t.room.toNat + len ≤ tp.room.toNat ∨ t.room.toNat = 0 := by
  rcases h.off with ⟨e, hle, hoff⟩
  rcases room_eq tp (by omega) with ⟨hq, hroom⟩
  have hwindow : t.window = tp.window := by
    unfold window
    rw [h.force, h.wnd, hcwnd]
  have hnext : t.room = tp.room - ((len + e : Nat) : Int) := by
    unfold room sendable
    rw [h.inpQ, if_pos hq, h.qsize, hwindow, hoff, if_pos hq]
    have hsub : umin tp.tQsize tp.window - ((tp.sndNxt - tp.sndUna) + BitVec.ofNat 32 (len + e)) =
        umin tp.tQsize tp.window - (tp.sndNxt - tp.sndUna) - BitVec.ofNat 32 (len + e) := by
      bv_omega
    rw [hsub]
    apply toInt_sub_ofNat
    · omega
    · omega
  omega

theorem Went.rank_le (h : Went tp t len) (hlen : (len : Int) < tp.room) (hpos : 1 < tp.room) :
    t.rank + len ≤ tp.rank ∨ t.rank < tp.rank := by
  rcases room_eq tp (by omega) with ⟨_, hroom⟩
  by_cases hsmall : tp.sndCwnd.toNat ≤ 512
  · have hafter : t.sndCwnd.toNat ≤ 512 := by
      rcases h.cwnd with hc | hc
      · rw [hc]
        exact hsmall
      · exact hc
    have hm : (umin tp.tQsize tp.window).toNat ≤ 512 := by
      have hle := umin_toNat_le tp.tQsize tp.window
      have hwin : tp.window.toNat ≤ 512 := by
        unfold window
        split
        · decide
        · exact Nat.le_trans (umin_toNat_le _ _) hsmall
      omega
    rcases h.off with ⟨e, hle, hoff⟩
    have hahead := toInt_small hm (by rw [← hroom]; omega)
    have hnext := toInt_add_ofNat (x := tp.sndNxt - tp.sndUna) (k := len + e) (by omega)
    unfold rank
    rw [if_pos hsmall, if_pos hafter, hoff, hnext]
    omega
  · by_cases hafter : t.sndCwnd.toNat ≤ 512
    · right
      unfold rank
      rw [if_pos hafter, if_neg hsmall]
      have hlow := le_toInt (x := t.sndNxt - t.sndUna)
      omega
    · have hcwnd : t.sndCwnd = tp.sndCwnd := by
        rcases h.cwnd with hc | hc
        · exact hc
        · exact absurd hc hafter
      have hle := h.room_le hcwnd hlen hpos
      unfold rank
      rw [if_neg hafter, if_neg hsmall]
      omega

end Turns

theorem sent_tMaxseg (tp : Sender) (flags : Flags) (len : Int) :
    (tp.sent flags len).tMaxseg = tp.tMaxseg := by
  unfold sent
  split
  · rw [(setRexmt_spec _).1.maxseg, (timed_quiet _).maxseg]
  · split <;> rfl

theorem transmit_tMaxseg (tp : Sender) (env : SendEnv) (flags : Flags) (len win : Int) :
    (tp.transmit env flags len win).2.tMaxseg = tp.tMaxseg ∧
      ∀ t, (tp.transmit env flags len win).1 = some t → t.tMaxseg = tp.tMaxseg := by
  have hopt : ((tp.refin flags).initopt flags env.route env.again).1.tMaxseg = tp.tMaxseg := by
    rw [(initopt_quiet _ _ _ _).maxseg, (refin_spec tp flags).1.maxseg]
  unfold transmit
  split
  · exact ⟨rfl, fun t h => ((some_ne_none t).symm h).elim⟩
  · dsimp only
    split
    · exact ⟨hopt, fun t h => ((some_ne_none t).symm h).elim⟩
    · split
      · exact ⟨by rw [sent_tMaxseg, (urgent_quiet _).maxseg, hopt],
          fun t h => ((some_ne_none t).symm h).elim⟩
      · constructor
        · rw [sent_tMaxseg, (urgent_quiet _).maxseg, hopt]
        · intro t h
          rw [← some.inj h, (advertised_quiet _ _).maxseg, sent_tMaxseg,
            (urgent_quiet _).maxseg, hopt]

theorem nothing_tMaxseg (tp : Sender) : tp.nothing.tMaxseg = tp.tMaxseg := by
  unfold nothing
  split <;> rfl

theorem outputSegment_leave {env : SendEnv} {off : Seq} {len : Int}
    (h : tp.outputSegment env idle off n len sendalot = .inr t) : t.tMaxseg = tp.tMaxseg := by
  unfold outputSegment at h
  dsimp only at h
  generalize (if (tp.hiwat - tp.tIqsize).toInt < 0 then 0 else (tp.hiwat - tp.tIqsize).toInt) =
    win at h
  have htransmit := transmit_tMaxseg tp env (tp.segmentFlags len) len win
  split at h
  · cases ht : (tp.transmit env (tp.segmentFlags len) len win).1 with
    | none =>
      rw [ht] at h
      rw [← Sum.inr.inj h]
      exact htransmit.1
    | some u =>
      rw [ht, elim_some] at h
      split at h
      · cases h
      · rw [← Sum.inr.inj h]
        exact htransmit.2 u ht
  · rw [← Sum.inr.inj h]
    exact nothing_tMaxseg tp

theorem outputBody_leave (h : outputBody env idle (n, tp) = .inr t) : t.tMaxseg = tp.tMaxseg := by
  have hsame := (forced_spec tp (umin tp.sndWnd tp.sndCwnd)).1
  unfold outputBody at h
  dsimp only at h
  generalize (tp.forced (umin tp.sndWnd tp.sndCwnd)).2 = win at h
  generalize (tp.forced (umin tp.sndWnd tp.sndCwnd)).1 = u at h hsame
  have hshrunk : (if u.sendable win < 0 then u.shrunk win else u).tMaxseg = tp.tMaxseg := by
    rw [← hsame.maxseg]
    unfold shrunk
    split
    · split <;> rfl
    · rfl
  generalize (if u.sendable win < 0 then u.shrunk win else u) = v at h hshrunk
  generalize (if u.sendable win < 0 then 0 else u.sendable win) = len at h
  split at h
  · exact (outputSegment_leave h).trans hshrunk
  · exact (outputSegment_leave h).trans hshrunk

/-- From some turn on there is memory to duplicate the data of a segment. -/
def Duplicates (env : Nat → SendEnv) : Prop :=
  ∃ bound, ∀ n, bound ≤ n → (env n).dupblks = true

theorem outputBody_ends (hseg : 0 < tp.tMaxseg.toNat) (hprobes : tp.Probes)
    (henv : Duplicates env) :
    ∃ turns t, Loop.run (outputBody env idle) turns (0, tp) = some t ∧ t.tMaxseg = tp.tMaxseg := by
  rcases henv with ⟨bound, hbound⟩
  have hend : ∃ t, Loop.run (outputBody env idle) (tp.rank + bound + 1) (0, tp) = some t ∧
      t.tMaxseg = tp.tMaxseg := by
    apply Loop.run_of_measure (I := fun s => s.2.tMaxseg = tp.tMaxseg ∧ s.2.Probes)
      fun s => s.2.rank + (bound - s.1)
    · intro s u hs h
      rcases hs with ⟨hmaxseg, hp⟩
      rcases outputBody_next (by rw [hmaxseg]; exact hseg) hp h with ⟨hmany, hturn, hwent⟩
      rw [hmaxseg] at hmany hwent
      constructor
      · exact ⟨hwent.maxseg.trans hmaxseg, fun hforce => .inl (hwent.persist hforce)⟩
      · cases hdup : (env s.1).dupblks with
        | true =>
          rw [hdup, if_pos rfl] at hwent
          have hrank := hwent.rank_le hmany (by omega)
          omega
        | false =>
          rw [hdup, if_neg Bool.false_ne_true] at hwent
          have hnone : Went s.2 u.2 ((0 : Nat) : Int) := hwent
          have hrank := hnone.rank_le (by omega) (by omega)
          have hfew : s.1 < bound := by
            apply Nat.lt_of_not_le
            intro hle
            rw [hbound s.1 hle] at hdup
            cases hdup
          omega
    · intro s t hs h
      exact (outputBody_leave h).trans hs.1
    · exact ⟨rfl, hprobes⟩
    · show tp.rank + (bound - 0) < tp.rank + bound + 1
      omega
  rcases hend with ⟨t, hrun, ht⟩
  exact ⟨_, t, hrun, ht⟩

/-!
## Runs
-/

theorem udiv_eq_none {x y : BitVec 32} : udiv x y = none ↔ y = 0 := by
  unfold udiv
  split
  · rename_i h
    exact ⟨fun _ => h, fun _ => rfl⟩
  · rename_i h
    exact ⟨fun hnone => ((some_ne_none _) hnone).elim, fun hz => (h hz).elim⟩

theorem closeWindow_eq_none (s : Sender) : s.closeWindow = none ↔ s.tMaxseg = 0 := by
  unfold closeWindow
  rw [map_eq_none_iff, udiv_eq_none]
  unfold maxsegWide
  constructor
  · intro h
    have hz := congrArg BitVec.toNat h
    bv_omega
  · intro h
    rw [h]
    rfl

theorem openWindow_isSome (s : Sender) : s.openWindow.isSome = true := by
  unfold openWindow
  split
  · rename_i hlarge
    cases hdiv : udiv (s.maxsegWide * s.maxsegWide) s.sndCwnd with
    | some q => rfl
    | none =>
      rw [udiv_eq_none.mp hdiv, BitVec.ult, decide_eq_true_eq] at hlarge
      exact absurd hlarge (Nat.not_lt_zero _)
  · rfl

theorem closeWindow_tMaxseg (h : s.closeWindow = some t) : t.tMaxseg = s.tMaxseg := by
  rcases map_eq_some_iff.mp h with ⟨win, _, ht⟩
  rw [← ht]

theorem openWindow_tMaxseg (h : s.openWindow = some t) : t.tMaxseg = s.tMaxseg := by
  rcases map_eq_some_iff.mp h with ⟨incr, _, ht⟩
  rw [← ht]

/-- The options of a segment lie in their area and the last size is not zero; the
interfaces asked for have room behind the headers; a closed window is probed with
`snd_nxt` in place, and memory is to be had in the end. -/
def Meets (s : Sender) : SendEvent → Prop
  | .options area _ syn routes =>
    (∃ sizes, Options syn area sizes ∧ ∀ size ∈ sizes.getLast?, 0 < size) ∧
      ∀ i, Sizable (routes i).1 (routes i).2
  | .established route again => Sizable route again
  | .output env => s.Probes ∧ Duplicates env
  | _ => True

/-- Nothing is read outside the area of the options and the walk over it ends, the
congestion window is not divided by zero, and the loop of `tcp_output` ends. -/
def Safe (s : Sender) : SendEvent → Prop
  | .options area beyond syn routes => ∃ turns v,
      dooptions (memory area beyond) area.length syn routes turns s = some v ∧ v.Inside area
  | .closeWindow => s.closeWindow.isSome = true
  | .openWindow => s.openWindow.isSome = true
  | .output env => ∃ turns t, s.output env turns = some t
  | _ => True

theorem getLastD_pos_of_last {sizes : List Nat} {first : Nat} (hfirst : 0 < first)
    (hlast : ∀ size ∈ sizes.getLast?, 0 < size) : 0 < sizes.getLastD first := by
  rw [getLastD_eq_getLast?]
  cases hl : sizes.getLast? with
  | none => exact hfirst
  | some size => exact hlast size hl

section

variable (hpos : 0 < s.tMaxseg.toNat)
include hpos

theorem dooptions_of_meets {area : List UInt8} {beyond : Mem} {syn : Bool}
    {routes : Nat → Route × Route}
    (h : s.Meets (.options area beyond syn routes)) :
    ∃ turns v, dooptions (memory area beyond) area.length syn routes turns s = some v ∧
      v.Inside area ∧ 0 < v.tp.tMaxseg.toNat := by
  rcases h with ⟨⟨sizes, hoptions, hlast⟩, hroutes⟩
  have hbefore : Walk.Before area { cp := 0, cnt := area.length, tp := s, reads := [] } area :=
    ⟨rfl, (sub_zero _).symm⟩
  have hin : Walk.Inside area { cp := 0, cnt := area.length, tp := s, reads := [] } :=
    fun i hi => (not_mem_nil hi).elim
  rcases dooptions_of_options hroutes hoptions hbefore hin with ⟨turns, v, hrun, hv, hsize⟩
  exact ⟨turns, v, hrun, hv, hsize (getLastD_pos_of_last hpos hlast)⟩

theorem output_of_meets (h : s.Meets (.output env)) :
    ∃ turns t, s.output env turns = some t ∧ t.tMaxseg = s.tMaxseg :=
  outputBody_ends hpos h.1 h.2

theorem safe_of_meets {e : SendEvent} (h : s.Meets e) : s.Safe e := by
  cases e with
  | options area beyond syn routes =>
    rcases dooptions_of_meets hpos h with ⟨turns, v, hrun, hv, _⟩
    exact ⟨turns, v, hrun, hv⟩
  | output env =>
    rcases output_of_meets hpos h with ⟨turns, t, hrun, _⟩
    exact ⟨turns, t, hrun⟩
  | closeWindow =>
    show s.closeWindow.isSome = true
    rw [isSome_iff_ne_none, Ne, closeWindow_eq_none]
    intro hzero
    rw [hzero] at hpos
    exact absurd hpos (by decide)
  | openWindow => exact openWindow_isSome s
  | established route again => trivial
  | quench => trivial
  | other t => trivial

theorem step_pos {e : SendEvent} (hmeets : s.Meets e)
    (h : s.Step e t) : 0 < t.tMaxseg.toNat := by
  cases e with
  | options area beyond syn routes =>
    rcases h with ⟨turns, v, hrun, hv⟩
    rcases dooptions_of_meets hpos hmeets with ⟨turns', v', hrun', _, hsize⟩
    rw [← hv, Loop.run_unique hrun hrun']
    exact hsize
  | established route again =>
    have ht : s.limitMaxseg route again = t := h
    rw [← ht]
    exact limitMaxseg_pos hmeets hpos
  | closeWindow =>
    rw [closeWindow_tMaxseg h]
    exact hpos
  | openWindow =>
    rw [openWindow_tMaxseg h]
    exact hpos
  | quench =>
    have ht : s.quench = t := h
    rw [← ht]
    exact hpos
  | output env =>
    rcases h with ⟨turns, hrun⟩
    rcases output_of_meets hpos hmeets with ⟨turns', u, hrun', hsize⟩
    rw [Loop.run_unique hrun hrun', hsize]
    exact hpos
  | other u =>
    rcases h with ⟨rfl, hsize⟩
    rw [hsize]
    exact hpos

end

open Transition in
/-- While the segments received and the surroundings meet the conditions, the segment size
stays positive, and nothing is read outside of options, divided by zero or sent forever. -/
theorem maxseg_pos_of_run {s : Sender} (h : ReachableWhen New Step Meets s) :
    0 < s.tMaxseg.toNat ∧ ∀ e, s.Meets e → s.Safe e := by
  have hpos : 0 < s.tMaxseg.toNat := by
    apply h.invariant (I := fun t => 0 < t.tMaxseg.toNat)
    · intro t hnew
      rcases hnew with ⟨inpQ, rfl⟩
      show 0 < (65535#16).toNat
      decide
    · exact fun s e t hpos hmeets hstep => step_pos hpos hmeets hstep
  exact ⟨hpos, fun e hmeets => safe_of_meets hpos hmeets⟩

open Transition in
/-- A connection over an interface of 1500 bytes, in which a size of 1460 is announced. -/
theorem maxseg_pos_of_run_local :
    0 < ((new none).limitMaxseg ⟨some 1500, true⟩ ⟨some 1500, true⟩).tMaxseg.toNat ∧
      ((new none).limitMaxseg ⟨some 1500, true⟩ ⟨some 1500, true⟩).Safe
        (.options [2, 4, 5, 180] (fun _ => 0) true
          fun _ => (⟨some 1500, true⟩, ⟨some 1500, true⟩)) := by
  have hsizable : Sizable ⟨some 1500, true⟩ ⟨some 1500, true⟩ := .inr (by decide)
  have hreach : ReachableWhen New Step Meets
      ((new none).limitMaxseg ⟨some 1500, true⟩ ⟨some 1500, true⟩) :=
    (ReachableWhen.start ⟨none, rfl⟩).next
      (e := .established ⟨some 1500, true⟩ ⟨some 1500, true⟩) hsizable rfl
  have h := maxseg_pos_of_run hreach
  constructor
  · exact h.1
  · apply h.2
    constructor
    · refine ⟨[1460], .maxseg rfl .finished, ?_⟩
      intro size hsize
      rw [← some.inj hsize]
      decide
    · exact fun _ => hsizable

open Transition in
/-- A SYN that announces a size of zero. -/
theorem maxseg_not_always_pos :
    ¬ ∀ s, Reachable New Step s → 0 < s.tMaxseg.toNat ∧ ∀ e, s.Safe e := by
  intro h
  have hwalk : ∃ v, dooptions (memory [2, 4, 0, 0] fun _ => 0) 4 true
      (fun _ => (⟨none, false⟩, ⟨none, false⟩)) 2 (new none) = some v ∧ v.tp.tMaxseg = 0 := by
    refine ⟨_, rfl, ?_⟩
    decide
  rcases hwalk with ⟨v, hrun, hzero⟩
  have hreach : Reachable New Step v.tp :=
    (Reachable.start ⟨none, rfl⟩).next
      (e := .options [2, 4, 0, 0] (fun _ => 0) true fun _ => (⟨none, false⟩, ⟨none, false⟩))
      ⟨2, v, hrun, rfl⟩
  have hpos := (h v.tp hreach).1
  rw [hzero] at hpos
  exact absurd hpos (by decide)

end Sender

end Tcp
end Svr4
