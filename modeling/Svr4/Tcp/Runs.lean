import Svr4.Tcp.Window

/-!
# The window promise over whole runs

What taking data in does to the sequence numbers and to the data that waits for
the user, and from it what the windows sent have to do with the free space.
-/

namespace Svr4
namespace Tcp

open Serial Transition

def TcpState.heard (s : TcpState) : Prop := s ≠ .listen ∧ s ≠ .synSent

instance (s : TcpState) : Decidable s.heard := inferInstanceAs (Decidable (_ ∧ _))

variable {w : BitVec 16}

namespace Tcpcb

def queued (tp : Tcpcb) : Nat := (tp.tQfirst.map List.length).sum

def Counted (tp : Tcpcb) : Prop := tp.tIqsize = BitVec.ofNat 32 tp.queued

/-!
## Taking data in
-/

/--
Taking data in moves `rcv_nxt` by as much as is taken in, of which no more
than that is left waiting for the user.
-/
structure Takes (s t : Tcpcb) : Prop where
  rcvAdv : t.rcvAdv = s.rcvAdv
  inpQ : t.inpQ = s.inpQ
  heard : s.tState.heard → t.tState.heard
  counted : s.Counted → t.Counted
  moves : ∃ n : Nat, t.rcvNxt = s.rcvNxt + BitVec.ofNat 32 n ∧
    t.ahead = s.ahead + n ∧ t.queued ≤ s.queued + n

variable {s t u tp : Tcpcb}

theorem Takes.same (hadv : t.rcvAdv = s.rcvAdv) (hnxt : t.rcvNxt = s.rcvNxt)
    (hq : t.inpQ = s.inpQ) (hstate : s.tState.heard → t.tState.heard)
    (hfirst : t.tQfirst = s.tQfirst) (hsize : t.tIqsize = s.tIqsize)
    (hahead : t.ahead = s.ahead) : Takes s t where
  rcvAdv := hadv
  inpQ := hq
  heard := hstate
  counted h := by
    unfold Counted queued at *
    rw [hsize, hfirst, h]
  moves := by
    refine ⟨0, ?_, ?_, ?_⟩
    · rw [hnxt]
      exact (add_zero _).symm
    · rw [hahead]
      exact (add_zero _).symm
    · unfold queued
      rw [hfirst]
      exact Nat.le_add_right _ _

theorem Takes.refl (s : Tcpcb) : Takes s s :=
  Takes.same rfl rfl rfl id rfl rfl rfl

theorem Takes.trans (h : Takes s t) (h' : Takes t u) : Takes s u where
  rcvAdv := h'.rcvAdv.trans h.rcvAdv
  inpQ := h'.inpQ.trans h.inpQ
  heard hs := h'.heard (h.heard hs)
  counted hs := h'.counted (h.counted hs)
  moves := by
    rcases h.moves with ⟨n, hnxt, hahead, hqueued⟩
    rcases h'.moves with ⟨m, hnxt', hahead', hqueued'⟩
    refine ⟨n + m, ?_, ?_, by omega⟩
    · rw [hnxt', hnxt, BitVec.ofNat_add, add_assoc]
    · rw [hahead', hahead, Nat.cast_add, add_assoc]

theorem queued_tcpEnqdata (tp : Tcpcb) (bp : List UInt8) (urp : Option Nat) :
    (tp.tcpEnqdata bp urp).queued = tp.queued + bp.length := by
  simp [queued, tcpEnqdata]

theorem Counted.tcpEnqdata (h : tp.Counted) (bp : List UInt8) (urp : Option Nat) :
    (tp.tcpEnqdata bp urp).Counted := by
  unfold Counted at *
  rw [queued_tcpEnqdata, BitVec.ofNat_add, ← h]
  rfl

theorem takes_advance (n : Nat) : Takes tp (tp.advance n) where
  rcvAdv := rfl
  inpQ := rfl
  heard := id
  counted h := h
  moves := ⟨n, rfl, rfl, Nat.le_add_right _ _⟩

theorem takes_enqdata (bp : List UInt8) (urp : Option Nat) :
    Takes tp ((tp.advance bp.length).tcpEnqdata bp urp) where
  rcvAdv := rfl
  inpQ := rfl
  heard := id
  counted h := Counted.tcpEnqdata h bp urp
  moves := ⟨bp.length, rfl, rfl, (queued_tcpEnqdata _ _ _).le⟩

theorem takes_putnext (bp : List UInt8) : Takes tp ((tp.advance bp.length).putnext bp) :=
  (takes_advance bp.length).trans (Takes.same rfl rfl rfl id rfl rfl rfl)

theorem takes_sendup (env : Env) (turn : Nat) (ti : Tcpiphdr) :
    Takes tp (sendup env turn (tp.advance ti.tiLen) ti) := by
  unfold sendup
  split
  · split
    · split
      · exact takes_putnext ti.text
      · exact takes_enqdata ti.text _
    · split
      · exact takes_putnext ti.text
      · exact takes_enqdata ti.text _
  · exact takes_enqdata ti.text _

theorem takes_presentOne (env : Env) (turn : Nat) (ti : Tcpiphdr) :
    Takes tp (presentOne env turn tp ti) := by
  unfold presentOne
  dsimp only
  split
  · exact takes_advance ti.tiLen
  split
  · exact takes_advance ti.tiLen
  · exact takes_sendup env turn ti

theorem takes_segNext (tis : List Tcpiphdr) : Takes tp { tp with segNext := tis } :=
  Takes.same rfl rfl rfl id rfl rfl rfl

theorem takes_presentLoop (env : Env) (tis : List Tcpiphdr) :
    ∀ (turn : Nat) (tp : Tcpcb) (fin : Bool), Takes tp (presentLoop env turn tp fin tis).1 := by
  induction tis with
  | nil =>
    intro turn tp fin
    exact takes_segNext []
  | cons ti rest ih =>
    intro turn tp fin
    unfold presentLoop
    split
    · exact (takes_presentOne env turn ti).trans (ih _ _ _)
    · exact takes_segNext _

theorem takes_present (env : Env) : Takes tp (present env tp).1 := by
  unfold present
  split
  · exact Takes.refl tp
  split
  · exact Takes.refl tp
  split
  · exact Takes.refl tp
  split
  · exact Takes.refl tp
  · exact takes_presentLoop env _ 0 tp false

theorem takes_tcpReass (env : Env) (ti : Tcpiphdr) : Takes tp (tcpReass env tp ti).1 := by
  unfold tcpReass
  dsimp only
  split
  · exact Takes.refl tp
  · exact (takes_segNext _).trans (takes_present env)

theorem takes_tcpReassMacro (env : Env) (ti : Tcpiphdr) (tiflags : Flags) :
    Takes s (tcpReassMacro env s ti tiflags).1 := by
  unfold tcpReassMacro
  dsimp only
  split
  · split
    · exact takes_advance ti.tiLen
    split
    · exact takes_putnext ti.text
    · exact takes_enqdata ti.text none
  · exact takes_tcpReass env ti

theorem heard_finState : ∀ {s : TcpState}, s.heard → (finState s).heard := by
  intro s
  cases s <;> decide

theorem takes_rcvdFin : Takes tp tp.rcvdFin := by
  unfold rcvdFin
  split
  · exact Takes.same rfl rfl rfl heard_finState rfl rfl rfl
  · exact (takes_advance 1).trans (Takes.same rfl rfl rfl heard_finState rfl rfl rfl)

theorem takes_delayAck (nodelack : Bool) : Takes tp (tp.delayAck nodelack) :=
  Takes.same rfl rfl rfl id rfl rfl rfl

theorem takes_segmentText (env : InputEnv) (ti : Tcpiphdr) (tiflags : Flags) :
    Takes tp (segmentText env tp ti tiflags) := by
  have hacked := (takes_tcpReassMacro (s := tp) env.toEnv ti tiflags).trans
    (takes_delayAck env.nodelack)
  unfold segmentText
  split
  · dsimp only
    split
    · exact hacked.trans takes_rcvdFin
    · exact hacked
  · exact Takes.refl tp

theorem takes_step6 (env : InputEnv) (ti : Tcpiphdr) (tiflags : Flags) :
    Takes tp (step6 env tp ti tiflags) := by
  have hup : ∀ up, Takes tp { tp with rcvUp := up } := fun _ =>
    Takes.same rfl rfl rfl id rfl rfl rfl
  exact (hup _).trans (takes_segmentText env _ tiflags)

theorem takes_tcpClose : Takes tp tp.tcpClose :=
  Takes.same rfl rfl rfl (fun _ => (by decide : TcpState.heard .closed)) rfl rfl rfl

theorem heard_ackState : ∀ (b : Bool) {s : TcpState}, s.heard → (ackState b s).heard := by
  intro b s
  cases s <;> cases b <;> decide

theorem takes_ackProcessing (env : InputEnv) (ti : Tcpiphdr) (tiflags : Flags) :
    Takes tp (ackProcessing env tp ti tiflags) := by
  have hacknow : Takes tp { tp with acknow := true } :=
    Takes.same rfl rfl rfl id rfl rfl rfl
  unfold ackProcessing
  split
  · exact Takes.refl tp
  · exact Takes.refl tp
  · exact hacknow
  · exact takes_step6 env ti tiflags
  · rename_i ourfinisacked _
    split
    · exact takes_tcpClose
    split
    · exact hacknow
    · have hstate : Takes tp { tp with tState := ackState ourfinisacked tp.tState } :=
        Takes.same rfl rfl rfl (heard_ackState _) rfl rfl rfl
      exact hstate.trans (takes_step6 env ti tiflags)

theorem takes_inWindow (env : InputEnv) (ti : Tcpiphdr) (tiflags : Flags) :
    Takes tp (inWindow env tp ti tiflags) := by
  unfold inWindow
  split
  · exact takes_tcpClose
  split
  · exact takes_tcpClose
  split
  · exact Takes.refl tp
  split
  · split
    · exact Takes.refl tp
    · have hestablished : Takes tp { tp with tState := .established, tMaxseg := env.maxseg } :=
        Takes.same rfl rfl rfl (fun _ => (by decide : TcpState.heard .established)) rfl rfl
          rfl
      exact hestablished.trans ((takes_present _).trans (takes_ackProcessing env ti tiflags))
  · exact takes_ackProcessing env ti tiflags

theorem takes_afterSyn (env : InputEnv) (ti : Tcpiphdr) : Takes tp (afterSyn env tp ti).tp := by
  have hacknow : ∀ acknow, Takes tp { tp with acknow := acknow } := fun _ =>
    Takes.same rfl rfl rfl id rfl rfl rfl
  unfold afterSyn trimmedLeft
  split
  · exact hacknow _
  split
  · exact takes_tcpClose
  · unfold trimmed
    split
    · exact (hacknow _).trans (takes_inWindow env _ _)
    · exact hacknow _

theorem takes_setWindow : Takes tp tp.setWindow :=
  Takes.same rfl rfl rfl id rfl rfl rfl

theorem takes_tcpUinput (env : InputEnv) (seg : Segment)
    (hsyn : tp.tState.haveRcvdSyn = true) : Takes tp (tp.tcpUinput env seg).tp := by
  unfold tcpUinput
  dsimp only
  split
  · exact Takes.refl tp
  split
  · exact Takes.refl tp
  · exact takes_setWindow.trans (takes_afterSyn env seg.ti)

/-!
## The first SYN
-/

theorem takes_trimthenstep6 (env : InputEnv) (ti : Tcpiphdr) (tiflags : Flags) :
    Takes tp (trimthenstep6 env tp ti tiflags).tp := by
  have hup : ∀ up, Takes tp { tp with rcvUp := up } := fun _ =>
    Takes.same rfl rfl rfl id rfl rfl rfl
  exact (hup _).trans (takes_step6 env _ _)

/-- A connection whose numbers have just been set from a SYN. -/
structure Opened (s u : Tcpcb) : Prop where
  heard : u.tState.heard
  advertised : u.rcvAdv = u.rcvNxt
  ahead : u.ahead = 0
  queue : u.tQfirst = s.tQfirst
  iqsize : u.tIqsize = s.tIqsize
  inpQ : u.inpQ = s.inpQ

theorem opened_synReceived (seq : Seq) :
    Opened tp { tp.tcpRcvseqinit seq with acknow := true, tState := .synReceived } :=
  ⟨(by decide : TcpState.heard .synReceived), rfl, rfl, rfl, rfl, rfl⟩

theorem beforeSyn_spec (env : InputEnv) (ti : Tcpiphdr) (tiflags : Flags) :
    (beforeSyn env tp ti tiflags).tp = tp ∨ (beforeSyn env tp ti tiflags).tp = tp.tcpClose ∨
    ∃ u, Opened tp u ∧ Takes u (beforeSyn env tp ti tiflags).tp := by
  unfold beforeSyn
  split
  · split
    · exact .inl rfl
    · exact .inr (.inr ⟨_, opened_synReceived ti.tiSeq, takes_trimthenstep6 env ti tiflags⟩)
  split
  · exact .inl rfl
  split
  · split
    · exact .inr (.inl rfl)
    · exact .inl rfl
  split
  · exact .inl rfl
  · right
    right
    split
    · exact ⟨{ tp.tcpRcvseqinit ti.tiSeq with
          acknow := true, tState := .established, tMaxseg := env.maxseg },
        ⟨(by decide : TcpState.heard .established), rfl, rfl, rfl, rfl, rfl⟩,
        (takes_present env.first).trans (takes_trimthenstep6 env ti tiflags)⟩
    · exact ⟨_, opened_synReceived ti.tiSeq, takes_trimthenstep6 env ti tiflags⟩

/-!
## Giving the queued data to the user
-/

theorem tcpDeqdata_frame (env : Env) (turn : Nat) (tp : Tcpcb) :
    (tcpDeqdata env turn tp).rcvAdv = tp.rcvAdv ∧ (tcpDeqdata env turn tp).rcvNxt = tp.rcvNxt ∧
    (tcpDeqdata env turn tp).ahead = tp.ahead ∧ (tcpDeqdata env turn tp).inpQ = tp.inpQ ∧
    (tcpDeqdata env turn tp).tState = tp.tState := by
  fun_induction tcpDeqdata env turn tp with
  | case1 => exact ⟨rfl, rfl, rfl, rfl, rfl⟩
  | case2 turn tp bp rest hq hcan hurp hpass ih => exact ih
  | case3 => exact ⟨rfl, rfl, rfl, rfl, rfl⟩
  | case4 turn tp bp rest hq hcan hurp hhead ih => exact ih
  | case5 => exact ⟨rfl, rfl, rfl, rfl, rfl⟩
  | case6 => exact ⟨rfl, rfl, rfl, rfl, rfl⟩

theorem Counted.dequeue {bp : List UInt8} {rest : List (List UInt8)}
    (h : tp.Counted) (hq : tp.tQfirst = bp :: rest) : (tp.dequeue bp rest).Counted := by
  unfold Counted queued Tcpcb.dequeue at *
  rw [hq] at h
  rw [h, List.map_cons, List.sum_cons, BitVec.ofNat_add]
  ring

theorem tcpDeqdata_queue (env : Env) (turn : Nat) (tp : Tcpcb) (hcount : tp.Counted)
    (hurp : tp.tIqurp < 0) : (tcpDeqdata env turn tp).Counted ∧
    (tcpDeqdata env turn tp).queued ≤ tp.queued := by
  fun_induction tcpDeqdata env turn tp with
  | case1 tp => exact ⟨hcount, le_rfl⟩
  | case2 turn tp bp rest hq hcan hmarked hpass ih =>
    exact absurd hmarked.1 (not_le.mpr hurp)
  | case3 => exact ⟨hcount, le_rfl⟩
  | case4 turn tp bp rest hq hcan hmarked hhead ih =>
    have hstill : ((tp.dequeue bp rest).putnext bp).tIqurp < 0 := by
      simp only [putnext, dequeue]
      rw [if_neg (not_le.mpr hurp)]
      exact hurp
    rcases ih (Counted.dequeue hcount hq) hstill with ⟨hcount', hle⟩
    refine ⟨hcount', hle.trans ?_⟩
    have hshorter : ((tp.dequeue bp rest).putnext bp).queued = (rest.map List.length).sum := rfl
    rw [hshorter]
    unfold queued
    rw [hq]
    simp
  | case5 => exact ⟨hcount, le_rfl⟩
  | case6 => exact ⟨hcount, le_rfl⟩

/-!
## What holds in a run
-/

def freeSpace (tp : Tcpcb) : Int := tp.hiwat.toInt - tp.queued

/-- What is promised fits into the receive buffer with what waits there. -/
structure Fits (tp : Tcpcb) : Prop where
  counted : tp.Counted
  ahead : Ahead tp.rcvNxt tp.rcvAdv tp.ahead
  lower : -65535 ≤ tp.ahead
  fits : 0 ≤ tp.hiwat.toInt → -tp.ahead ≤ tp.freeSpace
  quiet : ¬ tp.tState.heard → tp.queued = 0

/-- The amounts of data are such that differences of sequence numbers mean what
they should. -/
structure Sane (tp : Tcpcb) : Prop where
  hiwat : 0 ≤ tp.hiwat.toInt
  queued : tp.queued < 2147483648
  ahead : tp.ahead < 2147483648

theorem fits_of_start (h : Start tp) : tp.Fits where
  counted := by
    unfold Counted Tcpcb.queued
    rw [h.iqsize, h.queue]
    rfl
  ahead := by
    rw [h.advertised, h.ahead]
    exact ahead_refl _
  lower := by
    rw [h.ahead]
    decide
  fits hhiwat := by
    unfold freeSpace Tcpcb.queued
    rw [h.ahead, h.queue]
    simpa using hhiwat
  quiet _ := by
    unfold Tcpcb.queued
    rw [h.queue]
    rfl

theorem Takes.fits (h : Takes s t) (hs : s.Fits) (hquiet : ¬ t.tState.heard → t.queued = 0) :
    t.Fits := by
  have hhiwat : t.hiwat = s.hiwat := by
    unfold Tcpcb.hiwat
    rw [h.inpQ]
  rcases h.moves with ⟨n, hnxt, hahead, hqueued⟩
  refine ⟨h.counted hs.counted, ?_, ?_, ?_, hquiet⟩
  · rw [hnxt, h.rcvAdv, hahead]
    exact hs.ahead.add n
  · have hlower := hs.lower
    omega
  · intro hnonneg
    have hfits := hs.fits (hhiwat ▸ hnonneg)
    unfold freeSpace at *
    rw [hhiwat, hahead]
    omega

theorem Fits.promise_eq (h : tp.Fits) (hsane : tp.Sane) : tp.promise = -tp.ahead := by
  have hlower := h.lower
  have hupper := hsane.ahead
  exact toInt_ahead h.ahead.symm (by omega) (by omega)

theorem Fits.space_eq (h : tp.Fits) (hsane : tp.Sane) : tp.space = tp.freeSpace := by
  have hqueued := hsane.queued
  have hhiwat := hsane.hiwat
  have hrange := toInt_range tp.hiwat
  have hsize : Ahead tp.hiwat tp.tIqsize tp.freeSpace := by
    unfold Ahead freeSpace
    rw [h.counted, sub_eq_add_neg, sub_eq_add_neg, BitVec.ofInt_add, BitVec.ofInt_neg,
      BitVec.ofInt_toInt, BitVec.ofInt_natCast]
  refine toInt_ahead hsize ?_ ?_
  · unfold freeSpace
    omega
  · unfold freeSpace
    omega

theorem Sends.le_freeSpace {win : Int} (h : Sends s t w win) (hs : s.Fits)
    (hsane : s.Sane) : win ≤ max 0 s.freeSpace := by
  have hbound := h.bound
  rw [hs.promise_eq hsane, hs.space_eq hsane] at hbound
  have hfits := hs.fits hsane.hiwat
  omega

theorem Sends.fits {win : Int} (h : Sends s t w win) (hs : s.Fits) (hsane : s.Sane) : t.Fits := by
  have hle := h.le_freeSpace hs hsane
  have hlargest := h.largest
  rw [h.rest]
  refine ⟨hs.counted, ?_, ?_, ?_, hs.quiet⟩
  · rcases h.edge with ⟨hadv, hahead⟩ | ⟨-, -, hadv, hahead⟩
    · rw [hadv, hahead]
      exact hs.ahead
    · rw [hadv, hahead]
      exact (ahead_add s.rcvNxt win).symm
  · rcases h.edge with ⟨-, hahead⟩ | ⟨-, -, -, hahead⟩
    · rw [hahead]
      exact hs.lower
    · dsimp only
      omega
  · intro hnonneg
    rcases h.edge with ⟨-, hahead⟩ | ⟨hpos, -, -, hahead⟩
    · rw [hahead]
      exact hs.fits hnonneg
    · rw [hahead]
      change - -win ≤ s.freeSpace
      omega

theorem Fits.grow (h : s.Fits) (hnonneg : 0 ≤ s.hiwat.toInt) (hle : s.hiwat.toInt ≤ t.hiwat.toInt)
    (hadv : t.rcvAdv = s.rcvAdv) (hnxt : t.rcvNxt = s.rcvNxt) (hahead : t.ahead = s.ahead)
    (hfirst : t.tQfirst = s.tQfirst) (hsize : t.tIqsize = s.tIqsize)
    (hstate : s.tState.heard → t.tState.heard) : t.Fits := by
  have hqueued : t.queued = s.queued := by
    unfold Tcpcb.queued
    rw [hfirst]
  refine ⟨?_, ?_, ?_, ?_, ?_⟩
  · unfold Counted
    rw [hsize, hqueued]
    exact h.counted
  · rw [hadv, hnxt, hahead]
    exact h.ahead
  · rw [hahead]
    exact h.lower
  · have hfits := h.fits hnonneg
    unfold freeSpace at *
    omega
  · intro hquiet
    rw [hqueued]
    exact h.quiet fun hheard => hquiet (hstate hheard)

end Tcpcb

/-!
## One step
-/

namespace Tcpcb

variable {s t tp : Tcpcb} {e : Event}

theorem tcpUsrclosed_takes : Takes tp tp.tcpUsrclosed := by
  have hstate : ∀ st : TcpState, st.heard → Takes tp { tp with tState := st } :=
    fun st hst => Takes.same rfl rfl rfl (fun _ => hst) rfl rfl rfl
  unfold tcpUsrclosed
  split
  · exact takes_tcpClose
  · exact takes_tcpClose
  · exact takes_tcpClose
  · exact hstate _ (by decide)
  · exact hstate _ (by decide)
  · exact hstate _ (by decide)
  · exact Takes.refl tp

theorem tcpDisconnect_takes (linger : Bool) : Takes tp (tp.tcpDisconnect linger) := by
  unfold tcpDisconnect
  split
  · exact takes_tcpClose
  split
  · exact takes_tcpClose
  · exact tcpUsrclosed_takes

/-- The step does not lower the size of the receive buffer. -/
def KeepsHiwat (tp : Tcpcb) : Event → Prop
  | .accept qHiwat => tp.hiwat.toInt ≤ qHiwat.toInt
  | .rcvbuf qHiwat => tp.hiwat.toInt ≤ qHiwat.toInt
  | .close _ => tp.hiwat.toInt ≤ 4096
  | _ => True

/-- The step does not pass up queued data in which an urgent byte is marked. -/
def NoUrgent (tp : Tcpcb) : Event → Prop
  | .deqdata _ => tp.tIqurp < 0
  | _ => True

/-- The steps of a run in which the promise is backed by the buffer. -/
def Backed (tp : Tcpcb) (e : Event) : Prop :=
  tp.Sane ∧ tp.KeepsHiwat e ∧ tp.NoUrgent e

theorem heard_of_haveRcvdSyn {st : TcpState} (h : st.haveRcvdSyn = true) : st.heard := by
  cases st <;> revert h <;> decide

theorem not_heard {st : TcpState} (h : st.haveRcvdSyn ≠ true) (hclosed : st ≠ .closed) :
    ¬ st.heard := by
  cases st <;> revert h hclosed <;> decide

theorem Takes.fits_of_heard (h : Takes s t) (hs : s.Fits) (hheard : t.tState.heard) :
    t.Fits :=
  h.fits hs fun hnot => absurd hheard hnot

theorem Fits.setWindow (h : s.Fits) : s.setWindow.Fits :=
  takes_setWindow.fits h h.quiet

theorem Opened.fits (h : Opened s t) (hs : s.Fits) (hquiet : ¬ s.tState.heard) : t.Fits := by
  have hempty : t.queued = 0 := by
    have hqueued := hs.quiet hquiet
    unfold queued at *
    rw [h.queue, hqueued]
  have hcounted := hs.counted
  refine ⟨?_, ?_, ?_, ?_, fun _ => hempty⟩
  · unfold Counted at *
    rw [h.iqsize, hcounted, hempty, hs.quiet hquiet]
  · rw [h.advertised, h.ahead]
    exact ahead_refl _
  · rw [h.ahead]
    decide
  · unfold freeSpace
    rw [h.ahead, hempty]
    simpa using hnonneg

theorem tcpUinput_fits (env : InputEnv) (seg : Segment) (hs : s.Fits) :
    (s.tcpUinput env seg).tp.Fits := by
  have hclosed : (s.setWindow.tcpClose).tState.heard := (by decide : TcpState.heard .closed)
  unfold tcpUinput
  dsimp only
  split
  · exact hs
  split
  · exact hs
  rename_i hopen
  split
  · rename_i hsyn
    exact (takes_afterSyn env seg.ti).fits_of_heard hs.setWindow
      ((takes_afterSyn env seg.ti).heard (heard_of_haveRcvdSyn hsyn))
  · rename_i hsyn
    rcases beforeSyn_spec env seg.ti seg.ti.tiFlags with heq | heq | ⟨u, hopened, htakes⟩
    · rw [heq]
      exact hs.setWindow
    · rw [heq]
      exact takes_tcpClose.fits_of_heard hs.setWindow hclosed
    · exact htakes.fits_of_heard (hopened.fits hs.setWindow (not_heard hsyn hopen))
        (htakes.heard hopened.heard)

theorem heard_tcpUsrclosed (tp : Tcpcb) : tp.tcpUsrclosed.tState.heard := by
  unfold tcpUsrclosed
  split
  · exact (by decide : TcpState.heard .closed)
  · exact (by decide : TcpState.heard .closed)
  · exact (by decide : TcpState.heard .closed)
  · exact (by decide : TcpState.heard .finWait1)
  · exact (by decide : TcpState.heard .finWait1)
  · exact (by decide : TcpState.heard .lastAck)
  · rename_i hclosed hlisten hsent _ _ _
    exact ⟨hlisten, hsent⟩

theorem heard_tcpDisconnect (linger : Bool) (tp : Tcpcb) :
    (tp.tcpDisconnect linger).tState.heard := by
  unfold tcpDisconnect
  split
  · exact (by decide : TcpState.heard .closed)
  split
  · exact (by decide : TcpState.heard .closed)
  · exact heard_tcpUsrclosed tp

theorem Fits.step (hs : s.Fits) (hok : s.Backed e) : (exec s e).tp.Fits := by
  rcases hok with ⟨hsane, hkeeps, hurgent⟩
  cases e with
  | input env seg => exact tcpUinput_fits env seg hs
  | output env =>
    rcases tcpOutput_spec env s with hnone | ⟨w, win, -, -, hsends⟩
    · change (s.tcpOutput env).tp.Fits
      rw [hnone]
      exact hs
    · exact hsends.fits hs hsane
  | respond =>
    change s.tcpRespond.tp.Fits
    rw [(tcpRespond_spec s).1]
    exact hs
  | deqdata env =>
    obtain ⟨hadv, hnxt, hahead, hq, hstate⟩ := tcpDeqdata_frame env 0 s
    obtain ⟨hcounted, hqueued⟩ := tcpDeqdata_queue env 0 s hs.counted hurgent
    have hhiwat : (tcpDeqdata env 0 s).hiwat = s.hiwat := by
      unfold Tcpcb.hiwat
      rw [hq]
    refine ⟨hcounted, ?_, ?_, ?_, ?_⟩
    · change Ahead (tcpDeqdata env 0 s).rcvNxt (tcpDeqdata env 0 s).rcvAdv
        (tcpDeqdata env 0 s).ahead
      rw [hadv, hnxt, hahead]
      exact hs.ahead
    · change -65535 ≤ (tcpDeqdata env 0 s).ahead
      rw [hahead]
      exact hs.lower
    · intro _
      have hfits := hs.fits hsane.hiwat
      change -(tcpDeqdata env 0 s).ahead ≤ (tcpDeqdata env 0 s).freeSpace
      unfold freeSpace at *
      rw [hahead, hhiwat]
      omega
    · intro hquiet
      have hzero := hs.quiet fun hheard => hquiet (hstate ▸ hheard)
      change (tcpDeqdata env 0 s).queued = 0
      omega
  | accept qHiwat => exact hs.grow hsane.hiwat hkeeps rfl rfl rfl rfl rfl id
  | rcvbuf qHiwat =>
    refine hs.grow hsane.hiwat ?_ rfl rfl rfl rfl rfl id
    change s.hiwat.toInt ≤ (s.rcvbuf qHiwat).hiwat.toInt
    cases hq : s.inpQ with
    | none =>
      have hsame : (s.rcvbuf qHiwat).hiwat = s.hiwat := by
        unfold Tcpcb.hiwat Tcpcb.rcvbuf
        simp [hq]
      rw [hsame]
    | some _ =>
      have hnew : (s.rcvbuf qHiwat).hiwat = qHiwat := by
        unfold Tcpcb.hiwat Tcpcb.rcvbuf
        simp [hq]
      rw [hnew]
      exact hkeeps
  | usrclosed =>
    exact tcpUsrclosed_takes.fits_of_heard hs (heard_tcpUsrclosed s)
  | disconnect linger =>
    exact (tcpDisconnect_takes linger).fits_of_heard hs (heard_tcpDisconnect linger s)
  | close linger =>
    have hfits : (s.tcpDisconnect linger).Fits :=
      (tcpDisconnect_takes linger).fits_of_heard hs (heard_tcpDisconnect linger s)
    have hhiwat : (s.tcpDisconnect linger).hiwat = s.hiwat := by
      unfold Tcpcb.hiwat
      rw [(tcpDisconnect_takes linger).inpQ]
    refine hfits.grow ?_ ?_ rfl rfl rfl rfl rfl id
    · rw [hhiwat]
      exact hsane.hiwat
    · rw [hhiwat]
      exact hkeeps

theorem fits_of_backed (h : ReachableWhen Start Step Backed s) : s.Fits :=
  h.invariant (fun _ hs => fits_of_start hs) fun _ _ _ hs hok hstep => hstep ▸ hs.step hok

/-!
## The promise
-/

structure Kept (s : Tcpcb) (e : Event) : Prop where
  /-- the right edge moves right, by at most half the sequence numbers -/
  edge : s.tState.haveRcvdSyn = true → ((exec s e).tp.rcvAdv - s.rcvAdv).toNat ≤ 2147483648
  /-- no data of the advertised window is dropped as lying outside the window -/
  inside : s.tState.haveRcvdSyn = true → ∀ x ∈ (exec s e).outside, ¬ s.Advertised x
  output : ∀ env w, e = .output env → (exec s e).sent = some w → ∃ win, Sends s (exec s e).tp w win
  respond : ∀ w, e = .respond → (exec s e).sent = some w →
    0 ≤ max s.space s.promise → (w.toNat : Int) ≤ max s.space s.promise

theorem exec_edge (hsyn : s.tState.haveRcvdSyn = true) :
    ((exec s e).tp.rcvAdv - s.rcvAdv).toNat ≤ 2147483648 := by
  have hstays : (exec s e).tp.rcvAdv = s.rcvAdv →
      ((exec s e).tp.rcvAdv - s.rcvAdv).toNat ≤ 2147483648 := by
    intro heq
    rw [heq, sub_self]
    decide
  cases e with
  | input env seg => exact hstays (takes_tcpUinput env seg hsyn).rcvAdv
  | output env =>
    rcases tcpOutput_spec env s with hnone | ⟨w, win, -, -, hsends⟩
    · exact hstays (congrArg (fun o : Outcome => o.tp.rcvAdv) hnone)
    · exact hsends.rcvAdv_right
  | respond => exact hstays (congrArg Tcpcb.rcvAdv (tcpRespond_spec s).1)
  | deqdata env => exact hstays (tcpDeqdata_frame env 0 s).1
  | accept qHiwat => exact hstays rfl
  | rcvbuf qHiwat => exact hstays rfl
  | usrclosed => exact hstays tcpUsrclosed_takes.rcvAdv
  | disconnect linger => exact hstays (tcpDisconnect_takes linger).rcvAdv
  | close linger => exact hstays (tcpDisconnect_takes linger).rcvAdv

theorem exec_inside (hsyn : s.tState.haveRcvdSyn = true) :
    ∀ x ∈ (exec s e).outside, ¬ s.Advertised x := by
  intro x hx
  have hnone : (exec s e).outside = [] → ¬ s.Advertised x := by
    intro hempty
    rw [hempty] at hx
    cases hx
  cases e with
  | input env seg => exact tcpUinput_outside hsyn hx
  | output env =>
    rcases tcpOutput_spec env s with heq | ⟨w, win, -, hempty, -⟩
    · exact hnone (congrArg Outcome.outside heq)
    · exact hnone hempty
  | respond => exact hnone (tcpRespond_spec s).2.1
  | deqdata env => exact hnone rfl
  | accept qHiwat => exact hnone rfl
  | rcvbuf qHiwat => exact hnone rfl
  | usrclosed => exact hnone rfl
  | disconnect linger => exact hnone rfl
  | close linger => exact hnone rfl

theorem exec_output {env : OutputEnv} (hsent : (exec s (.output env)).sent = some w) :
    ∃ win, Sends s (exec s (.output env)).tp w win := by
  rcases tcpOutput_spec env s with hnone | ⟨w', win, hw, -, hsends⟩
  · rw [show exec s (.output env) = ⟨s, none, []⟩ from hnone] at hsent
    cases hsent
  · have heq : w' = w := Option.some.inj (hw.symm.trans hsent)
    exact ⟨win, heq ▸ hsends⟩

theorem kept (s : Tcpcb) (e : Event) : Kept s e where
  edge := exec_edge
  inside := exec_inside
  output := by
    rintro env w rfl hsent
    exact exec_output hsent
  respond := by
    rintro w rfl hsent hnonneg
    exact (tcpRespond_spec s).2.2 w hsent hnonneg

theorem sent_cases (hsent : (exec s e).sent = some w)
    (hinput : ∀ env seg, (exec s (.input env seg)).sent = none) :
    (∃ env, e = .output env) ∨ e = .respond := by
  cases e with
  | input env seg =>
    rw [hinput env seg] at hsent
    cases hsent
  | output env => exact .inl ⟨env, rfl⟩
  | respond => exact .inr rfl
  | _ => cases hsent

theorem input_sent (env : InputEnv) (tp : Tcpcb) (seg : Segment) :
    (tp.tcpUinput env seg).sent = none := by
  have hleft : ∀ r, (tp.setWindow.trimmedLeft env r).sent = none := by
    intro r
    unfold trimmedLeft trimmed
    split <;> first | rfl | split <;> first | rfl | split <;> rfl
  have hbefore : ∀ ti tiflags, (tp.setWindow.beforeSyn env ti tiflags).sent = none := by
    intro ti tiflags
    unfold beforeSyn trimthenstep6
    split
    · split <;> rfl
    split
    · rfl
    split
    · rfl
    split
    · rfl
    · split <;> rfl
  unfold tcpUinput
  dsimp only
  split
  · rfl
  split
  · rfl
  split
  · exact hleft _
  · exact hbefore _ _

theorem sent_le_freeSpace (hs : s.Fits) (hsane : s.Sane) (hsent : (exec s e).sent = some w)
    (hqueued : e = .respond → (s.queued : Int) ≤ s.hiwat.toInt) :
    (w.toNat : Int) ≤ max 0 s.freeSpace := by
  rcases sent_cases hsent fun env seg => input_sent env s seg with ⟨env, rfl⟩ | rfl
  · rcases exec_output hsent with ⟨win, hsends⟩
    rw [hsends.sent]
    exact hsends.le_freeSpace hs hsane
  · have hroom := hqueued rfl
    have hfits := hs.fits hsane.hiwat
    have hfree : 0 ≤ s.freeSpace := by
      unfold freeSpace
      omega
    have hmax : max s.space s.promise = s.freeSpace := by
      rw [hs.promise_eq hsane, hs.space_eq hsane]
      omega
    have hle := (tcpRespond_spec s).2.2 w hsent (by rw [hmax]; exact hfree)
    omega

end Tcpcb

/-!
## A connection accepted on a small buffer
-/

namespace Small

def env : Env := ⟨fun _ => true, fun _ => true, fun _ => true⟩

def inputEnv : InputEnv := ⟨env, env, .old, .old, 512, false⟩

/-- `tcp_newtcpcb`, for a connection that waits for a SYN. -/
def listening : Tcpcb :=
  { tState := .listen, acknow := false, delack := false, tMaxseg := 512
    rcvWnd := 0, rcvNxt := 0, rcvUp := 0, rcvAdv := 0, segNext := [], tQfirst := []
    tIqsize := 0, tIqurp := -1, inpQ := none, cantrcvmore := false, nofdref := true
    up := [], ahead := 0 }

theorem start_listening : Start listening :=
  ⟨.inl rfl, rfl, rfl, rfl, rfl, rfl, rfl⟩

theorem five_lt_sixteen : 5 < 16 := by decide

def segment (seq : Seq) (syn ack : Bool) : Segment :=
  ⟨⟨seq, ⟨false, syn, false, false, ack, false⟩, 0, []⟩, ⟨5, five_lt_sixteen⟩, by simp⟩

def syn : Event := .input inputEnv (segment 100 true false)
def ack : Event := .input inputEnv (segment 101 false true)
def output : Event := .output ⟨false, true⟩

def afterSyn : Tcpcb := (exec listening syn).tp
def promised : Tcpcb := (exec afterSyn output).tp
def accepted : Tcpcb := (exec (exec promised ack).tp (.accept 1024)).tp

theorem reachable_accepted : Reachable Start Step accepted :=
  ((((Reachable.start start_listening).next (e := syn) rfl).next (e := output) rfl).next
    (e := ack) rfl).next (e := .accept 1024) rfl

end Small

end Tcp
end Svr4
