import Mathlib.Tactic.Ring

/-!
# Round-trip timing

The part of `netinet/tcp_subr.c`, `netinet/tcp_input.c`,
`netinet/tcp_output.c` and `netinet/tcp_timer.c` that times a segment, keeps
the smoothed round-trip time and its mean difference, and sets the retransmission
interval.  The fields are `short`; the arithmetic between them is done in
`int`, which it never leaves.
-/

namespace Svr4
namespace Tcp
variable {e : Event} {events : List Event}

namespace Rtt

/-!
## Constants and stores
-/

def prSlowhz : Int := 2
def tcptvSrttbase : Int := 0
def tcptvSrttdflt : Int := 3 * prSlowhz
def tcptvMin : Int := 1 * prSlowhz
def tcptvRexmtmax : Int := 64 * prSlowhz
def tcpMaxrxtshift : Int := 12

def tcpBackoff : List Int := [1, 2, 4, 8, 16, 32, 64, 64, 64, 64, 64, 64, 64]

def short (x : Int) : Int := (x + 32768) % 65536 - 32768

theorem short_of_fits {x : Int} (hlo : -32768 ≤ x) (hhi : x ≤ 32767) : short x = x := by
  unfold short
  omega

/-- `TCPT_RANGESET` on a `short`. -/
def rangeset (value tvmin tvmax : Int) : Int :=
  let tv := short value
  if tv < tvmin then tvmin else if tv > tvmax then tvmax else tv

theorem rangeset_bounds (value : Int) {tvmin tvmax : Int} (h : tvmin ≤ tvmax) :
    tvmin ≤ rangeset value tvmin tvmax ∧ rangeset value tvmin tvmax ≤ tvmax := by
  unfold rangeset
  dsimp only
  split
  · omega
  · split <;> omega

/-!
## The estimate

`t_srtt` is scaled by 8 and `t_rttvar` by 4.  The store is a parameter: with
`short` the definitions are those of the code, with `id` they compute the same
estimate in unbounded integers.
-/

structure Estimate where
  srtt : Int
  rttvar : Int
deriving DecidableEq

namespace Estimate

variable (store : Int → Int)

/-- No measurement yet: the unsmoothed time, and half of it for the variance. -/
def first (rtt : Int) : Estimate where
  srtt := store (rtt <<< (3 : Nat))
  rttvar := store (rtt <<< (1 : Nat))

/-- The smoothing of `tcp_uinput`. -/
def smooth (m : Estimate) (rtt : Int) : Estimate :=
  let delta := store (rtt - 1 - (m.srtt >>> (3 : Nat)))
  let srtt := store (m.srtt + delta)
  let srtt := if srtt ≤ 0 then 1 else srtt
  let delta := if delta < 0 then store (-delta) else delta
  let delta := store (delta - (m.rttvar >>> (2 : Nat)))
  let rttvar := store (m.rttvar + delta)
  { srtt := srtt, rttvar := if rttvar ≤ 0 then 1 else rttvar }

def sample (m : Estimate) (rtt : Int) : Estimate :=
  if m.srtt ≠ 0 then m.smooth store rtt else first store rtt

/-- Backed off so far that the estimate is bogus: the next measurement is taken as it
is, and until then the variance keeps the retransmission times. -/
def clobber (m : Estimate) : Estimate where
  srtt := 0
  rttvar := store (m.rttvar + (m.srtt >>> (2 : Nat)))

/-- The retransmission interval before it is backed off and bounded. -/
def rexmt (m : Estimate) : Int := ((m.srtt >>> (2 : Nat)) + m.rttvar) >>> (1 : Nat)

end Estimate

/-!
## The control block
-/

/-- The fields of `struct tcpcb` that the timing uses. -/
structure Tcpcb extends Estimate where
  rxtshift : Int
  rxtcur : Int
  rtt : Int
deriving DecidableEq

inductive Event where
  /-- `tcp_output` sends what it has not sent before. -/
  | send
  /-- `tcp_dotimers`, every slow timeout. -/
  | tick
  /-- `tcp_uinput`, with the timed sequence number acknowledged. -/
  | ack
  /-- `tcp_uinput` in `TCPS_SYN_SENT`, with the SYN acknowledged. -/
  | synAck
  /-- `tcp_uinput`, at the third duplicate acknowledgement. -/
  | dupAcks
  /-- `tcp_timers` on `TCPT_REXMT`. -/
  | rexmt
  /-- `tcp_setpersist`. -/
  | setpersist
  /-- `tcp_output` when it leaves or enters the persist state. -/
  | noPersist
deriving DecidableEq

namespace Tcpcb

/-- `tcp_newtcpcb`. -/
def new : Tcpcb where
  srtt := tcptvSrttbase
  rttvar := tcptvSrttdflt <<< (2 : Nat)
  rxtshift := 0
  rxtcur := rangeset (((tcptvSrttbase >>> (2 : Nat)) + (tcptvSrttdflt <<< (2 : Nat))) >>> (1 : Nat))
    tcptvMin tcptvRexmtmax
  rtt := 0

def setRxtcur (tp : Tcpcb) (value : Int) : Tcpcb :=
  { tp with rxtcur := rangeset value tcptvMin tcptvRexmtmax }

def ack (tp : Tcpcb) : Tcpcb :=
  if tp.rtt ≠ 0 then
    let m := tp.toEstimate.sample short tp.rtt
    { tp with toEstimate := m, rtt := 0, rxtshift := 0 }.setRxtcur m.rexmt
  else tp

def synAck (tp : Tcpcb) : Tcpcb :=
  if tp.rtt ≠ 0 then
    let m := Estimate.first short tp.rtt
    { tp with toEstimate := m, rtt := 0 }.setRxtcur m.rexmt
  else tp

/-- After the last retransmission the connection is dropped, and what it estimates is
not used again. -/
def rexmtTimeout (tp : Tcpcb) : Tcpcb :=
  let shift := short (tp.rxtshift + 1)
  if shift > tcpMaxrxtshift then { tp with rxtshift := tcpMaxrxtshift }
  else
    let rexmt := tp.toEstimate.rexmt * tcpBackoff.getD shift.toNat 0
    let tp := { tp with rxtshift := shift }.setRxtcur rexmt
    let m := if shift > tcpMaxrxtshift / 4 then tp.toEstimate.clobber short
      else tp.toEstimate
    { tp with toEstimate := m, rtt := 0 }

def send (tp : Tcpcb) : Tcpcb :=
  if tp.rtt = 0 then { tp with rtt := 1 } else tp

def tick (tp : Tcpcb) : Tcpcb :=
  if tp.rtt ≠ 0 then { tp with rtt := short (tp.rtt + 1) } else tp

def setpersist (tp : Tcpcb) : Tcpcb :=
  if tp.rxtshift < tcpMaxrxtshift then { tp with rxtshift := short (tp.rxtshift + 1) } else tp

def step (tp : Tcpcb) : Event → Tcpcb
  | .send => tp.send
  | .tick => tp.tick
  | .ack => tp.ack
  | .synAck => tp.synAck
  | .dupAcks => { tp with rtt := 0 }
  | .rexmt => tp.rexmtTimeout
  | .setpersist => tp.setpersist
  | .noPersist => { tp with rxtshift := 0 }

def measured (tp : Tcpcb) : Event → Option Int
  | .ack | .synAck => if tp.rtt ≠ 0 then some tp.rtt else none
  | _ => none

theorem measured_ack (tp : Tcpcb) : tp.measured .ack = if tp.rtt ≠ 0 then some tp.rtt else none :=
  rfl

theorem measured_synAck (tp : Tcpcb) :
    tp.measured .synAck = if tp.rtt ≠ 0 then some tp.rtt else none :=
  rfl

def clobbers (tp : Tcpcb) : Bool :=
  tcpMaxrxtshift / 4 < tp.rxtshift + 1 && tp.rxtshift + 1 ≤ tcpMaxrxtshift

def estimate (store : Int → Int) (tp : Tcpcb) (m : Estimate) : Event → Estimate
  | .ack => if tp.rtt ≠ 0 then m.sample store tp.rtt else m
  | .synAck => if tp.rtt ≠ 0 then Estimate.first store tp.rtt else m
  | .rexmt => if tp.clobbers then m.clobber store else m
  | _ => m

end Tcpcb

/-!
## Bounds

A measured time below 4096 fits its field when it is scaled.  The bounds kept are those
of estimates made of such times: the variance takes in at most one estimate that was
given up.
-/

def rttLimit : Int := 4096

namespace Estimate

variable {m : Estimate} {rtt : Int}

/-- An estimate that measurements below the limit can leave. -/
structure Kept (m : Estimate) : Prop where
  srtt_pos : 0 < m.srtt
  srtt_le : m.srtt ≤ 32760
  rttvar_pos : 0 < m.rttvar
  rttvar_le : m.rttvar ≤ 16380

/-- An estimate that was given up after that. -/
structure Clobbered (m : Estimate) : Prop where
  srtt_eq : m.srtt = 0
  rttvar_pos : 0 < m.rttvar
  rttvar_le : m.rttvar ≤ 24570

theorem first_kept (hpos : 0 < rtt) (hlt : rtt < rttLimit) : (first id rtt).Kept := by
  unfold first
  unfold rttLimit at hlt
  constructor <;> (simp only [Int.shiftLeft_eq, id]; omega)

theorem first_short (hpos : 0 < rtt) (hlt : rtt < rttLimit) : first short rtt = first id rtt := by
  unfold rttLimit at hlt
  simp only [first, Int.shiftLeft_eq, id]
  rw [short_of_fits (by omega) (by omega), short_of_fits (by omega) (by omega)]

theorem smooth_kept (h : m.Kept) (hpos : 0 < rtt) (hlt : rtt < rttLimit) :
    (m.smooth id rtt).Kept := by
  rcases h with ⟨hs, hsle, hv, hvle⟩
  unfold rttLimit at hlt
  unfold smooth
  simp only [id, Int.shiftRight_eq_div_pow]
  constructor <;> (dsimp only; split_ifs <;> omega)

/-- None of the values that smoothing stores is too large for its field. -/
theorem smooth_short (h : m.Kept) (hpos : 0 < rtt) (hlt : rtt < rttLimit) :
    m.smooth short rtt = m.smooth id rtt := by
  rcases h with ⟨hs, hsle, hv, hvle⟩
  unfold rttLimit at hlt
  have hdelta : short (rtt - 1 - (m.srtt >>> (3 : Nat))) = rtt - 1 - (m.srtt >>> (3 : Nat)) := by
    rw [Int.shiftRight_eq_div_pow]
    exact short_of_fits (by omega) (by omega)
  unfold smooth
  simp only [hdelta, id]
  generalize hd : rtt - 1 - (m.srtt >>> (3 : Nat)) = delta
  rw [Int.shiftRight_eq_div_pow] at hd
  have hsrtt : short (m.srtt + delta) = m.srtt + delta :=
    short_of_fits (by omega) (by omega)
  have hneg : short (-delta) = -delta := short_of_fits (by omega) (by omega)
  rw [hsrtt, hneg]
  generalize habs : (if delta < 0 then -delta else delta) = size
  have hvar : short (size - (m.rttvar >>> (2 : Nat))) = size - (m.rttvar >>> (2 : Nat)) := by
    rw [Int.shiftRight_eq_div_pow]
    exact short_of_fits (by omega) (by omega)
  have hsum : short (m.rttvar + (size - (m.rttvar >>> (2 : Nat)))) =
      m.rttvar + (size - (m.rttvar >>> (2 : Nat))) := by
    rw [Int.shiftRight_eq_div_pow]
    exact short_of_fits (by omega) (by omega)
  rw [hvar, hsum]

theorem clobber_kept (h : m.Kept) : (m.clobber id).Clobbered := by
  rcases h with ⟨hs, hsle, hv, hvle⟩
  unfold clobber
  constructor
  · rfl
  · rw [Int.shiftRight_eq_div_pow, id]
    dsimp only
    omega
  · rw [Int.shiftRight_eq_div_pow, id]
    dsimp only
    omega

theorem clobber_short (h : m.Kept) : m.clobber short = m.clobber id := by
  rcases h with ⟨hs, hsle, hv, hvle⟩
  unfold clobber
  rw [Int.shiftRight_eq_div_pow, short_of_fits (by omega) (by omega), id]

theorem clobber_of_srtt_zero {store : Int → Int} (hsrtt : m.srtt = 0)
    (hstore : store m.rttvar = m.rttvar) : m.clobber store = m := by
  rcases m with ⟨srtt, rttvar⟩
  have hz : srtt = 0 := hsrtt
  subst hz
  have hsum : rttvar + (0 : Int) >>> (2 : Nat) = rttvar := by
    rw [Int.shiftRight_eq_div_pow]
    omega
  unfold clobber
  rw [hsum, show store rttvar = rttvar from hstore]

end Estimate

/-!
## One event
-/

namespace Tcpcb

variable {tp : Tcpcb}

/-- The backoff of a connection that is not dropped has a place in its table. -/
def ShiftBounds (tp : Tcpcb) : Prop :=
  0 ≤ tp.rxtshift ∧ tp.rxtshift ≤ tcpMaxrxtshift

def CurBounds (tp : Tcpcb) : Prop :=
  tcptvMin ≤ tp.rxtcur ∧ tp.rxtcur ≤ tcptvRexmtmax

theorem setRxtcur_bounds (tp : Tcpcb) (value : Int) : (tp.setRxtcur value).CurBounds :=
  rangeset_bounds value (by decide)

theorem shift_succ (h : tp.ShiftBounds) : short (tp.rxtshift + 1) = tp.rxtshift + 1 := by
  rcases h with ⟨hlo, hhi⟩
  unfold tcpMaxrxtshift at hhi
  exact short_of_fits (by omega) (by omega)

theorem step_curBounds (h : tp.CurBounds) (e : Event) : (tp.step e).CurBounds := by
  cases e with
  | ack =>
    show tp.ack.CurBounds
    unfold ack
    split
    · exact setRxtcur_bounds _ _
    · exact h
  | synAck =>
    show tp.synAck.CurBounds
    unfold synAck
    split
    · exact setRxtcur_bounds _ _
    · exact h
  | rexmt =>
    show tp.rexmtTimeout.CurBounds
    unfold rexmtTimeout
    dsimp only
    split
    · exact h
    · exact setRxtcur_bounds { tp with rxtshift := short (tp.rxtshift + 1) } _
  | send =>
    show tp.send.CurBounds
    unfold send
    split <;> exact h
  | tick =>
    show tp.tick.CurBounds
    unfold tick
    split <;> exact h
  | setpersist =>
    show tp.setpersist.CurBounds
    unfold setpersist
    split <;> exact h
  | dupAcks => exact h
  | noPersist => exact h

theorem step_shiftBounds (h : tp.ShiftBounds) (e : Event) : (tp.step e).ShiftBounds := by
  have hsucc := shift_succ h
  have hzero : (0 : Int) ≤ 0 ∧ (0 : Int) ≤ tcpMaxrxtshift := by decide
  rcases h with ⟨hlo, hhi⟩
  cases e with
  | ack =>
    show tp.ack.ShiftBounds
    unfold ack
    split
    · exact hzero
    · exact ⟨hlo, hhi⟩
  | synAck =>
    show tp.synAck.ShiftBounds
    unfold synAck
    split <;> exact ⟨hlo, hhi⟩
  | rexmt =>
    show tp.rexmtTimeout.ShiftBounds
    unfold rexmtTimeout
    rw [hsucc]
    dsimp only
    split
    · exact ⟨hzero.2, le_refl _⟩
    · rename_i hle
      exact ⟨by show 0 ≤ tp.rxtshift + 1; omega, Int.not_lt.mp hle⟩
  | setpersist =>
    show tp.setpersist.ShiftBounds
    unfold setpersist
    rw [hsucc]
    split
    · exact ⟨by show 0 ≤ tp.rxtshift + 1; omega, by show tp.rxtshift + 1 ≤ _; omega⟩
    · exact ⟨hlo, hhi⟩
  | send =>
    show tp.send.ShiftBounds
    unfold send
    split <;> exact ⟨hlo, hhi⟩
  | tick =>
    show tp.tick.ShiftBounds
    unfold tick
    split <;> exact ⟨hlo, hhi⟩
  | dupAcks => exact ⟨hlo, hhi⟩
  | noPersist => exact hzero

theorem toEstimate_rexmtTimeout (h : tp.ShiftBounds) : tp.rexmtTimeout.toEstimate =
      if tp.clobbers then tp.toEstimate.clobber short else tp.toEstimate := by
  unfold rexmtTimeout clobbers
  rw [shift_succ h]
  by_cases hdrop : tp.rxtshift + 1 > tcpMaxrxtshift
  · have hno : ¬ tp.rxtshift + 1 ≤ tcpMaxrxtshift := Int.not_le.mpr hdrop
    simp [hdrop, hno]
  · have hle : tp.rxtshift + 1 ≤ tcpMaxrxtshift := Int.not_lt.mp hdrop
    by_cases hfar : tcpMaxrxtshift / 4 < tp.rxtshift + 1
    · simp [hdrop, hle, hfar, setRxtcur]
    · simp [hdrop, hfar, setRxtcur]

theorem toEstimate_step (h : tp.ShiftBounds) (e : Event) :
    (tp.step e).toEstimate = tp.estimate short tp.toEstimate e := by
  cases e with
  | ack =>
    show tp.ack.toEstimate = _
    unfold ack estimate
    split <;> rfl
  | synAck =>
    show tp.synAck.toEstimate = _
    unfold synAck estimate
    split <;> rfl
  | rexmt => exact toEstimate_rexmtTimeout h
  | send =>
    show tp.send.toEstimate = _
    unfold send
    split <;> rfl
  | tick =>
    show tp.tick.toEstimate = _
    unfold tick
    split <;> rfl
  | setpersist =>
    show tp.setpersist.toEstimate = _
    unfold setpersist
    split <;> rfl
  | dupAcks => rfl
  | noPersist => rfl

end Tcpcb

/-!
## Runs

Beside the control block stand the same estimate kept in unbounded integers, and whether
there is a measurement that has not been given up.
-/

inductive Phase where
  | unmeasured | estimated | clobbered
deriving DecidableEq

def Phase.next (tp : Tcpcb) (p : Phase) : Event → Phase
  | .ack | .synAck => if tp.rtt ≠ 0 then estimated else p
  | .rexmt => if tp.clobbers ∧ p ≠ unmeasured then clobbered else p
  | _ => p

structure Run where
  tp : Tcpcb
  phase : Phase
  exact : Estimate

namespace Run

def start : Run where
  tp := Tcpcb.new
  phase := .unmeasured
  exact := Tcpcb.new.toEstimate

def next (r : Run) (e : Event) : Run where
  tp := r.tp.step e
  phase := r.phase.next r.tp e
  exact := r.tp.estimate id r.exact e

def after (r : Run) (events : List Event) : Run :=
  events.foldl next r

/-- Every time measured in the run is positive and below the limit. -/
def TimesBelow (limit : Int) (r : Run) : List Event → Prop
  | [] => True
  | e :: events =>
    (∀ rtt ∈ r.tp.measured e, 0 < rtt ∧ rtt < limit) ∧ TimesBelow limit (r.next e) events

instance decidableTimesBelow (limit : Int) :
    ∀ (r : Run) (events : List Event), Decidable (r.TimesBelow limit events)
  | _, [] => .isTrue trivial
  | r, e :: events =>
    have := decidableTimesBelow limit (r.next e) events
    inferInstanceAs (Decidable (_ ∧ TimesBelow limit (r.next e) events))

theorem after_cons (r : Run) (e : Event) (events : List Event) :
    r.after (e :: events) = (r.next e).after events :=
  rfl

/-- What holds at every point of a run whose times are below the limit. -/
structure Sane (r : Run) : Prop where
  shift : r.tp.ShiftBounds
  exact_eq : r.tp.toEstimate = r.exact
  kept : r.phase = .estimated → r.exact.Kept
  clobbered : r.phase ≠ .estimated → r.exact.Clobbered

variable {r : Run} {rtt : Int}

theorem start_sane : start.Sane where
  shift := ⟨by decide, by decide⟩
  exact_eq := rfl
  kept := fun h => Phase.noConfusion h
  clobbered := fun _ => ⟨by decide, by decide, by decide⟩

namespace Sane

section

variable (h : r.Sane)
include h

theorem rttvar_fits : short r.exact.rttvar = r.exact.rttvar := by
  by_cases hp : r.phase = .estimated
  · have hkept := h.kept hp
    have hle := hkept.rttvar_le
    exact short_of_fits (by have := hkept.rttvar_pos; omega) (by omega)
  · have hclobbered := h.clobbered hp
    have hle := hclobbered.rttvar_le
    exact short_of_fits (by have := hclobbered.rttvar_pos; omega) (by omega)

theorem sample (hpos : 0 < rtt) (hlt : rtt < rttLimit) :
    r.exact.sample short rtt = r.exact.sample id rtt ∧ (r.exact.sample id rtt).Kept := by
  unfold Estimate.sample
  by_cases hp : r.phase = .estimated
  · have hkept := h.kept hp
    have hne : r.exact.srtt ≠ 0 := Int.ne_of_gt hkept.srtt_pos
    rw [if_pos hne, if_pos hne]
    exact ⟨Estimate.smooth_short hkept hpos hlt, Estimate.smooth_kept hkept hpos hlt⟩
  · have hz := (h.clobbered hp).srtt_eq
    rw [if_neg (not_not_intro hz), if_neg (not_not_intro hz)]
    exact ⟨Estimate.first_short hpos hlt, Estimate.first_kept hpos hlt⟩

theorem clobber :
    r.exact.clobber short = r.exact.clobber id ∧ (r.exact.clobber id).Clobbered := by
  by_cases hp : r.phase = .estimated
  · exact ⟨Estimate.clobber_short (h.kept hp), Estimate.clobber_kept (h.kept hp)⟩
  · have hclobbered := h.clobbered hp
    have hz := hclobbered.srtt_eq
    rw [Estimate.clobber_of_srtt_zero hz h.rttvar_fits, Estimate.clobber_of_srtt_zero hz rfl]
    exact ⟨rfl, hclobbered⟩

theorem measure (hm : r.tp.measured e = some rtt) (hpos : 0 < rtt)
    (hlt : rtt < rttLimit) :
    (r.next e).phase = .estimated ∧ r.tp.estimate short r.exact e = r.tp.estimate id r.exact e ∧
      (r.next e).exact.Kept := by
  have hsample := h.sample hpos hlt
  cases e with
  | ack =>
    rw [Tcpcb.measured_ack] at hm
    split at hm
    · rename_i hne
      cases hm
      simpa [next, Phase.next, Tcpcb.estimate, hne] using hsample
    · cases hm
  | synAck =>
    rw [Tcpcb.measured_synAck] at hm
    split at hm
    · rename_i hne
      cases hm
      simpa [next, Phase.next, Tcpcb.estimate, hne] using
        And.intro (Estimate.first_short hpos hlt) (Estimate.first_kept hpos hlt)
    · cases hm
  | send => cases hm
  | tick => cases hm
  | dupAcks => cases hm
  | rexmt => cases hm
  | setpersist => cases hm
  | noPersist => cases hm

theorem pass (hm : r.tp.measured e = none) :
    r.tp.estimate short r.exact e = r.tp.estimate id r.exact e ∧
      ((r.next e).phase = .estimated → (r.next e).exact.Kept) ∧
      ((r.next e).phase ≠ .estimated → (r.next e).exact.Clobbered) := by
  have hkeep : r.tp.estimate short r.exact .send = r.tp.estimate id r.exact .send ∧
      (r.phase = .estimated → r.exact.Kept) ∧ (r.phase ≠ .estimated → r.exact.Clobbered) :=
    ⟨rfl, h.kept, h.clobbered⟩
  cases e with
  | ack =>
    rw [Tcpcb.measured_ack] at hm
    split at hm
    · cases hm
    · rename_i hz
      simpa [next, Phase.next, Tcpcb.estimate, hz] using hkeep
  | synAck =>
    rw [Tcpcb.measured_synAck] at hm
    split at hm
    · cases hm
    · rename_i hz
      simpa [next, Phase.next, Tcpcb.estimate, hz] using hkeep
  | rexmt =>
    by_cases hc : r.tp.clobbers = true
    · have hclobber := h.clobber
      by_cases hp : r.phase = .unmeasured
      · simpa [next, Phase.next, Tcpcb.estimate, hc, hp] using hclobber
      · simpa [next, Phase.next, Tcpcb.estimate, hc, hp] using hclobber
    · simpa [next, Phase.next, Tcpcb.estimate, hc] using hkeep
  | send => exact hkeep
  | tick => exact hkeep
  | dupAcks => exact hkeep
  | setpersist => exact hkeep
  | noPersist => exact hkeep

theorem next (htimes : ∀ rtt, r.tp.measured e = some rtt → 0 < rtt ∧ rtt < rttLimit) :
    (r.next e).Sane := by
  have hshift := Tcpcb.step_shiftBounds h.shift e
  have hestimate : (r.next e).tp.toEstimate = r.tp.estimate short r.exact e := by
    rw [← h.exact_eq]
    exact Tcpcb.toEstimate_step h.shift e
  cases hm : r.tp.measured e with
  | none =>
    rcases h.pass hm with ⟨heq, hkept, hclobbered⟩
    exact ⟨hshift, hestimate.trans heq, hkept, hclobbered⟩
  | some rtt =>
    rcases htimes rtt hm with ⟨hpos, hlt⟩
    rcases h.measure hm hpos hlt with ⟨hphase, heq, hkept⟩
    exact ⟨hshift, hestimate.trans heq, fun _ => hkept, fun hp => (hp hphase).elim⟩

theorem after (htimes : r.TimesBelow rttLimit events) : (r.after events).Sane := by
  induction events generalizing r with
  | nil => exact h
  | cons e events ih =>
    rcases htimes with ⟨hfirst, hrest⟩
    exact ih (h.next hfirst) hrest

end

end Sane

theorem after_curBounds (h : r.tp.CurBounds) : (r.after events).tp.CurBounds := by
  induction events generalizing r with
  | nil => exact h
  | cons e events ih =>
    exact ih (Tcpcb.step_curBounds h e)

theorem start_curBounds : start.tp.CurBounds :=
  Tcpcb.setRxtcur_bounds Tcpcb.new _

/-- The retransmission interval is bounded in every run; where the times measured are
below the limit the variance stays positive after the first one, the smoothed time stays
positive until it is given up and is zero from then to the next, and both are what
unbounded integers give. -/
theorem estimate_of_times_below (events : List Event) : (start.after events).tp.CurBounds ∧
      (start.TimesBelow rttLimit events → (start.after events).phase ≠ .unmeasured →
        (0 < (start.after events).tp.rttvar ∧ (start.after events).tp.rttvar ≤ 32767) ∧
        ((start.after events).phase = .estimated →
          0 < (start.after events).tp.srtt ∧ (start.after events).tp.srtt ≤ 32767) ∧
        ((start.after events).phase = .clobbered → (start.after events).tp.srtt = 0) ∧
        (start.after events).tp.toEstimate = (start.after events).exact) := by
  constructor
  · exact after_curBounds start_curBounds
  · intro htimes _
    have hsane : (start.after events).Sane := start_sane.after htimes
    generalize start.after events = r at hsane
    have hexact := hsane.exact_eq
    have hvar : 0 < r.exact.rttvar ∧ r.exact.rttvar ≤ 32767 := by
      by_cases hp : r.phase = .estimated
      · have hle := (hsane.kept hp).rttvar_le
        exact ⟨(hsane.kept hp).rttvar_pos, by omega⟩
      · have hle := (hsane.clobbered hp).rttvar_le
        exact ⟨(hsane.clobbered hp).rttvar_pos, by omega⟩
    rw [hexact]
    constructor
    · exact hvar
    · constructor
      · intro hp
        have hle := (hsane.kept hp).srtt_le
        exact ⟨(hsane.kept hp).srtt_pos, by omega⟩
      · constructor
        · intro hp
          exact (hsane.clobbered (by rw [hp]; exact Phase.noConfusion)).srtt_eq
        · rfl

theorem estimate_of_times_below_clobbered :
    (start.after [.send, .tick, .ack, .rexmt, .rexmt, .rexmt, .rexmt]).tp.CurBounds ∧
      0 < (start.after [.send, .tick, .ack, .rexmt, .rexmt, .rexmt, .rexmt]).tp.rttvar := by
  have h := estimate_of_times_below [.send, .tick, .ack, .rexmt, .rexmt, .rexmt, .rexmt]
  constructor
  · exact h.1
  · exact (h.2 (by decide) (by decide)).1.1

/-- Four timeouts after the first measurement leave no smoothed time. -/
theorem srtt_not_always_positive :
    ¬ ∀ events : List Event, (start.after events).phase ≠ .unmeasured →
      (start.after events).tp.CurBounds ∧ 0 < (start.after events).tp.rttvar ∧
        0 < (start.after events).tp.srtt := by
  intro h
  have hzero := (h [.send, .tick, .ack, .rexmt, .rexmt, .rexmt, .rexmt] (by decide)).2.2
  exact absurd hzero (by decide)

end Run

end Rtt
end Tcp
end Svr4
