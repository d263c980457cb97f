import Svr4.Lib.ByteOrder
import Svr4.Lib.Loop
import Svr4.Tcp.Model
import Svr4.Tcp.Rtt

/-!
# The sending side of a TCP connection

What sets the segment size and what uses it: the options of a received segment,
`tcp_mss`, the congestion window, and `tcp_output` with its loop over the
segments it sends.  Addresses, checksums and the statistics are left out; whether
memory is to be had is answered turn by turn.
-/

namespace Svr4
namespace Tcp

open ByteOrder

/-!
## Constants and structures
-/

def tcpoptEol : UInt8 := 0
def tcpoptNop : UInt8 := 1
def tcpoptMaxseg : UInt8 := 2

def ipMss : Int := 576
def sizeofTcpiphdr : Int := 40
def tcpMss : Int := 512

def tcptvPersmin : Int := 5 * Rtt.prSlowhz
def tcptvPersmax : Int := 60 * Rtt.prSlowhz

def int32 (x : Int) : Int := (BitVec.ofInt 32 x).toInt

/-- What looking for a route comes to, and whether the other end is local. -/
structure Route where
  maxtu : Option Int
  isLocal : Bool

/-- The fields of `struct tcpcb` that sending uses, beside those of receiving and of
round-trip timing. -/
structure Sender extends Tcpcb where
  timing : Rtt.Tcpcb
  timerRexmt : Int
  timerPersist : Int
  force : Bool
  nodelay : Bool
  noopt : Bool
  sentfin : Bool
  sndUna : Seq
  sndNxt : Seq
  sndMax : Seq
  sndUp : Seq
  sndWnd : BitVec 32
  sndCwnd : BitVec 32
  sndSsthresh : BitVec 32
  maxSndwnd : BitVec 16
  tQsize : BitVec 32

/-- What a turn of the loop of `tcp_output` finds. -/
structure SendEnv where
  header : Bool
  dupblks : Bool
  route : Route
  again : Route
  options : Bool
  request : Bool

namespace Sender

/-- `tcp_newtcpcb`. -/
def new (inpQ : Option (BitVec 32)) : Sender where
  tState := .closed
  acknow := false
  delack := false
  tMaxseg := 65535#16
  rcvWnd := 0#32
  rcvNxt := 0#32
  rcvUp := 0#32
  rcvAdv := 0#32
  segNext := []
  tQfirst := []
  tIqsize := 0#32
  tIqurp := -1
  inpQ := inpQ
  cantrcvmore := false
  nofdref := false
  up := []
  ahead := 0
  timing := Rtt.Tcpcb.new
  timerRexmt := 0
  timerPersist := 0
  force := false
  nodelay := false
  noopt := false
  sentfin := false
  sndUna := 0#32
  sndNxt := 0#32
  sndMax := 0#32
  sndUp := 0#32
  sndWnd := 0#32
  sndCwnd := 65535#32
  sndSsthresh := 65535#32
  maxSndwnd := 0#16
  tQsize := 0#32

/-!
## The segment size
-/

/-- The size that fits the interface, a multiple of 1024 if it is larger. -/
def fitted (maxtu : Int) : Int :=
  let mss := int32 (maxtu - sizeofTcpiphdr)
  if mss > 1024 then mss / 1024 * 1024 else mss

/-- `tcp_mss`.  The comparison with `TCP_MSS` is one of unsigned numbers. -/
def mss (tp : Sender) (route : Route) : Sender × Int :=
  route.maxtu.elim (tp, tcpMss) fun maxtu =>
    let mss := fitted maxtu
    if route.isLocal then (tp, mss)
    else
      let mss := if ((BitVec.ofInt 32 mss).toNat : Int) < tcpMss then mss else tcpMss
      ({ tp with sndCwnd := BitVec.ofInt 32 mss }, mss)

/-- `t_maxseg = MIN(t_maxseg, tcp_mss(tp))`, where the macro asks again for what it
takes. -/
def limitMaxseg (tp : Sender) (route again : Route) : Sender :=
  let asked := tp.mss route
  if (tp.tMaxseg.toNat : Int) < asked.2 then asked.1
  else
    let asked := asked.1.mss again
    { asked.1 with tMaxseg := BitVec.ofInt 16 asked.2 }

/-!
## Options
-/

def ntohs (v : Nat) : Nat := v % 256 * 256 + v / 256

/-- The loop of `tcp_dooptions`, with the places it has read. -/
structure Walk where
  cp : Nat
  cnt : Int
  tp : Sender
  reads : List Nat

namespace Walk

def read (w : Walk) (i : Nat) : Walk := { w with reads := w.reads ++ [w.cp + i] }

def advance (w : Walk) (optlen : Nat) : Walk :=
  { w with cp := w.cp + optlen, cnt := w.cnt - optlen }

end Walk

/-- One turn: `mem` is the memory from where the option area begins, and
`routes` what `tcp_mss` finds when it is asked at an option. -/
def dooptionsBody (mem : Mem) (syn : Bool) (routes : Nat → Route × Route) (w : Walk) :
    Walk ⊕ Walk :=
  if 0 < w.cnt then
    let opt := mem w.cp
    let w := w.read 0
    if opt = tcpoptEol then .inr w
    else if opt = tcpoptNop then .inl (w.advance 1)
    else
      let optlen := (mem (w.cp + 1)).toNat
      let w := w.read 1
      if optlen = 0 then .inr w
      else if opt = tcpoptMaxseg ∧ optlen = 4 ∧ syn then
        let w := (w.read 2).read 3
        let value := ntohs (load mem .little 2 (w.cp + 2))
        let tp := { w.tp with tMaxseg := BitVec.ofNat 16 value }
        let tp := tp.limitMaxseg (routes w.cp).1 (routes w.cp).2
        .inl ({ w with tp := tp }.advance optlen)
      else .inl (w.advance optlen)
  else .inr w

/-- `tcp_dooptions` on an area of `cnt` bytes, for at most so many turns. -/
def dooptions (mem : Mem) (cnt : Nat) (syn : Bool) (routes : Nat → Route × Route)
    (turns : Nat) (tp : Sender) : Option Walk :=
  Loop.run (dooptionsBody mem syn routes) turns { cp := 0, cnt := cnt, tp := tp, reads := [] }

/-!
## The congestion window
-/

def udiv (x y : BitVec 32) : Option (BitVec 32) := if y = 0 then none else some (x / y)

def umin (x y : BitVec 32) : BitVec 32 := if x.ult y then x else y

def maxsegWide (tp : Sender) : BitVec 32 := tp.tMaxseg.setWidth 32

/-- The congestion window becomes one segment, and half the window the threshold. -/
def closeWindow (tp : Sender) : Option Sender :=
  (udiv (umin tp.sndWnd tp.sndCwnd / 2#32) tp.maxsegWide).map fun win =>
    let win := if win.ult 2#32 then 2#32 else win
    { tp with sndSsthresh := win * tp.maxsegWide, sndCwnd := tp.maxsegWide }

/-- When new data is acknowledged the window opens, by a segment or by a part of one. -/
def openWindow (tp : Sender) : Option Sender :=
  let incr := if tp.sndSsthresh.ult tp.sndCwnd then
      (udiv (tp.maxsegWide * tp.maxsegWide) tp.sndCwnd).map fun incr =>
        if (1#32).ult incr then incr else 1#32
    else some tp.maxsegWide
  incr.map fun incr =>
    let tmp := tp.sndCwnd + incr
    { tp with sndCwnd := if tmp.toInt < Tcpcb.IP_MAXPACKET then tmp
      else BitVec.ofInt 32 Tcpcb.IP_MAXPACKET }

/-- `tcp_quench`. -/
def quench (tp : Sender) : Sender := { tp with sndCwnd := tp.maxsegWide }

/-!
## Output
-/

/-- `tcp_outflags`, without `TH_ACK`. -/
def outflags (s : TcpState) : Flags where
  fin := s = .finWait1 ∨ s = .closing ∨ s = .lastAck
  syn := s = .synSent ∨ s = .synReceived
  rst := s = .closed
  push := false
  ack := s ≠ .listen ∧ s ≠ .synSent
  urg := false

/-- `tcp_setpersist`. -/
def setpersist (tp : Sender) : Sender :=
  let t := tp.timing.toEstimate.rexmt
  let value := t * Rtt.tcpBackoff.getD tp.timing.rxtshift.toNat 0
  { tp with
    timerPersist := Rtt.rangeset value tcptvPersmin tcptvPersmax
    timing := tp.timing.setpersist }

/-- How much of the queue may be sent: what is in it and in the window, behind what has
been sent. -/
def sendable (tp : Sender) (win : BitVec 32) : Int :=
  if tp.inpQ.isSome then (umin tp.tQsize win - (tp.sndNxt - tp.sndUna)).toInt else 0

/-- A window that is to be probed counts for one byte; else the persist state is left. -/
def forced (tp : Sender) (win : BitVec 32) : Sender × BitVec 32 :=
  if tp.force then
    if win = 0 then (tp, 1#32)
    else ({ tp with timerPersist := 0, timing := tp.timing.step .noPersist }, win)
  else (tp, win)

/-- The window shrank after it was sent into; if it closed, `snd_nxt` is pulled
back. -/
def shrunk (tp : Sender) (win : BitVec 32) : Sender :=
  if win = 0 then { tp with timerRexmt := 0, sndNxt := tp.sndUna } else tp

def worthSending (tp : Sender) (idle : Bool) (off : Seq) (len : Int) : Bool :=
  len ≠ 0 ∧ (len = tp.tMaxseg.toNat ∨
    ((idle ∨ tp.nodelay) ∧ tp.tQsize.toNat ≤ (BitVec.ofInt 32 len + off).toNat) ∨
    tp.force ∨ (tp.maxSndwnd.toNat / 2 : Nat) ≤ len ∨ seqLt tp.sndNxt tp.sndMax)

def sends (tp : Sender) (idle : Bool) (off : Seq) (flags : Flags) (len win : Int) : Bool :=
  (flags.fin ∧ (¬ tp.sentfin ∨ tp.sndNxt = tp.sndUna)) ∨ tp.acknow ∨ flags.syn ∨ flags.rst ∨
    seqGt tp.sndUp tp.sndUna ∨ tp.worthSending idle off len ∨ tp.toTcpcb.opened win

/-- There is nothing to send: perhaps the persist state is entered. -/
def nothing (tp : Sender) : Sender :=
  if tp.tQsize ≠ 0 ∧ tp.timerRexmt = 0 ∧ tp.timerPersist = 0 then
    { tp with timing := tp.timing.step .noPersist }.setpersist
  else tp

/-- A FIN that was the last thing sent is sent again under its number. -/
def refin (tp : Sender) (flags : Flags) : Sender :=
  if flags.fin ∧ tp.sentfin ∧ tp.sndNxt = tp.sndMax then { tp with sndNxt := tp.sndNxt - 1 }
  else tp

/-- Whether the initial options are sent, for which `tcp_mss` is asked; the macro
asks again for what it takes. -/
def initopt (tp : Sender) (flags : Flags) (route again : Route) : Sender × Bool :=
  if flags.syn ∧ ¬ tp.noopt then
    let half := tp.hiwat / 2#32
    let asked := tp.mss route
    -- recvspace is unsigned, and mss a short
    let asked := if half.ult (BitVec.ofInt 32 asked.2) then (asked.1, (half.toNat : Int))
      else asked.1.mss again
    (asked.1, ipMss - sizeofTcpiphdr < (BitVec.ofInt 16 asked.2).toNat)
  else (tp, false)

def behind (tp : Sender) (flags : Flags) (len : Int) : Seq :=
  let nxt := if flags.syn then tp.sndNxt + 1 else tp.sndNxt
  let nxt := if flags.fin then nxt + 1 else nxt
  nxt + BitVec.ofInt 32 len

def timed (tp : Sender) : Sender :=
  if seqGt tp.sndNxt tp.sndMax then { tp with sndMax := tp.sndNxt, timing := tp.timing.send }
  else tp

/-- The retransmission timer is set if it is not. -/
def setRexmt (tp : Sender) : Sender :=
  if tp.timerRexmt = 0 ∧ tp.sndNxt ≠ tp.sndUna then
    if tp.timerPersist ≠ 0 then
      { tp with
        timerRexmt := tp.timing.rxtcur
        timerPersist := 0
        timing := tp.timing.step .noPersist }
    else { tp with timerRexmt := tp.timing.rxtcur }
  else tp

/-- In the transmit state the numbers of the segment are used up; in the persist state
only `snd_max` is set. -/
def sent (tp : Sender) (flags : Flags) (len : Int) : Sender :=
  if ¬ tp.force ∨ tp.timerPersist = 0 then
    { tp with
      sndNxt := tp.behind flags len
      sentfin := tp.sentfin ∨ flags.fin }.timed.setRexmt
  else if seqGt (tp.sndNxt + BitVec.ofInt 32 len) tp.sndMax then
    { tp with sndMax := tp.sndNxt + BitVec.ofInt 32 len }
  else tp

/-- The window that the segment carries is remembered. -/
def advertised (tp : Sender) (win : Int) : Sender :=
  let win := tp.toTcpcb.outputWindow win
  let tp := if 0 < win ∧ seqGt (tp.rcvNxt + BitVec.ofInt 32 win) tp.rcvAdv then
      { tp with rcvAdv := tp.rcvNxt + BitVec.ofInt 32 win }
    else tp
  { tp with acknow := false, delack := false }

def urgent (tp : Sender) : Sender :=
  if seqGt tp.sndUp tp.sndNxt then tp else { tp with sndUp := tp.sndUna }

/-- From the label `send` on: nothing comes of it if there is no memory. -/
def transmit (env : SendEnv) (tp : Sender) (flags : Flags) (len win : Int) :
    Option Sender × Sender :=
  if ¬ env.header then (none, tp)
  else
    let len := if len ≠ 0 ∧ ¬ env.dupblks then 0 else len
    let tp := tp.refin flags
    let opt := tp.initopt flags env.route env.again
    let tp := opt.1
    if opt.2 ∧ ¬ env.options then (none, tp)
    else
      let tp := tp.urgent.sent flags len
      if ¬ env.request then (none, tp)
      else (some (tp.advertised win), tp)

/-- The flags of a segment: a FIN only behind all that is queued. -/
def segmentFlags (tp : Sender) (len : Int) : Flags :=
  let flags := outflags tp.tState
  if seqLt (tp.sndNxt + BitVec.ofInt 32 len) (tp.sndUna + tp.tQsize) then
    { flags with fin := false }
  else flags

/-- The rest of a turn, once it is known what there is to send. -/
def outputSegment (tp : Sender) (env : SendEnv) (idle : Bool) (off : Seq) (n : Nat)
    (len : Int) (sendalot : Bool) : (Nat × Sender) ⊕ Sender :=
  let flags := tp.segmentFlags len
  let win := (tp.hiwat - tp.tIqsize).toInt
  let win := if win < 0 then 0 else win
  if tp.sends idle off flags len win then
    let t := tp.transmit env flags len win
    t.1.elim (.inr t.2) fun tp =>
      if sendalot then .inl (n + 1, tp) else .inr { tp with force := false }
  else .inr tp.nothing

/-- A turn of `tcp_output`, from the label `again` on. -/
def outputBody (env : Nat → SendEnv) (idle : Bool) (s : Nat × Sender) :
    (Nat × Sender) ⊕ Sender :=
  let tp := s.2
  let off := tp.sndNxt - tp.sndUna
  let f := tp.forced (umin tp.sndWnd tp.sndCwnd)
  let len := f.1.sendable f.2
  let tp := if len < 0 then f.1.shrunk f.2 else f.1
  let len := if len < 0 then 0 else len
  if (tp.tMaxseg.toNat : Int) < len then
    tp.outputSegment (env s.1) idle off s.1 tp.tMaxseg.toNat true
  else tp.outputSegment (env s.1) idle off s.1 len false

/-- `tcp_output`, for at most so many turns. -/
def output (env : Nat → SendEnv) (turns : Nat) (tp : Sender) : Option Sender :=
  Loop.run (outputBody env (tp.sndMax = tp.sndUna)) turns (0, tp)

end Sender

/-!
## Runs
-/

inductive SendEvent where
  | options (area : List UInt8) (beyond : Mem) (syn : Bool) (routes : Nat → Route × Route)
  | established (route again : Route)
  | closeWindow
  | openWindow
  | quench
  | output (env : Nat → SendEnv)
  | other (t : Sender)

namespace Sender

/-- The memory that a walk over options sees: the area, and what lies beyond it. -/
def memory (area : List UInt8) (beyond : Mem) : Mem := fun i => area[i]?.getD (beyond i)

def New (s : Sender) : Prop := ∃ inpQ, s = new inpQ

def Step (s : Sender) (e : SendEvent) (t : Sender) : Prop :=
  match e with
  | .options area beyond syn routes => ∃ turns v,
      dooptions (memory area beyond) area.length syn routes turns s = some v ∧ v.tp = t
  | .established route again => s.limitMaxseg route again = t
  | .closeWindow => s.closeWindow = some t
  | .openWindow => s.openWindow = some t
  | .quench => s.quench = t
  | .output env => ∃ turns, s.output env turns = some t
  | .other u => u = t ∧ u.tMaxseg = s.tMaxseg

end Sender

end Tcp
end Svr4
