import Mathlib.Data.BitVec
import Mathlib.Tactic.Ring
import Svr4.Lib.Transition

/-!
# The receiving side of a TCP connection

The part of `netinet/tcp_input.c`, `netinet/tcp_output.c` and
`netinet/tcp_subr.c` that takes data in: the receive window, the trimming of
segments to it, the reassembly queue, the data that waits for the user, and the
windows that the segments sent carry.  Whether an acknowledgement is acceptable,
whether there is something to send and whether memory is to be had is left open.
-/

namespace Svr4
namespace Tcp

/-!
## Sequence numbers
-/

/-- `tcp_seq`. -/
abbrev Seq := BitVec 32

def seqLt (a b : Seq) : Bool := (a - b).msb
def seqGt (a b : Seq) : Bool := seqLt b a

/-- The numbers of `n` bytes of data. -/
def seqs (start : Seq) (n : Nat) : List Seq :=
  (List.range n).map fun k => start + BitVec.ofNat 32 k

/-!
## Structures
-/

inductive TcpState where
  | closed | listen | synSent | synReceived | established | closeWait
  | finWait1 | closing | lastAck | finWait2 | timeWait
deriving DecidableEq

namespace TcpState

def num : TcpState → Nat
  | closed => 0 | listen => 1 | synSent => 2 | synReceived => 3
  | established => 4 | closeWait => 5 | finWait1 => 6 | closing => 7
  | lastAck => 8 | finWait2 => 9 | timeWait => 10

def haveRcvdSyn (s : TcpState) : Bool := synReceived.num ≤ s.num

def haveRcvdFin : TcpState → Bool
  | closeWait | closing | lastAck | timeWait => true
  | _ => false

end TcpState

structure Flags where
  fin : Bool
  syn : Bool
  rst : Bool
  push : Bool
  ack : Bool
  urg : Bool
deriving DecidableEq

/-- `struct tcpiphdr` and the text behind it, which is `ti_len` long. -/
structure Tcpiphdr where
  tiSeq : Seq
  tiFlags : Flags
  tiUrp : Nat
  text : List UInt8
deriving DecidableEq

namespace Tcpiphdr

def tiLen (ti : Tcpiphdr) : Nat := ti.text.length

def seqEnd (ti : Tcpiphdr) : Seq := ti.tiSeq + BitVec.ofNat 32 ti.tiLen

end Tcpiphdr

/-- A segment as IP delivers it. -/
structure Segment where
  ti : Tcpiphdr
  tiOff : Fin 16
  fits : 4 * tiOff + ti.text.length < 65536

/--
`struct tcpcb` and what is used of the protocol control block and of the
user's read queue, of which only `q_hiwat` matters.  `up` is the data
given to the user.  `ahead`, which the code does not have, is how far
`rcv_nxt` is past `rcv_adv`.
-/
structure Tcpcb where
  tState : TcpState
  acknow : Bool
  delack : Bool
  tMaxseg : BitVec 16
  rcvWnd : BitVec 32
  rcvNxt : Seq
  rcvUp : Seq
  rcvAdv : Seq
  segNext : List Tcpiphdr
  tQfirst : List (List UInt8)
  tIqsize : BitVec 32
  tIqurp : Int
  inpQ : Option (BitVec 32)
  cantrcvmore : Bool
  nofdref : Bool
  up : List (List UInt8)
  ahead : Int

structure Env where
  canput : Nat → Bool
  headerize : Nat → Bool
  passoob : Nat → Bool

inductive Ack where
  | drop
  | dropwithreset
  | dropafterack
  | old
  | acked (ourfinisacked : Bool)
deriving DecidableEq

structure InputEnv extends Env where
  first : Env
  synack : Ack
  ack : Ack
  maxseg : BitVec 16
  nodelack : Bool

structure OutputEnv where
  sendside : Bool
  allocb : Bool

namespace Tcpcb

/-- `hiwat`: the size of the receive buffer. -/
def hiwat (tp : Tcpcb) : BitVec 32 := tp.inpQ.getD 4096

def advance (tp : Tcpcb) (n : Nat) : Tcpcb :=
  { tp with rcvNxt := tp.rcvNxt + BitVec.ofNat 32 n, ahead := tp.ahead + n }

/-!
## Giving data to the user
-/

def putnext (tp : Tcpcb) (bp : List UInt8) : Tcpcb := { tp with up := tp.up ++ [bp] }

/-- `tcp_enqdata`, for a message that is not empty. -/
def tcpEnqdata (tp : Tcpcb) (bp : List UInt8) (urp : Option Nat) : Tcpcb :=
  { tp with
    tQfirst := tp.tQfirst ++ [bp]
    tIqurp := match urp with
      | none => tp.tIqurp
      | some urp => tp.tIqsize.toInt + urp
    tIqsize := tp.tIqsize + BitVec.ofNat 32 bp.length }

/-- `sendup`, for a message that is not empty. -/
def sendup (env : Env) (turn : Nat) (tp : Tcpcb) (ti : Tcpiphdr) : Tcpcb :=
  if tp.tIqsize = 0 ∧ tp.inpQ.isSome ∧ env.canput turn then
    if ti.tiFlags.urg ∧ ti.tiUrp < ti.tiLen then
      if env.passoob turn then tp.putnext ti.text
      else tp.tcpEnqdata ti.text (some ti.tiUrp)
    else if env.headerize turn then tp.putnext ti.text
    else tp.tcpEnqdata ti.text none
  else tp.tcpEnqdata ti.text none

/-- The message at the head of the queue is taken off it. -/
def dequeue (tp : Tcpcb) (bp : List UInt8) (rest : List (List UInt8)) : Tcpcb :=
  { tp with
    tQfirst := rest
    tIqsize := tp.tIqsize - BitVec.ofNat 32 bp.length
    tIqurp := if 0 ≤ tp.tIqurp then tp.tIqurp - bp.length else tp.tIqurp }

/-- The loop of `tcp_deqdata`; a message with the urgent byte is passed up in parts. -/
def tcpDeqdata (env : Env) (turn : Nat) (tp : Tcpcb) : Tcpcb :=
  match hq : tp.tQfirst with
  | [] => tp
  | bp :: rest =>
    if env.canput turn then
      if hurp : 0 ≤ tp.tIqurp ∧ tp.tIqurp < bp.length then
        if env.passoob turn then
          tcpDeqdata env (turn + 1)
            { tp.putnext bp with
              tIqsize := tp.tIqsize - BitVec.ofNat 32 bp.length, tIqurp := -1 }
        else tp
      else if env.headerize turn then
        tcpDeqdata env (turn + 1) ((tp.dequeue bp rest).putnext bp)
      else tp
    else tp
termination_by (tp.tQfirst.length, if 0 ≤ tp.tIqurp then 1 else 0)
decreasing_by
  · simp [putnext, hurp.1]
    exact Prod.Lex.right _ (by decide)
  · apply Prod.Lex.left
    simp [putnext, dequeue, hq]

/-!
## Reassembly
-/

/-- The segment before may have some of the data already, or all of it. -/
def trimFront (qprev : Option Tcpiphdr) (ti : Tcpiphdr) : Option Tcpiphdr :=
  match qprev with
  | none => some ti
  | some qprev =>
    let i := (qprev.seqEnd - ti.tiSeq).toInt
    if 0 < i then
      if ti.tiLen ≤ i then none
      else some
        { tiSeq := ti.tiSeq + BitVec.ofInt 32 i
          text := ti.text.drop i.toNat
          tiFlags := { ti.tiFlags with
            urg := ti.tiFlags.urg && decide (i ≤ ti.tiUrp) }
          tiUrp := if ti.tiFlags.urg ∧ i ≤ ti.tiUrp then ti.tiUrp - i.toNat
            else ti.tiUrp }
    else some ti

/-- The segments after are trimmed, or dequeued where they are covered. -/
def trimRest (ti : Tcpiphdr) : List Tcpiphdr → List Tcpiphdr
  | [] => []
  | q :: rest =>
    let i := (ti.seqEnd - q.tiSeq).toInt
    if i ≤ 0 then q :: rest
    else if i < q.tiLen then
      { tiSeq := q.tiSeq + BitVec.ofInt 32 i
        text := q.text.drop i.toNat
        tiFlags := { q.tiFlags with urg := q.tiFlags.urg && decide (i ≤ q.tiUrp) }
        tiUrp := if q.tiFlags.urg ∧ i ≤ q.tiUrp then q.tiUrp - i.toNat
          else q.tiUrp } :: rest
    else trimRest ti rest

def presentOne (env : Env) (turn : Nat) (tp : Tcpcb) (ti : Tcpiphdr) : Tcpcb :=
  let tp := tp.advance ti.tiLen
  if tp.cantrcvmore then tp
  else if ti.text = [] then tp
  else sendup env turn tp ti

/-- The loop that presents data to the user, with the FIN of the last segment. -/
def presentLoop (env : Env) (turn : Nat) (tp : Tcpcb) (fin : Bool) :
    List Tcpiphdr → Tcpcb × Bool
  | [] => ({ tp with segNext := [] }, fin)
  | ti :: rest =>
    if ti.tiSeq = tp.rcvNxt then
      presentLoop env (turn + 1) (presentOne env turn tp ti) ti.tiFlags.fin rest
    else ({ tp with segNext := ti :: rest }, fin)

/-- `tcp_reass`, from `present` on. -/
def present (env : Env) (tp : Tcpcb) : Tcpcb × Bool :=
  if ¬ tp.tState.haveRcvdSyn then (tp, false)
  else match tp.segNext with
    | [] => (tp, false)
    | ti :: _ =>
      if ti.tiSeq ≠ tp.rcvNxt then (tp, false)
      else if tp.tState = .synReceived ∧ ti.text ≠ [] then (tp, false)
      else presentLoop env 0 tp false tp.segNext

def tcpReass (env : Env) (tp : Tcpcb) (ti : Tcpiphdr) : Tcpcb × Bool :=
  let before := tp.segNext.takeWhile fun q => !seqGt q.tiSeq ti.tiSeq
  let after := tp.segNext.dropWhile fun q => !seqGt q.tiSeq ti.tiSeq
  match trimFront before.getLast? ti with
  | none => (tp, false)
  | some ti => present env { tp with segNext := before ++ ti :: trimRest ti after }

/-- The macro `TCP_REASS`. -/
def tcpReassMacro (env : Env) (tp : Tcpcb) (ti : Tcpiphdr) (tiflags : Flags) :
    Tcpcb × Bool :=
  if ti.tiSeq = tp.rcvNxt ∧ tp.segNext = [] ∧ tp.tState = .established ∧
      ¬ tiflags.urg then
    let tp := tp.advance ti.tiLen
    if ti.text = [] then (tp, ti.tiFlags.fin)
    else if tp.tIqsize = 0 ∧ tp.inpQ.isSome ∧ env.canput 0 ∧ env.headerize 0 then
      (tp.putnext ti.text, ti.tiFlags.fin)
    else (tp.tcpEnqdata ti.text none, ti.tiFlags.fin)
  else tcpReass env tp ti

/-!
## Trimming a segment to the window
-/

/-- The receive window, which is not less than the advertised window. -/
def window (tp : Tcpcb) : BitVec 32 :=
  let win := (tp.hiwat - tp.tIqsize).toInt
  let win := if win < 0 then 0 else win
  let win := if win > tp.hiwat.toInt then tp.hiwat.toInt else win
  BitVec.ofInt 32 (max win (tp.rcvAdv - tp.rcvNxt).toInt)

end Tcpcb

/-- What is left of a segment in the checks, and the data dropped as lying outside the window. -/
structure Trim where
  ti : Tcpiphdr
  tiflags : Flags
  acknow : Bool
  goesOn : Bool
  outside : List Seq

namespace Trim

def dropafterack (r : Trim) : Trim :=
  { r with
    acknow := r.acknow || !r.tiflags.rst
    goesOn := false
    outside := r.outside ++ seqs r.ti.tiSeq r.ti.tiLen }

def skipSyn (r : Trim) : Trim :=
  { r with
    ti := { r.ti with
      tiSeq := r.ti.tiSeq + 1
      tiUrp := if 1 < r.ti.tiUrp then r.ti.tiUrp - 1 else r.ti.tiUrp }
    tiflags := { r.tiflags with
      syn := false, urg := r.tiflags.urg && decide (1 < r.ti.tiUrp) } }

def adjHead (r : Trim) (todrop : Nat) : Trim :=
  { r with
    ti := { r.ti with
      tiSeq := r.ti.tiSeq + BitVec.ofNat 32 todrop
      text := r.ti.text.drop todrop
      tiUrp := if todrop < r.ti.tiUrp then r.ti.tiUrp - todrop else 0 }
    tiflags := { r.tiflags with urg := r.tiflags.urg && decide (todrop < r.ti.tiUrp) }
    outside := r.outside ++ seqs r.ti.tiSeq todrop }

/-- The first `todrop` bytes have been received before. -/
def dropHead (r : Trim) (todrop : Int) : Trim :=
  if r.ti.tiLen < todrop ∨ todrop = r.ti.tiLen ∧ ¬ r.tiflags.fin then
    if r.tiflags.fin ∧ todrop = r.ti.tiLen + 1 then
      { r with tiflags := { r.tiflags with fin := false }, acknow := true }.adjHead r.ti.tiLen
    else r.dropafterack
  else r.adjHead todrop.toNat

def left (tp : Tcpcb) (r : Trim) : Trim :=
  let todrop := (tp.rcvNxt - r.ti.tiSeq).toInt
  if 0 < todrop then
    if r.tiflags.syn then r.skipSyn.dropHead (todrop - 1) else r.dropHead todrop
  else r

def adjTail (r : Trim) (todrop : Nat) : Trim :=
  { r with
    ti := { r.ti with text := r.ti.text.take (r.ti.tiLen - todrop) }
    tiflags := { r.tiflags with push := false, fin := false }
    outside := r.outside ++ seqs (r.ti.tiSeq + BitVec.ofNat 32 (r.ti.tiLen - todrop)) todrop }

def right (tp : Tcpcb) (r : Trim) : Trim :=
  let todrop := (r.ti.seqEnd - (tp.rcvNxt + tp.rcvWnd)).toInt
  if 0 < todrop then
    if r.ti.tiLen ≤ todrop then
      if tp.rcvWnd = 0 ∧ r.ti.tiSeq = tp.rcvNxt then
        { r with acknow := true }.adjTail todrop.toNat
      else r.dropafterack
    else r.adjTail todrop.toNat
  else r

end Trim

/-- What a step does: the window of the segment sent, if there is one, and the
data dropped as lying outside the receive window. -/
structure Outcome where
  tp : Tcpcb
  sent : Option (BitVec 16)
  outside : List Seq

namespace Tcpcb

/-!
## Input
-/

/-- `tcp_close`: the connection is gone. -/
def tcpClose (tp : Tcpcb) : Tcpcb :=
  { tp with tState := .closed, segNext := [], cantrcvmore := true }

def finState : TcpState → TcpState
  | .synReceived | .established => .closeWait
  | .finWait1 => .closing
  | .finWait2 => .timeWait
  | s => s

def rcvdFin (tp : Tcpcb) : Tcpcb :=
  if tp.tState.haveRcvdFin then { tp with tState := finState tp.tState }
  else { tp.advance 1 with
    cantrcvmore := true, acknow := true, tState := finState tp.tState }

/-- The receipt of data is to be acknowledged, now or later. -/
def delayAck (nodelack : Bool) (tp : Tcpcb) : Tcpcb :=
  { tp with delack := tp.delack || !nodelack, acknow := tp.acknow || nodelack }

def segmentText (env : InputEnv) (tp : Tcpcb) (ti : Tcpiphdr) (tiflags : Flags) :
    Tcpcb :=
  if (ti.text ≠ [] ∨ tiflags.fin) ∧ ¬ tp.tState.haveRcvdFin then
    let r := tcpReassMacro env.toEnv tp ti tiflags
    if r.2 then (r.1.delayAck env.nodelack).rcvdFin else r.1.delayAck env.nodelack
  else tp

/-- `tcp_uinput`, from `step6` on. -/
def step6 (env : InputEnv) (tp : Tcpcb) (ti : Tcpiphdr) (tiflags : Flags) : Tcpcb :=
  let urgent := tiflags.urg && decide (ti.tiUrp ≠ 0) && !tp.tState.haveRcvdFin
  let up := if urgent then ti.tiSeq + BitVec.ofNat 32 ti.tiUrp else tp.rcvNxt
  let ti := if urgent then { ti with tiUrp := ti.tiUrp - 1 } else ti
  segmentText env { tp with rcvUp := if seqGt up tp.rcvUp then up else tp.rcvUp } ti tiflags

/-- The state after an acceptable acknowledgement, and whether to go on. -/
def ackState (ourfinisacked : Bool) : TcpState → TcpState
  | .finWait1 => if ourfinisacked then .finWait2 else .finWait1
  | .closing => if ourfinisacked then .timeWait else .closing
  | s => s

/-- The processing of an acknowledgement, once the connection is established. -/
def ackProcessing (env : InputEnv) (tp : Tcpcb) (ti : Tcpiphdr) (tiflags : Flags) :
    Tcpcb :=
  match env.ack with
  | .drop => tp
  | .dropwithreset => tp
  | .dropafterack => { tp with acknow := true }
  | .old => step6 env tp ti tiflags
  | .acked ourfinisacked =>
    if tp.tState = .lastAck ∧ ourfinisacked then tp.tcpClose
    else if tp.tState = .timeWait then { tp with acknow := true }
    else step6 env { tp with tState := ackState ourfinisacked tp.tState } ti tiflags

/-- `tcp_uinput`, once the segment has been trimmed to the window. -/
def inWindow (env : InputEnv) (tp : Tcpcb) (ti : Tcpiphdr) (tiflags : Flags) : Tcpcb :=
  if tiflags.rst then tp.tcpClose
  else if tiflags.syn then tp.tcpClose
  else if ¬ tiflags.ack then tp
  else if tp.tState = .synReceived then
    if env.synack = .drop ∨ env.synack = .dropwithreset then tp
    else
      let tp := { tp with tState := .established, tMaxseg := env.maxseg }
      ackProcessing env (present env.first tp).1 ti tiflags
  else ackProcessing env tp ti tiflags

/-- A SYN, from `trimthenstep6` on. -/
def trimthenstep6 (env : InputEnv) (tp : Tcpcb) (ti : Tcpiphdr) (tiflags : Flags) :
    Outcome :=
  let ti := { ti with tiSeq := ti.tiSeq + 1 }
  let kept := min ti.tiLen tp.rcvWnd.toNat
  let tiflags := if tp.rcvWnd.toNat < ti.tiLen then { tiflags with fin := false }
    else tiflags
  let outside := seqs (ti.tiSeq + BitVec.ofNat 32 kept) (ti.tiLen - kept)
  ⟨step6 env { tp with rcvUp := ti.tiSeq } { ti with text := ti.text.take kept } tiflags,
    none, outside⟩

/-- `tcp_rcvseqinit`, where `seq` is the number of the SYN. -/
def tcpRcvseqinit (tp : Tcpcb) (seq : Seq) : Tcpcb :=
  { tp with rcvNxt := seq + 1, rcvAdv := seq + 1, ahead := 0 }

def beforeSyn (env : InputEnv) (tp : Tcpcb) (ti : Tcpiphdr) (tiflags : Flags) :
    Outcome :=
  if tp.tState = .listen then
    if tiflags.rst ∨ tiflags.ack ∨ ¬ tiflags.syn ∨ env.synack = .drop then
      ⟨tp, none, []⟩
    else trimthenstep6 env
      { tp.tcpRcvseqinit ti.tiSeq with acknow := true, tState := .synReceived } ti tiflags
  else if tiflags.ack ∧ env.synack = .dropwithreset then ⟨tp, none, []⟩
  else if tiflags.rst then
    ⟨if tiflags.ack then tp.tcpClose else tp, none, []⟩
  else if ¬ tiflags.syn then ⟨tp, none, []⟩
  else
    let tp := { tp.tcpRcvseqinit ti.tiSeq with acknow := true }
    if tiflags.ack then
      let tp := { tp with tState := .established, tMaxseg := env.maxseg }
      trimthenstep6 env (present env.first tp).1 ti tiflags
    else trimthenstep6 env { tp with tState := .synReceived } ti tiflags

def setWindow (tp : Tcpcb) : Tcpcb := { tp with rcvWnd := tp.window }

/-- A segment that has been trimmed at both ends. -/
def trimmed (env : InputEnv) (tp : Tcpcb) (r : Trim) : Outcome :=
  if r.goesOn then
    ⟨inWindow env { tp with acknow := r.acknow } r.ti r.tiflags, none, r.outside⟩
  else ⟨{ tp with acknow := r.acknow }, none, r.outside⟩

def trimmedLeft (env : InputEnv) (tp : Tcpcb) (r : Trim) : Outcome :=
  if ¬ r.goesOn then ⟨{ tp with acknow := r.acknow }, none, r.outside⟩
  else if tp.nofdref ∧ TcpState.closeWait.num < tp.tState.num ∧ r.ti.text ≠ [] then
    ⟨tp.tcpClose, none, r.outside⟩
  else trimmed env tp (r.right tp)

def afterSyn (env : InputEnv) (tp : Tcpcb) (ti : Tcpiphdr) : Outcome :=
  trimmedLeft env tp (Trim.left tp ⟨ti, ti.tiFlags, tp.acknow, true, []⟩)

/-- `tcp_uinput`, one segment; what is to be sent is sent by a later step. -/
def tcpUinput (env : InputEnv) (tp : Tcpcb) (seg : Segment) : Outcome :=
  let off := 4 * (seg.tiOff : Nat)
  -- ti_len is a short
  let len := (BitVec.ofNat 16 (off + seg.ti.tiLen)).toInt
  if off < 20 ∨ len < off then ⟨tp, none, []⟩
  else if tp.tState = .closed then ⟨tp, none, []⟩
  else if tp.tState.haveRcvdSyn then afterSyn env tp.setWindow seg.ti
  else beforeSyn env tp.setWindow seg.ti seg.ti.tiFlags

/-!
## Output
-/

/-- Whether the window has opened so far that a segment is sent to tell so. -/
def opened (tp : Tcpcb) (win : Int) : Bool :=
  let adv := (BitVec.ofInt 32 win - (tp.rcvAdv - tp.rcvNxt)).toInt
  0 < win ∧ (tp.tIqsize = 0 ∧ 2 * tp.tMaxseg.toNat ≤ adv ∨
    35 ≤ (BitVec.ofInt 32 (100 * adv) / tp.hiwat).toNat)

def IP_MAXPACKET : Int := 65535

/-- The window that `tcp_output` sends. -/
def outputWindow (tp : Tcpcb) (win : Int) : Int :=
  let win := if win < (tp.hiwat.toNat / 4 : Nat) ∧ win < tp.tMaxseg.toNat then 0 else win
  let promised := (tp.rcvAdv - tp.rcvNxt).toInt
  let win := if win < promised then promised else win
  if win > IP_MAXPACKET then IP_MAXPACKET else win

/-- `tcp_output`, one segment. -/
def tcpOutput (env : OutputEnv) (tp : Tcpcb) : Outcome :=
  let win := (tp.hiwat - tp.tIqsize).toInt
  let win := if win < 0 then 0 else win
  if (tp.acknow ∨ env.sendside ∨ tp.opened win) ∧ env.allocb then
    let win := tp.outputWindow win
    let tp := if 0 < win ∧ seqGt (tp.rcvNxt + BitVec.ofInt 32 win) tp.rcvAdv then
        { tp with rcvAdv := tp.rcvNxt + BitVec.ofInt 32 win, ahead := -win }
      else tp
    ⟨{ tp with acknow := false, delack := false }, some (BitVec.ofInt 16 win), []⟩
  else ⟨tp, none, []⟩

/-- `tcp_respond`, for a keep-alive probe or a reset. -/
def tcpRespond (tp : Tcpcb) : Outcome :=
  match tp.inpQ with
  | none => ⟨tp, some 0, []⟩
  | some hiwat =>
    if tp.cantrcvmore then ⟨tp, some 0, []⟩
    else
      let win := (hiwat - tp.tIqsize).toInt
      let promised := (tp.rcvAdv - tp.rcvNxt).toInt
      let win := if win < promised then promised else win
      ⟨tp, some (BitVec.ofInt 16 win), []⟩

/-!
## The user
-/

def tcpUsrclosed (tp : Tcpcb) : Tcpcb :=
  match tp.tState with
  | .closed | .listen | .synSent => tp.tcpClose
  | .synReceived | .established => { tp with tState := .finWait1 }
  | .closeWait => { tp with tState := .lastAck }
  | _ => tp

def tcpDisconnect (linger : Bool) (tp : Tcpcb) : Tcpcb :=
  if tp.tState.num < TcpState.established.num then tp.tcpClose
  else if linger then tp.tcpClose
  else tp.tcpUsrclosed

/-- `tcpclose`: the stream goes away. -/
def close (linger : Bool) (tp : Tcpcb) : Tcpcb :=
  { tp.tcpDisconnect linger with inpQ := none, nofdref := true, cantrcvmore := true }

/-- `T_CONN_RES`: the connection gets a stream. -/
def accept (qHiwat : BitVec 32) (tp : Tcpcb) : Tcpcb :=
  { tp with inpQ := some qHiwat, nofdref := false }

/-- The option `SO_RCVBUF`. -/
def rcvbuf (qHiwat : BitVec 32) (tp : Tcpcb) : Tcpcb :=
  { tp with inpQ := tp.inpQ.map fun _ => qHiwat }

end Tcpcb

/-!
## Runs
-/

inductive Event where
  | input (env : InputEnv) (seg : Segment)
  | output (env : OutputEnv)
  | respond
  | deqdata (env : Env)
  | accept (qHiwat : BitVec 32)
  | rcvbuf (qHiwat : BitVec 32)
  | usrclosed
  | disconnect (linger : Bool)
  | close (linger : Bool)

def exec (tp : Tcpcb) : Event → Outcome
  | .input env seg => tp.tcpUinput env seg
  | .output env => tp.tcpOutput env
  | .respond => tp.tcpRespond
  | .deqdata env => ⟨tp.tcpDeqdata env 0, none, []⟩
  | .accept qHiwat => ⟨tp.accept qHiwat, none, []⟩
  | .rcvbuf qHiwat => ⟨tp.rcvbuf qHiwat, none, []⟩
  | .usrclosed => ⟨tp.tcpUsrclosed, none, []⟩
  | .disconnect linger => ⟨tp.tcpDisconnect linger, none, []⟩
  | .close linger => ⟨tp.close linger, none, []⟩

/-- `tcp_newtcpcb`, once the connection waits for a SYN. -/
structure Start (tp : Tcpcb) : Prop where
  state : tp.tState = .listen ∨ tp.tState = .synSent
  advertised : tp.rcvAdv = tp.rcvNxt
  segments : tp.segNext = []
  queue : tp.tQfirst = []
  iqsize : tp.tIqsize = 0
  iqurp : tp.tIqurp = -1
  ahead : tp.ahead = 0

def Step (s : Tcpcb) (e : Event) (t : Tcpcb) : Prop := (exec s e).tp = t

end Tcp
end Svr4
