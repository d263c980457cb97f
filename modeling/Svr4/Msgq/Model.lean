import Svr4.Rmap.Model

/-!
# Message queues

`msgsnd`, `msgrcv`, `msgctl` and `msgget` as steps of processes from
one place where the code may sleep to the next: a locked queue, a copy from or to user
space, and the four channels on which senders and receivers wait.
-/

namespace Svr4
namespace Msgq

open Function Rmap

/-!
## Data
-/

/-- `struct msginfo` -/
structure Config where
  msgmap : Nat
  msgmax : Nat
  msgmnb : Nat
  msgmni : Nat
  msgssz : Nat
  msgtql : Nat
  msgseg : Nat

/-- `struct msqid_ds`, with the flags of its mode, and its lock. -/
structure Queue where
  ipcAlloc : Bool
  msgRwait : Bool
  msgWwait : Bool
  seq : Nat
  msgFirst : Option Nat
  msgLast : Option Nat
  msgCbytes : Nat
  msgQnum : Nat
  msgQbytes : Nat
  msglock : Bool

/-- The queues, the headers with their free list, and the map and the bytes of the text
segments. -/
structure Kernel where
  msgque : Nat → Queue
  msgNext : Nat → Option Nat
  msgType : Nat → Int
  msgTs : Nat → Nat
  msgSpot : Nat → Int
  msgfp : Option Nat
  msgmap : RMap
  msg : Nat → Nat

inductive Chan where
  /-- `qp` -/
  | queue (q : Nat)
  /-- `&msgfp` -/
  | header
  /-- `msgmap` -/
  | map
  /-- `&qp->msg_qnum` -/
  | qnum (q : Nat)
deriving DecidableEq

def long (x : Int) : Int := x.bmod (2 ^ 32)

def short (x : Int) : Int := x.bmod (2 ^ 16)

def ushort (x : Nat) : Nat := x % 2 ^ 16

def INT16_MAX : Nat := 32767

def btoq (c : Config) (x : Nat) : Nat := (x + c.msgssz - 1) / c.msgssz

namespace Kernel

def amend (k : Kernel) (q : Nat) (f : Queue → Queue) : Kernel :=
  { k with msgque := update k.msgque q (f (k.msgque q)) }

def setNext (k : Kernel) (mp : Nat) (next : Option Nat) : Kernel :=
  { k with msgNext := update k.msgNext mp next }

def unlock (k : Kernel) (q : Nat) : Kernel :=
  k.amend q fun qp => { qp with msglock := false }

def text (k : Kernel) (off n : Nat) : List Nat := (List.range n).map fun i => k.msg (off + i)

def copyText (k : Kernel) (off : Nat) (bytes : List Nat) : Kernel :=
  { k with msg := fun a => if off ≤ a then (bytes[a - off]?).getD (k.msg a) else k.msg a }

def putHeader (k : Kernel) (mp : Nat) : Kernel × List Chan :=
  ({ k.setNext mp k.msgfp with msgfp := some mp }, if k.msgfp = none then [.header] else [])

/-- `rmfree` wakes those that wait for segments, if segments come into the map. -/
def freeText (k : Kernel) (size a : Nat) : Option (Kernel × List Chan) :=
  match rmfree k.msgmap size a with
  | none => none
  | some (map, lost) =>
    some ({ k with msgmap := map },
      if size ≠ 0 ∧ lost = false ∧ k.msgmap.mapwant ≠ 0 then [.map] else [])

/-- A message is unlinked from its queue; `pmp` is its predecessor. -/
def unlinkMsg (k : Kernel) (q : Nat) (pmp : Option Nat) (mp : Nat) : Kernel :=
  let k := match pmp with
    | none => k.amend q fun qp => { qp with msgFirst := k.msgNext mp }
    | some pmp => k.setNext pmp (k.msgNext mp)
  let k := if k.msgNext mp = none then k.amend q fun qp => { qp with msgLast := pmp } else k
  k.amend q fun qp => { qp with msgQnum := qp.msgQnum - 1 }

def msgfree (c : Config) (k : Kernel) (q : Nat) (pmp : Option Nat) (mp : Nat) :
    Option (Kernel × List Chan) :=
  let k := k.unlinkMsg q pmp mp
  let wakes : List Chan := if (k.msgque q).msgWwait then [.queue q] else []
  let k := k.amend q fun qp => { qp with msgWwait := false }
  match
    if k.msgTs mp ≠ 0 then k.freeText (btoq c (k.msgTs mp)) (k.msgSpot mp + 1).toNat
    else some (k, []) with
  | none => none
  | some (k, woken) =>
    let r := k.putHeader mp
    some (r.1, wakes ++ woken ++ r.2)

end Kernel

inductive Conv where
  /-- The queue is locked. -/
  | waits
  | invalid
  | found (q : Nat) (k : Kernel)

/-- `msgconv`: the queue of an identifier is locked. -/
def msgconv (c : Config) (k : Kernel) (id : Int) : Conv :=
  if id < 0 then .invalid
  else
    let q := id.toNat % c.msgmni
    if (k.msgque q).msglock then .waits
    else if (k.msgque q).ipcAlloc = false ∨ id.toNat / c.msgmni ≠ (k.msgque q).seq then .invalid
    else .found q (k.amend q fun qp => { qp with msglock := true })

/-!
## Calls
-/

/-- The arguments of `msgsnd`. -/
structure Snd where
  msqid : Int
  msgsz : Int
  nowait : Bool

/-- The arguments of `msgrcv`. -/
structure Rcv where
  msqid : Int
  msgsz : Int
  msgtyp : Int
  nowait : Bool
  noerror : Bool

inductive Cmd where
  | rmid
  | set
  | stat
deriving DecidableEq

/-- Where a process is. -/
inductive Pc where
  | idle
  | sndConv (a : Snd)
  /-- The type is copied in; the queue is locked. -/
  | sndType (a : Snd) (q : Nat)
  | getres (a : Snd) (q : Nat) (type : Int)
  /-- The text is copied in; the queue is locked. -/
  | sndText (a : Snd) (q : Nat) (type : Int) (mp spot : Nat)
  | waitQueue (a : Snd) (q : Nat) (type : Int)
  | waitHeader (a : Snd) (q : Nat) (type : Int)
  | waitMap (a : Snd) (q : Nat) (type : Int)
  /-- The sleep was interrupted: for space on the queue, or otherwise. -/
  | sndIntr (a : Snd) (q : Nat) (space : Bool)
  | rcvConv (a : Rcv)
  | findmsg (a : Rcv) (q : Nat)
  /-- The message is copied out; the queue is locked. -/
  | copyout (a : Rcv) (q : Nat) (smp : Nat) (spmp : Option Nat) (sz : Nat)
  | waitMsg (a : Rcv) (q : Nat)
  | ctlConv (id : Int) (cmd : Cmd)
  /-- The structure is copied in or out; the queue is locked. -/
  | ctlCopy (q : Nat) (cmd : Cmd)

inductive Action where
  | sent (q : Nat) (type : Int) (text : List Nat)
  | received (q : Nat) (msgtyp : Int) (msgsz : Nat) (type : Int) (text : List Nat)
  /-- There is no message of the type. -/
  | nomsg (q : Nat) (msgtyp : Int)
  | removed (q : Nat)

/-- A process that sleeps on a channel is to go on. -/
def Pc.wake (ch : Chan) : Pc → Pc
  | .waitQueue a q type => if ch = .queue q then .getres a q type else .waitQueue a q type
  | .waitHeader a q type => if ch = .header then .getres a q type else .waitHeader a q type
  | .waitMap a q type => if ch = .map then .getres a q type else .waitMap a q type
  | .waitMsg a q => if ch = .qnum q then .findmsg a q else .waitMsg a q
  | pc => pc

/-- `wakeprocs`, on some channels. -/
def Pc.wakes (chs : List Chan) (pc : Pc) : Pc := chs.foldl (fun pc ch => pc.wake ch) pc

/-- What a process does up to the next place where it may sleep. -/
structure Outcome where
  k : Kernel
  woken : List Chan
  pc : Pc
  acts : List Action

def Outcome.ends (k : Kernel) (q : Nat) : Outcome := ⟨k.unlock q, [], .idle, []⟩

/-!
## Sending
-/

def enqueue (k : Kernel) (q : Nat) (type : Int) (cnt mp : Nat) (spot : Int) (text : List Nat) :
    Outcome :=
  let k := k.amend q fun qp =>
    { qp with msgQnum := qp.msgQnum + 1, msgCbytes := qp.msgCbytes + cnt }
  let k := { k.setNext mp none with
    msgType := update k.msgType mp type
    msgTs := update k.msgTs mp (ushort cnt)
    msgSpot := update k.msgSpot mp (short spot) }
  let k := match (k.msgque q).msgLast with
    | none => k.amend q fun qp => { qp with msgFirst := some mp, msgLast := some mp }
    | some last =>
      (k.setNext last (some mp)).amend q fun qp => { qp with msgLast := some mp }
  let woken : List Chan := if (k.msgque q).msgRwait then [.qnum q] else []
  let k := k.amend q fun qp => { qp with msgRwait := false }
  ⟨k.unlock q, woken, .idle, [.sent q type text]⟩

/-- `msgsnd` from `getres` on, when the queue is locked. -/
def getres (c : Config) (k : Kernel) (a : Snd) (q : Nat) (type : Int) : Option Outcome :=
  let cnt := a.msgsz.toNat
  if cnt + (k.msgque q).msgCbytes > (k.msgque q).msgQbytes then
    if a.nowait then some (.ends k q)
    else
      let k := k.amend q fun qp => { qp with msgWwait := true }
      some ⟨k.unlock q, [], .waitQueue a q type, []⟩
  else
    match k.msgfp with
    | none =>
      if a.nowait then some (.ends k q)
      else some ⟨k.unlock q, [], .waitHeader a q type, []⟩
    | some mp =>
      let k := { k with msgfp := k.msgNext mp }
      if cnt = 0 then some (enqueue k q type 0 mp (-1) [])
      else
        match rmalloc k.msgmap (btoq c cnt) with
        | none => none
        | some (spot, map) =>
          if spot = 0 then
            let want := if a.nowait then map.mapwant else ulong (map.mapwant + 1)
            let k := { k with msgmap := { map with mapwant := want } }
            let r := k.putHeader mp
            some ⟨r.1.unlock q, r.2, if a.nowait then .idle else .waitMap a q type, []⟩
          else
            some ⟨{ k with msgmap := map }, [], .sndText a q type mp spot, []⟩

/-- The text has been copied in, or a part of it before a fault. -/
def sendText (c : Config) (k : Kernel) (a : Snd) (q : Nat) (type : Int) (mp spot : Nat)
    (text : List Nat) (fault : Bool) : Option Outcome :=
  let cnt := a.msgsz.toNat
  let k := k.copyText (c.msgssz * (spot - 1)) text
  if fault then
    match k.freeText (btoq c cnt) spot with
    | none => none
    | some (k, woken) =>
      let r := k.putHeader mp
      some ⟨r.1.unlock q, woken ++ r.2, .idle, []⟩
  else some (enqueue k q type cnt mp (spot - 1 : Nat) text)

/-!
## Receiving
-/

/-- The loop of `msgrcv` over the messages: the best message and its predecessor. -/
def scan (k : Kernel) (msgtyp : Int) :
    Nat → Option Nat → Option Nat → Option (Nat × Option Nat) → Option (Option (Nat × Option Nat))
  | 0, _, _, _ => none
  | fuel + 1, mp, pmp, best =>
    match mp with
    | none => some best
    | some m =>
      if msgtyp > 0 then
        if msgtyp ≠ k.msgType m then scan k msgtyp fuel (k.msgNext m) (some m) best
        else some (some (m, pmp))
      else if k.msgType m ≤ long (-msgtyp) then
        match best with
        | some (smp, _) =>
          if k.msgType smp ≤ k.msgType m then
            scan k msgtyp fuel (k.msgNext m) (some m) best
          else scan k msgtyp fuel (k.msgNext m) (some m) (some (m, pmp))
        | none => scan k msgtyp fuel (k.msgNext m) (some m) (some (m, pmp))
      else scan k msgtyp fuel (k.msgNext m) (some m) best

/-- The message that `msgrcv` takes. -/
def find (c : Config) (k : Kernel) (msgtyp : Int) (q : Nat) : Option (Option (Nat × Option Nat)) :=
  if msgtyp = 0 then some ((k.msgque q).msgFirst.map fun mp => (mp, none))
  else scan k msgtyp (c.msgtql + 1) (k.msgque q).msgFirst none none

/-- `msgrcv` from `findmsg` on, when the queue is locked. -/
def findmsg (c : Config) (k : Kernel) (a : Rcv) (q : Nat) : Option Outcome :=
  match find c k a.msgtyp q with
  | none => none
  | some (some (smp, spmp)) =>
    if a.msgsz.toNat < k.msgTs smp then
      if a.noerror then some ⟨k, [], .copyout a q smp spmp a.msgsz.toNat, []⟩
      else some (.ends k q)
    else some ⟨k, [], .copyout a q smp spmp (k.msgTs smp), []⟩
  | some none =>
    if a.nowait then some ⟨k.unlock q, [], .idle, [.nomsg q a.msgtyp]⟩
    else
      let k := k.amend q fun qp => { qp with msgRwait := true }
      some ⟨k.unlock q, [], .waitMsg a q, []⟩

def received (c : Config) (k : Kernel) (a : Rcv) (q smp : Nat) (spmp : Option Nat) (sz : Nat) :
    Option Outcome :=
  let text := k.text (c.msgssz * (k.msgSpot smp).toNat) sz
  let act := Action.received q a.msgtyp a.msgsz.toNat (k.msgType smp) text
  let k := k.amend q fun qp => { qp with msgCbytes := qp.msgCbytes - k.msgTs smp }
  match k.msgfree c q spmp smp with
  | none => none
  | some (k, woken) => some ⟨k.unlock q, woken, .idle, [act]⟩

/-!
## Control
-/

def removeLoop (c : Config) (q : Nat) : Nat → Kernel → List Chan → Option (Kernel × List Chan)
  | 0, _, _ => none
  | fuel + 1, k, woken =>
    match (k.msgque q).msgFirst with
    | none => some (k, woken)
    | some mp =>
      match k.msgfree c q none mp with
      | none => none
      | some r => removeLoop c q fuel r.1 (woken ++ r.2)

/-- `IPC_RMID` -/
def remove (c : Config) (k : Kernel) (id : Int) (q : Nat) : Option Outcome :=
  match removeLoop c q (c.msgtql + 1) k [] with
  | none => none
  | some (k, woken) =>
    let receivers : List Chan := if (k.msgque q).msgRwait then [.qnum q] else []
    let senders : List Chan := if (k.msgque q).msgWwait then [.queue q] else []
    let k := k.amend q fun qp =>
      { qp with
        msgCbytes := 0
        seq := if id.toNat + c.msgmni > INT16_MAX then 0 else qp.seq + 1
        ipcAlloc := false
        msgRwait := false
        msgWwait := false }
    some ⟨k.unlock q, woken ++ receivers ++ senders, .idle, [.removed q]⟩

/-!
## Steps
-/

inductive Copied where
  | fault (text : List Nat)
  | type (type : Int)
  | text (text : List Nat)
  /-- The new limit of `IPC_SET`, if it is permitted. -/
  | limit (qbytes : Option Nat)
  | out

inductive Event where
  /-- `msgget` makes a new queue. -/
  | msgget (q : Nat)
  | msgsnd (p : Nat) (a : Snd)
  | msgrcv (p : Nat) (a : Rcv)
  | msgctl (p : Nat) (id : Int) (cmd : Cmd)
  /-- A process goes on, with permission or without. -/
  | resume (p : Nat) (access : Bool)
  | copied (p : Nat) (r : Copied)
  /-- A signal; it may come when the process has just been woken. -/
  | signal (p : Nat) (woken : Option Bool)

structure World where
  k : Kernel
  procs : Nat → Pc
  log : List Action

namespace World

def goto (w : World) (p : Nat) (pc : Pc) : World :=
  { w with procs := update w.procs p pc }

def after (w : World) (p : Nat) (o : Outcome) : World where
  k := o.k
  procs := update (fun x => (w.procs x).wakes o.woken) p o.pc
  log := w.log ++ o.acts

/-- A process converts its identifier and goes on. -/
def conv (c : Config) (w : World) (p : Nat) (id : Int) (f : Nat → Kernel → Option Outcome) :
    Option World :=
  match msgconv c w.k id with
  | .waits => none
  | .invalid => some (w.goto p .idle)
  | .found q k => (f q k).map (w.after p)

/-- The identifier has to lead to the same queue as before. -/
def same (q : Nat) (f : Kernel → Option Outcome) (q1 : Nat) (k : Kernel) : Option Outcome :=
  if q1 ≠ q then some (.ends k q1) else f k

/-- A process goes on that is at no copy and asleep on none of the channels. -/
def resume (c : Config) (w : World) (p : Nat) (access : Bool) : Option World :=
  match w.procs p with
  | .sndConv a => w.conv c p a.msqid fun q k =>
    if access = false ∨ a.msgsz < 0 ∨ a.msgsz > c.msgmax then some (.ends k q)
    else some ⟨k, [], .sndType a q, []⟩
  | .getres a q type => w.conv c p a.msqid (same q fun k => Msgq.getres c k a q type)
  | .sndIntr a q space => w.conv c p a.msqid (same q fun k =>
    if space then
      let k := k.amend q fun qp => { qp with msgWwait := false }
      some ⟨k.unlock q, [.queue q], .idle, []⟩
    else some (.ends k q))
  | .rcvConv a => w.conv c p a.msqid fun q k =>
    if access = false ∨ a.msgsz < 0 then some (.ends k q)
    else some ⟨k.unlock q, [], .findmsg a q, []⟩
  | .findmsg a q => w.conv c p a.msqid (same q fun k => Msgq.findmsg c k a q)
  | .ctlConv id cmd => w.conv c p id fun q k =>
    if access = false then some (.ends k q)
    else if cmd = .rmid then remove c k id q
    else some ⟨k, [], .ctlCopy q cmd, []⟩
  | _ => none

def copied (c : Config) (w : World) (p : Nat) (r : Copied) : Option World :=
  match w.procs p, r with
  | .sndType _ q, .fault _ => some (w.after p (.ends w.k q))
  | .sndType a q, .type type =>
    if long type ≠ type then none
    else if type < 1 then some (w.after p (.ends w.k q))
    else some (w.after p ⟨w.k.unlock q, [], .getres a q type, []⟩)
  | .sndText a q type mp spot, .fault text =>
    if text.length ≤ a.msgsz.toNat then
      (sendText c w.k a q type mp spot text true).map (w.after p)
    else none
  | .sndText a q type mp spot, .text text =>
    if text.length = a.msgsz.toNat then
      (sendText c w.k a q type mp spot text false).map (w.after p)
    else none
  | .copyout _ q _ _ _, .fault _ => some (w.after p (.ends w.k q))
  | .copyout a q smp spmp sz, .out => (received c w.k a q smp spmp sz).map (w.after p)
  | .ctlCopy q .set, .limit none => some (w.after p (.ends w.k q))
  | .ctlCopy q .set, .limit (some qbytes) =>
    some (w.after p (.ends (w.k.amend q fun qp => { qp with msgQbytes := qbytes }) q))
  | .ctlCopy q .stat, .out => some (w.after p (.ends w.k q))
  | _, _ => none

/-- A signal ends a sleep on a channel, and a wait for a lock ends the call. -/
def signal (w : World) (p : Nat) (woken : Option Bool) : Option World :=
  match w.procs p, woken with
  | .waitQueue a q _, _ => some (w.goto p (.sndIntr a q true))
  | .waitHeader a q _, _ => some (w.goto p (.sndIntr a q false))
  | .waitMap a q _, _ => some (w.goto p (.sndIntr a q false))
  | .waitMsg _ _, _ => some (w.goto p .idle)
  | .getres a q _, some space => some (w.goto p (.sndIntr a q space))
  | .sndConv _, _ | .getres .., _ | .sndIntr .., _ | .rcvConv _, _ | .findmsg .., _
  | .ctlConv .., _ => some (w.goto p .idle)
  | _, _ => none

def call (w : World) (p : Nat) (pc : Pc) : Option World :=
  match w.procs p with
  | .idle => some (w.goto p pc)
  | _ => none

def exec (c : Config) (w : World) : Event → Option World
  | .msgget q =>
    if q < c.msgmni ∧ (w.k.msgque q).ipcAlloc = false then
      some { w with
        k := w.k.amend q fun qp =>
          { qp with
            ipcAlloc := true
            msgRwait := false
            msgWwait := false
            msgFirst := none
            msgLast := none
            msgQnum := 0
            msgQbytes := ushort c.msgmnb } }
    else none
  | .msgsnd p a => w.call p (.sndConv a)
  | .msgrcv p a =>
    if long a.msgtyp = a.msgtyp then w.call p (.rcvConv a) else none
  | .msgctl p id cmd => w.call p (.ctlConv id cmd)
  | .resume p access => w.resume c p access
  | .copied p r => w.copied c p r
  | .signal p woken => w.signal p woken

/-- `msginit` -/
def Start (c : Config) (w : World) : Prop :=
  (∀ q, (w.k.msgque q).ipcAlloc = false ∧ (w.k.msgque q).msgFirst = none ∧
    (w.k.msgque q).msgLast = none ∧ (w.k.msgque q).msgQnum = 0 ∧
    (w.k.msgque q).msgRwait = false ∧ (w.k.msgque q).msgWwait = false ∧
    (w.k.msgque q).msgCbytes = 0 ∧ (w.k.msgque q).msglock = false) ∧
  (∀ h, w.k.msgNext h = if h + 1 < c.msgtql then some (h + 1) else none) ∧
  w.k.msgfp = some 0 ∧
  (∃ lost, rmfree (mapinit (c.msgmap - 2)) c.msgseg 1 = some (w.k.msgmap, lost)) ∧
  (∀ p, w.procs p = .idle) ∧ w.log = []

def Step (c : Config) (w : World) (e : Event) (w' : World) : Prop := w.exec c e = some w'

end World

/-- The limits of the parameters, of which there is something of everything. -/
structure Config.Valid (c : Config) : Prop where
  msgmax : c.msgmax < 2 ^ 16
  msgseg : c.msgseg < 2 ^ 15
  msgmni : 0 < c.msgmni
  msgssz : 0 < c.msgssz
  msgtql : 0 < c.msgtql
  msgmap : c.msgmap < 2 ^ 32

end Msgq
end Svr4
