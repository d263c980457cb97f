import Svr4.Lib.Transition

/-!
# Reassembly of IP datagrams

The part of `ipintr` that receives fragments, and `ip_reass`,
`ip_freef`, `ip_slowtimo` and `ip_drain` of
`netinet/ip_input.c`.

A message is known by the number of the packet it came with.  Its blocks count
as one, with the bytes from the start of the IP header and a read pointer among
them.  The list of fragments of a datagram, threaded through `ipf_next`, is
a list.
-/

namespace Svr4
namespace Ip

/-!
## Structures
-/

def IP_DF : Nat := 0x4000
def IP_MF : Nat := 0x2000
def IPFRAGTTL : Nat := 60
def sizeofIp : Nat := 20

def short (x : Int) : Int := (x + 32768) % 65536 - 32768

def flag (x bit : Nat) : Bool := x / bit % 2 = 1

/-- What tells the fragments of one datagram from others. -/
structure Key where
  ipSrc : UInt32
  ipDst : UInt32
  ipId : UInt16
  ipP : UInt8
deriving DecidableEq

/-- A packet as it arrives, with the length and the offset field of its header. -/
structure Packet where
  key : Key
  ipHl : Fin 16
  ipLen : UInt16
  ipOff : UInt16
  data : List UInt8

structure Mblk where
  /-- the number of the packet -/
  id : Nat
  data : List UInt8
  bRptr : Nat

/-- `struct ipasfrag`, with the fields that are used. -/
structure Ipasfrag where
  ipHl : Fin 16
  ipfMff : Bool
  ipLen : Int
  ipOff : Int
  ipfMblk : Mblk

structure Ipq where
  key : Key
  ipqTtl : Nat
  ipqNext : List Ipasfrag

/-- A datagram that has been put together, with the messages it consists of. -/
structure Datagram where
  key : Key
  ipHl : Fin 16
  ipLen : Int
  msg : List Mblk

structure Reassembly where
  fp : Option Ipq
  up : Option Datagram
  freed : List Nat

namespace Packet

def hlen (P : Packet) : Nat := P.ipHl * 4

/-- `ip_len`, without the header. -/
def len (P : Packet) : Int := short (short P.ipLen.toNat - P.hlen)

def mff (P : Packet) : Bool := flag P.ipOff.toNat IP_MF

/-- `ip_off`, in bytes. -/
def off (P : Packet) : Int := short (P.ipOff.toNat * 8)

/-- The bytes of a packet that `ipintr` accepts, without those behind it. -/
def accepted (P : Packet) : Option (List UInt8) :=
  if P.hlen < sizeofIp then none
  else if P.data.length < P.hlen then none
  else if short P.ipLen.toNat < P.hlen then none
  else if P.data.length < P.ipLen.toNat then none
  else some (P.data.take P.ipLen.toNat)

end Packet

def Mblk.bytes (m : Mblk) : List UInt8 := m.data.drop m.bRptr

/-- `adjmsg` at the head of a message. -/
def adjmsg (m : Mblk) (i : Int) : Mblk :=
  if (m.bytes.length : Int) < i then m else { m with bRptr := m.bRptr + i.toNat }

/-!
## Reassembly
-/

namespace Ipasfrag

/-- A preceding fragment may provide some of the data already, but not all. -/
def trimHead (ip : Ipasfrag) : Option Ipasfrag → Option Ipasfrag
  | none => some ip
  | some qprev =>
    let i := qprev.ipOff + qprev.ipLen - ip.ipOff
    if 0 < i then
      if ip.ipLen ≤ i then none
      else some { ip with
        ipfMblk := adjmsg ip.ipfMblk i
        ipOff := short (ip.ipOff + i)
        ipLen := short (ip.ipLen - i) }
    else some ip

/-- Succeeding fragments are trimmed, or dequeued and their messages freed. -/
def trimNext (ip : Ipasfrag) : List Ipasfrag → List Ipasfrag × List Nat
  | [] => ([], [])
  | q :: rest =>
    if q.ipOff < ip.ipOff + ip.ipLen then
      let i := ip.ipOff + ip.ipLen - q.ipOff
      if i < q.ipLen then
        ({ q with
          ipLen := short (q.ipLen - i)
          ipOff := short (q.ipOff + i)
          ipfMblk := adjmsg q.ipfMblk i } :: rest, [])
      else
        let (rest, freed) := trimNext ip rest
        (rest, q.ipfMblk.id :: freed)
    else (q :: rest, [])

end Ipasfrag

/-- The check for complete reassembly: the end of the fragments. -/
def contiguous : Int → List Ipasfrag → Option Int
  | next, [] => some next
  | next, q :: rest =>
    if q.ipOff ≠ next then none else contiguous (next + q.ipLen) rest

namespace Ipq

def ids (fp : Ipq) : List Nat := fp.ipqNext.map fun q => q.ipfMblk.id

/-- The fragments as one datagram, with the header of the first. -/
def concatenate (fp : Ipq) (next : Int) : Option Datagram :=
  match fp.ipqNext with
  | [] => none
  | ip :: rest =>
    some { key := fp.key
           ipHl := ip.ipHl
           ipLen := short next
           msg := { ip.ipfMblk with bRptr := ip.ipfMblk.bRptr - ip.ipHl * 4 } ::
             rest.map Ipasfrag.ipfMblk }

/-- The end of `ip_reass`, with the new fragment in place. -/
def check (fp : Ipq) (freed : List Nat) : Reassembly :=
  match contiguous 0 fp.ipqNext, fp.ipqNext.getLast? with
  | some next, some qprev =>
    if qprev.ipfMff then ⟨some fp, none, freed⟩
    else ⟨none, fp.concatenate next, freed⟩
  | _, _ => ⟨some fp, none, freed⟩

end Ipq

/--
`ip_reass`, of a fragment `ip` with its data behind the header.
`avail` tells whether `kmem_alloc` succeeds.
-/
def ipReass (avail : Bool) (key : Key) (ip : Ipasfrag) (fp : Option Ipq) :
    Reassembly :=
  match fp with
  | none =>
    if avail then Ipq.check ⟨key, IPFRAGTTL, [ip]⟩ []
    else ⟨none, none, [ip.ipfMblk.id]⟩
  | some fp =>
    let front := fp.ipqNext.takeWhile fun q => q.ipOff ≤ ip.ipOff
    let back := fp.ipqNext.dropWhile fun q => q.ipOff ≤ ip.ipOff
    match ip.trimHead front.getLast? with
    | none => ⟨some fp, none, [ip.ipfMblk.id]⟩
    | some ip =>
      let (back, freed) := ip.trimNext back
      Ipq.check { fp with ipqNext := front ++ ip :: back } freed

/-!
## Reception
-/

structure Node where
  ipq : List Ipq
  /-- the packets that have arrived -/
  recvd : List Packet
  /-- the messages that have been freed -/
  freed : List Nat
  /-- the messages that have been passed up as they were -/
  whole : List Nat
  /-- the datagrams that `ip_reass` has returned -/
  up : List Datagram

namespace Node

def replace (key : Key) (fp : Option Ipq) : List Ipq → List Ipq
  | [] => []
  | q :: rest =>
    if q.key = key then fp.toList ++ rest else q :: replace key fp rest

/-- `ipintr`, for a packet that is for us. -/
def ipintr (s : Node) (avail : Bool) (P : Packet) : Node :=
  let id := s.recvd.length
  let s := { s with recvd := s.recvd ++ [P] }
  match P.accepted with
  | none => { s with freed := id :: s.freed }
  | some data =>
    let fp := s.ipq.find? fun q => q.key = P.key
    if P.mff ∨ P.off ≠ 0 then
      let r := ipReass avail P.key ⟨P.ipHl, P.mff, P.len, P.off, ⟨id, data, P.hlen⟩⟩ fp
      { s with
        ipq := if fp.isSome then replace P.key r.fp s.ipq else r.fp.toList ++ s.ipq
        freed := r.freed ++ s.freed
        up := r.up.toList ++ s.up }
    else if flag P.ipOff.toNat 0x8000 then
      -- Only the reserved bit is set: the fragments that wait are freed.
      { s with
        ipq := replace P.key none s.ipq
        freed := (fp.map Ipq.ids).getD [] ++ s.freed
        whole := id :: s.whole }
    else { s with whole := id :: s.whole }

/-- `ip_slowtimo`: the queues whose time is over are freed. -/
def ipSlowtimo (s : Node) : Node :=
  let ipq := s.ipq.map fun fp => { fp with ipqTtl := fp.ipqTtl - 1 }
  { s with
    ipq := ipq.filter fun fp => fp.ipqTtl ≠ 0
    freed := (ipq.filter fun fp => fp.ipqTtl = 0).flatMap Ipq.ids ++ s.freed }

def ipDrain (s : Node) : Node :=
  { s with ipq := [], freed := s.ipq.flatMap Ipq.ids ++ s.freed }

end Node

inductive Event where
  | ipintr (avail : Bool) (P : Packet)
  | ipSlowtimo
  | ipDrain

namespace Node

def exec (s : Node) : Event → Node
  | .ipintr avail P => s.ipintr avail P
  | .ipSlowtimo => s.ipSlowtimo
  | .ipDrain => s.ipDrain

def Start (s : Node) : Prop :=
  s.ipq = [] ∧ s.recvd = [] ∧ s.freed = [] ∧ s.whole = [] ∧ s.up = []

def Step (s : Node) (e : Event) (t : Node) : Prop := s.exec e = t

end Node

end Ip
end Svr4
