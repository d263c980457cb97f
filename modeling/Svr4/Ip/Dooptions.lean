import Svr4.Lib.ByteOrder
import Svr4.Lib.Loop

/-!
# The options of a received header

`ip_dooptions` of `netinet/ip_input.c`: the walk over the option area of a
header, which records routes and timestamps in it.  Memory is counted from the beginning
of the header.  Beside it the walk keeps whether all it has read and written was in
place.  What routing and the clock answer is left open; `save_rte` is what it reads.
-/

namespace Svr4
namespace Ip
namespace Dooptions

open ByteOrder

/-!
## Constants
-/

def ipoptEol : UInt8 := 0
def ipoptNop : UInt8 := 1
def ipoptRr : UInt8 := 7
def ipoptTs : UInt8 := 68
def ipoptLsrr : UInt8 := 131
def ipoptSsrr : UInt8 := 137

def ipoptOlen : Nat := 1
def ipoptOffset : Nat := 2
def ipoptMinoff : Nat := 4

def ipoptTsTsonly : Nat := 0
def ipoptTsTsandaddr : Nat := 1
def ipoptTsPrespec : Nat := 2

def icmpUnreach : Nat := 3
def icmpUnreachHost : Nat := 1
def icmpUnreachSrcfail : Nat := 5
def icmpParamprob : Nat := 12

def sizeofIp : Nat := 20
def sizeofIpSrcrt : Nat := 44

/-!
## Structures
-/

/-- `struct in_addr`, in the order of its bytes, or any other four of them. -/
structure InAddr where
  b0 : UInt8
  b1 : UInt8
  b2 : UInt8
  b3 : UInt8
deriving DecidableEq

def InAddr.byte (a : InAddr) : Nat → UInt8
  | 0 => a.b0
  | 1 => a.b1
  | 2 => a.b2
  | _ => a.b3

def addrAt (m : Mem) (place : Nat) : InAddr :=
  ⟨m place, m (place + 1), m (place + 2), m (place + 3)⟩

def ipDst (m : Mem) : InAddr := addrAt m 16

structure Env where
  provWithaddr : Nat → InAddr → Bool
  inOnnetof : Nat → InAddr → Bool
  ipRtaddr : Nat → InAddr → Option InAddr
  provInaddr : InAddr
  iptime : Nat → InAddr

structure Walk where
  mem : Mem
  cp : Nat
  cnt : Int
  stop : Nat
  inside : Bool

/-- The end of the walk or of an option, with the error sent with `icmp_error`, if any. -/
structure Done where
  walk : Walk
  error : Option (Nat × Nat)

namespace Walk

/-- The kind or the length of an option is read: it is in the area. -/
def head (w : Walk) (i : Nat) : Walk :=
  { w with inside := w.inside && decide (w.cp + i < w.stop) }

/-- A byte of an option is read or written: it is in the option, and that in the area. -/
def touch (w : Walk) (optlen place : Nat) : Walk :=
  { w with inside := w.inside &&
      decide (w.cp ≤ place ∧ place < w.cp + optlen ∧ w.cp + optlen ≤ w.stop) }

def touchWord (w : Walk) (optlen place : Nat) : Walk :=
  (w.touch optlen place).touch optlen (place + 3)

def set (w : Walk) (place : Nat) (v : UInt8) : Walk :=
  { w with mem := fun x => if x = place then v else w.mem x }

/-- `bcopy` of four bytes into an option. -/
def put (w : Walk) (optlen place : Nat) (a : InAddr) : Walk :=
  { w.touchWord optlen place with
    mem := fun x => if place ≤ x ∧ x < place + 4 then a.byte (x - place) else w.mem x }

def bump (w : Walk) (optlen : Nat) : Walk :=
  (w.touch optlen (w.cp + ipoptOffset)).set (w.cp + ipoptOffset) (w.mem (w.cp + ipoptOffset) + 4)

def advance (w : Walk) (optlen : Nat) : Walk :=
  { w with cp := w.cp + optlen, cnt := w.cnt - optlen }

def bad (w : Walk) (type code : Nat) : Done := ⟨w, some (type, code)⟩

def ok (w : Walk) : Done := ⟨w, none⟩

end Walk

/-!
## Routes
-/

/-- `optlen - sizeof(struct in_addr)`, which is unsigned. -/
def lessAddr (optlen : Nat) : Nat := (optlen + 4294967292) % 4294967296

namespace Walk

/-- `save_rte` reads the option that its length byte tells. -/
def saveRte (w : Walk) (optlen : Nat) : Walk :=
  let w := w.head ipoptOlen
  let olen := (w.mem (w.cp + ipoptOlen)).toNat
  if olen > sizeofIpSrcrt - 1 ∨ olen = 0 then w
  else (w.touch optlen w.cp).touch optlen (w.cp + (olen - 1))

def record (w : Walk) (optlen off : Nat) (a : InAddr) : Walk :=
  (w.put optlen (w.cp + off) a).bump optlen

/-- `IPOPT_LSRR` and `IPOPT_SSRR`.  The address that `ip_dst` is set to is
that which it has. -/
def sourceRoute (env : Env) (opt : UInt8) (optlen : Nat) (w : Walk) : Done :=
  let off := (w.mem (w.cp + ipoptOffset)).toNat
  let w := w.touch optlen (w.cp + ipoptOffset)
  if off < ipoptMinoff then w.bad icmpParamprob (w.cp + ipoptOffset)
  else if ¬ env.provWithaddr w.cp (ipDst w.mem) then
    if opt = ipoptSsrr then w.bad icmpUnreach icmpUnreachSrcfail else w.ok
  else
    let off := off - 1
    if off > lessAddr optlen then (w.saveRte optlen).ok
    else if opt = ipoptSsrr ∧ ¬ env.inOnnetof w.cp (ipDst w.mem) then
      w.bad icmpUnreach icmpUnreachHost
    else (env.ipRtaddr w.cp (ipDst w.mem)).elim (w.bad icmpUnreach icmpUnreachHost)
      fun prov => (w.record optlen off prov).ok

/-- `IPOPT_RR`. -/
def recordRoute (env : Env) (optlen : Nat) (w : Walk) : Done :=
  let off := (w.mem (w.cp + ipoptOffset)).toNat
  let w := w.touch optlen (w.cp + ipoptOffset)
  if off < ipoptMinoff then w.bad icmpParamprob (w.cp + ipoptOffset)
  else
    let off := off - 1
    if off > lessAddr optlen then w.ok
    else (env.ipRtaddr w.cp (ipDst w.mem)).elim (w.bad icmpUnreach icmpUnreachHost)
      fun prov => (w.record optlen off prov).ok

/-!
## Timestamps
-/

/-- The time is put where the pointer says, and the pointer goes on. -/
def stamp (env : Env) (optlen : Nat) (w : Walk) : Walk :=
  let w := w.touch optlen (w.cp + ipoptOffset)
  let iptPtr := (w.mem (w.cp + ipoptOffset)).toNat
  (w.put optlen (w.cp + iptPtr - 1) (env.iptime w.cp)).bump optlen

/-- `++ipt->ipt_oflw`: the high half of the fourth byte. -/
def overflow (optlen : Nat) (w : Walk) : Walk :=
  let b := (w.mem (w.cp + 3)).toNat
  (w.touch optlen (w.cp + 3)).set (w.cp + 3) (UInt8.ofNat (b % 16 + (b / 16 + 1) % 16 * 16))

/-- `IPOPT_TS`. -/
def timestamp (env : Env) (optlen : Nat) (w : Walk) : Done :=
  let iptLen := (w.mem (w.cp + ipoptOlen)).toNat
  let w := w.head ipoptOlen
  if iptLen < 5 then w.bad icmpParamprob w.cp
  else
    let iptPtr := (w.mem (w.cp + ipoptOffset)).toNat
    let w := w.touch optlen (w.cp + ipoptOffset)
    if iptPtr > lessAddr iptLen then
      let w := w.overflow optlen
      if (w.mem (w.cp + 3)).toNat / 16 = 0 then w.bad icmpParamprob w.cp else w.ok
    else
      let sin := w.cp + iptPtr - 1
      let iptFlg := (w.mem (w.cp + 3)).toNat % 16
      let w := w.touch optlen (w.cp + 3)
      if iptFlg = ipoptTsTsonly then (w.stamp env optlen).ok
      else if iptFlg = ipoptTsTsandaddr then
        if iptPtr + 8 > iptLen then w.bad icmpParamprob w.cp
        else (((w.put optlen sin env.provInaddr).bump optlen).stamp env optlen).ok
      else if iptFlg = ipoptTsPrespec then
        if iptPtr + 8 > iptLen then w.bad icmpParamprob w.cp
        else
          let addr := addrAt w.mem sin
          let w := w.touchWord optlen sin
          if ¬ env.provWithaddr w.cp addr then w.ok
          else ((w.bump optlen).stamp env optlen).ok
      else w.bad icmpParamprob w.cp

end Walk

/-!
## The walk
-/

namespace Walk

def option (env : Env) (opt : UInt8) (optlen : Nat) (w : Walk) : Done :=
  if opt = ipoptLsrr ∨ opt = ipoptSsrr then w.sourceRoute env opt optlen
  else if opt = ipoptRr then w.recordRoute env optlen
  else if opt = ipoptTs then w.timestamp env optlen
  else w.ok

def turn (env : Env) (w : Walk) : Walk ⊕ Done :=
  if 0 < w.cnt then
    let opt := w.mem w.cp
    let w := w.head 0
    if opt = ipoptEol then .inr w.ok
    else if opt = ipoptNop then .inl (w.advance 1)
    else
      let optlen := (w.mem (w.cp + ipoptOlen)).toNat
      let w := w.head ipoptOlen
      if optlen = 0 ∨ w.cnt < optlen then .inr (w.bad icmpParamprob (w.cp + ipoptOlen))
      else
        let d := w.option env opt optlen
        if d.error.isSome then .inr d else .inl (d.walk.advance optlen)
  else .inr w.ok

end Walk

/-- The length of the option area: `ip_hl` is in the first byte. -/
def areaLength (mem : Mem) : Int := ((mem 0).toNat % 16 * 4 : Nat) - (sizeofIp : Int)

def start (mem : Mem) : Walk where
  mem := mem
  cp := sizeofIp
  cnt := areaLength mem
  stop := sizeofIp + (areaLength mem).toNat
  inside := true

/-- `ip_dooptions`, for at most so many turns of its loop. -/
def dooptions (env : Env) (mem : Mem) (turns : Nat) : Option Done :=
  Loop.run (Walk.turn env) turns (start mem)

end Dooptions
end Ip
end Svr4
