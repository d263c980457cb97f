import Mathlib.Tactic.Ring
import Svr4.Ip.Reception

/-!
# Fragmentation of IP datagrams

The part of `ip_output` of `netinet/ip_output.c` that sends a datagram
or its fragments, with `ip_optcopy`, `dup_range` and `padpckt`.

The checksum, the layout of the header in memory and the bytes that
`padpckt` adds are parameters.
-/

namespace Svr4
namespace Ip

def IPOPT_EOL : UInt8 := 0
def IPOPT_NOP : UInt8 := 1

def ipoptCopied (o : UInt8) : Bool := 128 ≤ o.toNat

def EMSGSIZE : Nat := 97
def ENOSR : Nat := 63

structure Env where
  /-- the first twenty bytes of a header, with its checksum -/
  header : Key → Fin 16 → UInt16 → UInt16 → Vector UInt8 20
  /-- the bytes behind a packet, as many as are wanted or fewer -/
  padding : List UInt8 → Int → List UInt8

/--
A datagram, or a fragment of one, that is to be sent, with its options and the
blocks of its payload.  The byte `beyond` is behind the options in memory.
-/
structure Outgoing where
  key : Key
  ipOff : UInt16
  options : List UInt8
  beyond : UInt8
  first : List UInt8
  rest : List (List UInt8)
  options_words : options.length % 4 = 0
  options_le : options.length ≤ 40
  total_le : 20 + options.length + (first ++ rest.flatten).length ≤ 65535
  end_le : ipOff.toNat % 8192 * 8 + (first ++ rest.flatten).length ≤ 65535

namespace Outgoing

def hlen (o : Outgoing) : Nat := sizeofIp + o.options.length

def payload (o : Outgoing) : List UInt8 := o.first ++ o.rest.flatten

def ipLen (o : Outgoing) : Int := short (o.hlen + o.payload.length : Nat)

theorem hlen_div_lt (o : Outgoing) : o.hlen / 4 < 16 := by
  have := o.options_le
  unfold hlen sizeofIp
  omega

def ipHl (o : Outgoing) : Fin 16 := ⟨o.hlen / 4, o.hlen_div_lt⟩

end Outgoing

/-!
## Options
-/

/--
The loop of `ip_optcopy`; `cp` are the options that are left and
`dp` those that have been copied.  There is no result where it never ends.
-/
def ipOptcopyLoop (all : Bool) (beyond : UInt8) :
    Nat → List UInt8 → List UInt8 → Option (List UInt8)
  | _, [], dp => some dp
  | 0, _ :: _, _ => none
  | fuel + 1, opt :: cp, dp =>
    if opt = IPOPT_EOL then some dp
    else
      let optlen := if opt = IPOPT_NOP then 1 else (cp.headD beyond).toNat
      let optlen := min optlen (opt :: cp).length
      ipOptcopyLoop all beyond fuel ((opt :: cp).drop optlen)
        (if all ∨ ipoptCopied opt then dp ++ (opt :: cp).take optlen else dp)

def eolPad (dp : List UInt8) : List UInt8 :=
  dp ++ List.replicate ((4 - dp.length % 4) % 4) IPOPT_EOL

/-- `ip_optcopy`: the options of a fragment at `off`. -/
def ipOptcopy (o : Outgoing) (off : Nat) : Option (List UInt8) :=
  (ipOptcopyLoop (off = 0) o.beyond o.options.length o.options []).map eolPad

/-!
## Data
-/

/-- The first loop of `dup_range`: the block with the byte at `off`. -/
def skipBlocks : Nat → List (List UInt8) → Option (Nat × List (List UInt8))
  | off, [] => if off = 0 then some (0, []) else none
  | off, bp :: rest =>
    if off = 0 then some (0, bp :: rest)
    else if off < bp.length then some (off, bp :: rest)
    else match rest with
      | [] => none
      | b :: rest => skipBlocks (off - bp.length) (b :: rest)

/-- The second loop of `dup_range`; running out of blocks is a panic. -/
def takeBlocks : Nat → Nat → List (List UInt8) → Option (List (List UInt8))
  | _, 0, _ => some []
  | _, _ + 1, [] => none
  | off, len + 1, bp :: rest =>
    let size := min (len + 1) (bp.length - off)
    (takeBlocks 0 (len + 1 - size) rest).map fun l => (bp.drop off).take size :: l

def dupRange (bp : List (List UInt8)) (off len : Nat) :
    Option (List (List UInt8)) := do
  let (off, bp) ← skipBlocks off bp
  takeBlocks off len bp

/-!
## Output
-/

/-- The offset field without `IP_MF`. -/
def withoutMf (x : Nat) : Nat := if flag x IP_MF then x - IP_MF else x

def withMf (x : Nat) : Nat := if flag x IP_MF then x else x + IP_MF

/-- A packet as it goes to the interface, after `padpckt`. -/
def Env.packet (env : Env) (key : Key) (hl : Fin 16) (len off : UInt16)
    (options data : List UInt8) (cnt : Int) : Packet :=
  let bytes := (env.header key hl len off).toList ++ options ++ data
  { key := key
    ipHl := hl
    ipLen := len
    ipOff := off
    data := if 0 < cnt then bytes ++ env.padding bytes cnt else bytes }

namespace Outgoing

/-- The options of the fragment at `off`. -/
def fragmentOptions (o : Outgoing) (off : Nat) : Option (List UInt8) :=
  if sizeofIp < o.hlen then ipOptcopy o off else some []

theorem neZero_sixteen : NeZero 16 := ⟨by decide⟩

/-- The header of the fragment at `off` and its data. -/
def fragment (env : Env) (o : Outgoing) (mintu : Int) (off len : Nat)
    (last : Bool) (options : List UInt8) (data : List UInt8) : Packet :=
  let fhlen := sizeofIp + options.length
  let ipOff := (off / 8 + withoutMf o.ipOff.toNat) % 65536
  let ipOff := if flag o.ipOff.toNat IP_MF ∨ ¬ last then withMf ipOff else ipOff
  let ipLen := UInt16.ofNat (len + fhlen)
  env.packet o.key (@Fin.ofNat 16 neZero_sixteen (fhlen / 4)) ipLen (UInt16.ofNat ipOff) options
    data (mintu - ipLen.toNat)

/-- The loop of `ip_output` from `off` on; there is no result where it never ends or the
system panics. -/
def loop (env : Env) (o : Outgoing) (mintu : Int) (len : Nat) :
    Nat → List Bool → Nat → Option (List Packet × Nat)
  | 0, _, off =>
    if (off : Int) < o.ipLen - o.hlen then none else some ([], 0)
  | fuel + 1, avail, off =>
    if (off : Int) < o.ipLen - o.hlen then
      match avail with
      | [] | false :: _ => some ([], ENOSR)
      | true :: avail => do
          let options ← o.fragmentOptions off
          let last : Bool := o.ipLen - o.hlen ≤ (off + len : Nat)
          let len := if last then (o.ipLen - o.hlen - off).toNat else len
          let data ← dupRange ((o.options ++ o.first) :: o.rest) off len
          let (sent, error) ← loop env o mintu len fuel avail (off + len)
          return (o.fragment env mintu off len last options data.flatten :: sent, error)
    else some ([], 0)

/--
`ip_output`, where the route has been found: the packets that are sent, and
the error.
-/
def ipOutput (env : Env) (o : Outgoing) (maxtu mintu : Int)
    (avail : List Bool) : Option (List Packet × Nat) :=
  if o.ipLen ≤ maxtu then
    some ([env.packet o.key o.ipHl (UInt16.ofNat (o.hlen + o.payload.length))
      o.ipOff o.options o.payload (mintu - o.ipLen)], 0)
  else if flag o.ipOff.toNat IP_DF then some ([], EMSGSIZE)
  else
    let len := maxtu - o.hlen - (maxtu - o.hlen) % 8
    if len < 8 then some ([], EMSGSIZE)
    else match avail with
      -- The first answer is that of `pullupmsg`.
      | [] | false :: _ => some ([], ENOSR)
      | true :: avail => o.loop env mintu len.toNat o.payload.length avail 0

end Outgoing

end Ip
end Svr4
