import Svr4.Ip.Pieces
import Svr4.Ip.Arrival

/-!
# Fragmentation and reassembly

What a receiver makes of the packets that `ip_output` sends.
-/

namespace Svr4
namespace Ip

open List

def Node.Received (key : Key) (payload : List UInt8) (s t : Node) : Prop :=
  Node.Delivered key payload s t ∨ ∃ P : Packet, P.key = key ∧ P.payload = payload ∧
      t.recvd = s.recvd ++ [P] ∧ t.whole = s.recvd.length :: s.whole ∧ t.up = s.up

variable {avail : List Bool}

namespace Outgoing

structure RoundTrip (o : Outgoing) (maxtu : Int) (frags : List Packet) :
    Prop where
  header : ∀ P ∈ frags, P.key = o.key ∧ P.accepted.isSome
  fits : ∀ P ∈ frags, (P.ipLen.toNat : Int) ≤ maxtu
  words : ∀ P ∈ frags.dropLast, P.payload.length % 8 = 0
  tiles : Tiles o.start frags
  payload : carriedBytes frags = o.payload
  more : ∀ P ∈ frags.dropLast, P.mff = true
  last : ∀ P, frags.getLast? = some P → P.mff = o.mff
  first : ∀ P, frags.head? = some P → ∀ l, Options o.beyond o.options l → l.flatten <+: P.options
  others : ∀ P ∈ frags.tail, ∃ l, Options o.beyond o.options l ∧
    P.options = eolPad (carried false l)
  reassembly : o.start = 0 → o.mff = false → ∀ s : Node,
    s.ipq.find? (fun q => q.key = o.key) = none →
    ∀ l : List Packet, l.Perm frags →
      Node.Received o.key o.payload s (l.foldl (fun u P => u.ipintr true P) s)

variable {env : Env} {o : Outgoing} {maxtu mintu : Int} {len off : Nat}
  {opts : List (List UInt8)} {frags : List Packet}

/-!
## Pieces
-/

def PieceAt (o : Outgoing) (len : Nat) (opts : List (List UInt8)) (off : Nat)
    (P : Packet) : Prop :=
  off < o.payload.length ∧ o.Piece P off (eolPad (carried (off = 0) opts))
      ((o.sent.drop off).take (min len (o.payload.length - off)))
      (o.mff || off + len < o.payload.length)

theorem PieceAt.payload_length {P : Packet} (h : o.PieceAt len opts off P) :
    P.payload.length = min len (o.payload.length - off) := by
  rw [h.2.payload, length_take, length_drop, sent_length]
  omega

theorem pieces_mem (h : o.Pieces len opts off frags) :
    ∀ P ∈ frags, ∃ n, off ≤ n ∧ o.PieceAt len opts n P := by
  induction frags generalizing off with
  | nil => simp
  | cons P rest ih =>
    rcases h with ⟨hoff, hpiece, hrest⟩
    intro Q hQ
    rcases mem_cons.mp hQ with rfl | hQ
    · exact ⟨off, Nat.le_refl _, hoff, hpiece⟩
    · rcases ih hrest Q hQ with ⟨n, hn, hQ⟩
      exact ⟨n, by omega, hQ⟩

theorem pieces_end (h : o.Pieces len opts off frags) :
    (∀ P ∈ frags.dropLast, ∃ n, o.PieceAt len opts n P ∧ n + len < o.payload.length) ∧
    ∀ P, frags.getLast? = some P → ∃ n, o.PieceAt len opts n P ∧ o.payload.length ≤ n + len := by
  induction frags generalizing off with
  | nil => simp
  | cons P rest ih =>
    rcases h with ⟨hoff, hpiece, hrest⟩
    rcases ih hrest with ⟨hfront, hlast⟩
    cases rest with
    | nil =>
      refine ⟨by simp, ?_⟩
      intro Q hQ
      have hPQ : P = Q := by simpa using hQ
      subst hPQ
      refine ⟨off, ⟨hoff, hpiece⟩, ?_⟩
      have hend : o.payload.length ≤ off + min len (o.payload.length - off) := hrest
      omega
    | cons R rest =>
      refine ⟨?_, hlast⟩
      intro Q hQ
      rcases mem_cons.mp hQ with rfl | hQ
      · refine ⟨off, ⟨hoff, hpiece⟩, ?_⟩
        have hmore : off + min len (o.payload.length - off) <
          o.payload.length := hrest.1
        omega
      · exact hfront Q hQ

theorem pieces_tiles (h : o.Pieces len opts off frags) :
    Tiles (o.start + off) frags ∧ carriedBytes frags = o.sent.drop off := by
  induction frags generalizing off with
  | nil =>
    refine ⟨trivial, ?_⟩
    have hend : o.payload.length ≤ off := h
    rw [drop_of_length_le (by rw [sent_length]; exact hend)]
    rfl
  | cons P rest ih =>
    rcases h with ⟨hoff, hpiece, hrest⟩
    rcases ih hrest with ⟨htiles, hbytes⟩
    have hsize := PieceAt.payload_length ⟨hoff, hpiece⟩
    refine ⟨⟨hpiece.start, ?_⟩, ?_⟩
    · rw [hsize, Nat.add_assoc]
      exact htiles
    · have hcons : carriedBytes (P :: rest) = P.payload ++ carriedBytes rest := rfl
      rw [hcons, hpiece.payload, hbytes, ← drop_drop]
      exact take_append_drop _ _

theorem pieces_whole (hlen : 0 < len) (hmore : len < o.payload.length)
    (hmax : o.hlen + o.payload.length ≤ 32767) (hstart : o.start = 0) (hmff : o.mff = false)
    (h : o.Pieces len opts 0 frags) : Whole o.key frags := by
  rcases pieces_tiles h with ⟨htiles, hbytes⟩
  have htotal : (carriedBytes frags).length = o.payload.length := by
    rw [hbytes, drop_zero, sent_length]
  refine ⟨?_, ?_, ?_, ?_, ?_⟩
  · intro P hP
    rcases pieces_mem h P hP with ⟨n, _, hpiece⟩
    have hsize := hpiece.payload_length
    have hoff := hpiece.1
    have hPstart := hpiece.2.start
    have hle : P.start + P.payload.length ≤ 32767 := by omega
    refine ⟨hpiece.2.key, hpiece.2.accepted, ?_, ?_, hle⟩
    · intro hnil
      rw [hnil, length_nil] at hsize
      omega
    · by_cases hfirst : n = 0
      · left
        rw [hpiece.2.mff, decide_eq_true (by omega), Bool.or_true]
      · right
        have hPoff : P.off = P.start := by
          unfold Packet.off short
          unfold Packet.start at *
          omega
        omega
  · rw [hstart] at htiles
    exact htiles
  · intro P hP hPmff
    rcases pieces_mem h P hP with ⟨n, _, hpiece⟩
    have hsize := hpiece.payload_length
    have hPstart := hpiece.2.start
    have hoff := hpiece.1
    rw [hpiece.2.mff, hmff, Bool.false_or, decide_eq_false_iff_not] at hPmff
    omega
  · intro P hP
    rcases (pieces_end h).2 P hP with ⟨n, hpiece, hend⟩
    rw [hpiece.2.mff, hmff, Bool.false_or, decide_eq_false_iff_not]
    omega
  · rintro rfl
    have hend : o.payload.length ≤ 0 := h
    omega

theorem options_start {beyond : UInt8} {cp : List UInt8}
    {l : List (List UInt8)} (h : Options beyond cp l) : l.flatten <+: cp := by
  induction h with
  | nil => exact nil_prefix
  | eol cp => exact nil_prefix
  | nop h ih =>
    exact (prefix_append_right_inj _).mpr ih
  | @option opt cp n l heol hnop hn hpos h ih =>
    conv => rhs; rw [← take_append_drop n (opt :: cp)]
    exact (prefix_append_right_inj _).mpr ih

theorem options_unique {beyond : UInt8} {cp : List UInt8}
    {l l' : List (List UInt8)} (h : Options beyond cp l)
    (h' : Options beyond cp l') : carried true l = carried true l' := by
  have hrun := ipOptcopyLoop_of_options (a := true) (d := []) h (Nat.le_refl _)
  have hrun' := ipOptcopyLoop_of_options (a := true) (d := []) h' (Nat.le_refl _)
  rw [hrun, Option.some_inj, nil_append, nil_append] at hrun'
  exact hrun'

theorem carried_true (l : List (List UInt8)) : carried true l = l.flatten := by
  unfold carried
  simp

theorem roundTrip_of_pieces (hopts : Options o.beyond o.options opts)
    (hlen : 0 < len) (hwords : len % 8 = 0) (hmore : len < o.payload.length)
    (hmtu : (o.hlen + len : Nat) ≤ maxtu)
    (hmax : o.hlen + o.payload.length ≤ 32767) (hsent : o.sent = o.payload)
    (h : o.Pieces len opts 0 frags) : o.RoundTrip maxtu frags := by
  rcases pieces_tiles h with ⟨htiles, hbytes⟩
  rw [drop_zero, hsent] at hbytes
  have hend := pieces_end h
  have hhl : o.hlen = sizeofIp + o.options.length := rfl
  refine ⟨?_, ?_, ?_, htiles, hbytes, ?_, ?_, ?_, ?_, ?_⟩
  · intro P hP
    rcases pieces_mem h P hP with ⟨n, _, hpiece⟩
    exact ⟨hpiece.2.key, hpiece.2.accepted⟩
  · intro P hP
    rcases pieces_mem h P hP with ⟨n, _, hpiece⟩
    have hsize := hpiece.payload_length
    have hpad := (hopts.padded_length (decide (n = 0))).2
    have htotal := hpiece.2.ipLen
    rw [← hpiece.2.payload] at htotal
    omega
  · intro P hP
    rcases hend.1 P hP with ⟨n, hpiece, hn⟩
    rw [hpiece.payload_length, Nat.min_eq_left (by omega)]
    exact hwords
  · intro P hP
    rcases hend.1 P hP with ⟨n, hpiece, hn⟩
    rw [hpiece.2.mff, decide_eq_true hn, Bool.or_true]
  · intro P hP
    rcases hend.2 P hP with ⟨n, hpiece, hn⟩
    rw [hpiece.2.mff, decide_eq_false (by omega), Bool.or_false]
  · intro P hP l hl
    cases frags with
    | nil => cases hP
    | cons Q rest =>
      have hQP : Q = P := by simpa using hP
      subst hQP
      have hpiece := h.2.1
      have hall : carried (decide (0 = 0)) opts = l.flatten := by
        rw [decide_eq_true rfl, options_unique hopts hl, carried_true]
      rw [hpiece.options, hall]
      exact prefix_append _ _
  · intro P hP
    cases frags with
    | nil => cases hP
    | cons Q rest =>
      rcases pieces_mem h.2.2 P hP with ⟨n, hn, hpiece⟩
      refine ⟨opts, hopts, ?_⟩
      have hnonzero : ¬ n = 0 := by omega
      rw [hpiece.2.options, decide_eq_false hnonzero]
  · intro hstart hmff s hnone l hl
    have hwhole := pieces_whole hlen hmore hmax hstart hmff h
    have hdelivered := Node.delivered_of_perm hwhole hnone hl
    rw [hbytes] at hdelivered
    exact Or.inl hdelivered

/-!
## One packet
-/

def whole (env : Env) (o : Outgoing) (mintu : Int) : Packet :=
  env.packet o.key o.ipHl (UInt16.ofNat (o.hlen + o.payload.length))
    o.ipOff o.options o.payload (mintu - o.ipLen)

theorem whole_ipLen {e : Env} {m : Int} : (o.whole e m).ipLen.toNat =
    o.hlen + o.payload.length := by
  have hle := o.total_le
  have hhl : o.hlen = sizeofIp + o.options.length := rfl
  have hpayload : (o.first ++ o.rest.flatten).length = o.payload.length := rfl
  change (UInt16.ofNat (o.hlen + o.payload.length)).toNat = _
  rw [UInt16.toNat_ofNat']
  unfold sizeofIp at hhl
  omega

theorem whole_bytes (hmax : o.hlen + o.payload.length ≤ 32767) :
    (o.whole env mintu).accepted.isSome ∧ (o.whole env mintu).options = o.options ∧
      (o.whole env mintu).payload = o.payload := by
  have hhl : (o.ipHl : Nat) * 4 = sizeofIp + o.options.length := by
    have hwords := o.options_words
    change (sizeofIp + o.options.length) / 4 * 4 = _
    unfold sizeofIp
    omega
  have hlen := whole_ipLen (o := o) (e := env) (m := mintu)
  exact packet_bytes hhl hlen (by
    change (o.whole env mintu).ipLen.toNat ≤ 32767
    omega)

theorem roundTrip_of_whole (hmax : o.hlen + o.payload.length ≤ 32767)
    (hmtu : (o.hlen + o.payload.length : Nat) ≤ maxtu) : o.RoundTrip maxtu [o.whole env mintu] := by
  rcases whole_bytes hmax with ⟨haccepted, hoptions, hpayload⟩
  have hlen := whole_ipLen (o := o) (e := env) (m := mintu)
  have hkey : (o.whole env mintu).key = o.key := rfl
  have hstart : (o.whole env mintu).start = o.start := rfl
  have hmff : (o.whole env mintu).mff = o.mff := rfl
  generalize o.whole env mintu = P at *
  refine ⟨?_, ?_, by simp, ⟨hstart, trivial⟩, ?_, by simp, ?_, ?_, by simp, ?_⟩
  · intro Q hQ
    rw [mem_singleton.mp hQ]
    exact ⟨hkey, haccepted⟩
  · intro Q hQ
    rw [mem_singleton.mp hQ]
    omega
  · change P.payload ++ [] = o.payload
    rw [append_nil, hpayload]
  · rintro Q ⟨⟩
    exact hmff
  · rintro Q ⟨⟩ l hl
    rw [hoptions]
    exact options_start hl
  · intro hzero hlast s hnone l hl
    have hone : l = [P] := perm_singleton.mp hl
    subst hone
    rcases Option.isSome_iff_exists.mp haccepted with ⟨data, hdata⟩
    have hnofrag : ¬ (P.mff = true ∨ P.off ≠ 0) := by
      rw [hmff, hlast]
      unfold Packet.off short
      unfold Packet.start at hstart
      simp only [Bool.false_eq_true, false_or, ne_eq, not_not]
      omega
    right
    refine ⟨P, hkey, hpayload, ?_⟩
    rw [foldl_cons, foldl_nil]
    unfold Node.ipintr
    rw [hdata]
    dsimp only
    rw [if_neg hnofrag]
    split
    · exact ⟨rfl, rfl, rfl⟩
    · exact ⟨rfl, rfl, rfl⟩

/-!
## Output
-/

section

variable (hroom : (o.hlen + 8 : Nat) ≤ maxtu)
include hroom

theorem not_roundTrip_of_long
    (hlong : 32767 < o.hlen + o.payload.length) :
    ¬ ∃ frags, o.ipOutput env maxtu mintu avail = some (frags, 0) ∧ o.RoundTrip maxtu frags := by
  rintro ⟨frags, hrun, htrip⟩
  have hle := o.total_le
  have hpayload : (o.first ++ o.rest.flatten).length = o.payload.length := rfl
  have hneg : o.ipLen ≤ maxtu := by
    unfold ipLen short
    omega
  have hsent : o.ipOutput env maxtu mintu avail = some ([o.whole env mintu], 0) := by
    unfold ipOutput
    rw [if_pos hneg]
    rfl
  rw [hsent] at hrun
  cases hrun
  have haccepted := (htrip.header _ (mem_singleton.mpr rfl)).2
  rcases Option.isSome_iff_exists.mp haccepted with ⟨data, hdata⟩
  have hmax := (Packet.accepted_eq hdata).2.2.2.1
  have hlen := whole_ipLen (o := o) (e := env) (m := mintu)
  omega

section

variable (hmax : o.hlen + o.payload.length ≤ 32767)
  (hlong : ¬ (o.hlen + o.payload.length : Nat) ≤ maxtu) (hdf : flag o.ipOff.toNat IP_DF = false)
include hmax hlong hdf

theorem ipOutput_eq_loop :
    ∃ len : Nat, 0 < len ∧ len % 8 = 0 ∧ len < o.payload.length ∧ (o.hlen + len : Nat) ≤ maxtu ∧
      o.ipOutput env maxtu mintu (true :: avail) =
        o.loop env mintu len o.payload.length avail 0 := by
  have hipLen := ipLen_eq hmax
  let len := maxtu - o.hlen - (maxtu - o.hlen) % 8
  refine ⟨len.toNat, by omega, by omega, by omega, by omega, ?_⟩
  have hfrag : ¬ o.ipLen ≤ maxtu := by omega
  unfold ipOutput
  rw [if_neg hfrag, hdf, if_neg Bool.false_ne_true]
  rw [if_neg (by omega)]

theorem not_roundTrip_of_options
    (hopts : ¬ ∃ l, Options o.beyond o.options l) (havail : o.payload.length < avail.length)
    (hall : ∀ a ∈ avail, a = true) :
    ¬ ∃ frags, o.ipOutput env maxtu mintu avail = some (frags, 0) ∧ o.RoundTrip maxtu frags := by
  rintro ⟨frags, hrun, -⟩
  have hsome : sizeofIp < o.hlen := by
    by_contra h
    apply hopts
    rw [options_eq_nil h]
    exact ⟨[], Options.nil⟩
  have hnone : o.fragmentOptions 0 = none := by
    unfold fragmentOptions
    rw [if_pos hsome]
    by_contra h
    rcases Option.ne_none_iff_exists'.mp h with ⟨dp, hdp⟩
    exact hopts (options_of_ipOptcopy hdp)
  cases avail with
  | nil => cases havail
  | cons a avail =>
    have ha : a = true := hall a mem_cons_self
    subst ha
    rcases ipOutput_eq_loop hroom hmax hlong hdf with ⟨len, hlen, _, hmore, _, heq⟩
    have hfirst : ((0 : Nat) : Int) < o.ipLen - o.hlen := by
      rw [ipLen_eq hmax]
      omega
    rw [heq] at hrun
    cases hpayload : o.payload.length with
    | zero => omega
    | succ n =>
      rw [hpayload] at hrun havail
      cases avail with
      | nil =>
        rw [length_cons, length_nil] at havail
        omega
      | cons a avail =>
        have ha : a = true := hall a (by simp)
        subst ha
        unfold loop at hrun
        rw [if_pos hfirst] at hrun
        rw [hnone] at hrun
        cases hrun

end

end

section

variable (hopts : Options o.beyond o.options opts) (hroom : (o.hlen + 8 : Nat) ≤ maxtu)
  (hmax : o.hlen + o.payload.length ≤ 32767) (hlong : ¬ (o.hlen + o.payload.length : Nat) ≤ maxtu)
  (hdf : flag o.ipOff.toNat IP_DF = false)
include hopts hroom hmax hlong hdf

theorem ipOutput_pieces
    (havail : o.payload.length < avail.length) (hall : ∀ a ∈ avail, a = true) :
    ∃ len frags, 0 < len ∧ len % 8 = 0 ∧ len < o.payload.length ∧ (o.hlen + len : Nat) ≤ maxtu ∧
      o.ipOutput env maxtu mintu avail = some (frags, 0) ∧ o.Pieces len opts 0 frags := by
  cases avail with
  | nil => cases havail
  | cons a avail =>
    have ha : a = true := hall a mem_cons_self
    subst ha
    rw [length_cons] at havail
    rcases ipOutput_eq_loop hroom hmax hlong hdf with ⟨len, hlen, hwords, hmore, hfits, heq⟩
    rcases loop_pieces (k := 0) (f := o.payload.length) hopts hmax hlen hwords rfl
      (by omega) (fun b hb => hall b (mem_cons_of_mem _ hb)) (by omega)
      with ⟨frags, hrun, hpieces⟩
    exact ⟨len, frags, hlen, hwords, hmore, hfits, heq.trans hrun, hpieces⟩

theorem not_roundTrip_of_sent
    (hsent : o.sent ≠ o.payload) (havail : o.payload.length < avail.length)
    (hall : ∀ a ∈ avail, a = true) :
    ¬ ∃ frags, o.ipOutput env maxtu mintu avail = some (frags, 0) ∧ o.RoundTrip maxtu frags := by
  rintro ⟨frags, hrun, htrip⟩
  rcases ipOutput_pieces hopts hroom hmax hlong hdf
    havail hall with ⟨len, frags', _, _, _, _, hrun', hpieces⟩
  rw [hrun'] at hrun
  cases hrun
  have hbytes := (pieces_tiles hpieces).2
  rw [htrip.payload, drop_zero] at hbytes
  exact hsent hbytes.symm

end

/--
The packets that are sent for a datagram make it up again in just these cases:
it fits a short, and where it is fragmented, no option without a length is met,
and the options and the payload start with the payload.
-/
theorem fragmentation_round_trip (env : Env) (o : Outgoing) (maxtu mintu : Int)
    (avail : List Bool) (hroom : (o.hlen + 8 : Nat) ≤ maxtu)
    (hdf : (o.hlen + o.payload.length : Nat) ≤ maxtu ∨ flag o.ipOff.toNat IP_DF = false)
    (havail : o.payload.length < avail.length) (hall : ∀ a ∈ avail, a = true) :
    (∃ frags, o.ipOutput env maxtu mintu avail = some (frags, 0) ∧ o.RoundTrip maxtu frags) ↔
    o.hlen + o.payload.length ≤ 32767 ∧ ((o.hlen + o.payload.length : Nat) ≤ maxtu ∨
        (∃ l, Options o.beyond o.options l) ∧
        (o.options ++ o.payload).take o.payload.length = o.payload) := by
  constructor
  · intro h
    have hmax : o.hlen + o.payload.length ≤ 32767 := by
      by_contra hlong
      exact not_roundTrip_of_long hroom (by omega) h
    refine ⟨hmax, ?_⟩
    by_cases hfits : (o.hlen + o.payload.length : Nat) ≤ maxtu
    · exact Or.inl hfits
    · have hdf := hdf.resolve_left hfits
      right
      by_cases hopts : ∃ l, Options o.beyond o.options l
      · rcases hopts with ⟨l, hl⟩
        refine ⟨⟨l, hl⟩, ?_⟩
        by_contra hsent
        exact not_roundTrip_of_sent hl hroom hmax hfits hdf hsent havail hall h
      · exact absurd h (not_roundTrip_of_options hroom hmax hfits hdf hopts havail hall)
  · rintro ⟨hmax, hcase⟩
    by_cases hfits : (o.hlen + o.payload.length : Nat) ≤ maxtu
    · have hipLen : o.ipLen ≤ maxtu := by
        rw [ipLen_eq hmax]
        exact hfits
      refine ⟨[o.whole env mintu], ?_, roundTrip_of_whole hmax hfits⟩
      unfold ipOutput
      rw [if_pos hipLen]
      rfl
    · rcases hcase.resolve_left hfits with ⟨⟨l, hl⟩, hsent⟩
      rcases ipOutput_pieces hl hroom hmax hfits (hdf.resolve_left hfits) havail hall with
        ⟨len, frags, hlen, hwords, hmore, hmtu, hrun, hpieces⟩
      exact ⟨frags, hrun, roundTrip_of_pieces hl hlen hwords hmore hmtu hmax hsent hpieces⟩

def noEnv : Env := ⟨fun _ _ _ _ => Vector.replicate 20 0, fun _ _ => []⟩

def sixteen : Bool → Outgoing
  | false => ⟨⟨1, 2, 3, 17⟩, 0, [], 0, replicate 16 7, [],
      by decide, by decide, by decide, by decide⟩
  | true => ⟨⟨1, 2, 3, 17⟩, 0, [1, 1, 1, 0], 0, replicate 16 7, [],
      by decide, by decide, by decide, by decide⟩

theorem fragmentation_round_trip_sixteen : (((sixteen false).hlen + 8 : Nat) : Int) ≤ 28 ∧
    ((∃ frags, (sixteen false).ipOutput noEnv 28 0 (replicate 17 true) =
        some (frags, 0) ∧ (sixteen false).RoundTrip 28 frags) ↔
      (sixteen false).hlen + (sixteen false).payload.length ≤ 32767 ∧
        ((((sixteen false).hlen + (sixteen false).payload.length : Nat) : Int) ≤ 28 ∨
          (∃ l, Options (sixteen false).beyond (sixteen false).options l) ∧
          ((sixteen false).options ++ (sixteen false).payload).take
            (sixteen false).payload.length = (sixteen false).payload)) :=
  ⟨by decide, fragmentation_round_trip noEnv (sixteen false) 28 0
    (replicate 17 true) (by decide) (Or.inr rfl) (by decide) (by decide)⟩

/-- With options, the payload is not what has been sent. -/
theorem options_sent_as_payload :
    (((sixteen true).hlen + 8 : Nat) : Int) ≤ 32 ∧ flag (sixteen true).ipOff.toNat IP_DF = false ∧
      ¬ ∃ frags, (sixteen true).ipOutput noEnv 32 0 (replicate 17 true) =
        some (frags, 0) ∧ (sixteen true).RoundTrip 32 frags := by
  have hopts : Options (sixteen true).beyond (sixteen true).options
      [[IPOPT_NOP], [IPOPT_NOP], [IPOPT_NOP]] :=
    Options.nop (Options.nop (Options.nop (Options.eol [])))
  exact ⟨by decide, rfl, not_roundTrip_of_sent hopts (by decide) (by decide)
    (by decide) rfl (by decide) (by decide) (by decide)⟩

end Outgoing

end Ip
end Svr4
