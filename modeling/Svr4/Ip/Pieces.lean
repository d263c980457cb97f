import Svr4.Ip.Output

/-!
# What ip_output sends

The packets that the loop of `ip_output` sends: the ranges of the data they
carry, and the options.
-/

namespace Svr4
namespace Ip

open List

/-!
## Ranges of blocks
-/

variable {off len n fuel : Nat}

theorem takeBlocks_spec {bp : List UInt8} {rest : List (List UInt8)} (hoff : off ≤ bp.length)
    (hlen : off + len ≤ (bp :: rest).flatten.length) :
    ∃ l, takeBlocks off len (bp :: rest) = some l ∧
      l.flatten = ((bp :: rest).flatten.drop off).take len := by
  induction rest generalizing bp off len with
  | nil =>
    cases len with
    | zero => exact ⟨[], rfl, by simp⟩
    | succ len =>
      simp only [flatten_cons, flatten_nil, append_nil] at hlen
      have hsize : min (len + 1) (bp.length - off) = len + 1 := by omega
      refine ⟨[(bp.drop off).take (len + 1)], ?_, by simp⟩
      unfold takeBlocks
      dsimp only
      rw [hsize, Nat.sub_self]
      rfl
  | cons b rest ih =>
    cases len with
    | zero => exact ⟨[], rfl, by simp⟩
    | succ len =>
      have hle : 0 + (len + 1 - min (len + 1) (bp.length - off)) ≤ (b :: rest).flatten.length := by
        rw [flatten_cons, length_append] at hlen
        omega
      rcases ih (Nat.zero_le _) hle with ⟨l, hrun, hl⟩
      refine ⟨(bp.drop off).take (min (len + 1) (bp.length - off)) :: l, ?_, ?_⟩
      · unfold takeBlocks
        dsimp only
        rw [hrun]
        rfl
      · have hhere : (bp.drop off).take (min (len + 1) (bp.length - off)) =
            (bp.drop off).take (len + 1) := by
          rw [← length_drop, ← take_eq_take_min]
        have hthere : len + 1 - min (len + 1) (bp.length - off) =
            len + 1 - (bp.drop off).length := by
          rw [length_drop]
          omega
        have hflat : (bp :: b :: rest).flatten = bp ++ (b :: rest).flatten :=
          flatten_cons
        rw [hflat, flatten_cons, hl, drop_zero,
          drop_append_of_le_length hoff, take_append, hhere, hthere]

theorem skipBlocks_spec {t : List (List UInt8)} (hoff : n < t.flatten.length) :
    ∃ i bp rest, skipBlocks n t = some (i, bp :: rest) ∧ i ≤ bp.length ∧
      (bp :: rest).flatten.drop i = t.flatten.drop n := by
  induction t generalizing n with
  | nil => simp at hoff
  | cons bp rest ih =>
    by_cases hzero : n = 0
    · subst hzero
      refine ⟨0, bp, rest, ?_, Nat.zero_le _, rfl⟩
      unfold skipBlocks
      exact if_pos rfl
    by_cases hin : n < bp.length
    · refine ⟨n, bp, rest, ?_, by omega, rfl⟩
      unfold skipBlocks
      rw [if_neg hzero, if_pos hin]
    · rw [flatten_cons, length_append] at hoff
      cases rest with
      | nil =>
        simp at hoff
        omega
      | cons b rest =>
        rcases ih (n := n - bp.length) (by omega) with ⟨i, bp', rest', hrun, hi, hdrop⟩
        refine ⟨i, bp', rest', ?_, hi, ?_⟩
        · unfold skipBlocks
          rw [if_neg hzero, if_neg hin]
          exact hrun
        · rw [hdrop, flatten_cons (l := bp), drop_append,
            drop_of_length_le (by omega : bp.length ≤ n),
            nil_append]

variable {blocks l opts : List (List UInt8)}

theorem dupRange_spec (hpos : 0 < len) (hlen : off + len ≤ blocks.flatten.length) :
    ∃ l, dupRange blocks off len = some l ∧ l.flatten = (blocks.flatten.drop off).take len := by
  rcases skipBlocks_spec (n := off) (t := blocks) (by omega) with ⟨i, bp, rest, hskip, hi, hdrop⟩
  have hle : i + len ≤ (bp :: rest).flatten.length := by
    have hsize := congrArg List.length hdrop
    rw [length_drop, length_drop] at hsize
    omega
  rcases takeBlocks_spec hi hle with ⟨l, htake, hl⟩
  refine ⟨l, ?_, ?_⟩
  · unfold dupRange
    rw [hskip]
    exact htake
  · rw [hl, hdrop]

/-!
## Options
-/

/-- The options that are written out in some bytes. -/
inductive Options (beyond : UInt8) : List UInt8 → List (List UInt8) → Prop where
  | nil : Options beyond [] []
  | eol (cp : List UInt8) : Options beyond (IPOPT_EOL :: cp) []
  | nop {cp : List UInt8} {l : List (List UInt8)} (h : Options beyond cp l) :
      Options beyond (IPOPT_NOP :: cp) ([IPOPT_NOP] :: l)
  | option {opt : UInt8} {cp : List UInt8} {n : Nat} {l : List (List UInt8)}
      (heol : opt ≠ IPOPT_EOL) (hnop : opt ≠ IPOPT_NOP)
      (hn : n = min (cp.headD beyond).toNat (cp.length + 1)) (hpos : 0 < n)
      (h : Options beyond ((opt :: cp).drop n) l) :
      Options beyond (opt :: cp) ((opt :: cp).take n :: l)

def carried (all : Bool) (l : List (List UInt8)) : List UInt8 :=
  (l.filter fun opt => all ∨ ipoptCopied (opt.headD 0)).flatten

theorem carried_cons (all : Bool) (opt : List UInt8) (l : List (List UInt8)) :
    carried all (opt :: l) =
      (if all ∨ ipoptCopied (opt.headD 0) then opt else []) ++ carried all l := by
  unfold carried
  split
  · rename_i h
    rw [filter_cons_of_pos (by simpa using h), flatten_cons]
  · rename_i h
    rw [filter_cons_of_neg (by simpa using h), nil_append]

variable {beyond : UInt8} {cp dp : List UInt8}

theorem ipOptcopyLoop_of_options {a : Bool} {d : List UInt8} (h : Options beyond cp l)
    (hfuel : cp.length ≤ fuel) : ipOptcopyLoop a beyond fuel cp d = some (d ++ carried a l) := by
  induction h generalizing fuel d with
  | nil =>
    cases fuel <;> simp [ipOptcopyLoop, carried]
  | eol cp =>
    cases fuel with
    | zero => cases hfuel
    | succ fuel => simp [ipOptcopyLoop, carried]
  | @nop cp l h ih =>
    cases fuel with
    | zero => cases hfuel
    | succ fuel =>
      have hsize : min 1 (IPOPT_NOP :: cp).length = 1 := by
        rw [length_cons]
        omega
      unfold ipOptcopyLoop
      rw [if_neg (by decide), if_pos rfl]
      dsimp only
      rw [hsize, drop_succ_cons, drop_zero, ih (Nat.le_of_succ_le_succ hfuel), carried_cons]
      split <;> simp_all [append_assoc]
  | @option opt cp n l heol hnop hn hpos h ih =>
    cases fuel with
    | zero => cases hfuel
    | succ fuel =>
      have hfuel' : ((opt :: cp).drop n).length ≤ fuel := by
        rw [length_drop]
        omega
      have hhead : ((opt :: cp).take n).headD 0 = opt := by
        cases n with
        | zero => cases hpos
        | succ n => rfl
      unfold ipOptcopyLoop
      rw [if_neg heol, if_neg hnop]
      dsimp only
      rw [length_cons, ← hn, ih hfuel', carried_cons, hhead]
      split <;> simp

theorem options_of_ipOptcopyLoop {all : Bool} {dp' : List UInt8}
    (h : ipOptcopyLoop all beyond fuel cp dp = some dp') : ∃ l, Options beyond cp l := by
  induction fuel generalizing cp dp with
  | zero =>
    cases cp with
    | nil => exact ⟨[], Options.nil⟩
    | cons opt cp => cases h
  | succ fuel ih =>
    cases cp with
    | nil => exact ⟨[], Options.nil⟩
    | cons opt cp =>
      unfold ipOptcopyLoop at h
      by_cases heol : opt = IPOPT_EOL
      · subst heol
        exact ⟨[], Options.eol cp⟩
      by_cases hnop : opt = IPOPT_NOP
      · subst hnop
        rw [if_neg heol, if_pos rfl] at h
        rcases ih h with ⟨l, hl⟩
        have hsize : min 1 (IPOPT_NOP :: cp).length = 1 := by
          rw [length_cons]
          omega
        exact ⟨_, Options.nop hl⟩
      · rw [if_neg heol, if_neg hnop] at h
        rcases ih h with ⟨l, hl⟩
        by_cases hpos : 0 < min (cp.headD beyond).toNat (opt :: cp).length
        · exact ⟨_, Options.option heol hnop rfl hpos hl⟩
        · -- An option without a length is met again and again.
          have hzero : min (cp.headD beyond).toNat (opt :: cp).length = 0 := by
            omega
          rw [hzero, drop_zero] at hl
          exact ⟨l, hl⟩

variable {o : Outgoing}

theorem ipOptcopy_of_options (h : Options o.beyond o.options l) (off : Nat) :
    ipOptcopy o off = some (eolPad (carried (off = 0) l)) := by
  unfold ipOptcopy
  rw [ipOptcopyLoop_of_options h (Nat.le_refl _), nil_append]
  rfl

theorem options_of_ipOptcopy
    (h : ipOptcopy o off = some dp) : ∃ l, Options o.beyond o.options l := by
  rcases Option.map_eq_some_iff.mp h with ⟨dp', hdp', _⟩
  exact options_of_ipOptcopyLoop hdp'

theorem Options.carried_length (h : Options beyond cp l) (all : Bool) :
    (carried all l).length ≤ cp.length := by
  induction h with
  | nil => exact Nat.zero_le _
  | eol cp => exact Nat.zero_le _
  | @nop cp l h ih =>
    rw [carried_cons, length_append]
    split <;> simp only [length_cons, length_nil] <;> omega
  | @option opt cp n l heol hnop hn hpos h ih =>
    rw [length_drop] at ih
    rw [carried_cons, length_append]
    split
    · rw [length_take]
      omega
    · rw [length_nil]
      omega

theorem eolPad_length (dp : List UInt8) :
    (eolPad dp).length % 4 = 0 ∧ (eolPad dp).length < dp.length + 4 ∧
      dp.length ≤ (eolPad dp).length := by
  unfold eolPad
  rw [length_append, length_replicate]
  omega

theorem Options.padded_length (h : Options o.beyond o.options l) (all : Bool) :
    (eolPad (carried all l)).length % 4 = 0 ∧
      (eolPad (carried all l)).length ≤ o.options.length := by
  have hcarried := h.carried_length all
  have hpad := eolPad_length (carried all l)
  have hwords := o.options_words
  omega

/-!
## Fragments
-/

def Packet.options (P : Packet) : List UInt8 :=
  (P.data.take P.hlen).drop sizeofIp

variable {ipLen ipOff : UInt16} {avail : List Bool}

namespace Outgoing

def start (o : Outgoing) : Nat := o.ipOff.toNat % 8192 * 8

def mff (o : Outgoing) : Bool := flag o.ipOff.toNat IP_MF

def sent (o : Outgoing) : List UInt8 :=
  (o.options ++ o.payload).take o.payload.length

structure Piece (o : Outgoing) (P : Packet) (off : Nat)
    (options data : List UInt8) (mff : Bool) : Prop where
  key : P.key = o.key
  start : P.start = o.start + off
  mff : P.mff = mff
  accepted : P.accepted.isSome
  ipLen : P.ipLen.toNat = sizeofIp + options.length + data.length
  options : P.options = options
  payload : P.payload = data

variable {env : Env} {o : Outgoing} {mintu : Int} {off len : Nat} {last : Bool}
  {options data : List UInt8}

theorem packet_data {key : Key} {hl : Fin 16} {cnt : Int} :
    ∃ tail, (env.packet key hl ipLen ipOff options data cnt).data =
      (env.header key hl ipLen ipOff).toList ++ options ++ data ++ tail := by
  unfold Env.packet
  split
  · exact ⟨_, rfl⟩
  · exact ⟨[], (append_nil _).symm⟩

theorem packet_bytes {key : Key} {hl : Fin 16} {cnt : Int}
    (hhl : (hl : Nat) * 4 = sizeofIp + options.length)
    (hlen : ipLen.toNat = sizeofIp + options.length + data.length) (hmax : ipLen.toNat ≤ 32767) :
    (env.packet key hl ipLen ipOff options data cnt).accepted.isSome ∧
      (env.packet key hl ipLen ipOff options data cnt).options = options ∧
      (env.packet key hl ipLen ipOff options data cnt).payload = data := by
  rcases packet_data with ⟨tail, htail⟩
  have hheader : (env.header key hl ipLen ipOff).toList.length = sizeofIp := by
    simp [sizeofIp]
  generalize hP : env.packet key hl ipLen ipOff options data cnt = P at *
  have hPhl : P.hlen = sizeofIp + options.length := by
    rw [← hP]
    exact hhl
  have hPlen : P.ipLen = ipLen := by
    rw [← hP]
    rfl
  generalize (env.header key hl ipLen ipOff).toList = header at *
  have htotal : P.data.length = sizeofIp + options.length + data.length + tail.length := by
    rw [htail]
    simp only [length_append, hheader]
  refine ⟨?_, ?_, ?_⟩
  · have hshort : short ipLen.toNat = ipLen.toNat := by
      unfold short
      omega
    unfold Packet.accepted
    rw [hPlen, if_neg (by omega), if_neg (by omega), hshort, if_neg (by omega), if_neg (by omega)]
    rfl
  · have htake : P.data.take (sizeofIp + options.length) = header ++ options := by
      rw [htail, append_assoc, take_append_of_le_length]
      · exact take_of_length_le (by rw [length_append, hheader])
      · rw [length_append, hheader]
    unfold Packet.options
    rw [hPhl, htake, ← hheader, drop_left]
  · have htake : P.data.take (sizeofIp + options.length + data.length) =
        header ++ options ++ data := by
      rw [htail, take_append_of_le_length]
      · exact take_of_length_le (by simp only [length_append, hheader]; omega)
      · simp only [length_append, hheader]
        omega
    have hfront : (header ++ options).length = sizeofIp + options.length := by
      rw [length_append, hheader]
    unfold Packet.payload
    rw [hPlen, hlen, htake, hPhl, ← hfront, drop_left]

/-- The offset field of a fragment, with `IP_MF` or without. -/
theorem offset_field {x : Nat} {b : Bool} (hx : x < 65536) (hoff : off / 8 + x % 8192 < 8192) :
    let y := (off / 8 + withoutMf x) % 65536
    let z := if flag x IP_MF ∨ ¬ b then withMf y else y
    z < 65536 ∧ z % 8192 = x % 8192 + off / 8 ∧ flag z IP_MF = (flag x IP_MF || !b) := by
  have hy : (off / 8 + withoutMf x) % 65536 / 8192 % 2 = 0 ∧
      (off / 8 + withoutMf x) % 65536 % 8192 = x % 8192 + off / 8 := by
    unfold withoutMf flag IP_MF
    by_cases hbit : x / 8192 % 2 = 1
    · simp only [hbit, decide_true, if_true]
      omega
    · simp only [hbit, decide_false, Bool.false_eq_true, if_false]
      omega
  have hlt : (off / 8 + withoutMf x) % 65536 < 65536 := by omega
  dsimp only
  generalize (off / 8 + withoutMf x) % 65536 = y at hy hlt
  rcases hy with ⟨hclear, hmod⟩
  have hflag : flag y IP_MF = false := by
    unfold flag IP_MF
    rw [hclear]
    rfl
  split
  · rename_i h
    have hset : (flag x IP_MF || !b) = true := by simpa using h
    unfold withMf
    rw [hflag, hset]
    unfold flag IP_MF
    simp only [Bool.false_eq_true, if_false, decide_eq_true_eq]
    omega
  · rename_i h
    have hnone : (flag x IP_MF || !b) = false := by simpa using h
    exact ⟨hlt, hmod, by rw [hflag, hnone]⟩

theorem fragment_piece {e : Env} {m : Int} {b : Bool} (hwords : options.length % 4 = 0)
    (hoptions : options.length ≤ 40) (hdata : data.length = len)
    (hmax : sizeofIp + options.length + len ≤ 32767) (hoff : off % 8 = 0)
    (hend : o.start + off < 65536) :
    o.Piece (o.fragment e m off len b options data) off options data (o.mff || !b) := by
  have hlen : (UInt16.ofNat (len + (sizeofIp + options.length))).toNat =
      sizeofIp + options.length + data.length := by
    rw [UInt16.toNat_ofNat']
    omega
  have hhl : ((Fin.ofNat 16 ((sizeofIp + options.length) / 4) : Fin 16) : Nat) * 4 =
      sizeofIp + options.length := by
    have hlt : (sizeofIp + options.length) / 4 < 16 := by
      unfold sizeofIp
      omega
    rw [Fin.val_ofNat, Nat.mod_eq_of_lt hlt]
    unfold sizeofIp
    omega
  have hroom : off / 8 + o.ipOff.toNat % 8192 < 8192 := by
    unfold start at hend
    omega
  have hfield := offset_field (b := b) o.ipOff.toNat_lt hroom
  dsimp only at hfield
  generalize hipOff : (if flag o.ipOff.toNat IP_MF ∨ ¬ b then
    withMf ((off / 8 + withoutMf o.ipOff.toNat) % 65536)
      else (off / 8 + withoutMf o.ipOff.toNat) % 65536) = ipOff at hfield
  rcases hfield with ⟨hlt, hmod, hflag⟩
  have hP : o.fragment e m off len b options data =
      e.packet o.key (Fin.ofNat 16 ((sizeofIp + options.length) / 4))
        (UInt16.ofNat (len + (sizeofIp + options.length))) (UInt16.ofNat ipOff)
        options data (m - (UInt16.ofNat (len + (sizeofIp + options.length))).toNat) := by
    rw [← hipOff]
    rfl
  have hfield : (UInt16.ofNat ipOff).toNat = ipOff := by
    rw [UInt16.toNat_ofNat', Nat.mod_eq_of_lt hlt]
  rcases packet_bytes hhl hlen (by omega) with ⟨haccepted, hopts, hpayload⟩
  rw [hP]
  refine ⟨rfl, ?_, ?_, haccepted, hlen, hopts, hpayload⟩
  · change (UInt16.ofNat ipOff).toNat % 8192 * 8 = o.start + off
    unfold start
    omega
  · change flag (UInt16.ofNat ipOff).toNat IP_MF = _
    rw [hfield, hflag]
    rfl

/-!
## The loop
-/

def Pieces (o : Outgoing) (len : Nat) (opts : List (List UInt8)) :
    Nat → List Packet → Prop
  | off, [] => o.payload.length ≤ off
  | off, P :: rest =>
    let n := min len (o.payload.length - off)
    off < o.payload.length ∧ o.Piece P off (eolPad (carried (off = 0) opts))
        ((o.sent.drop off).take n) (o.mff || off + len < o.payload.length) ∧
      o.Pieces len opts (off + n) rest

theorem ipLen_eq (hmax : o.hlen + o.payload.length ≤ 32767) :
    o.ipLen = (o.hlen + o.payload.length : Nat) := by
  unfold ipLen short
  omega

theorem sent_length : o.sent.length = o.payload.length := by
  unfold sent
  rw [length_take, length_append]
  omega

theorem blocks_flatten : ((o.options ++ o.first) :: o.rest).flatten = o.options ++ o.payload := by
  rw [flatten_cons, append_assoc]
  rfl

theorem dupRange_sent (hpos : 0 < n) (hle : off + n ≤ o.payload.length) :
    ∃ l, dupRange ((o.options ++ o.first) :: o.rest) off n = some l ∧
      l.flatten = (o.sent.drop off).take n := by
  have htotal : off + n ≤ ((o.options ++ o.first) :: o.rest).flatten.length := by
    rw [blocks_flatten, length_append]
    omega
  rcases dupRange_spec hpos htotal with ⟨l, hrun, hl⟩
  refine ⟨l, hrun, ?_⟩
  rw [hl, blocks_flatten]
  unfold sent
  rw [drop_take, take_take, Nat.min_eq_left (by omega)]

theorem options_eq_nil (h : ¬ sizeofIp < o.hlen) : o.options = [] := by
  apply eq_nil_of_length_eq_zero
  unfold hlen at h
  omega

theorem fragmentOptions_eq (hopts : Options o.beyond o.options opts) (off : Nat) :
    o.fragmentOptions off = some (eolPad (carried (off = 0) opts)) := by
  unfold fragmentOptions
  split
  · exact ipOptcopy_of_options hopts off
  · rename_i h
    rw [options_eq_nil h] at hopts
    cases hopts
    unfold carried
    simp [eolPad]

theorem loop_done (hmax : o.hlen + o.payload.length ≤ 32767) (hoff : o.payload.length ≤ off) :
    o.loop env mintu len fuel avail off = some ([], 0) := by
  have hdone : ¬ (off : Int) < o.ipLen - o.hlen := by
    rw [ipLen_eq hmax]
    omega
  cases fuel with
  | zero =>
    exact if_neg hdone
  | succ fuel =>
    exact if_neg hdone

/-- The step of the loop, with `n` the new value of `len`. -/
theorem loop_next {options : List UInt8} {frags : List Packet} {error : Nat}
    (hmax : o.hlen + o.payload.length ≤ 32767) (hmore : off < o.payload.length)
    (hn : n = if off + len < o.payload.length then len else o.payload.length - off)
    (hoptions : o.fragmentOptions off = some options)
    (hdata : dupRange ((o.options ++ o.first) :: o.rest) off n = some blocks)
    (hrun : o.loop env mintu n fuel avail (off + n) = some (frags, error)) :
    o.loop env mintu len (fuel + 1) (true :: avail) off =
      some (o.fragment env mintu off n (!decide (off + len < o.payload.length))
        options blocks.flatten :: frags, error) := by
  have hlen := ipLen_eq hmax
  have htest : (off : Int) < o.ipLen - o.hlen := by omega
  unfold loop
  rw [if_pos htest]
  rw [hoptions]
  by_cases h : off + len < o.payload.length
  · have hlast : ¬ (o.ipLen - o.hlen ≤ (off + len : Nat)) := by omega
    rw [if_pos h] at hn
    subst hn
    simp only [Option.bind_eq_bind, Option.bind_some, hlast, decide_false,
      Bool.false_eq_true, if_false, hdata, hrun, h, decide_true, Bool.not_true]
    rfl
  · have hlast : o.ipLen - o.hlen ≤ (off + len : Nat) := by omega
    have hn' : (o.ipLen - o.hlen - off).toNat = n := by
      rw [if_neg h] at hn
      omega
    simp only [Option.bind_eq_bind, Option.bind_some, hlast, decide_true, if_true,
      hn', hdata, hrun, h, decide_false, Bool.not_false]
    rfl

theorem loop_pieces {k : Nat} {f : Nat} (hopts : Options o.beyond o.options opts)
    (hmax : o.hlen + o.payload.length ≤ 32767) (hlen : 0 < len) (hwords : len % 8 = 0)
    (hoff : k % 8 = 0) (hfuel : o.payload.length ≤ k + f) (havail : ∀ a ∈ avail, a = true)
    (hmany : o.payload.length ≤ k + avail.length) :
    ∃ frags, o.loop env mintu len f avail k = some (frags, 0) ∧ o.Pieces len opts k frags := by
  induction f generalizing avail k with
  | zero => exact ⟨[], loop_done hmax hfuel, hfuel⟩
  | succ f ih =>
    by_cases hmore : k < o.payload.length
    · cases avail with
      | nil =>
        rw [length_nil] at hmany
        omega
      | cons a avail =>
        have ha : a = true := havail a mem_cons_self
        subst ha
        rw [length_cons] at hmany
        let n := if k + len < o.payload.length then len
          else o.payload.length - k
        have hn : n = min len (o.payload.length - k) ∧ 0 < n ∧ k + n ≤ o.payload.length := by
          simp only [n]
          split <;> omega
        rcases dupRange_sent (o := o) hn.2.1 hn.2.2 with ⟨l, hdup, hl⟩
        have hoptions := fragmentOptions_eq hopts k
        have hrest : ∃ frags, o.loop env mintu n f avail (k + n) =
            some (frags, 0) ∧ o.Pieces len opts (k + n) frags := by
          by_cases h : k + len < o.payload.length
          · have hlen : n = len := if_pos h
            rw [hlen]
            exact ih (by omega) (by omega) (fun b hb => havail b (mem_cons_of_mem _ hb)) (by omega)
          · have hend : o.payload.length ≤ k + n := by
              simp only [n, if_neg h]
              omega
            exact ⟨[], loop_done hmax hend, hend⟩
        rcases hrest with ⟨frags, hrun, hfrags⟩
        refine ⟨_, loop_next hmax hmore rfl hoptions hdup hrun, hmore, ?_, ?_⟩
        · have hpad := hopts.padded_length (decide (k = 0))
          have hle := o.options_le
          have hend := o.end_le
          have hhl : o.hlen = sizeofIp + o.options.length := rfl
          have hpayload : (o.first ++ o.rest.flatten).length =
            o.payload.length := rfl
          have hsize : ((o.sent.drop k).take n).length = n := by
            rw [length_take, length_drop, sent_length]
            omega
          have hpiece := fragment_piece (e := env) (o := o) (m := mintu)
            (b := !decide (k + len < o.payload.length)) hpad.1
            (by omega) hsize (by omega) hoff (by unfold start; omega)
          rw [hl, ← hn.1]
          rw [Bool.not_not] at hpiece
          exact hpiece
        · rw [← hn.1]
          exact hfrags
    · exact ⟨[], loop_done hmax (by omega), by simpa [Pieces] using hmore⟩

end Outgoing

end Ip
end Svr4
