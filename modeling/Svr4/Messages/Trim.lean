import Mathlib.Algebra.Order.BigOperators.Group.List
import Mathlib.Data.List.Induction
import Svr4.Messages.Pullup

/-!
# Trimming a message

`adjmsg` of `io/stream.c` takes bytes off the head or the tail of a message, if
the run of blocks of one type there has as many, by the count of `xmsgsize`.
-/

namespace Svr4
namespace Messages

open Function List Option
variable {l' front : List Nat} {mp x : Nat} {endbp : Option Nat}

namespace Pool

/-!
## adjmsg
-/

def type (p : Pool) (bp : Nat) : Nat := (p.datab (p.datap bp)).dbType

/-- The loop to the block before `endbp`; it must not run off the message. -/
def blockBefore (p : Pool) (endbp : Option Nat) : Nat → Nat → Option Nat
  | 0, _ => none
  | fuel + 1, bp =>
    if p.cont bp = endbp then some bp
    else (p.cont bp).bind fun c => blockBefore p endbp fuel c

/-- The loop of `xmsgsize` from the end of a message; `endbp` is counted. -/
def xmsgsizeBack (type mp : Nat) (p : Pool) : Nat → Nat → Int → Option Int
  | fuel, endbp, count =>
    if endbp = mp then some count
    else match fuel with
      | 0 => none
      | fuel + 1 =>
        (p.blockBefore (some endbp) p.nhdr mp).bind fun bp =>
          if type ≠ p.type bp then some count
          else xmsgsizeBack type mp p fuel bp (sint (count + p.size bp))

/-- `xmsgsize(mp, 0)` -/
def xmsgsizeTail (p : Pool) (mp : Nat) : Option Int :=
  (p.blockBefore none p.nhdr mp).bind fun bp =>
    xmsgsizeBack (p.type bp) mp p p.nhdr bp (sint (p.size bp))

/-- The write pointer of `bp` moves back over `n` bytes. -/
def retreat (p : Pool) (bp n : Nat) : Pool :=
  p.setMsgb bp { p.msgb bp with
    bWptr := max ((p.msgb bp).bWptr - n) (p.msgb bp).bRptr
    bRptr_le := Nat.le_max_right _ _ }

/-- `while (len)`, from the head; `min` compares without a sign. -/
def trimHead : Nat → Pool → Nat → Option Nat → Option Pool
  | _, p, 0, _ => some p
  | 0, _, _, _ => none
  | _, _, _, none => none
  | fuel + 1, p, len, some bp =>
    let n := min (p.size bp) len
    trimHead fuel (p.advance bp n) (len - n) (p.cont bp)

/-- `while (len)`, from the tail. -/
def trimTail (mp : Nat) : Nat → Pool → Nat → Option Nat → Option Pool
  | _, p, 0, _ => some p
  | 0, _, _, _ => none
  | fuel + 1, p, len, endbp =>
    (p.blockBefore endbp p.nhdr mp).bind fun bp =>
      let n := min (p.size bp) len
      trimTail mp fuel (p.retreat bp n) (len - n) (some bp)

def adjmsg (p : Pool) (mp : Nat) (len : Int32) : Option (Bool × Pool) :=
  let fromhead : Bool := ¬ len < 0
  let len := if len < 0 then -len else len
  (if fromhead then p.xmsgsize mp else p.xmsgsizeTail mp).bind fun size =>
    if size < len.toInt then some (false, p)
    else
      ((if fromhead then trimHead p.nhdr p len.toUInt32.toNat (some mp)
        else trimTail mp p.nhdr p len.toUInt32.toNat none)).map fun p => (true, p)

/-!
## Bytes
-/

def data (p : Pool) (bp : Nat) : List Nat :=
  (List.range (p.size bp)).map fun i => p.mem ((p.msgb bp).bRptr + i)

def contents (p : Pool) (l : List Nat) : List Nat := l.flatMap p.data

variable {p q : Pool} {bp n : Nat} {l : List Nat}

@[simp] theorem length_data (p : Pool) (bp : Nat) : (p.data bp).length = p.size bp := by
  simp [data]

theorem length_contents (p : Pool) (l : List Nat) : (p.contents l).length = p.bytes l := by
  induction l with
  | nil => rfl
  | cons c l ih =>
    rw [contents, flatMap_cons, length_append, length_data, bytes_cons, ← ih]
    rfl

theorem data_advance (h : n ≤ p.size bp) : (p.advance bp n).data bp = (p.data bp).drop n := by
  have hle : (p.msgb bp).bRptr ≤ (p.msgb bp).bWptr := (p.msgb bp).bRptr_le
  unfold size at h
  have hmin : min ((p.msgb bp).bRptr + n) (p.msgb bp).bWptr = (p.msgb bp).bRptr + n := by omega
  apply ext_getElem
  · simp only [length_data, length_drop, size, advance, setMsgb, update_self, hmin]
    omega
  · simp [data, advance, setMsgb, hmin, Nat.add_assoc]

theorem data_retreat (h : n ≤ p.size bp) :
    (p.retreat bp n).data bp = (p.data bp).take (p.size bp - n) := by
  have hle : (p.msgb bp).bRptr ≤ (p.msgb bp).bWptr := (p.msgb bp).bRptr_le
  unfold size at h
  have hmax : max ((p.msgb bp).bWptr - n) (p.msgb bp).bRptr = (p.msgb bp).bWptr - n := by omega
  apply ext_getElem
  · simp only [length_data, length_take, size, retreat, setMsgb, update_self, hmax]
    omega
  · simp [data, retreat, setMsgb]

/-- Only the pointers into the buffers of some blocks are moved. -/
structure Trims (p q : Pool) (l : List Nat) : Prop where
  rest : { q with msgb := p.msgb } = p
  others : ∀ c, c ∉ l → q.msgb c = p.msgb c
  fields : ∀ c, (q.msgb c).bCont = (p.msgb c).bCont ∧ (q.msgb c).bDatap = (p.msgb c).bDatap ∧
    (q.msgb c).bBand = (p.msgb c).bBand ∧ (q.msgb c).bFlag = (p.msgb c).bFlag

namespace Trims

theorem refl (p : Pool) : Trims p p l := ⟨rfl, fun _ _ => rfl, fun _ => ⟨rfl, rfl, rfl, rfl⟩⟩

theorem trans {r : Pool} (h : Trims p q l') (h' : Trims q r l)
    (hsub : ∀ c ∈ l', c ∈ l) : Trims p r l where
  rest := by
    rw [← h.rest, ← h'.rest]
  others c hc := (h'.others c hc).trans (h.others c fun hin => hc (hsub c hin))
  fields c := by
    rcases h.fields c with ⟨h₁, h₂, h₃, h₄⟩
    rcases h'.fields c with ⟨h₁', h₂', h₃', h₄'⟩
    exact ⟨h₁'.trans h₁, h₂'.trans h₂, h₃'.trans h₃, h₄'.trans h₄⟩

theorem mono (h : Trims p q l') (hsub : ∀ c ∈ l', c ∈ l) : Trims p q l :=
  h.trans (refl q) hsub

theorem cont (h : Trims p q l) : q.cont = p.cont := funext fun c => (h.fields c).1

theorem mem (h : Trims p q l) : q.mem = p.mem := (congrArg Pool.mem h.rest :)

theorem nhdr (h : Trims p q l) : q.nhdr = p.nhdr := (congrArg Pool.nhdr h.rest :)

theorem data (h : Trims p q l) {c : Nat} (hc : c ∉ l) : q.data c = p.data c := by
  unfold Pool.data size
  rw [h.others c hc, h.mem]

theorem contents (h : Trims p q l) (hl' : ∀ c ∈ l', c ∉ l) : q.contents l' = p.contents l' :=
  flatMap_congr fun c hc => h.data (hl' c hc)

theorem setMsgb (x : Msgb) (hcont : x.bCont = (p.msgb bp).bCont)
    (hdatap : x.bDatap = (p.msgb bp).bDatap) (hband : x.bBand = (p.msgb bp).bBand)
    (hflag : x.bFlag = (p.msgb bp).bFlag) : Trims p (p.setMsgb bp x) [bp] where
  rest := rfl
  others c hc := update_of_ne (fun heq => hc (mem_singleton.mpr heq)) _ _
  fields c := by
    by_cases hc : c = bp
    · subst hc
      simp only [Pool.setMsgb, update_self]
      exact ⟨hcont, hdatap, hband, hflag⟩
    · simp [Pool.setMsgb, hc]

theorem advance (p : Pool) (bp n : Nat) : Trims p (p.advance bp n) [bp] :=
  setMsgb _ rfl rfl rfl rfl

theorem retreat (p : Pool) (bp n : Nat) : Trims p (p.retreat bp n) [bp] :=
  setMsgb _ rfl rfl rfl rfl

end Trims

/-!
## The blocks from the tail
-/

theorem blockBefore_eq (fuel : Nat) (hl : Chain p.cont (some mp) (front ++ [x]) endbp)
    (hend : ∀ c ∈ front ++ [x], some c ≠ endbp) (hfuel : front.length < fuel) :
    p.blockBefore endbp fuel mp = some x := by
  induction front generalizing mp fuel with
  | nil =>
    rcases hl with ⟨hmp, hx⟩
    cases fuel with
    | zero => cases hfuel
    | succ fuel =>
      cases hmp
      unfold blockBefore
      rw [if_pos (Chain.nil_iff.mp hx)]
  | cons c front ih =>
    rcases hl with ⟨hmp, hrest⟩
    cases hmp
    cases fuel with
    | zero => cases hfuel
    | succ fuel =>
      have hnext : ∃ d, p.cont c = some d ∧ d ∈ front ++ [x] := by
        cases front with
        | nil => exact ⟨x, hrest.1, mem_singleton_self x⟩
        | cons d front => exact ⟨d, hrest.1, mem_cons_self⟩
      rcases hnext with ⟨d, hd, hmem⟩
      have hne : p.cont c ≠ endbp := by
        rw [hd]
        exact hend d (mem_cons_of_mem _ hmem)
      unfold blockBefore
      rw [if_neg hne, hd, bind_some]
      refine ih fuel ?_ (fun c hc => hend c (mem_cons_of_mem _ hc)) (Nat.lt_of_succ_lt_succ hfuel)
      rw [← hd]
      exact hrest

theorem sint_add (a b : Int) : sint (sint a + b) = sint (a + b) := by
  unfold sint
  omega

theorem xmsgsizeLoop_eq (type : Nat) {bp : Option Nat} (fuel : Nat) (m : Int)
    (hl : Chain p.cont bp l none) (hfuel : l.length ≤ fuel) : xmsgsizeLoop type fuel p bp (sint m) =
      some (sint (m + p.bytes (l.takeWhile fun c => type = p.type c))) := by
  induction l generalizing bp fuel m with
  | nil =>
    have hbp : bp = none := hl
    subst hbp
    cases fuel <;> simp [xmsgsizeLoop, bytes]
  | cons c l ih =>
    rcases hl with ⟨rfl, hrest⟩
    cases fuel with
    | zero => cases hfuel
    | succ fuel =>
      unfold xmsgsizeLoop
      by_cases htype : type = p.type c
      · have hsame : ¬ type ≠ (p.datab (p.datap c)).dbType := not_not_intro htype
        rw [if_neg hsame, sint_add, ih fuel (m + p.size c) hrest (Nat.le_of_succ_le_succ hfuel),
          takeWhile_cons_of_pos (by simpa using htype), bytes_cons]
        congr 2
        push_cast
        ring
      · have hother : type ≠ (p.datab (p.datap c)).dbType := htype
        rw [if_pos hother, takeWhile_cons_of_neg (by simpa using htype)]
        simp [bytes]

theorem xmsgsizeBack_eq (type : Nat) {e : Option Nat} (fuel : Nat) (m : Int)
    (hl : Chain p.cont (some mp) (front ++ [x]) e) (hnodup : (front ++ [x]).Nodup)
    (hfuel : front.length ≤ fuel) (hknown : front.length < p.nhdr) :
    xmsgsizeBack type mp p fuel x (sint m) =
      some (sint (m + p.bytes (front.reverse.takeWhile fun c => type = p.type c))) := by
  induction front using List.reverseRecOn generalizing x fuel m e with
  | nil =>
    rcases hl with ⟨hmp, -⟩
    cases hmp
    unfold xmsgsizeBack
    simp [bytes]
  | append_singleton front y ih =>
    have hne : x ≠ mp := by
      rintro rfl
      have hmem : x ∈ front ++ [y] := by
        cases front with
        | nil =>
          have hhead : some x = some y := hl.1
          exact (some.inj hhead) ▸ mem_singleton_self y
        | cons c front =>
          have hhead : some x = some c := hl.1
          exact (some.inj hhead) ▸ mem_cons_self
      exact (nodup_append.mp hnodup).2.2 x hmem x (mem_singleton_self x) rfl
    rcases Chain.append_iff.mp hl with ⟨e', hfront, hx, -⟩
    rw [length_append, length_singleton] at hfuel hknown
    have hbefore : p.blockBefore (some x) p.nhdr mp = some y := by
      apply blockBefore_eq _ (hx ▸ hfront)
      · intro c hc heq
        exact (nodup_append.mp hnodup).2.2 c hc x (mem_singleton_self x) (some.inj heq)
      · omega
    cases fuel with
    | zero => cases hfuel
    | succ fuel =>
      unfold xmsgsizeBack
      rw [if_neg hne, hbefore]
      dsimp only
      rw [bind_some, reverse_append, reverse_singleton, singleton_append]
      by_cases htype : type = p.type y
      · rw [if_neg (not_not_intro htype), sint_add,
          ih fuel (m + p.size y) hfront (nodup_append.mp hnodup).1 (by omega) (by omega),
          takeWhile_cons_of_pos (by simpa using htype), bytes_cons]
        congr 2
        push_cast
        ring
      · rw [if_pos htype, takeWhile_cons_of_neg (by simpa using htype)]
        simp [bytes]

/-!
## Trimming
-/

theorem trimHead_eq {head : Option Nat} (fuel : Nat) (hl : Chain p.cont head l none)
    (hfuel : l.length ≤ fuel) (hn : n ≤ p.bytes l) :
    ∃ q, trimHead fuel p n head = some q ∧ Trims p q l ∧ q.contents l = (p.contents l).drop n := by
  induction l generalizing p head n fuel with
  | nil =>
    have hzero : n = 0 := Nat.le_zero.mp hn
    subst hzero
    exact ⟨p, by cases fuel <;> rfl, Trims.refl p, rfl⟩
  | cons c l ih =>
    have hnot := (nodup_cons.mp hl.nodup).1
    rcases hl with ⟨rfl, hrest⟩
    cases n with
    | zero => exact ⟨p, by cases fuel <;> rfl, Trims.refl p, rfl⟩
    | succ n =>
      cases fuel with
      | zero => cases hfuel
      | succ fuel =>
        have hstep := Trims.advance p c (min (p.size c) (n + 1))
        have hapart : ∀ d ∈ l, d ∉ [c] := by
          intro d hd hin
          exact hnot (mem_singleton.mp hin ▸ hd)
        have hsize : (p.advance c (min (p.size c) (n + 1))).bytes l = p.bytes l := by
          rw [← length_contents, ← length_contents, hstep.contents hapart]
        rw [bytes_cons] at hn
        rcases ih (p := p.advance c (min (p.size c) (n + 1)))
          (n := n + 1 - min (p.size c) (n + 1)) fuel
          (by rw [cont_advance]; exact hrest) (Nat.le_of_succ_le_succ hfuel)
          (by rw [hsize]; omega) with ⟨q, hrun, htrims, hbytes⟩
        refine ⟨q, hrun, hstep.trans (htrims.mono fun d => mem_cons_of_mem c)
          (fun d hd => mem_singleton.mp hd ▸ mem_cons_self), ?_⟩
        unfold contents at hbytes ⊢
        rw [flatMap_cons, flatMap_cons, hbytes, htrims.data hnot,
          data_advance (Nat.min_le_left _ _), drop_append, length_data]
        congr 1
        · rcases Nat.le_total (p.size c) (n + 1) with hle | hle
          · rw [Nat.min_eq_left hle, drop_of_length_le (by simp),
              drop_of_length_le (by simpa using hle)]
          · rw [Nat.min_eq_right hle]
        · rw [← contents, ← contents, hstep.contents hapart]
          congr 1
          omega

theorem trimTail_eq (fuel : Nat) (hl : Chain p.cont (some mp) l endbp)
    (hend : ∀ c ∈ l, some c ≠ endbp) (hnodup : l.Nodup) (hfuel : l.length ≤ fuel)
    (hknown : l.length ≤ p.nhdr) (hn : n ≤ p.bytes l) :
    ∃ q, trimTail mp fuel p n endbp = some q ∧ Trims p q l ∧
      q.contents l = (p.contents l).take (p.bytes l - n) := by
  induction l using List.reverseRecOn generalizing p n endbp fuel with
  | nil =>
    have hzero : n = 0 := Nat.le_zero.mp hn
    subst hzero
    exact ⟨p, by cases fuel <;> rfl, Trims.refl p, rfl⟩
  | append_singleton l x ih =>
    have hwhole : (p.contents (l ++ [x])).take (p.bytes (l ++ [x])) = p.contents (l ++ [x]) := by
      rw [← length_contents, take_length]
    cases n with
    | zero => exact ⟨p, by cases fuel <;> rfl, Trims.refl p, hwhole.symm⟩
    | succ n =>
      rw [length_append, length_singleton] at hfuel hknown
      cases fuel with
      | zero => cases hfuel
      | succ fuel =>
        rcases nodup_append.mp hnodup with ⟨hl', -, hdisj⟩
        have hnot : x ∉ l := fun hx => hdisj x hx x (mem_singleton_self x) rfl
        have hstep := Trims.retreat p x (min (p.size x) (n + 1))
        have hapart : ∀ d ∈ l, d ∉ [x] := by
          intro d hd hin
          exact hnot (mem_singleton.mp hin ▸ hd)
        have hsame := hstep.contents hapart
        have hsize : (p.retreat x (min (p.size x) (n + 1))).bytes l = p.bytes l := by
          rw [← length_contents, ← length_contents, hsame]
        have hbytes : p.bytes (l ++ [x]) = p.bytes l + p.size x := by
          simp [bytes]
        rcases Chain.append_iff.mp hl with ⟨e', hfront, hx, -⟩
        have hrun := blockBefore_eq p.nhdr hl hend (by omega)
        rw [hx] at hfront
        rcases ih (p := p.retreat x (min (p.size x) (n + 1)))
          (n := n + 1 - min (p.size x) (n + 1)) fuel (hstep.cont.symm ▸ hfront)
          (by rintro c hc ⟨⟩; exact hnot hc) hl'
          (Nat.le_of_succ_le_succ hfuel) (by rw [hstep.nhdr]; exact Nat.le_of_succ_le hknown)
          (by rw [hsize]; omega) with ⟨q, hq, htrims, hcont⟩
        refine ⟨q, ?_, hstep.trans (htrims.mono fun d => mem_append_left [x])
          (fun d hd => mem_append_right l hd), ?_⟩
        · simp only [trimTail, hrun, bind_some]
          exact hq
        · have hsplit (r : Pool) : r.contents (l ++ [x]) = r.contents l ++ r.data x := by
            simp [contents]
          rw [hsplit, hsplit, hcont, hsize, hsame, htrims.data hnot,
            data_retreat (Nat.min_le_left _ _), hbytes, take_append, length_contents]
          congr 1
          · rcases Nat.le_total (p.size x) (n + 1) with hle | hle
            · congr 1
              omega
            · rw [take_of_length_le (by rw [length_contents]; omega),
                take_of_length_le (by rw [length_contents]; omega)]
          · congr 1
            omega

/-!
## Exactness
-/

/-- A message, of no more blocks than there are headers. -/
structure Message (p : Pool) where
  mp : Nat
  blocks : List Nat
  chain : Chain p.cont (some mp) blocks none
  known : blocks.length ≤ p.nhdr

namespace Message

variable (m : p.Message)

theorem ne_nil : m.blocks ≠ [] := by
  intro h
  have hchain := m.chain
  rw [h] at hchain
  cases Chain.nil_iff.mp hchain

def leading : List Nat := m.blocks.takeWhile fun c => p.type m.mp = p.type c

/-- The blocks at the tail that have the type of the last one, from the last on. -/
def trailing : List Nat :=
  m.blocks.reverse.takeWhile fun c => p.type (m.blocks.getLast m.ne_nil) = p.type c

def run (len : Int32) : List Nat := if len < 0 then m.trailing else m.leading

theorem xmsgsize_eq : p.xmsgsize m.mp = some (sint (p.bytes m.leading)) := by
  have hrun := xmsgsizeLoop_eq (p.type m.mp) p.nhdr 0 m.chain m.known
  rw [Int.zero_add] at hrun
  exact hrun

theorem xmsgsizeTail_eq : p.xmsgsizeTail m.mp = some (sint (p.bytes m.trailing)) := by
  unfold trailing
  have hsplit := dropLast_concat_getLast m.ne_nil
  generalize m.blocks.dropLast = front, m.blocks.getLast m.ne_nil = x at hsplit ⊢
  have hchain := m.chain
  have hnodup := m.chain.nodup
  have hknown := m.known
  rw [← hsplit] at hchain hnodup hknown
  rw [length_append, length_singleton] at hknown
  have hlast := blockBefore_eq p.nhdr hchain (fun c _ => some_ne_none c) hknown
  have hback := xmsgsizeBack_eq (p.type x) p.nhdr (p.size x) hchain hnodup
    (Nat.le_of_succ_le hknown) hknown
  unfold xmsgsizeTail
  rw [hlast, bind_some, hback, ← hsplit, reverse_append, reverse_singleton,
    singleton_append, takeWhile_cons_of_pos (by simp), bytes_cons, Nat.cast_add]

theorem size_eq (len : Int32) :
    (if (¬ len < 0 : Bool) then p.xmsgsize m.mp else p.xmsgsizeTail m.mp) =
      some (sint (p.bytes (m.run len))) := by
  unfold run
  by_cases hneg : len < 0
  · simp only [hneg, not_true_eq_false, decide_false, Bool.false_eq_true, if_false, if_true]
    exact m.xmsgsizeTail_eq
  · simp only [hneg, not_false_eq_true, decide_true, if_false, if_true]
    exact m.xmsgsize_eq

theorem bytes_run_le (len : Int32) : p.bytes (m.run len) ≤ p.bytes m.blocks := by
  unfold run bytes
  split
  · have hsub := (takeWhile_sublist (l := m.blocks.reverse)
      fun c => decide (p.type (m.blocks.getLast m.ne_nil) = p.type c)).map p.size
    have hle := hsub.sum_le_sum fun _ _ => Nat.zero_le _
    rwa [map_reverse, sum_reverse] at hle
  · exact ((takeWhile_sublist _).map p.size).sum_le_sum fun _ _ => Nat.zero_le _

/-- The bytes that are left of a message of which `len` are taken off. -/
def left (len : Int32) : List Nat :=
  if len < 0 then (p.contents m.blocks).take (p.bytes m.blocks - len.toInt.natAbs)
  else (p.contents m.blocks).drop len.toInt.natAbs

/-- `adjmsg` succeeds just when the run has the bytes, which it takes off. -/
def Adjusts (len : Int32) : Prop :=
  ∃ ok q, p.adjmsg m.mp len = some (ok, q) ∧
    (ok = true ↔ len.toInt.natAbs ≤ p.bytes (m.run len)) ∧ (ok = false → q = p) ∧
    (ok = true → Trims p q m.blocks ∧ q.contents m.blocks = m.left len)

theorem adjmsg_eq (len : Int32) : p.adjmsg m.mp len =
      if sint (p.bytes (m.run len)) < (if len < 0 then -len else len).toInt then some (false, p)
      else (if (¬ len < 0 : Bool) then
          trimHead p.nhdr p (if len < 0 then -len else len).toUInt32.toNat (some m.mp)
          else trimTail m.mp p.nhdr p (if len < 0 then -len else len).toUInt32.toNat none).map
            fun p => (true, p) := by
  unfold adjmsg
  dsimp only
  rw [m.size_eq, bind_some]

theorem toNat_abs (len : Int32) :
    (if len < 0 then -len else len).toUInt32.toNat = len.toInt.natAbs := by
  have hval : len.toInt = _ := BitVec.toInt_eq_toNat_cond len.toBitVec
  have hlt : len.toBitVec.toNat < 2 ^ 32 := len.toBitVec.isLt
  by_cases hsmall : 2 * len.toBitVec.toNat < 2 ^ 32
  · rw [if_pos hsmall] at hval
    have hpos : ¬ len < 0 := by
      rw [Int32.lt_iff_toInt_lt, hval]
      exact Int.not_lt.mpr (Int.natCast_nonneg _)
    rw [if_neg hpos, hval]
    rfl
  · rw [if_neg hsmall] at hval
    have hneg : len < 0 := by
      rw [Int32.lt_iff_toInt_lt, hval]
      exact Int.sub_neg_of_lt (by exact_mod_cast hlt)
    have hnat : (-len).toUInt32.toNat = (2 ^ 32 - len.toBitVec.toNat) % 2 ^ 32 := by
      show (-len).toBitVec.toNat = _
      rw [Int32.toBitVec_neg, BitVec.toNat_neg]
    rw [if_pos hneg, hval, hnat]
    omega

theorem trim_eq {len : Int32} (h : len.toInt.natAbs ≤ p.bytes m.blocks) :
    ∃ q, (if (¬ len < 0 : Bool) then trimHead p.nhdr p len.toInt.natAbs (some m.mp)
      else trimTail m.mp p.nhdr p len.toInt.natAbs none) = some q ∧
      Trims p q m.blocks ∧ q.contents m.blocks = m.left len := by
  unfold left
  by_cases hneg : len < 0
  · simp only [hneg, not_true_eq_false, decide_false, Bool.false_eq_true, if_false, if_true]
    exact trimTail_eq p.nhdr m.chain (fun c _ => some_ne_none c) m.chain.nodup m.known m.known h
  · simp only [hneg, not_false_eq_true, decide_true, if_false, if_true]
    exact trimHead_eq p.nhdr m.chain m.known h

/--
`adjmsg` is exact where the comparison in 32 bits is: not for the least of all
integers, which it takes for less than every size, and not for a run of which the size
does not fit.
-/
theorem adjusts_iff (len : Int32) :
    m.Adjusts len ↔ (sint (p.bytes (m.run len)) < (if len < 0 then -len else len).toInt ↔
        p.bytes (m.run len) < len.toInt.natAbs) := by
  unfold Adjusts
  rw [m.adjmsg_eq, toNat_abs]
  by_cases hless : sint (p.bytes (m.run len)) < (if len < 0 then -len else len).toInt
  · rw [if_pos hless]
    constructor
    · rintro ⟨ok, q, hrun, hok, -⟩
      cases hrun
      exact iff_of_true hless (Nat.not_le.mp fun h => absurd (hok.mpr h) (by decide))
    · intro hiff
      have hlt := hiff.mp hless
      exact ⟨false, p, rfl, iff_of_false (by decide) (Nat.not_le.mpr hlt), fun _ => rfl,
        fun h => absurd h (by decide)⟩
  · rw [if_neg hless]
    constructor
    · rintro ⟨ok, q, hrun, hok, -⟩
      rcases map_eq_some_iff.mp hrun with ⟨r, -, hr⟩
      cases hr
      exact iff_of_false hless (Nat.not_lt.mpr (hok.mp rfl))
    · intro hiff
      have hle := Nat.not_lt.mp fun h => hless (hiff.mpr h)
      rcases m.trim_eq (hle.trans (m.bytes_run_le len)) with ⟨q, hrun, htrims, hleft⟩
      rw [hrun]
      exact ⟨true, q, rfl, iff_of_true rfl hle, fun h => absurd h (by decide),
        fun _ => ⟨htrims, hleft⟩⟩

end Message

/-!
## The least of all integers
-/

def oneEmpty : Pool where
  msgb _ := ⟨none, 64, 64, 0, 0, 0, Nat.le_refl 64⟩
  datab _ := ⟨none, 64, 128, 1, M_DATA, .mdbblk, 64, 0⟩
  databuf _ := 64
  mem _ := 0
  mdbfreelist := []
  msgfreelist := []
  mdbs := [0]
  msgs := []
  kmem := []
  log := []

def emptyMessage : oneEmpty.Message where
  mp := 0
  blocks := [0]
  chain := ⟨rfl, rfl⟩
  known := Nat.le_refl 1

/-- As many bytes are looked for in an empty message, beyond its head. -/
theorem not_adjusts : ¬ ∀ (p : Pool) (m : p.Message) (len : Int32), m.Adjusts len := by
  intro h
  rcases h oneEmpty emptyMessage (-2147483648) with ⟨ok, q, hrun, -⟩
  have hnone : oneEmpty.adjmsg 0 (-2147483648) = none := rfl
  rw [show oneEmpty.adjmsg emptyMessage.mp (-2147483648) = none from hnone] at hrun
  cases hrun

end Pool
end Messages
end Svr4
