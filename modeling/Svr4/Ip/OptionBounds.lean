import Svr4.Ip.Dooptions

/-!
# The bounds of option processing

Exactly when the walk of `ip_dooptions` stays in the option area and each option in
its length: no option but the last byte's is without its length byte, a route has a
pointer byte and room for the address that is recorded, and a timestamp's pointer is not
before the option, nor put beyond it by the address that is written over it.
-/

namespace Svr4
namespace Ip
variable {a : InAddr} {off : Nat} {d : Done}

namespace Dooptions

open ByteOrder

/-!
## What fits
-/

section Conditions

variable (env : Env) (m : Mem) (cp n : Nat)

/-- An address is looked for to be recorded in a route, and found. -/
def Recorded : Prop :=
  (m cp = ipoptRr ∨ env.provWithaddr cp (ipDst m) = true) ∧
    (m cp = ipoptSsrr → env.inOnnetof cp (ipDst m) = true) ∧
    (env.ipRtaddr cp (ipDst m)).isSome = true

/-- A route has its pointer byte, and one of three bytes has nothing recorded in it. -/
def RouteFits : Prop :=
  3 ≤ n ∧ (n = 3 → (m (cp + 2)).toNat < 4 ∨ ¬ Recorded env m cp)

def RouteStops : Prop :=
  (m (cp + 2)).toNat < 4 ∨ (m cp = ipoptSsrr ∧ env.provWithaddr cp (ipDst m) = false) ∨
    ((m cp = ipoptRr ∨ env.provWithaddr cp (ipDst m) = true) ∧
      (n = 3 ∨ (m (cp + 2)).toNat + 3 ≤ n) ∧ ¬ Recorded env m cp)

def Stamped : Prop := 5 ≤ n ∧ (m (cp + 2)).toNat + 4 ≤ n

/-- The pointer of a timestamp once an address is written where it points: it may have been
written over. -/
def nextPtr : Nat :=
  let ptr := (m (cp + 2)).toNat
  if ptr < 4 then ((env.provInaddr.byte (3 - ptr)) + 4).toNat else ptr + 4

/-- The pointer of a timestamp does not point before the option, and the address written
there does not make it point out of it. -/
def StampFits : Prop :=
  Stamped m cp n → ((m (cp + 3)).toNat % 16 = 0 → 1 ≤ (m (cp + 2)).toNat) ∧
    ((m (cp + 3)).toNat % 16 = 1 → (m (cp + 2)).toNat + 8 ≤ n →
      1 ≤ (m (cp + 2)).toNat ∧ 1 ≤ nextPtr env m cp ∧ nextPtr env m cp + 3 ≤ n) ∧
    ((m (cp + 3)).toNat % 16 = 2 → (m (cp + 2)).toNat + 8 ≤ n → 1 ≤ (m (cp + 2)).toNat)

def StampStops : Prop :=
  n < 5 ∨ (n < (m (cp + 2)).toNat + 4 ∧ (m (cp + 3)).toNat / 16 = 15) ∨
    (Stamped m cp n ∧ (2 < (m (cp + 3)).toNat % 16 ∨
      0 < (m (cp + 3)).toNat % 16 ∧ n < (m (cp + 2)).toNat + 8))

def OptionFits : Prop :=
  if m cp = ipoptLsrr ∨ m cp = ipoptSsrr ∨ m cp = ipoptRr then RouteFits env m cp n
  else if m cp = ipoptTs then StampFits env m cp n
  else True

def OptionStops : Prop :=
  if m cp = ipoptLsrr ∨ m cp = ipoptSsrr ∨ m cp = ipoptRr then RouteStops env m cp n
  else if m cp = ipoptTs then StampStops m cp n
  else False

end Conditions

/-- The options from a place on fit, as far as the walk goes over them. -/
inductive Fits (env : Env) (m : Mem) : Nat → Nat → Prop where
  | finished (cp : Nat) : Fits env m cp 0
  | eol {cp : Nat} (cnt : Nat) (h : m cp = ipoptEol) : Fits env m cp (cnt + 1)
  | nop {cp cnt : Nat} (h : m cp = ipoptNop) (hrest : Fits env m (cp + 1) cnt) :
      Fits env m cp (cnt + 1)
  | refused {cp cnt : Nat} (heol : m cp ≠ ipoptEol) (hnop : m cp ≠ ipoptNop)
      (hcnt : 2 ≤ cnt) (hlen : (m (cp + 1)).toNat = 0 ∨ cnt < (m (cp + 1)).toNat) :
      Fits env m cp cnt
  | option {cp cnt n : Nat} (heol : m cp ≠ ipoptEol) (hnop : m cp ≠ ipoptNop)
      (hcnt : 2 ≤ cnt) (hn : (m (cp + 1)).toNat = n) (hpos : 0 < n) (hle : n ≤ cnt)
      (hfits : OptionFits env m cp n)
      (hrest : ¬ OptionStops env m cp n → Fits env m (cp + n) (cnt - n)) :
      Fits env m cp cnt

/-!
## Small steps
-/

namespace Walk

variable {w : Walk} {n place : Nat}

@[simp] theorem touch_mem : (w.touch n place).mem = w.mem := rfl
@[simp] theorem touch_cp : (w.touch n place).cp = w.cp := rfl
@[simp] theorem touch_stop : (w.touch n place).stop = w.stop := rfl
@[simp] theorem touchWord_mem : (w.touchWord n place).mem = w.mem := rfl
@[simp] theorem touchWord_cp : (w.touchWord n place).cp = w.cp := rfl
@[simp] theorem touchWord_stop : (w.touchWord n place).stop = w.stop := rfl
@[simp] theorem head_mem : (w.head place).mem = w.mem := rfl
@[simp] theorem head_cp : (w.head place).cp = w.cp := rfl
@[simp] theorem head_stop : (w.head place).stop = w.stop := rfl
@[simp] theorem put_cp : (w.put n place a).cp = w.cp := rfl
@[simp] theorem put_stop : (w.put n place a).stop = w.stop := rfl
@[simp] theorem bump_cp : (w.bump n).cp = w.cp := rfl
@[simp] theorem bump_stop : (w.bump n).stop = w.stop := rfl

theorem touch_inside : (w.touch n place).inside = true ↔
    w.inside = true ∧ w.cp ≤ place ∧ place < w.cp + n ∧ w.cp + n ≤ w.stop := by
  unfold touch
  rw [Bool.and_eq_true, decide_eq_true_eq]

theorem head_inside : (w.head place).inside = true ↔ w.inside = true ∧ w.cp + place < w.stop := by
  unfold head
  rw [Bool.and_eq_true, decide_eq_true_eq]

theorem touchWord_inside : (w.touchWord n place).inside = true ↔
    w.inside = true ∧ w.cp ≤ place ∧ place + 3 < w.cp + n ∧ w.cp + n ≤ w.stop := by
  unfold touchWord
  rw [touch_inside, touch_inside, touch_cp, touch_stop]
  constructor
  · rintro ⟨⟨h, hlo, _, _⟩, _, hhi, hstop⟩
    exact ⟨h, hlo, hhi, hstop⟩
  · rintro ⟨h, hlo, hhi, hstop⟩
    exact ⟨⟨h, hlo, by omega, hstop⟩, by omega, hhi, hstop⟩

theorem put_inside : (w.put n place a).inside = true ↔
    w.inside = true ∧ w.cp ≤ place ∧ place + 3 < w.cp + n ∧ w.cp + n ≤ w.stop :=
  touchWord_inside

theorem bump_inside : (w.bump n).inside = true ↔ w.inside = true ∧ 2 < n ∧ w.cp + n ≤ w.stop := by
  have h : (w.bump n).inside = (w.touch n (w.cp + 2)).inside := rfl
  rw [h, touch_inside]
  constructor
  · rintro ⟨h, _, hhi, hstop⟩
    exact ⟨h, by omega, hstop⟩
  · rintro ⟨h, hhi, hstop⟩
    exact ⟨h, by omega, by omega, hstop⟩

theorem bump_mem (x : Nat) :
    (w.bump n).mem x = if x = w.cp + 2 then w.mem (w.cp + 2) + 4 else w.mem x :=
  rfl

theorem put_mem (x : Nat) : (w.put n place a).mem x =
      if place ≤ x ∧ x < place + 4 then a.byte (x - place) else w.mem x :=
  rfl

end Walk

structure Walk.Stays (w v : Walk) : Prop where
  cp : v.cp = w.cp
  cnt : v.cnt = w.cnt
  stop : v.stop = w.stop
  inside : v.inside = true → w.inside = true

namespace Walk.Stays

variable {w v u : Walk} {n place : Nat}

theorem refl (w : Walk) : w.Stays w := ⟨rfl, rfl, rfl, id⟩

theorem trans (h : w.Stays v) (h' : v.Stays u) : w.Stays u where
  cp := h'.cp.trans h.cp
  cnt := h'.cnt.trans h.cnt
  stop := h'.stop.trans h.stop
  inside := fun hu => h.inside (h'.inside hu)

theorem touch : w.Stays (w.touch n place) :=
  ⟨rfl, rfl, rfl, fun h => (Walk.touch_inside.mp h).1⟩

theorem head : w.Stays (w.head place) :=
  ⟨rfl, rfl, rfl, fun h => (Walk.head_inside.mp h).1⟩

theorem touchWord : w.Stays (w.touchWord n place) :=
  ⟨rfl, rfl, rfl, fun h => (Walk.touchWord_inside.mp h).1⟩

theorem put : w.Stays (w.put n place a) :=
  ⟨rfl, rfl, rfl, fun h => (Walk.put_inside.mp h).1⟩

theorem bump : w.Stays (w.bump n) :=
  ⟨rfl, rfl, rfl, fun h => (Walk.bump_inside.mp h).1⟩

theorem record : w.Stays (w.record n off a) :=
  put.trans bump

theorem saveRte : w.Stays (w.saveRte n) := by
  unfold Walk.saveRte
  dsimp only
  split
  · exact head
  · exact (head.trans touch).trans touch

theorem stamp (env : Env) : w.Stays (w.stamp env n) :=
  (touch.trans put).trans bump

theorem overflow : w.Stays (w.overflow n) :=
  ⟨rfl, rfl, rfl, fun h => (Walk.touch_inside.mp h).1⟩

theorem sourceRoute (env : Env) (opt : UInt8) :
    (w.touch n (w.cp + ipoptOffset)).Stays (w.sourceRoute env opt n).walk := by
  unfold Walk.sourceRoute
  dsimp only
  split
  · exact refl _
  · split
    · split <;> exact refl _
    · split
      · exact saveRte
      · split
        · exact refl _
        · cases env.ipRtaddr _ _ with
          | none => exact refl _
          | some a => exact record

theorem recordRoute (env : Env) :
    (w.touch n (w.cp + ipoptOffset)).Stays (w.recordRoute env n).walk := by
  unfold Walk.recordRoute
  dsimp only
  split
  · exact refl _
  · split
    · exact refl _
    · cases env.ipRtaddr _ _ with
      | none => exact refl _
      | some a => exact record

theorem timestamp (env : Env) : w.Stays (w.timestamp env n).walk := by
  unfold Walk.timestamp
  dsimp only
  split
  · exact head
  · split
    · split <;> exact (head.trans touch).trans overflow
    · split
      · exact ((head.trans touch).trans touch).trans (stamp env)
      · split
        · split
          · exact (head.trans touch).trans touch
          · exact ((((head.trans touch).trans touch).trans put).trans bump).trans (stamp env)
        · split
          · split
            · exact (head.trans touch).trans touch
            · split
              · exact ((head.trans touch).trans touch).trans touchWord
              · exact ((((head.trans touch).trans touch).trans touchWord).trans bump).trans
                  (stamp env)
          · exact (head.trans touch).trans touch

theorem option (env : Env) (opt : UInt8) : w.Stays (w.option env opt n).walk := by
  unfold Walk.option
  split
  · exact touch.trans (sourceRoute env opt)
  · split
    · exact touch.trans (recordRoute env)
    · split
      · exact timestamp env
      · exact refl w

end Walk.Stays

/-!
## One option
-/

section Options

variable {env : Env} {w : Walk} {n : Nat}

theorem record_inside (hlo : 2 < n) (hstop : w.cp + n ≤ w.stop) :
    (w.record n off a).inside = true ↔ w.inside = true ∧ off + 3 < n := by
  unfold Walk.record
  rw [Walk.bump_inside, Walk.put_inside, Walk.put_cp, Walk.put_stop]
  constructor
  · rintro ⟨⟨h, _, hhi, _⟩, _⟩
    exact ⟨h, by omega⟩
  · rintro ⟨h, hhi⟩
    exact ⟨⟨h, by omega, by omega, hstop⟩, hlo, hstop⟩

theorem saveRte_inside (hlen : (w.mem (w.cp + 1)).toNat = n) (hpos : 1 < n)
    (hin : w.inside = true) (hstop : w.cp + n ≤ w.stop) : (w.saveRte n).inside = true := by
  have hhead : (w.head ipoptOlen).inside = true :=
    Walk.head_inside.mpr ⟨hin, by show w.cp + 1 < w.stop; omega⟩
  have holen : ((w.head ipoptOlen).mem ((w.head ipoptOlen).cp + ipoptOlen)).toNat = n := hlen
  unfold Walk.saveRte
  dsimp only
  split
  · exact hhead
  · rw [holen, Walk.touch_inside, Walk.touch_inside]
    simp only [Walk.touch_cp, Walk.touch_stop, Walk.head_cp, Walk.head_stop]
    exact ⟨⟨hhead, by omega, by omega, hstop⟩, by omega, by omega, hstop⟩

theorem lessAddr_of_le (h : 4 ≤ n) (hn : n < 256) : lessAddr n = n - 4 := by
  unfold lessAddr
  omega

structure At (w : Walk) (n : Nat) : Prop where
  inside : w.inside = true
  stop : w.cp + n ≤ w.stop
  len : (w.mem (w.cp + 1)).toNat = n
  pos : 0 < n
  cp : 1 ≤ w.cp
  head : w.cp + 1 < w.stop

structure Meets (w : Walk) (n : Nat) (fits stops : Prop) (d : Done) : Prop where
  inside : d.walk.inside = true ↔ fits
  stops : fits → (d.error.isSome = true ↔ stops)
  mem : fits → ∀ x, x < w.cp ∨ w.cp + n ≤ x → d.walk.mem x = w.mem x

theorem At.lt (h : At w n) : n < 256 := by
  rw [← h.len]
  exact (w.mem (w.cp + 1)).toNat_lt

theorem At.touch_offset (h : At w n) (hlo : 3 ≤ n) :
    (w.touch n (w.cp + ipoptOffset)).inside = true :=
  Walk.touch_inside.mpr ⟨h.inside, Nat.le_add_right _ _, by show w.cp + 2 < w.cp + n; omega, h.stop⟩

theorem off_gt_lessAddr (hlo : 3 ≤ n) (hoff : 4 ≤ off) (hn : n < 256)
    (hbyte : off < 256) : off - 1 > lessAddr n ↔ ¬ (n = 3 ∨ off + 3 ≤ n) := by
  unfold lessAddr
  omega

theorem record_mem (hoff : off + 3 < n) (x : Nat)
    (hx : x < w.cp ∨ w.cp + n ≤ x) : (w.record n off a).mem x = w.mem x := by
  unfold Walk.record
  rw [Walk.bump_mem, Walk.put_cp, if_neg (by omega), Walk.put_mem, if_neg (by omega)]

theorem meets_of_recorded {w' : Walk} {fits stops : Prop} (hat : At w n) (hlo : 3 ≤ n)
    (hw' : w' = w.touch n (w.cp + ipoptOffset)) (hfits : fits ↔ off + 3 < n) (hstops : ¬ stops) :
    Meets w n fits stops (w'.record n off a).ok := by
  subst hw'
  constructor
  · show ((w.touch n (w.cp + ipoptOffset)).record n off a).inside = true ↔ fits
    have hstop : (w.touch n (w.cp + ipoptOffset)).cp + n ≤
        (w.touch n (w.cp + ipoptOffset)).stop := hat.stop
    rw [record_inside (by omega) hstop, hfits]
    exact ⟨fun h => h.2, fun h => ⟨hat.touch_offset hlo, h⟩⟩
  · intro _
    exact ⟨fun h => Bool.noConfusion h, fun h => (hstops h).elim⟩
  · intro h x hx
    exact record_mem (hfits.mp h) x hx

theorem meets_of_quiet {fits stops : Prop} (hin : d.walk.inside = true) (hfits : fits)
    (hstops : d.error.isSome = true ↔ stops) (hmem : d.walk.mem = w.mem) :
    Meets w n fits stops d where
  inside := ⟨fun _ => hfits, fun _ => hin⟩
  stops := fun _ => hstops
  mem := fun _ x _ => by rw [hmem]

theorem saveRte_mem : (w.saveRte n).mem = w.mem := by
  unfold Walk.saveRte
  dsimp only
  split <;> rfl

theorem meets_of_touched {fits stops : Prop} (hlo : ¬ 3 ≤ n)
    (hd : (w.touch n (w.cp + ipoptOffset)).Stays d.walk) (hfits : fits → 3 ≤ n) :
    Meets w n fits stops d where
  inside := by
    constructor
    · intro h
      have htouched := (Walk.touch_inside.mp (hd.inside h)).2.2.1
      have hlt : w.cp + 2 < w.cp + n := htouched
      omega
    · exact fun h => (hlo (hfits h)).elim
  stops := fun h => (hlo (hfits h)).elim
  mem := fun h => (hlo (hfits h)).elim

/-- Of a route whose pointer byte is there and is not too small. -/
structure Asked (env : Env) (w : Walk) (n : Nat) : Prop where
  lo : 3 ≤ n
  min : ¬ (w.mem (w.cp + 2)).toNat < 4
  asked : w.mem w.cp = ipoptRr ∨ env.provWithaddr w.cp (ipDst w.mem) = true

theorem Asked.stops_iff (h : Asked env w n) : RouteStops env w.mem w.cp n ↔
      (n = 3 ∨ (w.mem (w.cp + 2)).toNat + 3 ≤ n) ∧ ¬ Recorded env w.mem w.cp := by
  constructor
  · rintro (hmin | ⟨hssrr, hprov⟩ | hstop)
    · exact (h.min hmin).elim
    · rcases h.asked with hrr | hyes
      · rw [hssrr] at hrr
        exact absurd hrr (by decide)
      · rw [hprov] at hyes
        cases hyes
    · exact hstop.2
  · exact fun hstop => .inr (.inr ⟨h.asked, hstop⟩)

theorem Asked.off_gt_iff (h : Asked env w n) (hat : At w n) :
    (w.mem (w.cp + 2)).toNat - 1 > lessAddr n ↔ ¬ (n = 3 ∨ (w.mem (w.cp + 2)).toNat + 3 ≤ n) :=
  off_gt_lessAddr h.lo (Nat.le_of_not_lt h.min) hat.lt (w.mem (w.cp + 2)).toNat_lt

section

variable (hat : At w n) (h : Asked env w n)
include hat h

theorem full_meets
    (hfull : (w.mem (w.cp + 2)).toNat - 1 > lessAddr n) {v : Walk} (hin : v.inside = true)
    (hmem : v.mem = w.mem) :
    Meets w n (RouteFits env w.mem w.cp n) (RouteStops env w.mem w.cp n) v.ok := by
  have hno := (h.off_gt_iff hat).mp hfull
  refine meets_of_quiet hin ⟨h.lo, fun hthree => (hno (.inl hthree)).elim⟩ ?_ hmem
  rw [h.stops_iff]
  exact ⟨fun hsome => Bool.noConfusion hsome, fun hstop => (hno hstop.1).elim⟩

section

variable (hroom : ¬ (w.mem (w.cp + 2)).toNat - 1 > lessAddr n)
include hroom

theorem refused_meets (hno : ¬ Recorded env w.mem w.cp)
    (type code : Nat) : Meets w n (RouteFits env w.mem w.cp n) (RouteStops env w.mem w.cp n)
      ((w.touch n (w.cp + ipoptOffset)).bad type code) := by
  rw [h.off_gt_iff hat, not_not] at hroom
  refine meets_of_quiet (hat.touch_offset h.lo) ⟨h.lo, fun _ => .inr hno⟩ ?_ rfl
  rw [h.stops_iff]
  exact ⟨fun _ => ⟨hroom, hno⟩, fun _ => rfl⟩

theorem recorded_meets (hyes : Recorded env w.mem w.cp)
    (a : InAddr) : Meets w n (RouteFits env w.mem w.cp n) (RouteStops env w.mem w.cp n)
      ((w.touch n (w.cp + ipoptOffset)).record n ((w.mem (w.cp + 2)).toNat - 1) a).ok := by
  have hmin := h.min
  rw [h.off_gt_iff hat, not_not] at hroom
  apply meets_of_recorded hat h.lo rfl
  · constructor
    · rintro ⟨_, hthree⟩
      have hne : n ≠ 3 := fun hn => (hthree hn).elim hmin (fun hno => hno hyes)
      omega
    · intro hlt
      exact ⟨h.lo, fun hn => by omega⟩
  · rw [h.stops_iff]
    exact fun hstop => hstop.2 hyes

theorem searched_meets
    (hnet : w.mem w.cp = ipoptSsrr → env.inOnnetof w.cp (ipDst w.mem) = true) :
    Meets w n (RouteFits env w.mem w.cp n) (RouteStops env w.mem w.cp n)
      ((env.ipRtaddr w.cp (ipDst w.mem)).elim
        ((w.touch n (w.cp + ipoptOffset)).bad icmpUnreach icmpUnreachHost)
        fun prov =>
          ((w.touch n (w.cp + ipoptOffset)).record n ((w.mem (w.cp + 2)).toNat - 1) prov).ok) := by
  cases hroute : env.ipRtaddr w.cp (ipDst w.mem) with
  | none =>
    apply refused_meets hat h hroom
    rintro ⟨_, _, hsome⟩
    rw [hroute] at hsome
    cases hsome
  | some prov => exact recorded_meets hat h hroom ⟨h.asked, hnet, by rw [hroute]; rfl⟩ prov

end

end

theorem sourceRoute_eq (opt : UInt8) : w.sourceRoute env opt n =
      if (w.mem (w.cp + 2)).toNat < 4 then
        (w.touch n (w.cp + ipoptOffset)).bad icmpParamprob (w.cp + ipoptOffset)
      else if ¬ env.provWithaddr w.cp (ipDst w.mem) then if opt = ipoptSsrr then
          (w.touch n (w.cp + ipoptOffset)).bad icmpUnreach icmpUnreachSrcfail
        else (w.touch n (w.cp + ipoptOffset)).ok
      else if (w.mem (w.cp + 2)).toNat - 1 > lessAddr n then
        ((w.touch n (w.cp + ipoptOffset)).saveRte n).ok
      else if opt = ipoptSsrr ∧ ¬ env.inOnnetof w.cp (ipDst w.mem) then
        (w.touch n (w.cp + ipoptOffset)).bad icmpUnreach icmpUnreachHost
      else (env.ipRtaddr w.cp (ipDst w.mem)).elim
        ((w.touch n (w.cp + ipoptOffset)).bad icmpUnreach icmpUnreachHost)
        fun prov =>
          ((w.touch n (w.cp + ipoptOffset)).record n ((w.mem (w.cp + 2)).toNat - 1) prov).ok :=
  rfl

theorem recordRoute_eq : w.recordRoute env n = if (w.mem (w.cp + 2)).toNat < 4 then
        (w.touch n (w.cp + ipoptOffset)).bad icmpParamprob (w.cp + ipoptOffset)
      else if (w.mem (w.cp + 2)).toNat - 1 > lessAddr n then (w.touch n (w.cp + ipoptOffset)).ok
      else (env.ipRtaddr w.cp (ipDst w.mem)).elim
        ((w.touch n (w.cp + ipoptOffset)).bad icmpUnreach icmpUnreachHost)
        fun prov =>
          ((w.touch n (w.cp + ipoptOffset)).record n ((w.mem (w.cp + 2)).toNat - 1) prov).ok :=
  rfl

theorem sourceRoute_meets (hat : At w n) (hkind : w.mem w.cp = ipoptLsrr ∨ w.mem w.cp = ipoptSsrr) :
    Meets w n (RouteFits env w.mem w.cp n) (RouteStops env w.mem w.cp n)
      (w.sourceRoute env (w.mem w.cp) n) := by
  have hrr : w.mem w.cp ≠ ipoptRr := by
    rcases hkind with h | h <;> (rw [h]; decide)
  by_cases hlo : 3 ≤ n
  · have hin := hat.touch_offset hlo
    rw [sourceRoute_eq]
    by_cases hmin : (w.mem (w.cp + 2)).toNat < 4
    · rw [if_pos hmin]
      exact meets_of_quiet hin ⟨hlo, fun _ => .inl hmin⟩ ⟨fun _ => .inl hmin, fun _ => rfl⟩ rfl
    rw [if_neg hmin]
    by_cases hprov : env.provWithaddr w.cp (ipDst w.mem) = true
    · have hasked : Asked env w n := ⟨hlo, hmin, .inr hprov⟩
      rw [if_neg (not_not_intro hprov)]
      by_cases hfull : (w.mem (w.cp + 2)).toNat - 1 > lessAddr n
      · rw [if_pos hfull]
        have hsaved := saveRte_inside (w := w.touch n (w.cp + ipoptOffset)) hat.len (by omega) hin
          hat.stop
        exact full_meets hat hasked hfull hsaved saveRte_mem
      rw [if_neg hfull]
      split
      · rename_i hstrict
        exact refused_meets hat hasked hfull (fun hyes => hstrict.2 (hyes.2.1 hstrict.1)) _ _
      · rename_i hstrict
        apply searched_meets hat hasked hfull
        intro hssrr
        by_contra hnet
        exact hstrict ⟨hssrr, hnet⟩
    · rw [if_pos hprov]
      have hno : ¬ Recorded env w.mem w.cp := fun hyes => hyes.1.elim hrr hprov
      have hfits : RouteFits env w.mem w.cp n := ⟨hlo, fun _ => .inr hno⟩
      split
      · rename_i hssrr
        exact meets_of_quiet hin hfits
          ⟨fun _ => .inr (.inl ⟨hssrr, Bool.eq_false_iff.mpr hprov⟩), fun _ => rfl⟩ rfl
      · rename_i hlsrr
        refine meets_of_quiet hin hfits ⟨fun h => Bool.noConfusion h, ?_⟩ rfl
        rintro (h | h | ⟨h, _⟩)
        · exact (hmin h).elim
        · exact (hlsrr h.1).elim
        · exact (h.elim hrr hprov).elim
  · exact meets_of_touched hlo (Walk.Stays.sourceRoute env _) fun h => h.1

theorem recordRoute_meets (hat : At w n) (hkind : w.mem w.cp = ipoptRr) :
    Meets w n (RouteFits env w.mem w.cp n) (RouteStops env w.mem w.cp n) (w.recordRoute env n) := by
  by_cases hlo : 3 ≤ n
  · have hin := hat.touch_offset hlo
    rw [recordRoute_eq]
    by_cases hmin : (w.mem (w.cp + 2)).toNat < 4
    · rw [if_pos hmin]
      exact meets_of_quiet hin ⟨hlo, fun _ => .inl hmin⟩ ⟨fun _ => .inl hmin, fun _ => rfl⟩ rfl
    rw [if_neg hmin]
    have hasked : Asked env w n := ⟨hlo, hmin, .inl hkind⟩
    by_cases hfull : (w.mem (w.cp + 2)).toNat - 1 > lessAddr n
    · rw [if_pos hfull]
      exact full_meets hat hasked hfull hin rfl
    rw [if_neg hfull]
    apply searched_meets hat hasked hfull
    intro hssrr
    rw [hkind] at hssrr
    exact absurd hssrr (by decide)
  · exact meets_of_touched hlo (Walk.Stays.recordRoute env) fun h => h.1

theorem stamp_inside (hcp : 1 ≤ w.cp) (hlo : 2 < n) (hstop : w.cp + n ≤ w.stop) :
    (w.stamp env n).inside = true ↔
      w.inside = true ∧ 1 ≤ (w.mem (w.cp + 2)).toNat ∧ (w.mem (w.cp + 2)).toNat + 3 ≤ n := by
  have h : (w.stamp env n).inside = (((w.touch n (w.cp + 2)).put n
    (w.cp + (w.mem (w.cp + 2)).toNat - 1) (env.iptime w.cp)).bump n).inside := rfl
  rw [h, Walk.bump_inside, Walk.put_inside, Walk.touch_inside]
  simp only [Walk.put_cp, Walk.put_stop, Walk.touch_cp, Walk.touch_stop]
  constructor
  · rintro ⟨⟨⟨hin, _⟩, hlow, hhigh, _⟩, _⟩
    exact ⟨hin, by omega, by omega⟩
  · rintro ⟨hin, hlow, hhigh⟩
    exact ⟨⟨⟨hin, by omega, by omega, hstop⟩, by omega, by omega, hstop⟩, hlo, hstop⟩

theorem stamp_mem (hlow : 1 ≤ (w.mem (w.cp + 2)).toNat)
    (hhigh : (w.mem (w.cp + 2)).toNat + 3 ≤ n) (x : Nat) (hx : x < w.cp ∨ w.cp + n ≤ x) :
    (w.stamp env n).mem x = w.mem x := by
  have h : (w.stamp env n).mem x = (((w.touch n (w.cp + 2)).put n
    (w.cp + (w.mem (w.cp + 2)).toNat - 1) (env.iptime w.cp)).bump n).mem x := rfl
  rw [h, Walk.bump_mem, Walk.put_cp, Walk.touch_cp, if_neg (by omega), Walk.put_mem,
    if_neg (by omega), Walk.touch_mem]

/-- The walk at a timestamp whose length, pointer and flags have been read. -/
def read (n : Nat) (w : Walk) : Walk :=
  ((w.head ipoptOlen).touch n (w.cp + ipoptOffset)).touch n (w.cp + 3)

theorem At.read_inside (h : At w n) (hlo : 5 ≤ n) : (read n w).inside = true := by
  have hhead : (w.head ipoptOlen).inside = true := Walk.head_inside.mpr ⟨h.inside, h.head⟩
  have hstop := h.stop
  unfold read
  rw [Walk.touch_inside, Walk.touch_inside]
  simp only [Walk.touch_cp, Walk.touch_stop, Walk.head_cp, Walk.head_stop, ipoptOffset]
  exact ⟨⟨hhead, by omega, by omega, hstop⟩, by omega, by omega, hstop⟩

theorem timestamp_eq : w.timestamp env n =
      if (w.mem (w.cp + 1)).toNat < 5 then (w.head ipoptOlen).bad icmpParamprob w.cp
      else if (w.mem (w.cp + 2)).toNat > lessAddr (w.mem (w.cp + 1)).toNat then
        if ((((w.head ipoptOlen).touch n (w.cp + ipoptOffset)).overflow n).mem
            (w.cp + 3)).toNat / 16 = 0 then
          (((w.head ipoptOlen).touch n (w.cp + ipoptOffset)).overflow n).bad icmpParamprob w.cp
        else (((w.head ipoptOlen).touch n (w.cp + ipoptOffset)).overflow n).ok
      else if (w.mem (w.cp + 3)).toNat % 16 = 0 then ((read n w).stamp env n).ok
      else if (w.mem (w.cp + 3)).toNat % 16 = 1 then
        if (w.mem (w.cp + 2)).toNat + 8 > (w.mem (w.cp + 1)).toNat then
          (read n w).bad icmpParamprob w.cp
        else ((((read n w).put n (w.cp + (w.mem (w.cp + 2)).toNat - 1) env.provInaddr).bump n).stamp
          env n).ok else if (w.mem (w.cp + 3)).toNat % 16 = 2 then
        if (w.mem (w.cp + 2)).toNat + 8 > (w.mem (w.cp + 1)).toNat then
          (read n w).bad icmpParamprob w.cp
        else if ¬ env.provWithaddr w.cp (addrAt w.mem (w.cp + (w.mem (w.cp + 2)).toNat - 1)) then
          ((read n w).touchWord n (w.cp + (w.mem (w.cp + 2)).toNat - 1)).ok
        else ((((read n w).touchWord n (w.cp + (w.mem (w.cp + 2)).toNat - 1)).bump n).stamp env n).ok
      else (read n w).bad icmpParamprob w.cp :=
  rfl

theorem overflow_mem :
    ((w.overflow n).mem (w.cp + 3)).toNat / 16 = ((w.mem (w.cp + 3)).toNat / 16 + 1) % 16 := by
  have h : (w.overflow n).mem (w.cp + 3) = UInt8.ofNat ((w.mem (w.cp + 3)).toNat % 16 +
      ((w.mem (w.cp + 3)).toNat / 16 + 1) % 16 * 16) := by
    show (if w.cp + 3 = w.cp + 3 then _ else _) = _
    rw [if_pos rfl]
  rw [h, UInt8.toNat_ofNat']
  omega

theorem full_stamp_meets (hat : At w n) (hlo : 5 ≤ n)
    (hfull : n < (w.mem (w.cp + 2)).toNat + 4) {v : Walk}
    (hv : v = (w.head ipoptOlen).touch n (w.cp + ipoptOffset)) :
    Meets w n (StampFits env w.mem w.cp n) (StampStops w.mem w.cp n)
      (if ((v.overflow n).mem (w.cp + 3)).toNat / 16 = 0 then
        (v.overflow n).bad icmpParamprob w.cp else (v.overflow n).ok) := by
  have hv3 : (v.overflow n).inside = true := by
    have h : (v.overflow n).inside = (read n w).inside := by
      rw [hv]
      rfl
    rw [h]
    exact hat.read_inside hlo
  have hfits : StampFits env w.mem w.cp n := fun hstamped => by
    have hle := hstamped.2
    omega
  have hflow : ((v.overflow n).mem (w.cp + 3)).toNat / 16 =
      ((w.mem (w.cp + 3)).toNat / 16 + 1) % 16 := by
    rw [hv]
    exact overflow_mem
  have hbyte := (w.mem (w.cp + 3)).toNat_lt
  have hmem : ∀ x, x < w.cp ∨ w.cp + n ≤ x → (v.overflow n).mem x = w.mem x := by
    intro x hx
    rw [hv]
    show (if x = w.cp + 3 then _ else _) = _
    rw [if_neg (by omega)]
    rfl
  split
  · rename_i hz
    refine ⟨⟨fun _ => hfits, fun _ => hv3⟩, fun _ => ⟨fun _ => ?_, fun _ => rfl⟩, fun _ => hmem⟩
    exact .inr (.inl ⟨hfull, by omega⟩)
  · rename_i hz
    refine ⟨⟨fun _ => hfits, fun _ => hv3⟩, fun _ => ⟨fun h => Bool.noConfusion h, ?_⟩,
      fun _ => hmem⟩
    rintro (h | ⟨_, h⟩ | ⟨h, _⟩)
    · omega
    · omega
    · have hle := h.2
      omega

theorem refused_stamp_meets (hat : At w n) (hstamped : Stamped w.mem w.cp n)
    (hstop : 2 < (w.mem (w.cp + 3)).toNat % 16 ∨
      0 < (w.mem (w.cp + 3)).toNat % 16 ∧ n < (w.mem (w.cp + 2)).toNat + 8) :
    Meets w n (StampFits env w.mem w.cp n) (StampStops w.mem w.cp n)
      ((read n w).bad icmpParamprob w.cp) := by
  apply meets_of_quiet (hat.read_inside hstamped.1)
  · intro _
    constructor
    · omega
    · constructor
      · omega
      · omega
  · exact ⟨fun _ => .inr (.inr ⟨hstamped, hstop⟩), fun _ => rfl⟩
  · rfl

theorem not_stops_of_stamped (hstamped : Stamped w.mem w.cp n)
    (hflag : (w.mem (w.cp + 3)).toNat % 16 ≤ 2)
    (hroom : 0 < (w.mem (w.cp + 3)).toNat % 16 → (w.mem (w.cp + 2)).toNat + 8 ≤ n) :
    ¬ StampStops w.mem w.cp n := by
  have hlo := hstamped.1
  have hle := hstamped.2
  rintro (h | ⟨h, _⟩ | ⟨_, h | ⟨hpos, hlt⟩⟩)
  · omega
  · omega
  · omega
  · omega

theorem tsonly_meets (hat : At w n) (hstamped : Stamped w.mem w.cp n)
    (hflag : (w.mem (w.cp + 3)).toNat % 16 = 0) :
    Meets w n (StampFits env w.mem w.cp n) (StampStops w.mem w.cp n)
      ((read n w).stamp env n).ok := by
  have hlo := hstamped.1
  have hle := hstamped.2
  have hread := hat.read_inside hlo
  have hfits : StampFits env w.mem w.cp n ↔ 1 ≤ (w.mem (w.cp + 2)).toNat := by
    constructor
    · exact fun h => (h hstamped).1 hflag
    · exact fun h _ => ⟨fun _ => h, fun hone => by omega, fun htwo => by omega⟩
  constructor
  · show ((read n w).stamp env n).inside = true ↔ _
    rw [stamp_inside (w := read n w) hat.cp (by omega) hat.stop, hfits]
    exact ⟨fun h => h.2.1, fun h => ⟨hread, h, by show (w.mem (w.cp + 2)).toNat + 3 ≤ n; omega⟩⟩
  · intro _
    have hno := not_stops_of_stamped hstamped (by omega) (fun hpos => by omega)
    exact ⟨fun h => Bool.noConfusion h, fun h => (hno h).elim⟩
  · intro h x hx
    have hhigh : (w.mem (w.cp + 2)).toNat + 3 ≤ n := by omega
    exact stamp_mem (w := read n w) (hfits.mp h) hhigh x hx

theorem prespec_meets (hat : At w n) (hstamped : Stamped w.mem w.cp n)
    (hflag : (w.mem (w.cp + 3)).toNat % 16 = 2) (hroom : (w.mem (w.cp + 2)).toNat + 8 ≤ n)
    (ours : Bool) : Meets w n (StampFits env w.mem w.cp n) (StampStops w.mem w.cp n)
      (if ¬ ours then ((read n w).touchWord n (w.cp + (w.mem (w.cp + 2)).toNat - 1)).ok
        else ((((read n w).touchWord n (w.cp + (w.mem (w.cp + 2)).toNat - 1)).bump n).stamp
          env n).ok) := by
  have hlo := hstamped.1
  have hcp := hat.cp
  have hread := hat.read_inside hlo
  have hlt := hat.lt
  have hfits : StampFits env w.mem w.cp n ↔ 1 ≤ (w.mem (w.cp + 2)).toNat := by
    constructor
    · exact fun h => (h hstamped).2.2 hflag hroom
    · exact fun h _ => ⟨fun hzero => by omega, fun hone => by omega, fun _ _ => h⟩
  have hno := not_stops_of_stamped hstamped (by omega) (fun _ => hroom)
  have hword : ((read n w).touchWord n (w.cp + (w.mem (w.cp + 2)).toNat - 1)).inside = true ↔
      1 ≤ (w.mem (w.cp + 2)).toNat := by
    rw [Walk.touchWord_inside]
    show _ ∧ w.cp ≤ _ ∧ _ < w.cp + n ∧ w.cp + n ≤ w.stop ↔ _
    exact ⟨fun h => by have := h.2.1; omega, fun h => ⟨hread, by omega, by omega, hat.stop⟩⟩
  cases ours with
  | false =>
    constructor
    · exact hword.trans hfits.symm
    · exact fun _ => ⟨fun h => Bool.noConfusion h, fun h => (hno h).elim⟩
    · exact fun _ _ _ => rfl
  | true =>
    generalize hv : ((read n w).touchWord n (w.cp + (w.mem (w.cp + 2)).toNat - 1)).bump n = v
    have hvcp : v.cp = w.cp := by rw [← hv]; rfl
    have hvstop : v.stop = w.stop := by rw [← hv]; rfl
    have hvin : v.inside = true ↔ 1 ≤ (w.mem (w.cp + 2)).toNat := by
      rw [← hv, Walk.bump_inside, hword]
      exact ⟨fun h => h.1, fun h => ⟨h, by omega, hat.stop⟩⟩
    have hvmem : ∀ x, v.mem x = if x = w.cp + 2 then w.mem (w.cp + 2) + 4 else w.mem x := by
      intro x
      rw [← hv]
      rfl
    have hptr : (v.mem (v.cp + 2)).toNat = (w.mem (w.cp + 2)).toNat + 4 := by
      rw [hvcp, hvmem, if_pos rfl, UInt8.toNat_add]
      show ((w.mem (w.cp + 2)).toNat + 4) % 256 = _
      omega
    constructor
    · show (v.stamp env n).inside = true ↔ _
      rw [stamp_inside (by omega) (by omega) (by rw [hvcp, hvstop]; exact hat.stop), hvin, hptr,
        hfits]
      exact ⟨fun h => h.1, fun h => ⟨h, by omega, by omega⟩⟩
    · exact fun _ => ⟨fun h => Bool.noConfusion h, fun h => (hno h).elim⟩
    · intro _ x hx
      show (v.stamp env n).mem x = _
      rw [stamp_mem (by omega) (by omega) x (by rw [hvcp]; exact hx), hvmem, if_neg (by omega)]

theorem byte_eq {i j : Nat} (h : i = j) : a.byte i = a.byte j := by rw [h]

theorem tsandaddr_meets (hat : At w n) (hstamped : Stamped w.mem w.cp n)
    (hflag : (w.mem (w.cp + 3)).toNat % 16 = 1) (hroom : (w.mem (w.cp + 2)).toNat + 8 ≤ n) :
    Meets w n (StampFits env w.mem w.cp n) (StampStops w.mem w.cp n)
      ((((read n w).put n (w.cp + (w.mem (w.cp + 2)).toNat - 1) env.provInaddr).bump n).stamp
        env n).ok := by
  have hlo := hstamped.1
  have hcp := hat.cp
  have hread := hat.read_inside hlo
  have hlt := hat.lt
  have hfits : StampFits env w.mem w.cp n ↔ 1 ≤ (w.mem (w.cp + 2)).toNat ∧
      1 ≤ nextPtr env w.mem w.cp ∧ nextPtr env w.mem w.cp + 3 ≤ n := by
    constructor
    · exact fun h => (h hstamped).2.1 hflag hroom
    · exact fun h _ => ⟨fun hzero => by omega, fun _ _ => h, fun htwo => by omega⟩
  have hno := not_stops_of_stamped hstamped (by omega) (fun _ => hroom)
  generalize hv : ((read n w).put n (w.cp + (w.mem (w.cp + 2)).toNat - 1) env.provInaddr).bump n = v
  have hvcp : v.cp = w.cp := by rw [← hv]; rfl
  have hvstop : v.stop = w.stop := by rw [← hv]; rfl
  have hvin : v.inside = true ↔ 1 ≤ (w.mem (w.cp + 2)).toNat := by
    rw [← hv, Walk.bump_inside, Walk.put_inside]
    show (_ ∧ w.cp ≤ _ ∧ _ < w.cp + n ∧ w.cp + n ≤ w.stop) ∧ _ ∧ w.cp + n ≤ w.stop ↔ _
    exact ⟨fun h => by have := h.1.2.1; omega,
      fun h => ⟨⟨hread, by omega, by omega, hat.stop⟩, by omega, hat.stop⟩⟩
  have hput : ∀ x, ((read n w).put n (w.cp + (w.mem (w.cp + 2)).toNat - 1) env.provInaddr).mem x =
      if w.cp + (w.mem (w.cp + 2)).toNat - 1 ≤ x ∧ x < w.cp + (w.mem (w.cp + 2)).toNat - 1 + 4 then
        env.provInaddr.byte (x - (w.cp + (w.mem (w.cp + 2)).toNat - 1))
      else w.mem x := fun _ => rfl
  have hvmem : ∀ x, v.mem x = if x = w.cp + 2 then
      ((read n w).put n (w.cp + (w.mem (w.cp + 2)).toNat - 1) env.provInaddr).mem (w.cp + 2) + 4
      else ((read n w).put n (w.cp + (w.mem (w.cp + 2)).toNat - 1) env.provInaddr).mem x := by
    intro x
    rw [← hv]
    rfl
  have hptr : (v.mem (v.cp + 2)).toNat = nextPtr env w.mem w.cp := by
    rw [hvcp, hvmem, if_pos rfl, hput]
    unfold nextPtr
    by_cases hover : (w.mem (w.cp + 2)).toNat < 4
    · rw [if_pos hover, if_pos ⟨by omega, by omega⟩,
        byte_eq (show w.cp + 2 - (w.cp + (w.mem (w.cp + 2)).toNat - 1) =
          3 - (w.mem (w.cp + 2)).toNat by omega)]
    · rw [if_neg hover, if_neg (by omega), UInt8.toNat_add]
      show ((w.mem (w.cp + 2)).toNat + 4) % 256 = _
      omega
  constructor
  · show (v.stamp env n).inside = true ↔ _
    rw [stamp_inside (by omega) (by omega) (by rw [hvcp, hvstop]; exact hat.stop), hvin, hptr, hfits]
  · exact fun _ => ⟨fun h => Bool.noConfusion h, fun h => (hno h).elim⟩
  · intro h x hx
    rcases hfits.mp h with ⟨hptr', hlow, hhigh⟩
    show (v.stamp env n).mem x = _
    rw [stamp_mem (by omega) (by omega) x (by rw [hvcp]; exact hx), hvmem, if_neg (by omega), hput,
      if_neg (by omega)]

theorem timestamp_meets (hat : At w n) :
    Meets w n (StampFits env w.mem w.cp n) (StampStops w.mem w.cp n) (w.timestamp env n) := by
  rw [timestamp_eq, hat.len]
  by_cases hlo : n < 5
  · rw [if_pos hlo]
    apply meets_of_quiet (Walk.head_inside.mpr ⟨hat.inside, hat.head⟩)
    · exact fun hstamped => absurd hstamped.1 (by omega)
    · exact ⟨fun _ => .inl hlo, fun _ => rfl⟩
    · rfl
  rw [if_neg hlo, lessAddr_of_le (by omega) hat.lt]
  by_cases hfull : (w.mem (w.cp + 2)).toNat > n - 4
  · rw [if_pos hfull]
    exact full_stamp_meets hat (by omega) (by omega) rfl
  rw [if_neg hfull]
  have hstamped : Stamped w.mem w.cp n := ⟨by omega, by omega⟩
  by_cases hzero : (w.mem (w.cp + 3)).toNat % 16 = 0
  · rw [if_pos hzero]
    exact tsonly_meets hat hstamped hzero
  rw [if_neg hzero]
  by_cases hone : (w.mem (w.cp + 3)).toNat % 16 = 1
  · rw [if_pos hone]
    split
    · exact refused_stamp_meets hat hstamped (.inr ⟨by omega, by omega⟩)
    · exact tsandaddr_meets hat hstamped hone (by omega)
  rw [if_neg hone]
  by_cases htwo : (w.mem (w.cp + 3)).toNat % 16 = 2
  · rw [if_pos htwo]
    by_cases hroom : (w.mem (w.cp + 2)).toNat + 8 > n
    · rw [if_pos hroom]
      exact refused_stamp_meets hat hstamped (.inr ⟨by omega, by omega⟩)
    · rw [if_neg hroom]
      exact prespec_meets hat hstamped htwo (by omega) _
  · rw [if_neg htwo]
    exact refused_stamp_meets hat hstamped (.inl (by omega))

theorem option_meets (hat : At w n) :
    Meets w n (OptionFits env w.mem w.cp n) (OptionStops env w.mem w.cp n)
      (w.option env (w.mem w.cp) n) := by
  unfold Walk.option OptionFits OptionStops
  by_cases hroute : w.mem w.cp = ipoptLsrr ∨ w.mem w.cp = ipoptSsrr
  · have hall : w.mem w.cp = ipoptLsrr ∨ w.mem w.cp = ipoptSsrr ∨ w.mem w.cp = ipoptRr :=
      hroute.elim .inl fun h => .inr (.inl h)
    rw [if_pos hroute, if_pos hall, if_pos hall]
    exact sourceRoute_meets hat hroute
  rw [if_neg hroute]
  by_cases hrr : w.mem w.cp = ipoptRr
  · rw [if_pos hrr, if_pos (.inr (.inr hrr)), if_pos (.inr (.inr hrr))]
    exact recordRoute_meets hat hrr
  have hnone : ¬ (w.mem w.cp = ipoptLsrr ∨ w.mem w.cp = ipoptSsrr ∨ w.mem w.cp = ipoptRr) := by
    rintro (h | h | h)
    · exact hroute (.inl h)
    · exact hroute (.inr h)
    · exact hrr h
  rw [if_neg hrr, if_neg hnone, if_neg hnone]
  by_cases hts : w.mem w.cp = ipoptTs
  · rw [if_pos hts, if_pos hts, if_pos hts]
    exact timestamp_meets hat
  · rw [if_neg hts, if_neg hts, if_neg hts]
    exact meets_of_quiet hat.inside trivial ⟨fun h => Bool.noConfusion h, fun h => h.elim⟩ rfl

end Options

/-!
## The walk
-/

section Walks

variable {env : Env} {m : Mem} {w v : Walk} {n : Nat}

/-- The memory from an option on, and the header's own, are as they were. -/
def Agrees (m : Mem) (w : Walk) : Prop := ∀ x, x < 20 ∨ w.cp ≤ x → w.mem x = m x

theorem Agrees.ipDst (h : Agrees m w) : ipDst w.mem = ipDst m := by
  unfold Dooptions.ipDst addrAt
  rw [h 16 (.inl (by decide)), h 17 (.inl (by decide)), h 18 (.inl (by decide)),
    h 19 (.inl (by decide))]

theorem Agrees.fits_iff (h : Agrees m w) (n : Nat) :
    (OptionFits env w.mem w.cp n ↔ OptionFits env m w.cp n) ∧
      (OptionStops env w.mem w.cp n ↔ OptionStops env m w.cp n) := by
  have hkind := h w.cp (.inr (le_refl _))
  have htwo := h (w.cp + 2) (.inr (Nat.le_add_right _ _))
  have hthree := h (w.cp + 3) (.inr (Nat.le_add_right _ _))
  unfold OptionFits OptionStops RouteFits RouteStops StampFits StampStops Recorded Stamped nextPtr
  rw [h.ipDst, hkind, htwo, hthree]
  exact ⟨Iff.rfl, Iff.rfl⟩

theorem turn_inside : (∀ v, w.turn env = .inl v → v.inside = true → w.inside = true) ∧
      ∀ d, w.turn env = .inr d → d.walk.inside = true → w.inside = true := by
  have hheads : w.Stays ((w.head 0).head ipoptOlen) := Walk.Stays.head.trans Walk.Stays.head
  unfold Walk.turn
  dsimp only
  split
  · split
    · exact ⟨fun v h => (Sum.inr_ne_inl h).elim, fun d h hd => by
        rw [← Sum.inr.inj h] at hd
        exact Walk.Stays.head.inside hd⟩
    · split
      · exact ⟨fun v h hv => by
          rw [← Sum.inl.inj h] at hv
          exact Walk.Stays.head.inside hv, fun d h => (Sum.inl_ne_inr h).elim⟩
      · split
        · exact ⟨fun v h => (Sum.inr_ne_inl h).elim, fun d h hd => by
            rw [← Sum.inr.inj h] at hd
            exact hheads.inside hd⟩
        · split
          · exact ⟨fun v h => (Sum.inr_ne_inl h).elim, fun d h hd => by
              rw [← Sum.inr.inj h] at hd
              exact hheads.inside ((Walk.Stays.option env _).inside hd)⟩
          · exact ⟨fun v h hv => by
              rw [← Sum.inl.inj h] at hv
              exact hheads.inside ((Walk.Stays.option env _).inside hv),
              fun d h => (Sum.inl_ne_inr h).elim⟩
  · exact ⟨fun v h => (Sum.inr_ne_inl h).elim, fun d h hd => by
      rw [← Sum.inr.inj h] at hd
      exact hd⟩

theorem run_inside {turns : Nat} (h : Loop.run (Walk.turn env) turns w = some d)
    (hd : d.walk.inside = true) : w.inside = true := by
  by_contra hout
  have hleft : ¬ d.walk.inside = true :=
    Loop.run_invariant (I := fun w => ¬ w.inside = true) (Q := fun d => ¬ d.walk.inside = true)
      (fun w v hw hturn hv => hw (turn_inside.1 v hturn hv))
      (fun w d hw hturn hd => hw (turn_inside.2 d hturn hd)) hout h
  exact hleft hd

theorem turn_nil (h : w.cnt = 0) : w.turn env = .inr w.ok := by
  unfold Walk.turn
  rw [if_neg (by omega)]

theorem turn_eol (hpos : 0 < w.cnt) (heol : w.mem w.cp = ipoptEol) :
    w.turn env = .inr (w.head 0).ok := by
  unfold Walk.turn
  rw [if_pos hpos, if_pos heol]

theorem turn_nop (hpos : 0 < w.cnt) (hnop : w.mem w.cp = ipoptNop) :
    w.turn env = .inl ((w.head 0).advance 1) := by
  unfold Walk.turn
  rw [if_pos hpos, if_neg (by rw [hnop]; decide), if_pos hnop]

theorem turn_option (hpos : 0 < w.cnt) (heol : w.mem w.cp ≠ ipoptEol)
    (hnop : w.mem w.cp ≠ ipoptNop) (hn : (w.mem (w.cp + 1)).toNat = n) :
    w.turn env = if n = 0 ∨ w.cnt < n then
        .inr (((w.head 0).head ipoptOlen).bad icmpParamprob (w.cp + ipoptOlen))
      else if (((w.head 0).head ipoptOlen).option env (w.mem w.cp) n).error.isSome then
        .inr (((w.head 0).head ipoptOlen).option env (w.mem w.cp) n)
      else .inl ((((w.head 0).head ipoptOlen).option env (w.mem w.cp) n).walk.advance n) := by
  have hn' : (((w.head 0).mem ((w.head 0).cp + ipoptOlen))).toNat = n := hn
  unfold Walk.turn
  rw [if_pos hpos, if_neg heol, if_neg hnop, hn']
  rfl

theorem heads_inside (hpos : 0 < w.cnt) (heol : w.mem w.cp ≠ ipoptEol)
    (hnop : w.mem w.cp ≠ ipoptNop)
    (h : ∃ turns d, Loop.run (Walk.turn env) turns w = some d ∧ d.walk.inside = true) :
    ((w.head 0).head ipoptOlen).inside = true := by
  have hturn : w.turn env = _ := turn_option hpos heol hnop rfl
  split at hturn
  · exact (Loop.exists_run_leave hturn).mp h
  · split at hturn
    · exact (Walk.Stays.option env _).inside ((Loop.exists_run_leave hturn).mp h)
    · rcases (Loop.exists_run_next hturn).mp h with ⟨turns, d, hrun, hd⟩
      have hdone := run_inside hrun hd
      exact (Walk.Stays.option env _).inside hdone

/-- From an option on, the walk stays in bounds just when what is left of the area fits. -/
theorem run_inside_iff {cnt : Nat} (hcnt : w.cnt = cnt) (hend : w.cp + cnt = w.stop)
    (hcp : 20 ≤ w.cp) (hin : w.inside = true) (hagree : Agrees m w) :
    (∃ turns d, Loop.run (Walk.turn env) turns w = some d ∧ d.walk.inside = true) ↔
      Fits env m w.cp cnt := by
  induction cnt using Nat.strong_induction_on generalizing w with
  | h cnt ih =>
    have hkind := hagree w.cp (.inr (le_refl _))
    have hlen := hagree (w.cp + 1) (.inr (Nat.le_add_right _ _))
    cases cnt with
    | zero =>
      rw [Loop.exists_run_leave (turn_nil hcnt)]
      exact ⟨fun _ => .finished _, fun _ => hin⟩
    | succ k =>
      have hpos : 0 < w.cnt := by omega
      have hhead : (w.head 0).inside = true := Walk.head_inside.mpr ⟨hin, by omega⟩
      by_cases heol : m w.cp = ipoptEol
      · rw [Loop.exists_run_leave (turn_eol hpos (hkind.trans heol))]
        exact ⟨fun _ => .eol k heol, fun _ => hhead⟩
      by_cases hnop : m w.cp = ipoptNop
      · rw [Loop.exists_run_next (turn_nop hpos (hkind.trans hnop)),
          ih k (Nat.lt_succ_self k) (w := (w.head 0).advance 1)
            (by show w.cnt - (1 : Nat) = k; omega) (by show w.cp + 1 + k = w.stop; omega)
            (by show 20 ≤ w.cp + 1; omega) hhead
            (fun x hx => hagree x (hx.imp_right fun h => Nat.le_of_succ_le h))]
        constructor
        · exact fun h => .nop hnop h
        · intro h
          cases h with
          | eol _ h => exact (heol h).elim
          | nop _ hrest => exact hrest
          | refused _ h => exact (h hnop).elim
          | option _ h => exact (h hnop).elim
      generalize hn : (m (w.cp + 1)).toNat = n
      have heol' : w.mem w.cp ≠ ipoptEol := hkind ▸ heol
      have hnop' : w.mem w.cp ≠ ipoptNop := hkind ▸ hnop
      have hturn : w.turn env = _ := turn_option hpos heol' hnop' ((congrArg _ hlen).trans hn)
      have hinv : Fits env m w.cp (k + 1) → 2 ≤ k + 1 ∧ ((n = 0 ∨ k + 1 < n) ∨
          0 < n ∧ n ≤ k + 1 ∧ OptionFits env m w.cp n ∧
            (¬ OptionStops env m w.cp n → Fits env m (w.cp + n) (k + 1 - n))) := by
        intro h
        cases h with
        | eol _ h => exact (heol h).elim
        | nop h => exact (hnop h).elim
        | refused _ _ hcnt hlen =>
          rw [hn] at hlen
          exact ⟨hcnt, .inl hlen⟩
        | option _ _ hcnt hn' hpos hle hfits hrest =>
          rw [hn] at hn'
          subst hn'
          exact ⟨hcnt, .inr ⟨hpos, hle, hfits, hrest⟩⟩
      by_cases hone : k = 0
      · constructor
        · intro h
          have hlast := (Walk.head_inside.mp (heads_inside hpos heol' hnop' h)).2
          have hlt : w.cp + 1 < w.stop := hlast
          omega
        · intro h
          have htwo := (hinv h).1
          omega
      have hheads : ((w.head 0).head ipoptOlen).inside = true :=
        Walk.head_inside.mpr ⟨hhead, by show w.cp + 1 < w.stop; omega⟩
      by_cases hbad : n = 0 ∨ w.cnt < n
      · rw [if_pos hbad] at hturn
        rw [Loop.exists_run_leave hturn]
        exact ⟨fun _ => .refused heol hnop (by omega) (by omega), fun _ => hheads⟩
      rw [if_neg hbad] at hturn
      have hat : At ((w.head 0).head ipoptOlen) n :=
        ⟨hheads, by show w.cp + n ≤ w.stop; omega, (congrArg _ hlen).trans hn, by omega,
          by show 1 ≤ w.cp; omega, by show w.cp + 1 < w.stop; omega⟩
      have hmeets : Meets ((w.head 0).head ipoptOlen) n (OptionFits env w.mem w.cp n)
          (OptionStops env w.mem w.cp n)
          (((w.head 0).head ipoptOlen).option env (w.mem w.cp) n) := option_meets hat
      have hiff : (OptionFits env w.mem w.cp n ↔ OptionFits env m w.cp n) ∧
          (OptionStops env w.mem w.cp n ↔ OptionStops env m w.cp n) := hagree.fits_iff n
      have hstays : ((w.head 0).head ipoptOlen).Stays
          (((w.head 0).head ipoptOlen).option env (w.mem w.cp) n).walk :=
        Walk.Stays.option env _
      generalize ((w.head 0).head ipoptOlen).option env (w.mem w.cp) n = d at *
      by_cases hfits : OptionFits env m w.cp n
      · have hmem := hmeets.mem (hiff.1.mpr hfits)
        have hdin := hmeets.inside.mpr (hiff.1.mpr hfits)
        have herror := (hmeets.stops (hiff.1.mpr hfits)).trans hiff.2
        by_cases hstops : OptionStops env m w.cp n
        · rw [if_pos (herror.mpr hstops)] at hturn
          rw [Loop.exists_run_leave hturn]
          exact ⟨fun _ => .option heol hnop (by omega) hn (by omega) (by omega) hfits
            fun hno => (hno hstops).elim, fun _ => hdin⟩
        · rw [if_neg (fun h => hstops (herror.mp h))] at hturn
          have hcp' : (d.walk.advance n).cp = w.cp + n := congrArg (· + n) hstays.cp
          have hcnt' : (d.walk.advance n).cnt = w.cnt - n := congrArg (· - (n : Int)) hstays.cnt
          have hstop' : (d.walk.advance n).stop = w.stop := hstays.stop
          rw [Loop.exists_run_next hturn, ih (k + 1 - n) (by omega) (w := d.walk.advance n)
            (by omega) (by omega) (by omega) hdin ?_, hcp']
          · constructor
            · exact fun h => .option heol hnop (by omega) hn (by omega) (by omega) hfits fun _ => h
            · intro h
              rcases (hinv h).2 with hno | hrest
              · omega
              · exact hrest.2.2.2 hstops
          · intro x hx
            show d.walk.mem x = m x
            rw [hmem x (by show x < w.cp ∨ w.cp + n ≤ x; omega)]
            exact hagree x (by omega)
      · have hdout : ¬ d.walk.inside = true :=
          fun h => hfits (hiff.1.mp (hmeets.inside.mp h))
        constructor
        · intro h
          split at hturn
          · exact (hdout ((Loop.exists_run_leave hturn).mp h)).elim
          · rcases (Loop.exists_run_next hturn).mp h with ⟨turns, e, hrun, he⟩
            have hlater := run_inside hrun he
            exact (hdout hlater).elim
        · intro h
          rcases (hinv h).2 with hno | hrest
          · omega
          · exact (hfits hrest.2.2.1).elim

end Walks

/-- The walk over the options of a header ends with everything it has read or written in
place just when the options fit. -/
theorem dooptions_inside_iff (env : Env) (mem : Mem) :
    (∃ turns d, dooptions env mem turns = some d ∧ d.walk.inside = true) ↔
      Fits env mem sizeofIp (areaLength mem).toNat := by
  by_cases hpos : 0 ≤ areaLength mem
  · have hcnt : (start mem).cnt = (areaLength mem).toNat := (Int.toNat_of_nonneg hpos).symm
    exact run_inside_iff hcnt rfl (le_refl _) rfl fun _ _ => rfl
  · have hleave : Walk.turn env (start mem) = .inr (start mem).ok := by
      unfold Walk.turn
      rw [if_neg]
      show ¬ 0 < areaLength mem
      omega
    have hzero : (areaLength mem).toNat = 0 := by omega
    unfold dooptions
    rw [Loop.exists_run_leave hleave, hzero]
    exact ⟨fun _ => .finished _, fun _ => rfl⟩

/-- A header whose one option is a short record of the route, with a pointer behind it. -/
def shortRecord : Mem := fun x =>
  if x = 0 then 70 else if x = 20 then 7 else if x = 21 then 3 else if x = 22 then 4 else 0

/-- The address is recorded behind the option, and behind the area. -/
theorem dooptions_not_inside :
    ¬ ∀ env mem, ∃ turns d, dooptions env mem turns = some d ∧ d.walk.inside = true := by
  intro h
  rcases h ⟨fun _ _ => true, fun _ _ => true, fun _ _ => some ⟨10, 0, 0, 1⟩, ⟨10, 0, 0, 1⟩,
    fun _ => ⟨0, 0, 0, 0⟩⟩ shortRecord with ⟨turns, d, hrun, hd⟩
  have hout : ∃ d, dooptions ⟨fun _ _ => true, fun _ _ => true, fun _ _ => some ⟨10, 0, 0, 1⟩,
      ⟨10, 0, 0, 1⟩, fun _ => ⟨0, 0, 0, 0⟩⟩ shortRecord 3 = some d ∧ d.walk.inside = false := by
    refine ⟨_, rfl, ?_⟩
    decide
  rcases hout with ⟨e, hrun', he⟩
  rw [Loop.run_unique hrun hrun', he] at hd
  cases hd

end Dooptions
end Ip
end Svr4
