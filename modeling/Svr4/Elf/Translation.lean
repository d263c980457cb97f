import Svr4.Elf.Layout

/-!
# What `xlate` guarantees

A translation that is accepted stays in its destination, does the same in place and between
separate buffers, agrees with the copy that is made when the encodings are the same, and is
undone by the translation back, exactly when the size of a source that is copied is a
multiple of the size of its elements.
-/

namespace Svr4
namespace Elf

open ByteOrder List

/-!
## Runs of the functions
-/

def Kind.region (k : Kind) (put get : Order) (o : Nat) : Region := ⟨o, k.size, k.perm put get⟩

section Runs

variable {t : ElfType} {put get enc host : Order} {d s cnt : Nat} {m : Mem} {tof : Bool}

theorem shuffle_same (m : Mem) (d n : Nat) : shuffle id m d d n = m := by
  funext x
  unfold shuffle
  split
  · rename_i hx
    congr 1
    change d + (x - d) = x
    omega
  · rfl

theorem move_run (k : Kind) (o : Nat) (m : Mem) :
    (k.move put get (d + o) (s + o)).foldl Move.run m = (k.region put get o).run d s m := by
  cases k with
  | ident =>
    change (if d + o ≠ s + o then [Move.copy (d + o) (s + o) 16] else []).foldl Move.run m =
      shuffle id m (d + o) (s + o) 16
    split
    · rfl
    · rename_i hsame
      rw [Classical.not_not.mp hsame]
      exact (shuffle_same m (s + o) 16).symm
  | _ => exact store_load

theorem drawn_run (l : List (Kind × Nat)) (m : Mem) : (drawn put get d s l).foldl Move.run m =
      (l.map fun p => p.1.region put get p.2).foldl (Region.run d s) m := by
  induction l generalizing m with
  | nil => rfl
  | cons p l ih =>
    change ((p.1.move put get (d + p.2) (s + p.2)) ++ drawn put get d s l).foldl Move.run m = _
    rw [foldl_append, move_run, ih]
    rfl

theorem mem_spots {p : Kind × Nat} : p ∈ t.spots cnt 0 ↔
    ∃ k < cnt, ∃ q ∈ t.placed, p = (q.1, k * t.filesz + q.2) := by
  unfold ElfType.spots
  simp only [mem_flatMap, mem_range, mem_map, Nat.zero_add, eq_comm]

theorem spots_apart (t : ElfType) (put get : Order) (cnt : Nat) :
    ((t.spots cnt 0).map fun p => p.1.region put get p.2).Pairwise Region.Apart := by
  induction cnt with
  | zero => exact List.Pairwise.nil
  | succ cnt ih =>
    rw [spots_snoc, map_append]
    refine pairwise_append.mpr ⟨ih, ?_, ?_⟩
    · rw [map_map, pairwise_map]
      refine (placed_sorted t).imp fun {p p'} h => .inl ?_
      change cnt * t.filesz + p.2 + p.1.size ≤ cnt * t.filesz + p'.2
      omega
    · intro r hr r' hr'
      obtain ⟨p, hp, rfl⟩ := mem_map.mp hr
      obtain ⟨k, hk, q, hq, rfl⟩ := mem_spots.mp hp
      obtain ⟨p', hp', rfl⟩ := mem_map.mp hr'
      obtain ⟨q', _, rfl⟩ := mem_map.mp hp'
      have hle := placed_le t q hq
      have hmul : (k + 1) * t.filesz ≤ cnt * t.filesz := Nat.mul_le_mul_right _ hk
      rw [Nat.add_mul, Nat.one_mul] at hmul
      left
      change k * t.filesz + q.2 + q.1.size ≤ cnt * t.filesz + q'.2
      omega

theorem spots_in {p : Kind × Nat} (hp : p ∈ t.spots cnt 0) : p.2 + p.1.size ≤ cnt * t.filesz := by
  obtain ⟨k, hk, q, hq, rfl⟩ := mem_spots.mp hp
  have hle := placed_le t q hq
  have hmul : (k + 1) * t.filesz ≤ cnt * t.filesz := Nat.mul_le_mul_right _ hk
  rw [Nat.add_mul, Nat.one_mul] at hmul
  change k * t.filesz + q.2 + q.1.size ≤ _
  omega

theorem drawn_carry {l : List (Kind × Nat)} (hl : l = t.spots cnt 0 ∨ l = (t.spots cnt 0).reverse)
    (hbuf : Buffers d s (cnt * t.filesz)) (m : Mem) :
    ∀ x < cnt * t.filesz, (drawn put get d s l).foldl Move.run m (d + x) =
      m (s + t.carry put get x) := by
  have hmem : ∀ p, p ∈ l ↔ p ∈ t.spots cnt 0 := by
    intro p
    rcases hl with rfl | rfl
    · exact Iff.rfl
    · exact mem_reverse
  have hapart : (l.map fun p => p.1.region put get p.2).Pairwise Region.Apart := by
    rcases hl with rfl | rfl
    · exact spots_apart t put get cnt
    · rw [map_reverse, pairwise_reverse]
      exact (spots_apart t put get cnt).imp fun h => h.symm
  obtain ⟨hspec, _⟩ := run_regions hapart (fun r hr => by
      obtain ⟨p, hp, rfl⟩ := mem_map.mp hr
      exact ⟨spots_in ((hmem p).mp hp), perm_lt put get p.1⟩) hbuf m
  intro x hx
  have hpos := filesz_pos t
  obtain ⟨q, hq, hlo, hhi⟩ := placed_covers t (x % t.filesz) (Nat.mod_lt _ hpos)
  obtain ⟨j, hj⟩ : ∃ j, x % t.filesz = q.2 + j := ⟨x % t.filesz - q.2, by omega⟩
  have hjlt : j < q.1.size := by omega
  have hk : x / t.filesz < cnt := (Nat.div_lt_iff_lt_mul hpos).mpr hx
  have hxeq : x = x / t.filesz * t.filesz + q.2 + j := by
    rw [Nat.add_assoc, ← hj]
    exact (Nat.div_add_mod' x t.filesz).symm
  have hp : (q.1, x / t.filesz * t.filesz + q.2) ∈ l :=
    (hmem _).mpr (mem_spots.mpr ⟨x / t.filesz, hk, q, hq, rfl⟩)
  have hrun := hspec _ (mem_map_of_mem hp) j hjlt
  have hcarry : t.carry put get x = x / t.filesz * t.filesz + q.2 + q.1.perm put get j := by
    conv_lhs => rw [hxeq]
    exact carry_element hq hjlt
  rw [drawn_run, hcarry]
  conv_lhs => rw [hxeq]
  rw [← Nat.add_assoc d, ← Nat.add_assoc s]
  exact hrun

/-- The orders of the numbers at the destination and at the source. -/
def orders (tof : Bool) (enc host : Order) : Order × Order :=
  if tof then (enc, host) else (host, enc)

theorem x32_carry (hbuf : Buffers d s (cnt * t.filesz)) (m : Mem) :
    ∀ x < cnt * t.filesz, (x32 t tof enc host d s cnt).foldl Move.run m (d + x) =
      m (s + t.carry (orders tof enc host).1 (orders tof enc host).2 x) := by
  intro x hx
  by_cases hbyte : t = .byte
  · subst hbyte
    have hcarry : ∀ put get, ElfType.byte.carry put get x = x := by
      intro put get
      unfold ElfType.carry
      change x / 1 * 1 + ElfType.byte.inner put get (x % 1) = x
      rw [Nat.mod_one, Nat.div_one, Nat.mul_one]
      cases put <;> cases get <;> rfl
    have hx : x < cnt := by
      have hone : ElfType.byte.filesz = 1 := rfl
      rw [hone, Nat.mul_one] at hx
      exact hx
    have hrun : x32 .byte tof enc host d s cnt = byteTo d s cnt := by
      cases tof <;> rfl
    rw [hcarry, hrun]
    unfold byteTo
    split
    · change shuffle id m d s cnt (d + x) = _
      unfold shuffle
      have hback : d + x - d = x := by omega
      rw [if_pos ⟨Nat.le_add_right _ _, by omega⟩, hback]
      rfl
    · rename_i hsame
      rw [Classical.not_not.mp hsame]
      rfl
  · obtain ⟨l, hl, heq⟩ := x32_eq (d := d) (s := s) hbyte tof enc host
    rw [heq]
    cases tof with
    | true => exact drawn_carry hl hbuf m x hx
    | false => exact drawn_carry hl hbuf m x hx

theorem x32_places : ∀ mv ∈ x32 t tof enc host d s cnt,
    ∃ o, mv.dst = d + o ∧ mv.src = s + o ∧ o + mv.size ≤ cnt * t.filesz := by
  by_cases hbyte : t = .byte
  · subst hbyte
    have hrun : x32 .byte tof enc host d s cnt = byteTo d s cnt := by
      cases tof <;> rfl
    rw [hrun]
    unfold byteTo
    split
    · intro mv hmv
      rw [mem_singleton.mp hmv]
      have hone : ElfType.byte.filesz = 1 := rfl
      refine ⟨0, rfl, rfl, ?_⟩
      change 0 + cnt ≤ _
      rw [hone]
      omega
    · exact nofun
  · have hdrawn : ∀ {put get l}, (l = t.spots cnt 0 ∨ l = (t.spots cnt 0).reverse) →
        ∀ mv ∈ drawn put get d s l,
          ∃ o, mv.dst = d + o ∧ mv.src = s + o ∧ o + mv.size ≤ cnt * t.filesz := by
      intro put get l hl mv hmv
      obtain ⟨mvs, hmvs, hin⟩ := mem_flatten.mp hmv
      obtain ⟨p, hp, rfl⟩ := mem_map.mp hmvs
      have hle : p.2 + p.1.size ≤ cnt * t.filesz := by
        refine spots_in ?_
        rcases hl with rfl | rfl
        · exact hp
        · exact mem_reverse.mp hp
      have hmove : mv.dst = d + p.2 ∧ mv.src = s + p.2 ∧ mv.size = p.1.size := by
        generalize p.1 = k at hin
        cases k with
        | ident =>
          change mv ∈ (if d + p.2 ≠ s + p.2 then [_] else []) at hin
          split at hin
          · rw [mem_singleton.mp hin]
            exact ⟨rfl, rfl, rfl⟩
          · cases hin
        | _ =>
          rw [mem_singleton.mp hin]
          exact ⟨rfl, rfl, rfl⟩
      exact ⟨p.2, hmove.1, hmove.2.1, by rw [hmove.2.2]; exact hle⟩
    obtain ⟨l, hl, heq⟩ := x32_eq (d := d) (s := s) hbyte tof enc host
    rw [heq]
    cases tof with
    | true => exact hdrawn hl
    | false => exact hdrawn hl

theorem x32_within : ∀ mv ∈ x32 t tof enc host d s cnt,
    d ≤ mv.dst ∧ mv.dst + mv.size ≤ d + cnt * t.filesz := by
  intro mv hmv
  obtain ⟨o, hdst, _, hle⟩ := x32_places mv hmv
  omega

end Runs

/-!
## What is right
-/

/-- A translation that is accepted is right. -/
structure Right (work : Nat) (host : Order) (dst src : ElfData) (encode : Nat) (tof : Bool)
    (o : Outcome) : Prop where
  /-- Nothing is written outside of the destination. -/
  fits : ∀ mv ∈ o.moves, dst.dBuf ≤ mv.dst ∧ mv.dst + mv.size ≤ dst.dBuf + dst.dSize
  /-- The functions of the table do the same as the copy. -/
  agrees : ∀ o', xlate 0 host (some dst) (some src) encode tof = .ok o' → o'.dSize = o.dSize ∧
    (Buffers dst.dBuf src.dBuf src.dSize →
      ∀ m, ∀ x < o.dSize, o'.run m (dst.dBuf + x) = o.run m (dst.dBuf + x))
  /-- The translation in place is the same. -/
  inPlace : ∀ o', xlate work host (some { dst with dBuf := src.dBuf }) (some src) encode tof =
      .ok o' → o'.dSize = o.dSize ∧ (Buffers dst.dBuf src.dBuf src.dSize →
        ∀ m, ∀ x < o.dSize, o'.run m (src.dBuf + x) = o.run m (dst.dBuf + x))
  /-- The translation back, in place or not, gives back the source. -/
  back : ∀ dst' o', xlate work host (some dst')
      (some ⟨dst.dBuf, o.dType, o.dSize, dst.dVersion⟩) encode (!tof) = .ok o' →
    o'.dSize = o.dSize ∧ (Buffers dst.dBuf src.dBuf src.dSize →
      Buffers dst'.dBuf dst.dBuf src.dSize →
      ∀ m, ∀ x < o.dSize, o'.run (o.run m) (dst'.dBuf + x) = m (src.dBuf + x))

section Right

variable {work : Nat} {host : Order} {dst src : ElfData} {encode : Nat} {tof versioned : Bool}
  {o : Outcome} {t : ElfType}

theorem fmsize_eq (t : ElfType) (tof : Bool) : fmsize t tof = (t.filesz, t.filesz) := by
  unfold fmsize
  rw [memsz_eq]
  split <;> rfl

theorem elfVersionEncode_eq (host : Order) :
    elfVersionEncode host = match host with | .little => 1 | .big => 2 := by
  cases host <;> decide

/-- The copy of all bytes, or the translation of all elements. -/
def outcome (work : Nat) (host : Order) (dst src : ElfData) (encode : Nat) (tof : Bool)
    (t : ElfType) : Outcome :=
  if work = encode then
    ⟨src.dSize, src.dType,
      if src.dBuf ≠ dst.dBuf then [.copy dst.dBuf src.dBuf src.dSize] else []⟩
  else
    ⟨t.filesz * (src.dSize / t.filesz), src.dType,
      if src.dSize / t.filesz ≠ 0 then
        x32 t tof (dataOrder (encode - 1)) host dst.dBuf src.dBuf (src.dSize / t.filesz)
      else []⟩

theorem xlate_ok (h : xlate work host (some dst) (some src) encode tof = .ok o) :
    ∃ t, elfTypes[src.dType]? = some t ∧ (encode = 1 ∨ encode = 2) ∧
      t.filesz * (src.dSize / t.filesz) ≤ dst.dSize ∧
      o = outcome work host dst src encode tof t := by
  unfold xlate at h
  dsimp only at h
  split at h
  · cases h
  · rename_i hencode
    split at h
    · cases h
    · cases htype : elfTypes[src.dType]? with
      | none =>
        rw [htype] at h
        cases h
      | some t =>
        rw [htype] at h
        simp only [fmsize_eq, and_true] at h
        split at h
        · cases h
        · rename_i hsize
          have hnum : ELFDATANUM = 3 := rfl
          rw [hnum] at hencode
          refine ⟨t, rfl, by omega, by omega, ?_⟩
          unfold outcome
          split at h
          · rename_i hsame
            rw [if_pos hsame]
            exact (Except.ok.inj h).symm
          · rename_i hsame
            rw [if_neg hsame]
            exact (Except.ok.inj h).symm

theorem outcome_dType : (outcome work host dst src encode tof t).dType = src.dType := by
  unfold outcome
  split <;> rfl

theorem outcome_dSize : (outcome work host dst src encode tof t).dSize =
    if work = encode then src.dSize else t.filesz * (src.dSize / t.filesz) := by
  unfold outcome
  split <;> rfl

theorem outcome_run {enc : Order} (hwork : work = 0 ∨ work = elfVersionEncode host)
    (hencode : encode = 1 ∨ encode = 2) (henc : enc = dataOrder (encode - 1))
    (hbuf : Buffers dst.dBuf src.dBuf src.dSize) (m : Mem) :
    ∀ x < t.filesz * (src.dSize / t.filesz),
      (outcome work host dst src encode tof t).run m (dst.dBuf + x) =
        m (src.dBuf + t.carry (orders tof enc host).1 (orders tof enc host).2 x) := by
  intro x hx
  have hle : t.filesz * (src.dSize / t.filesz) ≤ src.dSize := Nat.mul_div_le _ _
  unfold outcome
  split
  · rename_i hsame
    -- the encoding is the host's
    have hhost : enc = host := by
      rw [henc]
      rw [elfVersionEncode_eq] at hwork
      cases host with
      | little =>
        have hone : encode = 1 := by
          change work = 0 ∨ work = 1 at hwork
          omega
        rw [hone]
        rfl
      | big =>
        have htwo : encode = 2 := by
          change work = 0 ∨ work = 2 at hwork
          omega
        rw [htwo]
        rfl
    have hcarry : t.carry (orders tof enc host).1 (orders tof enc host).2 x = x := by
      unfold orders
      rw [hhost]
      split <;> exact carry_self x
    rw [hcarry]
    split
    · change shuffle id m dst.dBuf src.dBuf src.dSize (dst.dBuf + x) = _
      unfold shuffle
      have hback : dst.dBuf + x - dst.dBuf = x := by omega
      rw [if_pos ⟨Nat.le_add_right _ _, by omega⟩, hback]
      rfl
    · rename_i hplace
      rw [Classical.not_not.mp hplace]
      rfl
  · have hcnt : src.dSize / t.filesz ≠ 0 := by
      intro hzero
      rw [hzero] at hx
      exact absurd hx (Nat.not_lt_zero _)
    rw [if_pos hcnt, ← henc]
    rw [Nat.mul_comm] at hx hle
    refine x32_carry ?_ m x hx
    unfold Buffers at hbuf ⊢
    omega

theorem elfEncode_cases (versioned : Bool) (host : Order) :
    elfEncode versioned host = 0 ∨ elfEncode versioned host = elfVersionEncode host := by
  cases versioned
  · exact .inl (if_neg Bool.false_ne_true)
  · exact .inr (if_pos rfl)

def elementSize (src : ElfData) : Nat := ((elfTypes[src.dType]?).map ElfType.filesz).getD 1

/-- A translation is right exactly when a source that is copied consists of elements. -/
theorem xlate_right_iff
    (h : xlate (elfEncode versioned host) host (some dst) (some src) encode tof = .ok o) :
    Right (elfEncode versioned host) host dst src encode tof o ↔
      (elfEncode versioned host = encode → src.dSize % elementSize src = 0) := by
  obtain ⟨t, htype, hencode, hsize, rfl⟩ := xlate_ok h
  have hwork := elfEncode_cases versioned host
  generalize elfEncode versioned host = work at *
  have helement : elementSize src = t.filesz := by
    unfold elementSize
    rw [htype]
    rfl
  have hpos := filesz_pos t
  have hdiv := Nat.div_add_mod src.dSize t.filesz
  have hzero : (0 : Nat) ≠ encode := by omega
  rw [helement]
  constructor
  · -- the sizes agree
    intro hright hsame
    obtain ⟨o', ho'⟩ : ∃ o', xlate 0 host (some dst) (some src) encode tof = .ok o' := by
      unfold xlate at h ⊢
      dsimp only at h ⊢
      split at h
      · cases h
      · rename_i hok
        rw [if_neg hok]
        split at h
        · cases h
        · rename_i hver
          rw [if_neg hver]
          rw [htype] at h ⊢
          simp only [fmsize_eq, and_true] at h ⊢
          rw [if_neg (by omega), if_neg hzero]
          exact ⟨_, rfl⟩
    have hagree := (hright.agrees o' ho').1
    obtain ⟨t', htype', _, _, rfl⟩ := xlate_ok ho'
    rw [htype] at htype'
    cases htype'
    unfold outcome at hagree
    rw [if_neg hzero, if_pos hsame] at hagree
    change t.filesz * (src.dSize / t.filesz) = src.dSize at hagree
    omega
  · intro hwhole
    -- the size is that of the elements
    have hdSize : ∀ {w dst' tof'}, (w = 0 ∨ w = work) →
        (outcome w host dst' src encode tof' t).dSize = t.filesz * (src.dSize / t.filesz) := by
      intro w dst' tof' hw
      unfold outcome
      split
      · rename_i hsame
        have hw' : work = encode := by
          rcases hw with rfl | rfl
          · exact absurd hsame hzero
          · exact hsame
        have hmod := hwhole hw'
        change src.dSize = _
        omega
      · rfl
    have hsame : ∀ {src' : ElfData} {t' : ElfType}, src'.dType = src.dType → elfTypes[src'.dType]? = some t' → t' = t := by
      intro src' t' hty ht'
      rw [hty, htype] at ht'
      exact (Option.some.inj ht').symm
    refine ⟨fun mv hmv => ?_, fun o' ho' => ?_, fun o' ho' => ?_, fun dst' o' ho' => ?_⟩
    · unfold outcome at hmv
      split at hmv
      · rename_i hcopy
        have hmod := hwhole hcopy
        change mv ∈ (if src.dBuf ≠ dst.dBuf then [_] else []) at hmv
        split at hmv
        · rw [mem_singleton.mp hmv]
          change dst.dBuf ≤ dst.dBuf ∧ dst.dBuf + src.dSize ≤ _
          omega
        · cases hmv
      · change mv ∈ (if src.dSize / t.filesz ≠ 0 then _ else []) at hmv
        split at hmv
        · have hin := x32_within mv hmv
          rw [Nat.mul_comm] at hin
          omega
        · cases hmv
    · obtain ⟨t', ht', _, _, rfl⟩ := xlate_ok ho'
      cases hsame rfl ht'
      refine ⟨(hdSize (.inl rfl)).trans (hdSize (.inr rfl)).symm, fun hbuf m x hx => ?_⟩
      rw [hdSize (.inr rfl)] at hx
      rw [outcome_run (.inl rfl) hencode rfl hbuf m x hx,
        outcome_run hwork hencode rfl hbuf m x hx]
    · obtain ⟨t', ht', _, _, rfl⟩ := xlate_ok ho'
      cases hsame rfl ht'
      refine ⟨(hdSize (.inr rfl)).trans (hdSize (.inr rfl)).symm, fun hbuf m x hx => ?_⟩
      rw [hdSize (.inr rfl)] at hx
      have hplace : (outcome work host { dst with dBuf := src.dBuf } src encode tof t).run m
          (src.dBuf + x) = _ := outcome_run hwork hencode rfl (.inl rfl) m x hx
      exact hplace.trans (outcome_run hwork hencode rfl hbuf m x hx).symm
    · obtain ⟨t', ht', _, _, rfl⟩ := xlate_ok ho'
      rw [outcome_dType, htype] at ht'
      cases ht'
      obtain ⟨src', hsrc'⟩ : ∃ src' : ElfData, src' = ⟨dst.dBuf,
        (outcome work host dst src encode tof t).dType,
        (outcome work host dst src encode tof t).dSize, dst.dVersion⟩ := ⟨_, rfl⟩
      have hsize' : src'.dSize = t.filesz * (src.dSize / t.filesz) := by
        rw [hsrc']
        exact hdSize (.inr rfl)
      have hcount : src'.dSize / t.filesz = src.dSize / t.filesz := by
        rw [hsize', Nat.mul_div_cancel_left _ hpos]
      have hbuf₁ : src'.dBuf = dst.dBuf := by
        rw [hsrc']
      rw [← hsrc']
      refine ⟨?_, fun hbuf hbuf' m x hx => ?_⟩
      · rw [outcome_dSize, hcount, hsize', hdSize (.inr rfl)]
        split <;> rfl
      rw [hdSize (.inr rfl)] at hx
      have hle : t.filesz * (src.dSize / t.filesz) ≤ src.dSize := Nat.mul_div_le _ _
      have hsecond : (outcome work host dst' src' encode (!tof) t).run
          ((outcome work host dst src encode tof t).run m) (dst'.dBuf + x) = _ :=
        outcome_run hwork hencode rfl (by
          rw [hbuf₁, hsize']
          unfold Buffers at hbuf' ⊢
          omega) _ x (by
          rw [hcount]
          exact hx)
      rw [hsecond, hbuf₁]
      have hin : t.carry (orders (!tof) (dataOrder (encode - 1)) host).1
          (orders (!tof) (dataOrder (encode - 1)) host).2 x <
          t.filesz * (src.dSize / t.filesz) := by
        rw [Nat.mul_comm] at hx ⊢
        exact carry_lt hx
      rw [outcome_run hwork hencode rfl hbuf m _ hin]
      cases tof with
      | true => exact congrArg m (congrArg (src.dBuf + ·) (carry_carry x))
      | false => exact congrArg m (congrArg (src.dBuf + ·) (carry_carry x))

theorem elfEncode_little : elfEncode true .little = 1 := by
  unfold elfEncode
  rw [if_pos rfl, elfVersionEncode_eq]

/-- One word and three bytes are copied into the space of a word. -/
theorem copy_overruns : ∃ o, xlate (elfEncode true .little) .little (some ⟨0x100, 12, 4, 1⟩)
    (some ⟨0x200, 12, 7, 1⟩) 1 true = .ok o ∧
      ¬ Right (elfEncode true .little) .little ⟨0x100, 12, 4, 1⟩ ⟨0x200, 12, 7, 1⟩ 1 true o := by
  rw [elfEncode_little]
  refine ⟨⟨7, 12, [.copy 0x100 0x200 7]⟩, rfl, fun hright => ?_⟩
  have hfits := (hright.fits _ (mem_singleton_self _)).2
  exact absurd hfits (by decide)

/-- Two words are translated into the other byte order. -/
theorem xlate_right_words : ∃ o, xlate (elfEncode true .little) .little (some ⟨0x100, 12, 8, 1⟩)
    (some ⟨0x200, 12, 8, 1⟩) 2 false = .ok o ∧
      (Right (elfEncode true .little) .little ⟨0x100, 12, 8, 1⟩ ⟨0x200, 12, 8, 1⟩ 2 false o ↔
        (elfEncode true .little = 2 → 8 % elementSize ⟨0x200, 12, 8, 1⟩ = 0)) := by
  have hrun : ∃ o, xlate (elfEncode true .little) .little (some ⟨0x100, 12, 8, 1⟩)
      (some ⟨0x200, 12, 8, 1⟩) 2 false = .ok o := by
    rw [elfEncode_little]
    exact ⟨_, rfl⟩
  obtain ⟨o, ho⟩ := hrun
  exact ⟨o, ho, xlate_right_iff ho⟩

end Right

/-!
## The meaning of the data
-/

/-- A translation that is accepted, between buffers that are the same or have no byte in common. -/
structure Translation where
  host : Order
  versioned : Bool
  dst : ElfData
  src : ElfData
  encode : Nat
  tof : Bool
  outcome : Outcome
  type : ElfType
  accepted : xlate (elfEncode versioned host) host (some dst) (some src) encode tof = .ok outcome
  typed : elfTypes[src.dType]? = some type
  buffers : Buffers dst.dBuf src.dBuf src.dSize

namespace Translation

variable (x : Translation)

def put : Order := (orders x.tof (dataOrder (x.encode - 1)) x.host).1

def get : Order := (orders x.tof (dataOrder (x.encode - 1)) x.host).2

/-- Where a member of an element is. -/
def place (e : Nat) (p : Kind × Nat) : Nat := e * x.type.filesz + p.2

variable {x}

theorem member_byte {e j : Nat} {p : Kind × Nat} (he : e < x.src.dSize / x.type.filesz)
    (hp : p ∈ x.type.placed) (hj : j < p.1.size) (m : Mem) :
    x.outcome.run m (x.dst.dBuf + x.place e p + j) =
      m (x.src.dBuf + x.place e p + p.1.perm x.put x.get j) := by
  obtain ⟨t, ht, hencode, -, ho⟩ := xlate_ok x.accepted
  cases x.typed.symm.trans ht
  have hle := placed_le x.type p hp
  have hmul := Nat.mul_le_mul_left x.type.filesz (Nat.succ_le_of_lt he)
  have hin : e * x.type.filesz + p.2 + j < x.type.filesz * (x.src.dSize / x.type.filesz) := by
    rw [Nat.mul_succ, Nat.mul_comm _ e] at hmul
    omega
  have hcarry : x.type.carry x.put x.get (e * x.type.filesz + p.2 + j) = _ := carry_element hp hj
  rw [ho, Nat.add_assoc, Nat.add_assoc]
  refine (outcome_run (elfEncode_cases x.versioned x.host) hencode rfl x.buffers m _ hin).trans ?_
  exact congrArg (fun y => m (x.src.dBuf + y)) hcarry

/-- Every number of the elements means the same after the translation, in the byte order it is put
in, and the bytes of an identification stay. -/
theorem members_kept (x : Translation) (m : Mem) :
    (∀ e < x.src.dSize / x.type.filesz, ∀ p ∈ x.type.placed, p.1 ≠ .ident →
      load (x.outcome.run m) x.put p.1.size (x.dst.dBuf + x.place e p) =
        load m x.get p.1.size (x.src.dBuf + x.place e p)) ∧
    ∀ e < x.src.dSize / x.type.filesz, ∀ p ∈ x.type.placed, p.1 = .ident → ∀ j < p.1.size,
      x.outcome.run m (x.dst.dBuf + x.place e p + j) = m (x.src.dBuf + x.place e p + j) := by
  constructor
  · intro e he p hp hkind
    refine value_congr fun i hi => ?_
    rw [member_byte he hp (Order.place_lt hi)]
    have hperm : p.1.perm x.put x.get (x.put.place p.1.size i) = x.get.place p.1.size i := by
      have hplace := congrArg (x.get.place p.1.size) (Order.place_place (o := x.put) hi)
      cases hk : p.1 with
      | ident => exact absurd hk hkind
      | _ =>
        rw [hk] at hplace
        exact hplace
    rw [hperm]
  · intro e he p hp hkind j hj
    rw [member_byte he hp hj, hkind]
    rfl

end Translation
end Elf
end Svr4
