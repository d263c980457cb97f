import Mathlib.Data.List.Range
import Mathlib.Tactic.Ring
import Svr4.S5.Inodes

/-!
# The scan of the i-list

A scan fills the cache from above with the free inodes that it finds, in order, so
that the entry taken first is the lowest and `s_inode[0]` the highest of them.
-/

namespace Svr4
namespace S5

open Function List

/-!
## Filling the cache with a list
-/

def Filsys.fill (fs : Filsys) : List Nat → Filsys
  | [] => fs
  | ino :: rest => if fs.sNinode ≤ 0 then fs else (fs.stash ino).fill rest

section Fill

variable {fs : Filsys} {l : List Nat}

theorem Filsys.fill_nil (fs : Filsys) : fs.fill [] = fs := rfl

theorem Filsys.fill_full (hfull : fs.sNinode ≤ 0) (l : List Nat) : fs.fill l = fs := by
  cases l with
  | nil => rfl
  | cons ino rest =>
    unfold Filsys.fill
    rw [if_pos hfull]

theorem Filsys.fill_cons (hroom : ¬ fs.sNinode ≤ 0) (ino : Nat) (rest : List Nat) :
    fs.fill (ino :: rest) = (fs.stash ino).fill rest := by
  rw [Filsys.fill, if_neg hroom]

theorem Filsys.fill_append (fs : Filsys) (l l' : List Nat) :
    fs.fill (l ++ l') = (fs.fill l).fill l' := by
  induction l generalizing fs with
  | nil => rfl
  | cons ino rest ih =>
    by_cases hfull : fs.sNinode ≤ 0
    · rw [Filsys.fill_full hfull, Filsys.fill_full hfull, Filsys.fill_full hfull]
    · rw [cons_append, Filsys.fill_cons hfull, Filsys.fill_cons hfull, ih]

theorem Filsys.fill_spec (fs : Filsys) (l : List Nat) :
    (fs.fill l).sNinode = fs.sNinode - l.length ∧
    (fs.fill l).sIsize = fs.sIsize ∧ (fs.fill l).sTinode = fs.sTinode ∧ ∀ i, (fs.fill l).sInode i =
      if fs.sNinode - l.length ≤ i ∧ i < fs.sNinode then l.getD (fs.sNinode - 1 - i) 0
      else fs.sInode i := by
  induction l generalizing fs with
  | nil =>
    refine ⟨rfl, rfl, rfl, fun i => ?_⟩
    rw [Filsys.fill_nil, if_neg (by simp)]
  | cons ino rest ih =>
    by_cases hfull : fs.sNinode ≤ 0
    · rw [Filsys.fill_full hfull]
      refine ⟨by omega, rfl, rfl, fun i => ?_⟩
      rw [if_neg (by omega)]
    · obtain ⟨hninode, hisize, htinode, hinode⟩ := ih (fs.stash ino)
      have hone : (fs.stash ino).sNinode = fs.sNinode - 1 := rfl
      have htop : (fs.stash ino).sInode = update fs.sInode (fs.sNinode - 1) ino := rfl
      rw [Filsys.fill_cons hfull]
      refine ⟨?_, hisize, htinode, fun i => ?_⟩
      · rw [hninode, hone, length_cons]
        omega
      · rw [hinode, hone, htop, length_cons]
        by_cases hi : i = fs.sNinode - 1
        · rw [if_neg (by omega), if_pos (by omega), hi, update_self, Nat.sub_self]
          rfl
        · rw [update_of_ne hi]
          by_cases hin : fs.sNinode - 1 - rest.length ≤ i ∧ i < fs.sNinode - 1
          · have hat : fs.sNinode - 1 - i = (fs.sNinode - 1 - 1 - i) + 1 := by omega
            rw [if_pos hin, if_pos (by omega), hat, getD_cons_succ]
          · rw [if_neg hin, if_neg (by omega)]

end Fill

/-!
## Blocks
-/

section Scan

variable {mode : Nat → Nat}

theorem scanBlock_eq (n start : Nat) (fs : Filsys) (hsmall : start + n ≤ 65536) :
    (scanBlock mode n (start % 65536) fs).2 =
        fs.fill ((List.range' start n).filter fun x => mode x = 0) ∧
      (0 < (scanBlock mode n (start % 65536) fs).2.sNinode →
        (scanBlock mode n (start % 65536) fs).1 = (start + n) % 65536) := by
  induction n generalizing start fs with
  | zero => exact ⟨rfl, fun _ => rfl⟩
  | succ n ih =>
    have hstart : start % 65536 = start := Nat.mod_eq_of_lt (by omega)
    rw [hstart, scanBlock, range'_succ]
    by_cases hfull : fs.sNinode ≤ 0
    · rw [if_pos hfull, Filsys.fill_full hfull]
      exact ⟨rfl, fun (hpos : 0 < fs.sNinode) => absurd hpos (by omega)⟩
    · rw [if_neg hfull]
      have hnext : start + (n + 1) = start + 1 + n := by ring
      rw [hnext]
      by_cases hfree : mode start = 0
      · rw [if_pos hfree, filter_cons_of_pos (by simpa using hfree), Filsys.fill_cons hfull]
        exact ih (start + 1) (fs.stash start) (by omega)
      · rw [if_neg hfree, filter_cons_of_neg (by simpa using hfree)]
        exact ih (start + 1) fs (by omega)

theorem scan_eq {inopb : Nat} {readError : Nat → Bool} {block : Nat → Nat} (n adr start : Nat)
    (fs : Filsys) (hblock : ∀ j i, i < inopb → block (start + j * inopb + i) = adr + j)
    (hsmall : start + n * inopb ≤ 65536) : scan mode inopb readError n adr (start % 65536) fs =
      fs.fill ((List.range' start (n * inopb)).filter fun x =>
        mode x = 0 ∧ readError (block x) = false) := by
  induction n generalizing adr start fs with
  | zero => simp [scan, Filsys.fill_nil]
  | succ n ih =>
    have hsize : (n + 1) * inopb = inopb + n * inopb := by ring
    have hsplit : List.range' start ((n + 1) * inopb) =
        List.range' start inopb ++ List.range' (start + inopb) (n * inopb) := by
      rw [hsize, range'_append_1]
    have hfirst : ∀ x ∈ List.range' start inopb, block x = adr := by
      intro x hx
      rw [mem_range'_1] at hx
      have hat := hblock 0 (x - start) (by omega)
      rw [Nat.zero_mul, Nat.add_zero, Nat.add_zero] at hat
      rw [← hat]
      congr 1
      omega
    have hrest : ∀ j i, i < inopb → block (start + inopb + j * inopb + i) = adr + 1 + j := by
      intro j i hi
      have hat := hblock (j + 1) i hi
      have hindex : start + (j + 1) * inopb + i = start + inopb + j * inopb + i := by ring
      rw [hindex] at hat
      rw [hat]
      ring
    rw [scan, hsplit, filter_append, Filsys.fill_append]
    by_cases hread : readError adr = true
    · have hnone : (List.range' start inopb).filter (fun x =>
          decide (mode x = 0 ∧ readError (block x) = false)) = [] := by
        rw [filter_eq_nil_iff]
        intro x hx
        rw [hfirst x hx, hread]
        simp
      rw [if_pos hread, hnone, Filsys.fill_nil, Nat.mod_add_mod]
      exact ih (adr + 1) (start + inopb) fs hrest (by rw [hsize] at hsmall; omega)
    · have hread : readError adr = false := by simpa using hread
      have hsame : (List.range' start inopb).filter (fun x =>
          decide (mode x = 0 ∧ readError (block x) = false)) =
          (List.range' start inopb).filter fun x => mode x = 0 := by
        refine filter_congr fun x hx => ?_
        rw [hfirst x hx, hread]
        simp
      obtain ⟨hfill, hino⟩ := @scanBlock_eq mode inopb start fs (by rw [hsize] at hsmall; omega)
      rw [if_neg (by simp [hread]), hsame]
      by_cases hfull : (scanBlock mode inopb (start % 65536) fs).2.sNinode ≤ 0
      · rw [if_pos hfull, hfill]
        rw [hfill] at hfull
        rw [Filsys.fill_full hfull]
      · rw [if_neg hfull, hino (by omega), hfill]
        exact ih (adr + 1) (start + inopb) _ hrest (by rw [hsize] at hsmall; omega)

end Scan

end S5
end Svr4
