import Svr4.Lib.Serial
import Svr4.Tcp.Model

/-!
# The receive window and the advertised window

What is dropped from a segment lies before `rcv_nxt` or behind the
receive window, and so never in the window that has been advertised.
-/

namespace Svr4
namespace Tcp

open Serial

/-!
## Signed differences
-/

theorem toInt_range (b : BitVec 32) : -2147483648 ≤ b.toInt ∧ b.toInt < 2147483648 :=
  ⟨b.le_toInt, b.toInt_lt⟩

variable {x start nxt : Seq}

theorem toInt_ahead {y : Seq} {i : Int} (h : Ahead x y i) (hlo : -2147483648 ≤ i)
    (hhi : i < 2147483648) : (x - y).toInt = i :=
  h.toInt_eq (by decide) hlo hhi

theorem mem_seqs {n : Nat} : x ∈ seqs start n ↔ ∃ k < n, x = start + BitVec.ofNat 32 k := by
  simp only [seqs, List.mem_map, List.mem_range]
  constructor
  · rintro ⟨k, hk, rfl⟩
    exact ⟨k, hk, rfl⟩
  · rintro ⟨k, hk, rfl⟩
    exact ⟨k, hk, rfl⟩

namespace Tcpcb

def promise (tp : Tcpcb) : Int := (tp.rcvAdv - tp.rcvNxt).toInt

def space (tp : Tcpcb) : Int := (tp.hiwat - tp.tIqsize).toInt

def Advertised (tp : Tcpcb) (x : Seq) : Prop :=
  0 ≤ (x - tp.rcvNxt).toInt ∧ (x - tp.rcvNxt).toInt < tp.promise

theorem promise_le_window (tp : Tcpcb) : tp.promise ≤ tp.window.toInt := by
  have hhiwat := toInt_range tp.hiwat
  have hpromise := toInt_range (tp.rcvAdv - tp.rcvNxt)
  unfold promise window
  rw [BitVec.toInt_ofInt_eq_self (by decide)]
  · exact le_max_right _ _
  · refine le_trans ?_ (le_max_right _ _)
    simpa using hpromise.1
  · rw [max_lt_iff]
    constructor
    · split <;> split <;> omega
    · simpa using hpromise.2

end Tcpcb

/-!
## What is dropped at the left
-/

variable {n win : Int}

theorem seqs_before {m : Nat} (hn : Ahead nxt start n) (hhi : n < 2147483648) (hm : m ≤ n)
    (hx : x ∈ seqs start m) : (x - nxt).toInt < 0 := by
  rcases mem_seqs.mp hx with ⟨k, hk, rfl⟩
  have hahead : Ahead (start + BitVec.ofNat 32 k) nxt (-n + k) := hn.symm.add k
  rw [toInt_ahead hahead (by omega) (by omega)]
  omega

variable {r : Trim} {tp s : Tcpcb}

namespace Trim

theorem ahead_skipSyn (h : Ahead nxt r.ti.tiSeq n) : Ahead nxt r.skipSyn.ti.tiSeq (n - 1) :=
  h.sub (ahead_add_nat r.ti.tiSeq 1)

theorem dropHead_outside (hr : r.outside = []) (hn : Ahead nxt r.ti.tiSeq n) (hpos : 0 ≤ n)
    (hlt : n < 2147483648) (hx : x ∈ (r.dropHead n).outside) : (x - nxt).toInt < 0 := by
  unfold dropHead at hx
  split at hx
  · rename_i hall
    have hle : (r.ti.tiLen : Int) ≤ n := by
      rcases hall with hall | hall
      · omega
      · omega
    have hseqs : x ∈ seqs r.ti.tiSeq r.ti.tiLen := by
      split at hx
      · simpa [adjHead, hr] using hx
      · simpa [dropafterack, hr] using hx
    exact seqs_before hn hlt hle hseqs
  · have hseqs : x ∈ seqs r.ti.tiSeq n.toNat := by
      simpa [adjHead, hr] using hx
    exact seqs_before hn hlt (by omega) hseqs

theorem left_outside (hr : r.outside = [])
    (hx : x ∈ (left tp r).outside) : (x - tp.rcvNxt).toInt < 0 := by
  have hahead := ahead_toInt tp.rcvNxt r.ti.tiSeq
  have hrange := toInt_range (tp.rcvNxt - r.ti.tiSeq)
  unfold left at hx
  dsimp only at hx
  split at hx
  · rename_i hpos
    split at hx
    · exact dropHead_outside (r := r.skipSyn) hr (ahead_skipSyn hahead) (by omega) (by omega) hx
    · exact dropHead_outside hr hahead hpos.le hrange.2 hx
  · rw [hr] at hx
    cases hx

/-!
## What is dropped at the right
-/

theorem mem_last {ti : Tcpiphdr} {m : Nat} (hm : m ≤ ti.tiLen)
    (hx : x ∈ seqs (ti.tiSeq + BitVec.ofNat 32 (ti.tiLen - m)) m) :
    ∃ j : Int, 1 ≤ j ∧ j ≤ m ∧ Ahead ti.seqEnd x j := by
  rcases mem_seqs.mp hx with ⟨k, hk, rfl⟩
  have hend : Ahead ti.seqEnd ti.tiSeq ti.tiLen := ahead_add_nat ti.tiSeq ti.tiLen
  have hx : Ahead (ti.tiSeq + BitVec.ofNat 32 (ti.tiLen - m) + BitVec.ofNat 32 k) ti.tiSeq
      ((ti.tiLen - m : Nat) + k) := (ahead_add_nat ti.tiSeq (ti.tiLen - m)).add k
  exact ⟨_, by omega, by omega, hend.sub hx⟩

theorem right_outside (hx : x ∈ (right tp r).outside) : x ∈ r.outside ∨ ∃ j : Int, 1 ≤ j ∧
      j ≤ (r.ti.seqEnd - (tp.rcvNxt + tp.rcvWnd)).toInt ∧ Ahead r.ti.seqEnd x j := by
  unfold right at hx
  dsimp only at hx
  set m := (r.ti.seqEnd - (tp.rcvNxt + tp.rcvWnd)).toInt with hm
  split at hx
  · rename_i hpos
    split at hx
    · rename_i hall
      have hwhole : x ∈ seqs r.ti.tiSeq r.ti.tiLen →
          ∃ j : Int, 1 ≤ j ∧ j ≤ m ∧ Ahead r.ti.seqEnd x j := by
        intro hmem
        have hlast : x ∈ seqs (r.ti.tiSeq + BitVec.ofNat 32 (r.ti.tiLen - r.ti.tiLen))
            r.ti.tiLen := by
          simpa using hmem
        rcases mem_last le_rfl hlast with ⟨j, hj, hle, hahead⟩
        exact ⟨j, hj, by omega, hahead⟩
      split at hx
      · rename_i hprobe
        -- the window is closed, so exactly the text is dropped
        have hlen : m = r.ti.tiLen := by
          have hahead : Ahead r.ti.seqEnd (tp.rcvNxt + tp.rcvWnd) r.ti.tiLen := by
            rw [hprobe.1, ← hprobe.2, add_zero]
            exact ahead_add_nat r.ti.tiSeq r.ti.tiLen
          have hrange := toInt_range (r.ti.seqEnd - (tp.rcvNxt + tp.rcvWnd))
          exact toInt_ahead hahead (by omega) (by omega)
        simp only [adjTail, List.mem_append] at hx
        rcases hx with hx | hx
        · exact .inl hx
        · right
          apply hwhole
          rw [hlen] at hx
          simpa using hx
      · simp only [dropafterack, List.mem_append] at hx
        rcases hx with hx | hx
        · exact .inl hx
        · exact .inr (hwhole hx)
    · rename_i hpart
      simp only [adjTail, List.mem_append] at hx
      rcases hx with hx | hx
      · exact .inl hx
      · rcases mem_last (by omega) hx with ⟨j, hj, hle, hahead⟩
        exact .inr ⟨j, hj, by omega, hahead⟩
  · exact .inl hx

theorem not_advertised_of_beyond {e : Seq} {j : Int} (hwnd : tp.promise ≤ tp.rcvWnd.toInt)
    (hj : 1 ≤ j) (hle : j ≤ (e - (tp.rcvNxt + tp.rcvWnd)).toInt) (hx : Ahead e x j) :
    ¬ tp.Advertised x := by
  rintro ⟨hnonneg, hlt⟩
  have hrange := toInt_range (e - (tp.rcvNxt + tp.rcvWnd))
  have hwndrange := toInt_range tp.rcvWnd
  have hend := ahead_toInt e (tp.rcvNxt + tp.rcvWnd)
  have hright : Ahead (tp.rcvNxt + tp.rcvWnd) tp.rcvNxt tp.rcvWnd.toInt := by
    have hadd := ahead_add tp.rcvNxt tp.rcvWnd.toInt
    rwa [BitVec.ofInt_toInt] at hadd
  have hxnxt := ahead_toInt x tp.rcvNxt
  have hfar : Ahead x (tp.rcvNxt + tp.rcvWnd)
      ((x - tp.rcvNxt).toInt - tp.rcvWnd.toInt) := hxnxt.sub hright
  have hnear : Ahead x (tp.rcvNxt + tp.rcvWnd)
      (-j + (e - (tp.rcvNxt + tp.rcvWnd)).toInt) := hx.symm.trans hend
  have h₁ := toInt_ahead hfar (by omega) (by omega)
  have h₂ := toInt_ahead hnear (by omega) (by omega)
  omega

end Trim

/-!
## A segment as a whole
-/

section Segment

variable {env : InputEnv} {tp : Tcpcb} {r : Trim} {x : Seq}

theorem trimmed_outside : (tp.trimmed env r).outside = r.outside := by
  unfold Tcpcb.trimmed
  split
  · rfl
  · rfl

theorem right_not_advertised (hwnd : tp.promise ≤ tp.rcvWnd.toInt)
    (hr : x ∈ r.outside → ¬ tp.Advertised x) (hx : x ∈ (r.right tp).outside) :
    ¬ tp.Advertised x := by
  rcases Trim.right_outside hx with hx | ⟨j, hj, hle, hahead⟩
  · exact hr hx
  · exact Trim.not_advertised_of_beyond hwnd hj hle hahead

theorem trimmedLeft_outside (hwnd : s.promise ≤ s.rcvWnd.toInt)
    (hr : x ∈ r.outside → ¬ s.Advertised x)
    (hx : x ∈ (s.trimmedLeft env r).outside) : ¬ s.Advertised x := by
  unfold Tcpcb.trimmedLeft at hx
  split at hx
  · exact hr hx
  split at hx
  · exact hr hx
  · rw [trimmed_outside] at hx
    exact right_not_advertised hwnd hr hx

theorem tcpUinput_outside {seg : Segment} (hsyn : tp.tState.haveRcvdSyn = true)
    (hx : x ∈ (tp.tcpUinput env seg).outside) : ¬ tp.Advertised x := by
  unfold Tcpcb.tcpUinput at hx
  dsimp only at hx
  split at hx
  · cases hx
  split at hx
  · cases hx
  refine trimmedLeft_outside (s := tp.setWindow) tp.promise_le_window ?_ hx
  intro hleft hadvertised
  have hbefore := Trim.left_outside rfl hleft
  exact absurd hadvertised.1 (not_le.mpr hbefore)

end Segment

/-!
## The window that is sent
-/

namespace Tcpcb

theorem outputWindow_spec (hwin : 0 ≤ win) : 0 ≤ tp.outputWindow win ∧ tp.outputWindow win ≤ 65535 ∧
    tp.outputWindow win ≤ max win tp.promise := by
  unfold outputWindow IP_MAXPACKET promise
  dsimp only
  refine ⟨?_, ?_, ?_⟩
  · split <;> split <;> split <;> omega
  · split <;> split <;> split <;> omega
  · split <;> split <;> split <;> omega

/-- The window of a segment that `tcp_output` sends. -/
structure Sends (s t : Tcpcb) (w : BitVec 16) (win : Int) : Prop where
  nonneg : 0 ≤ win
  largest : win ≤ 65535
  sent : (w.toNat : Int) = win
  bound : win ≤ max (max 0 s.space) s.promise
  /-- the right edge is where it was, or moves right to the new window -/
  edge : (t.rcvAdv = s.rcvAdv ∧ t.ahead = s.ahead) ∨
    (0 < win ∧ seqGt (s.rcvNxt + BitVec.ofInt 32 win) s.rcvAdv = true ∧
      t.rcvAdv = s.rcvNxt + BitVec.ofInt 32 win ∧ t.ahead = -win)
  recorded : 0 < win → seqGt (s.rcvNxt + BitVec.ofInt 32 win) t.rcvAdv = false
  rest : t = { s with
    rcvAdv := t.rcvAdv, ahead := t.ahead, acknow := false, delack := false }

theorem seqGt_self (x : Seq) : seqGt x x = false := by
  simp [seqGt, seqLt]

theorem toNat_window (hlo : 0 ≤ win) (hhi : win ≤ 65535) :
    ((BitVec.ofInt 16 win).toNat : Int) = win := by
  rw [BitVec.toNat_ofInt]
  omega

theorem tcpOutput_spec (env : OutputEnv) (tp : Tcpcb) : (tp.tcpOutput env = ⟨tp, none, []⟩) ∨
    ∃ w win, (tp.tcpOutput env).sent = some w ∧ (tp.tcpOutput env).outside = [] ∧
      tp.Sends (tp.tcpOutput env).tp w win := by
  unfold tcpOutput
  dsimp only
  have hwin : 0 ≤ (if (tp.hiwat - tp.tIqsize).toInt < 0 then 0
      else (tp.hiwat - tp.tIqsize).toInt) := by
    split <;> omega
  have hmax : (if (tp.hiwat - tp.tIqsize).toInt < 0 then 0
      else (tp.hiwat - tp.tIqsize).toInt) = max 0 tp.space := by
    unfold space
    split <;> omega
  rw [hmax] at hwin ⊢
  obtain ⟨hnonneg, hlargest, hbound⟩ := outputWindow_spec hwin
  split
  · right
    refine ⟨_, tp.outputWindow (max 0 tp.space), rfl, rfl, hnonneg, hlargest,
      toNat_window hnonneg hlargest, hbound, ?_, ?_, ?_⟩
    · split
      · rename_i hmoves
        exact .inr ⟨hmoves.1, hmoves.2, rfl, rfl⟩
      · exact .inl ⟨rfl, rfl⟩
    · intro hpos
      split
      · exact seqGt_self _
      · rename_i hstays
        rw [not_and] at hstays
        exact Bool.eq_false_iff.mpr (hstays hpos)
    · split <;> rfl
  · exact .inl rfl

theorem Sends.rcvAdv_right {t : Tcpcb} {w : BitVec 16}
    (h : Sends s t w win) : (t.rcvAdv - s.rcvAdv).toNat ≤ 2147483648 := by
  rcases h.edge with ⟨hstays, -⟩ | ⟨-, hmoves, hedge, -⟩
  · rw [hstays, sub_self]
    decide
  · rw [← hedge] at hmoves
    unfold seqGt seqLt at hmoves
    rw [BitVec.msb_eq_toNat, decide_eq_true_eq] at hmoves
    have hsum : t.rcvAdv - s.rcvAdv = -(s.rcvAdv - t.rcvAdv) := by ring
    rw [hsum, BitVec.toNat_neg]
    omega

theorem tcpRespond_spec (tp : Tcpcb) : tp.tcpRespond.tp = tp ∧ tp.tcpRespond.outside = [] ∧
    ∀ w, tp.tcpRespond.sent = some w → 0 ≤ max tp.space tp.promise →
      (w.toNat : Int) ≤ max tp.space tp.promise := by
  unfold tcpRespond
  split
  · refine ⟨rfl, rfl, ?_⟩
    intro w hw hnonneg
    cases hw
    simpa using hnonneg
  · rename_i hiwat hq
    have hspace : (hiwat - tp.tIqsize).toInt = tp.space := by
      unfold space Tcpcb.hiwat
      rw [hq]
      rfl
    split
    · refine ⟨rfl, rfl, ?_⟩
      intro w hw hnonneg
      cases hw
      simpa using hnonneg
    · refine ⟨rfl, rfl, ?_⟩
      intro w hw hnonneg
      dsimp only at hw
      have hmax : (if (hiwat - tp.tIqsize).toInt < (tp.rcvAdv - tp.rcvNxt).toInt then
          (tp.rcvAdv - tp.rcvNxt).toInt else (hiwat - tp.tIqsize).toInt) =
          max tp.space tp.promise := by
        unfold promise
        split <;> omega
      cases hw
      rw [BitVec.toNat_ofInt]
      omega

end Tcpcb

end Tcp
end Svr4
