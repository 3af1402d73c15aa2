import ZrSoc.ArbiterInvariant

/-!
# The arbiter is work-conserving and fair

In `Q_REQ` the ready flops of both ports are high, so that a request is accepted at once; of two requests it is the one
of the port that was not served last.  The record `dtm_src_last` changes with an acceptance only.  So the other port is
accepted at most once while a port waits: afterwards the record is on the waiting port's side (`fair`).
-/

namespace DmiArbiter

open Sync

variable {q r : ℕ} {i : ℕ → Input q r} {n m : ℕ} {p : Port}

/-- The requests of port `p` accepted before cycle `n`. -/
def acceptCount (i : ℕ → Input q r) (p : Port) (n : ℕ) : ℕ :=
  Nat.count (fun k => reqAccept (run i k) (i k) p = true) n

/-- Port `p` holds its request valid from cycle `n` until cycle `m`, and it is not accepted. -/
def Waits (i : ℕ → Input q r) (p : Port) (n m : ℕ) : Prop :=
  ∀ k, n ≤ k → k < m → (i k).reqVld p = true ∧ reqAccept (run i k) (i k) p = false

/-- The arbiter accepts exactly one of the requests it sees in `Q_REQ`, and a port that waits is passed over at most
once. -/
structure WorkConservingFair (i : ℕ → Input q r) : Prop where
  workConserving : ∀ n, (run i n).transFsmQ = .qReq → (∃ p, (i n).reqVld p = true) →
    ∃! p, reqAccept (run i n) (i n) p = true
  fair : ∀ p n m, n ≤ m → Waits i p n m → acceptCount i p.other m ≤ acceptCount i p.other n + 1

@[simp] theorem Port.other_other (p : Port) : p.other.other = p := by cases p <;> rfl

@[simp] theorem Port.index_other (p : Port) : p.other.index = !p.index := by cases p <;> rfl

/-! ### One cycle -/

theorem reqAccept_unique {s : State q r} {x : Input q r} {p p' : Port} (h : reqAccept s x p = true)
    (h' : reqAccept s x p' = true) : p' = p := by
  have hnot := not_both_accepted s x
  cases p <;> cases p'
  · rfl
  · exact absurd ⟨h, h'⟩ hnot
  · exact absurd ⟨h', h⟩ hnot
  · rfl

/-- In `Q_REQ` the arbiter is ready for both ports. -/
theorem reqAccept_iff_of_qReq (hdm : DmAnswersOnce i) (hq : (run i n).transFsmQ = .qReq) (p : Port) :
    reqAccept (run i n) (i n) p = true ↔
      (i n).reqVld p = true ∧ ((run i n).dtmSrcLast ≠ p.index ∨ (i n).reqVld p.other = false) := by
  have hs := (tracks hdm n).shows
  have hrdy : (run i n).reqRdy p = true := by
    cases hp : phases i n with
    | idle =>
      rw [hp] at hs
      exact hs.2.2.1 p
    | request p' a | waiting p' a | response p' a b =>
      rw [hp] at hs
      exact absurd (hq.symm.trans hs.1) (by decide)
  simp [reqAccept_eq, reqAllow_eq, hrdy, hq]

/-- An accepted request is recorded. -/
theorem srcLast_of_accept (h : reqAccept (run i n) (i n) p = true) : (run i (n + 1)).dtmSrcLast = p.index := by
  have hnot := not_both_accepted (run i n) (i n)
  rw [run_succ]
  cases p with
  | dtm0 =>
    have h0 : dtm0ReqAccept (run i n) (i n) = true := h
    have h1 : dtm1ReqAccept (run i n) (i n) = false := by simpa [h0] using hnot
    simp [edge, h0, h1, Port.index]
  | dtm1 =>
    have h1 : dtm1ReqAccept (run i n) (i n) = true := h
    simp [edge, h1, Port.index]

/-- Without an acceptance the record stays. -/
theorem srcLast_of_not_accept (h : ∀ p, reqAccept (run i n) (i n) p = false) :
    (run i (n + 1)).dtmSrcLast = (run i n).dtmSrcLast := by
  have h0 : dtm0ReqAccept (run i n) (i n) = false := h .dtm0
  have h1 : dtm1ReqAccept (run i n) (i n) = false := h .dtm1
  simp [run_succ, edge, h0, h1]

/-- A port that was served last is not accepted while the other one asks. -/
theorem not_accept_of_served (hv : (i n).reqVld p = true) (hl : (run i n).dtmSrcLast = p.other.index) :
    reqAccept (run i n) (i n) p.other = false := by
  simp [reqAccept_eq, reqAllow_eq, hl, hv]

/-! ### Whole runs -/

/-- While `p` waits, the other port has not been accepted, or once and is recorded. -/
theorem Waits.passed_over (hnm : n ≤ m) (hw : Waits i p n m) : acceptCount i p.other m = acceptCount i p.other n ∨
    acceptCount i p.other m = acceptCount i p.other n + 1 ∧ (run i m).dtmSrcLast = p.other.index := by
  induction m, hnm using Nat.le_induction with
  | base => exact Or.inl rfl
  | succ m hnm ih =>
    obtain ⟨hv, hna⟩ := hw m hnm (Nat.lt_succ_self m)
    have hcount : acceptCount i p.other (m + 1) =
        acceptCount i p.other m + if reqAccept (run i m) (i m) p.other = true then 1 else 0 := Nat.count_succ _ _
    rw [hcount]
    by_cases hacc : reqAccept (run i m) (i m) p.other = true
    · rw [if_pos hacc]
      rcases ih fun k hk hkm => hw k hk (by omega) with h | ⟨-, hl⟩
      · exact Or.inr ⟨by omega, srcLast_of_accept hacc⟩
      · rw [not_accept_of_served hv hl] at hacc
        exact absurd hacc Bool.false_ne_true
    · rw [if_neg hacc, Nat.add_zero]
      have hstay : (run i (m + 1)).dtmSrcLast = (run i m).dtmSrcLast := by
        apply srcLast_of_not_accept
        intro p'
        rcases p'.eq_or_other p with rfl | rfl
        · exact hna
        · simpa using hacc
      rw [hstay]
      exact ih fun k hk hkm => hw k hk (by omega)

/-- With a debug module that responds only to an accepted and unanswered request, the arbiter is work-conserving and
fair. -/
theorem work_conserving_fair (hdm : DmAnswersOnce i) : WorkConservingFair i := by
  constructor
  · rintro n hq ⟨p, hv⟩
    have hiff := reqAccept_iff_of_qReq hdm hq
    -- of two requests the one of the port that was not served last
    have hex : ∃ p, reqAccept (run i n) (i n) p = true := by
      by_cases hl : (run i n).dtmSrcLast = p.index
      · by_cases ho : (i n).reqVld p.other = true
        · exact ⟨p.other, (hiff p.other).2 ⟨ho, Or.inl (by simp [hl])⟩⟩
        · exact ⟨p, (hiff p).2 ⟨hv, Or.inr (by simpa using ho)⟩⟩
      · exact ⟨p, (hiff p).2 ⟨hv, Or.inl hl⟩⟩
    obtain ⟨p', hp'⟩ := hex
    exact ⟨p', hp', fun p'' hp'' => reqAccept_unique hp' hp''⟩
  · intro p n m hnm hw
    rcases hw.passed_over hnm with h | ⟨h, -⟩ <;> omega

theorem work_conserving_fair_contention : WorkConservingFair contention := work_conserving_fair contention_dm

end DmiArbiter
