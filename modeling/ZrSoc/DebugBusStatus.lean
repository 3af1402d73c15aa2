import ZrSoc.DebugBusErrors
import ZrSoc.DebugBusRequests

/-!
# The busy flag in `Status`

Software starts an operation by a write to `REQ OTHERS` and polls the busy flag; once it reads as 0, the response
registers are to hold the answer.  The flag shows the state of the FSM, which is still idle in the cycle after the
write, and the write starts no operation at all if `REQ OTHERS` was written in the cycle before it.  These are the
only cases in which a reading of 0 does not mean that the operation has completed; and the response is held as it was
given if the upper bit of its code is that of the sticky flag, which is latched in its place (`status_answered_iff`).
-/

namespace Icb2DebugBus

open Sync

variable {a h : ℕ}

/-- An accepted read of `Status`. -/
def StatusRead (x : Input h) : Prop :=
  x.icbCmdValid = true ∧ icbCmdReady x = true ∧ x.icbCmdRead = true ∧ x.icbCmdAddr = addrStat

/-- The busy flag as read from `Status`. -/
def readsBusy (s : State a h) (x : Input h) : Bool := (icbRspRdata s x).getLsbD 31

/-- The operation started by the write of cycle `t` completes in cycle `v`. -/
structure Completed (a : ℕ) (i : ℕ → Input h) (t v : ℕ) : Prop where
  started : (run i (t + 1) : State a h).dbusOpStart = true
  running : ∀ k, t + 2 ≤ k → k ≤ v → (run i k : State a h).dbusFsmAct ≠ .idle
  requested : ∃ r, t + 2 ≤ r ∧ r ≤ v ∧ ReqHandshake a i r
  responded : (i v).dtmRespValid = true ∧ dtmRespReady (i v) = true ∧ dbusOpDone (run i v : State a h) (i v) = true

/-- The response registers in cycle `w` hold the response of cycle `v`: its data, and its code with the address of the
request. -/
def HoldsResponse (a : ℕ) (i : ℕ → Input h) (v w : ℕ) : Prop :=
  (run i w : State a h).regDbusRspDword = (i v).dtmRespBits.extractLsb' 2 32 ∧
  (run i w : State a h).regDbusRspOthers =
    addrField (run i v : State a h).regDbusReqOthers ++ (respCode (i v) ++ 0#2)

/-- Before cycle `u` the operation started by the write of cycle `t` has completed, and until the end of the next
operation the response registers hold its response. -/
def Answered (a : ℕ) (i : ℕ → Input h) (t u : ℕ) : Prop :=
  ∃ v, t + 2 ≤ v ∧ v < u ∧ Completed a i t v ∧
    ∀ w, v < w → w ≤ u → (∀ k, v < k → k < w → dbusOpDone (run i k : State a h) (i k) = false) →
      HoldsResponse a i v w

/-- When the operation started by the write of cycle `t` completes before cycle `u`, the upper bit of the debug module's
code is that of the sticky flag. -/
def CodeAgrees (a : ℕ) (i : ℕ → Input h) (t u : ℕ) : Prop :=
  ∀ v, t + 2 ≤ v → v < u → dbusOpDone (run i v : State a h) (i v) = true →
    (∀ k, t + 2 ≤ k → k < v → dbusOpDone (run i k : State a h) (i k) = false) →
    (i v).dtmRespBits.getLsbD 1 = (run i v : State a h).dbusRspStatSticky

section Run

variable {i : ℕ → Input h} {t u v : ℕ}

private theorem msb_append (b : Bool) (v : BitVec 31) : (BitVec.ofBool b ++ v : BitVec 32).getLsbD 31 = b :=
  BitVec.getLsbD_append.trans (by cases b <;> rfl)

/-- The busy flag of an accepted read of `Status` is the state of the FSM. -/
theorem readsBusy_eq_false_iff {s : State a h} {x : Input h} (hr : StatusRead x) :
    readsBusy s x = false ↔ s.dbusFsmAct = .idle := by
  obtain ⟨hv, -, hrd, ha⟩ := hr
  have h : addrStat ≠ addrReqDword ∧ addrStat ≠ addrReqOthers ∧ addrStat ≠ addrRspDword ∧ addrStat ≠ addrRspOthers := by
    decide
  have hb : readsBusy s x = (s.dbusFsmAct != .idle) := by
    simp only [readsBusy, icbRspRdata, hv, hrd, ha, h, Bool.and_self, ↓reduceIte]
    exact msb_append _ _
  simp [hb]

/-- The response registers hold a response if the sticky flag agrees with the upper bit of its code. -/
theorem holdsResponse_succ_iff (hv : dbusOpDone (run i v : State a h) (i v) = true) :
    HoldsResponse a i v (v + 1) ↔ (i v).dtmRespBits.getLsbD 1 = (run i v : State a h).dbusRspStatSticky := by
  rw [← rspStat_eq_respCode_iff]
  constructor
  · rintro ⟨-, hothers⟩
    have hcode := congrArg codeField hothers
    rwa [run_succ, codeField_of_done hv, codeField_append] at hcode
  · intro hcode
    simp [HoldsResponse, run_succ, edge, hv, hcode]

theorem holdsResponse (hv : dbusOpDone (run i v : State a h) (i v) = true)
    (hcode : (i v).dtmRespBits.getLsbD 1 = (run i v : State a h).dbusRspStatSticky) {w : ℕ} (hvw : v < w)
    (hno : ∀ k, v < k → k < w → dbusOpDone (run i k : State a h) (i k) = false) : HoldsResponse a i v w := by
  refine persists (Q := fun k => dbusOpDone (run i k : State a h) (i k) = true) (Nat.succ_le_of_lt hvw) ?_ ?_
    fun k hk hkw => by simp [hno k (by omega) hkw]
  · exact (holdsResponse_succ_iff hv).2 hcode
  · intro k _ _ hk hd
    simp only [Bool.not_eq_true] at hd
    simpa [HoldsResponse, run_succ, edge, hd] using hk

/-- While an operation has not completed its request is waiting or has had its handshake. -/
private theorem request_or_handshake (hf : (run i (t + 2) : State a h).dbusFsmAct = .reqBusy)
    (hc : ∀ k, t + 2 ≤ k → k < v → weCtrl (i k) = false) (htv : t + 2 ≤ v)
    (hrun : ∀ k, t + 2 ≤ k → k ≤ v → (run i k : State a h).dbusFsmAct ≠ .idle) :
    (run i v : State a h).dbusFsmAct = .reqBusy ∨ ∃ r, t + 2 ≤ r ∧ r < v ∧ ReqHandshake a i r := by
  induction v, htv using Nat.le_induction with
  | base => exact Or.inl hf
  | succ k hk ih =>
    rcases ih (fun j hj hjk => hc j hj (by omega)) (fun j hj hjk => hrun j hj (by omega)) with hb | ⟨r, hr, hrk, hh⟩
    · by_cases hr : (i k).dtmReqReady = true
      · exact Or.inr ⟨k, hk, by omega, dtmReqValid_iff.2 hb, hr⟩
      · rw [Bool.not_eq_true] at hr
        exact Or.inl (request_succ hb hr (hc k hk (by omega))).1
    · exact Or.inr ⟨r, hr, by omega, hh⟩

/-- An operation that was started and is no longer running has completed, in the cycle before the first idle one. -/
private theorem exists_completed (hs : (run i (t + 1) : State a h).dbusOpStart = true)
    (hf : (run i (t + 2) : State a h).dbusFsmAct = .reqBusy) (htu : t + 2 ≤ u)
    (hidle : (run i u : State a h).dbusFsmAct = .idle) (hc : ∀ k, t + 2 ≤ k → k < u → weCtrl (i k) = false) :
    ∃ v, t + 2 ≤ v ∧ v < u ∧ Completed a i t v := by
  obtain ⟨w, hle, hwu, hfirst, hmin⟩ :=
    exists_first (Q := fun k => (run i k : State a h).dbusFsmAct = .idle) htu hidle
  obtain ⟨v, rfl⟩ : ∃ v, w = v + 1 := ⟨w - 1, by omega⟩
  have hv : t + 2 ≤ v := by
    by_contra hlt
    obtain rfl : v = t + 1 := by omega
    exact absurd (hfirst.symm.trans hf) (by decide)
  have hdone : dbusOpDone (run i v : State a h) (i v) = true := by
    rw [run_succ, fsm_edge (hc v hv (by omega))] at hfirst
    exact (fsmNxt_eq_idle_iff (hmin v hv (by omega))).1 hfirst
  have hresp : (i v).dtmRespValid = true := by
    simp only [dbusOpDone] at hdone
    split at hdone <;> simp_all
  have hrun : ∀ k, t + 2 ≤ k → k ≤ v → (run i k : State a h).dbusFsmAct ≠ .idle :=
    fun k hk hkv => hmin k hk (by omega)
  refine ⟨v, hv, by omega, hs, hrun, ?_, hresp, hresp, hdone⟩
  rcases request_or_handshake hf (fun k hk hkv => hc k hk (by omega)) hv hrun with hq | ⟨r, hr, hrv, hh⟩
  · have hready : (i v).dtmReqReady = true := by
      simp only [dbusOpDone, hq, Bool.and_eq_true] at hdone
      exact hdone.1
    exact ⟨v, hv, Nat.le_refl v, dtmReqValid_iff.2 hq, hready⟩
  · exact ⟨r, hr, Nat.le_of_lt hrv, hh⟩

/-- No operation completes before it does. -/
private theorem Completed.not_done (hcomp : Completed a i t v) (hc : ∀ k, t < k → k < u → weCtrl (i k) = false) {k : ℕ}
    (hk : t + 2 ≤ k) (hkv : k < v) (hvu : v < u) : ¬ dbusOpDone (run i k : State a h) (i k) = true := by
  intro hdone
  have hidle : (run i (k + 1) : State a h).dbusFsmAct = .idle := by
    rw [run_succ, fsm_edge (hc k (by omega) (by omega))]
    exact (fsmNxt_eq_idle_iff (hcomp.running k hk hkv.le)).2 hdone
  exact hcomp.running (k + 1) (by omega) hkv hidle

/-- A read of `Status` with the busy flag at 0 after an idle write, without a soft reset in between, means that the
operation of the write has been answered if and only if it is not in the cycle directly after the write,
`REQ OTHERS` was not written in the cycle directly before the write, and the upper bit of the debug module's code is
that of the sticky flag. -/
theorem status_answered_iff (hw : IdleWrite a i t) (htu : t < u)
    (hr : StatusRead (i u)) (hb : readsBusy (run i u : State a h) (i u) = false)
    (hc : ∀ k, t < k → k < u → weCtrl (i k) = false) :
    Answered a i t u ↔ t + 1 < u ∧ (run i t : State a h).weDbusReqOthersD = false ∧ CodeAgrees a i t u := by
  rw [readsBusy_eq_false_iff hr] at hb
  constructor
  · rintro ⟨v, hv, hvu, hcomp, hholds⟩
    have hpulse : weDbusReqOthers (i t) = true ∧ (run i t : State a h).weDbusReqOthersD = false := by
      simpa [run_succ, edge] using hcomp.started
    refine ⟨by omega, hpulse.2, ?_⟩
    intro v' hv' hvu' hdone hfirst
    have hle : v' ≤ v := by
      by_contra hlt
      exact absurd (hfirst v hv (by omega)) (by rw [hcomp.responded.2.2]; decide)
    obtain rfl : v' = v := hle.antisymm (not_lt.1 fun hlt => hcomp.not_done hc hv' hlt hvu hdone)
    exact (holdsResponse_succ_iff hdone).1 (hholds (v' + 1) (by omega) (by omega) fun k _ _ => by omega)
  · rintro ⟨hlt, hd, hcode⟩
    obtain ⟨hf1, hs1, -, -⟩ := start_of_idleWrite hw hd
    have hf2 : (run i (t + 2) : State a h).dbusFsmAct = .reqBusy :=
      request_of_start hf1 hs1 (hc (t + 1) (by omega) (by omega))
    obtain ⟨v, hv, hvu, hcomp⟩ :=
      exists_completed hs1 hf2 hlt hb fun k hk hku => hc k (by omega) hku
    have hagree := hcode v hv hvu hcomp.responded.2.2 fun k hk hkv =>
      Bool.eq_false_iff.2 (hcomp.not_done hc hk hkv hvu)
    exact ⟨v, hv, hvu, hcomp, fun w hvw _ hno => holdsResponse hcomp.responded.2.2 hagree hvw hno⟩

end Run

/-- `REQ OTHERS` is written in cycle 0, the request and its answer follow in cycles 2 and 3; `Status` is read in
every other cycle. -/
def pollStatus : ℕ → Input 2
  | 0 => writeCmd addrReqOthers 0x44#32
  | 3 => { readCmd addrStat with dtmRespValid := true }
  | _ => readCmd addrStat

/-- The first reading of the busy flag is 0, with the operation not yet started. -/
theorem status_not_answered : ¬ ∀ (i : ℕ → Input 2) (t u : ℕ), IdleWrite 7 i t →
    (run i t : State 7 2).dbusOpStart = false → t < u → StatusRead (i u) →
    readsBusy (run i u : State 7 2) (i u) = false → (∀ k, t < k → k < u → weCtrl (i k) = false) →
    Answered 7 i t u := by
  intro h
  obtain ⟨v, hv, hvu, -⟩ := h pollStatus 0 1 ⟨by decide, by decide⟩ (by decide) (by decide)
    (by unfold StatusRead; decide) (by decide +kernel) fun k hk hku => by omega
  omega

theorem status_answered_pollStatus : Answered 7 pollStatus 0 4 := by
  have hctrl : ∀ k < 4, weCtrl (pollStatus k) = false := by decide
  have hcode : ∀ v < 4,
      (pollStatus v).dtmRespBits.getLsbD 1 = (run pollStatus v : State 7 2).dbusRspStatSticky := by decide
  exact (status_answered_iff ⟨by decide, by decide⟩ (by decide) (by unfold StatusRead; decide) (by decide +kernel)
    fun k _ hk => hctrl k hk).2 ⟨by decide, by decide, fun v _ hv _ _ => hcode v hv⟩

end Icb2DebugBus
