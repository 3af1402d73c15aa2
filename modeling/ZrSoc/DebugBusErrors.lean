import ZrSoc.DebugBusWrites
import ZrSoc.Sync.Latest

/-!
# The response code in `RSP OTHERS`

When an operation completes, the upper bit of the code that is latched is the sticky flag and the lower bit is that of
the debug module's code.  So a rejected write always shows, and the debug module's code is reported as it is if and
only if its own upper bit is clear: `2`, the code of a failed operation, is reported as success
(`error_shown_iff`).
-/

namespace Icb2DebugBus

open Sync

variable {a h : ℕ}

/-- A write to `REQ DWORD` or `REQ OTHERS` that is rejected because an operation is in flight. -/
def BusyWrite (a : ℕ) (i : ℕ → Input h) (n : ℕ) : Prop :=
  (weDbusReqDword (i n) = true ∨ weDbusReqOthers (i n) = true) ∧ (run i n : State a h).dbusFsmAct ≠ .idle

/-- A write was rejected before cycle `n`, and there was no write to `CTRL` since. -/
def Rejected (a : ℕ) (i : ℕ → Input h) (n : ℕ) : Prop := Since (BusyWrite a i) (fun k => weCtrl (i k) = true) n

/-- The code of the debug module's response. -/
def respCode (x : Input h) : BitVec 2 := x.dtmRespBits.extractLsb' 0 2

/-- The code in `RSP OTHERS` after cycle `n`. -/
def reportedCode (a : ℕ) (i : ℕ → Input h) (n : ℕ) : BitVec 2 := codeField (run i (n + 1) : State a h).regDbusRspOthers

/-- The operation that completes in cycle `n` reports the code of the debug module, or an error if a write was rejected
before cycle `m`. -/
structure ErrorShown (a : ℕ) (i : ℕ → Input h) (n m : ℕ) : Prop where
  reported : ¬ Rejected a i m → reportedCode a i n = respCode (i n)
  sticky : Rejected a i m → reportedCode a i n ≠ 0#2
  neverHidden : respCode (i n) ≠ 0#2 → reportedCode a i n ≠ 0#2

variable {i : ℕ → Input h} {n m : ℕ}

/-- The sticky flag says that a write was rejected. -/
theorem sticky_iff (n : ℕ) : (run i n : State a h).dbusRspStatSticky = true ↔ Rejected a i n := by
  refine flag_iff (f := fun n => (run i n : State a h).dbusRspStatSticky) rfl ?_ ?_ ?_ n
  · intro n hc
    simp [run_succ, edge, dtmRst, hc]
  · rintro n ⟨hw, hf⟩
    have hc : weCtrl (i n) = false := hw.elim not_ctrl_of_dword not_ctrl_of_others
    simp [run_succ, edge, dtmRst, hc, hw, hf]
  · intro n hw hc
    have hrst : weCtrl (i n) = false := by simpa using hc
    by_cases hf : (run i n : State a h).dbusFsmAct = .idle
    · simp [run_succ, edge, dtmRst, hrst, hf]
    · have hno : ¬ (weDbusReqDword (i n) = true ∨ weDbusReqOthers (i n) = true) := fun hw' => hw ⟨hw', hf⟩
      simp only [not_or, Bool.not_eq_true] at hno
      simp [run_succ, edge, dtmRst, hrst, hno]

/-- The reported code: the sticky flag and the lower bit of the debug module's code. -/
theorem reportedCode_eq (hd : dbusOpDone (run i n : State a h) (i n) = true) :
    reportedCode a i n = (dbusRspStat (run i n : State a h) (i n)).toBits := by
  exact codeField_of_done hd

/-- The code with the bits `hi` and `lo`. -/
private theorem toBits_ofBits (hi lo : Bool) :
    (DbusRspStat.ofBits hi lo).toBits = BitVec.ofBool hi ++ BitVec.ofBool lo := by
  cases hi <;> cases lo <;> rfl

private theorem respCode_eq (x : Input h) :
    respCode x = BitVec.ofBool (x.dtmRespBits.getLsbD 1) ++ BitVec.ofBool (x.dtmRespBits.getLsbD 0) := by
  refine BitVec.eq_of_getLsbD_eq fun k hk => ?_
  obtain rfl | rfl : k = 0 ∨ k = 1 := by omega
  · rw [respCode, BitVec.getLsbD_extractLsb']
    refine Eq.trans ?_ BitVec.getLsbD_append.symm
    simp
  · rw [respCode, BitVec.getLsbD_extractLsb']
    refine Eq.trans ?_ BitVec.getLsbD_append.symm
    simp

private theorem code_eq_iff : ∀ a b c : Bool,
    (BitVec.ofBool a ++ BitVec.ofBool b : BitVec 2) = BitVec.ofBool c ++ BitVec.ofBool b ↔ a = c := by decide

/-- The debug module's code is latched as it is if the sticky flag agrees with its upper bit. -/
theorem rspStat_eq_respCode_iff {s : State a h} {x : Input h} :
    (dbusRspStat s x).toBits = respCode x ↔ x.dtmRespBits.getLsbD 1 = s.dbusRspStatSticky := by
  rw [dbusRspStat, toBits_ofBits, respCode_eq, code_eq_iff]
  exact eq_comm

private theorem code_eq_zero_iff : ∀ a b : Bool,
    (BitVec.ofBool a ++ BitVec.ofBool b : BitVec 2) = 0#2 ↔ a = false ∧ b = false := by decide

/-- What has to hold of the sticky flag and the two bits of the debug module's code. -/
theorem errorShown_bits (hd : dbusOpDone (run i n : State a h) (i n) = true) :
    ErrorShown a i n m ↔
      (¬ Rejected a i m → (Rejected a i n ↔ (i n).dtmRespBits.getLsbD 1 = true)) ∧
      (Rejected a i m → Rejected a i n ∨ (i n).dtmRespBits.getLsbD 0 = true) := by
  have hrep := reportedCode_eq hd
  rw [dbusRspStat, toBits_ofBits] at hrep
  rw [← sticky_iff n, ← Bool.eq_iff_iff]
  generalize (run i n : State a h).dbusRspStatSticky = sticky at *
  constructor
  · rintro ⟨hcode, hsticky, -⟩
    rw [hrep, respCode_eq, code_eq_iff] at hcode
    rw [hrep, ne_eq, code_eq_zero_iff] at hsticky
    refine ⟨hcode, fun hm => ?_⟩
    by_contra hno
    simp only [not_or, Bool.not_eq_true] at hno
    exact hsticky hm hno
  · rintro ⟨hcode, hsticky⟩
    refine ⟨fun hm => ?_, fun hm h0 => ?_, fun hresp h0 => hresp ?_⟩
    · rw [hrep, respCode_eq, hcode hm]
    · rw [hrep, code_eq_zero_iff] at h0
      rcases hsticky hm with h | h
      · exact absurd (h.symm.trans h0.1) (by decide)
      · exact absurd (h.symm.trans h0.2) (by decide)
    · rw [hrep, code_eq_zero_iff] at h0
      rw [respCode_eq, code_eq_zero_iff]
      by_cases hm : Rejected a i m
      · rcases hsticky hm with h | h
        · exact absurd (h.symm.trans h0.1) (by decide)
        · exact absurd (h.symm.trans h0.2) (by decide)
      · exact ⟨(hcode hm).symm.trans h0.1, h0.2⟩

/-- The code that an operation reports is right if and only if a write has been rejected or the upper bit of the debug
module's code is clear.  If a command in the cycle of the completion counts as well, a write that is rejected there
needs the lower bit in place of the upper one, and a soft reset takes the flag back without being seen. -/
theorem error_shown_iff (hd : dbusOpDone (run i n : State a h) (i n) = true) :
    (ErrorShown a i n n ↔ Rejected a i n ∨ (i n).dtmRespBits.getLsbD 1 = false) ∧
    (ErrorShown a i n (n + 1) ↔
      (weCtrl (i n) = true → (Rejected a i n ↔ (i n).dtmRespBits.getLsbD 1 = true)) ∧
      (BusyWrite a i n → Rejected a i n ∨ (i n).dtmRespBits.getLsbD 0 = true) ∧
      (weCtrl (i n) = false → ¬ BusyWrite a i n → Rejected a i n ∨ (i n).dtmRespBits.getLsbD 1 = false)) := by
  have hone : BusyWrite a i n → weCtrl (i n) = false := fun h => h.1.elim not_ctrl_of_dword not_ctrl_of_others
  have hsucc : Rejected a i (n + 1) ↔ BusyWrite a i n ∨ ¬ weCtrl (i n) = true ∧ Rejected a i n := since_succ_iff
  rw [errorShown_bits hd, errorShown_bits hd, hsucc]
  constructor
  · by_cases hr : Rejected a i n
    · simp [hr]
    · simp [hr]
  · by_cases hb : BusyWrite a i n
    · simp [hb, hone hb]
    · cases hc : weCtrl (i n) with
      | true => simp [hb]
      | false =>
        by_cases hr : Rejected a i n
        · simp [hb, hr]
        · simp [hb, hr]

/-- An operation that is started in cycle 0 and that the debug module answers with `code` in cycle 3. -/
def answeredOp (code : BitVec 34) : ℕ → Input 2
  | 0 => writeCmd addrReqOthers 0x44#32
  | 3 => { noCmd with dtmRespValid := true, dtmRespBits := code }
  | _ => noCmd

/-- A failed operation is reported as success. -/
theorem error_not_shown : ¬ ∀ (i : ℕ → Input 2) (n : ℕ), dbusOpDone (run i n : State 7 2) (i n) = true →
    ErrorShown 7 i n n := by
  intro h
  have hs := h (answeredOp 2#34) 3 (by decide)
  exact hs.neverHidden (by decide) (by decide +kernel)

theorem error_shown_answeredOp : ErrorShown 7 (answeredOp 1#34) 3 3 :=
  (error_shown_iff (by decide)).1.2 (Or.inr (by decide))

end Icb2DebugBus
