import ZrSoc.DebugBusFsm

/-!
# Writes while an operation is in flight

A write to `REQ DWORD` or `REQ OTHERS` accepted while the debug-bus FSM is not idle is compared with the same run
without that command: it is inert if from then on the two runs differ in nothing but the sticky flag and the code bit
the flag is merged into.  The request registers and the sticky flag are gated by the state of the FSM in the cycle of
the write, but the edge detector that starts an operation is not, and its pulse is looked at one cycle later.  A write
to `REQ DWORD` is always inert; for one to `REQ OTHERS` the exact condition is `NotAtCompletion`.
-/

namespace Icb2DebugBus

open Sync

variable {a h : ℕ}

/-- The run without the command of cycle `t`. -/
def withoutCmd (i : ℕ → Input h) (t : ℕ) : ℕ → Input h :=
  Function.update i t { i t with icbCmdValid := false }

/-- Two register files that agree but for the start pulse and its edge detector, the sticky flag, and the bit of
`RSP OTHERS` the flag is merged into. -/
structure SameEffect (s s' : State a h) : Prop where
  reqDword : s.regDbusReqDword = s'.regDbusReqDword
  reqOthers : s.regDbusReqOthers = s'.regDbusReqOthers
  rspDword : s.regDbusRspDword = s'.regDbusRspDword
  rspOthers : ∀ k, k ≠ 3 → s.regDbusRspOthers.getLsbD k = s'.regDbusRspOthers.getLsbD k
  dmIen : s.regDmIen = s'.regDmIen
  dmTmpIdis : s.regDmTmpIdis = s'.regDmTmpIdis
  cntDmTmpIdis : s.cntDmTmpIdis = s'.cntDmTmpIdis
  reqOp : s.dbusReqOp = s'.dbusReqOp
  fsm : s.dbusFsmAct = s'.dbusFsmAct

/-- The write of cycle `t` has no effect but the sticky flag and its own ICB response: in no later cycle does it show
in a request register, in the request to the debug module or in the operation in flight, `RSP OTHERS` shows it only
from the next completion on, and until the next soft reset the code that a completion leaves in `RSP OTHERS` has its
upper bit set. -/
structure Inert (a : ℕ) (i : ℕ → Input h) (t : ℕ) : Prop where
  same : ∀ n, t < n → SameEffect (run i n : State a h) (run (withoutCmd i t) n)
  request : ∀ n, t < n →
    dtmReqValid (run i n : State a h) = dtmReqValid (run (withoutCmd i t) n : State a h) ∧
    dtmReqBits (run i n : State a h) = dtmReqBits (run (withoutCmd i t) n)
  merged : ∀ n, t < n → (∀ m, t < m → m < n → weCtrl (i m) = false) →
    (run i n : State a h).dbusRspStatSticky = true ∧
    (dbusOpDone (run i n : State a h) (i n) = true →
      (codeField (run i (n + 1) : State a h).regDbusRspOthers).getLsbD 1 = true)
  unreported : ∀ n, t < n → (∀ m, t < m → m < n → dbusOpDone (run i m : State a h) (i m) = false) →
    (run i n : State a h).regDbusRspOthers = (run (withoutCmd i t) n : State a h).regDbusRspOthers
  response : icbRspValid (i t) = true ∧ (i t).icbRspReady = true

/-- The write of cycle `t` does not fall into the cycle in which the operation in flight completes (unless the start
pulse is suppressed by a write in the cycle before or a soft reset in the next one), and it does not hide the edge of
a write in the next cycle that would start an operation. -/
def NotAtCompletion (a : ℕ) (i : ℕ → Input h) (t : ℕ) : Prop :=
  ¬ (dbusOpDone (run i t : State a h) (i t) = true ∧ (run i t : State a h).weDbusReqOthersD = false ∧
    weCtrl (i (t + 1)) = false) ∧
  ¬ ((dbusOpDone (run i t : State a h) (i t) = true ∨ dbusOpDone (run i (t + 1) : State a h) (i (t + 1)) = true) ∧
    weDbusReqOthers (i (t + 1)) = true ∧ weCtrl (i (t + 2)) = false)

/-! ### The two runs side by side -/

section Step

variable {s s' : State a h} {x : Input h}

theorem rspStat_lsb (s : State a h) (x : Input h) :
    (dbusRspStat s x).toBits.getLsbD 0 = x.dtmRespBits.getLsbD 0 ∧
    (dbusRspStat s x).toBits.getLsbD 1 = s.dbusRspStatSticky := by
  unfold dbusRspStat
  cases s.dbusRspStatSticky <;> cases x.dtmRespBits.getLsbD 0 <;> decide

theorem codeField_append (v : BitVec a) (c : BitVec 2) : codeField (v ++ (c ++ 0#2)) = c := by
  refine BitVec.eq_of_getLsbD_eq fun k hk => ?_
  have hc : (c ++ 0#2).getLsbD (2 + k) = c.getLsbD k := by
    refine BitVec.getLsbD_append.trans ?_
    rw [if_neg (by omega), show 2 + k - 2 = k by omega]
  have h4 : 2 + k < 4 := by omega
  rw [codeField, BitVec.getLsbD_extractLsb', BitVec.getLsbD_append, if_pos h4, hc]
  simp [hk]

/-- The code that a completion leaves in `RSP OTHERS`. -/
theorem codeField_of_done (hd : dbusOpDone s x = true) :
    codeField (edge s x).regDbusRspOthers = (dbusRspStat s x).toBits := by
  simp only [edge, hd, ↓reduceIte, codeField_append]

/-- The sticky flag shows in bit 3 of `RSP OTHERS` only. -/
private theorem rspOthers_congr (ho : s.regDbusReqOthers = s'.regDbusReqOthers) {k : ℕ} (hk : k ≠ 3) :
    (addrField s.regDbusReqOthers ++ ((dbusRspStat s x).toBits ++ 0#2)).getLsbD k =
      (addrField s'.regDbusReqOthers ++ ((dbusRspStat s' x).toBits ++ 0#2)).getLsbD k := by
  rw [ho]
  simp only [BitVec.getLsbD_append]
  split
  · split
    · rfl
    · obtain rfl : k = 2 := by omega
      exact (rspStat_lsb s x).1.trans (rspStat_lsb s' x).1.symm
  · rfl

/-- Two register files with the same effect keep it if no start pulse tells them apart. -/
theorem SameEffect.edge (hs : SameEffect s s')
    (hstart : s.dbusFsmAct = .idle → weCtrl x = false → s.dbusOpStart = s'.dbusOpStart) :
    SameEffect (edge s x) (edge s' x) := by
  obtain ⟨h1, h2, h3, h4, h5, h6, h7, h8, h9⟩ := hs
  have hdone : dbusOpDone s x = dbusOpDone s' x := by simp only [dbusOpDone, h9]
  have hurun : cntDmTmpIdisUrun s = cntDmTmpIdisUrun s' := by simp only [cntDmTmpIdisUrun, h7]
  refine ⟨?_, ?_, ?_, ?_, ?_, ?_, ?_, ?_, ?_⟩
  · simp only [Icb2DebugBus.edge, h1, h9]
  · simp only [Icb2DebugBus.edge, h2, h9]
  · simp only [Icb2DebugBus.edge, h3, hdone]
  · intro k hk
    simp only [Icb2DebugBus.edge, hdone]
    split
    · exact rspOthers_congr h2 hk
    · exact h4 k hk
  · simp only [Icb2DebugBus.edge, h5]
  · simp only [Icb2DebugBus.edge, h6]
  · simp only [Icb2DebugBus.edge, h7, hurun]
  · cases hc : weCtrl x with
    | true => simp [Icb2DebugBus.edge, dtmRst, hc]
    | false =>
      by_cases hf : s.dbusFsmAct = .idle
      · simp [Icb2DebugBus.edge, dtmRst, hc, dbusReqOpI, hstart hf hc, h2, h8, h9]
      · simp [Icb2DebugBus.edge, dtmRst, hc, h8, ← h9, hf]
  · cases hc : weCtrl x with
    | true => rw [fsm_edge_ctrl hc, fsm_edge_ctrl hc]
    | false =>
      rw [fsm_edge hc, fsm_edge hc]
      by_cases hf : s.dbusFsmAct = .idle
      · rw [fsmNxt_idle hf, fsmNxt_idle (h9 ▸ hf), hstart hf hc]
      · simp only [dbusFsmNxt, ← h9]
        cases hs : s.dbusFsmAct <;> simp_all

theorem SameEffect.reqBits (hs : SameEffect s s') : dtmReqBits s = dtmReqBits s' := by
  rw [dtmReqBits, dtmReqBits, hs.reqOthers, hs.reqOp, hs.reqDword]

/-- The two runs differ in nothing but the sticky flag. -/
private structure Close (s s' : State a h) : Prop where
  same : SameEffect s s'
  reqOthersD : s.weDbusReqOthersD = s'.weDbusReqOthersD
  opStart : s.dbusOpStart = s'.dbusOpStart

private theorem Close.edge (hs : Close s s') : Close (Icb2DebugBus.edge s x) (Icb2DebugBus.edge s' x) :=
  ⟨hs.same.edge fun _ _ => hs.opStart, rfl, by simp only [Icb2DebugBus.edge, hs.reqOthersD]⟩

private theorem weAt_noCmd (x : Input h) (addr : BitVec 12) : weAt { x with icbCmdValid := false } addr = false := by
  simp [weAt, icbWrite]

/-- The cycle of the write itself. -/
theorem sameEffect_withoutCmd (hw : weDbusReqDword x = true ∨ weDbusReqOthers x = true)
    (hf : s.dbusFsmAct ≠ .idle) : SameEffect (edge s x) (edge s { x with icbCmdValid := false }) := by
  have hother : ∀ addr, addr ≠ addrReqDword → addr ≠ addrReqOthers → weAt x addr = false := by
    intro addr h1 h2
    rcases hw with hw | hw
    · exact weAt_disjoint (Ne.symm h1) hw
    · exact weAt_disjoint (Ne.symm h2) hw
  have hc : weCtrl x = false := hother _ (by decide) (by decide)
  have hc' : weCtrl { x with icbCmdValid := false } = false := weAt_noCmd _ _
  have hien := hother addrDmIen (by decide) (by decide)
  have hidis := hother addrDmTmpIdis (by decide) (by decide)
  refine ⟨?_, ?_, rfl, fun k _ => rfl, ?_, ?_, ?_, ?_, ?_⟩
  · rw [reqDword_edge_busy hf, reqDword_edge_busy hf]
  · rw [reqOthers_edge_busy hf, reqOthers_edge_busy hf]
  · simp [edge, dtmRst, hc, hc', hien, weAt_noCmd]
  · simp [edge, dtmRst, hc, hc', hidis, weAt_noCmd]
  · simp [edge, dtmRst, hc, hc', hidis, weAt_noCmd]
  · rw [reqOp_edge_busy hf hc, reqOp_edge_busy hf hc']
  · rw [fsm_edge hc, fsm_edge hc']; rfl

end Step

/-! ### Whole runs -/

section Run

variable {i : ℕ → Input h} {t : ℕ}

theorem withoutCmd_of_ne {n : ℕ} (hn : n ≠ t) : withoutCmd i t n = i n := Function.update_of_ne hn _ _

theorem run_withoutCmd : (run (withoutCmd i t) t : State a h) = run i t :=
  Machine.run_congr _ fun m hm => withoutCmd_of_ne (by omega)

theorem run_withoutCmd_succ :
    (run (withoutCmd i t) (t + 1) : State a h) = edge (run i t) { i t with icbCmdValid := false } := by
  rw [run_succ, run_withoutCmd, withoutCmd, Function.update_self]

theorem run_withoutCmd_later {n : ℕ} (hn : t < n) :
    (run (withoutCmd i t) (n + 1) : State a h) = edge (run (withoutCmd i t) n) (i n) := by
  rw [run_succ, withoutCmd_of_ne (by omega)]

/-- The start pulses and edge detectors of the two runs in the cycle after the write. -/
private theorem pulses_succ (hw : weDbusReqOthers (i t) = true) :
    (run i (t + 1) : State a h).weDbusReqOthersD = true ∧
    (run i (t + 1) : State a h).dbusOpStart = !(run i t : State a h).weDbusReqOthersD ∧
    (run (withoutCmd i t) (t + 1) : State a h).weDbusReqOthersD = false ∧
    (run (withoutCmd i t) (t + 1) : State a h).dbusOpStart = false := by
  have hn : weDbusReqOthers { i t with icbCmdValid := false } = false := weAt_noCmd _ _
  rw [run_withoutCmd_succ, run_succ]
  simp [edge, hw, hn]

variable (hf : (run i t : State a h).dbusFsmAct ≠ .idle)

include hf in
private theorem idle_succ_iff (hw : weDbusReqOthers (i t) = true) :
    (run i (t + 1) : State a h).dbusFsmAct = .idle ↔ dbusOpDone (run i t : State a h) (i t) = true := by
  rw [run_succ, fsm_edge (not_ctrl_of_others hw), fsmNxt_eq_idle_iff hf]

include hf in
/-- Two cycles after a write to `REQ OTHERS` the runs agree if the write did not start an operation. -/
private theorem sameEffect_two (hw : weDbusReqOthers (i t) = true)
    (hA : ¬ (dbusOpDone (run i t : State a h) (i t) = true ∧ (run i t : State a h).weDbusReqOthersD = false ∧
      weCtrl (i (t + 1)) = false)) :
    SameEffect (run i (t + 2) : State a h) (run (withoutCmd i t) (t + 2)) := by
  obtain ⟨-, hstart, -, hstart'⟩ := pulses_succ (a := a) hw
  rw [run_withoutCmd_later (by omega), run_succ i (t + 1)]
  refine SameEffect.edge ?_ fun hidle hc => ?_
  · rw [run_withoutCmd_succ]; exact sameEffect_withoutCmd (Or.inr hw) hf
  · have hdone := (idle_succ_iff hf hw).1 hidle
    have hd : (run i t : State a h).weDbusReqOthersD = true := by
      by_contra hd
      exact hA ⟨hdone, by simpa using hd, hc⟩
    rw [hstart, hstart', hd]; rfl

include hf in
/-- If a write follows in the next cycle, the start pulses disagree for one cycle more. -/
private theorem idle_two_iff (hw : weDbusReqOthers (i t) = true) (hw1 : weDbusReqOthers (i (t + 1)) = true)
    (hd : dbusOpDone (run i t : State a h) (i t) = true → (run i t : State a h).weDbusReqOthersD = true) :
    (run i (t + 2) : State a h).dbusFsmAct = .idle ↔
      dbusOpDone (run i t : State a h) (i t) = true ∨
      dbusOpDone (run i (t + 1) : State a h) (i (t + 1)) = true := by
  obtain ⟨-, hstart, -, -⟩ := pulses_succ (a := a) hw
  rw [run_succ i (t + 1), fsm_edge (not_ctrl_of_others hw1), ← idle_succ_iff hf hw]
  by_cases h1 : (run i (t + 1) : State a h).dbusFsmAct = .idle
  · have := hd ((idle_succ_iff hf hw).1 h1)
    simp [fsmNxt_idle h1, hstart, this, h1]
  · simp [fsmNxt_eq_idle_iff h1, h1]

/-- A write in the next cycle leaves no soft reset to cancel the start pulse. -/
private theorem othersD_of_done (hA : ¬ (dbusOpDone (run i t : State a h) (i t) = true ∧
    (run i t : State a h).weDbusReqOthersD = false ∧ weCtrl (i (t + 1)) = false))
    (hw1 : weDbusReqOthers (i (t + 1)) = true) (hdone : dbusOpDone (run i t : State a h) (i t) = true) :
    (run i t : State a h).weDbusReqOthersD = true := by
  by_contra hd
  exact hA ⟨hdone, by simpa using hd, not_ctrl_of_others hw1⟩

include hf in
private theorem close_three (hw : weDbusReqOthers (i t) = true) (hc : NotAtCompletion a i t) :
    Close (run i (t + 3) : State a h) (run (withoutCmd i t) (t + 3)) := by
  obtain ⟨hA, hB⟩ := hc
  have h2 := sameEffect_two hf hw hA
  rw [run_withoutCmd_later (by omega), run_succ i (t + 2)]
  refine ⟨h2.edge fun hidle hctrl => ?_, rfl, ?_⟩
  · obtain ⟨hd1, -, hd1', -⟩ := pulses_succ (a := a) hw
    have hw1 : weDbusReqOthers (i (t + 1)) = false := by
      by_contra hw1
      rw [Bool.not_eq_false] at hw1
      exact hB ⟨(idle_two_iff hf hw hw1 (othersD_of_done hA hw1)).1 hidle, hw1, hctrl⟩
    rw [run_withoutCmd_later (by omega), run_succ i (t + 1)]
    simp [edge, hw1]
  · rw [run_withoutCmd_later (n := t + 1) (by omega), run_succ i (t + 1)]
    simp [edge]

include hf in
/-- A rejected write sets the sticky flag, which stays until the next soft reset. -/
theorem sticky_of_write (hw : weDbusReqDword (i t) = true ∨ weDbusReqOthers (i t) = true) {n : ℕ} (hn : t < n)
    (hc : ∀ m, t < m → m < n → weCtrl (i m) = false) : (run i n : State a h).dbusRspStatSticky = true := by
  refine persists (P := fun n => (run i n : State a h).dbusRspStatSticky = true) (Q := fun m => weCtrl (i m) = true)
    (Nat.succ_le_of_lt hn) ?_ ?_ fun m hm hmn => by simp [hc m (by omega) hmn]
  · have hrst : weCtrl (i t) = false := hw.elim not_ctrl_of_dword not_ctrl_of_others
    simp [run_succ, edge, dtmRst, hrst, hf, hw]
  · intro m _ _ hm hcm
    simp only [Bool.not_eq_true] at hcm
    simp [run_succ, edge, dtmRst, hcm, hm]

include hf in
/-- A start pulse that only one of the two runs has shows in the FSM: that of the write itself in the second cycle
after it, that of a write whose edge it hides in the third. -/
private theorem notAtCompletion_of_sameEffect (ho : weDbusReqOthers (i t) = true)
    (hsame : ∀ n, t < n → SameEffect (run i n : State a h) (run (withoutCmd i t) n)) : NotAtCompletion a i t := by
  obtain ⟨hd1, hstart, hd1', hstart'⟩ := pulses_succ (a := a) ho
  have hfsm1 := (hsame (t + 1) (by omega)).fsm
  have hfsm2 := (hsame (t + 2) (by omega)).fsm
  have hfsm3 := (hsame (t + 3) (by omega)).fsm
  have hA : ¬ (dbusOpDone (run i t : State a h) (i t) = true ∧ (run i t : State a h).weDbusReqOthersD = false ∧
      weCtrl (i (t + 1)) = false) := by
    rintro ⟨hdone, hd, hc⟩
    have hidle := (idle_succ_iff hf ho).2 hdone
    rw [run_withoutCmd_later (by omega), run_succ i (t + 1), fsm_edge hc, fsm_edge hc, fsmNxt_idle hidle,
      fsmNxt_idle (hfsm1 ▸ hidle), hstart, hstart', hd] at hfsm2
    exact absurd hfsm2 (by decide)
  refine ⟨hA, ?_⟩
  rintro ⟨hdone, hw1, hc2⟩
  have hidle := (idle_two_iff hf ho hw1 (othersD_of_done hA hw1)).2 hdone
  have hp : (run i (t + 2) : State a h).dbusOpStart = false ∧
      (run (withoutCmd i t) (t + 2) : State a h).dbusOpStart = true := by
    rw [run_withoutCmd_later (by omega), run_succ i (t + 1)]
    simp [edge, hw1, hd1, hd1']
  rw [run_withoutCmd_later (by omega), run_succ i (t + 2), fsm_edge hc2, fsm_edge hc2, fsmNxt_idle hidle,
    fsmNxt_idle (hfsm2 ▸ hidle), hp.1, hp.2] at hfsm3
  exact absurd hfsm3 (by decide)

/-- Runs that are close stay so, since from the cycle after the write on they have the same inputs. -/
private theorem sameEffect_of_close {k : ℕ} (hk : t < k)
    (hclose : Close (run i k : State a h) (run (withoutCmd i t) k)) {n : ℕ} (hn : k ≤ n) :
    SameEffect (run i n : State a h) (run (withoutCmd i t) n) :=
  (Machine.run_rel _ hn hclose (fun m hm => (withoutCmd_of_ne (by omega)).symm) fun _ _ _ => Close.edge).same

include hf in
private theorem sameEffect_of_notAtCompletion (hw : weDbusReqDword (i t) = true ∨ weDbusReqOthers (i t) = true)
    (hc : weDbusReqOthers (i t) = true → NotAtCompletion a i t) {n : ℕ} (hn : t < n) :
    SameEffect (run i n : State a h) (run (withoutCmd i t) n) := by
  have h1 : SameEffect (run i (t + 1) : State a h) (run (withoutCmd i t) (t + 1)) := by
    rw [run_withoutCmd_succ]; exact sameEffect_withoutCmd hw hf
  by_cases ho : weDbusReqOthers (i t) = true
  · rcases Nat.lt_or_ge n (t + 3) with hlt | hge
    · obtain rfl | rfl : n = t + 1 ∨ n = t + 2 := by omega
      · exact h1
      · exact sameEffect_two hf ho (hc ho).1
    · exact sameEffect_of_close (by omega) (close_three hf ho (hc ho)) hge
  · -- a write to `REQ DWORD` leaves the start pulse and its edge detector alone
    have ho' : weDbusReqOthers (i t) = false := by simpa using ho
    have hn' : weDbusReqOthers { i t with icbCmdValid := false } = false := weAt_noCmd _ _
    refine sameEffect_of_close (k := t + 1) (by omega) ⟨h1, ?_, ?_⟩ hn
    · rw [run_withoutCmd_succ, run_succ]; simp [edge, ho', hn']
    · rw [run_withoutCmd_succ, run_succ]; simp [edge, ho', hn']

/-- Until an operation completes, the rejected write does not show in `RSP OTHERS`. -/
theorem rspOthers_of_not_done (hsame : ∀ n, t < n → SameEffect (run i n : State a h) (run (withoutCmd i t) n)) {n : ℕ}
    (hn : t < n) (hno : ∀ m, t < m → m < n → dbusOpDone (run i m : State a h) (i m) = false) :
    (run i n : State a h).regDbusRspOthers = (run (withoutCmd i t) n : State a h).regDbusRspOthers := by
  induction n, hn using Nat.le_induction with
  | base => rw [run_withoutCmd_succ]; rfl
  | succ n hn ih =>
    have hdone := hno n hn (Nat.lt_succ_self n)
    have hdone' : dbusOpDone (run (withoutCmd i t) n : State a h) (i n) = false := by
      rw [← hdone, dbusOpDone, dbusOpDone, (hsame n hn).fsm]
    rw [run_withoutCmd_later hn, run_succ]
    simp only [edge, hdone, hdone', Bool.false_eq_true, ↓reduceIte]
    exact ih fun m hm hmn => hno m hm (by omega)

include hf in
/-- A write to `REQ DWORD` or `REQ OTHERS` accepted while the FSM is not idle is inert if and only if it is a write to
`REQ DWORD` or keeps away from the completion of the operation in flight. -/
theorem busy_write_inert_iff (hw : weDbusReqDword (i t) = true ∨ weDbusReqOthers (i t) = true) :
    Inert a i t ↔ (weDbusReqOthers (i t) = true → NotAtCompletion a i t) := by
  constructor
  · rintro ⟨hsame, -, -, -, -⟩ ho
    exact notAtCompletion_of_sameEffect hf ho hsame
  · intro hc
    have hsame : ∀ n, t < n → SameEffect (run i n : State a h) (run (withoutCmd i t) n) :=
      fun n hn => sameEffect_of_notAtCompletion hf hw hc hn
    refine ⟨hsame, fun n hn => ⟨?_, (hsame n hn).reqBits⟩, fun n hn hctrl => ?_,
      fun n hn hno => rspOthers_of_not_done hsame hn hno, ?_⟩
    · simp only [dtmReqValid, (hsame n hn).fsm]
    · have hst := sticky_of_write hf hw hn hctrl
      refine ⟨hst, ?_⟩
      intro hdone
      rw [run_succ, codeField_of_done hdone]
      exact (rspStat_lsb _ _).2.trans hst
    · have hacc : icbWrite (i t) = true := hw.elim (fun hw => (weAt_iff.1 hw).2) fun hw => (weAt_iff.1 hw).2
      simp only [icbWrite, icbCmdReady, Bool.and_eq_true] at hacc
      exact hacc.1

end Run

/-- An operation is started in cycle 0 and answered in cycle 3, and `REQ OTHERS` is written again in cycle 3. -/
def writeAtCompletion : ℕ → Input 2
  | 0 => writeCmd addrReqOthers 0x44#32
  | 3 => { writeCmd addrReqOthers 0x84#32 with dtmRespValid := true }
  | _ => noCmd

/-- The write of cycle 3 starts the old request once more. -/
theorem busy_write_not_inert : ¬ ∀ (i : ℕ → Input 2) (t : ℕ),
    weDbusReqDword (i t) = true ∨ weDbusReqOthers (i t) = true →
    (run i t : State 7 2).dbusFsmAct ≠ .idle → Inert 7 i t := by
  intro h
  have hfsm := ((h writeAtCompletion 3 (by decide) (by decide)).same 5 (by decide)).fsm
  exact absurd hfsm (by decide)

/-- An operation is started in cycle 0, `REQ OTHERS` is written again in cycle 2, and the answer comes in cycle 3. -/
def writeInFlight : ℕ → Input 2
  | 0 => writeCmd addrReqOthers 0x44#32
  | 2 => writeCmd addrReqOthers 0x84#32
  | 3 => { noCmd with dtmRespValid := true }
  | _ => noCmd

theorem busy_write_inert_in_flight : Inert 7 writeInFlight 2 :=
  (busy_write_inert_iff (by decide) (by decide)).2 fun _ => by unfold NotAtCompletion; decide

end Icb2DebugBus
