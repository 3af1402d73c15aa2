import ZrSoc.Icb2DebugBus

/-!
# The debug-bus FSM, one cycle at a time

Which writes exclude each other in a cycle, how the FSM moves, and what an operation in flight keeps unchanged.
-/

namespace Icb2DebugBus

open Sync

variable {a h : ℕ} {s : State a h} {x : Input h}

/-! ### One command in a cycle -/

theorem weAt_iff {addr : BitVec 12} : weAt x addr = true ↔ x.icbCmdAddr = addr ∧ icbWrite x = true := by
  simp [weAt]

theorem weAt_disjoint {addr addr' : BitVec 12} (hne : addr ≠ addr') (hw : weAt x addr = true) :
    weAt x addr' = false := by
  obtain ⟨rfl, -⟩ := weAt_iff.1 hw
  simp [weAt, hne]

theorem not_ctrl_of_others (hw : weDbusReqOthers x = true) : weCtrl x = false :=
  weAt_disjoint (by decide) hw

theorem not_ctrl_of_dword (hw : weDbusReqDword x = true) : weCtrl x = false :=
  weAt_disjoint (by decide) hw

/-! ### The FSM -/

theorem fsm_edge_ctrl (hc : weCtrl x = true) : (edge s x).dbusFsmAct = .idle := by
  simp [edge, dtmRst, hc]

theorem fsm_edge (hc : weCtrl x = false) : (edge s x).dbusFsmAct = dbusFsmNxt s x := by
  simp [edge, dtmRst, hc]

theorem fsmNxt_idle (hf : s.dbusFsmAct = .idle) :
    dbusFsmNxt s x = if s.dbusOpStart then .reqBusy else .idle := by
  simp only [dbusFsmNxt, hf]

/-- A running operation ends in the cycle with `dbus_op_done`. -/
theorem fsmNxt_eq_idle_iff (hf : s.dbusFsmAct ≠ .idle) : dbusFsmNxt s x = .idle ↔ dbusOpDone s x = true := by
  cases hs : s.dbusFsmAct with
  | idle => exact absurd hs hf
  | reqBusy => cases hr : x.dtmReqReady <;> cases hv : x.dtmRespValid <;> simp [dbusFsmNxt, dbusOpDone, hs, hr, hv]
  | rspBusy => cases hv : x.dtmRespValid <;> simp [dbusFsmNxt, dbusOpDone, hs, hv]

theorem opDone_of_idle (hf : s.dbusFsmAct = .idle) : dbusOpDone s x = false := by
  simp only [dbusOpDone, hf]

/-! ### What an operation in flight keeps -/

theorem reqDword_edge_busy (hf : s.dbusFsmAct ≠ .idle) : (edge s x).regDbusReqDword = s.regDbusReqDword := by
  simp [edge, hf]

theorem reqOthers_edge_busy (hf : s.dbusFsmAct ≠ .idle) : (edge s x).regDbusReqOthers = s.regDbusReqOthers := by
  simp [edge, hf]

theorem reqOp_edge_busy (hf : s.dbusFsmAct ≠ .idle) (hc : weCtrl x = false) :
    (edge s x).dbusReqOp = s.dbusReqOp := by
  simp [edge, dtmRst, hf, hc]

theorem reqBits_edge_busy (hf : s.dbusFsmAct ≠ .idle) (hc : weCtrl x = false) :
    dtmReqBits (edge s x) = dtmReqBits s := by
  rw [dtmReqBits, dtmReqBits, reqDword_edge_busy hf, reqOthers_edge_busy hf, reqOp_edge_busy hf hc]

end Icb2DebugBus
