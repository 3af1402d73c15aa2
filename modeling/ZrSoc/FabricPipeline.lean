import ZrSoc.FabricDecode

/-!
# The peripheral bus fabric as a pipeline

With slaves that accept and answer a command in the cycle in which they are offered it, and a master that is always
ready for a response, the buffer of the fabric is a pipeline of two stages: it holds at most one command, which its
target gets in the cycle after the master has handed it over, and at most one response, which the master gets in the
cycle after that (`Carries.next`).  The splitter never holds a port.
-/

namespace Icb1to16Bus

open Sync Icb

/-- The fabric holds the command `c` and the response `r`, and no port. -/
structure Carries (s : State) (c : Option Cmd) (r : Option Rsp) : Prop where
  cmdFifo : GnrlFifo.Holds s.cmdFifo (c.map Cmd.toBits).toList
  rspFifo : GnrlFifo.Holds s.rspFifo (r.map Rsp.toBits).toList
  splt : IcbSplt.Holds s.splt none

/-- Each slave accepts and answers in this cycle the command that it is offered. -/
def AnswersAtOnce (s : State) (x : Input) : Prop :=
  ∀ k, portCmdValid s x (some k) = true → x.oCmdReady k = true ∧ x.oRspValid k = true

/-- The response of the target of a command. -/
def response (x : Input) (c : Cmd) : Rsp := portRsp x (target c.addr)

/-- The payload of a port without a command. -/
def noCmd : Cmd where
  read := false
  addr := 0
  wdata := 0
  wmask := 0
  lock := false
  excl := false
  size := 0
  burst := 0
  beat := 0

variable {s : State} {x : Input} {c : Option Cmd} {r : Option Rsp} {p : Port}

theorem portCmd_of_not_valid (h : portCmdValid s x p = false) : portCmd s x p = noCmd := by
  have hv : IcbSplt.oCmdValid s.splt (spltInput s x) (bit p) = false := h
  simp only [portCmd, IcbSplt.oCmd, hv]
  rfl

/-! ### The signals -/

private theorem length_toList_le {α : Type*} (o : Option α) : o.toList.length ≤ 1 := by cases o <;> simp

theorem Carries.iCmdReady_eq (h : Carries s c r) : iCmdReady s x = true := by
  have hlen := length_toList_le (c.map Cmd.toBits)
  exact h.cmdFifo.iRdy_iff.2 (Or.inl (by omega))

theorem Carries.bufRspReady_eq (h : Carries s c r) : bufRspReady s x = true := by
  have hlen := length_toList_le (r.map Rsp.toBits)
  exact h.rspFifo.iRdy_iff.2 (Or.inl (by omega))

theorem Carries.bufCmdValid_eq (h : Carries s c r) : bufCmdValid s = c.isSome := by
  rw [bufCmdValid, h.cmdFifo.oVld_eq]
  cases c <;> simp

theorem Carries.iRspValid_eq (h : Carries s c r) : iRspValid s = r.isSome := by
  rw [iRspValid, h.rspFifo.oVld_eq]
  cases r <;> simp

theorem Carries.bufCmd_eq {c : Cmd} (h : Carries s (some c) r) : bufCmd s = c := by
  have hdat := h.cmdFifo.oDat_eq (by simp)
  rw [bufCmd, ← Option.some.inj hdat, Cmd.ofBits_toBits]

theorem Carries.iRsp_eq {r : Rsp} (h : Carries s c (some r)) : iRsp s = r := by
  have hdat := h.rspFifo.oDat_eq (by simp)
  rw [iRsp, ← Option.some.inj hdat, Rsp.ofBits_toBits]

theorem Carries.currentTarget_eq (h : Carries s c r) : currentTarget s = c.bind fun c => target c.addr := by
  cases c with
  | none => exact if_neg (by rw [h.bufCmdValid_eq]; exact Bool.false_ne_true)
  | some c => rw [Icb1to16Bus.currentTarget_eq h.bufCmdValid_eq, h.bufCmd_eq, Option.bind_some]

/-- A port is offered the command if it is the target. -/
theorem Carries.portCmdValid_eq (h : Carries s c r) :
    portCmdValid s x p = c.any fun c => decide (target c.addr = p) := by
  rw [Icb1to16Bus.portCmdValid_eq (w := none) h.splt, h.currentTarget_eq, h.bufCmdValid_eq]
  cases c <;> simp

/-- The response of a port is taken if it is the target. -/
theorem Carries.portRspReady_eq (h : Carries s c r) :
    portRspReady s x p = decide ((c.bind fun c => target c.addr) = p) := by
  rw [Icb1to16Bus.portRspReady_eq (w := none) h.splt, h.bufRspReady_eq, Bool.and_true, Option.getD_none,
    h.currentTarget_eq]

/-- The target takes the command. -/
theorem Carries.portCmdReady_eq {c : Cmd} (h : Carries s (some c) r) (ha : AnswersAtOnce s x) :
    portCmdReady s x (target c.addr) = true := by
  cases ht : target c.addr with
  | none => exact h.portRspReady_eq.trans (decide_eq_true ht)
  | some k => exact (ha k (h.portCmdValid_eq.trans (decide_eq_true ht))).1

theorem Carries.portRspValid_eq {c : Cmd} (h : Carries s (some c) r) (ha : AnswersAtOnce s x) :
    portRspValid s x (target c.addr) = true := by
  cases ht : target c.addr with
  | none => exact h.portCmdValid_eq.trans (decide_eq_true ht)
  | some k => exact (ha k (h.portCmdValid_eq.trans (decide_eq_true ht))).2

theorem Carries.passed_isSome_eq (h : Carries s c r) (ha : AnswersAtOnce s x) : (passed s x).isSome = c.isSome := by
  rw [Icb1to16Bus.passed_isSome_eq (w := none) h.splt, h.bufCmdValid_eq, h.currentTarget_eq]
  cases c with
  | none => rfl
  | some c => exact h.portCmdReady_eq ha

/-- The target answers it in the same cycle. -/
theorem Carries.bufRspValid_eq (h : Carries s c r) (ha : AnswersAtOnce s x) : bufRspValid s x = c.isSome := by
  rw [Icb1to16Bus.bufRspValid_eq (w := none) h.splt, Option.getD_none, h.currentTarget_eq]
  cases c with
  | none => exact h.portCmdValid_eq
  | some c => exact h.portRspValid_eq ha

theorem Carries.bufRsp_eq {c : Cmd} (h : Carries s (some c) r) : bufRsp s x = response x c := by
  rw [Icb1to16Bus.bufRsp_eq (w := none) h.splt, Option.getD_none, h.currentTarget_eq]
  rfl

/-! ### One cycle -/

theorem carries_reset : Carries reset none none :=
  ⟨GnrlFifo.holds_reset Nat.two_pos, GnrlFifo.holds_reset Nat.two_pos, rfl, fun _ h => nomatch h⟩

/-- The command leaves its FIFO, and the one that the master hands over enters it. -/
private theorem Carries.cmdFifo_next (h : Carries s c r) (ha : AnswersAtOnce s x) :
    GnrlFifo.nextQueue true s.cmdFifo (cmdFifoInput s x) (c.map Cmd.toBits).toList =
      ((masterCmd s x).map Cmd.toBits).toList := by
  have hren : GnrlFifo.ren s.cmdFifo (cmdFifoInput s x).oRdy = c.isSome := by
    have hren : GnrlFifo.ren s.cmdFifo (cmdFifoInput s x).oRdy = (bufCmdValid s && bufCmdReady s x) := rfl
    rw [← h.passed_isSome_eq ha, passed, hren]
    cases bufCmdValid s && bufCmdReady s x <;> rfl
  have hwen : GnrlFifo.wen true s.cmdFifo (cmdFifoInput s x) = (x.iCmdValid && iCmdReady s x) := rfl
  rw [GnrlFifo.nextQueue, hren, hwen, masterCmd]
  cases c <;> cases x.iCmdValid && iCmdReady s x <;> rfl

/-- The response leaves its FIFO, and that of the target enters it. -/
private theorem Carries.rspFifo_next (h : Carries s c r) (ha : AnswersAtOnce s x) (hr : x.iRspReady = true) :
    GnrlFifo.nextQueue true s.rspFifo (rspFifoInput s x) (r.map Rsp.toBits).toList =
      ((c.map (response x)).map Rsp.toBits).toList := by
  have hren : GnrlFifo.ren s.rspFifo (rspFifoInput s x).oRdy = r.isSome := by
    rw [← h.iRspValid_eq, ← Bool.and_true (iRspValid s), ← hr]
    rfl
  have hwen : GnrlFifo.wen true s.rspFifo (rspFifoInput s x) = c.isSome := by
    rw [← h.bufRspValid_eq ha, ← Bool.and_true (bufRspValid s x), ← h.bufRspReady_eq (x := x)]
    rfl
  rw [GnrlFifo.nextQueue, hren, hwen]
  cases c with
  | none => cases r <;> rfl
  | some c =>
    have hdat : (rspFifoInput s x).iDat = (response x c).toBits := congrArg Rsp.toBits h.bufRsp_eq
    rw [hdat]
    cases r <;> rfl

/-- The command goes to its target and comes back as a response. -/
theorem Carries.next (h : Carries s c r) (ha : AnswersAtOnce s x) (hr : x.iRspReady = true) :
    Carries (edge s x) (masterCmd s x) (c.map (response x)) where
  cmdFifo := h.cmdFifo_next ha ▸ h.cmdFifo.next
  rspFifo := h.rspFifo_next ha hr ▸ h.rspFifo.next
  splt := by
    have hwen := h.passed_isSome_eq ha
    have hren : IcbSplt.rspidFifoRen s.splt (spltInput s x) (spltBus s x) = c.isSome := by
      rw [← h.bufRspValid_eq ha, ← Bool.and_true (bufRspValid s x), ← h.bufRspReady_eq (x := x)]
      rfl
    have hnext := h.splt.next (y := spltBus s x) (spltInput_indic (s := s) (x := x))
    rw [passed_isSome] at hwen
    rw [hwen, hren] at hnext
    cases c <;> exact hnext

end Icb1to16Bus
