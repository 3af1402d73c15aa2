import ZrSoc.Icb
import ZrSoc.Sync.Flop
import ZrSoc.Sync.OneHot

/-!
# The ICB splitter (`sirv_gnrl_icb_splt` in `rtl/perips/sirv_gnrl_icbs.v`)

The splitter with `SPLT_NUM = n` output ports and the parameters of the peripheral bus: `ALLOW_DIFF = 0`,
`ALLOW_0CYCL_RSP = 1`, `SPLT_PTR_1HOT = 1`, `VLD_MSK_PAYLOAD = 1`, and `FIFO_OUTS_NUM = 1` with `FIFO_CUT_READY = 1`,
which makes the response-id FIFO one `sirv_gnrl_pipe_stage`.  Signals have the names of the source without `icb`.
-/

namespace IcbSplt

open Sync Sync.OneHot Icb

/-- The registers of `u_sirv_gnrl_rspid_fifo`. -/
structure State (n : ℕ) where
  vldR : Bool
  oDat : BitVec n
  deriving DecidableEq, Repr

/-- The input ports on the side of the master. -/
structure Input (n : ℕ) where
  indic : BitVec n
  iCmdValid : Bool
  iCmd : Cmd
  iRspReady : Bool

/-- The input ports on the side of the slaves. -/
structure BusInput (n : ℕ) where
  oCmdReady : BitVec n
  oRspValid : BitVec n
  oRsp : Fin n → Rsp

variable {n : ℕ} (s : State n) (x : Input n) (y : BusInput n)

/-! ### The command channel -/

/-- `i_rdy` of the pipe stage. -/
def rspidFifoIReady : Bool := !s.vldR

def rspidFifoFull : Bool := !rspidFifoIReady s

def rspidFifoEmpty : Bool := !s.vldR

def cmdDiffBranch : Bool := !rspidFifoEmpty s && !(x.indic == s.oDat)

def iCmdValidPre : Bool := x.iCmdValid && !cmdDiffBranch s x && !rspidFifoFull s

def selOCmdReady : Bool := (List.finRange n).any fun j => x.indic.getLsbD j && y.oCmdReady.getLsbD j

def iCmdReady : Bool := selOCmdReady x y && !cmdDiffBranch s x && !rspidFifoFull s

def oCmdValid (j : Fin n) : Bool := x.indic.getLsbD j && iCmdValidPre s x

def oCmd (j : Fin n) : Cmd where
  read := oCmdValid s x j && x.iCmd.read
  addr := if oCmdValid s x j then x.iCmd.addr else 0
  wdata := if oCmdValid s x j then x.iCmd.wdata else 0
  wmask := if oCmdValid s x j then x.iCmd.wmask else 0
  lock := oCmdValid s x j && x.iCmd.lock
  excl := oCmdValid s x j && x.iCmd.excl
  size := if oCmdValid s x j then x.iCmd.size else 0
  burst := if oCmdValid s x j then x.iCmd.burst else 0
  beat := if oCmdValid s x j then x.iCmd.beat else 0

/-! ### The response channel -/

def rspPortId : BitVec n := if rspidFifoEmpty s then x.indic else s.oDat

def oRspReady (j : Fin n) : Bool := (rspPortId s x).getLsbD j && x.iRspReady

def iRspValid : Bool := y.oRspValid &&& rspPortId s x != 0#n

def iRsp : Rsp where
  err := (List.finRange n).any fun j => (rspPortId s x).getLsbD j && (y.oRsp j).err
  exclOk := (List.finRange n).any fun j => (rspPortId s x).getLsbD j && (y.oRsp j).exclOk
  rdata := orMux (rspPortId s x) fun j => (y.oRsp j).rdata

/-! ### The response-id FIFO -/

def rspidFifoWen : Bool := x.iCmdValid && iCmdReady s x y

def rspidFifoRen : Bool := iRspValid s x y && x.iRspReady

def rspidFifoBypass : Bool := rspidFifoEmpty s && rspidFifoWen s x y && rspidFifoRen s x y

/-- `vld_set` of the pipe stage. -/
def vldSet : Bool := (rspidFifoWen s x y && !rspidFifoBypass s x y) && rspidFifoIReady s

/-- `vld_clr` of the pipe stage. -/
def vldClr : Bool := s.vldR && (rspidFifoRen s x y && !rspidFifoBypass s x y)

def reset : State n where
  vldR := false
  oDat := 0

def edge : State n where
  vldR := vldFlop (vldSet s x y) (vldClr s x y) s.vldR
  oDat := if vldSet s x y then x.indic else s.oDat

/-! ### One target at a time -/

/-- The splitter with a command for port `t` on its input, holding at most the id of one port. -/
structure Holds (s : State n) (w : Option (Fin n)) : Prop where
  vld : s.vldR = w.isSome
  dat : ∀ j, w = some j → s.oDat = BitVec.twoPow n j

variable {s x y} {w : Option (Fin n)} {t j : Fin n}

private theorem any_twoPow (v : Fin n → Bool) (k : Fin n) :
    ((List.finRange n).any fun j : Fin n => (BitVec.twoPow n k).getLsbD j && v j) = v k := by
  rw [Bool.eq_iff_iff, List.any_eq_true]
  constructor
  · rintro ⟨j, -, hj⟩
    simp only [BitVec.getLsbD_twoPow, Bool.and_eq_true, decide_eq_true_eq] at hj
    rw [show k = j from Fin.ext hj.1.2]
    exact hj.2
  · exact fun h => ⟨k, List.mem_finRange k, by simp [h]⟩

/-- The port whose response the splitter takes: that of the id it holds, or the target of the command. -/
theorem Holds.rspPortId_eq (h : Holds s w) (hx : x.indic = BitVec.twoPow n t) :
    rspPortId s x = BitVec.twoPow n (w.getD t) := by
  cases w with
  | none => simp [rspPortId, rspidFifoEmpty, h.vld, hx]
  | some j => simp [rspPortId, rspidFifoEmpty, h.vld, h.dat j rfl]

/-- A command is passed on only while no id is held. -/
theorem Holds.iCmdValidPre_eq (h : Holds s w) : iCmdValidPre s x = (x.iCmdValid && w.isNone) := by
  cases w with
  | none => simp [iCmdValidPre, cmdDiffBranch, rspidFifoEmpty, rspidFifoFull, rspidFifoIReady, h.vld]
  | some j => simp [iCmdValidPre, rspidFifoFull, rspidFifoIReady, h.vld]

theorem oCmdValid_eq (hx : x.indic = BitVec.twoPow n t) :
    oCmdValid s x j = (decide (t = j) && iCmdValidPre s x) := by
  rw [oCmdValid, hx, BitVec.getLsbD_twoPow]
  simp [Fin.ext_iff]

theorem rspidFifoWen_eq (hx : x.indic = BitVec.twoPow n t) :
    rspidFifoWen s x y = (iCmdValidPre s x && y.oCmdReady.getLsbD t) := by
  have hsel : selOCmdReady x y = y.oCmdReady.getLsbD t := by
    rw [selOCmdReady, hx]
    exact any_twoPow (fun j => y.oCmdReady.getLsbD j) t
  rw [rspidFifoWen, iCmdReady, iCmdValidPre, hsel]
  ac_rfl

theorem Holds.iRspValid_eq (h : Holds s w) (hx : x.indic = BitVec.twoPow n t) :
    iRspValid s x y = y.oRspValid.getLsbD (w.getD t) := by
  rw [iRspValid, h.rspPortId_eq hx, and_twoPow_ne_zero]

theorem Holds.oRspReady_eq (h : Holds s w) (hx : x.indic = BitVec.twoPow n t) :
    oRspReady s x j = (decide (w.getD t = j) && x.iRspReady) := by
  rw [oRspReady, h.rspPortId_eq hx, BitVec.getLsbD_twoPow]
  simp [Fin.ext_iff]

/-- The response comes from the selected port, unchanged. -/
theorem Holds.iRsp_eq (h : Holds s w) (hx : x.indic = BitVec.twoPow n t) : iRsp s x y = y.oRsp (w.getD t) := by
  rw [iRsp, h.rspPortId_eq hx, any_twoPow fun j => (y.oRsp j).err, any_twoPow fun j => (y.oRsp j).exclOk,
    orMux_twoPow]

/-- The id held after a cycle: that of a command whose response has not been taken. -/
theorem Holds.next (h : Holds s w) (hx : x.indic = BitVec.twoPow n t) : Holds (edge s x y)
    ((w.or (if rspidFifoWen s x y then some t else none)).bind fun j => if rspidFifoRen s x y then none else some j) := by
  have hwen := rspidFifoWen_eq (s := s) (y := y) hx
  rw [h.iCmdValidPre_eq] at hwen
  obtain ⟨hv, hd⟩ := h
  cases w with
  | none =>
    simp only [Option.isSome_none] at hv
    cases hw : rspidFifoWen s x y <;> cases hr : rspidFifoRen s x y <;>
      exact ⟨by simp [edge, vldSet, vldClr, rspidFifoBypass, rspidFifoEmpty, rspidFifoIReady, hw, hr, hv],
        by simp [edge, vldSet, rspidFifoBypass, rspidFifoEmpty, rspidFifoIReady, hw, hr, hv, hx]⟩
  | some j =>
    simp only [Option.isSome_some] at hv
    simp only [Option.isNone_some, Bool.and_false, Bool.false_and] at hwen
    cases hr : rspidFifoRen s x y <;>
      exact ⟨by simp [edge, vldSet, vldClr, rspidFifoBypass, rspidFifoEmpty, rspidFifoIReady, hwen, hr, hv],
        by simp [edge, vldSet, hwen, hd j rfl]⟩

end IcbSplt
