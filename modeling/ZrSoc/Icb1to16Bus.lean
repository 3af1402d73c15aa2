import ZrSoc.GnrlFifo
import ZrSoc.IcbSplt
import Mathlib

/-!
# The peripheral bus fabric (`rtl/perips/sirv_icb1to16_bus.v`)

The ICB fabric with the parameters of `u_sirv_ppi_fab` in `rtl/perips/e203_subsys_perips.sv`: a two-entry buffer on
each channel, the window decode of sixteen ports, the splitter, and the default slave.  A port is `some k` for
`o0` to `o15` and `none` for the default slave.  Signals have the names of the source without `icb`.
-/

namespace Icb1to16Bus

open Sync Sync.OneHot Icb

/-- The output ports; `none` is the default slave. -/
abbrev Port := Option (Fin 16)

/-- The bit of a port in the vectors `{o0, o1, .., o15, deft}`. -/
def bit : Port → Fin 17
  | some k => ⟨16 - k, by omega⟩
  | none => 0

def portOf (j : Fin 17) : Port := if h : j = 0 then none else some ⟨16 - j, by omega⟩

theorem portOf_bit : ∀ p, portOf (bit p) = p := by
  rintro (_ | k)
  · rfl
  · have hne : bit (some k) ≠ 0 := fun h => by have := congrArg Fin.val h; simp [bit] at this; omega
    rw [portOf, dif_neg hne]
    exact congrArg some (Fin.ext (by simp [bit]; omega))

theorem bit_injective {p p' : Port} (h : bit p = bit p') : p = p' := by rw [← portOf_bit p, h, portOf_bit]

theorem bit_portOf (j : Fin 17) : bit (portOf j) = j := by
  rw [portOf]
  split
  next h => rw [h]; rfl
  next h =>
    have : (j : ℕ) ≠ 0 := fun h0 => h (Fin.ext h0)
    exact Fin.ext (by simp [bit]; omega)

/-- `{f(o0), f(o1), .., f(o15), f(deft)}` -/
def ports (f : Port → Bool) : BitVec 17 := .ofFnLE fun j => f (portOf j)

theorem getLsbD_ports (f : Port → Bool) (p : Port) : (ports f).getLsbD (bit p) = f p := by
  rw [ports, BitVec.getLsbD_ofFnLE, dif_pos (bit p).isLt]
  exact congrArg f (portOf_bit p)

theorem ports_decide (t : Port) : ports (fun p => decide (p = t)) = BitVec.twoPow 17 (bit t) := by
  refine BitVec.eq_of_getLsbD_eq fun j hj => ?_
  have h := getLsbD_ports (fun p => decide (p = t)) (portOf ⟨j, hj⟩)
  rw [bit_portOf] at h
  rw [show (ports _).getLsbD j = _ from h, BitVec.getLsbD_twoPow]
  simp only [(bit t).isLt, decide_true, Bool.true_and]
  refine decide_eq_decide.2 ⟨fun ht => ?_, fun ht => ?_⟩
  · rw [← ht, bit_portOf]
  · rw [← portOf_bit t, show bit t = ⟨j, hj⟩ from Fin.ext ht]

/-! ### The windows -/

def oBaseAddr (k : Fin 16) : BitVec 32 :=
  (#v[0x10000000#32, 0x10008000#32, 0x10010000#32, 0x10012000#32, 0x10013000#32, 0x10014000#32, 0x10015000#32,
    0x10023000#32, 0x10024000#32, 0x10025000#32, 0x10034000#32, 0x10035000#32, 0x11000000#32, 0x10040000#32,
    0x10041000#32, 0x10042000#32])[k]

def oBaseRegionLsb (k : Fin 16) : ℕ := (#v[15, 12, 12, 12, 12, 12, 12, 12, 12, 12, 12, 12, 24, 12, 12, 3])[k]

/-- `addr[31:Ok_BASE_REGION_LSB] == Ok_BASE_ADDR[31:Ok_BASE_REGION_LSB]` -/
def regionEq (k : Fin 16) (addr : BitVec 32) : Bool :=
  addr.extractLsb' (oBaseRegionLsb k) (32 - oBaseRegionLsb k) ==
    (oBaseAddr k).extractLsb' (oBaseRegionLsb k) (32 - oBaseRegionLsb k)

/-! ### Registers and ports -/

/-- The registers; the counter of `icb_buffer_active`, which is not connected, is left out. -/
structure State where
  cmdFifo : GnrlFifo.State 2 cmdPackW
  rspFifo : GnrlFifo.State 2 rspPackW
  splt : IcbSplt.State 17

structure Input where
  iCmdValid : Bool
  iCmd : Cmd
  iRspReady : Bool
  oCmdReady : Fin 16 → Bool
  oRspValid : Fin 16 → Bool
  oRsp : Fin 16 → Rsp

variable (s : State) (x : Input)

/-! ### Combinational signals -/

def bufCmdValid : Bool := GnrlFifo.oVld s.cmdFifo

def bufCmd : Cmd := .ofBits (GnrlFifo.oDat s.cmdFifo)

/-- `oK_icb_enable`, tied to 1. -/
def oEnable (_ : Fin 16) : Bool := true

/-- `icb_cmd_o0` to `icb_cmd_o15` and `icb_cmd_deft`. -/
def icbCmd : Port → Bool
  | some k => bufCmdValid s && regionEq k (bufCmd s).addr && oEnable k
  | none => (List.finRange 16).all fun k => !(bufCmdValid s && regionEq k (bufCmd s).addr && oEnable k)

def bufSpltIndic : BitVec 17 := ports (icbCmd s)

def bufRspReady : Bool := GnrlFifo.iRdy true s.rspFifo x.iRspReady

/-- The ports of the splitter on the side of the master. -/
def spltInput : IcbSplt.Input 17 where
  indic := bufSpltIndic s
  iCmdValid := bufCmdValid s
  iCmd := bufCmd s
  iRspReady := bufRspReady s x

def portCmdValid (p : Port) : Bool := IcbSplt.oCmdValid s.splt (spltInput s x) (bit p)

def portRspReady (p : Port) : Bool := IcbSplt.oRspReady s.splt (spltInput s x) (bit p)

/-- The command ready signal of port `p`; that of the default slave is `deft_icb_rsp_ready`. -/
def portCmdReady (p : Port) : Bool := p.elim (portRspReady s x none) x.oCmdReady

/-- The response valid signal of port `p`; that of the default slave is `deft_icb_cmd_valid`. -/
def portRspValid (p : Port) : Bool := p.elim (portCmdValid s x none) x.oRspValid

/-- The response payload of port `p`; the default slave answers with an error. -/
def portRsp (p : Port) : Rsp := p.elim { err := true, exclOk := false, rdata := 0 } x.oRsp

def portCmd (p : Port) : Cmd := IcbSplt.oCmd s.splt (spltInput s x) (bit p)

/-- The ports of the splitter on the side of the slaves. -/
def spltBus : IcbSplt.BusInput 17 where
  oCmdReady := ports (portCmdReady s x)
  oRspValid := ports (portRspValid s x)
  oRsp := fun j => portRsp x (portOf j)

def bufCmdReady : Bool := IcbSplt.iCmdReady s.splt (spltInput s x) (spltBus s x)

def bufRspValid : Bool := IcbSplt.iRspValid s.splt (spltInput s x) (spltBus s x)

def bufRsp : Rsp := IcbSplt.iRsp s.splt (spltInput s x) (spltBus s x)

/-- The ports of `u_sirv_gnrl_cmd_fifo`. -/
def cmdFifoInput : GnrlFifo.Input cmdPackW where
  iVld := x.iCmdValid
  iDat := x.iCmd.toBits
  oRdy := bufCmdReady s x

/-- The ports of `u_sirv_gnrl_rsp_fifo`. -/
def rspFifoInput : GnrlFifo.Input rspPackW where
  iVld := bufRspValid s x
  iDat := (bufRsp s x).toBits
  oRdy := x.iRspReady

def iCmdReady : Bool := GnrlFifo.iRdy true s.cmdFifo (bufCmdReady s x)

def iRspValid : Bool := GnrlFifo.oVld s.rspFifo

def iRsp : Rsp := .ofBits (GnrlFifo.oDat s.rspFifo)

/-! ### Registers -/

def reset : State where
  cmdFifo := GnrlFifo.reset
  rspFifo := GnrlFifo.reset
  splt := IcbSplt.reset

def edge : State where
  cmdFifo := GnrlFifo.edge true s.cmdFifo (cmdFifoInput s x)
  rspFifo := GnrlFifo.edge true s.rspFifo (rspFifoInput s x)
  splt := IcbSplt.edge s.splt (spltInput s x) (spltBus s x)

def machine : Machine State Input where
  reset := reset
  edge := edge

/-! ### Handshakes -/

/-- The command the master hands over in a cycle. -/
def masterCmd : Option Cmd := if x.iCmdValid && iCmdReady s x then some x.iCmd else none

/-- The response the master takes in a cycle. -/
def masterRsp : Option Rsp := if iRspValid s && x.iRspReady then some (iRsp s) else none

/-- The command handed over at port `p` in a cycle. -/
def slaveCmd (p : Port) : Option Cmd :=
  if portCmdValid s x p && portCmdReady s x p then some (portCmd s x p) else none

/-- The response handed over at port `p` in a cycle: what the slave at the port drives, and the error of the default
slave. -/
def slaveRsp : Port → Option Rsp
  | some k => if x.oRspValid k && portRspReady s x (some k) then some (x.oRsp k) else none
  | none =>
    if portCmdValid s x none && portRspReady s x none then some { err := true, exclOk := false, rdata := 0 } else none

/-- The responses are handed over through the wires of the splitter. -/
theorem slaveRsp_eq_ite (p : Port) :
    slaveRsp s x p = if portRspValid s x p && portRspReady s x p then some (portRsp x p) else none := by
  cases p <;> rfl

variable (i : ℕ → Input)

abbrev run : ℕ → State := machine.run i

end Icb1to16Bus
