import ZrSoc.Icb2DebugBus
import ZrSoc.Tcm

/-!
# The core complex (`rtl/zr_coreplex.sv`)

The instruction and data buses of the core with their slaves: the TCM, the CPU ports of the debug module, the bridges
to the peripheral ICB buses (`module cpu2icb`), and on the data bus the debug transport module.  The core, the debug
module and what lies behind the ICB and debug buses are inputs.  Signals that the source names `.._i` are named without
the suffix.
-/

/-! ### `module cpu2icb` -/

namespace Cpu2Icb

structure State where
  dataRvalid : Bool
  dataRdata : BitVec 32
  deriving DecidableEq, Repr

def dataCs (addrBase addrMask : BitVec 32) (dataReq : Bool) (dataAddr : BitVec 32) : Bool :=
  dataReq && dataAddr &&& ~~~addrMask == addrBase &&& ~~~addrMask

def icbRspReady : Bool := true

def dataGnt (icbCmdValid icbCmdReady : Bool) : Bool := icbCmdValid && icbCmdReady

def edge (icbRspValid : Bool) (icbRspRdata : BitVec 32) : State where
  dataRvalid := icbRspValid && icbRspReady
  dataRdata := if icbRspValid && icbRspReady then icbRspRdata else 0

def reset : State where
  dataRvalid := false
  dataRdata := 0

end Cpu2Icb

namespace Coreplex

open Sync

/-- The registers, for `TCM_AWIDTH = w`. -/
structure State (w : ℕ) where
  tcm : Tcm.State w
  icb2dm : Icb2DebugBus.State 7 2
  dtmDataRvalid : Bool
  dtmDataRdata : BitVec 32
  dmInstrRvalid : Bool
  dmDataRvalid : Bool
  dmInstrSel : Bool
  cpu2pi : Cpu2Icb.State
  cpu2pd : Cpu2Icb.State

/-- The requests of the core, and the outputs of the ICB buses, of the debug module and of the debug bus. -/
structure Input where
  core : Tcm.Input
  piIcbCmdReady : Bool
  piIcbRspValid : Bool
  piIcbRspRdata : BitVec 32
  pdIcbCmdReady : Bool
  pdIcbRspValid : Bool
  pdIcbRspRdata : BitVec 32
  dmSlaveRdata : BitVec 32
  dmDbgIrq : BitVec 2
  sysDtmReqReady : Bool
  sysDtmRespValid : Bool
  sysDtmResp : BitVec 34
  deriving DecidableEq, Repr

def dtmAddrBase : BitVec 32 := 0x00004000#32
def dtmAddrMask : BitVec 32 := 0x00000fff#32
def dmAddrBase : BitVec 32 := 0x00000000#32
def dmAddrMask : BitVec 32 := 0x00003fff#32
def piAddrBase : BitVec 32 := 0x20000000#32
def piAddrMask : BitVec 32 := 0x1fffffff#32
def pdAddrBase : BitVec 32 := 0x10000000#32
def pdAddrMask : BitVec 32 := 0x0fffffff#32

variable {w : ℕ} (base : BitVec 32) (s : State w) (x : Input)

/-! ### The debug transport module on the data bus -/

def dtmDataCs : Bool := x.core.dataReq && x.core.dataAddr &&& ~~~dtmAddrMask == dtmAddrBase &&& ~~~dtmAddrMask

/-- The ports of `u_icb2dm`. -/
def icb2dmInput : Icb2DebugBus.Input 2 where
  icbCmdValid := dtmDataCs x
  icbCmdAddr := x.core.dataAddr.setWidth 12
  icbCmdRead := !x.core.dataWe
  icbCmdWdata := x.core.dataWdata
  icbRspReady := true
  dtmReqReady := x.sysDtmReqReady
  dtmRespValid := x.sysDtmRespValid
  dtmRespBits := x.sysDtmResp
  dbgIrq := x.dmDbgIrq

def dtmDataGnt : Bool := dtmDataCs x && Icb2DebugBus.icbCmdReady (icb2dmInput x)

/-- `dtm_rsp_valid & dtm_rsp_ready` -/
def dtmRsp : Bool := Icb2DebugBus.icbRspValid (icb2dmInput x) && (icb2dmInput x).icbRspReady

/-! ### The CPU ports of the debug module -/

def dmSlaveInstReq : Bool :=
  x.core.instrReq && x.core.instrAddr &&& ~~~dmAddrMask == dmAddrBase &&& ~~~dmAddrMask

def dmSlaveDataReq : Bool := x.core.dataReq && x.core.dataAddr &&& ~~~dmAddrMask == dmAddrBase &&& ~~~dmAddrMask

def dmInstrGnt : Bool := s.dmInstrSel && dmSlaveInstReq x

def dmDataGnt : Bool := !s.dmInstrSel && dmSlaveDataReq x

def dmSlaveReq : Bool := dmSlaveInstReq x && s.dmInstrSel || dmSlaveDataReq x && !s.dmInstrSel

def dmSlaveAddr : BitVec 32 := if s.dmInstrSel then x.core.instrAddr else x.core.dataAddr

def dmSlaveWe : Bool := x.core.dataWe && !s.dmInstrSel

def dmSlaveBe : BitVec 4 := x.core.dataBe ||| if s.dmInstrSel then BitVec.allOnes 4 else 0

def dmSlaveWdata : BitVec 32 := x.core.dataWdata

def dmInstrRdata : BitVec 32 := if s.dmInstrRvalid then x.dmSlaveRdata else 0

def dmDataRdata : BitVec 32 := if s.dmDataRvalid then x.dmSlaveRdata else 0

/-! ### The peripheral buses -/

def piIcbCmdValid : Bool := Cpu2Icb.dataCs piAddrBase piAddrMask x.core.instrReq x.core.instrAddr

def pdIcbCmdValid : Bool := Cpu2Icb.dataCs pdAddrBase pdAddrMask x.core.dataReq x.core.dataAddr

def peripInstrGnt : Bool := Cpu2Icb.dataGnt (piIcbCmdValid x) x.piIcbCmdReady

def peripDataGnt : Bool := Cpu2Icb.dataGnt (pdIcbCmdValid x) x.pdIcbCmdReady

/-! ### The two buses of the core -/

def mask32 (b : Bool) : BitVec 32 := if b then BitVec.allOnes 32 else 0

def instrGnt : Bool := peripInstrGnt x || Tcm.tcmInstrCs w base x.core || dmInstrGnt s x

def instrRvalid : Bool := s.cpu2pi.dataRvalid || s.tcm.tcmInstrRvalid || s.dmInstrRvalid

def instrRdata : BitVec 32 :=
  s.cpu2pi.dataRdata &&& mask32 s.cpu2pi.dataRvalid ||| s.tcm.rdata .instr &&& mask32 s.tcm.tcmInstrRvalid |||
    dmInstrRdata s x &&& mask32 s.dmInstrRvalid

def dataGnt : Bool := peripDataGnt x || Tcm.tcmDataCs w base x.core || dmDataGnt s x || dtmDataGnt x

def dataRvalid : Bool := s.cpu2pd.dataRvalid || s.tcm.tcmDataRvalid || s.dmDataRvalid || s.dtmDataRvalid

def dataRdata : BitVec 32 :=
  s.cpu2pd.dataRdata &&& mask32 s.cpu2pd.dataRvalid ||| s.tcm.rdata .data &&& mask32 s.tcm.tcmDataRvalid |||
    dmDataRdata s x &&& mask32 s.dmDataRvalid ||| s.dtmDataRdata &&& mask32 s.dtmDataRvalid

/-! ### Registers -/

/-- The registers under reset, with the initial contents `init` of the TCM. -/
def reset (init : BitVec (w - 1) → BitVec 32) : State w where
  tcm := (Tcm.machine w base init).reset
  icb2dm := Icb2DebugBus.reset
  dtmDataRvalid := false
  dtmDataRdata := 0
  dmInstrRvalid := false
  dmDataRvalid := false
  dmInstrSel := true
  cpu2pi := Cpu2Icb.reset
  cpu2pd := Cpu2Icb.reset

def edge : State w where
  tcm := Tcm.edge w base s.tcm x.core
  icb2dm := Icb2DebugBus.edge s.icb2dm (icb2dmInput x)
  dtmDataRvalid := dtmRsp x
  dtmDataRdata := if dtmRsp x then Icb2DebugBus.icbRspRdata s.icb2dm (icb2dmInput x) else 0
  dmInstrRvalid := s.dmInstrSel && dmSlaveInstReq x
  dmDataRvalid := !s.dmInstrSel && dmSlaveDataReq x
  dmInstrSel :=
    if dmSlaveInstReq x && dmSlaveDataReq x then !s.dmInstrSel
    else if dmSlaveInstReq x || dmSlaveDataReq x then dmSlaveInstReq x else s.dmInstrSel
  cpu2pi := Cpu2Icb.edge x.piIcbRspValid x.piIcbRspRdata
  cpu2pd := Cpu2Icb.edge x.pdIcbRspValid x.pdIcbRspRdata

def machine (w : ℕ) (base : BitVec 32) (init : BitVec (w - 1) → BitVec 32) : Machine (State w) Input where
  reset := reset base init
  edge := edge base

/-! ### The buses by index -/

/-- The slaves of the two buses. -/
inductive Slave
  | tcm
  | dm
  | dtm
  | perip
  deriving DecidableEq, Repr

def Slave.all : List Slave := [.tcm, .dm, .dtm, .perip]

theorem Slave.mem_all (k : Slave) : k ∈ Slave.all := by cases k <;> simp [Slave.all]

open Tcm (Bus)

def req (b : Bus) : Bool :=
  match b with
  | .instr => x.core.instrReq
  | .data => x.core.dataReq

def selected (w : ℕ) (b : Bus) (k : Slave) : Bool :=
  match b, k with
  | .instr, .tcm => Tcm.tcmInstrCs w base x.core
  | .instr, .dm => dmSlaveInstReq x
  | .instr, .dtm => false
  | .instr, .perip => piIcbCmdValid x
  | .data, .tcm => Tcm.tcmDataCs w base x.core
  | .data, .dm => dmSlaveDataReq x
  | .data, .dtm => dtmDataCs x
  | .data, .perip => pdIcbCmdValid x

def gntOf (b : Bus) (k : Slave) : Bool :=
  match b, k with
  | .instr, .tcm => Tcm.tcmInstrCs w base x.core
  | .instr, .dm => dmInstrGnt s x
  | .instr, .dtm => false
  | .instr, .perip => peripInstrGnt x
  | .data, .tcm => Tcm.tcmDataCs w base x.core
  | .data, .dm => dmDataGnt s x
  | .data, .dtm => dtmDataGnt x
  | .data, .perip => peripDataGnt x

def rvalidOf (b : Bus) (k : Slave) : Bool :=
  match b, k with
  | .instr, .tcm => s.tcm.tcmInstrRvalid
  | .instr, .dm => s.dmInstrRvalid
  | .instr, .dtm => false
  | .instr, .perip => s.cpu2pi.dataRvalid
  | .data, .tcm => s.tcm.tcmDataRvalid
  | .data, .dm => s.dmDataRvalid
  | .data, .dtm => s.dtmDataRvalid
  | .data, .perip => s.cpu2pd.dataRvalid

def gnt (b : Bus) : Bool :=
  match b with
  | .instr => instrGnt base s x
  | .data => dataGnt base s x

def rvalid (b : Bus) : Bool :=
  match b with
  | .instr => instrRvalid s
  | .data => dataRvalid s

def rdata (b : Bus) : BitVec 32 :=
  match b with
  | .instr => instrRdata s x
  | .data => dataRdata s x

def icbRspValid (b : Bus) : Bool :=
  match b with
  | .instr => x.piIcbRspValid
  | .data => x.pdIcbRspValid

def icbRspRdata (b : Bus) : BitVec 32 :=
  match b with
  | .instr => x.piIcbRspRdata
  | .data => x.pdIcbRspRdata

theorem gnt_iff (b : Bus) : gnt base s x b = true ↔ ∃ k, gntOf base s x b k = true := by
  constructor
  · intro h
    cases b <;> simp only [gnt, instrGnt, dataGnt, Bool.or_eq_true] at h
    · rcases h with (h | h) | h
      exacts [⟨.perip, h⟩, ⟨.tcm, h⟩, ⟨.dm, h⟩]
    · rcases h with ((h | h) | h) | h
      exacts [⟨.perip, h⟩, ⟨.tcm, h⟩, ⟨.dm, h⟩, ⟨.dtm, h⟩]
  · rintro ⟨k, h⟩
    cases b <;> cases k <;> simp_all [gnt, instrGnt, dataGnt, gntOf]

theorem rvalid_iff (b : Bus) : rvalid s b = true ↔ ∃ k, rvalidOf s b k = true := by
  constructor
  · intro h
    cases b <;> simp only [rvalid, instrRvalid, dataRvalid, Bool.or_eq_true] at h
    · rcases h with (h | h) | h
      exacts [⟨.perip, h⟩, ⟨.tcm, h⟩, ⟨.dm, h⟩]
    · rcases h with ((h | h) | h) | h
      exacts [⟨.perip, h⟩, ⟨.tcm, h⟩, ⟨.dm, h⟩, ⟨.dtm, h⟩]
  · rintro ⟨k, h⟩
    cases b <;> cases k <;> simp_all [rvalid, instrRvalid, dataRvalid, rvalidOf]

theorem selected_of_gntOf {b : Bus} {k : Slave} (h : gntOf base s x b k = true) :
    selected base x w b k = true := by
  cases b <;> cases k <;>
    simp_all [gntOf, selected, dmInstrGnt, dmDataGnt, dtmDataGnt, peripInstrGnt, peripDataGnt, Cpu2Icb.dataGnt]

/-- The base and the mask of the window of slave `k` on bus `b`; there is no way from the instruction bus to the debug
transport module. -/
def window (w : ℕ) (b : Bus) (k : Slave) : Option (BitVec 32 × BitVec 32) :=
  match b, k with
  | _, .tcm => some (base, Tcm.tcmAddrMask w)
  | _, .dm => some (dmAddrBase, dmAddrMask)
  | .instr, .dtm => none
  | .data, .dtm => some (dtmAddrBase, dtmAddrMask)
  | .instr, .perip => some (piAddrBase, piAddrMask)
  | .data, .perip => some (pdAddrBase, pdAddrMask)

def inWindow (v : BitVec 32 × BitVec 32) (addr : BitVec 32) : Bool := addr &&& ~~~v.2 == v.1 &&& ~~~v.2

/-- A slave is selected by a request in its window. -/
theorem selected_iff {b : Bus} {k : Slave} : selected base x w b k = true ↔
    req x b = true ∧ ∃ v ∈ window base w b k, inWindow v (x.core.addr b) = true := by
  cases b <;> cases k <;>
    simp [selected, req, window, inWindow, Tcm.Input.addr, Tcm.inWindow, Tcm.tcmInstrCs, Tcm.tcmDataCs,
      dmSlaveInstReq, dmSlaveDataReq, dtmDataCs, piIcbCmdValid, pdIcbCmdValid, Cpu2Icb.dataCs]

end Coreplex
