import ZrSoc.Sync.Log

/-!
# The debug transport module on the system bus (`rtl/icb2debug_bus.sv`)

Registers, combinational signals and clock edge as in the source, for `DEBUG_ADDR_BITS = a` and `HART_NUM = h`; the
register layout fixes the data to 32 bits and the op and response codes to 2 bits.  `REQ OTHERS` and `RSP OTHERS` are
`DBUS_OTHERS_LEN = a + 4` bits wide: the address, two bits of code and two unused bits.
-/

namespace Icb2DebugBus

open Sync

inductive DbusReqOp
  | nop
  | read
  | write
  | reserved
  deriving DecidableEq, Repr

/-- The cast `t_dbus_req_op'(b)`. -/
def DbusReqOp.ofBits (b : BitVec 2) : DbusReqOp :=
  if b = 0b00#2 then .nop else if b = 0b01#2 then .read else if b = 0b10#2 then .write else .reserved

def DbusReqOp.toBits : DbusReqOp → BitVec 2
  | .nop => 0b00#2
  | .read => 0b01#2
  | .write => 0b10#2
  | .reserved => 0b11#2

@[simp] theorem DbusReqOp.toBits_ofBits : ∀ b : BitVec 2, (DbusReqOp.ofBits b).toBits = b := by decide

inductive DbusRspStat
  | ok
  | reserved
  | err
  | busy
  deriving DecidableEq, Repr

/-- The cast `t_dbus_rsp_stat'({hi, lo})`. -/
def DbusRspStat.ofBits : Bool → Bool → DbusRspStat
  | false, false => .ok
  | false, true => .reserved
  | true, false => .err
  | true, true => .busy

def DbusRspStat.toBits : DbusRspStat → BitVec 2
  | .ok => 0b00#2
  | .reserved => 0b01#2
  | .err => 0b10#2
  | .busy => 0b11#2

inductive DbusFsm
  | idle
  | reqBusy
  | rspBusy
  deriving DecidableEq, Repr

structure State (a h : ℕ) where
  regDbusReqDword : BitVec 32
  regDbusReqOthers : BitVec (a + 4)
  regDbusRspDword : BitVec 32
  regDbusRspOthers : BitVec (a + 4)
  regDmIen : BitVec h
  regDmTmpIdis : BitVec h
  cntDmTmpIdis : BitVec 7
  weDbusReqOthersD : Bool
  dbusOpStart : Bool
  dbusReqOp : DbusReqOp
  dbusRspStatSticky : Bool
  dbusFsmAct : DbusFsm
  deriving DecidableEq, Repr

structure Input (h : ℕ) where
  icbCmdValid : Bool
  icbCmdAddr : BitVec 12
  icbCmdRead : Bool
  icbCmdWdata : BitVec 32
  icbRspReady : Bool
  dtmReqReady : Bool
  dtmRespValid : Bool
  dtmRespBits : BitVec 34
  dbgIrq : BitVec h
  deriving DecidableEq, Repr

def addrReqDword : BitVec 12 := 0
def addrReqOthers : BitVec 12 := 4
def addrRspDword : BitVec 12 := 8
def addrRspOthers : BitVec 12 := 12
def addrCtrl : BitVec 12 := 16
def addrStat : BitVec 12 := 20
def addrDmIen : BitVec 12 := 24
def addrDmTmpIdis : BitVec 12 := 28

variable {a h : ℕ} (s : State a h) (x : Input h)

/-! ### Combinational signals -/

def icbCmdReady : Bool := x.icbRspReady

def icbRspValid : Bool := x.icbCmdValid

def icbWrite : Bool := x.icbCmdValid && icbCmdReady x && !x.icbCmdRead

def weAt (addr : BitVec 12) : Bool := x.icbCmdAddr == addr && icbWrite x

def weCtrl : Bool := weAt x addrCtrl

def weDbusReqDword : Bool := weAt x addrReqDword

def weDbusReqOthers : Bool := weAt x addrReqOthers

def dtmRst : Bool := weCtrl x

def cntDmTmpIdisUrun : Bool := s.cntDmTmpIdis.getLsbD 6

def dbgIen : BitVec h :=
  s.regDmIen &&& ~~~(s.regDmTmpIdis &&& if cntDmTmpIdisUrun s then 0 else BitVec.allOnes h)

/-- The address field of a `REQ OTHERS` or `RSP OTHERS` value. -/
def addrField (v : BitVec (a + 4)) : BitVec a := v.extractLsb' 4 a

/-- The code field of a `REQ OTHERS` or `RSP OTHERS` value. -/
def codeField (v : BitVec (a + 4)) : BitVec 2 := v.extractLsb' 2 2

def dtmReqBits : BitVec (a + 2 + 32) := addrField s.regDbusReqOthers ++ s.dbusReqOp.toBits ++ s.regDbusReqDword

def dtmRespReady : Bool := x.dtmRespValid

def dbusReqOpI : DbusReqOp := .ofBits (codeField s.regDbusReqOthers)

def dbusRspStat : DbusRspStat := .ofBits s.dbusRspStatSticky (x.dtmRespBits.getLsbD 0)

def dtmReqValid : Bool := s.dbusFsmAct == .reqBusy

def dbusOpDone : Bool :=
  match s.dbusFsmAct with
  | .idle => false
  | .reqBusy => x.dtmReqReady && x.dtmRespValid
  | .rspBusy => x.dtmRespValid

def dbusFsmNxt : DbusFsm :=
  match s.dbusFsmAct with
  | .idle => if s.dbusOpStart then .reqBusy else .idle
  | .reqBusy => if x.dtmReqReady then (if x.dtmRespValid then .idle else .rspBusy) else .reqBusy
  | .rspBusy => if x.dtmRespValid then .idle else .rspBusy

def icbRspRdata : BitVec 32 :=
  if x.icbCmdValid && x.icbCmdRead then
    if x.icbCmdAddr = addrReqDword then s.regDbusReqDword
    else if x.icbCmdAddr = addrReqOthers then s.regDbusReqOthers.setWidth 32
    else if x.icbCmdAddr = addrRspDword then s.regDbusRspDword
    else if x.icbCmdAddr = addrRspOthers then s.regDbusRspOthers.setWidth 32
    else if x.icbCmdAddr = addrStat then
      BitVec.ofBool (s.dbusFsmAct != .idle) ++ x.dbgIrq.setWidth 31
    else 0
  else 0

/-! ### Registers -/

def reset : State a h where
  regDbusReqDword := 0
  regDbusReqOthers := 0
  regDbusRspDword := 0
  regDbusRspOthers := 0
  regDmIen := 0
  regDmTmpIdis := 0
  cntDmTmpIdis := BitVec.allOnes 7
  weDbusReqOthersD := false
  dbusOpStart := false
  dbusReqOp := .nop
  dbusRspStatSticky := false
  dbusFsmAct := .idle

def edge : State a h where
  regDbusReqDword :=
    if icbWrite x && s.dbusFsmAct == .idle && x.icbCmdAddr == addrReqDword then x.icbCmdWdata
    else s.regDbusReqDword
  regDbusReqOthers :=
    if icbWrite x && s.dbusFsmAct == .idle && x.icbCmdAddr == addrReqOthers then x.icbCmdWdata.setWidth (a + 4)
    else s.regDbusReqOthers
  regDbusRspDword := if dbusOpDone s x then x.dtmRespBits.extractLsb' 2 32 else s.regDbusRspDword
  regDbusRspOthers :=
    if dbusOpDone s x then addrField s.regDbusReqOthers ++ ((dbusRspStat s x).toBits ++ 0#2)
    else s.regDbusRspOthers
  regDmIen :=
    if dtmRst x then 0 else if weAt x addrDmIen then x.icbCmdWdata.setWidth h else s.regDmIen
  regDmTmpIdis :=
    if dtmRst x then 0 else if weAt x addrDmTmpIdis then x.icbCmdWdata.setWidth h else s.regDmTmpIdis
  cntDmTmpIdis :=
    if dtmRst x then BitVec.allOnes 7
    else if weAt x addrDmTmpIdis then 0#1 ++ BitVec.allOnes 6
    else if !cntDmTmpIdisUrun s then s.cntDmTmpIdis - 1
    else s.cntDmTmpIdis
  weDbusReqOthersD := weDbusReqOthers x
  dbusOpStart := weDbusReqOthers x && !s.weDbusReqOthersD
  dbusReqOp :=
    if dtmRst x then .nop
    else if s.dbusOpStart && s.dbusFsmAct == .idle then dbusReqOpI s
    else s.dbusReqOp
  dbusRspStatSticky :=
    if dtmRst x then false
    else if (weDbusReqDword x || weDbusReqOthers x) && s.dbusFsmAct != .idle then true
    else s.dbusRspStatSticky
  dbusFsmAct := if dtmRst x then .idle else dbusFsmNxt s x

def machine (a h : ℕ) : Machine (State a h) (Input h) where
  reset := reset
  edge := edge

variable (i : ℕ → Input h)

abbrev run : ℕ → State a h := (machine a h).run i

theorem run_succ (n : ℕ) : (run i (n + 1) : State a h) = edge (run i n) (i n) := rfl

/-! ### Inputs of concrete runs -/

/-- A cycle without a command, in which the other side of the debug bus is ready. -/
def noCmd : Input h where
  icbCmdValid := false
  icbCmdAddr := 0
  icbCmdRead := false
  icbCmdWdata := 0
  icbRspReady := true
  dtmReqReady := true
  dtmRespValid := false
  dtmRespBits := 0
  dbgIrq := 0

/-- A cycle with a write of `v` to the register at `addr`. -/
def writeCmd (addr : BitVec 12) (v : BitVec 32) : Input h :=
  { noCmd with icbCmdValid := true, icbCmdAddr := addr, icbCmdWdata := v }

/-- A cycle with a read of the register at `addr`. -/
def readCmd (addr : BitVec 12) : Input h :=
  { noCmd with icbCmdValid := true, icbCmdAddr := addr, icbCmdRead := true }

end Icb2DebugBus
