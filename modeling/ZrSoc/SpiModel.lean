import Mathlib.Data.Nat.Init

/-!
# The flash device (`verilator/spi_model.sv`)

The device is clocked by SCK and reset by its chip select.  `size` and `mem` are the parameter and the contents of its
memory, `undef` is the byte read outside of it.  The counters are `int` in the source, which they do not exceed: under
one chip select the device passes at most its memory.
-/

namespace SpiModel

inductive Mode
  | single
  | dual
  | quad
  deriving DecidableEq, Repr

inductive XferType
  | cmd
  | addr
  | dataIn
  | dataOut
  deriving DecidableEq, Repr

structure State where
  xferType : XferType
  xferMode : Mode
  bufferIn : BitVec 8
  bufferOut : BitVec 8
  cntBit : ℕ
  cntByte : ℕ
  cmd : BitVec 8
  addrBase : BitVec 24
  addrOffset : ℕ
  deriving DecidableEq, Repr

/-- The pins that clock the device. -/
structure Pins where
  sck : Bool
  csN : Bool
  deriving DecidableEq, Repr

variable (size : ℕ) (mem : ℕ → BitVec 8) (undef : BitVec 8) (s : State)

/-! ### Combinational signals -/

def bufferInComb (dqI : BitVec 4) : BitVec 8 := s.bufferIn.extractLsb' 0 7 ++ dqI.extractLsb' 0 1

def bufferOutComb : BitVec 8 :=
  match s.xferMode with
  | .quad => s.bufferOut.extractLsb' 0 4 ++ 0#4
  | .dual => s.bufferOut.extractLsb' 0 6 ++ 0#2
  | .single => s.bufferOut.extractLsb' 0 7 ++ 0#1

def dqO : BitVec 4 :=
  match s.xferMode with
  | .quad => s.bufferOut.extractLsb' 4 4
  | .dual => 0#2 ++ s.bufferOut.extractLsb' 6 2
  | .single => 0#2 ++ s.bufferOut.extractLsb' 7 1 ++ 0#1

/-- The lines that the device does not drive. -/
def dqT : BitVec 4 :=
  (if s.xferMode = .quad ∧ s.xferType = .dataOut then 0#2 else 3#2) ++ BitVec.ofBool (s.xferType != .dataOut) ++
    BitVec.ofBool (s.xferMode == .single || s.xferType != .dataOut)

/-- `cnt_bit_mask` -/
def cntBitMask : ℕ :=
  match s.xferMode with
  | .quad => 1
  | .dual => 3
  | .single => 7

/-- The last beat of a byte is under way. -/
def lastBeat : Bool := s.cntBit &&& cntBitMask s == cntBitMask s

/-- The byte of the memory that is sent next, and the offset of the one after it. -/
def nextAddr : ℕ := if s.cntByte = 4 then s.addrBase.toNat else s.addrBase.toNat + s.addrOffset + 1

def fetch (addr : ℕ) : BitVec 8 := if addr < size then mem addr else undef

/-! ### Clock edges -/

/-- Power-up; the shift register of the source is undefined there. -/
def reset (bufferIn : BitVec 8) : State where
  xferType := .cmd
  xferMode := .single
  bufferIn := bufferIn
  bufferOut := 0#8
  cntBit := 0
  cntByte := 0
  cmd := 0xff#8
  addrBase := 0#24
  addrOffset := 0

/-- The rising edge of the chip select. -/
def csRise : State := { s with
  cntBit := 0
  cntByte := 0
  bufferOut := 0#8
  addrOffset := 0
  xferMode := .single
  xferType := .cmd }

/-- The rising edge of SCK. -/
def sckRise (csN : Bool) (dqI : BitVec 4) : State := { s with
  cntBit := if csN then 0 else s.cntBit + 1
  cntByte := if csN then 0 else if lastBeat s then s.cntByte + 1 else s.cntByte
  bufferIn := if csN then s.bufferIn else bufferInComb s dqI
  cmd := if lastBeat s && s.cntByte == 0 then bufferInComb s dqI else s.cmd
  addrBase :=
    if lastBeat s then
      if s.cntByte = 1 then bufferInComb s dqI ++ s.addrBase.extractLsb' 0 16
      else if s.cntByte = 2 then s.addrBase.extractLsb' 16 8 ++ bufferInComb s dqI ++ s.addrBase.extractLsb' 0 8
      else if s.cntByte = 3 then s.addrBase.extractLsb' 8 16 ++ bufferInComb s dqI
      else s.addrBase
    else s.addrBase }

/-- The mode of the data of a read command. -/
def dataMode : Mode := if s.cmd = 0x6b#8 then .quad else if s.cmd = 0x3b#8 then .dual else .single

def isRead : Bool := s.cmd == 0x03#8 || s.cmd == 0x0b#8 || s.cmd == 0x3b#8 || s.cmd == 0x6b#8

/-- The falling edge of SCK. -/
def sckFall (csN : Bool) : State :=
  if csN then { s with bufferOut := 0#8, addrOffset := 0, xferMode := .single, xferType := .cmd }
  else if 0 < s.cntBit ∧ s.cntBit &&& cntBitMask s = 0 then
    if s.cmd = 0xff#8 then { s with bufferOut := s.bufferIn, xferType := .dataOut }
    else if isRead s then
      if s.cntByte ≤ 3 then { s with xferType := .addr }
      else { s with
        xferType := .dataOut
        xferMode := dataMode s
        addrOffset := if s.cntByte = 4 then 0 else s.addrOffset + 1
        bufferOut := fetch size mem undef (nextAddr s) }
    else { s with bufferOut := bufferOutComb s }
  else { s with bufferOut := bufferOutComb s }

/-- The device sees its pins change from `p` to `q`. -/
def step (p q : Pins) (dqI : BitVec 4) : State :=
  let s' := if !p.csN && q.csN then csRise s else s
  if !p.sck && q.sck then sckRise s' q.csN dqI
  else if p.sck && !q.sck then sckFall size mem undef s' q.csN
  else s'

end SpiModel
