import ZrSoc.FlashFragments
import ZrSoc.FlashLink
import ZrSoc.SpiModel

/-!
# The flash read path with its device

`sirv_flash_qspi_top`, read through its port `f_icb`, with the synchronisers of the data lines in
`e203_subsys_perips.sv` and the device of the test bench on the pins.  The registers of the QSPI are constants here.  A
line that nobody or everybody drives has the value `float`.
-/

namespace FlashSystem

open Sync TileLink
open FlashMap (Format)
open QspiMedia (Link Delays)
open QspiPhysical (SckCtrl)

/-- The registers of the QSPI. -/
structure Regs where
  flashEn : Bool
  insn : Format
  sck : SckCtrl
  dla : Delays
  csId : Bool
  csDflt0 : Bool
  deriving DecidableEq, Repr

/-- The memory of the device. -/
structure Device where
  size : ℕ
  mem : ℕ → BitVec 8
  undef : BitVec 8
  bufferIn : BitVec 8

structure State where
  fragments : FlashFragments.State
  link : FlashLink.State
  sync : Vector (BitVec 4) 3
  dev : SpiModel.State
  deriving DecidableEq, Repr

/-- The port `f_icb`, the software side of the link and the lines that are not driven. -/
structure Input where
  cmdValid : Bool
  cmdAddr : BitVec 32
  cmdRead : Bool
  cmdWdata : BitVec 32
  rspReady : Bool
  fifo : Link
  fifoLock : Bool
  float : BitVec 4
  deriving DecidableEq, Repr

variable (r : Regs) (v : Device) (s : State) (x : Input)

/-! ### The pins -/

def pins (l : FlashLink.State) : SpiModel.Pins where
  sck := QspiPhysical.portSck l.mac.phy
  csN := QspiMedia.portCs0 l.mac

/-- The lines `o`, driven where `oe`, together with those of the device. -/
def resolve (oe o devT devO float : BitVec 4) : BitVec 4 :=
  oe &&& devT &&& o ||| ~~~oe &&& ~~~devT &&& devO |||
    oe &&& ~~~devT &&& (~~~(o ^^^ devO) &&& o ||| (o ^^^ devO) &&& float) ||| ~~~oe &&& devT &&& float

/-- The data lines of the pads, with the flash path in state `l` and the device in state `dev`. -/
def dq (l : FlashLink.State) (dev : SpiModel.State) (float : BitVec 4) : BitVec 4 :=
  resolve (QspiPhysical.portDqOe l.mac.phy) (QspiPhysical.portDqO l.mac.phy) (SpiModel.dqT dev) (SpiModel.dqO dev) float

/-! ### The read path -/

def inABits : A 2 4 32 where
  opcode := if x.cmdRead then 4#3 else 0#3
  param := 0#3
  size := 2#3
  source := 0#2
  address := x.cmdAddr.extractLsb' 2 28 ++ 0#2
  mask := 15#4
  data := x.cmdWdata

/-- The ports of the fragments. -/
def fragmentsInputOf (outAReady outDValid : Bool) (outDBits : D 7 1 8) : FlashFragments.Input where
  inAValid := x.cmdValid
  inABits := inABits x
  inDReady := x.rspReady
  outAReady := outAReady
  outDValid := outDValid
  outDBits := outDBits

def noResponse : D 7 1 8 := ⟨0, 0, 0, 0, false, 0, 0, false⟩

/-- The ports of the flash path, with `d_ready` still open.  What the fragments request does not depend on the answer of
the flash port. -/
def linkInputOf (dReady : Bool) : FlashLink.Input where
  flashEn := r.flashEn
  insn := r.insn
  sck := r.sck
  dla := r.dla
  csId := r.csId
  csDflt0 := r.csDflt0
  aValid := FlashFragments.outAValid s.fragments (fragmentsInputOf x false false noResponse)
  aBits := FlashFragments.outABits s.fragments (fragmentsInputOf x false false noResponse)
  dReady := dReady
  fifo := x.fifo
  fifoLock := x.fifoLock
  dqI := s.sync[2]

def portInputOf (dReady : Bool) : FlashPort.Input := FlashLink.flashInput s.link (linkInputOf r s x dReady)

/-- The responses of the flash port do not depend on `d_ready`. -/
def dValid : Bool := FlashPort.dValid s.link.flash (portInputOf r s x false)

def dBits : D 7 1 8 := FlashPort.dBits s.link.flash (portInputOf r s x false)

def dReady : Bool :=
  FlashFragments.outDReady s.fragments (fragmentsInputOf x false (dValid r s x) (dBits r s x))

def linkInput : FlashLink.Input := linkInputOf r s x (dReady r s x)

def fragmentsInput : FlashFragments.Input :=
  fragmentsInputOf x (FlashPort.aReady s.link.flash (portInputOf r s x (dReady r s x))) (dValid r s x) (dBits r s x)

/-! ### Ports -/

def cmdReady : Bool := FlashFragments.inAReady s.fragments (fragmentsInput r s x)

def rspValid : Bool := FlashFragments.inDValid s.fragments (fragmentsInput r s x)

def rspRdata : BitVec 32 := (FlashFragments.inDBits s.fragments (fragmentsInput r s x)).data

/-! ### Registers -/

def reset : State where
  fragments := FlashFragments.reset
  link := FlashLink.reset
  sync := Vector.replicate 3 0#4
  dev := SpiModel.reset v.bufferIn

def edge : State where
  fragments := FlashFragments.edge s.fragments (fragmentsInput r s x)
  link := FlashLink.edge s.link (linkInput r s x)
  sync := #v[dq s.link s.dev x.float, s.sync[0], s.sync[1]]
  dev :=
    SpiModel.step v.size v.mem v.undef s.dev (pins s.link) (pins (FlashLink.edge s.link (linkInput r s x)))
      (dq (FlashLink.edge s.link (linkInput r s x)) s.dev x.float)

def machine : Machine State Input where
  reset := reset v
  edge := edge r v

end FlashSystem
