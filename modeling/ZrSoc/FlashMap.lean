import ZrSoc.QspiMedia
import ZrSoc.TlFragmenter

/-!
# The memory map of the flash (`rtl/perips/sirv_spi_flashmap.v`)

The state machine that turns a byte read into the frames of a flash command, with the copy of the format fields that
it takes while the chip select is inactive.  `FlashPort` is the flash map with the request registers around it in
`rtl/perips/sirv_flash_qspi.v`.
-/

namespace FlashMap

open QspiPhysical (Fmt)

/-- The format fields: the instruction register of the flash and the endianness of the link. -/
structure Format where
  cmdProto : BitVec 2
  cmdCode : BitVec 8
  cmdEn : Bool
  addrProto : BitVec 2
  addrLen : BitVec 3
  padCode : BitVec 8
  padCnt : BitVec 4
  dataProto : BitVec 2
  endian : Bool
  deriving DecidableEq, Repr

/-- The values of `state`, 0 to 5. -/
inductive Phase
  | idle
  | cmd
  | addr
  | pad
  | pre
  | dataPost
  deriving DecidableEq, Repr

structure State where
  state : Phase
  cnt : BitVec 4
  latched : Format
  deriving DecidableEq, Repr

structure Input where
  en : Bool
  ctrl : Format
  addrValid : Bool
  addrNext : BitVec 32
  addrHold : BitVec 32
  dataReady : Bool
  linkTxReady : Bool
  linkRxValid : Bool
  linkRxBits : BitVec 8
  linkActive : Bool

variable (s : State) (x : Input)

/-! ### Combinational signals -/

/-- `ctrl_insn_..` and `ctrl_fmt_endian`: the latched fields while the link is active. -/
def ctrl : Format := if x.linkActive then s.latched else x.ctrl

def sIdle : Bool := s.state == .idle

/-- The read continues the previous one under the same chip select. -/
def merge : Bool := x.linkActive && x.addrNext == x.addrHold + 1#32

def addrReady : Bool := if sIdle s then (if !x.en then x.dataReady else x.en) else false

def dataValid : Bool :=
  match s.state with
  | .dataPost => x.linkRxValid
  | .idle => if !x.en then x.addrValid else false
  | _ => false

def dataBits : BitVec 8 := if sIdle s then (if !x.en then 0#8 else x.linkRxBits) else x.linkRxBits

def linkTxValid : Bool :=
  match s.state with
  | .dataPost => false
  | .idle => false
  | .addr => !(s.cnt == 0#4)
  | _ => true

/-- The byte of the address that `cnt` selects. -/
def addrByte (addr : BitVec 32) (cnt : BitVec 4) : BitVec 8 :=
  (if cnt == 1#4 then addr.extractLsb' 0 8 else 0#8) ||| (if cnt == 2#4 then addr.extractLsb' 8 8 else 0#8) |||
    (if cnt == 3#4 then addr.extractLsb' 16 8 else 0#8) ||| (if cnt == 4#4 then addr.extractLsb' 24 8 else 0#8)

def linkTxBits : BitVec 8 :=
  match s.state with
  | .pad => (ctrl s x).padCode
  | .addr => addrByte x.addrHold s.cnt
  | _ => (ctrl s x).cmdCode

def linkFmtProto : BitVec 2 :=
  match s.state with
  | .pre => (ctrl s x).dataProto
  | .cmd => (ctrl s x).cmdProto
  | _ => (ctrl s x).addrProto

/-- The beats of a byte in protocol `proto`. -/
def beats (proto : BitVec 2) : BitVec 4 :=
  (if 0#2 == proto then 8#4 else 0#4) ||| (if 1#2 == proto then 4#4 else 0#4) ||| (if 2#2 == proto then 2#4 else 0#4)

def linkCnt : BitVec 8 := (if s.state == .pad then (ctrl s x).padCnt else beats (linkFmtProto s x)).setWidth 8

def linkFmtIodir : Bool := !(s.state == .pre)

def linkCsClear : Bool := sIdle s && x.en && x.addrValid && !merge x

def linkLock : Bool := !sIdle s || x.en && (!x.en || x.addrValid)

/-- The link, as the arbiter sees it. -/
def link : QspiMedia.Link where
  txValid := linkTxValid s
  txBits := linkTxBits s x
  cnt := linkCnt s x
  fmt := { proto := linkFmtProto s x, endian := (ctrl s x).endian, iodir := linkFmtIodir s }
  csSet := true
  csClear := linkCsClear s x
  csHold := true

/-- `T_144` -/
def sends : Bool := x.linkTxReady && linkTxValid s

def cntDone : Bool := s.cnt == 1#4 && x.linkTxReady || s.cnt == 0#4

/-! ### Registers -/

def reset : State where
  state := .idle
  cnt := 0#4
  latched :=
    { cmdProto := 0, cmdCode := 0, cmdEn := false, addrProto := 0, addrLen := 0, padCode := 0, padCnt := 0,
      dataProto := 0, endian := false }

def edge : State where
  state :=
    match s.state with
    | .idle =>
      if x.en && x.addrValid then
        if !merge x then (if (ctrl s x).cmdEn then .cmd else .addr) else .pre
      else .idle
    | .cmd => if x.linkTxReady then .addr else .cmd
    | .addr => if cntDone s x then .pad else .addr
    | .pad => if x.linkTxReady then .pre else .pad
    | .pre => if x.linkTxReady then .dataPost else .pre
    | .dataPost => if x.dataReady && dataValid s x then .idle else .dataPost
  cnt :=
    if s.state == .cmd && x.linkTxReady then (ctrl s x).addrLen.setWidth 4
    else if s.state == .addr && sends s x then s.cnt - 1#4
    else s.cnt
  latched := if !x.linkActive then x.ctrl else s.latched

end FlashMap

/-! ### The flash port of `sirv_flash_qspi` -/

namespace FlashPort

open Sync TileLink
open FlashMap (Format)

structure State where
  map : FlashMap.State
  aSize : BitVec 3
  aSource : BitVec 7
  aAddress : BitVec 30
  deriving DecidableEq, Repr

structure Input where
  en : Bool
  ctrl : Format
  aValid : Bool
  aBits : A 7 1 8
  dReady : Bool
  linkTxReady : Bool
  linkRxValid : Bool
  linkRxBits : BitVec 8
  linkActive : Bool

variable (s : State) (x : Input)

/-- The part of an address that the flash sees. -/
def flashAddr (a : BitVec 30) : BitVec 32 := 0#3 ++ a.extractLsb' 0 29

/-- The ports of `flash`. -/
def mapInput : FlashMap.Input where
  en := x.en
  ctrl := x.ctrl
  addrValid := x.aValid
  addrNext := flashAddr x.aBits.address
  addrHold := flashAddr s.aAddress
  dataReady := x.dReady
  linkTxReady := x.linkTxReady
  linkRxValid := x.linkRxValid
  linkRxBits := x.linkRxBits
  linkActive := x.linkActive

def aReady : Bool := FlashMap.addrReady s.map (mapInput s x)

def dValid : Bool := FlashMap.dataValid s.map (mapInput s x)

def dBits : D 7 1 8 where
  opcode := 1
  param := 0
  size := s.aSize
  source := s.aSource
  sink := false
  addrLo := 0
  data := FlashMap.dataBits s.map (mapInput s x)
  error := false

def link : QspiMedia.Link := FlashMap.link s.map (mapInput s x)

def lock : Bool := FlashMap.linkLock s.map (mapInput s x)

def reset : State where
  map := FlashMap.reset
  aSize := 0
  aSource := 0
  aAddress := 0

def edge : State where
  map := FlashMap.edge s.map (mapInput s x)
  aSize := if aReady s x && x.aValid then x.aBits.size else s.aSize
  aSource := if aReady s x && x.aValid then x.aBits.source else s.aSource
  aAddress := if aReady s x && x.aValid then x.aBits.address else s.aAddress

def machine : Machine State Input where
  reset := reset
  edge := edge

variable (i : ℕ → Input)

abbrev run : ℕ → State := machine.run i

end FlashPort
