import ZrSoc.QspiPhysical
import ZrSoc.Sync.Log

/-!
# The media layer of the QSPI (`rtl/perips/sirv_qspi_media.v`)

The media layer sequences the chip select, the delays around it and the frames of the link into micro-operations of
the physical layer `phy`.  Signals `io_link_..` are named `link..`, and the delay fields `io_ctrl_dla_..` are the
record `dla`.
-/

namespace QspiMedia

open Sync
open QspiPhysical (SckCtrl Fmt Op)

/-- The values of `state`. -/
inductive Phase
  | main
  | interxfr
  | intercs
  deriving DecidableEq, Repr

structure Delays where
  cssck : BitVec 8
  sckcs : BitVec 8
  intercs : BitVec 8
  interxfr : BitVec 8
  deriving DecidableEq, Repr

structure State where
  phy : QspiPhysical.State
  csId : Bool
  csDflt0 : Bool
  csSet : Bool
  clear : Bool
  csAssert : Bool
  state : Phase
  deriving DecidableEq, Repr

/-- The link of a user of the media layer, without its handshake. -/
structure Link where
  txValid : Bool
  txBits : BitVec 8
  cnt : BitVec 8
  fmt : Fmt
  csSet : Bool
  csClear : Bool
  csHold : Bool
  deriving DecidableEq, Repr

structure Input where
  dqI : BitVec 4
  sck : SckCtrl
  dla : Delays
  csId : Bool
  csDflt0 : Bool
  link : Link
  deriving DecidableEq, Repr

variable (s : State) (x : Input)

/-! ### Combinational signals -/

def sMain : Bool := s.state == .main

def sInterxfr : Bool := s.state == .interxfr

def sIntercs : Bool := s.state == .intercs

/-- The next chip select. -/
def t163 : Bool := x.csDflt0 ^^ (x.link.csSet && !x.csId)

def csDeassert : Bool := s.clear || (t163 x != s.csDflt0) && !x.link.csHold

def continuous : Bool := x.dla.interxfr == 0#8

/-- The link asks for a frame while the chip select is inactive. -/
def t189 : Bool := !s.csAssert && x.link.txValid

/-- The link is idle. -/
def t195 : Bool := !s.csAssert && !x.link.txValid

def opValid : Bool :=
  sInterxfr s && !continuous x || sMain s && s.csAssert && !csDeassert s x && x.link.txValid

def opBits : Op where
  fn := !(sMain s && s.csAssert && !csDeassert s x)
  stb := sIntercs s || sMain s && t195 s x || sMain s && s.csAssert && !csDeassert s x
  cnt :=
    if sIntercs s then x.dla.intercs
    else if sInterxfr s then x.dla.interxfr
    else if sMain s then
      if t195 s x then 0#8
      else if t189 s x then x.dla.cssck
      else if s.csAssert then (if csDeassert s x then x.dla.sckcs else x.link.cnt)
      else x.link.cnt
    else x.link.cnt
  data := x.link.txBits

/-- The ports of `phy`. -/
def phyInput : QspiPhysical.Input where
  dqI := x.dqI
  ctrlSck := x.sck
  ctrlFmt := x.link.fmt
  opValid := opValid s x
  op := opBits s x

def opReady : Bool := QspiPhysical.opReady s.phy

/-! ### Ports -/

def portCs0 : Bool := s.csDflt0

def linkTxReady : Bool := sMain s && s.csAssert && !csDeassert s x && opReady s

def linkRxValid : Bool := QspiPhysical.rxValid s.phy

def linkRxBits : BitVec 8 := QspiPhysical.rxBits s.phy

def linkActive : Bool := s.csAssert

/-! ### Registers -/

def reset : State where
  phy := QspiPhysical.reset
  csId := false
  csDflt0 := true
  csSet := false
  clear := false
  csAssert := false
  state := .main

def edge : State where
  phy := QspiPhysical.edge s.phy (phyInput s x)
  csId := if sMain s && t195 s x then x.csId else s.csId
  csSet := if sMain s && (t189 s x && opReady s) then x.link.csSet else s.csSet
  csDflt0 :=
    if sIntercs s && opReady s then s.csDflt0 ^^ (s.csSet && !s.csId)
    else if sMain s then
      if t195 s x then x.csDflt0
      else if t189 s x && opReady s then t163 x
      else s.csDflt0
    else s.csDflt0
  clear :=
    if sIntercs s then false
    else if x.link.csClear && s.csAssert then true
    else s.clear
  csAssert :=
    if sIntercs s then false
    else if sMain s && t189 s x && opReady s then true
    else s.csAssert
  state :=
    match s.state with
    | .intercs => if opReady s then .main else .intercs
    | .interxfr => if opReady s || continuous x then .main else .interxfr
    | .main =>
      if s.csAssert then
        if !csDeassert s x && opReady s && opValid s x then .interxfr
        else if csDeassert s x && opReady s then .intercs
        else .main
      else .main

def machine : Machine State Input where
  reset := reset
  edge := edge

variable (i : ℕ → Input)

abbrev run : ℕ → State := machine.run i

end QspiMedia
