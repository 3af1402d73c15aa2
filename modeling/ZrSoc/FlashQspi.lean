import ZrSoc.FlashLink
import ZrSoc.Queue1
import ZrSoc.RegisterPort

/-!
# The QSPI block (`rtl/perips/sirv_flash_qspi.v`, `rtl/perips/sirv_qspi_fifo.v`)

The registers and the software FIFOs around the shared link.  Word `k` of the registers is selected by bit `k` of
`T_4852`.
-/

/-! ### The software FIFOs -/

namespace QspiFifo

open QspiMedia (Link)

/-- The registers that the FIFOs read. -/
structure Ctrl where
  fmtProto : BitVec 2
  fmtEndian : Bool
  fmtIodir : Bool
  fmtLen : BitVec 4
  csMode : BitVec 2
  deriving DecidableEq, Repr

structure State where
  txq : Queue1.State
  rxq : Queue1.State
  rxen : Bool
  csMode : BitVec 2
  deriving DecidableEq, Repr

structure Input where
  ctrl : Ctrl
  linkTxReady : Bool
  linkRxValid : Bool
  linkRxBits : BitVec 8
  txValid : Bool
  txBits : BitVec 8
  rxReady : Bool

variable (s : State) (x : Input)

def fireTx : Bool := x.linkTxReady && Queue1.deqValid s.txq

def csModeOff : Bool := s.csMode == 3#2

/-- `io_link_cnt`: the length of a frame in beats, rounded up. -/
def linkCnt (c : Ctrl) : BitVec 8 :=
  ((if 0#2 == c.fmtProto then c.fmtLen else 0#4) |||
    (if 1#2 == c.fmtProto then (c.fmtLen.extractLsb' 1 3).setWidth 4 else 0#4) |||
    (if 2#2 == c.fmtProto then (c.fmtLen.extractLsb' 2 2).setWidth 4 else 0#4)).setWidth 8 +
  (BitVec.ofBool (0#2 == c.fmtProto && c.fmtLen.getLsbD 0 || 1#2 == c.fmtProto && c.fmtLen.extractLsb' 0 2 != 0#2 ||
    2#2 == c.fmtProto && c.fmtLen.extractLsb' 0 3 != 0#3)).setWidth 8

def link : Link where
  txValid := Queue1.deqValid s.txq
  txBits := Queue1.deqBits s.txq
  cnt := linkCnt x.ctrl
  fmt := { proto := x.ctrl.fmtProto, endian := x.ctrl.fmtEndian, iodir := x.ctrl.fmtIodir }
  csSet := !csModeOff s
  csClear := s.csMode != x.ctrl.csMode || fireTx s x && !(s.csMode == 2#2 || csModeOff s)
  csHold := false

def linkLock : Bool := Queue1.deqValid s.txq || s.rxen

/-- The ports of `txq`. -/
def txqInput : Queue1.Input where
  enqValid := x.txValid
  enqBits := x.txBits
  deqReady := x.linkTxReady

/-- The ports of `rxq`. -/
def rxqInput : Queue1.Input where
  enqValid := x.linkRxValid && s.rxen
  enqBits := x.linkRxBits
  deqReady := x.rxReady

def reset (txRam rxRam : Vector (BitVec 8) 8) : State where
  txq := Queue1.reset txRam
  rxq := Queue1.reset rxRam
  rxen := false
  csMode := 0#2

def edge : State where
  txq := Queue1.edge s.txq (txqInput x)
  rxq := Queue1.edge s.rxq (rxqInput s x)
  rxen := if fireTx s x then !x.ctrl.fmtIodir else if x.linkRxValid then false else s.rxen
  csMode := x.ctrl.csMode

end QspiFifo

/-! ### The block -/

namespace FlashQspi

open TileLink (A)
open RegisterPort (field flag gets puts lanes FieldKept FlagKept fieldKept_zero flagKept_zero fieldKept_refl
  flagKept_refl fieldKept_field flagKept_flag)

structure Regs where
  fmt : QspiFifo.Ctrl
  sckDiv : BitVec 12
  sckPol : Bool
  sckPha : Bool
  csId : Bool
  csDflt0 : Bool
  dla : QspiMedia.Delays
  wmTx : BitVec 4
  wmRx : BitVec 4
  ieTxwm : Bool
  ieRxwm : Bool
  insnCmdProto : BitVec 2
  insnCmdCode : BitVec 8
  insnCmdEn : Bool
  insnAddrProto : BitVec 2
  insnAddrLen : BitVec 3
  insnPadCode : BitVec 8
  insnPadCnt : BitVec 4
  insnDataProto : BitVec 2
  flashEn : Bool
  deriving DecidableEq, Repr

structure State where
  regs : Regs
  fifo : QspiFifo.State
  link : FlashLink.State
  deriving DecidableEq, Repr

/-- The register port, the flash port and the data lines. -/
structure Input where
  port : RegisterPort.Input
  aValid : Bool
  aBits : A 7 1 8
  dReady : Bool
  dqI : BitVec 4

variable (s : State) (x : Input)

/-- `T_4794` -/
def word : BitVec 5 := x.port.aAddress.extractLsb' 2 5

/-- The shared link with the software side driven by `fifo`. -/
def linkInput (fifo : QspiMedia.Link) : FlashLink.Input where
  flashEn := s.regs.flashEn
  insn :=
    { cmdProto := s.regs.insnCmdProto, cmdCode := s.regs.insnCmdCode, cmdEn := s.regs.insnCmdEn
      addrProto := s.regs.insnAddrProto, addrLen := s.regs.insnAddrLen, padCode := s.regs.insnPadCode
      padCnt := s.regs.insnPadCnt, dataProto := s.regs.insnDataProto, endian := s.regs.fmt.fmtEndian }
  sck := { div := s.regs.sckDiv, pol := s.regs.sckPol, pha := s.regs.sckPha }
  dla := s.regs.dla
  csId := s.regs.csId
  csDflt0 := s.regs.csDflt0
  aValid := x.aValid
  aBits := x.aBits
  dReady := x.dReady
  fifo := fifo
  fifoLock := QspiFifo.linkLock s.fifo
  dqI := x.dqI

/-- The ports of `fifo`, with `io_link_tx_ready` still open. -/
def fifoPorts (txReady : Bool) : QspiFifo.Input where
  ctrl := s.regs.fmt
  linkTxReady := txReady
  linkRxValid := QspiMedia.linkRxValid s.link.mac && s.link.arb.sel1
  linkRxBits := QspiMedia.linkRxBits s.link.mac
  txValid := puts x.port && word x == 18#5 && lanes x.port 0 8
  txBits := x.port.aData.extractLsb' 0 8
  rxReady := gets x.port && word x == 19#5 && RegisterPort.maskBits x.port &&& 255#32 != 0#32

/-- `arb_io_inner_1_tx_ready`, which does not depend on the clear of the software side. -/
def fifoTxReady : Bool :=
  QspiMedia.linkTxReady s.link.mac
    (FlashLink.macInput s.link (linkInput s x (QspiFifo.link s.fifo (fifoPorts s x false)))) && s.link.arb.sel1

/-- The ports of `fifo`. -/
def fifoInput : QspiFifo.Input := fifoPorts s x (fifoTxReady s x)

def reset (txRam rxRam : Vector (BitVec 8) 8) : State where
  regs :=
    { fmt := { fmtProto := 0#2, fmtEndian := false, fmtIodir := false, fmtLen := 8#4, csMode := 0#2 }
      sckDiv := 3#12, sckPol := false, sckPha := false, csId := false, csDflt0 := true
      dla := { cssck := 1#8, sckcs := 1#8, intercs := 1#8, interxfr := 0#8 }
      wmTx := 0#4, wmRx := 0#4, ieTxwm := false, ieRxwm := false, insnCmdProto := 0#2, insnCmdCode := 3#8
      insnCmdEn := true, insnAddrProto := 0#2, insnAddrLen := 3#3, insnPadCode := 0#8, insnPadCnt := 0#4
      insnDataProto := 0#2, flashEn := true }
  fifo := QspiFifo.reset txRam rxRam
  link := FlashLink.reset

def edgeRegs : Regs where
  fmt :=
    { fmtProto := field x.port (word x == 16#5) 0 s.regs.fmt.fmtProto
      fmtEndian := flag x.port (word x == 16#5) 2 s.regs.fmt.fmtEndian
      fmtIodir := flag x.port (word x == 16#5) 3 s.regs.fmt.fmtIodir
      fmtLen := field x.port (word x == 16#5) 16 s.regs.fmt.fmtLen
      csMode := field x.port (word x == 6#5) 0 s.regs.fmt.csMode }
  sckDiv := field x.port (word x == 0#5) 0 s.regs.sckDiv
  sckPol := flag x.port (word x == 1#5) 1 s.regs.sckPol
  sckPha := flag x.port (word x == 1#5) 0 s.regs.sckPha
  csId := flag x.port (word x == 4#5) 0 s.regs.csId
  csDflt0 := flag x.port (word x == 5#5) 0 s.regs.csDflt0
  dla :=
    { cssck := field x.port (word x == 10#5) 0 s.regs.dla.cssck
      sckcs := field x.port (word x == 10#5) 16 s.regs.dla.sckcs
      intercs := field x.port (word x == 11#5) 0 s.regs.dla.intercs
      interxfr := field x.port (word x == 11#5) 16 s.regs.dla.interxfr }
  wmTx := field x.port (word x == 20#5) 0 s.regs.wmTx
  wmRx := field x.port (word x == 21#5) 0 s.regs.wmRx
  ieTxwm := flag x.port (word x == 28#5) 0 s.regs.ieTxwm
  ieRxwm := flag x.port (word x == 28#5) 1 s.regs.ieRxwm
  insnCmdProto := field x.port (word x == 25#5) 8 s.regs.insnCmdProto
  insnCmdCode := field x.port (word x == 25#5) 16 s.regs.insnCmdCode
  insnCmdEn := flag x.port (word x == 25#5) 0 s.regs.insnCmdEn
  insnAddrProto := field x.port (word x == 25#5) 10 s.regs.insnAddrProto
  insnAddrLen := field x.port (word x == 25#5) 1 s.regs.insnAddrLen
  insnPadCode := field x.port (word x == 25#5) 24 s.regs.insnPadCode
  insnPadCnt := field x.port (word x == 25#5) 4 s.regs.insnPadCnt
  insnDataProto := field x.port (word x == 25#5) 12 s.regs.insnDataProto
  flashEn := flag x.port (word x == 24#5) 0 s.regs.flashEn

def edge : State where
  regs := edgeRegs s x
  fifo := QspiFifo.edge s.fifo (fifoInput s x)
  link := FlashLink.edge s.link (linkInput s x (QspiFifo.link s.fifo (fifoInput s x)))

def machine (txRam rxRam : Vector (BitVec 8) 8) : Sync.Machine State Input where
  reset := reset txRam rxRam
  edge := edge

/-! ### The effect of an access -/

/-- The same cycle without an access. -/
def quiet : Input := { x with port := RegisterPort.idle x.port }

/-- The register bits outside the lanes `be` are the same in `a` and `b`. -/
structure RegsKept (be : BitVec 4) (a b : Regs) : Prop where
  fmtProto : FieldKept be 0 a.fmt.fmtProto b.fmt.fmtProto
  fmtEndian : FlagKept be 2 a.fmt.fmtEndian b.fmt.fmtEndian
  fmtIodir : FlagKept be 3 a.fmt.fmtIodir b.fmt.fmtIodir
  fmtLen : FieldKept be 16 a.fmt.fmtLen b.fmt.fmtLen
  csMode : FieldKept be 0 a.fmt.csMode b.fmt.csMode
  sckDiv : FieldKept be 0 a.sckDiv b.sckDiv
  sckPol : FlagKept be 1 a.sckPol b.sckPol
  sckPha : FlagKept be 0 a.sckPha b.sckPha
  csId : FlagKept be 0 a.csId b.csId
  csDflt0 : FlagKept be 0 a.csDflt0 b.csDflt0
  cssck : FieldKept be 0 a.dla.cssck b.dla.cssck
  sckcs : FieldKept be 16 a.dla.sckcs b.dla.sckcs
  intercs : FieldKept be 0 a.dla.intercs b.dla.intercs
  interxfr : FieldKept be 16 a.dla.interxfr b.dla.interxfr
  wmTx : FieldKept be 0 a.wmTx b.wmTx
  wmRx : FieldKept be 0 a.wmRx b.wmRx
  ieTxwm : FlagKept be 0 a.ieTxwm b.ieTxwm
  ieRxwm : FlagKept be 1 a.ieRxwm b.ieRxwm
  insnCmdProto : FieldKept be 8 a.insnCmdProto b.insnCmdProto
  insnCmdCode : FieldKept be 16 a.insnCmdCode b.insnCmdCode
  insnCmdEn : FlagKept be 0 a.insnCmdEn b.insnCmdEn
  insnAddrProto : FieldKept be 10 a.insnAddrProto b.insnAddrProto
  insnAddrLen : FieldKept be 1 a.insnAddrLen b.insnAddrLen
  insnPadCode : FieldKept be 24 a.insnPadCode b.insnPadCode
  insnPadCnt : FieldKept be 4 a.insnPadCnt b.insnPadCnt
  insnDataProto : FieldKept be 12 a.insnDataProto b.insnDataProto
  flashEn : FlagKept be 0 a.flashEn b.flashEn

/-- Outside the lanes `be`, the data on the port are the contents of the register that its address selects. -/
structure CarriesOld (be : BitVec 4) (s : State) (x : Input) : Prop where
  sckdiv : word x = 0#5 → FieldKept be 0 (x.port.aData.extractLsb' 0 12) s.regs.sckDiv
  sckmode : word x = 1#5 → FlagKept be 1 (x.port.aData.getLsbD 1) s.regs.sckPol ∧
    FlagKept be 0 (x.port.aData.getLsbD 0) s.regs.sckPha
  csid : word x = 4#5 → FlagKept be 0 (x.port.aData.getLsbD 0) s.regs.csId
  csdef : word x = 5#5 → FlagKept be 0 (x.port.aData.getLsbD 0) s.regs.csDflt0
  csmode : word x = 6#5 → FieldKept be 0 (x.port.aData.extractLsb' 0 2) s.regs.fmt.csMode
  delay0 : word x = 10#5 → FieldKept be 0 (x.port.aData.extractLsb' 0 8) s.regs.dla.cssck ∧
    FieldKept be 16 (x.port.aData.extractLsb' 16 8) s.regs.dla.sckcs
  delay1 : word x = 11#5 → FieldKept be 0 (x.port.aData.extractLsb' 0 8) s.regs.dla.intercs ∧
    FieldKept be 16 (x.port.aData.extractLsb' 16 8) s.regs.dla.interxfr
  fmt : word x = 16#5 → FieldKept be 0 (x.port.aData.extractLsb' 0 2) s.regs.fmt.fmtProto ∧
    FlagKept be 2 (x.port.aData.getLsbD 2) s.regs.fmt.fmtEndian ∧
    FlagKept be 3 (x.port.aData.getLsbD 3) s.regs.fmt.fmtIodir ∧
    FieldKept be 16 (x.port.aData.extractLsb' 16 4) s.regs.fmt.fmtLen
  txmark : word x = 20#5 → FieldKept be 0 (x.port.aData.extractLsb' 0 4) s.regs.wmTx
  rxmark : word x = 21#5 → FieldKept be 0 (x.port.aData.extractLsb' 0 4) s.regs.wmRx
  fctrl : word x = 24#5 → FlagKept be 0 (x.port.aData.getLsbD 0) s.regs.flashEn
  ffmt : word x = 25#5 → FieldKept be 8 (x.port.aData.extractLsb' 8 2) s.regs.insnCmdProto ∧
    FieldKept be 16 (x.port.aData.extractLsb' 16 8) s.regs.insnCmdCode ∧
    FlagKept be 0 (x.port.aData.getLsbD 0) s.regs.insnCmdEn ∧
    FieldKept be 10 (x.port.aData.extractLsb' 10 2) s.regs.insnAddrProto ∧
    FieldKept be 1 (x.port.aData.extractLsb' 1 3) s.regs.insnAddrLen ∧
    FieldKept be 24 (x.port.aData.extractLsb' 24 8) s.regs.insnPadCode ∧
    FieldKept be 4 (x.port.aData.extractLsb' 4 4) s.regs.insnPadCnt ∧
    FieldKept be 12 (x.port.aData.extractLsb' 12 2) s.regs.insnDataProto
  ie : word x = 28#5 → FlagKept be 0 (x.port.aData.getLsbD 0) s.regs.ieTxwm ∧
    FlagKept be 1 (x.port.aData.getLsbD 1) s.regs.ieRxwm

/-- A byte enters the transmit queue. -/
def pushes : Bool := Queue1.enq s.fifo.txq (QspiFifo.txqInput (fifoInput s x))

/-- A byte leaves the receive queue. -/
def pops : Bool := Queue1.deq s.fifo.rxq (QspiFifo.rxqInput s.fifo (fifoInput s x))

variable {s x} {be : BitVec 4}

theorem regsKept_zero {a b : Regs} : RegsKept 0#4 a b ↔ a = b := by
  refine ⟨fun h => ?_, fun h => ?_⟩
  · obtain ⟨⟨_, _, _, _, _⟩, _, _, _, _, _, ⟨_, _, _, _⟩, _, _, _, _, _, _, _, _, _, _, _, _, _⟩ := a
    obtain ⟨⟨_, _, _, _, _⟩, _, _, _, _, _, ⟨_, _, _, _⟩, _, _, _, _, _, _, _, _, _, _, _, _, _⟩ := b
    obtain ⟨h1, h2, h3, h4, h5, h6, h7, h8, h9, h10, h11, h12, h13, h14, h15, h16, h17, h18, h19, h20, h21, h22, h23,
      h24, h25, h26, h27⟩ := h
    simp only [fieldKept_zero, flagKept_zero] at *
    subst_vars
    rfl
  · rw [h]
    constructor <;> first | exact fieldKept_refl _ | exact flagKept_refl _

theorem edgeRegs_quiet : edgeRegs s (quiet x) = s.regs := rfl

/-- A write keeps the register bits outside the lanes if and only if it carries their contents. -/
theorem regsKept_edge_iff (hm : x.port.aMask = 15#4) :
    RegsKept be (edgeRegs s x) (edgeRegs s (quiet x)) ↔ (puts x.port = true → CarriesOld be s x) := by
  rw [edgeRegs_quiet]
  constructor
  · intro h hp
    constructor
    · exact fun hw => (fieldKept_field hm (by decide)).1 h.sckDiv hp hw
    · exact fun hw => ⟨(flagKept_flag hm (by decide)).1 h.sckPol hp hw,
        (flagKept_flag hm (by decide)).1 h.sckPha hp hw⟩
    · exact fun hw => (flagKept_flag hm (by decide)).1 h.csId hp hw
    · exact fun hw => (flagKept_flag hm (by decide)).1 h.csDflt0 hp hw
    · exact fun hw => (fieldKept_field hm (by decide)).1 h.csMode hp hw
    · exact fun hw => ⟨(fieldKept_field hm (by decide)).1 h.cssck hp hw,
        (fieldKept_field hm (by decide)).1 h.sckcs hp hw⟩
    · exact fun hw => ⟨(fieldKept_field hm (by decide)).1 h.intercs hp hw,
        (fieldKept_field hm (by decide)).1 h.interxfr hp hw⟩
    · exact fun hw => ⟨(fieldKept_field hm (by decide)).1 h.fmtProto hp hw,
        (flagKept_flag hm (by decide)).1 h.fmtEndian hp hw,
        (flagKept_flag hm (by decide)).1 h.fmtIodir hp hw,
        (fieldKept_field hm (by decide)).1 h.fmtLen hp hw⟩
    · exact fun hw => (fieldKept_field hm (by decide)).1 h.wmTx hp hw
    · exact fun hw => (fieldKept_field hm (by decide)).1 h.wmRx hp hw
    · exact fun hw => (flagKept_flag hm (by decide)).1 h.flashEn hp hw
    · exact fun hw => ⟨(fieldKept_field hm (by decide)).1 h.insnCmdProto hp hw,
        (fieldKept_field hm (by decide)).1 h.insnCmdCode hp hw,
        (flagKept_flag hm (by decide)).1 h.insnCmdEn hp hw,
        (fieldKept_field hm (by decide)).1 h.insnAddrProto hp hw,
        (fieldKept_field hm (by decide)).1 h.insnAddrLen hp hw,
        (fieldKept_field hm (by decide)).1 h.insnPadCode hp hw,
        (fieldKept_field hm (by decide)).1 h.insnPadCnt hp hw,
        (fieldKept_field hm (by decide)).1 h.insnDataProto hp hw⟩
    · exact fun hw => ⟨(flagKept_flag hm (by decide)).1 h.ieTxwm hp hw,
        (flagKept_flag hm (by decide)).1 h.ieRxwm hp hw⟩
  · intro h
    constructor
    · exact (fieldKept_field hm (by decide)).2 fun hp hw => ((h hp).fmt hw).1
    · exact (flagKept_flag hm (by decide)).2 fun hp hw => ((h hp).fmt hw).2.1
    · exact (flagKept_flag hm (by decide)).2 fun hp hw => ((h hp).fmt hw).2.2.1
    · exact (fieldKept_field hm (by decide)).2 fun hp hw => ((h hp).fmt hw).2.2.2
    · exact (fieldKept_field hm (by decide)).2 fun hp hw => (h hp).csmode hw
    · exact (fieldKept_field hm (by decide)).2 fun hp hw => (h hp).sckdiv hw
    · exact (flagKept_flag hm (by decide)).2 fun hp hw => ((h hp).sckmode hw).1
    · exact (flagKept_flag hm (by decide)).2 fun hp hw => ((h hp).sckmode hw).2
    · exact (flagKept_flag hm (by decide)).2 fun hp hw => (h hp).csid hw
    · exact (flagKept_flag hm (by decide)).2 fun hp hw => (h hp).csdef hw
    · exact (fieldKept_field hm (by decide)).2 fun hp hw => ((h hp).delay0 hw).1
    · exact (fieldKept_field hm (by decide)).2 fun hp hw => ((h hp).delay0 hw).2
    · exact (fieldKept_field hm (by decide)).2 fun hp hw => ((h hp).delay1 hw).1
    · exact (fieldKept_field hm (by decide)).2 fun hp hw => ((h hp).delay1 hw).2
    · exact (fieldKept_field hm (by decide)).2 fun hp hw => (h hp).txmark hw
    · exact (fieldKept_field hm (by decide)).2 fun hp hw => (h hp).rxmark hw
    · exact (flagKept_flag hm (by decide)).2 fun hp hw => ((h hp).ie hw).1
    · exact (flagKept_flag hm (by decide)).2 fun hp hw => ((h hp).ie hw).2
    · exact (fieldKept_field hm (by decide)).2 fun hp hw => ((h hp).ffmt hw).1
    · exact (fieldKept_field hm (by decide)).2 fun hp hw => ((h hp).ffmt hw).2.1
    · exact (flagKept_flag hm (by decide)).2 fun hp hw => ((h hp).ffmt hw).2.2.1
    · exact (fieldKept_field hm (by decide)).2 fun hp hw => ((h hp).ffmt hw).2.2.2.1
    · exact (fieldKept_field hm (by decide)).2 fun hp hw => ((h hp).ffmt hw).2.2.2.2.1
    · exact (fieldKept_field hm (by decide)).2 fun hp hw => ((h hp).ffmt hw).2.2.2.2.2.1
    · exact (fieldKept_field hm (by decide)).2 fun hp hw => ((h hp).ffmt hw).2.2.2.2.2.2.1
    · exact (fieldKept_field hm (by decide)).2 fun hp hw => ((h hp).ffmt hw).2.2.2.2.2.2.2
    · exact (flagKept_flag hm (by decide)).2 fun hp hw => (h hp).fctrl hw

/-- With all lanes of the mask, the queues are accessed through words 18 and 19. -/
theorem pushes_eq (hm : x.port.aMask = 15#4) :
    pushes s x = (puts x.port && word x == 18#5 && Queue1.enqReady s.fifo.txq) := by
  rw [pushes, Queue1.enq, QspiFifo.txqInput, fifoInput, fifoPorts, RegisterPort.lanes_full hm (by decide),
    Bool.and_true, Bool.and_comm]

theorem pops_eq (hm : x.port.aMask = 15#4) :
    pops s x = (gets x.port && word x == 19#5 && Queue1.deqValid s.fifo.rxq) := by
  have hbits : (RegisterPort.maskBits x.port &&& 255#32 != 0#32) = true := by
    rw [RegisterPort.maskBits_full hm]
    decide
  rw [pops, Queue1.deq, QspiFifo.rxqInput, fifoInput, fifoPorts, hbits, Bool.and_true]

/-- An access has no effect if and only if it leaves the queues alone and writes nothing new. -/
theorem edge_eq_quiet_iff (hm : x.port.aMask = 15#4) : edge s x = edge s (quiet x) ↔
    pushes s x = false ∧ pops s x = false ∧ (puts x.port = true → CarriesOld 0#4 s x) := by
  have htx : Queue1.edge s.fifo.txq (QspiFifo.txqInput (fifoInput s x)) =
      Queue1.edge s.fifo.txq (QspiFifo.txqInput (fifoInput s (quiet x))) ↔ pushes s x = false :=
    Queue1.edge_eq_iff_enq rfl rfl
  have hrx : Queue1.edge s.fifo.rxq (QspiFifo.rxqInput s.fifo (fifoInput s x)) =
      Queue1.edge s.fifo.rxq (QspiFifo.rxqInput s.fifo (fifoInput s (quiet x))) ↔ pops s x = false :=
    Queue1.edge_eq_iff_deq rfl rfl rfl
  rw [← regsKept_edge_iff hm, regsKept_zero, ← htx, ← hrx, edge, edge, State.mk.injEq, QspiFifo.edge, QspiFifo.edge,
    QspiFifo.State.mk.injEq]
  exact ⟨fun ⟨h1, ⟨h2, h3, _⟩, _⟩ => ⟨h2, h3, h1⟩, fun ⟨h2, h3, h1⟩ => ⟨h1, ⟨h2, h3, rfl, rfl⟩, rfl⟩⟩

end FlashQspi
