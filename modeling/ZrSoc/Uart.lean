import ZrSoc.Queue1
import ZrSoc.RegisterPort
import ZrSoc.Sync.Run
import ZrSoc.UartRx
import ZrSoc.UartTx

/-!
# The UART (`rtl/perips/sirv_uart.v`)

The registers, the transmitter behind its queue and the receiver in front of its queue.  Word `k` of the registers is
selected by bit `k` of `T_2181`.
-/

namespace Uart

open RegisterPort (field flag gets puts lanes FieldKept FlagKept fieldKept_zero flagKept_zero fieldKept_refl
  flagKept_refl fieldKept_field flagKept_flag)

structure Regs where
  div : BitVec 16
  txen : Bool
  rxen : Bool
  txwm : BitVec 4
  rxwm : BitVec 4
  nstop : Bool
  ieRxwm : Bool
  ieTxwm : Bool
  deriving DecidableEq, Repr

structure State where
  regs : Regs
  txm : UartTx.State
  txq : Queue1.State
  rxm : UartRx.State
  rxq : Queue1.State
  deriving DecidableEq, Repr

structure Input where
  port : RegisterPort.Input
  rxd : Bool

variable (s : State) (x : Input)

/-- `T_2149` -/
def word : BitVec 3 := x.port.aAddress.extractLsb' 2 3

/-- The ports of `u_txm`. -/
def txmInput : UartTx.Input where
  en := s.regs.txen
  inValid := Queue1.deqValid s.txq
  inBits := Queue1.deqBits s.txq
  div := s.regs.div
  nstop := s.regs.nstop

/-- The ports of `u_txq`. -/
def txqInput : Queue1.Input where
  enqValid := puts x.port && word x == 0#3 && lanes x.port 0 8
  enqBits := x.port.aData.extractLsb' 0 8
  deqReady := UartTx.inReady s.txm (txmInput s)

/-- The ports of `u_rxm`. -/
def rxmInput : UartRx.Input where
  en := s.regs.rxen
  in_ := x.rxd
  div := s.regs.div
  lcr := 0#5 ++ BitVec.ofBool s.regs.nstop ++ 3#2

/-- The ports of `u_rxq`. -/
def rxqInput : Queue1.Input where
  enqValid := UartRx.outValid s.rxm
  enqBits := UartRx.outBits s.rxm
  deqReady := gets x.port && word x == 1#3 && RegisterPort.maskBits x.port &&& 255#32 != 0#32

def txd : Bool := s.txm.out

def reset (txRam rxRam : Vector (BitVec 8) 8) : State where
  regs :=
    { div := 0x21e#16, txen := false, rxen := false, txwm := 0#4, rxwm := 0#4, nstop := false, ieRxwm := false
      ieTxwm := false }
  txm := UartTx.reset
  txq := Queue1.reset txRam
  rxm := UartRx.reset
  rxq := Queue1.reset rxRam

def edgeRegs : Regs where
  div := field x.port (word x == 6#3) 0 s.regs.div
  txen := flag x.port (word x == 2#3) 0 s.regs.txen
  rxen := flag x.port (word x == 3#3) 0 s.regs.rxen
  txwm := field x.port (word x == 2#3) 16 s.regs.txwm
  rxwm := field x.port (word x == 3#3) 16 s.regs.rxwm
  nstop := flag x.port (word x == 2#3) 1 s.regs.nstop
  ieRxwm := flag x.port (word x == 4#3) 1 s.regs.ieRxwm
  ieTxwm := flag x.port (word x == 4#3) 0 s.regs.ieTxwm

def edge : State where
  regs := edgeRegs s x
  txm := UartTx.edge s.txm (txmInput s)
  txq := Queue1.edge s.txq (txqInput s x)
  rxm := UartRx.edge s.rxm (rxmInput s x)
  rxq := Queue1.edge s.rxq (rxqInput s x)

def machine (txRam rxRam : Vector (BitVec 8) 8) : Sync.Machine State Input where
  reset := reset txRam rxRam
  edge := edge

/-! ### The effect of an access -/

/-- The same cycle without an access. -/
def quiet : Input := { x with port := RegisterPort.idle x.port }

/-- The register bits outside the lanes `be` are the same in `a` and `b`. -/
structure RegsKept (be : BitVec 4) (a b : Regs) : Prop where
  div : FieldKept be 0 a.div b.div
  txen : FlagKept be 0 a.txen b.txen
  rxen : FlagKept be 0 a.rxen b.rxen
  txwm : FieldKept be 16 a.txwm b.txwm
  rxwm : FieldKept be 16 a.rxwm b.rxwm
  nstop : FlagKept be 1 a.nstop b.nstop
  ieRxwm : FlagKept be 1 a.ieRxwm b.ieRxwm
  ieTxwm : FlagKept be 0 a.ieTxwm b.ieTxwm

/-- Outside the lanes `be`, the data on the port are the contents of the register that its address selects. -/
structure CarriesOld (be : BitVec 4) (s : State) (x : Input) : Prop where
  txctrl : word x = 2#3 → FlagKept be 0 (x.port.aData.getLsbD 0) s.regs.txen ∧
    FlagKept be 1 (x.port.aData.getLsbD 1) s.regs.nstop ∧ FieldKept be 16 (x.port.aData.extractLsb' 16 4) s.regs.txwm
  rxctrl : word x = 3#3 → FlagKept be 0 (x.port.aData.getLsbD 0) s.regs.rxen ∧
    FieldKept be 16 (x.port.aData.extractLsb' 16 4) s.regs.rxwm
  ie : word x = 4#3 → FlagKept be 0 (x.port.aData.getLsbD 0) s.regs.ieTxwm ∧
    FlagKept be 1 (x.port.aData.getLsbD 1) s.regs.ieRxwm
  div : word x = 6#3 → FieldKept be 0 (x.port.aData.extractLsb' 0 16) s.regs.div

/-- A byte enters the transmit queue. -/
def pushes : Bool := Queue1.enq s.txq (txqInput s x)

/-- A byte leaves the receive queue. -/
def pops : Bool := Queue1.deq s.rxq (rxqInput s x)

variable {s x} {be : BitVec 4}

theorem regsKept_zero {a b : Regs} : RegsKept 0#4 a b ↔ a = b := by
  refine ⟨fun h => ?_, fun h => ?_⟩
  · have hdiv := fieldKept_zero.1 h.div
    have htxwm := fieldKept_zero.1 h.txwm
    have hrxwm := fieldKept_zero.1 h.rxwm
    have htxen := flagKept_zero.1 h.txen
    have hrxen := flagKept_zero.1 h.rxen
    have hnstop := flagKept_zero.1 h.nstop
    have hierx := flagKept_zero.1 h.ieRxwm
    have hietx := flagKept_zero.1 h.ieTxwm
    cases a
    cases b
    simp_all
  · rw [h]
    exact ⟨fieldKept_refl _, flagKept_refl _, flagKept_refl _, fieldKept_refl _, fieldKept_refl _, flagKept_refl _,
      flagKept_refl _, flagKept_refl _⟩

theorem edgeRegs_quiet : edgeRegs s (quiet x) = s.regs := rfl

/-- A write keeps the register bits outside the lanes if and only if it carries their contents. -/
theorem regsKept_edge_iff (hm : x.port.aMask = 15#4) :
    RegsKept be (edgeRegs s x) (edgeRegs s (quiet x)) ↔ (puts x.port = true → CarriesOld be s x) := by
  rw [edgeRegs_quiet]
  constructor
  · intro h hp
    constructor
    · intro hw
      exact ⟨(flagKept_flag hm (by decide)).1 h.txen hp hw,
        (flagKept_flag hm (by decide)).1 h.nstop hp hw,
        (fieldKept_field hm (by decide)).1 h.txwm hp hw⟩
    · intro hw
      exact ⟨(flagKept_flag hm (by decide)).1 h.rxen hp hw,
        (fieldKept_field hm (by decide)).1 h.rxwm hp hw⟩
    · intro hw
      exact ⟨(flagKept_flag hm (by decide)).1 h.ieTxwm hp hw,
        (flagKept_flag hm (by decide)).1 h.ieRxwm hp hw⟩
    · exact fun hw => (fieldKept_field hm (by decide)).1 h.div hp hw
  · intro h
    constructor
    · exact (fieldKept_field hm (by decide)).2 fun hp hw => (h hp).div hw
    · exact (flagKept_flag hm (by decide)).2 fun hp hw => ((h hp).txctrl hw).1
    · exact (flagKept_flag hm (by decide)).2 fun hp hw => ((h hp).rxctrl hw).1
    · exact (fieldKept_field hm (by decide)).2 fun hp hw => ((h hp).txctrl hw).2.2
    · exact (fieldKept_field hm (by decide)).2 fun hp hw => ((h hp).rxctrl hw).2
    · exact (flagKept_flag hm (by decide)).2 fun hp hw => ((h hp).txctrl hw).2.1
    · exact (flagKept_flag hm (by decide)).2 fun hp hw => ((h hp).ie hw).2
    · exact (flagKept_flag hm (by decide)).2 fun hp hw => ((h hp).ie hw).1

/-- With all lanes of the mask, the queues are accessed through words 0 and 1. -/
theorem pushes_eq (hm : x.port.aMask = 15#4) :
    pushes s x = (puts x.port && word x == 0#3 && Queue1.enqReady s.txq) := by
  rw [pushes, Queue1.enq, txqInput, RegisterPort.lanes_full hm (by decide), Bool.and_true, Bool.and_comm]

theorem pops_eq (hm : x.port.aMask = 15#4) :
    pops s x = (gets x.port && word x == 1#3 && Queue1.deqValid s.rxq) := by
  have hbits : (RegisterPort.maskBits x.port &&& 255#32 != 0#32) = true := by
    rw [RegisterPort.maskBits_full hm]
    decide
  rw [pops, Queue1.deq, rxqInput, hbits, Bool.and_true]

/-- An access has no effect if and only if it leaves the queues alone and writes nothing new. -/
theorem edge_eq_quiet_iff (hm : x.port.aMask = 15#4) : edge s x = edge s (quiet x) ↔
    pushes s x = false ∧ pops s x = false ∧ (puts x.port = true → CarriesOld 0#4 s x) := by
  have htx : Queue1.edge s.txq (txqInput s x) = Queue1.edge s.txq (txqInput s (quiet x)) ↔ pushes s x = false :=
    Queue1.edge_eq_iff_enq rfl rfl
  have hrx : Queue1.edge s.rxq (rxqInput s x) = Queue1.edge s.rxq (rxqInput s (quiet x)) ↔ pops s x = false :=
    Queue1.edge_eq_iff_deq rfl rfl rfl
  rw [← regsKept_edge_iff hm, regsKept_zero, ← htx, ← hrx, edge, edge, State.mk.injEq]
  exact ⟨fun ⟨h1, _, h2, _, h3⟩ => ⟨h2, h3, h1⟩, fun ⟨h2, h3, h1⟩ => ⟨h1, rfl, h2, rfl, h3⟩⟩

end Uart
