import Mathlib.Data.Nat.Init

/-!
# The UART receiver (`rtl/perips/uart_rx.v`)

The line is filtered by a majority of its last three samples.  A low line starts the receiver, which then samples the
filtered line after half a bit and every `div` clocks from there.
-/

namespace UartRx

/-- The values of `rx_state`, 0 to 12; `bit k` is `BIT0` to `BIT7`. -/
inductive Phase
  | idle
  | start
  | bit (k : Fin 8)
  | parity
  | stop1
  | stop2
  deriving DecidableEq, Repr

structure State where
  dlc : BitVec 16
  enable : Bool
  filter : BitVec 3
  rxState : Phase
  pushRxFifo : Bool
  rxBuffer : BitVec 11
  parityError : Bool
  framingError : Bool
  breakError : Bool
  rxIdle : Bool
  deriving DecidableEq, Repr

structure Input where
  en : Bool
  in_ : Bool
  div : BitVec 16
  lcr : BitVec 8

variable (s : State) (x : Input)

/-- `filtered_rxd` -/
def filteredRxd : Bool :=
  match s.filter.getLsbD 2, s.filter.getLsbD 1, s.filter.getLsbD 0 with
  | false, true, true => true
  | true, false, true => true
  | true, true, false => true
  | true, true, true => true
  | _, _, _ => false

def rxStart : Bool := x.en && filteredRxd s == false

def outValid : Bool := s.pushRxFifo

def outBits : BitVec 8 := s.rxBuffer.extractLsb' 0 8

/-- Bit `k` of the receive buffer is replaced. -/
def setBuffer (k : ℕ) (b : Bool) : BitVec 11 :=
  s.rxBuffer &&& ~~~(1#11 <<< k) ||| (BitVec.ofBool b).setWidth 11 <<< k

/-- The state after the last data bit. -/
def afterData : Phase := if x.lcr.getLsbD 3 then .parity else .stop1

/-- The state after data bit `k`: bits 5, 6 and 7 depend on the number of bits of a character. -/
def afterBit (k : Fin 8) : Phase :=
  if k.val < 4 + (x.lcr.extractLsb' 0 2).toNat then (if h : k.val + 1 < 8 then .bit ⟨k.val + 1, h⟩ else afterData x)
  else afterData x

/-- The parity of the receive buffer, `^rx_buffer`. -/
def xorBuffer : Bool := (List.range 11).foldl (fun b k => b ^^ s.rxBuffer.getLsbD k) false

/-- Bit 9 of the receive buffer, the parity error. -/
def parityBit : Bool :=
  match x.lcr.getLsbD 5, x.lcr.getLsbD 4, x.lcr.getLsbD 3 with
  | false, false, true => !(filteredRxd s == !xorBuffer s)
  | false, true, true => !(filteredRxd s == xorBuffer s)
  | true, false, true => !filteredRxd s
  | true, true, true => filteredRxd s
  | _, _, _ => false

def reset : State where
  dlc := 0#16
  enable := false
  filter := 7#3
  rxState := .idle
  pushRxFifo := false
  rxBuffer := 0#11
  parityError := false
  framingError := false
  breakError := false
  rxIdle := true

/-- The baud rate generator and the filter. -/
def sample : State := { s with
  dlc :=
    if s.rxState = .idle then (x.div >>> 1) - 1#16
    else if s.dlc = 0#16 then x.div - 1#16
    else s.dlc - 1#16
  enable := x.div != 0#16 && s.dlc == 0#16
  filter := s.filter.extractLsb' 0 2 ++ BitVec.ofBool x.in_ }

def edge : State :=
  match s.rxState with
  | .idle => { sample s x with
      pushRxFifo := false
      rxBuffer := 0#11
      rxState := if rxStart s x then .start else .idle
      rxIdle := if rxStart s x then false else true }
  | .start => { sample s x with
      rxState := if s.enable then (if filteredRxd s == false then .bit 0 else .idle) else .start }
  | .bit k => { sample s x with
      rxState := if s.enable then afterBit x k else .bit k
      rxBuffer := if s.enable then setBuffer s k (filteredRxd s) else s.rxBuffer }
  | .parity => { sample s x with
      rxState := if s.enable then .stop1 else .parity
      rxBuffer := if s.enable then setBuffer s 9 (parityBit s x) else s.rxBuffer }
  | .stop1 => { sample s x with
      parityError := s.rxBuffer.getLsbD 9
      rxState := if s.enable then .stop2 else .stop1
      rxBuffer :=
        if s.enable then
          -- bit 8 is the framing error and bit 10 the break, in which the whole frame was low
          setBuffer { s with rxBuffer := setBuffer s 8 (!filteredRxd s) } 10 (!filteredRxd s && s.rxBuffer == 0#11)
        else s.rxBuffer }
  | .stop2 => { sample s x with
      framingError := s.rxBuffer.getLsbD 8
      breakError := s.rxBuffer.getLsbD 10
      pushRxFifo := true
      rxState := .idle }

end UartRx
