import Mathlib.Data.Nat.Init

/-!
# The UART transmitter (`rtl/perips/sirv_uarttx.v`)

A frame of a start bit, eight data bits and one or two stop bits is shifted out, a bit every `div + 1` clocks.
-/

namespace UartTx

structure State where
  prescaler : BitVec 16
  counter : BitVec 4
  shifter : BitVec 9
  out : Bool
  deriving DecidableEq, Repr

structure Input where
  en : Bool
  inValid : Bool
  inBits : BitVec 8
  div : BitVec 16
  nstop : Bool

variable (s : State) (x : Input)

def pulse : Bool := s.prescaler == 0#16

def busy : Bool := s.counter != 0#4

def inReady : Bool := x.en && !busy s

/-- `start_T_34` -/
def start : Bool := inReady s x && x.inValid

/-- `next_bit_T_56` -/
def nextBit : Bool := pulse s && busy s

def reset : State where
  prescaler := 0#16
  counter := 0#4
  shifter := 0#9
  out := true

def edge : State where
  prescaler := if busy s then (if pulse s then x.div else s.prescaler - 1#16) else s.prescaler
  counter :=
    if nextBit s then s.counter - 1#4
    else if start s x then (if x.nstop then 11#4 else 10#4)
    else s.counter
  shifter :=
    if nextBit s then 1#1 ++ s.shifter.extractLsb' 1 8
    else if start s x then x.inBits ++ 0#1
    else s.shifter
  out := if nextBit s then s.shifter.getLsbD 0 else s.out

end UartTx
