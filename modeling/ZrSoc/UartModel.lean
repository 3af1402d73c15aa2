import Mathlib.Data.Nat.Init
import Mathlib.Data.Int.Init

/-!
# The UART receiver of the testbench (`verilator/uart_model.sv`)

One counter divides the clock into bit times, in which it counts from 1 to `ctrl_baud_clks`, and another one counts the
bit times.  The model leaves its idle state on a low line, waits for half a bit and from there counts the data bits and
the stop bits.
-/

namespace UartModel

/-- `t_rx_state` -/
inductive RxState
  | idle
  | start
  | data
  | stop
  | recover
  deriving DecidableEq, Repr

structure Config where
  ctrlBaudClks : Int32
  ctrlBits : Int32
  ctrlStops : Int32

structure State where
  rxFsmQ : RxState
  baudCnt : Int32
  bitCnt : Int32
  rxDataInt : BitVec 32
  rxRdy : Bool
  rxErr : Bool
  rxData : BitVec 32
  deriving DecidableEq, Repr

/-- The combinational outputs of the state machine. -/
structure Comb where
  rxFsmN : RxState
  baudRst : Bool
  rxRdyComb : Bool
  rxErrComb : Bool
  deriving DecidableEq, Repr

variable (c : Config) (s : State) (rxd : Bool)

def baudHalf : Bool := s.baudCnt == c.ctrlBaudClks / 2

def baudFull : Bool := decide (c.ctrlBaudClks ≤ s.baudCnt)

/-- The error path of the start and the stop state. -/
def toRecover : Comb := { rxFsmN := .recover, baudRst := true, rxRdyComb := true, rxErrComb := true }

/-- The state machine stays, and the counters are not restarted. -/
def stay : Comb := { rxFsmN := s.rxFsmQ, baudRst := false, rxRdyComb := false, rxErrComb := false }

def comb : Comb :=
  match s.rxFsmQ with
  | .idle =>
    if rxd == false then { stay s with
      baudRst := if baudHalf c s then true else false
      rxFsmN := if baudHalf c s then .data else .start }
    else { stay s with baudRst := true }
  | .start =>
    if baudHalf c s then { stay s with rxFsmN := .data, baudRst := true }
    else if rxd != false then toRecover else stay s
  | .data =>
    -- the bit times are shifted by half of a bit, so half of a bit time is the end of a bit
    if baudHalf c s then { stay s with rxFsmN := if c.ctrlBits < s.bitCnt then .stop else .data } else stay s
  | .stop =>
    if rxd != true then toRecover
    else if baudFull c s then
      (if c.ctrlStops ≤ s.bitCnt then { rxFsmN := .idle, baudRst := true, rxRdyComb := true, rxErrComb := false }
      else stay s)
    else stay s
  | .recover =>
    if rxd != true then { stay s with baudRst := true }
    else if baudFull c s && decide (c.ctrlStops ≤ s.bitCnt) then { stay s with rxFsmN := .idle, baudRst := true }
    else stay s

/-- `x[k] <= b`, which has no effect if there is no bit `k`. -/
def setBit (x : BitVec 32) (k : Int32) (b : Bool) : BitVec 32 :=
  if 0 ≤ k.toInt ∧ k.toInt < 32 then
    x &&& ~~~(1#32 <<< k.toInt.toNat) ||| (BitVec.ofBool b).setWidth 32 <<< k.toInt.toNat
  else x

/-- The registers under reset.  The counters have no reset: they are restarted by a clock with a high line. -/
def reset : State where
  rxFsmQ := .idle
  baudCnt := 1
  bitCnt := 1
  rxDataInt := 0#32
  rxRdy := false
  rxErr := false
  rxData := 0#32

def edge : State where
  rxFsmQ := (comb c s rxd).rxFsmN
  baudCnt := if (comb c s rxd).baudRst then 1 else if baudFull c s then 1 else s.baudCnt + 1
  bitCnt :=
    if (comb c s rxd).baudRst then 1
    else if baudFull c s then (if (comb c s rxd).rxFsmN = .stop then 1 else s.bitCnt + 1)
    else s.bitCnt
  rxDataInt :=
    if (comb c s rxd).baudRst then 0#32
    else if baudFull c s && s.rxFsmQ == .data then setBit s.rxDataInt (s.bitCnt - 1) rxd
    else s.rxDataInt
  rxRdy := (comb c s rxd).rxRdyComb
  rxErr := (comb c s rxd).rxErrComb
  rxData :=
    if (comb c s rxd).rxRdyComb then (if (comb c s rxd).rxErrComb then 0#32 else s.rxDataInt) else s.rxData

/-! ### Clocks under reset -/

/-- An `int` is 0 before the first clock. -/
def powerOn : State := { reset with baudCnt := 0, bitCnt := 0 }

/-- A clock under reset moves the registers that have no reset. -/
def resetEdge : State :=
  { edge c s rxd with rxFsmQ := .idle, rxRdy := false, rxErr := false, rxData := 0#32 }

/-- The registers after `n` clocks under reset with this level on the line. -/
def released : ℕ → State
  | 0 => powerOn
  | n + 1 => resetEdge c (released n) rxd

variable {c s rxd}

theorem rxFsmQ_released (n : ℕ) : (released c rxd n).rxFsmQ = .idle := by cases n <;> rfl

theorem quiet_released (n : ℕ) : (released c rxd n).rxRdy = false ∧ (released c rxd n).rxErr = false ∧
    (released c rxd n).rxData = 0#32 := by
  cases n <;> exact ⟨rfl, rfl, rfl⟩

/-- On a high line the counters are restarted. -/
theorem released_high (n : ℕ) : released c true (n + 1) = reset := by
  have hcomb : comb c (released c true n) true = { stay (released c true n) with baudRst := true } := by
    rw [comb, rxFsmQ_released]
    rfl
  rw [released, resetEdge, edge, hcomb]
  rfl

end UartModel
