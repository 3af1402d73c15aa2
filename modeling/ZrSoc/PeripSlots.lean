import ZrSoc.FlashQspi
import ZrSoc.Gpio
import ZrSoc.Pwm8
import ZrSoc.Uart

/-!
# The populated peripheral slots (`rtl/perips/e203_subsys_perips.sv`)

The slots `gpio`, `uart0`, `qspi0` and `pwm0` of the fabric with their blocks behind the tops.  The fabric hands a slot
the command of the data bus with its byte enables in `wmask`, and no top takes them; the blocks decode the low bits of
the address only.
-/

namespace PeripSlots

open Sync TileLink
open RegisterPort (Slot puts gets)

inductive Block
  | gpio
  | uart0
  | qspi0
  | pwm0
  deriving DecidableEq, Repr

structure State where
  gpio : Gpio.State
  uart0 : Uart.State
  qspi0 : FlashQspi.State
  pwm0 : Pwm8.State

/-- The commands of the slots, the pins and the flash port of the QSPI. -/
structure Input where
  slot : Block → Slot
  ival : BitVec 32
  rxd : Bool
  aValid : Bool
  aBits : A 7 1 8
  dReady : Bool
  dqI : BitVec 4

variable (s : State) (x : Input)

/-- The ports of `u_sirv_gpio`. -/
def gpioInput : Gpio.Input where
  port := (x.slot .gpio).port
  ival := x.ival

/-- The ports of `u_sirv_uart`. -/
def uartInput : Uart.Input where
  port := (x.slot .uart0).port
  rxd := x.rxd

/-- The ports of `u_sirv_flash_qspi`. -/
def qspiInput : FlashQspi.Input where
  port := (x.slot .qspi0).port
  aValid := x.aValid
  aBits := x.aBits
  dReady := x.dReady
  dqI := x.dqI

/-- The ports of `u_sirv_pwm8`. -/
def pwmInput : Pwm8.Input where
  port := (x.slot .pwm0).port

/-- The memories of the four queues, which are not reset. -/
structure Rams where
  uartTx : Vector (BitVec 8) 8
  uartRx : Vector (BitVec 8) 8
  qspiTx : Vector (BitVec 8) 8
  qspiRx : Vector (BitVec 8) 8

/-- Empty queues. -/
def zeroRams : Rams where
  uartTx := Vector.replicate 8 0#8
  uartRx := Vector.replicate 8 0#8
  qspiTx := Vector.replicate 8 0#8
  qspiRx := Vector.replicate 8 0#8

def reset (r : Rams) : State where
  gpio := Gpio.reset
  uart0 := Uart.reset r.uartTx r.uartRx
  qspi0 := FlashQspi.reset r.qspiTx r.qspiRx
  pwm0 := Pwm8.reset

def edge : State where
  gpio := Gpio.edge s.gpio (gpioInput x)
  uart0 := Uart.edge s.uart0 (uartInput x)
  qspi0 := FlashQspi.edge s.qspi0 (qspiInput x)
  pwm0 := Pwm8.edge s.pwm0 (pwmInput x)

def machine (r : Rams) : Machine State Input where
  reset := reset r
  edge := edge

/-- The same cycle without the command of slot `b`. -/
def withoutCmd (b : Block) : Input :=
  { x with slot := fun c => if c = b then { x.slot c with cmdValid := false } else x.slot c }

variable {s x} {b : Block} {be : BitVec 4}

theorem puts_port_iff {c : Slot} : puts c.port = true ↔ c.Accepts ∧ c.cmd.read = false := by
  cases h : c.cmd.read <;> simp [puts, RegisterPort.isGet, Slot.port, Slot.Accepts, h]

theorem gets_port_iff {c : Slot} : gets c.port = true ↔ c.Accepts ∧ c.cmd.read = true := by
  cases h : c.cmd.read <;> simp [gets, RegisterPort.isGet, Slot.port, Slot.Accepts, h]

/-- Two inputs that differ in one slot only have the same effect if and only if they have it on the block there. -/
theorem edge_withoutCmd_iff : edge s x = edge s (withoutCmd x b) ↔
    match b with
    | .gpio => Gpio.edge s.gpio (gpioInput x) = Gpio.edge s.gpio (Gpio.quiet (gpioInput x))
    | .uart0 => Uart.edge s.uart0 (uartInput x) = Uart.edge s.uart0 (Uart.quiet (uartInput x))
    | .qspi0 => FlashQspi.edge s.qspi0 (qspiInput x) = FlashQspi.edge s.qspi0 (FlashQspi.quiet (qspiInput x))
    | .pwm0 => Pwm8.edge s.pwm0 (pwmInput x) = Pwm8.edge s.pwm0 (Pwm8.quiet (pwmInput x)) := by
  rw [edge, edge, State.mk.injEq]
  cases b with
  | gpio => exact ⟨fun h => h.1, fun h => ⟨h, rfl, rfl, rfl⟩⟩
  | uart0 => exact ⟨fun h => h.2.1, fun h => ⟨rfl, h, rfl, rfl⟩⟩
  | qspi0 => exact ⟨fun h => h.2.2.1, fun h => ⟨rfl, rfl, h, rfl⟩⟩
  | pwm0 => exact ⟨fun h => h.2.2.2, fun h => ⟨rfl, rfl, rfl, h⟩⟩

end PeripSlots
