import ZrSoc.GpioPins
import ZrSoc.PeripSlots
import ZrSoc.Simulation
import ZrSoc.Sync.Log
import ZrSoc.UartModelResync

/-!
# The peripherals in the testbench (`verilator/tb_verilator.sv`, `verilator/sim.cpp`)

The peripheral blocks with their pins as `zr_soc` and the testbench connect them: pin 17 is the line of the testbench
receiver and comes back on pin 16.  The system thread clocks the testbench and collects what the receiver reports
(`collected`).
-/

open Sync

namespace Simulation

variable (lim : Option (BitVec 64)) {s : State} {x : Input}

/-- Once it does not clock the testbench any more, the thread collects nothing and is done. -/
theorem pass_of_not_clocks (h : clocks s x = false) : (pass lim s x).uartRxStr = s.uartRxStr ∧
    (pass lim s x).uartRxErrs = s.uartRxErrs ∧ (pass lim s x).done = true := by
  cases hd : s.done with
  | true =>
    rw [pass, if_pos hd]
    exact ⟨rfl, rfl, hd⟩
  | false =>
    have hf : x.gotFinish = true := by simpa [clocks, hd] using h
    rw [pass, if_neg (by simp [hd]), if_pos hf]
    exact ⟨rfl, rfl, rfl⟩

theorem pass_of_clocks (h : clocks s x = true) : s.done = false ∧
    (pass lim s x).uartRxStr = s.uartRxStr ++ (if x.uartRxRdy && !x.uartRxErr then [x.uartRxData] else []) ∧
    (pass lim s x).uartRxErrs = s.uartRxErrs + if x.uartRxRdy && x.uartRxErr then 1 else 0 := by
  rw [clocks, Bool.and_eq_true, Bool.not_eq_true', Bool.not_eq_true'] at h
  rw [pass, if_neg (by simp [h.1]), if_neg (by simp [h.2])]
  refine ⟨h.1, ?_, ?_⟩
  · cases x.uartRxRdy && !x.uartRxErr <;> simp
  · cases x.uartRxRdy && x.uartRxErr <;> simp

/-! ### The testbench that it clocks -/

/-- The system thread and the testbench. -/
structure Clocked (σ : Type*) where
  thread : State
  tb : σ

/-- `Verilated::gotFinish()` and the inputs of the testbench for the clock cycle of a pass. -/
structure ClockedInput (ι : Type*) where
  gotFinish : Bool
  tb : ι

/-- What the thread prints of a report. -/
def printed (d : UartModel.State) : Option (BitVec 8) :=
  (UartModel.report d).bind fun p => if p.err then none else some (p.data.setWidth 8)

def failed (d : UartModel.State) : Bool := (UartModel.report d).any UartModel.Report.err

section

variable {σ ι : Type*} (M : Machine σ ι) (dev : σ → UartModel.State) (j : ℕ → ClockedInput ι)

/-- What the thread finds in the testbench. -/
def found (s : Clocked σ) (x : ClockedInput ι) : Input where
  gotFinish := x.gotFinish
  uartRxRdy := (dev s.tb).rxRdy
  uartRxErr := (dev s.tb).rxErr
  uartRxData := (dev s.tb).rxData.setWidth 8

def clockedMachine : Machine (Clocked σ) (ClockedInput ι) where
  reset := { thread := afterReset, tb := M.reset }
  edge s x :=
    { thread := pass lim s.thread (found dev s x)
      tb := if clocks s.thread (found dev s x) then M.edge s.tb x.tb else s.tb }

abbrev clockedRun (n : ℕ) : Clocked σ := (clockedMachine lim M dev).run j n

/-- The number of clock cycles before pass `n`. -/
def clockedCycles (n : ℕ) : ℕ := cycles lim (fun m => found dev (clockedRun lim M dev j m) (j m)) n

theorem clockedCycles_succ (n : ℕ) : clockedCycles lim M dev j (n + 1) = clockedCycles lim M dev j n +
    (clocks (clockedRun lim M dev j n).thread (found dev (clockedRun lim M dev j n) (j n))).toNat := by
  have hthread : (clockedRun lim M dev j n).thread =
      (machine lim).run (fun m => found dev (clockedRun lim M dev j m) (j m)) n :=
    Machine.run_part (clockedMachine lim M dev) Clocked.thread (found dev) rfl (fun _ _ => rfl) j n
  rw [clockedCycles, cycles_succ, hthread]
  rfl

/-- The thread has clocked the testbench in every pass until it is done, and has collected the reports of the cycles
before. -/
structure Collected (n : ℕ) : Prop where
  tb : (clockedRun lim M dev j n).tb = M.run (fun m => (j m).tb) (clockedCycles lim M dev j n)
  cycles_eq : (clockedRun lim M dev j n).thread.done = false → clockedCycles lim M dev j n = n
  str : (clockedRun lim M dev j n).thread.uartRxStr =
    log (fun m => printed (dev (M.run (fun k => (j k).tb) m))) (clockedCycles lim M dev j n)
  errs : (clockedRun lim M dev j n).thread.uartRxErrs =
    Nat.count (fun m => failed (dev (M.run (fun k => (j k).tb) m)) = true) (clockedCycles lim M dev j n)

theorem toList_printed (d : UartModel.State) :
    (printed d).toList = if d.rxRdy && !d.rxErr then [d.rxData.setWidth 8] else ([] : List (BitVec 8)) := by
  cases h : d.rxRdy <;> cases h' : d.rxErr <;> simp [printed, UartModel.report, h, h']

theorem failed_eq (d : UartModel.State) : failed d = (d.rxRdy && d.rxErr) := by
  cases h : d.rxRdy <;> simp [failed, UartModel.report, h]

variable {lim M dev j}

theorem Collected.succ {n : ℕ} (h : Collected lim M dev j n) : Collected lim M dev j (n + 1) := by
  have hcyc := clockedCycles_succ lim M dev j n
  have hthread : (clockedRun lim M dev j (n + 1)).thread =
      pass lim (clockedRun lim M dev j n).thread (found dev (clockedRun lim M dev j n) (j n)) := rfl
  have htb : (clockedRun lim M dev j (n + 1)).tb =
      if clocks (clockedRun lim M dev j n).thread (found dev (clockedRun lim M dev j n) (j n)) then
        M.edge (clockedRun lim M dev j n).tb (j n).tb else (clockedRun lim M dev j n).tb := rfl
  have hstr := h.str
  have herrs := h.errs
  have hrun := h.tb
  cases hclk : clocks (clockedRun lim M dev j n).thread (found dev (clockedRun lim M dev j n) (j n)) with
  | false =>
    obtain ⟨hs, he, hd⟩ := pass_of_not_clocks lim hclk
    rw [hclk] at hcyc
    rw [hclk, if_neg Bool.false_ne_true] at htb
    rw [← hthread] at hs he hd
    change clockedCycles lim M dev j (n + 1) = clockedCycles lim M dev j n at hcyc
    refine ⟨by rw [htb, hcyc, hrun], fun hnd => ?_, by rw [hs, hcyc, hstr], by rw [he, hcyc, herrs]⟩
    rw [hd] at hnd
    cases hnd
  | true =>
    obtain ⟨hd, hs, he⟩ := pass_of_clocks lim hclk
    rw [hclk, Bool.toNat_true, h.cycles_eq hd] at hcyc
    rw [hclk, if_pos rfl] at htb
    rw [h.cycles_eq hd] at hstr herrs hrun
    rw [← hthread] at hs he
    refine ⟨by rw [htb, hcyc, hrun]; rfl, fun _ => hcyc, ?_, ?_⟩
    · rw [hs, hcyc, log_succ, ← hstr, ← hrun, toList_printed]
      rfl
    · rw [he, hcyc, Nat.count_succ, ← herrs, ← hrun, failed_eq]
      rfl

theorem collected (n : ℕ) : Collected lim M dev j n := by
  induction n with
  | zero => exact ⟨rfl, fun _ => rfl, rfl, rfl⟩
  | succ n ih => exact ih.succ

/-- The text follows a log that the reports follow. -/
theorem str_of_log {w : ℕ → Option (BitVec 8)}
    (h : ∀ n, log (fun m => printed (dev (M.run (fun k => (j k).tb) m))) n <+: log w n) (n : ℕ) :
    (clockedRun lim M dev j n).thread.uartRxStr <+: log w (clockedCycles lim M dev j n) := by
  rw [(collected n).str]
  exact h _

theorem exists_str {w : ℕ → Option (BitVec 8)} {k : ℕ}
    (h : ∃ m, log w k <+: log (fun m => printed (dev (M.run (fun k => (j k).tb) m))) m) :
    ∃ N, ∀ n, N ≤ clockedCycles lim M dev j n → log w k <+: (clockedRun lim M dev j n).thread.uartRxStr := by
  obtain ⟨N, hN⟩ := h
  refine ⟨N, fun n hn => ?_⟩
  rw [(collected n).str]
  exact hN.trans (log_mono _ hn)

end

end Simulation

namespace TbVerilator

open PeripSlots (Block Rams)

structure State where
  perips : PeripSlots.State
  uartDev : UartModel.State

/-- What the reset does not determine: the memories of the blocks, and how many clocks the receiver of the testbench
gets under reset. -/
structure PowerOn extends Rams where
  resetClocks : ℕ
  clocked : 0 < resetClocks

/-- The commands of the slots and the ports of the QSPI block, which the rest of the system drives. -/
structure Input where
  slot : Block → RegisterPort.Slot
  aValid : Bool
  aBits : TileLink.A 7 1 8
  dReady : Bool
  dqI : BitVec 4

def idleSlot : RegisterPort.Slot where
  cmdValid := false
  cmd :=
    { read := false, addr := 0#32, wdata := 0#32, wmask := 0#4, lock := false, excl := false, size := 0#2
      burst := 0#2, beat := 0#2 }
  rspReady := false

/-- An access to one of the blocks. -/
def access (valid : Bool) (b : Block) (read : Bool) (addr wdata : BitVec 32) : Input where
  slot k :=
    if valid && k == b then
      { cmdValid := true
        cmd :=
          { read := read, addr := addr, wdata := wdata, wmask := 15#4, lock := false, excl := false, size := 0#2
            burst := 0#2, beat := 0#2 }
        rspReady := true }
    else idleSlot
  aValid := false
  aBits :=
    { opcode := 4#3, param := 0#3, size := 0#3, source := 0#7, address := 0#30, mask := 1#1, data := 0#8 }
  dReady := true
  dqI := 0#4

section

variable (s : PeripSlots.State)

/-- `gpio_iof_0_o` and `gpio_iof_1_o` -/
def iof0 : Gpio.Iof := SubsysPerips.gpioIof0 (Uart.txd s.uart0)

def iof1 : Gpio.Iof := SubsysPerips.gpioIof1 (Pwm8.gpio s.pwm0)

def ioGpioO : BitVec 32 := Gpio.pinsOval s.gpio (iof0 s) (iof1 s)

def uartTxd : Bool := (ioGpioO s).getLsbD 17

def ioGpioIDefault : BitVec 32 := BitVec.allOnes 15 ++ BitVec.ofBool (uartTxd s) ++ BitVec.allOnes 16

def ioGpioI : BitVec 32 := Gpio.mux (s.gpio.dsReg &&& ~~~s.gpio.pueReg) (ioGpioO s) (ioGpioIDefault s)

/-- `gpio_i` of `zr_soc`. -/
def gpioI : BitVec 32 := ioGpioI s &&& Gpio.pinsIe s.gpio (iof0 s) (iof1 s)

def peripsInput (x : Input) : PeripSlots.Input where
  slot := x.slot
  ival := gpioI s
  rxd := SubsysPerips.uart0Rxd s.gpio
  aValid := x.aValid
  aBits := x.aBits
  dReady := x.dReady
  dqI := x.dqI

end

/-- The registers when the reset ends.  Its clocks drive the counters of the receiver, which looks at pin 17. -/
def reset (r : PowerOn) (cfg : UartModel.Config) : State where
  perips := PeripSlots.reset r.toRams
  uartDev := UartModel.released cfg (uartTxd (PeripSlots.reset r.toRams)) r.resetClocks

def machine (r : PowerOn) (cfg : UartModel.Config) : Machine State Input where
  reset := reset r cfg
  edge s x :=
    { perips := PeripSlots.edge s.perips (peripsInput s.perips x)
      uartDev := UartModel.edge cfg s.uartDev (uartTxd s.perips) }

section

variable (r : PowerOn) (cfg : UartModel.Config) (i : ℕ → Input)

abbrev run (n : ℕ) : State := (machine r cfg).run i n

/-- The ports of `u_sirv_uart` in cycle `n`. -/
def uartInput (n : ℕ) : Uart.Input :=
  PeripSlots.uartInput (peripsInput (run r cfg i n).perips (i n))

/-- The line of the testbench receiver. -/
def line (n : ℕ) : Bool := uartTxd (run r cfg i n).perips

/-- What the thread prints in cycle `n`. -/
def printed (n : ℕ) : Option (BitVec 8) := Simulation.printed (run r cfg i n).uartDev

def failed (n : ℕ) : Bool := Simulation.failed (run r cfg i n).uartDev

theorem uart0_run (n : ℕ) :
    (run r cfg i n).perips.uart0 = (Uart.machine r.uartTx r.uartRx).run (uartInput r cfg i) n :=
  Machine.run_part (machine r cfg) (fun s => s.perips.uart0)
    (fun s x => PeripSlots.uartInput (peripsInput s.perips x)) rfl (fun _ _ => rfl) i n

/-- Pin 17 is low under reset. -/
theorem uartTxd_reset : uartTxd (PeripSlots.reset r.toRams) = false := by
  have hzero : (0#32).getLsbD 17 = false := by decide
  have hlow : Gpio.Low (PeripSlots.reset r.toRams).gpio 17 := ⟨hzero, hzero, hzero⟩
  exact hlow.pinsOval (by decide)

theorem uartDev_run (n : ℕ) : (run r cfg i n).uartDev =
    UartModel.runFrom cfg (UartModel.released cfg false r.resetClocks) (line r cfg i) n := by
  rw [← uartTxd_reset r]
  exact Machine.run_part (machine r cfg) State.uartDev (fun s _ => uartTxd s.perips) rfl (fun _ _ => rfl) i n

end

/-- Memories that hold nothing but zeros, and the ten clocks under reset of the system thread. -/
def zeroPowerOn : PowerOn := { PeripSlots.zeroRams with resetClocks := 10, clocked := by decide }

/-! ### The simulation -/

abbrev SimInput := Simulation.ClockedInput Input

section

variable (lim : Option (BitVec 64)) (r : PowerOn) (cfg : UartModel.Config) (i : ℕ → SimInput)

abbrev simRun (n : ℕ) : Simulation.Clocked State :=
  Simulation.clockedRun lim (machine r cfg) State.uartDev i n

abbrev cycles (n : ℕ) : ℕ := Simulation.clockedCycles lim (machine r cfg) State.uartDev i n

end

end TbVerilator
