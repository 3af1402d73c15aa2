import ZrSoc.PeripAccesses
import ZrSoc.TbVerilator
import ZrSoc.UartDriver
import ZrSoc.UartModelResync

/-!
# The text of the simulation

What software writes to the UART is the message that the system thread prints.  After reset pin 17 is low, which the
receiver of the testbench takes for a frame and reports as an error; when the pin is given to the UART it recovers.
From then on it reports the bytes that the transmitter sends (`printed_eq`), and with a driver that polls these are all
the bytes that are written (`prints`).
-/

open Sync UartFrame

namespace Console

open TbVerilator

/-- The software prepares the console.  Pin 17 is low until cycle `g` and belongs to the UART from then on, and from
cycle `c` on the transmitter is enabled with the bit time of the testbench. -/
structure Prepared (r : PowerOn) (cfg : UartModel.Config) (i : ℕ → Input) (div : BitVec 16) (nstop : Bool)
    (g c : ℕ) : Prop where
  baud : cfg.baud = div.toNat + 1
  even : cfg.baud % 2 = 0
  bits : cfg.bits = 8
  stops : cfg.stops = 1
  late : 9 * cfg.baud < g
  low : ∀ n < g, Gpio.Low (run r cfg i n).perips.gpio 17
  routed : ∀ n, g ≤ n → Gpio.Routed (run r cfg i n).perips.gpio 17
  settled : g + cfg.baud ≤ c
  uart : UartTransmit.Configured r.uartTx r.uartRx (uartInput r cfg i) div nstop c

section

variable (r : PowerOn) (cfg : UartModel.Config) (i : ℕ → Input) (nstop : Bool)

/-- What the transmitter has sent before cycle `n`. -/
abbrev heard (n : ℕ) : Heard := UartTransmit.heard r.uartTx r.uartRx (uartInput r cfg i) nstop n

abbrev written (n : ℕ) : Option (BitVec 8) := UartTransmit.written r.uartTx r.uartRx (uartInput r cfg i) n

abbrev pushed (n : ℕ) : Option (BitVec 8) := UartTransmit.pushed r.uartTx r.uartRx (uartInput r cfg i) n

end

/-- The cycle in which the receiver reports the low line after reset.  The counter has already counted under reset, and
restarts after half a bit time. -/
def errorTime (r : PowerOn) (cfg : UartModel.Config) : ℕ := 9 * cfg.baud + 1 - (r.resetClocks - 1) % cfg.half

/-- The clocks from the beginning of a frame to its report. -/
def delay (cfg : UartModel.Config) : ℕ := cfg.half + 9 * cfg.baud

variable {r : PowerOn} {cfg : UartModel.Config} {i : ℕ → Input} {div : BitVec 16} {nstop : Bool} {g c n : ℕ}

/-! ### The line -/

theorem line_low (hp : Prepared r cfg i div nstop g c) (hn : n < g) : line r cfg i n = false :=
  (hp.low n hn).pinsOval (by decide)

/-- Pin 17 is the output of the transmitter. -/
theorem line_of_routed (h : Gpio.Routed (run r cfg i n).perips.gpio 17) :
    line r cfg i n = Uart.txd (run r cfg i n).perips.uart0 := by
  have hiof : ∀ b, (SubsysPerips.gpioIof0 b).oval.getLsbD 17 = b := by decide
  have hvalid : ∀ b, (SubsysPerips.gpioIof0 b).valid.getLsbD 17 = true := by decide
  calc line r cfg i n
    _ = (iof0 (run r cfg i n).perips).oval.getLsbD 17 := h.pinsOval (by decide) (hvalid _)
    _ = Uart.txd (run r cfg i n).perips.uart0 := hiof _

theorem line_txd (hp : Prepared r cfg i div nstop g c) (hn : g ≤ n) :
    line r cfg i n = past div.toNat 0 (heard r cfg i nstop n) := by
  rw [line_of_routed (hp.routed n hn), uart0_run, UartTransmit.txd_eq hp.uart]

theorem heard_none (hp : Prepared r cfg i div nstop g c) (hn : n ≤ c) : heard r cfg i nstop n = none :=
  ((UartTransmit.tracks hp.uart n).before hn).2

theorem follows (hp : Prepared r cfg i div nstop g c) (n : ℕ) :
    Follows div.toNat (heard r cfg i nstop n) (heard r cfg i nstop (n + 1)) := UartTransmit.follows hp.uart n

theorem two_le_baud (hp : Prepared r cfg i div nstop g c) : 2 ≤ cfg.baud := by
  have hb := hp.baud
  have he := hp.even
  omega

/-- The frames of the testbench receiver are those of the transmitter. -/
theorem getD_frameBits (hp : Prepared r cfg i div nstop g c) (b : BitVec 8) {k : ℕ} (hk : k < 10) :
    (UartModel.frameBits cfg (b.setWidth cfg.bits)).getD k true = frameBit b k := by
  rcases Nat.eq_zero_or_pos k with rfl | hpos
  · rfl
  · obtain ⟨j, rfl⟩ : ∃ j, k = j + 1 := ⟨k - 1, by omega⟩
    rcases Nat.lt_or_ge j 8 with hj | hj
    · rw [UartModel.frameBits_data (by rw [hp.bits]; exact hj), frameBit_succ hj, BitVec.getLsbD_setWidth, hp.bits,
        decide_eq_true hj, Bool.true_and]
    · rw [UartModel.frameBits_stop (by rw [hp.bits]; omega), frameBit_stop (by omega)]

/-- The frames that begin from cycle `g + cfg.baud` on. -/
def sent (r : PowerOn) (cfg : UartModel.Config) (i : ℕ → Input) (nstop : Bool) (g n : ℕ) :
    Option (BitVec cfg.bits) :=
  (begins (heard r cfg i nstop (g + cfg.baud + n))).map fun b => b.setWidth cfg.bits

theorem carries (hp : Prepared r cfg i div nstop g c) :
    SerialLine.Carries cfg.baud (fun n => (sent r cfg i nstop g n).map (UartModel.frameBits cfg))
      fun n => line r cfg i (g + cfg.baud + n) := by
  have hlen : ∀ b : BitVec 8, (UartModel.frameBits cfg (b.setWidth cfg.bits)).length = 10 := by
    intro b
    rw [UartModel.length_frameBits, hp.bits, hp.stops]
  have hline : (fun n => line r cfg i (g + cfg.baud + n)) =
      fun n => past div.toNat 0 (heard r cfg i nstop (g + cfg.baud + n)) := by
    funext n
    exact line_txd hp (by omega)
  have hsent : (fun n => (sent r cfg i nstop g n).map (UartModel.frameBits cfg)) = fun n =>
      (begins (heard r cfg i nstop (g + cfg.baud + n))).map fun b => UartModel.frameBits cfg (b.setWidth cfg.bits) := by
    funext n
    rw [sent, Option.map_map]
    rfl
  rw [hline, hsent, hp.baud]
  exact carries_begins (h := fun n => heard r cfg i nstop (g + (div.toNat + 1) + n)) (fun n => follows hp _)
    (heard_none hp (by rw [← hp.baud]; exact hp.settled)) hlen fun b k hk => getD_frameBits hp b hk

/-! ### The receiver -/

/-- The run of the receiver of the testbench. -/
abbrev deviceRun (r : PowerOn) (cfg : UartModel.Config) (i : ℕ → Input) (n : ℕ) : UartModel.State :=
  UartModel.runFrom cfg (UartModel.released cfg false r.resetClocks) (line r cfg i) n

theorem agrees (hp : Prepared r cfg i div nstop g c) :
    UartModel.Agrees (deviceRun r cfg i (g + cfg.baud)) UartModel.reset ∧
      ∀ t ≤ g + cfg.baud, UartModel.report (deviceRun r cfg i t) =
        if t = errorTime r cfg then some ⟨0#32, true⟩ else none := by
  have hhalf : 2 * cfg.half = cfg.baud := by
    have he := hp.even
    unfold UartModel.Config.half
    omega
  have hfirst : 2 * cfg.half + cfg.bits * cfg.baud = 9 * cfg.baud := by
    rw [hhalf, hp.bits]
    omega
  have hhigh : ∀ t, g ≤ t → t < g + cfg.stops * cfg.baud → line r cfg i t = true := by
    intro t h1 h2
    have hs := hp.settled
    rw [hp.stops, Nat.one_mul] at h2
    rw [line_txd hp h1, heard_none hp (by omega)]
    rfl
  have hlate := hp.late
  have hstart := UartModel.released_start (n := r.resetClocks - 1) (two_le_baud hp) (by rw [hp.bits]; decide)
    (fun t ht => line_low hp ht) (by omega) (Nat.le_of_eq hp.stops.symm) hhigh
  rw [hfirst, hp.stops, Nat.one_mul, Nat.sub_add_cancel r.clocked] at hstart
  refine ⟨hstart.1, fun t ht => ?_⟩
  have hahead : (r.resetClocks - 1) % cfg.half < cfg.half := Nat.mod_lt _ (by have := two_le_baud hp; omega)
  have hiff : (r.resetClocks - 1) % cfg.half + t = 9 * cfg.baud + 1 ↔ t = errorTime r cfg := by
    unfold errorTime
    omega
  rw [hstart.2 t ht]
  simp only [hiff]

theorem delay_lt (hp : Prepared r cfg i div nstop g c) : delay cfg < 10 * (div.toNat + 1) := by
  have hb := two_le_baud hp
  have hlt : cfg.half < cfg.baud := Nat.div_lt_self (by omega) (by omega)
  rw [← hp.baud, delay]
  omega

theorem setWidth_bits (hp : Prepared r cfg i div nstop g c) (b : BitVec 8) :
    (b.setWidth cfg.bits).setWidth 32 = b.setWidth 32 := by
  apply BitVec.eq_of_toNat_eq
  rw [BitVec.toNat_setWidth, BitVec.toNat_setWidth, BitVec.toNat_setWidth, hp.bits, Nat.mod_eq_of_lt b.isLt]

/-- A byte is reported when its frame has been on the line for `delay cfg` clocks. -/
theorem report_eq (hp : Prepared r cfg i div nstop g c) (n : ℕ) :
    UartModel.report (deviceRun r cfg i (g + cfg.baud + n)) =
      (shown (delay cfg) (heard r cfg i nstop (g + cfg.baud + n))).map fun b => ⟨b.setWidth 32, false⟩ := by
  have hB := two_le_baud hp
  have hgood : ∀ m x, sent r cfg i nstop g m = some x → UartModel.Receivable cfg x := fun m x _ =>
    ⟨by rw [hp.stops]; omega, Or.inl hp.even⟩
  have hbits : cfg.bits ≤ 32 := by rw [hp.bits]; decide
  have hstops : 1 ≤ cfg.stops := Nat.le_of_eq hp.stops.symm
  have htime : ∀ m, UartModel.reportTime cfg m = m + delay cfg := by
    intro m
    rw [UartModel.reportTime_eq hB, delay, hp.bits]
    omega
  rw [(UartModel.run_agrees (agrees hp).1 n).report_eq]
  cases hs : shown (delay cfg) (heard r cfg i nstop (g + cfg.baud + n)) with
  | none =>
    refine UartModel.report_of_not_sent hB hbits hstops (carries hp) hgood fun m x hm heq => ?_
    obtain ⟨b, hb, -⟩ := Option.map_eq_some_iff.1 hm
    rw [htime] at heq
    have hline := stays_on_line (h := fun k => heard r cfg i nstop (g + cfg.baud + k)) (fun k => follows hp _)
      (begins_iff.1 hb) (delay_lt hp)
    rw [← heq] at hline
    rw [shown_iff.2 hline] at hs
    cases hs
  | some b =>
    obtain ⟨hle, hb⟩ := began (h := fun k => heard r cfg i nstop (g + cfg.baud + k)) (fun k => follows hp _)
      (heard_none hp hp.settled) (shown_iff.1 hs)
    have hm : sent r cfg i nstop g (n - delay cfg) = some (b.setWidth cfg.bits) := by
      rw [sent, begins_iff.2 hb]
      rfl
    have hreport := UartModel.report_of_sent hB hbits hstops (carries hp) hgood hm
    rw [htime, Nat.sub_add_cancel hle] at hreport
    rw [hreport, setWidth_bits hp, Option.map_some]

theorem shown_none (hp : Prepared r cfg i div nstop g c) (hn : n ≤ g + cfg.baud) :
    shown (delay cfg) (heard r cfg i nstop n) = none := by
  have hs := hp.settled
  rw [heard_none hp (by omega)]
  rfl

theorem printed_eq_shown (hp : Prepared r cfg i div nstop g c) (n : ℕ) :
    printed r cfg i n = shown (delay cfg) (heard r cfg i nstop n) := by
  rw [printed, Simulation.printed, uartDev_run]
  rcases Nat.le_total n (g + cfg.baud) with hn | hn
  · rw [(agrees hp).2 n hn, shown_none hp hn]
    split <;> rfl
  · obtain ⟨k, rfl⟩ := Nat.exists_eq_add_of_le hn
    rw [report_eq hp]
    cases shown (delay cfg) (heard r cfg i nstop (g + cfg.baud + k)) <;> simp

theorem failed_iff (hp : Prepared r cfg i div nstop g c) (n : ℕ) :
    failed r cfg i n = true ↔ n = errorTime r cfg := by
  rw [failed, Simulation.failed, uartDev_run]
  have hlate := hp.late
  have htime : errorTime r cfg ≤ 9 * cfg.baud + 1 := Nat.sub_le _ _
  rcases Nat.le_total n (g + cfg.baud) with hn | hn
  · rw [(agrees hp).2 n hn]
    split
    next heq => simp [heq]
    next hne => simp [hne]
  · obtain ⟨k, rfl⟩ := Nat.exists_eq_add_of_le hn
    have hb := two_le_baud hp
    rw [report_eq hp]
    cases shown (delay cfg) (heard r cfg i nstop (g + cfg.baud + k)) with
    | none =>
      simp only [Option.map_none, Option.any_none, Bool.false_eq_true, false_iff]
      omega
    | some b =>
      simp only [Option.map_some, Option.any_some, Bool.false_eq_true, false_iff]
      omega

/-! ### The text -/

/-- What has entered the transmit queue is what has been printed and what is on the way. -/
theorem pushed_eq (hp : Prepared r cfg i div nstop g c) (n : ℕ) : log (pushed r cfg i) n =
    log (printed r cfg i) n ++
      UartTransmit.pending r.uartTx r.uartRx (uartInput r cfg i) (delay cfg) nstop n := by
  rw [log_congr fun m _ => printed_eq_shown hp m]
  exact UartTransmit.pushed_eq hp.uart (delay_lt hp) n

theorem exists_printed (hp : Prepared r cfg i div nstop g c) (n : ℕ) :
    ∃ m, log (pushed r cfg i) n <+: log (printed r cfg i) m := by
  refine exists_delivered (c := c) (pushed_eq hp) (fun n hn hne => ?_) n
  obtain ⟨m, hnm, hm⟩ := UartTransmit.exists_shown hp.uart (delay_lt hp) hn hne
  exact ⟨m, hnm, by rwa [printed_eq_shown hp]⟩

theorem count_failed (hp : Prepared r cfg i div nstop g c) (n : ℕ) :
    Nat.count (fun m => failed r cfg i m = true) n = if errorTime r cfg < n then 1 else 0 := by
  induction n with
  | zero => rfl
  | succ n ih =>
    rw [Nat.count_succ, ih]
    have hiff := failed_iff hp n
    by_cases hn : n = errorTime r cfg
    · rw [if_pos (hiff.2 hn), if_neg (by omega), if_pos (by omega)]
    · rw [if_neg fun h => hn (hiff.1 h)]
      split
      next hlt => rw [if_pos (by omega)]
      next hge => rw [if_neg (by omega)]

/-- With a driver that polls, the bytes that are printed are the first ones that are written. -/
theorem printed_of_polls (hp : Prepared r cfg i div nstop g c)
    (hpoll : UartTransmit.Polls r.uartTx r.uartRx (uartInput r cfg i)) (n : ℕ) :
    log (printed r cfg i) n <+: log (written r cfg i) n := by
  rw [← log_congr fun m _ => UartTransmit.pushed_of_polls hpoll m, pushed_eq hp]
  exact List.prefix_append _ _

/-- In the end each of them is printed. -/
theorem exists_printed_of_polls (hp : Prepared r cfg i div nstop g c)
    (hpoll : UartTransmit.Polls r.uartTx r.uartRx (uartInput r cfg i)) (k : ℕ) :
    ∃ m, log (written r cfg i) k <+: log (printed r cfg i) m := by
  rw [← log_congr fun m _ => UartTransmit.pushed_of_polls hpoll m]
  exact exists_printed hp k

/-- With a driver that polls, the thread prints the bytes that are written, in order; it counts one error, the low line
after reset. -/
theorem prints {lim : Option (BitVec 64)} {j : ℕ → SimInput}
    (hp : Prepared r cfg (fun m => (j m).tb) div nstop g c)
    (hpoll : UartTransmit.Polls r.uartTx r.uartRx (uartInput r cfg fun m => (j m).tb)) :
    (∀ n, (simRun lim r cfg j n).thread.uartRxStr <+: log (written r cfg fun m => (j m).tb) (cycles lim r cfg j n)) ∧
      (∀ n, (simRun lim r cfg j n).thread.uartRxErrs = if errorTime r cfg < cycles lim r cfg j n then 1 else 0) ∧
      ∀ k, ∃ N, ∀ n, N ≤ cycles lim r cfg j n →
        log (written r cfg fun m => (j m).tb) k <+: (simRun lim r cfg j n).thread.uartRxStr := by
  refine ⟨Simulation.str_of_log (printed_of_polls hp hpoll), fun n => ?_, fun k =>
    Simulation.exists_str (exists_printed_of_polls hp hpoll k)⟩
  rw [(Simulation.collected n).errs]
  exact count_failed hp _

/-! ### A run -/

/-- The pins are given to the UART, the divider is set to 17, the transmitter and the receiver are enabled, and after a
poll a byte is sent. -/
def hello (n : ℕ) : Input :=
  if n = 200 then access true .gpio false 0x10012038#32 0x30000#32
  else if n = 210 then access true .uart0 false 0x10013018#32 17#32
  else if n = 230 then access true .uart0 false 0x10013008#32 1#32
  else if n = 240 then access true .uart0 false 0x1001300c#32 1#32
  else if n = 250 then access true .uart0 true 0x10013000#32 0#32
  else if n = 253 then access true .uart0 false 0x10013000#32 0x48#32
  else access false .gpio true 0#32 0#32

def helloConfig : UartModel.Config where
  ctrlBaudClks := 18
  ctrlBits := 8
  ctrlStops := 1

abbrev helloRun (n : ℕ) : State := run zeroPowerOn helloConfig hello n

/-- The registers of the UART before cycle `n`. -/
def helloRegs (n : ℕ) : Uart.Regs where
  div := if n ≤ 210 then 0x21e#16 else 17#16
  txen := decide (230 < n)
  rxen := decide (240 < n)
  txwm := 0#4
  rxwm := 0#4
  nstop := false
  ieRxwm := false
  ieTxwm := false

/-- Between the accesses the inputs are quiet. -/
theorem hello_quiet {n : ℕ} (hn : n ∉ [200, 210, 230, 240, 250, 253]) :
    hello n = access false .gpio true 0#32 0#32 := by
  simp only [List.mem_cons, List.not_mem_nil, or_false, not_or] at hn
  simp only [hello, hn, if_false]

theorem helloRegs_quiet {n : ℕ} (hn : n ∉ [200, 210, 230, 240, 250, 253]) : helloRegs (n + 1) = helloRegs n := by
  simp only [List.mem_cons, List.not_mem_nil, or_false, not_or] at hn
  have h1 : n + 1 ≤ 210 ↔ n ≤ 210 := by omega
  have h2 : 230 < n + 1 ↔ 230 < n := by omega
  have h3 : 240 < n + 1 ↔ 240 < n := by omega
  simp only [helloRegs, h1, h2, h3]

theorem edgeRegs_hello (n : ℕ) (s : Uart.State) (hs : s.regs = helloRegs n) (rxd : Bool) :
    Uart.edgeRegs s ⟨((hello n).slot .uart0).port, rxd⟩ = helloRegs (n + 1) := by
  by_cases hn : n ∈ [200, 210, 230, 240, 250, 253]
  · unfold Uart.edgeRegs Uart.word
    rw [hs]
    fin_cases hn <;> cases rxd <;> decide +kernel
  · rw [hello_quiet hn, helloRegs_quiet hn, ← hs]
    exact Uart.edgeRegs_quiet (x := ⟨(access true .gpio true 0#32 0#32).slot .uart0 |>.port, rxd⟩)

theorem regs_hello (n : ℕ) : (helloRun n).perips.uart0.regs = helloRegs n := by
  induction n with
  | zero => rfl
  | succ n ih => exact edgeRegs_hello n _ ih _

theorem puts_gpio_hello (n : ℕ) : RegisterPort.puts ((hello n).slot .gpio).port = decide (n = 200) := by
  by_cases hn : n ∈ [200, 210, 230, 240, 250, 253]
  · fin_cases hn <;> decide +kernel
  · rw [hello_quiet hn]
    simp only [List.mem_cons, List.not_mem_nil, or_false, not_or] at hn
    rw [decide_eq_false hn.1]
    rfl

/-- Of the registers of the GPIO block only `iofEnReg` is written. -/
theorem stored_hello (n : ℕ) (k : BitVec 5) : Gpio.stored (helloRun n).perips.gpio k =
    (Gpio.stored Gpio.reset k).map fun v => if 200 < n ∧ k = 14#5 then 0x30000#32 else v := by
  induction n with
  | zero => simp only [Nat.not_lt_zero, false_and, if_false, Option.map_id']; rfl
  | succ n ih =>
    have hedge := Gpio.stored_edge (s := (helloRun n).perips.gpio) (k := k)
      (x := PeripSlots.gpioInput (peripsInput (helloRun n).perips (hello n))) rfl
    have hrun : (helloRun (n + 1)).perips.gpio = Gpio.edge (helloRun n).perips.gpio
      (PeripSlots.gpioInput (peripsInput (helloRun n).perips (hello n))) := rfl
    have hport : (PeripSlots.gpioInput (peripsInput (helloRun n).perips (hello n))).port =
      ((hello n).slot .gpio).port := rfl
    rw [hrun, hedge, ih, Option.map_map, hport, puts_gpio_hello, Gpio.word, hport]
    congr 1
    funext v
    by_cases hn : n = 200
    · subst hn
      have hword : ((hello 200).slot .gpio).port.aAddress.extractLsb' 2 5 = 14#5 := by decide
      have hdata : ((hello 200).slot .gpio).port.aData = 0x30000#32 := by decide
      rw [Function.comp_apply, hword, hdata]
      by_cases hk : k = 14#5
      · simp [hk]
      · simp [hk, Ne.symm hk]
    · have h1 : 200 < n + 1 ↔ 200 < n := by omega
      simp [hn, h1]

theorem gpio_hello (n : ℕ) : (helloRun n).perips.gpio.iofEnReg = (if 200 < n then 0x30000#32 else 0#32) ∧
    (helloRun n).perips.gpio.iofSelReg = 0#32 ∧ (helloRun n).perips.gpio.xorReg = 0#32 ∧
    (helloRun n).perips.gpio.portReg = 0#32 ∧ (helloRun n).perips.gpio.dsReg = 0#32 := by
  have hen := stored_hello n 14#5
  have hsel := stored_hello n 15#5
  have hxor := stored_hello n 16#5
  have hport := stored_hello n 3#5
  have hds := stored_hello n 5#5
  simp only [and_true, show (15#5 : BitVec 5) ≠ 14#5 by decide, show (16#5 : BitVec 5) ≠ 14#5 by decide,
    show (3#5 : BitVec 5) ≠ 14#5 by decide, show (5#5 : BitVec 5) ≠ 14#5 by decide, and_false, if_false]
    at hen hsel hxor hport hds
  exact ⟨Option.some.inj hen, Option.some.inj hsel, Option.some.inj hxor, Option.some.inj hport, Option.some.inj hds⟩

theorem written_hello (n : ℕ) :
    written zeroPowerOn helloConfig hello n = if n = 253 then some 0x48#8 else none := by
  have hport : (uartInput zeroPowerOn helloConfig hello n).port = ((hello n).slot .uart0).port := rfl
  unfold written UartTransmit.written Uart.written Uart.txqInput Uart.word
  rw [hport]
  by_cases hn : n ∈ [200, 210, 230, 240, 250, 253]
  · fin_cases hn <;> decide +kernel
  · rw [hello_quiet hn]
    simp only [List.mem_cons, List.not_mem_nil, or_false, not_or] at hn
    rw [if_neg hn.2.2.2.2.2]
    rfl

/-- Until the byte is sent, the transmit queue is empty. -/
theorem txq_hello (n : ℕ) (hn : n ≤ 253) : (Queue1.count (UartTransmit.run zeroPowerOn.uartTx
    zeroPowerOn.uartRx (uartInput zeroPowerOn helloConfig hello) n).txq).toNat = 0 := by
  induction n with
  | zero => decide
  | succ n ih =>
    have hnone : written zeroPowerOn helloConfig hello n = none := by
      rw [written_hello, if_neg (by omega)]
    have hcount := UartTransmit.count_of_unwritten hnone
    have := ih (by omega)
    omega

theorem prepared_hello : Prepared zeroPowerOn helloConfig hello 17#16 false 201 231 where
  baud := by decide
  even := by decide
  bits := by decide
  stops := by decide
  late := by decide
  low n hn := by
    obtain ⟨hen, -, hxor, hport, -⟩ := gpio_hello n
    exact ⟨by rw [hen, if_neg (by omega)]; rfl, by rw [hport]; rfl, by rw [hxor]; rfl⟩
  routed n hn := by
    obtain ⟨hen, hsel, hxor, -, -⟩ := gpio_hello n
    exact ⟨by rw [hen, if_pos (by omega)]; decide, by rw [hsel]; rfl, by rw [hxor]; rfl⟩
  settled := by decide
  uart := by
    have hregs : ∀ n, (UartTransmit.run zeroPowerOn.uartTx zeroPowerOn.uartRx
        (uartInput zeroPowerOn helloConfig hello) n).regs = helloRegs n := by
      intro n
      rw [← regs_hello, uart0_run]
    refine ⟨fun n hn => ?_, fun n hn => ?_, fun n hn => ?_, fun n hn => ?_⟩
    · have hen := congrArg Uart.Regs.txen (hregs n)
      have hoff : (helloRegs n).txen = false := decide_eq_false (by omega)
      rw [UartTransmit.started, UartTx.started, UartTx.start, UartTx.inReady, Uart.txmInput]
      simp [hen, hoff]
    · rw [hregs, helloRegs, if_neg (by omega)]
    · rw [hregs]
      rfl
    · rw [hregs]
      exact decide_eq_true (by omega)

/-- The load finds the transmit queue empty. -/
theorem polled_hello : Uart.polled (UartTransmit.run zeroPowerOn.uartTx zeroPowerOn.uartRx
    (uartInput zeroPowerOn helloConfig hello) 250) (uartInput zeroPowerOn helloConfig hello 250) =
      true := by
  have hport : (uartInput zeroPowerOn helloConfig hello 250).port = ((hello 250).slot .uart0).port := rfl
  refine Uart.polled_iff.2 ⟨?_, ?_, ?_, ?_⟩
  · rw [hport]
    decide +kernel
  · exact congrArg (fun p : RegisterPort.Input => p.aAddress.extractLsb' 5 7) hport
  · rfl
  · rw [Queue1.enqReady_iff, txq_hello 250 (by omega)]
    decide

theorem polls_hello : UartTransmit.Polls zeroPowerOn.uartTx zeroPowerOn.uartRx
    (uartInput zeroPowerOn helloConfig hello) := by
  intro n hn
  change (written zeroPowerOn helloConfig hello n).isSome = true at hn
  have hwrite := written_hello n
  obtain rfl : n = 253 := by
    by_contra hne
    rw [if_neg hne] at hwrite
    rw [hwrite] at hn
    cases hn
  exact ⟨250, by omega, polled_hello, fun k _ hk => (written_hello k).trans (if_neg (by omega))⟩

theorem prints_hello :
    (∀ n, (simRun none zeroPowerOn helloConfig (fun m => ⟨false, hello m⟩) n).thread.uartRxStr <+:
      log (written zeroPowerOn helloConfig hello)
        (cycles none zeroPowerOn helloConfig (fun m => ⟨false, hello m⟩) n)) ∧
      (∀ n, (simRun none zeroPowerOn helloConfig (fun m => ⟨false, hello m⟩) n).thread.uartRxErrs =
        if errorTime zeroPowerOn helloConfig < cycles none zeroPowerOn helloConfig (fun m => ⟨false, hello m⟩) n then 1
        else 0) ∧
      ∀ k, ∃ N, ∀ n, N ≤ cycles none zeroPowerOn helloConfig (fun m => ⟨false, hello m⟩) n →
        log (written zeroPowerOn helloConfig hello) k <+:
          (simRun none zeroPowerOn helloConfig (fun m => ⟨false, hello m⟩) n).thread.uartRxStr :=
  prints prepared_hello polls_hello

end Console
