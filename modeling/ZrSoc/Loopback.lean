import ZrSoc.Console
import ZrSoc.UartReceive

/-!
# The way back from the pins

The testbench wires the output pin of the UART to its input pin.  The line comes back through the input register and the
two stages of the synchronizer of the GPIO block, so the receiver of the UART is three clocks behind the transmitter
(`tracks`).  A driver reads the bytes that it has written, but for those that find eight bytes unread
(`loops_back`).
-/

open Sync UartFrame

namespace UartRx

/-- The receiver has not been enabled yet. -/
structure Off (s : State) : Prop where
  idle : s.rxState = .idle
  quiet : s.pushRxFifo = false
  parityError : s.parityError = false
  framingError : s.framingError = false
  breakError : s.breakError = false

theorem Off.next {s : State} {x : Input} (h : Off s) (hen : x.en = false) : Off (edge s x) := by
  have hstart : rxStart s x = false := by simp [rxStart, hen]
  refine ⟨?_, ?_, ?_, ?_, ?_⟩ <;> simp [edge, h.idle, hstart, sample, h.parityError, h.framingError, h.breakError]

theorem Off.at_none {s : State} {d : ℕ} (h : Off s) (hf : ∀ k < 3, s.filter.getLsbD k = true) : At d none s where
  filter k hk := hf k hk
  quiet _ := ⟨h.idle, h.quiet⟩
  stage b e hs := by cases hs
  parityError := h.parityError
  framingError := h.framingError
  breakError := h.breakError

end UartRx

namespace Loopback

open TbVerilator
open Console (heard written)

/-- The software prepares the UART for its own bytes.  From cycle `g` on the two pins belong to it, and from cycle `c`
on the transmitter and the receiver are enabled, which they were not before. -/
structure Prepared (r : PowerOn) (cfg : UartModel.Config) (i : ℕ → Input) (div : BitVec 16) (nstop : Bool)
    (g c : ℕ) : Prop where
  div_ge : 16 ≤ div.toNat
  output : ∀ n, g ≤ n → Gpio.Routed (run r cfg i n).perips.gpio 17
  input : ∀ n, g ≤ n → Gpio.Routed (run r cfg i n).perips.gpio 16
  default : ∀ n, g ≤ n → (run r cfg i n).perips.gpio.dsReg.getLsbD 16 = false ∨
    (run r cfg i n).perips.gpio.pueReg.getLsbD 16 = true
  settled : g + 6 ≤ c
  uart : UartTransmit.Configured r.uartTx r.uartRx (uartInput r cfg i) div nstop c
  unreceived : ∀ n < c, (run r cfg i n).perips.uart0.regs.rxen = false
  rxen : ∀ n, c ≤ n → (run r cfg i n).perips.uart0.regs.rxen = true

section

variable (r : PowerOn) (cfg : UartModel.Config) (i : ℕ → Input)

/-- The byte that the receiver hands over in cycle `n`. -/
def received (n : ℕ) : Option (BitVec 8) := UartRx.received (run r cfg i n).perips.uart0.rxm

/-- The byte that a read of `rxdata` gives in cycle `n`. -/
def read (n : ℕ) : Option (BitVec 8) := Uart.read (run r cfg i n).perips.uart0 (uartInput r cfg i n)

/-- The bytes that have not been read. -/
def unread (n : ℕ) : List (BitVec 8) := Queue1.entries (run r cfg i n).perips.uart0.rxq

/-- The byte that is handed over, unless there are eight bytes unread. -/
def kept (n : ℕ) : Option (BitVec 8) := if (unread r cfg i n).length < 8 then received r cfg i n else none

end

variable {r : PowerOn} {cfg : UartModel.Config} {i : ℕ → Input} {div : BitVec 16} {nstop : Bool} {g c n : ℕ}

/-! ### From pin to pin -/

theorem line_eq (hp : Prepared r cfg i div nstop g c) (hn : g ≤ n) :
    line r cfg i n = past div.toNat 0 (heard r cfg i nstop n) := by
  rw [Console.line_of_routed (hp.output n hn), uart0_run, ← UartTransmit.txd_eq hp.uart]

/-- The line is on pin 16. -/
theorem gpioI_eq (hp : Prepared r cfg i div nstop g c) (hn : g ≤ n) :
    (gpioI (run r cfg i n).perips).getLsbD 16 = line r cfg i n := by
  have hiof : ∀ b, (SubsysPerips.gpioIof0 b).valid.getLsbD 16 = true ∧
    (SubsysPerips.gpioIof0 b).ie.getLsbD 16 = true := by decide
  have hdefault : ∀ b, (BitVec.allOnes 15 ++ BitVec.ofBool b ++ BitVec.allOnes 16).getLsbD 16 = b := by decide
  have hmux : ((run r cfg i n).perips.gpio.dsReg &&& ~~~(run r cfg i n).perips.gpio.pueReg).getLsbD 16 = false := by
    rw [BitVec.getLsbD_and, BitVec.getLsbD_not]
    rcases hp.default n hn with h | h
    · rw [h, Bool.false_and]
    · rw [h]
      simp
  have hie : (Gpio.pinsIe (run r cfg i n).perips.gpio (iof0 (run r cfg i n).perips)
      (iof1 (run r cfg i n).perips)).getLsbD 16 = true :=
    ((hp.input n hn).pinsIe (by decide) (hiof _).1).trans (hiof _).2
  rw [gpioI, BitVec.getLsbD_and, hie, Bool.and_true, ioGpioI, Gpio.getLsbD_mux (by decide), hmux,
    if_neg Bool.false_ne_true, ioGpioIDefault, hdefault]
  rfl

/-- The synchronizer. -/
theorem rxd_eq (n : ℕ) : (uartInput r cfg i (n + 3)).rxd = (gpioI (run r cfg i n).perips).getLsbD 16 := rfl

theorem rxd_line (hp : Prepared r cfg i div nstop g c) (hn : g + 3 ≤ n) :
    (uartInput r cfg i n).rxd = past div.toNat 0 (heard r cfg i nstop (n - 3)) := by
  obtain ⟨m, rfl⟩ : ∃ m, n = m + 3 := ⟨n - 3, by omega⟩
  rw [rxd_eq, gpioI_eq hp (by omega), line_eq hp (by omega), Nat.add_sub_cancel]

/-! ### The receiver -/

theorem rxm_succ (n : ℕ) : (run r cfg i (n + 1)).perips.uart0.rxm =
    UartRx.edge (run r cfg i n).perips.uart0.rxm
      (Uart.rxmInput (run r cfg i n).perips.uart0 (uartInput r cfg i n)) := rfl

theorem off (hp : Prepared r cfg i div nstop g c) (hn : n ≤ c) : UartRx.Off (run r cfg i n).perips.uart0.rxm := by
  induction n with
  | zero => exact ⟨rfl, rfl, rfl, rfl, rfl⟩
  | succ n ih =>
    rw [rxm_succ]
    exact (ih (by omega)).next (hp.unreceived n (by omega))

theorem heard_none (hp : Prepared r cfg i div nstop g c) (hn : n ≤ c) : heard r cfg i nstop n = none :=
  ((UartTransmit.tracks hp.uart n).before hn).2

/-- When the receiver is enabled, it has seen the idle line. -/
theorem filter_high (hp : Prepared r cfg i div nstop g c) {k : ℕ} (hk : k < 3) :
    (run r cfg i c).perips.uart0.rxm.filter.getLsbD k = true := by
  have hs := hp.settled
  have hhigh : ∀ n, g + 3 ≤ n → n ≤ c → (uartInput r cfg i n).rxd = true := by
    intro n h1 h2
    rw [rxd_line hp h1, heard_none hp (by omega)]
    rfl
  have hrun : ∀ j ≤ 3, ∀ k < j, (run r cfg i (g + 3 + (c - (g + 6)) + j)).perips.uart0.rxm.filter.getLsbD k = true := by
    intro j
    induction j with
    | zero => exact fun _ k hk => absurd hk (Nat.not_lt_zero k)
    | succ j ih =>
      intro hj k hk
      rw [← Nat.add_assoc, rxm_succ, UartRx.getLsbD_edge_filter (by omega)]
      split
      next => exact hhigh _ (by omega) (by omega)
      next => exact ih (by omega) _ (by omega)
  have hc : g + 3 + (c - (g + 6)) + 3 = c := by omega
  have hall := hrun 3 (Nat.le_refl 3) k hk
  rwa [hc] at hall

/-- The receiver is three clocks behind the line. -/
theorem tracks (hp : Prepared r cfg i div nstop g c) (hn : c ≤ n) :
    UartRx.At div.toNat (heard r cfg i nstop (n - 3)) (run r cfg i n).perips.uart0.rxm := by
  have hs := hp.settled
  induction n, hn using Nat.le_induction with
  | base =>
    rw [heard_none hp (by omega)]
    exact (off hp (Nat.le_refl c)).at_none fun k hk => filter_high hp hk
  | succ n hn ih =>
    have hregs : (run r cfg i n).perips.uart0.regs.div = div := by
      rw [uart0_run]
      exact hp.uart.div n hn
    have hdiv : (Uart.rxmInput (run r cfg i n).perips.uart0 (uartInput r cfg i n)).div.toNat = div.toNat :=
      congrArg BitVec.toNat hregs
    have hfollows := UartTransmit.follows hp.uart (n - 3)
    have hsucc : n + 1 - 3 = n - 3 + 1 := by omega
    have hline := rxd_line hp (n := n) (by omega)
    rw [hsucc, rxm_succ, ← hdiv]
    rw [← hdiv] at ih hfollows hline
    exact ih.next hfollows (by rw [hdiv]; exact hp.div_ge) (Uart.character _ _) (hp.rxen n hn) hline

theorem received_eq (hp : Prepared r cfg i div nstop g c) (n : ℕ) :
    received r cfg i n = shown (UartRx.doneAt div.toNat) (heard r cfg i nstop (n - 3)) := by
  rcases Nat.lt_or_ge n c with hn | hn
  · rw [heard_none hp (by omega), received, UartRx.received, UartRx.outValid, (off hp hn.le).quiet]
    rfl
  · exact (tracks hp hn).received_eq

/-! ### From the driver to the driver -/

theorem log_received (hp : Prepared r cfg i div nstop g c) (n : ℕ) : log (received r cfg i) n =
    log (fun m => shown (UartRx.doneAt div.toNat) (heard r cfg i nstop m)) (n - 3) := by
  rw [log_congr fun m _ => received_eq hp m]
  refine log_delay (f := fun m => shown (UartRx.doneAt div.toNat) (heard r cfg i nstop m)) ?_ 3 n
  simp only [heard_none hp (Nat.zero_le c)]
  rfl

theorem received_prefix (hp : Prepared r cfg i div nstop g c) (n : ℕ) :
    log (received r cfg i) n <+: log (Console.pushed r cfg i) n := by
  rw [log_received hp]
  exact (log_mono _ (Nat.sub_le n 3)).trans
    ⟨_, (UartTransmit.pushed_eq hp.uart (sampleAt_lt hp.div_ge : UartRx.doneAt div.toNat < _) n).symm⟩

theorem exists_received (hp : Prepared r cfg i div nstop g c) (n : ℕ) :
    ∃ m, log (Console.pushed r cfg i) n <+: log (received r cfg i) m := by
  have hdone : UartRx.doneAt div.toNat < 10 * (div.toNat + 1) := sampleAt_lt hp.div_ge
  obtain ⟨m, hm⟩ := exists_delivered (UartTransmit.pushed_eq hp.uart hdone)
    (fun n hn hne => UartTransmit.exists_shown hp.uart hdone hn hne) n
  refine ⟨m + 3, ?_⟩
  rw [log_received hp, Nat.add_sub_cancel]
  exact hm

/-- The receive queue takes what is handed over while it is not full. -/
theorem kept_eq (n : ℕ) : kept r cfg i n = Queue1.pushed (run r cfg i n).perips.uart0.rxq
    (Uart.rxqInput (run r cfg i n).perips.uart0 (uartInput r cfg i n)) := by
  have henq : Queue1.enq (run r cfg i n).perips.uart0.rxq
      (Uart.rxqInput (run r cfg i n).perips.uart0 (uartInput r cfg i n)) =
      (Queue1.enqReady (run r cfg i n).perips.uart0.rxq && UartRx.outValid (run r cfg i n).perips.uart0.rxm) := rfl
  rw [kept, unread, Queue1.length_entries, Queue1.pushed, henq, received, UartRx.received]
  by_cases hlt : (Queue1.count (run r cfg i n).perips.uart0.rxq).toNat < 8
  · rw [if_pos hlt, Queue1.enqReady_iff.2 hlt, Bool.true_and]
    rfl
  · have hfull : Queue1.enqReady (run r cfg i n).perips.uart0.rxq = false := by
      by_contra h
      exact hlt (Queue1.enqReady_iff.1 (by simpa using h))
    rw [if_neg hlt, hfull]
    rfl

/-- What the receive queue has taken is what has been read and what is left to read. -/
theorem kept_eq_read (hwin : ∀ n, ((i n).slot .uart0).cmdValid = true →
    ((i n).slot .uart0).port.aAddress.extractLsb' 5 7 = 0#7) (n : ℕ) :
    log (kept r cfg i) n = log (read r cfg i) n ++ unread r cfg i n := by
  refine log_eq_log_append (Queue1.entries_reset r.uartRx) (fun m => ?_) n
  have hpop : read r cfg i m = Queue1.popped (run r cfg i m).perips.uart0.rxq
      (Uart.rxqInput (run r cfg i m).perips.uart0 (uartInput r cfg i m)) := by
    cases hv : ((i m).slot .uart0).cmdValid with
    | true => exact Uart.read_eq_popped rfl (hwin m hv)
    | false =>
      have hgets : RegisterPort.gets (uartInput r cfg i m).port = false := by
        change (((i m).slot .uart0).cmdValid && _ && _) = false
        rw [hv]
        rfl
      rw [read, Uart.read, Queue1.popped, Queue1.deq, Uart.rxqInput, hgets]
      rfl
  rw [hpop, kept_eq]
  exact Queue1.conservation

/-- A driver that polls gets the bytes that it writes handed over, in order; it reads those that find less than eight
bytes unread. -/
theorem loops_back (hp : Prepared r cfg i div nstop g c)
    (hpoll : UartTransmit.Polls r.uartTx r.uartRx (uartInput r cfg i))
    (hwin : ∀ n, ((i n).slot .uart0).cmdValid = true → ((i n).slot .uart0).port.aAddress.extractLsb' 5 7 = 0#7) :
    (∀ n, log (received r cfg i) n <+: log (written r cfg i) n) ∧
      (∀ n, ∃ m, log (written r cfg i) n <+: log (received r cfg i) m) ∧
      ∀ n, log (kept r cfg i) n = log (read r cfg i) n ++ unread r cfg i n := by
  have hpushed : ∀ n, log (Console.pushed r cfg i) n = log (written r cfg i) n := fun n =>
    log_congr fun m _ => UartTransmit.pushed_of_polls hpoll m
  refine ⟨fun n => ?_, fun n => ?_, kept_eq_read hwin⟩
  · rw [← hpushed]
    exact received_prefix hp n
  · rw [← hpushed]
    exact exists_received hp n

/-! ### A run -/

open Console (hello helloConfig helloRun)

theorem prepared_hello : Prepared zeroPowerOn helloConfig hello 17#16 false 201 241 where
  div_ge := by decide
  output := Console.prepared_hello.routed
  input n hn := by
    obtain ⟨hen, hsel, hxor, -, -⟩ := Console.gpio_hello n
    exact ⟨by rw [hen, if_pos (by omega)]; decide, by rw [hsel]; rfl, by rw [hxor]; rfl⟩
  default n _ := by
    obtain ⟨-, -, -, -, hds⟩ := Console.gpio_hello n
    exact Or.inl (by rw [hds]; rfl)
  settled := by decide
  uart := by
    have hconf := Console.prepared_hello.uart
    refine ⟨fun n hn => ?_, fun n hn => hconf.div n (by omega), fun n hn => hconf.nstop n (by omega),
      fun n hn => hconf.txen n (by omega)⟩
    -- the transmit queue is empty
    have hempty := Console.txq_hello n (by omega)
    have hvalid : Queue1.deqValid (UartTransmit.run zeroPowerOn.uartTx zeroPowerOn.uartRx
        (uartInput zeroPowerOn helloConfig hello) n).txq = false := by
      by_contra h
      have := Queue1.deqValid_iff.1 (by simpa using h)
      omega
    rw [UartTransmit.started, UartTx.started, UartTx.start]
    simp only [Uart.txmInput, hvalid, Bool.and_false, Bool.false_eq_true, if_false]
  unreceived n hn := by
    rw [Console.regs_hello]
    exact decide_eq_false (by omega)
  rxen n hn := by
    rw [Console.regs_hello]
    exact decide_eq_true (by omega)

theorem loops_back_hello :
    (∀ n, log (received zeroPowerOn helloConfig hello) n <+:
      log (written zeroPowerOn helloConfig hello) n) ∧
      (∀ n, ∃ m, log (written zeroPowerOn helloConfig hello) n <+:
        log (received zeroPowerOn helloConfig hello) m) ∧
      ∀ n, log (kept zeroPowerOn helloConfig hello) n =
        log (read zeroPowerOn helloConfig hello) n ++ unread zeroPowerOn helloConfig hello n := by
  refine loops_back prepared_hello Console.polls_hello fun n => ?_
  by_cases hn : n ∈ [200, 210, 230, 240, 250, 253]
  · fin_cases hn <;> decide +kernel
  · rw [Console.hello_quiet hn]
    decide

end Loopback
