import ZrSoc.Console
import ZrSoc.Soc

/-!
# The text of a program

A program prints by storing bytes to `txdata`, each after a load from there has told that the transmit queue is not
full.  The accesses pass the fabric (`written_feed`), so that the answer is about the queue in the cycle after the load;
as no other byte is stored until then, the queue takes every byte (`polls_feed`), and the system thread prints the bytes
that the program stores (`prints_stores`).
-/

open Sync

namespace Soc

open Icb
open TbVerilator (PowerOn)

/-- The byte that a command writes to `txdata`, of which the block decodes the low bits of the address only. -/
def txdataWrite (c : Cmd) : Option (BitVec 8) :=
  if Icb1to16Bus.target c.addr = some (number .uart0) ∧ c.read = false ∧ c.addr.extractLsb' 2 3 = 0#3 then
    some (c.wdata.extractLsb' 0 8)
  else none

/-- A command reads `txdata`. -/
structure ReadsTxdata (c : Cmd) : Prop where
  uart : Icb1to16Bus.target c.addr = some (number .uart0)
  read : c.read = true
  page : c.addr.extractLsb' 5 7 = 0#7
  word : c.addr.extractLsb' 2 3 = 0#3

/-- The byte that the core stores. -/
def stored (x : Input) : Option (BitVec 8) := (access x).bind txdataWrite

variable {w : ℕ} (base : BitVec 32) (init : BitVec (w - 1) → BitVec 32) (p : PowerOn) (cfg : UartModel.Config)
  (i : ℕ → Input)

/-- Before each byte that it stores, the core has loaded `txdata` and got a word with bit 31 clear; it has stored no
other byte since the load. -/
def Polls : Prop :=
  ∀ n, (stored (i n)).isSome = true → ∃ g, g + 3 ≤ n ∧ (∃ c, access (i g) = some c ∧ ReadsTxdata c) ∧
    (coreRdata (run base init p cfg i (g + 3)) (i (g + 3))).getLsbD 31 = false ∧
    ∀ k, g < k → k < n → stored (i k) = none

variable {base init p cfg i} {c : Cmd} {o : Option Cmd}

/-! ### The slot of the UART -/

/-- The port of the block decodes the bits of the address of the command. -/
theorem extractLsb'_port (a : BitVec 32) {lo n : ℕ} (h : lo + n ≤ 29) :
    (a.extractLsb' 0 29).extractLsb' lo n = a.extractLsb' lo n := by
  apply BitVec.eq_of_getLsbD_eq
  intro j hj
  simp only [BitVec.getLsbD_extractLsb', hj, decide_true, Bool.true_and, Nat.zero_add]
  rw [decide_eq_true (by omega), Bool.true_and]

theorem written_of_slot {s : Uart.State} {x : Uart.Input} (hx : x.port = (slotOf o (number .uart0)).port) :
    Uart.written s x = o.bind txdataWrite := by
  have hlanes : RegisterPort.lanes (slotOf o (number .uart0)).port 0 8 = true :=
    RegisterPort.lanes_full rfl (by decide)
  unfold Uart.written Uart.txqInput Uart.word
  rw [hx, hlanes, Bool.and_true]
  cases o with
  | none => rfl
  | some c =>
    rw [Option.bind_some, txdataWrite, slotOf]
    by_cases ht : Icb1to16Bus.target c.addr = some (number .uart0)
    · have hword := extractLsb'_port c.addr (show 2 + 3 ≤ 29 by decide)
      rw [if_pos ht]
      cases hr : c.read <;> simp [RegisterPort.puts, RegisterPort.isGet, RegisterPort.Slot.port, hr, ht, hword]
    · have hoff : ¬ (Icb1to16Bus.target c.addr = some (number .uart0) ∧ c.read = false ∧
          c.addr.extractLsb' 2 3 = 0#3) := fun h => ht h.1
      rw [if_neg ht, if_neg hoff]
      rfl

/-- A load from `txdata` asks the block. -/
theorem polled_of_slot {s : Uart.State} {x : Uart.Input} (hx : x.port = (slotOf (some c) (number .uart0)).port)
    (hc : ReadsTxdata c) (hd : (Uart.rdata s x).getLsbD 31 = false) : Uart.polled s x = true := by
  have hword := extractLsb'_port c.addr (show 2 + 3 ≤ 29 by decide)
  have hpage := extractLsb'_port c.addr (show 5 + 7 ≤ 29 by decide)
  rw [slotOf, if_pos hc.uart] at hx
  rw [Uart.polled, hd, Uart.word, hx]
  simp [RegisterPort.gets, RegisterPort.isGet, RegisterPort.Slot.port, hc.read, hword, hpage, hc.word, hc.page]

theorem written_feed (n : ℕ) : Console.written p cfg (feed i) n = late (fun m => stored (i m)) n := by
  have hport : (TbVerilator.uartInput p cfg (feed i) n).port = (slotOf (lastAccess i n) (number .uart0)).port := rfl
  have hwritten : Console.written p cfg (feed i) n = (lastAccess i n).bind txdataWrite := written_of_slot hport
  rw [hwritten]
  cases n <;> rfl

/-! ### The answer of the core -/

theorem getLsbD_mask32 (v : BitVec 32) (b : Bool) (k : ℕ) :
    (v &&& Coreplex.mask32 b).getLsbD k = (v.getLsbD k && b) := by
  rw [Coreplex.and_mask32]
  cases b <;> simp

/-- A bit that is clear in the word that the core gets is clear in the response of the bus. -/
theorem getLsbD_coreAnswer {s : State w} {x : Input} {v : BitVec 32} {k : ℕ} (h : coreAnswer s = some v)
    (hk : (coreRdata s x).getLsbD k = false) : v.getLsbD k = false := by
  rw [coreAnswer] at h
  split at h
  next hv =>
    obtain rfl := Option.some.inj h
    rw [coreRdata, Coreplex.dataRdata, hv] at hk
    simp only [BitVec.getLsbD_or, getLsbD_mask32, Bool.and_true, Bool.or_eq_false_iff] at hk
    exact hk.1.1.1
  next => cases h

theorem readValue_uart {s : State w} {x : Input} (ht : Icb1to16Bus.target c.addr = some (number .uart0)) :
    readValue s x c = Uart.rdata s.tb.perips.uart0
      (PeripSlots.uartInput (TbVerilator.peripsInput s.tb.perips (tbInput s x))) := by
  rw [readValue, ht]
  rfl

/-- The driver of the core is one that polls at the block. -/
theorem polls_feed (h : Polls base init p cfg i) :
    UartTransmit.Polls p.uartTx p.uartRx (TbVerilator.uartInput p cfg (feed i)) := by
  intro n hn
  change (Console.written p cfg (feed i) n).isSome = true at hn
  rw [written_feed] at hn
  cases n with
  | zero => cases hn
  | succ n =>
    obtain ⟨g, hgn, ⟨c, hc, hreads⟩, hclear, hno⟩ := h n hn
    have hanswer : coreAnswer (run base init p cfg i (g + 3)) =
        (access (i g)).map (readValue (run base init p cfg i (g + 1)) (i (g + 1))) := coreAnswer_after g
    rw [hc, Option.map_some] at hanswer
    have hbit := getLsbD_coreAnswer hanswer hclear
    rw [readValue_uart hreads.uart, tbInput_eq, tb_run, TbVerilator.uart0_run] at hbit
    have hport : (TbVerilator.uartInput p cfg (feed i) (g + 1)).port = (slotOf (some c) (number .uart0)).port := by
      rw [← hc]
      rfl
    refine ⟨g + 1, by omega, polled_of_slot hport hreads hbit, fun k hk hkn => ?_⟩
    change Console.written p cfg (feed i) k = none
    obtain ⟨m, rfl⟩ : ∃ m, k = m + 1 := ⟨k - 1, by omega⟩
    rw [written_feed]
    exact hno m (by omega) (by omega)

/-! ### The text -/

section

variable (lim : Option (BitVec 64)) (base init p cfg) (j : ℕ → Simulation.ClockedInput Input)

abbrev simRun (n : ℕ) : Simulation.Clocked (State w) :=
  Simulation.clockedRun lim (machine w base init p cfg) (fun s => s.tb.uartDev) j n

abbrev cycles (n : ℕ) : ℕ := Simulation.clockedCycles lim (machine w base init p cfg) (fun s => s.tb.uartDev) j n

end

theorem printed_run (n : ℕ) :
    Simulation.printed (run base init p cfg i n).tb.uartDev = TbVerilator.printed p cfg (feed i) n := by
  rw [tb_run]
  rfl

theorem failed_run (n : ℕ) :
    Simulation.failed (run base init p cfg i n).tb.uartDev = TbVerilator.failed p cfg (feed i) n := by
  rw [tb_run]
  rfl

theorem log_written (n : ℕ) :
    log (Console.written p cfg (feed i)) n <+: log (fun m => stored (i m)) n := by
  rw [log_congr fun m _ => written_feed m]
  cases n with
  | zero => exact List.prefix_rfl
  | succ n =>
    rw [log_late]
    exact log_mono _ (Nat.le_succ n)

/-- The system thread prints the bytes that the program stores, in order and all of them. -/
theorem prints_stores {lim : Option (BitVec 64)} {j : ℕ → Simulation.ClockedInput Input} {div : BitVec 16}
    {nstop : Bool} {g c : ℕ} (hp : Console.Prepared p cfg (feed fun m => (j m).tb) div nstop g c)
    (hpoll : Polls base init p cfg fun m => (j m).tb) :
    (∀ n, (simRun base init p cfg lim j n).thread.uartRxStr <+:
      log (fun m => stored (j m).tb) (cycles base init p cfg lim j n)) ∧
      (∀ n, (simRun base init p cfg lim j n).thread.uartRxErrs =
        if Console.errorTime p cfg < cycles base init p cfg lim j n then 1 else 0) ∧
      ∀ k, ∃ N, ∀ n, N ≤ cycles base init p cfg lim j n →
        log (fun m => stored (j m).tb) k <+: (simRun base init p cfg lim j n).thread.uartRxStr := by
  have hfeed := polls_feed hpoll
  refine ⟨Simulation.str_of_log fun n => ?_, fun n => ?_, fun k => Simulation.exists_str ?_⟩
  · rw [log_congr fun m _ => printed_run m]
    exact (Console.printed_of_polls hp hfeed n).trans (log_written n)
  · rw [(Simulation.collected n).errs]
    simp only [failed_run]
    exact Console.count_failed hp _
  · obtain ⟨m, hm⟩ := Console.exists_printed_of_polls hp hfeed (k + 1)
    refine ⟨m, ?_⟩
    rw [log_congr fun m _ => printed_run m]
    rwa [log_congr fun m _ => written_feed m, log_late] at hm

/-! ### A run -/

/-- A request of the core on its data bus. -/
def request (valid read : Bool) (addr wdata : BitVec 32) : Input where
  coreplex :=
    { core :=
        { instrReq := false, instrAddr := 0#32, dataReq := valid, dataWe := !read, dataBe := 15#4, dataAddr := addr
          dataWdata := wdata }
      piIcbCmdReady := false
      piIcbRspValid := false
      piIcbRspRdata := 0#32
      pdIcbCmdReady := false
      pdIcbRspValid := false
      pdIcbRspRdata := 0#32
      dmSlaveRdata := 0#32
      dmDbgIrq := 0#2
      sysDtmReqReady := false
      sysDtmRespValid := false
      sysDtmResp := 0#34 }
  aValid := false
  aBits := (TbVerilator.access false .gpio true 0#32 0#32).aBits
  dReady := true
  dqI := 0#4

/-- The stores and the load of `Console.hello` by the core, each one cycle earlier. -/
def hello (n : ℕ) : Input :=
  if n = 199 then request true false 0x10012038#32 0x30000#32
  else if n = 209 then request true false 0x10013018#32 17#32
  else if n = 229 then request true false 0x10013008#32 1#32
  else if n = 239 then request true false 0x1001300c#32 1#32
  else if n = 249 then request true true 0x10013000#32 0#32
  else if n = 252 then request true false 0x10013000#32 0x48#32
  else request false true 0#32 0#32

theorem hello_quiet {n : ℕ} (hn : n ∉ [199, 209, 229, 239, 249, 252]) : hello n = request false true 0#32 0#32 := by
  simp only [List.mem_cons, List.not_mem_nil, or_false, not_or] at hn
  simp only [hello, hn, if_false]

/-- A request of an address in the window of block `b` is an access to this block. -/
theorem slotOf_request {b : PeripSlots.Block} {read : Bool} {addr wdata : BitVec 32}
    (hw : Cpu2Icb.dataCs Coreplex.pdAddrBase Coreplex.pdAddrMask true addr = true)
    (ht : Icb1to16Bus.target addr = some (number b)) (k : PeripSlots.Block) :
    slotOf (access (request true read addr wdata)) (number k) =
      (TbVerilator.access true b read addr wdata).slot k := by
  have haccess : access (request true read addr wdata) = some
      { read := read, addr := addr, wdata := wdata, wmask := 15#4, lock := false, excl := false, size := 0#2
        burst := 0#2, beat := 0#2 } := by
    have hvalid : (masterInput (request true read addr wdata)).iCmdValid = true := hw
    rw [access, if_pos hvalid]
    cases read <;> rfl
  have hnumber : ∀ b k, number b = number k → k = b := by
    intro b k
    cases b <;> cases k <;> decide
  rw [haccess, slotOf, ht, TbVerilator.access]
  by_cases hk : k = b
  · rw [hk]
    simp
  · have hne : number b ≠ number k := fun h => hk (hnumber b k h)
    simp [hk, hne]
    rfl

theorem slotOf_hello (n : ℕ) (k : PeripSlots.Block) :
    slotOf (access (hello n)) (number k) = (Console.hello (n + 1)).slot k := by
  by_cases hn : n ∈ [199, 209, 229, 239, 249, 252]
  · fin_cases hn
    · exact slotOf_request (b := .gpio) (by decide) (by decide +kernel) k
    all_goals exact slotOf_request (b := .uart0) (by decide) (by decide +kernel) k
  · have hnext : n + 1 ∉ [200, 210, 230, 240, 250, 253] := by simpa using hn
    rw [hello_quiet hn, Console.hello_quiet hnext]
    rfl

/-- In the slots the accesses are those of `Console.hello`. -/
theorem feed_hello : feed hello = Console.hello := by
  have hrest : ∀ n, (hello n).aValid = false ∧ (hello n).aBits = (Console.hello n).aBits ∧ (hello n).dReady = true ∧
      (hello n).dqI = 0#4 ∧ (Console.hello n).aValid = false ∧ (Console.hello n).dReady = true ∧
      (Console.hello n).dqI = 0#4 := by
    intro n
    unfold hello Console.hello
    split_ifs <;> exact ⟨rfl, rfl, rfl, rfl, rfl, rfl, rfl⟩
  funext n
  obtain ⟨h1, h2, h3, h4, h1', h3', h4'⟩ := hrest n
  have hslot : (fun b => slotOf (lastAccess hello n) (number b)) = (Console.hello n).slot := by
    funext k
    cases n with
    | zero => rfl
    | succ n => exact slotOf_hello n k
  rw [feed, hslot, h1, h2, h3, h4, ← h1', ← h3', ← h4']

/-- The access of cycle 252 stores the only byte. -/
theorem stored_hello (n : ℕ) : stored (hello n) = if n = 252 then some 0x48#8 else none := by
  by_cases hn : n ∈ [199, 209, 229, 239, 249, 252]
  · fin_cases hn <;> decide +kernel
  · rw [hello_quiet hn]
    simp only [List.mem_cons, List.not_mem_nil, or_false, not_or] at hn
    rw [if_neg hn.2.2.2.2.2]
    rfl

abbrev helloRun (n : ℕ) : State 15 :=
  run 0x80000000#32 (fun _ => 0#32) TbVerilator.zeroPowerOn Console.helloConfig hello n

/-- The core gets a word with bit 31 clear. -/
theorem clear_hello : (coreRdata (helloRun 252) (hello 252)).getLsbD 31 = false := by
  have halone : (hello 251).coreplex.core.dataReq = false := rfl
  have hanswer : coreAnswer (helloRun 252) = (access (hello 249)).map (readValue (helloRun 250) (hello 250)) :=
    coreAnswer_after 249
  have hmerged : (if coreRvalid (helloRun 252) then some (coreRdata (helloRun 252) (hello 252)) else none) =
      coreAnswer (helloRun 252) := coreAnswer_of_alone halone
  obtain ⟨c, hc, ht⟩ : ∃ c, access (hello 249) = some c ∧
      Icb1to16Bus.target c.addr = some (number .uart0) := ⟨_, rfl, by decide +kernel⟩
  have hpolled := Console.polled_hello
  rw [hc, Option.map_some, readValue_uart ht, tbInput_eq, tb_run, TbVerilator.uart0_run, feed_hello] at hanswer
  rw [hanswer] at hmerged
  split at hmerged
  next =>
    rw [Option.some.inj hmerged]
    rw [Uart.polled, Bool.and_eq_true, Bool.not_eq_true'] at hpolled
    exact hpolled.2
  next => cases hmerged

theorem polls_hello :
    Polls (w := 15) 0x80000000#32 (fun _ => 0#32) TbVerilator.zeroPowerOn Console.helloConfig hello := by
  intro n hn
  rw [stored_hello] at hn
  obtain rfl : n = 252 := by
    by_contra hne
    rw [if_neg hne] at hn
    cases hn
  refine ⟨249, by omega, ⟨_, rfl, ?_⟩, clear_hello, fun k _ hk => (stored_hello k).trans (if_neg (by omega))⟩
  exact ⟨by decide +kernel, rfl, by decide, by decide⟩

theorem prints_stores_hello :
    (∀ n, (simRun 0x80000000#32 (fun _ => 0#32) TbVerilator.zeroPowerOn Console.helloConfig none
        (fun m => ⟨false, hello m⟩) n : Simulation.Clocked (State 15)).thread.uartRxStr <+:
      log (fun m => stored (hello m)) (cycles (w := 15) 0x80000000#32 (fun _ => 0#32) TbVerilator.zeroPowerOn
        Console.helloConfig none (fun m => ⟨false, hello m⟩) n)) ∧
      (∀ n, (simRun 0x80000000#32 (fun _ => 0#32) TbVerilator.zeroPowerOn Console.helloConfig none
          (fun m => ⟨false, hello m⟩) n : Simulation.Clocked (State 15)).thread.uartRxErrs =
        if Console.errorTime TbVerilator.zeroPowerOn Console.helloConfig <
          cycles (w := 15) 0x80000000#32 (fun _ => 0#32) TbVerilator.zeroPowerOn Console.helloConfig none
            (fun m => ⟨false, hello m⟩) n then 1 else 0) ∧
      ∀ k, ∃ N, ∀ n, N ≤ cycles (w := 15) 0x80000000#32 (fun _ => 0#32) TbVerilator.zeroPowerOn Console.helloConfig none
          (fun m => ⟨false, hello m⟩) n →
        log (fun m => stored (hello m)) k <+: (simRun 0x80000000#32 (fun _ => 0#32) TbVerilator.zeroPowerOn
          Console.helloConfig none (fun m => ⟨false, hello m⟩) n : Simulation.Clocked (State 15)).thread.uartRxStr :=
  prints_stores (j := fun m => ⟨false, hello m⟩) (by rw [feed_hello]; exact Console.prepared_hello) polls_hello

end Soc
