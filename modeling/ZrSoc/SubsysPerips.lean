import ZrSoc.CoreplexBus
import ZrSoc.FabricRouting

/-!
# The peripheral subsystem on the data bus (`rtl/perips/e203_subsys_perips.sv`)

The data peripheral bus of the core complex with the fabric `u_sirv_ppi_fab` behind it and the tie-offs of the sixteen
slots.  A populated slot has a peripheral, which is an input here; the other slots are always ready and answer with an
error.  A response reaches the core in the cycle after the fabric has given it (`rvalid_of_responds`), and its error
flag is set for exactly the accesses outside the windows of the populated slots (`err_of_answers`), but no level of
the core complex passes the flag on: `data_err_i` is right for the accesses answered without an error only
(`errReported_iff`).
-/

namespace SubsysPerips

open Sync Icb
open Coreplex (pdIcbCmdValid peripDataGnt)

/-! ### The slots -/

/-- The slots with a peripheral: HCLKGEN, GPIO, UART0, QSPI0 and PWM0. -/
def populated (k : Fin 16) : Bool := k.val == 1 || k.val == 3 || k.val == 4 || k.val == 5 || k.val == 6

/-- The outputs of the peripherals, by slot. -/
structure Slots where
  cmdReady : Fin 16 → Bool
  rspValid : Fin 16 → Bool
  rspRdata : Fin 16 → BitVec 32

variable (y : Slots) (k : Fin 16)

/-- `oK_icb_cmd_ready` -/
def slotCmdReady : Bool := if populated k then y.cmdReady k else true

/-- `oK_icb_rsp_valid` -/
def slotRspValid : Bool := if populated k then y.rspValid k else true

/-- `oK_icb_rsp_err`, `oK_icb_rsp_excl_ok` and `oK_icb_rsp_rdata` -/
def slotRsp : Rsp where
  err := !populated k
  exclOk := false
  rdata := if populated k then y.rspRdata k else 0

/-! ### The data peripheral bus -/

structure State (w : ℕ) where
  coreplex : Coreplex.State w
  fab : Icb1to16Bus.State

/-- The inputs of the core complex, of which the response of the data peripheral bus comes from the fabric, and those
of the slots. -/
structure Input where
  coreplex : Coreplex.Input
  slots : Slots

variable {w : ℕ} (base : BitVec 32) (s : State w) (x : Input)

/-- The command of `u_cpu2pd`, with the fields that the subsystem ties off. -/
def ppiIcbCmd : Cmd where
  read := !x.coreplex.core.dataWe
  addr := x.coreplex.core.dataAddr
  wdata := x.coreplex.core.dataWdata
  wmask := x.coreplex.core.dataBe
  lock := false
  excl := false
  size := 0
  burst := 0
  beat := 0

/-- The ports of `u_sirv_ppi_fab`. -/
def fabInput : Icb1to16Bus.Input where
  iCmdValid := pdIcbCmdValid x.coreplex
  iCmd := ppiIcbCmd x
  iRspReady := Cpu2Icb.icbRspReady
  oCmdReady := slotCmdReady x.slots
  oRspValid := slotRspValid x.slots
  oRsp := slotRsp x.slots

def ppiIcbCmdReady : Bool := Icb1to16Bus.iCmdReady s.fab (fabInput x)

def ppiIcbRspValid : Bool := Icb1to16Bus.iRspValid s.fab

def ppiIcbRspRdata : BitVec 32 := (Icb1to16Bus.iRsp s.fab).rdata

def ppiIcbRspErr : Bool := (Icb1to16Bus.iRsp s.fab).err

/-- The ports of the core complex; it reads no error flag. -/
def coreplexInput : Coreplex.Input :=
  { x.coreplex with
    pdIcbCmdReady := ppiIcbCmdReady s x, pdIcbRspValid := ppiIcbRspValid s, pdIcbRspRdata := ppiIcbRspRdata s }

/-- `perip_data_gnt_i` -/
def gnt : Bool := peripDataGnt (coreplexInput s x)

/-- `data_rvalid_i` -/
def rvalid : Bool := Coreplex.dataRvalid s.coreplex

def reset (init : BitVec (w - 1) → BitVec 32) : State w where
  coreplex := Coreplex.reset base init
  fab := Icb1to16Bus.reset

def edge : State w where
  coreplex := Coreplex.edge base s.coreplex (coreplexInput s x)
  fab := Icb1to16Bus.edge s.fab (fabInput x)

def machine (w : ℕ) (base : BitVec 32) (init : BitVec (w - 1) → BitVec 32) : Machine (State w) Input where
  reset := reset base init
  edge := edge base

/-! ### The error flag of the data bus -/

/-- `data_err` of `cpu2icb` -/
def peripDataErr : Bool := false

def tcmDataErr : Bool := false

def dtmDataErr : Bool := false

def dmDataErr : Bool := false

def dataErr : Bool := peripDataErr || tcmDataErr || dmDataErr || dtmDataErr

/-! ### Accesses and their responses -/

variable (init : BitVec (w - 1) → BitVec 32) (i : ℕ → Input)

abbrev run : ℕ → State w := (machine w base init).run i

/-- The fabric gives in cycle `a` the response to the access it has accepted in cycle `g`. -/
structure Answers (g a : ℕ) : Prop where
  granted : gnt (run base init i g) (i g) = true
  responds : ppiIcbRspValid (run base init i a) = true
  inOrder : Nat.count (fun m => gnt (run base init i m) (i m) = true) g =
    Nat.count (fun m => ppiIcbRspValid (run base init i m) = true) a

/-- The core sees in the cycle after the response of cycle `a` a response with its error flag. -/
def ErrReported (a : ℕ) : Prop :=
  rvalid (run base init i (a + 1)) = true ∧ dataErr = ppiIcbRspErr (run base init i a)

/-- A populated slot raises a response only for a command it has accepted and not yet answered. -/
def PeripheralsAnswerOnce : Prop :=
  ∀ k, populated k = true → Icb1to16Bus.AnswersOnce (fun m => fabInput (i m)) k

variable {base init i} {g a n : ℕ}

/-! ### The response reaches the core, its error flag does not -/

theorem rvalid_of_responds (h : ppiIcbRspValid (run base init i a) = true) :
    rvalid (run base init i (a + 1)) = true := by
  have hpd : (run base init i (a + 1)).coreplex.cpu2pd.dataRvalid = true := by
    exact Bool.and_eq_true_iff.2 ⟨h, rfl⟩
  simp only [rvalid, Coreplex.dataRvalid, hpd, Bool.true_or]

variable (base init i) in
private theorem run_fab (n : ℕ) :
    (run base init i n).fab = Icb1to16Bus.run (fun m => fabInput (i m)) n := by
  induction n with
  | zero => rfl
  | succ n ih => exact congrArg (Icb1to16Bus.edge · (fabInput (i n))) ih

/-- The commands and responses of the fabric on the side of the core. -/
private def masterCmd (i : ℕ → Input) (n : ℕ) : Option Cmd :=
  Icb1to16Bus.masterCmd (Icb1to16Bus.run (fun m => fabInput (i m)) n) (fabInput (i n))

private def masterRsp (i : ℕ → Input) (n : ℕ) : Option Rsp :=
  Icb1to16Bus.masterRsp (Icb1to16Bus.run (fun m => fabInput (i m)) n) (fabInput (i n))

variable (base init i) in
private theorem masterCmd_eq (n : ℕ) :
    masterCmd i n = if gnt (run base init i n) (i n) then some (ppiIcbCmd (i n)) else none := by
  rw [masterCmd, ← run_fab base init]
  rfl

variable (base init i) in
private theorem masterRsp_eq (n : ℕ) : masterRsp i n =
    if ppiIcbRspValid (run base init i n) then some (Icb1to16Bus.iRsp (run base init i n).fab) else none := by
  rw [masterRsp, ← run_fab base init]
  simp only [Icb1to16Bus.masterRsp, fabInput, Cpu2Icb.icbRspReady, Bool.and_true]
  rfl

/-- The slot or default slave whose answer a response is sets its error flag. -/
private theorem err_of_slaveRspLog {p : Icb1to16Bus.Port} {r : Rsp}
    (h : r ∈ Icb1to16Bus.slaveRspLog (fun m => fabInput (i m)) p n) : r.err = !p.any populated := by
  obtain ⟨m, -, hr⟩ := mem_log.1 h
  rw [Icb1to16Bus.slaveRsp_eq_ite] at hr
  split at hr
  · rw [← Option.some.inj hr]
    cases p <;> rfl
  · exact absurd hr (by simp)

/-- The fabric answers an access with an error if and only if no populated slot has its address in the window. -/
theorem err_of_answers (hs : PeripheralsAnswerOnce i) (h : Answers base init i g a) :
    ppiIcbRspErr (run base init i a) = !(Icb1to16Bus.target (i g).coreplex.core.dataAddr).any populated := by
  have hslaves : ∀ k, Icb1to16Bus.TiedOff (fun m => fabInput (i m)) k ∨
      Icb1to16Bus.AnswersOnce (fun m => fabInput (i m)) k := by
    intro k
    cases hk : populated k with
    | true => exact Or.inr (hs k hk)
    | false => exact Or.inl fun m => by simp [fabInput, slotCmdReady, slotRspValid, hk]
  -- the command and the response have the same number in the logs of the fabric
  have hcmd : masterCmd i g = some (ppiIcbCmd (i g)) := (masterCmd_eq base init i g).trans (if_pos h.granted)
  have hrsp : masterRsp i a = some (Icb1to16Bus.iRsp (run base init i a).fab) :=
    (masterRsp_eq base init i a).trans (if_pos h.responds)
  have hnum : Nat.count (fun m => (masterCmd i m).isSome = true) g =
      Nat.count (fun m => (masterRsp i m).isSome = true) a := by
    simpa only [masterCmd_eq base init, masterRsp_eq base init, Option.isSome_ite] using h.inOrder
  have hc := getElem?_log (m := max g a + 1) hcmd (by omega)
  have hr := getElem?_log (m := max g a + 1) hrsp (by omega)
  rw [length_log, hnum, ← length_log] at hc
  exact err_of_slaveRspLog ((Icb1to16Bus.ledger hslaves _).mem_slaveRspLog hc hr)

/-- The core sees the error flag of a response if and only if the flag is not set. -/
theorem errReported_iff (h : Answers base init i g a) :
    ErrReported base init i a ↔ ppiIcbRspErr (run base init i a) = false :=
  ⟨fun hr => hr.2.symm, fun he => ⟨rvalid_of_responds h.responds, he.symm⟩⟩

/-- Two reads, of the unused slot at the base of the region and of GPIO, which answers at once. -/
def slotReads (n : ℕ) : Input where
  coreplex :=
    { Coreplex.busTraffic n with
      core :=
        { instrReq := false, instrAddr := 0, dataReq := n == 0 || n == 4, dataWe := false, dataBe := 0b1111#4,
          dataAddr := if n = 0 then 0x10000000#32 else 0x10012000#32, dataWdata := 0 } }
  slots := { cmdReady := fun _ => true, rspValid := fun k => k.val == 3 && n == 5, rspRdata := fun _ => 0 }

/-- The first read is answered with an error in cycle 2, of which the core sees nothing in cycle 3. -/
theorem err_lost_slotReads : Answers (w := 15) 0x80000000#32 (fun _ => 0) slotReads 0 2 ∧
    ppiIcbRspErr (run (w := 15) 0x80000000#32 (fun _ => 0) slotReads 2) = true ∧
    rvalid (run (w := 15) 0x80000000#32 (fun _ => 0) slotReads 3) = true ∧ dataErr = false ∧
    ¬ ErrReported (w := 15) 0x80000000#32 (fun _ => 0) slotReads 2 := by
  refine ⟨⟨by decide +kernel, by decide +kernel, by decide +kernel⟩, by decide +kernel, by decide +kernel, rfl, ?_⟩
  intro h
  have herr : dataErr = true := h.2.trans (by decide +kernel)
  exact absurd herr (by decide)

theorem errReported_slotReads : ErrReported (w := 15) 0x80000000#32 (fun _ => 0) slotReads 6 ↔
    ppiIcbRspErr (run (w := 15) 0x80000000#32 (fun _ => 0) slotReads 6) = false :=
  errReported_iff (g := 4) ⟨by decide +kernel, by decide +kernel, by decide +kernel⟩

end SubsysPerips
