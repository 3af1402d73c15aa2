import ZrSoc.FabricPipeline
import ZrSoc.PeripReads
import ZrSoc.SubsysPerips
import ZrSoc.TbVerilator

/-!
# The peripherals behind the core (`rtl/zr_soc.sv`)

The core complex with the data peripheral bus and the blocks in its slots.  Every block answers an access in the cycle
in which it gets it, so an access of the core is granted at once, reaches the block of its window and no other in the
next cycle, and is answered two cycles later (`pipelined`).
-/

namespace Soc

open Sync Icb
open Coreplex (pdIcbCmdValid)
open PeripSlots (Block)
open TbVerilator (PowerOn)
open RegisterPort (Slot)

structure State (w : ℕ) where
  subsys : SubsysPerips.State w
  hclkgen : Hclkgen.State
  tb : TbVerilator.State

/-- The inputs of the core complex, of which the response of the data peripheral bus comes from the fabric, and the
ports of the QSPI block that are not on this bus. -/
structure Input where
  coreplex : Coreplex.Input
  aValid : Bool
  aBits : TileLink.A 7 1 8
  dReady : Bool
  dqI : BitVec 4

def slotNumber : Block → ℕ
  | .gpio => 3
  | .uart0 => 4
  | .qspi0 => 5
  | .pwm0 => 6

theorem slotNumber_lt (b : Block) : slotNumber b < 16 := by cases b <;> decide

/-- The slot of a block. -/
def number (b : Block) : Fin 16 := ⟨slotNumber b, slotNumber_lt b⟩

theorem one_lt_sixteen : 1 < 16 := by decide

/-- The slot of `u_sirv_hclkgen_regs`. -/
def hclkgenSlot : Fin 16 := ⟨1, one_lt_sixteen⟩

def blockAt (k : Fin 16) : Option Block := [Block.gpio, .uart0, .qspi0, .pwm0].find? fun b => number b == k

variable {w : ℕ} (s : State w) (x : Input)

/-! ### The slots -/

/-- The ports of the fabric, but for those of the slots, which its outputs do not depend on. -/
def masterInput : Icb1to16Bus.Input where
  iCmdValid := pdIcbCmdValid x.coreplex
  iCmd := SubsysPerips.ppiIcbCmd { coreplex := x.coreplex, slots := ⟨fun _ => false, fun _ => false, fun _ => 0#32⟩ }
  iRspReady := Cpu2Icb.icbRspReady
  oCmdReady _ := false
  oRspValid _ := false
  oRsp _ := { err := false, exclOk := false, rdata := 0#32 }

/-- The command that the fabric gives to slot `k`. -/
def slot (k : Fin 16) : Slot where
  cmdValid := Icb1to16Bus.portCmdValid s.subsys.fab (masterInput x) (some k)
  cmd := Icb1to16Bus.portCmd s.subsys.fab (masterInput x) (some k)
  rspReady := Icb1to16Bus.portRspReady s.subsys.fab (masterInput x) (some k)

def tbInput : TbVerilator.Input where
  slot b := slot s x (number b)
  aValid := x.aValid
  aBits := x.aBits
  dReady := x.dReady
  dqI := x.dqI

/-- `oK_icb_rsp_rdata` -/
def slotRdata (k : Fin 16) : BitVec 32 :=
  if k = hclkgenSlot then Hclkgen.rdata s.hclkgen (slot s x k)
  else
    match blockAt k with
    | some b => PeripSlots.rdata s.tb.perips (TbVerilator.peripsInput s.tb.perips (tbInput s x)) b
    | none => 0#32

/-- The blocks connect the command channel with the response channel. -/
def slots : SubsysPerips.Slots where
  cmdReady k := (slot s x k).rspReady
  rspValid k := (slot s x k).cmdValid
  rspRdata := slotRdata s x

def subsysInput : SubsysPerips.Input where
  coreplex := x.coreplex
  slots := slots s x

/-! ### Registers -/

def machine (w : ℕ) (base : BitVec 32) (init : BitVec (w - 1) → BitVec 32) (r : PowerOn) (cfg : UartModel.Config) :
    Machine (State w) Input where
  reset :=
    { subsys := SubsysPerips.reset base init, hclkgen := Hclkgen.reset, tb := (TbVerilator.machine r cfg).reset }
  edge s x :=
    { subsys := SubsysPerips.edge base s.subsys (subsysInput s x)
      hclkgen := Hclkgen.edge s.hclkgen (slot s x hclkgenSlot)
      tb := (TbVerilator.machine r cfg).edge s.tb (tbInput s x) }

/-! ### Accesses -/

/-- The access of the core to the data peripheral bus. -/
def access : Option Cmd := if (masterInput x).iCmdValid then some (masterInput x).iCmd else none

def idleSlot : Slot where
  cmdValid := false
  cmd := Icb1to16Bus.noCmd
  rspReady := false

/-- What slot `k` gets of a command. -/
def slotOf (c : Option Cmd) (k : Fin 16) : Slot :=
  match c with
  | some c =>
    if Icb1to16Bus.target c.addr = some k then { cmdValid := true, cmd := c, rspReady := true } else idleSlot
  | none => idleSlot

/-- The value that is read from the target of a command. -/
def readValue (c : Cmd) : BitVec 32 :=
  match Icb1to16Bus.target c.addr with
  | some k => if SubsysPerips.populated k then slotRdata s x k else 0#32
  | none => 0#32

/-- The response of the data peripheral bus in the core complex. -/
def coreAnswer : Option (BitVec 32) :=
  if s.subsys.coreplex.cpu2pd.dataRvalid then some s.subsys.coreplex.cpu2pd.dataRdata else none

/-- `data_rvalid_i` and `data_rdata_i` -/
def coreRvalid : Bool := Coreplex.dataRvalid s.subsys.coreplex

def coreRdata : BitVec 32 :=
  Coreplex.dataRdata s.subsys.coreplex (SubsysPerips.coreplexInput s.subsys (subsysInput s x))

variable {s x} {c : Option Cmd} {r : Option Rsp}

/-! ### One cycle -/

theorem slot_eq (h : Icb1to16Bus.Carries s.subsys.fab c r) (k : Fin 16) : slot s x k = slotOf c k := by
  have hvalid := h.portCmdValid_eq (x := masterInput x) (p := some k)
  have hready := h.portRspReady_eq (x := masterInput x) (p := some k)
  cases c with
  | none => rw [slot, hready, Icb1to16Bus.portCmd_of_not_valid hvalid, hvalid]; rfl
  | some c =>
    rw [Option.any_some] at hvalid
    rw [Option.bind_some] at hready
    by_cases ht : Icb1to16Bus.target c.addr = some k
    · rw [decide_eq_true ht] at hvalid hready
      rw [slot, hready, Icb1to16Bus.portCmd_eq hvalid, hvalid, h.bufCmd_eq, slotOf, if_pos ht]
    · rw [decide_eq_false ht] at hvalid hready
      rw [slot, hready, Icb1to16Bus.portCmd_of_not_valid hvalid, hvalid, slotOf, if_neg ht]
      rfl

theorem answersAtOnce (h : Icb1to16Bus.Carries s.subsys.fab c r) :
    Icb1to16Bus.AnswersAtOnce s.subsys.fab (SubsysPerips.fabInput (subsysInput s x)) := by
  intro k hk
  have hvalid : Icb1to16Bus.portCmdValid s.subsys.fab (masterInput x) (some k) = true := hk
  have hready : Icb1to16Bus.portRspReady s.subsys.fab (masterInput x) (some k) = true := by
    rw [h.portCmdValid_eq] at hvalid
    rw [h.portRspReady_eq]
    cases c with
    | none => cases hvalid
    | some c => exact hvalid
  constructor
  · change (if SubsysPerips.populated k then _ else true) = true
    split
    · exact hready
    · rfl
  · change (if SubsysPerips.populated k then _ else true) = true
    split
    · exact hvalid
    · rfl

theorem masterCmd_eq (h : Icb1to16Bus.Carries s.subsys.fab c r) :
    Icb1to16Bus.masterCmd s.subsys.fab (SubsysPerips.fabInput (subsysInput s x)) = access x := by
  rw [Icb1to16Bus.masterCmd, h.iCmdReady_eq, Bool.and_true]
  rfl

/-- The response of the fabric carries the value that is read. -/
theorem rdata_response (c : Cmd) :
    (Icb1to16Bus.response (SubsysPerips.fabInput (subsysInput s x)) c).rdata = readValue s x c := by
  rw [Icb1to16Bus.response, readValue]
  cases Icb1to16Bus.target c.addr <;> rfl

/-! ### Runs -/

section

variable (base : BitVec 32) (init : BitVec (w - 1) → BitVec 32) (p : PowerOn) (cfg : UartModel.Config) (i : ℕ → Input)

abbrev run (n : ℕ) : State w := (machine w base init p cfg).run i n

/-- The access of the cycle before. -/
def lastAccess (n : ℕ) : Option Cmd := late (fun m => access (i m)) n

/-- What the testbench gets if the accesses go to their blocks one cycle late. -/
def feed (n : ℕ) : TbVerilator.Input where
  slot b := slotOf (lastAccess i n) (number b)
  aValid := (i n).aValid
  aBits := (i n).aBits
  dReady := (i n).dReady
  dqI := (i n).dqI

/-- The response of the target in cycle `n`. -/
def answers (n : ℕ) : Option Rsp :=
  (lastAccess i n).map (Icb1to16Bus.response (SubsysPerips.fabInput (subsysInput (run base init p cfg i n) (i n))))

/-- The accesses go through the fabric as through a pipeline: each is granted at once, is in the slot of its window
and in no other in the next cycle, and has been answered with the value read there two cycles later.  The core gets the
answer if it has not asked anybody else in the cycle before. -/
structure Pipelined : Prop where
  granted : ∀ n, SubsysPerips.gnt (run base init p cfg i n).subsys (subsysInput (run base init p cfg i n) (i n)) =
    (access (i n)).isSome
  reaches : ∀ n k, slot (run base init p cfg i n) (i n) k = slotOf (lastAccess i n) k
  blocks : ∀ n, (run base init p cfg i n).tb = TbVerilator.run p cfg (feed i) n
  hclkgen : ∀ n, (run base init p cfg i n).hclkgen =
    Hclkgen.machine.run (fun m => slotOf (lastAccess i m) hclkgenSlot) n
  answered : ∀ n, coreAnswer (run base init p cfg i (n + 3)) =
    (access (i n)).map (readValue (run base init p cfg i (n + 1)) (i (n + 1)))
  unasked : ∀ n < 3, coreAnswer (run base init p cfg i n) = none
  merged : ∀ n, (i n).coreplex.core.dataReq = false →
    (if coreRvalid (run base init p cfg i (n + 1)) then
      some (coreRdata (run base init p cfg i (n + 1)) (i (n + 1))) else none) =
      coreAnswer (run base init p cfg i (n + 1))

end

variable {base : BitVec 32} {init : BitVec (w - 1) → BitVec 32} {p : PowerOn} {cfg : UartModel.Config} {i : ℕ → Input}

theorem carries (n : ℕ) : Icb1to16Bus.Carries (run base init p cfg i n).subsys.fab (lastAccess i n)
    (late (answers base init p cfg i) n) := by
  induction n with
  | zero => exact Icb1to16Bus.carries_reset
  | succ n ih =>
    have hnext := ih.next (answersAtOnce (x := i n) ih) rfl
    rw [masterCmd_eq ih] at hnext
    exact hnext

theorem tbInput_eq (n : ℕ) : tbInput (run base init p cfg i n) (i n) = feed i n := by
  rw [tbInput, feed]
  congr 1
  funext b
  exact slot_eq (carries n) (number b)

theorem tb_run (n : ℕ) : (run base init p cfg i n).tb = TbVerilator.run p cfg (feed i) n := by
  rw [Machine.run_part (N := TbVerilator.machine p cfg) (machine w base init p cfg) State.tb tbInput rfl
    (fun _ _ => rfl) i n]
  exact Machine.run_congr _ fun m _ => tbInput_eq m

theorem hclkgen_run (n : ℕ) : (run base init p cfg i n).hclkgen =
    Hclkgen.machine.run (fun m => slotOf (lastAccess i m) hclkgenSlot) n := by
  rw [Machine.run_part (N := Hclkgen.machine) (machine w base init p cfg) State.hclkgen
    (fun s x => slot s x hclkgenSlot) rfl (fun _ _ => rfl) i n]
  exact Machine.run_congr _ fun m _ => slot_eq (carries m) hclkgenSlot

/-- The core complex registers the response of the fabric. -/
theorem coreAnswer_succ (n : ℕ) : coreAnswer (run base init p cfg i (n + 1)) =
    (late (answers base init p cfg i) n).map Rsp.rdata := by
  have hcarries : Icb1to16Bus.Carries (run base init p cfg i n).subsys.fab (lastAccess i n)
      (late (answers base init p cfg i) n) := carries n
  have hcpu : (run base init p cfg i (n + 1)).subsys.coreplex.cpu2pd =
      Cpu2Icb.edge (Icb1to16Bus.iRspValid (run base init p cfg i n).subsys.fab)
        (Icb1to16Bus.iRsp (run base init p cfg i n).subsys.fab).rdata := rfl
  rw [coreAnswer, hcpu, Cpu2Icb.edge, hcarries.iRspValid_eq]
  cases h : late (answers base init p cfg i) n with
  | none => rfl
  | some v =>
    rw [h] at hcarries
    rw [hcarries.iRsp_eq]
    rfl

/-- The core gets the value that the block of its access has had in the next cycle. -/
theorem coreAnswer_after (n : ℕ) : coreAnswer (run base init p cfg i (n + 3)) =
    (access (i n)).map (readValue (run base init p cfg i (n + 1)) (i (n + 1))) := by
  have hlate : late (answers base init p cfg i) (n + 2) = (access (i n)).map (Icb1to16Bus.response
    (SubsysPerips.fabInput (subsysInput (run base init p cfg i (n + 1)) (i (n + 1))))) := rfl
  rw [coreAnswer_succ, hlate, Option.map_map]
  exact congrArg (Option.map · (access (i n))) (funext rdata_response)

theorem gnt_eq (n : ℕ) : SubsysPerips.gnt (run base init p cfg i n).subsys
    (subsysInput (run base init p cfg i n) (i n)) = (access (i n)).isSome := by
  have hready : SubsysPerips.ppiIcbCmdReady (run base init p cfg i n).subsys
      (subsysInput (run base init p cfg i n) (i n)) = true := (carries n).iCmdReady_eq
  have hgnt : SubsysPerips.gnt (run base init p cfg i n).subsys (subsysInput (run base init p cfg i n) (i n)) =
      ((masterInput (i n)).iCmdValid && SubsysPerips.ppiIcbCmdReady (run base init p cfg i n).subsys
        (subsysInput (run base init p cfg i n) (i n))) := rfl
  rw [hgnt, hready, Bool.and_true, access]
  cases (masterInput (i n)).iCmdValid <;> rfl

/-- The other slaves answer in the cycle after a request only. -/
theorem others_silent (base : BitVec 32) (init : BitVec (w - 1) → BitVec 32) (p : PowerOn) (cfg : UartModel.Config)
    {n : ℕ} (h : (i n).coreplex.core.dataReq = false) :
    (run base init p cfg i (n + 1)).subsys.coreplex.tcm.tcmDataRvalid = false ∧
      (run base init p cfg i (n + 1)).subsys.coreplex.dmDataRvalid = false ∧
      (run base init p cfg i (n + 1)).subsys.coreplex.dtmDataRvalid = false := by
  refine ⟨?_, ?_, ?_⟩
  · change ((i n).coreplex.core.dataReq && _) = false
    rw [h, Bool.false_and]
  · change (!_ && ((i n).coreplex.core.dataReq && _)) = false
    rw [h, Bool.false_and, Bool.and_false]
  · change (((i n).coreplex.core.dataReq && _) && _) = false
    rw [h, Bool.false_and, Bool.false_and]

theorem coreAnswer_of_alone {n : ℕ} (h : (i n).coreplex.core.dataReq = false) :
    (if coreRvalid (run base init p cfg i (n + 1)) then
      some (coreRdata (run base init p cfg i (n + 1)) (i (n + 1))) else none) =
      coreAnswer (run base init p cfg i (n + 1)) := by
  obtain ⟨htcm, hdm, hdtm⟩ := others_silent base init p cfg h
  rw [coreRvalid, coreRdata, coreAnswer, Coreplex.dataRvalid, Coreplex.dataRdata, htcm, hdm, hdtm]
  simp only [Coreplex.and_mask32, Bool.or_false]
  cases (run base init p cfg i (n + 1)).subsys.coreplex.cpu2pd.dataRvalid <;> simp

/-- In every run the accesses go through the fabric as through a pipeline. -/
theorem pipelined : Pipelined base init p cfg i where
  granted := gnt_eq
  reaches n := slot_eq (carries n)
  blocks := tb_run
  hclkgen := hclkgen_run
  answered := coreAnswer_after
  unasked n hn := by
    match n with
    | 0 => rfl
    | 1 => exact coreAnswer_succ 0
    | 2 => exact coreAnswer_succ 1
  merged _ := coreAnswer_of_alone

end Soc
