import ZrSoc.ArbiterInvariant
import ZrSoc.DebugBusFsm

/-!
# The debug path (`u_icb2dm` and `u_dtm_arbiter` in `rtl/zr_coreplex.sv`)

The debug transport module on the system bus in front of port `p` of the arbiter (port 1 in the core complex).  The
arbiter sees its requests as those of the port, it sees the registers of the arbiter as its debug bus, and both move
with the same clock.  The other port of the arbiter and the debug module are inputs.
-/

namespace DebugPath

open Sync Sync.Transaction
open DmiArbiter (Port)
open Icb2DebugBus (dtmReqValid dtmReqBits dbusOpDone)

variable {a h : ℕ}

structure State (a h : ℕ) where
  dtm : Icb2DebugBus.State a h
  arb : DmiArbiter.State (a + 2 + 32) 34
  deriving DecidableEq, Repr

/-- The input ports: ICB and interrupts of the debug transport module, the other port of the arbiter, the debug
module. -/
structure Input (a h : ℕ) where
  icbCmdValid : Bool
  icbCmdAddr : BitVec 12
  icbCmdRead : Bool
  icbCmdWdata : BitVec 32
  icbRspReady : Bool
  dbgIrq : BitVec h
  otherReqVld : Bool
  otherReqBits : BitVec (a + 2 + 32)
  otherRspRdy : Bool
  dmReqRdy : Bool
  dmRspVld : Bool
  dmRspBits : BitVec 34
  deriving DecidableEq, Repr

variable (p : Port) (s : State a h) (x : Input a h)

/-- The ports of `u_icb2dm`. -/
def dtmInput : Icb2DebugBus.Input h where
  icbCmdValid := x.icbCmdValid
  icbCmdAddr := x.icbCmdAddr
  icbCmdRead := x.icbCmdRead
  icbCmdWdata := x.icbCmdWdata
  icbRspReady := x.icbRspReady
  dtmReqReady := s.arb.reqRdy p
  dtmRespValid := s.arb.rspVld p
  dtmRespBits := s.arb.dtmRspBits
  dbgIrq := x.dbgIrq

/-- The ports of `u_dtm_arbiter`. -/
def arbInput : DmiArbiter.Input (a + 2 + 32) 34 where
  dtm0ReqVld := if p = .dtm0 then dtmReqValid s.dtm else x.otherReqVld
  dtm0ReqBits := if p = .dtm0 then dtmReqBits s.dtm else x.otherReqBits
  dtm0RspRdy := if p = .dtm0 then Icb2DebugBus.dtmRespReady (dtmInput p s x) else x.otherRspRdy
  dtm1ReqVld := if p = .dtm1 then dtmReqValid s.dtm else x.otherReqVld
  dtm1ReqBits := if p = .dtm1 then dtmReqBits s.dtm else x.otherReqBits
  dtm1RspRdy := if p = .dtm1 then Icb2DebugBus.dtmRespReady (dtmInput p s x) else x.otherRspRdy
  dmReqRdy := x.dmReqRdy
  dmRspVld := x.dmRspVld
  dmRspBits := x.dmRspBits

def reset : State a h where
  dtm := Icb2DebugBus.reset
  arb := DmiArbiter.reset

def edge : State a h where
  dtm := Icb2DebugBus.edge s.dtm (dtmInput p s x)
  arb := DmiArbiter.edge s.arb (arbInput p s x)

def machine (p : Port) (a h : ℕ) : Machine (State a h) (Input a h) where
  reset := reset
  edge := edge p

variable (i : ℕ → Input a h)

abbrev run : ℕ → State a h := (machine p a h).run i

/-- The inputs of the arbiter in a run. -/
def arbStream (n : ℕ) : DmiArbiter.Input (a + 2 + 32) 34 := arbInput p (run p i n) (i n)

def dtmStream (n : ℕ) : Icb2DebugBus.Input h := dtmInput p (run p i n) (i n)

variable {p i} {n : ℕ}

/-! ### The two modules in a run -/

theorem run_arb : (run p i n).arb = DmiArbiter.run (arbStream p i) n := by
  induction n with
  | zero => rfl
  | succ n ih => rw [DmiArbiter.run_succ, ← ih]; rfl

theorem dtm_succ : (run p i (n + 1)).dtm = Icb2DebugBus.edge (run p i n).dtm (dtmStream p i n) := rfl

theorem reqVld_arbStream : (arbStream p i n).reqVld p = dtmReqValid (run p i n).dtm := by cases p <;> rfl

theorem reqBits_arbStream : (arbStream p i n).reqBits p = dtmReqBits (run p i n).dtm := by cases p <;> rfl

theorem reqVld_arbStream_other : (arbStream p i n).reqVld p.other = (i n).otherReqVld := by cases p <;> rfl

/-- The response of the arbiter is taken in the cycle in which it is presented. -/
theorem rspRdy_arbStream : (arbStream p i n).rspRdy p = (run p i n).arb.rspVld p := by cases p <;> rfl

/-! ### Operations -/

variable (p i n) in
/-- A write to `CTRL`. -/
def CtrlWrite : Prop := Icb2DebugBus.weCtrl (dtmStream p i n) = true

variable (p i n) in
/-- The debug transport module hands a request over to the arbiter. -/
def Handover : Prop := dtmReqValid (run p i n).dtm = true ∧ (run p i n).arb.reqRdy p = true

variable (p i n) in
/-- The arbiter accepts the request of the debug transport module. -/
def Accepted : Prop :=
  DmiArbiter.accepted (run p i n).arb (arbStream p i n) = some (p, dtmReqBits (run p i n).dtm)

instance : Decidable (CtrlWrite p i n) := inferInstanceAs (Decidable (_ = true))

instance : Decidable (Handover p i n) := instDecidableAnd

instance : Decidable (Accepted p i n) := inferInstanceAs (Decidable (_ = _))

theorem fsm_succ_of_ctrl (hc : CtrlWrite p i n) : (run p i (n + 1)).dtm.dbusFsmAct = .idle :=
  Icb2DebugBus.fsm_edge_ctrl hc

theorem fsm_succ (hc : ¬ CtrlWrite p i n) :
    (run p i (n + 1)).dtm.dbusFsmAct = Icb2DebugBus.dbusFsmNxt (run p i n).dtm (dtmStream p i n) :=
  Icb2DebugBus.fsm_edge ((Bool.not_eq_true _).mp hc)

theorem fsm_succ_of_reqBusy (hc : ¬ CtrlWrite p i n) (hf : (run p i n).dtm.dbusFsmAct = .reqBusy) :
    (run p i (n + 1)).dtm.dbusFsmAct = if (run p i n).arb.reqRdy p then
      (if (run p i n).arb.rspVld p then .idle else .rspBusy) else .reqBusy := by
  rw [fsm_succ hc]
  simp only [Icb2DebugBus.dbusFsmNxt, hf]
  rfl

theorem fsm_succ_of_rspBusy (hc : ¬ CtrlWrite p i n) (hf : (run p i n).dtm.dbusFsmAct = .rspBusy) :
    (run p i (n + 1)).dtm.dbusFsmAct = if (run p i n).arb.rspVld p then .idle else .rspBusy := by
  rw [fsm_succ hc]
  simp only [Icb2DebugBus.dbusFsmNxt, hf]
  rfl

/-- A running operation keeps its request. -/
theorem reqBits_succ (hc : ¬ CtrlWrite p i n) (hf : (run p i n).dtm.dbusFsmAct ≠ .idle) :
    dtmReqBits (run p i (n + 1)).dtm = dtmReqBits (run p i n).dtm :=
  Icb2DebugBus.reqBits_edge_busy hf ((Bool.not_eq_true _).mp hc)

theorem handover_iff : Handover p i n ↔
    (run p i n).dtm.dbusFsmAct = .reqBusy ∧ (run p i n).arb.reqRdy p = true := by
  simp [Handover, dtmReqValid]

theorem accepted_iff : Accepted p i n ↔
    DmiArbiter.reqAccept (run p i n).arb (arbStream p i n) p = true := by
  rw [Accepted, DmiArbiter.accepted_eq_some_iff, reqBits_arbStream, and_iff_left rfl]

/-- The arbiter accepts a request that is handed over in `Q_REQ`, unless the other port has the right of way. -/
theorem accepted_iff_handover : Accepted p i n ↔ Handover p i n ∧ (run p i n).arb.transFsmQ = .qReq ∧
    ((run p i n).arb.dtmSrcLast ≠ p.index ∨ (i n).otherReqVld = false) := by
  rw [accepted_iff, DmiArbiter.reqAccept_eq, DmiArbiter.reqAllow_eq, reqVld_arbStream, reqVld_arbStream_other, Handover]
  simp

theorem accepted_of_some {v : BitVec (a + 2 + 32)}
    (hv : DmiArbiter.accepted (run p i n).arb (arbStream p i n) = some (p, v)) : Accepted p i n :=
  accepted_iff.2 (DmiArbiter.accepted_eq_some_iff _ _ |>.1 hv).1

/-! ### The phase of the arbiter -/

variable (p i n) in
/-- The request the arbiter serves. -/
def served : Option (Port × BitVec (a + 2 + 32)) := (DmiArbiter.phases (arbStream p i) n).current

section Phases

variable (hdm : DmiArbiter.DmAnswersOnce (arbStream p i))

include hdm in
theorem shows : DmiArbiter.Shows (run p i n).arb (DmiArbiter.phases (arbStream p i) n) :=
  run_arb ▸ (DmiArbiter.tracks hdm n).shows

include hdm in
/-- The ready flop of the port is low while its request waits for the debug module. -/
theorem request_of_not_reqRdy (hr : (run p i n).arb.reqRdy p = false) :
    ∃ v, DmiArbiter.phases (arbStream p i) n = .request p v :=
  (shows hdm).request_of_not_reqRdy hr

include hdm in
/-- A response is presented at the end of a transaction of the port. -/
theorem response_of_rspVld (hv : (run p i n).arb.rspVld p = true) :
    ∃ v, DmiArbiter.phases (arbStream p i) n = .response p v (run p i n).arb.dtmRspBits :=
  (shows hdm).response_of_rspVld hv

include hdm in
theorem not_rspVld (hn : ∀ v, served p i n ≠ some (p, v)) : (run p i n).arb.rspVld p = false := by
  by_contra hv
  obtain ⟨v, hp⟩ := response_of_rspVld hdm (by simpa using hv)
  exact hn v (by rw [served, hp]; rfl)

include hdm in
/-- A request is accepted while nothing is served. -/
theorem idle_of_accepted (ha : Accepted p i n) : DmiArbiter.phases (arbStream p i) n = .idle := by
  have hs := shows hdm (n := n)
  have hq := (accepted_iff_handover.1 ha).2.1
  cases hp : DmiArbiter.phases (arbStream p i) n with
  | idle => rfl
  | request p' v | waiting p' v | response p' v b => rw [hp] at hs; exact absurd (hq.symm.trans hs.1) (by decide)

theorem phases_succ : DmiArbiter.phases (arbStream p i) (n + 1) =
    (DmiArbiter.phases (arbStream p i) n).next (DmiArbiter.events (run p i n).arb (arbStream p i n)) := by
  rw [run_arb]; rfl

include hdm in
/-- An accepted request is offered to the debug module from the next cycle on. -/
theorem request_of_accepted (ha : Accepted p i n) :
    DmiArbiter.phases (arbStream p i) (n + 1) = .request p (dtmReqBits (run p i n).dtm) := by
  have hacc : (DmiArbiter.events (run p i n).arb (arbStream p i n)).accept =
      some (p, dtmReqBits (run p i n).dtm) := ha
  rw [phases_succ, idle_of_accepted hdm ha]
  simp only [Phase.next, hacc]

include hdm in
/-- A port that is not served and hands nothing over successfully is not served in the next cycle. -/
theorem not_served_succ (hn : ∀ v, served p i n ≠ some (p, v)) (ha : ¬ Accepted p i n) :
    ∀ v, served p i (n + 1) ≠ some (p, v) := by
  rw [served, phases_succ]
  refine Phase.not_current_next hn fun v hv => ha (accepted_of_some (v := v) ?_)
  rw [DmiArbiter.accepted_eq (shows hdm), hv]

include hdm in
/-- A request of the port is served until its response is presented. -/
theorem served_succ {v : BitVec (a + 2 + 32)} (hs : served p i n = some (p, v))
    (hv : (run p i n).arb.rspVld p = false) : served p i (n + 1) = some (p, v) := by
  rw [served, phases_succ]
  refine Phase.current_next hs ?_
  have hsh := shows hdm (n := n)
  cases hp : DmiArbiter.phases (arbStream p i) n with
  | idle | request p' v' | waiting p' v' => rfl
  | response p' v' b =>
    rw [served, hp] at hs
    obtain ⟨rfl, -⟩ := Prod.mk.inj (Option.some.inj hs)
    rw [hp] at hsh
    exact absurd hsh.2.2.2.2.1 (by simp [hv])

include hdm in
/-- The presented response is taken at once. -/
theorem idle_of_rspVld (hv : (run p i n).arb.rspVld p = true) :
    DmiArbiter.phases (arbStream p i) (n + 1) = .idle := by
  obtain ⟨v, hp⟩ := response_of_rspVld hdm hv
  have hport : DmiArbiter.servedPort (run p i n).arb = p := (shows hdm).servedPort_eq hv
  have hc : (DmiArbiter.events (run p i n).arb (arbStream p i n)).consume = true := by
    simp only [DmiArbiter.events, hport, rspRdy_arbStream, hv]
  rw [phases_succ, hp, Phase.next, if_pos hc]

end Phases

end DebugPath
