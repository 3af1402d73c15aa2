import ZrSoc.Sync.Flop
import ZrSoc.Sync.Log

/-!
# The DMI arbiter (`rtl/dmi_arbiter.sv`)

Two debug transport modules share the request and response channels of one debug module.  The registers, the
combinational signals and the clock edge are those of the source, one definition for each `assign` and each
`always_ff` block; `q` and `r` are the widths `DBUS_REQ_BITS` and `DBUS_RSP_BITS`.

The second half defines what happens on the ports in a run: the handshakes of the DTM ports and of the debug module,
as event logs, and from which port the request in `dm_req_bits` came.
-/

namespace DmiArbiter

open Sync

/-- The states of the transaction FSM. -/
inductive TransFsm
  | qReq
  | qRsp
  deriving DecidableEq, Repr

/-- The two DTM ports. -/
inductive Port
  | dtm0
  | dtm1
  deriving DecidableEq, Repr

/-- The value of `dtm_src_last` that stands for a port. -/
def Port.index : Port → Bool
  | .dtm0 => false
  | .dtm1 => true

/-- The other port. -/
def Port.other : Port → Port
  | .dtm0 => .dtm1
  | .dtm1 => .dtm0

theorem Port.eq_or_other (p p' : Port) : p = p' ∨ p = p'.other := by
  cases p <;> cases p' <;> simp [other]

structure State (q r : ℕ) where
  dmReqBits : BitVec q
  dmReqVld : Bool
  dtm0ReqRdy : Bool
  dtm1ReqRdy : Bool
  dtmRspBits : BitVec r
  dmRspRdy : Bool
  dtm0RspVld : Bool
  dtm1RspVld : Bool
  dtmSrcLast : Bool
  transFsmQ : TransFsm
  deriving DecidableEq, Repr

structure Input (q r : ℕ) where
  dtm0ReqVld : Bool
  dtm0ReqBits : BitVec q
  dtm0RspRdy : Bool
  dtm1ReqVld : Bool
  dtm1ReqBits : BitVec q
  dtm1RspRdy : Bool
  dmReqRdy : Bool
  dmRspVld : Bool
  dmRspBits : BitVec r
  deriving DecidableEq, Repr

variable {q r : ℕ} (s : State q r) (x : Input q r)

/-! ### Combinational signals -/

def dmReqDone : Bool := s.dmReqVld && x.dmReqRdy

def dtm0ReqAllow : Bool := s.transFsmQ == .qReq && (s.dtmSrcLast || !x.dtm1ReqVld)

def dtm1ReqAllow : Bool := s.transFsmQ == .qReq && (!s.dtmSrcLast || !x.dtm0ReqVld)

def dtm0ReqAccept : Bool := x.dtm0ReqVld && s.dtm0ReqRdy && dtm0ReqAllow s x

def dtm1ReqAccept : Bool := x.dtm1ReqVld && s.dtm1ReqRdy && dtm1ReqAllow s x

def dtm0ReqDone : Bool := dmReqDone s x && !s.dtm0ReqRdy

def dtm1ReqDone : Bool := dmReqDone s x && !s.dtm1ReqRdy

def dmRspAccept : Bool := s.transFsmQ == .qRsp && x.dmRspVld && s.dmRspRdy

def dtm0RspAccept : Bool := dmRspAccept s x && !s.dtmSrcLast

def dtm1RspAccept : Bool := dmRspAccept s x && s.dtmSrcLast

def dtm0RspClr : Bool := s.dtm0RspVld && x.dtm0RspRdy

def dtm1RspClr : Bool := s.dtm1RspVld && x.dtm1RspRdy

def dmRspDone : Bool := if s.dtmSrcLast then dtm1RspClr s x else dtm0RspClr s x

def transFsmN : TransFsm :=
  match s.transFsmQ with
  | .qReq => if dtm0ReqAccept s x || dtm1ReqAccept s x then .qRsp else .qReq
  | .qRsp => if dmRspDone s x then .qReq else .qRsp

/-! ### Registers -/

def reset : State q r where
  dmReqBits := 0
  dmReqVld := false
  dtm0ReqRdy := true
  dtm1ReqRdy := true
  dtmRspBits := 0
  dmRspRdy := true
  dtm0RspVld := false
  dtm1RspVld := false
  dtmSrcLast := false
  transFsmQ := .qReq

def edge : State q r where
  dmReqBits :=
    if dtm0ReqAccept s x then x.dtm0ReqBits else if dtm1ReqAccept s x then x.dtm1ReqBits else s.dmReqBits
  dmReqVld := vldFlop (dtm0ReqAccept s x || dtm1ReqAccept s x) (dmReqDone s x) s.dmReqVld
  dtm0ReqRdy := rdyFlop (dtm0ReqAccept s x) (dtm0ReqDone s x) s.dtm0ReqRdy
  dtm1ReqRdy := rdyFlop (dtm1ReqAccept s x) (dtm1ReqDone s x) s.dtm1ReqRdy
  dtmRspBits := if dmRspAccept s x then x.dmRspBits else s.dtmRspBits
  dmRspRdy := rdyFlop (dmRspAccept s x) (dmRspDone s x) s.dmRspRdy
  dtm0RspVld := vldFlop (dtm0RspAccept s x) (dtm0RspClr s x) s.dtm0RspVld
  dtm1RspVld := vldFlop (dtm1RspAccept s x) (dtm1RspClr s x) s.dtm1RspVld
  dtmSrcLast := if dtm0ReqAccept s x || dtm1ReqAccept s x then dtm1ReqAccept s x else s.dtmSrcLast
  transFsmQ := transFsmN s x

/-- The arbiter as a clocked circuit. -/
def machine (q r : ℕ) : Machine (State q r) (Input q r) where
  reset := reset
  edge := edge

/-! ### The ports by index -/

def State.reqRdy : Port → Bool
  | .dtm0 => s.dtm0ReqRdy
  | .dtm1 => s.dtm1ReqRdy

def State.rspVld : Port → Bool
  | .dtm0 => s.dtm0RspVld
  | .dtm1 => s.dtm1RspVld

def Input.reqVld : Port → Bool
  | .dtm0 => x.dtm0ReqVld
  | .dtm1 => x.dtm1ReqVld

def Input.reqBits : Port → BitVec q
  | .dtm0 => x.dtm0ReqBits
  | .dtm1 => x.dtm1ReqBits

def Input.rspRdy : Port → Bool
  | .dtm0 => x.dtm0RspRdy
  | .dtm1 => x.dtm1RspRdy

/-- `dtmp_req_allow` -/
def reqAllow : Port → Bool
  | .dtm0 => dtm0ReqAllow s x
  | .dtm1 => dtm1ReqAllow s x

/-- `dtmp_req_accept` -/
def reqAccept : Port → Bool
  | .dtm0 => dtm0ReqAccept s x
  | .dtm1 => dtm1ReqAccept s x

theorem reqAccept_eq (p : Port) : reqAccept s x p = (x.reqVld p && s.reqRdy p && reqAllow s x p) := by
  cases p <;> rfl

theorem reqAllow_eq (p : Port) :
    reqAllow s x p = (s.transFsmQ == .qReq && (s.dtmSrcLast != p.index || !x.reqVld p.other)) := by
  cases p <;> cases h : s.dtmSrcLast <;>
    simp [reqAllow, dtm0ReqAllow, dtm1ReqAllow, Port.index, Port.other, Input.reqVld, h]

/-- The assertion of `p_dtm_src_last`: the two ports are never accepted in the same cycle. -/
theorem not_both_accepted : ¬ (dtm0ReqAccept s x ∧ dtm1ReqAccept s x) := by
  simp only [dtm0ReqAccept, dtm1ReqAccept, dtm0ReqAllow, dtm1ReqAllow, Bool.and_eq_true, Bool.or_eq_true,
    Bool.not_eq_true']
  rintro ⟨⟨⟨h0, -⟩, -, ha⟩, ⟨h1, -⟩, -, hb⟩
  rcases ha with ha | ha <;> rcases hb with hb | hb <;> simp_all

/-! ### What happens on the ports -/

/-- The request port `p` hands over in a cycle, by its own handshake. -/
def reqHandshake (p : Port) : Option (BitVec q) :=
  if x.reqVld p && s.reqRdy p then some (x.reqBits p) else none

/-- The request the arbiter accepts in a cycle, with its port. -/
def accepted : Option (Port × BitVec q) :=
  if dtm0ReqAccept s x then some (.dtm0, x.dtm0ReqBits)
  else if dtm1ReqAccept s x then some (.dtm1, x.dtm1ReqBits) else none

theorem accepted_eq_some_iff {p : Port} {v : BitVec q} :
    accepted s x = some (p, v) ↔ reqAccept s x p = true ∧ x.reqBits p = v := by
  have hnot := not_both_accepted s x
  cases p <;> cases h0 : dtm0ReqAccept s x <;> cases h1 : dtm1ReqAccept s x <;>
    simp_all [accepted, reqAccept, Input.reqBits]

/-- The response handed over by the debug module in a cycle. -/
def dmRspHandshake : Option (BitVec r) :=
  if x.dmRspVld && s.dmRspRdy then some x.dmRspBits else none

/-- The response port `p` takes in a cycle, by its own handshake. -/
def rspHandshake (p : Port) : Option (BitVec r) :=
  if s.rspVld p && x.rspRdy p then some s.dtmRspBits else none

variable (i : ℕ → Input q r)

abbrev run : ℕ → State q r := (machine q r).run i

theorem run_succ (n : ℕ) : run i (n + 1) = edge (run i n) (i n) := rfl

/-- The port the contents of `dm_req_bits` came from: `p_dm_req_bits` with the ports in place of their data. -/
def reqSource : ℕ → Port
  | 0 => .dtm0
  | n + 1 => if dtm0ReqAccept (run i n) (i n) then .dtm0
    else if dtm1ReqAccept (run i n) (i n) then .dtm1 else reqSource n

/-- The request handed to the debug module in cycle `n`, with the port it came from. -/
def dmReqHandshake (n : ℕ) : Option (Port × BitVec q) :=
  if dmReqDone (run i n) (i n) then some (reqSource i n, (run i n).dmReqBits) else none

/-- The handshakes seen by port `p` before cycle `n`. -/
def reqLog (p : Port) : ℕ → List (BitVec q) := log fun m => reqHandshake (run i m) (i m) p

/-- The requests accepted before cycle `n`. -/
def acceptLog : ℕ → List (Port × BitVec q) := log fun m => accepted (run i m) (i m)

/-- The requests handed to the debug module before cycle `n`. -/
def dmReqLog : ℕ → List (Port × BitVec q) := log (dmReqHandshake i)

/-- The responses handed over by the debug module before cycle `n`. -/
def dmRspLog : ℕ → List (BitVec r) := log fun m => dmRspHandshake (run i m) (i m)

/-- The responses taken by port `p` before cycle `n`. -/
def rspLog (p : Port) : ℕ → List (BitVec r) := log fun m => rspHandshake (run i m) (i m) p

/-- A debug module that raises a response only for a request it has accepted (possibly in the same cycle) and not
yet answered. -/
def DmAnswersOnce : Prop :=
  ∀ n, (i n).dmRspVld → (dmRspLog i n).length < (dmReqLog i (n + 1)).length

/-- A DTM that obeys ready-valid on port `p`: a request is held unchanged until its handshake. -/
def ReadyValid (p : Port) : Prop :=
  ∀ n, (i n).reqVld p → ¬ (run i n).reqRdy p → (i (n + 1)).reqVld p ∧ (i (n + 1)).reqBits p = (i n).reqBits p

end DmiArbiter
