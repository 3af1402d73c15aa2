import ZrSoc.FabricDecode
import ZrSoc.Sync.SingleOutstanding

/-!
# The routing of the peripheral bus fabric

Between the two FIFOs of the buffer the splitter has at most one command outstanding, that of the port it holds.  With
slaves that answer each command once, or are tied off, the grants and the answers of the ports are those of
`Sync.SingleOutstanding` (`tracks`): a tied-off slave and the default slave answer only what they are asked, because
the splitter looks at a port only while that port holds a command.  The logs of the master and of the ports then
follow from those of the two FIFOs and of the splitter (`fabric_routes`).
-/

namespace Icb1to16Bus

open Sync Sync.SingleOutstanding Icb

variable (i : ℕ → Input)

/-! ### Handshakes and surroundings -/

/-- The commands the master handed over before cycle `n`. -/
def masterCmdLog : ℕ → List Cmd := log fun m => masterCmd (run i m) (i m)

/-- The responses the master took before cycle `n`. -/
def masterRspLog : ℕ → List Rsp := log fun m => masterRsp (run i m) (i m)

/-- The commands handed over at port `p` before cycle `n`. -/
def slaveCmdLog (p : Port) : ℕ → List Cmd := log fun m => slaveCmd (run i m) (i m) p

/-- The responses handed over at port `p` before cycle `n`. -/
def slaveRspLog (p : Port) : ℕ → List Rsp := log fun m => slaveRsp (run i m) (i m) p

/-- Port `k` is tied off: always ready, and its response always valid. -/
def TiedOff (k : Fin 16) : Prop := ∀ n, (i n).oCmdReady k = true ∧ (i n).oRspValid k = true

/-- The slave at port `k` raises a response only for a command it has accepted, possibly in this cycle, and not yet
answered. -/
def AnswersOnce (k : Fin 16) : Prop :=
  ∀ n, (i n).oRspValid k = true → (slaveRspLog i (some k) n).length < (slaveCmdLog i (some k) (n + 1)).length

/-- The slaves accept each command and answer it at some time, and the master takes each response at some time. -/
structure Fair : Prop where
  accepts : ∀ k n, (∀ m, n ≤ m → portCmdValid (run i m) (i m) (some k) = true) →
    ∃ m, n ≤ m ∧ (i m).oCmdReady k = true
  answers : ∀ k n, (slaveRspLog i (some k) n).length < (slaveCmdLog i (some k) n).length →
    ∃ m, n ≤ m ∧ (i m).oRspValid k = true
  takes : ∀ n, iRspValid (run i n) = true → ∃ m, n ≤ m ∧ (i m).iRspReady = true

/-! ### What the fabric guarantees -/

/-- The commands and responses before cycle `n`: the commands of the master have been passed on or are pending in the
buffer; each port got the commands for its window; the answers are those of the targets of the commands passed on, in
their order, but for at most one that is outstanding; the master got the answers, but for those held in the buffer. -/
structure Ledger (n : ℕ) (pass pending : List Cmd) (answers : List (Port × Rsp)) (outstanding : Option Port)
    (held : List Rsp) : Prop where
  commands : masterCmdLog i n = pass ++ pending
  pending_le : pending.length ≤ 2
  offered : ∀ p, portCmdValid (run i n) (i n) p = true →
    ∃ c, pending.head? = some c ∧ target c.addr = p ∧ portCmd (run i n) (i n) p = c
  presented : ∀ p, slaveCmdLog i p n = pass.filter fun c => target c.addr = p
  answered : (pass.map fun c => target c.addr) = answers.map Prod.fst ++ outstanding.toList
  given : ∀ p, slaveRspLog i p n = (answers.filter fun a => a.1 = p).map Prod.snd
  responses : answers.map Prod.snd = masterRspLog i n ++ held
  held_le : held.length ≤ 2

/-- The fabric routes: the port of a command is the one whose window contains its address, or the default slave,
which answers with an error; in every cycle the ledger is right; and if everybody is fair, then each command is
answered. -/
structure FabricRoutes : Prop where
  window : ∀ addr k, target addr = some k ↔ InWindow k addr
  default : ∀ addr, target addr = none ↔ ∀ k, ¬ InWindow k addr
  ledger : ∀ n, ∃ pass pending answers outstanding held, Ledger i n pass pending answers outstanding held
  defaultErr : ∀ n, ∀ r ∈ slaveRspLog i none n, r.err = true
  complete : Fair i → ∀ n, ∃ m, (masterCmdLog i n).length ≤ (masterRspLog i m).length

/-! ### The ports as slaves with a single outstanding transaction -/

/-- The port that accepts a command in cycle `n`. -/
def granted (n : ℕ) : Option Port := (passed (run i n) (i n)).map fun c => target c.addr

/-- Port `p` hands over a response in cycle `n`. -/
def answers (n : ℕ) (p : Port) : Bool := (slaveRsp (run i n) (i n) p).isSome

/-- The splitter hands over a response in cycle `n`. -/
def answered (n : ℕ) : Bool := bufRspValid (run i n) (i n) && bufRspReady (run i n) (i n)

/-- The port whose answer is outstanding at the beginning of cycle `n`. -/
abbrev waitingPort : ℕ → Option Port := waiting (granted i) (answers i)

/-- The port that may answer in cycle `n`. -/
abbrev servingPort : ℕ → Option Port := serving (granted i) (answers i)

/-- The splitter holds the port whose answer is outstanding; it is never the default slave. -/
structure Tracks (n : ℕ) : Prop where
  balance : Balance (granted i) (answers i) (answered i) n
  holds : IcbSplt.Holds (run i n).splt ((waitingPort i n).map bit)
  notDeft : waitingPort i n ≠ some none

variable {i} {n : ℕ} {p : Port}

theorem answers_eq : answers i n p = (portRspValid (run i n) (i n) p && portRspReady (run i n) (i n) p) := by
  rw [answers, slaveRsp_eq_ite]
  cases portRspValid (run i n) (i n) p && portRspReady (run i n) (i n) p <;> rfl

theorem granted_eq_some_iff : granted i n = some p ↔ (slaveCmd (run i n) (i n) p).isSome = true := by
  rw [slaveCmd_eq, granted]
  cases passed (run i n) (i n) <;> simp [Option.filter_some]

theorem servingPort_eq : servingPort i n = (waitingPort i n).or (granted i n) := rfl

theorem waitingPort_succ : waitingPort i (n + 1) =
    (servingPort i n).bind fun p => if answers i n p then none else some p := rfl

theorem granted_isSome : (granted i n).isSome = (passed (run i n) (i n)).isSome := Option.isSome_map

/-- A grant goes to the port the decode selects. -/
theorem granted_eq : granted i n =
    if (passed (run i n) (i n)).isSome then some (currentTarget (run i n)) else none := by
  rw [granted, passed]
  cases h : bufCmdValid (run i n) && bufCmdReady (run i n) (i n)
  · rfl
  · simp [currentTarget_eq (Bool.and_eq_true_iff.1 h).1]

/-- The port the splitter takes a response from is the one that is being served. -/
theorem getD_of_serving (hs : servingPort i n = some p) :
    (waitingPort i n).getD (currentTarget (run i n)) = p := by
  rw [servingPort_eq, granted_eq] at hs
  cases hw : waitingPort i n with
  | some k => rw [hw] at hs; exact Option.some.inj hs
  | none =>
    rw [hw, Option.none_or] at hs
    split at hs
    · exact Option.some.inj hs
    · exact absurd hs (by simp)

/-- The default slave answers in the cycle it takes a command. -/
theorem granted_deft_iff : granted i n = some none ↔ answers i n none = true := by
  have hval : portRspValid (run i n) (i n) none = portCmdValid (run i n) (i n) none := rfl
  have hrdy : portCmdReady (run i n) (i n) none = portRspReady (run i n) (i n) none := rfl
  rw [granted_eq_some_iff, slaveCmd, answers_eq, hval, hrdy]
  cases portCmdValid (run i n) (i n) none && portRspReady (run i n) (i n) none <;> simp

section Cycle

variable (ht : Tracks i n)

include ht in
theorem Tracks.answered_iff : answered i n = true ↔ ∃ p, answers i n p = true := by
  simp only [answers_eq, bufRspValid_eq ht.holds, portRspReady_eq ht.holds, answered, Bool.and_eq_true,
    decide_eq_true_eq]
  exact ⟨fun ⟨hv, hr⟩ => ⟨_, hv, rfl, hr⟩, fun ⟨p, hv, hp, hr⟩ => ⟨hp ▸ hv, hr⟩⟩

include ht in
/-- A tied-off slave answers only what it is asked: the splitter looks at its response in the cycle it takes a
command, or while that command is outstanding. -/
private theorem Tracks.served_of_tiedOff {k : Fin 16} (hk : TiedOff i k) (ha : answers i n (some k) = true) :
    waitingPort i n = some (some k) ∨ granted i n = some (some k) := by
  simp only [answers_eq, portRspReady_eq ht.holds, Bool.and_eq_true, decide_eq_true_eq] at ha
  obtain ⟨-, hsel, -⟩ := ha
  cases hw : waitingPort i n with
  | some p => rw [hw] at hsel; exact Or.inl (congrArg some hsel)
  | none =>
    rw [hw, Option.getD_none] at hsel
    refine Or.inr ?_
    have hbuf : bufCmdValid (run i n) = true := by
      by_contra hb
      simp [currentTarget, hb] at hsel
    rw [granted_eq, passed_isSome_eq ht.holds, hw, hsel, hbuf]
    exact if_pos (hk n).1

variable (hs : ∀ k, TiedOff i k ∨ AnswersOnce i k)

include ht hs in
theorem Tracks.rules : RulesAt (granted i) (answers i) (answered i) n := by
  refine ⟨ht.answered_iff, fun p ha => ?_, fun hg => ?_⟩
  · have heach := ht.balance.each p
    rw [Nat.count_succ]
    cases p with
    | none =>
      rw [if_pos (granted_deft_iff.2 ha)]
      omega
    | some k =>
      rcases hs k with hk | hk
      · rcases ht.served_of_tiedOff hk ha with hw | hg
        · rw [if_pos hw] at heach; omega
        · rw [if_pos hg]; omega
      · have hv := (Bool.and_eq_true_iff.1 (answers_eq.symm.trans ha)).1
        have hlt := hk n hv
        rw [slaveRspLog, slaveCmdLog, length_log, length_log] at hlt
        simp only [← granted_eq_some_iff] at hlt
        rwa [Nat.count_succ] at hlt
  · have htot := ht.balance.total
    rw [granted_isSome, passed_isSome_eq ht.holds, Bool.and_eq_true, Bool.and_eq_true, Option.isNone_iff_eq_none] at hg
    simpa [hg.1.2] using htot

include ht hs in
private theorem Tracks.answered_eq (hserve : servingPort i n = some p) : answered i n = answers i n p := by
  rw [Bool.eq_iff_iff, ht.answered_iff]
  refine ⟨fun ⟨p', h⟩ => ?_, fun h => ⟨p, h⟩⟩
  have hp' : servingPort i n = some p' := ht.balance.serving_of_answer (ht.rules hs) h
  rw [hserve] at hp'
  rwa [Option.some.inj hp']

include ht hs in
/-- A clock edge keeps what the splitter holds in step with what is outstanding. -/
private theorem Tracks.holds_succ : IcbSplt.Holds (run i (n + 1)).splt ((waitingPort i (n + 1)).map bit) := by
  have hsplt := ht.holds.next (y := spltBus (run i n) (i n)) (spltInput_indic (s := run i n) (x := i n))
  have hserve : ((waitingPort i n).map bit).or (if (passed (run i n) (i n)).isSome then
      some (bit (currentTarget (run i n))) else none) = (servingPort i n).map bit := by
    rw [servingPort_eq, granted_eq, Option.map_or]
    cases (passed (run i n) (i n)).isSome <;> rfl
  have hnext : (waitingPort i (n + 1)).map bit =
      ((servingPort i n).map bit).bind fun j => if answered i n then none else some j := by
    rw [waitingPort_succ]
    cases hp : servingPort i n with
    | none => rfl
    | some p => rw [ht.answered_eq hs hp]; cases h : answers i n p <;> simp [h]
  rw [hnext, ← hserve, passed_isSome]
  exact hsplt

include ht hs in
theorem Tracks.succ : Tracks i (n + 1) := by
  refine ⟨ht.balance.succ (ht.rules hs), ht.holds_succ hs, fun hw => ?_⟩
  rw [waitingPort_succ, Option.bind_eq_some_iff] at hw
  obtain ⟨p, hserve, hp⟩ := hw
  cases ha : answers i n p <;> simp only [ha, Bool.false_eq_true, ↓reduceIte, reduceCtorEq] at hp
  obtain rfl := Option.some.inj hp
  rw [servingPort_eq, Option.or_eq_some_iff] at hserve
  rcases hserve with hw | ⟨-, hg⟩
  · exact ht.notDeft hw
  · rw [granted_deft_iff.1 hg] at ha
    exact absurd ha (by simp)

end Cycle

/-! ### Whole runs -/

section Runs

theorem tracks (hs : ∀ k, TiedOff i k ∨ AnswersOnce i k) (n : ℕ) : Tracks i n := by
  induction n with
  | zero => exact ⟨balance_zero, ⟨rfl, fun j h => absurd h (by simp [waiting])⟩, by simp [waiting]⟩
  | succ n ih => exact ih.succ hs

variable (i) in
/-- The queue of the command FIFO. -/
def cmdQueue : ℕ → List (BitVec cmdPackW) := GnrlFifo.queue (fun m => cmdFifoInput (run i m) (i m)) 2 true

variable (i) in
/-- The queue of the response FIFO. -/
def rspQueue : ℕ → List (BitVec rspPackW) := GnrlFifo.queue (fun m => rspFifoInput (run i m) (i m)) 2 true

private theorem run_cmdFifo (n : ℕ) : (run i n).cmdFifo =
    (GnrlFifo.machine 2 cmdPackW true).run (fun m => cmdFifoInput (run i m) (i m)) n := by
  induction n with
  | zero => rfl
  | succ n ih => rw [Machine.run_succ, ← ih]; rfl

private theorem run_rspFifo (n : ℕ) : (run i n).rspFifo =
    (GnrlFifo.machine 2 rspPackW true).run (fun m => rspFifoInput (run i m) (i m)) n := by
  induction n with
  | zero => rfl
  | succ n ih => rw [Machine.run_succ, ← ih]; rfl

theorem holds_cmdFifo (n : ℕ) : GnrlFifo.Holds (run i n).cmdFifo (cmdQueue i n) := by
  rw [run_cmdFifo]
  exact GnrlFifo.holds_queue _ Nat.two_pos n

theorem holds_rspFifo (n : ℕ) : GnrlFifo.Holds (run i n).rspFifo (rspQueue i n) := by
  rw [run_rspFifo]
  exact GnrlFifo.holds_queue _ Nat.two_pos n

/-! ### The handshakes are those of the FIFOs -/

theorem masterCmd_eq (s : State) (x : Input) :
    masterCmd s x = (GnrlFifo.pushed true s.cmdFifo (cmdFifoInput s x)).map Cmd.ofBits := by
  have hdef : GnrlFifo.pushed true s.cmdFifo (cmdFifoInput s x) =
      if x.iCmdValid && iCmdReady s x then some x.iCmd.toBits else none := rfl
  rw [hdef, masterCmd]
  split
  · rw [Option.map_some, Cmd.ofBits_toBits]
  · rfl

theorem passed_eq_popped (s : State) (x : Input) :
    passed s x = (GnrlFifo.popped s.cmdFifo (cmdFifoInput s x)).map Cmd.ofBits := by
  have hdef : GnrlFifo.popped s.cmdFifo (cmdFifoInput s x) =
      if bufCmdValid s && bufCmdReady s x then some (GnrlFifo.oDat s.cmdFifo) else none := rfl
  rw [hdef, passed]
  split <;> rfl

theorem masterRsp_eq (s : State) (x : Input) :
    masterRsp s x = (GnrlFifo.popped s.rspFifo (rspFifoInput s x)).map Rsp.ofBits := by
  have hdef : GnrlFifo.popped s.rspFifo (rspFifoInput s x) =
      if iRspValid s && x.iRspReady then some (GnrlFifo.oDat s.rspFifo) else none := rfl
  rw [hdef, masterRsp]
  split <;> rfl

variable (i) in
/-- The answer handed over in cycle `n`, with its port. -/
def answer (n : ℕ) : Option (Port × Rsp) :=
  ((servingPort i n).filter (answers i n)).map fun p => (p, portRsp (i n) p)

/-- The answer the splitter hands over goes into the response FIFO. -/
theorem answer_eq_pushed (hs : ∀ k, TiedOff i k ∨ AnswersOnce i k) : (answer i n).map Prod.snd =
    (GnrlFifo.pushed true (run i n).rspFifo (rspFifoInput (run i n) (i n))).map Rsp.ofBits := by
  have ht := tracks hs n
  have hdef : GnrlFifo.pushed true (run i n).rspFifo (rspFifoInput (run i n) (i n)) =
      if answered i n then some (bufRsp (run i n) (i n)).toBits else none := rfl
  rw [hdef, answer, Option.map_map]
  cases hp : servingPort i n with
  | none =>
    have hno : answered i n = false := by
      by_contra h
      obtain ⟨p, ha⟩ := ht.answered_iff.1 (by simpa using h)
      have : servingPort i n = some p := ht.balance.serving_of_answer (ht.rules hs) ha
      simp [hp] at this
    simp [hno]
  | some p =>
    rw [ht.answered_eq hs hp, bufRsp_eq ht.holds, getD_of_serving hp]
    cases h : answers i n p <;> simp [Option.filter_some, h]

/-- A port hands over the answers that are its own. -/
theorem slaveRsp_eq (hs : ∀ k, TiedOff i k ∨ AnswersOnce i k) :
    slaveRsp (run i n) (i n) p = (answer i n).bind fun a => if a.1 = p then some a.2 else none := by
  have ht := tracks hs n
  have hserve : ∀ p, answers i n p = true → servingPort i n = some p :=
    fun p => ht.balance.serving_of_answer (ht.rules hs)
  have hrsp : slaveRsp (run i n) (i n) p = if answers i n p then some (portRsp (i n) p) else none := by
    rw [answers_eq, slaveRsp_eq_ite]
  rw [hrsp, answer]
  cases ha : answers i n p with
  | true => simp [hserve p ha, Option.filter_some, ha]
  | false =>
    cases hp : servingPort i n with
    | none => rfl
    | some p' =>
      by_cases hne : p' = p
      · simp [Option.filter_some, hne, ha]
      · cases h : answers i n p' <;> simp [Option.filter_some, h, hne]

/-! ### The ledger -/

private theorem masterCmdLog_eq (n : ℕ) : masterCmdLog i n =
    log (fun m => passed (run i m) (i m)) n ++ (cmdQueue i n).map Cmd.ofBits := by
  have h : log (fun m => GnrlFifo.pushed true (run i m).cmdFifo (cmdFifoInput (run i m) (i m))) n =
      log (fun m => GnrlFifo.popped (run i m).cmdFifo (cmdFifoInput (run i m) (i m))) n ++ cmdQueue i n := by
    simp only [run_cmdFifo]
    exact GnrlFifo.pushed_eq_popped _ Nat.two_pos n
  have h' := congrArg (List.map Cmd.ofBits) h
  rw [List.map_append, map_log, map_log] at h'
  simpa only [masterCmdLog, masterCmd_eq, passed_eq_popped] using h'

private theorem answerLog_eq (hs : ∀ k, TiedOff i k ∨ AnswersOnce i k) (n : ℕ) :
    (log (answer i) n).map Prod.snd = masterRspLog i n ++ (rspQueue i n).map Rsp.ofBits := by
  have h : log (fun m => GnrlFifo.pushed true (run i m).rspFifo (rspFifoInput (run i m) (i m))) n =
      log (fun m => GnrlFifo.popped (run i m).rspFifo (rspFifoInput (run i m) (i m))) n ++ rspQueue i n := by
    simp only [run_rspFifo]
    exact GnrlFifo.pushed_eq_popped _ Nat.two_pos n
  have h' := congrArg (List.map Rsp.ofBits) h
  rw [List.map_append, map_log, map_log] at h'
  rw [map_log, masterRspLog]
  simpa only [masterRsp_eq, answer_eq_pushed hs] using h'

/-- The answers come in the order of the commands passed on. -/
private theorem targets_eq (hs : ∀ k, TiedOff i k ∨ AnswersOnce i k) (n : ℕ) :
    (log (fun m => passed (run i m) (i m)) n).map (fun c => target c.addr) =
      (log (answer i) n).map Prod.fst ++ (waitingPort i n).toList := by
  rw [map_log, map_log]
  refine (grants_eq_answers (fun n => (tracks hs n).rules hs) n).trans (congrArg (· ++ _) (log_congr fun m _ => ?_))
  rw [answer, Option.map_map]
  exact (congrFun Option.map_id _).symm

private theorem slaveCmdLog_eq (p : Port) (n : ℕ) : slaveCmdLog i p n =
    (log (fun m => passed (run i m) (i m)) n).filter fun c => target c.addr = p := by
  rw [filter_log, slaveCmdLog]
  exact log_congr fun m _ => slaveCmd_eq

private theorem slaveRspLog_eq (hs : ∀ k, TiedOff i k ∨ AnswersOnce i k) (p : Port) (n : ℕ) :
    slaveRspLog i p n = ((log (answer i) n).filter fun a => a.1 = p).map Prod.snd := by
  rw [filter_log, map_log, slaveRspLog]
  refine log_congr fun m _ => (slaveRsp_eq hs).trans ?_
  cases answer i m with
  | none => rfl
  | some a => by_cases h : a.1 = p <;> simp [Option.filter_some, h]

/-- A port is offered the command at the head of the buffer. -/
private theorem offered (hs : ∀ k, TiedOff i k ∨ AnswersOnce i k) (hv : portCmdValid (run i n) (i n) p = true) :
    ∃ c, ((cmdQueue i n).map Cmd.ofBits).head? = some c ∧ target c.addr = p ∧ portCmd (run i n) (i n) p = c := by
  have hv' := hv
  rw [portCmdValid_eq (tracks hs n).holds, Bool.and_eq_true, Bool.and_eq_true, decide_eq_true_iff] at hv'
  obtain ⟨ht, hb, -⟩ := hv'
  have hq := (holds_cmdFifo n).oVld_iff.1 hb
  refine ⟨bufCmd (run i n), ?_, by rw [← currentTarget_eq hb, ht], portCmd_eq hv⟩
  rw [List.head?_map, List.head?_eq_getElem?, (holds_cmdFifo n).oDat_eq (List.length_pos_iff.2 hq)]
  rfl

/-- The default slave answers with an error. -/
private theorem deft_err (n : ℕ) : ∀ r ∈ slaveRspLog i none n, r.err = true := by
  intro r hr
  obtain ⟨m, -, h⟩ := mem_log.1 hr
  rw [slaveRsp] at h
  split at h
  · rw [← Option.some.inj h]
  · exact absurd h (by simp)

theorem ledger (hs : ∀ k, TiedOff i k ∨ AnswersOnce i k) (n : ℕ) :
    Ledger i n (log (fun m => passed (run i m) (i m)) n) ((cmdQueue i n).map Cmd.ofBits) (log (answer i) n)
      (waitingPort i n) ((rspQueue i n).map Rsp.ofBits) where
  commands := masterCmdLog_eq n
  pending_le := (List.length_map _).trans_le (holds_cmdFifo n).length_le
  offered := fun _ => offered hs
  presented := fun p => slaveCmdLog_eq p n
  answered := targets_eq hs n
  given := fun p => slaveRspLog_eq hs p n
  responses := answerLog_eq hs n
  held_le := (List.length_map _).trans_le (holds_rspFifo n).length_le

/-- The response the master took with number `k` is one of the port of the command with this number. -/
theorem Ledger.mem_slaveRspLog {pass pending : List Cmd} {answers : List (Port × Rsp)} {outstanding : Option Port}
    {held : List Rsp} (hl : Ledger i n pass pending answers outstanding held) {k : ℕ} {c : Cmd} {r : Rsp}
    (hc : (masterCmdLog i n)[k]? = some c) (hr : (masterRspLog i n)[k]? = some r) :
    r ∈ slaveRspLog i (target c.addr) n := by
  have hans : (answers.map Prod.snd)[k]? = some r := by
    rw [hl.responses, List.getElem?_append_left (List.getElem?_eq_some_iff.1 hr).1, hr]
  rw [List.getElem?_map, Option.map_eq_some_iff] at hans
  obtain ⟨q, hq, rfl⟩ := hans
  have htgt : (pass.map fun c => target c.addr)[k]? = some q.1 := by
    rw [hl.answered, List.getElem?_append_left (by simpa using (List.getElem?_eq_some_iff.1 hq).1), List.getElem?_map,
      hq, Option.map_some]
  rw [List.getElem?_map, Option.map_eq_some_iff] at htgt
  obtain ⟨c', hc', hq1⟩ := htgt
  rw [hl.commands, List.getElem?_append_left (List.getElem?_eq_some_iff.1 hc').1, hc'] at hc
  obtain rfl := Option.some.inj hc
  rw [hl.given, hq1]
  exact List.mem_map_of_mem (List.mem_filter.2 ⟨List.mem_of_getElem? hq, by simp⟩)

/-! ### Progress -/

/-- Nothing is left in the response FIFO when the master takes no response from cycle `k` on. -/
private theorem rspQueue_empty (hf : Fair i) {k : ℕ} (hq : ∀ m, k ≤ m → masterRsp (run i m) (i m) = none) {m : ℕ}
    (hm : k ≤ m) : rspQueue i m = [] := by
  by_contra hne
  have hpop : ∀ j, m ≤ j → GnrlFifo.popped (run i j).rspFifo (rspFifoInput (run i j) (i j)) = none := by
    intro j hj
    have := hq j (by omega)
    rwa [masterRsp_eq, Option.map_eq_none_iff] at this
  have hstay : ∀ j, m ≤ j → iRspValid (run i j) = true := by
    intro j hj
    induction j, hj using Nat.le_induction with
    | base => exact (holds_rspFifo m).oVld_iff.2 hne
    | succ j hj ih => exact ((holds_rspFifo j).stays ih (hpop j hj)).1
  obtain ⟨r, hr, hrdy⟩ := hf.takes m (hstay m le_rfl)
  have := hq r (by omega)
  rw [masterRsp, hstay r hr, hrdy] at this
  exact absurd this (by simp)

/-- From then on no slave hands over a response. -/
private theorem not_answered {k : ℕ} (hempty : ∀ m, k ≤ m → rspQueue i m = []) {m : ℕ} (hm : k ≤ m) :
    bufRspReady (run i m) (i m) = true ∧ answered i m = false := by
  refine ⟨(holds_rspFifo m).iRdy_iff.2 (Or.inl (by simp [hempty m hm])), ?_⟩
  by_contra h
  have hlen := congrArg List.length (hempty (m + 1) (by omega))
  have hwen : GnrlFifo.wen true (run i m).rspFifo (rspFifoInput (run i m) (i m)) = true :=
    (Bool.not_eq_false _).mp h
  have hnextq : rspQueue i (m + 1) = GnrlFifo.nextQueue true (run i m).rspFifo (rspFifoInput (run i m) (i m))
      (rspQueue i m) := by rw [run_rspFifo]; rfl
  rw [hnextq, GnrlFifo.length_nextQueue, hwen] at hlen
  simp at hlen

/-- From then on no response is outstanding. -/
private theorem waitingPort_none (hs : ∀ k, TiedOff i k ∨ AnswersOnce i k) (hf : Fair i) {k : ℕ}
    (hempty : ∀ m, k ≤ m → rspQueue i m = []) {m : ℕ} (hm : k ≤ m) : waitingPort i m = none := by
  by_contra hw
  obtain ⟨p, hp⟩ := Option.ne_none_iff_exists'.1 hw
  obtain _ | c := p
  · exact (tracks hs m).notDeft hp
  have hno : ∀ j, m ≤ j → answers i j (some c) = false := by
    intro j hj
    by_contra ha
    have := (tracks hs j).answered_iff.2 ⟨some c, by simpa using ha⟩
    rw [(not_answered hempty (show k ≤ j by omega)).2] at this
    exact absurd this (by simp)
  have hstay : ∀ j, m ≤ j → waitingPort i j = some (some c) := by
    intro j hj
    induction j, hj using Nat.le_induction with
    | base => exact hp
    | succ j hj ih => simp [waitingPort_succ, servingPort_eq, ih, hno j hj]
  have howed := (tracks hs m).balance.each (some c)
  rw [if_pos hp] at howed
  obtain ⟨r, hr, hv⟩ := hf.answers c m (by
    rw [slaveRspLog, slaveCmdLog, length_log, length_log]
    simp only [← granted_eq_some_iff]
    exact howed ▸ Nat.lt_succ_self _)
  have ha := hno r hr
  rw [answers_eq, portRspReady_eq (tracks hs r).holds, hstay r hr, (not_answered hempty (show k ≤ r by omega)).1] at ha
  simp [portRspValid, hv] at ha

/-- From then on the splitter passes no command on. -/
private theorem not_passed (hs : ∀ k, TiedOff i k ∨ AnswersOnce i k) (hf : Fair i) {k : ℕ}
    (hempty : ∀ m, k ≤ m → rspQueue i m = []) {m : ℕ} (hm : k ≤ m) : (passed (run i m) (i m)).isSome = false := by
  by_contra hg
  have hserve : servingPort i m = some (currentTarget (run i m)) := by
    rw [servingPort_eq, waitingPort_none hs hf hempty hm, granted_eq, if_pos ((Bool.not_eq_false _).mp hg)]; rfl
  have hno := (not_answered hempty hm).2
  rw [(tracks hs m).answered_eq hs hserve] at hno
  -- the command would be outstanding in the next cycle
  have hnext := waitingPort_none hs hf hempty (show k ≤ m + 1 by omega)
  simp [waitingPort_succ, hserve, hno] at hnext

/-- The command at the head of the buffer stays there while none is passed on. -/
private theorem bufCmd_stays {k : ℕ} (hpass : ∀ m, k ≤ m → (passed (run i m) (i m)).isSome = false)
    (hv : bufCmdValid (run i k) = true) {m : ℕ} (hm : k ≤ m) :
    bufCmdValid (run i m) = true ∧ bufCmd (run i m) = bufCmd (run i k) := by
  induction m, hm using Nat.le_induction with
  | base => exact ⟨hv, rfl⟩
  | succ m hm ih =>
    have hpop : GnrlFifo.popped (run i m).cmdFifo (cmdFifoInput (run i m) (i m)) = none := by
      have := hpass m hm
      rwa [passed_eq_popped, Option.isSome_map, Option.isSome_eq_false_iff, Option.isNone_iff_eq_none] at this
    obtain ⟨hv', hd⟩ := (holds_cmdFifo m).stays ih.1 hpop
    exact ⟨hv', (congrArg Cmd.ofBits hd).trans ih.2⟩

/-- From then on no command is left in the command FIFO. -/
private theorem cmdQueue_empty (hs : ∀ k, TiedOff i k ∨ AnswersOnce i k) (hf : Fair i) {k : ℕ}
    (hempty : ∀ m, k ≤ m → rspQueue i m = []) : cmdQueue i k = [] := by
  by_contra hne
  have hwait : ∀ m, k ≤ m → waitingPort i m = none := fun m => waitingPort_none hs hf hempty
  have hpass : ∀ m, k ≤ m → (passed (run i m) (i m)).isSome = false := fun m => not_passed hs hf hempty
  have hstay : ∀ m, k ≤ m → bufCmdValid (run i m) = true ∧ bufCmd (run i m) = bufCmd (run i k) :=
    fun m => bufCmd_stays hpass ((holds_cmdFifo k).oVld_iff.2 hne)
  have htarget : ∀ m, k ≤ m → currentTarget (run i m) = target (bufCmd (run i k)).addr := fun m hm => by
    rw [currentTarget_eq (hstay m hm).1, (hstay m hm).2]
  -- its target takes it at some time
  have hrdy : ∃ m, k ≤ m ∧ portCmdReady (run i m) (i m) (currentTarget (run i m)) = true := by
    cases ht : target (bufCmd (run i k)).addr with
    | none =>
      refine ⟨k, le_rfl, ?_⟩
      have hdeft : portCmdReady (run i k) (i k) none = portRspReady (run i k) (i k) none := rfl
      rw [htarget k le_rfl, ht, hdeft, portRspReady_eq (tracks hs k).holds, hwait k le_rfl, htarget k le_rfl, ht,
        (not_answered hempty le_rfl).1]
      rfl
    | some c =>
      obtain ⟨m, hm, hr⟩ := hf.accepts c k fun m hm => by
        rw [portCmdValid_eq (tracks hs m).holds, htarget m hm, ht, (hstay m hm).1, hwait m hm]
        simp
      exact ⟨m, hm, by rw [htarget m hm, ht]; exact hr⟩
  obtain ⟨m, hm, hr⟩ := hrdy
  have := hpass m hm
  rw [passed_isSome_eq (tracks hs m).holds, (hstay m hm).1, hwait m hm, hr] at this
  exact absurd this (by simp)

/-- Each command is answered if everybody is fair. -/
private theorem complete (hs : ∀ k, TiedOff i k ∨ AnswersOnce i k) (hf : Fair i) (n : ℕ) :
    ∃ m, (masterCmdLog i n).length ≤ (masterRspLog i m).length := by
  by_contra hno
  push Not at hno
  obtain ⟨k, hnk, hquiet⟩ := exists_quiet hno n
  have hempty : ∀ m, k ≤ m → rspQueue i m = [] := fun m => rspQueue_empty hf hquiet
  have hcmd := congrArg List.length (masterCmdLog_eq (i := i) k)
  have htgt := congrArg List.length (targets_eq hs k)
  have hrsp := congrArg List.length (answerLog_eq hs k)
  rw [cmdQueue_empty hs hf hempty] at hcmd
  rw [waitingPort_none hs hf hempty le_rfl] at htgt
  rw [hempty k le_rfl] at hrsp
  simp only [List.length_append, List.length_map, List.map_nil, List.length_nil, Option.toList_none] at hcmd htgt hrsp
  have hle : (masterCmdLog i n).length ≤ (masterCmdLog i k).length := length_log_le _ hnk
  have := hno k
  omega

/-- The fabric routes, in every run with slaves that answer each command once, at any time, or are tied off. -/
theorem fabric_routes (hs : ∀ k, TiedOff i k ∨ AnswersOnce i k) : FabricRoutes i where
  window := fun _ _ => target_eq_some_iff
  default := fun _ => target_eq_none_iff
  ledger := fun n => ⟨_, _, _, _, _, ledger hs n⟩
  defaultErr := deft_err
  complete := complete hs

end Runs

/-- A write to port 0, whose slave answers in cycle 3, a read from port 4, and a write outside the windows; all other
ports are tied off. -/
def fabricTraffic (n : ℕ) : Input where
  iCmdValid := n < 3
  iCmd :=
    { read := n == 1, addr := if n = 0 then 0x10000004#32 else if n = 1 then 0x10013000#32 else 0, wdata := 7,
      wmask := 0b1111#4, lock := false, excl := false, size := 2, burst := 0, beat := 0 }
  iRspReady := true
  oCmdReady := fun _ => true
  oRspValid := fun k => k != 0 || n == 3
  oRsp := fun k => { err := false, exclOk := false, rdata := BitVec.ofNat 32 k }

theorem slaves_fabricTraffic (k : Fin 16) : TiedOff fabricTraffic k ∨ AnswersOnce fabricTraffic k := by
  by_cases hk : k = 0
  · subst hk
    refine Or.inr fun n hn => ?_
    obtain rfl : n = 3 := by simpa [fabricTraffic] using hn
    decide +kernel
  · exact Or.inl fun n => ⟨rfl, by simp [fabricTraffic, hk]⟩

/-- Port 0 gets one command, that of cycle 0. -/
private theorem slaveCmdLog_fabricTraffic (n : ℕ) : (slaveCmdLog fabricTraffic (some 0) n).length ≤ 1 := by
  have hl := ledger slaves_fabricTraffic n
  have hone : ∀ m, (((masterCmd (run fabricTraffic m) (fabricTraffic m)).filter
      fun c => target c.addr = some 0).isSome = true) → m = 0 := by
    intro m hm
    by_contra hne
    rw [masterCmd] at hm
    split at hm
    · rw [Option.filter_some] at hm
      split at hm
      next h =>
        have haddr : (fabricTraffic m).iCmd.addr = if m = 1 then 0x10013000#32 else 0 := by simp [fabricTraffic, hne]
        rw [haddr] at h
        split at h <;> exact absurd h (by decide)
      · exact absurd hm (by simp)
    · exact absurd hm (by simp)
  rw [hl.presented]
  have hle : ((log (fun m => passed (run fabricTraffic m) (fabricTraffic m)) n).filter
      fun c => target c.addr = some 0).length ≤
      ((masterCmdLog fabricTraffic n).filter fun c => target c.addr = some 0).length := by
    rw [hl.commands, List.filter_append, List.length_append]
    omega
  refine hle.trans ?_
  rw [masterCmdLog, filter_log, length_log]
  cases n with
  | zero => exact Nat.zero_le _
  | succ n =>
    rw [Nat.count_succ', Nat.count_of_forall_not fun m _ h => absurd (hone _ h) (by omega)]
    split <;> omega

theorem fair_fabricTraffic : Fair fabricTraffic := by
  refine ⟨fun k n _ => ⟨n, le_rfl, rfl⟩, fun k n h => ?_, fun n _ => ⟨n, le_rfl, rfl⟩⟩
  by_cases hk : k = 0
  · subst hk
    refine ⟨3, ?_, rfl⟩
    by_contra hn
    have hle := slaveCmdLog_fabricTraffic n
    have hge : 1 ≤ (slaveRspLog fabricTraffic (some 0) n).length :=
      le_trans (by decide +kernel) (length_log_le _ (show 4 ≤ n by omega))
    omega
  · exact ⟨n, le_rfl, by simp [fabricTraffic, hk]⟩

theorem fabric_routes_fabricTraffic : FabricRoutes fabricTraffic ∧ Fair fabricTraffic :=
  ⟨fabric_routes slaves_fabricTraffic, fair_fabricTraffic⟩

end Icb1to16Bus
