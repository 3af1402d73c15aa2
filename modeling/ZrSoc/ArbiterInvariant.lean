import ZrSoc.ArbiterPhases

/-!
# The reachable states of the arbiter

In a run with a debug module that responds only to an accepted and unanswered request, the registers are those of one
transaction at a time (`Tracks`).  This gives the invariant of the handshake flops (`reachable_invariant`): the four
`always_ff` blocks of ready and valid flops agree with the transaction FSM in every cycle.
-/

namespace DmiArbiter

open Sync Sync.Transaction

variable {q r : ℕ} {i : ℕ → Input q r}

/-! ### The logs of a run are those of the abstract component -/

theorem acceptLog_eq (hdm : DmAnswersOnce i) (n : ℕ) :
    acceptLog i n = log (fun m => (phases i m).accepted (events (run i m) (i m))) n :=
  log_congr fun m _ => accepted_eq (tracks hdm m).shows (i m)

theorem dmReqLog_eq (hdm : DmAnswersOnce i) (n : ℕ) :
    dmReqLog i n = log (fun m => (phases i m).taken (events (run i m) (i m))) n :=
  log_congr fun m _ => dmReqHandshake_eq (tracks hdm m)

def answeredReqs (i : ℕ → Input q r) : ℕ → List ((Port × BitVec q) × BitVec r) :=
  log fun m => (phases i m).answered (events (run i m) (i m))

theorem dmRspLog_eq (hdm : DmAnswersOnce i) (n : ℕ) : dmRspLog i n = (answeredReqs i n).map Prod.snd := by
  rw [answeredReqs, map_log]
  exact log_congr fun m _ => dmRspHandshake_eq (tracks hdm m).shows ((tracks hdm m).inTurn hdm)

theorem acceptLog_eq_dmReqLog (hdm : DmAnswersOnce i) (n : ℕ) :
    acceptLog i n = dmReqLog i n ++ (phases i n).asking := by
  rw [acceptLog_eq hdm, dmReqLog_eq hdm]
  exact accepted_eq_taken (fun m => events (run i m) (i m)) n

theorem dmReqLog_eq_answeredReqs (hdm : DmAnswersOnce i) (n : ℕ) :
    dmReqLog i n = (answeredReqs i n).map Prod.fst ++ (phases i n).unanswered := by
  rw [dmReqLog_eq hdm]
  exact taken_eq_answered (fun m => events (run i m) (i m)) n

theorem answeredReqs_eq_consumed (n : ℕ) : answeredReqs i n =
    log (fun m => (phases i m).consumed (events (run i m) (i m))) n ++ (phases i n).offered :=
  answered_eq_consumed (fun m => events (run i m) (i m)) n

/-- The response that is presented answers the last request. -/
theorem last_of_response (hdm : DmAnswersOnce i) {n k : ℕ} {p : Port} {a : BitVec q} {b : BitVec r}
    (hp : phases i n = .response p a b) (hk : (acceptLog i n).length = k + 1) :
    (dmReqLog i n)[k]? = some (p, a) ∧ (dmRspLog i n)[k]? = some b := by
  have htaken := acceptLog_eq_dmReqLog hdm n
  have hans := dmReqLog_eq_answeredReqs hdm n
  have hcons := answeredReqs_eq_consumed (i := i) n
  simp only [hp, Phase.asking, Phase.unanswered, Phase.offered, List.append_nil] at htaken hans hcons
  have hlast : (answeredReqs i n)[k]? = some ((p, a), b) := by
    rw [htaken, hans, List.length_map, hcons, List.length_append, List.length_singleton,
      Nat.add_right_cancel_iff] at hk
    rw [hcons, ← hk, List.getElem?_concat_length]
  constructor
  · rw [hans, List.getElem?_map, hlast]; rfl
  · rw [dmRspLog_eq hdm, List.getElem?_map, hlast]; rfl

/-- The entries of port `p` in a list of entries tagged with their ports. -/
def forPort {α : Type*} (p : Port) (l : List (Port × α)) : List α :=
  l.filterMap fun e => if e.1 = p then some e.2 else none

@[simp] theorem forPort_nil {α : Type*} (p : Port) : forPort p ([] : List (Port × α)) = [] := rfl

@[simp] theorem forPort_append {α : Type*} (p : Port) (l l' : List (Port × α)) :
    forPort p (l ++ l') = forPort p l ++ forPort p l' := List.filterMap_append

@[simp] theorem forPort_singleton {α : Type*} (p p' : Port) (a : α) :
    forPort p [(p', a)] = if p' = p then [a] else [] := by
  by_cases h : p' = p <;> simp [forPort, h]

theorem length_forPort {α : Type*} (l : List (Port × α)) :
    (forPort .dtm0 l).length + (forPort .dtm1 l).length = l.length := by
  induction l with
  | nil => rfl
  | cons e l ih => rcases e with ⟨_ | _, a⟩ <;> simp [forPort] at ih ⊢ <;> omega

/-- The responses the ports have taken, tagged with their ports. -/
def consumedLog (i : ℕ → Input q r) (n : ℕ) : List (Port × BitVec r) :=
  (log (fun m => (phases i m).consumed (events (run i m) (i m))) n).map fun c => (c.1.1, c.2)

theorem rspLog_eq (hdm : DmAnswersOnce i) (p : Port) (n : ℕ) : rspLog i p n = forPort p (consumedLog i n) := by
  rw [forPort, consumedLog, List.filterMap_map, filterMap_log]
  exact log_congr fun m _ => rspHandshake_eq (tracks hdm m).shows (i m) p

/-- The accepted requests that are not consumed are those of the current transaction. -/
theorem length_acceptLog (hdm : DmAnswersOnce i) (n : ℕ) :
    (acceptLog i n).length = (rspLog i .dtm0 n).length + (rspLog i .dtm1 n).length +
      ((phases i n).asking.length + (phases i n).unanswered.length + (phases i n).offered.length) := by
  have h1 := congrArg List.length (acceptLog_eq_dmReqLog hdm n)
  have h2 := congrArg List.length (dmReqLog_eq_answeredReqs hdm n)
  have h3 := congrArg List.length (answeredReqs_eq_consumed (i := i) n)
  rw [rspLog_eq hdm, rspLog_eq hdm, length_forPort, consumedLog, List.length_map]
  simp only [List.length_append, List.length_map] at h1 h2 h3
  omega

/-! ### The invariant -/

/-- Both DTMs raise a request in the first cycle and obey ready-valid; the debug module takes the request it is
offered at once and answers it in the next cycle. -/
def contention (n : ℕ) : Input 41 34 where
  dtm0ReqVld := n == 0
  dtm0ReqBits := 1
  dtm0RspRdy := true
  dtm1ReqVld := n == 0
  dtm1ReqBits := 2
  dtm1RspRdy := true
  dmReqRdy := true
  dmRspVld := n == 2
  dmRspBits := 3

theorem contention_dm : DmAnswersOnce contention := by
  intro n hn
  obtain rfl : n = 2 := by simpa [contention] using hn
  decide

/-- At most one port is presented a response. -/
theorem not_both_rspVld (hdm : DmAnswersOnce i) (n : ℕ) :
    ¬ ((run i n).dtm0RspVld = true ∧ (run i n).dtm1RspVld = true) := by
  rintro ⟨h0, h1⟩
  have hno : (run i n).rspVld .dtm1 = false := (tracks hdm n).shows.rspVld_other (p := .dtm0) h0
  exact absurd h1 (by simpa [State.rspVld] using hno)

/-- What holds of the registers, the inputs and the traffic of the ports in cycle `n`. -/
structure CycleInvariant (i : ℕ → Input q r) (n : ℕ) : Prop where
  /-- the assertion of `p_dtm_src_last` -/
  exclusive : ¬ (dtm0ReqAccept (run i n) (i n) ∧ dtm1ReqAccept (run i n) (i n))
  oneOutstanding : (acceptLog i n).length ≤ (rspLog i .dtm0 n).length + (rspLog i .dtm1 n).length + 1
  quiet : (run i n).transFsmQ = .qReq →
    (run i n).dmReqVld = false ∧ (run i n).dtm0RspVld = false ∧ (run i n).dtm1RspVld = false ∧
    (run i n).dtm0ReqRdy = true ∧ (run i n).dtm1ReqRdy = true ∧
    (dmReqLog i n).length = (dmRspLog i n).length ∧
    (acceptLog i n).length = (rspLog i .dtm0 n).length + (rspLog i .dtm1 n).length
  offering : (run i n).dmReqVld = true →
    (run i n).transFsmQ = .qRsp ∧ ((run i n).dtm0ReqRdy = false ↔ (run i n).dtm1ReqRdy = true)
  rspRdy : (run i n).dmRspRdy = false ↔ (run i n).dtm0RspVld = true ∨ (run i n).dtm1RspVld = true
  oneResponse : ¬ ((run i n).dtm0RspVld = true ∧ (run i n).dtm1RspVld = true)
  stable : (run i n).dmReqVld = true → (i n).dmReqRdy = false →
    (run i (n + 1)).dmReqBits = (run i n).dmReqBits

/-- In every cycle of a run with a debug module that responds only to an accepted and unanswered request, under any
inputs on the DTM ports, the handshake flops and the FSM are consistent. -/
theorem reachable_invariant (hdm : DmAnswersOnce i) (n : ℕ) : CycleInvariant i n := by
  have ht := tracks hdm n
  have hlen := length_acceptLog hdm n
  have howed := ht.owed
  have hs := ht.shows
  refine ⟨not_both_accepted _ _, ?_, ?_, ?_, ?_, not_both_rspVld hdm n, ?_⟩
  · cases hp : phases i n <;> simp [hp, Phase.asking, Phase.unanswered, Phase.offered] at hlen <;> omega
  · intro hq
    cases hp : phases i n with
    | idle =>
      simp only [hp, Phase.asking, Phase.unanswered, Phase.offered, List.length_nil] at hlen howed hs
      obtain ⟨-, hv, hr, -, hrv⟩ := hs
      exact ⟨hv, hrv .dtm0, hrv .dtm1, hr .dtm0, hr .dtm1, by omega, by omega⟩
    | request p a | waiting p a | response p a b =>
      rw [hp] at hs
      exact absurd (hq.symm.trans hs.1) (by decide)
  · intro hv
    cases hp : phases i n with
    | request p a =>
      rw [hp] at hs
      obtain ⟨hf, -, hr, hro, -⟩ := hs
      refine ⟨hf, ?_⟩
      cases p <;> simp_all [State.reqRdy, Port.other]
    | idle | waiting p a | response p a b =>
      rw [hp] at hs
      exact absurd (hv.symm.trans hs.2.1) (by decide)
  · rw [hs.dmRspRdy_iff]
    constructor
    · rintro ⟨p, hv⟩
      cases p with
      | dtm0 => exact Or.inl hv
      | dtm1 => exact Or.inr hv
    · rintro (hv | hv)
      · exact ⟨.dtm0, hv⟩
      · exact ⟨.dtm1, hv⟩
  · intro hv _
    cases hp : phases i n with
    | request p a =>
      rw [hp] at hs
      obtain ⟨h0, h1⟩ := not_accept_of_qRsp hs.1 (i n)
      simp [run_succ, edge, h0, h1]
    | idle | waiting p a | response p a b =>
      rw [hp] at hs
      exact absurd (hv.symm.trans hs.2.1) (by decide)

theorem reachable_invariant_contention : CycleInvariant contention 2 := reachable_invariant contention_dm 2

end DmiArbiter
