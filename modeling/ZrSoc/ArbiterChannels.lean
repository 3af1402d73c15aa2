import ZrSoc.ArbiterInvariant

/-!
# The request and response channels of the arbiter

A port sees its request handed over in every cycle with `req_vld` and `req_rdy` both high, but the arbiter acts on the
request only if the FSM is in `Q_REQ` and the fair arbitration selects the port.  So the requests of a port reach the
debug module, each once and in order, exactly in the runs in which these two agree in every handshake
(`requests_kept_iff`); two DTMs that raise a request in the same cycle are enough to lose one
(`requests_not_kept`).

Responses are never lost or misrouted (`responses_routed`): the answer to the `k`-th request handed to the debug
module goes to the port the request came from, once, and nothing else does.
-/

namespace DmiArbiter

open Sync Sync.Transaction

variable {q r : ℕ} {i : ℕ → Input q r}

/-! ### Requests -/

/-- The request of port `p` that waits in `dm_req_bits`. -/
def waitingReq (i : ℕ → Input q r) (p : Port) (n : ℕ) : List (BitVec q) :=
  if (run i n).dmReqVld ∧ reqSource i n = p then [(run i n).dmReqBits] else []

/-- Up to cycle `n`, the requests handed to the debug module that came from port `p` are those of the handshakes of
port `p`, in order, the last one possibly still waiting. -/
def RequestsKept (i : ℕ → Input q r) (p : Port) (n : ℕ) : Prop :=
  reqLog i p n = forPort p (dmReqLog i n) ++ waitingReq i p n

theorem forPort_acceptLog (p : Port) (n : ℕ) :
    forPort p (acceptLog i n) =
      log (fun m => if reqAccept (run i m) (i m) p then some ((i m).reqBits p) else none) n := by
  rw [forPort, acceptLog, filterMap_log]
  refine log_congr fun m _ => ?_
  have hnot := not_both_accepted (run i m) (i m)
  cases p <;> cases h0 : dtm0ReqAccept (run i m) (i m) <;> cases h1 : dtm1ReqAccept (run i m) (i m) <;>
    simp_all [accepted, reqAccept, Input.reqBits]

/-- What the arbiter accepts reaches the debug module. -/
theorem accepted_kept (hdm : DmAnswersOnce i) (p : Port) (n : ℕ) :
    forPort p (acceptLog i n) = forPort p (dmReqLog i n) ++ waitingReq i p n := by
  rw [acceptLog_eq_dmReqLog hdm, forPort_append]
  congr 1
  obtain ⟨hs, hsrc, -⟩ := tracks hdm n
  cases hp : phases i n with
  | idle | waiting p' a | response p' a b => rw [hp] at hs; simp [Phase.asking, waitingReq, hs.2.1]
  | request p' a =>
    rw [hp] at hs
    obtain ⟨-, hv, -, -, -, -, -, hb⟩ := hs
    simp [Phase.asking, waitingReq, hv, hb, hsrc p' a hp]

/-- The requests of port `p` are kept up to cycle `n` if and only if in every earlier handshake of the port the
transaction FSM was in `Q_REQ` and the other port did not have the right of way. -/
theorem requests_kept_iff (hdm : DmAnswersOnce i) (p : Port) (n : ℕ) :
    RequestsKept i p n ↔ ∀ m < n, (i m).reqVld p → (run i m).reqRdy p →
      (run i m).transFsmQ = .qReq ∧ ((run i m).dtmSrcLast ≠ p.index ∨ (i m).reqVld p.other = false) := by
  rw [RequestsKept, ← accepted_kept hdm, forPort_acceptLog, reqLog, log_eq_iff]
  · refine forall₂_congr fun m _ => ?_
    simp only [reqHandshake, reqAccept_eq, reqAllow_eq, Bool.and_eq_true, beq_iff_eq, Bool.or_eq_true, bne_iff_ne,
      Bool.not_eq_true']
    by_cases hv : (i m).reqVld p = true <;> by_cases hr : (run i m).reqRdy p = true <;> simp [hv, hr]
    tauto
  · intro m
    simp only [reqHandshake, reqAccept_eq, Bool.and_eq_true]
    by_cases hv : (i m).reqVld p = true <;> by_cases hr : (run i m).reqRdy p = true <;>
      by_cases ha : reqAllow (run i m) (i m) p = true <;> simp [hv, hr, ha]

theorem contention_readyValid (p : Port) : ReadyValid contention p := by
  intro n hv hr
  obtain rfl : n = 0 := by cases p <;> simpa [contention, Input.reqVld] using hv
  exact absurd (by cases p <;> rfl) hr

/-- Port 0 sees the handshake of a request that the arbiter never takes. -/
theorem requests_not_kept : ¬ ∀ i : ℕ → Input 41 34, DmAnswersOnce i → (∀ p, ReadyValid i p) →
    ∀ p n, RequestsKept i p n := by
  intro h
  have := h contention contention_dm contention_readyValid .dtm0 1
  revert this
  unfold RequestsKept
  decide

theorem requests_kept_contention : RequestsKept contention .dtm1 4 :=
  (requests_kept_iff contention_dm .dtm1 4).2 (by decide)

/-! ### Responses -/

/-- The responses of the debug module, each with the port whose request it answers: the `k`-th response answers the
`k`-th request. -/
def answeredLog (i : ℕ → Input q r) (n : ℕ) : List (Port × BitVec r) :=
  ((dmReqLog i n).map Prod.fst).zip (dmRspLog i n)

/-- The response presented to port `p`. -/
def presentedRsp (i : ℕ → Input q r) (p : Port) (n : ℕ) : List (BitVec r) :=
  if (run i n).rspVld p then [(run i n).dtmRspBits] else []

/-- The response channel in cycle `n`. -/
structure ResponsesRouted (i : ℕ → Input q r) (n : ℕ) : Prop where
  /-- each answer to a request of `p` is taken by `p` exactly once, in order and unchanged, or is being presented to
  `p`, and nothing else is taken by or presented to `p` -/
  once : ∀ p, forPort p (answeredLog i n) = rspLog i p n ++ presentedRsp i p n
  /-- a response of the debug module is presented to the port of the request it answers, and to no other -/
  presented : ∀ b, dmRspHandshake (run i n) (i n) = some b →
    ∃ p, (answeredLog i (n + 1))[(dmRspLog i n).length]? = some (p, b) ∧
      (run i (n + 1)).rspVld p = true ∧ (run i (n + 1)).rspVld p.other = false ∧ (run i (n + 1)).dtmRspBits = b
  /-- it stays until the port is ready -/
  held : ∀ p, (run i n).rspVld p = true → (i n).rspRdy p = false →
    (run i (n + 1)).rspVld p = true ∧ (run i (n + 1)).dtmRspBits = (run i n).dtmRspBits
  /-- a port that sees a response has more accepted requests than responses taken -/
  asked : ∀ p, (run i n).rspVld p = true →
    (run i n).rspVld p.other = false ∧ (rspLog i p n).length < (forPort p (acceptLog i n)).length

private theorem answeredLog_eq (hdm : DmAnswersOnce i) (n : ℕ) :
    answeredLog i n = (answeredReqs i n).map fun c => (c.1.1, c.2) := by
  rw [answeredLog, dmReqLog_eq_answeredReqs hdm, dmRspLog_eq hdm]
  generalize answeredReqs i n = l
  induction l with
  | nil => simp
  | cons c l ih => simpa using ih

private theorem length_forPort_zip (p : Port) (l : List (Port × BitVec q)) (l' : List (BitVec r)) :
    (forPort p ((l.map Prod.fst).zip l')).length ≤ (forPort p l).length := by
  induction l generalizing l' with
  | nil => simp
  | cons e l ih =>
    cases l' with
    | nil => simp
    | cons b l' =>
      have := ih l'
      rcases e with ⟨p', a⟩
      by_cases h : p' = p <;> simp_all [forPort]

/-- The answers are those taken and the one of the current phase. -/
private theorem answeredLog_eq_consumedLog (hdm : DmAnswersOnce i) (n : ℕ) :
    answeredLog i n = consumedLog i n ++ (phases i n).offered.map fun c => (c.1.1, c.2) := by
  rw [answeredLog_eq hdm, answeredReqs_eq_consumed, List.map_append, consumedLog]

private theorem forPort_offered (hdm : DmAnswersOnce i) (p : Port) (n : ℕ) :
    forPort p ((phases i n).offered.map fun c => (c.1.1, c.2)) = presentedRsp i p n := by
  have hs := (tracks hdm n).shows
  unfold presentedRsp
  cases hv : (run i n).rspVld p with
  | true =>
    obtain ⟨a, hp⟩ := hs.response_of_rspVld hv
    simp [hp, Phase.offered, forPort]
  | false =>
    cases hp : phases i n with
    | idle | request p' a | waiting p' a => simp [Phase.offered, forPort]
    | response p' a b =>
      rw [hp] at hs
      have hne : p' ≠ p := by
        rintro rfl
        exact absurd hs.2.2.2.2.1 (by simp [hv])
      simp [Phase.offered, forPort, hne]

/-- In the cycle after a response of the debug module the registers present it to the port it is for. -/
private theorem presented_step (hdm : DmAnswersOnce i) {n : ℕ} {b : BitVec r}
    (h : dmRspHandshake (run i n) (i n) = some b) :
    ∃ p a, (phases i n).answered (events (run i n) (i n)) = some ((p, a), b) ∧
      phases i (n + 1) = .response p a b := by
  have ht := tracks hdm n
  rw [dmRspHandshake_eq ht.shows (ht.inTurn hdm)] at h
  obtain ⟨⟨⟨p, a⟩, b'⟩, hc, rfl⟩ := Option.map_eq_some_iff.1 h
  refine ⟨p, a, hc, ?_⟩
  rw [phases_succ]
  cases hp : phases i n with
  | idle | response p' a' b'' => rw [hp] at hc; exact absurd hc (by simp [Phase.answered])
  | request p' a' =>
    rw [hp] at hc
    simp only [Phase.answered] at hc
    split at hc
    · obtain ⟨b'', hb, he⟩ := Option.map_eq_some_iff.1 hc
      simp_all [Phase.next]
    · exact absurd hc (by simp)
  | waiting p' a' =>
    rw [hp] at hc
    simp only [Phase.answered] at hc
    obtain ⟨b'', hb, he⟩ := Option.map_eq_some_iff.1 hc
    simp_all [Phase.next]

/-- A response that its port does not take is presented again in the next cycle. -/
private theorem presented_stays (hdm : DmAnswersOnce i) {p : Port} {n : ℕ} (hv : (run i n).rspVld p = true)
    (hr : (i n).rspRdy p = false) :
    (run i (n + 1)).rspVld p = true ∧ (run i (n + 1)).dtmRspBits = (run i n).dtmRspBits := by
  have hs := (tracks hdm n).shows
  have hs' := (tracks hdm (n + 1)).shows
  obtain ⟨a, hp⟩ := hs.response_of_rspVld hv
  have hnc : (events (run i n) (i n)).consume = false := by rw [events, hs.servedPort_eq hv, hr]
  rw [phases_succ, hp] at hs'
  simp only [Phase.next, hnc, Bool.false_eq_true, ↓reduceIte] at hs'
  obtain ⟨-, -, -, -, hrv', -, -, hb'⟩ := hs'
  exact ⟨hrv', hb'⟩

private theorem answered_once (hdm : DmAnswersOnce i) (p : Port) (n : ℕ) :
    forPort p (answeredLog i n) = rspLog i p n ++ presentedRsp i p n := by
  rw [answeredLog_eq_consumedLog hdm, forPort_append, rspLog_eq hdm, forPort_offered hdm]

/-- The response channel routes every response to the port whose request it answers, in every cycle of a run with a
debug module that responds only to an accepted and unanswered request, whatever the DTMs do. -/
theorem responses_routed (hdm : DmAnswersOnce i) (n : ℕ) : ResponsesRouted i n := by
  refine ⟨fun p => answered_once hdm p n, ?_, fun p => presented_stays hdm, ?_⟩
  · intro b hb
    obtain ⟨p, a, hc, hp⟩ := presented_step hdm hb
    have hs' := (tracks hdm (n + 1)).shows
    rw [hp] at hs'
    obtain ⟨-, -, -, -, hrv, hro, -, hbits⟩ := hs'
    refine ⟨p, ?_, hrv, hro, hbits⟩
    rw [answeredLog_eq hdm, dmRspLog_eq hdm, answeredReqs, log_succ, hc]
    simp
  · intro p hv
    refine ⟨(tracks hdm n).shows.rspVld_other hv, ?_⟩
    have hle := length_forPort_zip p (dmReqLog i n) (dmRspLog i n)
    have hlen := congrArg List.length (answered_once hdm p n)
    rw [answeredLog, List.length_append, presentedRsp, if_pos hv, List.length_singleton] at hlen
    rw [accepted_kept hdm, List.length_append]
    omega

theorem responses_routed_contention : ResponsesRouted contention 4 := responses_routed contention_dm 4

end DmiArbiter
