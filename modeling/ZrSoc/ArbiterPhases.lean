import ZrSoc.DmiArbiter
import ZrSoc.Sync.Transaction

/-!
# The arbiter serves one request at a time

The control registers of the arbiter are those of a transaction in one of the four phases of `Sync.Transaction`:
the request FSM leaves `Q_REQ` exactly while a transaction is going on, a port's ready flop is low exactly while its
request is offered to the debug module, and a port's response valid flop is high exactly while a response is offered
to it (`Shows`).  In a run with a debug module that answers only what it was asked, the registers show the phase of
the abstract component in every cycle (`tracks`), so that every handshake of the arbiter is an event of the
abstract component; this is what the statements about runs are proved from.
-/

namespace DmiArbiter

open Sync Sync.Transaction

variable {q r : ℕ}

/-- The registers of the arbiter show the phase of a transaction. -/
def Shows (s : State q r) : Phase Port (BitVec q) (BitVec r) → Prop
  | .idle => s.transFsmQ = .qReq ∧ s.dmReqVld = false ∧ (∀ p, s.reqRdy p = true) ∧ s.dmRspRdy = true ∧
      ∀ p, s.rspVld p = false
  | .request p a => s.transFsmQ = .qRsp ∧ s.dmReqVld = true ∧ s.reqRdy p = false ∧ s.reqRdy p.other = true ∧
      s.dmRspRdy = true ∧ (∀ p, s.rspVld p = false) ∧ s.dtmSrcLast = p.index ∧ s.dmReqBits = a
  | .waiting p _ => s.transFsmQ = .qRsp ∧ s.dmReqVld = false ∧ (∀ p, s.reqRdy p = true) ∧ s.dmRspRdy = true ∧
      (∀ p, s.rspVld p = false) ∧ s.dtmSrcLast = p.index
  | .response p _ b => s.transFsmQ = .qRsp ∧ s.dmReqVld = false ∧ (∀ p, s.reqRdy p = true) ∧
      s.dmRspRdy = false ∧ s.rspVld p = true ∧ s.rspVld p.other = false ∧ s.dtmSrcLast = p.index ∧
      s.dtmRspBits = b

/-- The port `dtm_src_last` stands for. -/
def servedPort (s : State q r) : Port := if s.dtmSrcLast then .dtm1 else .dtm0

/-- What happens in a cycle, as an event of the abstract component. -/
def events (s : State q r) (x : Input q r) : Events Port (BitVec q) (BitVec r) where
  accept := accepted s x
  take := x.dmReqRdy
  answer := if x.dmRspVld then some x.dmRspBits else none
  consume := x.rspRdy (servedPort s)

/-- The debug module does not answer out of turn: it answers the request it has taken or is taking. -/
def InTurn (x : Input q r) : Phase Port (BitVec q) (BitVec r) → Prop
  | .request _ _ => x.dmRspVld = true → x.dmReqRdy = true
  | .waiting _ _ => True
  | _ => x.dmRspVld = false

/-! ### One clock edge -/

theorem forall_port {P : Port → Prop} : (∀ p, P p) ↔ P .dtm0 ∧ P .dtm1 :=
  ⟨fun h => ⟨h _, h _⟩, fun h p => by cases p <;> simp [h]⟩

theorem shows_reset : Shows (reset : State q r) .idle := by
  simp [Shows, reset, forall_port, State.reqRdy, State.rspVld]

theorem not_accept_of_qRsp {s : State q r} (h : s.transFsmQ = .qRsp) (x : Input q r) :
    dtm0ReqAccept s x = false ∧ dtm1ReqAccept s x = false := by
  simp [dtm0ReqAccept, dtm1ReqAccept, dtm0ReqAllow, dtm1ReqAllow, h]

/-! ### What a flop says about the phase -/

section Shown

variable {s : State q r} {ph : Phase Port (BitVec q) (BitVec r)} {p : Port}

/-- The ready flop of a port is low while its request is offered to the debug module. -/
theorem Shows.request_of_not_reqRdy (h : Shows s ph) (hr : s.reqRdy p = false) : ∃ a, ph = .request p a := by
  cases ph with
  | idle => exact absurd (h.2.2.1 p) (by simp [hr])
  | waiting p' a => exact absurd (h.2.2.1 p) (by simp [hr])
  | response p' a b => exact absurd (h.2.2.1 p) (by simp [hr])
  | request p' a =>
    obtain ⟨-, -, -, hro, -⟩ := h
    rcases p.eq_or_other p' with rfl | rfl
    · exact ⟨a, rfl⟩
    · exact absurd hro (by simp [hr])

/-- The response valid flop of a port is high while a response is offered to it. -/
theorem Shows.response_of_rspVld (h : Shows s ph) (hv : s.rspVld p = true) :
    ∃ a, ph = .response p a s.dtmRspBits := by
  cases ph with
  | idle => exact absurd (h.2.2.2.2 p) (by simp [hv])
  | request p' a => exact absurd (h.2.2.2.2.2.1 p) (by simp [hv])
  | waiting p' a => exact absurd (h.2.2.2.2.1 p) (by simp [hv])
  | response p' a b =>
    obtain ⟨-, -, -, -, -, hro, -, hb⟩ := h
    rcases p.eq_or_other p' with rfl | rfl
    · exact ⟨a, by rw [hb]⟩
    · exact absurd hro (by simp [hv])

/-- A response is offered to one port. -/
theorem Shows.rspVld_other (h : Shows s ph) (hv : s.rspVld p = true) : s.rspVld p.other = false := by
  obtain ⟨a, rfl⟩ := h.response_of_rspVld hv
  exact h.2.2.2.2.2.1

/-- The debug module's response is refused while one is offered to a port. -/
theorem Shows.dmRspRdy_iff (h : Shows s ph) : s.dmRspRdy = false ↔ ∃ p, s.rspVld p = true := by
  constructor
  · intro hr
    cases ph with
    | idle => exact absurd h.2.2.2.1 (by simp [hr])
    | request p a => exact absurd h.2.2.2.2.1 (by simp [hr])
    | waiting p a => exact absurd h.2.2.2.1 (by simp [hr])
    | response p a b => exact ⟨p, h.2.2.2.2.1⟩
  · rintro ⟨p, hv⟩
    obtain ⟨a, rfl⟩ := h.response_of_rspVld hv
    exact h.2.2.2.1

/-- `dtm_src_last` is the port that is offered a response. -/
theorem Shows.servedPort_eq (h : Shows s ph) (hv : s.rspVld p = true) : servedPort s = p := by
  obtain ⟨a, rfl⟩ := h.response_of_rspVld hv
  obtain ⟨-, -, -, -, -, -, hl, -⟩ := h
  cases p <;> simp [servedPort, hl, Port.index]

end Shown

private theorem not_rspDone {s : State q r} (h : ∀ p, s.rspVld p = false) (x : Input q r) :
    dmRspDone s x = false := by
  obtain ⟨h0, h1⟩ := forall_port.1 h
  simp only [State.rspVld] at h0 h1
  simp [dmRspDone, dtm0RspClr, dtm1RspClr, h0, h1]

private theorem shows_step_idle {s : State q r} (x : Input q r) (h : Shows s .idle) :
    Shows (edge s x) (Phase.idle.next (events s x)) := by
  obtain ⟨hf, hv, hr, hrr, hrv⟩ := h
  have hnot := not_both_accepted s x
  have hna : dmRspAccept s x = false := by simp [dmRspAccept, hf]
  have hnd := not_rspDone hrv x
  rw [forall_port] at hr hrv
  cases h0 : dtm0ReqAccept s x <;> cases h1 : dtm1ReqAccept s x <;>
    simp_all [Phase.next, events, accepted, Shows, edge, State.reqRdy, State.rspVld, transFsmN, forall_port,
      Port.index, Port.other, dtm0ReqDone, dtm1ReqDone, dmReqDone, dtm0RspAccept, dtm1RspAccept]

private theorem shows_step_request {s : State q r} {x : Input q r} {p : Port} {a : BitVec q}
    (h : Shows s (.request p a)) (hx : x.dmRspVld = true → x.dmReqRdy = true) :
    Shows (edge s x) ((Phase.request p a).next (events s x)) := by
  obtain ⟨hf, hv, hr, hro, hrr, hrv, hl, hb⟩ := h
  obtain ⟨h0, h1⟩ := not_accept_of_qRsp hf x
  have hd : dmReqDone s x = x.dmReqRdy := by simp [dmReqDone, hv]
  have hna : dmRspAccept s x = x.dmRspVld := by simp [dmRspAccept, hf, hrr]
  have hnd := not_rspDone hrv x
  rw [forall_port] at hrv
  cases p <;> cases ht : x.dmReqRdy <;> cases ha : x.dmRspVld <;>
    simp_all [Phase.next, events, Shows, edge, State.reqRdy, State.rspVld, transFsmN, forall_port, Port.index,
      Port.other, dtm0ReqDone, dtm1ReqDone, dtm0RspAccept, dtm1RspAccept]

private theorem shows_step_waiting {s : State q r} (x : Input q r) {p : Port} {a : BitVec q}
    (h : Shows s (.waiting p a)) : Shows (edge s x) ((Phase.waiting p a).next (events s x)) := by
  obtain ⟨hf, hv, hr, hrr, hrv, hl⟩ := h
  obtain ⟨h0, h1⟩ := not_accept_of_qRsp hf x
  have hd : dmReqDone s x = false := by simp [dmReqDone, hv]
  have hna : dmRspAccept s x = x.dmRspVld := by simp [dmRspAccept, hf, hrr]
  have hnd := not_rspDone hrv x
  rw [forall_port] at hr hrv
  cases p <;> cases ha : x.dmRspVld <;>
    simp_all [Phase.next, events, Shows, edge, State.reqRdy, State.rspVld, transFsmN, forall_port, Port.index,
      Port.other, dtm0ReqDone, dtm1ReqDone, dtm0RspAccept, dtm1RspAccept]

private theorem shows_step_response {s : State q r} (x : Input q r) {p : Port} {a : BitVec q} {b : BitVec r}
    (h : Shows s (.response p a b)) : Shows (edge s x) ((Phase.response p a b).next (events s x)) := by
  obtain ⟨hf, hv, hr, hrr, hrv, hro, hl, hb⟩ := h
  obtain ⟨h0, h1⟩ := not_accept_of_qRsp hf x
  have hd : dmReqDone s x = false := by simp [dmReqDone, hv]
  have hna : dmRspAccept s x = false := by simp [dmRspAccept, hrr]
  have hnd : dmRspDone s x = x.rspRdy p := by
    cases p <;> simp_all [dmRspDone, dtm0RspClr, dtm1RspClr, Port.index, State.rspVld, Input.rspRdy]
  rw [forall_port] at hr
  cases hc : x.rspRdy p <;> cases p <;>
    simp_all [Phase.next, events, Shows, edge, State.reqRdy, State.rspVld, transFsmN, forall_port, Port.index,
      Port.other, dtm0ReqDone, dtm1ReqDone, dtm0RspAccept, dtm1RspAccept, servedPort, Input.rspRdy, dtm0RspClr,
      dtm1RspClr]

/-- A clock edge moves the registers as the abstract component moves. -/
theorem shows_step {s : State q r} {x : Input q r} {ph : Phase Port (BitVec q) (BitVec r)} (h : Shows s ph)
    (hx : InTurn x ph) : Shows (edge s x) (ph.next (events s x)) := by
  cases ph with
  | idle => exact shows_step_idle x h
  | request p a => exact shows_step_request h hx
  | waiting p a => exact shows_step_waiting x h
  | response p a b => exact shows_step_response x h

/-! ### The handshakes are events of the abstract component -/

theorem accepted_eq {s : State q r} {ph : Phase Port (BitVec q) (BitVec r)} (h : Shows s ph) (x : Input q r) :
    accepted s x = ph.accepted (events s x) := by
  cases ph with
  | idle => rfl
  | request p a | waiting p a | response p a b =>
    obtain ⟨h0, h1⟩ := not_accept_of_qRsp h.1 x
    simp [accepted, Phase.accepted, h0, h1]

theorem dmRspHandshake_eq {s : State q r} {x : Input q r} {ph : Phase Port (BitVec q) (BitVec r)} (h : Shows s ph)
    (hx : InTurn x ph) : dmRspHandshake s x = (ph.answered (events s x)).map Prod.snd := by
  cases ph with
  | idle => simp_all [InTurn, dmRspHandshake, Phase.answered]
  | request p a =>
    obtain ⟨-, -, -, -, hrr, -⟩ := h
    cases hv : x.dmRspVld <;> simp_all [InTurn, dmRspHandshake, Phase.answered, events]
  | waiting p a =>
    obtain ⟨-, -, -, hrr, -⟩ := h
    cases hv : x.dmRspVld <;> simp_all [dmRspHandshake, Phase.answered, events]
  | response p a b =>
    obtain ⟨-, -, -, hrr, -⟩ := h
    simp [dmRspHandshake, Phase.answered, hrr]

theorem rspHandshake_eq {s : State q r} {ph : Phase Port (BitVec q) (BitVec r)} (h : Shows s ph) (x : Input q r)
    (p : Port) : rspHandshake s x p =
      (ph.consumed (events s x)).bind fun c => if c.1.1 = p then some c.2 else none := by
  cases hv : s.rspVld p with
  | true =>
    have hport := h.servedPort_eq hv
    obtain ⟨a, rfl⟩ := h.response_of_rspVld hv
    cases hc : x.rspRdy p <;> simp [rspHandshake, Phase.consumed, events, hport, hv, hc]
  | false =>
    rw [rspHandshake, hv, Bool.false_and, if_neg Bool.false_ne_true]
    cases ph with
    | idle | request p' a | waiting p' a => rfl
    | response p' a b =>
      have hne : p' ≠ p := by
        rintro rfl
        exact absurd h.2.2.2.2.1 (by simp [hv])
      cases hc : (events s x).consume <;> simp [Phase.consumed, hc, hne]

/-! ### Whole runs -/

variable {i : ℕ → Input q r}

/-- The phase of the abstract component in each cycle of a run of the arbiter. -/
def phases (i : ℕ → Input q r) : ℕ → Phase Port (BitVec q) (BitVec r) := phase fun m => events (run i m) (i m)

theorem phases_succ (i : ℕ → Input q r) (n : ℕ) :
    phases i (n + 1) = (phases i n).next (events (run i n) (i n)) := rfl

/-- The invariant of a run: the registers show the phase, the request offered to the debug module came from the port
of the transaction, and the debug module owes at most the answer of the request being served. -/
structure Tracks (i : ℕ → Input q r) (n : ℕ) : Prop where
  shows : Shows (run i n) (phases i n)
  source : ∀ p a, phases i n = .request p a → reqSource i n = p
  owed : (dmReqLog i n).length = (dmRspLog i n).length + (phases i n).unanswered.length

theorem dmReqHandshake_eq {n : ℕ} (h : Tracks i n) :
    dmReqHandshake i n = (phases i n).taken (events (run i n) (i n)) := by
  obtain ⟨hs, hsrc, -⟩ := h
  cases hp : phases i n with
  | idle | waiting p a | response p a b => rw [hp] at hs; simp [dmReqHandshake, dmReqDone, Phase.taken, hs.2.1]
  | request p a =>
    rw [hp] at hs
    obtain ⟨-, hv, -, -, -, -, -, hb⟩ := hs
    simp only [dmReqHandshake, dmReqDone, Phase.taken, events, hv, hb, hsrc p a hp, Bool.true_and]
    rfl

/-- A debug module that answers each request once never answers out of turn. -/
theorem Tracks.inTurn {n : ℕ} (h : Tracks i n) (hdm : DmAnswersOnce i) : InTurn (i n) (phases i n) := by
  have howed := h.owed
  have hn := hdm n
  rw [dmReqLog, log_succ, List.length_append, ← dmReqLog, dmReqHandshake_eq h] at hn
  cases hp : phases i n with
  | idle | response p a b =>
    simp only [hp, Phase.unanswered, Phase.taken, Option.toList_none, List.length_nil] at howed hn
    simp only [InTurn]
    by_contra hv
    have := hn (by simpa using hv)
    omega
  | waiting p a => trivial
  | request p a =>
    simp only [hp, Phase.unanswered, Phase.taken, events, List.length_nil] at howed hn
    intro hv
    by_contra ht
    have := hn hv
    simp only [ht, ↓reduceIte, Option.toList_none, List.length_nil] at this
    omega

/-- The port recorded for `dm_req_bits` follows the accepted request. -/
private theorem source_step {n : ℕ} (h : Tracks i n) (p : Port) (a : BitVec q)
    (hp : phases i (n + 1) = .request p a) : reqSource i (n + 1) = p := by
  rw [phases_succ] at hp
  cases hph : phases i n with
  | idle =>
    simp only [hph, Phase.next, events, accepted] at hp
    simp only [reqSource]
    split at hp <;> rename_i hacc <;> split at hacc <;> simp_all
  | request p' a' =>
    have hs := h.shows
    rw [hph] at hs
    obtain ⟨h0, h1⟩ := not_accept_of_qRsp hs.1 (i n)
    have := h.source p' a' hph
    simp only [reqSource, h0, h1]
    simp only [hph, Phase.next] at hp
    split at hp <;> (try split at hp) <;> simp_all
  | waiting p' a' | response p' a' b' => simp only [hph, Phase.next] at hp; split at hp <;> simp_all

/-- In a run with a debug module that answers each request once, the registers show the phase of the abstract
component in every cycle. -/
theorem tracks (hdm : DmAnswersOnce i) (n : ℕ) : Tracks i n := by
  induction n with
  | zero => exact ⟨shows_reset, fun p a h => by simp [phases, phase, Transaction.machine] at h, rfl⟩
  | succ n ih =>
    have hturn := ih.inTurn hdm
    refine ⟨shows_step ih.shows hturn, source_step ih, ?_⟩
    have hstep := congrArg List.length ((phases i n).unanswered_step (events (run i n) (i n)))
    have howed := ih.owed
    simp only [dmReqLog, dmRspLog, log_succ, List.length_append] at howed ⊢
    rw [dmReqHandshake_eq ih, dmRspHandshake_eq ih.shows hturn, phases_succ]
    simp only [List.length_append, Option.length_toList, Option.isSome_map] at hstep ⊢
    omega

end DmiArbiter
