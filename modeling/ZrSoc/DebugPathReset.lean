import ZrSoc.DebugPath

/-!
# Requests and responses across a soft reset

A write to `CTRL` returns the debug transport module to its idle state while the arbiter and the debug module go on
with the old request.  The ready flop of the port is high again as soon as the debug module has taken that request, so
an operation started after the reset can be handed over while the arbiter is still in `Q_RSP`: the arbiter does not
act on it, and the response of the old request ends the new operation.  The responses match and the operations after a
reset reach the debug module exactly in the runs in which every request handed over after a reset is accepted
(`responses_match_iff`).
-/

namespace DebugPath

open Sync Sync.Transaction
open DmiArbiter (Port)
open Icb2DebugBus (dtmReqBits dbusOpDone)

variable {a h : ℕ} (p : Port) (i : ℕ → Input a h)

/-! ### The property -/

/-- The debug module takes the request it is offered at some time. -/
def DmTakes : Prop := ∀ n, (run p i n).arb.dmReqVld = true → ∃ m, n ≤ m ∧ (i m).dmReqRdy = true

/-- The response registers get in cycle `n` what the debug module answered to the request of the operation that ends:
that request was accepted at its handover, in cycle `u`, it is the `k`-th request of the debug module, and `b` is the
`k`-th response. -/
structure MatchedBy (n u k : ℕ) (b : BitVec 34) : Prop where
  handover : u ≤ n ∧ Handover p i u ∧ ∀ m, u < m → m ≤ n → ¬ Handover p i m
  accepted : Accepted p i u
  request : (DmiArbiter.dmReqLog (arbStream p i) n)[k]? = some (p, dtmReqBits (run p i u).dtm)
  response : (DmiArbiter.dmRspLog (arbStream p i) n)[k]? = some b
  number : k = (DmiArbiter.acceptLog (arbStream p i) u).length
  rspDword : (run p i (n + 1)).dtm.regDbusRspDword = b.extractLsb' 2 32
  rspAddr : Icb2DebugBus.addrField (run p i (n + 1)).dtm.regDbusRspOthers =
    (dtmReqBits (run p i u).dtm).extractLsb' 34 a
  rspCode : Icb2DebugBus.codeField (run p i (n + 1)).dtm.regDbusRspOthers =
    (Icb2DebugBus.DbusRspStat.ofBits (run p i n).dtm.dbusRspStatSticky (b.getLsbD 0)).toBits

/-- An operation is started in cycle `t`. -/
def Started (t : ℕ) : Prop :=
  (run p i t).dtm.dbusOpStart = true ∧ (run p i t).dtm.dbusFsmAct = .idle ∧ ¬ CtrlWrite p i t

/-- A soft reset comes before the request of the operation started in cycle `t` is handed over. -/
def Cancelled (t : ℕ) : Prop := ∃ c, t < c ∧ CtrlWrite p i c ∧ ∀ m, t ≤ m → m ≤ c → ¬ Handover p i m

/-- The operation started in cycle `t` reaches the debug module: at its handover, in cycle `u`, the arbiter accepts
the request raised in the cycle after the start, and in cycle `m` the debug module takes it, as the request with the
same number. -/
def Reached (t : ℕ) : Prop :=
  ∃ u, t < u ∧ Handover p i u ∧ (∀ m, t < m → m < u → ¬ Handover p i m) ∧ Accepted p i u ∧
    dtmReqBits (run p i u).dtm = dtmReqBits (run p i (t + 1)).dtm ∧
    ∃ m, u < m ∧ DmiArbiter.dmReqHandshake (arbStream p i) m = some (p, dtmReqBits (run p i u).dtm) ∧
      (DmiArbiter.dmReqLog (arbStream p i) m).length = (DmiArbiter.acceptLog (arbStream p i) u).length

/-- Responses match requests, and the operations after a soft reset reach the debug module. -/
structure ResponsesMatch : Prop where
  matched : ∀ n, dbusOpDone (run p i n).dtm (dtmStream p i n) = true → ∃ u k b, MatchedBy p i n u k b
  reached : ∀ t, Started p i t → (∃ c < t, CtrlWrite p i c) → Cancelled p i t ∨ Reached p i t

/-- Whenever a request is handed over after a soft reset, the arbiter is in `Q_REQ` and the other port does not have
the right of way. -/
def HandoversAllowed : Prop :=
  ∀ u, (∃ c < u, CtrlWrite p i c) → Handover p i u → (run p i u).arb.transFsmQ = .qReq ∧
    ((run p i u).arb.dtmSrcLast ≠ p.index ∨ (i u).otherReqVld = false)

variable {p i} {n t u : ℕ}

/-! ### The life of an operation -/

/-- The operation handed over in cycle `u` waits in cycle `n` for its response, which the arbiter owes. -/
structure Waits (p : Port) (i : ℕ → Input a h) (u n : ℕ) : Prop where
  lt : u < n
  handover : Handover p i u
  accepted : Accepted p i u
  waiting : ∀ m, u < m → m ≤ n → (run p i m).dtm.dbusFsmAct = .rspBusy
  bits : dtmReqBits (run p i n).dtm = dtmReqBits (run p i u).dtm
  served : served p i n = some (p, dtmReqBits (run p i u).dtm)
  number : (DmiArbiter.acceptLog (arbStream p i) n).length = (DmiArbiter.acceptLog (arbStream p i) u).length + 1

/-- The invariant: an operation that waits for its response is owed one, or the arbiter has nothing of it; and until
the first soft reset the arbiter serves the port only while an operation waits. -/
structure Tracks (p : Port) (i : ℕ → Input a h) (n : ℕ) : Prop where
  busy : (run p i n).dtm.dbusFsmAct = .rspBusy → (∃ u, Waits p i u n) ∨ ∀ v, served p i n ≠ some (p, v)
  clean : (run p i n).dtm.dbusFsmAct ≠ .rspBusy → (∀ c < n, ¬ CtrlWrite p i c) → ∀ v, served p i n ≠ some (p, v)

theorem not_accepted_of_fsm (hf : (run p i n).dtm.dbusFsmAct ≠ .reqBusy) : ¬ Accepted p i n :=
  fun ha => hf (handover_iff.1 (accepted_iff_handover.1 ha).1).1

theorem acceptLog_succ : DmiArbiter.acceptLog (arbStream p i) (n + 1) =
    DmiArbiter.acceptLog (arbStream p i) n ++ (DmiArbiter.accepted (run p i n).arb (arbStream p i n)).toList := by
  rw [run_arb]; rfl

section Step

variable (hdm : DmiArbiter.DmAnswersOnce (arbStream p i))

include hdm in
/-- While a request is served no other is accepted. -/
private theorem acceptLog_succ_of_served {v : BitVec (a + 2 + 32)} (hs : served p i n = some (p, v)) :
    DmiArbiter.acceptLog (arbStream p i) (n + 1) = DmiArbiter.acceptLog (arbStream p i) n := by
  rw [acceptLog_succ, DmiArbiter.accepted_eq (shows hdm)]
  cases hp : DmiArbiter.phases (arbStream p i) n with
  | idle => rw [served, hp] at hs; exact absurd hs (by simp [Phase.current])
  | request p' v' | waiting p' v' | response p' v' b => simp [Phase.accepted]

include hdm in
/-- The operation whose request is accepted waits for its response. -/
private theorem waits_of_accepted (ha : Accepted p i n) (hc : ¬ CtrlWrite p i n) : Waits p i n (n + 1) := by
  have hh := (accepted_iff_handover.1 ha).1
  obtain ⟨hf, hr⟩ := handover_iff.1 hh
  have hp := idle_of_accepted hdm ha
  have hv : (run p i n).arb.rspVld p = false := not_rspVld hdm fun v hv => by
    rw [served, hp] at hv
    exact absurd hv (by simp [Phase.current])
  refine ⟨by omega, hh, ha, fun m hm hmn => ?_, ?_, ?_, ?_⟩
  · obtain rfl : m = n + 1 := by omega
    rw [fsm_succ_of_reqBusy hc hf, hr, hv]; rfl
  · exact reqBits_succ hc (by simp [hf])
  · rw [served, request_of_accepted hdm ha]; rfl
  · rw [acceptLog_succ, show DmiArbiter.accepted _ _ = _ from ha]
    simp

include hdm in
/-- An operation waits until its response is presented. -/
private theorem Waits.succ (hw : Waits p i u n) (hc : ¬ CtrlWrite p i n) (hv : (run p i n).arb.rspVld p = false) :
    Waits p i u (n + 1) := by
  have hf := hw.waiting n hw.lt le_rfl
  refine ⟨by have := hw.lt; omega, hw.handover, hw.accepted, fun m hm hmn => ?_, ?_, served_succ hdm hw.served hv, ?_⟩
  · rcases Nat.lt_succ_iff_lt_or_eq.1 (Nat.lt_succ_of_le hmn) with hlt | rfl
    · exact hw.waiting m hm (by omega)
    · rw [fsm_succ_of_rspBusy hc hf, hv]; rfl
  · rw [reqBits_succ hc (by simp [hf]), hw.bits]
  · rw [acceptLog_succ_of_served hdm hw.served, hw.number]

variable (hok : HandoversAllowed p i)

include hok in
/-- A request that is handed over and not accepted is one before the first soft reset, and the arbiter serves nothing
of the port. -/
private theorem Tracks.lost (ht : Tracks p i n) (hh : Handover p i n) (ha : ¬ Accepted p i n) :
    ∀ v, served p i n ≠ some (p, v) := by
  have hf := (handover_iff.1 hh).1
  refine ht.clean (by simp [hf]) fun c hcn hc => ha ?_
  exact accepted_iff_handover.2 ⟨hh, hok n ⟨c, hcn, hc⟩ hh⟩

include hdm hok in
theorem Tracks.succ (ht : Tracks p i n) : Tracks p i (n + 1) := by
  by_cases hc : CtrlWrite p i n
  · have hf := fsm_succ_of_ctrl hc
    exact ⟨fun hb => absurd (hf.symm.trans hb) (by decide), fun _ hno => absurd hc (hno n (by omega))⟩
  have hclean : (∀ c < n + 1, ¬ CtrlWrite p i c) → ∀ c < n, ¬ CtrlWrite p i c := fun hno c hcn => hno c (by omega)
  cases hf : (run p i n).dtm.dbusFsmAct with
  | idle =>
    have hnext : (run p i (n + 1)).dtm.dbusFsmAct ≠ .rspBusy := by
      rw [fsm_succ hc, Icb2DebugBus.fsmNxt_idle hf]
      split <;> decide
    refine ⟨fun hb => absurd hb hnext, fun _ hno => ?_⟩
    exact not_served_succ hdm (ht.clean (by simp [hf]) (hclean hno)) (not_accepted_of_fsm (by simp [hf]))
  | reqBusy =>
    by_cases hr : (run p i n).arb.reqRdy p = true
    · have hh := handover_iff.2 ⟨hf, hr⟩
      by_cases ha : Accepted p i n
      · have hw := waits_of_accepted hdm ha hc
        exact ⟨fun _ => Or.inl ⟨n, hw⟩, fun hb => absurd (hw.waiting _ hw.lt le_rfl) hb⟩
      · have hn := ht.lost hok hh ha
        have hv := not_rspVld hdm hn
        refine ⟨fun _ => Or.inr (not_served_succ hdm hn ha), fun hb => absurd ?_ hb⟩
        rw [fsm_succ_of_reqBusy hc hf, hr, hv]; rfl
    · -- the request waits only for one that was left behind by a soft reset
      have hnext : (run p i (n + 1)).dtm.dbusFsmAct = .reqBusy := by rw [fsm_succ_of_reqBusy hc hf, if_neg hr]
      refine ⟨fun hb => absurd (hnext.symm.trans hb) (by decide), fun _ hno => ?_⟩
      obtain ⟨v, hp⟩ := request_of_not_reqRdy hdm ((Bool.not_eq_true _).mp hr)
      exact absurd (by rw [served, hp]; rfl) (ht.clean (by simp [hf]) (hclean hno) v)
  | rspBusy =>
    have hna : ¬ Accepted p i n := not_accepted_of_fsm (by simp [hf])
    cases hv : (run p i n).arb.rspVld p with
    | true =>
      have hnext : (run p i (n + 1)).dtm.dbusFsmAct = .idle := by rw [fsm_succ_of_rspBusy hc hf, if_pos hv]
      refine ⟨fun hb => absurd (hnext.symm.trans hb) (by decide), fun _ _ v hs => ?_⟩
      rw [served, idle_of_rspVld hdm hv] at hs
      exact absurd hs (by simp [Phase.current])
    | false =>
      have hnext : (run p i (n + 1)).dtm.dbusFsmAct = .rspBusy := by rw [fsm_succ_of_rspBusy hc hf, hv]; rfl
      refine ⟨fun _ => ?_, fun hb => absurd hnext hb⟩
      rcases ht.busy hf with ⟨u, hw⟩ | hn
      · exact Or.inl ⟨u, hw.succ hdm hc hv⟩
      · exact Or.inr (not_served_succ hdm hn hna)

include hdm hok in
theorem tracks (n : ℕ) : Tracks p i n := by
  induction n with
  | zero =>
    have hserved : served p i 0 = none := rfl
    exact ⟨fun hb => absurd (show Icb2DebugBus.DbusFsm.idle = _ from hb) (by decide), fun _ _ v => by simp [hserved]⟩
  | succ n ih => exact ih.succ hdm hok

end Step

/-! ### The responses -/

private theorem addrField_append {v : BitVec a} {c : BitVec 2} :
    Icb2DebugBus.addrField (a := a) (v ++ (c ++ 0#2)) = v := by
  rw [Icb2DebugBus.addrField, BitVec.extractLsb'_append_eq_of_le (by decide)]
  exact BitVec.extractLsb'_eq_self

private theorem codeField_append {v : BitVec a} {c : BitVec 2} :
    Icb2DebugBus.codeField (a := a) (v ++ (c ++ 0#2)) = c := by
  rw [Icb2DebugBus.codeField]
  refine BitVec.eq_of_getLsbD_eq fun j hj => ?_
  rw [BitVec.getLsbD_extractLsb', BitVec.getLsbD_append, BitVec.getLsbD_append]
  have h1 : 2 + j < 2 + 2 := by omega
  have h2 : ¬ 2 + j < 2 := by omega
  simp [h1, h2, hj]

theorem extractLsb'_dtmReqBits {s : Icb2DebugBus.State a h} :
    (dtmReqBits s).extractLsb' 34 a = Icb2DebugBus.addrField s.regDbusReqOthers := by
  rw [dtmReqBits, BitVec.extractLsb'_append_eq_of_le (by decide), BitVec.extractLsb'_append_eq_of_le (by decide)]
  exact BitVec.extractLsb'_eq_self

/-- An operation that waits for its response ends with the answer to its request. -/
private theorem matched_of_waits (hdm : DmiArbiter.DmAnswersOnce (arbStream p i)) (hw : Waits p i u n)
    (hv : (run p i n).arb.rspVld p = true) :
    MatchedBy p i n u (DmiArbiter.acceptLog (arbStream p i) u).length (run p i n).arb.dtmRspBits := by
  obtain ⟨v, hp⟩ := response_of_rspVld hdm hv
  obtain rfl : v = dtmReqBits (run p i u).dtm := by
    have hs := hw.served
    rw [served, hp] at hs
    exact (Prod.mk.inj (Option.some.inj hs)).2
  have hf := hw.waiting n hw.lt le_rfl
  have hdone : dbusOpDone (run p i n).dtm (dtmStream p i n) = true := by
    simp only [dbusOpDone, hf]
    exact hv
  obtain ⟨hreq, hrsp⟩ := DmiArbiter.last_of_response hdm hp hw.number
  refine ⟨⟨hw.lt.le, hw.handover, fun m hm hmn hh => ?_⟩, hw.accepted, hreq, hrsp, rfl, ?_, ?_, ?_⟩
  · exact absurd ((hw.waiting m hm hmn).symm.trans (handover_iff.1 hh).1) (by decide)
  · simp only [dtm_succ, Icb2DebugBus.edge, hdone, ↓reduceIte]
    rfl
  · simp only [dtm_succ, Icb2DebugBus.edge, hdone, ↓reduceIte]
    rw [addrField_append, ← extractLsb'_dtmReqBits, hw.bits]
  · simp only [dtm_succ, Icb2DebugBus.edge, hdone, ↓reduceIte]
    rw [codeField_append]
    rfl

section Matched

variable (hdm : DmiArbiter.DmAnswersOnce (arbStream p i)) (hok : HandoversAllowed p i)

include hdm hok in
private theorem matched (hd : dbusOpDone (run p i n).dtm (dtmStream p i n) = true) :
    ∃ u k b, MatchedBy p i n u k b := by
  have ht := tracks hdm hok n
  cases hf : (run p i n).dtm.dbusFsmAct with
  | idle => exact absurd hd (by simp [Icb2DebugBus.opDone_of_idle hf])
  | reqBusy =>
    -- the response was there at the handover, so it belongs to a request from before
    simp only [dbusOpDone, hf, Bool.and_eq_true] at hd
    obtain ⟨hr, hv⟩ : (run p i n).arb.reqRdy p = true ∧ (run p i n).arb.rspVld p = true := hd
    obtain ⟨v, hp⟩ := response_of_rspVld hdm hv
    have hna : ¬ Accepted p i n := fun ha => by
      rw [idle_of_accepted hdm ha] at hp
      exact absurd hp (by simp)
    exact absurd (by rw [served, hp]; rfl) (ht.lost hok (handover_iff.2 ⟨hf, hr⟩) hna v)
  | rspBusy =>
    simp only [dbusOpDone, hf] at hd
    have hv : (run p i n).arb.rspVld p = true := hd
    rcases ht.busy hf with ⟨u, hw⟩ | hn
    · exact ⟨u, _, _, matched_of_waits hdm hw hv⟩
    · exact absurd hv (by simp [not_rspVld hdm hn])

end Matched

/-! ### The requests -/

section Reached

variable (hdm : DmiArbiter.DmAnswersOnce (arbStream p i)) (htk : DmTakes p i)

theorem fsm_of_started (hs : Started p i t) : (run p i (t + 1)).dtm.dbusFsmAct = .reqBusy := by
  rw [fsm_succ hs.2.2, Icb2DebugBus.fsmNxt_idle hs.2.1, if_pos hs.1]

include hdm in
/-- A request that waits in the arbiter does so until the debug module takes it. -/
private theorem request_stays {v : BitVec (a + 2 + 32)} (hp : DmiArbiter.phases (arbStream p i) n = .request p v)
    (hr : (i n).dmReqRdy = false) : DmiArbiter.phases (arbStream p i) (n + 1) = .request p v ∧
    DmiArbiter.acceptLog (arbStream p i) (n + 1) = DmiArbiter.acceptLog (arbStream p i) n := by
  refine ⟨?_, acceptLog_succ_of_served hdm (by rw [served, hp]; rfl)⟩
  have ht : (DmiArbiter.events (run p i n).arb (arbStream p i n)).take = false := hr
  rw [phases_succ, hp, Phase.next, if_neg (by simp [ht])]

include hdm htk in
/-- The debug module takes a request that waits in the arbiter. -/
private theorem exists_dmReqHandshake {v : BitVec (a + 2 + 32)}
    (hp : DmiArbiter.phases (arbStream p i) n = .request p v) :
    ∃ m, n ≤ m ∧ DmiArbiter.dmReqHandshake (arbStream p i) m = some (p, v) ∧
      (DmiArbiter.dmReqLog (arbStream p i) m).length + 1 = (DmiArbiter.acceptLog (arbStream p i) n).length := by
  have hs := shows hdm (n := n)
  rw [hp] at hs
  obtain ⟨m, hnm, ⟨hpm, hacc⟩, hrdy, -⟩ := exists_until
    (P := fun m => DmiArbiter.phases (arbStream p i) m = .request p v ∧
      DmiArbiter.acceptLog (arbStream p i) m = DmiArbiter.acceptLog (arbStream p i) n)
    ⟨hp, rfl⟩ (fun k _ hk hno => by
      obtain ⟨h1, h2⟩ := request_stays hdm hk.1 ((Bool.not_eq_true _).mp hno)
      exact ⟨h1, h2.trans hk.2⟩) (htk n hs.2.1)
  refine ⟨m, hnm, ?_, ?_⟩
  · have ht : (DmiArbiter.events (DmiArbiter.run (arbStream p i) m) (arbStream p i m)).take = true := hrdy
    rw [DmiArbiter.dmReqHandshake_eq (DmiArbiter.tracks hdm m), hpm, Phase.taken, if_pos ht]
  · rw [← hacc, DmiArbiter.acceptLog_eq_dmReqLog hdm, hpm, Phase.asking, List.length_append, List.length_singleton]

include hdm htk in
/-- The arbiter gets ready for the port at some time. -/
private theorem exists_reqRdy (n : ℕ) : ∃ m, n ≤ m ∧ (run p i m).arb.reqRdy p = true := by
  by_contra hno
  push Not at hno
  obtain ⟨v, hp⟩ := request_of_not_reqRdy hdm ((Bool.not_eq_true _).mp (hno n le_rfl))
  obtain ⟨m, hnm, htaken, -⟩ := exists_dmReqHandshake hdm htk hp
  obtain ⟨v', hp'⟩ := request_of_not_reqRdy hdm ((Bool.not_eq_true _).mp (hno (m + 1) (by omega)))
  -- a request that is taken is gone in the next cycle
  rw [DmiArbiter.dmReqHandshake_eq (DmiArbiter.tracks hdm m)] at htaken
  rw [DmiArbiter.phases_succ] at hp'
  cases hph : DmiArbiter.phases (arbStream p i) m with
  | idle | waiting p' w | response p' w b => rw [hph] at htaken; exact absurd htaken (by simp [Phase.taken])
  | request p' w =>
    rw [hph] at htaken hp'
    simp only [Phase.taken] at htaken
    split at htaken
    next ht =>
      simp only [Phase.next, ht, ↓reduceIte] at hp'
      split at hp' <;> exact absurd hp' (by simp)
    next => exact absurd htaken (by simp)

include hdm htk in
private theorem reached (hok : HandoversAllowed p i) (hs : Started p i t) (hc : ∃ c < t, CtrlWrite p i c) :
    Cancelled p i t ∨ Reached p i t := by
  obtain ⟨c, hct, hc⟩ := hc
  have hidle : ¬ Handover p i t := fun hh => absurd (hs.2.1.symm.trans (handover_iff.1 hh).1) (by decide)
  obtain ⟨r, htr, hr⟩ := exists_reqRdy hdm htk (t + 1)
  obtain ⟨u, htu, ⟨hf, hbits⟩, hu, hmin⟩ := exists_until
    (P := fun m => (run p i m).dtm.dbusFsmAct = .reqBusy ∧
      dtmReqBits (run p i m).dtm = dtmReqBits (run p i (t + 1)).dtm)
    (Q := fun m => CtrlWrite p i m ∨ (run p i m).arb.reqRdy p = true)
    ⟨fsm_of_started hs, rfl⟩ (fun k _ hk hno => by
      obtain ⟨hnc, hnr⟩ := not_or.1 hno
      exact ⟨by rw [fsm_succ_of_reqBusy hnc hk.1, if_neg hnr], (reqBits_succ hnc (by simp [hk.1])).trans hk.2⟩)
    ⟨r, htr, Or.inr hr⟩
  have hno : ∀ m, t ≤ m → m < u → ¬ Handover p i m := by
    intro m hm hmu hh
    rcases Nat.lt_or_eq_of_le hm with hlt | rfl
    · exact hmin m hlt hmu (Or.inr hh.2)
    · exact hidle hh
  by_cases hrdy : (run p i u).arb.reqRdy p = true
  · have hh := handover_iff.2 ⟨hf, hrdy⟩
    have ha := accepted_iff_handover.2 ⟨hh, hok u ⟨c, by omega, hc⟩ hh⟩
    obtain ⟨m, hum, htaken, hlen⟩ := exists_dmReqHandshake hdm htk (request_of_accepted hdm ha)
    rw [acceptLog_succ, show DmiArbiter.accepted _ _ = _ from ha, List.length_append] at hlen
    exact Or.inr ⟨u, htu, hh, fun m hm => hno m (by omega), ha, hbits, m, hum, htaken, by simpa using hlen⟩
  · refine Or.inl ⟨u, htu, hu.resolve_right hrdy, fun m hm hmu => ?_⟩
    rcases Nat.lt_or_eq_of_le hmu with hlt | rfl
    · exact hno m hm hlt
    · exact fun hh => hrdy hh.2

end Reached

/-- A request on the debug bus belongs to an operation. -/
private theorem exists_started (hf : (run p i u).dtm.dbusFsmAct = .reqBusy) :
    ∃ t < u, Started p i t ∧ ∀ m, t < m → m ≤ u → (run p i m).dtm.dbusFsmAct = .reqBusy := by
  induction u with
  | zero => exact absurd (show Icb2DebugBus.DbusFsm.idle = _ from hf) (by decide)
  | succ u ih =>
    have hc : ¬ CtrlWrite p i u := fun hc => absurd ((fsm_succ_of_ctrl hc).symm.trans hf) (by decide)
    cases hu : (run p i u).dtm.dbusFsmAct with
    | idle =>
      refine ⟨u, by omega, ⟨?_, hu, hc⟩, fun m hm hmu => ?_⟩
      · by_contra hs
        rw [fsm_succ hc, Icb2DebugBus.fsmNxt_idle hu, if_neg hs] at hf
        exact absurd hf (by decide)
      · obtain rfl : m = u + 1 := by omega
        exact hf
    | reqBusy =>
      obtain ⟨t, htu, hs, hall⟩ := ih hu
      refine ⟨t, by omega, hs, fun m hm hmu => ?_⟩
      rcases Nat.lt_or_eq_of_le hmu with hlt | rfl
      · exact hall m hm (by omega)
      · exact hf
    | rspBusy =>
      rw [fsm_succ_of_rspBusy hc hu] at hf
      split at hf <;> exact absurd hf (by decide)

/-- If the operations after a reset reach the debug module, their handovers are accepted. -/
private theorem handoversAllowed (hm : ResponsesMatch p i) : HandoversAllowed p i := by
  rintro u ⟨c, hcu, hc⟩ hh
  obtain ⟨t, htu, hs, hall⟩ := exists_started (handover_iff.1 hh).1
  have hnoctrl : ∀ m, t ≤ m → m < u → ¬ CtrlWrite p i m := fun m hm hmu hcm =>
    absurd ((fsm_succ_of_ctrl hcm).symm.trans (hall (m + 1) (by omega) hmu)) (by decide)
  have hnohand : ∀ m, t < m → m < u → ¬ Handover p i m := by
    intro m hm hmu hhm
    have hnext := hall (m + 1) (by omega) hmu
    rw [fsm_succ_of_reqBusy (hnoctrl m (by omega) hmu) (handover_iff.1 hhm).1, if_pos hhm.2] at hnext
    split at hnext <;> exact absurd hnext (by decide)
  have hct : c < t := by
    by_contra hle
    exact hnoctrl c (by omega) hcu hc
  rcases hm.reached t hs ⟨c, hct, hc⟩ with ⟨c', htc, hc', hno⟩ | ⟨u', htu', hh', hno, ha, -⟩
  · rcases Nat.lt_or_ge c' u with hlt | hge
    · exact absurd hc' (hnoctrl c' (by omega) hlt)
    · exact absurd hh (hno u (by omega) hge)
  · obtain rfl : u' = u := by
      rcases Nat.lt_trichotomy u' u with hlt | heq | hgt
      · exact absurd hh' (hnohand u' htu' hlt)
      · exact heq
      · exact absurd hh (hno u htu hgt)
    exact (accepted_iff_handover.1 ha).2

/-- Responses match requests across soft resets, and the operations after a reset reach the debug module, exactly in
the runs in which the arbiter is able to accept every request that is handed over after a reset. -/
theorem responses_match_iff (hdm : DmiArbiter.DmAnswersOnce (arbStream p i)) (htk : DmTakes p i) :
    ResponsesMatch p i ↔ HandoversAllowed p i :=
  ⟨handoversAllowed, fun hok => ⟨fun _ => matched hdm hok, fun _ => reached hdm htk hok⟩⟩

/-- A cycle without a command, in which the other port is silent and the debug module is ready. -/
def noCmd : Input 7 2 where
  icbCmdValid := false
  icbCmdAddr := 0
  icbCmdRead := false
  icbCmdWdata := 0
  icbRspReady := true
  dbgIrq := 0
  otherReqVld := false
  otherReqBits := 0
  otherRspRdy := true
  dmReqRdy := true
  dmRspVld := false
  dmRspBits := 0

/-- A cycle with a write of `v` to the register at `addr`. -/
def writeCmd (addr : BitVec 12) (v : BitVec 32) : Input 7 2 :=
  { noCmd with icbCmdValid := true, icbCmdAddr := addr, icbCmdWdata := v }

/-- A soft reset while the debug module works on a read of address 1, then a read of address 2. -/
def resetInFlight : ℕ → Input 7 2
  | 0 => writeCmd Icb2DebugBus.addrReqOthers 0x14#32
  | 3 => writeCmd Icb2DebugBus.addrCtrl 0
  | 4 => writeCmd Icb2DebugBus.addrReqOthers 0x24#32
  | 7 => { noCmd with dmRspVld := true, dmRspBits := 0xab#34 <<< 2 }
  | _ => noCmd

theorem resetInFlight_dm : DmiArbiter.DmAnswersOnce (arbStream .dtm1 resetInFlight) := by
  intro n hn
  match n with
  | 0 | 1 | 2 | 3 | 4 | 5 | 6 => exact absurd hn (by decide)
  | 7 => decide +kernel
  | n + 8 => exact absurd (show false = true from hn) (by decide)

/-- The read of address 2 is lost, and the response to the read of address 1 is reported as its response. -/
theorem responses_not_match : ¬ ∀ i : ℕ → Input 7 2, DmiArbiter.DmAnswersOnce (arbStream .dtm1 i) →
    DmTakes .dtm1 i → ResponsesMatch .dtm1 i := by
  intro h
  have hm := h resetInFlight resetInFlight_dm fun n _ => ⟨n, le_rfl, by
    match n with
    | 0 | 1 | 2 | 3 | 4 | 5 | 6 | 7 => rfl
    | n + 8 => rfl⟩
  obtain ⟨u, k, b, hu⟩ := hm.matched 8 (by decide +kernel)
  obtain ⟨hle, -, hlast⟩ := hu.handover
  have h6 : 6 ≤ u := by
    by_contra hlt
    exact hlast 6 (by omega) (by omega) (by decide +kernel)
  have ha := hu.accepted
  obtain rfl | rfl | rfl : u = 6 ∨ u = 7 ∨ u = 8 := by omega
  all_goals exact absurd ha (by decide +kernel)

/-- A read of address 1, a soft reset after its response, then a read of address 2. -/
def resetAfterResponse : ℕ → Input 7 2
  | 0 => writeCmd Icb2DebugBus.addrReqOthers 0x14#32
  | 4 => { noCmd with dmRspVld := true, dmRspBits := 0xab#34 <<< 2 }
  | 6 => writeCmd Icb2DebugBus.addrCtrl 0
  | 7 => writeCmd Icb2DebugBus.addrReqOthers 0x24#32
  | 11 => { noCmd with dmRspVld := true, dmRspBits := 0xcd#34 <<< 2 }
  | _ => noCmd

theorem resetAfterResponse_dm : DmiArbiter.DmAnswersOnce (arbStream .dtm1 resetAfterResponse) := by
  intro n hn
  match n with
  | 0 | 1 | 2 | 3 | 5 | 6 | 7 | 8 | 9 | 10 => exact absurd hn (by decide)
  | 4 | 11 => decide +kernel
  | n + 12 => exact absurd (show false = true from hn) (by decide)

/-- Nothing happens after cycle 12. -/
private theorem resetAfterResponse_quiet (n : ℕ) : (run .dtm1 resetAfterResponse (n + 13)).dtm.dbusFsmAct = .idle ∧
    (run .dtm1 resetAfterResponse (n + 13)).dtm.dbusOpStart = false := by
  induction n with
  | zero => decide +kernel
  | succ n ih =>
    have hc : ¬ CtrlWrite .dtm1 resetAfterResponse (n + 13) := fun hc => absurd (show false = true from hc) (by decide)
    refine ⟨?_, rfl⟩
    rw [show n + 1 + 13 = n + 13 + 1 from by omega, fsm_succ hc, Icb2DebugBus.fsmNxt_idle ih.1, ih.2]
    rfl

theorem responses_match_resetAfterResponse : ResponsesMatch .dtm1 resetAfterResponse := by
  refine (responses_match_iff resetAfterResponse_dm fun n _ => ⟨n, le_rfl, ?_⟩).2 fun u _ hh => ?_
  · match n with
    | 0 | 1 | 2 | 3 | 4 | 5 | 6 | 7 | 8 | 9 | 10 | 11 => rfl
    | n + 12 => rfl
  · rw [handover_iff] at hh
    match u with
    | 0 | 1 | 3 | 4 | 5 | 6 | 7 | 8 | 10 | 11 | 12 => exact absurd hh (by decide +kernel)
    | 2 | 9 => decide +kernel
    | u + 13 => exact absurd ((resetAfterResponse_quiet u).1.symm.trans hh.1) (by decide)

end DebugPath
