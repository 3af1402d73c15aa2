import ZrSoc.DebugBusFsm

/-!
# One request for each write of `REQ OTHERS`

A write to `REQ OTHERS` accepted while the FSM is idle asks for one request on the debug bus: from the second cycle
after the write the request is offered, and its handshake is in the first of these cycles in which the other side is
ready.  The FSM leaves its idle state only two cycles after the write, so the cycle in between is open to further
writes, and the edge detector merges writes in consecutive cycles into one.  In a run whose steps avoid this
(`StepOk`), idle writes and requests correspond one to one, each request with the operation and address of its write
and the contents of `REQ DWORD` at the write (`one_request_each`).
-/

namespace Icb2DebugBus

open Sync

variable {a h : ℕ}

/-- A write to `REQ OTHERS` accepted while the FSM is idle. -/
def IdleWrite (a : ℕ) (i : ℕ → Input h) (t : ℕ) : Prop :=
  weDbusReqOthers (i t) = true ∧ (run i t : State a h).dbusFsmAct = .idle

/-- The request the write of cycle `t` asks for. -/
def payload (a : ℕ) (i : ℕ → Input h) (t : ℕ) : BitVec (a + 2 + 32) :=
  addrField (a := a) ((i t).icbCmdWdata.setWidth (a + 4)) ++ codeField (a := a) ((i t).icbCmdWdata.setWidth (a + 4)) ++
    (run i t : State a h).regDbusReqDword

/-- The request of the write of cycle `t` is to be on the debug bus in cycle `u`: there was no soft reset since the
write, and the other side was not ready in the earlier cycles of the request. -/
def Pending (i : ℕ → Input h) (t u : ℕ) : Prop :=
  t + 2 ≤ u ∧ (∀ k, t + 2 ≤ k → k < u → (i k).dtmReqReady = false) ∧ ∀ k, t < k → k < u → weCtrl (i k) = false

def ReqHandshake (a : ℕ) (i : ℕ → Input h) (u : ℕ) : Prop :=
  dtmReqValid (run i u : State a h) = true ∧ (i u).dtmReqReady = true

/-- Idle writes and requests correspond one to one. -/
structure OneRequestEach (a : ℕ) (i : ℕ → Input h) : Prop where
  /-- from the second cycle after an idle write until the handshake its request is on the bus, unchanged -/
  issued : ∀ t u, IdleWrite a i t → Pending i t u →
    dtmReqValid (run i u : State a h) = true ∧ dtmReqBits (run i u : State a h) = payload a i t
  /-- an idle write has exactly one handshake if the other side gets ready before a soft reset -/
  once : ∀ t r, IdleWrite a i t → t + 2 ≤ r → (i r).dtmReqReady = true →
    (∀ k, t < k → k < r → weCtrl (i k) = false) → ∃! u, Pending i t u ∧ ReqHandshake a i u
  /-- no request is on the bus but that of one idle write -/
  only : ∀ u, dtmReqValid (run i u : State a h) = true → ∃! t, IdleWrite a i t ∧ Pending i t u

/-- The writes of cycle `u` keep away from the start and from the end of an operation. -/
structure StepOk (a : ℕ) (i : ℕ → Input h) (u : ℕ) : Prop where
  /-- an idle write does not follow a write of `REQ OTHERS` in the previous cycle -/
  others : IdleWrite a i u → (run i u : State a h).weDbusReqOthersD = false
  /-- `REQ DWORD` is not changed in the cycle of the start pulse -/
  dword : weDbusReqDword (i u) = true → (run i u : State a h).dbusFsmAct = .idle →
    (run i u : State a h).dbusOpStart = true → (i u).icbCmdWdata = (run i u : State a h).regDbusReqDword
  /-- no start pulse is raised in the cycle in which an operation completes -/
  done : weDbusReqOthers (i u) = true → dbusOpDone (run i u : State a h) (i u) = true →
    (run i u : State a h).weDbusReqOthersD = true ∨ weCtrl (i (u + 1)) = true

/-! ### The life of a request -/

section Run

variable {i : ℕ → Input h} {n t u : ℕ}

theorem othersD_of_opStart (hs : (run i n : State a h).dbusOpStart = true) :
    (run i n : State a h).weDbusReqOthersD = true := by
  cases n with
  | zero => exact absurd hs (by simp [run, machine, reset])
  | succ n => simp_all [run_succ, edge]

/-- The start pulse and the request registers in the cycle after an idle write. -/
theorem start_of_idleWrite (hw : IdleWrite a i t) (hd : (run i t : State a h).weDbusReqOthersD = false) :
    (run i (t + 1) : State a h).dbusFsmAct = .idle ∧ (run i (t + 1) : State a h).dbusOpStart = true ∧
    (run i (t + 1) : State a h).regDbusReqOthers = (i t).icbCmdWdata.setWidth (a + 4) ∧
    (run i (t + 1) : State a h).regDbusReqDword = (run i t : State a h).regDbusReqDword := by
  obtain ⟨hw, hf⟩ := hw
  have hs : (run i t : State a h).dbusOpStart = false := by
    by_contra hs
    rw [Bool.not_eq_false] at hs
    exact absurd (othersD_of_opStart hs) (by simp [hd])
  obtain ⟨haddr, hicb⟩ := weAt_iff.1 hw
  rw [run_succ]
  refine ⟨?_, ?_, ?_, ?_⟩
  · rw [fsm_edge (not_ctrl_of_others hw), fsmNxt_idle hf, hs]; rfl
  · simp [edge, hw, hd]
  · simp [edge, hicb, hf, haddr]
  · have : addrReqOthers ≠ addrReqDword := by decide
    simp [edge, haddr, this]

/-- The request is raised in the cycle after the start pulse. -/
theorem request_of_start (hf : (run i n : State a h).dbusFsmAct = .idle)
    (hs : (run i n : State a h).dbusOpStart = true) (hc : weCtrl (i n) = false) :
    (run i (n + 1) : State a h).dbusFsmAct = .reqBusy := by
  rw [run_succ, fsm_edge hc, fsmNxt_idle hf, hs]; rfl

theorem reqBits_of_start (hok : StepOk a i n) (hf : (run i n : State a h).dbusFsmAct = .idle)
    (hs : (run i n : State a h).dbusOpStart = true) (hc : weCtrl (i n) = false) :
    dtmReqBits (run i (n + 1) : State a h) = addrField (run i n : State a h).regDbusReqOthers ++
      codeField (run i n : State a h).regDbusReqOthers ++ (run i n : State a h).regDbusReqDword := by
  have hno : weDbusReqOthers (i n) = false := by
    by_contra hw
    rw [Bool.not_eq_false] at hw
    exact absurd (othersD_of_opStart hs) (by simp [hok.others ⟨hw, hf⟩])
  have hothers : (run i (n + 1) : State a h).regDbusReqOthers = (run i n : State a h).regDbusReqOthers := by
    rw [run_succ]
    by_cases hicb : icbWrite (i n) = true <;> simp_all [edge, weDbusReqOthers, weAt]
  have hdword : (run i (n + 1) : State a h).regDbusReqDword = (run i n : State a h).regDbusReqDword := by
    rw [run_succ]
    by_cases hw : weDbusReqDword (i n) = true
    · obtain ⟨haddr, hicb⟩ := weAt_iff.1 hw
      simp [edge, hicb, hf, haddr, hok.dword hw hf hs]
    · have : ¬ (icbWrite (i n) = true ∧ (i n).icbCmdAddr = addrReqDword) := fun h => hw (weAt_iff.2 h.symm)
      simp only [edge, hf]
      simp
      tauto
  have hop : (run i (n + 1) : State a h).dbusReqOp = .ofBits (codeField (run i n : State a h).regDbusReqOthers) := by
    simp [run_succ, edge, dtmRst, hc, hs, hf, dbusReqOpI]
  rw [dtmReqBits, hothers, hdword, hop, DbusReqOp.toBits_ofBits]

/-- A request stays on the bus, unchanged, until its handshake. -/
theorem request_succ (hf : (run i n : State a h).dbusFsmAct = .reqBusy) (hr : (i n).dtmReqReady = false)
    (hc : weCtrl (i n) = false) : (run i (n + 1) : State a h).dbusFsmAct = .reqBusy ∧
    dtmReqBits (run i (n + 1) : State a h) = dtmReqBits (run i n : State a h) := by
  refine ⟨?_, ?_⟩
  · rw [run_succ, fsm_edge hc]; simp [dbusFsmNxt, hf, hr]
  · rw [run_succ, reqBits_edge_busy (by simp [hf]) hc]

theorem dtmReqValid_iff {s : State a h} : dtmReqValid s = true ↔ s.dbusFsmAct = .reqBusy := by
  simp [dtmReqValid]

theorem Pending.succ_iff : Pending i t (u + 1) ↔ u = t + 1 ∧ weCtrl (i u) = false ∨
    Pending i t u ∧ (i u).dtmReqReady = false ∧ weCtrl (i u) = false := by
  constructor
  · rintro ⟨hle, hr, hc⟩
    rcases Nat.lt_or_ge (t + 1) u with hlt | hge
    · exact Or.inr ⟨⟨hlt, fun k hk hku => hr k hk (by omega), fun k hk hku => hc k hk (by omega)⟩,
        hr u hlt (by omega), hc u (by omega) (by omega)⟩
    · exact Or.inl ⟨by omega, hc u (by omega) (by omega)⟩
  · rintro (⟨rfl, hc⟩ | ⟨⟨hle, hr, hc⟩, hr', hc'⟩)
    · refine ⟨by omega, fun k hk hku => by omega, fun k hk hku => ?_⟩
      obtain rfl : k = t + 1 := by omega
      exact hc
    · refine ⟨by omega, fun k hk hku => ?_, fun k hk hku => ?_⟩
      · rcases Nat.lt_succ_iff_lt_or_eq.1 hku with hku | rfl
        · exact hr k hk hku
        · exact hr'
      · rcases Nat.lt_succ_iff_lt_or_eq.1 hku with hku | rfl
        · exact hc k hk hku
        · exact hc'

/-! ### Whole runs -/

variable (hok : ∀ u, StepOk a i u)

include hok in
private theorem issued_of_pending (hw : IdleWrite a i t) (hp : Pending i t u) :
    (run i u : State a h).dbusFsmAct = .reqBusy ∧ dtmReqBits (run i u : State a h) = payload a i t := by
  induction u with
  | zero => exact absurd hp.1 (by omega)
  | succ u ih =>
    rcases Pending.succ_iff.1 hp with ⟨rfl, hc⟩ | ⟨hp, hr, hc⟩
    · obtain ⟨hf, hs, hothers, hdword⟩ := start_of_idleWrite hw ((hok t).others hw)
      refine ⟨request_of_start hf hs hc, ?_⟩
      rw [reqBits_of_start (hok _) hf hs hc, hothers, hdword, payload]
    · obtain ⟨hf, hb⟩ := ih hp
      obtain ⟨hf', hb'⟩ := request_succ hf hr hc
      exact ⟨hf', hb'.trans hb⟩

include hok in
/-- The start pulse of an idle FSM that is not reset comes from an idle write. -/
private theorem idleWrite_of_start (hf : (run i (n + 1) : State a h).dbusFsmAct = .idle)
    (hs : (run i (n + 1) : State a h).dbusOpStart = true) (hc : weCtrl (i (n + 1)) = false) : IdleWrite a i n := by
  have hpulse : weDbusReqOthers (i n) = true ∧ (run i n : State a h).weDbusReqOthersD = false := by
    simpa [run_succ, edge] using hs
  refine ⟨hpulse.1, ?_⟩
  by_contra hbusy
  rw [run_succ, fsm_edge (not_ctrl_of_others hpulse.1), fsmNxt_eq_idle_iff hbusy] at hf
  rcases (hok n).done hpulse.1 hf with h | h
  · simp [hpulse.2] at h
  · simp [hc] at h

include hok in
private theorem exists_pending (hv : (run i u : State a h).dbusFsmAct = .reqBusy) :
    ∃ t, IdleWrite a i t ∧ Pending i t u := by
  induction u with
  | zero => exact absurd hv (by simp [run, machine, reset])
  | succ u ih =>
    have hc : weCtrl (i u) = false := by
      by_contra hc
      rw [Bool.not_eq_false] at hc
      rw [run_succ, fsm_edge_ctrl hc] at hv
      exact absurd hv (by decide)
    rw [run_succ, fsm_edge hc] at hv
    cases hf : (run i u : State a h).dbusFsmAct with
    | idle =>
      have hs : (run i u : State a h).dbusOpStart = true := by
        by_contra hs
        rw [fsmNxt_idle hf, if_neg hs] at hv
        exact absurd hv (by decide)
      cases u with
      | zero => exact absurd hs (by simp [run, machine, reset])
      | succ n => exact ⟨n, idleWrite_of_start hok hf hs hc, Pending.succ_iff.2 (Or.inl ⟨rfl, hc⟩)⟩
    | reqBusy =>
      obtain ⟨t, hw, hp⟩ := ih hf
      have hr : (i u).dtmReqReady = false := by
        by_contra hr
        rw [Bool.not_eq_false] at hr
        simp only [dbusFsmNxt, hf, hr, ↓reduceIte] at hv
        split at hv <;> exact absurd hv (by decide)
      exact ⟨t, hw, Pending.succ_iff.2 (Or.inr ⟨hp, hr, hc⟩)⟩
    | rspBusy =>
      simp only [dbusFsmNxt, hf] at hv
      split at hv <;> exact absurd hv (by decide)

include hok in
private theorem pending_unique {t' : ℕ} (hw : IdleWrite a i t) (hp : Pending i t u) (hw' : IdleWrite a i t')
    (hp' : Pending i t' u) : t = t' := by
  -- an idle write falls into no other request, and not into the cycle of its start pulse
  have key : ∀ t t', IdleWrite a i t → Pending i t u → IdleWrite a i t' → Pending i t' u → ¬ t < t' := by
    intro t t' hw hp hw' hp' hlt
    have hle := hp'.1
    rcases Nat.lt_or_ge (t + 1) t' with hlt' | hge
    · have hmid : Pending i t t' :=
        ⟨hlt', fun k hk hkt => hp.2.1 k hk (by omega), fun k hk hkt => hp.2.2 k hk (by omega)⟩
      have hbusy := (issued_of_pending hok hw hmid).1
      rw [hw'.2] at hbusy
      exact absurd hbusy (by decide)
    · obtain rfl : t' = t + 1 := by omega
      have hs := (start_of_idleWrite hw ((hok t).others hw)).2.1
      exact absurd (othersD_of_opStart hs) (by simp [(hok (t + 1)).others hw'])
  have h1 := key t t' hw hp hw' hp'
  have h2 := key t' t hw' hp' hw hp
  omega

include hok in
/-- In a run in which the writes of every cycle keep away from the start and the end of an operation, idle writes and
requests correspond one to one. -/
theorem one_request_each : OneRequestEach a i := by
  refine ⟨?_, ?_, ?_⟩
  · intro t u hw hp
    obtain ⟨hf, hb⟩ := issued_of_pending hok hw hp
    exact ⟨dtmReqValid_iff.2 hf, hb⟩
  · intro t r hw hle hr hc
    -- the handshake is in the first cycle from `t + 2` on in which the other side is ready
    obtain ⟨f, hf, hfr, hready, hmin⟩ := exists_first (Q := fun k => (i k).dtmReqReady = true) hle hr
    simp only [Bool.not_eq_true] at hmin
    have hp : Pending i t f := ⟨hf, hmin, fun k hk hkf => hc k hk (by omega)⟩
    refine ⟨f, ⟨hp, dtmReqValid_iff.2 (issued_of_pending hok hw hp).1, hready⟩, ?_⟩
    rintro u ⟨⟨hu, hur, -⟩, -, hready'⟩
    rcases Nat.lt_trichotomy u f with hlt | heq | hgt
    · exact absurd hready' (by simp [hmin u hu hlt])
    · exact heq
    · exact absurd hready (by simp [hur f hf hgt])
  · intro u hv
    obtain ⟨t, hw, hp⟩ := exists_pending hok (dtmReqValid_iff.1 hv)
    exact ⟨t, ⟨hw, hp⟩, fun t' ⟨hw', hp'⟩ => pending_unique hok hw' hp' hw hp⟩

end Run

/-- `REQ OTHERS` is written in cycle 0 and `REQ DWORD`, for the next operation, in cycle 1. -/
def dwordAtStart : ℕ → Input 2
  | 0 => writeCmd addrReqOthers 0x48#32
  | 1 => writeCmd addrReqDword 1#32
  | _ => noCmd

/-- The request of cycle 2 carries the data of the next operation. -/
theorem not_one_request_each : ¬ ∀ i : ℕ → Input 2, OneRequestEach 7 i := by
  intro h
  have hp : Pending dwordAtStart 0 2 := Pending.succ_iff.2 (Or.inl ⟨rfl, by decide⟩)
  have hb := ((h dwordAtStart).issued 0 2 ⟨by decide, by decide⟩ hp).2
  exact absurd hb (by decide)

/-- `REQ DWORD` and `REQ OTHERS` are written in cycles 0 and 1, and `REQ DWORD` again while the request is answered. -/
def writesApart : ℕ → Input 2
  | 0 => writeCmd addrReqDword 1#32
  | 1 => writeCmd addrReqOthers 0x48#32
  | 3 => { writeCmd addrReqDword 2#32 with dtmRespValid := true }
  | _ => noCmd

theorem one_request_each_writesApart : OneRequestEach 7 writesApart := by
  refine one_request_each fun u => ?_
  match u with
  | 0 | 1 | 2 | 3 => exact ⟨by unfold IdleWrite; decide, by decide, by decide⟩
  | u + 4 => exact ⟨fun ⟨h, _⟩ => absurd h (by simp [writesApart, weDbusReqOthers, weAt, icbWrite, noCmd]),
      fun h => absurd h (by simp [writesApart, weDbusReqDword, weAt, icbWrite, noCmd]),
      fun h => absurd h (by simp [writesApart, weDbusReqOthers, weAt, icbWrite, noCmd])⟩

end Icb2DebugBus
