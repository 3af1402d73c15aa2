import ZrSoc.UartModelFrames
import Mathlib.Tactic.Push

/-!
# The stop bits that the testbench receiver checks

A frame is reported as good at the end of its first stop bit if the bit counter, which still has the number of the data
bits, has reached `ctrl_stops` there; otherwise the counter starts again and again.  So the receiver checks the stop
bits that it is configured for if there is only one of them or if it never reports (`checksStops_iff`).
-/

namespace UartModel

variable {c : Config} {s : State} {line : ℕ → Bool} {rxd : Bool} {r t t₀ t₁ : ℕ}

/-- The receiver is idle in cycle `t₀`, and the line is low there and in the first half of the start bit. -/
structure Started (c : Config) (line : ℕ → Bool) (t₀ : ℕ) : Prop where
  half : 0 < c.half
  idle : (run c line t₀).rxFsmQ = .idle
  low : ∀ t, t₀ ≤ t → t = t₀ ∨ t + 1 < t₀ + c.half → line t = false

def Accepts (c : Config) (line : ℕ → Bool) (t : ℕ) : Prop := (run c line t).rxFsmQ = .idle ∧ line t = false

/-- A good report is that of a frame with high stop bits where they are sampled, and no start bit is accepted before the
last stop bit of a frame has been sampled. -/
def ChecksStops (c : Config) : Prop := ∀ line : ℕ → Bool,
  (∀ t x, report (run c line t) = some ⟨x, false⟩ → ∃ t₀ < t, Started c line t₀ ∧
    (∀ t', t₀ < t' → t' < t → report (run c line t') = none) ∧
    ∀ k < c.stops, line (sampleTime c t₀ (c.bits + k)) = true) ∧
  ∀ t₀, Started c line t₀ → ∀ t, t₀ < t → t ≤ sampleTime c t₀ (c.bits + (c.stops - 1)) → ¬ Accepts c line t

theorem two_le_baud (h : 0 < c.half) : 2 ≤ c.baud := by
  unfold Config.half at h
  omega

/-! ### The way back to the idle state -/

theorem comb_recover {b k : ℕ} (hs : s.rxFsmQ = .recover) (hb : s.baudCnt.toInt = b) (hk : s.bitCnt.toInt = k) :
    comb c s rxd =
      if rxd = false then { rxFsmN := .recover, baudRst := true, rxRdyComb := false, rxErrComb := false }
      else if c.baud ≤ b ∧ c.stops ≤ k then { rxFsmN := .idle, baudRst := true, rxRdyComb := false, rxErrComb := false }
      else { rxFsmN := .recover, baudRst := false, rxRdyComb := false, rxErrComb := false } := by
  have hfull := baudFull_iff (c := c) hb
  have hstops := stops_le_iff (c := c) hk
  unfold comb
  rw [hs]
  cases rxd with
  | false => simp [stay, hs]
  | true =>
    by_cases h1 : c.baud ≤ b
    · by_cases h2 : c.stops ≤ k
      · simp [hfull.2 h1, hstops.2 h2, h1, h2, stay]
      · have h3 : ¬ c.ctrlStops ≤ s.bitCnt := fun h => h2 (hstops.1 h)
        simp [hfull.2 h1, -Int32.not_le, h3, h2, stay, hs]
    · simp [Bool.eq_false_iff.2 fun h => h1 (hfull.1 h), h1, stay, hs]

/-- After an error the receiver waits for at least as many bit times as there are stop bits. -/
theorem recover_of_lt (hB : 2 ≤ c.baud) (hs : (run c line t₁).rxFsmQ = .recover)
    (hc : Counting c 0 (run c line t₁)) (ht : t₁ ≤ t) (hlt : t < t₁ + c.stops * c.baud) :
    (run c line t).rxFsmQ = .recover ∧ ∃ r, t₁ + r ≤ t ∧ Counting c r (run c line t) := by
  have hmax := c.stops_lt
  induction t, ht using Nat.le_induction with
  | base => exact ⟨hs, 0, Nat.le_refl _, hc⟩
  | succ t ht ih =>
    obtain ⟨hs', r, hr, hc'⟩ := ih (by omega)
    have hcomb : comb c (run c line t) (line t) = _ := comb_recover hs' hc'.baud hc'.bit
    have hdm := Nat.div_add_mod r c.baud
    have hmod := Nat.mod_lt r (show 0 < c.baud by omega)
    have hend : ¬ (c.baud ≤ r % c.baud + 1 ∧ c.stops ≤ r / c.baud + 1) := by
      rintro ⟨hfull, hstops⟩
      have hmul := Nat.mul_le_mul_left c.baud hstops
      rw [Nat.mul_comm c.baud c.stops, Nat.mul_succ] at hmul
      omega
    rw [if_neg hend] at hcomb
    rw [run_succ]
    cases hl : line t with
    | false =>
      rw [hl, if_pos rfl] at hcomb
      exact ⟨by rw [edge_rxFsmQ, hcomb], 0, by omega, edge_restart (by rw [hcomb])⟩
    | true =>
      rw [hl, if_neg (by simp)] at hcomb
      have hdiv : (r + 1) / c.baud < c.stops := (Nat.div_lt_iff_lt_mul (by omega)).2 (by omega)
      refine ⟨by rw [edge_rxFsmQ, hcomb], r + 1, by omega, ?_⟩
      exact hc'.next hB (by rw [hcomb]) (fun h => by rw [hcomb] at h; simp at h) (by omega)

theorem recover_next (hs : s.rxFsmQ = .recover) :
    (edge c s rxd).rxFsmQ = .recover ∨ (edge c s rxd).rxFsmQ = .idle := by
  rw [edge_rxFsmQ]
  unfold comb
  rw [hs]
  cases rxd with
  | false => exact Or.inl hs
  | true =>
    simp only [bne_self_eq_false, Bool.false_eq_true, if_false]
    split
    · exact Or.inr rfl
    · exact Or.inl hs

/-- Good reports come from the stop state. -/
theorem stop_of_good {x : BitVec 32} (h : report (edge c s rxd) = some ⟨x, false⟩) : s.rxFsmQ = .stop := by
  rw [report_edge] at h
  have hrdy : (comb c s rxd).rxRdyComb = true ∧ (comb c s rxd).rxErrComb = false := by
    split at h
    next hrdy =>
      simp only [Option.some.injEq, Report.mk.injEq] at h
      exact ⟨hrdy, h.2⟩
    next => simp at h
  unfold comb at hrdy
  cases hs : s.rxFsmQ with
  | stop => rfl
  | idle => cases rxd <;> simp [hs, stay] at hrdy
  | start => cases rxd <;> cases hh : baudHalf c s <;> simp [hs, hh, stay, toRecover] at hrdy
  | data => cases hh : baudHalf c s <;> simp [hs, hh, stay] at hrdy
  | recover =>
    rw [hs] at hrdy
    cases rxd with
    | false => simp [stay] at hrdy
    | true =>
      simp only [bne_self_eq_false, Bool.false_eq_true, if_false] at hrdy
      split at hrdy <;> simp [stay] at hrdy

/-! ### Configurations without a good report -/

/-- The stop state follows the data state in the middle of a bit time. -/
theorem stop_cause (h : (edge c s rxd).rxFsmQ = .stop) :
    s.rxFsmQ = .stop ∨ baudHalf c s = true ∧ c.ctrlBits < s.bitCnt := by
  rw [edge_rxFsmQ] at h
  unfold comb at h
  cases hs : s.rxFsmQ with
  | stop => exact Or.inl rfl
  | idle => cases rxd <;> cases hh : baudHalf c s <;> simp [hs, hh, stay] at h
  | start => cases rxd <;> cases hh : baudHalf c s <;> simp [hs, hh, stay, toRecover] at h
  | data =>
    cases hh : baudHalf c s with
    | false => simp [hs, hh, stay] at h
    | true =>
      simp only [hs, hh, if_true] at h
      split at h
      next hk => exact Or.inr ⟨rfl, hk⟩
      next => simp at h
  | recover =>
    rw [hs] at h
    cases rxd with
    | false => simp [stay, hs] at h
    | true =>
      simp only [bne_self_eq_false, Bool.false_eq_true, if_false] at h
      split at h <;> simp [stay, hs] at h

theorem baudHalf_of_le (hB : c.baud ≤ 1) : baudHalf c (run c line t) = false := by
  have hcnt : (run c line t).baudCnt = 1 := by
    induction t with
    | zero => rfl
    | succ t ih =>
      have hone : (1 : Int32).toInt = (1 : ℕ) := rfl
      have hfull : baudFull c (run c line t) = true := (baudFull_iff (by rw [ih, hone])).2 hB
      rw [run_succ]
      unfold edge
      simp only [hfull, if_true, ite_self]
  have htwo : (2 : Int32).toInt = 2 := rfl
  have hone : (1 : Int32).toInt = 1 := rfl
  unfold Config.baud at hB
  unfold baudHalf
  rw [hcnt, beq_eq_false_iff_ne]
  intro heq
  rw [← Int32.toInt_inj, hone, Int32.toInt_div_of_ne_right _ _ (by decide), htwo] at heq
  have hle : c.ctrlBaudClks.toInt.tdiv 2 ≤ 0 := by
    rcases Int.le_total 0 c.ctrlBaudClks.toInt with hnn | hneg
    · rw [Int.tdiv_eq_ediv_of_nonneg hnn]
      omega
    · have hnn := Int.tdiv_nonneg (a := -c.ctrlBaudClks.toInt) (b := 2) (by omega) (by omega)
      rw [Int.neg_tdiv] at hnn
      omega
  omega

/-- The bit counter never gets beyond the largest number of an `int`. -/
theorem not_bits_lt (hbits : c.bits = 2 ^ 31 - 1) : ¬ c.ctrlBits < s.bitCnt := by
  have hlt := s.bitCnt.toInt_lt
  unfold Config.bits at hbits
  rw [Int32.lt_iff_toInt_lt]
  omega

/-- Without half of a bit time and with the largest number of data bits the receiver never comes to the stop bits. -/
theorem never_stop (h : c.baud ≤ 1 ∨ c.bits = 2 ^ 31 - 1) (t : ℕ) : (run c line t).rxFsmQ ≠ .stop := by
  induction t with
  | zero => exact fun h => by cases h
  | succ t ih =>
    intro hs
    rcases stop_cause hs with hs' | ⟨hh, hk⟩
    · exact ih hs'
    · rcases h with hB | hbits
      · rw [baudHalf_of_le hB] at hh
        exact Bool.false_ne_true hh
      · exact not_bits_lt hbits hk

/-- The receiver looks at the first half of the start bit and goes on to the data bits. -/
theorem Started.start (h : Started c line t₀) {j : ℕ} (hj : j < c.half) :
    (run c line (t₀ + j)).rxFsmQ = (if j = 0 then .idle else .start) ∧ Counting c j (run c line (t₀ + j)) := by
  have hB := two_le_baud h.half
  induction j with
  | zero => exact ⟨h.idle, idle_counting h.idle⟩
  | succ j ih =>
    obtain ⟨hs, hc⟩ := ih (by omega)
    have hle : c.half ≤ c.baud := Nat.div_le_self _ _
    have hlow : line (t₀ + j) = false := h.low _ (by omega) (Or.inr (by omega))
    have hcomb := comb_start hB (by omega) hs hc (Or.inl hlow)
    rw [if_neg (by omega), hlow, if_neg Bool.false_ne_true] at hcomb
    rw [← Nat.add_assoc, run_succ, hlow]
    refine ⟨by rw [edge_rxFsmQ, hcomb, if_neg (Nat.succ_ne_zero j)], ?_⟩
    refine hc.next hB (by rw [hcomb]) (fun h => by rw [hcomb] at h; simp at h) ?_
    rw [Nat.div_eq_of_lt (by omega)]
    omega

theorem Started.data (h : Started c line t₀) : (run c line (t₀ + c.half)).rxFsmQ = .data := by
  have hpos := h.half
  obtain ⟨j, hj⟩ : ∃ j, c.half = j + 1 := ⟨c.half - 1, by omega⟩
  obtain ⟨hs, hc⟩ := h.start (j := j) (by omega)
  have hlow : line (t₀ + j) = false ∨ j ≠ 0 := by
    by_cases h0 : j = 0
    · exact Or.inl (h.low _ (by omega) (Or.inl (by omega)))
    · exact Or.inr h0
  have hcomb := comb_start (two_le_baud hpos) (by omega) hs hc hlow
  rw [if_pos hj.symm] at hcomb
  rw [hj, ← Nat.add_assoc, run_succ, edge_rxFsmQ, hcomb]

theorem data_forever (hbits : c.bits = 2 ^ 31 - 1) (hs : (run c line t₁).rxFsmQ = .data) (ht : t₁ ≤ t) :
    (run c line t).rxFsmQ = .data := by
  induction t, ht using Nat.le_induction with
  | base => exact hs
  | succ t ht ih =>
    rw [run_succ, edge_rxFsmQ]
    unfold comb
    rw [ih]
    simp only [not_bits_lt hbits, if_false]
    split
    · rfl
    · exact ih

/-! ### Configurations with good reports -/

section

variable (hB : 2 ≤ c.baud) (hbits : c.bits + 1 < 2 ^ 31)

include hB hbits

/-- The receiver is idle, recovers from an error or is in a frame. -/
theorem run_cases (line : ℕ → Bool) (t : ℕ) :
    (run c line t).rxFsmQ = .idle ∨ (run c line t).rxFsmQ = .recover ∨
      ∃ t₀ < t, (run c line t₀).rxFsmQ = .idle ∧ line t₀ = false ∧
        ∀ t', t₀ < t' → t' ≤ t → report (run c line t') = none := by
  have hframe : ∀ t t₀, t₀ ≤ t → (run c line t₀).rxFsmQ = .idle → line t₀ = false →
      (∀ t', t₀ < t' → t' ≤ t → report (run c line t') = none) →
      (run c line (t + 1)).rxFsmQ = .idle ∨ (run c line (t + 1)).rxFsmQ = .recover ∨
        ∃ t₀ < t + 1, (run c line t₀).rxFsmQ = .idle ∧ line t₀ = false ∧
          ∀ t', t₀ < t' → t' ≤ t + 1 → report (run c line t') = none := by
    intro t t₀ ht hidle hlow hquiet
    cases outcome_of_first hB hbits hidle hlow ht hquiet with
    | goesOn hp hr hl =>
      refine Or.inr (Or.inr ⟨t₀, by omega, hidle, hlow, fun t' h1 h2 => ?_⟩)
      rcases Nat.le_succ_iff.1 h2 with h2' | rfl
      · exact hquiet t' h1 h2'
      · exact hr
    | fails hs hc hr hl => exact Or.inr (Or.inl hs)
    | ends x hs hr hx heq hl hstops => exact Or.inl hs
  induction t with
  | zero => exact Or.inl rfl
  | succ t ih =>
    rcases ih with hs | hs | ⟨t₀, ht, hidle, hlow, hquiet⟩
    · cases hl : line t with
      | true => exact Or.inl (idle_next hs hl).1
      | false => exact hframe t t (Nat.le_refl t) hs hl fun t' h1 h2 => by omega
    · have hnext : (run c line (t + 1)).rxFsmQ = .recover ∨ (run c line (t + 1)).rxFsmQ = .idle := recover_next hs
      rcases hnext with h | h
      · exact Or.inr (Or.inl h)
      · exact Or.inl h
    · exact hframe t t₀ (Nat.le_of_lt ht) hidle hlow hquiet

/-- A good report is that of a frame whose first stop bit has just been sampled. -/
theorem good_report {x : BitVec 32} (hr : report (run c line t) = some ⟨x, false⟩) :
    ∃ t₀ < t, Started c line t₀ ∧ (∀ t', t₀ < t' → t' < t → report (run c line t') = none) ∧
      t = sampleTime c t₀ c.bits + 1 ∧ line (sampleTime c t₀ c.bits) = true ∧ c.stops ≤ c.bits + 1 := by
  have hhalf : 0 < c.half := Nat.div_pos hB (by omega)
  cases t with
  | zero => exact absurd hr (by simp [report, machine, reset])
  | succ t =>
    have hstop : (run c line t).rxFsmQ = .stop := stop_of_good hr
    rcases run_cases hB hbits line t with hs | hs | ⟨t₀, ht, hidle, hlow, hquiet⟩
    · simp [hstop] at hs
    · simp [hstop] at hs
    · cases outcome_of_first hB hbits hidle hlow (Nat.le_of_lt ht) hquiet with
      | goesOn hp hnone hl => exact absurd (hr.symm.trans hnone) (by simp)
      | fails hs hc hfail hl => exact absurd (hr.symm.trans hfail) (by simp)
      | ends y hs hend hx heq hl hstops =>
        have hright := (position_of_quiet hB hbits hidle hlow (Nat.le_of_lt ht) hquiet).2
        have hfirst : t₀ + c.half ≤ t := by
          unfold sampleTime at heq
          rw [Nat.succ_mul] at heq
          omega
        refine ⟨t₀, by omega, ⟨hhalf, hidle, fun t' h1 h2 => ?_⟩, fun t' h1 h2 => hquiet t' h1 (by omega),
          by rw [heq], by rw [← heq]; exact hl, hstops⟩
        rcases h2 with rfl | h2
        · exact hlow
        · exact (hright t' h1 (by omega)).start h2

/-- No start bit is accepted before the stop bits of a frame are over, unless the frame was reported after the first
one. -/
theorem not_accepts (hone : c.stops = 1 ∨ c.bits + 1 < c.stops) (hst : Started c line t₀) (ht : t₀ < t)
    (hle : t ≤ sampleTime c t₀ (c.bits + (c.stops - 1))) : (run c line t).rxFsmQ ≠ .idle := by
  have hlow := hst.low t₀ (Nat.le_refl _) (Or.inl rfl)
  have hpos : 0 < c.stops := by omega
  by_cases hquiet : ∀ t', t₀ < t' → t' ≤ t → report (run c line t') = none
  · exact not_idle_of_quiet hB hbits hst.idle hlow ht hquiet
  · -- the first report of the frame
    push Not at hquiet
    obtain ⟨t₂, h1, h2, hsome⟩ := hquiet
    obtain ⟨t₁, hlt, hle₁, hrep, hfirst⟩ := Sync.exists_first (Q := fun t => report (run c line t) ≠ none)
      (n := t₀ + 1) h1 hsome
    obtain ⟨t₁, rfl⟩ : ∃ t', t₁ = t' + 1 := ⟨t₁ - 1, by omega⟩
    have hq : ∀ t', t₀ < t' → t' ≤ t₁ → report (run c line t') = none := by
      intro t' h1 h2
      simpa using hfirst t' h1 (by omega)
    cases outcome_of_first hB hbits hst.idle hlow (by omega) hq with
    | goesOn hp hnone hl => exact absurd hnone hrep
    | fails hs hc hr hl =>
      have hlate : t₀ + 2 * c.half + c.bits * c.baud ≤ t₁ := by
        by_contra hearly
        exact hl ⟨fun h => hst.low t₁ (by omega) (Or.inr h), fun h => absurd h hearly⟩
      have htime : sampleTime c t₀ (c.bits + (c.stops - 1)) =
          t₀ + (c.half - 1) + (c.bits * c.baud + c.stops * c.baud) := by
        have hsum : c.bits + (c.stops - 1) + 1 = c.bits + c.stops := by omega
        rw [sampleTime, hsum, Nat.add_mul]
      have hrec := (recover_of_lt hB hs hc (t := t) (by omega) (by omega)).1
      simp [hrec]
    | ends x hs hr hx heq hl hstops =>
      have h1' : c.stops = 1 := by omega
      rw [h1'] at hle
      simp only [Nat.sub_self, Nat.add_zero] at hle
      omega

end

/-- The line falls for a start bit, is high for the data bits and one stop bit and falls again. -/
def shortLine (c : Config) (t : ℕ) : Bool := decide (c.half ≤ t ∧ t ≤ sampleTime c 0 c.bits)

/-- With several stop bits, but not more than the bit counter has counted, the receiver checks only the first one. -/
theorem stops_of_checksStops (hB : 2 ≤ c.baud) (hbits : c.bits + 1 < 2 ^ 31) (hstops : 1 ≤ c.stops)
    (h : ChecksStops c) : c.stops = 1 ∨ c.bits + 1 < c.stops := by
  by_contra hno
  have hhalf : 0 < c.half := Nat.div_pos hB (by omega)
  have hlt : c.half < c.baud := Nat.div_lt_self (by omega) (by omega)
  have hidle : (run c (shortLine c) 0).rxFsmQ = .idle := rfl
  have hlow : shortLine c 0 = false := decide_eq_false (by omega)
  obtain ⟨hquiet, -, x, hx, -⟩ := frame_reported hB hbits hidle hlow (by omega) fun t h1 h2 =>
    ⟨fun h => decide_eq_false (by omega), fun h => decide_eq_true (by omega)⟩
  obtain ⟨t₀, ht, hst, -, hhigh⟩ := (h (shortLine c)).1 _ x hx
  have hzero : t₀ = 0 := by
    by_contra hne
    exact not_idle_of_quiet hB hbits hidle hlow (Nat.pos_of_ne_zero hne)
      (fun t' h1 h2 => hquiet t' h1 (by omega)) hst.idle
  have hsecond := of_decide_eq_true (hhigh 1 (by omega))
  rw [hzero] at hsecond
  unfold sampleTime at hsecond
  have hmul : (c.bits + 1 + 1) * c.baud = (c.bits + 1) * c.baud + c.baud := Nat.succ_mul _ _
  omega

theorem checksStops_of_never (h : c.baud ≤ 1 ∨ c.bits = 2 ^ 31 - 1) : ChecksStops c := by
  intro line
  constructor
  · intro t x hr
    cases t with
    | zero => exact absurd hr (by simp [report, machine, reset])
    | succ t => exact absurd (stop_of_good hr) (never_stop h t)
  · rintro t₀ hst t ht hle ⟨hidle, -⟩
    have hB := two_le_baud hst.half
    rcases Nat.lt_or_ge t (t₀ + c.half) with hearly | hlate
    · obtain ⟨j, rfl⟩ : ∃ j, t = t₀ + j := ⟨t - t₀, by omega⟩
      rw [(hst.start (by omega)).1, if_neg (by omega)] at hidle
      simp at hidle
    · rw [data_forever (h.resolve_left (by omega)) hst.data hlate] at hidle
      simp at hidle

theorem checksStops_of_first (hB : 2 ≤ c.baud) (hbits : c.bits + 1 < 2 ^ 31)
    (hone : c.stops = 1 ∨ c.bits + 1 < c.stops) : ChecksStops c := by
  intro line
  constructor
  · intro t x hr
    obtain ⟨t₀, ht, hst, hquiet, -, hhigh, hle⟩ := good_report hB hbits hr
    refine ⟨t₀, ht, hst, hquiet, fun k hk => ?_⟩
    have hk0 : k = 0 := by omega
    rw [hk0]
    exact hhigh
  · rintro t₀ hst t ht hle ⟨hidle, -⟩
    exact not_accepts hB hbits hone hst ht hle hidle

/-- The receiver checks all stop bits if and only if there is one, or there are more than the bit counter counts to, or
the receiver never comes to the stop bits. -/
theorem checksStops_iff (hstops : 1 ≤ c.stops) : ChecksStops c ↔
    c.stops = 1 ∨ c.bits + 1 < c.stops ∨ c.baud ≤ 1 ∨ c.bits = 2 ^ 31 - 1 := by
  have hmax : c.bits < 2 ^ 31 := by
    have := c.ctrlBits.toInt_lt
    unfold Config.bits
    omega
  constructor
  · intro h
    by_cases hstuck : c.baud ≤ 1 ∨ c.bits = 2 ^ 31 - 1
    · exact Or.inr (Or.inr hstuck)
    · rcases stops_of_checksStops (by omega) (by omega) hstops h with h1 | h1
      · exact Or.inl h1
      · exact Or.inr (Or.inl h1)
  · intro h
    by_cases hstuck : c.baud ≤ 1 ∨ c.bits = 2 ^ 31 - 1
    · exact checksStops_of_never hstuck
    · exact checksStops_of_first (by omega) (by omega) (by omega)

theorem checksStops_one : ChecksStops ⟨4, 8, 1⟩ := (checksStops_iff (by decide)).2 (Or.inl (by decide))

theorem not_checksStops : ¬ ∀ c : Config, 1 ≤ c.stops → ChecksStops c := by
  intro h
  have htwo := stops_of_checksStops (c := ⟨4, 8, 2⟩) (by decide) (by decide) (by decide) (h _ (by decide))
  revert htwo
  decide

end UartModel
