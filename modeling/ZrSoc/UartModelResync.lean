import ZrSoc.UartModelReceive
import ZrSoc.UartModelStops

/-!
# The testbench receiver finds back to the frames

Whatever has been on the line, the receiver is idle after the line has been high for `settle c` clocks: it ends the
frame that it is in, or takes an error and recovers from it (`agrees_of_high`).  From then on it behaves as after reset
and reports every receivable frame (`receives_after`).

A line that is low from reset on ends in an error, and the receiver recovers as soon as the line has been high for the
stop bits (`low_start`).  The clocks under reset with a low line, in which the counter already counts, make this error
come earlier (`released_start`).
-/

namespace UartModel

variable {c : Config} {line : ℕ → Bool} {s s' : State} {rxd : Bool} {r t t₀ t₁ : ℕ}

/-- The receiver from the registers `s` on. -/
def machineFrom (c : Config) (s : State) : Sync.Machine State Bool where
  reset := s
  edge := edge c

abbrev runFrom (c : Config) (s : State) (line : ℕ → Bool) : ℕ → State := (machineFrom c s).run line

/-! ### Runs that differ in an old report -/

/-- The registers are the same but for the data of a report that is over. -/
structure Agrees (s s' : State) : Prop where
  rxFsmQ : s.rxFsmQ = s'.rxFsmQ
  baudCnt : s.baudCnt = s'.baudCnt
  bitCnt : s.bitCnt = s'.bitCnt
  rxDataInt : s.rxDataInt = s'.rxDataInt
  rxRdy : s.rxRdy = s'.rxRdy
  rxErr : s.rxErr = s'.rxErr
  rxData : s.rxRdy = true → s.rxData = s'.rxData

theorem Agrees.comb_eq (h : Agrees s s') : comb c s rxd = comb c s' rxd := by
  unfold comb baudHalf baudFull stay
  rw [h.rxFsmQ, h.baudCnt, h.bitCnt]

theorem Agrees.report_eq (h : Agrees s s') : report s = report s' := by
  unfold report
  rw [h.rxRdy, h.rxErr]
  cases hr : s'.rxRdy with
  | false => rfl
  | true => rw [h.rxData (h.rxRdy.trans hr)]

theorem Agrees.edge (h : Agrees s s') : Agrees (edge c s rxd) (edge c s' rxd) := by
  have hfull : baudFull c s = baudFull c s' := by rw [baudFull, baudFull, h.baudCnt]
  unfold UartModel.edge
  rw [h.comb_eq, hfull, h.rxFsmQ, h.baudCnt, h.bitCnt, h.rxDataInt]
  refine ⟨rfl, rfl, rfl, rfl, rfl, rfl, fun hr => ?_⟩
  simp only at hr
  simp only [hr, if_true]

/-- A run that agrees with reset in cycle `t₁` agrees from then on with the run on what is on the line since. -/
theorem run_agrees (h : Agrees (runFrom c s line t₁) reset) (n : ℕ) :
    Agrees (runFrom c s line (t₁ + n)) (run c (fun k => line (t₁ + k)) n) := by
  induction n with
  | zero => exact h
  | succ n ih => exact ih.edge

theorem agrees_of_restart
    (h : comb c s rxd = { rxFsmN := .idle, baudRst := true, rxRdyComb := false, rxErrComb := false }) :
    Agrees (edge c s rxd) reset := by
  rw [edge, h]
  exact ⟨rfl, rfl, rfl, rfl, rfl, rfl, fun hr => absurd hr (by simp)⟩

/-- An idle receiver on a high line is as after reset. -/
theorem agrees_of_idle (hs : (run c line t).rxFsmQ = .idle) (hl : line t = true) :
    Agrees (run c line (t + 1)) reset := by
  refine agrees_of_restart ?_
  unfold comb
  rw [hs, hl]
  simp [stay, hs]

/-! ### What the receiver does on a high line -/

/-- The receiver is idle, recovers from an error since `r` clocks or is in a frame. -/
inductive Situation (c : Config) (line : ℕ → Bool) (t : ℕ) : Prop
  | idle (hs : (run c line t).rxFsmQ = .idle)
  | recover (r : ℕ) (hr : r < c.stops * c.baud) (hs : (run c line t).rxFsmQ = .recover)
      (hc : Counting c r (run c line t))
  | frame (t₀ : ℕ) (ht : t₀ < t) (hidle : (run c line t₀).rxFsmQ = .idle) (hlow : line t₀ = false)
      (hquiet : ∀ t', t₀ < t' → t' ≤ t → report (run c line t') = none)

/-- The last one of `S` bit times of `B` clocks each. -/
private theorem last_bit_iff {B S q m : ℕ} (hm : m < B) (hq : q < S) :
    (B ≤ m + 1 ∧ S ≤ q + 1) ↔ B * q + m + 1 = S * B := by
  constructor
  · rintro ⟨hB, hS⟩
    obtain rfl : S = q + 1 := by omega
    rw [Nat.succ_mul, Nat.mul_comm]
    omega
  · intro heq
    have hS : S = q + 1 := by
      by_contra hne
      have hmul := Nat.mul_le_mul_right B (show q + 2 ≤ S by omega)
      rw [Nat.add_mul, Nat.mul_comm q] at hmul
      omega
    rw [hS, Nat.succ_mul, Nat.mul_comm] at heq
    omega

/-- The receiver starts anew when the line has been high for the stop bits. -/
theorem recover_step (hB : 2 ≤ c.baud) (hr : r < c.stops * c.baud) (hs : (run c line t).rxFsmQ = .recover)
    (hc : Counting c r (run c line t)) (hl : line t = true) : report (run c line (t + 1)) = none ∧
      if r + 1 = c.stops * c.baud then Agrees (run c line (t + 1)) reset
      else (run c line (t + 1)).rxFsmQ = .recover ∧ Counting c (r + 1) (run c line (t + 1)) := by
  have hmax := c.stops_lt
  have hcomb : comb c (run c line t) (line t) = _ := comb_recover hs hc.baud hc.bit
  have hend := last_bit_iff (Nat.mod_lt r (show 0 < c.baud by omega))
    ((Nat.div_lt_iff_lt_mul (show 0 < c.baud by omega)).2 hr)
  rw [Nat.div_add_mod] at hend
  rw [hl] at hcomb
  simp only [Bool.true_eq_false, if_false, hend] at hcomb
  rw [run_succ, hl]
  split
  next heq =>
    rw [if_pos heq] at hcomb
    exact ⟨report_none (by rw [hcomb]), agrees_of_restart hcomb⟩
  next heq =>
    rw [if_neg heq] at hcomb
    refine ⟨report_none (by rw [hcomb]), by rw [edge_rxFsmQ, hcomb], ?_⟩
    have hdiv : (r + 1) / c.baud < c.stops := (Nat.div_lt_iff_lt_mul (by omega)).2 (by omega)
    exact hc.next hB (by rw [hcomb]) (fun h => by rw [hcomb] at h; simp at h) (by omega)

/-- A low line keeps the receiver from recovering. -/
theorem recover_low (hs : (run c line t).rxFsmQ = .recover) (hl : line t = false) :
    (run c line (t + 1)).rxFsmQ = .recover ∧ Counting c 0 (run c line (t + 1)) ∧
      report (run c line (t + 1)) = none := by
  have hcomb : comb c (run c line t) (line t) = { stay (run c line t) with baudRst := true } := by
    unfold comb
    rw [hs, hl]
    rfl
  refine ⟨?_, edge_restart (by rw [hcomb]), report_none (by rw [hcomb]; rfl)⟩
  rw [run_succ, edge_rxFsmQ, hcomb]
  exact hs

section

variable (hB : 2 ≤ c.baud) (hbits : c.bits + 1 < 2 ^ 31) (hstops : 1 ≤ c.stops)

include hB hbits hstops

theorem situation (line : ℕ → Bool) (t : ℕ) : Situation c line t := by
  have hpos : 0 < c.stops * c.baud := Nat.mul_pos (by omega) (by omega)
  induction t with
  | zero => exact Situation.idle rfl
  | succ t ih =>
    have hframe (t₀ : ℕ) (ht : t₀ ≤ t) (hidle : (run c line t₀).rxFsmQ = .idle) (hlow : line t₀ = false)
        (hquiet : ∀ t', t₀ < t' → t' ≤ t → report (run c line t') = none) : Situation c line (t + 1) := by
      cases outcome_of_first hB hbits hidle hlow ht hquiet with
      | goesOn hp hr hl =>
        refine Situation.frame t₀ (by omega) hidle hlow fun t' h1 h2 => ?_
        rcases Nat.le_succ_iff.1 h2 with h2' | rfl
        · exact hquiet t' h1 h2'
        · exact hr
      | fails hs hc hr hl => exact Situation.recover 0 hpos hs hc
      | ends x hs hr hx heq hl hstops => exact Situation.idle hs
    cases ih with
    | idle hs =>
      cases hl : line t with
      | true => exact Situation.idle (idle_next hs hl).1
      | false => exact hframe t (Nat.le_refl t) hs hl fun t' h1 h2 => by omega
    | recover r hr hs hc =>
      cases hl : line t with
      | true =>
        have hstep := (recover_step hB hr hs hc hl).2
        split at hstep
        · exact Situation.idle hstep.rxFsmQ
        · exact Situation.recover (r + 1) (by omega) hstep.1 hstep.2
      | false => exact Situation.recover 0 hpos (recover_low hs hl).1 (recover_low hs hl).2.1
    | frame t₀ ht hidle hlow hquiet => exact hframe t₀ (Nat.le_of_lt ht) hidle hlow hquiet

end

/-- The clocks for which the line is high until the receiver is idle for sure. -/
def settle (c : Config) : ℕ := (c.bits + c.stops + 2) * c.baud

/-- The receiver is idle in cycle `e` if the line stays high until then. -/
inductive Settling (c : Config) (line : ℕ → Bool) (e t : ℕ) : Prop
  | idle (hs : (run c line t).rxFsmQ = .idle)
  | recover (r : ℕ) (hr : r < c.stops * c.baud) (hs : (run c line t).rxFsmQ = .recover)
      (hc : Counting c r (run c line t)) (he : t + (c.stops * c.baud - r) ≤ e)
  | frame (t₀ : ℕ) (ht : t₀ < t) (hidle : (run c line t₀).rxFsmQ = .idle) (hlow : line t₀ = false)
      (hquiet : ∀ t', t₀ < t' → t' ≤ t → report (run c line t') = none)
      (he : sampleTime c t₀ c.bits + 1 + c.stops * c.baud ≤ e)

section

variable (hB : 2 ≤ c.baud) (hbits : c.bits + 1 < 2 ^ 31) (hmany : c.stops ≤ c.bits + 1)

include hB hbits hmany

/-- A receiver in a frame has not come to the end of its first stop bit. -/
theorem le_sampleTime (hidle : (run c line t₀).rxFsmQ = .idle) (hlow : line t₀ = false) (ht : t₀ < t)
    (hquiet : ∀ t', t₀ < t' → t' ≤ t → report (run c line t') = none) : t ≤ sampleTime c t₀ c.bits := by
  have hmul : (c.bits + 1) * c.baud = c.bits * c.baud + c.baud := Nat.succ_mul _ _
  have hlt : c.half < c.baud := Nat.div_lt_self (by omega) (by omega)
  unfold sampleTime
  cases (position_of_quiet hB hbits hidle hlow (Nat.le_of_lt ht) hquiet).1 with
  | start j htj hj hs hc => omega
  | data r htr hr hs hc hx => omega
  | stop r htr hr hs hb hk hx hlate =>
    by_contra hle
    have := hlate (by omega)
    omega

variable (hstops : 1 ≤ c.stops)

include hstops

theorem Settling.next {e : ℕ} (h : Settling c line e t) (hl : line t = true) : Settling c line e (t + 1) := by
  cases h with
  | idle hs => exact Settling.idle (idle_next hs hl).1
  | recover r hr hs hc he =>
    have hstep := (recover_step hB hr hs hc hl).2
    split at hstep
    · exact Settling.idle hstep.rxFsmQ
    · exact Settling.recover (r + 1) (by omega) hstep.1 hstep.2 (by omega)
  | frame t₀ ht hidle hlow hquiet he =>
    have hle := le_sampleTime hB hbits hmany hidle hlow ht hquiet
    have hpos : 0 < c.stops * c.baud := Nat.mul_pos (by omega) (by omega)
    cases outcome_of_first hB hbits hidle hlow (Nat.le_of_lt ht) hquiet with
    | goesOn hp hr hl =>
      refine Settling.frame t₀ (by omega) hidle hlow (fun t' h1 h2 => ?_) he
      rcases Nat.le_succ_iff.1 h2 with h2' | rfl
      · exact hquiet t' h1 h2'
      · exact hr
    | fails hs hc hr hl => exact Settling.recover 0 hpos hs hc (by omega)
    | ends x hs hr hx heq hl hstops => exact Settling.idle hs

/-- After a high line of `settle c` clocks the receiver is as after reset, whatever was on the line before. -/
theorem agrees_of_high (hhigh : ∀ t, t₁ ≤ t → t < t₁ + settle c → line t = true) :
    Agrees (run c line (t₁ + settle c)) reset := by
  have hlt : c.half < c.baud := Nat.div_lt_self (by omega) (by omega)
  have hsettle : settle c = (c.bits + 1) * c.baud + c.stops * c.baud + c.baud := by
    rw [settle, show c.bits + c.stops + 2 = c.bits + 1 + c.stops + 1 by omega, Nat.succ_mul, Nat.add_mul]
  obtain ⟨e, he⟩ : ∃ e, e + 1 = t₁ + settle c := ⟨t₁ + settle c - 1, by omega⟩
  have hrun : ∀ t, t₁ ≤ t → t ≤ e → Settling c line e t := by
    intro t ht
    induction t, ht using Nat.le_induction with
    | base =>
      intro _
      cases situation hB hbits hstops line t₁ with
      | idle hs => exact Settling.idle hs
      | recover r hr hs hc => exact Settling.recover r hr hs hc (by omega)
      | frame t₀ ht hidle hlow hquiet =>
        refine Settling.frame t₀ ht hidle hlow hquiet ?_
        unfold sampleTime
        omega
    | succ t ht ih =>
      intro hle
      exact (ih (by omega)).next hB hbits hmany hstops (hhigh t ht (by omega))
  have hidle : (run c line e).rxFsmQ = .idle := by
    cases hrun e (by omega) (Nat.le_refl e) with
    | idle hs => exact hs
    | recover r hr hs hc he' => omega
    | frame t₀ ht hidle hlow hquiet he' =>
      have := le_sampleTime hB hbits hmany hidle hlow ht hquiet
      omega
  rw [← he]
  exact agrees_of_idle hidle (hhigh e (by omega) (by omega))

end

/-- As `Receives`, for the frames that begin `n` clocks after cycle `t₁` and for the reports since then. -/
def ReceivesFrom (c : Config) (t₁ : ℕ) (sent : ℕ → Option (BitVec c.bits)) (line : ℕ → Bool) : Prop :=
  ∃ reported : ℕ → ℕ,
    (∀ m x, sent m = some x → m < reported m ∧
      report (run c line (t₁ + reported m)) = some ⟨x.setWidth 32, false⟩) ∧
    (∀ m n x y, sent m = some x → sent n = some y → m < n → reported m < reported n) ∧
    ∀ t r, report (run c line (t₁ + t)) = some r → ∃ m x, sent m = some x ∧ t = reported m

theorem receivesFrom_iff {sent : ℕ → Option (BitVec c.bits)} (h : Agrees (run c line t₁) reset) :
    ReceivesFrom c t₁ sent line ↔ Receives c sent fun n => line (t₁ + n) := by
  have hreport (t : ℕ) : report (run c line (t₁ + t)) = report (run c (fun n => line (t₁ + n)) t) :=
    (run_agrees h t).report_eq
  unfold ReceivesFrom Receives
  simp only [hreport]

/-- Whatever was on the line, after it has been high for `settle c` clocks the receiver reports the frames that it
reports after reset: all of them if the bit time is even or their last data bits are high. -/
theorem resynchronises (hB : 2 ≤ c.baud) (hbits : c.bits ≤ 32) (hstops : 1 ≤ c.stops) (hmany : c.stops ≤ c.bits + 1)
    {sent : ℕ → Option (BitVec c.bits)} (hhigh : ∀ t, t₁ ≤ t → t < t₁ + settle c → line t = true)
    (hl : SerialLine.Carries c.baud (fun n => (sent n).map (frameBits c)) fun n => line (t₁ + settle c + n)) :
    ReceivesFrom c (t₁ + settle c) sent line ↔ ∀ m x, sent m = some x → c.baud % 2 = 0 ∨ x.msb = true := by
  rw [receivesFrom_iff (agrees_of_high hB (by omega) hmany hstops hhigh)]
  constructor
  · intro hrec m x hm
    exact (receivable_of_receives hB hbits hstops hl hrec hm).2
  · intro hgood
    exact receives_of_receivable hB hbits hstops hl fun m x hm => ⟨hmany, hgood m x hm⟩

/-! ### The reports of receivable frames -/

section

variable {sent : ℕ → Option (BitVec c.bits)} {m : ℕ} {x : BitVec c.bits} (hB : 2 ≤ c.baud) (hbits : c.bits ≤ 32)
  (hstops : 1 ≤ c.stops) (hl : SerialLine.Carries c.baud (fun n => (sent n).map (frameBits c)) line)
  (hgood : ∀ m x, sent m = some x → Receivable c x)

include hB hbits hstops hl hgood

theorem report_of_sent (hm : sent m = some x) :
    report (run c line (reportTime c m)) = some ⟨x.setWidth 32, false⟩ := by
  have hidle := idle_at_frame hB hbits hstops hl (fun k y hk _ => hgood k y hk) hm
  exact (receivable_reported hB hbits hl hstops hm (hgood m x hm) hidle).2.2

theorem report_of_not_sent (hno : ∀ m x, sent m = some x → t ≠ reportTime c m) : report (run c line t) = none := by
  by_cases hover : ∀ m x, sent m = some x → m < t → reportTime c m ≤ t
  · exact (idle_of_over hB hbits hstops hl (fun m x hm _ => hgood m x hm) hover).2 hno
  · push Not at hover
    obtain ⟨m, x, hm, hmt, hlt⟩ := hover
    have hidle := idle_at_frame hB hbits hstops hl (fun k y hk _ => hgood k y hk) hm
    exact (receivable_reported hB hbits hl hstops hm (hgood m x hm) hidle).1 t hmt (by omega)

end

/-- A break of five clocks, a high line, and the frame of `a5` with four clocks for a bit. -/
def brokenLine (t : ℕ) : Bool := if t < 5 then false else if t < 49 then true else a5Line (t - 49)

theorem resynchronises_broken : ReceivesFrom ⟨4, 8, 1⟩ (5 + settle ⟨4, 8, 1⟩)
    (SerialLine.single 0 (BitVec.ofNat _ 165)) brokenLine := by
  have hsettle : settle ⟨4, 8, 1⟩ = 44 := by decide
  refine (resynchronises (by decide) (by decide) (by decide) (by decide) (fun t h1 h2 => ?_) ?_).2
    fun m x _ => Or.inl (by decide)
  · rw [hsettle] at h2
    rw [brokenLine, if_neg (by omega), if_pos (by omega)]
  · have hline : (fun n => brokenLine (5 + settle ⟨4, 8, 1⟩ + n)) = a5Line := by
      funext n
      rw [hsettle, brokenLine, if_neg (by omega), if_neg (by omega), show 5 + 44 + n - 49 = n by omega]
    simp only [SerialLine.map_single, hline]
    exact SerialLine.carries_single (by decide) 0 _

/-! ### A line that is low from reset on -/

section

variable {L : ℕ} (hB : 2 ≤ c.baud) (hbits : c.bits + 1 < 2 ^ 31) (hlow : ∀ t, t < L → line t = false)
  (hL : 2 * c.half + c.bits * c.baud < L)

include hB hbits hlow hL

/-- The low line is taken for a frame, which fails when the stop bit is expected. -/
theorem quiet_of_low (ht : t ≤ 2 * c.half + c.bits * c.baud) :
    ∀ t', 0 < t' → t' ≤ t → report (run c line t') = none := by
  induction t with
  | zero =>
    intro t' h1 h2
    omega
  | succ t ih =>
    intro t' h1 h2
    rcases Nat.le_succ_iff.1 h2 with h2' | rfl
    · exact ih (by omega) t' h1 h2'
    · cases outcome_of_first hB hbits rfl (hlow 0 (by omega)) (Nat.zero_le t) (ih (by omega)) with
      | goesOn hp hr hl => exact hr
      | fails hs hc hr hl =>
        refine absurd ⟨fun _ => hlow t (by omega), fun hle => ?_⟩ hl
        omega
      | ends x hs hr hx heq hl hstops =>
        rw [hlow t (by omega)] at hl
        cases hl

theorem fails_of_low : (run c line (2 * c.half + c.bits * c.baud + 1)).rxFsmQ = .recover ∧
    Counting c 0 (run c line (2 * c.half + c.bits * c.baud + 1)) ∧
    report (run c line (2 * c.half + c.bits * c.baud + 1)) = some ⟨0#32, true⟩ := by
  have hlast : line (2 * c.half + c.bits * c.baud) = false := hlow _ hL
  cases outcome_of_first hB hbits rfl (hlow 0 (by omega)) (Nat.zero_le _)
    (quiet_of_low hB hbits hlow hL (Nat.le_refl _)) with
  | goesOn hp hr hl =>
    have := hl.stop (by omega)
    rw [hlast] at this
    cases this
  | fails hs hc hr hl => exact ⟨hs, hc, hr⟩
  | ends x hs hr hx heq hl hstops =>
    rw [hlast] at hl
    cases hl

theorem recover_of_low (ht : 2 * c.half + c.bits * c.baud + 1 ≤ t) (htL : t ≤ L) :
    (run c line t).rxFsmQ = .recover ∧ Counting c 0 (run c line t) ∧
      (2 * c.half + c.bits * c.baud + 1 < t → report (run c line t) = none) := by
  induction t, ht using Nat.le_induction with
  | base =>
    obtain ⟨hs, hc, -⟩ := fails_of_low hB hbits hlow hL
    exact ⟨hs, hc, fun h => by omega⟩
  | succ t ht ih =>
    obtain ⟨hs, hc, hr⟩ := recover_low (ih (by omega)).1 (hlow t (by omega))
    exact ⟨hs, hc, fun _ => hr⟩

/-- A line that is low from reset on is reported once, as an error; when the line has been high for the stop bits the
receiver is as after reset. -/
theorem low_start (hstops : 1 ≤ c.stops) (hhigh : ∀ t, L ≤ t → t < L + c.stops * c.baud → line t = true) :
    Agrees (run c line (L + c.stops * c.baud)) reset ∧
      ∀ t ≤ L + c.stops * c.baud, report (run c line t) =
        if t = 2 * c.half + c.bits * c.baud + 1 then some ⟨0#32, true⟩ else none := by
  have hpos : 0 < c.stops * c.baud := Nat.mul_pos (by omega) (by omega)
  have hwait (r : ℕ) (hr : r < c.stops * c.baud) : (run c line (L + r)).rxFsmQ = .recover ∧
      Counting c r (run c line (L + r)) ∧
      ∀ q, q < r → report (run c line (L + q + 1)) = none := by
    induction r with
    | zero =>
      obtain ⟨hs, hc, -⟩ := recover_of_low hB hbits hlow hL (t := L) (by omega) (Nat.le_refl L)
      exact ⟨hs, hc, fun q hq => by omega⟩
    | succ r ih =>
      obtain ⟨hs, hc, hq⟩ := ih (by omega)
      obtain ⟨hrep, hnext⟩ := recover_step hB (show r < c.stops * c.baud by omega) hs hc (hhigh _ (by omega) (by omega))
      rw [if_neg (by omega)] at hnext
      refine ⟨hnext.1, hnext.2, fun q hlt => ?_⟩
      rcases Nat.lt_succ_iff_lt_or_eq.1 hlt with hlt | rfl
      · exact hq q hlt
      · exact hrep
  obtain ⟨r, hr⟩ : ∃ r, r + 1 = c.stops * c.baud := ⟨c.stops * c.baud - 1, by omega⟩
  obtain ⟨hs, hc, hq⟩ := hwait r (by omega)
  obtain ⟨hrep, hnext⟩ := recover_step hB (show r < c.stops * c.baud by omega) hs hc (hhigh _ (by omega) (by omega))
  rw [if_pos hr] at hnext
  rw [← hr]
  refine ⟨hnext, fun t ht => ?_⟩
  split
  next heq =>
    rw [heq]
    exact (fails_of_low hB hbits hlow hL).2.2
  next hne =>
    rcases Nat.lt_or_ge (2 * c.half + c.bits * c.baud + 1) t with hlt | hge
    · rcases Nat.lt_or_ge L t with hLt | hLt
      · obtain ⟨q, rfl⟩ : ∃ q, t = L + q + 1 := ⟨t - L - 1, by omega⟩
        rcases Nat.lt_or_ge q r with hqr | hqr
        · exact hq q hqr
        · obtain rfl : q = r := by omega
          exact hrep
      · exact (recover_of_low hB hbits hlow hL (by omega) hLt).2.2 hlt
    · cases t with
      | zero => rfl
      | succ t => exact quiet_of_low hB hbits hlow hL (t := t + 1) (by omega) (t + 1) (by omega) (Nat.le_refl _)

end

/-! ### A line that is low under reset already -/

/-- The receiver waits for the middle of a start bit and has counted `j` clocks of it; it has not reported anything. -/
structure Waiting (c : Config) (j : ℕ) (s : State) : Prop where
  state : s.rxFsmQ = .idle ∨ s.rxFsmQ = .start
  baud : s.baudCnt.toInt = (j + 1 : ℕ)
  lt : j < c.half
  rdy : s.rxRdy = false
  data : s.rxData = 0#32

theorem comb_waiting (hs : s.rxFsmQ = .idle ∨ s.rxFsmQ = .start) : comb c s false =
    { rxFsmN := if baudHalf c s then .data else .start, baudRst := baudHalf c s, rxRdyComb := false
      rxErrComb := false } := by
  unfold comb
  rcases hs with h | h <;> rw [h] <;> cases baudHalf c s <;> simp [stay, h]

theorem baudFull_of_lt_half {j : ℕ} (hb : s.baudCnt.toInt = j) (hj : j ≤ c.half) (hB : 2 ≤ c.baud) :
    baudFull c s = false := by
  have hlt : c.half < c.baud := Nat.div_lt_self (by omega) (by omega)
  rw [Bool.eq_false_iff, Ne, baudFull_iff hb]
  omega

/-- A clock that finds the line low goes on to the data bits in the middle of the start bit. -/
theorem Waiting.next {j : ℕ} (hB : 2 ≤ c.baud) (h : Waiting c j s) :
    if j + 1 = c.half then UartModel.edge c s false = { reset with rxFsmQ := .data }
    else Waiting c (j + 1) (UartModel.edge c s false) := by
  have hlt := h.lt
  have hmax := c.baud_lt
  have hle : c.half ≤ c.baud := Nat.div_le_self _ _
  have hhalf := baudHalf_iff hB h.baud
  have hcomb : comb c s false = _ := comb_waiting h.state
  have hfull := baudFull_of_lt_half h.baud h.lt hB
  split
  next heq =>
    rw [hhalf.2 heq] at hcomb
    rw [UartModel.edge, hcomb, h.data]
    rfl
  next hne =>
    rw [Bool.eq_false_iff.2 fun hb => hne (hhalf.1 hb)] at hcomb
    rw [UartModel.edge, hcomb, hfull]
    exact ⟨.inr rfl, toInt_succ h.baud (by omega), by omega, rfl, h.data⟩

theorem Waiting.run {j : ℕ} (hB : 2 ≤ c.baud) (h : Waiting c j s) (hlow : ∀ t, j + t < c.half → line t = false)
    (ht : j + t < c.half) : Waiting c (j + t) (runFrom c s line t) := by
  induction t with
  | zero => exact h
  | succ t ih =>
    have hnext := (ih (by omega)).next hB
    rw [if_neg (by omega), ← hlow t (by omega)] at hnext
    exact hnext

theorem Waiting.run_half {j : ℕ} (hB : 2 ≤ c.baud) (h : Waiting c j s) (hlow : ∀ t, j + t < c.half → line t = false) :
    runFrom c s line (c.half - j) = { reset with rxFsmQ := .data } := by
  have hlt := h.lt
  obtain ⟨t, ht⟩ : ∃ t, t + 1 = c.half - j := ⟨c.half - j - 1, by omega⟩
  have hnext := (h.run hB hlow (t := t) (by omega)).next hB
  rw [if_pos (by omega), ← hlow t (by omega)] at hnext
  rw [← ht]
  exact hnext

/-- The line after `d` clocks on which it is low. -/
def delayed (d : ℕ) (line : ℕ → Bool) (t : ℕ) : Bool := if t < d then false else line (t - d)

theorem delayed_add (d : ℕ) (line : ℕ → Bool) (t : ℕ) : delayed d line (d + t) = line t := by
  rw [delayed, if_neg (by omega), Nat.add_sub_cancel_left]

/-- It is low for the clocks more that it is late. -/
theorem delayed_low {d L : ℕ} (hlow : ∀ t, t < L → line t = false) (ht : t < d + L) : delayed d line t = false := by
  unfold delayed
  split
  next => rfl
  next => exact hlow _ (by omega)

/-- A receiver that has already counted is where it would be if the line had been low for these clocks. -/
theorem Waiting.run_eq {d : ℕ} (hB : 2 ≤ c.baud) (h : Waiting c d s) (hlow : ∀ t, d + t < c.half → line t = false)
    (ht : c.half ≤ d + t) : runFrom c s line t = UartModel.run c (delayed d line) (d + t) := by
  have hlt := h.lt
  have hreset : Waiting c 0 reset := ⟨.inl rfl, rfl, by omega, rfl, rfl⟩
  have hdelayed : ∀ t, 0 + t < c.half → delayed d line t = false := fun t ht =>
    delayed_low (L := c.half - d) (fun t ht => hlow t (by omega)) (by omega)
  obtain ⟨n, rfl⟩ : ∃ n, t = c.half - d + n := ⟨t - (c.half - d), by omega⟩
  rw [show d + (c.half - d + n) = c.half + n by omega]
  induction n with
  | zero => exact (h.run_half hB hlow).trans (hreset.run_half hB hdelayed).symm
  | succ n ih =>
    have hline : delayed d line (c.half + n) = line (c.half - d + n) := by
      rw [← delayed_add d line (c.half - d + n), show d + (c.half - d + n) = c.half + n by omega]
    rw [← Nat.add_assoc, ← Nat.add_assoc, UartModel.run_succ, hline, ← ih (by omega)]
    rfl

/-- Under reset with a low line the counter goes through half a bit time again and again. -/
theorem waiting_released (hB : 2 ≤ c.baud) (n : ℕ) : Waiting c (n % c.half) (released c false (n + 1)) := by
  have hhalf : 0 < c.half := Nat.div_pos hB (by omega)
  have hlt := Nat.mod_lt n hhalf
  obtain ⟨hrdy, -, hdata⟩ := @quiet_released c false (n + 1)
  refine ⟨.inl (rxFsmQ_released (n + 1)), ?_, hlt, hrdy, hdata⟩
  have hcnt (m : ℕ) : (released c false (m + 1)).baudCnt = if baudHalf c (released c false m) then 1
      else if baudFull c (released c false m) then 1 else (released c false m).baudCnt + 1 := by
    change (UartModel.edge c (released c false m) false).baudCnt = _
    rw [UartModel.edge, comb_waiting (.inl (rxFsmQ_released m))]
  clear hlt hrdy hdata
  induction n with
  | zero =>
    have hzero : (released c false 0).baudCnt.toInt = (0 : ℕ) := rfl
    have hno : baudHalf c (released c false 0) = false := by
      rw [Bool.eq_false_iff, Ne, baudHalf_iff hB hzero]
      omega
    rw [hcnt, hno, baudFull_of_lt_half hzero (Nat.zero_le _) hB, Nat.zero_mod]
    rfl
  | succ n ih =>
    have hlt := Nat.mod_lt n hhalf
    have hmax := c.baud_lt
    have hle : c.half ≤ c.baud := Nat.div_le_self _ _
    have hiff := baudHalf_iff hB ih
    rw [hcnt, baudFull_of_lt_half ih hlt hB, ← Nat.mod_add_mod]
    by_cases heq : n % c.half + 1 = c.half
    · rw [hiff.2 heq, heq, Nat.mod_self]
      rfl
    · rw [Bool.eq_false_iff.2 fun h => heq (hiff.1 h), Nat.mod_eq_of_lt (by omega)]
      exact toInt_succ ih (by omega)

/-- A line that is low under reset and goes on so is reported once, as an error, by the clocks earlier that the counter
was ahead. -/
theorem released_start {L n : ℕ} (hB : 2 ≤ c.baud) (hbits : c.bits + 1 < 2 ^ 31)
    (hlow : ∀ t, t < L → line t = false) (hL : 2 * c.half + c.bits * c.baud < n % c.half + L) (hstops : 1 ≤ c.stops)
    (hhigh : ∀ t, L ≤ t → t < L + c.stops * c.baud → line t = true) :
    Agrees (runFrom c (released c false (n + 1)) line (L + c.stops * c.baud)) reset ∧
      ∀ t ≤ L + c.stops * c.baud, report (runFrom c (released c false (n + 1)) line t) =
        if n % c.half + t = 2 * c.half + c.bits * c.baud + 1 then some ⟨0#32, true⟩ else none := by
  have hw := waiting_released hB n
  have hlt := hw.lt
  have hwait : ∀ t, n % c.half + t < c.half → line t = false := fun t ht => hlow t (by omega)
  have hdhigh : ∀ t, n % c.half + L ≤ t → t < n % c.half + L + c.stops * c.baud →
      delayed (n % c.half) line t = true := by
    intro t h1 h2
    obtain ⟨k, rfl⟩ : ∃ k, t = n % c.half + k := ⟨t - n % c.half, by omega⟩
    rw [delayed_add]
    exact hhigh k (by omega) (by omega)
  obtain ⟨hagrees, hreport⟩ := low_start hB hbits (fun t => delayed_low hlow) hL hstops hdhigh
  constructor
  · rw [hw.run_eq hB hwait (by omega), ← Nat.add_assoc]
    exact hagrees
  · intro t ht
    by_cases hhalf : c.half ≤ n % c.half + t
    · rw [hw.run_eq hB hwait hhalf]
      exact hreport _ (by omega)
    · have hnone : report (runFrom c (released c false (n + 1)) line t) = none := by
        rw [report, (hw.run hB hwait (by omega)).rdy]
        rfl
      rw [hnone, if_neg (by omega)]

end UartModel
