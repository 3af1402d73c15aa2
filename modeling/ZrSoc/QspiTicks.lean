import ZrSoc.QspiFrames

/-!
# The ticks of the bit engine

The bit engine with whatever divider it holds, and under any operations, also delays that change the divider.  Half a
period of SCK takes `half k` clocks with the configuration `k`; a frame of `c` beats goes through `2 * c` of them
(`Beating`), and its data are sampled at the end of every other one, on the ticks on which the internal SCK rises
(`samples_iff`).  When the last sample has passed the pipeline the engine is done (`done`), with divisors from 3 on
before the last half period is over.  Between frames it is `Quiet`.
-/

namespace QspiPhysical

/-- The clocks of half a period of SCK. -/
def half (k : SckCtrl) : ℕ := k.div.toNat + 1

/-- No frame waits for a sample: there may be a delay, or the end of the last half period of a frame. -/
structure Quiet (s : State) : Prop where
  done : s.done = true
  empty : Empty s
  t122 : s.t122 = false
  t123 : s.t123 = false
  lastD : s.lastD = false
  cref : s.scnt = 0#8 → s.cref = true
  rest : s.scnt = 0#8 ∨ s.xfr = false ∨ s.scnt = 1#8 ∧ s.cref = false

/-- Clock `r` of the half period `j` of a frame of `c` beats, with the configuration `k` of SCK. -/
structure Beating (k : SckCtrl) (c j r : ℕ) (s : State) : Prop where
  lt : j < 2 * c
  inHalf : r < half k
  ctrlSck : s.ctrlSck = k
  scnt : s.scnt.toNat = c - j / 2
  tcnt : s.tcnt.toNat + r + 1 = half k
  cref : s.cref = decide (j % 2 = 0)
  xfr : s.xfr = true
  sck : s.sck = (cinv s ^^ decide (j % 2 = 1))

/-- The condition of `T_122`: the last sample of a frame. -/
def lastSamples (s : State) : Bool := scntEqOne s && beat s && s.xfr && s.cref

variable {s : State} {x : Input} {k : SckCtrl} {c j r : ℕ}

theorem half_pos : 0 < half k := Nat.succ_pos _

theorem quiet_reset : Quiet reset := ⟨rfl, ⟨rfl, rfl, rfl⟩, rfl, rfl, rfl, fun _ => rfl, Or.inl rfl⟩

/-! ### Between frames -/

theorem accepts_iff : accepts s x = true ↔ t251 s = true ∧ x.opValid = true ∧ x.op.fn = false := by
  rw [accepts, Bool.and_eq_true, Bool.and_eq_true, Bool.not_eq_true', and_assoc]

theorem t251_iff : t251 s = true ↔ gen21 s = true ∧ s.done = true := by rw [t251, Bool.and_eq_true]

theorem gen21_iff : gen21 s = true ↔ s.scnt = 1#8 ∧ beat s = true ∧ s.cref = false ∨ s.scnt = 0#8 := by
  simp [gen21, scntEqOne, crefRise, stop]

theorem Quiet.samples_eq (h : Quiet s) : samples s = false ∧ lastSamples s = false := by
  rcases h.rest with hs | hx | ⟨hs, hc⟩
  · exact ⟨by simp [samples, stop, hs], by simp [lastSamples, scntEqOne, hs]⟩
  · exact ⟨by simp [samples, hx], by simp [lastSamples, hx]⟩
  · exact ⟨by simp [samples, hc], by simp [lastSamples, hc]⟩

/-- When an operation is taken the internal SCK is back in the first half of a period. -/
theorem cref_of_ready (hcref : s.scnt = 0#8 → s.cref = true) (hr : gen21 s = true) : (edge s x).cref = true := by
  rcases gen21_iff.1 hr with ⟨hs, hb, hc⟩ | hs
  · simp [edge, stop, hs, hb, hc]
  · simp [edge, stop, hs, hcref hs]

theorem tcnt_of_ready (hr : gen21 s = true) : (edge s x).tcnt = s.ctrlSck.div := by
  rcases gen21_iff.1 hr with ⟨hs, hb, -⟩ | hs
  · simp [edge, hb]
  · simp [edge, stop, hs]

/-- Without a frame with beats the engine stays quiet. -/
theorem Quiet.next (h : Quiet s) (ha : accepts s x = true → x.op.cnt = 0#8) : Quiet (edge s x) := by
  obtain ⟨hsamples, hlast⟩ := h.samples_eq
  have hdone : (edge s x).done = true := by
    cases hacc : accepts s x with
    | true => simp [edge, hacc, ha hacc]
    | false => simp [edge, hacc, h.done, h.lastD]
  have hempty : Empty (edge s x) := ⟨hsamples, h.empty.t119, h.empty.t120⟩
  cases hop : t251 s && x.opValid with
  | true =>
    have hgen := (t251_iff.1 (Bool.and_eq_true_iff.1 hop).1).1
    refine ⟨hdone, hempty, hlast, h.t122, h.t123, fun _ => cref_of_ready h.cref hgen, ?_⟩
    cases hfn : x.op.fn with
    | true => exact Or.inr (Or.inl (by simp [edge, hop, hfn]))
    | false =>
      have hacc : accepts s x = true := by rw [accepts, hop, hfn]; rfl
      exact Or.inl (by simp [edge, hop, ha hacc])
  | false =>
    refine ⟨hdone, hempty, hlast, h.t122, h.t123, fun h0 => ?_, ?_⟩
    · cases hstop : stop s with
      | true => simpa [edge, hstop] using h.cref (by simpa [stop] using hstop)
      | false =>
        have hne : s.scnt ≠ 0#8 := by simpa [stop] using hstop
        cases hb : beat s && !s.cref with
        | true =>
          obtain ⟨hb, hc⟩ := Bool.and_eq_true_iff.1 hb
          simpa [edge, hstop, hb] using hc
        | false =>
          have hkeep : (edge s x).scnt = s.scnt := by simp [edge, hop, Bool.and_assoc, hb]
          exact absurd (hkeep.symm.trans h0) hne
    · rcases h.rest with hs | hx | ⟨hs, hc⟩
      · exact Or.inl (by simp [edge, hop, stop, hs])
      · exact Or.inr (Or.inl (by simp [edge, hop, hx]))
      · cases hb : beat s with
        | true => exact Or.inl (by simp [edge, hop, stop, hs, hb, hc])
        | false => exact Or.inr (Or.inr ⟨by simp [edge, hop, hs, hb], by simp [edge, hb, hc]⟩)

/-- A frame starts with the first clock of its first half period. -/
theorem Quiet.start (h : Quiet s) (ha : accepts s x = true) (hc : x.op.cnt.toNat = c) (h0 : c ≠ 0) :
    Beating s.ctrlSck c 0 0 (edge s x) := by
  obtain ⟨hready, hvalid, hfn⟩ := accepts_iff.1 ha
  have hgen := (t251_iff.1 hready).1
  have hctrl : (edge s x).ctrlSck = s.ctrlSck := by simp [edge, hfn]
  refine ⟨by omega, half_pos, hctrl, ?_, ?_, cref_of_ready h.cref hgen, ?_, ?_⟩
  · simp [edge, hready, hvalid, hc]
  · rw [tcnt_of_ready hgen, half]
  · simp [edge, hready, hvalid, hfn]
  · have hcinv : cinv (edge s x) = cinv s := by rw [cinv, hctrl, cinv]
    rw [hcinv]
    simp [edge, hready, hvalid, hfn, accepts]

/-! ### The half periods of a frame -/

theorem Beating.scnt_eq (h : Beating k c j r s) (n : ℕ) (hn : n < 256) :
    s.scnt = BitVec.ofNat 8 n ↔ c - j / 2 = n := by
  rw [← BitVec.toNat_inj, h.scnt, BitVec.toNat_ofNat, Nat.mod_eq_of_lt hn]

theorem Beating.stop_eq (h : Beating k c j r s) : stop s = false := by
  have hlt := h.lt
  have hne : ¬ s.scnt = 0#8 := fun h0 => absurd ((h.scnt_eq 0 (by decide)).1 h0) (by omega)
  rw [stop, beq_eq_false_iff_ne]
  exact hne

theorem Beating.beat_eq (h : Beating k c j r s) : beat s = decide (r + 1 = half k) := by
  have htcnt := h.tcnt
  rw [beat, Bool.eq_iff_iff, beq_iff_eq, decide_eq_true_iff, ← BitVec.toNat_inj, BitVec.toNat_zero]
  omega

theorem Beating.scntEqOne_eq (h : Beating k c j r s) : scntEqOne s = decide (c - j / 2 = 1) := by
  rw [scntEqOne, Bool.eq_iff_iff, beq_iff_eq, decide_eq_true_iff]
  exact h.scnt_eq 1 (by decide)

/-- The engine can take an operation in the last clock of a frame only. -/
theorem Beating.gen21_eq (h : Beating k c j r s) : gen21 s = decide (j + 1 = 2 * c ∧ r + 1 = half k) := by
  have hlt := h.lt
  rw [gen21, h.stop_eq, Bool.or_false, h.scntEqOne_eq, crefRise, h.beat_eq, h.cref]
  simp only [← decide_not, ← Bool.decide_and]
  exact decide_eq_decide.2 (by omega)

theorem Beating.samples_eq (h : Beating k c j r s) : samples s = decide (j % 2 = 0 ∧ r + 1 = half k) := by
  rw [samples, h.stop_eq, h.beat_eq, h.xfr, h.cref]
  simp only [Bool.not_false, Bool.true_and, Bool.and_true, ← Bool.decide_and]
  exact decide_eq_decide.2 and_comm

theorem Beating.lastSamples_eq (h : Beating k c j r s) :
    lastSamples s = decide (j + 2 = 2 * c ∧ r + 1 = half k) := by
  have hlt := h.lt
  rw [lastSamples, h.scntEqOne_eq, h.beat_eq, h.xfr, h.cref]
  simp only [Bool.and_true, ← Bool.decide_and]
  exact decide_eq_decide.2 (by omega)

/-- The data of the next period are launched in the last clock of a period. -/
theorem Beating.gen60_eq (h : Beating k c j r s) (ha : accepts s x = false) :
    gen60 s x = decide (j % 2 = 1 ∧ r + 1 = half k ∧ j + 1 < 2 * c) := by
  have hlt := h.lt
  rw [gen60, ha, h.stop_eq, h.scntEqOne_eq, crefRise, h.beat_eq, h.xfr, h.cref]
  simp only [Bool.false_or, Bool.not_false, Bool.true_and, Bool.and_true, ← decide_not, ← Bool.decide_and,
    ← Bool.decide_or]
  exact decide_eq_decide.2 (by omega)

private theorem toNat_sub_one {n : ℕ} {v : BitVec n} (hv : v.toNat ≠ 0) (h1 : 1 < 2 ^ n) :
    (v - BitVec.ofNat n 1).toNat = v.toNat - 1 := by
  have hlt := v.isLt
  rw [BitVec.toNat_sub, BitVec.toNat_ofNat, Nat.mod_eq_of_lt h1,
    show 2 ^ n - 1 + v.toNat = v.toNat - 1 + 2 ^ n by omega, Nat.add_mod_right, Nat.mod_eq_of_lt (by omega)]

private theorem Beating.frozen (h : Beating k c j r s) (hlast : ¬ (j + 1 = 2 * c ∧ r + 1 = half k)) :
    t251 s = false ∧ (edge s x).ctrlSck = k ∧ (edge s x).xfr = true ∧ cinv (edge s x) = cinv s := by
  have hready : t251 s = false := by rw [t251, h.gen21_eq, decide_eq_false hlast, Bool.false_and]
  have hctrl : (edge s x).ctrlSck = s.ctrlSck := by simp [edge, strobes, hready]
  exact ⟨hready, hctrl.trans h.ctrlSck, by simp [edge, hready, h.xfr], by rw [cinv, hctrl, cinv]⟩

/-- Within a half period `tcnt` is counted down. -/
theorem Beating.next_clock (h : Beating k c j r s) (hr : r + 1 < half k) : Beating k c j (r + 1) (edge s x) := by
  obtain ⟨hready, hctrl, hxfr, hcinv⟩ := h.frozen (x := x) (by omega)
  have hbeat : beat s = false := by rw [h.beat_eq]; exact decide_eq_false (by omega)
  have htcnt := h.tcnt
  refine ⟨h.lt, hr, hctrl, ?_, ?_, ?_, hxfr, ?_⟩
  · simp [edge, hready, hbeat, h.scnt]
  · have htcnt' : (edge s x).tcnt = s.tcnt - 1#12 := by simp [edge, h.stop_eq, hbeat]
    rw [htcnt', toNat_sub_one (by omega) (by decide)]
    omega
  · simp [edge, hbeat, h.cref]
  · rw [hcinv, ← h.sck]
    simp [edge, accepts, hready, hbeat]

/-- At the end of a half period but the last the next one begins. -/
theorem Beating.next_half (h : Beating k c j r s) (hr : r + 1 = half k) (hj : j + 1 < 2 * c) :
    Beating k c (j + 1) 0 (edge s x) := by
  obtain ⟨hready, hctrl, hxfr, hcinv⟩ := h.frozen (x := x) (by omega)
  have hbeat : beat s = true := by rw [h.beat_eq]; exact decide_eq_true hr
  have hone : (scntEqOne s && !s.cref) = false := by
    rw [h.scntEqOne_eq, h.cref, ← decide_not, ← Bool.decide_and]
    exact decide_eq_false (by omega)
  refine ⟨hj, half_pos, hctrl, ?_, ?_, ?_, hxfr, ?_⟩
  · have hscnt := h.scnt
    rcases Nat.mod_two_eq_zero_or_one j with h2 | h2
    · have hkeep : (edge s x).scnt = s.scnt := by simp [edge, hready, h.cref, h2]
      rw [hkeep, hscnt]
      omega
    · have hcount : (edge s x).scnt = s.scnt - 1#8 := by simp [edge, hready, h.stop_eq, hbeat, h.cref, h2]
      rw [hcount, toNat_sub_one (by omega) (by decide), hscnt]
      omega
  · have htcnt : (edge s x).tcnt = s.ctrlSck.div := by simp [edge, hbeat]
    rw [htcnt, h.ctrlSck, half]
  · have hflip : (edge s x).cref = !s.cref := by simp [edge, h.stop_eq, hbeat]
    rw [hflip, h.cref, ← decide_not]
    exact decide_eq_decide.2 (by omega)
  · have hsck : (edge s x).sck = (s.cref ^^ cinv s) := by simp [edge, accepts, hready, hbeat, hone, h.stop_eq, h.xfr]
    rw [hcinv, hsck, h.cref, Bool.xor_comm]
    exact congrArg (cinv s ^^ ·) (decide_eq_decide.2 (by omega))

/-- After its last half period a frame has no beat left. -/
theorem Beating.last (h : Beating k c j r s) (hr : r + 1 = half k) (hj : j + 1 = 2 * c) (hready : t251 s = false) :
    (edge s x).scnt = 0#8 ∧ (edge s x).cref = true := by
  have hbeat : beat s = true := by rw [h.beat_eq]; exact decide_eq_true hr
  have hcref : s.cref = false := by rw [h.cref]; exact decide_eq_false (by omega)
  have hscnt : s.scnt = 1#8 := (h.scnt_eq 1 (by decide)).2 (by omega)
  constructor
  · simp [edge, hready, stop, hbeat, hcref, hscnt]
  · simp [edge, stop, hbeat, hcref, hscnt]

/-! ### The course of a frame -/

/-- A frame of `c` beats is accepted in cycle `t` by a quiet engine with the configuration `k` of SCK. -/
structure FrameFrom (k : SckCtrl) (c : ℕ) (y : ℕ → Input) (t : ℕ) : Prop where
  accepts : accepts (machine.run y t) (y t) = true
  quiet : Quiet (machine.run y t)
  ctrlSck : (machine.run y t).ctrlSck = k
  cnt : (y t).op.cnt.toNat = c
  pos : c ≠ 0

/-- The cycle of tick `q` of a frame accepted in cycle `t`. -/
def tick (k : SckCtrl) (t q : ℕ) : ℕ := t + (2 * q + 1) * half k

/-- The cycle in which the data of period `m` are launched. -/
def launch (k : SckCtrl) (t m : ℕ) : ℕ := t + 2 * m * half k

/-- The cycle in which the last sample of a frame has passed the pipeline. -/
def finish (k : SckCtrl) (c t : ℕ) : ℕ := tick k t (c - 1) + 4

variable {y : ℕ → Input} {m n q t u : ℕ}

private theorem clock_eq {H : ℕ} (hr : r < H) : j * H + r + 1 = n * H ↔ j + 1 = n ∧ r + 1 = H := by
  constructor
  · intro h
    have hn : n = j + 1 := by
      rcases Nat.lt_trichotomy n (j + 1) with hlt | heq | hlt
      · have := Nat.mul_le_mul_right H (Nat.le_of_lt_succ hlt)
        omega
      · exact heq
      · have hle := Nat.mul_le_mul_right H hlt
        rw [Nat.succ_mul, Nat.succ_mul] at hle
        omega
    rw [hn, Nat.succ_mul] at h
    exact ⟨hn.symm, by omega⟩
  · rintro ⟨rfl, h⟩
    rw [Nat.succ_mul]
    omega

/-- The cycles of a frame are clocks of its half periods. -/
theorem exists_clock (htu : t < u) (hu : u ≤ t + 2 * c * half k) :
    ∃ j r, j < 2 * c ∧ r < half k ∧ u = t + 1 + (j * half k + r) := by
  have hmod := Nat.div_add_mod' (u - (t + 1)) (half k)
  refine ⟨(u - (t + 1)) / half k, (u - (t + 1)) % half k, ?_, Nat.mod_lt _ half_pos, by omega⟩
  rw [Nat.div_lt_iff_lt_mul half_pos]
  omega

theorem tick_le (hq : q < c) : tick k t q + half k ≤ t + 2 * c * half k := by
  have hle : (2 * q + 2) * half k ≤ 2 * c * half k := Nat.mul_le_mul_right _ (by omega)
  rw [Nat.succ_mul] at hle
  rw [tick]
  omega

theorem lt_tick : t < tick k t q := by
  have hpos : 0 < (2 * q + 1) * half k := Nat.mul_pos (by omega) half_pos
  rw [tick]
  omega

theorem tick_mono (hqm : q ≤ m) : tick k t q ≤ tick k t m :=
  Nat.add_le_add_left (Nat.mul_le_mul_right _ (by omega)) t

theorem tick_le_finish (hq : q < c) : tick k t q + 4 ≤ finish k c t :=
  Nat.add_le_add_right (tick_mono (by omega)) 4

@[simp] theorem launch_zero : launch k t 0 = t := by simp [launch]

theorem launch_eq : launch k t m = t + 2 * (m * half k) := by rw [launch, Nat.mul_assoc]

theorem le_launch : t ≤ launch k t m := Nat.le_add_right _ _

theorem launch_mono (hqm : q ≤ m) : launch k t q ≤ launch k t m := by
  have hle := Nat.mul_le_mul_right (half k) hqm
  rw [launch_eq, launch_eq]
  omega

/-- A period has `2 * half k` clocks. -/
theorem launch_succ : launch k t (m + 1) = launch k t m + 2 * half k := by
  rw [launch_eq, launch_eq, Nat.succ_mul m]
  omega

theorem tick_eq : tick k t q = t + 2 * (q * half k) + half k := by
  rw [tick, Nat.succ_mul (2 * q), Nat.mul_assoc, Nat.add_assoc]

theorem tick_eq_launch : tick k t q = launch k t q + half k := by rw [tick_eq, launch_eq]

theorem tick_lt (hqm : q < m) : tick k t q < tick k t m := by
  have hle := launch_mono (k := k) (t := t) (Nat.succ_le_of_lt hqm)
  have hhalf := half_pos (k := k)
  rw [Nat.succ_eq_add_one, launch_succ] at hle
  rw [tick_eq_launch, tick_eq_launch]
  omega

theorem launch_lt_finish (hq : q < c) : launch k t q + 1 < finish k c t := by
  have hle := tick_le_finish (k := k) (t := t) hq
  rw [tick_eq_launch] at hle
  omega

/-- Between two launches there is no other one. -/
theorem eq_of_launch_between (hlt : launch k t q < launch k t m) (hle : launch k t m ≤ launch k t (q + 1)) :
    m = q + 1 := by
  have hhalf := half_pos (k := k)
  obtain hmq | rfl | hmq : m ≤ q ∨ m = q + 1 ∨ q + 2 ≤ m := by omega
  · have hmono := launch_mono (k := k) (t := t) hmq
    omega
  · rfl
  · have hmono : launch k t (q + 1 + 1) ≤ launch k t m := launch_mono hmq
    rw [launch_succ] at hmono
    omega

namespace FrameFrom

variable (h : FrameFrom k c y t)

include h

theorem beating (hj : j < 2 * c) (hr : r < half k) : Beating k c j r (machine.run y (t + 1 + (j * half k + r))) := by
  have hclocks (j : ℕ) (h0 : Beating k c j 0 (machine.run y (t + 1 + j * half k))) (r : ℕ) (hr : r < half k) :
      Beating k c j r (machine.run y (t + 1 + (j * half k + r))) := by
    induction r with
    | zero => exact h0
    | succ r ih => exact (ih (by omega)).next_clock hr
  refine hclocks j ?_ r hr
  induction j with
  | zero =>
    rw [Nat.zero_mul, ← h.ctrlSck]
    exact h.quiet.start h.accepts h.cnt h.pos
  | succ j ih =>
    obtain ⟨r, hr⟩ : ∃ r, r + 1 = half k := ⟨k.div.toNat, rfl⟩
    have hnext := (hclocks j (ih (by omega)) r (by omega)).next_half (x := y (t + 1 + (j * half k + r))) hr hj
    rw [show t + 1 + (j + 1) * half k = t + 1 + (j * half k + r) + 1 by rw [Nat.succ_mul]; omega]
    exact hnext

/-- The data are sampled on the ticks. -/
theorem samples_iff (htu : t ≤ u) (hu : u ≤ t + 2 * c * half k) :
    samples (machine.run y u) = true ↔ ∃ q < c, u = tick k t q := by
  rcases Nat.eq_or_lt_of_le htu with rfl | htu
  · rw [h.quiet.samples_eq.1]
    refine iff_of_false Bool.false_ne_true ?_
    rintro ⟨q, -, hq⟩
    have := lt_tick (k := k) (t := t) (q := q)
    omega
  · obtain ⟨j, r, hj, hr, rfl⟩ := exists_clock htu hu
    rw [(h.beating hj hr).samples_eq, decide_eq_true_iff]
    have hclock (q : ℕ) : t + 1 + (j * half k + r) = tick k t q ↔ j + 1 = 2 * q + 1 ∧ r + 1 = half k := by
      rw [← clock_eq hr, tick]
      omega
    simp only [hclock]
    constructor
    · rintro ⟨h2, hr⟩
      exact ⟨j / 2, by omega, by omega, hr⟩
    · rintro ⟨q, -, hq, hr⟩
      exact ⟨by omega, hr⟩

/-- SCK changes on the ticks, from the level of the first half of a period to the other one. -/
theorem sck_tick (hq : q < c) : portSck (machine.run y (tick k t q)) = (k.pha ^^ k.pol) ∧
    portSck (machine.run y (tick k t q + 1)) = !(k.pha ^^ k.pol) := by
  obtain ⟨r, hr⟩ : ∃ r, r + 1 = half k := ⟨k.div.toNat, rfl⟩
  have hbefore := h.beating (j := 2 * q) (r := r) (by omega) (by omega)
  have hafter := h.beating (j := 2 * q + 1) (r := 0) (by omega) half_pos
  have hclock : t + 1 + (2 * q * half k + r) = tick k t q := by
    rw [tick, Nat.succ_mul (2 * q)]
    omega
  have hclock' : t + 1 + ((2 * q + 1) * half k + 0) = tick k t q + 1 := by
    rw [tick]
    omega
  rw [hclock] at hbefore
  rw [hclock'] at hafter
  constructor
  · rw [portSck, hbefore.sck, cinv, hbefore.ctrlSck]
    simp
  · rw [portSck, hafter.sck, cinv, hafter.ctrlSck]
    simp

theorem lastSamples_iff (htu : t ≤ u) (hu : u ≤ t + 2 * c * half k) :
    lastSamples (machine.run y u) = true ↔ u = tick k t (c - 1) := by
  have hpos := h.pos
  rcases Nat.eq_or_lt_of_le htu with rfl | htu
  · rw [h.quiet.samples_eq.2]
    have := lt_tick (k := k) (t := t) (q := c - 1)
    exact iff_of_false Bool.false_ne_true (by omega)
  · obtain ⟨j, r, hj, hr, rfl⟩ := exists_clock htu hu
    have hclock : t + 1 + (j * half k + r) = tick k t (c - 1) ↔ j + 1 = 2 * (c - 1) + 1 ∧ r + 1 = half k := by
      rw [← clock_eq hr, tick]
      omega
    rw [(h.beating hj hr).lastSamples_eq, decide_eq_true_iff, hclock]
    omega

theorem finish_le : finish k c t ≤ t + 2 * c * half k + 4 - half k := by
  have hle := tick_le (k := k) (t := t) (show c - 1 < c by have := h.pos; omega)
  rw [finish]
  omega

/-- The last sample leaves the pipeline in the cycle before the end. -/
theorem lastD_iff (htu : t < u) (hu : u < finish k c t) :
    (machine.run y u).lastD = true ↔ u + 1 = finish k c t := by
  have hle := h.finish_le
  have hfin : finish k c t = tick k t (c - 1) + 4 := rfl
  have htick := lt_tick (k := k) (t := t) (q := c - 1)
  have hhalf := half_pos (k := k)
  obtain rfl | rfl | hu3 : u = t + 1 ∨ u = t + 2 ∨ t + 3 ≤ u := by omega
  · have hl : (machine.run y (t + 1)).lastD = (machine.run y t).t123 := rfl
    rw [hl, h.quiet.t123]
    exact iff_of_false Bool.false_ne_true (by omega)
  · have hl : (machine.run y (t + 2)).lastD = (machine.run y t).t122 := rfl
    rw [hl, h.quiet.t122]
    exact iff_of_false Bool.false_ne_true (by omega)
  · obtain ⟨v, rfl⟩ : ∃ v, u = v + 3 := ⟨u - 3, by omega⟩
    have hl : (machine.run y (v + 3)).lastD = lastSamples (machine.run y v) := rfl
    rw [hl, h.lastSamples_iff (by omega) (by omega)]
    omega

/-- A frame is done at its end, and not before. -/
theorem not_done (htu : t < u) (hu : u < finish k c t) : (machine.run y u).done = false := by
  induction u, (show t + 1 ≤ u from htu) using Nat.le_induction with
  | base =>
    have hcnt : (y t).op.cnt ≠ 0#8 := fun h0 => h.pos (by rw [← h.cnt, h0]; rfl)
    change (edge (machine.run y t) (y t)).done = false
    simp [edge, h.accepts, hcnt]
  | succ u hle ih =>
    have hdone := ih (by omega) (by omega)
    have hacc : QspiPhysical.accepts (machine.run y u) (y u) = false := by simp [QspiPhysical.accepts, t251, hdone]
    have hlast : (machine.run y u).lastD = false :=
      Bool.eq_false_iff.2 fun hl => absurd ((h.lastD_iff (by omega) (by omega)).1 hl) (by omega)
    change (edge (machine.run y u) (y u)).done = false
    simp [edge, hacc, hlast, hdone]

theorem not_ready (htu : t < u) (hu : u < finish k c t) : t251 (machine.run y u) = false := by
  rw [t251, h.not_done htu hu, Bool.and_false]

theorem not_accepts (htu : t < u) (hu : u < finish k c t) : QspiPhysical.accepts (machine.run y u) (y u) = false := by
  rw [QspiPhysical.accepts, h.not_ready htu hu, Bool.false_and, Bool.false_and]

theorem done : (machine.run y (finish k c t)).done = true := by
  have htick := lt_tick (k := k) (t := t) (q := c - 1)
  obtain ⟨v, hv⟩ : ∃ v, v + 1 = finish k c t := ⟨tick k t (c - 1) + 3, rfl⟩
  have hfin : finish k c t = tick k t (c - 1) + 4 := rfl
  have hlast := (h.lastD_iff (u := v) (by omega) (by omega)).2 hv
  have hacc := h.not_accepts (u := v) (by omega) (by omega)
  rw [← hv]
  change (edge (machine.run y v) (y v)).done = true
  simp [edge, hacc, hlast]

/-- After its half periods a frame waits for its last sample. -/
theorem waiting (htu : t + 2 * c * half k < u) (hu : u ≤ finish k c t) :
    (machine.run y u).scnt = 0#8 ∧ (machine.run y u).cref = true := by
  have hpos := h.pos
  induction u, (show t + 2 * c * half k + 1 ≤ u from htu) using Nat.le_induction with
  | base =>
    obtain ⟨r, hr⟩ : ∃ r, r + 1 = half k := ⟨k.div.toNat, rfl⟩
    obtain ⟨j, hj⟩ : ∃ j, j + 1 = 2 * c := ⟨2 * c - 1, by omega⟩
    have hlast := h.beating (j := j) (r := r) (by omega) (by omega)
    have hclock : t + 1 + (j * half k + r) = t + 2 * c * half k := by
      rw [← hj, Nat.succ_mul]
      omega
    rw [hclock] at hlast
    have hlt : 0 < 2 * c * half k := Nat.mul_pos (by omega) half_pos
    exact hlast.last hr hj (h.not_ready (by omega) (by omega))
  | succ u hle ih =>
    obtain ⟨hscnt, hcref⟩ := ih (by omega) (by omega)
    have hready := h.not_ready (u := u) (by omega) (by omega)
    change (edge (machine.run y u) (y u)).scnt = 0#8 ∧ (edge (machine.run y u) (y u)).cref = true
    constructor
    · simp [edge, hready, stop, hscnt]
    · simp [edge, stop, hscnt, hcref]

/-- In the cycles of a frame up to its end the data are sampled on the ticks only. -/
theorem samples_until (htu : t ≤ u) (hu : u ≤ finish k c t) :
    samples (machine.run y u) = true ↔ ∃ q < c, u = tick k t q := by
  rcases Nat.lt_or_ge (t + 2 * c * half k) u with hlt | hge
  · have hscnt := (h.waiting hlt hu).1
    refine iff_of_false (by simp [samples, stop, hscnt]) ?_
    rintro ⟨q, hq, rfl⟩
    have := tick_le (k := k) (t := t) hq
    omega
  · exact h.samples_iff htu hge

theorem stop_iff (htu : t < u) (hu : u ≤ finish k c t) : stop (machine.run y u) = true ↔ t + 2 * c * half k < u := by
  rcases Nat.lt_or_ge (t + 2 * c * half k) u with hlt | hge
  · exact iff_of_true (by simp [stop, (h.waiting hlt hu).1]) hlt
  · obtain ⟨j, r, hj, hr, rfl⟩ := exists_clock htu hge
    rw [(h.beating hj hr).stop_eq]
    exact iff_of_false Bool.false_ne_true (by omega)

/-- The samples leave the pipeline three clocks after their ticks. -/
theorem sampleD_iff (htu : t < u) (hu : u ≤ finish k c t) :
    (machine.run y u).sampleD = true ↔ ∃ q < c, u = tick k t q + 3 := by
  have hlt (q : ℕ) := lt_tick (k := k) (t := t) (q := q)
  obtain rfl | rfl | hu3 : u = t + 1 ∨ u = t + 2 ∨ t + 3 ≤ u := by omega
  · have hs : (machine.run y (t + 1)).sampleD = (machine.run y t).t120 := rfl
    rw [hs, h.quiet.empty.t120]
    exact iff_of_false Bool.false_ne_true fun ⟨q, _, hq⟩ => by have := hlt q; omega
  · have hs : (machine.run y (t + 2)).sampleD = (machine.run y t).t119 := rfl
    rw [hs, h.quiet.empty.t119]
    exact iff_of_false Bool.false_ne_true fun ⟨q, _, hq⟩ => by have := hlt q; omega
  · obtain ⟨v, rfl⟩ : ∃ v, u = v + 3 := ⟨u - 3, by omega⟩
    have hs : (machine.run y (v + 3)).sampleD = samples (machine.run y v) := rfl
    rw [hs, h.samples_until (by omega) (by omega)]
    simp only [Nat.add_right_cancel_iff]

/-- The data are launched when the frame is accepted and at the end of each period but the last. -/
theorem gen60_iff (htu : t ≤ u) (hu : u < finish k c t) :
    gen60 (machine.run y u) (y u) = true ↔ ∃ m < c, u = launch k t m := by
  have hpos := h.pos
  rcases Nat.eq_or_lt_of_le htu with rfl | htu
  · exact iff_of_true (by simp [gen60, h.accepts]) ⟨0, by omega, launch_zero.symm⟩
  · have hacc := h.not_accepts htu hu
    rcases Nat.lt_or_ge (t + 2 * c * half k) u with hlt | hge
    · have hstop := (h.stop_iff htu hu.le).2 hlt
      refine iff_of_false (by simp [gen60, hacc, hstop]) ?_
      rintro ⟨m, hm, rfl⟩
      have hmono : launch k t m ≤ launch k t c := launch_mono hm.le
      have hend : launch k t c = t + 2 * c * half k := rfl
      omega
    · obtain ⟨j, r, hj, hr, rfl⟩ := exists_clock htu hge
      have hclock (m : ℕ) : t + 1 + (j * half k + r) = launch k t m ↔ j + 1 = 2 * m ∧ r + 1 = half k := by
        rw [← clock_eq hr, launch]
        omega
      rw [(h.beating hj hr).gen60_eq hacc, decide_eq_true_iff]
      simp only [hclock]
      constructor
      · rintro ⟨h2, hr, hlt⟩
        exact ⟨(j + 1) / 2, by omega, by omega, hr⟩
      · rintro ⟨m, hm, hjm, hr⟩
        exact ⟨by omega, hr, by omega⟩

theorem setupD_iff (htu : t < u) (hu : u ≤ finish k c t) :
    (machine.run y u).setupD = true ↔ ∃ m < c, u = launch k t m + 1 := by
  obtain ⟨v, rfl⟩ : ∃ v, u = v + 1 := ⟨u - 1, by omega⟩
  have hs : (machine.run y (v + 1)).setupD = gen60 (machine.run y v) (y v) := rfl
  rw [hs, h.gen60_iff (by omega) hu]
  simp only [Nat.add_right_cancel_iff]

/-- No operation is taken before the last clock of the last period. -/
theorem not_ready_of_lt (htu : t < u) (hu : u < t + 2 * c * half k) : t251 (machine.run y u) = false := by
  obtain ⟨j, r, hj, hr, rfl⟩ := exists_clock htu hu.le
  have hlast := clock_eq (j := j) (n := 2 * c) hr
  rw [t251, (h.beating hj hr).gen21_eq, decide_eq_false (by omega), Bool.false_and]

/-- The format of a frame stays until it is done, and until the end of its periods. -/
theorem ctrlFmt_eq (htu : t < u) (hu : u ≤ finish k c t ∨ u ≤ t + 2 * c * half k) :
    (machine.run y u).ctrlFmt = (machine.run y (t + 1)).ctrlFmt := by
  induction u, (show t + 1 ≤ u from htu) using Nat.le_induction with
  | base => rfl
  | succ u hle ih =>
    have hready : t251 (machine.run y u) = false :=
      hu.elim (fun hu => h.not_ready hle hu) fun hu => h.not_ready_of_lt hle hu
    rw [← ih (by omega) (by omega)]
    change (edge (machine.run y u) (y u)).ctrlFmt = _
    simp [edge, strobes, hready]

/-- After the last tick there is no sample, and no last one. -/
theorem no_sample (htu : tick k t (c - 1) < u) (hu : u ≤ finish k c t) :
    samples (machine.run y u) = false ∧ lastSamples (machine.run y u) = false := by
  have htick := lt_tick (k := k) (t := t) (q := c - 1)
  constructor
  · refine Bool.eq_false_iff.2 fun hs => ?_
    obtain ⟨q, hq, rfl⟩ := (h.samples_until (by omega) hu).1 hs
    have hmono : tick k t q ≤ tick k t (c - 1) := tick_mono (by omega)
    omega
  · rcases Nat.lt_or_ge (t + 2 * c * half k) u with hlt | hge
    · simp [lastSamples, scntEqOne, (h.waiting hlt hu).1]
    · exact Bool.eq_false_iff.2 fun hs => absurd ((h.lastSamples_iff (by omega) hge).1 hs) (by omega)

/-- At its end a frame has no beat left, or is in the second half of its last period. -/
theorem rest_finish : (machine.run y (finish k c t)).scnt = 0#8 ∨
    (machine.run y (finish k c t)).scnt = 1#8 ∧ (machine.run y (finish k c t)).cref = false := by
  have hpos := h.pos
  have htick := lt_tick (k := k) (t := t) (q := c - 1)
  have hfin : finish k c t = tick k t (c - 1) + 4 := rfl
  rcases Nat.lt_or_ge (t + 2 * c * half k) (finish k c t) with hlt | hge
  · exact Or.inl (h.waiting hlt (Nat.le_refl _)).1
  · have hhalf : (2 * c - 1) * half k + half k = 2 * c * half k := by
      rw [← Nat.succ_mul, Nat.succ_eq_add_one, Nat.sub_add_cancel (by omega)]
    have hlast : tick k t (c - 1) = t + (2 * c - 1) * half k := by rw [tick, show 2 * (c - 1) + 1 = 2 * c - 1 by omega]
    have hb := h.beating (j := 2 * c - 1) (r := 3) (by omega) (by omega)
    rw [show t + 1 + ((2 * c - 1) * half k + 3) = finish k c t by omega] at hb
    exact Or.inr ⟨(hb.scnt_eq 1 (by decide)).2 (by omega), by rw [hb.cref]; exact decide_eq_false (by omega)⟩

/-- The engine is quiet at the end of a frame. -/
theorem quiet_finish : Quiet (machine.run y (finish k c t)) := by
  have htick := lt_tick (k := k) (t := t) (q := c - 1)
  obtain ⟨e, he⟩ : ∃ e, e = tick k t (c - 1) := ⟨_, rfl⟩
  have hfin : finish k c t = e + 4 := by rw [he]; rfl
  have hnone (v : ℕ) (hv : e < v) (hv' : v ≤ e + 4) := h.no_sample (he ▸ hv) (hfin ▸ hv')
  have hdone := h.done
  have hrest := h.rest_finish
  have hstop := h.stop_iff (u := finish k c t) (by omega) (Nat.le_refl _)
  have hwait := h.waiting (u := finish k c t)
  rw [hfin] at hdone hrest hstop hwait ⊢
  refine ⟨hdone, ⟨(hnone (e + 3) (by omega) (by omega)).1, (hnone (e + 2) (by omega) (by omega)).1,
    (hnone (e + 1) (by omega) (by omega)).1⟩, (hnone (e + 3) (by omega) (by omega)).2,
    (hnone (e + 2) (by omega) (by omega)).2, (hnone (e + 1) (by omega) (by omega)).2, fun h0 => ?_, ?_⟩
  · exact (hwait (hstop.1 (by simp [stop, h0])) (Nat.le_refl _)).2
  · exact hrest.imp_right Or.inr

end FrameFrom

/-! ### Whole runs -/

theorem formatted_run (y : ℕ → Input) (n : ℕ) : Formatted (machine.run y n).ctrlFmt (machine.run y n) := by
  induction n with
  | zero => exact ⟨rfl, rfl, rfl, rfl⟩
  | succ n ih =>
    change Formatted (edge (machine.run y n) (y n)).ctrlFmt (edge (machine.run y n) (y n))
    cases hs : strobes (machine.run y n) (y n) with
    | true => exact ⟨rfl, by simp [edge, hs], by simp [edge, hs], by simp [edge, hs]⟩
    | false => exact ⟨rfl, by simp [edge, hs, ih.protoS], by simp [edge, hs, ih.protoD], by simp [edge, hs, ih.protoQ]⟩

/-- In every cycle the engine is quiet, or a frame has been accepted that is not done. -/
theorem quiet_or_frame (y : ℕ → Input) (n : ℕ) :
    Quiet (machine.run y n) ∨ ∃ k c t, FrameFrom k c y t ∧ t < n ∧ n < finish k c t := by
  induction n with
  | zero => exact Or.inl quiet_reset
  | succ n ih =>
    rcases ih with h | ⟨k, c, t, h, htn, hn⟩
    · by_cases hb : accepts (machine.run y n) (y n) = true → (y n).op.cnt = 0#8
      · exact Or.inl (h.next hb)
      · rw [Classical.not_imp] at hb
        obtain ⟨ha, hcnt⟩ := hb
        have h0 : (y n).op.cnt.toNat ≠ 0 := fun h0 => hcnt (BitVec.eq_of_toNat_eq h0)
        have hframe : FrameFrom (machine.run y n).ctrlSck (y n).op.cnt.toNat y n := ⟨ha, h, rfl, rfl, h0⟩
        have hlt : n + 1 < finish (machine.run y n).ctrlSck (y n).op.cnt.toNat n := by
          rw [finish]
          have := lt_tick (k := (machine.run y n).ctrlSck) (t := n) (q := (y n).op.cnt.toNat - 1)
          omega
        exact Or.inr ⟨_, _, n, hframe, Nat.lt_succ_self n, hlt⟩
    · rcases Nat.lt_or_eq_of_le (Nat.succ_le_of_lt hn) with hlt | heq
      · exact Or.inr ⟨k, c, t, h, by omega, hlt⟩
      · exact Or.inl (by rw [← Nat.succ_eq_add_one, heq]; exact h.quiet_finish)

/-- A frame with beats is accepted by a quiet engine. -/
theorem frameFrom_of_accepts (ha : accepts (machine.run y t) (y t) = true) (hc : (y t).op.cnt.toNat = c) (h0 : c ≠ 0) :
    FrameFrom (machine.run y t).ctrlSck c y t := by
  rcases quiet_or_frame y t with h | ⟨k, d, v, h, hvt, ht⟩
  · exact ⟨ha, h, rfl, hc, h0⟩
  · rw [h.not_accepts hvt ht] at ha
    exact absurd ha Bool.false_ne_true

end QspiPhysical
