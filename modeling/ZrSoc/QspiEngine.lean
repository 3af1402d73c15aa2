import ZrSoc.QspiPhysical
import Mathlib.Tactic

/-!
# The bit engine without an SCK configuration

As long as no delay comes with a strobe, the physical layer keeps the SCK configuration of the reset.  It is then
`Idle`, which includes the delays, `Shifting` half period `j` of a frame of `c` beats, or `Draining` the pipeline of
the last sample; each clock edge leads from one to the next, and a new operation is accepted only when idle.
-/

namespace QspiPhysical

/-- No delay with a strobe is offered. -/
def NoStrobedDelay (x : Input) : Prop := (x.opValid && x.op.stb && x.op.fn) = false

/-- No frame is under way; a delay may be. -/
structure Idle (s : State) : Prop where
  ctrlSck : s.ctrlSck = reset.ctrlSck
  tcnt : s.tcnt = 0#12
  done : s.done = true
  t122 : s.t122 = false
  t123 : s.t123 = false
  lastD : s.lastD = false
  cref : s.scnt = 0#8 → s.cref = true
  xfr : s.scnt ≠ 0#8 → s.xfr = false
  sck : s.sck = false

/-- Half period `j` of a frame of `c` beats. -/
structure Shifting (c j : ℕ) (s : State) : Prop where
  lt : j < 2 * c
  cnt_lt : c < 256
  ctrlSck : s.ctrlSck = reset.ctrlSck
  tcnt : s.tcnt = 0#12
  done : s.done = false
  t122 : s.t122 = decide (j + 1 = 2 * c)
  t123 : s.t123 = false
  lastD : s.lastD = false
  scnt : s.scnt = BitVec.ofNat 8 (c - j / 2)
  cref : s.cref = decide (j % 2 = 0)
  xfr : s.xfr = true
  sck : s.sck = decide (j % 2 = 1)

/-- The last sample of a frame is in the pipeline, at stage `k`. -/
structure Draining (k : ℕ) (s : State) : Prop where
  ctrlSck : s.ctrlSck = reset.ctrlSck
  tcnt : s.tcnt = 0#12
  done : s.done = false
  t122 : s.t122 = false
  t123 : s.t123 = decide (k = 0)
  lastD : s.lastD = decide (k = 1)
  scnt : s.scnt = 0#8
  cref : s.cref = true
  sck : s.sck = false

variable {s : State} {x : Input} {c j k : ℕ}

theorem idle_reset : Idle reset := ⟨rfl, rfl, rfl, rfl, rfl, rfl, fun _ => rfl, fun h => absurd rfl h, rfl⟩

/-! ### Ready -/

theorem Idle.opReady_iff (h : Idle s) : opReady s = true ↔ s.scnt = 0#8 ∨ s.scnt = 1#8 ∧ s.cref = false := by
  simp [opReady, t251, gen21, scntEqOne, crefRise, beat, stop, h.done, h.tcnt, or_comm]

theorem Shifting.not_ready (h : Shifting c j s) : opReady s = false := by simp [opReady, t251, h.done]

theorem Draining.not_ready (h : Draining k s) : opReady s = false := by simp [opReady, t251, h.done]

/-! ### Clock edges -/

theorem Idle.samples_eq (h : Idle s) : samples s = false := by
  by_cases hs : s.scnt = 0#8
  · simp [samples, stop, hs]
  · simp [samples, h.xfr hs]

/-- An idle engine stays idle, also in a delay, if no transfer is accepted. -/
theorem Idle.next (h : Idle s) (hx : NoStrobedDelay x) (ha : accepts s x = false) : Idle (edge s x) := by
  have hbeat : beat s = true := by simp [beat, h.tcnt]
  have hst : (strobes s x && x.op.fn) = false := by
    rw [strobes, Bool.and_assoc, Bool.and_assoc, ← Bool.and_assoc x.opValid, hx, Bool.and_false]
  have hst' : (t251 s && x.opValid && x.op.fn && x.op.stb) = false := by
    rw [← hst, strobes]
    ac_rfl
  have hdiv : s.ctrlSck.div = 0#12 := by rw [h.ctrlSck]; rfl
  have hpol : s.ctrlSck.pol = false := by rw [h.ctrlSck]; rfl
  have hready := h.opReady_iff
  refine ⟨?_, ?_, ?_, ?_, h.t122, h.t123, ?_, ?_, ?_⟩
  · simp [edge, hst, h.ctrlSck]
  · simp [edge, hbeat, hdiv]
  · simp [edge, ha, h.done, h.lastD]
  · by_cases hs : s.scnt = 0#8
    · simp [edge, scntEqOne, hs]
    · simp [edge, h.xfr hs]
  · intro h0
    by_cases hs : s.scnt = 0#8
    · simp [edge, stop, hs, h.cref hs]
    · have hcref : s.cref = false := by
        by_contra hc
        rw [Bool.not_eq_false] at hc
        cases hop : t251 s && x.opValid with
        | true => simpa [hs, hc] using hready.1 (Bool.and_eq_true_iff.1 hop).1
        | false => exact hs (by simpa [edge, hop, hc] using h0)
      simp [edge, stop, hs, hbeat, hcref]
  · intro h0
    cases hop : t251 s && x.opValid with
    | true =>
      have hfn : x.op.fn = true := by simpa [accepts, hop] using ha
      simp [edge, hop, hfn]
    | false =>
      have hs : s.scnt ≠ 0#8 := by
        intro hs
        simp [edge, hop, hs, stop] at h0
      simp [edge, hop, h.xfr hs]
  · by_cases hs : s.scnt = 0#8
    · simp [edge, hst', ha, hbeat, scntEqOne, stop, hs, h.sck]
    · simp [edge, hst', ha, hbeat, h.xfr hs, h.sck, hpol]

/-- A transfer of `c` beats starts a frame. -/
theorem Idle.start (h : Idle s) (ha : accepts s x = true) (hc : x.op.cnt.toNat = c) :
    if c = 0 then Idle (edge s x) else Shifting c 0 (edge s x) := by
  obtain ⟨⟨hready, hvalid⟩, hfn⟩ : (t251 s = true ∧ x.opValid = true) ∧ x.op.fn = false := by simpa [accepts] using ha
  have hbeat : beat s = true := by simp [beat, h.tcnt]
  have hdiv : s.ctrlSck.div = 0#12 := by rw [h.ctrlSck]; rfl
  have hcinv : cinv s = false := by rw [cinv, h.ctrlSck]; rfl
  have hctrl : (edge s x).ctrlSck = reset.ctrlSck := by simp [edge, hfn, h.ctrlSck]
  have htcnt : (edge s x).tcnt = 0#12 := by simp [edge, hbeat, hdiv]
  have ht122 : (edge s x).t122 = false := by
    by_cases hs : s.scnt = 0#8
    · simp [edge, scntEqOne, hs]
    · simp [edge, h.xfr hs]
  have hsck : (edge s x).sck = false := by simp [edge, ha, hfn, hcinv]
  have hcref : (edge s x).cref = true := by
    rcases h.opReady_iff.1 hready with hs | ⟨hs, hc1⟩
    · simp [edge, stop, hs, h.cref hs]
    · simp [edge, stop, hs, hbeat, hc1]
  have hscnt : (edge s x).scnt = BitVec.ofNat 8 c := by simp [edge, hready, hvalid, ← hc]
  split
  next h0 =>
    have hcnt : x.op.cnt = 0#8 := BitVec.eq_of_toNat_eq (hc.trans h0)
    refine ⟨hctrl, htcnt, ?_, ht122, h.t122, h.t123, fun _ => hcref, fun h1 => ?_, hsck⟩
    · simp [edge, ha, hcnt]
    · exact absurd hscnt (by rw [h0]; exact h1)
  next h0 =>
    have hcnt : x.op.cnt ≠ 0#8 := fun h1 => h0 (by rw [← hc, h1]; rfl)
    refine ⟨by omega, hc ▸ x.op.cnt.isLt, hctrl, htcnt, ?_, ?_, h.t122, h.t123, hscnt, hcref, ?_, hsck⟩
    · simp [edge, ha, hcnt]
    · rw [ht122]
      exact (decide_eq_false (by omega)).symm
    · simp [edge, hready, hvalid, hfn]

private theorem ofNat8_eq_iff {m n : ℕ} (hm : m < 256) (hn : n < 256) : BitVec.ofNat 8 m = BitVec.ofNat 8 n ↔ m = n := by
  rw [← BitVec.toNat_inj, BitVec.toNat_ofNat, BitVec.toNat_ofNat, Nat.mod_eq_of_lt hm, Nat.mod_eq_of_lt hn]

theorem Shifting.stop_eq (h : Shifting c j s) : stop s = false := by
  have hlt := h.lt
  have hc := h.cnt_lt
  rw [stop, h.scnt, beq_eq_false_iff_ne]
  exact fun h0 => absurd ((ofNat8_eq_iff (n := 0) (by omega) (by decide)).1 h0) (by omega)

/-- While a frame is shifted no operation is accepted and the counters run. -/
theorem Shifting.signals (h : Shifting c j s) : t251 s = false ∧ accepts s x = false ∧ beat s = true ∧
    stop s = false ∧ scntEqOne s = decide (c - j / 2 = 1) := by
  have hlt := h.lt
  have hc := h.cnt_lt
  have hready : t251 s = false := h.not_ready
  have hone : (s.scnt == 1#8) = decide (c - j / 2 = 1) := by
    rw [h.scnt, Bool.eq_iff_iff, beq_iff_eq, decide_eq_true_iff]
    exact ofNat8_eq_iff (by omega) (by decide)
  exact ⟨hready, by simp [accepts, hready], by simp [beat, h.tcnt], h.stop_eq, hone⟩

/-- The first half of a period: SCK rises. -/
private theorem Shifting.next_even (h : Shifting c j s) (hj : j % 2 = 0) : Shifting c (j + 1) (edge s x) := by
  obtain ⟨hready, ha, hbeat, hstop, hone⟩ := h.signals (x := x)
  have hlt := h.lt
  have hcref : s.cref = true := by rw [h.cref]; exact decide_eq_true hj
  have hcinv : cinv s = false := by rw [cinv, h.ctrlSck]; rfl
  have hdiv : s.ctrlSck.div = 0#12 := by rw [h.ctrlSck]; rfl
  have ht122 : s.t122 = false := by rw [h.t122]; exact decide_eq_false (by omega)
  refine ⟨by omega, h.cnt_lt, ?_, ?_, ?_, ?_, ht122, h.t123, ?_, ?_, ?_, ?_⟩
  · simp [edge, strobes, hready, h.ctrlSck]
  · simp [edge, hbeat, hdiv]
  · simp [edge, ha, h.lastD, h.done]
  · simp only [edge, hone, hbeat, h.xfr, hcref, Bool.and_true]
    exact decide_eq_decide.2 (by omega)
  · simp only [edge, hready, hcref, Bool.false_and, Bool.not_true, Bool.and_false, Bool.false_eq_true, ↓reduceIte]
    rw [h.scnt, show (j + 1) / 2 = j / 2 by omega]
  · simp [edge, hstop, hbeat, hcref]
    omega
  · simp [edge, hready, h.xfr]
  · simp [edge, hready, ha, hbeat, hstop, h.xfr, hcref, hcinv]
    omega

/-- The second half of a period: SCK falls, and the beat is counted. -/
private theorem Shifting.next_odd (h : Shifting c j s) (hj : j % 2 = 1) :
    if j + 1 = 2 * c then Draining 0 (edge s x) else Shifting c (j + 1) (edge s x) := by
  obtain ⟨hready, ha, hbeat, hstop, hone⟩ := h.signals (x := x)
  have hlt := h.lt
  have hc := h.cnt_lt
  have hcref : s.cref = false := by rw [h.cref]; exact decide_eq_false (by omega)
  have hcinv : cinv s = false := by rw [cinv, h.ctrlSck]; rfl
  have hpol : s.ctrlSck.pol = false := by rw [h.ctrlSck]; rfl
  have hdiv : s.ctrlSck.div = 0#12 := by rw [h.ctrlSck]; rfl
  have hctrl : (edge s x).ctrlSck = reset.ctrlSck := by simp [edge, strobes, hready, h.ctrlSck]
  have htcnt : (edge s x).tcnt = 0#12 := by simp [edge, hbeat, hdiv]
  have hdone : (edge s x).done = false := by simp [edge, ha, h.lastD, h.done]
  have ht122 : (edge s x).t122 = false := by simp [edge, hcref]
  have hcref' : (edge s x).cref = true := by simp [edge, hstop, hbeat, hcref]
  have hsck : (edge s x).sck = false := by
    simp [edge, hready, ha, hbeat, hstop, h.xfr, hcref, hcinv, hpol]
  have hscnt : (edge s x).scnt = BitVec.ofNat 8 (c - (j + 1) / 2) := by
    simp only [edge, hready, hstop, hbeat, hcref, Bool.false_and, Bool.not_false, Bool.and_true, Bool.false_eq_true,
      ↓reduceIte]
    rw [h.scnt, BitVec.ofNat_sub_ofNat_of_le (c - j / 2) 1 (by decide) (by omega), Nat.sub_sub,
      show j / 2 + 1 = (j + 1) / 2 by omega]
  split
  next hlast =>
    refine ⟨hctrl, htcnt, hdone, ht122, ?_, h.t123, ?_, hcref', hsck⟩
    · exact h.t122.trans (decide_eq_true hlast)
    · rw [hscnt, show c - (j + 1) / 2 = 0 by omega]
  next hmore =>
    refine ⟨by omega, hc, hctrl, htcnt, hdone, ?_, ?_, h.t123, hscnt, ?_, ?_, ?_⟩
    · rw [ht122]
      exact (decide_eq_false (by omega)).symm
    · exact h.t122.trans (decide_eq_false hmore)
    · rw [hcref']
      exact (decide_eq_true (by omega)).symm
    · simp [edge, hready, h.xfr]
    · rw [hsck]
      exact (decide_eq_false (by omega)).symm

theorem Shifting.next (h : Shifting c j s) :
    if j + 1 = 2 * c then Draining 0 (edge s x) else Shifting c (j + 1) (edge s x) := by
  rcases Nat.mod_two_eq_zero_or_one j with hj | hj
  · have hlt := h.lt
    rw [if_neg (by omega)]
    exact h.next_even hj
  · exact h.next_odd hj

private theorem Draining.signals (h : Draining k s) : t251 s = false ∧ accepts s x = false ∧ beat s = true ∧
    stop s = true ∧ scntEqOne s = false := by
  have hready : t251 s = false := h.not_ready
  exact ⟨hready, by simp [accepts, hready], by simp [beat, h.tcnt], by simp [stop, h.scnt], by simp [scntEqOne, h.scnt]⟩

theorem Draining.next (h : Draining 0 s) : Draining 1 (edge s x) := by
  obtain ⟨hready, ha, hbeat, hstop, hone⟩ := h.signals (x := x)
  have hdiv : s.ctrlSck.div = 0#12 := by rw [h.ctrlSck]; rfl
  refine ⟨?_, ?_, ?_, ?_, h.t122, h.t123, ?_, ?_, ?_⟩
  · simp [edge, strobes, hready, h.ctrlSck]
  · simp [edge, hbeat, hdiv]
  · simp [edge, ha, h.lastD, h.done]
  · simp [edge, hone]
  · simp [edge, hready, hstop, h.scnt]
  · simp [edge, hstop, h.cref]
  · simp [edge, hready, ha, hbeat, hstop, hone, h.sck]

theorem Draining.last (h : Draining 1 s) : Idle (edge s x) := by
  obtain ⟨hready, ha, hbeat, hstop, hone⟩ := h.signals (x := x)
  have hdiv : s.ctrlSck.div = 0#12 := by rw [h.ctrlSck]; rfl
  have hscnt : (edge s x).scnt = 0#8 := by simp [edge, hready, hstop, h.scnt]
  refine ⟨?_, ?_, ?_, ?_, h.t122, h.t123, fun _ => ?_, fun h0 => absurd hscnt h0, ?_⟩
  · simp [edge, strobes, hready, h.ctrlSck]
  · simp [edge, hbeat, hdiv]
  · simp [edge, ha, h.lastD]
  · simp [edge, hone]
  · simp [edge, hstop, h.cref]
  · simp [edge, hready, ha, hbeat, hstop, hone, h.sck]

/-! ### Runs -/

variable {y : ℕ → Input} {m n t u : ℕ}

/-- What the engine is doing. -/
def Running (s : State) : Prop := Idle s ∨ (∃ c j, Shifting c j s) ∨ Draining 0 s ∨ Draining 1 s

theorem Running.idle_of_ready (h : Running s) (hr : opReady s = true) : Idle s := by
  rcases h with h | ⟨c, j, h⟩ | h | h
  · exact h
  all_goals exact absurd hr (by simp [h.not_ready])

theorem Running.next (h : Running s) (hx : NoStrobedDelay x) : Running (edge s x) := by
  rcases h with h | ⟨c, j, h⟩ | h | h
  · cases ha : accepts s x with
    | false => exact Or.inl (h.next hx ha)
    | true =>
      have hs := h.start ha rfl
      split at hs
      · exact Or.inl hs
      · exact Or.inr (Or.inl ⟨_, _, hs⟩)
  · have hs := h.next (x := x)
    split at hs
    · exact Or.inr (Or.inr (Or.inl hs))
    · exact Or.inr (Or.inl ⟨_, _, hs⟩)
  · exact Or.inr (Or.inr (Or.inr h.next))
  · exact Or.inl h.last

theorem running (hy : ∀ n, NoStrobedDelay (y n)) (n : ℕ) : Running (machine.run y n) := by
  induction n with
  | zero => exact Or.inl idle_reset
  | succ n ih => exact ih.next (hy n)

/-- Without a transfer the engine stays idle. -/
theorem idle_of_quiet (hy : ∀ n, NoStrobedDelay (y n)) (hm : Idle (machine.run y m)) (hmn : m ≤ n)
    (hq : ∀ k, m ≤ k → k < n → accepts (machine.run y k) (y k) = false) : Idle (machine.run y n) := by
  induction n, hmn using Nat.le_induction with
  | base => exact hm
  | succ n hmn ih =>
    exact (ih fun k hk hkn => hq k hk (by omega)).next (hy n) (hq n hmn (by omega))

section Frame

variable (hy : ∀ n, NoStrobedDelay (y n)) (ha : accepts (machine.run y t) (y t) = true)
  (hc : (y t).op.cnt.toNat = c)

include hy ha in
theorem idle_of_accepts : Idle (machine.run y t) := by
  have hready : opReady (machine.run y t) = true := by
    simp only [accepts, Bool.and_eq_true] at ha
    exact ha.1.1
  exact (running hy t).idle_of_ready hready

include hy ha hc

/-- The half periods of a frame follow its acceptance. -/
theorem shifting_of_accepts (hj : j < 2 * c) : Shifting c j (machine.run y (t + 1 + j)) := by
  induction j with
  | zero =>
    have hs := (idle_of_accepts hy ha).start ha hc
    rwa [if_neg (by omega)] at hs
  | succ j ih =>
    have hs := (ih (by omega)).next (x := y (t + 1 + j))
    rwa [if_neg (by omega)] at hs

/-- The last sample passes the pipeline after the last half period. -/
theorem draining_of_accepts (h0 : c ≠ 0) : Draining 0 (machine.run y (t + 1 + 2 * c)) ∧
    Draining 1 (machine.run y (t + 2 + 2 * c)) ∧ Idle (machine.run y (t + 3 + 2 * c)) := by
  have hs := (shifting_of_accepts hy ha hc (j := 2 * c - 1) (by omega)).next (x := y (t + 1 + (2 * c - 1)))
  rw [if_pos (by omega)] at hs
  have hd : Draining 0 (machine.run y (t + 1 + 2 * c)) := by
    rw [show t + 1 + 2 * c = t + 1 + (2 * c - 1) + 1 by omega]
    exact hs
  have hd1 : Draining 1 (machine.run y (t + 2 + 2 * c)) := by
    rw [show t + 2 + 2 * c = t + 1 + 2 * c + 1 by omega]
    exact hd.next
  refine ⟨hd, hd1, ?_⟩
  rw [show t + 3 + 2 * c = t + 2 + 2 * c + 1 by omega]
  exact hd1.last

/-- After a frame SCK stays low until the next one. -/
theorem sck_of_quiet (htu : t + 2 * c < u) (hq : ∀ v, t < v → v < u → accepts (machine.run y v) (y v) = false) :
    (machine.run y u).sck = false := by
  by_cases h0 : c = 0
  · have hs := (idle_of_accepts hy ha).start ha hc
    rw [if_pos h0] at hs
    exact (idle_of_quiet hy (show Idle (machine.run y (t + 1)) from hs) (by omega) fun k hk => hq k (by omega)).sck
  · obtain ⟨hd0, hd1, hidle⟩ := draining_of_accepts hy ha hc h0
    obtain rfl | rfl | hu : u = t + 1 + 2 * c ∨ u = t + 2 + 2 * c ∨ t + 3 + 2 * c ≤ u := by omega
    · exact hd0.sck
    · exact hd1.sck
    · exact (idle_of_quiet hy hidle hu fun k hk => hq k (by omega)).sck

/-- No operation is accepted during a frame. -/
theorem not_ready_of_accepts (h0 : c ≠ 0) (htu : t < u) (hu : u < t + 3 + 2 * c) : opReady (machine.run y u) = false := by
  obtain ⟨hd0, hd1, -⟩ := draining_of_accepts hy ha hc h0
  obtain hu | rfl | rfl : u < t + 1 + 2 * c ∨ u = t + 1 + 2 * c ∨ u = t + 2 + 2 * c := by omega
  · have hs := shifting_of_accepts hy ha hc (j := u - (t + 1)) (by omega)
    rw [show t + 1 + (u - (t + 1)) = u by omega] at hs
    exact hs.not_ready
  · exact hd0.not_ready
  · exact hd1.not_ready

end Frame

/-- An idle engine counts the half periods of a delay down like those of a frame. -/
private theorem Idle.delaying_next (h : Idle s) (hx : NoStrobedDelay x) (hj : j + 1 < 2 * c) (hc : c < 256)
    (hs : s.scnt = BitVec.ofNat 8 (c - j / 2)) (hcref : s.cref = decide (j % 2 = 0)) : opReady s = false ∧
      Idle (edge s x) ∧ (edge s x).scnt = BitVec.ofNat 8 (c - (j + 1) / 2) ∧
      (edge s x).cref = decide ((j + 1) % 2 = 0) := by
  have hbeat : beat s = true := by simp [beat, h.tcnt]
  have hstop : stop s = false := by
    rw [stop, hs, beq_eq_false_iff_ne]
    exact fun h0 => absurd ((ofNat8_eq_iff (n := 0) (by omega) (by decide)).1 h0) (by omega)
  have hready : t251 s = false := by
    by_contra hr
    rcases h.opReady_iff.1 ((Bool.not_eq_false _).mp hr) with h0 | ⟨h1, h2⟩
    · simp [stop, h0] at hstop
    · rw [hs] at h1
      have hone := (ofNat8_eq_iff (n := 1) (by omega) (by decide)).1 h1
      rw [hcref, decide_eq_false_iff_not] at h2
      omega
  have ha : accepts s x = false := by simp [accepts, hready]
  refine ⟨hready, h.next hx ha, ?_, ?_⟩
  · rcases Nat.mod_two_eq_zero_or_one j with h2 | h2
    · simp only [edge, hready, hcref, h2]
      simp only [Bool.false_and, Bool.false_eq_true, decide_true, Bool.not_true, Bool.and_false, ↓reduceIte]
      rw [hs, show (j + 1) / 2 = j / 2 by omega]
    · simp only [edge, hready, hcref, hstop, hbeat, h2]
      simp only [Bool.false_and, Bool.false_eq_true, Nat.one_ne_zero, decide_false, Bool.not_false, Bool.and_true,
        ↓reduceIte]
      rw [hs, BitVec.ofNat_sub_ofNat_of_le (c - j / 2) 1 (by decide) (by omega), Nat.sub_sub,
        show j / 2 + 1 = (j + 1) / 2 by omega]
  · simp only [edge, hstop, hbeat, hcref, Bool.not_false, Bool.and_true, ↓reduceIte, ← decide_not]
    exact decide_eq_decide.2 (by omega)

/-- No operation is accepted in the periods of a delay. -/
theorem not_ready_of_delay (hy : ∀ n, NoStrobedDelay (y n)) (hready : opReady (machine.run y t) = true)
    (hv : (y t).opValid = true) (hfn : (y t).op.fn = true) (hc : (y t).op.cnt.toNat = c) (htu : t < u)
    (hu : u < t + 2 * c) : opReady (machine.run y u) = false := by
  have hidle := (running hy t).idle_of_ready hready
  have hlt : c < 256 := hc ▸ (y t).op.cnt.isLt
  have hall : ∀ j, j < 2 * c → Idle (machine.run y (t + 1 + j)) ∧
      (machine.run y (t + 1 + j)).scnt = BitVec.ofNat 8 (c - j / 2) ∧
      (machine.run y (t + 1 + j)).cref = decide (j % 2 = 0) := by
    intro j hj
    induction j with
    | zero =>
      have ha : accepts (machine.run y t) (y t) = false := by simp [accepts, hfn]
      refine ⟨hidle.next (hy t) ha, ?_, ?_⟩
      · change (edge (machine.run y t) (y t)).scnt = _
        have ht : t251 (machine.run y t) = true := hready
        simp [edge, ht, hv, ← hc]
      · change (edge (machine.run y t) (y t)).cref = _
        rcases hidle.opReady_iff.1 hready with hs | ⟨hs, hcr⟩
        · simp [edge, stop, hs, hidle.cref hs]
        · simp [edge, stop, hs, beat, hidle.tcnt, hcr]
    | succ j ih =>
      obtain ⟨h1, h2, h3⟩ := ih (by omega)
      exact (h1.delaying_next (hy (t + 1 + j)) hj hlt h2 h3).2
  obtain ⟨h1, h2, h3⟩ := hall (u - (t + 1)) (by omega)
  have := (h1.delaying_next (hy (t + 1 + (u - (t + 1)))) (by omega) hlt h2 h3).1
  rwa [show t + 1 + (u - (t + 1)) = u by omega] at this

end QspiPhysical
