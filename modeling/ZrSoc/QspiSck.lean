import ZrSoc.QspiMedia
import ZrSoc.QspiEngine

/-!
# The SCK configuration of the QSPI

The control registers reach the bit engine with delays that have a strobe.  The media layer has two such delays in its
table, but never sets `io_op_valid` for them, so that the engine keeps the configuration of the reset
(`noStrobedDelay`): each half period is one clock, SCK idles low and the data are sampled on its rising edge.  A frame
follows the control registers if and only if they hold these values (`follows_iff`).
-/

namespace QspiMedia

open Sync QspiPhysical

variable (i : ℕ → Input)

/-- The ports of `phy` in a run. -/
def phyStream (n : ℕ) : QspiPhysical.Input := phyInput (run i n) (i n)

/-- The physical layer accepts the transfer of a frame in cycle `t`. -/
def FrameAt (t : ℕ) : Prop := accepts (run i t).phy (phyStream i t) = true

/-- The frame of `c` beats accepted in cycle `t` follows the configuration `cfg`.  Its half periods last `cfg.div + 1`
clocks each, the first one with SCK at its idle level, or with `cfg.pha` at the other one; the data are launched at the
beginning of each period and sampled at the edge in its middle; and SCK idles at `cfg.pol` until the next frame. -/
structure Follows (cfg : SckCtrl) (t c : ℕ) : Prop where
  halfPeriods : ∀ j < 2 * c * (cfg.div.toNat + 1), portSck (run i (t + 1 + j)).phy =
    ((cfg.pol ^^ cfg.pha) ^^ decide (j / (cfg.div.toNat + 1) % 2 = 1))
  launched : ∀ j < 2 * c * (cfg.div.toNat + 1), gen60 (run i (t + j)).phy (phyStream i (t + j)) = true ↔
    ∃ m < c, j = 2 * m * (cfg.div.toNat + 1)
  sampled : ∀ j ≤ 2 * c * (cfg.div.toNat + 1), samples (run i (t + j)).phy = true ↔
    ∃ m < c, j = (2 * m + 1) * (cfg.div.toNat + 1)
  idles : ∀ u, t + 2 * c * (cfg.div.toNat + 1) < u → (∀ v, t < v → v < u → ¬ FrameAt i v) →
    portSck (run i u).phy = cfg.pol

variable {i} {n t c : ℕ} {cfg : SckCtrl}

/-! ### The configuration is never handed over -/

/-- The media layer offers no delay with a strobe. -/
theorem noStrobedDelay (s : State) (x : Input) : NoStrobedDelay (phyInput s x) := by
  simp only [NoStrobedDelay, phyInput, opValid, opBits, sMain, sInterxfr, sIntercs]
  cases s.state <;> cases s.csAssert <;> cases csDeassert s x <;> simp

theorem run_phy (n : ℕ) : (run i n).phy = QspiPhysical.machine.run (phyStream i) n := by
  induction n with
  | zero => rfl
  | succ n ih => exact congrArg (QspiPhysical.edge · (phyStream i n)) ih

theorem phyStream_noStrobedDelay (n : ℕ) : NoStrobedDelay (phyStream i n) := noStrobedDelay _ _

/-! ### The waveform of a frame -/

section Frame

variable (ha : FrameAt i t) (hc : (phyStream i t).op.cnt.toNat = c)

include ha in
private theorem accepts_run : accepts (QspiPhysical.machine.run (phyStream i) t) (phyStream i t) = true := by
  rw [← run_phy]
  exact ha

include ha hc in
theorem shifting_of_frame {j : ℕ} (hj : j < 2 * c) : Shifting c j (run i (t + 1 + j)).phy := by
  rw [run_phy]
  exact shifting_of_accepts phyStream_noStrobedDelay (accepts_run ha) hc hj

include ha in
theorem idle_of_frame : Idle (run i t).phy := by
  rw [run_phy]
  exact idle_of_accepts phyStream_noStrobedDelay (accepts_run ha)

include ha hc in
/-- SCK is low from the last edge of a frame to the next frame. -/
theorem sck_low {u : ℕ} (hu : t + 2 * c < u) (hq : ∀ v, t < v → v < u → ¬ FrameAt i v) :
    portSck (run i u).phy = false := by
  rw [portSck, run_phy]
  refine sck_of_quiet phyStream_noStrobedDelay (accepts_run ha) hc hu fun v hv hvu => ?_
  rw [← run_phy, ← Bool.not_eq_true]
  exact hq v hv hvu

include ha hc in
/-- No frame is accepted before the last sample of the one under way. -/
theorem not_frame {u : ℕ} (h0 : c ≠ 0) (hu : t < u) (hu' : u < t + 3 + 2 * c) : ¬ FrameAt i u := by
  intro h
  have hready := not_ready_of_accepts phyStream_noStrobedDelay (accepts_run ha) hc h0 hu hu'
  rw [← run_phy] at hready
  have hacc : accepts (run i u).phy (phyStream i u) = true := h
  rw [accepts, show t251 (run i u).phy = false from hready] at hacc
  exact absurd hacc (by simp)

include ha hc in
/-- A frame launches its data when it is accepted and at the end of each period but the last. -/
private theorem gen60_iff {j : ℕ} (hj : j < 2 * c) :
    gen60 (run i (t + j)).phy (phyStream i (t + j)) = true ↔ j % 2 = 0 := by
  cases j with
  | zero =>
    simp only [Nat.add_zero, Nat.zero_mod, iff_true]
    exact Bool.or_eq_true_iff.2 (Or.inl ha)
  | succ j =>
    have hs := shifting_of_frame ha hc (show j < 2 * c by omega)
    rw [show t + 1 + j = t + (j + 1) by omega] at hs
    obtain ⟨-, hacc, hbeat, hstop, hone⟩ := hs.signals (x := phyStream i (t + (j + 1)))
    simp only [gen60, hacc, hbeat, hstop, hone, crefRise, hs.xfr, hs.cref]
    simp
    omega

include ha hc in
private theorem samples_iff {j : ℕ} (hj : j ≤ 2 * c) : samples (run i (t + j)).phy = true ↔ j % 2 = 1 := by
  cases j with
  | zero => simp [(idle_of_frame ha).samples_eq]
  | succ j =>
    have hs := shifting_of_frame ha hc (show j < 2 * c by omega)
    rw [show t + 1 + j = t + (j + 1) by omega] at hs
    obtain ⟨-, -, hbeat, hstop, -⟩ := hs.signals (x := phyStream i (t + (j + 1)))
    simp [samples, hbeat, hstop, hs.xfr, hs.cref]
    omega

include ha hc in
/-- The waveform of a frame is that of the reset configuration. -/
private theorem follows_of_reset (hpol : cfg.pol = false) (h : c = 0 ∨ cfg.div = 0#12 ∧ cfg.pha = false) :
    Follows i cfg t c := by
  rcases h with rfl | ⟨hdiv, hpha⟩
  · refine ⟨fun j hj => absurd hj (by omega), fun j hj => absurd hj (by omega), fun j hj => ?_, fun u hu hq => ?_⟩
    · obtain rfl : j = 0 := by omega
      have hs := samples_iff ha hc (show 0 ≤ 2 * 0 by omega)
      simpa using hs
    · rw [hpol, sck_low ha hc (by omega) hq]
  · have hD : cfg.div.toNat + 1 = 1 := by rw [hdiv]; rfl
    refine ⟨fun j hj => ?_, fun j hj => ?_, fun j hj => ?_, fun u hu hq => ?_⟩ <;>
      simp only [hD, Nat.mul_one, Nat.div_one] at *
    · rw [portSck, (shifting_of_frame ha hc hj).sck, hpol, hpha]
      simp
    · rw [gen60_iff ha hc hj]
      exact ⟨fun h => ⟨j / 2, by omega, by omega⟩, fun ⟨m, _, hm⟩ => by omega⟩
    · rw [samples_iff ha hc hj]
      exact ⟨fun h => ⟨j / 2, by omega, by omega⟩, fun ⟨m, _, hm⟩ => by omega⟩
    · rw [hpol, sck_low ha hc hu hq]

include ha hc in
private theorem reset_of_follows (h : Follows i cfg t c) :
    cfg.pol = false ∧ (c = 0 ∨ cfg.div = 0#12 ∧ cfg.pha = false) := by
  by_cases h0 : c = 0
  · subst h0
    refine ⟨?_, Or.inl rfl⟩
    have hidle := h.idles (t + 1) (by omega) fun v hv hvu => by omega
    rw [← hidle, sck_low ha hc (by omega) fun v hv hvu => by omega]
  · have hpos : 0 < 2 * c * (cfg.div.toNat + 1) := Nat.mul_pos (by omega) (Nat.succ_pos _)
    have hfirst : (cfg.pol ^^ cfg.pha) = false := by
      have := h.halfPeriods 0 hpos
      rw [portSck, (shifting_of_frame ha hc (show 0 < 2 * c by omega)).sck] at this
      simpa using this.symm
    -- SCK has risen after one clock
    have hdiv : cfg.div.toNat = 0 := by
      by_contra hne
      have hlt : 1 < 2 * c * (cfg.div.toNat + 1) := by
        have := Nat.mul_le_mul (show 2 ≤ 2 * c by omega) (show 2 ≤ cfg.div.toNat + 1 by omega)
        omega
      have := h.halfPeriods 1 hlt
      rw [portSck, (shifting_of_frame ha hc (show 1 < 2 * c by omega)).sck, hfirst,
        Nat.div_eq_of_lt (by omega)] at this
      exact absurd this (by decide)
    have hpol : cfg.pol = false := by
      have hu : t + 2 * c * (cfg.div.toNat + 1) < t + 1 + 2 * c := by rw [hdiv]; omega
      have hquiet : ∀ v, t < v → v < t + 1 + 2 * c → ¬ FrameAt i v := fun v hv hvu =>
        not_frame ha hc h0 hv (by omega)
      rw [← h.idles _ hu hquiet, sck_low ha hc (by omega) hquiet]
    rw [hpol, Bool.false_xor] at hfirst
    exact ⟨hpol, Or.inr ⟨BitVec.eq_of_toNat_eq hdiv, hfirst⟩⟩

end Frame

/-- A frame follows the control registers if and only if they hold the values of the reset, for a frame without a beat
the polarity only. -/
theorem follows_iff (ha : FrameAt i t) (hc : (phyStream i t).op.cnt.toNat = c) :
    Follows i cfg t c ↔ cfg.pol = false ∧ (c = 0 ∨ cfg.div = 0#12 ∧ cfg.pha = false) :=
  ⟨reset_of_follows ha hc, fun ⟨hpol, h⟩ => follows_of_reset ha hc hpol h⟩

/-- A frame of eight beats with the divisor 1 in the control register from the reset on. -/
def dividedFrame (_ : ℕ) : Input where
  dqI := 0
  sck := { div := 1, pol := false, pha := false }
  dla := { cssck := 1, sckcs := 1, intercs := 1, interxfr := 0 }
  csId := false
  csDflt0 := true
  link :=
    { txValid := true, txBits := 0x9f, cnt := 8, fmt := { proto := 0, endian := false, iodir := true }, csSet := true,
      csClear := false, csHold := false }

/-- The link is idle in cycle 0, and SCK of the frame accepted in cycle 1 changes after one clock. -/
theorem sck_dividedFrame : linkActive (run dividedFrame 0) = false ∧ FrameAt dividedFrame 1 ∧
    portSck (run dividedFrame 2).phy = false ∧ portSck (run dividedFrame 3).phy = true ∧
    ¬ Follows dividedFrame (dividedFrame 1).sck 1 8 := by
  have hrise : portSck (run dividedFrame 3).phy = true := by decide +kernel
  refine ⟨by decide +kernel, by unfold FrameAt; decide +kernel, by decide +kernel, hrise, fun h => ?_⟩
  have hfall : portSck (run dividedFrame (1 + 1 + 1)).phy = false := (h.halfPeriods 1 (by decide)).trans (by decide)
  rw [hrise] at hfall
  exact absurd hfall (by decide)

theorem follows_iff_dividedFrame : Follows dividedFrame { div := 0, pol := false, pha := false } 1 8 ↔
    false = false ∧ (8 = 0 ∨ (0 : BitVec 12) = 0#12 ∧ false = false) :=
  follows_iff (by unfold FrameAt; decide +kernel) (by decide +kernel)

end QspiMedia
