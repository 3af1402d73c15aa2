import ZrSoc.QspiFrames
import ZrSoc.QspiSck

/-!
# The chip select of the QSPI

The chip select changes in the states of the media layer in which `cs_assert` is not set, or in which it waits for the
physical layer to be ready.  While a transfer is under way neither is the case (`Transferring`), so that the chip
select keeps its value from the acceptance of a transfer to its end, and SCK moves under `cs_assert` only
(`csStable`).
-/

namespace QspiPhysical

variable {y : ℕ → Input} {c t : ℕ}

/-- The physical layer has finished: `done` is set and the count of SCK periods has expired. -/
def finished (s : State) : Bool := s.done && stop s

/-- A frame is finished when the last sample has passed the pipeline. -/
theorem finished_of_accepts (hy : ∀ n, NoStrobedDelay (y n)) (ha : accepts (machine.run y t) (y t) = true)
    (hc : (y t).op.cnt.toNat = c) (h0 : c ≠ 0) : finished (machine.run y (t + 3 + 2 * c)) = true := by
  obtain ⟨-, hd, hidle⟩ := draining_of_accepts hy ha hc h0
  have hready : t251 (machine.run y (t + 2 + 2 * c)) = false := hd.not_ready
  have hstop : stop (machine.run y (t + 2 + 2 * c)) = true := by simp [stop, hd.scnt]
  have hscnt : (machine.run y (t + 2 + 2 * c + 1)).scnt = 0#8 := by
    change (edge (machine.run y (t + 2 + 2 * c)) (y (t + 2 + 2 * c))).scnt = 0#8
    simp [edge, hready, hstop, hd.scnt]
  rw [finished, hidle.done, stop, show t + 3 + 2 * c = t + 2 + 2 * c + 1 by omega, hscnt]
  rfl

/-- A transfer of no beats is finished at once. -/
theorem finished_of_empty (ha : accepts (machine.run y t) (y t) = true) (hc : (y t).op.cnt.toNat = 0) :
    finished (machine.run y (t + 1)) = true := by
  have hcnt : (y t).op.cnt = 0#8 := BitVec.eq_of_toNat_eq hc
  have hv : t251 (machine.run y t) = true ∧ (y t).opValid = true := by
    simp only [accepts, Bool.and_eq_true] at ha
    exact ha.1
  change finished (edge (machine.run y t) (y t)) = true
  simp [finished, edge, stop, ha, hv, hcnt]

end QspiPhysical

namespace QspiMedia

open Sync QspiPhysical

variable {i : ℕ → Input} {s : State} {x : Input} {c m n t u : ℕ}

/-- A transfer that was accepted under the chip select `v` is under way. -/
structure Transferring (v : Bool) (s : State) : Prop where
  csAssert : s.csAssert = true
  state : s.state ≠ .intercs
  portCs0 : portCs0 s = v

/-- What the physical layer accepts as a transfer comes under `cs_assert`. -/
theorem csAssert_of_frame (ha : FrameAt i t) : (run i t).csAssert = true ∧ (run i t).state = .main := by
  have hfn : (phyStream i t).op.fn = false := by
    rw [FrameAt, accepts, Bool.and_eq_true, Bool.not_eq_true'] at ha
    exact ha.2
  have hop : (phyStream i t).op.fn =
      !(sMain (run i t) && (run i t).csAssert && !csDeassert (run i t) (i t)) := rfl
  rw [hop, Bool.not_eq_false'] at hfn
  simp only [Bool.and_eq_true, sMain, beq_iff_eq] at hfn
  exact ⟨hfn.1.2, hfn.1.1⟩

/-- While the physical layer is not ready the chip select stays. -/
theorem Transferring.next {v : Bool} (h : Transferring v s) (hr : opReady s = false) : Transferring v (edge s x) := by
  have hcs := h.csAssert
  have hi : sIntercs s = false := by simpa [sIntercs] using h.state
  refine ⟨?_, ?_, h.portCs0 ▸ ?_⟩
  · simp [edge, hi, hcs]
  · cases hs : s.state with
    | main => simp [edge, hs, hcs, hr]
    | interxfr => cases hc : continuous x <;> simp [edge, hs, hr, hc]
    | intercs => exact absurd hs h.state
  · cases hm : sMain s <;> simp [QspiMedia.portCs0, edge, hi, hm, t195, t189, hcs]

/-- The edge that accepts a transfer keeps the chip select. -/
theorem transferring_of_frame (ha : FrameAt i t) : Transferring (portCs0 (run i t)) (run i (t + 1)) := by
  obtain ⟨hcs, hmain⟩ := csAssert_of_frame ha
  have hi : sIntercs (run i t) = false := by simp [sIntercs, hmain]
  have ha' := ha
  rw [FrameAt, accepts, Bool.and_eq_true, Bool.and_eq_true] at ha'
  obtain ⟨⟨hready, hvalid⟩, hfn⟩ := ha'
  have hkeep : csDeassert (run i t) (i t) = false := by
    simpa [phyStream, phyInput, opBits, sMain, hmain, hcs] using hfn
  have hr : opReady (run i t) = true := hready
  have hv : opValid (run i t) (i t) = true := hvalid
  change Transferring _ (edge (run i t) (i t))
  refine ⟨?_, ?_, ?_⟩
  · simp [edge, hi, hcs]
  · simp [edge, hmain, hcs, hkeep, hr, hv]
  · simp [portCs0, edge, hi, t195, t189, hcs]

/-- The chip select stays until the transfer is finished. -/
theorem transferring_until (ha : FrameAt i t) (htm : t < m)
    (hq : ∀ u, t < u → u < m → finished (run i u).phy = false) : Transferring (portCs0 (run i t)) (run i m) := by
  have hy : ∀ n, NoStrobedDelay (phyStream i n) := phyStream_noStrobedDelay
  have ha' : accepts (QspiPhysical.machine.run (phyStream i) t) (phyStream i t) = true := by
    rw [← run_phy]
    exact ha
  induction m, (show t + 1 ≤ m from htm) using Nat.le_induction with
  | base => exact transferring_of_frame ha
  | succ m hm ih =>
    have hbusy : opReady (run i m) = false := by
      have hnot := hq m (by omega) (by omega)
      rw [run_phy] at hnot
      rw [opReady, run_phy]
      by_cases h0 : (phyStream i t).op.cnt.toNat = 0
      · -- a transfer of no beats has been finished in cycle `t + 1`
        have hone := hq (t + 1) (by omega) (by omega)
        rw [run_phy, finished_of_empty ha' h0] at hone
        exact absurd hone (by simp)
      · by_contra hready
        have hle : t + 3 + 2 * (phyStream i t).op.cnt.toNat ≤ m := by
          by_contra hlt
          exact hready (not_ready_of_accepts hy ha' rfl h0 (by omega) (by omega))
        have hend := hq _ (by omega) (Nat.lt_succ_of_le hle)
        rw [run_phy, finished_of_accepts hy ha' rfl h0] at hend
        exact absurd hend (by simp)
    exact (ih (by omega) fun u hu hum => hq u hu (by omega)).next hbusy

/-- SCK is high within a transfer only, and not at its ends. -/
theorem frame_of_sck (hs : portSck (run i u).phy = true) : ∃ t c, FrameAt i t ∧ (phyStream i t).op.cnt.toNat = c ∧
    c ≠ 0 ∧ t + 1 < u ∧ u < t + 1 + 2 * c := by
  have hy : ∀ n, NoStrobedDelay (phyStream i n) := phyStream_noStrobedDelay
  rw [portSck, run_phy] at hs
  rcases idle_or_frame hy u with h | ⟨t, htu, ha, h0, hu⟩
  · rw [h.sck] at hs
    exact absurd hs (by simp)
  · obtain ⟨hd0, hd1, -⟩ := draining_of_accepts hy ha rfl h0
    have hshift := shifting_of_accepts hy ha rfl (show 0 < 2 * (phyStream i t).op.cnt.toNat by omega)
    refine ⟨t, _, by rw [FrameAt, run_phy]; exact ha, rfl, h0, ?_, ?_⟩
    · by_contra hle
      obtain rfl : u = t + 1 + 0 := by omega
      rw [hshift.sck] at hs
      exact absurd hs (by simp)
    · by_contra hle
      obtain rfl | rfl : u = t + 1 + 2 * (phyStream i t).op.cnt.toNat ∨
          u = t + 2 + 2 * (phyStream i t).op.cnt.toNat := by
        omega
      · rw [hd0.sck] at hs
        exact absurd hs (by simp)
      · rw [hd1.sck] at hs
        exact absurd hs (by simp)

/-- The chip select of a run. -/
structure CsStable (i : ℕ → Input) : Prop where
  /-- From the acceptance of a transfer in cycle `t` until the physical layer has finished, the chip select stays. -/
  stays : ∀ t m, FrameAt i t → t < m → (∀ u, t < u → u < m → finished (run i u).phy = false) →
    portCs0 (run i m) = portCs0 (run i t)
  /-- No transfer is accepted while `cs_assert` is 0. -/
  asserted : ∀ t, FrameAt i t → (run i t).csAssert = true
  /-- A pulse of SCK, which is high in cycle `u`, lies within an interval in which `cs_assert` is 1. -/
  pulses : ∀ u, portSck (run i u).phy = true → ∃ a b, a < u ∧ u < b ∧ portSck (run i a).phy = false ∧
    portSck (run i b).phy = false ∧ ∀ m, a ≤ m → m ≤ b → (run i m).csAssert = true

/-- In every run, whatever the link does and the control registers hold, the chip select is stable around the
transfers. -/
theorem csStable (i : ℕ → Input) : CsStable i where
  stays := fun _ _ ha htm hq => (transferring_until ha htm hq).portCs0
  asserted := fun _ ha => (csAssert_of_frame ha).1
  pulses := fun u hs => by
    obtain ⟨t, c, ha, hc, h0, hlow, hhigh⟩ := frame_of_sck hs
    have hy : ∀ n, NoStrobedDelay (phyStream i n) := phyStream_noStrobedDelay
    have ha' : accepts (QspiPhysical.machine.run (phyStream i) t) (phyStream i t) = true := by
      rw [← run_phy]
      exact ha
    have hbegin := (shifting_of_frame ha hc (j := 0) (by omega)).sck
    have hend := (draining_of_accepts hy ha' hc h0).1.sck
    rw [← run_phy] at hend
    refine ⟨t + 1, t + 1 + 2 * c, hlow, hhigh, hbegin, hend, fun m hm hmb => ?_⟩
    refine (transferring_until ha (by omega) fun v hv hvm => ?_).csAssert
    rw [run_phy, finished, done_of_accepts hy ha' hc h0 hv (by omega), Bool.false_and]

end QspiMedia
