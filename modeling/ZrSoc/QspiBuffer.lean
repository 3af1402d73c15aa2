import ZrSoc.QspiTicks
import ZrSoc.Sync.ShiftRegister

/-!
# The buffer in a frame of a byte

A frame that carries a byte over `w` data lines takes `c` beats with `c * w = 8`.  While it lasts the buffer is a shift
register (`ByteFrame.shiftsIn`): it moves by `w` bits after each launch, and takes the data lines three clocks after
each tick.  With divisors below 2 the last sample comes after the last period, where no launch moves the buffer any more; it
then moves with the sample (`ByteFrame.shifts_iff`).
-/

namespace QspiPhysical

/-- In cycle `t` a frame of `c` beats is accepted that has a byte for `w` data lines; the engine has the configuration
`k` of SCK, and in the frame the protocol of `w` lines. -/
structure ByteFrame (k : SckCtrl) (w c : ℕ) (y : ℕ → Input) (t : ℕ) : Prop where
  accepts : accepts (machine.run y t) (y t) = true
  ctrlSck : (machine.run y t).ctrlSck = k
  cnt : (y t).op.cnt.toNat = c
  width : Width w (machine.run y (t + 1)).ctrlFmt.proto
  byte : c * w = 8

/-- The bit of the byte that line `l` has in beat `q`. -/
def place (f : Fmt) (w c q l : ℕ) : ℕ := if f.endian then 7 - ((c - 1 - q) * w + l) else (c - 1 - q) * w + l

variable {f : Fmt} {k : SckCtrl} {y : ℕ → Input} {v : BitVec 8} {w c i l m q t u : ℕ}

theorem place_lt (hcw : c * w = 8) (hq : q < c) (hl : l < w) : (c - 1 - q) * w + l < 8 := by
  have hle : (c - 1 - q + 1) * w ≤ c * w := Nat.mul_le_mul_right w (by omega)
  rw [Nat.succ_mul] at hle
  omega

theorem getLsbD_rev8 (hi : i < 8) : (rev8 v).getLsbD (7 - i) = v.getLsbD i := by
  rw [rev8, BitVec.getLsbD_reverse, BitVec.getMsbD_eq_getLsbD]
  simp [show 7 - (7 - i) = i by omega]
  omega

/-- The byte of the buffer, in the order of the format. -/
theorem getLsbD_place (hcw : c * w = 8) (hq : q < c) (hl : l < w) :
    (if f.endian then rev8 v else v).getLsbD (place f w c q l) = v.getLsbD ((c - 1 - q) * w + l) := by
  rw [place]
  cases f.endian with
  | true => exact getLsbD_rev8 (place_lt hcw hq hl)
  | false => rfl

/-! ### Samples and shifts -/

namespace ByteFrame

variable (h : ByteFrame k w c y t)

include h

theorem frameFrom : FrameFrom k c y t := by
  have hbyte := h.byte
  rw [← h.ctrlSck]
  exact frameFrom_of_accepts h.accepts h.cnt (by rintro rfl; omega)

theorem beats : w = 1 ∧ c = 8 ∨ w = 2 ∧ c = 4 ∨ w = 4 ∧ c = 2 := h.width.beats h.byte

theorem formatted (htu : t < u) (hu : u ≤ finish k c t ∨ u ≤ t + 2 * c * half k) :
    Formatted (machine.run y (t + 1)).ctrlFmt (machine.run y u) := by
  rw [← h.frameFrom.ctrlFmt_eq htu hu]
  exact formatted_run y u

/-- In a frame the buffer is a shift register. -/
theorem shiftsIn : Sync.ShiftsIn 8 w (fun n i => (machine.run y n).buffer.getLsbD i) (fun n => shifts (machine.run y n))
    (fun n => (machine.run y n).sampleD) (fun n i => (y n).dqI.getLsbD (lane w i)) (t + 1)
    (finish k c t) := by
  have hbits (n : ℕ) (htn : t + 1 ≤ n) (hn : n < finish k c t) (i : ℕ) (hi : i < 8) :
      (machine.run y (n + 1)).buffer.getLsbD i =
        if i < w then
          (if (machine.run y n).sampleD then (y n).dqI.getLsbD (lane w i) else (machine.run y n).buffer.getLsbD i)
        else if shifts (machine.run y n) then (machine.run y n).buffer.getLsbD (i - w)
        else (machine.run y n).buffer.getLsbD i := by
    have hacc := h.frameFrom.not_accepts (show t < n from htn) hn
    have hbuf : (machine.run y (n + 1)).buffer = t179 (machine.run y n) (y n) := by
      change (edge (machine.run y n) (y n)).buffer = _
      simp only [edge, hacc, Bool.false_eq_true, ↓reduceIte]
    rw [hbuf]
    exact getLsbD_t179 h.width (h.formatted htn (Or.inl hn.le)) hi
  refine ⟨fun n htn hn i hi => ?_, fun n htn hn i hwi hi => ?_⟩
  · have hw : w ≤ 4 := by have := h.beats; omega
    have := hbits n htn hn i (by omega)
    rwa [if_pos hi] at this
  · have := hbits n htn hn i hi
    rwa [if_neg (by omega)] at this

/-- The buffer moves after each launch, and with the last sample where this one comes after the last period. -/
theorem shifts_iff (htu : t < u) (hu : u ≤ finish k c t) :
    shifts (machine.run y u) = true ↔ (∃ m < c, u = launch k t m + 1) ∨
      half k < 3 ∧ u = tick k t (c - 1) + 3 := by
  have hframe := h.frameFrom
  rw [shifts, Bool.or_eq_true, Bool.and_eq_true, hframe.setupD_iff htu hu, hframe.sampleD_iff htu hu,
    hframe.stop_iff htu hu]
  refine or_congr Iff.rfl ⟨?_, ?_⟩
  · rintro ⟨⟨q, hq, rfl⟩, hlast⟩
    have hhalf := half_pos (k := k)
    -- an earlier sample comes within the last period
    obtain rfl | hlt : q = c - 1 ∨ q + 1 < c := by omega
    · refine ⟨?_, rfl⟩
      have hle := tick_le (k := k) (t := t) hq
      omega
    · have hle := tick_le (k := k) (t := t) hlt
      have hnext : launch k t (q + 1) = launch k t q + 2 * half k := launch_succ
      rw [tick_eq_launch] at hle hlast
      omega
  · rintro ⟨hhalf, rfl⟩
    have hpos := hframe.pos
    have hend : launch k t (c - 1 + 1) = launch k t (c - 1) + 2 * half k := launch_succ
    rw [Nat.sub_add_cancel (by omega), launch] at hend
    refine ⟨⟨c - 1, by omega, rfl⟩, ?_⟩
    rw [hend, tick_eq_launch]
    omega

end ByteFrame

end QspiPhysical
