import ZrSoc.QspiBuffer

/-!
# The byte of a received frame

The samples of a frame are three clocks behind its ticks, which is what the synchronisers of the data lines in
`e203_subsys_perips.sv` make up for.  Between two samples the buffer moves once: with divisors from 2 on when the next
period is launched, with smaller ones a period later, and at the end together with the last sample
(`ByteFrame.shifts_between`).  So at the end of the frame the buffer has the samples in order (`receives`).
-/

namespace QspiPhysical

/-- The flops of the synchronisers, by stage: bit `j` of `stage0` is `qspi_dq_j_sync[0]`. -/
structure DqSync where
  stage0 : BitVec 4
  stage1 : BitVec 4
  stage2 : BitVec 4

/-- The synchronisers `qspi_dq_0_sync` to `qspi_dq_3_sync`. -/
def dqSync : Sync.Machine DqSync (BitVec 4) where
  reset := ⟨0#4, 0#4, 0#4⟩
  edge s pads := ⟨pads, s.stage0, s.stage1⟩

theorem dqSync_run (pads : ℕ → BitVec 4) (n : ℕ) : (dqSync.run pads (n + 3)).stage2 = pads n := rfl

/-- The byte of the frame that is accepted in cycle `t` is received: `io_rx_valid` is low until its end, and then high
until the next frame with beats, and at the end `io_rx_bits` has the data lines of the ticks. -/
structure Receives (k : SckCtrl) (w c : ℕ) (y : ℕ → Input) (t : ℕ) : Prop where
  valid : rxValid (machine.run y t) = true
  falls : ∀ u, t < u → u < finish k c t → rxValid (machine.run y u) = false
  rises : ∀ u, finish k c t ≤ u →
    (∀ n, t < n → n < u → accepts (machine.run y n) (y n) = true → (y n).op.cnt = 0#8) →
    rxValid (machine.run y u) = true
  ticks : ∀ u, t ≤ u → u ≤ finish k c t →
    (samples (machine.run y u) = true ↔ ∃ q < c, u = tick k t q)
  sck : ∀ q < c, portSck (machine.run y (tick k t q)) = (k.pha ^^ k.pol) ∧
    portSck (machine.run y (tick k t q + 1)) = !(k.pha ^^ k.pol)
  bits : ∀ q < c, ∀ l < w, (rxBits (machine.run y (finish k c t))).getLsbD
    (place (machine.run y (t + 1)).ctrlFmt w c q l) =
      (y (tick k t q + 3)).dqI.getLsbD (lane w l)
  pads : ∀ pads : ℕ → BitVec 4, (∀ n, (y n).dqI = (dqSync.run pads n).stage2) → ∀ q < c, ∀ l < w,
    (rxBits (machine.run y (finish k c t))).getLsbD
      (place (machine.run y (t + 1)).ctrlFmt w c q l) =
        (pads (tick k t q)).getLsbD (lane w l)

/-- The cycle between the samples `q` and `q + 1` in which the buffer moves. -/
def moves (k : SckCtrl) (c t q : ℕ) : ℕ :=
  if 3 ≤ half k then launch k t (q + 1) + 1
  else if q + 2 < c then launch k t (q + 2) + 1
  else tick k t (q + 1) + 3

variable {k : SckCtrl} {y : ℕ → Input} {w c l m q t u : ℕ}

/-- Between two samples one period is launched, or would be. -/
theorem launch_between : (tick k t q + 3 < launch k t m + 1 ∧ launch k t m + 1 ≤ tick k t (q + 1) + 3) ↔
    m = if 3 ≤ half k then q + 1 else q + 2 := by
  have hhalf := half_pos (k := k)
  have h1 : (q + 1) * half k = q * half k + half k := Nat.succ_mul q _
  have h2 : (q + 2) * half k = (q + 1) * half k + half k := Nat.succ_mul (q + 1) _
  have h3 : (q + 3) * half k = (q + 2) * half k + half k := Nat.succ_mul (q + 2) _
  rw [tick_eq, tick_eq, launch_eq]
  obtain hm | rfl | rfl | hm : m ≤ q ∨ m = q + 1 ∨ m = q + 2 ∨ q + 3 ≤ m := by omega
  · have hle := Nat.mul_le_mul_right (half k) hm
    split <;> omega
  · split <;> omega
  · split <;> omega
  · have hle := Nat.mul_le_mul_right (half k) hm
    split <;> omega

theorem moves_between : tick k t q + 3 < moves k c t q ∧ moves k c t q ≤ tick k t (q + 1) + 3 := by
  rw [moves]
  split
  next hhalf => exact launch_between.2 (if_pos hhalf).symm
  next hhalf =>
    split
    · exact launch_between.2 (if_neg hhalf).symm
    · have := tick_lt (k := k) (t := t) (show q < q + 1 by omega)
      omega

/-- Between two samples the buffer moves once. -/
theorem ByteFrame.shifts_between (h : ByteFrame k w c y t) (hqc : q + 1 < c) (hqu : tick k t q + 3 < u)
    (huq : u ≤ tick k t (q + 1) + 3) : shifts (machine.run y u) = true ↔ u = moves k c t q := by
  have hqt := lt_tick (k := k) (t := t) (q := q)
  have hfin := tick_le_finish (k := k) (t := t) hqc
  rw [h.shifts_iff (by omega) (by omega), moves]
  constructor
  · rintro (⟨m, hm, rfl⟩ | ⟨hhalf, rfl⟩)
    · have hmq := launch_between.1 ⟨hqu, huq⟩
      split at hmq
      next hhalf => rw [if_pos hhalf, hmq]
      next hhalf => rw [if_neg hhalf, if_pos (by omega), hmq]
    · have hlast : ¬ q + 2 < c := fun hlt => by
        have := tick_lt (k := k) (t := t) (show q + 1 < c - 1 by omega)
        omega
      rw [if_neg (by omega), if_neg hlast, show c - 1 = q + 1 by omega]
  · intro hu
    split at hu
    · exact Or.inl ⟨q + 1, hqc, hu⟩
    · split at hu
      next hlt => exact Or.inl ⟨q + 2, hlt, hu⟩
      next hlast => exact Or.inr ⟨by omega, by rw [hu, show c - 1 = q + 1 by omega]⟩

theorem ByteFrame.no_sample_between (h : ByteFrame k w c y t) (hqc : q + 1 < c) (hqu : tick k t q + 3 < u)
    (huq : u < tick k t (q + 1) + 3) : (machine.run y u).sampleD = false := by
  have hqt := lt_tick (k := k) (t := t) (q := q)
  have hfin := tick_le_finish (k := k) (t := t) hqc
  refine Bool.eq_false_iff.2 fun hs => ?_
  -- the tick of such a sample would lie between two ticks
  obtain ⟨m, hm, rfl⟩ := (h.frameFrom.sampleD_iff (by omega) (by omega)).1 hs
  rcases Nat.lt_or_ge q m with hlt | hge
  · have hmono := tick_mono (k := k) (t := t) (Nat.succ_le_of_lt hlt)
    rw [Nat.succ_eq_add_one] at hmono
    omega
  · have hmono := tick_mono (k := k) (t := t) hge
    omega

/-- At the end of a frame the buffer has the samples, the last one at its end. -/
theorem ByteFrame.getLsbD_buffer (h : ByteFrame k w c y t) (hq : q < c) (hl : l < w) :
    (machine.run y (finish k c t)).buffer.getLsbD ((c - 1 - q) * w + l) =
      (y (tick k t q + 3)).dqI.getLsbD (lane w l) := by
  refine h.shiftsIn.samples (c := c) (s := fun q => tick k t q + 3) (p := moves k c t) (fun q hq => ?_)
    (fun q _ => moves_between) (fun q hq u hqu huq => h.shifts_between hq hqu huq)
    (fun q hq u hqu huq => h.no_sample_between hq hqu huq) (by omega) (by omega) hl (place_lt h.byte hq hl)
  have hqt := lt_tick (k := k) (t := t) (q := q)
  have hfin := tick_le_finish (k := k) (t := t) hq
  exact ⟨by omega, by omega, (h.frameFrom.sampleD_iff (by omega) (by omega)).2 ⟨q, hq, rfl⟩⟩

/-- Once high, `io_rx_valid` stays until a frame with beats is accepted. -/
theorem rxValid_of_not_accepts (hut : t ≤ u) (ht : rxValid (machine.run y t) = true)
    (hno : ∀ n, t ≤ n → n < u → accepts (machine.run y n) (y n) = true → (y n).op.cnt = 0#8) :
    rxValid (machine.run y u) = true := by
  induction u, hut using Nat.le_induction with
  | base => exact ht
  | succ u htu ih =>
    have hdone : (machine.run y u).done = true := ih fun n hn hnu => hno n hn (by omega)
    change (edge (machine.run y u) (y u)).done = true
    cases hacc : accepts (machine.run y u) (y u) with
    | true => simp [edge, hacc, hno u htu (Nat.lt_succ_self u) hacc]
    | false => simp [edge, hacc, hdone]

/-- A frame of a byte receives the byte on the data lines. -/
theorem receives (h : ByteFrame k w c y t) : Receives k w c y t := by
  have hframe := h.frameFrom
  have hfin : t < finish k c t := lt_tick.trans_le (Nat.le_add_right _ 4)
  have hbits (q : ℕ) (hq : q < c) (l : ℕ) (hl : l < w) : (rxBits (machine.run y (finish k c t))).getLsbD
      (place (machine.run y (t + 1)).ctrlFmt w c q l) = (y (tick k t q + 3)).dqI.getLsbD (lane w l) := by
    rw [rxBits, hframe.ctrlFmt_eq hfin (Or.inl (Nat.le_refl _)), getLsbD_place h.byte hq hl, h.getLsbD_buffer hq hl]
  refine ⟨?_, fun u htu hu => hframe.not_done htu hu, fun u hu hno => ?_, fun u htu hu => hframe.samples_until htu hu,
    fun q hq => hframe.sck_tick hq, hbits, fun pads hpads q hq l hl => ?_⟩
  · exact (t251_iff.1 (accepts_iff.1 h.accepts).1).2
  · exact rxValid_of_not_accepts hu hframe.done fun n hn hnu => hno n (by omega) hnu
  · rw [hbits q hq l hl, hpads, dqSync_run]

/-- Two beats in which the data lines are 10 and 5. -/
def nibbles (n : ℕ) : Input where
  dqI := if n < 5 then 10#4 else 5#4
  ctrlSck := ⟨0#12, false, false⟩
  ctrlFmt := ⟨2#2, false, false⟩
  opValid := n == 0
  op := ⟨false, true, 2#8, 0#8⟩

theorem receives_nibbles : rxBits (machine.run nibbles (finish reset.ctrlSck 2 0)) = 0xA5#8 ∧
    Receives reset.ctrlSck 4 2 nibbles 0 :=
  ⟨by decide, receives ⟨by decide, rfl, by decide, Width.quad, by decide⟩⟩

end QspiPhysical
