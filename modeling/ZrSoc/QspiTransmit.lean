import ZrSoc.QspiBuffer

/-!
# The byte of a transmitted frame

The data lines of a beat are the upper bits of the buffer when its period is launched, or of the byte itself for the
first beat.  With two data lines `T_193` takes the three bits from bit 5 on in place of the upper two, so that each line
has the bit below its own one; the last line of the last beat has bit 1 of the byte again or, with divisors from 2 on,
the sample that has taken its place (`ByteFrame.buffer_reused`).  The byte is on the lines in the other protocols, and
with two lines only if all its bits are equal (`transmits_iff`).
-/

namespace QspiPhysical

/-- A frame of a byte with the format of its operation, and with the data lines as outputs. -/
structure OutputFrame (k : SckCtrl) (w c : ℕ) (y : ℕ → Input) (t : ℕ) : Prop extends ByteFrame k w c y t where
  ctrlFmt : (machine.run y (t + 1)).ctrlFmt = (y t).ctrlFmt
  iodir : (y t).ctrlFmt.iodir = true

/-- The byte of the frame that is accepted in cycle `t` is on the data lines when SCK changes on the ticks, and no other
line is driven in its periods. -/
structure Transmits (k : SckCtrl) (w c : ℕ) (y : ℕ → Input) (t : ℕ) : Prop where
  sck : ∀ q < c, portSck (machine.run y (tick k t q)) = (k.pha ^^ k.pol) ∧
    portSck (machine.run y (tick k t q + 1)) = !(k.pha ^^ k.pol)
  bits : ∀ q < c, ∀ l < w, (portDqO (machine.run y (tick k t q))).getLsbD l =
    (y t).op.data.getLsbD (place (y t).ctrlFmt w c q l)
  lines : ∀ u, t < u → u ≤ t + 2 * c * half k → ∀ l < 4, (portDqOe (machine.run y u)).getLsbD l = decide (l < w)

/-- The bit of the buffer from which `T_193` takes the data lines. -/
def slot (w : ℕ) : ℕ := if w = 2 then 5 else 8 - w

variable {f : Fmt} {s : State} {x : Input} {k : SckCtrl} {y : ℕ → Input} {p : BitVec 2} {v : BitVec 8}
  {w c i l m q t u : ℕ}

/-! ### The data lines -/

theorem getLsbD_t193 (hw : Width w p) (hl : l < w)
    (hp : if gen21 s then x.ctrlFmt.proto = p else Formatted f s ∧ f.proto = p) :
    (t193 s x).getLsbD l = (if gen21 s then bufferIn x else s.buffer).getLsbD (slot w + l) := by
  have hproto : (if gen21 s then x.ctrlFmt.proto == 0#2 else s.protoS) = (p == 0#2) ∧
      (if gen21 s then x.ctrlFmt.proto == 1#2 else s.protoD) = (p == 1#2) ∧
      (if gen21 s then x.ctrlFmt.proto == 2#2 else s.protoQ) = (p == 2#2) := by
    cases hg : gen21 s with
    | true =>
      rw [hg, if_pos rfl] at hp
      simp [hp]
    | false =>
      rw [hg, if_neg Bool.false_ne_true] at hp
      obtain ⟨hs, rfl⟩ := hp
      simp [hs.protoS, hs.protoD, hs.protoQ]
  obtain ⟨hS, hD, hQ⟩ := hproto
  rw [t193, hS, hD, hQ]
  generalize (if gen21 s then bufferIn x else s.buffer) = b
  cases hw
  · obtain rfl : l = 0 := by omega
    simp [slot]
  · obtain rfl | rfl : l = 0 ∨ l = 1 := by omega
    · simp [slot]
    · simp [slot]
  · simp [slot, hl]

theorem getLsbD_portDqOe (hw : Width w f.proto) (hs : Formatted f s) (hio : f.iodir = true) (hl : l < 4) :
    (portDqOe s).getLsbD l = decide (l < w) := by
  rw [portDqOe, hs.ctrlFmt, hs.protoS, hs.protoD, hs.protoQ, hio]
  generalize f.proto = p at hw
  obtain rfl | rfl | rfl | rfl : l = 0 ∨ l = 1 ∨ l = 2 ∨ l = 3 := by omega
  all_goals cases hw <;> rfl

/-- The data lines stay from the launch of a period to its tick. -/
theorem FrameFrom.txd_eq (h : FrameFrom k c y t) (hq : q < c) (hqu : launch k t q < u) (huq : u ≤ tick k t q) :
    (machine.run y u).txd = t193 (machine.run y (launch k t q)) (y (launch k t q)) := by
  have htq := le_launch (k := k) (t := t) (m := q)
  have hfin := tick_le_finish (k := k) (t := t) hq
  induction u, (show launch k t q + 1 ≤ u from hqu) using Nat.le_induction with
  | base =>
    change (edge (machine.run y (launch k t q)) (y (launch k t q))).txd = _
    simp [edge, (h.gen60_iff htq (by omega)).2 ⟨q, hq, rfl⟩]
  | succ u hle ih =>
    rw [← ih (by omega) (by omega)]
    have hno : gen60 (machine.run y u) (y u) = false := by
      refine Bool.eq_false_iff.2 fun hg => ?_
      -- the next period is launched after the tick
      obtain ⟨m, hm, rfl⟩ := (h.gen60_iff (by omega) (by omega)).1 hg
      have hnext : launch k t (q + 1) = launch k t q + 2 * half k := launch_succ
      rw [tick_eq_launch] at huq
      have hmq := eq_of_launch_between (q := q) hle (by omega)
      rw [hmq] at huq
      omega
    change (edge (machine.run y u) (y u)).txd = _
    simp [edge, hno]

theorem lt_launch (h0 : q ≠ 0) : t < launch k t q := by
  have hhalf := half_pos (k := k)
  have hone : launch k t (0 + 1) = launch k t 0 + 2 * half k := launch_succ
  have hmono : launch k t (0 + 1) ≤ launch k t q := launch_mono (by omega)
  rw [launch_zero] at hone
  omega

/-- The data of a later beat are launched in the last clock of a period. -/
theorem FrameFrom.gen21_launch (h : FrameFrom k c y t) (h0 : q ≠ 0) (hq : q < c) :
    gen21 (machine.run y (launch k t q)) = false := by
  obtain ⟨r, hr⟩ : ∃ r, r + 1 = half k := ⟨k.div.toNat, rfl⟩
  have hbeating := h.beating (j := 2 * q - 1) (r := r) (by omega) (by omega)
  have hclock : t + 1 + ((2 * q - 1) * half k + r) = launch k t q := by
    have hmul : 2 * q * half k = (2 * q - 1) * half k + half k := by
      rw [← Nat.succ_mul, Nat.succ_eq_add_one, Nat.sub_add_cancel (by omega)]
    rw [launch]
    omega
  rw [hclock] at hbeating
  rw [hbeating.gen21_eq]
  exact decide_eq_false (by omega)

/-! ### The buffer when a period is launched -/

namespace ByteFrame

variable (h : ByteFrame k w c y t)

include h

/-- From one launch to the next the buffer moves after the launch only. -/
theorem shifts_launch (hqc : q + 1 < c) (hqu : launch k t q + 1 < u) (huq : u ≤ launch k t (q + 1) + 1) :
    shifts (machine.run y u) = true ↔ u = launch k t (q + 1) + 1 := by
  have hlt := launch_lt_finish (k := k) (t := t) hqc
  have htq := le_launch (k := k) (t := t) (m := q)
  rw [h.shifts_iff (by omega) (by omega)]
  constructor
  · rintro (⟨m, hm, rfl⟩ | ⟨-, rfl⟩)
    · rw [eq_of_launch_between (Nat.lt_of_add_lt_add_right hqu) (Nat.le_of_add_le_add_right huq)]
    · have hmono := launch_mono (k := k) (t := t) (show q + 1 ≤ c - 1 by omega)
      rw [tick_eq_launch] at huq
      omega
  · exact fun hu => Or.inl ⟨q + 1, hqc, hu⟩

theorem buffer_start : (machine.run y (t + 1)).buffer = bufferIn (y t) := by
  change (edge (machine.run y t) (y t)).buffer = _
  simp [edge, h.accepts]

/-- When period `q` is launched the byte has moved by `q * w` bits. -/
theorem getLsbD_buffer_launch (h0 : q ≠ 0) (hq : q < c) (hi : q * w ≤ i) (hi8 : i < 8) :
    (machine.run y (launch k t q)).buffer.getLsbD i = (bufferIn (y t)).getLsbD (i - q * w) := by
  obtain ⟨q, rfl⟩ : ∃ r, q = r + 1 := ⟨q - 1, by omega⟩
  have hfin := launch_lt_finish (k := k) (t := t) hq
  have hhalf := half_pos (k := k)
  have hstart : launch k t 0 = t := launch_zero
  have hsucc (m : ℕ) : launch k t m + 2 * half k = launch k t (m + 1) := launch_succ.symm
  have hq1 := hsucc q
  rw [← h.buffer_start]
  refine h.shiftsIn.shifted (c := q + 1) (p := fun m => launch k t m + 1) (by rw [hstart]) ?_ (fun m hm => ?_)
    (fun m hm u hmu hum => h.shifts_launch (by omega) hmu hum) (Nat.lt_succ_self q) (by omega) (fun u hu hu' => ?_)
    (by omega) hi hi8
  · have hlt := launch_lt_finish (k := k) (t := t) (show 0 < c by omega)
    exact (h.shifts_iff (Nat.lt_succ_self t) (by omega)).2 (Or.inl ⟨0, by omega, by rw [hstart]⟩)
  · have hm1 := hsucc m
    have htm := le_launch (k := k) (t := t) (m := m)
    exact ⟨by omega, by omega⟩
  · exact Bool.eq_false_iff.2 fun hs => absurd ((h.shifts_launch hq hu (by omega)).1 hs) (by omega)

/-- From one launch to the next the upper bits are those that the buffer had when it moved. -/
theorem getLsbD_buffer_moved (hq : q + 2 < c) (hqu : launch k t (q + 1) + 1 < u) (huq : u ≤ launch k t (q + 2) + 1)
    (hw : w ≤ i) (hi : i < 8) : (machine.run y u).buffer.getLsbD i =
      (machine.run y (launch k t (q + 1) + 1)).buffer.getLsbD (i - w) := by
  have hfin := launch_lt_finish (k := k) (t := t) hq
  have hhalf := half_pos (k := k)
  have htq := le_launch (k := k) (t := t) (m := q)
  have hq1 : launch k t (q + 1) = launch k t q + 2 * half k := launch_succ
  refine h.shiftsIn.moved (m := launch k t q + 2) (p := launch k t (q + 1) + 1) (by omega) (by omega) (by omega) hqu
    (fun n hn hnu => ?_) hw hi
  rcases Nat.lt_or_ge (launch k t (q + 1) + 1) n with hlt | hge
  · have hnext : shifts (machine.run y n) = true ↔ n = launch k t (q + 2) + 1 :=
      h.shifts_launch hq hlt (show n ≤ launch k t (q + 2) + 1 by omega)
    rw [hnext]
    omega
  · exact h.shifts_launch (by omega) (by omega) hge

/-- Up to the second launch there is one sample, if any. -/
theorem first_sample (hc : 1 < c) (htu : t < u) (hu : u ≤ launch k t 1) :
    (machine.run y u).sampleD = true ↔ u = t + half k + 3 := by
  have hfin := launch_lt_finish (k := k) (t := t) hc
  have hfirst : tick k t 0 = t + half k := by rw [tick_eq_launch, launch_zero]
  rw [h.frameFrom.sampleD_iff htu (by omega)]
  constructor
  · rintro ⟨q, hq, rfl⟩
    obtain rfl | hq1 : q = 0 ∨ 1 ≤ q := by omega
    · rw [hfirst]
    · have hmono := launch_mono (k := k) (t := t) hq1
      rw [tick_eq_launch] at hu
      omega
  · exact fun hu => ⟨0, by omega, by rw [hfirst, hu]⟩

/-- When the second period is launched the lower bits are those of the byte, or have been sampled. -/
theorem getLsbD_buffer_low (hc : 1 < c) (hl : l < w) : (machine.run y (launch k t 1 + 1)).buffer.getLsbD l =
    if half k < 3 then (bufferIn (y t)).getLsbD l else (y (t + half k + 3)).dqI.getLsbD (lane w l) := by
  have hfin := launch_lt_finish (k := k) (t := t) hc
  have h1 : launch k t 1 = launch k t 0 + 2 * half k := launch_succ
  rw [launch_zero] at h1
  have hhalf := half_pos (k := k)
  have hquiet (v : ℕ) (htv : t < v) (hv : v ≤ launch k t 1) (hne : v ≠ t + half k + 3) :
      (machine.run y v).sampleD = false := Bool.eq_false_iff.2 fun hs => hne ((h.first_sample hc htv hv).1 hs)
  rw [← h.buffer_start]
  split
  next hdiv =>
    exact h.shiftsIn.low_of_quiet (m := t + 1) (by omega) (by omega) (by omega)
      (fun v hv hv' => hquiet v hv (by omega) (by omega)) hl
  next hdiv =>
    have hlater : (machine.run y (launch k t 1 + 1)).buffer.getLsbD l =
        (machine.run y (t + half k + 4)).buffer.getLsbD l :=
      h.shiftsIn.low_of_quiet (m := t + half k + 4) (by omega) (by omega) (by omega)
        (fun v hv hv' => hquiet v (by omega) (by omega) (by omega)) hl
    have htaken := h.shiftsIn.low (t + half k + 3) (by omega) (by omega) l hl
    rw [if_pos ((h.first_sample hc (by omega) (by omega)).2 rfl)] at htaken
    rw [hlater]
    exact htaken

/-- With two data lines the last line of the last beat has bit 1 of the byte, or what was sampled in its place. -/
theorem buffer_reused (hw : w = 2) (hc : c = 4) : (machine.run y (launch k t 3)).buffer.getLsbD 5 =
    if half k < 3 then (bufferIn (y t)).getLsbD 1 else (y (t + half k + 3)).dqI.getLsbD 1 := by
  subst hw hc
  have hhalf := half_pos (k := k)
  have h2 : launch k t 2 = launch k t 1 + 2 * half k := launch_succ
  have h3 : launch k t 3 = launch k t 2 + 2 * half k := launch_succ
  have hmoved : (machine.run y (launch k t 3)).buffer.getLsbD 5 =
      (machine.run y (launch k t 2 + 1)).buffer.getLsbD 3 :=
    h.getLsbD_buffer_moved (q := 1) (by omega) (show launch k t 2 + 1 < _ by omega) (Nat.le_succ _) (by omega)
      (by omega)
  have hmoved' : (machine.run y (launch k t 2 + 1)).buffer.getLsbD 3 =
      (machine.run y (launch k t 1 + 1)).buffer.getLsbD 1 :=
    h.getLsbD_buffer_moved (q := 0) (by omega) (show launch k t 1 + 1 < _ by omega) (Nat.le_refl _) (by omega)
      (by omega)
  rw [hmoved, hmoved', h.getLsbD_buffer_low (by omega) (by omega)]
  rfl

end ByteFrame

/-! ### The byte -/

theorem rev8_rev8 : rev8 (rev8 v) = v := by
  refine BitVec.eq_of_getLsbD_eq fun i hi => ?_
  have htwice := getLsbD_rev8 (v := rev8 v) (show 7 - i < 8 by omega)
  rw [show 7 - (7 - i) = i by omega] at htwice
  rw [htwice, getLsbD_rev8 hi]

/-- The buffer has the byte in the order of the format. -/
theorem getLsbD_data (hcw : c * w = 8) (hq : q < c) (hl : l < w) : x.op.data.getLsbD (place x.ctrlFmt w c q l) =
    (bufferIn x).getLsbD ((c - 1 - q) * w + l) := by
  have hdata : (if x.ctrlFmt.endian then rev8 (bufferIn x) else bufferIn x) = x.op.data := by
    rw [bufferIn]
    cases x.ctrlFmt.endian with
    | true => exact rev8_rev8
    | false => rfl
  have hplace := getLsbD_place (f := x.ctrlFmt) (v := bufferIn x) hcw hq hl
  rwa [hdata] at hplace

/-- The bytes with equal bits. -/
theorem eq_zero_or_ones_iff : v = 0#8 ∨ v = 255#8 ↔ ∀ i < 7, v.getLsbD i = v.getLsbD (i + 1) := by
  constructor
  · rintro (rfl | rfl) i hi
    · simp
    · obtain rfl | rfl | rfl | rfl | rfl | rfl | rfl : i = 0 ∨ i = 1 ∨ i = 2 ∨ i = 3 ∨ i = 4 ∨ i = 5 ∨ i = 6 := by omega
      all_goals rfl
  · intro hv
    have hall (i : ℕ) (hi : i < 8) : v.getLsbD i = v.getLsbD 0 := by
      induction i with
      | zero => rfl
      | succ i ih => rw [← hv i (by omega), ih (by omega)]
    cases h0 : v.getLsbD 0 with
    | false => exact Or.inl (BitVec.eq_of_getLsbD_eq fun i hi => by rw [hall i hi, h0, BitVec.getLsbD_zero])
    | true =>
      refine Or.inr (BitVec.eq_of_getLsbD_eq fun i hi => ?_)
      rw [hall i hi, h0, show 255#8 = BitVec.allOnes 8 from rfl, BitVec.getLsbD_allOnes, decide_eq_true hi]

theorem rev8_of_equal (hv : v = 0#8 ∨ v = 255#8) : rev8 v = v := by
  rcases hv with rfl | rfl <;> rfl

/-- A byte with equal bits is the same in both orders. -/
theorem bufferIn_of_equal (hv : x.op.data = 0#8 ∨ x.op.data = 255#8) : bufferIn x = x.op.data := by
  rw [bufferIn, rev8_of_equal hv, ite_self]

theorem data_of_equal (hv : bufferIn x = 0#8 ∨ bufferIn x = 255#8) : x.op.data = bufferIn x := by
  rw [bufferIn] at hv ⊢
  cases he : x.ctrlFmt.endian with
  | false => rfl
  | true =>
    rw [he] at hv
    have hrev := rev8_of_equal hv
    exact rev8_rev8.symm.trans hrev

namespace OutputFrame

variable (h : OutputFrame k w c y t)

include h

/-- The first beat has the byte as it is accepted, the others have the buffer. -/
theorem getLsbD_txd (hq : q < c) (hl : l < w) : (machine.run y (tick k t q)).txd.getLsbD l =
    (if q = 0 then bufferIn (y t) else (machine.run y (launch k t q)).buffer).getLsbD (slot w + l) := by
  have hframe := h.toByteFrame.frameFrom
  have hhalf := half_pos (k := k)
  have htick : tick k t q = launch k t q + half k := tick_eq_launch
  have hproto := h.width
  rw [h.ctrlFmt] at hproto
  rw [hframe.txd_eq hq (by omega) (Nat.le_refl _)]
  by_cases h0 : q = 0
  · have hgen := (t251_iff.1 (accepts_iff.1 h.accepts).1).1
    rw [h0, launch_zero, getLsbD_t193 (f := (y t).ctrlFmt) hproto hl (by rw [if_pos hgen]), if_pos hgen, if_pos rfl]
  · have hgen := hframe.gen21_launch h0 hq
    have hlt := launch_lt_finish (k := k) (t := t) hq
    have hformatted := h.toByteFrame.formatted (lt_launch h0) (Or.inl (Nat.lt_of_succ_lt hlt).le)
    rw [h.ctrlFmt] at hformatted
    rw [getLsbD_t193 (f := (y t).ctrlFmt) hproto hl (by rw [hgen, if_neg Bool.false_ne_true]; exact ⟨hformatted, rfl⟩),
      hgen, if_neg Bool.false_ne_true, if_neg h0]

/-- As long as the byte has not left the buffer, a line has a bit of it. -/
theorem getLsbD_txd_of_le (hq : q < c) (hl : l < w) (hle : q * w ≤ slot w + l) :
    (machine.run y (tick k t q)).txd.getLsbD l = (bufferIn (y t)).getLsbD (slot w + l - q * w) := by
  have hslot : slot w + l < 8 := by
    rcases h.beats with ⟨rfl, -⟩ | ⟨rfl, -⟩ | ⟨rfl, -⟩ <;> rw [slot] <;> split <;> omega
  rw [h.getLsbD_txd hq hl]
  by_cases h0 : q = 0
  · rw [if_pos h0, h0, Nat.zero_mul, Nat.sub_zero]
  · rw [if_neg h0, h.toByteFrame.getLsbD_buffer_launch h0 hq hle hslot]

/-- With one or four data lines each line has its bit of the byte. -/
theorem getLsbD_txd_of_ne (hw : w ≠ 2) (hq : q < c) (hl : l < w) :
    (machine.run y (tick k t q)).txd.getLsbD l = (bufferIn (y t)).getLsbD ((c - 1 - q) * w + l) := by
  have hslot : slot w = 8 - w := if_neg hw
  have hbyte := h.byte
  have hle : (q + 1) * w ≤ c * w := Nat.mul_le_mul_right w hq
  rw [Nat.succ_mul q] at hle
  have hpos : slot w + l - q * w = (c - 1 - q) * w + l := by
    rw [hslot, Nat.sub_mul, Nat.sub_mul, Nat.one_mul]
    omega
  rw [h.getLsbD_txd_of_le hq hl (by omega), hpos]

/-- With two data lines each line has the bit below its own one. -/
theorem getLsbD_txd_dual (hw : w = 2) (hc : c = 4) (hq : q < 4) (hl : l < 2) :
    (machine.run y (tick k t q)).txd.getLsbD l =
      if (4 - 1 - q) * 2 + l = 0 then
        if half k < 3 then (bufferIn (y t)).getLsbD 1 else (y (t + half k + 3)).dqI.getLsbD 1
      else (bufferIn (y t)).getLsbD ((4 - 1 - q) * 2 + l - 1) := by
  subst hw hc
  split
  next h0 =>
    obtain ⟨rfl, rfl⟩ : q = 3 ∧ l = 0 := by omega
    rw [h.getLsbD_txd hq hl]
    exact h.toByteFrame.buffer_reused rfl rfl
  next h0 =>
    have hle : q * 2 ≤ slot 2 + l := by rw [slot, if_pos rfl]; omega
    rw [h.getLsbD_txd_of_le hq hl hle, slot, if_pos rfl]
    exact congrArg _ (by omega)

theorem transmits_of_bits (hbits : ∀ q < c, ∀ l < w, (machine.run y (tick k t q)).txd.getLsbD l =
    (bufferIn (y t)).getLsbD ((c - 1 - q) * w + l)) : Transmits k w c y t := by
  have hframe := h.toByteFrame.frameFrom
  refine ⟨fun q hq => hframe.sck_tick hq, fun q hq l hl => ?_, fun u htu hu l hl => ?_⟩
  · rw [portDqO, hbits q hq l hl, getLsbD_data h.byte hq hl]
  · have hformatted := h.toByteFrame.formatted htu (Or.inr hu)
    have hwidth := h.width
    rw [h.ctrlFmt] at hformatted hwidth
    exact getLsbD_portDqOe hwidth hformatted h.iodir hl

/-- With two data lines the byte must have equal bits, and the sample must be one of them. -/
theorem dual_iff (hw : w = 2) (hc : c = 4) : (∀ q < c, ∀ l < w, (machine.run y (tick k t q)).txd.getLsbD l =
    (bufferIn (y t)).getLsbD ((c - 1 - q) * w + l)) ↔ ((y t).op.data = 0#8 ∨ (y t).op.data = 255#8) ∧
      (half k < 3 ∨ (y (t + half k + 3)).dqI.getLsbD 1 = (y t).op.data.getLsbD 0) := by
  have hdual (q : ℕ) (hq : q < 4) (l : ℕ) (hl : l < 2) := h.getLsbD_txd_dual hw hc hq hl
  subst hw hc
  constructor
  · intro hbits
    have hequal : bufferIn (y t) = 0#8 ∨ bufferIn (y t) = 255#8 := by
      refine eq_zero_or_ones_iff.2 fun i hi => ?_
      have hbit := hbits (3 - (i + 1) / 2) (by omega) ((i + 1) % 2) (by omega)
      have hpos : (4 - 1 - (3 - (i + 1) / 2)) * 2 + (i + 1) % 2 = i + 1 := by omega
      rwa [hdual _ (by omega) _ (by omega), hpos, if_neg (by omega), Nat.add_sub_cancel] at hbit
    have hlast := hbits 3 (by omega) 0 (by omega)
    rw [hdual 3 (by omega) 0 (by omega), if_pos rfl] at hlast
    rw [data_of_equal hequal]
    refine ⟨hequal, ?_⟩
    by_cases hdiv : half k < 3
    · exact Or.inl hdiv
    · rw [if_neg hdiv] at hlast
      exact Or.inr hlast
  · rintro ⟨hequal, hlast⟩ q hq l hl
    have hdata := bufferIn_of_equal hequal
    rw [← hdata] at hequal hlast
    have hnext := eq_zero_or_ones_iff.1 hequal
    rw [hdual q hq l hl]
    obtain h0 | ⟨i, hi⟩ : (4 - 1 - q) * 2 + l = 0 ∨ ∃ i, (4 - 1 - q) * 2 + l = i + 1 := by
      cases (4 - 1 - q) * 2 + l with
      | zero => exact Or.inl rfl
      | succ i => exact Or.inr ⟨i, rfl⟩
    · rw [h0, if_pos rfl]
      split
      · exact (hnext 0 (by omega)).symm
      next hdiv => exact hlast.resolve_left hdiv
    · rw [hi, if_neg (Nat.succ_ne_zero i), Nat.add_sub_cancel]
      exact hnext i (by omega)

end OutputFrame

/-- A frame transmits its byte unless it has two data lines, and then for the bytes with equal bits, if the second line
agrees where it is sampled too early. -/
theorem transmits_iff (h : OutputFrame k w c y t) : Transmits k w c y t ↔
    w ≠ 2 ∨ ((y t).op.data = 0#8 ∨ (y t).op.data = 255#8) ∧
      (half k < 3 ∨ (y (t + half k + 3)).dqI.getLsbD 1 = (y t).op.data.getLsbD 0) := by
  by_cases hw : w = 2
  · have hc : c = 4 := by
      have hbyte := h.byte
      rw [hw] at hbyte
      omega
    rw [← h.dual_iff hw hc]
    refine ⟨fun ht => Or.inr fun q hq l hl => ?_,
      fun hbits => h.transmits_of_bits (hbits.resolve_left (not_not_intro hw))⟩
    rw [← getLsbD_data h.byte hq hl]
    exact ht.bits q hq l hl
  · exact iff_of_true (h.transmits_of_bits fun q hq l hl => h.getLsbD_txd_of_ne hw hq hl) (Or.inl hw)

/-- One dual frame. -/
def dualFrame (data : BitVec 8) (n : ℕ) : Input where
  dqI := 0#4
  ctrlSck := ⟨0#12, false, false⟩
  ctrlFmt := ⟨1#2, false, true⟩
  opValid := n == 0
  op := ⟨false, true, 4#8, data⟩

theorem outputFrame_dualFrame (data : BitVec 8) : OutputFrame reset.ctrlSck 2 4 (dualFrame data) 0 :=
  ⟨⟨rfl, rfl, rfl, Width.dual, rfl⟩, rfl, rfl⟩

/-- In the first beat the lines 1 and 0 are low, and line 2, which is not driven, has the highest bit of the byte. -/
theorem not_transmits_dual : OutputFrame reset.ctrlSck 2 4 (dualFrame 0x80#8) 0 ∧
    portDqO (machine.run (dualFrame 0x80#8) (tick reset.ctrlSck 0 0)) = 4#4 ∧
    ¬ Transmits reset.ctrlSck 2 4 (dualFrame 0x80#8) 0 :=
  ⟨outputFrame_dualFrame _, by decide, fun h => absurd (h.bits 0 (by decide) 1 (by decide)) (by decide)⟩

/-- One quad frame, with the low bits first. -/
def quadFrame (data : BitVec 8) (n : ℕ) : Input where
  dqI := 0#4
  ctrlSck := ⟨0#12, false, false⟩
  ctrlFmt := ⟨2#2, true, true⟩
  opValid := n == 0
  op := ⟨false, true, 2#8, data⟩

theorem outputFrame_quadFrame (data : BitVec 8) : OutputFrame reset.ctrlSck 4 2 (quadFrame data) 0 :=
  ⟨⟨rfl, rfl, rfl, Width.quad, rfl⟩, rfl, rfl⟩

theorem transmits_dual_ones : Transmits reset.ctrlSck 2 4 (dualFrame 0xFF#8) 0 ∧
    Transmits reset.ctrlSck 4 2 (quadFrame 0x4D#8) 0 :=
  ⟨(transmits_iff (outputFrame_dualFrame _)).2 (Or.inr ⟨Or.inr rfl, Or.inl (by decide)⟩),
    (transmits_iff (outputFrame_quadFrame _)).2 (Or.inl (by decide))⟩

end QspiPhysical
