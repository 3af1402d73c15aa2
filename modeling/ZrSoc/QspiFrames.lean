import ZrSoc.QspiEngine

/-!
# The bytes of the bit engine without an SCK configuration

What a frame does with the data: the byte of a single frame is on the data line when SCK rises (`txd_of_accepts`), and
the buffer holds the samples of a frame of eight bits after it (`buffer_of_accepts`).  The pipeline of the samples takes
three clocks, so that sample `k` of the frame accepted in cycle `t` is taken in cycle `t + 4 + 2 * k`.
-/

namespace QspiPhysical

/-- The beats of a byte with `w` data lines. -/
inductive Width : ℕ → BitVec 2 → Prop
  | single : Width 1 0#2
  | dual : Width 2 1#2
  | quad : Width 4 2#2

theorem Width.beats {w c : ℕ} {p : BitVec 2} (hw : Width w p) (hcw : c * w = 8) :
    w = 1 ∧ c = 8 ∨ w = 2 ∧ c = 4 ∨ w = 4 ∧ c = 2 := by
  cases hw <;> omega

/-- The data line of bit `l` of a sample. -/
def lane (w l : ℕ) : ℕ := if w = 1 then 1 else l

/-- The engine uses the format `f`. -/
structure Formatted (f : Fmt) (s : State) : Prop where
  ctrlFmt : s.ctrlFmt = f
  protoS : s.protoS = (f.proto == 0#2)
  protoD : s.protoD = (f.proto == 1#2)
  protoQ : s.protoQ = (f.proto == 2#2)

/-- No sample is in the pipeline. -/
structure Empty (s : State) : Prop where
  t119 : s.t119 = false
  t120 : s.t120 = false
  sampleD : s.sampleD = false

/-- The pipeline is empty when the engine is idle. -/
inductive Flowing (s : State) : Prop
  | idle (h : Idle s) (he : Empty s)
  | shifting (c j : ℕ) (h : Shifting c j s)
  | draining (h : Draining 0 s) (ht : s.t119 = false)
  | last (h : Draining 1 s) (ht : s.t119 = false) (ht' : s.t120 = false)

variable {s : State} {x : Input} {f : Fmt} {w c j k m n t u : ℕ}

theorem flowing_reset : Flowing reset := Flowing.idle idle_reset ⟨rfl, rfl, rfl⟩

/-- An idle engine puts nothing into the pipeline. -/
theorem Empty.next (he : Empty s) (h : Idle s) : Empty (edge s x) :=
  ⟨h.samples_eq, he.t119, he.t120⟩

theorem Flowing.next (hf : Flowing s) (hx : NoStrobedDelay x) : Flowing (edge s x) := by
  cases hf with
  | idle h he =>
    cases ha : accepts s x with
    | false => exact Flowing.idle (h.next hx ha) (he.next h)
    | true =>
      have hs := h.start ha rfl
      split at hs
      · exact Flowing.idle hs (he.next h)
      · exact Flowing.shifting _ _ hs
  | shifting c j h =>
    have hs := h.next (x := x)
    split at hs
    next hlast =>
      have hcref : s.cref = false := by
        rw [h.cref]
        exact decide_eq_false (by omega)
      exact Flowing.draining hs (by simp [edge, samples, hcref])
    next => exact Flowing.shifting _ _ hs
  | draining h ht =>
    have hstop : stop s = true := by simp [stop, h.scnt]
    exact Flowing.last h.next (by simp [edge, samples, hstop]) ht
  | last h ht ht' =>
    have hstop : stop s = true := by simp [stop, h.scnt]
    exact Flowing.idle h.last ⟨by simp [edge, samples, hstop], ht, ht'⟩

theorem Flowing.empty (hf : Flowing s) (h : Idle s) : Empty s := by
  have hdone := h.done
  cases hf with
  | idle _ he => exact he
  | shifting c j h' => simp [h'.done] at hdone
  | draining h' => simp [h'.done] at hdone
  | last h' => simp [h'.done] at hdone

/-! ### The shift register -/

/-- A buffer that moves by `w` bits, or not, above the bits `v`. -/
private theorem getLsbD_shifted (b : BitVec 8) (sh : Bool) (v : BitVec w) (hw : w ≤ 8) {i : ℕ} (hi : i < 8) :
    ((if sh then b.extractLsb' 0 (8 - w) else b.extractLsb' w (8 - w)) ++ v).getLsbD i =
      if i < w then v.getLsbD i else if sh then b.getLsbD (i - w) else b.getLsbD i := by
  rw [BitVec.getLsbD_append]
  by_cases h : i < w
  · rw [if_pos h, if_pos h]
  · have hlt : i - w < 8 - w := by omega
    have hadd : w + (i - w) = i := by omega
    rw [if_neg h, if_neg h]
    cases sh <;> simp [hlt, hadd]

/-- What the buffer becomes without a new byte: the samples enter at its end, and it moves by `w` bits. -/
theorem getLsbD_t179 (hw : Width w f.proto) (hs : Formatted f s) {i : ℕ} (hi : i < 8) :
    (t179 s x).getLsbD i =
      if i < w then (if s.sampleD then x.dqI.getLsbD (lane w i) else s.buffer.getLsbD i)
      else if shifts s then s.buffer.getLsbD (i - w) else s.buffer.getLsbD i := by
  have hS := hs.protoS
  have hD := hs.protoD
  have hQ := hs.protoQ
  rw [t179, hS, hD, hQ]
  generalize f.proto = p at hw
  -- one of the three parts of the buffer is not masked
  cases hw
  · simp only [show ((0#2 : BitVec 2) == 0#2) = true from rfl, show ((0#2 : BitVec 2) == 1#2) = false from rfl,
      show ((0#2 : BitVec 2) == 2#2) = false from rfl, mask_true_and, mask_false_and, BitVec.or_zero]
    refine (getLsbD_shifted (w := 1) s.buffer (shifts s) _ (by omega) hi).trans ?_
    by_cases h : i < 1
    · obtain rfl : i = 0 := by omega
      cases s.sampleD <;> simp [lane]
    · rw [if_neg h, if_neg h]
  · simp only [show ((1#2 : BitVec 2) == 0#2) = false from rfl, show ((1#2 : BitVec 2) == 1#2) = true from rfl,
      show ((1#2 : BitVec 2) == 2#2) = false from rfl, mask_true_and, mask_false_and, BitVec.or_zero, BitVec.zero_or]
    refine (getLsbD_shifted (w := 2) s.buffer (shifts s) _ (by omega) hi).trans ?_
    by_cases h : i < 2
    · rw [if_pos h, if_pos h]
      cases s.sampleD <;> simp [lane, h]
    · rw [if_neg h, if_neg h]
  · simp only [show ((2#2 : BitVec 2) == 0#2) = false from rfl, show ((2#2 : BitVec 2) == 1#2) = false from rfl,
      show ((2#2 : BitVec 2) == 2#2) = true from rfl, mask_true_and, mask_false_and, BitVec.zero_or]
    refine (getLsbD_shifted (w := 4) s.buffer (shifts s) _ (by omega) hi).trans ?_
    by_cases h : i < 4
    · rw [if_pos h, if_pos h]
      cases s.sampleD <;> simp [lane, h]
    · rw [if_neg h, if_neg h]

/-! ### The pipeline in a frame -/

theorem Shifting.samples_eq (h : Shifting c j s) : samples s = decide (j % 2 = 0) := by
  simp [samples, beat, h.tcnt, h.stop_eq, h.xfr, h.cref]

theorem Shifting.gen60_eq (h : Shifting c j s) : gen60 s x = decide (j % 2 = 1 ∧ j + 1 < 2 * c) := by
  have hlt := h.lt
  obtain ⟨-, ha, hbeat, hstop, hone⟩ := h.signals (x := x)
  rw [Bool.eq_iff_iff]
  simp [gen60, ha, hbeat, hstop, hone, crefRise, h.xfr, h.cref]
  omega

theorem Draining.gen60_eq (h : Draining k s) : gen60 s x = false := by
  have hready : t251 s = false := h.not_ready
  simp [gen60, accepts, stop, hready, h.scnt]

/-- A new format comes with a strobe only. -/
theorem Formatted.next (hs : Formatted f s) (hst : strobes s x = false) : Formatted f (edge s x) := by
  refine ⟨?_, ?_, ?_, ?_⟩ <;> simp [edge, hst, hs.ctrlFmt, hs.protoS, hs.protoD, hs.protoQ]

theorem formatted_of_strobes (hst : strobes s x = true) : Formatted x.ctrlFmt (edge s x) := by
  refine ⟨?_, ?_, ?_, ?_⟩ <;> simp [edge, hst]

/-! ### The data of a frame -/

section Frame

variable {y : ℕ → Input} (hy : ∀ n, NoStrobedDelay (y n)) (ha : accepts (machine.run y t) (y t) = true)
  (hc : (y t).op.cnt.toNat = c) (h0 : c ≠ 0)

theorem flowing (hy : ∀ n, NoStrobedDelay (y n)) (n : ℕ) : Flowing (machine.run y n) := by
  induction n with
  | zero => exact flowing_reset
  | succ n ih => exact ih.next (hy n)

include hy ha hc h0 in
/-- The format of a frame is used until its end. -/
theorem formatted_of_accepts (hstb : (y t).op.stb = true) (hj : j ≤ 2 * c + 2) :
    Formatted (y t).ctrlFmt (machine.run y (t + 1 + j)) := by
  induction j with
  | zero =>
    refine formatted_of_strobes ?_
    simp only [accepts, Bool.and_eq_true] at ha
    simp [strobes, ha.1.1, ha.1.2, hstb]
  | succ j ih =>
    have hready := not_ready_of_accepts hy ha hc h0 (u := t + 1 + j) (by omega) (by omega)
    refine (ih (by omega)).next ?_
    simp [strobes, show t251 (machine.run y (t + 1 + j)) = false from hready]

include hy ha hc h0 in
/-- The data are launched in every second clock. -/
theorem setupD_of_accepts (hj : j ≤ 2 * c + 2) :
    (machine.run y (t + 1 + j)).setupD = decide (j % 2 = 0 ∧ j < 2 * c) := by
  cases j with
  | zero =>
    have hg : gen60 (machine.run y t) (y t) = true := by simp [gen60, ha]
    change gen60 (machine.run y t) (y t) = _
    rw [hg]
    exact (decide_eq_true (by omega)).symm
  | succ j =>
    change gen60 (machine.run y (t + 1 + j)) (y (t + 1 + j)) = _
    obtain hlt | hle := Nat.lt_or_ge j (2 * c)
    · rw [(shifting_of_accepts hy ha hc hlt).gen60_eq]
      exact decide_eq_decide.2 (by omega)
    · obtain ⟨hd0, hd1, -⟩ := draining_of_accepts hy ha hc h0
      obtain rfl | rfl : j = 2 * c ∨ j = 2 * c + 1 := by omega
      · rw [hd0.gen60_eq]
        exact (decide_eq_false (by omega)).symm
      · rw [show t + 1 + (2 * c + 1) = t + 2 + 2 * c by omega, hd1.gen60_eq]
        exact (decide_eq_false (by omega)).symm

include hy ha hc in
/-- The samples leave the pipeline in the other clocks, from the second period on. -/
theorem sampleD_of_accepts (hj : j ≤ 2 * c + 2) :
    (machine.run y (t + 1 + j)).sampleD = decide (j % 2 = 1 ∧ 3 ≤ j) := by
  have he := (flowing hy t).empty (idle_of_accepts hy ha)
  match j with
  | 0 => exact he.t120
  | 1 => exact he.t119
  | 2 => exact (idle_of_accepts hy ha).samples_eq
  | j + 3 =>
    change samples (machine.run y (t + 1 + j)) = _
    rw [(shifting_of_accepts hy ha hc (by omega)).samples_eq]
    exact decide_eq_decide.2 (by omega)

include hy ha hc h0 in
theorem shifts_of_accepts (hj : j ≤ 2 * c + 1) :
    shifts (machine.run y (t + 1 + j)) = decide (j % 2 = 0 ∧ j < 2 * c ∨ j = 2 * c + 1) := by
  rw [shifts, setupD_of_accepts hy ha hc h0 (by omega), sampleD_of_accepts hy ha hc (by omega)]
  obtain ⟨hd0, hd1, -⟩ := draining_of_accepts hy ha hc h0
  obtain hlt | rfl | rfl : j < 2 * c ∨ j = 2 * c ∨ j = 2 * c + 1 := by omega
  · rw [(shifting_of_accepts hy ha hc hlt).stop_eq, Bool.and_false, Bool.or_false]
    exact decide_eq_decide.2 (by omega)
  · rw [Bool.eq_iff_iff]
    simp
  · rw [show t + 1 + (2 * c + 1) = t + 2 + 2 * c by omega, stop, hd1.scnt, Bool.eq_iff_iff]
    simp
    omega

variable (hstb : (y t).op.stb = true) (hw : Width w (y t).ctrlFmt.proto)

include hy ha hc h0 hstb hw in
/-- What a clock edge in a frame does to the buffer. -/
theorem getLsbD_buffer_succ (hj : j ≤ 2 * c + 1) {i : ℕ} (hi : i < 8) :
    (machine.run y (t + 1 + j + 1)).buffer.getLsbD i =
      if i < w then
        (if j % 2 = 1 ∧ 3 ≤ j then (y (t + 1 + j)).dqI.getLsbD (lane w i)
          else (machine.run y (t + 1 + j)).buffer.getLsbD i)
      else if j % 2 = 0 ∧ j < 2 * c ∨ j = 2 * c + 1 then (machine.run y (t + 1 + j)).buffer.getLsbD (i - w)
      else (machine.run y (t + 1 + j)).buffer.getLsbD i := by
  have hready := not_ready_of_accepts hy ha hc h0 (u := t + 1 + j) (by omega) (by omega)
  have hacc : accepts (machine.run y (t + 1 + j)) (y (t + 1 + j)) = false := by
    simp [accepts, show t251 (machine.run y (t + 1 + j)) = false from hready]
  have hbuf : (machine.run y (t + 1 + j + 1)).buffer = t179 (machine.run y (t + 1 + j)) (y (t + 1 + j)) := by
    change (edge (machine.run y (t + 1 + j)) (y (t + 1 + j))).buffer = _
    simp only [edge, hacc, Bool.false_eq_true, ↓reduceIte]
  rw [hbuf, getLsbD_t179 hw (formatted_of_accepts hy ha hc h0 hstb (by omega)) hi, shifts_of_accepts hy ha hc h0 hj,
    sampleD_of_accepts hy ha hc (by omega)]
  simp only [decide_eq_true_eq]

end Frame

/-! ### Between two frames -/

/-- The engine keeps the bytes of the last frame, which had the format `f`. -/
structure Kept (f : Fmt) (s : State) : Prop where
  idle : Idle s
  empty : Empty s
  setupD : s.setupD = false
  formatted : Formatted f s

theorem Kept.next (h : Kept f s) (hw : Width w f.proto) (hx : NoStrobedDelay x) (ha : accepts s x = false) :
    Kept f (edge s x) ∧ (edge s x).buffer = s.buffer := by
  have hst : strobes s x = false := by
    rw [NoStrobedDelay] at hx
    rw [accepts] at ha
    rw [strobes]
    cases h1 : t251 s <;> cases h2 : x.opValid <;> cases h3 : x.op.stb <;> simp_all
  have hshift : shifts s = false := by simp [shifts, h.setupD, h.empty.sampleD]
  have hxfr : (!stop s && s.xfr) = false := by
    by_cases hs : s.scnt = 0#8
    · simp [stop, hs]
    · simp [h.idle.xfr hs]
  refine ⟨⟨h.idle.next hx ha, h.empty.next h.idle, ?_, h.formatted.next hst⟩, ?_⟩
  · rw [edge]
    cases hstop : stop s <;> simp_all [gen60]
  · refine BitVec.eq_of_getLsbD_eq fun i hi => ?_
    simp only [edge, ha, Bool.false_eq_true, ↓reduceIte]
    rw [getLsbD_t179 hw h.formatted hi, hshift, h.empty.sampleD]
    simp

section Idle

variable {y : ℕ → Input} (hy : ∀ n, NoStrobedDelay (y n))

include hy in
theorem kept_of_accepts (ha : accepts (machine.run y t) (y t) = true) (hc : (y t).op.cnt.toNat = c) (h0 : c ≠ 0)
    (hstb : (y t).op.stb = true) : Kept (y t).ctrlFmt (machine.run y (t + 3 + 2 * c)) := by
  have hidle := (draining_of_accepts hy ha hc h0).2.2
  have hsetup := setupD_of_accepts hy ha hc h0 (j := 2 * c + 2) le_rfl
  have hform := formatted_of_accepts hy ha hc h0 hstb (j := 2 * c + 2) le_rfl
  rw [show t + 1 + (2 * c + 2) = t + 3 + 2 * c by omega] at hsetup hform
  exact ⟨hidle, (flowing hy _).empty hidle, hsetup.trans (decide_eq_false (by omega)), hform⟩

include hy in
theorem done_of_accepts (ha : accepts (machine.run y t) (y t) = true) (hc : (y t).op.cnt.toNat = c) (h0 : c ≠ 0)
    (htu : t < u) (hu : u < t + 3 + 2 * c) : (machine.run y u).done = false := by
  obtain ⟨hd0, hd1, -⟩ := draining_of_accepts hy ha hc h0
  obtain hu | rfl | rfl : u < t + 1 + 2 * c ∨ u = t + 1 + 2 * c ∨ u = t + 2 + 2 * c := by omega
  · have hs := shifting_of_accepts hy ha hc (j := u - (t + 1)) (by omega)
    rw [show t + 1 + (u - (t + 1)) = u by omega] at hs
    exact hs.done
  · exact hd0.done
  · exact hd1.done

include hy in
theorem not_idle_of_accepts (ha : accepts (machine.run y t) (y t) = true) (hc : (y t).op.cnt.toNat = c) (h0 : c ≠ 0)
    (htu : t < u) (hu : u < t + 3 + 2 * c) : ¬ Idle (machine.run y u) := fun hidle => by
  simpa [done_of_accepts hy ha hc h0 htu hu] using hidle.done

include hy in
theorem idle_or_frame (n : ℕ) : Idle (machine.run y n) ∨
    ∃ t, t < n ∧ accepts (machine.run y t) (y t) = true ∧ (y t).op.cnt.toNat ≠ 0 ∧
      n < t + 3 + 2 * (y t).op.cnt.toNat := by
  induction n with
  | zero => exact Or.inl idle_reset
  | succ n ih =>
    rcases ih with h | ⟨t, htn, ha, h0, hn⟩
    · cases ha : accepts (machine.run y n) (y n) with
      | false => exact Or.inl (h.next (hy n) ha)
      | true =>
        have hs := h.start ha rfl
        split at hs
        next => exact Or.inl hs
        next h0 => exact Or.inr ⟨n, Nat.lt_succ_self n, ha, h0, by omega⟩
    · obtain hlt | heq : n + 1 < t + 3 + 2 * (y t).op.cnt.toNat ∨ n + 1 = t + 3 + 2 * (y t).op.cnt.toNat := by omega
      · exact Or.inr ⟨t, by omega, ha, h0, hlt⟩
      · rw [heq]
        exact Or.inl (draining_of_accepts hy ha rfl h0).2.2

include hy in
theorem idle_of_done (hd : (machine.run y n).done = true) : Idle (machine.run y n) := by
  rcases idle_or_frame hy n with h | ⟨t, htn, ha, h0, hn⟩
  · exact h
  · simp [done_of_accepts hy ha rfl h0 htn hn] at hd

include hy in
/-- A property of the idle cycles holds if it survives a cycle without a frame, an empty frame, and a frame with its
last sample. -/
theorem idle_induction {P : ℕ → Prop} (hzero : P 0)
    (hquiet : ∀ n, Idle (machine.run y n) → P n → accepts (machine.run y n) (y n) = false → P (n + 1))
    (hempty : ∀ n, P n → accepts (machine.run y n) (y n) = true → (y n).op.cnt.toNat = 0 → P (n + 1))
    (hframe : ∀ t, P t → accepts (machine.run y t) (y t) = true → (y t).op.cnt.toNat ≠ 0 →
      P (t + 3 + 2 * (y t).op.cnt.toNat)) (n : ℕ) (hn : Idle (machine.run y n)) : P n := by
  induction n using Nat.strong_induction_on with
  | _ n ih =>
    cases n with
    | zero => exact hzero
    | succ n =>
      rcases idle_or_frame hy n with h | ⟨t, htn, ha, h0, hlt⟩
      · have hp := ih n (Nat.lt_succ_self n) h
        cases ha : accepts (machine.run y n) (y n) with
        | false => exact hquiet n h hp ha
        | true =>
          by_cases h0 : (y n).op.cnt.toNat = 0
          · exact hempty n hp ha h0
          · exact absurd hn (not_idle_of_accepts hy ha rfl h0 (by omega) (by omega))
      · have heq : n + 1 = t + 3 + 2 * (y t).op.cnt.toNat := by
          by_contra hne
          exact not_idle_of_accepts hy ha rfl h0 (by omega) (by omega) hn
        rw [heq]
        exact hframe t (ih t (by omega) (idle_of_accepts hy ha)) ha h0

end Idle

/-! ### A byte on one line -/

section Send

variable {y : ℕ → Input} (hy : ∀ n, NoStrobedDelay (y n)) (ha : accepts (machine.run y t) (y t) = true)
  (hc : (y t).op.cnt.toNat = 8) (hstb : (y t).op.stb = true) (hw : (y t).ctrlFmt.proto = 0#2)

include hy ha hc hstb hw

/-- The part of the byte that has not been launched is at the end of the buffer. -/
theorem getLsbD_buffer_of_accepts (hj : j < 16) {i : ℕ} (hji : (j + 1) / 2 ≤ i) (hi : i < 8) :
    (machine.run y (t + 1 + j)).buffer.getLsbD i = (bufferIn (y t)).getLsbD (i - (j + 1) / 2) := by
  have hw1 : Width 1 (y t).ctrlFmt.proto := hw ▸ Width.single
  induction j generalizing i with
  | zero =>
    change (edge (machine.run y t) (y t)).buffer.getLsbD i = _
    simp only [edge, ha, ↓reduceIte]
    rfl
  | succ j ih =>
    rw [show t + 1 + (j + 1) = t + 1 + j + 1 by omega,
      getLsbD_buffer_succ hy ha hc (by decide) hstb hw1 (by omega) hi, if_neg (by omega)]
    split
    next => rw [ih (by omega) (by omega) (by omega), show i - 1 - (j + 1) / 2 = i - (j + 1 + 1) / 2 by omega]
    next => rw [ih (by omega) (by omega) hi, show (j + 1) / 2 = (j + 1 + 1) / 2 by omega]

/-- In period `k` of the frame the data line has bit `7 - k` of the byte. -/
theorem txd_of_accepts (hj : j < 16) :
    (machine.run y (t + 1 + j)).txd.getLsbD 0 = (bufferIn (y t)).getLsbD (7 - j / 2) := by
  induction j with
  | zero =>
    have hready : t251 (machine.run y t) = true := by
      simp only [accepts, Bool.and_eq_true] at ha
      exact ha.1.1
    have hg : gen21 (machine.run y t) = true := (Bool.and_eq_true_iff.1 hready).1
    change (edge (machine.run y t) (y t)).txd.getLsbD 0 = _
    simp [edge, gen60, ha, t193, hg, hw]
  | succ j ih =>
    have hs := shifting_of_accepts hy ha hc (j := j) (by omega)
    have hf := formatted_of_accepts hy ha hc (by decide) hstb (j := j) (by omega)
    have htxd : (machine.run y (t + 1 + (j + 1))).txd =
        if gen60 (machine.run y (t + 1 + j)) (y (t + 1 + j)) then t193 (machine.run y (t + 1 + j)) (y (t + 1 + j))
        else (machine.run y (t + 1 + j)).txd := rfl
    rw [htxd, hs.gen60_eq]
    rcases Nat.mod_two_eq_zero_or_one j with h2 | h2
    · rw [if_neg (by simp [h2]), ih (by omega), show j / 2 = (j + 1) / 2 by omega]
    · rw [if_pos (by simp; omega)]
      obtain ⟨-, -, hbeat, hstop, hone⟩ := hs.signals (x := y (t + 1 + j))
      have hg : gen21 (machine.run y (t + 1 + j)) = false := by
        have hne : ¬ 8 - j / 2 = 1 := by omega
        simp [gen21, hstop, hone, hne]
      have hbuf := getLsbD_buffer_of_accepts hy ha hc hstb hw (j := j) (i := 7) (by omega) (by omega) (by decide)
      rw [← hbuf]
      simp [t193, hg, hf.protoS, hf.protoD, hf.protoQ, hw]

end Send

/-! ### The bytes received -/

section Receive

variable {y : ℕ → Input} (hy : ∀ n, NoStrobedDelay (y n)) (ha : accepts (machine.run y t) (y t) = true)
  (hc : (y t).op.cnt.toNat = c) (hstb : (y t).op.stb = true) (hw : Width w (y t).ctrlFmt.proto) (hcw : c * w = 8)

include hy ha hc hstb hw hcw

/-- Each sample in the buffer has moved by the periods since it was taken. -/
theorem samples_of_accepts {q l : ℕ} (hj : j ≤ 2 * c) (hqj : 2 * q + 3 < j) (hl : l < w) :
    (machine.run y (t + 1 + j)).buffer.getLsbD (((j + 1) / 2 - (q + 2)) * w + l) =
      (y (t + 4 + 2 * q)).dqI.getLsbD (lane w l) := by
  have hcw' := hw.beats hcw
  induction j with
  | zero => omega
  | succ j ih =>
    have hstep {i : ℕ} (hi : i < 8) :=
      getLsbD_buffer_succ hy ha hc (by omega) hstb hw (j := j) (i := i) (by omega) hi
    rw [show t + 1 + (j + 1) = t + 1 + j + 1 by omega]
    rcases Nat.mod_two_eq_zero_or_one j with h2 | h2
    · have hpos : ((j + 1 + 1) / 2 - (q + 2)) * w + l = ((j + 1) / 2 - (q + 2)) * w + l + w := by
        rw [show (j + 1 + 1) / 2 - (q + 2) = (j + 1) / 2 - (q + 2) + 1 by omega, Nat.succ_mul]
        omega
      have hlt : ((j + 1) / 2 - (q + 2)) * w + l + w < 8 := by
        rcases hcw' with ⟨rfl, rfl⟩ | ⟨rfl, rfl⟩ | ⟨rfl, rfl⟩ <;> omega
      rw [hpos, hstep hlt, if_neg (by omega), if_pos (by omega), Nat.add_sub_cancel, ih (by omega) (by omega)]
    · have hpos : ((j + 1 + 1) / 2 - (q + 2)) * w + l = ((j + 1) / 2 - (q + 2)) * w + l := by
        rw [show (j + 1 + 1) / 2 = (j + 1) / 2 by omega]
      rw [hpos, hstep (by rcases hcw' with ⟨rfl, rfl⟩ | ⟨rfl, rfl⟩ | ⟨rfl, rfl⟩ <;> omega)]
      obtain hq | hq : 2 * q + 3 < j ∨ 2 * q + 3 = j := by omega
      · rw [if_neg (by rcases hcw' with ⟨rfl, rfl⟩ | ⟨rfl, rfl⟩ | ⟨rfl, rfl⟩ <;> omega), if_neg (by omega),
          ih (by omega) hq]
      · rw [show (j + 1) / 2 - (q + 2) = 0 by omega, Nat.zero_mul, Nat.zero_add, if_pos hl, if_pos (by omega),
          show t + 1 + j = t + 4 + 2 * q by omega]

/-- After a frame of eight bits the buffer has its samples, the first one on top. -/
theorem buffer_of_accepts {q l : ℕ} (hq : q < c) (hl : l < w) :
    (machine.run y (t + 3 + 2 * c)).buffer.getLsbD ((c - 1 - q) * w + l) =
      (y (t + 4 + 2 * q)).dqI.getLsbD (lane w l) := by
  have hcw' := hw.beats hcw
  have hstep (j : ℕ) (hj : j ≤ 2 * c + 1) {i : ℕ} (hi : i < 8) :=
    getLsbD_buffer_succ hy ha hc (by omega) hstb hw (j := j) (i := i) hj hi
  have hpos : (c - 1 - q) * w + l < 8 := by
    rcases hcw' with ⟨rfl, rfl⟩ | ⟨rfl, rfl⟩ | ⟨rfl, rfl⟩ <;> omega
  rw [show t + 3 + 2 * c = t + 1 + (2 * c + 1) + 1 by omega, hstep _ (by omega) hpos]
  obtain hlast | hlt : q = c - 1 ∨ q < c - 1 := by omega
  · rw [show c - 1 - q = 0 by omega, Nat.zero_mul, Nat.zero_add, if_pos hl, if_pos (by omega),
      show t + 1 + (2 * c + 1) = t + 4 + 2 * q by omega]
  · have hpos' : (c - 1 - q) * w + l = (c - (q + 2)) * w + l + w := by
      rw [show c - 1 - q = c - (q + 2) + 1 by omega, Nat.succ_mul]
      omega
    rw [hpos', if_neg (by omega), if_pos (by omega), Nat.add_sub_cancel,
      show t + 1 + (2 * c + 1) = t + 1 + 2 * c + 1 by omega, hstep _ (by omega) (by omega)]
    have hs := samples_of_accepts hy ha hc hstb hw hcw (j := 2 * c) (q := q) le_rfl (by omega) hl
    rw [show (2 * c + 1) / 2 = c by omega] at hs
    rw [← hs]
    split
    · rw [if_neg (by omega)]
    · rw [if_neg (by omega)]

end Receive

end QspiPhysical
