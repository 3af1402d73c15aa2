import ZrSoc.UartFrame
import ZrSoc.UartRx
import ZrSoc.SingleBit

/-!
# The receiver receives frames

The registers of the receiver are determined by what the line has carried (`At`): it notices the start bit two clocks
after its beginning, takes sample `k` in clock `sampleAt d k` and hands the byte over two clocks after the last sample.
-/

namespace UartRx

open UartFrame

/-- The receiver waits for the sample in clock `t`. -/
structure Counting (d e t : ℕ) (s : State) : Prop where
  le : e ≤ t
  enable : s.enable = decide (e = t)
  dlc : s.dlc.toNat + 1 + e = t + if e = t then d else 0

/-- The first `k` data bits are in the buffer. -/
def Holds (b : BitVec 8) (k : ℕ) (s : State) : Prop :=
  ∀ i < 11, s.rxBuffer.getLsbD i = (decide (i < k) && b.getLsbD i)

/-- The clock in which the byte is handed over. -/
def doneAt (d : ℕ) : ℕ := sampleAt d 9 + 2

/-- The state machine of the receiver `e` clocks after the beginning of the start bit of `b`. -/
inductive Stage (d : ℕ) (b : BitVec 8) (e : ℕ) (s : State) : Prop
  | detect (he : e ≤ 2) (hs : s.rxState = .idle) (hp : s.pushRxFifo = false) (hd : 1 ≤ e → s.dlc.toNat + 1 = d / 2)
  | start (he : 3 ≤ e) (hs : s.rxState = .start) (hp : s.pushRxFifo = false) (hc : Counting d e (sampleAt d 0) s)
      (hb : Holds b 0 s)
  | bit (k : Fin 8) (he : sampleAt d k < e) (hs : s.rxState = .bit k) (hp : s.pushRxFifo = false)
      (hc : Counting d e (sampleAt d (k + 1)) s) (hb : Holds b k s)
  | stop1 (he : sampleAt d 8 < e) (hs : s.rxState = .stop1) (hp : s.pushRxFifo = false)
      (hc : Counting d e (sampleAt d 9) s) (hb : Holds b 8 s)
  | stop2 (he : e + 1 = doneAt d) (hs : s.rxState = .stop2) (hp : s.pushRxFifo = false) (hb : Holds b 8 s)
  | push (he : e = doneAt d) (hs : s.rxState = .idle) (hp : s.pushRxFifo = true) (hb : Holds b 8 s)
  | done (he : doneAt d < e) (hs : s.rxState = .idle) (hp : s.pushRxFifo = false)

/-- The registers of the receiver when the line has carried `h`. -/
structure At (d : ℕ) (h : Heard) (s : State) : Prop where
  filter : ∀ i < 3, s.filter.getLsbD i = past d (i + 1) h
  quiet : h = none → s.rxState = .idle ∧ s.pushRxFifo = false
  stage : ∀ b e, h = some (b, e) → Stage d b e s
  parityError : s.parityError = false
  framingError : s.framingError = false
  breakError : s.breakError = false

/-- Eight data bits and no parity. -/
structure Character (x : Input) : Prop where
  data : x.lcr.extractLsb' 0 2 = 3#2
  parity : x.lcr.getLsbD 3 = false

variable {d e t k : ℕ} {b : BitVec 8} {h h' : Heard} {s : State} {x : Input}

/-! ### The sampling of the line -/

theorem edge_filter : (edge s x).filter = s.filter.extractLsb' 0 2 ++ BitVec.ofBool x.in_ := by
  rw [edge]
  split <;> rfl

theorem getLsbD_edge_filter {i : ℕ} (hi : i < 3) :
    (edge s x).filter.getLsbD i = if i = 0 then x.in_ else s.filter.getLsbD (i - 1) := by
  rw [edge_filter, SingleBit.getLsbD_append_ofBool]
  split
  · rfl
  · rw [BitVec.getLsbD_extractLsb', Nat.zero_add, decide_eq_true (by omega), Bool.true_and]

theorem edge_enable : (edge s x).enable = (x.div != 0#16 && s.dlc == 0#16) := by
  rw [edge]
  split <;> rfl

theorem edge_dlc : (edge s x).dlc =
    if s.rxState = .idle then (x.div >>> 1) - 1#16 else if s.dlc = 0#16 then x.div - 1#16 else s.dlc - 1#16 := by
  rw [edge]
  split <;> rfl

theorem edge_dlc_idle (hs : s.rxState = .idle) (hd : 2 ≤ x.div.toNat) :
    (edge s x).dlc.toNat + 1 = x.div.toNat / 2 := by
  rw [edge_dlc, if_pos hs, BitVec.toNat_sub, BitVec.toNat_ushiftRight, Nat.shiftRight_eq_div_pow]
  have := x.div.isLt
  simp
  omega

theorem Counting.next (hc : Counting x.div.toNat e t s) (hs : s.rxState ≠ .idle) (hd : 2 ≤ x.div.toNat) :
    Counting x.div.toNat (e + 1) (if s.enable then t + x.div.toNat else t) (edge s x) := by
  have hlt := x.div.isLt
  have hslt := s.dlc.isLt
  have hne : (x.div != 0#16) = true := by
    simp only [bne_iff_ne, ne_eq]
    intro h0
    rw [h0] at hd
    simp at hd
  have hle := hc.le
  have hdlc := hc.dlc
  by_cases he : e = t
  · rw [if_pos he] at hdlc
    have hnz : s.dlc ≠ 0#16 := by
      intro h0
      rw [h0] at hdlc
      simp at hdlc
      omega
    rw [hc.enable, decide_eq_true he, if_pos rfl]
    refine ⟨by omega, ?_, ?_⟩
    · rw [edge_enable, beq_eq_false_iff_ne.2 hnz, Bool.and_false]
      exact (decide_eq_false (by omega)).symm
    · rw [edge_dlc, if_neg hs, if_neg hnz, if_neg (by omega), BitVec.toNat_sub]
      simp
      omega
  · rw [if_neg he] at hdlc
    rw [hc.enable, decide_eq_false he, if_neg (by simp)]
    by_cases h0 : s.dlc = 0#16
    · have hz : s.dlc.toNat = 0 := by rw [h0]; rfl
      refine ⟨by omega, ?_, ?_⟩
      · rw [edge_enable, hne, beq_iff_eq.2 h0]
        exact (decide_eq_true (by omega)).symm
      · rw [edge_dlc, if_neg hs, if_pos h0, if_pos (by omega), BitVec.toNat_sub]
        simp
        omega
    · have hz : s.dlc.toNat ≠ 0 := fun hz => h0 (BitVec.eq_of_toNat_eq hz)
      refine ⟨by omega, ?_, ?_⟩
      · rw [edge_enable, beq_eq_false_iff_ne.2 h0, Bool.and_false]
        exact (decide_eq_false (by omega)).symm
      · rw [edge_dlc, if_neg hs, if_neg h0, if_neg (by omega), BitVec.toNat_sub]
        simp
        omega

theorem Counting.lt_doneAt (hc : Counting d e (sampleAt d k) s) (hk : k ≤ 9) : e < doneAt d := by
  have hle := hc.le
  have hmono := sampleAt_mono (d := d) hk
  rw [doneAt]
  omega

/-- Two of the three samples of the line decide. -/
theorem filteredRxd_new {v : Bool} (h0 : s.filter.getLsbD 0 = v) (h1 : s.filter.getLsbD 1 = v) :
    filteredRxd s = v := by
  rw [filteredRxd, h0, h1]
  cases v <;> cases s.filter.getLsbD 2 <;> rfl

theorem filteredRxd_old {v : Bool} (h1 : s.filter.getLsbD 1 = v) (h2 : s.filter.getLsbD 2 = v) :
    filteredRxd s = v := by
  rw [filteredRxd, h1, h2]
  cases v <;> cases s.filter.getLsbD 0 <;> rfl

theorem At.filtered_sample (ha : At d (some (b, sampleAt d k)) s) (hd : 16 ≤ d) (hk : k ≤ 9) :
    filteredRxd s = frameBit b k := by
  have hle : 3 ≤ sampleAt d k := by
    rw [sampleAt]
    omega
  obtain ⟨h1, h2⟩ := sampled (b := b) hd hk
  apply filteredRxd_new
  · rw [ha.filter 0 (by omega), past, if_neg (by omega), ← h1]
  · rw [ha.filter 1 (by omega), past, if_neg (by omega), ← h2]

theorem At.filtered_high (ha : At d h s) (hh : ∀ b e, h = some (b, e) → 9 * (d + 1) + 2 ≤ e) :
    filteredRxd s = true := by
  have hpast : ∀ j ≤ 2, past d j h = true := by
    intro j hj
    cases h with
    | none => rfl
    | some p =>
      have he := hh p.1 p.2 rfl
      exact past_high (by omega)
  exact filteredRxd_new ((ha.filter 0 (by omega)).trans (hpast 1 (by omega)))
    ((ha.filter 1 (by omega)).trans (hpast 2 (by omega)))

/-- The receiver sees the start bit two clocks after its beginning. -/
theorem At.filtered_detect (ha : At d (some (b, e)) s) (he : e ≤ 2) (hd : 16 ≤ d) :
    filteredRxd s = decide (e < 2) := by
  by_cases h2 : e < 2
  · rw [decide_eq_true h2]
    apply filteredRxd_old
    · rw [ha.filter 1 (by omega), past, if_pos h2]
    · rw [ha.filter 2 (by omega), past, if_pos (by omega)]
  · obtain rfl : e = 2 := by omega
    have hlow : ∀ r ≤ 2, level d b r = false := by
      intro r hr
      have := level_bit (d := d) (b := b) (k := 0) (r := r) (by omega)
      rwa [Nat.zero_mul, Nat.zero_add, frameBit_zero] at this
    apply filteredRxd_new
    · rw [ha.filter 0 (by omega)]
      exact hlow 1 (by omega)
    · rw [ha.filter 1 (by omega)]
      exact hlow 0 (by omega)

theorem getLsbD_setBuffer {v : Bool} {i : ℕ} (hi : i < 11) :
    (setBuffer s k v).getLsbD i = if i = k then v else s.rxBuffer.getLsbD i := by
  unfold setBuffer
  exact SingleBit.getLsbD_replace s.rxBuffer v hi

theorem Holds.setBuffer (hb : Holds b k s) :
    Holds b (k + 1) { s with rxBuffer := setBuffer s k (b.getLsbD k) } := by
  intro i hi
  simp only
  rw [getLsbD_setBuffer hi]
  split
  next h => simp [h]
  next h =>
    rw [hb i hi]
    congr 1
    exact decide_eq_decide.2 (by omega)

/-- The byte that is handed over. -/
theorem Holds.outBits_eq (hb : Holds b 8 s) : outBits s = b := by
  apply BitVec.eq_of_getLsbD_eq
  intro i hi
  rw [outBits, BitVec.getLsbD_extractLsb', Nat.zero_add, hb i (by omega)]
  simp [hi]

/-! ### The state machine -/

theorem edge_idle (hs : s.rxState = .idle) (hf : filteredRxd s = true) :
    (edge s x).rxState = .idle ∧ (edge s x).pushRxFifo = false := by
  simp [edge, hs, rxStart, hf]

theorem edge_detected (hs : s.rxState = .idle) (hf : filteredRxd s = false) (hen : x.en = true) :
    (edge s x).rxState = .start ∧ (edge s x).pushRxFifo = false ∧ (edge s x).rxBuffer = 0#11 := by
  simp [edge, hs, rxStart, hf, hen]

theorem edge_wait (hs : s.rxState ≠ .idle) (hs2 : s.rxState ≠ .stop2) (he : s.enable = false) :
    (edge s x).rxState = s.rxState ∧ (edge s x).pushRxFifo = s.pushRxFifo ∧ (edge s x).rxBuffer = s.rxBuffer := by
  cases h : s.rxState with
  | idle => exact absurd h hs
  | stop2 => exact absurd h hs2
  | start => simp [edge, h, he, sample]
  | bit k => simp [edge, h, he, sample]
  | parity => simp [edge, h, he, sample]
  | stop1 => simp [edge, h, he, sample]

theorem edge_start (hs : s.rxState = .start) (he : s.enable = true) (hf : filteredRxd s = false) :
    (edge s x).rxState = .bit 0 ∧ (edge s x).pushRxFifo = s.pushRxFifo ∧ (edge s x).rxBuffer = s.rxBuffer := by
  simp [edge, hs, he, hf, sample]

theorem edge_bit {j : Fin 8} (hs : s.rxState = .bit j) (he : s.enable = true) :
    (edge s x).rxState = afterBit x j ∧ (edge s x).pushRxFifo = s.pushRxFifo ∧
      (edge s x).rxBuffer = setBuffer s j (filteredRxd s) := by
  simp [edge, hs, he, sample]

theorem edge_parity (hs : s.rxState = .parity) (he : s.enable = true) :
    (edge s x).rxState = .stop1 ∧ (edge s x).pushRxFifo = s.pushRxFifo ∧
      (edge s x).rxBuffer = setBuffer s 9 (parityBit s x) := by
  simp [edge, hs, he, sample]

theorem edge_stop1 (hs : s.rxState = .stop1) (he : s.enable = true) :
    (edge s x).rxState = .stop2 ∧ (edge s x).pushRxFifo = s.pushRxFifo ∧
      (edge s x).rxBuffer =
        setBuffer { s with rxBuffer := setBuffer s 8 (!filteredRxd s) } 10 (!filteredRxd s && s.rxBuffer == 0#11) := by
  simp [edge, hs, he, sample]

theorem edge_stop2 (hs : s.rxState = .stop2) :
    (edge s x).rxState = .idle ∧ (edge s x).pushRxFifo = true ∧ (edge s x).rxBuffer = s.rxBuffer := by
  simp [edge, hs, sample]

theorem Character.afterBit (hx : Character x) (j : Fin 8) :
    afterBit x j = if h : j.val + 1 < 8 then .bit ⟨j + 1, h⟩ else .stop1 := by
  have hthree : (3#2).toNat = 3 := rfl
  rw [UartRx.afterBit, hx.data, afterData, hx.parity, hthree]
  by_cases hj : j.val + 1 < 8
  · rw [if_pos (by omega)]
    rfl
  · rw [if_neg (by omega), dif_neg hj]
    rfl

/-- Between the samples the receiver waits. -/
theorem Stage.next_wait (hst : Stage x.div.toNat b e s) (hd : 16 ≤ x.div.toNat) (he : s.enable = false)
    (hs : s.rxState ≠ .idle) (hs2 : s.rxState ≠ .stop2) : Stage x.div.toNat b (e + 1) (edge s x) := by
  obtain ⟨hs', hp', hb'⟩ := edge_wait (x := x) hs hs2 he
  have hcount : ∀ t, Counting x.div.toNat e t s → Counting x.div.toNat (e + 1) t (edge s x) := by
    intro t hc
    have := hc.next hs (by omega)
    rwa [he] at this
  have hholds : ∀ k, Holds b k s → Holds b k (edge s x) := fun k hb i hi => by rw [hb', hb i hi]
  cases hst with
  | detect _ h => exact absurd h hs
  | start h3 h hp hc hb => exact Stage.start (by omega) (hs'.trans h) (hp'.trans hp) (hcount _ hc) (hholds 0 hb)
  | bit k hk h hp hc hb =>
    exact Stage.bit k (by omega) (hs'.trans h) (hp'.trans hp) (hcount _ hc) (hholds k hb)
  | stop1 hk h hp hc hb => exact Stage.stop1 (by omega) (hs'.trans h) (hp'.trans hp) (hcount _ hc) (hholds 8 hb)
  | stop2 _ h => exact absurd h hs2
  | push _ h => exact absurd h hs
  | done _ h => exact absurd h hs

/-- A sample brings the next bit. -/
theorem Stage.next_sample (hst : Stage x.div.toNat b e s) (hd : 16 ≤ x.div.toNat) (hx : Character x)
    (he : s.enable = true) (hs : s.rxState ≠ .idle) (hs2 : s.rxState ≠ .stop2)
    (hf : ∀ k ≤ 9, e = sampleAt x.div.toNat k → filteredRxd s = frameBit b k) :
    Stage x.div.toNat b (e + 1) (edge s x) := by
  have hcount : ∀ k, Counting x.div.toNat e (sampleAt x.div.toNat k) s → e = sampleAt x.div.toNat k ∧
      Counting x.div.toNat (e + 1) (sampleAt x.div.toNat (k + 1)) (edge s x) := by
    intro k hc
    have hnext := hc.next hs (by omega)
    have heq := hc.enable
    rw [he, if_pos rfl, ← sampleAt_succ] at hnext
    rw [he] at heq
    exact ⟨of_decide_eq_true heq.symm, hnext⟩
  cases hst with
  | detect _ h => exact absurd h hs
  | start h3 h hp hc hb =>
    obtain ⟨heq, hnext⟩ := hcount 0 hc
    obtain ⟨hs', hp', hb'⟩ := edge_start (x := x) h he (hf 0 (by omega) heq)
    exact Stage.bit 0 (by simp; omega) hs' (hp'.trans hp) hnext fun i hi => by rw [hb', hb i hi]; rfl
  | bit k hk h hp hc hb =>
    obtain ⟨heq, hnext⟩ := hcount (k + 1) hc
    obtain ⟨hs', hp', hb'⟩ := edge_bit (x := x) h he
    have hklt := k.isLt
    rw [hf (k + 1) (by omega) heq, frameBit_succ hklt] at hb'
    have hb'' : Holds b (k + 1) (edge s x) := fun i hi => by rw [hb']; exact hb.setBuffer i hi
    rw [hx.afterBit] at hs'
    by_cases hlast : k.val + 1 < 8
    · rw [dif_pos hlast] at hs'
      exact Stage.bit ⟨k + 1, hlast⟩ (by simp; omega) hs' (hp'.trans hp) hnext hb''
    · have h7 : k.val = 7 := by omega
      rw [dif_neg hlast] at hs'
      have h8 : e = sampleAt x.div.toNat 8 := by rw [heq, h7]
      rw [h7] at hnext hb''
      exact Stage.stop1 (by omega) hs' (hp'.trans hp) hnext hb''
  | stop1 hk h hp hc hb =>
    obtain ⟨heq, hnext⟩ := hcount 9 hc
    obtain ⟨hs', hp', hb'⟩ := edge_stop1 (x := x) h he
    rw [hf 9 (by omega) heq, frameBit_stop (by omega), Bool.not_true, Bool.false_and] at hb'
    refine Stage.stop2 (by rw [doneAt]; omega) hs' (hp'.trans hp) fun i hi => ?_
    rw [hb', getLsbD_setBuffer hi]
    simp only
    rw [getLsbD_setBuffer hi, hb i hi]
    grind
  | stop2 _ h => exact absurd h hs2
  | push _ h => exact absurd h hs
  | done _ h => exact absurd h hs

/-- An idle receiver goes on with the start bit or stays idle. -/
theorem Stage.next_idle (hst : Stage x.div.toNat b e s) (hd : 16 ≤ x.div.toNat) (hen : x.en = true)
    (hs : s.rxState = .idle) (hlow : e ≤ 2 → filteredRxd s = decide (e < 2))
    (hhigh : doneAt x.div.toNat ≤ e → filteredRxd s = true) : Stage x.div.toNat b (e + 1) (edge s x) := by
  have hdlc := edge_dlc_idle hs (x := x) (by omega)
  cases hst with
  | detect h2 _ hp hdlc' =>
    have hf := hlow h2
    by_cases hlt : e < 2
    · rw [decide_eq_true hlt] at hf
      obtain ⟨hs', hp'⟩ := edge_idle (x := x) hs hf
      exact Stage.detect (by omega) hs' hp' fun _ => hdlc
    · obtain rfl : e = 2 := by omega
      obtain ⟨hs', hp', hb'⟩ := edge_detected hs hf hen
      have hne : s.dlc ≠ 0#16 := by
        intro h0
        have := hdlc' (by omega)
        rw [h0] at this
        simp at this
        omega
      refine Stage.start (Nat.le_refl 3) hs' hp' ⟨?_, ?_, ?_⟩ fun i hi => by simp [hb']
      · rw [sampleAt]
        omega
      · rw [edge_enable, beq_eq_false_iff_ne.2 hne, Bool.and_false, sampleAt]
        exact (decide_eq_false (by omega)).symm
      · rw [sampleAt, if_neg (by omega)]
        omega
  | push heq _ hp hb =>
    obtain ⟨hs', hp'⟩ := edge_idle (x := x) hs (hhigh (Nat.le_of_eq heq.symm))
    exact Stage.done (by omega) hs' hp'
  | done hlt _ hp =>
    obtain ⟨hs', hp'⟩ := edge_idle (x := x) hs (hhigh (Nat.le_of_lt hlt))
    exact Stage.done (by omega) hs' hp'
  | start _ h => simp [hs] at h
  | bit k _ h => simp [hs] at h
  | stop1 _ h => simp [hs] at h
  | stop2 _ h => simp [hs] at h

theorem Stage.next_stop2 (hst : Stage d b e s) (hs : s.rxState = .stop2) : Stage d b (e + 1) (edge s x) := by
  obtain ⟨hs', hp', hb'⟩ := edge_stop2 (x := x) hs
  cases hst with
  | stop2 he _ hp hb => exact Stage.push he hs' hp' fun i hi => by rw [hb', hb i hi]
  | detect _ h => simp [hs] at h
  | start _ h => simp [hs] at h
  | bit k _ h => simp [hs] at h
  | stop1 _ h => simp [hs] at h
  | push _ h => simp [hs] at h
  | done _ h => simp [hs] at h

theorem doneAt_high (hd : 16 ≤ d) : 9 * (d + 1) + 2 ≤ doneAt d := by
  rw [doneAt, sampleAt]
  omega

/-- A clock goes by for the receiver. -/
theorem At.stage_next (ha : At x.div.toNat (some (b, e)) s) (hd : 16 ≤ x.div.toNat) (hx : Character x)
    (hen : x.en = true) : Stage x.div.toNat b (e + 1) (edge s x) := by
  have hst := ha.stage b e rfl
  by_cases hs : s.rxState = .idle
  · refine hst.next_idle hd hen hs (fun h2 => ha.filtered_detect h2 hd) fun hdone => ?_
    refine ha.filtered_high fun b' e' hh => ?_
    have hhigh := doneAt_high hd
    simp only [Option.some.injEq, Prod.mk.injEq] at hh
    omega
  · by_cases hs2 : s.rxState = .stop2
    · exact hst.next_stop2 hs2
    · cases he : s.enable with
      | false => exact hst.next_wait hd he hs hs2
      | true =>
        refine hst.next_sample hd hx he hs hs2 fun k hk heq => ?_
        rw [heq] at ha
        exact ha.filtered_sample hd hk

theorem Stage.holds (hst : Stage d b e s) (hs : s.rxState = .stop1 ∨ s.rxState = .stop2) : Holds b 8 s := by
  cases hst with
  | stop1 _ h hp hc hb => exact hb
  | stop2 _ h hp hb => exact hb
  | detect _ h => simp [h] at hs
  | start _ h => simp [h] at hs
  | bit k _ h => simp [h] at hs
  | push _ h => simp [h] at hs
  | done _ h => simp [h] at hs

theorem edge_parityError :
    (edge s x).parityError = if s.rxState = .stop1 then s.rxBuffer.getLsbD 9 else s.parityError := by
  cases h : s.rxState <;> simp [edge, h, sample]

theorem edge_framingError :
    (edge s x).framingError = if s.rxState = .stop2 then s.rxBuffer.getLsbD 8 else s.framingError := by
  cases h : s.rxState <;> simp [edge, h, sample]

theorem edge_breakError :
    (edge s x).breakError = if s.rxState = .stop2 then s.rxBuffer.getLsbD 10 else s.breakError := by
  cases h : s.rxState <;> simp [edge, h, sample]

/-- In the stop bits the error bits of the buffer are clear. -/
theorem At.noError (ha : At d h s) {i : ℕ} (hi : 8 ≤ i) (hi' : i < 11)
    (hs : s.rxState = .stop1 ∨ s.rxState = .stop2) : s.rxBuffer.getLsbD i = false := by
  cases h with
  | none => simp [(ha.quiet rfl).1] at hs
  | some p =>
    rw [(ha.stage p.1 p.2 rfl).holds hs i hi', decide_eq_false (by omega), Bool.false_and]

/-- The receiver is idle long before the next start bit. -/
theorem At.idle_of_over (ha : At d h s) (hd : 16 ≤ d) (hh : ∀ b e, h = some (b, e) → 10 * (d + 1) ≤ e) :
    s.rxState = .idle := by
  cases h with
  | none => exact (ha.quiet rfl).1
  | some p =>
    have he := hh p.1 p.2 rfl
    have hlt : doneAt d < 10 * (d + 1) := sampleAt_lt hd
    cases ha.stage p.1 p.2 rfl with
    | detect _ h => exact h
    | push _ h => exact h
    | done _ h => exact h
    | stop2 heq => omega
    | stop1 _ _ _ hc => exact absurd (hc.lt_doneAt (by omega)) (by omega)
    | start _ _ _ hc => exact absurd (hc.lt_doneAt (by omega)) (by omega)
    | bit k _ _ _ hc => exact absurd (hc.lt_doneAt (by omega)) (by omega)

/-- The receiver stays idle until the next start bit. -/
theorem At.next_over (ha : At d h s) (hd : 16 ≤ d) (hh : ∀ b e, h = some (b, e) → 10 * (d + 1) ≤ e) :
    (edge s x).rxState = .idle ∧ (edge s x).pushRxFifo = false :=
  edge_idle (ha.idle_of_over hd hh) (ha.filtered_high fun b e he => by have := hh b e he; omega)

/-- The samples of the line move on. -/
theorem At.filter_next (ha : At d h s) (hf : Follows d h h') (hd : 2 ≤ d) (hin : x.in_ = past d 0 h) :
    ∀ i < 3, (edge s x).filter.getLsbD i = past d (i + 1) h' := by
  intro i hi
  rw [hf.past (by omega), getLsbD_edge_filter hi]
  cases i with
  | zero => exact hin
  | succ i => exact ha.filter i (by omega)

theorem At.errors_next (ha : At d h s) : (edge s x).parityError = false ∧ (edge s x).framingError = false ∧
    (edge s x).breakError = false := by
  refine ⟨?_, ?_, ?_⟩
  · rw [edge_parityError]
    split
    next hs => exact ha.noError (by omega) (by omega) (Or.inl hs)
    next => exact ha.parityError
  · rw [edge_framingError]
    split
    next hs => exact ha.noError (by omega) (by omega) (Or.inr hs)
    next => exact ha.framingError
  · rw [edge_breakError]
    split
    next hs => exact ha.noError (by omega) (by omega) (Or.inr hs)
    next => exact ha.breakError

theorem at_reset : At d none reset where
  filter := by
    intro i hi
    obtain rfl | rfl | rfl : i = 0 ∨ i = 1 ∨ i = 2 := by omega
    all_goals rfl
  quiet := fun _ => ⟨rfl, rfl⟩
  stage := fun b e hs => by simp at hs
  parityError := rfl
  framingError := rfl
  breakError := rfl

/-- Before the first frame the registers of the configuration have no effect. -/
theorem At.next_none (ha : At d none s) (hd : 16 ≤ d) (hin : x.in_ = true) : At d none (edge s x) where
  filter := ha.filter_next (Follows.tick none) (by omega) hin
  quiet := fun _ => ha.next_over hd fun b e he => by simp at he
  stage := fun b e he => by simp at he
  parityError := ha.errors_next.1
  framingError := ha.errors_next.2.1
  breakError := ha.errors_next.2.2

/-- A cycle keeps the receiver on the line. -/
theorem At.next (ha : At x.div.toNat h s) (hf : Follows x.div.toNat h h') (hd : 16 ≤ x.div.toNat) (hx : Character x)
    (hen : x.en = true) (hin : x.in_ = past x.div.toNat 0 h) : At x.div.toNat h' (edge s x) where
  filter := ha.filter_next hf (by omega) hin
  quiet := by
    intro hnone
    cases hf with
    | tick =>
      cases h with
      | none => exact ha.next_over hd fun b e he => by simp at he
      | some p => simp [tick] at hnone
    | first b => simp at hnone
    | fall b he => simp at hnone
  stage := by
    intro b e hsome
    cases hf with
    | tick =>
      cases h with
      | none => simp [tick] at hsome
      | some p =>
        simp only [tick, Option.map_some, Option.some.injEq, Prod.mk.injEq] at hsome
        obtain ⟨rfl, rfl⟩ := hsome
        exact ha.stage_next hd hx hen
    | first b' =>
      obtain ⟨hs', hp'⟩ := ha.next_over (x := x) hd fun b e he => by simp at he
      simp only [Option.some.injEq, Prod.mk.injEq] at hsome
      exact Stage.detect (by omega) hs' hp' fun he => by omega
    | fall b' hover =>
      obtain ⟨hs', hp'⟩ := ha.next_over (x := x) hd fun b e he => by
        simp only [Option.some.injEq, Prod.mk.injEq] at he
        omega
      simp only [Option.some.injEq, Prod.mk.injEq] at hsome
      exact Stage.detect (by omega) hs' hp' fun he => by omega
  parityError := ha.errors_next.1
  framingError := ha.errors_next.2.1
  breakError := ha.errors_next.2.2

/-! ### The bytes that are handed over -/

/-- The byte that the receiver hands over in a cycle. -/
def received (s : State) : Option (BitVec 8) := if outValid s then some (outBits s) else none

/-- The byte on the line that is handed over now. -/
def arrived (d : ℕ) : Heard → Option (BitVec 8)
  | none => none
  | some (b, e) => if e = doneAt d then some b else none

/-- The byte on the line that is not handed over before. -/
def onLine (d : ℕ) : Heard → List (BitVec 8)
  | none => []
  | some (b, e) => if e ≤ doneAt d then [b] else []

theorem onLine_tick : onLine d h = (arrived d h).toList ++ onLine d (tick h) := by
  cases h with
  | none => rfl
  | some p =>
    simp only [onLine, arrived, tick, Option.map_some]
    split
    · split
      · rw [if_neg (by omega)]
        rfl
      · rw [if_pos (by omega)]
        rfl
    · rw [if_neg (by omega), if_neg (by omega)]
      rfl

/-- Nothing is left on the line when the next start bit begins. -/
theorem onLine_over (hd : 16 ≤ d) (hh : ∀ b e, h = some (b, e) → 10 * (d + 1) ≤ e) :
    onLine d h = [] ∧ arrived d h = none := by
  cases h with
  | none => exact ⟨rfl, rfl⟩
  | some p =>
    have he := hh p.1 p.2 rfl
    have hlt : doneAt d < 10 * (d + 1) := sampleAt_lt hd
    exact ⟨if_neg (by omega), if_neg (by omega)⟩

/-- The receiver hands every byte over once, `doneAt` clocks after its start bit has begun. -/
theorem At.received_eq (ha : At d h s) : received s = arrived d h := by
  rw [received, outValid]
  cases h with
  | none =>
    rw [(ha.quiet rfl).2]
    rfl
  | some p =>
    obtain ⟨b, e⟩ := p
    have hno : s.pushRxFifo = false → e ≠ doneAt d →
        (if s.pushRxFifo = true then some (outBits s) else none) = arrived d (some (b, e)) := by
      intro hp he
      rw [arrived, if_neg he, hp]
      rfl
    cases ha.stage b e rfl with
    | push he hs hp hb => rw [hp, arrived, if_pos he, hb.outBits_eq, if_pos rfl]
    | detect he hs hp => exact hno hp (by rw [doneAt, sampleAt]; omega)
    | start he hs hp hc => exact hno hp (Nat.ne_of_lt (hc.lt_doneAt (by omega)))
    | bit k he hs hp hc => exact hno hp (Nat.ne_of_lt (hc.lt_doneAt (by omega)))
    | stop1 he hs hp hc => exact hno hp (Nat.ne_of_lt (hc.lt_doneAt (by omega)))
    | stop2 he hs hp => exact hno hp (by omega)
    | done he hs hp => exact hno hp (by omega)

end UartRx
