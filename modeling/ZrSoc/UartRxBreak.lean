import ZrSoc.UartRxFrames

/-!
# The break flag of the receiver

The flag `rx_buffer[10]` is computed from the whole receive buffer, in which bit 9 is the parity error and not the parity
bit of the line.  So the flag shows a break if the prescribed parity bit of an all-zero character is low or if there is
no parity bit, but not under odd parity and under stick parity with a high bit (`break_shown_iff`).
-/

namespace UartRx

open UartFrame

variable {c : BitVec 8} {d : BitVec 16} {i : ℕ → Input} {u : ℕ} {v : ℕ → Bool}

/-- In cycle `u` the idle receiver notices a low line, which is still low when the start bit is sampled. -/
structure Begins (d : BitVec 16) (i : ℕ → Input) (u : ℕ) : Prop extends Noticed i u where
  start : samples (fun n => (i n).in_) d.toNat u 0 = false

/-- The first entry after cycle `u`. -/
def NextEntry (i : ℕ → Input) (u : ℕ) (e : Entry) : Prop :=
  ∃ n, u < n ∧ entry (run i n) = some e ∧ ∀ m, u < m → m < n → entry (run i m) = none

/-- All bits of a frame after the start bit are low. -/
def AllLow (c : BitVec 8) (v : ℕ → Bool) : Prop := ∀ k, 1 ≤ k → k ≤ stopSample c → v k = false

/-- The entry of the frame that begins in cycle `u` has the break flag if and only if the bits of the frame are low. -/
def BreakShown (c : BitVec 8) (d : BitVec 16) (i : ℕ → Input) (u : ℕ) : Prop :=
  ∃ e, NextEntry i u e ∧ (e.breakError = true ↔ AllLow c (samples (fun n => (i n).in_) d.toNat u))

theorem NextEntry.unique {e e' : Entry} (h : NextEntry i u e) (h' : NextEntry i u e') : e = e' := by
  obtain ⟨n, hn, he, hnone⟩ := h
  obtain ⟨n', hn', he', hnone'⟩ := h'
  rcases Nat.lt_trichotomy n n' with hlt | rfl | hgt
  · rw [hnone' n hn hlt] at he
    simp at he
  · exact Option.some.inj (he.symm.trans he')
  · rw [hnone n' hn' hgt] at he'
    simp at he'

theorem Begins.nextEntry (hb : Begins d i u) (hc : Configured d c i) (hd : 8 ≤ d.toNat) :
    NextEntry i u (sampledEntry c (samples (fun n => (i n).in_) d.toNat u)) := by
  obtain ⟨hnone, hentry, -⟩ := entry_of_start hb.toNoticed hc hd hb.start
  refine ⟨u + sampleAt d.toNat (stopSample c), ?_, hentry, hnone⟩
  unfold sampleAt
  omega

theorem sampledData_eq_zero_iff : sampledData c v = 0#8 ↔ ∀ j < dataBits c, v (j + 1) = false := by
  have hle := dataBits_le c
  constructor
  · intro h j hj
    have hbit := getLsbD_sampledData (c := c) (v := v) (show j < 8 by omega)
    rw [h, decide_eq_true hj, Bool.true_and] at hbit
    rw [← hbit]
    simp
  · intro h
    apply BitVec.eq_of_getLsbD_eq
    intro j hj
    rw [getLsbD_sampledData hj]
    by_cases hlt : j < dataBits c
    · rw [h j hlt]
      simp
    · rw [decide_eq_false hlt]
      simp

/-- The bits after the start bit are the data bits, the parity bit if there is one and the stop bit. -/
theorem allLow_iff : AllLow c v ↔ sampledData c v = 0#8 ∧ (parityOn c = true → v (dataBits c + 1) = false) ∧
    v (stopSample c) = false := by
  have hlt := dataBits_lt_stopSample c
  rw [sampledData_eq_zero_iff]
  constructor
  · intro h
    exact ⟨fun j hj => h _ (by omega) (by omega), fun _ => h _ (by omega) (by omega), h _ (by omega) (Nat.le_refl _)⟩
  · rintro ⟨hdata, hparity, hstop⟩ k hk hk'
    rcases sample_cases hk' with h0 | ⟨j, hj, rfl⟩ | ⟨hp, rfl, -⟩ | rfl
    · omega
    · exact hdata j hj
    · exact hparity hp
    · exact hstop

theorem sampledBreak_iff : (sampledEntry c v).breakError = true ↔
    sampledData c v = 0#8 ∧ (parityOn c = true → v (dataBits c + 1) = prescribed c 0#8) ∧
      v (stopSample c) = false := by
  have herror : sampledData c v = 0#8 →
      (sampledParityError c v = false ↔ (parityOn c = true → v (dataBits c + 1) = prescribed c 0#8)) := by
    intro h0
    unfold sampledParityError
    rw [h0]
    cases parityOn c <;> simp
  simp only [sampledEntry, Bool.and_eq_true, Bool.not_eq_true', beq_iff_eq]
  constructor
  · rintro ⟨⟨hstop, hdata⟩, hparity⟩
    exact ⟨hdata, (herror hdata).1 hparity, hstop⟩
  · rintro ⟨hdata, hparity, hstop⟩
    exact ⟨⟨hstop, hdata⟩, (herror hdata).2 hparity⟩

theorem breakShown_iff (hnext : NextEntry i u (sampledEntry c (samples (fun n => (i n).in_) d.toNat u))) :
    BreakShown c d i u ↔ ((sampledEntry c (samples (fun n => (i n).in_) d.toNat u)).breakError = true ↔
      AllLow c (samples (fun n => (i n).in_) d.toNat u)) := by
  constructor
  · rintro ⟨e, he, hiff⟩
    rwa [he.unique hnext] at hiff
  · intro hiff
    exact ⟨_, hnext, hiff⟩

/-- The break flag shows whether all bits of the frame are low if and only if there is no parity bit, or the prescribed
parity bit of an all-zero character is low, or a data bit or the stop bit is high. -/
theorem break_shown_iff (hc : Configured d c i) (hd : 8 ≤ d.toNat) (hb : Begins d i u) :
    BreakShown c d i u ↔ parityOn c = false ∨ prescribed c 0#8 = false ∨
      (∃ j < dataBits c, samples (fun n => (i n).in_) d.toNat u (j + 1) = true) ∨
      samples (fun n => (i n).in_) d.toNat u (stopSample c) = true := by
  rw [breakShown_iff (hb.nextEntry hc hd), sampledBreak_iff, allLow_iff]
  generalize samples (fun n => (i n).in_) d.toNat u = v
  have hdata : sampledData c v = 0#8 ↔ ¬ ∃ j < dataBits c, v (j + 1) = true := by
    rw [sampledData_eq_zero_iff]
    push Not
    simp
  by_cases hzero : ∃ j < dataBits c, v (j + 1) = true
  · -- neither a break nor a flag
    have hne : ¬ sampledData c v = 0#8 := fun h => hdata.1 h hzero
    simp [hne, hzero]
  · have heq : sampledData c v = 0#8 := hdata.2 hzero
    cases hstop : v (stopSample c) with
    | true => simp
    | false =>
      cases hp : parityOn c with
      | false => simp [heq]
      | true =>
        -- the flag compares the parity bit with the prescribed one
        cases hpre : prescribed c 0#8 with
        | false => simp [heq]
        | true => simp [heq, hzero]

/-! With odd parity a line that is low for a whole frame is not shown as a break; with even parity it is. -/

def lowFrame (c : BitVec 8) : Frame c where
  data := BitVec.ofNat _ 0
  parity := false
  stop := false

/-- The line falls after reset and stays low for one frame. -/
def lowInput (c : BitVec 8) (n : ℕ) : Input where
  en := true
  in_ := SerialLine.singleLine 8 0 (lowFrame c).bits n
  div := 8#16
  lcr := c

theorem configured_lowInput (c : BitVec 8) : Configured 8#16 c (lowInput c) := ⟨fun _ => rfl, fun _ => rfl, fun _ => rfl⟩

theorem carries_lowInput (c : BitVec 8) : SerialLine.Carries 8
    (fun n => (SerialLine.single 0 (lowFrame c) n).map Frame.bits) fun n => (lowInput c n).in_ := by
  simp only [SerialLine.map_single]
  exact SerialLine.carries_single (by omega) 0 (lowFrame c).bits

theorem begins_lowInput (c : BitVec 8) : Begins 8#16 (lowInput c) 2 where
  toNoticed := Noticed.frame (configured_lowInput c) (by decide) (carries_lowInput c)
    (fun m n f g hm hn hlt => by
      have h1 := (SerialLine.eq_of_single hm).1
      have h2 := (SerialLine.eq_of_single hn).1
      omega) (f := lowFrame c) (m := 0) rfl
  start := samples_frame (carries_lowInput c) (by decide) (f := lowFrame c) (m := 0) rfl (Nat.zero_le _)

theorem break_shown_even : BreakShown 27#8 8#16 (lowInput 27#8) 2 :=
  (break_shown_iff (configured_lowInput 27#8) (by decide) (begins_lowInput 27#8)).2 (Or.inr (Or.inl (by decide)))

theorem not_break_shown : ¬ ∀ (c : BitVec 8) (d : BitVec 16) (i : ℕ → Input) (u : ℕ), Configured d c i →
    8 ≤ d.toNat → Begins d i u → BreakShown c d i u := by
  intro h
  have hb := begins_lowInput 11#8
  have hshown := h 11#8 8#16 (lowInput 11#8) 2 (configured_lowInput 11#8) (by decide) hb
  have hbits : ∀ k ≤ stopSample 11#8, (lowFrame 11#8).bits.getD k true = false := by decide
  have hlow : ∀ k ≤ stopSample 11#8, samples (fun n => (lowInput 11#8 n).in_) 8 2 k = false := by
    intro k hk
    rw [← hbits k hk]
    exact samples_frame (carries_lowInput 11#8) (by decide) (f := lowFrame 11#8) (m := 0) rfl hk
  have hall : AllLow 11#8 (samples (fun n => (lowInput 11#8 n).in_) 8 2) := fun k _ hk => hlow k hk
  have hflag := ((breakShown_iff (hb.nextEntry (configured_lowInput 11#8) (by decide))).1 hshown).2 hall
  -- the prescribed parity bit of an all-zero character is high
  have hparity := (sampledBreak_iff.1 hflag).2.1 (by decide)
  have hlast := hlow (dataBits 11#8 + 1) (by decide)
  have hone : prescribed 11#8 0#8 = true := by decide
  rw [hone] at hparity
  exact Bool.false_ne_true (hlast.symm.trans hparity)

end UartRx
