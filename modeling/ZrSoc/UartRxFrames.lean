import ZrSoc.UartRxSamples
import ZrSoc.SerialLine

/-!
# The frames that the receiver decodes

The line carries frames with bits of `io_div` clocks, only the last of which may have a low stop bit.  The receiver is
idle when the next frame begins (`idle_of_waits`), so it notices every frame two clocks after its beginning and takes
its samples in the middle of the bits (`samples_frame`).
-/

namespace UartRx

open UartFrame

/-- A frame for the line control `c`; its parity bit is sent if `c` asks for one. -/
structure Frame (c : BitVec 8) where
  data : BitVec (dataBits c)
  parity : Bool
  stop : Bool

variable {c : BitVec 8}

def Frame.bits (f : Frame c) : List Bool :=
  false :: ((List.range (dataBits c)).map f.data.getLsbD ++ ((if parityOn c then [f.parity] else []) ++ [f.stop]))

/-- The parity bit of the frame is not the prescribed one. -/
def Frame.parityError (f : Frame c) : Bool := parityOn c && f.parity != prescribed c (f.data.setWidth 8)

/-- What the receiver hands over for the frame. -/
def Frame.entry (f : Frame c) : Entry where
  bits := f.data.setWidth 8
  parityError := f.parityError
  framingError := !f.stop
  breakError := !f.stop && f.data.setWidth 8 == 0#8 && !f.parityError

/-- The number of clocks from the beginning of a frame to its entry. -/
def latency (c : BitVec 8) (d : ℕ) : ℕ := 2 + sampleAt d (stopSample c)

variable {f : Frame c} {j k n m u D : ℕ} {line : ℕ → Bool} {w : Bool} {sent : ℕ → Option (Frame c)}

theorem Frame.length_bits (f : Frame c) : f.bits.length = stopSample c + 1 := by
  unfold Frame.bits stopSample
  cases parityOn c with
  | true => simp
  | false => simp

theorem Frame.bits_start (f : Frame c) : f.bits.getD 0 true = false := rfl

theorem Frame.bits_data (f : Frame c) (hj : j < dataBits c) : f.bits.getD (j + 1) true = f.data.getLsbD j := by
  unfold Frame.bits
  rw [List.getD_cons_succ, List.getD_append _ _ _ _ (by simpa using hj), List.getD_eq_getElem _ _ (by simpa using hj)]
  simp

theorem Frame.bits_parity (f : Frame c) (hp : parityOn c = true) :
    f.bits.getD (dataBits c + 1) true = f.parity := by
  unfold Frame.bits
  rw [List.getD_cons_succ, List.getD_append_right _ _ _ _ (by simp), hp]
  simp

theorem Frame.bits_stop (f : Frame c) : f.bits.getD (stopSample c) true = f.stop := by
  have hlt := dataBits_lt_stopSample c
  obtain ⟨k, hk⟩ : ∃ k, stopSample c = k + 1 := ⟨stopSample c - 1, by omega⟩
  unfold stopSample at hk
  unfold Frame.bits stopSample
  rw [hk, List.getD_cons_succ, List.getD_append_right _ _ _ _ (by simp; omega)]
  cases hp : parityOn c with
  | true =>
    rw [hp, if_pos rfl] at hk
    have hone : k - dataBits c = 1 := by omega
    simp [hone]
  | false =>
    rw [hp, if_neg Bool.false_ne_true] at hk
    have hzero : k - dataBits c = 0 := by omega
    simp [hzero]

/-- What the samples of the frame are when each of them is the bit that was sent. -/
theorem sampledData_frame {v : ℕ → Bool} (hv : ∀ k ≤ stopSample c, v k = f.bits.getD k true) :
    sampledData c v = f.data.setWidth 8 := by
  have hlt := dataBits_lt_stopSample c
  apply BitVec.eq_of_getLsbD_eq
  intro j hj
  rw [getLsbD_sampledData hj, BitVec.getLsbD_setWidth, decide_eq_true hj, Bool.true_and]
  by_cases hd : j < dataBits c
  · rw [decide_eq_true hd, Bool.true_and, hv _ (by omega), f.bits_data hd]
  · rw [decide_eq_false hd, Bool.false_and, BitVec.getLsbD_of_ge _ _ (by omega)]

theorem sampledParityError_frame {v : ℕ → Bool} (hv : ∀ k ≤ stopSample c, v k = f.bits.getD k true) :
    sampledParityError c v = f.parityError := by
  unfold sampledParityError Frame.parityError
  rw [sampledData_frame hv]
  cases hp : parityOn c with
  | true => rw [hv _ (dataBits_lt_stopSample c), f.bits_parity hp]
  | false => rw [Bool.false_and, Bool.false_and]

/-! ### The samples of a frame -/

theorem voted_new (h1 : before line n 1 = w) (h2 : before line n 2 = w) : voted line n = w := by
  unfold voted
  rw [h1, h2]
  cases w <;> cases before line n 3 <;> rfl

theorem voted_old (h2 : before line n 2 = w) (h3 : before line n 3 = w) : voted line n = w := by
  unfold voted
  rw [h2, h3]
  cases w <;> cases before line n 1 <;> rfl

theorem before_eq (hj : j ≤ n) : before line n j = line (n - j) := if_neg (by omega)

theorem before_high (h : j ≤ n → line (n - j) = true) : before line n j = true := by
  unfold before
  split
  · rfl
  · exact h (by omega)

theorem stop_lt_latency : stopSample c * D + D / 2 + 5 = latency c D := by
  unfold latency sampleAt
  omega

/-- Cycle `n` is not between the beginning and the entry of a frame.  A low stop bit is noticed like a start bit, which
turns out to be none half a bit later. -/
def Waits (D : ℕ) (sent : ℕ → Option (Frame c)) (n : ℕ) : Prop :=
  ∀ m f, sent m = some f → n ≤ m + 2 ∨ n = m + latency c D ∨
    m + latency c D + (if f.stop then 0 else D / 2 + 2) ≤ n

/-- One cycle earlier, if the last cycle is not that of an entry or of the end of a false start. -/
theorem Waits.prev (hw : Waits D sent (n + 1)) (hno : ∀ m f, sent m = some f → n + 1 ≠ m + latency c D)
    (hrestart : ∀ m f, sent m = some f → f.stop = false → n + 1 ≠ m + latency c D + (D / 2 + 2)) :
    Waits D sent n ∧ ∀ m f, sent m = some f → n ≠ m + 2 ∧ (f.stop = false → n ≠ m + latency c D) := by
  have hlat := stop_lt_latency (c := c) (D := D)
  have hprev : ∀ m f, sent m = some f → (n ≤ m + 2 ∨ n = m + latency c D ∨
      m + latency c D + (if f.stop then 0 else D / 2 + 2) ≤ n) ∧
        n ≠ m + 2 ∧ (f.stop = false → n ≠ m + latency c D) := by
    intro m f hm
    have hcases := hw m f hm
    have hne := hno m f hm
    cases hs : f.stop with
    | true =>
      rw [hs, if_pos rfl] at hcases
      rw [if_pos rfl]
      exact ⟨by omega, by omega, fun h => by simp at h⟩
    | false =>
      have hne' := hrestart m f hm hs
      rw [hs, if_neg Bool.false_ne_true] at hcases
      rw [if_neg Bool.false_ne_true]
      exact ⟨by omega, by omega, fun _ => by omega⟩
  exact ⟨fun m f hm => (hprev m f hm).1, fun m f hm => (hprev m f hm).2⟩

section

variable (hl : SerialLine.Carries D (fun n => (sent n).map Frame.bits) line)

include hl

theorem bit_at (hm : sent m = some f) (hk : k ≤ stopSample c) (hle : m + k * D ≤ n) (hlt : n < m + k * D + D) :
    line n = f.bits.getD k true :=
  hl.map_bit_at hm (by rw [f.length_bits]; omega) hle (by rw [Nat.succ_mul]; omega)

/-- The last two cycles belong to bit `k` of a frame. -/
theorem voted_bit (hm : sent m = some f) (hk : k ≤ stopSample c) (hle : m + k * D + 2 ≤ n)
    (hlt : n ≤ m + k * D + D) : voted line n = f.bits.getD k true := by
  apply voted_new
  · rw [before_eq (by omega)]
    exact bit_at hl hm hk (by omega) (by omega)
  · rw [before_eq (by omega)]
    exact bit_at hl hm hk (by omega) (by omega)

/-- The samples of a frame that is noticed two clocks after its beginning are its bits. -/
theorem samples_frame (hD : 8 ≤ D) (hm : sent m = some f) (hk : k ≤ stopSample c) :
    samples line D (m + 2) k = f.bits.getD k true := by
  unfold samples
  exact voted_bit hl hm hk (by omega) (by omega)

theorem voted_start (hD : 8 ≤ D) (hm : sent m = some f) : voted line (m + 2) = false := by
  rw [← f.bits_start]
  exact voted_bit hl hm (Nat.zero_le _) (by omega) (by omega)

/-- The line is high where the earlier frames are over or have come to a high stop bit. -/
theorem line_high (hover : ∀ m f, sent m = some f → m ≤ n →
    m + stopSample c * D + D ≤ n ∨ m + stopSample c * D ≤ n ∧ f.stop = true) : line n = true := by
  apply hl.high
  intro m g hm hmn
  obtain ⟨f, hf, rfl⟩ := Option.map_eq_some_iff.1 hm
  rw [f.length_bits, Nat.add_sub_cancel, f.bits_stop, Nat.succ_mul]
  rcases hover m f hf hmn with h | h
  · exact Or.inl (by omega)
  · exact Or.inr h

theorem spaced {g : Frame c} (hm : sent m = some f) (hn : sent n = some g) (hlt : m < n) :
    m + stopSample c * D + D ≤ n := by
  have hle := hl.map_spaced hm hn hlt
  rw [f.length_bits, Nat.succ_mul] at hle
  omega

/-- At the entry of a frame with a low stop bit the line is still low. -/
theorem voted_entry (hD : 8 ≤ D) (hm : sent m = some f) (hlow : f.stop = false) :
    voted line (m + latency c D) = false := by
  have hlat := stop_lt_latency (c := c) (D := D)
  have hbit : f.bits.getD (stopSample c) true = false := by rw [f.bits_stop, hlow]
  rw [← hbit]
  apply voted_old
  · rw [before_eq (by omega)]
    exact bit_at hl hm (Nat.le_refl _) (by omega) (by omega)
  · rw [before_eq (by omega)]
    exact bit_at hl hm (Nat.le_refl _) (by omega) (by omega)

variable (hstop : ∀ m n f g, sent m = some f → sent n = some g → m < n → f.stop = true)

include hstop

/-- The line is high before the next frame is noticed, unless the receiver has just come to a low stop bit. -/
theorem voted_waits (hD : 8 ≤ D) (hw : Waits D sent n) (hfirst : ∀ m f, sent m = some f → n ≠ m + 2)
    (hlast : ∀ m f, sent m = some f → f.stop = false → n ≠ m + latency c D) : voted line n = true := by
  have hlat := stop_lt_latency (c := c) (D := D)
  have hover : ∀ k ≤ n, n ≤ k + 2 → ∀ m f, sent m = some f → m ≤ k → m + 2 ≤ n →
      m + stopSample c * D + D ≤ k ∨ m + stopSample c * D ≤ k ∧ f.stop = true := by
    intro k hkn hnk m f hm hmk hmn
    have hne := hfirst m f hm
    cases hs : f.stop with
    | true =>
      have hcases := hw m f hm
      rw [hs, if_pos rfl] at hcases
      exact Or.inr ⟨by omega, rfl⟩
    | false =>
      have hne' := hlast m f hm hs
      have hcases := hw m f hm
      rw [hs, if_neg Bool.false_ne_true] at hcases
      exact Or.inl (by omega)
  by_cases hnew : ∃ f, sent (n - 1) = some f ∧ 1 ≤ n
  · -- a frame begins in the last cycle, so that the two cycles before it decide
    obtain ⟨g, hg, hn⟩ := hnew
    apply voted_old
    all_goals
      refine before_high fun hj => line_high hl fun m f hm hmk => Or.inr ?_
      have hle := spaced hl hm hg (by omega)
      exact ⟨by omega, hstop m (n - 1) f g hm hg (by omega)⟩
  · apply voted_new
    · refine before_high fun hj => line_high hl fun m f hm hmk => ?_
      have hne : m ≠ n - 1 := by
        rintro rfl
        exact hnew ⟨f, hm, hj⟩
      exact hover (n - 1) (by omega) (by omega) m f hm hmk (by omega)
    · refine before_high fun hj => line_high hl fun m f hm hmk => ?_
      exact hover (n - 2) (by omega) (by omega) m f hm hmk (by omega)

/-- The low stop bit of the last frame is over when it would be sampled as a start bit. -/
theorem samples_restart (hm : sent m = some f) (hlow : f.stop = false) :
    samples line D (m + latency c D) 0 = true := by
  have hlat := stop_lt_latency (c := c) (D := D)
  have hover : ∀ k, m + stopSample c * D + D ≤ k → line k = true := by
    intro k hk
    refine line_high hl fun m' f' hm' hmk => ?_
    rcases Nat.lt_trichotomy m' m with hlt | rfl | hgt
    · have hspace := spaced hl hm' hm hlt
      exact Or.inl (by omega)
    · exact Or.inl hk
    · -- a frame with a low stop bit is the last one
      have := hstop m m' f f' hm hm' hgt
      rw [hlow] at this
      exact absurd this Bool.false_ne_true
  unfold samples
  apply voted_new
  · exact before_high fun _ => hover _ (by omega)
  · exact before_high fun _ => hover _ (by omega)

end

section

variable {i : ℕ → Input} {d : BitVec 16} (hc : Configured d c i) (hd : 8 ≤ d.toNat)
  (hl : SerialLine.Carries d.toNat (fun n => (sent n).map Frame.bits) fun n => (i n).in_)
  (hstop : ∀ m n f g, sent m = some f → sent n = some g → m < n → f.stop = true)

include hd hl hstop

theorem waits_start (hm : sent m = some f) : Waits d.toNat sent (m + 2) := by
  have hlat := stop_lt_latency (c := c) (D := d.toNat)
  intro k g hk
  rcases Nat.lt_or_ge k m with hlt | hle
  · have hspace := spaced hl hk hm hlt
    rw [hstop k m g f hk hm hlt, if_pos rfl]
    exact Or.inr (Or.inr (by omega))
  · exact Or.inl (by omega)

theorem waits_entry (hm : sent m = some f) : Waits d.toNat sent (m + latency c d.toNat) := by
  have hlat := stop_lt_latency (c := c) (D := d.toNat)
  intro k g hk
  rcases Nat.lt_trichotomy k m with hlt | rfl | hgt
  · rw [hstop k m g f hk hm hlt, if_pos rfl]
    exact Or.inr (Or.inr (by omega))
  · exact Or.inr (Or.inl rfl)
  · have hspace := spaced hl hm hk hgt
    exact Or.inl (by omega)

include hc

/-- The receiver is idle outside of the frames and hands nothing over. -/
theorem idle_of_waits (hw : Waits d.toNat sent n) : (run i n).rxState = .idle ∧
    ((∀ m f, sent m = some f → n ≠ m + latency c d.toNat) → entry (run i n) = none) := by
  have hlat := stop_lt_latency (c := c) (D := d.toNat)
  induction n using Nat.strong_induction_on with
  | _ n ih =>
    by_cases hentry : ∃ m f, sent m = some f ∧ n = m + latency c d.toNat
    · obtain ⟨m, f, hm, rfl⟩ := hentry
      have hu : Noticed i (m + 2) := by
        refine ⟨(ih (m + 2) (by omega) (waits_start hd hl hstop hm)).1, ?_⟩
        exact voted_start hl hd hm
      have hsample : samples (fun n => (i n).in_) d.toNat (m + 2) 0 = false := samples_frame hl hd hm (Nat.zero_le _)
      have hlast := (entry_of_start hu hc hd hsample).2.2
      rw [Nat.add_assoc] at hlast
      exact ⟨hlast, fun hne => absurd rfl (hne m f hm)⟩
    · have hno : ∀ m f, sent m = some f → n ≠ m + latency c d.toNat := fun m f hm heq => hentry ⟨m, f, hm, heq⟩
      by_cases hrestart : ∃ m f, sent m = some f ∧ f.stop = false ∧ n = m + latency c d.toNat + (d.toNat / 2 + 2)
      · obtain ⟨m, f, hm, hlow, rfl⟩ := hrestart
        have hu : Noticed i (m + latency c d.toNat) :=
          ⟨(ih _ (by omega) (waits_entry hd hl hstop hm)).1, voted_entry hl hd hm hlow⟩
        obtain ⟨hquiet, hidle⟩ := idle_of_false_start hu hc hd (samples_restart hl hstop hm hlow)
        have hsample : sampleAt d.toNat 0 = d.toNat / 2 + 2 + 1 := by
          unfold sampleAt
          omega
        rw [hsample] at hquiet hidle
        exact ⟨hidle, fun _ => hquiet _ (by omega) (by omega)⟩
      · cases n with
        | zero => exact ⟨rfl, fun _ => rfl⟩
        | succ n =>
          obtain ⟨hw', hprev⟩ := hw.prev hno fun m f hm hs heq => hrestart ⟨m, f, hm, hs, heq⟩
          have hidle := (ih n (Nat.lt_succ_self n) hw').1
          have hv := voted_waits hl hstop hd hw' (fun m f hm => (hprev m f hm).1) fun m f hm => (hprev m f hm).2
          obtain ⟨hs', he'⟩ := idle_next hidle hv
          exact ⟨hs', fun _ => he'⟩

theorem Noticed.frame (hm : sent m = some f) : Noticed i (m + 2) where
  idle := (idle_of_waits hc hd hl hstop (waits_start hd hl hstop hm)).1
  low := voted_start hl hd hm

theorem entry_frame (hm : sent m = some f) : entry (run i (m + latency c d.toNat)) = some f.entry := by
  have hv : ∀ k ≤ stopSample c, samples (fun n => (i n).in_) d.toNat (m + 2) k = f.bits.getD k true :=
    fun k hk => samples_frame hl hd hm hk
  have hentry := (entry_of_start (Noticed.frame hc hd hl hstop hm) hc hd (hv 0 (Nat.zero_le _))).2.1
  rw [Nat.add_assoc] at hentry
  refine hentry.trans ?_
  unfold sampledEntry Frame.entry
  rw [sampledData_frame hv, sampledParityError_frame hv, hv _ (Nat.le_refl _), f.bits_stop]

/-- Between two entries nothing is handed over. -/
theorem entry_none (hno : ∀ m f, sent m = some f → n ≠ m + latency c d.toNat) : entry (run i n) = none := by
  by_cases hw : Waits d.toNat sent n
  · exact (idle_of_waits hc hd hl hstop hw).2 hno
  · unfold Waits at hw
    push Not at hw
    obtain ⟨m, f, hm, hbegin, hne, hend⟩ := hw
    have hu := Noticed.frame hc hd hl hstop hm
    rcases Nat.lt_or_ge n (m + latency c d.toNat) with hlt | hge
    · have h0 := samples_frame hl hd hm (Nat.zero_le _)
      refine (entry_of_start hu hc hd h0).1 n (by omega) ?_
      rwa [Nat.add_assoc]
    · have hlow : f.stop = false := by
        by_contra hs
        rw [Bool.not_eq_false] at hs
        rw [hs, if_pos rfl] at hend
        omega
      rw [hlow, if_neg Bool.false_ne_true] at hend
      have hidle := (idle_of_waits hc hd hl hstop (waits_entry hd hl hstop hm)).1
      have hsample : sampleAt d.toNat 0 = d.toNat / 2 + 3 := by
        unfold sampleAt
        omega
      refine (idle_of_false_start ⟨hidle, voted_entry hl hd hm hlow⟩ hc hd (samples_restart hl hstop hm hlow)).1 n
        (by omega) ?_
      rw [hsample]
      omega

/-- The receiver hands over every frame once, with its data, and says whether the parity bit is not the prescribed one
and whether the stop bit is low. -/
theorem decodes_frames :
    (∀ n, outValid (run i n) = true ↔ ∃ m f, sent m = some f ∧ n = m + latency c d.toNat) ∧
      ∀ m f, sent m = some f → outBits (run i (m + latency c d.toNat)) = f.data.setWidth 8 ∧
        (run i (m + latency c d.toNat)).parityError = f.parityError ∧
        (run i (m + latency c d.toNat)).framingError = !f.stop := by
  have hentry : ∀ m f, sent m = some f → outValid (run i (m + latency c d.toNat)) = true ∧
      outBits (run i (m + latency c d.toNat)) = f.data.setWidth 8 ∧
      (run i (m + latency c d.toNat)).parityError = f.parityError ∧
      (run i (m + latency c d.toNat)).framingError = !f.stop := by
    intro m f hm
    have hb := entry_frame hc hd hl hstop hm
    unfold entry Frame.entry at hb
    split at hb
    next hvalid =>
      simp only [Option.some.injEq, Entry.mk.injEq] at hb
      exact ⟨hvalid, hb.1, hb.2.1, hb.2.2.1⟩
    next => simp at hb
  refine ⟨fun n => ⟨fun hvalid => ?_, ?_⟩, fun m f hm => (hentry m f hm).2⟩
  · by_contra hno
    push Not at hno
    have hnone := entry_none hc hd hl hstop hno
    rw [entry, if_pos hvalid] at hnone
    simp at hnone
  · rintro ⟨m, f, hm, rfl⟩
    exact (hentry m f hm).1

end

/-! Two frames with eight data bits and an even parity bit, one behind the other.  The first has the wrong parity bit,
the second a low stop bit. -/

def evenFrame : Frame 27#8 where
  data := BitVec.ofNat _ 165
  parity := true
  stop := true

def brokenFrame : Frame 27#8 where
  data := BitVec.ofNat _ 1
  parity := true
  stop := false

def evenFrames : ℕ → Option (Frame 27#8) := SerialLine.followed (SerialLine.single 4 evenFrame) 92 brokenFrame

def evenInput (n : ℕ) : Input where
  en := true
  in_ := SerialLine.followedLine 8 (SerialLine.singleLine 8 4 evenFrame.bits) 92 brokenFrame.bits n
  div := 8#16
  lcr := 27#8

theorem carries_evenFrames :
    SerialLine.Carries 8 (fun n => (evenFrames n).map Frame.bits) fun n => (evenInput n).in_ := by
  simp only [evenFrames, SerialLine.map_followed, SerialLine.map_single]
  refine (SerialLine.carries_single (by omega) 4 evenFrame.bits).followed (by omega) (fun m f hm => ?_) _
  obtain ⟨rfl, rfl⟩ := SerialLine.eq_of_single hm
  exact ⟨by omega, by decide⟩

theorem decodes_frames_even : (outValid (run evenInput (4 + latency 27#8 8)) = true ∧
    outBits (run evenInput (4 + latency 27#8 8)) = 165#8 ∧
    (run evenInput (4 + latency 27#8 8)).parityError = true ∧
    (run evenInput (4 + latency 27#8 8)).framingError = false) ∧
    outValid (run evenInput (92 + latency 27#8 8)) = true ∧
    outBits (run evenInput (92 + latency 27#8 8)) = 1#8 ∧
    (run evenInput (92 + latency 27#8 8)).parityError = false ∧
    (run evenInput (92 + latency 27#8 8)).framingError = true := by
  have h := decodes_frames (i := evenInput) (d := 8#16) ⟨fun _ => rfl, fun _ => rfl, fun _ => rfl⟩ (by decide)
    carries_evenFrames fun m n f g hm hn hlt => by
      unfold evenFrames SerialLine.followed SerialLine.single at hm hn
      split_ifs at hm hn <;> first | omega | exact Option.some.inj hm ▸ rfl
  exact ⟨⟨(h.1 _).2 ⟨4, evenFrame, rfl, rfl⟩, h.2 4 evenFrame rfl⟩,
    (h.1 _).2 ⟨92, brokenFrame, rfl, rfl⟩, h.2 92 brokenFrame rfl⟩

end UartRx
