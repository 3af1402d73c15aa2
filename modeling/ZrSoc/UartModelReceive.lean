import ZrSoc.UartModelFrames
import ZrSoc.SerialLine

/-!
# The frames that the testbench receiver reports

The receiver looks for the stop bit from half a bit after the last sample on.  With an odd bit time this is one clock
before the stop bit begins, and with more stop bits than the bit counter has counted it never comes to an end.  All
other frames are reported once and without an error (`receives_iff`).
-/

namespace UartModel

variable {c : Config} {line : ℕ → Bool} {sent : ℕ → Option (BitVec c.bits)} {x : BitVec c.bits} {k m n t : ℕ}

/-- The start bit, the data bits from the lowest one on and the stop bits. -/
def frameBits (c : Config) (x : BitVec c.bits) : List Bool :=
  false :: ((List.range c.bits).map x.getLsbD ++ List.replicate c.stops true)

/-- Every frame is reported once, after its beginning, in order and without an error, and there are no other reports. -/
def Receives (c : Config) (sent : ℕ → Option (BitVec c.bits)) (line : ℕ → Bool) : Prop :=
  ∃ reported : ℕ → ℕ,
    (∀ m x, sent m = some x → m < reported m ∧
      report (run c line (reported m)) = some ⟨x.setWidth 32, false⟩) ∧
    (∀ m n x y, sent m = some x → sent n = some y → m < n → reported m < reported n) ∧
    ∀ t r, report (run c line t) = some r → ∃ m x, sent m = some x ∧ t = reported m

/-- The stop bits are not too many for the bit counter, and the bit before them is over when the receiver looks for
them or is high as well. -/
def Receivable (c : Config) (x : BitVec c.bits) : Prop := c.stops ≤ c.bits + 1 ∧ (c.baud % 2 = 0 ∨ x.msb = true)

/-- The cycle of the report of a frame that begins in cycle `m`. -/
def reportTime (c : Config) (m : ℕ) : ℕ := sampleTime c m c.bits + 1

theorem length_frameBits : (frameBits c x).length = c.bits + c.stops + 1 := by
  simp [frameBits]

theorem frameBits_data (hk : k < c.bits) : (frameBits c x).getD (k + 1) true = x.getLsbD k := by
  unfold frameBits
  rw [List.getD_cons_succ, List.getD_append _ _ _ _ (by simpa using hk), List.getD_eq_getElem _ _ (by simpa using hk)]
  simp

theorem frameBits_stop (hk : c.bits < k) : (frameBits c x).getD k true = true := by
  obtain ⟨k, rfl⟩ : ∃ j, k = j + 1 := ⟨k - 1, by omega⟩
  unfold frameBits
  rw [List.getD_cons_succ, List.getD_append_right _ _ _ _ (by simp; omega)]
  rcases Nat.lt_or_ge (k - ((List.range c.bits).map x.getLsbD).length) c.stops with hlt | hge
  · rw [List.getD_eq_getElem _ _ (by simpa using hlt)]
    simp
  · exact List.getD_eq_default _ _ (by simpa using hge)

/-- The bit before the stop bits. -/
theorem frameBits_last : (frameBits c x).getD c.bits true = x.msb := by
  rcases Nat.eq_zero_or_pos c.bits with h0 | hpos
  · have hmsb : x.msb = false := by
      rw [BitVec.msb_eq_getLsbD_last]
      exact BitVec.getLsbD_of_ge _ _ (by omega)
    have hstart : ∀ j, j = 0 → (frameBits c x).getD j true = false := by
      rintro j rfl
      rfl
    rw [hstart c.bits h0, hmsb]
  · obtain ⟨k, hk⟩ : ∃ k, c.bits = k + 1 := ⟨c.bits - 1, by omega⟩
    have hlast : c.bits - 1 = k := by omega
    rw [BitVec.msb_eq_getLsbD_last, hlast, ← frameBits_data (by omega), ← hk]

theorem reportTime_eq (hB : 2 ≤ c.baud) : reportTime c m = m + c.half + (c.bits + 1) * c.baud := by
  have hhalf : 0 < c.half := Nat.div_pos hB (by omega)
  unfold reportTime sampleTime
  omega

section

variable (hB : 2 ≤ c.baud) (hbits : c.bits ≤ 32) (hstops : 1 ≤ c.stops)
  (hl : SerialLine.Carries c.baud (fun n => (sent n).map (frameBits c)) line)

include hl

theorem frame_level (hm : sent m = some x) (hle : m ≤ t) (hlt : t < m + (c.bits + c.stops + 1) * c.baud) :
    line t = (frameBits c x).getD ((t - m) / c.baud) true := by
  exact hl.map_level hm hle (by rwa [length_frameBits])

theorem frame_bit (hm : sent m = some x) (hk : k < c.bits + c.stops + 1) (hle : m + k * c.baud ≤ t)
    (hlt : t < m + k * c.baud + c.baud) : line t = (frameBits c x).getD k true := by
  exact hl.map_bit_at hm (by rwa [length_frameBits]) hle (by rw [Nat.succ_mul]; omega)

theorem frame_spaced {y : BitVec c.bits} (hm : sent m = some x) (hn : sent n = some y) (hlt : m < n) :
    m + (c.bits + c.stops + 1) * c.baud ≤ n := by
  have hle := hl.map_spaced hm hn hlt
  rwa [length_frameBits] at hle

/-- The line is high where the earlier frames have come to their stop bits. -/
theorem line_high (hB : 0 < c.baud) (hover : ∀ m x, sent m = some x → m ≤ t → m + (c.bits + 1) * c.baud ≤ t) :
    line t = true := by
  by_cases hall : ∀ m x, sent m = some x → m ≤ t → m + (c.bits + c.stops + 1) * c.baud ≤ t
  · apply hl.idle
    intro m f hm hmt
    obtain ⟨x, hx, rfl⟩ := Option.map_eq_some_iff.1 hm
    rw [length_frameBits]
    exact hall m x hx hmt
  · push Not at hall
    obtain ⟨m, x, hm, hmt, hlt⟩ := hall
    have hle := hover m x hm hmt
    have hk : c.bits + 1 ≤ (t - m) / c.baud := (Nat.le_div_iff_mul_le hB).2 (by omega)
    rw [frame_level hl hm hmt (by omega)]
    exact frameBits_stop (by omega)

theorem line_start (hm : sent m = some x) (hle : m ≤ t) (hlt : t < m + c.baud) : line t = false := by
  have hbit := frame_bit hl hm (Nat.succ_pos _) (k := 0) (t := t) (by omega) (by omega)
  rw [hbit]
  rfl

include hB

/-- A frame is reported before the next one begins. -/
theorem reportTime_le {y : BitVec c.bits} (hstops : 1 ≤ c.stops) (hm : sent m = some x) (hn : sent n = some y)
    (hlt : m < n) : reportTime c m ≤ n := by
  have hspace := frame_spaced hl hm hn hlt
  have hmul : c.baud ≤ c.stops * c.baud := Nat.le_mul_of_pos_left _ hstops
  have hhalf : c.half ≤ c.baud := Nat.div_le_self _ _
  rw [reportTime_eq hB]
  rw [Nat.succ_mul, Nat.add_mul] at hspace
  rw [Nat.succ_mul]
  omega

/-- The receiver looks for the stop bit of a receivable frame when the line is high. -/
theorem line_stop (hstops : 1 ≤ c.stops) (hm : sent m = some x) (hx : c.baud % 2 = 0 ∨ x.msb = true)
    (hle : m + 2 * c.half + c.bits * c.baud ≤ t) (ht : t ≤ sampleTime c m c.bits) : line t = true := by
  have hlt : c.half < c.baud := Nat.div_lt_self (by omega) (by omega)
  have hmul : (c.bits + 1) * c.baud = c.bits * c.baud + c.baud := Nat.succ_mul _ _
  have hhalf : c.half = c.baud / 2 := rfl
  unfold sampleTime at ht
  rcases Nat.lt_or_ge t (m + (c.bits + 1) * c.baud) with hearly | hlate
  · -- the last clock before the stop bit
    rw [frame_bit hl hm (k := c.bits) (by omega) (by omega) (by omega), frameBits_last]
    exact hx.resolve_left (by omega)
  · rw [frame_bit hl hm (k := c.bits + 1) (by omega) (by omega) (by omega)]
    exact frameBits_stop (by omega)

/-- With an odd bit time the receiver looks for the stop bit in the last clock of the bit before it. -/
theorem line_early (hm : sent m = some x) (hodd : c.baud % 2 ≠ 0) (hx : x.msb = false) :
    line (m + 2 * c.half + c.bits * c.baud) = false := by
  have hhalf : c.half = c.baud / 2 := rfl
  rw [frame_bit hl hm (k := c.bits) (by omega) (by omega) (by omega), frameBits_last, hx]

/-- The data bits are on the line when they are sampled. -/
theorem collected_eq {y : BitVec 32} (hm : sent m = some x) (hy : Collected c line m c.bits y) :
    y = x.setWidth 32 := by
  have hlt : c.half < c.baud := Nat.div_lt_self (by omega) (by omega)
  apply BitVec.eq_of_getLsbD_eq
  intro k hk
  rw [hy k hk, BitVec.getLsbD_setWidth, decide_eq_true hk, Bool.true_and]
  by_cases hkb : k < c.bits
  · have hbit := frame_bit hl hm (k := k + 1) (t := sampleTime c m k) (by omega)
      (by unfold sampleTime; omega) (by unfold sampleTime; omega)
    rw [decide_eq_true hkb, Bool.true_and, hbit, frameBits_data hkb]
  · rw [decide_eq_false hkb, Bool.false_and, BitVec.getLsbD_of_ge _ _ (by omega)]

include hbits

/-- A receivable frame is reported if the receiver is idle when it begins. -/
theorem receivable_reported (hstops : 1 ≤ c.stops) (hm : sent m = some x) (hx : Receivable c x)
    (hidle : (run c line m).rxFsmQ = .idle) :
    (∀ t, m < t → t < reportTime c m → report (run c line t) = none) ∧
      (run c line (reportTime c m)).rxFsmQ = .idle ∧
      report (run c line (reportTime c m)) = some ⟨x.setWidth 32, false⟩ := by
  have hlt : c.half < c.baud := Nat.div_lt_self (by omega) (by omega)
  have hlow := line_start hl hm (Nat.le_refl m) (by omega)
  obtain ⟨hquiet, hs, y, hy, hc⟩ := frame_reported hB (by omega) hidle hlow hx.1 fun t h1 h2 =>
    ⟨fun h => line_start hl hm h1 (by omega), fun h => line_stop hB hl hstops hm hx.2 h h2⟩
  rw [collected_eq hB hl hm hc] at hy
  exact ⟨fun t h1 h2 => hquiet t h1 (Nat.lt_succ_iff.1 h2), hs, hy⟩

/-- The first report of a frame that is not receivable is an error. -/
theorem not_receivable_err {r : Report} (hm : sent m = some x) (hx : ¬ Receivable c x)
    (hidle : (run c line m).rxFsmQ = .idle) (ht : m < t)
    (hquiet : ∀ t', m < t' → t' < t → report (run c line t') = none) (hr : report (run c line t) = some r) :
    r.err = true := by
  have hmul : (c.bits + 1) * c.baud = c.bits * c.baud + c.baud := Nat.succ_mul _ _
  have hlt : c.half < c.baud := Nat.div_lt_self (by omega) (by omega)
  have hpos : 0 < c.half := Nat.div_pos hB (by omega)
  have hlow := line_start hl hm (Nat.le_refl m) (by omega)
  obtain ⟨t, rfl⟩ : ∃ t', t = t' + 1 := ⟨t - 1, by omega⟩
  have hq : ∀ t', m < t' → t' ≤ t → report (run c line t') = none := fun t' h1 h2 => hquiet t' h1 (by omega)
  obtain ⟨hp, hright⟩ := position_of_quiet hB (by omega) hidle hlow (Nat.lt_succ_iff.1 ht) hq
  cases hp.next hB (by omega) hlow with
  | goesOn hp' hnone => exact absurd (hr.symm.trans hnone) (by simp)
  | fails hs hc hfail =>
    rw [Option.some.inj (hr.symm.trans hfail)]
  | ends y hs hend hy htime hlevel hstops' =>
    -- then the line would have been high in the last clock before the stop bit
    have hcase : c.baud % 2 ≠ 0 ∧ x.msb = false := by
      constructor
      · intro heven
        exact hx ⟨hstops', Or.inl heven⟩
      · by_contra hmsb
        exact hx ⟨hstops', Or.inr (by simpa using hmsb)⟩
    have hearly := line_early hB hl hm hcase.1 hcase.2
    unfold sampleTime at htime
    rcases Nat.lt_or_ge (m + 2 * c.half + c.bits * c.baud) t with hbefore | hat
    · rw [(hright _ (by omega) hbefore).stop (Nat.le_refl _)] at hearly
      exact absurd hearly (by simp)
    · have heq : t = m + 2 * c.half + c.bits * c.baud := by omega
      rw [heq, hearly] at hlevel
      exact absurd hlevel (by simp)

include hstops

/-- While the earlier frames are receivable, the receiver is idle outside of the frames. -/
theorem idle_of_over (hgood : ∀ m x, sent m = some x → m < n → Receivable c x)
    (hover : ∀ m x, sent m = some x → m < n → reportTime c m ≤ n) : (run c line n).rxFsmQ = .idle ∧
      ((∀ m x, sent m = some x → n ≠ reportTime c m) → report (run c line n) = none) := by
  induction n using Nat.strong_induction_on with
  | _ n ih =>
    have hearlier : ∀ m x, sent m = some x → m < n → (run c line m).rxFsmQ = .idle := by
      intro m x hm hmn
      exact (ih m hmn (fun k y hk hkm => hgood k y hk (by omega)) fun k y hk hkm =>
        reportTime_le hB hl hstops hk hm hkm).1
    by_cases hend : ∃ m x, sent m = some x ∧ n = reportTime c m
    · obtain ⟨m, x, hm, rfl⟩ := hend
      have hlt : m < reportTime c m := by
        rw [reportTime_eq hB]
        have : 0 < c.half := Nat.div_pos hB (by omega)
        omega
      have hrep := receivable_reported hB hbits hl hstops hm (hgood m x hm hlt) (hearlier m x hm hlt)
      exact ⟨hrep.2.1, fun hno => absurd rfl (hno m x hm)⟩
    · cases n with
      | zero => exact ⟨rfl, fun _ => rfl⟩
      | succ n =>
        have hover' : ∀ m x, sent m = some x → m < n + 1 → reportTime c m ≤ n := by
          intro m x hm hmn
          have hle := hover m x hm hmn
          have hne : n + 1 ≠ reportTime c m := fun h => hend ⟨m, x, hm, h⟩
          omega
        obtain ⟨hs, -⟩ := ih n (Nat.lt_succ_self n) (fun m x hm hmn => hgood m x hm (by omega))
          fun m x hm hmn => hover' m x hm (by omega)
        have hhigh : line n = true := by
          apply line_high hl (by omega)
          intro m x hm hmn
          have hle := hover' m x hm (by omega)
          rw [reportTime_eq hB] at hle
          omega
        obtain ⟨hs', hr'⟩ := idle_next hs hhigh
        exact ⟨hs', fun _ => hr'⟩

/-- The receiver is idle when a frame begins. -/
theorem idle_at_frame (hgood : ∀ k y, sent k = some y → k < m → Receivable c y) (hm : sent m = some x) :
    (run c line m).rxFsmQ = .idle :=
  (idle_of_over hB hbits hstops hl hgood fun _ _ hk hkm => reportTime_le hB hl hstops hk hm hkm).1

/-- If all frames are receivable, each one is reported in the middle of its first stop bit. -/
theorem receives_of_receivable (hgood : ∀ m x, sent m = some x → Receivable c x) : Receives c sent line := by
  have hhalf : 0 < c.half := Nat.div_pos hB (by omega)
  refine ⟨reportTime c, fun m x hm => ⟨?_, ?_⟩, fun m n x y _ _ hlt => ?_, fun t r hr => ?_⟩
  · rw [reportTime_eq hB]
    omega
  · have hidle := idle_at_frame hB hbits hstops hl (fun k y hk _ => hgood k y hk) hm
    exact (receivable_reported hB hbits hl hstops hm (hgood m x hm) hidle).2.2
  · rw [reportTime_eq hB, reportTime_eq hB]
    omega
  · by_contra hno
    push Not at hno
    have hnone : report (run c line t) = none := by
      by_cases hover : ∀ m x, sent m = some x → m < t → reportTime c m ≤ t
      · exact (idle_of_over hB hbits hstops hl (fun m x hm _ => hgood m x hm) hover).2 hno
      · push Not at hover
        obtain ⟨m, x, hm, hmt, hlt⟩ := hover
        have hidle := idle_at_frame hB hbits hstops hl (fun k y hk _ => hgood k y hk) hm
        exact (receivable_reported hB hbits hl hstops hm (hgood m x hm) hidle).1 t hmt (by omega)
    exact absurd (hr.symm.trans hnone) (by simp)

/-- The first frame that is not receivable is not reported without an error. -/
theorem receivable_of_receives (hrec : Receives c sent line) (hm : sent m = some x) : Receivable c x := by
  obtain ⟨reported, hrep, -, honly⟩ := hrec
  induction m using Nat.strong_induction_on generalizing x with
  | _ m ih =>
    by_contra hbad
    have hidle := idle_at_frame hB hbits hstops hl (fun k y hk hkm => ih k hkm hk) hm
    obtain ⟨hlt, hok⟩ := hrep m x hm
    -- the first report from the beginning of the frame on is an error
    obtain ⟨t, hmt, -, hsome, hfirst⟩ := Sync.exists_first (Q := fun t => (report (run c line t)).isSome = true)
      (n := m + 1) (r := reported m) hlt (by rw [hok]; rfl)
    obtain ⟨r, hr⟩ := Option.isSome_iff_exists.1 hsome
    have hquiet : ∀ t', m < t' → t' < t → report (run c line t') = none := by
      intro t' h1 h2
      simpa using hfirst t' h1 h2
    have herr := not_receivable_err hB hbits hl hm hbad hidle hmt hquiet hr
    obtain ⟨k, y, hk, rfl⟩ := honly t r hr
    rw [(hrep k y hk).2] at hr
    rw [← Option.some.inj hr] at herr
    exact absurd herr (by simp)

/-- The receiver reports every frame once and without an error if and only if the number of stop bits is at most one
more than that of the data bits and the bit time is even or the last data bit of every frame is high. -/
theorem receives_iff : Receives c sent line ↔
    ∀ m x, sent m = some x → c.stops ≤ c.bits + 1 ∧ (c.baud % 2 = 0 ∨ x.msb = true) := by
  constructor
  · intro hrec m x hm
    exact receivable_of_receives hB hbits hstops hl hrec hm
  · exact receives_of_receivable hB hbits hstops hl

end

/-! Eight data bits and one stop bit: the frame of `a5` with four clocks for a bit, and the frame of `00` with three. -/

def a5Line : ℕ → Bool := SerialLine.singleLine 4 0 (frameBits ⟨4, 8, 1⟩ (BitVec.ofNat _ 165))

theorem receives_a5 : Receives ⟨4, 8, 1⟩ (SerialLine.single 0 (BitVec.ofNat _ 165)) a5Line := by
  refine (receives_iff (by decide) (by decide) (by decide) ?_).2 fun m x _ => ⟨by decide, Or.inl (by decide)⟩
  simp only [SerialLine.map_single]
  exact SerialLine.carries_single (by decide) 0 _

def oddConfig : Config where
  ctrlBaudClks := 3
  ctrlBits := 8
  ctrlStops := 1

theorem not_receives : ¬ ∀ (c : Config) (sent : ℕ → Option (BitVec c.bits)) (line : ℕ → Bool), 2 ≤ c.baud →
    c.bits ≤ 32 → 1 ≤ c.stops → SerialLine.Carries c.baud (fun n => (sent n).map (frameBits c)) line →
    Receives c sent line := by
  intro h
  have hl : SerialLine.Carries oddConfig.baud
      (fun n => (SerialLine.single 0 (BitVec.ofNat _ 0) n).map (frameBits oddConfig))
      (SerialLine.singleLine oddConfig.baud 0 (frameBits oddConfig (BitVec.ofNat _ 0))) := by
    simp only [SerialLine.map_single]
    exact SerialLine.carries_single (by decide) 0 _
  have hrec := h oddConfig _ _ (by decide) (by decide) (by decide) hl
  have hgood := receivable_of_receives (by decide) (by decide) (by decide) hl hrec (m := 0) rfl
  have hbad : ¬ (oddConfig.baud % 2 = 0 ∨ (BitVec.ofNat oddConfig.bits 0).msb = true) := by decide
  exact hbad hgood.2

end UartModel
