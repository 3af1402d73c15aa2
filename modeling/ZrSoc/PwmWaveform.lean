import Mathlib.Logic.Equiv.Fin.Rotate
import ZrSoc.PeripAccesses
import ZrSoc.PwmCounting
import ZrSoc.TbVerilator

/-!
# The waveform on the PWM pins

As long as `sticky` is clear and nothing is written, channel `k` is high for the counts of an interval: from
`cmpk << scale` on, up to the end of the window, or in the centred mode up to as many counts before the end as
`cmpk << scale`, which `deglitch` puts off to the end.  Every cycle keeps this correspondence, whatever the mode
(`Tracks.succ`), and every reset of the counter starts it (`tracks_of_reset`).  A channel in a gang is low where the
next channel is high.
-/

namespace Pwm8

/-- Nothing is written in this cycle. -/
structure Unwritten (x : Input) : Prop where
  cfg : cfgWrite x = false
  countLo : countLoWrite x = false
  cmp : ∀ k, cmpWrite x k = false

/-- What a cycle without a write keeps. -/
structure Kept (s s' : State) : Prop where
  scale : s'.scale = s.scale
  cmp : s'.cmp = s.cmp
  center : s'.center = s.center
  zerocmp : s'.zerocmp = s.zerocmp
  deglitch : s'.deglitch = s.deglitch
  sticky : s'.sticky = s.sticky
  gang : s'.gang = s.gang
  countAlways : s'.countAlways = s.countAlways

variable (s : State) (x : Input) (i : ℕ → Input) (k : Fin 4)

/-- The first count at which comparator `k` compares, and the one after the last. -/
def rise : ℕ := cmpLimit s k

def compareEnd : ℕ := if s.center.getLsbD k then window s - rise s k else window s

/-- The count at which channel `k` goes low again. -/
def fall : ℕ := if s.deglitch ∧ rise s k < compareEnd s k then window s else compareEnd s k

/-- Channel `k` is high for this count. -/
def High (c : ℕ) : Prop := rise s k ≤ c ∧ c < fall s k

instance (c : ℕ) : Decidable (High s k c) := inferInstanceAs (Decidable (_ ∧ _))

/-- Output `k` is high for this count: a channel in a gang gives way to the next one. -/
def Level (c : ℕ) : Prop := High s k c ∧ ¬ (s.gang.getLsbD k = true ∧ High s (finRotate 4 k) c)

instance (c : ℕ) : Decidable (Level s k c) := inferInstanceAs (Decidable (_ ∧ ¬ (_ ∧ _)))

/-- The number of counts from one reset of the counter to the next. -/
def period : ℕ :=
  let zero : Fin 4 := ⟨0, Nat.zero_lt_succ 3⟩
  if s.zerocmp ∧ rise s zero < compareEnd s zero then rise s zero + 1 else window s

/-- The number of counts of a period for which output `k` is high. -/
def duty : ℕ := (min (period s) (fall s k) - rise s k) -
  if s.gang.getLsbD k then
    min (period s) (min (fall s k) (fall s (finRotate 4 k))) - max (rise s k) (rise s (finRotate 4 k))
  else 0

variable {s x i k}

/-! ### One cycle -/

theorem kept_edge (hx : Unwritten x) : Kept s (edge s x) := by
  constructor <;> simp [edge, hx.cfg, hx.cmp]

theorem Unwritten.quietCycle (hx : Unwritten x) : quietCycle x k = true := by
  simp [Pwm8.quietCycle, hx.cfg, hx.countLo, hx.cmp]

theorem Kept.rise {s' : State} (h : Kept s s') : rise s' k = rise s k := by
  rw [Pwm8.rise, cmpLimit, h.scale, h.cmp, Pwm8.rise, cmpLimit]

theorem Kept.window {s' : State} (h : Kept s s') : window s' = window s := by
  rw [Pwm8.window, h.scale, Pwm8.window]

theorem Kept.compareEnd {s' : State} (h : Kept s s') : compareEnd s' k = compareEnd s k := by
  rw [Pwm8.compareEnd, h.center, h.window, h.rise, Pwm8.compareEnd]

theorem Kept.high {s' : State} (h : Kept s s') {c : ℕ} : High s' k c ↔ High s k c := by
  simp only [High, fall, h.deglitch, h.rise, h.compareEnd, h.window]

theorem Kept.level {s' : State} (h : Kept s s') {c : ℕ} : Level s' k c ↔ Level s k c := by
  rw [Level, h.gang, h.high, h.high, Level]

theorem Kept.trans {s' s'' : State} (h : Kept s s') (h' : Kept s' s'') : Kept s s'' :=
  ⟨h'.scale.trans h.scale, h'.cmp.trans h.cmp, h'.center.trans h.center, h'.zerocmp.trans h.zerocmp,
    h'.deglitch.trans h.deglitch, h'.sticky.trans h.sticky, h'.gang.trans h.gang, h'.countAlways.trans h.countAlways⟩

theorem rise_lt : rise s k < window s := cmpLimit_lt

theorem compareEnd_le : compareEnd s k ≤ window s := by
  unfold compareEnd
  split <;> omega

theorem window_eq : window s = 256 * 2 ^ s.scale.toNat := by
  rw [window, Nat.pow_add]

/-- The comparators see the mirrored count in the second half of the window when they are centred. -/
theorem elapsed_iff (hc : s.pwmcount.toNat < window s) :
    (elapsed s).getLsbD k = true ↔ rise s k ≤ s.pwmcount.toNat ∧ s.pwmcount.toNat < compareEnd s k := by
  have hpos : 0 < 2 ^ s.scale.toNat := by positivity
  have hcmp := (s.cmp k).isLt
  have hpwms := (pwms s).isLt
  rw [pwms_toNat hc] at hpwms
  have hplain : s.cmp k ≤ pwms s ↔ rise s k ≤ s.pwmcount.toNat := by
    rw [BitVec.le_def, pwms_toNat hc, rise, cmpLimit, Nat.shiftLeft_eq, Nat.le_div_iff_mul_le hpos]
  have hmirror : s.cmp k ≤ 255#8 ^^^ pwms s ↔ s.pwmcount.toNat < window s - rise s k := by
    have hnot : (255#8 ^^^ pwms s).toNat = 255 - (pwms s).toNat := by
      rw [show (255#8 : BitVec 8) = BitVec.allOnes 8 from rfl, BitVec.allOnes_xor, BitVec.toNat_not]
    have hlt : s.pwmcount.toNat / 2 ^ s.scale.toNat < 256 - (s.cmp k).toNat ↔
        s.pwmcount.toNat < window s - rise s k := by
      rw [Nat.div_lt_iff_lt_mul hpos, window_eq, rise, cmpLimit, Nat.shiftLeft_eq, Nat.sub_mul]
    rw [← hlt, BitVec.le_def, hnot, pwms_toNat hc]
    omega
  have hhalf : (pwms s).getLsbD 7 = true ↔ window s ≤ 2 * s.pwmcount.toNat := by
    have h128 : 128 ≤ s.pwmcount.toNat / 2 ^ s.scale.toNat ↔ window s ≤ 2 * s.pwmcount.toNat := by
      rw [Nat.le_div_iff_mul_le hpos, window_eq]
      omega
    rw [← h128, ← pwms_toNat hc, ← BitVec.msb_eq_getLsbD_last, BitVec.msb_eq_decide, decide_eq_true_iff]
  rw [elapsed, RegisterPort.getLsbD_nibble, decide_eq_true_iff, pwmsCenter, compareEnd]
  cases hcenter : s.center.getLsbD k with
  | false =>
    rw [Bool.and_false, if_neg Bool.false_ne_true, if_neg Bool.false_ne_true, BitVec.zero_xor, hplain]
    exact (and_iff_left hc).symm
  | true =>
    rw [Bool.and_true, if_pos rfl]
    cases hb : (pwms s).getLsbD 7 with
    | false =>
      have hlt : ¬ window s ≤ 2 * s.pwmcount.toNat := fun h => Bool.false_ne_true (hb.symm.trans (hhalf.2 h))
      rw [if_neg Bool.false_ne_true, BitVec.zero_xor, hplain]
      omega
    | true =>
      rw [if_pos rfl, hmirror]
      have hle := hhalf.1 hb
      omega

/-- The counter is reset after the last count of the window, and with `zerocmp` when comparator 0 compares. -/
theorem countReset_iff (hc : s.pwmcount.toNat < window s) : countReset s = true ↔
    (s.countAlways || s.oneShot) = true ∧ s.pwmcount.toNat + 1 = window s ∨
      s.zerocmp = true ∧ rise s 0 ≤ s.pwmcount.toNat ∧ s.pwmcount.toNat < compareEnd s 0 := by
  have h0 : (elapsed s).getLsbD 0 = true ↔ _ := elapsed_iff (k := 0) hc
  rw [countReset, Bool.or_eq_true, Bool.and_eq_true, scaleCo_iff hc, h0]

theorem ip_edge (hx : Unwritten x) :
    (edge s x).ip.getLsbD k = ((elapsed s).getLsbD k || s.ipClr && s.ip.getLsbD k) := by
  cases h : s.ipClr <;> simp [edge, hx.cfg, h]

theorem getLsbD_gpio : (gpio s).getLsbD k =
    (s.ip.getLsbD k && !(s.gang.getLsbD k && s.ip.getLsbD (finRotate 4 k))) := by
  fin_cases k <;> simp [gpio]

/-- From one count to the next a channel goes up where its comparator compares, and with `deglitch` it does not go down
before the end of the window. -/
theorem high_succ {c : ℕ} (hc : c + 1 < window s) :
    High s k (c + 1) ↔ (rise s k ≤ c + 1 ∧ c + 1 < compareEnd s k) ∨ s.deglitch = true ∧ High s k c := by
  unfold High fall
  have hend := compareEnd_le (s := s) (k := k)
  cases hd : s.deglitch with
  | false => simp
  | true =>
    by_cases h : rise s k < compareEnd s k
    · simp only [h, and_self, if_true, true_and]
      omega
    · simp only [h, and_false, if_false, true_and]
      omega

theorem high_of_compares {c : ℕ} (h : rise s k ≤ c ∧ c < compareEnd s k) : High s k c := by
  have hend := compareEnd_le (s := s) (k := k)
  unfold High fall
  split <;> omega

theorem high_iff_compares {c : ℕ} (hd : s.deglitch = false) : High s k c ↔ rise s k ≤ c ∧ c < compareEnd s k := by
  rw [High, fall, hd, if_neg (fun h => Bool.false_ne_true h.1)]

/-- A channel is high for the count 0 only if its comparator is at 0. -/
theorem cmp_eq_zero_of_high (h : High s k 0) : s.cmp k = 0#8 := by
  have hle : (s.cmp k).toNat * 2 ^ s.scale.toNat ≤ 0 := by
    rw [← Nat.shiftLeft_eq]
    exact h.1
  have hpos : 0 < 2 ^ s.scale.toNat := by positivity
  have hzero := (Nat.mul_eq_zero.1 (Nat.le_zero.1 hle)).resolve_right (Nat.ne_of_gt hpos)
  exact BitVec.eq_of_toNat_eq hzero

theorem high_zero_iff : High s k 0 ↔ rise s k ≤ 0 ∧ 0 < compareEnd s k := by
  refine ⟨fun h => ?_, high_of_compares⟩
  have hlt := rise_lt (s := s) (k := k)
  refine ⟨h.1, ?_⟩
  unfold compareEnd
  split <;> have := h.1 <;> omega

theorem pwmcount_of_countReset (h : countReset s = true) : (edge s x).pwmcount = 0#23 := by
  simp only [edge, h, if_true]

/-- A counter that is not reset goes on, and around after the last of its numbers. -/
theorem pwmcount_of_not_countReset (hx : Unwritten x) (ha : s.countAlways = true) (h : countReset s = false) :
    (edge s x).pwmcount.toNat = (s.pwmcount.toNat + 1) % 2 ^ 23 := by
  simp only [edge, h, hx.countLo, Bool.false_eq_true, if_false]
  rw [BitVec.extractLsb'_toNat, pwmcountInc_toNat, ha, Bool.true_or, Bool.toNat_true, Nat.shiftRight_zero]

/-- The counter stays in the window. -/
theorem pwmcount_edge_lt (hx : Unwritten x) (hc : s.pwmcount.toNat < window s) :
    (edge s x).pwmcount.toNat < window s := by
  rw [pwmcount_edge hx.quietCycle hc]
  have hreset := countReset_iff hc
  have hpos : 0 < window s := by omega
  split
  next => exact hpos
  next h =>
    cases hact : s.countAlways || s.oneShot with
    | false => rwa [Bool.toNat_false]
    | true =>
      have hne : s.pwmcount.toNat + 1 ≠ window s := fun heq => h (hreset.2 (.inl ⟨hact, heq⟩))
      rw [Bool.toNat_true]
      omega

/-! ### Whole runs -/

theorem kept_run (hi : ∀ n, Unwritten (i n)) (n : ℕ) : Kept s ((machineFrom s).run i n) := by
  induction n with
  | zero => exact ⟨rfl, rfl, rfl, rfl, rfl, rfl, rfl, rfl⟩
  | succ n ih =>
    exact ih.trans (kept_edge (hi n))

theorem count_lt (hi : ∀ n, Unwritten (i n)) (hc : s.pwmcount.toNat < window s) (n : ℕ) :
    count s i n < window s := by
  induction n with
  | zero => exact hc
  | succ n ih =>
    rw [← (kept_run (s := s) hi n).window] at ih ⊢
    exact pwmcount_edge_lt (hi n) ih

theorem elapsed_run_iff (hi : ∀ n, Unwritten (i n)) (hc : s.pwmcount.toNat < window s) (n : ℕ) :
    (elapsed ((machineFrom s).run i n)).getLsbD k = true ↔
      rise s k ≤ count s i n ∧ count s i n < compareEnd s k := by
  have hkept := kept_run (s := s) hi n
  have hlt := count_lt hi hc n
  rw [← hkept.window] at hlt
  rw [elapsed_iff hlt, hkept.rise, hkept.compareEnd]
  rfl

variable (s i k)

/-- After cycle `n` channel `k` is high as for the count of cycle `n`. -/
def Tracks (n : ℕ) : Prop := ((machineFrom s).run i (n + 1)).ip.getLsbD k = true ↔ High s k (count s i n)

variable {s i k}

theorem ip_run (hi : ∀ n, Unwritten (i n)) (n : ℕ) : ((machineFrom s).run i (n + 1)).ip.getLsbD k =
    ((elapsed ((machineFrom s).run i n)).getLsbD k ||
      ((machineFrom s).run i n).ipClr && ((machineFrom s).run i n).ip.getLsbD k) := ip_edge (hi n)

theorem ipClr_run (hi : ∀ n, Unwritten (i n)) (hs : s.sticky = false) (n : ℕ) :
    ((machineFrom s).run i (n + 1)).ipClr = (s.deglitch && !countReset ((machineFrom s).run i n)) := by
  have hkept := kept_run (s := s) hi n
  change (_ && _ || _) = _
  rw [hkept.sticky, hs, hkept.deglitch, Bool.or_false]

/-- A counter that begins at 0 with nothing to keep in the channels makes them follow it. -/
theorem tracks_zero (hi : ∀ n, Unwritten (i n)) (h0 : s.pwmcount = 0#23) (hip : s.ipClr = false ∨ s.ip = 0#4) :
    Tracks s i k 0 := by
  have hzero : s.pwmcount.toNat = 0 := by rw [h0]; rfl
  have hc : s.pwmcount.toNat < window s := by
    rw [hzero]
    unfold window
    positivity
  have hkept : (s.ipClr && s.ip.getLsbD k) = false := by
    rcases hip with h | h
    · rw [h, Bool.false_and]
    · rw [h, BitVec.getLsbD_zero, Bool.and_false]
  have hnext : ((machineFrom s).run i (0 + 1)).ip.getLsbD k =
      ((elapsed ((machineFrom s).run i 0)).getLsbD k || s.ipClr && s.ip.getLsbD k) := ip_run hi 0
  rw [Tracks, hnext, hkept, Bool.or_false, elapsed_run_iff hi hc, show count s i 0 = 0 from hzero]
  exact high_zero_iff.symm

/-- So does a reset of the counter. -/
theorem tracks_of_reset (hi : ∀ n, Unwritten (i n)) (hc : s.pwmcount.toNat < window s) (hs : s.sticky = false)
    {n : ℕ} (hn : countReset ((machineFrom s).run i n) = true) : Tracks s i k (n + 1) := by
  have hcount : count s i (n + 1) = 0 := by
    rw [count_succ (fun m => (hi m).quietCycle) (count_lt hi hc n), if_pos hn]
  rw [Tracks, ip_run hi, ipClr_run hi hs, hn, Bool.not_true, Bool.and_false, Bool.false_and, Bool.or_false,
    elapsed_run_iff hi hc, hcount]
  exact high_zero_iff.symm

/-- And every cycle keeps them so, whether it lets the counter go on, stop or start again. -/
theorem Tracks.succ (hi : ∀ n, Unwritten (i n)) (hc : s.pwmcount.toNat < window s) (hs : s.sticky = false)
    {n : ℕ} (h : Tracks s i k n) : Tracks s i k (n + 1) := by
  cases hreset : countReset ((machineFrom s).run i n) with
  | true => exact tracks_of_reset hi hc hs hreset
  | false =>
    have hlt := count_lt hi hc (n + 1)
    have hcount := count_succ (fun m => (hi m).quietCycle) (count_lt hi hc n)
    rw [if_neg (by simp [hreset])] at hcount
    have hip : ((machineFrom s).run i (n + 1 + 1)).ip.getLsbD k = true ↔
        (rise s k ≤ count s i (n + 1) ∧ count s i (n + 1) < compareEnd s k) ∨
          s.deglitch = true ∧ High s k (count s i n) := by
      rw [ip_run hi, ipClr_run hi hs, hreset, Bool.or_eq_true, Bool.and_eq_true, elapsed_run_iff hi hc,
        Bool.not_false, Bool.and_true, show _ ↔ _ from h]
    rw [Tracks, hip]
    cases hact : s.countAlways || ((machineFrom s).run i n).oneShot with
    | false =>
      -- the counter stands still
      rw [hact, Bool.toNat_false, Nat.add_zero] at hcount
      rw [hcount]
      refine ⟨fun h => h.elim high_of_compares fun h => h.2, fun h => ?_⟩
      cases hd : s.deglitch with
      | false => exact .inl ((high_iff_compares hd).1 h)
      | true => exact .inr ⟨rfl, h⟩
    | true =>
      rw [hact, Bool.toNat_true] at hcount
      rw [hcount] at hlt ⊢
      exact (high_succ hlt).symm

theorem Tracks.le (hi : ∀ n, Unwritten (i n)) (hc : s.pwmcount.toNat < window s) (hs : s.sticky = false)
    {m n : ℕ} (h : Tracks s i k m) (hmn : m ≤ n) : Tracks s i k n := by
  induction n, hmn using Nat.le_induction with
  | base => exact h
  | succ n _ ih => exact ih.succ hi hc hs

/-- So does the output behind the gang. -/
theorem gpio_run_iff (hi : ∀ n, Unwritten (i n)) {n : ℕ} (h : ∀ k, Tracks s i k n) :
    (gpio ((machineFrom s).run i (n + 1))).getLsbD k = true ↔ Level s k (count s i n) := by
  have hk : _ ↔ _ := h k
  have hnext : _ ↔ _ := h (finRotate 4 k)
  rw [getLsbD_gpio, Bool.and_eq_true, Bool.not_eq_true', ← Bool.not_eq_true, Bool.and_eq_true, hk, hnext,
    (kept_run (s := s) hi (n + 1)).gang]
  exact Iff.rfl

/-! ### The modes -/

theorem period_eq :
    period s = if s.zerocmp ∧ rise s 0 < compareEnd s 0 then rise s 0 + 1 else window s := rfl

theorem period_pos : 0 < period s := by
  rw [period_eq]
  unfold window
  split <;> positivity

theorem period_le : period s ≤ window s := by
  have hlt := rise_lt (s := s) (k := 0)
  rw [period_eq]
  split <;> omega

/-- A counter that is running is reset after the last count of the period. -/
theorem countReset_iff_period (hact : (s.countAlways || s.oneShot) = true) (hc : s.pwmcount.toNat < period s) :
    countReset s = true ↔ s.pwmcount.toNat + 1 = period s := by
  have hlt := rise_lt (s := s) (k := 0)
  have hend := compareEnd_le (s := s) (k := 0)
  rw [countReset_iff (Nat.lt_of_lt_of_le hc period_le), and_iff_right hact]
  by_cases h : s.zerocmp ∧ rise s 0 < compareEnd s 0
  · rw [period_eq, if_pos h] at hc ⊢
    rw [and_iff_right h.1]
    omega
  · rw [period_eq, if_neg h] at hc ⊢
    refine or_iff_left fun hz => h ⟨hz.1, ?_⟩
    omega

theorem Kept.period {s' : State} (h : Kept s s') : period s' = period s := by
  rw [period_eq, h.zerocmp, h.rise, h.compareEnd, h.window, ← period_eq]

theorem countReset_run_iff_period (hi : ∀ n, Unwritten (i n)) {n : ℕ}
    (hact : (s.countAlways || ((machineFrom s).run i n).oneShot) = true) (hn : count s i n < period s) :
    countReset ((machineFrom s).run i n) = true ↔ count s i n + 1 = period s := by
  have hkept := kept_run (s := s) hi n
  rw [← hkept.period] at hn ⊢
  exact countReset_iff_period (by rwa [hkept.countAlways]) hn

theorem always_count_eq (hi : ∀ n, Unwritten (i n)) (ha : s.countAlways = true) (hc : s.pwmcount.toNat < period s)
    (n : ℕ) : count s i n = (s.pwmcount.toNat + n) % period s := by
  refine Sync.count_eq_mod hc rfl (fun m hm => ?_) n
  have hreset := countReset_run_iff_period hi (by rw [ha, Bool.true_or]) hm
  rw [count_succ (fun n => (hi n).quietCycle) (Nat.lt_of_lt_of_le hm period_le)]
  simp [hreset, ha]

/-- In always mode the outputs follow a counter that begins at 0 with nothing to keep. -/
theorem always_gpio_iff (hi : ∀ n, Unwritten (i n)) (hs : s.sticky = false) (ha : s.countAlways = true)
    (h0 : s.pwmcount = 0#23) (hclr : s.ipClr = false) (n : ℕ) :
    (gpio ((machineFrom s).run i (n + 1))).getLsbD k = true ↔ Level s k (n % period s) := by
  have hzero : s.pwmcount.toNat = 0 := by rw [h0]; rfl
  have hc : s.pwmcount.toNat < period s := hzero ▸ period_pos
  have hlt := Nat.lt_of_lt_of_le hc period_le
  rw [gpio_run_iff hi fun j => (tracks_zero hi h0 (.inl hclr)).le hi hlt hs (Nat.zero_le n), always_count_eq hi ha hc,
    hzero, Nat.zero_add]

/-- That is what a reset of the counter leaves, wherever the counter stood. -/
theorem always_gpio_of_countReset (hi : ∀ n, Unwritten (i n)) (hs : s.sticky = false) (ha : s.countAlways = true)
    (hr : countReset s = true) (n : ℕ) :
    (gpio ((machineFrom (edge s (i 0))).run (fun j => i (1 + j)) (n + 1))).getLsbD k = true ↔
      Level s k (n % period s) := by
  have hkept : Kept s (edge s (i 0)) := kept_edge (hi 0)
  have hclr : (edge s (i 0)).ipClr = false := by
    change (s.deglitch && !countReset s || s.sticky) = false
    rw [hr, hs, Bool.not_true, Bool.and_false, Bool.or_false]
  rw [always_gpio_iff (fun j => hi (1 + j)) (hkept.sticky.trans hs) (hkept.countAlways.trans ha)
    (pwmcount_of_countReset hr) hclr, hkept.period, hkept.level]

/-- And a counter that is running is reset before it has gone through a window. -/
theorem exists_countReset (hi : ∀ n, Unwritten (i n)) (ha : s.countAlways = true) :
    ∃ n < window s, countReset ((machineFrom s).run i n) = true := by
  by_contra hnone
  push Not at hnone
  have hpos : 0 < window s := by unfold window; positivity
  have hdvd : window s ∣ 2 ^ 23 := Nat.pow_dvd_pow 2 (by have := s.scale.isLt; omega)
  have hcount : ∀ n < window s, count s i n % window s = (s.pwmcount.toNat + n) % window s := by
    intro n
    induction n with
    | zero => exact fun _ => rfl
    | succ n ih =>
      intro hn
      have hno : countReset ((machineFrom s).run i n) = false := Bool.eq_false_iff.2 (hnone n (by omega))
      have halways := (kept_run (s := s) hi n).countAlways.trans ha
      have hsucc : count s i (n + 1) = (count s i n + 1) % 2 ^ 23 := pwmcount_of_not_countReset (hi n) halways hno
      rw [hsucc, Nat.mod_mod_of_dvd _ hdvd, Nat.add_mod, ih (by omega), ← Nat.add_mod, Nat.add_assoc]
  have hlt := Nat.mod_lt s.pwmcount.toNat hpos
  obtain ⟨n, hn⟩ : ∃ n, s.pwmcount.toNat % window s + n + 1 = window s :=
    ⟨window s - s.pwmcount.toNat % window s - 1, by omega⟩
  have hkept := kept_run (s := s) hi n
  refine hnone n (by omega) ?_
  have hco : scaleCo ((machineFrom s).run i n) = true := by
    refine scaleCo_of_last (by rw [hkept.countAlways, ha, Bool.true_or]) ?_
    have hlast : (count s i n + 1) % window s = 0 := by
      rw [Nat.add_mod, hcount n (by omega), ← Nat.add_mod, Nat.add_assoc, ← Nat.mod_add_mod, ← Nat.add_assoc, hn,
        Nat.mod_self]
    rwa [hkept.window]
  rw [countReset, hco, Bool.true_or]

theorem oneShot_stops_period (hi : ∀ n, Unwritten (i n)) (ho : s.oneShot = true) (ha : s.countAlways = false)
    (hc : s.pwmcount.toNat < period s) :
    Sync.Stops (count s i) (fun n => ((machineFrom s).run i n).oneShot) s.pwmcount.toNat (period s) := by
  have hflag (n : ℕ) : ((machineFrom s).run i (n + 1)).oneShot =
      (((machineFrom s).run i n).oneShot && !countReset ((machineFrom s).run i n)) := oneShot_edge (hi n).quietCycle
  have hcount := count_lt hi (Nat.lt_of_lt_of_le hc period_le)
  have hsucc (n : ℕ) := count_succ (fun n => (hi n).quietCycle) (hcount n)
  refine Sync.stops_of_step hc rfl ho (fun n hact hn => ?_) (fun n hact hn => ?_) (fun n hact hn => ?_)
  · have hno : countReset ((machineFrom s).run i n) = false := by
      rw [Bool.eq_false_iff, Ne, countReset_run_iff_period hi (by rw [hact, Bool.or_true]) (by omega)]
      omega
    rw [hsucc, hflag, hno, hact]
    simp
  · have hreset := (countReset_run_iff_period hi (by rw [hact, Bool.or_true]) (by omega)).2 hn
    rw [hsucc, hflag, hreset]
    simp
  · rw [hsucc, hflag, hact, ha, hn]
    simp

/-- In one-shot mode, from rest, they go through the period once. -/
theorem oneShot_gpio_iff (hi : ∀ n, Unwritten (i n)) (hs : s.sticky = false) (ho : s.oneShot = true)
    (ha : s.countAlways = false) (h0 : s.pwmcount = 0#23) (hip : s.ip = 0#4) (n : ℕ) :
    (gpio ((machineFrom s).run i (n + 1))).getLsbD k = true ↔ Level s k (if n < period s then n else 0) := by
  have hzero : s.pwmcount.toNat = 0 := by rw [h0]; rfl
  have hc : s.pwmcount.toNat < period s := hzero ▸ period_pos
  have hlt := Nat.lt_of_lt_of_le hc period_le
  have hstops := oneShot_stops_period hi ho ha hc
  have hcount : count s i n = if n < period s then n else 0 := by
    split
    next h => rw [(hstops.climbs n (by omega)).1, hzero, Nat.zero_add]
    next h => exact (hstops.stops n (by omega)).1
  rw [gpio_run_iff hi fun j => (tracks_zero hi h0 (.inr hip)).le hi hlt hs (Nat.zero_le n), hcount]

/-! ### The duty cycle -/

/-- Of the interval of the channel a gang takes the part that the next channel shares with it. -/
theorem filter_level : (Finset.range (period s)).filter (Level s k) =
    Finset.Ico (rise s k) (min (period s) (fall s k)) \
      if s.gang.getLsbD k then Finset.Ico (max (rise s k) (rise s (finRotate 4 k)))
        (min (period s) (min (fall s k) (fall s (finRotate 4 k)))) else ∅ := by
  ext c
  rw [Finset.mem_filter, Finset.mem_range, Finset.mem_sdiff, Finset.mem_Ico, Level, High, High]
  cases s.gang.getLsbD k with
  | false =>
    simp only [Bool.false_eq_true, false_and, not_false_eq_true, and_true, if_false, Finset.notMem_empty]
    omega
  | true =>
    simp only [true_and, if_true, Finset.mem_Ico]
    omega

theorem count_level : Nat.count (Level s k) (period s) = duty s k := by
  rw [Nat.count_eq_card_filter_range, filter_level, duty]
  cases s.gang.getLsbD k with
  | false => rw [if_neg Bool.false_ne_true, if_neg Bool.false_ne_true, Finset.sdiff_empty, Nat.card_Ico, Nat.sub_zero]
  | true =>
    rw [if_pos rfl, if_pos rfl, Finset.card_sdiff_of_subset, Nat.card_Ico, Nat.card_Ico]
    exact Finset.Ico_subset_Ico (Nat.le_max_left _ _) (by omega)

end Pwm8

namespace TbVerilator

open Pwm8 (Unwritten Level period duty window countReset)

variable (r : PowerOn) (cfg : UartModel.Config) (i : ℕ → Input)

/-- The ports of `u_sirv_pwm8` in cycle `n`. -/
def pwmInput (n : ℕ) : Pwm8.Input := PeripSlots.pwmInput (peripsInput (run r cfg i n).perips (i n))

/-- Pin `k` in cycle `n`. -/
def pin (k n : ℕ) : Bool := (ioGpioO (run r cfg i n).perips).getLsbD k

variable {r cfg i} {m : ℕ} {s : Pwm8.State} {k : Fin 4}

theorem pwm0_run (hs : (run r cfg i m).perips.pwm0 = s) (n : ℕ) :
    (run r cfg i (m + n)).perips.pwm0 = (Pwm8.machineFrom s).run (fun j => pwmInput r cfg i (m + j)) n :=
  Sync.Machine.run_part_after (M := machine r cfg) (fun t => t.perips.pwm0)
    (fun t x => PeripSlots.pwmInput (peripsInput t.perips x)) (fun _ _ => rfl) i hs n

/-- A pin with function 1 shows the output of the PWM block. -/
theorem pin_eq_gpio {n : ℕ} (h : Gpio.RoutedOne (run r cfg i n).perips.gpio k) :
    pin r cfg i k n = (Pwm8.gpio (run r cfg i n).perips.pwm0).getLsbD k := by
  have hvalid : ∀ (b : BitVec 4) (j : Fin 4), (SubsysPerips.gpioIof1 b).valid.getLsbD j = true ∧
      (SubsysPerips.gpioIof1 b).oval.getLsbD j = b.getLsbD j := by decide
  calc pin r cfg i k n = (iof1 (run r cfg i n).perips).oval.getLsbD k := h.pinsOval (by omega) (hvalid _ k).1
    _ = (Pwm8.gpio (run r cfg i n).perips.pwm0).getLsbD k := (hvalid _ k).2

theorem pin_eq (hs : (run r cfg i m).perips.pwm0 = s) (hk : ∀ n, m ≤ n → Gpio.RoutedOne (run r cfg i n).perips.gpio k)
    (n : ℕ) : pin r cfg i k (m + n) =
      (Pwm8.gpio ((Pwm8.machineFrom s).run (fun j => pwmInput r cfg i (m + j)) n)).getLsbD k := by
  rw [pin_eq_gpio (hk _ (Nat.le_add_right m n)), pwm0_run hs]

/-- The counter of a block that runs in always mode and is not written any more comes to a reset, wherever it stands,
and from any reset on a pin of the block shows the waveform of its channel, and is high for `duty` cycles of every
period. -/
theorem pwm_waveform (hs : (run r cfg i m).perips.pwm0 = s) (hi : ∀ n, m ≤ n → Unwritten (pwmInput r cfg i n))
    (hk : ∀ n, m ≤ n → Gpio.RoutedOne (run r cfg i n).perips.gpio k) (hsticky : s.sticky = false)
    (ha : s.countAlways = true) :
    (∃ n < window s, countReset (run r cfg i (m + n)).perips.pwm0 = true) ∧
      ∀ n, countReset (run r cfg i (m + n)).perips.pwm0 = true → ∀ j,
        (pin r cfg i k (m + n + 1 + (j + 1)) = true ↔ Level s k (j % period s)) ∧
          Nat.count (fun l => pin r cfg i k (m + n + 1 + (j + l + 1)) = true) (period s) = duty s k := by
  have hquiet (j : ℕ) : Unwritten (pwmInput r cfg i (m + j)) := hi _ (Nat.le_add_right m j)
  constructor
  · obtain ⟨n, hn, hreset⟩ := Pwm8.exists_countReset hquiet ha
    exact ⟨n, hn, by rwa [pwm0_run hs]⟩
  · intro n hreset j
    have hkept : Pwm8.Kept s (run r cfg i (m + n)).perips.pwm0 := by
      rw [pwm0_run hs]
      exact Pwm8.kept_run hquiet n
    have hpin (j : ℕ) : pin r cfg i k (m + n + 1 + (j + 1)) = true ↔ Level s k (j % period s) := by
      rw [pin_eq (m := m + n + 1) rfl fun l hl => hk l (by omega), ← hkept.level, ← hkept.period,
        ← Pwm8.always_gpio_of_countReset (i := fun l => pwmInput r cfg i (m + n + l)) (fun l => hi _ (by omega))
          (hkept.sticky.trans hsticky) (hkept.countAlways.trans ha) hreset j]
      simp only [Nat.add_assoc]
      rfl
    refine ⟨hpin j, ?_⟩
    calc Nat.count (fun l => pin r cfg i k (m + n + 1 + (j + l + 1)) = true) (period s)
        = Nat.count (fun l => Level s k ((j + l) % period s)) (period s) :=
          Sync.count_congr fun l _ => by rw [hpin]
      _ = Nat.count (Level s k) (period s) := Sync.count_mod _ _
      _ = duty s k := Pwm8.count_level

/-- In one-shot mode, from rest, the pin goes through the waveform once; if the comparator is not at 0 it then stays
low, so that it has been high for `duty` cycles. -/
theorem pwm_pulse (hs : (run r cfg i m).perips.pwm0 = s) (hi : ∀ n, m ≤ n → Unwritten (pwmInput r cfg i n))
    (hk : ∀ n, m ≤ n → Gpio.RoutedOne (run r cfg i n).perips.gpio k) (hsticky : s.sticky = false)
    (ho : s.oneShot = true) (ha : s.countAlways = false) (h0 : s.pwmcount = 0#23) (hip : s.ip = 0#4) :
    (∀ n, pin r cfg i k (m + (n + 1)) = true ↔ Level s k (if n < period s then n else 0)) ∧
      (s.cmp k ≠ 0#8 → ∀ n, period s ≤ n →
        Nat.count (fun j => pin r cfg i k (m + (j + 1)) = true) n = duty s k) := by
  have hpin (n : ℕ) : pin r cfg i k (m + (n + 1)) = true ↔ Level s k (if n < period s then n else 0) := by
    rw [pin_eq hs hk]
    exact Pwm8.oneShot_gpio_iff (fun j => hi _ (Nat.le_add_right m j)) hsticky ho ha h0 hip n
  refine ⟨hpin, fun hcmp n hn => ?_⟩
  have hlow : ¬ Level s k 0 := fun h => hcmp (Pwm8.cmp_eq_zero_of_high h.1)
  obtain ⟨d, rfl⟩ := Nat.exists_eq_add_of_le hn
  have hfirst : Nat.count (fun j => pin r cfg i k (m + (j + 1)) = true) (period s) = duty s k := by
    rw [← Pwm8.count_level]
    exact Sync.count_congr fun j hj => by rw [hpin, if_pos hj]
  have hrest : Nat.count (fun j => pin r cfg i k (m + (period s + j + 1)) = true) d = 0 := by
    rw [Nat.count_iff_forall_not]
    intro j _
    rwa [hpin, if_neg (by omega)]
  rw [Nat.count_add, hfirst, hrest, Nat.add_zero]

/-! ### Two runs -/

/-- Pin 1 is given to the PWM block, comparator 0 is set to 9, comparator 1 to 4, and the mode to `mode`. -/
def drive (mode : BitVec 32) (n : ℕ) : Input :=
  if n = 0 then access true .gpio false 0x10012038#32 2#32
  else if n = 1 then access true .gpio false 0x1001203c#32 2#32
  else if n = 2 then access true .pwm0 false 0x10015020#32 9#32
  else if n = 3 then access true .pwm0 false 0x10015024#32 4#32
  else if n = 4 then access true .pwm0 false 0x10015000#32 mode
  else access false .gpio true 0#32 0#32

def driveConfig : UartModel.Config where
  ctrlBaudClks := 18
  ctrlBits := 8
  ctrlStops := 1

abbrev driveRun (mode : BitVec 32) (n : ℕ) : State := run zeroPowerOn driveConfig (drive mode) n

variable {mode : BitVec 32}

theorem drive_of_le {n : ℕ} (hn : 5 ≤ n) : drive mode n = access false .gpio true 0#32 0#32 := by
  have h : n ≠ 0 ∧ n ≠ 1 ∧ n ≠ 2 ∧ n ≠ 3 ∧ n ≠ 4 := by omega
  simp only [drive, h.1, h.2.1, h.2.2.1, h.2.2.2.1, h.2.2.2.2, if_false]

theorem unwritten_drive {n : ℕ} (hn : 5 ≤ n) : Unwritten (pwmInput zeroPowerOn driveConfig (drive mode) n) := by
  have hdrive : drive mode n = access false .gpio true 0#32 0#32 := drive_of_le hn
  have hport : (pwmInput zeroPowerOn driveConfig (drive mode) n).port =
      ((access false .gpio true 0#32 0#32).slot .pwm0).port := by rw [← hdrive]; rfl
  refine ⟨?_, ?_, fun k => ?_⟩
  · rw [Pwm8.cfgWrite, hport]; rfl
  · rw [Pwm8.countLoWrite, hport]; rfl
  · rw [Pwm8.cmpWrite, hport]; rfl

theorem puts_gpio_drive {n : ℕ} (hn : 2 ≤ n) : RegisterPort.puts ((drive mode n).slot .gpio).port = false := by
  rcases Nat.lt_or_ge n 5 with h | h
  · interval_cases n <;> rfl
  · rw [drive_of_le h]
    rfl

/-- After the first two cycles the registers of the GPIO block are not written any more. -/
theorem stored_drive {n : ℕ} (hn : 2 ≤ n) (k : BitVec 5) :
    Gpio.stored (driveRun mode n).perips.gpio k = Gpio.stored (driveRun mode 2).perips.gpio k := by
  induction n, hn using Nat.le_induction with
  | base => rfl
  | succ n hn ih =>
    have hedge : Gpio.stored (driveRun mode (n + 1)).perips.gpio k = _ :=
      Gpio.stored_edge (x := PeripSlots.gpioInput (peripsInput (driveRun mode n).perips (drive mode n))) rfl
    have hport : (PeripSlots.gpioInput (peripsInput (driveRun mode n).perips (drive mode n))).port =
        ((drive mode n).slot .gpio).port := rfl
    rw [hedge, hport, puts_gpio_drive hn, ← ih]
    exact Option.map_id'

theorem routed_drive {n : ℕ} (hn : 5 ≤ n) : Gpio.RoutedOne (driveRun mode n).perips.gpio (1 : Fin 4) := by
  have hmode : driveRun mode 2 = driveRun 0#32 2 :=
    Sync.Machine.run_congr _ fun m hm => by interval_cases m <;> rfl
  have hstored (k : BitVec 5) :
      Gpio.stored (driveRun mode n).perips.gpio k = Gpio.stored (driveRun 0#32 2).perips.gpio k := by
    rw [stored_drive (by omega), hmode]
  have hen := Option.some.inj (hstored 14#5)
  have hsel := Option.some.inj (hstored 15#5)
  have hxor := Option.some.inj (hstored 16#5)
  constructor
  · rw [hen]
    decide +kernel
  · rw [hsel]
    decide +kernel
  · rw [hxor]
    decide +kernel

/-- The PWM block after the writes. -/
abbrev driven (mode : BitVec 32) : Pwm8.State := (driveRun mode 5).perips.pwm0

/-- In always mode with `zerocmp` pin 1 is high for 6 cycles of every 10 after the counter has been reset. -/
theorem pwm_waveform_drive :
    pin zeroPowerOn driveConfig (drive 0x1200#32) (1 : Fin 4) (5 + 9 + 1 + (17 + 1)) = true ∧
      Nat.count (fun j =>
        pin zeroPowerOn driveConfig (drive 0x1200#32) (1 : Fin 4) (5 + 9 + 1 + (17 + j + 1)) = true) 10 = 6 := by
  have hs : (driveRun 0x1200#32 5).perips.pwm0 = driven 0x1200#32 := rfl
  have hperiod : period (driven 0x1200#32) = 10 := by decide +kernel
  have hduty : duty (driven 0x1200#32) 1 = 6 := by decide +kernel
  have hreset : countReset (driveRun 0x1200#32 (5 + 9)).perips.pwm0 = true := by decide +kernel
  have h := (pwm_waveform hs (fun n hn => unwritten_drive hn) (fun n hn => routed_drive hn) (by decide +kernel)
    (by decide +kernel)).2 9 hreset 17
  rw [hperiod, hduty] at h
  exact ⟨h.1.2 (by decide +kernel), h.2⟩

/-- In one-shot mode it gives one pulse of 252 cycles. -/
theorem pwm_pulse_drive :
    pin zeroPowerOn driveConfig (drive 0x2000#32) (1 : Fin 4) (5 + (255 + 1)) = true ∧
      Nat.count (fun j => pin zeroPowerOn driveConfig (drive 0x2000#32) (1 : Fin 4) (5 + (j + 1)) = true)
        1000 = 252 := by
  have hs : (driveRun 0x2000#32 5).perips.pwm0 = driven 0x2000#32 := rfl
  have hperiod : period (driven 0x2000#32) = 256 := by decide +kernel
  have hduty : duty (driven 0x2000#32) 1 = 252 := by decide +kernel
  have h := pwm_pulse hs (fun n hn => unwritten_drive hn) (fun n hn => routed_drive hn) (by decide +kernel)
    (by decide +kernel) (by decide +kernel) (by decide +kernel) (by decide +kernel)
  rw [hperiod, hduty] at h
  exact ⟨(h.1 255).2 (by decide +kernel), h.2 (by decide +kernel) 1000 (by omega)⟩

end TbVerilator
