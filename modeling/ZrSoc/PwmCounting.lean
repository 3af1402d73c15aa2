import ZrSoc.Pwm8
import ZrSoc.Sync.Counter

/-!
# The counter of the PWM block

As long as the counter is below `2^(8+scale)`, it is reset by the carry out of the window if and only if it is the last
number of it (`scaleCo_iff`), and by comparator 0 if and only if it is at least `cmp0 << scale` (`elapsed_zero_iff`).
So with no writes in between it counts once through the window in one-shot mode, and again and again in always mode,
with `zerocmp` up to `cmp0 << scale` only (`pwm_counts`).
-/

namespace Pwm8

variable (s : State) (x : Input) (i : ℕ → Input)

/-- The block from the registers `s` on. -/
def machineFrom : Sync.Machine State Input where
  reset := s
  edge := edge

/-- The configuration, the counter and comparator `k` are not written in this cycle. -/
def quietCycle (k : Fin 4) : Bool := !cfgWrite x && !countLoWrite x && !cmpWrite x k

/-- The number of counts of the window that `scale` selects. -/
def window : ℕ := 2 ^ (8 + s.scale.toNat)

/-- `cmpk << scale` -/
def cmpLimit (k : Fin 4) : ℕ := (s.cmp k).toNat <<< s.scale.toNat

/-- The registers that a cycle without a write keeps. -/
structure SameConfig (s s' : State) : Prop where
  scale : s'.scale = s.scale
  cmp : s'.cmp 0 = s.cmp 0
  center : s'.center = s.center
  zerocmp : s'.zerocmp = s.zerocmp
  countAlways : s'.countAlways = s.countAlways

variable {s x i}

theorem sameConfig_edge (hx : quietCycle x 0 = true) : SameConfig s (edge s x) := by
  simp only [quietCycle, Bool.and_eq_true, Bool.not_eq_true'] at hx
  obtain ⟨⟨hcfg, -⟩, hcmp⟩ := hx
  constructor <;> simp [edge, hcfg, hcmp]

theorem sameConfig_run (hi : ∀ n, quietCycle (i n) 0 = true) (n : ℕ) : SameConfig s ((machineFrom s).run i n) := by
  induction n with
  | zero => exact ⟨rfl, rfl, rfl, rfl, rfl⟩
  | succ n ih =>
    have h : SameConfig ((machineFrom s).run i n) ((machineFrom s).run i (n + 1)) := sameConfig_edge (hi n)
    exact ⟨h.scale.trans ih.scale, h.cmp.trans ih.cmp, h.center.trans ih.center, h.zerocmp.trans ih.zerocmp,
      h.countAlways.trans ih.countAlways⟩

theorem window_le : window s ≤ 2 ^ 23 := Nat.pow_le_pow_right (by decide) (by have := s.scale.isLt; omega)

/-! ### One cycle -/

theorem pwmcountInc_toNat :
    (pwmcountInc s).toNat = s.pwmcount.toNat + (s.countAlways || s.oneShot).toNat := by
  have hlt := s.pwmcount.isLt
  have hle : (s.countAlways || s.oneShot).toNat ≤ 1 := Bool.toNat_le _
  rw [pwmcountInc, BitVec.toNat_add, BitVec.toNat_setWidth, BitVec.toNat_setWidth, BitVec.toNat_ofBool]
  omega

theorem scaleCo_eq : scaleCo s =
    (s.pwmcount.toNat.testBit (8 + s.scale.toNat) ^^ (pwmcountInc s).toNat.testBit (8 + s.scale.toNat)) := by
  have hlt := s.scale.isLt
  simp only [scaleCo, BitVec.getLsbD_ushiftRight, BitVec.getLsbD_xor, BitVec.getLsbD_setWidth,
    BitVec.getLsbD_extractLsb', Nat.add_zero, BitVec.testBit_toNat, decide_eq_true hlt, Bool.true_and]
  by_cases h : s.scale.toNat < 15
  · rw [decide_eq_true h, Bool.true_and]
  · rw [decide_eq_false h, Bool.false_and, BitVec.getLsbD_of_ge s.pwmcount _ (by omega)]

/-- The carry out of the window. -/
theorem scaleCo_iff (hc : s.pwmcount.toNat < window s) : scaleCo s = true ↔
    (s.countAlways || s.oneShot) = true ∧ s.pwmcount.toNat + 1 = window s := by
  rw [scaleCo_eq, pwmcountInc_toNat, Nat.testBit_lt_two_pow hc, Bool.false_xor]
  cases s.countAlways || s.oneShot with
  | false => simp [Nat.testBit_lt_two_pow hc]
  | true =>
    rw [Bool.toNat_true, and_iff_right rfl]
    rcases Nat.lt_or_eq_of_le (Nat.succ_le_of_lt hc) with hlt | heq
    · rw [Nat.testBit_lt_two_pow hlt]
      simp [Nat.ne_of_lt hlt]
    · rw [show s.pwmcount.toNat + 1 = 2 ^ (8 + s.scale.toNat) from heq, Nat.testBit_two_pow_self]
      simp [window]

/-- The carry comes after the last number of every window, wherever the counter stands. -/
theorem scaleCo_of_last (ha : (s.countAlways || s.oneShot) = true) (hc : (s.pwmcount.toNat + 1) % window s = 0) :
    scaleCo s = true := by
  have hquot : (s.pwmcount.toNat + 1) / window s = s.pwmcount.toNat / window s + 1 :=
    Nat.succ_div_of_dvd (Nat.dvd_of_mod_eq_zero hc)
  rw [scaleCo_eq, pwmcountInc_toNat, ha, Bool.toNat_true, Nat.testBit_eq_decide_div_mod_eq,
    Nat.testBit_eq_decide_div_mod_eq, ← window, hquot]
  rcases Nat.mod_two_eq_zero_or_one (s.pwmcount.toNat / window s) with h | h <;> simp [h, Nat.add_mod]

theorem pwms_toNat (hc : s.pwmcount.toNat < window s) :
    (pwms s).toNat = s.pwmcount.toNat / 2 ^ s.scale.toNat := by
  have hlt : s.pwmcount.toNat / 2 ^ s.scale.toNat < 2 ^ 8 := by
    rw [Nat.div_lt_iff_lt_mul (by positivity), ← Nat.pow_add]
    exact hc
  rw [pwms, BitVec.toNat_setWidth, BitVec.toNat_ushiftRight, Nat.shiftRight_eq_div_pow, Nat.mod_eq_of_lt hlt]

/-- Comparator 0, when it is not centred. -/
theorem elapsed_zero_iff (hc : s.pwmcount.toNat < window s) (hcenter : s.center.getLsbD 0 = false) :
    (elapsed s).getLsbD 0 = true ↔ cmpLimit s 0 ≤ s.pwmcount.toNat := by
  have hbit : (elapsed s).getLsbD 0 = decide (s.cmp 0 ≤ pwms s) := by
    simp only [elapsed, RegisterPort.nibble, pwmsCenter, BitVec.getLsbD_append, BitVec.getLsbD_ofBool]
    simp [-BitVec.getLsbD_eq_getElem, hcenter]
  rw [hbit, decide_eq_true_iff, BitVec.le_def, pwms_toNat hc, cmpLimit, Nat.shiftLeft_eq,
    Nat.le_div_iff_mul_le (by positivity)]

theorem cmpLimit_lt {k : Fin 4} : cmpLimit s k < window s := by
  have hlt := (s.cmp k).isLt
  rw [cmpLimit, window, Nat.shiftLeft_eq, Nat.pow_add]
  exact Nat.mul_lt_mul_of_pos_right hlt (by positivity)

/-- A cycle without a write resets the counter or lets it go on. -/
theorem pwmcount_edge (hx : quietCycle x 0 = true) (hc : s.pwmcount.toNat < window s) :
    (edge s x).pwmcount.toNat =
      if countReset s = true then 0 else s.pwmcount.toNat + (s.countAlways || s.oneShot).toNat := by
  simp only [quietCycle, Bool.and_eq_true, Bool.not_eq_true'] at hx
  obtain ⟨⟨-, hcountLo⟩, -⟩ := hx
  simp only [edge, hcountLo, Bool.false_eq_true, ↓reduceIte]
  split
  next => rfl
  next h =>
    have hle := window_le (s := s)
    have hone : (s.countAlways || s.oneShot).toNat ≤ 1 := Bool.toNat_le _
    have hno : ¬ ((s.countAlways || s.oneShot) = true ∧ s.pwmcount.toNat + 1 = window s) := by
      rw [← scaleCo_iff hc]
      intro hco
      rw [countReset, hco, Bool.true_or] at h
      exact h rfl
    rw [BitVec.extractLsb'_toNat, pwmcountInc_toNat, Nat.shiftRight_zero, Nat.mod_eq_of_lt]
    cases h' : s.countAlways || s.oneShot with
    | false => rw [Bool.toNat_false]; omega
    | true => rw [h', and_iff_right rfl] at hno; rw [Bool.toNat_true]; omega

/-- A cycle without a write takes the one-shot flag back when it resets the counter. -/
theorem oneShot_edge (hx : quietCycle x 0 = true) : (edge s x).oneShot = (s.oneShot && !countReset s) := by
  simp only [quietCycle, Bool.and_eq_true, Bool.not_eq_true'] at hx
  simp only [edge, hx.1.1]
  cases countReset s <;> simp

theorem countReset_eq_scaleCo (hz : s.zerocmp = false) : countReset s = scaleCo s := by simp [countReset, hz]

/-- With `zerocmp` the comparator resets the counter before the window ends. -/
theorem countReset_iff_cmp (hc : s.pwmcount.toNat ≤ cmpLimit s 0) (hz : s.zerocmp = true)
    (hcenter : s.center.getLsbD 0 = false) : countReset s = true ↔ s.pwmcount.toNat = cmpLimit s 0 := by
  have hlt := cmpLimit_lt (s := s) (k := 0)
  rw [countReset, hz, Bool.true_and, Bool.or_eq_true, scaleCo_iff (by omega), elapsed_zero_iff (by omega) hcenter]
  omega

/-! ### Whole runs -/

variable (s i)

/-- The counter at the beginning of each cycle. -/
def count (n : ℕ) : ℕ := ((machineFrom s).run i n).pwmcount.toNat

variable {s i}

theorem window_run (hi : ∀ n, quietCycle (i n) 0 = true) (n : ℕ) : window ((machineFrom s).run i n) = window s := by
  rw [window, (sameConfig_run hi n).scale, window]

theorem cmpLimit_run (hi : ∀ n, quietCycle (i n) 0 = true) (n : ℕ) :
    cmpLimit ((machineFrom s).run i n) 0 = cmpLimit s 0 := by
  rw [cmpLimit, (sameConfig_run hi n).scale, (sameConfig_run hi n).cmp, cmpLimit]

theorem count_succ (hi : ∀ n, quietCycle (i n) 0 = true) {k : ℕ} (hk : count s i k < window s) :
    count s i (k + 1) = if countReset ((machineFrom s).run i k) = true then 0
      else count s i k + (s.countAlways || ((machineFrom s).run i k).oneShot).toNat := by
  rw [← window_run hi k] at hk
  rw [← (sameConfig_run (s := s) hi k).countAlways]
  exact pwmcount_edge (hi k) hk

theorem countReset_run_iff (hi : ∀ n, quietCycle (i n) 0 = true) (hz : s.zerocmp = false) {k : ℕ}
    (hk : count s i k < window s) : countReset ((machineFrom s).run i k) = true ↔
      (s.countAlways || ((machineFrom s).run i k).oneShot) = true ∧ count s i k + 1 = window s := by
  have hcfg := sameConfig_run (s := s) hi k
  rw [← window_run hi k] at hk
  rw [countReset_eq_scaleCo (hcfg.zerocmp.trans hz), scaleCo_iff hk, hcfg.countAlways, window_run hi]
  rfl

/-- In always mode the counter goes through the window again and again. -/
theorem always_wraps (hi : ∀ n, quietCycle (i n) 0 = true) (hc : s.pwmcount.toNat < window s)
    (ha : s.countAlways = true) (hz : s.zerocmp = false) :
    Sync.Wraps (count s i) s.pwmcount.toNat (window s) := by
  refine Sync.wraps_of_mod hc (Sync.count_eq_mod hc rfl fun k hk => ?_)
  have hreset := countReset_run_iff hi hz hk
  rw [count_succ hi hk]
  simp [hreset, ha]

/-- With `zerocmp` it goes up to the compare value. -/
theorem zerocmp_wraps (hi : ∀ n, quietCycle (i n) 0 = true) (hc : s.pwmcount.toNat ≤ cmpLimit s 0)
    (ha : s.countAlways = true) (hz : s.zerocmp = true) (hcenter : s.center.getLsbD 0 = false) :
    Sync.Wraps (count s i) s.pwmcount.toNat (cmpLimit s 0 + 1) := by
  have hlt := cmpLimit_lt (s := s) (k := 0)
  refine Sync.wraps_of_mod (by omega) (Sync.count_eq_mod (by omega) rfl fun k hk => ?_)
  have hcfg := sameConfig_run (s := s) hi k
  have hle : count s i k ≤ cmpLimit ((machineFrom s).run i k) 0 := by rw [cmpLimit_run hi]; omega
  have hreset : countReset ((machineFrom s).run i k) = true ↔ count s i k = cmpLimit s 0 := by
    rw [← cmpLimit_run hi k]
    exact countReset_iff_cmp hle (hcfg.zerocmp.trans hz) (by rw [hcfg.center, hcenter])
  rw [count_succ hi (by omega)]
  simp [hreset, ha]

/-- In one-shot mode it goes through the window once. -/
theorem oneShot_stops (hi : ∀ n, quietCycle (i n) 0 = true) (hc : s.pwmcount.toNat < window s)
    (ho : s.oneShot = true) (ha : s.countAlways = false) (hz : s.zerocmp = false) :
    Sync.Stops (count s i) (fun n => ((machineFrom s).run i n).oneShot) s.pwmcount.toNat (window s) := by
  have hpos : 0 < window s := by unfold window; positivity
  have hflag (k : ℕ) : ((machineFrom s).run i (k + 1)).oneShot =
      (((machineFrom s).run i k).oneShot && !countReset ((machineFrom s).run i k)) := oneShot_edge (hi k)
  refine Sync.stops_of_step hc rfl ho (fun k hact hk => ?_) (fun k hact hk => ?_) (fun k hact hk => ?_)
  · have hno : countReset ((machineFrom s).run i k) = false := by
      rw [Bool.eq_false_iff, Ne, countReset_run_iff hi hz (by omega)]
      omega
    rw [count_succ hi (by omega), hflag, hno, hact]
    simp
  · have hreset : countReset ((machineFrom s).run i k) = true := by
      rw [countReset_run_iff hi hz (by omega), hact, Bool.or_true]
      exact ⟨rfl, hk⟩
    rw [count_succ hi (by omega), hflag, hreset]
    simp
  · have hno : countReset ((machineFrom s).run i k) = false := by
      rw [Bool.eq_false_iff, Ne, countReset_run_iff hi hz (by omega), hact, ha]
      simp
    rw [count_succ hi (by omega), hflag, hno, hact, ha, hk]
    simp

/-- From any registers with the counter in the window, and with no writes, the counter goes once through the window in
one-shot mode, again and again in always mode, and up to the compare value in always mode with `zerocmp`. -/
theorem pwm_counts (s : State) (i : ℕ → Input) (hi : ∀ n, quietCycle (i n) 0 = true)
    (hc : s.pwmcount.toNat < 2 ^ (8 + s.scale.toNat)) :
    (s.oneShot = true → s.countAlways = false → s.zerocmp = false →
      Sync.Stops (count s i) (fun n => ((machineFrom s).run i n).oneShot) s.pwmcount.toNat
        (2 ^ (8 + s.scale.toNat))) ∧
    (s.countAlways = true → s.zerocmp = false →
      Sync.Wraps (count s i) s.pwmcount.toNat (2 ^ (8 + s.scale.toNat))) ∧
    (s.countAlways = true → s.zerocmp = true → s.center.getLsbD 0 = false → 0 < (s.cmp 0).toNat →
      s.pwmcount.toNat ≤ (s.cmp 0).toNat <<< s.scale.toNat →
      Sync.Wraps (count s i) s.pwmcount.toNat ((s.cmp 0).toNat <<< s.scale.toNat + 1)) :=
  ⟨oneShot_stops hi hc, always_wraps hi hc, fun ha hz hcenter _ hle => zerocmp_wraps hi hle ha hz hcenter⟩

/-- Scale 2, comparator 0 at 3 and the counter at 5, in always mode with `zerocmp`. -/
def cmpThree : State := { reset with scale := 2#4, cmp := fun _ => 3#8, pwmcount := 5#23, zerocmp := true,
                                     countAlways := true }

def noAccess : ℕ → Input := fun _ => ⟨⟨false, 0#3, 0#29, 0#4, 0#32, false⟩⟩

theorem pwm_counts_cmpThree : Sync.Wraps (count cmpThree noAccess) 5 13 :=
  (pwm_counts cmpThree noAccess (fun _ => rfl) (by decide)).2.2 rfl rfl (by decide) (by decide) (by decide)

end Pwm8
