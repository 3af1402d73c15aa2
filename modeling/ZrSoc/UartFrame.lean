import Mathlib.Data.Nat.Init

/-!
# Frames on the serial line

A frame is a start bit, eight data bits and the stop bits, each of `d + 1` clocks.  What the line carries is given by
the last byte whose start bit has begun and the clocks since then (`Heard`).

The receiver takes its samples every `d` clocks, the first one half a bit after it has noticed the start bit.  So it
gains a clock in every bit; with `d` at least 16 its last sample is still in the first stop bit (`sampled`).
-/

namespace UartFrame

/-- Bit `k` of the frame of `b`: the start bit, the data bits from the lowest one on, the stop bits. -/
def frameBit (b : BitVec 8) (k : ℕ) : Bool := k != 0 && (decide (8 < k) || b.getLsbD (k - 1))

/-- The line `e` clocks after the start bit of `b` has begun, with no other frame since. -/
def level (d : ℕ) (b : BitVec 8) (e : ℕ) : Bool := frameBit b (e / (d + 1))

/-- The clock, counted from the beginning of the start bit, in which the receiver takes sample `k`. -/
def sampleAt (d k : ℕ) : ℕ := 3 + d / 2 + k * d

/-- The last byte whose start bit has begun, and the clocks since then. -/
abbrev Heard := Option (BitVec 8 × ℕ)

/-- The line `j` clocks ago, when the frame before the last one is long over. -/
def past (d j : ℕ) : Heard → Bool
  | none => true
  | some (b, e) => if e < j then true else level d b (e - j)

def tick (h : Heard) : Heard := h.map fun p => (p.1, p.2 + 1)

/-- A clock goes by on the line: a start bit begins only after the last frame. -/
inductive Follows (d : ℕ) : Heard → Heard → Prop
  | tick (h : Heard) : Follows d h (tick h)
  | first (b : BitVec 8) : Follows d none (some (b, 0))
  | fall (b : BitVec 8) {b' : BitVec 8} {e : ℕ} (he : 10 * (d + 1) ≤ e) : Follows d (some (b', e)) (some (b, 0))

variable {d e j k : ℕ} {b : BitVec 8} {h h' : Heard}

@[simp] theorem frameBit_zero : frameBit b 0 = false := rfl

theorem frameBit_succ (hk : k < 8) : frameBit b (k + 1) = b.getLsbD k := by
  have hne : ¬ 8 < k + 1 := by omega
  simp [frameBit, hne]

theorem frameBit_stop (hk : 8 < k) : frameBit b k = true := by
  have hne : k ≠ 0 := by omega
  simp [frameBit, hk, hne]

theorem level_bit {r : ℕ} (hr : r ≤ d) : level d b (k * (d + 1) + r) = frameBit b k := by
  rw [level, Nat.mul_comm, Nat.mul_add_div (Nat.succ_pos d), Nat.div_eq_of_lt (Nat.lt_succ_of_le hr), Nat.add_zero]

theorem level_high (he : 9 * (d + 1) ≤ e) : level d b e = true :=
  frameBit_stop ((Nat.le_div_iff_mul_le (Nat.succ_pos d)).2 he)

/-- The two values of the line that decide sample `k` are bit `k` of the frame. -/
theorem sampled (hd : 16 ≤ d) (hk : k ≤ 9) :
    level d b (sampleAt d k - 1) = frameBit b k ∧ level d b (sampleAt d k - 2) = frameBit b k := by
  have hmul : k * (d + 1) = k * d + k := Nat.mul_succ k d
  have h1 : sampleAt d k - 1 = k * (d + 1) + (2 + d / 2 - k) := by
    rw [sampleAt]
    omega
  have h2 : sampleAt d k - 2 = k * (d + 1) + (1 + d / 2 - k) := by
    rw [sampleAt]
    omega
  rw [h1, h2]
  exact ⟨level_bit (by omega), level_bit (by omega)⟩

theorem sampleAt_succ : sampleAt d (k + 1) = sampleAt d k + d := by
  rw [sampleAt, sampleAt, Nat.succ_mul, ← Nat.add_assoc]

theorem sampleAt_mono (hjk : j ≤ k) : sampleAt d j ≤ sampleAt d k := by
  have := Nat.mul_le_mul_right d hjk
  rw [sampleAt, sampleAt]
  omega

/-- The receiver is done before the next frame begins. -/
theorem sampleAt_lt (hd : 16 ≤ d) : sampleAt d 9 + 3 ≤ 10 * (d + 1) := by
  rw [sampleAt]
  omega

theorem past_tick : past d (j + 1) (tick h) = past d j h := by
  cases h with
  | none => rfl
  | some p => simp [past, tick]

theorem past_high (he : 9 * (d + 1) + j ≤ e) : past d j (some (b, e)) = true := by
  rw [past]
  split
  · rfl
  · exact level_high (by omega)

/-- What was on the line stays in its past. -/
theorem Follows.past (hf : Follows d h h') (hj : j ≤ d) : past d (j + 1) h' = past d j h := by
  cases hf with
  | tick => exact past_tick
  | first b => rfl
  | @fall b b' e he =>
    have hhigh : UartFrame.past d j (some (b', e)) = true := past_high (by omega)
    rw [hhigh]
    simp [UartFrame.past]

end UartFrame
