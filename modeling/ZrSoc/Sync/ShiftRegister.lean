import Mathlib.Data.Nat.Init

/-!
# Shift registers that sample

A register of `N` bits that shifts by `w` bits in some cycles and takes `w` bits at its end in some cycles, which may be
the same ones.  If there is one shift between each sample and the next, or with the next, then after the last sample the
register has the samples in order, the last one at its end (`ShiftsIn.samples`).
-/

namespace Sync

/-- In the cycles from `u` on and before `v` the bits `b` are those of a register that shifts by `w` bits in the cycles
`shift`, and takes the bits `d` at its end in the cycles `sample`. -/
structure ShiftsIn (N w : ℕ) (b : ℕ → ℕ → Bool) (shift sample : ℕ → Bool) (d : ℕ → ℕ → Bool) (u v : ℕ) : Prop where
  low : ∀ n, u ≤ n → n < v → ∀ i < w, b (n + 1) i = if sample n = true then d n i else b n i
  high : ∀ n, u ≤ n → n < v → ∀ i, w ≤ i → i < N → b (n + 1) i = if shift n = true then b n (i - w) else b n i

namespace ShiftsIn

variable {N w c i k m n p u v : ℕ} {b d : ℕ → ℕ → Bool} {shift sample : ℕ → Bool}
  (h : ShiftsIn N w b shift sample d u v)

include h

/-- Without a shift the upper bits stay. -/
theorem high_of_quiet (hum : u ≤ m) (hmn : m ≤ n) (hnv : n ≤ v) (hq : ∀ k, m ≤ k → k < n → shift k = false)
    (hw : w ≤ i) (hi : i < N) : b n i = b m i := by
  induction n, hmn using Nat.le_induction with
  | base => rfl
  | succ n hmn ih =>
    rw [h.high n (by omega) (by omega) i hw hi, hq n hmn (by omega), if_neg Bool.false_ne_true]
    exact ih (by omega) fun k hk hkn => hq k hk (by omega)

/-- Without a sample the lower bits stay. -/
theorem low_of_quiet (hum : u ≤ m) (hmn : m ≤ n) (hnv : n ≤ v) (hq : ∀ k, m ≤ k → k < n → sample k = false)
    (hi : i < w) : b n i = b m i := by
  induction n, hmn using Nat.le_induction with
  | base => rfl
  | succ n hmn ih =>
    rw [h.low n (by omega) (by omega) i hi, hq n hmn (by omega), if_neg Bool.false_ne_true]
    exact ih (by omega) fun k hk hkn => hq k hk (by omega)

/-- With a single shift, in cycle `p`, the upper bits are those it has moved. -/
theorem moved (hum : u ≤ m) (hnv : n ≤ v) (hmp : m ≤ p) (hpn : p < n)
    (hs : ∀ k, m ≤ k → k < n → (shift k = true ↔ k = p)) (hw : w ≤ i) (hi : i < N) : b n i = b p (i - w) := by
  have hlater : b n i = b (p + 1) i := h.high_of_quiet (by omega) hpn hnv
    (fun k hk hkn => Bool.eq_false_iff.2 fun hk' => absurd ((hs k (by omega) hkn).1 hk') (by omega)) hw hi
  rw [hlater, h.high p (by omega) (by omega) i hw hi, if_pos ((hs p hmp hpn).2 rfl)]

/-- The samples of the cycles `s 0`, …, `s q`, with the shift in cycle `p k` between the sample `k` and the next. -/
theorem samples {s p : ℕ → ℕ} (hs : ∀ q < c, u ≤ s q ∧ s q < v ∧ sample (s q) = true)
    (hp : ∀ q, q + 1 < c → s q < p q ∧ p q ≤ s (q + 1))
    (hsh : ∀ q, q + 1 < c → ∀ k, s q < k → k ≤ s (q + 1) → (shift k = true ↔ k = p q))
    (hq : ∀ q, q + 1 < c → ∀ k, s q < k → k < s (q + 1) → sample k = false)
    {q r l : ℕ} (hqc : q < c) (hrq : r ≤ q) (hl : l < w) (hN : (q - r) * w + l < N) :
    b (s q + 1) ((q - r) * w + l) = d (s r) l := by
  induction q with
  | zero =>
    obtain rfl : r = 0 := Nat.le_zero.1 hrq
    obtain ⟨hus, hsv, hsample⟩ := hs 0 hqc
    rw [Nat.sub_self, Nat.zero_mul, Nat.zero_add, h.low _ hus hsv l hl, if_pos hsample]
  | succ q ih =>
    obtain ⟨hus, hsv, hsample⟩ := hs (q + 1) hqc
    obtain ⟨hus', -⟩ := hs q (by omega)
    obtain ⟨hsp, hps⟩ := hp q hqc
    rcases Nat.lt_or_eq_of_le hrq with hlt | rfl
    · have hpos : (q + 1 - r) * w + l = (q - r) * w + l + w := by
        rw [show q + 1 - r = q - r + 1 by omega, Nat.succ_mul]
        omega
      rw [hpos] at hN ⊢
      have hmoved := h.moved (m := s q + 1) (n := s (q + 1) + 1) (i := (q - r) * w + l + w) (by omega) (by omega) hsp
        (by omega) (fun k hk hk' => hsh q hqc k hk (by omega)) (by omega) hN
      rw [hmoved, Nat.add_sub_cancel, ← ih (by omega) (by omega) (by omega)]
      -- before the shift nothing has changed since the last sample
      by_cases hlow : (q - r) * w + l < w
      · exact h.low_of_quiet (by omega) hsp (by omega) (fun k hk hkp => hq q hqc k hk (by omega)) hlow
      · refine h.high_of_quiet (by omega) hsp (by omega) (fun k hk hkp => ?_) (by omega) (by omega)
        exact Bool.eq_false_iff.2 fun hk' => absurd ((hsh q hqc k hk (by omega)).1 hk') (by omega)
    · rw [Nat.sub_self, Nat.zero_mul, Nat.zero_add, h.low _ hus hsv l hl, if_pos hsample]

/-- After the shifts of the cycles `p 0`, …, `p q`, of which the first is cycle `u`, the upper bits are those of cycle
`u` moved by `q + 1` times `w` bits. -/
theorem shifted {p : ℕ → ℕ} (h0 : p 0 = u) (hu : shift u = true) (hp : ∀ q, q + 1 < c → u ≤ p q ∧ p q < p (q + 1))
    (hs : ∀ q, q + 1 < c → ∀ k, p q < k → k ≤ p (q + 1) → (shift k = true ↔ k = p (q + 1))) {q : ℕ} (hqc : q < c)
    (hpn : p q < n) (hn : ∀ k, p q < k → k < n → shift k = false) (hnv : n ≤ v) (hi : (q + 1) * w ≤ i) (hiN : i < N) :
    b n i = b u (i - (q + 1) * w) := by
  induction q generalizing n i with
  | zero =>
    rw [h0] at hpn hn
    rw [Nat.zero_add, Nat.one_mul] at hi ⊢
    refine h.moved (Nat.le_refl u) hnv (Nat.le_refl u) hpn (fun k hk hkn => ?_) hi hiN
    rcases Nat.eq_or_lt_of_le hk with rfl | hlt
    · exact iff_of_true hu rfl
    · exact iff_of_false (Bool.eq_false_iff.1 (hn k hlt hkn)) (by omega)
  | succ q ih =>
    obtain ⟨huq, hlt⟩ := hp q hqc
    have hmul : (q + 1 + 1) * w = (q + 1) * w + w := Nat.succ_mul _ _
    have hmoved := h.moved (m := p q + 1) (i := i) (by omega) hnv hlt hpn (fun k hk hkn => ?_) (by omega) hiN
    · have hih := ih (n := p (q + 1)) (i := i - w) (by omega) hlt (fun k hk hkp => ?_) (by omega) (by omega) (by omega)
      · rw [hmoved, hih, hmul, Nat.sub_sub, Nat.add_comm w]
      · exact Bool.eq_false_iff.2 fun hk' => absurd ((hs q hqc k hk (by omega)).1 hk') (by omega)
    · rcases Nat.lt_or_ge (p (q + 1)) k with hk' | hk'
      · exact iff_of_false (Bool.eq_false_iff.1 (hn k hk' hkn)) (by omega)
      · exact hs q hqc k hk hk'

end ShiftsIn

end Sync
