import Mathlib.Data.Bool.Basic
import Mathlib.Data.Nat.Init

/-!
# Rings of one-bit registers

`n` one-bit registers in a ring, each of which follows the register before it and the first of which follows the
complement of the last: what the registers of a two-phase handshake and its synchronisers form.  At any time a
single change of level is under way.  `Moving n r p k` says that the change has passed the first `k` registers, which
had the level `p` before it; `Moving.step` is the rule for a step in which at most the register `k` changes.
-/

namespace Sync.BitRing

variable {n : ℕ} {r r' : ℕ → Bool} {p adv : Bool} {k i : ℕ}

/-- The level of register `i` when a change from the level `p` has passed the first `k` registers. -/
def bit (p : Bool) (k i : ℕ) : Bool := p ^^ decide (i < k)

/-- How far a change is that passes the next register if `adv` is true. -/
def passed (n : ℕ) (adv : Bool) (k : ℕ) : ℕ := if adv then (k + 1) % n else k

/-- The level before the change, after a step: a change that passed the last register starts anew. -/
def level (n : ℕ) (adv p : Bool) (k : ℕ) : Bool := p ^^ (adv && decide (k + 1 = n))

theorem passed_lt (hk : k < n) : passed n adv k < n := by
  unfold passed
  split
  · exact Nat.mod_lt _ (by omega)
  · exact hk

theorem passed_eq (hk : k + 1 < n) : passed n adv k = if adv then k + 1 else k := by
  rw [passed, Nat.mod_eq_of_lt hk]

/-- A register differs from the one before it only where the change is. -/
theorem bit_eq_succ (p : Bool) (k i : ℕ) : bit p k i = (bit p k (i + 1) ^^ decide (k = i + 1)) := by
  unfold bit
  rcases Nat.lt_trichotomy k (i + 1) with h | h | h
  · have h1 : ¬ i < k := by omega
    have h2 : ¬ i + 1 < k := by omega
    have h3 : k ≠ i + 1 := by omega
    simp [h1, h2, h3]
  · simp [h]
  · have h1 : i < k := by omega
    have h3 : k ≠ i + 1 := by omega
    simp [h1, h, h3]

/-- The step of the change inverts the register that it passes and no other. -/
theorem bit_step (hk : k < n) (hi : i < n) :
    bit (level n adv p k) (passed n adv k) i = (bit p k i ^^ (adv && decide (k = i))) := by
  cases adv with
  | false => simp [bit, level, passed]
  | true =>
    unfold bit level passed
    rcases Nat.lt_or_eq_of_le hk with hlt | heq
    · have h1 : k + 1 ≠ n := by omega
      rw [if_pos rfl, Nat.mod_eq_of_lt hlt]
      rcases Nat.lt_trichotomy i k with h | h | h
      · have h2 : i < k + 1 := by omega
        have h3 : k ≠ i := by omega
        simp [h1, h2, h3, h]
      · simp [h1, h]
      · have h2 : ¬ i < k + 1 := by omega
        have h3 : k ≠ i := by omega
        have h4 : ¬ i < k := by omega
        simp [h1, h2, h3, h4]
    · obtain rfl : n = k + 1 := heq.symm
      rw [if_pos rfl, Nat.mod_self]
      rcases Nat.lt_or_eq_of_le (Nat.lt_succ_iff.1 hi) with h | h
      · have h3 : k ≠ i := by omega
        cases p <;> simp [h, h3]
      · cases p <;> simp [h]

/-- A change from the level `p` has passed the first `k` of the registers `r`. -/
structure Moving (n : ℕ) (r : ℕ → Bool) (p : Bool) (k : ℕ) : Prop where
  lt : k < n
  eq : ∀ i < n, r i = bit p k i

theorem moving_zero (hn : 0 < n) (h : ∀ i < n, r i = p) : Moving n r p 0 :=
  ⟨hn, fun i hi => by rw [h i hi]; simp [bit]⟩

/-- A step in which the register with the change follows, if `adv` is true, and no other register changes. -/
theorem Moving.step (h : Moving n r p k) (hs : ∀ i < n, r' i = (r i ^^ (adv && decide (k = i)))) :
    Moving n r' (level n adv p k) (passed n adv k) := by
  refine ⟨passed_lt h.lt, fun i hi => ?_⟩
  rw [hs i hi, h.eq i hi, bit_step h.lt hi]

/-- A register that copies the one before it. -/
theorem Moving.copy (h : Moving n r p k) (hi : i + 1 < n) : r i = (r (i + 1) ^^ decide (k = i + 1)) := by
  rw [h.eq i (by omega), h.eq (i + 1) hi, bit_eq_succ]

/-- Neighbours differ where the change is. -/
theorem Moving.ne_succ (h : Moving n r p k) (hi : i + 1 < n) : (r (i + 1) != r i) = decide (k = i + 1) := by
  rw [h.copy hi]
  cases r (i + 1) <;> cases decide (k = i + 1) <;> rfl

/-- The first register equals the last one when no change is under way. -/
theorem Moving.eq_last (h : Moving (n + 1) r p k) : (r 0 == r n) = decide (k = 0) := by
  rw [h.eq 0 (by omega), h.eq n (by omega)]
  have hlt : ¬ n < k := by have := h.lt; omega
  rcases Nat.eq_zero_or_pos k with rfl | hk
  · simp [bit]
  · have : k ≠ 0 := by omega
    cases p <;> simp [bit, hlt, hk, this]

end Sync.BitRing
