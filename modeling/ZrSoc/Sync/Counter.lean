import Mathlib.Data.Nat.Count
import Mathlib.Data.Nat.ModEq

/-!
# Counters

A counter of period `P` goes up by one in every cycle and is 0 again after `P - 1`; its value in cycle `k` is that of
the cycle number modulo `P` (`count_eq_mod`), so that what happens for certain values happens as often in any `P` cycles
as it does from 0 on (`count_mod`).  A counter that stops goes up in the same way, but is no longer active
once it is back at 0 (`stops_of_step`).
-/

namespace Sync

/-- From `c` the counter climbs to `P - 1` and is 0 in the next cycle, and from then on in every `P`-th cycle and no
other. -/
structure Wraps (count : ℕ → ℕ) (c P : ℕ) : Prop where
  climbs : ∀ k < P - c, count k = c + k
  wraps : ∀ k, count (P - c + k) = 0 ↔ P ∣ k
  periodic : ∀ k, count (k + P) = count k

/-- From `c` the counter climbs to `P - 1` and is active; from the next cycle on it is 0 and not active. -/
structure Stops (count : ℕ → ℕ) (active : ℕ → Bool) (c P : ℕ) : Prop where
  climbs : ∀ k < P - c, count k = c + k ∧ active k = true
  stops : ∀ k, P - c ≤ k → count k = 0 ∧ active k = false

variable {count : ℕ → ℕ} {c P : ℕ}

theorem count_eq_mod (hc : c < P) (h0 : count 0 = c)
    (hs : ∀ k, count k < P → count (k + 1) = if count k + 1 = P then 0 else count k + 1) (k : ℕ) :
    count k = (c + k) % P := by
  induction k with
  | zero => rw [h0, Nat.add_zero, Nat.mod_eq_of_lt hc]
  | succ k ih =>
    have hlt : count k < P := ih ▸ Nat.mod_lt _ (by omega)
    rw [hs k hlt, ← Nat.add_assoc, ← Nat.mod_add_mod, ← ih]
    split
    next h => rw [h, Nat.mod_self]
    next h => rw [Nat.mod_eq_of_lt (by omega)]

theorem wraps_of_mod (hc : c < P) (h : ∀ k, count k = (c + k) % P) : Wraps count c P where
  climbs := fun k hk => by rw [h, Nat.mod_eq_of_lt (by omega)]
  wraps := fun k => by
    rw [h, ← Nat.add_assoc, Nat.add_sub_cancel' (by omega), Nat.add_mod_left, Nat.dvd_iff_mod_eq_zero]
  periodic := fun k => by rw [h, h, ← Nat.add_assoc, Nat.add_mod_right]

theorem count_congr {p q : ℕ → Prop} [DecidablePred p] [DecidablePred q] {n : ℕ} (h : ∀ k < n, p k ↔ q k) :
    Nat.count p n = Nat.count q n := by
  induction n with
  | zero => rw [Nat.count_zero, Nat.count_zero]
  | succ n ih =>
    have hn := h n (Nat.lt_succ_self n)
    rw [Nat.count_succ, Nat.count_succ, ih fun k hk => h k (by omega)]
    simp only [hn]

/-- In `P` cycles the counter takes each value below `P` once. -/
theorem count_mod {q : ℕ → Prop} [DecidablePred q] (c P : ℕ) :
    Nat.count (fun k => q ((c + k) % P)) P = Nat.count q P := by
  have hc := Nat.count_add (fun k => q (k % P)) c P
  have hP := Nat.count_add (fun k => q (k % P)) P c
  simp only [Nat.add_mod_left] at hP
  have hq : Nat.count (fun k => q (k % P)) P = Nat.count q P :=
    count_congr fun k hk => by rw [Nat.mod_eq_of_lt hk]
  rw [Nat.add_comm c P] at hc
  omega

/-- A counter that is no longer active after `P - 1`. -/
theorem stops_of_step {active : ℕ → Bool} (hc : c < P) (h0 : count 0 = c) (ha : active 0 = true)
    (hs : ∀ k, active k = true → count k + 1 < P → count (k + 1) = count k + 1 ∧ active (k + 1) = true)
    (hlast : ∀ k, active k = true → count k + 1 = P → count (k + 1) = 0 ∧ active (k + 1) = false)
    (hstop : ∀ k, active k = false → count k = 0 → count (k + 1) = 0 ∧ active (k + 1) = false) :
    Stops count active c P := by
  have hclimbs : ∀ k < P - c, count k = c + k ∧ active k = true := by
    intro k hk
    induction k with
    | zero => exact ⟨by rw [h0, Nat.add_zero], ha⟩
    | succ k ih =>
      obtain ⟨hcount, hact⟩ := ih (by omega)
      obtain ⟨hcount', hact'⟩ := hs k hact (by omega)
      exact ⟨by omega, hact'⟩
  refine ⟨hclimbs, fun k hk => ?_⟩
  induction k, hk using Nat.le_induction with
  | base =>
    obtain ⟨m, hm⟩ : ∃ m, m + 1 = P - c := ⟨P - c - 1, by omega⟩
    obtain ⟨hcount, hact⟩ := hclimbs m (by omega)
    rw [← hm]
    exact hlast m hact (by omega)
  | succ k hk ih => exact hstop k ih.2 ih.1

end Sync
