import Mathlib.Order.Basic
import Mathlib.Data.Nat.Init

/-!
# The most recent write

`held init w n` is the value of a storage cell at the beginning of cycle `n` when `w m` is the value written in cycle
`m` (if there is a write).  It is the value of the most recent earlier write, or the initial value if there is none.

A cell that can also be cleared holds the value of the most recent write unless it has been cleared since
(`cell_cases`); a flag that only a clear takes back says that there has been a write since (`flag_iff`).
-/

namespace Sync

variable {α : Type*}

/-- The value of a cell at the beginning of cycle `n`. -/
def held (init : α) (w : ℕ → Option α) : ℕ → α
  | 0 => init
  | n + 1 => (w n).getD (held init w n)

/-- `v` is the value of the most recent write before cycle `n`, or the initial value if there is none. -/
def IsLatest (init : α) (w : ℕ → Option α) (n : ℕ) (v : α) : Prop :=
  (∃ m < n, w m = some v ∧ ∀ k, m < k → k < n → w k = none) ∨ (v = init ∧ ∀ m < n, w m = none)

theorem isLatest_held (init : α) (w : ℕ → Option α) (n : ℕ) : IsLatest init w n (held init w n) := by
  induction n with
  | zero => exact Or.inr ⟨rfl, fun m hm => by omega⟩
  | succ n ih =>
    cases hw : w n with
    | some v =>
      refine Or.inl ⟨n, by omega, by simp [held, hw], fun k hk hkn => by omega⟩
    | none =>
      have hheld : held init w (n + 1) = held init w n := by simp [held, hw]
      rw [hheld]
      rcases ih with ⟨m, hm, hv, hno⟩ | ⟨hv, hno⟩
      · refine Or.inl ⟨m, by omega, hv, fun k hk hkn => ?_⟩
        rcases Nat.lt_succ_iff_lt_or_eq.1 hkn with hkn | rfl
        · exact hno k hk hkn
        · exact hw
      · refine Or.inr ⟨hv, fun m hm => ?_⟩
        rcases Nat.lt_succ_iff_lt_or_eq.1 hm with hm | rfl
        · exact hno m hm
        · exact hw

/-! ### Cells that are cleared -/

/-- Cycle `t` has the most recent write before cycle `n`, with no clear since. -/
structure LastWrite (W C : ℕ → Prop) (t n : ℕ) : Prop where
  lt : t < n
  write : W t
  none : ∀ k, t < k → k < n → ¬ W k ∧ ¬ C k

/-- A write happened before cycle `n`, with no clear since. -/
def Since (W C : ℕ → Prop) (n : ℕ) : Prop := ∃ t < n, W t ∧ ∀ k, t < k → k < n → ¬ C k

section Cleared

variable {W C : ℕ → Prop} {t n : ℕ}

theorem lastWrite_succ_iff : LastWrite W C t (n + 1) ↔ t = n ∧ W n ∨ ¬ W n ∧ ¬ C n ∧ LastWrite W C t n := by
  constructor
  · rintro ⟨hlt, hw, hno⟩
    rcases Nat.lt_succ_iff_lt_or_eq.1 hlt with hlt | rfl
    · obtain ⟨hw', hc'⟩ := hno n hlt (Nat.lt_succ_self n)
      exact Or.inr ⟨hw', hc', hlt, hw, fun k hk hkn => hno k hk (by omega)⟩
    · exact Or.inl ⟨rfl, hw⟩
  · rintro (⟨rfl, hw⟩ | ⟨hw', hc', hlt, hw, hno⟩)
    · exact ⟨Nat.lt_succ_self t, hw, fun k hk hkn => by omega⟩
    · refine ⟨by omega, hw, fun k hk hkn => ?_⟩
      rcases Nat.lt_succ_iff_lt_or_eq.1 hkn with hkn | rfl
      · exact hno k hk hkn
      · exact ⟨hw', hc'⟩

theorem LastWrite.unique {t' : ℕ} (h : LastWrite W C t n) (h' : LastWrite W C t' n) : t' = t := by
  rcases Nat.lt_trichotomy t t' with hlt | heq | hlt
  · exact absurd h'.write (h.none t' hlt h'.lt).1
  · exact heq.symm
  · exact absurd h.write (h'.none t hlt h.lt).1

theorem since_succ_iff : Since W C (n + 1) ↔ W n ∨ ¬ C n ∧ Since W C n := by
  constructor
  · rintro ⟨t, hlt, hw, hno⟩
    rcases Nat.lt_succ_iff_lt_or_eq.1 hlt with hlt | rfl
    · exact Or.inr ⟨hno n hlt (Nat.lt_succ_self n), t, hlt, hw, fun k hk hkn => hno k hk (by omega)⟩
    · exact Or.inl hw
  · rintro (hw | ⟨hc, t, hlt, hw, hno⟩)
    · exact ⟨n, Nat.lt_succ_self n, hw, fun k hk hkn => by omega⟩
    · refine ⟨t, by omega, hw, fun k hk hkn => ?_⟩
      rcases Nat.lt_succ_iff_lt_or_eq.1 hkn with hkn | rfl
      · exact hno k hk hkn
      · exact hc

/-- A cell that takes the written values and goes back to `init` when it is cleared. -/
theorem cell_cases {init : α} {r v : ℕ → α} (h0 : r 0 = init) (hC : ∀ n, C n → r (n + 1) = init)
    (hW : ∀ n, W n → r (n + 1) = v n) (hK : ∀ n, ¬ W n → ¬ C n → r (n + 1) = r n) (n : ℕ) :
    (∃ t, LastWrite W C t n ∧ r n = v t) ∨ (∀ t, ¬ LastWrite W C t n) ∧ r n = init := by
  induction n with
  | zero => exact Or.inr ⟨fun t h => absurd h.lt (Nat.not_lt_zero t), h0⟩
  | succ n ih =>
    by_cases hw : W n
    · exact Or.inl ⟨n, lastWrite_succ_iff.2 (Or.inl ⟨rfl, hw⟩), hW n hw⟩
    · by_cases hc : C n
      · refine Or.inr ⟨fun t h => ?_, hC n hc⟩
        rcases lastWrite_succ_iff.1 h with ⟨-, hw'⟩ | ⟨-, hc', -⟩
        · exact hw hw'
        · exact hc' hc
      · rw [hK n hw hc]
        rcases ih with ⟨t, ht, hv⟩ | ⟨hno, hv⟩
        · exact Or.inl ⟨t, lastWrite_succ_iff.2 (Or.inr ⟨hw, hc, ht⟩), hv⟩
        · refine Or.inr ⟨fun t h => ?_, hv⟩
          rcases lastWrite_succ_iff.1 h with ⟨-, hw'⟩ | ⟨-, -, ht⟩
          · exact hw hw'
          · exact hno t ht

/-- A flag that the writes set and the clears take back. -/
theorem flag_iff {f : ℕ → Bool} (h0 : f 0 = false) (hC : ∀ n, C n → f (n + 1) = false)
    (hW : ∀ n, W n → f (n + 1) = true) (hK : ∀ n, ¬ W n → ¬ C n → f (n + 1) = f n) (n : ℕ) :
    f n = true ↔ Since W C n := by
  induction n with
  | zero =>
    rw [h0]
    exact ⟨fun h => absurd h Bool.false_ne_true, fun ⟨t, ht, _⟩ => absurd ht (Nat.not_lt_zero t)⟩
  | succ n ih =>
    rw [since_succ_iff]
    by_cases hw : W n
    · rw [hW n hw]
      exact ⟨fun _ => Or.inl hw, fun _ => rfl⟩
    · by_cases hc : C n
      · rw [hC n hc]
        refine ⟨fun h => absurd h Bool.false_ne_true, fun h => ?_⟩
        rcases h with h | h
        · exact absurd h hw
        · exact absurd hc h.1
      · rw [hK n hw hc, ih]
        exact ⟨fun h => Or.inr ⟨hc, h⟩, fun h => h.elim (fun h => absurd h hw) fun h => h.2⟩

end Cleared

end Sync
