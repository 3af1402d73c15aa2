import Mathlib.Data.Nat.Count

/-!
# Waiting for the edges of a clock

In a run in which several clocks tick, what one of them drives happens after a number of its edges, however many
instants these take.  `P k r` says that at the instant `k` at most `r` edges of that clock are still needed.
-/

namespace Sync

/-- An event happens within `r` edges of a clock if at any instant before it an edge lowers the number of edges that
are needed, and an instant without one keeps it. -/
theorem exists_within_ticks {t : ℕ → Prop} [DecidablePred t] {P : ℕ → ℕ → Prop} {Q : ℕ → Prop}
    (hs : ∀ k r, P k r → Q k ∨ 0 < r ∧ ∃ r', P (k + 1) r' ∧ r' + (if t k then 1 else 0) ≤ r)
    {n m r : ℕ} (hnm : n ≤ m) (hP : P n r) (hm : Nat.count t n + r ≤ Nat.count t m) :
    ∃ k, n ≤ k ∧ k ≤ m ∧ Q k := by
  induction hd : m - n generalizing n r with
  | zero =>
    obtain rfl : n = m := by omega
    rcases hs n r hP with hQ | ⟨hr, -⟩
    · exact ⟨n, hnm, hnm, hQ⟩
    · omega
  | succ d ih =>
    rcases hs n r hP with hQ | ⟨-, r', hP', hle⟩
    · exact ⟨n, le_rfl, hnm, hQ⟩
    · have hcount := Nat.count_succ t n
      obtain ⟨k, hk, hkm, hQ⟩ := ih (by omega) hP' (by omega) (by omega)
      exact ⟨k, by omega, hkm, hQ⟩

end Sync
