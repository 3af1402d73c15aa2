import Mathlib.Order.Basic
import Mathlib.Data.Nat.Init

/-!
# Runs of a clocked circuit

A circuit is given by the values of its registers under reset and by the effect of one clock edge.  A run from
reset is driven by a stream of inputs, one for each cycle; `run i n` are the registers at the beginning of cycle
`n`.  The last section has the rules for properties that wait for an event: there is a first one (`exists_first`), what
persists until the event holds when it happens (`persists`, `exists_until`), and an event to which a measure leads
happens (`exists_of_progress`).
-/

namespace Sync

/-- A clocked circuit: the registers under reset and the effect of a clock edge. -/
structure Machine (σ ι : Type*) where
  reset : σ
  edge : σ → ι → σ

namespace Machine

variable {σ ι : Type*} (M : Machine σ ι)

/-- The registers at the beginning of each cycle of the run driven by `i`. -/
def run (i : ℕ → ι) : ℕ → σ
  | 0 => M.reset
  | n + 1 => M.edge (run i n) (i n)

@[simp] theorem run_zero (i : ℕ → ι) : M.run i 0 = M.reset := rfl

theorem run_succ (i : ℕ → ι) (n : ℕ) : M.run i (n + 1) = M.edge (M.run i n) (i n) := rfl

/-- A run depends on the inputs of the earlier cycles only. -/
theorem run_congr {i j : ℕ → ι} {n : ℕ} (h : ∀ m < n, i m = j m) : M.run i n = M.run j n := by
  induction n with
  | zero => rfl
  | succ n ih => rw [run_succ, run_succ, ih fun m hm => h m (by omega), h n (by omega)]

/-- Two runs with the same inputs from cycle `k` on stay in a relation that every clock edge keeps. -/
theorem run_rel {R : σ → σ → Prop} {i j : ℕ → ι} {k n : ℕ} (hkn : k ≤ n) (hk : R (M.run i k) (M.run j k))
    (hij : ∀ m, k ≤ m → i m = j m) (hs : ∀ s s' x, R s s' → R (M.edge s x) (M.edge s' x)) :
    R (M.run i n) (M.run j n) := by
  induction n, hkn using Nat.le_induction with
  | base => exact hk
  | succ n hkn ih => rw [run_succ, run_succ, hij n hkn]; exact hs _ _ _ ih

/-- A part of a circuit runs on what the rest of the circuit and the inputs feed it with. -/
theorem run_part {τ κ : Type*} {N : Machine τ κ} (part : σ → τ) (feed : σ → ι → κ) (h0 : part M.reset = N.reset)
    (hs : ∀ s x, part (M.edge s x) = N.edge (part s) (feed s x)) (i : ℕ → ι) (n : ℕ) :
    part (M.run i n) = N.run (fun m => feed (M.run i m) (i m)) n := by
  induction n with
  | zero => exact h0
  | succ n ih => rw [run_succ, run_succ, hs, ih]

/-- So it does from cycle `m` on. -/
theorem run_part_after {τ κ : Type*} {N : Machine τ κ} (part : σ → τ) (feed : σ → ι → κ)
    (hs : ∀ s x, part (M.edge s x) = N.edge (part s) (feed s x)) (i : ℕ → ι) {m : ℕ} (hm : part (M.run i m) = N.reset)
    (n : ℕ) : part (M.run i (m + n)) = N.run (fun j => feed (M.run i (m + j)) (i (m + j))) n := by
  induction n with
  | zero => exact hm
  | succ n ih => rw [← Nat.add_assoc, run_succ, run_succ, hs, ih]

end Machine

/-! ### Waiting for an event -/

/-- The first cycle from `n` on with an event that happens at the latest in cycle `r`. -/
theorem exists_first {Q : ℕ → Prop} {n r : ℕ} (hnr : n ≤ r) (hr : Q r) :
    ∃ k, n ≤ k ∧ k ≤ r ∧ Q k ∧ ∀ j, n ≤ j → j < k → ¬ Q j := by
  induction r using Nat.strong_induction_on with
  | _ r ih =>
    by_cases h : ∃ j, n ≤ j ∧ j < r ∧ Q j
    · obtain ⟨j, hj, hjr, hq⟩ := h
      obtain ⟨k, hk, hkj, hqk, hmin⟩ := ih j hjr hj hq
      exact ⟨k, hk, by omega, hqk, hmin⟩
    · exact ⟨r, hnr, Nat.le_refl r, hr, fun j hj hjr hq => h ⟨j, hj, hjr, hq⟩⟩

/-- What an event-free cycle keeps still holds after any number of event-free cycles. -/
theorem persists {P Q : ℕ → Prop} {n m : ℕ} (hnm : n ≤ m) (hP : P n)
    (hs : ∀ k, n ≤ k → k < m → P k → ¬ Q k → P (k + 1)) (hQ : ∀ k, n ≤ k → k < m → ¬ Q k) : P m := by
  induction m, hnm using Nat.le_induction with
  | base => exact hP
  | succ m hnm ih =>
    have hm : P m := ih (fun k hk hkm => hs k hk (by omega)) (fun k hk hkm => hQ k hk (by omega))
    exact hs m hnm (by omega) hm (hQ m hnm (by omega))

/-- What event-free cycles keep holds when the event happens for the first time. -/
theorem exists_until {P Q : ℕ → Prop} {n : ℕ} (hP : P n) (hs : ∀ k, n ≤ k → P k → ¬ Q k → P (k + 1))
    (hQ : ∃ r, n ≤ r ∧ Q r) : ∃ k, n ≤ k ∧ P k ∧ Q k ∧ ∀ j, n ≤ j → j < k → ¬ Q j := by
  obtain ⟨r, hnr, hr⟩ := hQ
  obtain ⟨k, hnk, -, hk, hmin⟩ := exists_first hnr hr
  exact ⟨k, hnk, persists hnk hP (fun j hj _ => hs j hj) hmin, hk, hmin⟩

/-- An event happens if `P`, which holds now, always leads to the event or to `P` with a smaller measure. -/
theorem exists_of_progress {P Q : ℕ → Prop} (rank : ℕ → ℕ) {n : ℕ} (hP : P n)
    (hs : ∀ k, n ≤ k → P k → (∃ m, k ≤ m ∧ Q m) ∨ ∃ m, k ≤ m ∧ P m ∧ rank m < rank k) : ∃ k, n ≤ k ∧ Q k := by
  induction hr : rank n using Nat.strong_induction_on generalizing n with
  | _ r ih =>
    obtain hQ | ⟨m, hnm, hm, hlt⟩ := hs n (Nat.le_refl n) hP
    · exact hQ
    · obtain ⟨k, hmk, hk⟩ := ih _ (hr ▸ hlt) hm (fun j hj => hs j (by omega)) rfl
      exact ⟨k, by omega, hk⟩

/-- An event happens if a measure goes down in every cycle until it does. -/
theorem exists_of_rank {P Q : ℕ → Prop} (rank : ℕ → ℕ) {n : ℕ} (hP : P n)
    (hs : ∀ k, n ≤ k → P k → ¬ Q k → P (k + 1) ∧ rank (k + 1) < rank k) : ∃ k, n ≤ k ∧ Q k := by
  refine exists_of_progress rank hP fun k hk hp => ?_
  by_cases hq : Q k
  · exact Or.inl ⟨k, Nat.le_refl k, hq⟩
  · exact Or.inr ⟨k + 1, Nat.le_succ k, hs k hk hp hq⟩

end Sync
