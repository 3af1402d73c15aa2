import Mathlib.Data.Nat.Init
import Mathlib.Data.List.FinRange

/-!
# One-hot pointers

A pointer into `n` places kept as a one-hot vector: a circular shift register moves it to the next place, an OR-mux
reads the place it points at.  Places are numbered around the ring by `slot`, from a first place `r` on.
-/

namespace Sync.OneHot

variable {n w : ℕ}

/-! ### Positions on a ring -/

/-- The place after `r`. -/
def next (n r : ℕ) : ℕ := if r + 1 < n then r + 1 else 0

/-- The `j`-th place from `r` on. -/
def slot (n r j : ℕ) : ℕ := if r + j < n then r + j else r + j - n

theorem next_lt {r : ℕ} (hr : r < n) : next n r < n := by unfold next; split <;> omega

theorem slot_zero {r : ℕ} (hr : r < n) : slot n r 0 = r := by simp [slot, hr]

theorem slot_lt {r j : ℕ} (hr : r < n) (hj : j ≤ n) : slot n r j < n := by unfold slot; split <;> omega

/-- Fewer than `n` steps apart, places are different. -/
theorem slot_ne {r j k : ℕ} (hjk : j < k) (hkn : k < j + n) : slot n r j ≠ slot n r k := by
  unfold slot; split <;> split <;> omega

theorem next_slot {r j : ℕ} (hr : r < n) (hj : j < n) : next n (slot n r j) = slot n r (j + 1) := by
  unfold next slot; split <;> split <;> (try split) <;> omega

theorem slot_next {r j : ℕ} (hr : r < n) (hj : j < n) : slot n (next n r) j = slot n r (j + 1) := by
  unfold next slot; split <;> split <;> (try split) <;> omega

/-! ### The shift register -/

/-- `vec[n-1] ? 1 : (vec << 1)` -/
def rotate (p : BitVec n) : BitVec n := if p.getLsbD (n - 1) then 1#n else p <<< 1

theorem rotate_twoPow {r : ℕ} (hr : r < n) : rotate (BitVec.twoPow n r) = BitVec.twoPow n (next n r) := by
  have hlast : (BitVec.twoPow n r).getLsbD (n - 1) = decide (r + 1 = n) := by
    rw [BitVec.getLsbD_twoPow, ← Bool.decide_and]
    exact decide_eq_decide.2 (by omega)
  refine BitVec.eq_of_getLsbD_eq fun k hk => ?_
  rw [rotate, next, hlast]
  by_cases h : r + 1 < n
  · rw [if_neg (by simp; omega), if_pos h, BitVec.getLsbD_shiftLeft, BitVec.getLsbD_twoPow, BitVec.getLsbD_twoPow]
    simp only [← Bool.decide_and, ← decide_not]
    exact decide_eq_decide.2 (by omega)
  · rw [if_pos (by simp; omega), if_neg h, BitVec.getLsbD_twoPow, BitVec.getLsbD_one]
    simp only [← Bool.decide_and]
    exact decide_eq_decide.2 (by omega)

/-! ### The mux -/

/-- The OR of the words whose bit in `p` is set. -/
def orMux (p : BitVec n) (d : Fin n → BitVec w) : BitVec w :=
  (List.finRange n).foldl (fun acc (j : Fin n) => acc ||| if p.getLsbD j then d j else 0#w) 0#w

private theorem getLsbD_foldl (p : BitVec n) (d : Fin n → BitVec w) (l : List (Fin n)) (acc : BitVec w) (b : ℕ) :
    (l.foldl (fun acc (j : Fin n) => acc ||| if p.getLsbD j then d j else 0#w) acc).getLsbD b =
      (acc.getLsbD b || l.any fun j : Fin n => p.getLsbD j && (d j).getLsbD b) := by
  induction l generalizing acc with
  | nil => simp
  | cons j l ih =>
    rw [List.foldl_cons, ih, BitVec.getLsbD_or, List.any_cons, Bool.or_assoc]
    cases h : p.getLsbD j <;> simp

theorem orMux_twoPow (d : Fin n → BitVec w) (k : Fin n) : orMux (BitVec.twoPow n k) d = d k := by
  refine BitVec.eq_of_getLsbD_eq fun b _ => ?_
  rw [orMux, getLsbD_foldl, BitVec.getLsbD_zero, Bool.false_or, Bool.eq_iff_iff, List.any_eq_true]
  constructor
  · rintro ⟨j, -, hj⟩
    simp only [BitVec.getLsbD_twoPow, Bool.and_eq_true, decide_eq_true_eq] at hj
    rw [show k = j from Fin.ext hj.1.2]
    exact hj.2
  · intro h
    exact ⟨k, List.mem_finRange k, by simp [h]⟩

/-- A one-hot vector selects one bit. -/
theorem and_twoPow_ne_zero (v : BitVec n) (k : Fin n) : (v &&& BitVec.twoPow n k != 0#n) = v.getLsbD k := by
  rw [BitVec.and_twoPow]
  cases h : v.getLsbD k
  · simp
  · have hne : BitVec.twoPow n k ≠ 0#n := by
      intro h0
      have := congrArg (·.getLsbD k) h0
      simp [-BitVec.getLsbD_eq_getElem, BitVec.getLsbD_twoPow] at this
    simp [hne]

end Sync.OneHot
