import Mathlib.Data.Nat.Init

/-!
# Single bits of a vector

How a vector is read in which one bit has been replaced or to which one bit has been appended.
-/

namespace SingleBit

theorem getLsbD_replace {w k i : ℕ} (x : BitVec w) (b : Bool) (hi : i < w) :
    (x &&& ~~~(1#w <<< k) ||| (BitVec.ofBool b).setWidth w <<< k).getLsbD i = if i = k then b else x.getLsbD i := by
  have hone : (1#w <<< k).getLsbD i = decide (i = k) := by
    rw [BitVec.getLsbD_shiftLeft, BitVec.getLsbD_one]
    grind
  have hbit : ((BitVec.ofBool b).setWidth w <<< k).getLsbD i = (decide (i = k) && b) := by
    rw [BitVec.getLsbD_shiftLeft, BitVec.getLsbD_setWidth, BitVec.getLsbD_ofBool]
    grind
  rw [BitVec.getLsbD_or, BitVec.getLsbD_and, BitVec.getLsbD_not, hone, hbit]
  by_cases heq : i = k
  · simp [heq]
  · simp [heq, hi]

theorem getLsbD_append_ofBool {w : ℕ} (x : BitVec w) (b : Bool) (i : ℕ) :
    (x ++ BitVec.ofBool b).getLsbD i = if i = 0 then b else x.getLsbD (i - 1) := by
  rw [BitVec.getLsbD_append]
  cases i with
  | zero => simp
  | succ i => simp

end SingleBit
