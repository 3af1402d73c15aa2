import Mathlib.Data.BitVec

/-!
# Codes of bit streams

A code of `n` bits is shifted down by each bit of a stream, and the generator `poly` is added to it when the bit that
drops out differs from the bit of the stream.  When the highest bit of the generator is set, the code tells whether it
was added, so that a step can be taken back.  Hence two streams that differ in `n` neighbouring bits at most have
different codes (`code_burst_ne`).
-/

namespace Crc

variable {n : ℕ} {poly c c' : BitVec n} {b b' : Bool} {u v w w' : List Bool}

/-- The generator is added for the bit `b`. -/
def adds (c : BitVec n) (b : Bool) : Bool := b ^^ c.getLsbD 0

/-- The code after the bit `b`. -/
def shiftIn (poly c : BitVec n) (b : Bool) : BitVec n :=
  (c >>> 1) ^^^ if adds c b then poly else 0

/-- The code of a stream, from the code `c` on. -/
def code (poly c : BitVec n) (w : List Bool) : BitVec n := w.foldl (shiftIn poly) c

@[simp] theorem code_nil (poly c : BitVec n) : code poly c [] = c := rfl

@[simp] theorem code_cons (poly c : BitVec n) (b : Bool) (w : List Bool) :
    code poly c (b :: w) = code poly (shiftIn poly c b) w := rfl

theorem code_append (poly c : BitVec n) (v w : List Bool) : code poly c (v ++ w) = code poly (code poly c v) w :=
  List.foldl_append

theorem getLsbD_shiftIn (poly c : BitVec n) (b : Bool) (i : ℕ) :
    (shiftIn poly c b).getLsbD i = (c.getLsbD (i + 1) ^^ (adds c b && poly.getLsbD i)) := by
  rw [shiftIn, BitVec.getLsbD_xor, BitVec.getLsbD_ushiftRight, Nat.add_comm 1 i]
  cases adds c b <;> simp

/-- The highest bit of the code tells whether the generator was added. -/
theorem adds_eq (hn : 0 < n) (hpoly : poly.getLsbD (n - 1) = true) (c : BitVec n) (b : Bool) :
    adds c b = (shiftIn poly c b).getLsbD (n - 1) := by
  rw [getLsbD_shiftIn, hpoly, Bool.and_true, BitVec.getLsbD_of_ge c _ (by omega), Bool.false_xor]

/-- From the bit `k` on, two codes are the same. -/
def AgreeFrom (k : ℕ) (c c' : BitVec n) : Prop := ∀ i, k ≤ i → c.getLsbD i = c'.getLsbD i

theorem AgreeFrom.eq (h : AgreeFrom 0 c c') : c = c' :=
  BitVec.eq_of_getLsbD_eq fun i _ => h i (Nat.zero_le i)

/-- Taking a step back: the generator was added to both codes or to none. -/
theorem AgreeFrom.back {k : ℕ} (hk : k < n) (hpoly : poly.getLsbD (n - 1) = true)
    (h : AgreeFrom k (shiftIn poly c b) (shiftIn poly c' b')) : adds c b = adds c' b' ∧ AgreeFrom (k + 1) c c' := by
  have hadds : adds c b = adds c' b' := by
    rw [adds_eq (by omega) hpoly c b, adds_eq (by omega) hpoly c' b']
    exact h (n - 1) (by omega)
  refine ⟨hadds, ?_⟩
  intro i hi
  obtain ⟨i, rfl⟩ : ∃ j, i = j + 1 := ⟨i - 1, by omega⟩
  have hbit := h i (by omega)
  rw [getLsbD_shiftIn, getLsbD_shiftIn, hadds] at hbit
  exact Bool.xor_left_inj.1 hbit

/-- Two streams of the same length, not longer than the code: when their codes agree, the codes before them agree in the
bits that have not dropped out, and the streams are the same if the codes before them are. -/
theorem AgreeFrom.before {k : ℕ} (hpoly : poly.getLsbD (n - 1) = true) (hlen : w.length = w'.length)
    (hk : k + w.length ≤ n) (h : AgreeFrom k (code poly c w) (code poly c' w')) :
    AgreeFrom (k + w.length) c c' ∧ (c = c' → w = w') := by
  induction w generalizing w' c c' with
  | nil =>
    obtain rfl := List.eq_nil_of_length_eq_zero hlen.symm
    exact ⟨h, fun _ => rfl⟩
  | cons b w ih =>
    obtain ⟨b', w', rfl⟩ := List.exists_cons_of_length_eq_add_one hlen.symm
    rw [List.length_cons] at hk
    obtain ⟨hagree, hsame⟩ := ih (Nat.succ.inj hlen) (by omega) h
    obtain ⟨hadds, hback⟩ := hagree.back (by omega) hpoly
    refine ⟨hback, ?_⟩
    rintro rfl
    have hb : b = b' := Bool.xor_left_inj.1 hadds
    subst hb
    rw [hsame rfl]

/-- The codes of a stream from different codes are different. -/
theorem code_injective (hn : 0 < n) (hpoly : poly.getLsbD (n - 1) = true) (w : List Bool) :
    Function.Injective fun c => code poly c w := by
  induction w with
  | nil => exact fun _ _ h => h
  | cons b w ih =>
    intro c c' h
    have hstep : shiftIn poly c b = shiftIn poly c' b := ih h
    have hagree : AgreeFrom 0 (shiftIn poly c b) (shiftIn poly c' b) := fun i _ => by rw [hstep]
    obtain ⟨hadds, hback⟩ := hagree.back hn hpoly
    apply AgreeFrom.eq
    intro i _
    cases i with
    | zero => exact Bool.xor_right_inj.1 hadds
    | succ i => exact hback (i + 1) (by omega)

/-- Streams that differ within `n` neighbouring bits have different codes. -/
theorem code_burst_ne (hpoly : poly.getLsbD (n - 1) = true) (hlen : w.length = w'.length) (hw : w.length ≤ n)
    (hne : w ≠ w') (c : BitVec n) (u v : List Bool) : code poly c (u ++ w ++ v) ≠ code poly c (u ++ w' ++ v) := by
  intro h
  rw [code_append, code_append _ _ (u ++ w'), code_append, code_append] at h
  have hpos : 0 < w.length := by
    rw [List.length_pos_iff]
    rintro rfl
    exact hne (List.eq_nil_of_length_eq_zero hlen.symm).symm
  have hmid := code_injective (by omega) hpoly v h
  have hagree : AgreeFrom 0 (code poly (code poly c u) w) (code poly (code poly c u) w') := fun i _ => by rw [hmid]
  exact hne ((hagree.before hpoly hlen (by omega)).2 rfl)

end Crc
