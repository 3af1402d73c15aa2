import ZrSoc.CoreUtil
import ZrSoc.Lists.Crc
import Mathlib.Tactic.IntervalCases

/-!
# What the CRC of the benchmark detects

`crcu8` shifts the bits of a byte into the code with the generator `0xa001`, the low one first, and so do `crcu16` and
`crcu32` with the bits of a word (`crcu8_eq`, `crcu16_eq`, `crcu32_eq`).  Hence the codes of two sequences of values
that differ within 16 neighbouring bits tell them apart (`crc_detects_bursts`).
-/

namespace CoreMark

open Crc

variable {n : ℕ}

/-! ### The bits of a word -/

/-- The bits of a word, the low one first. -/
def bits (v : BitVec n) : List Bool := (List.range n).map v.getLsbD

theorem length_bits (v : BitVec n) : (bits v).length = n := by
  rw [bits, List.length_map, List.length_range]

theorem bits_injective : Function.Injective (bits (n := n)) := by
  intro v v' h
  apply BitVec.eq_of_getLsbD_eq
  intro i hi
  exact List.map_inj_left.1 h i (List.mem_range.2 hi)

/-- The bits of the low part and of the high part of a word. -/
theorem bits_append {m : ℕ} (v : BitVec (n + m)) : bits (v.setWidth n) ++ bits ((v >>> n).setWidth m) = bits v := by
  rw [bits, bits, bits, List.range_add, List.map_append, List.map_map]
  congr 1
  · apply List.map_congr_left
    intro i hi
    simp [List.mem_range.1 hi]
  · apply List.map_congr_left
    intro i hi
    simp [List.mem_range.1 hi]

theorem flatMap_bits_injective (hn : 0 < n) {xs ys : List (BitVec n)} (h : xs.flatMap bits = ys.flatMap bits) :
    xs = ys := by
  induction xs generalizing ys with
  | nil =>
    cases ys with
    | nil => rfl
    | cons y ys =>
      have := congrArg List.length h
      simp [length_bits] at this
      omega
  | cons x xs ih =>
    cases ys with
    | nil =>
      have := congrArg List.length h
      simp [length_bits] at this
      omega
    | cons y ys =>
      rw [List.flatMap_cons, List.flatMap_cons] at h
      obtain ⟨hxy, hrest⟩ := List.append_inj h (by rw [length_bits, length_bits])
      rw [bits_injective hxy, ih hrest]

/-! ### The functions shift the bits of their values into the code -/

/-- The generator that is added to the code. -/
def generator : BitVec 16 := 0xa001

/-- A turn of the loop shifts the low bit of the data into the code. -/
theorem crcu8Turn_eq (data : BitVec 8) (crc : BitVec 16) :
    crcu8Turn (data, crc) = (data >>> 1, shiftIn generator crc (data.getLsbD 0)) := by
  have hx16 : ((data &&& 1) ^^^ (crc.setWidth 8 &&& 1) == 1) = adds crc (data.getLsbD 0) := by
    have hlow : (crc.setWidth 8).getLsbD 0 = crc.getLsbD 0 := by simp
    change ((data &&& 1#8) ^^^ (crc.setWidth 8 &&& 1#8) == 1#8) = _
    rw [BitVec.and_one_eq_setWidth_ofBool_getLsbD, BitVec.and_one_eq_setWidth_ofBool_getLsbD, hlow, adds]
    cases data.getLsbD 0 <;> cases crc.getLsbD 0 <;> rfl
  rw [crcu8Turn]
  simp only [hx16]
  refine Prod.ext rfl ?_
  rw [shiftIn]
  cases adds crc (data.getLsbD 0) with
  | true =>
    apply BitVec.eq_of_getLsbD_eq
    intro i hi
    interval_cases i <;> simp [generator]
  | false =>
    apply BitVec.eq_of_getLsbD_eq
    intro i hi
    interval_cases i <;> simp

theorem crcu8Turns_eq (data : BitVec 8) (crc : BitVec 16) (k : ℕ) :
    crcu8Turn^[k] (data, crc) = (data >>> k, code generator crc ((List.range k).map data.getLsbD)) := by
  induction k with
  | zero => simp
  | succ k ih =>
    rw [Function.iterate_succ_apply', ih, crcu8Turn_eq, List.range_succ, List.map_append, code_append,
      BitVec.shiftRight_add]
    simp

theorem crcu8_eq (data : BitVec 8) (crc : BitVec 16) : crcu8 data crc = code generator crc (bits data) := by
  rw [crcu8, crcu8Turns_eq, bits]

theorem crcu16_eq (newval crc : BitVec 16) : crcu16 newval crc = code generator crc (bits newval) := by
  rw [crcu16, crcu8_eq, crcu8_eq, ← code_append]
  exact congrArg (code generator crc) (bits_append (n := 8) (m := 8) newval)

theorem crcu32_eq (newval : BitVec 32) (crc : BitVec 16) : crcu32 newval crc = code generator crc (bits newval) := by
  rw [crcu32, crc16, crc16, crcu16_eq, crcu16_eq, ← code_append]
  exact congrArg (code generator crc) (bits_append (n := 16) (m := 16) newval)

/-! ### Bursts -/

/-- The bits of two sequences of words differ within 16 neighbouring bits only. -/
def Burst (xs ys : List (BitVec n)) : Prop :=
  ∃ u w w' v, xs.flatMap bits = u ++ w ++ v ∧ ys.flatMap bits = u ++ w' ++ v ∧ w.length = w'.length ∧ w.length ≤ 16

variable {step : BitVec n → BitVec 16 → BitVec 16}

theorem foldl_eq_code (hstep : ∀ v crc, step v crc = code generator crc (bits v)) (xs : List (BitVec n))
    (crc : BitVec 16) : xs.foldl (fun crc v => step v crc) crc = code generator crc (xs.flatMap bits) := by
  induction xs generalizing crc with
  | nil => rfl
  | cons x xs ih => rw [List.foldl_cons, ih, hstep, List.flatMap_cons, code_append]

theorem foldl_eq_iff (hn : 0 < n) (hstep : ∀ v crc, step v crc = code generator crc (bits v))
    {xs ys : List (BitVec n)} (h : Burst xs ys) (crc : BitVec 16) :
    xs.foldl (fun crc v => step v crc) crc = ys.foldl (fun crc v => step v crc) crc ↔ xs = ys := by
  constructor
  · obtain ⟨u, w, w', v, hxs, hys, hlen, hw⟩ := h
    intro heq
    rw [foldl_eq_code hstep, foldl_eq_code hstep, hxs, hys] at heq
    apply flatMap_bits_injective hn
    by_contra hne
    have hww : w ≠ w' := by
      rintro rfl
      exact hne (hxs.trans hys.symm)
    exact code_burst_ne (by decide) hlen hw hww crc u v heq
  · rintro rfl
    rfl

/-- Sequences of bytes, of words or of double words that differ within 16 neighbouring bits have the same code only if
they are the same. -/
theorem crc_detects_bursts (crc : BitVec 16) :
    (∀ xs ys : List (BitVec 8), Burst xs ys →
      (xs.foldl (fun crc v => crcu8 v crc) crc = ys.foldl (fun crc v => crcu8 v crc) crc ↔ xs = ys)) ∧
    (∀ xs ys : List (BitVec 16), Burst xs ys →
      (xs.foldl (fun crc v => crcu16 v crc) crc = ys.foldl (fun crc v => crcu16 v crc) crc ↔ xs = ys)) ∧
    ∀ xs ys : List (BitVec 32), Burst xs ys →
      (xs.foldl (fun crc v => crcu32 v crc) crc = ys.foldl (fun crc v => crcu32 v crc) crc ↔ xs = ys) := by
  refine ⟨?_, ?_, ?_⟩
  · intro xs ys h
    exact foldl_eq_iff (by decide) crcu8_eq h crc
  · intro xs ys h
    exact foldl_eq_iff (by decide) crcu16_eq h crc
  · intro xs ys h
    exact foldl_eq_iff (by decide) crcu32_eq h crc

/-- The highest bit of one word and the lowest of the next are neighbours. -/
theorem crc_detects_bursts_words :
    Burst [0x1234#16, 0x5678#16] [0x9234#16, 0x5679#16] ∧
      [0x1234#16, 0x5678#16].foldl (fun crc v => crcu16 v crc) 0 ≠
        [0x9234#16, 0x5679#16].foldl (fun crc v => crcu16 v crc) 0 := by
  have hburst : Burst [0x1234#16, 0x5678#16] [0x9234#16, 0x5679#16] :=
    ⟨(bits 0x1234#16).take 15, [false, false], [true, true], (bits 0x5678#16).drop 1, by decide, by decide, rfl,
      by decide⟩
  exact ⟨hburst, fun h => absurd (((crc_detects_bursts 0).2.1 _ _ hburst).1 h) (by decide)⟩

end CoreMark
