import ZrSoc.CoreListBench

/-!
# All iterations start from the same memory

`iterate` runs the benchmark over and over on one list.  Since each run puts the list, the items and the inputs of the
other benchmarks back, all runs start from the memory that the first one started from (`iterate_restores`); the second
seed has to be the first one for that, at least in its low byte.
-/

namespace CoreMark

open Linked

variable {P Q : Type} [DecidableEq P] [DecidableEq Q] {m m' m'' : Memory P Q} {list : Option P} {xs : List P}
  {fuel : ℕ}

omit [DecidableEq P] [DecidableEq Q] in
theorem Restored.refl (m : Memory P Q) : Restored m m := ⟨rfl, rfl, SameInputs.refl _⟩

omit [DecidableEq P] [DecidableEq Q] in
theorem Restored.trans (h : Restored m m') (h' : Restored m' m'') : Restored m m'' where
  heads := h'.heads.trans h.heads
  infos := h'.infos.trans h.infos
  inputs := h.inputs.trans h'.inputs

omit [DecidableEq P] [DecidableEq Q] in
/-- The next run finds what the first one found. -/
theorem Prepared.of_restored (hp : Prepared m list xs) (h : Restored m m') : Prepared m' list xs where
  chain := by
    rw [h.heads]
    exact hp.chain
  three := hp.three
  bound := hp.bound
  sorted := by
    have hidx : ∀ x, m'.idxOf x = m.idxOf x := by
      intro x
      rw [Memory.idxOf, Memory.idxOf, h.heads, h.infos]
    simp only [hidx]
    exact hp.sorted
  regenerated := by
    intro x hx
    rw [isRegenerated, h.heads, h.infos]
    exact hp.regenerated x hx
  input := hp.input.of_same h.inputs

omit [DecidableEq P] [DecidableEq Q] in
theorem restored_setCrc (m : Memory P Q) (crc : BitVec 16) : Restored m (m.setCrc crc) :=
  ⟨rfl, rfl, rfl, rfl, rfl, rfl, rfl, rfl, rfl, rfl, rfl, rfl⟩

omit [DecidableEq P] [DecidableEq Q] in
theorem restored_keepCrclist (m : Memory P Q) : Restored m m.keepCrclist :=
  ⟨rfl, rfl, rfl, rfl, rfl, rfl, rfl, rfl, rfl, rfl, rfl, rfl⟩

omit [DecidableEq P] [DecidableEq Q] in
theorem restored_clearCrcs (m : Memory P Q) : Restored m m.clearCrcs :=
  ⟨rfl, rfl, rfl, rfl, rfl, rfl, rfl, rfl, rfl, rfl, rfl, rfl⟩

theorem benchTurn_restores (hp : Prepared m list xs) (hf : xs.length ≤ fuel) (junk finderIdx : BitVec 16) :
    ∃ m', benchTurn fuel junk list finderIdx m = some m' ∧ Restored m m' := by
  obtain ⟨retval, m₁, hrun, hrest⟩ := coreBenchList_restores hp hf junk finderIdx
  refine ⟨m₁.setCrc (crcu16 retval m₁.store.res.crc), ?_, hrest.trans (restored_setCrc m₁ _)⟩
  rw [benchTurn, hrun]
  rfl

/-- A turn of `iterate` puts the memory back. -/
theorem iterateTurn_restores (hp : Prepared m list xs) (hf : xs.length ≤ fuel) (junk : BitVec 16) (i : ℕ) :
    ∃ m', iterateTurn fuel junk list i m = some m' ∧ Restored m m' := by
  obtain ⟨m₁, hrun₁, hrest₁⟩ := benchTurn_restores hp hf junk 1
  obtain ⟨m₂, hrun₂, hrest₂⟩ := benchTurn_restores (hp.of_restored hrest₁) hf junk (-1)
  have hrest := hrest₁.trans hrest₂
  refine ⟨if i = 0 then m₂.keepCrclist else m₂, ?_, ?_⟩
  · simp only [iterateTurn, bind, pure, hrun₁, hrun₂, Option.bind_some]
  · split
    · exact hrest.trans (restored_keepCrclist m₂)
    · exact hrest

theorem iterateTurns_restores (hp : Prepared m list xs) (hf : xs.length ≤ fuel) (junk : BitVec 16) (n : ℕ) :
    ∃ m', iterateTurns fuel junk list m n = some m' ∧ Restored m m' := by
  induction n with
  | zero => exact ⟨m, rfl, Restored.refl m⟩
  | succ n ih =>
    obtain ⟨m₁, hrun, hrest⟩ := ih
    obtain ⟨m₂, hturn, hrest'⟩ := iterateTurn_restores (hp.of_restored hrest) hf junk n
    refine ⟨m₂, ?_, hrest.trans hrest'⟩
    rw [iterateTurns, hrun, Option.bind_some, hturn]

theorem iterateTurns_clearCrcs (hp : Prepared m list xs) (hf : xs.length ≤ fuel) (junk : BitVec 16) (n : ℕ) :
    ∃ m', iterateTurns fuel junk list m.clearCrcs n = some m' ∧ Restored m m' := by
  have hclear := restored_clearCrcs m
  obtain ⟨m', hrun, hrest⟩ := iterateTurns_restores (hp.of_restored hclear) hf junk n
  exact ⟨m', hrun, hclear.trans hrest⟩

/-- From prepared memory, `iterate` follows no null pointer and leaves no block of memory, and after each of its turns
the cells, the items and the inputs of the benchmarks are what they were before the first. -/
theorem iterate_restores (hp : Prepared m list xs) (hf : xs.length ≤ fuel) (junk : BitVec 16) :
    (∃ m', iterate fuel junk list m = some m' ∧ Restored m m') ∧
      ∀ n, ∃ m', iterateTurns fuel junk list m.clearCrcs n = some m' ∧ Restored m m' := by
  have hturns := iterateTurns_clearCrcs hp hf junk
  exact ⟨hturns m.store.res.iterations, hturns⟩

/-- Three items, sorted by index, with regenerated data. -/
def smallMemory : Memory ℕ ℕ := ⟨threeCells, threeItems, smallResults⟩

theorem prepared_small : Prepared smallMemory (some 0) [0, 1, 2] where
  chain := seg_threeCells
  three := by decide
  bound := by decide
  sorted := by decide
  regenerated := by
    unfold isRegenerated
    decide
  input := benchInput_small

theorem iterate_restores_small :
    (∃ m', iterate 3 0 (some 0) smallMemory = some m' ∧ Restored smallMemory m') ∧
      ∀ n, ∃ m', iterateTurns 3 0 (some 0) smallMemory.clearCrcs n = some m' ∧ Restored smallMemory m' :=
  iterate_restores prepared_small (le_refl 3) 0

end CoreMark
