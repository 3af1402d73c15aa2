import ZrSoc.CoreListJoin

/-!
# The runs of the benchmark

Model of `iterate` and of the initialisation in `core_main.c`, with all three algorithms.  They share one block of
memory, in which each has the same number of bytes.  A cell of the list has two pointers of four bytes and an item two
numbers of two; the lists of the model are the parts of the block that `layout` gives, and stand for it as long as
these do not overlap (`layout_separate_iff`).
-/

namespace CoreMark

variable {P Q : Type} [DecidableEq P] [DecidableEq Q]

/-- `res->crc = crc`. -/
def Memory.setCrc (m : Memory P Q) (crc : BitVec 16) : Memory P Q :=
  { m with store := { m.store with res := { m.store.res with crc := crc } } }

/-- `res->crclist = res->crc`. -/
def Memory.keepCrclist (m : Memory P Q) : Memory P Q :=
  { m with store := { m.store with res := { m.store.res with crclist := m.store.res.crc } } }

/-- A run of `core_bench_list` whose result enters the CRC of the results. -/
def benchTurn (fuel : ℕ) (junk : BitVec 16) (list : Option P) (finderIdx : BitVec 16) (m : Memory P Q) :
    Option (Memory P Q) :=
  (coreBenchList fuel junk list m finderIdx).map fun (crc, m) => m.setCrc (crcu16 crc m.store.res.crc)

/-- One turn of the loop of `iterate`. -/
def iterateTurn (fuel : ℕ) (junk : BitVec 16) (list : Option P) (i : ℕ) (m : Memory P Q) : Option (Memory P Q) := do
  let m ← benchTurn fuel junk list 1 m
  let m ← benchTurn fuel junk list (-1) m
  return if i = 0 then m.keepCrclist else m

/-- The first `n` turns. -/
def iterateTurns (fuel : ℕ) (junk : BitVec 16) (list : Option P) (m : Memory P Q) : ℕ → Option (Memory P Q)
  | 0 => some m
  | n + 1 => (iterateTurns fuel junk list m n).bind (iterateTurn fuel junk list n)

/-- The CRCs of the results are cleared. -/
def Memory.clearCrcs (m : Memory P Q) : Memory P Q :=
  { m with store := { m.store with res := { m.store.res with crc := 0, crclist := 0, crcmatrix := 0, crcstate := 0 } } }

def iterate (fuel : ℕ) (junk : BitVec 16) (list : Option P) (m : Memory P Q) : Option (Memory P Q) :=
  iterateTurns fuel junk list m.clearCrcs m.store.res.iterations

/-- The results after the initialisation of the matrices and the state machine's input, with `size` bytes for each
algorithm, in memory that holds the matrices `A`, `B` and `C` before. -/
def initialResults (size iterations : ℕ) (seed1 seed2 seed3 : BitVec 16) (A B : List (BitVec 16))
    (C : List (BitVec 32)) : Option Results := do
  let mat ← coreInitMatrix size (seed1.signExtend 32 ||| (seed2.signExtend 32 <<< 16)) A B C
  let memblock ← coreInitState size seed1
  return {
    seed1 := seed1
    seed2 := seed2
    seed3 := seed3
    memblock3 := memblock
    size := size
    iterations := iterations
    mat := mat
    crc := 0
    crclist := 0
    crcmatrix := 0
    crcstate := 0 }

/-! ### The block of memory -/

/-- `align_mem` -/
def alignMem (x : ℕ) : ℕ := 4 + (x - 1) / 4 * 4

/-- The `size` bytes from `start` on. -/
structure Region where
  start : ℕ
  size : ℕ
  deriving DecidableEq, Repr

/-- The parts of the block of memory that the algorithms use. -/
structure Layout where
  heads : Region
  items : Region
  A : Region
  B : Region
  C : Region
  state : Region
  deriving DecidableEq, Repr

/-- The pointers that `core_main`, `core_list_init` and `core_init_matrix` calculate, for a block at `memblock` with
`size` bytes for each algorithm. -/
def layout (memblock size : ℕ) : Layout :=
  let cells := size / 20 - 2
  let n := dimension size
  let A := alignMem (memblock + size)
  let B := A + 2 * (n * n)
  let C := alignMem (B + 2 * (n * n))
  { heads := ⟨memblock, 8 * cells⟩
    items := ⟨memblock + 8 * cells, 4 * cells⟩
    A := ⟨A, 2 * (n * n)⟩
    B := ⟨B, 2 * (n * n)⟩
    C := ⟨C, 4 * (n * n)⟩
    state := ⟨memblock + 2 * size, size⟩ }

/-- The first region ends before the second one begins. -/
def Region.Before (r r' : Region) : Prop := r.start + r.size ≤ r'.start

/-- The regions follow each other in the `3 * size` bytes from `memblock` on. -/
structure Layout.Separate (l : Layout) (memblock size : ℕ) : Prop where
  starts : memblock ≤ l.heads.start
  items : l.heads.Before l.items
  A : l.items.Before l.A
  B : l.A.Before l.B
  C : l.B.Before l.C
  state : l.C.Before l.state
  ends : l.state.start + l.state.size ≤ memblock + 3 * size

/-- Every element is at an address that is a multiple of its size, or of four. -/
structure Layout.Aligned (l : Layout) : Prop where
  heads : 4 ∣ l.heads.start
  items : 4 ∣ l.items.start
  A : 2 ∣ l.A.start
  B : 2 ∣ l.B.start
  C : 4 ∣ l.C.start

theorem le_alignMem (x : ℕ) : x ≤ alignMem x := by
  unfold alignMem
  omega

theorem alignMem_add {x k : ℕ} (hx : 0 < x) : alignMem (x + 4 * k) = alignMem x + 4 * k := by
  unfold alignMem
  omega

theorem alignMem_alignMem (x : ℕ) : alignMem (alignMem x) = alignMem x := by
  unfold alignMem
  omega

theorem dvd_alignMem (x : ℕ) : 4 ∣ alignMem x := ⟨1 + (x - 1) / 4, by unfold alignMem; omega⟩

theorem layout_aligned {memblock size : ℕ} (hb : 4 ∣ memblock) : (layout memblock size).Aligned := by
  have hA := dvd_alignMem (memblock + size)
  refine ⟨hb, ?_, ?_, ?_, dvd_alignMem _⟩ <;> simp only [layout] <;> omega

/-- The regions are separate if and only if the matrices end before the state machine's input. -/
theorem layout_separate_iff {memblock size : ℕ} : (layout memblock size).Separate memblock size ↔
    alignMem (memblock + size) + 8 * (dimension size * dimension size) ≤ memblock + 2 * size := by
  generalize hm : dimension size * dimension size = m
  have hA := le_alignMem (memblock + size)
  have hC : alignMem (alignMem (memblock + size) + 2 * m + 2 * m) = alignMem (memblock + size) + 4 * m := by
    have hpos : 0 < alignMem (memblock + size) := by
      unfold alignMem
      omega
    have := alignMem_add (k := m) hpos
    rw [alignMem_alignMem] at this
    rw [← this]
    congr 1
    omega
  have hlist : 12 * (size / 20 - 2) ≤ size := by omega
  constructor
  · intro h
    have := h.state
    simp only [layout, Region.Before, hm, hC] at this
    omega
  · intro h
    refine ⟨le_rfl, le_rfl, ?_, le_rfl, ?_, ?_, ?_⟩ <;> simp only [layout, Region.Before, hm, hC] <;> omega

/-- The loop ends with the first number whose matrices fill the block. -/
theorem dimLoop_spec {blksize : ℕ} (fuel i : ℕ) (hi : 8 * ((i - 1) * (i - 1)) < blksize) (hf : blksize ≤ i + fuel) :
    8 * ((dimLoop blksize fuel i (i * i * 2 * 4) - 1) * (dimLoop blksize fuel i (i * i * 2 * 4) - 1)) < blksize ∧
      blksize ≤ 8 * (dimLoop blksize fuel i (i * i * 2 * 4) * dimLoop blksize fuel i (i * i * 2 * 4)) := by
  induction fuel generalizing i with
  | zero =>
    refine ⟨hi, ?_⟩
    have := Nat.le_mul_self i
    rw [dimLoop]
    omega
  | succ fuel ih =>
    rw [dimLoop]
    split
    next hlt => exact ih (i + 1) (by rw [Nat.add_sub_cancel]; omega) (by omega)
    next hge => exact ⟨hi, by omega⟩

/-- The dimension is the greatest for which the block is larger than the matrices. -/
theorem dimension_spec {blksize : ℕ} (h : 0 < blksize) : 8 * (dimension blksize * dimension blksize) < blksize ∧
    blksize ≤ 8 * ((dimension blksize + 1) * (dimension blksize + 1)) := by
  obtain ⟨hlt, hle⟩ := @dimLoop_spec blksize blksize 0 h (by omega)
  refine ⟨hlt, ?_⟩
  have hpos : dimLoop blksize blksize 0 0 ≠ 0 := fun h0 => by
    simp only [Nat.zero_mul, h0] at hle
    omega
  rw [dimension, Nat.sub_add_cancel (Nat.pos_of_ne_zero hpos)]
  exact hle

/-- In an aligned block with aligned parts nothing overlaps. -/
theorem layout_separate {memblock size : ℕ} (hb : 4 ∣ memblock) (hpos : 0 < size) (hs : 4 ∣ size) :
    (layout memblock size).Separate memblock size := by
  rw [layout_separate_iff]
  have hdim := (dimension_spec hpos).1
  unfold alignMem
  omega

-- the sizes of the runs that `core_main` knows
example : ∀ size ∈ [2000, 400, 666], alignMem (4 + size) + 8 * (dimension size * dimension size) ≤ 4 + 2 * size := by
  decide +kernel

-- the last element of the result reaches into the state machine's input
example : (layout 4 201).C = ⟨308, 100⟩ ∧ (layout 4 201).state = ⟨406, 201⟩ := by decide +kernel

end CoreMark
