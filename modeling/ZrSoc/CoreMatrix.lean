import ZrSoc.CoreUtil
import Mathlib.Data.List.Basic

/-!
# The matrix manipulation of the benchmark

Model of `core_matrix.c`.  A matrix is the list of its elements, row by row, so that the element of row `i` and column
`j` has the index `i * N + j`; an access outside of it is `none`.  Elements of the input matrices have 16 bits and those
of the result 32 bits; sums and products of them wrap.
-/

namespace CoreMark

/-- `for (i = 0; i < N; i++)`. -/
def forUpTo {S : Type*} (N : ℕ) (body : ℕ → S → Option S) (s : S) : Option S :=
  (List.range N).foldlM (fun s i => body i s) s

/-- `p[k] = v`. -/
def setAt {α : Type*} (p : List α) (k : ℕ) (v : α) : Option (List α) := if k < p.length then some (p.set k v) else none

/-- `mat_params`. -/
structure MatParams where
  N : ℕ
  A : List (BitVec 16)
  B : List (BitVec 16)
  C : List (BitVec 32)
  deriving DecidableEq, Repr

/-- An element of an input matrix as `MATRES`. -/
def matres (A : List (BitVec 16)) (k : ℕ) : Option (BitVec 32) := A[k]?.map (·.signExtend 32)

def matrixClip (x : BitVec 16) (y : Bool) : BitVec 16 := if y then x &&& 0x0ff else x &&& 0xffff

def matrixBig (x : BitVec 16) : BitVec 16 := 0xf000 ||| x

def bitExtract (x : BitVec 32) (lsb width : ℕ) : BitVec 32 :=
  x.sshiftRight lsb &&& ~~~((0xffffffff : BitVec 32) <<< width)

def matrixMulConst (N : ℕ) (C : List (BitVec 32)) (A : List (BitVec 16)) (val : BitVec 16) :
    Option (List (BitVec 32)) :=
  forUpTo N (fun i => forUpTo N fun j C => do
    let a ← matres A (i * N + j)
    setAt C (i * N + j) (a * val.signExtend 32)) C

def matrixAddConst (N : ℕ) (A : List (BitVec 16)) (val : BitVec 16) : Option (List (BitVec 16)) :=
  forUpTo N (fun i => forUpTo N fun j A => do
    let a ← A[i * N + j]?
    setAt A (i * N + j) (a + val)) A

def matrixMulVect (N : ℕ) (C : List (BitVec 32)) (A B : List (BitVec 16)) : Option (List (BitVec 32)) :=
  forUpTo N (fun i C => do
    let C ← setAt C i 0
    forUpTo N (fun j C => do
      let c ← C[i]?
      let a ← matres A (i * N + j)
      let b ← matres B j
      setAt C i (c + a * b)) C) C

def matrixMulMatrix (N : ℕ) (C : List (BitVec 32)) (A B : List (BitVec 16)) : Option (List (BitVec 32)) :=
  forUpTo N (fun i => forUpTo N fun j C => do
    let C ← setAt C (i * N + j) 0
    forUpTo N (fun k C => do
      let c ← C[i * N + j]?
      let a ← matres A (i * N + k)
      let b ← matres B (k * N + j)
      setAt C (i * N + j) (c + a * b)) C) C

def matrixMulMatrixBitextract (N : ℕ) (C : List (BitVec 32)) (A B : List (BitVec 16)) : Option (List (BitVec 32)) :=
  forUpTo N (fun i => forUpTo N fun j C => do
    let C ← setAt C (i * N + j) 0
    forUpTo N (fun k C => do
      let a ← matres A (i * N + k)
      let b ← matres B (k * N + j)
      let tmp := a * b
      let c ← C[i * N + j]?
      setAt C (i * N + j) (c + bitExtract tmp 2 4 * bitExtract tmp 5 7)) C) C

/-- The variables of `matrix_sum`. -/
structure Sum where
  tmp : BitVec 32
  prev : BitVec 32
  ret : BitVec 16

def matrixSum (N : ℕ) (C : List (BitVec 32)) (clipval : BitVec 16) : Option (BitVec 16) :=
  (forUpTo N (fun i => forUpTo N fun j (s : Sum) => do
    let cur ← C[i * N + j]?
    let tmp := s.tmp + cur
    return if clipval.toInt < tmp.toInt then ⟨0, cur, s.ret + 10⟩
      else ⟨tmp, cur, s.ret + if s.prev.toInt < cur.toInt then 1 else 0⟩) ⟨0, 0, 0⟩).map (·.ret)

def matrixTest (p : MatParams) (val : BitVec 16) : Option (BitVec 16 × MatParams) := do
  let N := p.N
  let B := p.B
  let clipval := matrixBig val
  -- make sure data changes
  let A ← matrixAddConst N p.A val
  let C ← matrixMulConst N p.C A val
  let crc := crc16 (← matrixSum N C clipval) 0
  let C ← matrixMulVect N C A B
  let crc := crc16 (← matrixSum N C clipval) crc
  let C ← matrixMulMatrix N C A B
  let crc := crc16 (← matrixSum N C clipval) crc
  let C ← matrixMulMatrixBitextract N C A B
  let crc := crc16 (← matrixSum N C clipval) crc
  -- return matrix to initial value
  let A ← matrixAddConst N A (-val)
  return (crc, ⟨N, A, B, C⟩)

def coreBenchMatrix (p : MatParams) (seed crc : BitVec 16) : Option (BitVec 16 × MatParams) := do
  let (retval, p) ← matrixTest p seed
  return (crc16 retval crc, p)

/-! ### The input -/

/-- The loop that determines the dimension; `fuel` bounds its turns. -/
def dimLoop (blksize : ℕ) : ℕ → ℕ → ℕ → ℕ
  | 0, i, _ => i
  | fuel + 1, i, j => if j < blksize then dimLoop blksize fuel (i + 1) ((i + 1) * (i + 1) * 2 * 4) else i

/-- The dimension of the matrices in a block of `blksize` bytes. -/
def dimension (blksize : ℕ) : ℕ := dimLoop blksize blksize 0 0 - 1

/-- The variables of the loop that fills the matrices. -/
structure Fill where
  seed : ℤ
  order : ℤ
  A : List (BitVec 16)
  B : List (BitVec 16)

/-- `core_init_matrix`, in memory that holds the matrices `A`, `B` and `C` before. -/
def coreInitMatrix (blksize : ℕ) (seed : BitVec 32) (A B : List (BitVec 16)) (C : List (BitVec 32)) :
    Option MatParams := do
  let N := dimension blksize
  let seed : ℤ := if seed = 0 then 1 else seed.toInt
  let s ← forUpTo N (fun i => forUpTo N fun j (s : Fill) => do
    let seed := (s.order * s.seed).tmod 65536
    let val := matrixClip (BitVec.ofInt 16 (seed + s.order)) false
    let B ← setAt s.B (i * N + j) val
    let val := matrixClip (val + BitVec.ofInt 16 s.order) true
    let A ← setAt s.A (i * N + j) val
    return ⟨seed, s.order + 1, A, B⟩) ⟨seed, 1, A, B⟩
  return ⟨N, s.A, s.B, C⟩

end CoreMark
