import ZrSoc.CoreMatrix

/-!
# The matrix benchmark leaves its input as it was

On matrices of the right sizes the benchmark stays inside of them.  `matrix_test` adds a constant to the elements of a
matrix and takes it away again, so that the matrix has its original contents, whatever wrapped on the way; the other
input matrix is not written (`coreBenchMatrix_restores`).
-/

namespace CoreMark

/-! ### Loops -/

theorem forUpTo_succ {S : Type*} (n : ℕ) (body : ℕ → S → Option S) (s : S) :
    forUpTo (n + 1) body s = (forUpTo n body s).bind (body n) := by
  rw [forUpTo, List.range_succ, List.foldlM_append]
  refine congrArg _ (funext fun s => ?_)
  simp only [List.foldlM_cons, List.foldlM_nil, bind_pure]

/-- What every turn of a loop keeps, while it stays inside of its memory, the loop keeps. -/
theorem forUpTo_total {S : Type*} {f : ℕ → S → Option S} {s : S} (motive : ℕ → S → Prop) (zero : motive 0 s)
    {n : ℕ} (succ : ∀ i < n, ∀ s, motive i s → ∃ s', f i s = some s' ∧ motive (i + 1) s') :
    ∃ s', forUpTo n f s = some s' ∧ motive n s' := by
  induction n with
  | zero => exact ⟨s, rfl, zero⟩
  | succ n ih =>
    obtain ⟨s₁, hrun, h₁⟩ := ih fun i hi => succ i (Nat.lt_succ_of_lt hi)
    obtain ⟨s₂, hbody, h₂⟩ := succ n (Nat.lt_succ_self n) s₁ h₁
    exact ⟨s₂, by rw [forUpTo_succ, hrun, Option.bind_some, hbody], h₂⟩

/-- A property that every turn of the inner loop keeps. -/
theorem forUpTo_forUpTo_total {S : Type*} {N : ℕ} {f : ℕ → ℕ → S → Option S} (I : S → Prop)
    (hf : ∀ i < N, ∀ j < N, ∀ s, I s → ∃ s', f i j s = some s' ∧ I s') {s : S} (hs : I s) :
    ∃ s', forUpTo N (fun i => forUpTo N (f i)) s = some s' ∧ I s' :=
  forUpTo_total (fun _ => I) hs fun i hi _ hs => forUpTo_total (fun _ => I) hs (hf i hi)

theorem index_lt {N i j : ℕ} (hi : i < N) (hj : j < N) : i * N + j < N * N := by
  have := Nat.mul_le_mul_right N (Nat.succ_le_of_lt hi)
  rw [Nat.succ_mul] at this
  omega

theorem getElem?_of_lt {α : Type*} {p : List α} {k : ℕ} (h : k < p.length) : ∃ v, p[k]? = some v :=
  ⟨_, List.getElem?_eq_getElem h⟩

theorem matres_of_lt {A : List (BitVec 16)} {k : ℕ} (h : k < A.length) : ∃ v, matres A k = some v := by
  obtain ⟨v, hv⟩ := getElem?_of_lt h
  exact ⟨v.signExtend 32, by rw [matres, hv, Option.map_some]⟩

theorem setAt_of_lt {α : Type*} {p : List α} {k : ℕ} (h : k < p.length) (v : α) : setAt p k v = some (p.set k v) :=
  if_pos h

/-! ### The operations -/

variable {N n : ℕ} {A A' B : List (BitVec 16)} {C : List (BitVec 32)} {val : BitVec 16}

/-- The constant has been added to the first `n` elements. -/
def Added (val : BitVec 16) (A : List (BitVec 16)) (n : ℕ) (A' : List (BitVec 16)) : Prop :=
  A'.length = A.length ∧ ∀ k, A'[k]? = A[k]?.map fun a => if k < n then a + val else a

theorem Added.next (h : Added val A n A') (hn : n < A.length) :
    ∃ A'', (do
      let a ← A'[n]?
      setAt A' n (a + val)) = some A'' ∧ Added val A (n + 1) A'' := by
  obtain ⟨hlen, hget⟩ := h
  obtain ⟨a, ha⟩ := getElem?_of_lt hn
  have ha' : A'[n]? = some a := by
    rw [hget, ha, Option.map_some, if_neg (Nat.lt_irrefl n)]
  refine ⟨A'.set n (a + val), ?_, by rw [List.length_set, hlen], fun k => ?_⟩
  · rw [ha']
    exact setAt_of_lt (hlen ▸ hn) _
  · rw [List.getElem?_set]
    rcases eq_or_ne n k with rfl | hk
    · rw [if_pos rfl, if_pos (hlen ▸ hn), ha, Option.map_some, if_pos (Nat.lt_succ_self n)]
    · rw [if_neg hk, hget]
      have hiff : k < n + 1 ↔ k < n := by omega
      simp only [hiff]

/-- Adding a constant changes every element once. -/
theorem matrixAddConst_eq (hA : A.length = N * N) (val : BitVec 16) :
    matrixAddConst N A val = some (A.map (· + val)) := by
  obtain ⟨A', hrun, hlen, hget⟩ := forUpTo_total (n := N) (s := A) (f := fun i => forUpTo N fun j A => do
      let a ← A[i * N + j]?
      setAt A (i * N + j) (a + val)) (fun i => Added val A (i * N))
    ⟨rfl, fun k => by simp⟩ fun i hi A₁ h₁ => by
      rw [Nat.succ_mul]
      exact forUpTo_total (fun j => Added val A (i * N + j)) h₁ fun j hj A₂ h₂ => h₂.next (hA ▸ index_lt hi hj)
  rw [matrixAddConst, hrun]
  congr 1
  apply List.ext_getElem?
  intro k
  rw [hget, List.getElem?_map]
  rcases Nat.lt_or_ge k A.length with hk | hk
  · simp only [hA ▸ hk, if_true]
  · rw [List.getElem?_eq_none hk, Option.map_none, Option.map_none]

/-- Adding a constant and taking it away gives the matrix back. -/
theorem map_add_neg (A : List (BitVec 16)) (val : BitVec 16) : (A.map (· + val)).map (· + -val) = A := by
  rw [List.map_map]
  refine (List.map_congr_left fun a _ => ?_).trans (List.map_id A)
  exact add_neg_cancel_right a val

/-- A write to an element keeps the size of the matrix. -/
private theorem setAt_length {k : ℕ} (hC : C.length = N * N) (hk : k < N * N) (v : BitVec 32) :
    ∃ C', setAt C k v = some C' ∧ C'.length = N * N :=
  ⟨_, setAt_of_lt (hC ▸ hk) v, by rw [List.length_set, hC]⟩

theorem matrixMulConst_total (hA : A.length = N * N) (hC : C.length = N * N) (val : BitVec 16) :
    ∃ C', matrixMulConst N C A val = some C' ∧ C'.length = N * N := by
  refine forUpTo_forUpTo_total (fun C : List (BitVec 32) => C.length = N * N) (fun i hi j hj C hC => ?_) hC
  obtain ⟨a, ha⟩ := matres_of_lt (hA ▸ index_lt hi hj)
  rw [ha]
  exact setAt_length hC (index_lt hi hj) _

theorem matrixMulVect_total (hA : A.length = N * N) (hB : B.length = N * N) (hC : C.length = N * N) :
    ∃ C', matrixMulVect N C A B = some C' ∧ C'.length = N * N := by
  refine forUpTo_total (fun _ (C : List (BitVec 32)) => C.length = N * N) hC fun i hi C hC => ?_
  have hrow : i < N * N := Nat.lt_of_lt_of_le hi (Nat.le_mul_self N)
  obtain ⟨C₁, hset, hC₁⟩ := setAt_length hC hrow 0
  rw [hset]
  refine forUpTo_total (fun _ (C : List (BitVec 32)) => C.length = N * N) hC₁ fun j hj C hC => ?_
  obtain ⟨c, hc⟩ := getElem?_of_lt (hC ▸ hrow)
  obtain ⟨a, ha⟩ := matres_of_lt (hA ▸ index_lt hi hj)
  obtain ⟨b, hb⟩ := matres_of_lt (hB ▸ Nat.lt_of_lt_of_le hj (Nat.le_mul_self N))
  rw [hc, ha, hb]
  exact setAt_length hC hrow _

theorem matrixMulMatrix_total (hA : A.length = N * N) (hB : B.length = N * N) (hC : C.length = N * N) :
    ∃ C', matrixMulMatrix N C A B = some C' ∧ C'.length = N * N := by
  refine forUpTo_forUpTo_total (fun C : List (BitVec 32) => C.length = N * N) (fun i hi j hj C hC => ?_) hC
  obtain ⟨C₁, hset, hC₁⟩ := setAt_length hC (index_lt hi hj) 0
  rw [hset]
  refine forUpTo_total (fun _ (C : List (BitVec 32)) => C.length = N * N) hC₁ fun k hk C hC => ?_
  obtain ⟨c, hc⟩ := getElem?_of_lt (hC ▸ index_lt hi hj)
  obtain ⟨a, ha⟩ := matres_of_lt (hA ▸ index_lt hi hk)
  obtain ⟨b, hb⟩ := matres_of_lt (hB ▸ index_lt hk hj)
  rw [hc, ha, hb]
  exact setAt_length hC (index_lt hi hj) _

theorem matrixMulMatrixBitextract_total (hA : A.length = N * N) (hB : B.length = N * N) (hC : C.length = N * N) :
    ∃ C', matrixMulMatrixBitextract N C A B = some C' ∧ C'.length = N * N := by
  refine forUpTo_forUpTo_total (fun C : List (BitVec 32) => C.length = N * N) (fun i hi j hj C hC => ?_) hC
  obtain ⟨C₁, hset, hC₁⟩ := setAt_length hC (index_lt hi hj) 0
  rw [hset]
  refine forUpTo_total (fun _ (C : List (BitVec 32)) => C.length = N * N) hC₁ fun k hk C hC => ?_
  obtain ⟨a, ha⟩ := matres_of_lt (hA ▸ index_lt hi hk)
  obtain ⟨b, hb⟩ := matres_of_lt (hB ▸ index_lt hk hj)
  obtain ⟨c, hc⟩ := getElem?_of_lt (hC ▸ index_lt hi hj)
  rw [ha, hb]
  simp only [bind, Option.bind_some, hc]
  exact setAt_length hC (index_lt hi hj) _

theorem matrixSum_total (hC : C.length = N * N) (clipval : BitVec 16) : ∃ ret, matrixSum N C clipval = some ret := by
  obtain ⟨s, hrun, -⟩ := forUpTo_forUpTo_total (N := N) (S := Sum) (s := ⟨0, 0, 0⟩) (f := fun i j s => do
      let cur ← C[i * N + j]?
      let tmp := s.tmp + cur
      return if clipval.toInt < tmp.toInt then ⟨0, cur, s.ret + 10⟩
        else ⟨tmp, cur, s.ret + if s.prev.toInt < cur.toInt then 1 else 0⟩) (fun _ => True)
    (fun i hi j hj s _ => by
      obtain ⟨cur, hcur⟩ := getElem?_of_lt (hC ▸ index_lt hi hj)
      rw [hcur]
      exact ⟨_, rfl, trivial⟩) trivial
  exact ⟨s.ret, by rw [matrixSum, hrun, Option.map_some]⟩

/-! ### The benchmark -/

/-- The three matrices have `N` rows and columns. -/
structure MatParams.Sized (p : MatParams) : Prop where
  A : p.A.length = p.N * p.N
  B : p.B.length = p.N * p.N
  C : p.C.length = p.N * p.N

/-- The benchmark stays inside of its matrices, and keeps the dimension and both input matrices. -/
theorem coreBenchMatrix_restores {p : MatParams} (hp : p.Sized) (seed crc : BitVec 16) :
    ∃ crc' C, coreBenchMatrix p seed crc = some (crc', { p with C := C }) ∧ C.length = p.C.length := by
  obtain ⟨N, A, B, C⟩ := p
  obtain ⟨hA, hB, hC⟩ : A.length = N * N ∧ B.length = N * N ∧ C.length = N * N := ⟨hp.A, hp.B, hp.C⟩
  have hA₁ : (A.map (· + seed)).length = N * N := by rw [List.length_map, hA]
  obtain ⟨C₁, h₁, hC₁⟩ := matrixMulConst_total hA₁ hC seed
  obtain ⟨r₁, hr₁⟩ := matrixSum_total hC₁ (matrixBig seed)
  obtain ⟨C₂, h₂, hC₂⟩ := matrixMulVect_total hA₁ hB hC₁
  obtain ⟨r₂, hr₂⟩ := matrixSum_total hC₂ (matrixBig seed)
  obtain ⟨C₃, h₃, hC₃⟩ := matrixMulMatrix_total hA₁ hB hC₂
  obtain ⟨r₃, hr₃⟩ := matrixSum_total hC₃ (matrixBig seed)
  obtain ⟨C₄, h₄, hC₄⟩ := matrixMulMatrixBitextract_total hA₁ hB hC₃
  obtain ⟨r₄, hr₄⟩ := matrixSum_total hC₄ (matrixBig seed)
  have hback : matrixAddConst N (A.map (· + seed)) (-seed) = some A := by
    rw [matrixAddConst_eq hA₁, map_add_neg]
  refine ⟨crc16 (crc16 r₄ (crc16 r₃ (crc16 r₂ (crc16 r₁ 0)))) crc, C₄, ?_, hC₄.trans hC.symm⟩
  simp only [coreBenchMatrix, matrixTest, bind, pure, matrixAddConst_eq hA, h₁, hr₁, h₂, hr₂, h₃, hr₃, h₄, hr₄, hback,
    Option.bind_some]

/-- The initialisation stays inside of memory for three matrices, and keeps their sizes. -/
theorem coreInitMatrix_total {blksize : ℕ} (seed : BitVec 32) (hA : A.length = dimension blksize * dimension blksize)
    (hB : B.length = dimension blksize * dimension blksize) (hC : C.length = dimension blksize * dimension blksize) :
    ∃ p, coreInitMatrix blksize seed A B C = some p ∧ p.N = dimension blksize ∧ p.Sized := by
  generalize hN : dimension blksize = N at hA hB hC
  obtain ⟨s, hrun, hsA, hsB⟩ := forUpTo_forUpTo_total (N := N) (S := Fill)
    (s := ⟨if seed = 0 then 1 else seed.toInt, 1, A, B⟩) (f := fun i j s => do
      let seed := (s.order * s.seed).tmod 65536
      let val := matrixClip (BitVec.ofInt 16 (seed + s.order)) false
      let B ← setAt s.B (i * N + j) val
      let val := matrixClip (val + BitVec.ofInt 16 s.order) true
      let A ← setAt s.A (i * N + j) val
      return ⟨seed, s.order + 1, A, B⟩) (fun s => s.A.length = N * N ∧ s.B.length = N * N)
    (fun i hi j hj s ⟨hsA, hsB⟩ => by
      have hltA : i * N + j < s.A.length := hsA ▸ index_lt hi hj
      have hltB : i * N + j < s.B.length := hsB ▸ index_lt hi hj
      simp only [bind, pure, setAt_of_lt hltA, setAt_of_lt hltB, Option.bind_some]
      exact ⟨_, rfl, by rw [List.length_set, hsA], by rw [List.length_set, hsB]⟩) ⟨hA, hB⟩
  refine ⟨⟨N, s.A, s.B, C⟩, ?_, rfl, hsA, hsB, hC⟩
  simp only [coreInitMatrix, hN, bind, pure] at hrun ⊢
  rw [hrun, Option.bind_some]

end CoreMark
