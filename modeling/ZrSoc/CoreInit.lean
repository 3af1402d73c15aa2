import ZrSoc.CoreIterate

/-!
# The benchmark starts from memory that it puts back

`core_list_init` links its cells in the order of their addresses, from the last one down, and indexes their items.
When the indices are different, the list that it returns is what a run of the benchmark needs (`coreListInit_prepared`).
With the inputs of the other benchmarks that `core_main` makes, all turns of `iterate` start from this memory
(`benchmark_restores`).
-/

namespace CoreMark

open Linked

variable {b : Blocks} {n size fuel : ℕ} {seed : BitVec 16}

/-! ### The cells of a new list -/

/-- The cells that have been inserted behind the head, the newest one first. -/
def newCells : ℕ → List ℕ
  | 0 => []
  | n + 1 => (n + 1) :: newCells n

theorem mem_newCells {x : ℕ} : x ∈ newCells n ↔ 0 < x ∧ x ≤ n := by
  induction n with
  | zero =>
    simp [newCells]
    omega
  | succ n ih =>
    simp [newCells, ih]
    omega

theorem length_newCells (n : ℕ) : (newCells n).length = n := by
  induction n with
  | zero => rfl
  | succ n ih => simp [newCells, ih]

/-- The blocks hold the head of a list and `n` cells behind it, and every cell has the item of its number. -/
structure Filled (b : Blocks) (n : ℕ) : Prop where
  chain : Seg b.heads.next (some 0) (0 :: newCells n) none
  memblock : b.memblock = n + 1
  datablock : b.datablock = n + 1
  info : ∀ x ≤ n, b.heads.info x = x

theorem coreListInsertNew_filled (hb : Filled b n) (hn : n + 2 < size) (info : ListData) :
    Filled (coreListInsertNew size 0 info b) (n + 1) ∧
      (coreListInsertNew size 0 info b).infos = Function.update b.infos (n + 1) info := by
  obtain ⟨hchain, hmem, hdata, hinfo⟩ := hb
  rw [coreListInsertNew, if_neg (by omega), if_neg (by omega), hmem, hdata]
  refine ⟨⟨?_, rfl, rfl, ?_⟩, rfl⟩
  · have hzero : 0 ∉ newCells n := by simp [mem_newCells]
    have hnew : n + 1 ∉ newCells n := by simp [mem_newCells]
    refine ⟨rfl, ?_⟩
    simp only [Heads.setInfo_next, Heads.setNext_next, newCells]
    refine ⟨Function.update_self .., ?_⟩
    rw [Function.update_of_ne (Nat.succ_ne_zero n), Function.update_self]
    exact (hchain.2.update hnew).update hzero
  · intro x hx
    simp only [Heads.setInfo_info, Heads.setNext_info]
    rcases eq_or_ne x (n + 1) with rfl | hne
    · exact Function.update_self ..
    · rw [Function.update_of_ne hne, hinfo x (by omega)]

theorem coreListInsertNew_full (hb : Filled b n) (hn : size ≤ n + 2) (info : ListData) :
    coreListInsertNew size 0 info b = b := by
  rw [coreListInsertNew, if_pos]
  rw [hb.memblock]
  exact hn

/-- Inserting items fills the cells up to the last but one of the block. -/
theorem insertItems_filled (hb : Filled b n) (hn : n + 2 ≤ size) (info : ℕ → ListData) (k : ℕ) :
    Filled ((List.range k).foldl (fun b i => coreListInsertNew size 0 (info i) b) b) (min (n + k) (size - 2)) ∧
      ∀ x ≤ n, ((List.range k).foldl (fun b i => coreListInsertNew size 0 (info i) b) b).infos x = b.infos x := by
  induction k with
  | zero =>
    rw [Nat.add_zero, min_eq_left (by omega)]
    exact ⟨hb, fun _ _ => rfl⟩
  | succ k ih =>
    obtain ⟨hk, hinfos⟩ := ih
    rw [List.range_succ, List.foldl_append, List.foldl_cons, List.foldl_nil]
    rcases Nat.lt_or_ge (n + k + 2) size with hlt | hge
    · rw [min_eq_left (by omega)] at hk ⊢
      obtain ⟨hnext, hupdate⟩ := coreListInsertNew_filled hk hlt (info k)
      refine ⟨hnext, ?_⟩
      intro x hx
      rw [hupdate, Function.update_of_ne (by omega), hinfos x hx]
    · rw [min_eq_right (by omega)] at hk ⊢
      rw [coreListInsertNew_full hk (by omega)]
      exact ⟨hk, hinfos⟩

/-! ### The indices -/

/-- The loop gives the items behind the head the indices from `i` on, but for the last one. -/
theorem indexLoop_spec (size : ℕ) (seed : BitVec 16) {h : Heads ℕ ℕ} (i : ℕ) (infos : ℕ → ListData)
    (hf : n + 1 ≤ fuel) (hchain : Seg h.next (some (n + 1)) (newCells (n + 1)) none)
    (hinfo : ∀ x ≤ n + 1, h.info x = x) :
    ∃ infos', indexLoop size seed h fuel i (n + 1) infos = some infos' ∧
      (newCells (n + 1)).map (fun x => (infos' x).idx) =
        (List.range' i n).map (newIdx size seed) ++ [(infos 1).idx] ∧
      ∀ x, x = 0 ∨ n + 1 < x → infos' x = infos x := by
  obtain ⟨fuel, rfl⟩ : ∃ f, fuel = f + 1 := ⟨fuel - 1, by omega⟩
  induction n generalizing fuel i infos with
  | zero =>
    have hnext : h.next 1 = none := hchain.2
    refine ⟨infos, ?_, rfl, fun _ _ => rfl⟩
    rw [indexLoop, Nat.zero_add, hnext]
  | succ n ih =>
    obtain ⟨fuel, rfl⟩ : ∃ f, fuel = f + 1 := ⟨fuel - 1, by omega⟩
    have hnext : h.next (n + 2) = some (n + 1) := hchain.2.1
    obtain ⟨infos', hrun, hmap, hothers⟩ := ih (i + 1)
      (Function.update infos (n + 2) { infos (n + 2) with idx := newIdx size seed i })
      (hnext ▸ hchain.2) (fun x hx => hinfo x (by omega)) fuel (by omega)
    refine ⟨infos', ?_, ?_, ?_⟩
    · rw [indexLoop, hnext]
      simp only [hinfo (n + 2) le_rfl]
      exact hrun
    · rw [newCells, List.map_cons, hmap, hothers (n + 2) (Or.inr (by omega)), Function.update_self,
        Function.update_of_ne (by omega), List.range'_succ]
      rfl
    · intro x hx
      rw [hothers x (by omega), Function.update_of_ne (by omega)]

/-- The indices of a new list: those of the head and the tail, and those of the items between them. -/
def newIndices (size : ℕ) (seed : BitVec 16) : List (BitVec 16) :=
  0x0000 :: 0x7fff :: (List.range' 1 (size - 3)).map (newIdx size seed)

-- the runs whose results `core_main` knows
example : ∀ run ∈ [((0x0000 : BitVec 16), 2000), (0x3415, 2000), (0x0008, 400), (0x0000, 666), (0x3415, 666)],
    (newIndices (run.2 / 20 - 2) run.1).Nodup := by decide +kernel

/-! ### The initial memory -/

/-- The blocks with all cells of the list, before its items are indexed. -/
def newBlocks (size : ℕ) (seed : BitVec 16) (b : Heads ℕ ℕ × (ℕ → ListData)) : Blocks :=
  let b : Blocks := ⟨(b.1.setNext 0 none).setInfo 0 0, Function.update b.2 0 ⟨0x8080, 0x0000⟩, 1, 1⟩
  let b := coreListInsertNew size 0 ⟨0xffff, 0x7fff⟩ b
  (List.range size).foldl (fun b i => coreListInsertNew size 0 (newInfo seed i) b) b

variable (blocks : Heads ℕ ℕ × (ℕ → ListData))

theorem newBlocks_filled (seed : BitVec 16) (hsize : 4 ≤ size) :
    Filled (newBlocks size seed blocks) (size - 2) ∧ ((newBlocks size seed blocks).infos 0).idx = 0x0000 ∧
      ((newBlocks size seed blocks).infos 1).idx = 0x7fff := by
  have hfilled₀ :
      Filled ⟨(blocks.1.setNext 0 none).setInfo 0 0, Function.update blocks.2 0 ⟨0x8080, 0x0000⟩, 1, 1⟩ 0 := by
    refine ⟨⟨rfl, ?_⟩, rfl, rfl, ?_⟩
    · exact Function.update_self (0 : ℕ) none blocks.1.next
    · intro x hx
      rw [Nat.le_zero.1 hx]
      exact Function.update_self (0 : ℕ) 0 blocks.1.info
  obtain ⟨hfilled₁, hinfos₁⟩ := coreListInsertNew_filled hfilled₀ (show 0 + 2 < size by omega) ⟨0xffff, 0x7fff⟩
  obtain ⟨hfilled, hinfos⟩ := insertItems_filled hfilled₁ (show 1 + 2 ≤ size by omega) (newInfo seed) size
  rw [min_eq_right (by omega)] at hfilled
  refine ⟨hfilled, ?_, ?_⟩
  · rw [newBlocks, hinfos 0 (by omega), hinfos₁]
    rfl
  · rw [newBlocks, hinfos 1 le_rfl, hinfos₁]
    rfl

/-- The new list is indexed. -/
theorem newBlocks_indexed (seed : BitVec 16) (hsize : 4 ≤ size) (hf : size ≤ fuel) :
    ∃ finder infos, (newBlocks size seed blocks).heads.next 0 = some finder ∧
      indexLoop size seed (newBlocks size seed blocks).heads fuel 1 finder (newBlocks size seed blocks).infos =
        some infos ∧
      ((0 :: newCells (size - 2)).map fun x => (infos x).idx).Perm (newIndices size seed) := by
  obtain ⟨hfilled, hzero, hone⟩ := newBlocks_filled blocks seed hsize
  obtain ⟨n, hn⟩ : ∃ n, size - 2 = n + 1 := ⟨size - 3, by omega⟩
  rw [hn] at hfilled ⊢
  have hnext : (newBlocks size seed blocks).heads.next 0 = some (n + 1) := hfilled.chain.2.1
  obtain ⟨infos, hrun, hmap, hothers⟩ := indexLoop_spec size seed 1 (newBlocks size seed blocks).infos
    (show n + 1 ≤ fuel by omega) (hnext ▸ hfilled.chain.2) hfilled.info
  refine ⟨n + 1, infos, hnext, hrun, ?_⟩
  have hcount : size - 3 = n := by omega
  rw [List.map_cons, hmap, hothers 0 (Or.inl rfl), hzero, hone, newIndices, hcount]
  exact (List.perm_append_singleton _ _).cons _

theorem coreListInit_eq (fuel blksize : ℕ) (seed : BitVec 16) (res : Results) :
    coreListInit fuel blksize blocks seed res =
      ((newBlocks (blksize / 20 - 2) seed blocks).heads.next 0).bind fun finder =>
        (indexLoop (blksize / 20 - 2) seed (newBlocks (blksize / 20 - 2) seed blocks).heads fuel 1 finder
          (newBlocks (blksize / 20 - 2) seed blocks).infos).bind fun infos =>
          (coreListMergesort fuel (cmpIdx true) (some 0) (newBlocks (blksize / 20 - 2) seed blocks).heads
            ⟨infos, res⟩).bind fun (list, h, store) => some (list, ⟨h, store⟩) := rfl

/-- A new list with different indices is what a run of the benchmark needs. -/
theorem coreListInit_prepared {blksize : ℕ} {res : Results} (hsize : 120 ≤ blksize) (hint : blksize < 2 ^ 32)
    (hf : blksize / 20 ≤ fuel) (hidx : (newIndices (blksize / 20 - 2) seed).Nodup) (hin : BenchInput res) :
    ∃ list m xs, coreListInit fuel blksize blocks seed res = some (list, m) ∧ Prepared m list xs ∧
      xs.length ≤ fuel ∧ SameInputs res m.store.res ∧
      ∀ x ∈ xs, x + 1 < blksize / 20 - 2 ∧ m.heads.info x = x := by
  obtain ⟨size, hs, hsize⟩ : ∃ size, blksize / 20 - 2 = size ∧ 4 ≤ size := ⟨_, rfl, by omega⟩
  rw [hs] at hidx
  obtain ⟨finder, infos, hfinder, hloop, hperm⟩ :=
    newBlocks_indexed blocks seed hsize (show size ≤ fuel by omega)
  have hfilled := (newBlocks_filled blocks seed hsize).1
  have hlen : (0 :: newCells (size - 2)).length = size - 1 := by
    rw [List.length_cons, length_newCells]
    omega
  obtain ⟨list, h', s', hrun, hk, hrel, hreg⟩ := coreListMergesort_stable
    (cmpIdx_total (S := fun _ => True) ⟨infos, res⟩) cmpIdx_settles (List.cons_ne_nil 0 (newCells (size - 2)))
    (show _ ≤ fuel by omega) (by omega) hfilled.chain (fun _ _ => trivial) (KeepsStore.refl _ _)
  have hcount := hrel.perm.length_eq
  have hcells : ∀ x ∈ 0 :: newCells (size - 2), x ≤ size - 2 := fun x hx =>
    (List.mem_cons.1 hx).elim (fun h => h ▸ Nat.zero_le _) fun h => (mem_newCells.1 h).2
  refine ⟨list, ⟨h', s'⟩, _, ?_, ⟨hrel.list, by omega, by omega, ?_, ?_, hin.of_same hk.res⟩, by omega, hk.res, ?_⟩
  · rw [coreListInit_eq, hs, hfinder, Option.bind_some, hloop, Option.bind_some, hrun]
    rfl
  · -- the items keep their indices, which are different
    have hdiff : (0 :: newCells (size - 2)).Pairwise fun a b => (infos a).idx ≠ (infos b).idx :=
      List.pairwise_map.1 (hperm.nodup_iff.2 hidx)
    have hkey : ∀ x ∈ 0 :: newCells (size - 2), (s'.infos (h'.info x)).idx = (infos x).idx := by
      intro x hx
      rw [hk.idx, hrel.info, hfilled.info x (hcells x hx)]
    have hsorted := pairwise_mergeSort_key (fun x => (s'.infos ((newBlocks size seed blocks).heads.info x)).idx.toInt)
      (0 :: newCells (size - 2))
    refine (hsorted.and (hrel.perm.symm.pairwise hdiff fun h => h.symm)).imp_of_mem ?_
    rintro a b ha hb ⟨hle, hne⟩
    rw [← hrel.info] at hle
    refine lt_of_le_of_ne hle ?_
    intro heq
    apply hne
    rw [← hkey a (hrel.perm.mem_iff.1 ha), ← hkey b (hrel.perm.mem_iff.1 hb)]
    exact BitVec.toInt_inj.1 heq
  · intro x hx
    change isRegenerated s' (h'.info x)
    rw [hrel.info]
    exact hreg (by omega) x (hrel.perm.mem_iff.1 hx)
  · intro x hx
    have hle := hcells x (hrel.perm.mem_iff.1 hx)
    exact ⟨by omega, (congrFun hrel.info x).trans (hfilled.info x hle)⟩

/-! ### The whole benchmark -/

/-- Matrices that fill their parts of the memory. -/
structure Layout.Matrices (l : Layout) (A B : List (BitVec 16)) (C : List (BitVec 32)) : Prop where
  A : 2 * A.length = l.A.size
  B : 2 * B.length = l.B.size
  C : 4 * C.length = l.C.size

/-- The cells and items of the list, the matrices and the state machine's input are in their parts of the memory. -/
structure Memory.InLayout (m : Memory ℕ ℕ) (l : Layout) (xs : List ℕ) : Prop where
  heads : ∀ x ∈ xs, 8 * (x + 1) ≤ l.heads.size
  items : ∀ x ∈ xs, 4 * (m.heads.info x + 1) ≤ l.items.size
  matrices : l.Matrices m.store.res.mat.A m.store.res.mat.B m.store.res.mat.C
  state : m.store.res.memblock3.length = l.state.size

/-- Matrices that fill their parts have the dimension that the initialisation finds. -/
theorem Layout.Matrices.lengths {memblock size : ℕ} {A B : List (BitVec 16)} {C : List (BitVec 32)}
    (h : (layout memblock size).Matrices A B C) : A.length = dimension size * dimension size ∧
      B.length = dimension size * dimension size ∧ C.length = dimension size * dimension size := by
  refine ⟨?_, ?_, ?_⟩
  · exact Nat.eq_of_mul_eq_mul_left Nat.two_pos h.A
  · exact Nat.eq_of_mul_eq_mul_left Nat.two_pos h.B
  · exact Nat.eq_of_mul_eq_mul_left (show 0 < 4 by decide) h.C

/-- The initialisation of the results succeeds, and gives the benchmarks their inputs. -/
theorem initialResults_input {size : ℕ} {seed1 seed2 : BitVec 16} {A B : List (BitVec 16)} {C : List (BitVec 32)}
    (iterations : ℕ) (seed3 : BitVec 16) (hsize : 2 ≤ size) (hA : A.length = dimension size * dimension size)
    (hB : B.length = dimension size * dimension size) (hC : C.length = dimension size * dimension size)
    (hcomma : ∀ sym ∈ alphabet, sym ≠ byte ',' → sym ^^^ seed1.setWidth 8 ≠ byte ',')
    (hseeds : seed2.setWidth 8 = seed1.setWidth 8) :
    ∃ res, initialResults size iterations seed1 seed2 seed3 A B C = some res ∧ BenchInput res ∧
      res.mat.N = dimension size ∧ res.memblock3.length = size := by
  obtain ⟨p, hp, hN, hsized⟩ :=
    coreInitMatrix_total (seed1.signExtend 32 ||| (seed2.signExtend 32 <<< 16)) hA hB hC
  obtain ⟨blk, hblk, hinput⟩ := coreInitState_input hsize hcomma
  simp only [initialResults, bind, pure, hp, hblk, Option.bind_some]
  exact ⟨_, rfl, ⟨hseeds, hinput, hsized⟩, hN, hinput.length⟩

end CoreMark
