import ZrSoc.CoreListSort
import ZrSoc.CoreMatrixBench
import ZrSoc.CoreStateBench
import Mathlib.Tactic.IntervalCases

/-!
# The comparisons of the benchmark

`cmp_complex` compares items by values that it calculates once and caches in the low byte of the data; `cmp_idx`
compares them by index and regenerates the low byte from the upper one.  Neither writes anything else of the items, and
the benchmarks that the calculation runs leave their inputs as they were (`KeepsStore`).  Both comparisons settle
values, so that the merge sort with them is a stable sort.
-/

namespace CoreMark

open Linked

variable {P Q : Type} [DecidableEq P] [DecidableEq Q] {q : Q} {s s' : Store Q}

/-! ### The data of an item -/

/-- The value of the data is cached. -/
def isCached (data : BitVec 16) : Prop := (data >>> 7) &&& 1 = 1

/-- The data with a calculated value in it. -/
def cache (data retval : BitVec 16) : BitVec 16 := (data &&& 0xff00) ||| 0x0080 ||| (retval &&& 0x7f)

theorem isCached_cache (data retval : BitVec 16) : isCached (cache data retval) := by
  apply BitVec.eq_of_getLsbD_eq
  intro i hi
  rcases Nat.eq_zero_or_pos i with rfl | hpos
  · simp [cache]
  · interval_cases i <;> simp

theorem cache_value (data retval : BitVec 16) : cache data retval &&& 0x7f = retval &&& 0x7f := by
  apply BitVec.eq_of_getLsbD_eq
  intro i hi
  interval_cases i <;> simp [cache]

theorem cache_upper (data retval : BitVec 16) : cache data retval &&& 0xff00 = data &&& 0xff00 := by
  apply BitVec.eq_of_getLsbD_eq
  intro i hi
  interval_cases i <;> simp [cache]

theorem regenerate_upper (data : BitVec 16) : regenerate data &&& 0xff00 = data &&& 0xff00 := by
  apply BitVec.eq_of_getLsbD_eq
  intro i hi
  interval_cases i <;> simp [regenerate]

/-- What is regenerated depends on the upper byte only. -/
theorem regenerate_congr {data data' : BitVec 16} (h : data &&& 0xff00 = data' &&& 0xff00) :
    regenerate data = regenerate data' := by
  have hbit : ∀ i < 8, data.getLsbD (8 + i) = data'.getLsbD (8 + i) := by
    intro i hi
    have := congrArg (fun d : BitVec 16 => d.getLsbD (8 + i)) h
    interval_cases i <;> simpa using this
  apply BitVec.eq_of_getLsbD_eq
  intro i hi
  have h₀ := hbit 0 (by omega)
  have h₁ := hbit 1 (by omega)
  have h₂ := hbit 2 (by omega)
  have h₃ := hbit 3 (by omega)
  have h₄ := hbit 4 (by omega)
  have h₅ := hbit 5 (by omega)
  have h₆ := hbit 6 (by omega)
  have h₇ := hbit 7 (by omega)
  interval_cases i <;> simp_all [regenerate, BitVec.getElem_sshiftRight]

theorem regenerate_regenerate (data : BitVec 16) : regenerate (regenerate data) = regenerate data :=
  regenerate_congr (regenerate_upper data)

/-! ### What the comparisons keep -/

/-- The inputs of the benchmarks in the results are the same. -/
structure SameInputs (r r' : Results) : Prop where
  seed1 : r'.seed1 = r.seed1
  seed2 : r'.seed2 = r.seed2
  seed3 : r'.seed3 = r.seed3
  memblock3 : r'.memblock3 = r.memblock3
  size : r'.size = r.size
  iterations : r'.iterations = r.iterations
  matN : r'.mat.N = r.mat.N
  matA : r'.mat.A = r.mat.A
  matB : r'.mat.B = r.mat.B
  matC : r'.mat.C.length = r.mat.C.length

theorem SameInputs.refl (r : Results) : SameInputs r r := ⟨rfl, rfl, rfl, rfl, rfl, rfl, rfl, rfl, rfl, rfl⟩

theorem SameInputs.trans {r r' r'' : Results} (h : SameInputs r r') (h' : SameInputs r' r'') : SameInputs r r'' where
  seed1 := h'.seed1.trans h.seed1
  seed2 := h'.seed2.trans h.seed2
  seed3 := h'.seed3.trans h.seed3
  memblock3 := h'.memblock3.trans h.memblock3
  size := h'.size.trans h.size
  iterations := h'.iterations.trans h.iterations
  matN := h'.matN.trans h.matN
  matA := h'.matA.trans h.matA
  matB := h'.matB.trans h.matB
  matC := h'.matC.trans h.matC

/-- The inputs of the other benchmarks: two seeds with the same low byte, a block of the state machine that fits them,
and matrices of the right sizes. -/
structure BenchInput (res : Results) : Prop where
  seeds : res.seed2.setWidth 8 = res.seed1.setWidth 8
  block : StateInput res.size (res.seed1.setWidth 8) res.memblock3
  matrices : res.mat.Sized

theorem BenchInput.of_same {r r' : Results} (h : BenchInput r) (hs : SameInputs r r') : BenchInput r' where
  seeds := by rw [hs.seed1, hs.seed2, h.seeds]
  block := by
    rw [hs.seed1, hs.size, hs.memblock3]
    exact h.block
  matrices := ⟨by rw [hs.matA, hs.matN, h.matrices.A], by rw [hs.matB, hs.matN, h.matrices.B],
    by rw [hs.matC, hs.matN, h.matrices.C]⟩

/-- Of the items, only the low bytes of the data of items in `S` have changed, and the inputs are the same. -/
structure KeepsStore (S : Q → Prop) (s s' : Store Q) : Prop where
  idx : ∀ q, (s'.infos q).idx = (s.infos q).idx
  upper : ∀ q, (s'.infos q).data16 &&& 0xff00 = (s.infos q).data16 &&& 0xff00
  others : ∀ q, ¬S q → s'.infos q = s.infos q
  res : SameInputs s.res s'.res

variable {S : Q → Prop}

omit [DecidableEq Q] in
theorem KeepsStore.refl (S : Q → Prop) (s : Store Q) : KeepsStore S s s :=
  ⟨fun _ => rfl, fun _ => rfl, fun _ _ => rfl, SameInputs.refl _⟩

omit [DecidableEq Q] in
theorem KeepsStore.trans {s'' : Store Q} (h : KeepsStore S s s') (h' : KeepsStore S s' s'') : KeepsStore S s s'' where
  idx := fun q => (h'.idx q).trans (h.idx q)
  upper := fun q => (h'.upper q).trans (h.upper q)
  others := fun q hq => (h'.others q hq).trans (h.others q hq)
  res := h.res.trans h'.res

/-- A write of data with the same upper byte. -/
theorem Store.setData16_keeps {v : BitVec 16} (hq : S q) (hv : v &&& 0xff00 = (s.infos q).data16 &&& 0xff00) :
    KeepsStore S s (s.setData16 q v) where
  idx := by
    intro x
    rcases eq_or_ne x q with rfl | hx
    · simp [Store.setData16]
    · simp [Store.setData16, hx]
  upper := by
    intro x
    rcases eq_or_ne x q with rfl | hx
    · simpa [Store.setData16] using hv
    · simp [Store.setData16, hx]
  others := by
    intro x hx
    have hne : x ≠ q := by
      rintro rfl
      exact hx hq
    simp [Store.setData16, hne]
  res := SameInputs.refl _

/-! ### `calc_func` -/

theorem two_le_minStep (dtype : BitVec 16) : 2 ≤ (minStep dtype).toInt := by
  unfold minStep
  split
  · decide
  · omega

/-- The calculation of a value returns, and leaves the inputs of the benchmarks as they were. -/
theorem calculate_total {res : Results} (h : BenchInput res) (data : BitVec 16) :
    ∃ retval res', calculate data res = some (retval, res') ∧ SameInputs res res' := by
  unfold calculate
  split
  · have hrun : ∃ crc, coreBenchState res.size res.memblock3 res.seed1 res.seed2 (minStep (dtypeOf data)) res.crc =
        some (crc, res.memblock3) := coreBenchState_restores h.block h.seeds (two_le_minStep _)
    obtain ⟨crc, hrun⟩ := hrun
    rw [hrun]
    exact ⟨_, _, rfl, ⟨rfl, rfl, rfl, rfl, rfl, rfl, rfl, rfl, rfl, rfl⟩⟩
  · obtain ⟨crc, C, hrun, hC⟩ := coreBenchMatrix_restores h.matrices (dtypeOf data) res.crc
    rw [hrun]
    exact ⟨_, _, rfl, ⟨rfl, rfl, rfl, rfl, rfl, rfl, rfl, rfl, rfl, hC⟩⟩
  · exact ⟨data, res, rfl, SameInputs.refl res⟩

/-- What `calc_func` does to the items. -/
theorem calcFunc_infos {v : BitVec 16} (h : calcFunc q s = some (v, s')) :
    isCached (s'.infos q).data16 ∧ v = (s'.infos q).data16 &&& 0x7f ∧ (∀ x ≠ q, s'.infos x = s.infos x) ∧
      (s'.infos q).data16 &&& 0xff00 = (s.infos q).data16 &&& 0xff00 ∧
      (isCached (s.infos q).data16 → s' = s) := by
  simp only [calcFunc] at h
  split at h
  · rename_i hc
    cases h
    exact ⟨hc, rfl, fun _ _ => rfl, rfl, fun _ => rfl⟩
  · rename_i hc
    obtain ⟨⟨retval, res⟩, hcalc, heq⟩ := Option.map_eq_some_iff.1 h
    obtain ⟨rfl, rfl⟩ := Prod.mk.inj heq
    have hdata : ((Store.setData16 { s with res := { res with crc := crcu16 retval res.crc } } q
        (cache (s.infos q).data16 retval)).infos q).data16 = cache (s.infos q).data16 retval := by
      simp [Store.setData16]
    refine ⟨?_, ?_, ?_, ?_, fun h => absurd h hc⟩
    · exact hdata ▸ isCached_cache _ _
    · exact (cache_value _ _).symm.trans (congrArg (· &&& 0x7f) hdata.symm)
    · intro x hx
      exact Function.update_of_ne hx _ _
    · exact (congrArg (· &&& 0xff00) hdata).trans (cache_upper _ _)

theorem calcFunc_total (h : BenchInput s.res) (hq : S q) :
    ∃ v s', calcFunc q s = some (v, s') ∧ KeepsStore S s s' := by
  simp only [calcFunc]
  split
  · exact ⟨_, s, rfl, KeepsStore.refl S s⟩
  · obtain ⟨retval, res, hcalc, hsame⟩ := calculate_total h (s.infos q).data16
    refine ⟨_, _, by rw [hcalc]; rfl, ?_⟩
    have hkeep : KeepsStore S s { s with res := { res with crc := crcu16 retval res.crc } } :=
      ⟨fun _ => rfl, fun _ => rfl, fun _ _ => rfl, ⟨hsame.1, hsame.2, hsame.3, hsame.4, hsame.5, hsame.6, hsame.7,
        hsame.8, hsame.9, hsame.10⟩⟩
    exact hkeep.trans (Store.setData16_keeps hq (cache_upper _ _))

/-! ### The comparisons -/

/-- The value that is cached for an item. -/
def cachedValue (s : Store Q) (q : Q) : ℤ := ((s.infos q).data16 &&& 0x7f).toInt

theorem cmpComplex_eq_some {a b : Q} {r : ℤ} (h : cmpComplex a b s = some (r, s')) :
    ∃ v₁ s₁ v₂, calcFunc a s = some (v₁, s₁) ∧ calcFunc b s₁ = some (v₂, s') ∧ r = v₁.toInt - v₂.toInt := by
  obtain ⟨⟨v₁, s₁⟩, h₁, h⟩ := Option.bind_eq_some_iff.1 h
  obtain ⟨⟨v₂, s₂⟩, h₂, h⟩ := Option.bind_eq_some_iff.1 h
  obtain ⟨rfl, rfl⟩ := Prod.mk.inj (Option.some.inj h)
  exact ⟨v₁, s₁, v₂, h₁, h₂, rfl⟩

/-- `calc_func` does not change a cached item. -/
theorem calcFunc_cached {v : BitVec 16} {x : Q} (h : calcFunc q s = some (v, s')) (hx : isCached (s.infos x).data16) :
    s'.infos x = s.infos x := by
  obtain ⟨-, -, hother, -, hsame⟩ := calcFunc_infos h
  rcases eq_or_ne x q with rfl | hne
  · rw [hsame hx]
  · exact hother x hne

/-- `cmp_complex` settles the values of items when it caches them. -/
theorem cmpComplex_settles :
    Settles (cmpComplex (Q := Q)) (fun s q => isCached (s.infos q).data16) cachedValue where
  first := by
    intro a b r s s' h
    obtain ⟨v₁, s₁, v₂, h₁, h₂, -⟩ := cmpComplex_eq_some h
    have hc := (calcFunc_infos h₁).1
    rwa [calcFunc_cached h₂ hc]
  second := by
    intro a b r s s' h
    obtain ⟨v₁, s₁, v₂, h₁, h₂, -⟩ := cmpComplex_eq_some h
    exact (calcFunc_infos h₂).1
  keep := by
    intro a b c r s s' h hc
    obtain ⟨v₁, s₁, v₂, h₁, h₂, -⟩ := cmpComplex_eq_some h
    have hc₁ := calcFunc_cached h₁ hc
    have hc₂ := calcFunc_cached h₂ (hc₁ ▸ hc)
    have heq : s'.infos c = s.infos c := hc₂.trans hc₁
    exact ⟨heq ▸ hc, by rw [cachedValue, cachedValue, heq]⟩
  compare := by
    intro a b r s s' h
    obtain ⟨v₁, s₁, v₂, h₁, h₂, rfl⟩ := cmpComplex_eq_some h
    obtain ⟨hc, hv₁, -⟩ := calcFunc_infos h₁
    obtain ⟨-, hv₂, -⟩ := calcFunc_infos h₂
    rw [cachedValue, cachedValue, ← hv₂, calcFunc_cached h₂ hc, ← hv₁]
    omega

/-- `cmp_complex` returns, and keeps the inputs and the upper bytes of the items. -/
theorem cmpComplex_total {s₀ : Store Q} (h : BenchInput s₀.res) : Total cmpComplex S (KeepsStore S s₀) := by
  intro a b s ha hb hs
  obtain ⟨v₁, s₁, h₁, hk₁⟩ := calcFunc_total (h.of_same hs.res) ha
  have hs₁ := hs.trans hk₁
  obtain ⟨v₂, s₂, h₂, hk₂⟩ := calcFunc_total (h.of_same hs₁.res) hb
  refine ⟨v₁.toInt - v₂.toInt, s₂, ?_, hs₁.trans hk₂⟩
  simp only [cmpComplex, bind, pure, h₁, h₂, Option.bind_some]

/-- The data of the item is what its upper byte gives. -/
def isRegenerated (s : Store Q) (q : Q) : Prop := regenerate (s.infos q).data16 = (s.infos q).data16

/-- The items after `cmp_idx` has regenerated one of them. -/
theorem infos_regenerate (s : Store Q) (q x : Q) :
    (s.setData16 q (regenerate (s.infos q).data16)).infos x =
      if x = q then { s.infos x with data16 := regenerate (s.infos x).data16 } else s.infos x := by
  rcases eq_or_ne x q with rfl | hx
  · simp [Store.setData16]
  · simp [Store.setData16, hx]

/-- The store after a comparison by index. -/
def regenerated (s : Store Q) (a b : Q) : Store Q :=
  let s := s.setData16 a (regenerate (s.infos a).data16)
  s.setData16 b (regenerate (s.infos b).data16)

theorem cmpIdx_eq (a b : Q) (s : Store Q) :
    cmpIdx true a b s = some (((regenerated s a b).infos a).idx.toInt - ((regenerated s a b).infos b).idx.toInt,
      regenerated s a b) := rfl

theorem infos_regenerated (s : Store Q) (a b x : Q) :
    (regenerated s a b).infos x =
      if x = a ∨ x = b then { s.infos x with data16 := regenerate (s.infos x).data16 } else s.infos x := by
  rw [regenerated, infos_regenerate, infos_regenerate]
  by_cases ha : x = a
  · rw [if_pos ha, if_pos (Or.inl ha)]
    split
    · simp only [regenerate_regenerate]
    · rfl
  · rw [if_neg ha]
    simp only [ha, false_or]

theorem regenerated_idx (s : Store Q) (a b x : Q) : ((regenerated s a b).infos x).idx = (s.infos x).idx := by
  rw [infos_regenerated]
  split <;> rfl

theorem isRegenerated_regenerated {s : Store Q} {a b x : Q} (h : x = a ∨ x = b) : isRegenerated (regenerated s a b) x := by
  rw [isRegenerated, infos_regenerated, if_pos h]
  exact regenerate_regenerate _

/-- `cmp_idx` compares items by their indices, and regenerates them. -/
theorem cmpIdx_settles :
    Settles (cmpIdx (Q := Q) true) isRegenerated (fun s q => (s.infos q).idx.toInt) where
  first := by
    intro a b r s s' h
    cases h
    exact isRegenerated_regenerated (Or.inl rfl)
  second := by
    intro a b r s s' h
    cases h
    exact isRegenerated_regenerated (Or.inr rfl)
  keep := by
    intro a b c r s s' h hc
    cases h
    refine ⟨?_, congrArg BitVec.toInt (regenerated_idx s a b c)⟩
    by_cases hcase : c = a ∨ c = b
    · exact isRegenerated_regenerated hcase
    · change regenerate ((regenerated s a b).infos c).data16 = ((regenerated s a b).infos c).data16
      rw [infos_regenerated, if_neg hcase]
      exact hc
  compare := by
    intro a b r s s' h
    cases h
    change ((regenerated s a b).infos a).idx.toInt - ((regenerated s a b).infos b).idx.toInt ≤ 0 ↔
      ((regenerated s a b).infos a).idx.toInt ≤ ((regenerated s a b).infos b).idx.toInt
    omega

theorem cmpIdx_total (s₀ : Store Q) : Total (cmpIdx true) S (KeepsStore S s₀) := by
  intro a b s ha hb hs
  refine ⟨_, _, cmpIdx_eq a b s, hs.trans ?_⟩
  exact (Store.setData16_keeps ha (regenerate_upper _)).trans (Store.setData16_keeps hb (regenerate_upper _))

/-! ### The sort by data -/

variable {h : Heads P Q} {list : Option P} {xs : List P}

/-- The items of the cells of a list. -/
def Heads.itemsOf (h : Heads P Q) (xs : List P) (q : Q) : Prop := ∃ x ∈ xs, h.info x = q

omit [DecidableEq P] [DecidableEq Q] in
theorem Heads.itemsOf_info (h : Heads P Q) (xs : List P) : ∀ x ∈ xs, h.itemsOf xs (h.info x) :=
  fun x hx => ⟨x, hx, rfl⟩

/-- With `cmp_complex`, `core_list_mergesort` sorts a list in place by the values that end up cached, and leaves items
with equal values in their order.  It writes the links of the list's own cells and the low data bytes of its items
only, and each item of a list of two items or more is cached. -/
theorem sorts_by_data (hin : BenchInput s.res) (hlist : Seg h.next list xs none) (hx : xs ≠ []) {fuel : ℕ}
    (hf : xs.length ≤ fuel) (hint : xs.length ≤ 2 ^ 31) :
    ∃ list' h' s', coreListMergesort fuel cmpComplex list h s = some (list', h', s') ∧
      Relinked h h' list' xs
        (xs.mergeSort fun a b => decide (cachedValue s' (h.info a) ≤ cachedValue s' (h.info b))) ∧
      KeepsStore (h.itemsOf xs) s s' ∧
      (2 ≤ xs.length → ∀ x ∈ xs, isCached (s'.infos (h.info x)).data16) := by
  have htotal : Total cmpComplex (h.itemsOf xs) (KeepsStore (h.itemsOf xs) s) := cmpComplex_total hin
  obtain ⟨list', h', s', hrun, hk, hrel, hcached⟩ := coreListMergesort_stable htotal cmpComplex_settles hx hf hint
    hlist (h.itemsOf_info xs) (KeepsStore.refl _ s)
  exact ⟨list', h', s', hrun, hrel, hk, hcached⟩

/-- Three cells in a row, with the items of the same numbers. -/
def threeCells : Heads ℕ ℕ where
  next := fun p => if p = 0 then some 1 else if p = 1 then some 2 else none
  info := fun p => p

/-- Results whose state machine input is `5` and two zeros. -/
def smallResults : Results where
  seed1 := 0
  seed2 := 0
  seed3 := 2
  memblock3 := [byte '5', 0, 0]
  size := 3
  iterations := 1
  mat := ⟨1, [3], [5], [0]⟩
  crc := 0
  crclist := 0
  crcmatrix := 0
  crcstate := 0

theorem benchInput_small : BenchInput smallResults := by
  refine ⟨rfl, ⟨rfl, ⟨[byte '5'], rfl⟩, ?_⟩, rfl, rfl, rfl⟩
  decide

/-- Three items, of which the one in the middle runs the state machine when it is compared. -/
def threeItems : ℕ → ListData := fun q => if q = 0 then ⟨0x8080, 0⟩ else if q = 1 then ⟨0x7878, 1⟩ else ⟨0x0a0a, 2⟩

theorem seg_threeCells : Seg threeCells.next (some 0) [0, 1, 2] none := ⟨rfl, rfl, rfl, rfl⟩

theorem sorts_by_data_three :
    ∃ list' h' s', coreListMergesort 3 cmpComplex (some 0) threeCells ⟨threeItems, smallResults⟩ =
        some (list', h', s') ∧
      Relinked threeCells h' list' [0, 1, 2] ([0, 1, 2].mergeSort fun a b =>
        decide (cachedValue s' (threeCells.info a) ≤ cachedValue s' (threeCells.info b))) ∧
      KeepsStore (threeCells.itemsOf [0, 1, 2]) ⟨threeItems, smallResults⟩ s' ∧
      (2 ≤ [0, 1, 2].length → ∀ x ∈ [0, 1, 2], isCached (s'.infos (threeCells.info x)).data16) :=
  sorts_by_data benchInput_small seg_threeCells (by decide) (le_refl 3) (by decide)

end CoreMark
