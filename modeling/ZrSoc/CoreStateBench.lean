import ZrSoc.CoreState

/-!
# The state machine benchmark leaves its input as it was

A run of `core_bench_state` stays inside a block that ends with two zeros, and when its two seeds are the same byte, it
leaves the block as it was (`coreBenchState_restores`): commas are skipped by both corruptions, so this needs that no
other byte becomes a comma.  The input that `core_init_state` writes is such a block, when the patterns hold no byte
that becomes a comma (`coreInitState_input`).
-/

namespace CoreMark

variable {blk str rest : List (BitVec 8)} {cnt : Counts} {state : CoreState}

/-! ### The run over the input -/

/-- The machine stops at the latest in front of a zero, and reads a symbol unless it is in front of one. -/
theorem transitionLoop_stops (h : 0 ∈ str) (state : CoreState) (cnt : Counts) :
    ∃ st rest cnt', transitionLoop state cnt str = some (st, rest, cnt') ∧ 0 ∈ rest ∧ rest.length ≤ str.length ∧
      (state ≠ .invalid → str.head? ≠ some 0 → rest.length < str.length) := by
  induction str generalizing state cnt with
  | nil => cases h
  | cons sym str ih =>
    by_cases hstop : sym = 0 ∨ state = .invalid
    · refine ⟨state, sym :: str, cnt, ?_, h, le_rfl, ?_⟩
      · rw [transitionLoop, if_pos hstop]
      · intro hs h0
        rcases hstop with rfl | hstop
        · exact absurd rfl h0
        · exact absurd hstop hs
    · obtain ⟨hsym, hstate⟩ := not_or.1 hstop
      have hstr : 0 ∈ str := (List.mem_cons.1 h).resolve_left (Ne.symm hsym)
      by_cases hcomma : sym = byte ','
      · refine ⟨state, str, cnt, ?_, hstr, by simp, fun _ _ => by simp⟩
        rw [transitionLoop, if_neg hstop, if_pos hcomma]
      · obtain ⟨st, rest, cnt', hrun, h0, hlen, -⟩ := ih hstr (nextState state sym cnt).1 (nextState state sym cnt).2
        refine ⟨st, rest, cnt', ?_, h0, by rw [List.length_cons]; omega, fun _ _ => by rw [List.length_cons]; omega⟩
        rw [transitionLoop, if_neg hstop, if_neg hcomma, hrun]

/-- The run over an input with a zero stays inside of it. -/
theorem scan_total (h : 0 ∈ str) (cnt : StateCounts) {fuel : ℕ} (hf : str.length ≤ fuel) :
    ∃ cnt', scan fuel str cnt = some cnt' := by
  induction fuel generalizing str cnt with
  | zero =>
    rw [List.eq_nil_of_length_eq_zero (Nat.le_zero.1 hf)] at h
    cases h
  | succ fuel ih =>
    cases str with
    | nil => cases h
    | cons sym str =>
      by_cases hsym : sym = 0
      · exact ⟨cnt, by rw [scan, if_pos hsym]⟩
      · obtain ⟨st, rest, track, hrun, h0, -, hlt⟩ := transitionLoop_stops h .start cnt.track
        have hlt := hlt (by decide) (by simpa using hsym)
        obtain ⟨cnt', hscan⟩ := ih h0 ⟨cnt.final.bump st, track⟩ (by omega)
        refine ⟨cnt', ?_⟩
        rw [scan, if_neg hsym, coreStateTransition, hrun, Option.bind_some]
        exact hscan

/-! ### The corruption -/

/-- What the loop makes of a block, from the byte `i` on. -/
def corrupted (step : ℕ) (seed : BitVec 8) (i : ℕ) (blk : List (BitVec 8)) : List (BitVec 8) :=
  blk.mapIdx fun j sym => if i ≤ j ∧ step ∣ j - i then corruptByte seed sym else sym

theorem getElem?_corrupted (step : ℕ) (seed : BitVec 8) (i j : ℕ) (blk : List (BitVec 8)) :
    (corrupted step seed i blk)[j]? =
      blk[j]?.map fun sym => if i ≤ j ∧ step ∣ j - i then corruptByte seed sym else sym := by
  rw [corrupted, List.getElem?_mapIdx]

theorem corrupted_of_le {step i : ℕ} {seed : BitVec 8} (h : blk.length ≤ i) : corrupted step seed i blk = blk := by
  apply List.ext_getElem?
  intro j
  rw [getElem?_corrupted]
  rcases Nat.lt_or_ge j blk.length with hj | hj
  · rw [List.getElem?_eq_getElem hj, Option.map_some, if_neg (by omega)]
  · rw [List.getElem?_eq_none hj, Option.map_none]

/-- The next turn of the loop. -/
theorem corrupted_set {step i : ℕ} {seed sym : BitVec 8} (hstep : 0 < step) (h : blk[i]? = some sym) :
    corrupted step seed (i + step) (blk.set i (corruptByte seed sym)) = corrupted step seed i blk := by
  apply List.ext_getElem?
  intro j
  rw [getElem?_corrupted, getElem?_corrupted, List.getElem?_set]
  rcases eq_or_ne i j with rfl | hij
  · rw [if_pos rfl, h, if_pos (List.getElem?_eq_some_iff.1 h).1, Option.map_some, Option.map_some,
      if_neg (by omega), if_pos ⟨le_rfl, by simp⟩]
  · rw [if_neg hij]
    congr 1
    funext sym
    -- the next multiple of `step` behind `i` is `i + step`
    have hiff : i + step ≤ j ∧ step ∣ j - (i + step) ↔ i ≤ j ∧ step ∣ j - i := by
      constructor
      · rintro ⟨h₁, h₂⟩
        refine ⟨by omega, ?_⟩
        have : j - i = j - (i + step) + step := by omega
        rw [this]
        exact Nat.dvd_add h₂ (dvd_refl step)
      · rintro ⟨h₁, h₂⟩
        have hle : step ≤ j - i := Nat.le_of_dvd (by omega) h₂
        refine ⟨by omega, ?_⟩
        rw [Nat.sub_add_eq]
        exact Nat.dvd_sub h₂ (dvd_refl step)
    simp only [hiff]

theorem corruptLoop_eq {blksize step fuel i : ℕ} {seed : BitVec 8} (hstep : 0 < step) (hlen : blk.length = blksize)
    (hf : blksize ≤ i + fuel) :
    corruptLoop blksize step seed fuel i blk = some (corrupted step seed i blk) := by
  induction fuel generalizing i blk with
  | zero => rw [corruptLoop, if_neg (by omega), corrupted_of_le (by omega)]
  | succ fuel ih =>
    by_cases hi : i < blksize
    · have hsym : blk[i]? = some (blk.get ⟨i, hlen ▸ hi⟩) := List.getElem?_eq_getElem _
      rw [corruptLoop, if_pos hi, hsym, Option.bind_some, ih (by rw [List.length_set]; exact hlen) (by omega),
        corrupted_set hstep hsym]
    · rw [corruptLoop, if_neg hi, corrupted_of_le (by omega)]

/-- A second corruption with the same seed undoes the first, unless a byte has become a comma. -/
theorem corruptByte_corruptByte {seed sym : BitVec 8} (h : sym ≠ byte ',' → sym ^^^ seed ≠ byte ',') :
    corruptByte seed (corruptByte seed sym) = sym := by
  by_cases hsym : sym = byte ','
  · simp [corruptByte, hsym]
  · rw [corruptByte, if_pos, corruptByte, if_pos hsym, BitVec.xor_assoc, BitVec.xor_self, BitVec.xor_zero]
    rw [corruptByte, if_pos hsym]
    exact h hsym

theorem corrupted_corrupted {step i : ℕ} {seed : BitVec 8}
    (h : ∀ sym ∈ blk, sym ≠ byte ',' → sym ^^^ seed ≠ byte ',') :
    corrupted step seed i (corrupted step seed i blk) = blk := by
  apply List.ext_getElem?
  intro j
  rw [getElem?_corrupted, getElem?_corrupted]
  cases hj : blk[j]? with
  | none => rfl
  | some sym =>
    rw [Option.map_some, Option.map_some]
    split
    · rw [corruptByte_corruptByte (h sym (List.mem_of_getElem? hj))]
    · rfl

/-! ### The benchmark -/

/-- The input of a benchmark: a block of `blksize` bytes that ends with two zeros, in which the corruption with `seed`
makes no byte a comma. -/
structure StateInput (blksize : ℕ) (seed : BitVec 8) (blk : List (BitVec 8)) : Prop where
  length : blk.length = blksize
  ends : ∃ p, blk = p ++ [0, 0]
  noComma : ∀ sym ∈ blk, sym ≠ byte ',' → sym ^^^ seed ≠ byte ','

/-- Of two neighbouring zeros, the corruption leaves one. -/
theorem zero_mem_corrupted {step : ℕ} {seed : BitVec 8} (hstep : 2 ≤ step) (h : ∃ p, blk = p ++ [0, 0]) :
    0 ∈ corrupted step seed 0 blk := by
  obtain ⟨p, rfl⟩ := h
  have hfirst : (p ++ [0, 0] : List (BitVec 8))[p.length]? = some 0 := by simp
  have hsecond : (p ++ [0, 0] : List (BitVec 8))[p.length + 1]? = some 0 := by simp
  by_cases hd : step ∣ p.length
  · have hd' : ¬step ∣ p.length + 1 := by
      intro h
      have := (Nat.dvd_add_right hd).1 h
      exact absurd (Nat.le_of_dvd Nat.one_pos this) (by omega)
    apply List.mem_of_getElem? (i := p.length + 1)
    rw [getElem?_corrupted, hsecond, Option.map_some, if_neg (by simpa using hd')]
  · apply List.mem_of_getElem? (i := p.length)
    rw [getElem?_corrupted, hfirst, Option.map_some, if_neg (by simpa using hd)]

theorem length_corrupted (step : ℕ) (seed : BitVec 8) (i : ℕ) (blk : List (BitVec 8)) :
    (corrupted step seed i blk).length = blk.length := List.length_mapIdx

/-- A benchmark with the same two seeds stays inside its input and leaves it as it was. -/
theorem coreBenchState_restores {blksize : ℕ} {seed1 seed2 step crc : BitVec 16}
    (h : StateInput blksize (seed1.setWidth 8) blk) (hseed : seed2.setWidth 8 = seed1.setWidth 8)
    (hstep : 2 ≤ step.toInt) : ∃ crc', coreBenchState blksize blk seed1 seed2 step crc = some (crc', blk) := by
  obtain ⟨n, hn, hn2⟩ : ∃ n, step.toInt.toNat = n ∧ 2 ≤ n := ⟨_, rfl, by omega⟩
  have h0 : 0 ∈ blk := by
    obtain ⟨p, rfl⟩ := h.ends
    simp
  have hpos : 0 < n := by omega
  obtain ⟨cnt, hcnt⟩ := scan_total h0 ⟨fun _ => 0, fun _ => 0⟩ le_rfl
  have hfirst : corruptLoop blksize n (seed1.setWidth 8) blksize 0 blk =
      some (corrupted n (seed1.setWidth 8) 0 blk) := corruptLoop_eq hpos h.length (Nat.zero_add _).ge
  have hzero : 0 ∈ corrupted n (seed1.setWidth 8) 0 blk := zero_mem_corrupted hn2 h.ends
  obtain ⟨cnt', hcnt'⟩ := scan_total hzero cnt le_rfl
  have hsecond : corruptLoop blksize n (seed1.setWidth 8) blksize 0 (corrupted n (seed1.setWidth 8) 0 blk) =
      some (corrupted n (seed1.setWidth 8) 0 (corrupted n (seed1.setWidth 8) 0 blk)) :=
    corruptLoop_eq hpos ((length_corrupted _ _ 0 blk).trans h.length) (Nat.zero_add _).ge
  rw [corrupted_corrupted h.noComma] at hsecond
  refine ⟨CoreState.all.foldl (fun crc st => crcu32 (cnt'.track st) (crcu32 (cnt'.final st) crc)) crc, ?_⟩
  simp only [coreBenchState, hseed, hn, hcnt, hfirst, hcnt', hsecond, bind, pure, Option.bind_some]

/-! ### The initial input -/

/-- What is written leaves room for two zeros. -/
theorem initLoop_length {size fuel : ℕ} {seed : BitVec 16} {p buf p' : List (BitVec 8)}
    (h : initLoop size fuel seed p buf = some p') (hp : p.length ≤ size - 1) : p'.length ≤ size - 1 := by
  induction fuel generalizing seed p buf with
  | zero =>
    rw [initLoop] at h
    split at h
    · cases h
    · cases h
      exact hp
  | succ fuel ih =>
    rw [initLoop] at h
    split at h
    · apply ih h
      split
      · simp
        omega
      · exact hp
    · cases h
      exact hp

theorem pattern_cases (seed : BitVec 16) : ∃ pats ∈ [intpat, floatpat, scipat, errpat], pattern seed ∈ pats := by
  have hlen : ∀ pats ∈ [intpat, floatpat, scipat, errpat], pats.length = 4 := by decide
  have hk : ((seed >>> 3) &&& 0x3).toNat < 4 := by
    rw [BitVec.toNat_and]
    exact Nat.and_lt_two_pow _ (n := 2) (by decide)
  have hmem : ∀ pats ∈ [intpat, floatpat, scipat, errpat], pats.getD ((seed >>> 3) &&& 0x3).toNat [] ∈ pats := by
    intro pats hpats
    rw [List.getD_eq_getElem?_getD, List.getElem?_eq_getElem ((hlen pats hpats).symm ▸ hk), Option.getD_some]
    exact List.getElem_mem _
  unfold pattern
  split <;> exact ⟨_, by simp, hmem _ (by simp)⟩

theorem pattern_pos (seed : BitVec 16) : 0 < (pattern seed).length := by
  have hpos : ∀ pats ∈ [intpat, floatpat, scipat, errpat], ∀ pat ∈ pats, 0 < pat.length := by decide
  obtain ⟨pats, hpats, hpat⟩ := pattern_cases seed
  exact hpos pats hpats _ hpat

theorem initLoop_total {size fuel : ℕ} {seed : BitVec 16} {p buf : List (BitVec 8)} (hbuf : 0 < buf.length)
    (hf : size ≤ p.length + fuel) : ∃ p', initLoop size fuel seed p buf = some p' := by
  induction fuel generalizing seed p buf with
  | zero => exact ⟨p, by rw [initLoop, if_neg (by omega)]⟩
  | succ fuel ih =>
    by_cases hlt : p.length + buf.length + 1 < size
    · rw [initLoop, if_pos hlt]
      apply ih (pattern_pos _)
      rw [if_pos hbuf]
      simp
      omega
    · exact ⟨p, by rw [initLoop, if_neg hlt]⟩

/-- The initialisation returns on every size and seed. -/
theorem coreInitState_total (size : ℕ) (seed : BitVec 16) : ∃ blk, coreInitState size seed = some blk := by
  have hloop : ∃ p, initLoop (size - 1) size seed [] [] = some p := by
    cases size with
    | zero => exact ⟨[], rfl⟩
    | succ size =>
      by_cases hlt : 1 < size
      · rw [initLoop, if_pos (by simpa using hlt)]
        exact initLoop_total (pattern_pos _) (by simp)
      · exact ⟨[], by rw [initLoop, if_neg (by simpa using hlt)]⟩
  obtain ⟨p, hp⟩ := hloop
  exact ⟨p ++ List.replicate (size - p.length) 0, by rw [coreInitState, hp]; rfl⟩

/-- The bytes that an initial input may have. -/
def alphabet : List (BitVec 8) :=
  0 :: byte ',' :: (intpat ++ floatpat ++ scipat ++ errpat).flatten

theorem pattern_mem (seed : BitVec 16) : ∀ sym ∈ pattern seed, sym ∈ alphabet := by
  obtain ⟨pats, hpats, hpat⟩ := pattern_cases seed
  have hall : pattern seed ∈ intpat ++ floatpat ++ scipat ++ errpat := by
    simp only [List.mem_cons, List.not_mem_nil, or_false] at hpats
    rcases hpats with rfl | rfl | rfl | rfl <;> simp [hpat]
  intro sym hsym
  exact List.mem_cons_of_mem _ (List.mem_cons_of_mem _ (List.mem_flatten.2 ⟨_, hall, hsym⟩))

theorem initLoop_mem {size fuel : ℕ} {seed : BitVec 16} {p buf p' : List (BitVec 8)}
    (h : initLoop size fuel seed p buf = some p') (hp : ∀ sym ∈ p, sym ∈ alphabet)
    (hbuf : ∀ sym ∈ buf, sym ∈ alphabet) : ∀ sym ∈ p', sym ∈ alphabet := by
  induction fuel generalizing seed p buf with
  | zero =>
    rw [initLoop] at h
    split at h
    · cases h
    · cases h
      exact hp
  | succ fuel ih =>
    rw [initLoop] at h
    split at h
    · apply ih h _ (pattern_mem _)
      intro sym hsym
      split at hsym
      · rcases List.mem_append.1 hsym with hsym | hsym
        · exact (List.mem_append.1 hsym).elim (hp sym) (hbuf sym)
        · rw [List.mem_singleton.1 hsym]
          decide
      · exact hp sym hsym
    · cases h
      exact hp

/-- The initial input is made of patterns, commas and zeros. -/
theorem coreInitState_mem {size : ℕ} {seed : BitVec 16} (h : coreInitState size seed = some blk) :
    ∀ sym ∈ blk, sym ∈ alphabet := by
  obtain ⟨p, hp, hblk⟩ := Option.bind_eq_some_iff.1 h
  obtain rfl := Option.some.inj hblk
  intro sym hsym
  rcases List.mem_append.1 hsym with hsym | hsym
  · exact initLoop_mem hp (fun _ h => absurd h List.not_mem_nil) (fun _ h => absurd h List.not_mem_nil) sym hsym
  · rw [List.eq_of_mem_replicate hsym]
    decide

/-- The initial input has the size of its block and ends with two zeros. -/
theorem coreInitState_ends {size : ℕ} {seed : BitVec 16} (hsize : 2 ≤ size) (h : coreInitState size seed = some blk) :
    blk.length = size ∧ ∃ p, blk = p ++ [0, 0] := by
  obtain ⟨p, hp, hblk⟩ := Option.bind_eq_some_iff.1 h
  obtain rfl := Option.some.inj hblk
  have hlen := initLoop_length hp (Nat.zero_le _)
  refine ⟨by simp; omega, p ++ List.replicate (size - p.length - 2) 0, ?_⟩
  have hsplit : size - p.length = size - p.length - 2 + 2 := by omega
  rw [hsplit, List.replicate_add, List.append_assoc]
  simp

/-- The initial input fits the benchmark, when the corruption makes none of its bytes a comma. -/
theorem coreInitState_input {size : ℕ} {seed : BitVec 16} (hsize : 2 ≤ size)
    (hcomma : ∀ sym ∈ alphabet, sym ≠ byte ',' → sym ^^^ seed.setWidth 8 ≠ byte ',') :
    ∃ blk, coreInitState size seed = some blk ∧ StateInput size (seed.setWidth 8) blk := by
  obtain ⟨blk, hblk⟩ := coreInitState_total size seed
  obtain ⟨hlen, hends⟩ := coreInitState_ends hsize hblk
  exact ⟨blk, hblk, hlen, hends, fun sym hsym => hcomma sym (coreInitState_mem hblk sym hsym)⟩

end CoreMark
