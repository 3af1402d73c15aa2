import ZrSoc.CoreListData
import ZrSoc.CoreMain

/-!
# The benchmark puts its memory back

A run of `core_bench_list` looks for items and moves them, sorts the list by data, removes an item and puts it back,
and sorts the list by index.  On a list that is sorted by different indices and holds regenerated data, it follows no
null pointer, and at the end every cell and every item is what it was, and so are the inputs of the other two
benchmarks (`coreBenchList_restores`).  Hence all iterations of the benchmark start from the same memory
(`iterate_restores`).
-/

namespace CoreMark

open Linked EffectSort

variable {P Q : Type} {next : P → Option P} {p list list' : Option P} {xs ys zs : List P}

/-! ### Loops that follow a list -/

/-- Following a list ends on one of its cells or behind it. -/
theorem findLoop_total {fuel : ℕ} (h : Seg next p xs none) (hf : xs.length ≤ fuel) (cond : P → Bool) :
    ∃ r, findLoop next cond fuel p = some r ∧ ∀ x, r = some x → x ∈ xs := by
  induction fuel generalizing p xs with
  | zero =>
    obtain rfl := List.eq_nil_of_length_eq_zero (Nat.le_zero.1 hf)
    obtain rfl := seg_nil.1 h
    exact ⟨none, rfl, fun x hx => by cases hx⟩
  | succ fuel ih =>
    cases p with
    | none => exact ⟨none, rfl, fun x hx => by cases hx⟩
    | some x =>
      obtain ⟨ys, rfl, hys⟩ := h.exists_cons
      by_cases hc : cond x
      · obtain ⟨r, hr, hmem⟩ := ih hys (by simpa using hf)
        refine ⟨r, ?_, fun y hy => List.mem_cons_of_mem x (hmem y hy)⟩
        rw [findLoop, if_pos hc, hr]
      · refine ⟨some x, ?_, ?_⟩
        · rw [findLoop, if_neg hc]
        · intro y hy
          cases hy
          exact List.mem_cons_self

theorem coreListFind_total {fuel : ℕ} {h : Heads P Q} (hlist : Seg h.next list xs none) (hf : xs.length ≤ fuel)
    (infos : Q → ListData) (info : ListData) :
    ∃ r, coreListFind fuel h infos list info = some r ∧ ∀ x, r = some x → x ∈ xs := by
  unfold coreListFind
  split
  · exact findLoop_total hlist hf _
  · exact findLoop_total hlist hf _

theorem crcLoop_total {fuel : ℕ} (h : Seg next p xs none) (hf : xs.length ≤ fuel) (data16 retval : BitVec 16) :
    ∃ crc, crcLoop next data16 fuel p retval = some crc := by
  induction fuel generalizing p xs retval with
  | zero =>
    obtain rfl := List.eq_nil_of_length_eq_zero (Nat.le_zero.1 hf)
    obtain rfl := seg_nil.1 h
    exact ⟨retval, rfl⟩
  | succ fuel ih =>
    cases p with
    | none => exact ⟨retval, rfl⟩
    | some x =>
      obtain ⟨ys, rfl, hys⟩ := h.exists_cons
      exact ih hys (by simpa using hf) _

variable [DecidableEq P] {h h' : Heads P Q}

/-! ### Operations that relink a list -/

/-- The loop of the reversal puts the list at `list` in front of the reversed part. -/
theorem reverseLoop_spec {fuel : ℕ} {acc : Option P} (hf : xs.length ≤ fuel) (hlist : Seg h.next list xs none)
    (hacc : Seg h.next acc ys none) (hn : (xs ++ ys).Nodup) :
    ∃ list' h', reverseLoop fuel h list acc = some (list', h') ∧ Seg h'.next list' (xs.reverse ++ ys) none ∧
      h'.info = h.info ∧ ∀ z ∉ xs, h'.next z = h.next z := by
  induction fuel generalizing xs ys list acc h with
  | zero =>
    obtain rfl := List.eq_nil_of_length_eq_zero (Nat.le_zero.1 hf)
    obtain rfl := seg_nil.1 hlist
    exact ⟨acc, h, rfl, hacc, rfl, fun _ _ => rfl⟩
  | succ fuel ih =>
    cases list with
    | none =>
      obtain rfl := hlist.nil_of_none
      exact ⟨acc, h, rfl, hacc, rfl, fun _ _ => rfl⟩
    | some x =>
      obtain ⟨xs, rfl, hxs⟩ := hlist.exists_cons
      have hn' : (x :: (xs ++ ys)).Nodup := hn
      obtain ⟨hx, hn''⟩ := List.nodup_cons.1 hn'
      rw [List.mem_append, not_or] at hx
      have hlist' : Seg (h.setNext x acc).next (h.next x) xs none := hxs.update hx.1
      have hacc' : Seg (h.setNext x acc).next (some x) (x :: ys) none := by
        refine ⟨rfl, ?_⟩
        rw [Heads.setNext_next, Function.update_self]
        exact hacc.update hx.2
      obtain ⟨list', h', hrun, hseg, hinfo, hframe⟩ := ih (by simpa using hf) hlist' hacc'
        (List.perm_middle.nodup_iff.2 hn')
      refine ⟨list', h', hrun, ?_, hinfo, ?_⟩
      · rw [List.reverse_cons, List.append_assoc]
        exact hseg
      · intro z hz
        rw [List.mem_cons, not_or] at hz
        rw [hframe z hz.2, Heads.setNext_next, Function.update_of_ne hz.1]

theorem coreListReverse_spec {fuel : ℕ} (hf : xs.length ≤ fuel) (hlist : Seg h.next list xs none) :
    ∃ list' h', coreListReverse fuel h list = some (list', h') ∧ Relinked h h' list' xs xs.reverse := by
  have hacc : Seg h.next none [] none := rfl
  obtain ⟨list', h', hrun, hseg, hinfo, hframe⟩ := reverseLoop_spec hf hlist hacc (by simpa using hlist.nodup)
  rw [List.append_nil] at hseg
  exact ⟨list', h', hrun, hseg, List.reverse_perm xs, hinfo, hframe⟩

theorem cacheNext_eq {head f g : P} (hg : h.next f = some g) :
    (cacheNext h head f).info = h.info ∧ (cacheNext h head f).next =
      Function.update (Function.update (Function.update h.next f (h.next g)) g
        (Function.update h.next f (h.next g) head)) head (some g) := by
  simp only [cacheNext, hg]
  exact ⟨rfl, rfl⟩

/-- The item behind a cell of the list is moved behind the head. -/
theorem cacheNext_spec {head f : P} (hlist : Seg h.next (some head) xs none) (hf : f ∈ xs) :
    ∃ zs, Relinked h (cacheNext h head f) (some head) xs zs := by
  cases hg : h.next f with
  | none =>
    refine ⟨xs, ?_⟩
    have hsame : cacheNext h head f = h := by simp only [cacheNext, hg]
    rw [hsame]
    exact ⟨hlist, List.Perm.refl xs, rfl, fun _ _ => rfl⟩
  | some g =>
    obtain ⟨hinfo, hnext⟩ : (cacheNext h head f).info = h.info ∧ (cacheNext h head f).next = _ := cacheNext_eq hg
    generalize cacheNext h head f = h₁ at hinfo hnext
    have hn := hlist.nodup
    obtain ⟨as, bs, rfl⟩ := List.append_of_mem hf
    obtain ⟨r, has, rfl, hbs⟩ := seg_append.1 hlist
    rw [hg] at hbs
    obtain ⟨cs, rfl, hcs⟩ := hbs.exists_cons
    have hother : ∀ z, z ≠ head → z ≠ g → z ≠ f → h₁.next z = h.next z := by
      intro z h₁ h₂ h₃
      rw [hnext, Function.update_of_ne h₁, Function.update_of_ne h₂, Function.update_of_ne h₃]
    have hhead : h₁.next head = some g := by rw [hnext, Function.update_self]
    cases as with
    | nil =>
      -- the item is behind the head already
      obtain rfl : head = f := Option.some.inj has
      simp only [List.nil_append, List.nodup_cons, List.mem_cons, not_or] at hn
      obtain ⟨⟨hfg, hfc⟩, hgc, -⟩ := hn
      have hnextg : h₁.next g = h.next g := by
        rw [hnext, Function.update_of_ne (Ne.symm hfg), Function.update_self, Function.update_self]
      refine ⟨head :: g :: cs, ⟨rfl, hhead, ?_⟩, List.Perm.refl _, hinfo, ?_⟩
      · rw [hnextg]
        apply hcs.congr
        intro z hz
        apply hother z
        · rintro rfl
          exact hfc hz
        · rintro rfl
          exact hgc hz
        · rintro rfl
          exact hfc hz
      · intro z hz
        simp only [List.nil_append, List.mem_cons, not_or] at hz
        exact hother z hz.1 hz.2.1 hz.1
    | cons a as =>
      obtain ⟨ha, has⟩ := has
      obtain rfl := Option.some.inj ha
      simp only [List.cons_append, List.nodup_cons, List.nodup_append, List.mem_append, List.mem_cons, not_or] at hn
      obtain ⟨⟨haas, haf, hag, hac⟩, -, ⟨⟨hfg, hfc⟩, hgc, -⟩, hdis⟩ := hn
      have hnextg : h₁.next g = h.next head := by
        rw [hnext, Function.update_of_ne (Ne.symm hag), Function.update_self, Function.update_of_ne haf]
      have hnextf : h₁.next f = h.next g := by
        rw [hnext, Function.update_of_ne (Ne.symm haf), Function.update_of_ne hfg, Function.update_self]
      refine ⟨head :: g :: (as ++ f :: cs), ⟨rfl, hhead, ?_⟩, ?_, hinfo, ?_⟩
      · rw [hnextg]
        have has' : Seg h₁.next (h.next head) as (some f) := by
          apply has.congr
          intro z hz
          apply hother z
          · rintro rfl
            exact haas hz
          · exact hdis z hz g (Or.inr (Or.inl rfl))
          · exact hdis z hz f (Or.inl rfl)
        refine has'.append ⟨rfl, ?_⟩
        rw [hnextf]
        apply hcs.congr
        intro z hz
        apply hother z
        · rintro rfl
          exact hac hz
        · rintro rfl
          exact hgc hz
        · rintro rfl
          exact hfc hz
      · have hmid : (as ++ f :: g :: cs).Perm (g :: (as ++ f :: cs)) := by
          have : (as ++ [f] ++ g :: cs).Perm (g :: (as ++ [f] ++ cs)) := List.perm_middle
          simpa using this
        exact (hmid.cons head).symm
      · intro z hz
        simp only [List.cons_append, List.mem_cons, List.mem_append, not_or] at hz
        exact hother z hz.1 hz.2.2.2.1 hz.2.2.1

/-- An item is removed and put back: in between it is off the list, and afterwards every cell is what it was. -/
theorem coreListRemove_spec {a b c : P} {rest : List P} (hlist : Seg h.next list (a :: b :: c :: rest) none) :
    ∃ h', coreListRemove h b = some (c, h') ∧ Seg h'.next (some a) (a :: b :: rest) none ∧ h'.next a = some b ∧
      coreListUndoRemove h' c b = h := by
  have hn := hlist.nodup
  simp only [List.nodup_cons, List.mem_cons, not_or] at hn
  obtain ⟨⟨hab, hac, har⟩, ⟨hbc, hbr⟩, hcr, -⟩ := hn
  obtain ⟨-, ha, hb, hc⟩ := hlist
  obtain ⟨h', hrun, hnext, hinfo⟩ : ∃ h', coreListRemove h b = some (c, h') ∧
      h'.next = Function.update (Function.update h.next b (h.next c)) c none ∧
      h'.info = Function.update (Function.update h.info b (h.info c)) c (h.info b) := by
    simp only [coreListRemove, hb, bind, pure, Option.bind_some]
    exact ⟨_, rfl, rfl, rfl⟩
  have hnexta : h'.next a = some b := by
    rw [hnext, Function.update_of_ne hac, Function.update_of_ne hab, ha]
  have hnextb : h'.next b = h.next c := by
    rw [hnext, Function.update_of_ne hbc, Function.update_self]
  refine ⟨h', hrun, ⟨rfl, hnexta, ?_⟩, hnexta, ?_⟩
  · rw [hnextb, hnext]
    exact (hc.update hbr).update hcr
  · have hb' : h'.info b = h.info c := by rw [hinfo, Function.update_of_ne hbc, Function.update_self]
    have hc' : h'.info c = h.info b := by rw [hinfo, Function.update_self]
    apply Heads.ext
    · funext z
      simp only [coreListUndoRemove, Heads.setNext, Heads.setInfo]
      by_cases hzb : z = b
      · rw [hzb, Function.update_self, hb]
      · by_cases hzc : z = c
        · rw [hzc, Function.update_of_ne (Ne.symm hbc), Function.update_self, hnextb]
        · rw [Function.update_of_ne hzb, Function.update_of_ne hzc, hnext, Function.update_of_ne hzc,
            Function.update_of_ne hzb]
    · funext z
      simp only [coreListUndoRemove, Heads.setNext, Heads.setInfo]
      by_cases hzb : z = b
      · rw [hzb, Function.update_self, hc']
      · by_cases hzc : z = c
        · rw [hzc, Function.update_of_ne (Ne.symm hbc), Function.update_self, hb']
        · rw [Function.update_of_ne hzb, Function.update_of_ne hzc, hinfo, Function.update_of_ne hzc,
            Function.update_of_ne hzb]

/-! ### Looking for items -/

/-- A turn of the loop that looks for items relinks the list. -/
theorem findTurn_spec {fuel : ℕ} (infos : Q → ListData) (i : BitVec 16) {v : Finds P Q}
    (hlist : Seg v.heads.next v.list xs none) (hx : 2 ≤ xs.length) (hf : xs.length ≤ fuel) :
    ∃ v' zs, findTurn fuel infos i v = some v' ∧ Relinked v.heads v'.heads v'.list xs zs := by
  obtain ⟨r, hfind, hmem⟩ := coreListFind_total hlist hf infos { v.info with data16 := i &&& 0xff }
  obtain ⟨list', h', hrev, hrel⟩ := coreListReverse_spec hf hlist
  -- the reversed list has a head and an item behind it
  have hlen : 2 ≤ xs.reverse.length := by rwa [List.length_reverse]
  obtain ⟨head, second, rest, hcons⟩ : ∃ a b cs, xs.reverse = a :: b :: cs := by
    match xs.reverse, hlen with
    | a :: b :: cs, _ => exact ⟨a, b, cs, rfl⟩
  have hseg := hrel.list
  rw [hcons] at hseg
  obtain ⟨hhead, hsecond, -⟩ := hseg
  subst hhead
  cases r with
  | none =>
    obtain ⟨v', hturn, hh, hl⟩ : ∃ v', findTurn fuel infos i v = some v' ∧ v'.heads = h' ∧ v'.list = some head := by
      simp only [findTurn, bind, pure, hfind, hrev, Option.bind_some, hsecond]
      exact ⟨_, rfl, rfl, rfl⟩
    refine ⟨v', xs.reverse, hturn, ?_⟩
    rw [hh, hl]
    exact hrel
  | some f =>
    have hfm : f ∈ xs.reverse := List.mem_reverse.2 (hmem f rfl)
    obtain ⟨zs, hrel'⟩ := cacheNext_spec hrel.list hfm
    obtain ⟨v', hturn, hh, hl⟩ : ∃ v', findTurn fuel infos i v = some v' ∧ v'.heads = cacheNext h' head f ∧
        v'.list = some head := by
      simp only [findTurn, bind, pure, hfind, hrev, Option.bind_some]
      exact ⟨_, rfl, rfl, rfl⟩
    refine ⟨v', zs, hturn, ?_⟩
    rw [hh, hl]
    exact hrel.trans hrel'

omit [DecidableEq P] in
theorem Relinked.refl (hlist : Seg h.next list xs none) : Relinked h h list xs xs :=
  ⟨hlist, List.Perm.refl xs, rfl, fun _ _ => rfl⟩

theorem findTurns_spec {fuel : ℕ} (infos : Q → ListData) (n : ℕ) (i : BitVec 16) {v : Finds P Q}
    (hlist : Seg v.heads.next v.list xs none) (hx : 2 ≤ xs.length) (hf : xs.length ≤ fuel) :
    ∃ v' zs, findTurns fuel infos n i v = some v' ∧ Relinked v.heads v'.heads v'.list xs zs := by
  induction n generalizing i v xs with
  | zero => exact ⟨v, xs, rfl, Relinked.refl hlist⟩
  | succ n ih =>
    obtain ⟨v₁, ys, hturn, hrel⟩ := findTurn_spec infos i hlist hx hf
    have hlen := hrel.perm.length_eq
    obtain ⟨v₂, zs, hturns, hrel'⟩ := ih (i + 1) hrel.list (hlen ▸ hx) (hlen ▸ hf)
    refine ⟨v₂, zs, ?_, hrel.trans hrel'⟩
    rw [findTurns, hturn, Option.bind_some, hturns]

/-! ### The benchmark -/

variable [DecidableEq Q]

/-- The index of the item of a cell. -/
def Memory.idxOf (m : Memory P Q) (x : P) : ℤ := (m.store.infos (m.heads.info x)).idx.toInt

/-- Memory that a run of the benchmark starts from: a list of three items or more, sorted by different indices, with
regenerated data, and inputs of the other benchmarks that they leave as they were. -/
structure Prepared (m : Memory P Q) (list : Option P) (xs : List P) : Prop where
  chain : Seg m.heads.next list xs none
  three : 3 ≤ xs.length
  bound : xs.length ≤ 2 ^ 31
  sorted : xs.Pairwise fun a b => m.idxOf a < m.idxOf b
  regenerated : ∀ x ∈ xs, isRegenerated m.store (m.heads.info x)
  input : BenchInput m.store.res

variable {m m' : Memory P Q}

/-- The memory of a run is what it was before the run, up to the results. -/
structure Restored (m m' : Memory P Q) : Prop where
  heads : m'.heads = m.heads
  infos : m'.store.infos = m.store.infos
  inputs : SameInputs m.store.res m'.store.res

theorem pairwise_mergeSort_key {P : Type} (key : P → ℤ) (zs : List P) :
    (zs.mergeSort fun a b => decide (key a ≤ key b)).Pairwise fun a b => key a ≤ key b := by
  have htotal : ∀ a b, (decide (key a ≤ key b) || decide (key b ≤ key a)) = true := by
    intro a b
    simpa using le_total (key a) (key b)
  have htrans : ∀ a b c, decide (key a ≤ key b) = true → decide (key b ≤ key c) = true →
      decide (key a ≤ key c) = true := by
    intro a b c hab hbc
    rw [decide_eq_true_eq] at hab hbc ⊢
    exact hab.trans hbc
  exact (List.pairwise_mergeSort htrans htotal zs).imp of_decide_eq_true

omit [DecidableEq Q] in
/-- A list that is sorted by different indices is what sorting it by index gives. -/
theorem mergeSort_eq_of_sorted {key : P → ℤ} (hs : xs.Pairwise fun a b => key a < key b) (hz : zs.Perm xs) :
    (zs.mergeSort fun a b => decide (key a ≤ key b)) = xs := by
  have hperm := (List.mergeSort_perm zs fun a b => decide (key a ≤ key b)).trans hz
  refine hperm.eq_of_pairwise ?_ (pairwise_mergeSort_key key zs) (hs.imp le_of_lt)
  intro a b ha hb hab hba
  by_contra hne
  have hdiff : xs.Pairwise fun a b => key a ≠ key b := hs.imp fun h => ne_of_lt h
  have hsymm : Std.Symm fun a b : P => key a ≠ key b := ⟨fun a b h => h.symm⟩
  exact hdiff.forall (hperm.mem_iff.1 ha) hb hne (le_antisymm hab hba)

/-- The sort by data relinks the list and keeps what comparisons keep, also in the runs that leave it out. -/
theorem sortByData_spec {fuel : ℕ} {S : Q → Prop} {s : Store Q} (finderIdx : BitVec 16) (hin : BenchInput s.res)
    (hlist : Seg h.next list xs none) (hx : xs ≠ []) (hf : xs.length ≤ fuel) (hint : xs.length ≤ 2 ^ 31)
    (hS : ∀ x ∈ xs, S (h.info x)) :
    ∃ list' h' s' zs, sortByData fuel finderIdx list h s = some (list', h', s') ∧ Relinked h h' list' xs zs ∧
      KeepsStore S s s' := by
  unfold sortByData
  split
  · obtain ⟨list', h', s', zs, hrun, -, hrel, hk⟩ :=
      coreListMergesort_spec (cmpComplex_total hin) hx hf hint hlist hS (KeepsStore.refl S s)
    exact ⟨list', h', s', zs, hrun, hrel, hk⟩
  · exact ⟨list, h, s, xs, rfl, Relinked.refl hlist, KeepsStore.refl S s⟩

omit [DecidableEq Q] in
/-- After the sort by index, the list and its items are what they were before the run. -/
theorem Prepared.restored (hp : Prepared m list xs) {h' : Heads P Q} {s' : Store Q}
    (hrel : Relinked m.heads h' list' xs xs) (hk : KeepsStore (m.heads.itemsOf xs) m.store s')
    (hreg : ∀ x ∈ xs, isRegenerated s' (m.heads.info x)) : Restored m ⟨h', s'⟩ where
  heads := by
    apply Heads.ext
    · funext z
      by_cases hz : z ∈ xs
      · -- both lists start with the same cell
        obtain ⟨x, ys, rfl⟩ := List.exists_cons_of_length_pos (Nat.lt_of_lt_of_le (by decide : 0 < 3) hp.three)
        have hstart : list' = list := hrel.list.1.trans hp.chain.1.symm
        exact Seg.next_eq (hstart ▸ hrel.list) hp.chain z hz
      · exact hrel.frame z hz
    · exact hrel.info
  infos := by
    funext q
    by_cases hq : m.heads.itemsOf xs q
    · obtain ⟨x, hx, rfl⟩ := hq
      have hdata : (s'.infos (m.heads.info x)).data16 = (m.store.infos (m.heads.info x)).data16 := by
        rw [← hreg x hx, ← hp.regenerated x hx]
        exact regenerate_congr (hk.upper _)
      have hidx := hk.idx (m.heads.info x)
      cases h₁ : s'.infos (m.heads.info x)
      cases h₂ : m.store.infos (m.heads.info x)
      rw [h₁, h₂] at hdata hidx
      exact congrArg₂ ListData.mk hdata hidx
    · exact hk.others q hq
  inputs := hk.res

/-- A run of `core_bench_list` puts the list back. -/
theorem coreBenchList_restores (hp : Prepared m list xs) {fuel : ℕ} (hf : xs.length ≤ fuel)
    (junk finderIdx : BitVec 16) :
    ∃ retval m', coreBenchList fuel junk list m finderIdx = some (retval, m') ∧ Restored m m' := by
  have hS := m.heads.itemsOf_info xs
  have hne : ∀ {ys : List P}, ys.Perm xs → ys ≠ [] := by
    rintro ys hys rfl
    have := hys.length_eq
    have := hp.three
    simp at *
    omega
  -- looking for items
  obtain ⟨v, ys, hfinds, hrel₁⟩ := findTurns_spec m.store.infos m.store.res.seed3.toInt.toNat 0
    (v := ⟨m.heads, list, ⟨junk, finderIdx⟩, 0, 0, 0⟩) hp.chain (Nat.le_of_succ_le hp.three) hf
  have hlen₁ := hrel₁.perm.length_eq
  have hS₁ : ∀ x ∈ ys, m.heads.itemsOf xs (v.heads.info x) := by
    intro x hx
    rw [hrel₁.info]
    exact hS x (hrel₁.perm.mem_iff.1 hx)
  -- the sort by data
  obtain ⟨list₂, h₂, s₂, zs, hsort, hrel₂, hk₂⟩ := sortByData_spec finderIdx hp.input hrel₁.list
    (hne hrel₁.perm) (hlen₁ ▸ hf) (hlen₁ ▸ hp.bound) hS₁
  have hrel₁₂ := hrel₁.trans hrel₂
  have hlen₂ := hrel₁₂.perm.length_eq
  obtain ⟨a, b, c, rest, rfl⟩ : ∃ a b c rest, zs = a :: b :: c :: rest := by
    match zs, hlen₂ ▸ hp.three with
    | a :: b :: c :: rest, _ => exact ⟨a, b, c, rest, rfl⟩
  -- an item is removed and put back
  obtain ⟨h₃, hremove, hseg₃, hsecond, hundo⟩ := coreListRemove_spec hrel₂.list
  have hhead : list₂ = some a := hrel₂.list.1
  have hnext : h₂.next a = some b := hrel₂.list.2.1
  have hlen₃ : (a :: b :: rest).length ≤ fuel := by
    simp only [List.length_cons] at hlen₂ ⊢
    omega
  obtain ⟨finder, hfind, hmem⟩ := coreListFind_total hseg₃ hlen₃ s₂.infos v.info
  obtain ⟨crc₁, hcrc₁⟩ : ∃ crc, crcLoop h₃.next (s₂.infos (h₃.info a)).data16 fuel
      (if finder.isSome then finder else h₃.next a) (v.retval + (v.found * 4 - v.missed)) = some crc := by
    cases finder with
    | none => exact crcLoop_total hseg₃.2 (Nat.le_of_succ_le hlen₃) _ _
    | some x =>
      obtain ⟨us, hus, hle⟩ := hseg₃.of_mem (hmem x rfl)
      exact crcLoop_total hus (hle.trans hlen₃) _ _
  -- the sort by index
  have hS₂ : ∀ x ∈ a :: b :: c :: rest, m.heads.itemsOf xs (h₂.info x) := by
    intro x hx
    rw [hrel₁₂.info]
    exact hS x (hrel₁₂.perm.mem_iff.1 hx)
  obtain ⟨list₄, h₄, s₄, hidx, hk₄, hrel₄, htouched⟩ := coreListMergesort_stable (cmpIdx_total m.store) cmpIdx_settles
    (hne hrel₁₂.perm) (hlen₂ ▸ hf) (hlen₂ ▸ hp.bound) hrel₂.list hS₂ hk₂
  have hkey : ∀ x, (s₄.infos (h₂.info x)).idx.toInt = m.idxOf x := by
    intro x
    rw [hk₄.idx, hrel₁₂.info]
    rfl
  simp only [hkey] at hrel₄
  rw [mergeSort_eq_of_sorted hp.sorted hrel₁₂.perm] at hrel₄
  have hrel := hrel₁₂.trans hrel₄
  have hreg : ∀ x ∈ xs, isRegenerated s₄ (m.heads.info x) := by
    intro x hx
    rw [← hrel₁₂.info]
    exact htouched (by simp) x (hrel₁₂.perm.mem_iff.2 hx)
  -- the last CRC
  obtain ⟨x, us, rfl⟩ := List.exists_cons_of_length_pos (Nat.lt_of_lt_of_le (by decide : 0 < 3) hp.three)
  obtain ⟨crc₂, hcrc₂⟩ := crcLoop_total hrel₄.list.2 (Nat.le_of_succ_le hf) (s₄.infos (h₄.info x)).data16 crc₁
  have hstart : list₄ = some x := hrel₄.list.1
  subst hstart hhead
  rw [hsecond] at hcrc₁
  refine ⟨crc₂, ⟨h₄, s₄⟩, ?_, hp.restored hrel hk₄ hreg⟩
  simp only [coreBenchList, bind, pure, hfinds, hsort, Option.bind_some, hnext, hremove, hfind, hcrc₁, hsecond, hundo,
    hidx, hcrc₂]

end CoreMark
