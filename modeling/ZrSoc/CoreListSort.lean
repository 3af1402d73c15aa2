import ZrSoc.CoreListJoin
import ZrSoc.Lists.EffectSort
import ZrSoc.Lists.Linked

/-!
# The merge sort of the benchmark

The loops of `core_list_mergesort` refine the bottom-up merge sort of `EffectSort`: on a list of cells `xs` they run
without following a null pointer, they relink the cells of `xs` to a list `zs` that the sort relates to `xs`, and they
write to nothing else (`coreListMergesort_spec`).  When the values that a comparison gives its two items are settled
for good, the list is sorted by these values, and items with equal values stay in their order (`stable`).
-/

namespace CoreMark

open Linked EffectSort

variable {P Q σ : Type} {h : Heads P Q} {cmp : ListCmp Q σ}

/-- The comparison of two cells: it holds when the first one is lower or the same. -/
def compareBy (cmp : ListCmp Q σ) (info : P → Q) : P → P → σ → Option (Bool × σ) := fun a b s =>
  (cmp (info a) (info b) s).map fun (r, s) => (decide (r ≤ 0), s)

/-- The comparison returns on all items of `S`, and keeps `I`. -/
def Total (cmp : ListCmp Q σ) (S : Q → Prop) (I : σ → Prop) : Prop :=
  ∀ a b s, S a → S b → I s → ∃ r s', cmp a b s = some (r, s') ∧ I s'

/-! ### The merged list -/

/-- The elements `zs` have been added to a merged list `out`, and only cells of the two have been written. -/
structure Extends (m m' : Merged P Q σ) (out zs : List P) : Prop where
  built : Built m'.heads.next m'.list (out ++ zs) m'.tail
  info : m'.heads.info = m.heads.info
  frame : ∀ z, z ∉ out → z ∉ zs → m'.heads.next z = m.heads.next z

variable {m m₁ m₂ : Merged P Q σ} {out xs ys zs zs' : List P} {p q r : Option P} {e : P}

theorem Extends.refl (hb : Built m.heads.next m.list out m.tail) : Extends m m out [] where
  built := by rwa [List.append_nil]
  info := rfl
  frame := fun z _ _ => rfl

theorem Extends.trans (h : Extends m m₁ out zs) (h' : Extends m₁ m₂ (out ++ zs) zs') :
    Extends m m₂ out (zs ++ zs') where
  built := by
    rw [← List.append_assoc]
    exact h'.built
  info := h'.info.trans h.info
  frame := by
    intro z hz hz'
    rw [List.mem_append, not_or] at hz'
    rw [h'.frame z (by simp [hz, hz'.1]) hz'.2]
    exact h.frame z hz hz'.1

/-- What is not on the merged list stays linked as it was. -/
theorem Extends.seg (h : Extends m m₁ out zs) (hs : Seg m.heads.next p xs q) (hd : ∀ x ∈ xs, x ∉ out ∧ x ∉ zs) :
    Seg m₁.heads.next p xs q :=
  hs.congr fun x hx => h.frame x (hd x hx).1 (hd x hx).2

variable [DecidableEq P]

@[simp] theorem Heads.setNext_next (h : Heads P Q) (p : P) (v : Option P) :
    (h.setNext p v).next = Function.update h.next p v := rfl

@[simp] theorem Heads.setNext_info (h : Heads P Q) (p : P) (v : Option P) : (h.setNext p v).info = h.info := rfl

@[simp] theorem Heads.setInfo_next (h : Heads P Q) (p : P) (v : Q) : (h.setInfo p v).next = h.next := rfl

@[simp] theorem Heads.setInfo_info (h : Heads P Q) (p : P) (v : Q) :
    (h.setInfo p v).info = Function.update h.info p v := rfl

@[simp] theorem Merged.push_res (m : Merged P Q σ) (e : P) : (m.push e).res = m.res := by
  unfold Merged.push
  split <;> rfl

/-- An element is added to the merged list. -/
theorem Merged.push_extends (hb : Built m.heads.next m.list out m.tail) (hn : out.Nodup) :
    Extends m (m.push e) out [e] := by
  cases ht : m.tail with
  | none =>
    rw [ht] at hb
    obtain ⟨rfl, hf⟩ := hb.first (e := e)
    have hpush : m.push e = { m with list := some e, tail := some e } := by simp only [Merged.push, ht]
    rw [hpush]
    exact ⟨hf, rfl, fun z _ _ => rfl⟩
  | some t =>
    rw [ht] at hb
    have hpush : m.push e = { m with heads := m.heads.setNext t (some e), tail := some e } := by
      simp only [Merged.push, ht]
    rw [hpush]
    refine ⟨hb.push hn, rfl, ?_⟩
    intro z hz _
    apply Function.update_of_ne
    rintro rfl
    exact hz hb.mem_of_tail

/-! ### Merging two lists -/

/-- What the merge loop finds: the elements `xs` at `p`, the rest `ys` of the list at `q`, and `out` merged. -/
structure Ready (m : Merged P Q σ) (out xs ys : List P) (p q : Option P) : Prop where
  first : ∃ r, Seg m.heads.next p xs r
  second : Seg m.heads.next q ys none
  built : Built m.heads.next m.list out m.tail
  nodup : (out ++ (xs ++ ys)).Nodup

/-- The next element comes from the first list. -/
theorem Ready.takeFirst {x : P} (h : Ready m out (x :: xs) ys p q) :
    Extends m (m.push x) out [x] ∧ Ready (m.push x) (out ++ [x]) xs ys (m.heads.next x) q := by
  obtain ⟨hout, hin, hdis⟩ := List.nodup_append.1 h.nodup
  have hpush := Merged.push_extends (e := x) h.built hout
  obtain ⟨r, -, hx⟩ := h.first
  have hfree : ∀ y ∈ xs ++ ys, y ∉ out ∧ y ∉ [x] := by
    intro y hy
    refine ⟨fun ho => hdis y ho y (List.mem_cons_of_mem x hy) rfl, ?_⟩
    rw [List.mem_singleton]
    rintro rfl
    exact (List.nodup_cons.1 hin).1 hy
  refine ⟨hpush, ⟨r, ?_⟩, ?_, hpush.built, ?_⟩
  · exact hpush.seg hx fun y hy => hfree y (List.mem_append_left ys hy)
  · exact hpush.seg h.second fun y hy => hfree y (List.mem_append_right xs hy)
  · rw [List.append_assoc]
    exact h.nodup

/-- The next element comes from the second list. -/
theorem Ready.takeSecond {y : P} (h : Ready m out xs (y :: ys) p q) :
    Extends m (m.push y) out [y] ∧ Ready (m.push y) (out ++ [y]) xs ys p (m.heads.next y) := by
  obtain ⟨hout, hin, hdis⟩ := List.nodup_append.1 h.nodup
  have hpush := Merged.push_extends (e := y) h.built hout
  obtain ⟨r, hx⟩ := h.first
  have hin' : (y :: (xs ++ ys)).Nodup := List.perm_middle.nodup_iff.1 hin
  have hfree : ∀ z ∈ xs ++ ys, z ∉ out ∧ z ∉ [y] := by
    intro z hz
    refine ⟨fun ho => hdis z ho z (List.perm_middle.mem_iff.2 (List.mem_cons_of_mem y hz)) rfl, ?_⟩
    rw [List.mem_singleton]
    rintro rfl
    exact (List.nodup_cons.1 hin').1 hz
  refine ⟨hpush, ⟨r, ?_⟩, ?_, hpush.built, ?_⟩
  · exact hpush.seg hx fun z hz => hfree z (List.mem_append_left ys hz)
  · exact hpush.seg h.second.2 fun z hz => hfree z (List.mem_append_right xs hz)
  · rw [List.append_assoc]
    have hperm : (xs ++ y :: ys).Perm (y :: (xs ++ ys)) := List.perm_middle
    exact (hperm.append_left out).nodup_iff.1 h.nodup

variable {S : Q → Prop} {I : σ → Prop}

/-- The loop ends at an empty first list when the second one gives nothing more. -/
theorem mergeLoop_done {qsize : ℕ} (hq : qsize = 0 ∨ q = none) : mergeLoop cmp 0 qsize p q m = some (q, m) := by
  rw [mergeLoop, dif_neg]
  rintro (h | ⟨h, hs⟩)
  · exact absurd h (Nat.lt_irrefl 0)
  · rcases hq with rfl | rfl
    · exact absurd h (Nat.lt_irrefl 0)
    · cases hs

theorem mergeLoop_second {qsize : ℕ} :
    mergeLoop cmp 0 (qsize + 1) p (some e) m = mergeLoop cmp 0 qsize p (m.heads.next e) (m.push e) := by
  rw [mergeLoop, dif_pos (Or.inr ⟨Nat.succ_pos _, rfl⟩), dif_pos rfl]
  rfl

theorem mergeLoop_first {psize qsize : ℕ} (hq : qsize = 0 ∨ q = none) :
    mergeLoop cmp (psize + 1) qsize (some e) q m = mergeLoop cmp psize qsize (m.heads.next e) q (m.push e) := by
  rw [mergeLoop, dif_pos (Or.inl (Nat.succ_pos _)), dif_neg (Nat.succ_ne_zero _), dif_pos (by simpa using hq)]
  rfl

theorem mergeLoop_compare {psize qsize : ℕ} {a b : P} {r : ℤ} {res : σ}
    (h : cmp (m.heads.info a) (m.heads.info b) m.res = some (r, res)) :
    mergeLoop cmp (psize + 1) (qsize + 1) (some a) (some b) m =
      if r ≤ 0 then
        mergeLoop cmp psize (qsize + 1) (m.heads.next a) (some b) (Merged.push { m with res := res } a)
      else
        mergeLoop cmp (psize + 1) qsize (some a) (m.heads.next b) (Merged.push { m with res := res } b) := by
  rw [mergeLoop, dif_pos (Or.inl (Nat.succ_pos _)), dif_neg (Nat.succ_ne_zero _), dif_neg (by simp)]
  simp only [Option.bind_some, h]
  rfl

/-- The merge loop merges the elements at `p` and the first `qsize` elements at `q`. -/
theorem mergeLoop_spec (hc : Total cmp S I) (n : ℕ) {psize qsize : ℕ} (hn : psize + qsize ≤ n)
    (hx : xs.length = psize) (h : Ready m out xs ys p q) (hS : ∀ x ∈ xs ++ ys, S (m.heads.info x)) (hI : I m.res) :
    ∃ q' m' zs, mergeLoop cmp psize qsize p q m = some (q', m') ∧
      Merges (compareBy cmp m.heads.info) xs (ys.take qsize) m.res zs m'.res ∧
      Seg m'.heads.next q' (ys.drop qsize) none ∧ Extends m m' out zs ∧ I m'.res := by
  induction n generalizing psize qsize xs ys out p q m with
  | zero =>
    obtain ⟨rfl, rfl⟩ : psize = 0 ∧ qsize = 0 := by omega
    obtain rfl := List.eq_nil_of_length_eq_zero hx
    exact ⟨q, m, [], mergeLoop_done (Or.inl rfl), Merges.nil_left _ _, h.second, Extends.refl h.built, hI⟩
  | succ n ih =>
    cases xs with
    | nil =>
      subst hx
      cases qsize with
      | zero => exact ⟨q, m, [], mergeLoop_done (Or.inl rfl), Merges.nil_left _ _, h.second, Extends.refl h.built, hI⟩
      | succ qsize =>
        cases ys with
        | nil =>
          have hq := seg_nil.1 h.second
          exact ⟨q, m, [], mergeLoop_done (Or.inr hq), Merges.nil_left _ _, h.second, Extends.refl h.built, hI⟩
        | cons y ys =>
          obtain ⟨hext, hready⟩ := h.takeSecond
          have hle : 0 + qsize ≤ n := by omega
          obtain ⟨q', m', zs, hrun, hm, hseg, hext', hI'⟩ := ih hle rfl hready
            (by rw [hext.info]; exact fun x hx => hS x (List.mem_cons_of_mem y hx)) (by rwa [Merged.push_res])
          refine ⟨q', m', y :: zs, ?_, ?_, hseg, hext.trans hext', hI'⟩
          · rw [h.second.1, List.length_nil, mergeLoop_second, hrun]
          · rw [Merged.push_res] at hm
            obtain ⟨rfl, hs⟩ := hm.of_nil_left
            rw [hs]
            exact Merges.nil_left _ _
    | cons x xs =>
      obtain ⟨psize, rfl⟩ : ∃ k, psize = k + 1 := ⟨xs.length, by rw [← hx, List.length_cons]⟩
      have hx' : xs.length = psize := by simpa using hx
      obtain ⟨r, rfl, -⟩ := h.first
      by_cases hq : qsize = 0 ∨ ys = []
      · -- the second list gives nothing: the element comes from the first one
        have htake : ys.take qsize = [] := by
          rcases hq with rfl | rfl
          · exact List.take_zero
          · exact List.take_nil
        have hq' : qsize = 0 ∨ q = none := by
          rcases hq with hq | rfl
          · exact Or.inl hq
          · exact Or.inr (seg_nil.1 h.second)
        obtain ⟨hext, hready⟩ := h.takeFirst
        have hle : psize + qsize ≤ n := by omega
        obtain ⟨q', m', zs, hrun, hm, hseg, hext', hI'⟩ := ih hle hx' hready
          (by rw [hext.info]; exact fun z hz => hS z (List.mem_cons_of_mem x hz)) (by rwa [Merged.push_res])
        refine ⟨q', m', x :: zs, ?_, ?_, hseg, hext.trans hext', hI'⟩
        · rw [mergeLoop_first hq', hrun]
        · rw [htake, Merged.push_res] at hm
          obtain ⟨rfl, hs⟩ := hm.of_nil_right
          rw [hs, htake]
          exact Merges.nil_right _ _
      · obtain ⟨hq0, hy0⟩ := not_or.1 hq
        obtain ⟨qsize, rfl⟩ := Nat.exists_eq_succ_of_ne_zero hq0
        obtain ⟨y, ys, rfl⟩ := List.exists_cons_of_ne_nil hy0
        obtain ⟨c, res, hcmp, hres⟩ := hc (m.heads.info x) (m.heads.info y) m.res (hS x (by simp))
          (hS y (by simp)) hI
        have hby : compareBy cmp m.heads.info x y m.res = some (decide (c ≤ 0), res) := by
          simp only [compareBy, hcmp, Option.map_some]
        have hloop : mergeLoop cmp (psize + 1) (qsize + 1) (some x) (some y) m = _ := mergeLoop_compare hcmp
        obtain rfl := h.second.1
        have h' : Ready { m with res := res } out (x :: xs) (y :: ys) (some x) (some y) := ⟨h.first, h.second, h.built, h.nodup⟩
        by_cases hle : c ≤ 0
        · rw [if_pos hle] at hloop
          obtain ⟨hext, hready⟩ := h'.takeFirst
          have hlt : psize + (qsize + 1) ≤ n := by omega
          obtain ⟨q', m', zs, hrun, hm, hseg, hext', hI'⟩ := ih hlt hx' hready
            (by rw [hext.info]; exact fun z hz => hS z (List.mem_cons_of_mem x hz)) (by rwa [Merged.push_res])
          refine ⟨q', m', x :: zs, hloop.trans hrun, ?_, hseg, ?_, hI'⟩
          · rw [hext.info, Merged.push_res] at hm
            rw [decide_eq_true hle] at hby
            exact Merges.first hby hm
          · have := hext.trans hext'
            exact ⟨this.built, this.info, this.frame⟩
        · rw [if_neg hle] at hloop
          obtain ⟨hext, hready⟩ := h'.takeSecond
          have hlt : psize + 1 + qsize ≤ n := by omega
          obtain ⟨q', m', zs, hrun, hm, hseg, hext', hI'⟩ := ih hlt hx hready
            (by rw [hext.info]
                exact fun z hz => hS z (List.perm_middle.mem_iff.2 (List.mem_cons_of_mem y hz)))
            (by rwa [Merged.push_res])
          refine ⟨q', m', y :: zs, hloop.trans hrun, ?_, hseg, ?_, hI'⟩
          · rw [hext.info, Merged.push_res] at hm
            rw [decide_eq_false hle] at hby
            exact Merges.second hby hm
          · have := hext.trans hext'
            exact ⟨this.built, this.info, this.frame⟩

/-! ### One pass, and all of them -/

omit [DecidableEq P] in
/-- The steps along a list give the length of its first run, and the pointer behind it. -/
theorem stepAlong_spec {next : P → Option P} {n : ℕ} {x : P} (hs : Seg next (some x) xs none) (i : ℕ) :
    ∃ q, stepAlong next i n x = (n + min i xs.length, q) ∧ Seg next (some x) (xs.take i) q ∧
      Seg next q (xs.drop i) none := by
  induction i generalizing n x xs with
  | zero => exact ⟨some x, by simp [stepAlong], by simp, hs⟩
  | succ i ih =>
    obtain ⟨ys, rfl, hys⟩ := hs.exists_cons
    cases hy : next x with
    | none =>
      rw [hy] at hys
      obtain rfl := hys.nil_of_none
      exact ⟨none, by simp [stepAlong, hy], by simp [hy], by simp⟩
    | some y =>
      rw [hy] at hys
      obtain ⟨q, hrun, ht, hd⟩ := ih (n := n + 1) hys
      refine ⟨q, ?_, ?_, hd⟩
      · rw [stepAlong, hy]
        simp only [hrun, List.length_cons, Prod.mk.injEq, and_true]
        omega
      · rw [List.take_succ_cons, seg_cons, hy]
        exact ⟨rfl, ht⟩

/-- What a pass finds: the rest `xs` of the list at `p`, and `out` merged. -/
structure Waiting (m : Merged P Q σ) (out xs : List P) (p : Option P) : Prop where
  rest : Seg m.heads.next p xs none
  built : Built m.heads.next m.list out m.tail
  nodup : (out ++ xs).Nodup

/-- The loop of a pass makes the pass. -/
theorem passLoop_spec (hc : Total cmp S I) {w : ℕ} (hw : 0 < w) {fuel n : ℕ} (hf : xs.length ≤ fuel)
    (h : Waiting m out xs p) (hS : ∀ x ∈ xs, S (m.heads.info x)) (hI : I m.res) :
    ∃ k m' zs, passLoop cmp w fuel n p m = some (n + k, m') ∧
      Pass (compareBy cmp m.heads.info) w xs m.res zs m'.res k ∧ Extends m m' out zs ∧ I m'.res := by
  induction fuel generalizing n xs out p m with
  | zero =>
    obtain rfl := List.eq_nil_of_length_eq_zero (Nat.le_zero.1 hf)
    obtain rfl := seg_nil.1 h.rest
    exact ⟨0, m, [], rfl, Pass.nil _, Extends.refl h.built, hI⟩
  | succ fuel ih =>
    cases p with
    | none =>
      obtain rfl := h.rest.nil_of_none
      exact ⟨0, m, [], rfl, Pass.nil _, Extends.refl h.built, hI⟩
    | some x =>
      obtain ⟨q, hstep, hfirst, hsecond⟩ := stepAlong_spec (n := 0) h.rest w
      have hx : xs ≠ [] := h.rest.isSome_iff.1 rfl
      have hready : Ready m out (xs.take w) (xs.drop w) (some x) q :=
        ⟨⟨q, hfirst⟩, hsecond, h.built, by rw [List.take_append_drop]; exact h.nodup⟩
      have hlen : (xs.take w).length = 0 + min w xs.length := by rw [List.length_take, Nat.zero_add]
      obtain ⟨q₁, m₁, ms, hrun, hm, hseg, hext, hI₁⟩ := mergeLoop_spec hc _ (le_refl (_ + w)) hlen hready
        (by rw [List.take_append_drop]; exact hS) hI
      have hdrop : (xs.drop w).drop w = xs.drop (2 * w) := by rw [List.drop_drop, Nat.two_mul]
      rw [hdrop] at hseg
      have hperm : (out ++ ms ++ xs.drop (2 * w)).Perm (out ++ xs) := by
        rw [List.append_assoc]
        apply List.Perm.append_left
        have := hm.perm.append_right (xs.drop (2 * w))
        rwa [take_append_take_drop] at this
      have hwait : Waiting m₁ (out ++ ms) (xs.drop (2 * w)) q₁ := ⟨hseg, hext.built, hperm.nodup_iff.2 h.nodup⟩
      obtain ⟨k, m₂, zs, hrun₂, hp, hext₂, hI₂⟩ := ih (n := n + 1)
        (by rw [List.length_drop]; have := List.length_pos_iff.2 hx; omega) hwait
        (by rw [hext.info]; exact fun y hy => hS y (List.mem_of_mem_drop hy)) hI₁
      refine ⟨k + 1, m₂, ms ++ zs, ?_, ?_, hext.trans hext₂, hI₂⟩
      · rw [passLoop, hstep]
        simp only [hrun, Option.bind_some, hrun₂, Option.some.injEq, Prod.mk.injEq, and_true]
        omega
      · rw [hext.info] at hp
        exact Pass.cons hx hm hp

omit [DecidableEq P] in
theorem Built.exists_tail {next : P → Option P} {list tail : Option P} (h : Built next list zs tail) (hz : zs ≠ []) :
    ∃ t, tail = some t := by
  rcases h with ⟨h0, -, -⟩ | ⟨ys, t, -, ht, -⟩
  · exact absurd h0 hz
  · exact ⟨t, ht⟩

/-- The list `xs` of the cells `h` has become the list `zs` of the cells `h'`. -/
structure Relinked (h h' : Heads P Q) (list' : Option P) (xs zs : List P) : Prop where
  list : Seg h'.next list' zs none
  perm : zs.Perm xs
  info : h'.info = h.info
  frame : ∀ z ∉ xs, h'.next z = h.next z

variable {h' h'' : Heads P Q} {list list' list'' : Option P}

omit [DecidableEq P] in
theorem Relinked.trans (h₁ : Relinked h h' list' xs ys) (h₂ : Relinked h' h'' list'' ys zs) :
    Relinked h h'' list'' xs zs where
  list := h₂.list
  perm := h₂.perm.trans h₁.perm
  info := h₂.info.trans h₁.info
  frame := by
    intro z hz
    rw [h₂.frame z (fun hm => hz (h₁.perm.mem_iff.1 hm)), h₁.frame z hz]

/-- The list that a pass leaves. -/
theorem Relinked.of_extends {s : σ} {t : P} (hext : Extends ⟨h, s, none, none⟩ m [] zs) (ht : m.tail = some t)
    (hperm : zs.Perm xs) (hx : xs.Nodup) : Relinked h (m.heads.setNext t none) m.list xs zs where
  list := by
    have hb := hext.built
    rw [List.nil_append, ht] at hb
    exact hb.close (hperm.nodup_iff.2 hx)
  perm := hperm
  info := hext.info
  frame := by
    have hb := hext.built
    rw [List.nil_append, ht] at hb
    intro z hz
    rw [Heads.setNext_next, Function.update_of_ne]
    · exact hext.frame z List.not_mem_nil (fun hm => hz (hperm.mem_iff.1 hm))
    · rintro rfl
      exact hz (hperm.mem_iff.1 hb.mem_of_tail)

/-- A pass over a whole list, with the end of the new list closed. -/
theorem pass_spec (hc : Total cmp S I) {turns w : ℕ} {s : σ} (hw : 0 < w) (hx : xs ≠ [])
    (hturns : xs.length ≤ turns) (hlist : Seg h.next list xs none) (hS : ∀ x ∈ xs, S (h.info x)) (hI : I s) :
    ∃ k m t zs, passLoop cmp w turns 0 list ⟨h, s, none, none⟩ = some (k, m) ∧ m.tail = some t ∧
      Pass (compareBy cmp h.info) w xs s zs m.res k ∧ Relinked h (m.heads.setNext t none) m.list xs zs ∧
      I m.res := by
  have hwait : Waiting ⟨h, s, none, none⟩ [] xs list := ⟨hlist, Built.nil, hlist.nodup⟩
  obtain ⟨k, m, zs, hrun, hp, hext, hI'⟩ := passLoop_spec hc hw (n := 0) hturns hwait hS hI
  have hz : zs ≠ [] := by
    rintro rfl
    exact hx (List.perm_nil.1 hp.perm.symm)
  obtain ⟨t, ht⟩ := Built.exists_tail hext.built (by rwa [List.nil_append])
  refine ⟨k, m, t, zs, ?_, ht, hp, Relinked.of_extends hext ht hp.perm hlist.nodup, hI'⟩
  rw [hrun, Nat.zero_add]

theorem sortLoop_eq {turns fuel w k : ℕ} {s : σ} {t : P}
    (h₁ : passLoop cmp w turns 0 list ⟨h, s, none, none⟩ = some (k, m)) (h₂ : m.tail = some t) :
    sortLoop cmp turns (fuel + 1) w list h s =
      if k ≤ 1 then some (m.list, m.heads.setNext t none, m.res)
      else if 2 ^ 31 ≤ w * 2 then none
      else sortLoop cmp turns fuel (w * 2) m.list (m.heads.setNext t none) m.res := by
  simp only [sortLoop, h₁, h₂, Option.bind_some]

/-- The loop over the passes makes the sort, when the list fits into two runs of `w * 2 ^ fuel` elements. -/
theorem sortLoop_spec (hc : Total cmp S I) {turns fuel w : ℕ} {s : σ} (hw : 0 < w) (hx : xs ≠ [])
    (hturns : xs.length ≤ turns) (hf : xs.length ≤ w * 2 ^ (fuel + 1)) (hint : xs.length ≤ 2 ^ 31)
    (hlist : Seg h.next list xs none) (hS : ∀ x ∈ xs, S (h.info x)) (hI : I s) :
    ∃ list' h' s' zs, sortLoop cmp turns (fuel + 1) w list h s = some (list', h', s') ∧
      Sorts (compareBy cmp h.info) w xs s zs s' ∧ Relinked h h' list' xs zs ∧ I s' := by
  induction fuel generalizing w xs list h s with
  | zero =>
    obtain ⟨k, m, t, zs, hrun, ht, hp, hrel, hI'⟩ := pass_spec hc hw hx hturns hlist hS hI
    have hk : k ≤ 1 := by
      by_contra hk
      have := hp.lt_length (not_le.1 hk)
      omega
    refine ⟨m.list, m.heads.setNext t none, m.res, zs, ?_, Sorts.done hp hk, hrel, hI'⟩
    rw [sortLoop_eq hrun ht, if_pos hk]
  | succ fuel ih =>
    obtain ⟨k, m, t, ys, hrun, ht, hp, hrel, hI'⟩ := pass_spec hc hw hx hturns hlist hS hI
    by_cases hk : k ≤ 1
    · refine ⟨m.list, m.heads.setNext t none, m.res, ys, ?_, Sorts.done hp hk, hrel, hI'⟩
      rw [sortLoop_eq hrun ht, if_pos hk]
    · have hlt := hp.lt_length (not_le.1 hk)
      have hlen := hp.perm.length_eq
      obtain ⟨list', h', s', zs, hrun', hs, hrel', hI''⟩ := ih (w := w * 2) (by omega)
        (by rintro rfl; rw [← hlen] at hlt; simp at hlt) (hlen ▸ hturns)
        (by rw [hlen, Nat.mul_assoc, ← Nat.pow_succ']; exact hf) (hlen ▸ hint) hrel.list
        (by intro y hy
            rw [hrel.info]
            exact hS y (hp.perm.mem_iff.1 hy)) hI'
      refine ⟨list', h', s', zs, ?_, ?_, hrel.trans hrel', hI''⟩
      · rw [sortLoop_eq hrun ht, if_neg hk, if_neg (by omega), hrun']
      · rw [hrel.info, Nat.mul_comm] at hs
        exact Sorts.again hp (not_le.1 hk) hs

/-- `core_list_mergesort` relinks the cells of a list to the list that the merge sort gives. -/
theorem coreListMergesort_spec (hc : Total cmp S I) {fuel : ℕ} {s : σ} (hx : xs ≠ []) (hf : xs.length ≤ fuel)
    (hint : xs.length ≤ 2 ^ 31) (hlist : Seg h.next list xs none) (hS : ∀ x ∈ xs, S (h.info x)) (hI : I s) :
    ∃ list' h' s' zs, coreListMergesort fuel cmp list h s = some (list', h', s') ∧
      Sorts (compareBy cmp h.info) 1 xs s zs s' ∧ Relinked h h' list' xs zs ∧ I s' := by
  have hpos := List.length_pos_iff.2 hx
  obtain ⟨n, rfl⟩ : ∃ n, fuel = n + 1 := ⟨fuel - 1, by omega⟩
  apply sortLoop_spec hc Nat.one_pos hx hf _ hint hlist hS hI
  rw [Nat.one_mul]
  exact hf.trans Nat.lt_two_pow_self.le

/-! ### Values that are settled -/

/-- The first comparison of an item settles its value: `settled s q` says that the value of `q` is settled in `s`, and
`value s q` is this value.  A comparison settles the values of its two items and compares them. -/
structure Settles (cmp : ListCmp Q σ) (settled : σ → Q → Prop) (value : σ → Q → ℤ) : Prop where
  first : ∀ {a b : Q} {r : ℤ} {s s' : σ}, cmp a b s = some (r, s') → settled s' a
  second : ∀ {a b : Q} {r : ℤ} {s s' : σ}, cmp a b s = some (r, s') → settled s' b
  keep : ∀ {a b c : Q} {r : ℤ} {s s' : σ}, cmp a b s = some (r, s') → settled s c →
    settled s' c ∧ value s' c = value s c
  compare : ∀ {a b : Q} {r : ℤ} {s s' : σ}, cmp a b s = some (r, s') → (r ≤ 0 ↔ value s' a ≤ value s' b)

variable {settled : σ → Q → Prop} {value : σ → Q → ℤ}

omit [DecidableEq P] in
theorem compareBy_eq_some {info : P → Q} {a b : P} {c : Bool} {s s' : σ} (h : compareBy cmp info a b s = some (c, s')) :
    ∃ r, cmp (info a) (info b) s = some (r, s') ∧ c = decide (r ≤ 0) := by
  obtain ⟨⟨r, s''⟩, hr, heq⟩ := Option.map_eq_some_iff.1 h
  obtain ⟨rfl, rfl⟩ := Prod.mk.inj heq
  exact ⟨r, hr, rfl⟩

omit [DecidableEq P] in
/-- Comparisons that settle values agree with the order of the values that are settled in the end. -/
theorem Settles.agrees (hset : Settles cmp settled value) (info : P → Q) (t : σ) :
    Agrees (compareBy cmp info) (fun a b => decide (value t (info a) ≤ value t (info b)))
      fun s => ∀ q, settled s q → value s q = value t q where
  back := by
    intro a b s s' c h hs' q hq
    obtain ⟨r, hr, -⟩ := compareBy_eq_some h
    obtain ⟨hq', hv⟩ := hset.keep hr hq
    rw [← hv]
    exact hs' q hq'
  value := by
    intro a b s s' c h hs'
    obtain ⟨r, hr, rfl⟩ := compareBy_eq_some h
    rw [← hs' _ (hset.first hr), ← hs' _ (hset.second hr)]
    exact decide_eq_decide.2 (hset.compare hr)
  total := by
    intro a b
    simpa using le_total (value t (info a)) (value t (info b))
  trans := by
    intro a b c hab hbc
    rw [decide_eq_true_eq] at hab hbc ⊢
    exact hab.trans hbc

/-- With a comparison that settles values, the list is sorted by the values at the end, and items with equal values
stay in their order: the result is the stable sort.  Only the links of its own cells are written. -/
theorem coreListMergesort_stable (hc : Total cmp S I) (hset : Settles cmp settled value) {fuel : ℕ} {s : σ}
    (hx : xs ≠ []) (hf : xs.length ≤ fuel) (hint : xs.length ≤ 2 ^ 31) (hlist : Seg h.next list xs none)
    (hS : ∀ x ∈ xs, S (h.info x)) (hI : I s) :
    ∃ list' h' s', coreListMergesort fuel cmp list h s = some (list', h', s') ∧ I s' ∧
      Relinked h h' list' xs (xs.mergeSort fun a b => decide (value s' (h.info a) ≤ value s' (h.info b))) ∧
      (2 ≤ xs.length → ∀ x ∈ xs, settled s' (h.info x)) := by
  obtain ⟨list', h', s', zs, hrun, hs, hrel, hI'⟩ := coreListMergesort_spec hc hx hf hint hlist hS hI
  have hz := hs.eq_mergeSort (hset.agrees h.info s') fun q _ => rfl
  have hmarks : Marks (compareBy cmp h.info) fun s x => settled s (h.info x) := by
    constructor
    · intro x y s s' b hb
      obtain ⟨r, hr, -⟩ := compareBy_eq_some hb
      exact hset.first hr
    · intro x y s s' b hb
      obtain ⟨r, hr, -⟩ := compareBy_eq_some hb
      exact hset.second hr
    · intro x y z s s' b hb hz
      obtain ⟨r, hr, -⟩ := compareBy_eq_some hb
      exact (hset.keep hr hz).1
  refine ⟨list', h', s', hrun, hI', hz ▸ hrel, ?_⟩
  exact hs.touched hmarks

end CoreMark
