import Mathlib.Data.List.Basic
import Mathlib.Data.List.Pairwise
import Mathlib.Data.List.Sort

/-!
# Bottom-up merge sort with a comparison that acts on a state

The sort merges neighbouring runs of `w` elements, then of `2 * w`, and so on, until a pass has at most one merge to
do.  A comparison may fail, and it may change a state that later comparisons see, so the same two elements need not
compare in the same way twice.  The sort is given by relations: `Merges` for two runs, `Pass` for one pass over the
list, `Sorts` for all passes.

What holds of every comparison: the result is a permutation (`Sorts.perm`), and what a comparison does to its two
elements has been done to every element of a list of two elements or more (`Sorts.touched`).  When all comparisons
made on the way agree with one order, the result is the stable sort by this order (`Sorts.eq_mergeSort`).  It is
enough to know this of the state at the end, since the agreement is passed down from later states to earlier ones.
-/

namespace EffectSort

variable {α σ : Type*} (cmp : α → α → σ → Option (Bool × σ))

/-- The runs `xs` and `ys` are merged: a comparison that holds takes the first element of `xs`. -/
inductive Merges : List α → List α → σ → List α → σ → Prop
  | nil_left (ys : List α) (s : σ) : Merges [] ys s ys s
  | nil_right (xs : List α) (s : σ) : Merges xs [] s xs s
  | first {x y : α} {xs ys zs : List α} {s s₁ s₂ : σ} (h : cmp x y s = some (true, s₁))
      (hm : Merges xs (y :: ys) s₁ zs s₂) : Merges (x :: xs) (y :: ys) s (x :: zs) s₂
  | second {x y : α} {xs ys zs : List α} {s s₁ s₂ : σ} (h : cmp x y s = some (false, s₁))
      (hm : Merges (x :: xs) ys s₁ zs s₂) : Merges (x :: xs) (y :: ys) s (y :: zs) s₂

/-- One pass over the list; the last argument counts its merges. -/
inductive Pass (w : ℕ) : List α → σ → List α → σ → ℕ → Prop
  | nil (s : σ) : Pass w [] s [] s 0
  | cons {xs ms zs : List α} {s s₁ s₂ : σ} {k : ℕ} (hx : xs ≠ [])
      (hm : Merges cmp (xs.take w) ((xs.drop w).take w) s ms s₁) (hp : Pass w (xs.drop (2 * w)) s₁ zs s₂ k) :
      Pass w xs s (ms ++ zs) s₂ (k + 1)

/-- Passes with runs of `w`, `2 * w`, … elements, up to the first with at most one merge. -/
inductive Sorts : ℕ → List α → σ → List α → σ → Prop
  | done {w k : ℕ} {xs zs : List α} {s s' : σ} (hp : Pass cmp w xs s zs s' k) (hk : k ≤ 1) : Sorts w xs s zs s'
  | again {w k : ℕ} {xs ys zs : List α} {s s₁ s₂ : σ} (hp : Pass cmp w xs s ys s₁ k) (hk : 1 < k)
      (hs : Sorts (2 * w) ys s₁ zs s₂) : Sorts w xs s zs s₂

/-- Each of the runs of `w` elements satisfies `ok`; the last may be shorter. -/
inductive Runs (ok : List α → Prop) (w : ℕ) : List α → Prop
  | nil : Runs ok w []
  | cons {xs : List α} (hx : xs ≠ []) (hr : ok (xs.take w)) (ht : Runs ok w (xs.drop w)) : Runs ok w xs

variable {cmp} {xs ys zs : List α} {s s' : σ} {w k : ℕ}

/-! ### Permutations -/

theorem Merges.perm (h : Merges cmp xs ys s zs s') : zs.Perm (xs ++ ys) := by
  induction h with
  | nil_left ys s => exact List.Perm.refl _
  | nil_right xs s => rw [List.append_nil]
  | first h hm ih => exact ih.cons _
  | second h hm ih => exact (ih.cons _).trans List.perm_middle.symm

theorem Merges.of_nil_left (h : Merges cmp [] ys s zs s') : zs = ys ∧ s' = s := by
  cases h <;> exact ⟨rfl, rfl⟩

theorem Merges.of_nil_right (h : Merges cmp xs [] s zs s') : zs = xs ∧ s' = s := by
  cases h <;> exact ⟨rfl, rfl⟩

theorem take_append_take_drop (xs : List α) (w : ℕ) :
    xs.take w ++ (xs.drop w).take w ++ xs.drop (2 * w) = xs := by
  have h : xs.drop (2 * w) = (xs.drop w).drop w := by rw [List.drop_drop, Nat.two_mul]
  rw [h, List.append_assoc, List.take_append_drop, List.take_append_drop]

theorem Pass.perm (h : Pass cmp w xs s zs s' k) : zs.Perm xs := by
  induction h with
  | nil s => exact List.Perm.refl _
  | cons hx hm hp ih =>
    rename_i xs ms zs s s₁ s₂ k
    calc (ms ++ zs).Perm (xs.take w ++ (xs.drop w).take w ++ xs.drop (2 * w)) := hm.perm.append ih
      _ = xs := take_append_take_drop xs w

theorem Sorts.perm (h : Sorts cmp w xs s zs s') : zs.Perm xs := by
  induction h with
  | done hp hk => exact hp.perm
  | again hp hk hs ih => exact ih.trans hp.perm

/-! ### The number of merges of a pass -/

theorem Pass.eq_nil (h : Pass cmp w xs s zs s' 0) : xs = [] ∧ zs = [] := by
  cases h
  exact ⟨rfl, rfl⟩

/-- A pass with one merge goes over a list of at most two runs. -/
theorem Pass.length_le (h : Pass cmp w xs s zs s' k) (hk : k ≤ 1) : xs.length ≤ 2 * w := by
  cases h with
  | nil s => exact Nat.zero_le _
  | cons hx hm hp =>
    obtain rfl : _ = 0 := Nat.le_zero.1 (Nat.le_of_succ_le_succ hk)
    exact List.drop_eq_nil_iff.1 hp.eq_nil.1

/-- A pass with more than one merge goes over a list of more than two runs. -/
theorem Pass.lt_length (h : Pass cmp w xs s zs s' k) (hk : 1 < k) : 2 * w < xs.length := by
  cases h with
  | nil s => omega
  | cons hx hm hp =>
    by_contra hl
    rw [List.drop_eq_nil_of_le (not_lt.1 hl)] at hp
    cases hp with
    | nil => omega
    | cons hx => exact hx rfl

/-! ### What holds of every run -/

theorem Runs.one {ok : List α → Prop} (h : ∀ x, ok [x]) (xs : List α) : Runs ok 1 xs := by
  induction xs with
  | nil => exact Runs.nil
  | cons x xs ih => exact Runs.cons (List.cons_ne_nil x xs) (h x) ih

theorem Runs.mono {ok ok' : List α → Prop} (h : Runs ok w xs) (hk : ∀ r, ok r → ok' r) : Runs ok' w xs := by
  induction h with
  | nil => exact Runs.nil
  | cons hx hr ht ih => exact Runs.cons hx (hk _ hr) ih

theorem Runs.head {ok : List α → Prop} (h : Runs ok w xs) (hx : xs ≠ []) : ok (xs.take w) := by
  cases h with
  | nil => exact absurd rfl hx
  | cons hx hr ht => exact hr

theorem Runs.tail {ok : List α → Prop} (h : Runs ok w xs) : Runs ok w (xs.drop w) := by
  cases h with
  | nil => rw [List.drop_nil]; exact Runs.nil
  | cons hx hr ht => exact ht

/-- A list of at most one run is this run. -/
theorem Runs.whole {ok : List α → Prop} (h : Runs ok w xs) (hx : xs ≠ []) (hl : xs.length ≤ w) : ok xs := by
  have := h.head hx
  rwa [List.take_of_length_le hl] at this

/-- A property of runs that comparisons keep, and that a merge passes on from its runs to its result. -/
structure Kept (cmp : α → α → σ → Option (Bool × σ)) (ok : σ → List α → Prop) : Prop where
  keep : ∀ {xs ys zs r : List α} {s s' : σ}, Merges cmp xs ys s zs s' → ok s r → ok s' r
  merge : ∀ {xs ys zs : List α} {s s' : σ}, Merges cmp xs ys s zs s' → ok s xs → ys = [] ∨ ok s ys → ok s' zs

theorem Pass.keep {ok : σ → List α → Prop} {r : List α} (hok : Kept cmp ok) (h : Pass cmp w xs s zs s' k)
    (hr : ok s r) : ok s' r := by
  induction h with
  | nil s => exact hr
  | cons hx hm hp ih => exact ih (hok.keep hm hr)

/-- The result of a merge is as long as the two runs. -/
theorem Merges.length_eq (h : Merges cmp (xs.take w) ((xs.drop w).take w) s ys s') :
    ys.length = min (2 * w) xs.length := by
  have hl := h.perm.length_eq
  simp only [List.length_append, List.length_take, List.length_drop] at hl
  omega

/-- The result of a pass begins with the result of its first merge. -/
theorem Pass.split {ms : List α} {s₁ s₂ : σ} (hm : Merges cmp (xs.take w) ((xs.drop w).take w) s ms s₁)
    (hp : Pass cmp w (xs.drop (2 * w)) s₁ zs s₂ k) :
    (ms ++ zs).take (2 * w) = ms ∧ (ms ++ zs).drop (2 * w) = zs := by
  have hl := hm.length_eq
  rcases Nat.lt_or_ge xs.length (2 * w) with hx | hx
  · have hz : zs = [] := by
      rw [List.drop_eq_nil_of_le hx.le] at hp
      cases hp with
      | nil => rfl
      | cons hx => exact absurd rfl hx
    subst hz
    rw [List.append_nil]
    exact ⟨List.take_of_length_le (by omega), List.drop_eq_nil_of_le (by omega)⟩
  · have hl' : ms.length = 2 * w := by omega
    rw [← hl']
    exact ⟨List.take_left, List.drop_left⟩

/-- A pass doubles the runs that have the property. -/
theorem Pass.runs {ok : σ → List α → Prop} (hok : Kept cmp ok) (hw : 0 < w) (h : Pass cmp w xs s zs s' k)
    (hr : Runs (ok s) w xs) : Runs (ok s') (2 * w) zs := by
  induction h with
  | nil s => exact Runs.nil
  | cons hx hm hp ih =>
    rename_i xs ms zs s s₁ s₂ k
    obtain ⟨hfirst, hrest⟩ := Pass.split hm hp
    have hne : ms ++ zs ≠ [] := by
      have := (List.length_pos_iff.2 hx)
      have := hm.length_eq
      intro h0
      obtain ⟨rfl, -⟩ := List.append_eq_nil_iff.1 h0
      simp at this
      omega
    have hms : ok s₁ ms := by
      apply hok.merge hm (hr.head hx)
      rcases eq_or_ne (xs.drop w) [] with h0 | h0
      · exact Or.inl (by rw [h0, List.take_nil])
      · exact Or.inr (hr.tail.head h0)
    have ht : Runs (ok s₁) w (xs.drop (2 * w)) := by
      rw [Nat.two_mul, ← List.drop_drop]
      exact hr.tail.tail.mono fun r hr => hok.keep hm hr
    refine Runs.cons hne ?_ ?_
    · rw [hfirst]
      exact hp.keep hok hms
    · rw [hrest]
      exact ih ht

/-- After the last pass the whole list has the property. -/
theorem Sorts.whole {ok : σ → List α → Prop} (hok : Kept cmp ok) (hw : 0 < w) (h : Sorts cmp w xs s zs s')
    (hx : xs ≠ []) (hr : Runs (ok s) w xs) : ok s' zs := by
  induction h with
  | done hp hk =>
    refine (hp.runs hok hw hr).whole ?_ ?_
    · intro h0
      exact hx (List.perm_nil.1 (h0 ▸ hp.perm.symm))
    · exact hp.perm.length_eq ▸ hp.length_le hk
  | again hp hk hs ih =>
    apply ih (by omega)
    · intro h0
      exact hx (List.perm_nil.1 (h0 ▸ hp.perm.symm))
    · exact hp.runs hok hw hr

/-! ### What a comparison does to its elements -/

/-- A property of elements that a comparison gives to its two elements, and takes from none. -/
structure Marks (cmp : α → α → σ → Option (Bool × σ)) (mark : σ → α → Prop) : Prop where
  first : ∀ {x y : α} {s s' : σ} {b : Bool}, cmp x y s = some (b, s') → mark s' x
  second : ∀ {x y : α} {s s' : σ} {b : Bool}, cmp x y s = some (b, s') → mark s' y
  keep : ∀ {x y z : α} {s s' : σ} {b : Bool}, cmp x y s = some (b, s') → mark s z → mark s' z

variable {mark : σ → α → Prop}

theorem Merges.keep (hmark : Marks cmp mark) (h : Merges cmp xs ys s zs s') {z : α} (hz : mark s z) : mark s' z := by
  induction h with
  | nil_left ys s => exact hz
  | nil_right xs s => exact hz
  | first h hm ih => exact ih (hmark.keep h hz)
  | second h hm ih => exact ih (hmark.keep h hz)

/-- A merge of two runs compares the first element of each. -/
theorem Merges.marks (hmark : Marks cmp mark) {x y : α} (h : Merges cmp (x :: xs) (y :: ys) s zs s') :
    mark s' x ∧ mark s' y := by
  cases h with
  | first h hm => exact ⟨hm.keep hmark (hmark.first h), hm.keep hmark (hmark.second h)⟩
  | second h hm => exact ⟨hm.keep hmark (hmark.first h), hm.keep hmark (hmark.second h)⟩

/-- Every element of a run of two elements or more is marked. -/
def Marked (mark : σ → α → Prop) (s : σ) (xs : List α) : Prop :=
  2 ≤ xs.length → ∀ x ∈ xs, mark s x

theorem Marked.of_cons {x : α} (h : Marked mark s (x :: xs)) (hx : mark s x) : ∀ z ∈ x :: xs, mark s z := by
  cases xs with
  | nil =>
    intro z hz
    rw [List.mem_singleton.1 hz]
    exact hx
  | cons y xs => exact h (by simp)

theorem kept_marked (hmark : Marks cmp mark) : Kept cmp (Marked mark) where
  keep := by
    intro xs ys zs r s s' hm hr hl x hx
    exact hm.keep hmark (hr hl x hx)
  merge := by
    intro xs ys zs s s' hm hx hy hl z hz
    cases xs with
    | nil =>
      cases hm with
      | nil_left =>
        rcases hy with rfl | hy
        · simp at hl
        · exact hy hl z hz
      | nil_right => simp at hl
    | cons x xs =>
      cases ys with
      | nil =>
        cases hm with
        | nil_right => exact hx hl z hz
      | cons y ys =>
        obtain ⟨hmx, hmy⟩ := hm.marks hmark
        have hx' : Marked mark s' (x :: xs) := fun hl z hz => hm.keep hmark (hx hl z hz)
        have hy' : Marked mark s' (y :: ys) := fun hl z hz =>
          hm.keep hmark ((hy.resolve_left (List.cons_ne_nil y ys)) hl z hz)
        rcases List.mem_append.1 (hm.perm.mem_iff.1 hz) with hz | hz
        · exact hx'.of_cons hmx z hz
        · exact hy'.of_cons hmy z hz

/-- The sort compares every element of a list of two elements or more. -/
theorem Sorts.touched (hmark : Marks cmp mark) (h : Sorts cmp 1 xs s zs s') (hl : 2 ≤ xs.length) :
    ∀ x ∈ xs, mark s' x := by
  have hx : xs ≠ [] := List.ne_nil_of_length_pos (by omega)
  have := h.whole (kept_marked hmark) Nat.one_pos hx (Runs.one (fun x hl => absurd hl (by simp)) xs)
  intro x hxm
  exact this (h.perm.length_eq ▸ hl) x (h.perm.mem_iff.2 hxm)

/-! ### Comparisons that agree with an order -/

/-- The comparisons made on the way to a state with `agrees` agree with the order `le`. -/
structure Agrees (cmp : α → α → σ → Option (Bool × σ)) (le : α → α → Bool) (agrees : σ → Prop) : Prop where
  back : ∀ {x y : α} {s s' : σ} {b : Bool}, cmp x y s = some (b, s') → agrees s' → agrees s
  value : ∀ {x y : α} {s s' : σ} {b : Bool}, cmp x y s = some (b, s') → agrees s' → b = le x y
  total : ∀ x y, le x y || le y x
  trans : ∀ x y z, le x y → le y z → le x z

variable {le : α → α → Bool} {agrees : σ → Prop}

theorem Merges.back (ha : Agrees cmp le agrees) (h : Merges cmp xs ys s zs s') (hs : agrees s') : agrees s := by
  induction h with
  | nil_left ys s => exact hs
  | nil_right xs s => exact hs
  | first h hm ih => exact ha.back h (ih hs)
  | second h hm ih => exact ha.back h (ih hs)

theorem Pass.back (ha : Agrees cmp le agrees) (h : Pass cmp w xs s zs s' k) (hs : agrees s') : agrees s := by
  induction h with
  | nil s => exact hs
  | cons hx hm hp ih => exact hm.back ha (ih hs)

theorem Sorts.back (ha : Agrees cmp le agrees) (h : Sorts cmp w xs s zs s') (hs : agrees s') : agrees s := by
  induction h with
  | done hp hk => exact hp.back ha hs
  | again hp hk hs' ih => exact hp.back ha (ih hs)

/-- The order of two elements that the comparison does not put in order. -/
theorem Agrees.swap (ha : Agrees cmp le agrees) {x y : α} (h : le x y = false) : le y x := by
  have := ha.total x y
  rwa [h, Bool.false_or] at this

theorem Merges.pairwise (ha : Agrees cmp le agrees) (h : Merges cmp xs ys s zs s') (hs : agrees s')
    (hx : xs.Pairwise fun x y => le x y) (hy : ys.Pairwise fun x y => le x y) : zs.Pairwise fun x y => le x y := by
  induction h with
  | nil_left ys s => exact hy
  | nil_right xs s => exact hx
  | first h hm ih =>
    rename_i x y xs ys zs s s₁ s₂
    obtain ⟨hx₁, hx₂⟩ := List.pairwise_cons.1 hx
    have hxy : le x y = true := (ha.value h (hm.back ha hs)).symm
    refine List.pairwise_cons.2 ⟨?_, ih hs hx₂ hy⟩
    intro z hz
    rcases List.mem_append.1 (hm.perm.mem_iff.1 hz) with hz | hz
    · exact hx₁ z hz
    · rcases List.mem_cons.1 hz with rfl | hz
      · exact hxy
      · exact ha.trans x y z hxy ((List.pairwise_cons.1 hy).1 z hz)
  | second h hm ih =>
    rename_i x y xs ys zs s s₁ s₂
    obtain ⟨hy₁, hy₂⟩ := List.pairwise_cons.1 hy
    have hyx : le y x = true := ha.swap (ha.value h (hm.back ha hs)).symm
    refine List.pairwise_cons.2 ⟨?_, ih hs hx hy₂⟩
    intro z hz
    rcases List.mem_append.1 (hm.perm.mem_iff.1 hz) with hz | hz
    · rcases List.mem_cons.1 hz with rfl | hz
      · exact hyx
      · exact ha.trans y x z hyx ((List.pairwise_cons.1 hx).1 z hz)
    · exact hy₁ z hz

theorem kept_pairwise (ha : Agrees cmp le agrees) :
    Kept cmp fun s xs => agrees s → xs.Pairwise fun x y => le x y where
  keep := by
    intro xs ys zs r s s' hm hr hs
    exact hr (hm.back ha hs)
  merge := by
    intro xs ys zs s s' hm hx hy hs
    have hs' := hm.back ha hs
    refine hm.pairwise ha hs (hx hs') ?_
    rcases hy with rfl | hy
    · exact List.Pairwise.nil
    · exact hy hs'

/-- A merge does not change the order of elements that the order does not tell apart. -/
theorem Merges.filter (ha : Agrees cmp le agrees) {p : α → Bool} (hp : ∀ x y, p x → p y → le x y)
    (h : Merges cmp xs ys s zs s') (hs : agrees s') (hx : xs.Pairwise fun x y => le x y) :
    zs.filter p = xs.filter p ++ ys.filter p := by
  induction h with
  | nil_left ys s => rfl
  | nil_right xs s => rw [List.filter_nil, List.append_nil]
  | first h hm ih =>
    rename_i x y xs ys zs s s₁ s₂
    have hcons : (x :: xs).filter p = if p x then x :: xs.filter p else xs.filter p := List.filter_cons
    rw [List.filter_cons, ih hs (List.pairwise_cons.1 hx).2, hcons]
    split
    · rfl
    · rfl
  | second h hm ih =>
    rename_i x y xs ys zs s s₁ s₂
    have hxy : le x y = false := (ha.value h (hm.back ha hs)).symm
    have hcons : (y :: ys).filter p = if p y then y :: ys.filter p else ys.filter p := List.filter_cons
    rw [List.filter_cons, ih hs hx, hcons]
    split
    · -- an element of the first run that is not told apart from `y` would be at least `x`, hence `y` too
      rename_i hy
      have hnil : (x :: xs).filter p = [] := by
        rw [List.filter_eq_nil_iff]
        intro z hz hpz
        have hzy := hp z y hpz hy
        have hxz : le x z = true ∨ z = x := by
          rcases List.mem_cons.1 hz with rfl | hz
          · exact Or.inr rfl
          · exact Or.inl ((List.pairwise_cons.1 hx).1 z hz)
        rcases hxz with hxz | rfl
        · rw [ha.trans x z y hxz hzy] at hxy
          cases hxy
        · rw [hzy] at hxy
          cases hxy
      rw [hnil]
      rfl
    · rfl

theorem Pass.filter (ha : Agrees cmp le agrees) {p : α → Bool} (hp : ∀ x y, p x → p y → le x y)
    (h : Pass cmp w xs s zs s' k) (hs : agrees s') (hr : Runs (fun r => r.Pairwise fun x y => le x y) w xs) :
    zs.filter p = xs.filter p := by
  induction h with
  | nil s => rfl
  | cons hx hm hp' ih =>
    rename_i xs ms zs s s₁ s₂ k
    have ht : Runs (fun r => r.Pairwise fun x y => le x y) w (xs.drop (2 * w)) := by
      rw [Nat.two_mul, ← List.drop_drop]
      exact hr.tail.tail
    calc (ms ++ zs).filter p
        = (xs.take w).filter p ++ ((xs.drop w).take w).filter p ++ (xs.drop (2 * w)).filter p := by
          rw [List.filter_append, hm.filter ha hp (hp'.back ha hs) (hr.head hx), ih hs ht]
      _ = xs.filter p := by rw [← List.filter_append, ← List.filter_append, take_append_take_drop]

theorem Sorts.filter (ha : Agrees cmp le agrees) {p : α → Bool} (hp : ∀ x y, p x → p y → le x y) (hw : 0 < w)
    (h : Sorts cmp w xs s zs s') (hs : agrees s') (hr : Runs (fun r => r.Pairwise fun x y => le x y) w xs) :
    zs.filter p = xs.filter p := by
  induction h with
  | done hp' hk => exact hp'.filter ha hp hs hr
  | again hp' hk hs' ih =>
    have hs₁ := hs'.back ha hs
    rw [ih (by omega) hs, hp'.filter ha hp hs₁ hr]
    exact (hp'.runs (kept_pairwise ha) hw (hr.mono fun r hr _ => hr)).mono fun r hr => hr hs₁

/-! ### The stable sort -/

/-- A sorted list is determined by what it lists of each class of elements that the order does not tell apart. -/
theorem eq_of_filter_eq (total : ∀ x y, le x y || le y x) (trans : ∀ x y z, le x y → le y z → le x z)
    (hx : xs.Pairwise fun x y => le x y) (hy : ys.Pairwise fun x y => le x y)
    (h : ∀ p : α → Bool, (∀ x y, p x → p y → le x y) → xs.filter p = ys.filter p) : xs = ys := by
  have refl : ∀ x, le x x = true := fun x => by simpa using total x x
  -- the class of an element
  have hclass : ∀ a x y : α, (le a x && le x a) = true → (le a y && le y a) = true → le x y = true := by
    intro a x y hx hy
    rw [Bool.and_eq_true] at hx hy
    exact trans x a y hx.2 hy.1
  induction xs generalizing ys with
  | nil =>
    cases ys with
    | nil => rfl
    | cons y ys =>
      have := h _ (hclass y)
      simp [refl] at this
  | cons x xs ih =>
    cases ys with
    | nil =>
      have := h _ (hclass x)
      simp [refl] at this
    | cons y ys =>
      have hxy : le x y = true := by
        have hm : y ∈ (x :: xs).filter fun b => le y b && le b y := by
          rw [h _ (hclass y)]
          simp [refl]
        rcases List.mem_cons.1 (List.mem_filter.1 hm).1 with rfl | hm
        · exact refl y
        · exact (List.pairwise_cons.1 hx).1 y hm
      have hyx : le y x = true := by
        have hm : x ∈ (y :: ys).filter fun b => le x b && le b x := by
          rw [← h _ (hclass x)]
          simp [refl]
        rcases List.mem_cons.1 (List.mem_filter.1 hm).1 with rfl | hm
        · exact refl x
        · exact (List.pairwise_cons.1 hy).1 x hm
      have hhead : x = y := by
        have := h _ (hclass x)
        simp only [List.filter_cons, refl, hxy, hyx, Bool.and_self, if_true, List.cons.injEq] at this
        exact this.1
      subst hhead
      congr 1
      apply ih (List.pairwise_cons.1 hx).2 (List.pairwise_cons.1 hy).2
      intro p hp
      have := h p hp
      simp only [List.filter_cons] at this
      split at this
      · exact (List.cons.inj this).2
      · exact this

theorem filter_mergeSort (total : ∀ x y, le x y || le y x) (trans : ∀ x y z, le x y → le y z → le x z)
    {p : α → Bool} (hp : ∀ x y, p x → p y → le x y) (xs : List α) :
    (xs.mergeSort le).filter p = xs.filter p := by
  have hpair : (xs.filter p).Pairwise fun x y => le x y := by
    apply List.pairwise_of_forall_mem_list
    intro x hx y hy
    exact hp x y (List.mem_filter.1 hx).2 (List.mem_filter.1 hy).2
  have hsub := (List.sublist_mergeSort trans total hpair List.filter_sublist).filter p
  rw [List.filter_filter] at hsub
  simp only [Bool.and_self] at hsub
  exact (hsub.eq_of_length ((List.mergeSort_perm xs le).filter p).length_eq.symm).symm

/-- When the comparisons agree with an order, the sort is the stable sort by this order. -/
theorem Sorts.eq_mergeSort (ha : Agrees cmp le agrees) (h : Sorts cmp 1 xs s zs s') (hs : agrees s') :
    zs = xs.mergeSort le := by
  apply eq_of_filter_eq ha.total ha.trans
  · rcases eq_or_ne xs [] with rfl | hx
    · rw [List.perm_nil.1 h.perm]
      exact List.Pairwise.nil
    · exact h.whole (kept_pairwise ha) Nat.one_pos hx (Runs.one (fun x _ => List.pairwise_singleton _ x) xs) hs
  · exact List.pairwise_mergeSort ha.trans ha.total xs
  · intro p hp
    rw [filter_mergeSort ha.total ha.trans hp]
    exact h.filter ha hp Nat.one_pos hs (Runs.one (fun x => List.pairwise_singleton _ x) xs)

end EffectSort
