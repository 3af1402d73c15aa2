import Mathlib.Data.List.Nodup
import Mathlib.Data.Option.Basic
import Mathlib.Logic.Function.Basic

/-!
# Singly linked lists

A memory of linked cells is a function `next` from a cell to the link stored in it.  `Seg next p xs q` says that the
links lead from `p` through the cells of `xs` to `q`; with `q = none` the cells are the whole list that starts at `p`.
`Built next list xs tail` describes a list under construction: it starts at `list`, its last cell is `tail`, and what
the last cell links to is left open.  A write to a cell outside of a segment does not touch it (`Seg.update`), and the
cells of a list are determined by its start (`Seg.unique`).
-/

namespace Linked

variable {P : Type*} {next next' : P → Option P} {p q r : Option P} {x : P} {xs ys : List P}

/-- From `p`, the links lead through the cells of `xs` to `q`. -/
def Seg (next : P → Option P) : Option P → List P → Option P → Prop
  | p, [], q => p = q
  | p, x :: xs, q => p = some x ∧ Seg next (next x) xs q

@[simp] theorem seg_nil : Seg next p [] q ↔ p = q := Iff.rfl

@[simp] theorem seg_cons : Seg next p (x :: xs) q ↔ p = some x ∧ Seg next (next x) xs q := Iff.rfl

theorem seg_append : Seg next p (xs ++ ys) q ↔ ∃ r, Seg next p xs r ∧ Seg next r ys q := by
  induction xs generalizing p with
  | nil => simp
  | cons x xs ih => simp [ih, and_assoc]

theorem Seg.append (h : Seg next p xs r) (h' : Seg next r ys q) : Seg next p (xs ++ ys) q :=
  seg_append.2 ⟨r, h, h'⟩

/-- A segment depends on the links of its own cells only. -/
theorem Seg.congr (h : Seg next p xs q) (hn : ∀ x ∈ xs, next' x = next x) : Seg next' p xs q := by
  induction xs generalizing p with
  | nil => exact h
  | cons x xs ih =>
    obtain ⟨hp, ht⟩ := h
    refine ⟨hp, ?_⟩
    rw [hn x List.mem_cons_self]
    exact ih ht fun y hy => hn y (List.mem_cons_of_mem x hy)

/-- A write to a cell outside of a segment. -/
theorem Seg.update [DecidableEq P] {c : P} {v : Option P} (h : Seg next p xs q) (hc : c ∉ xs) :
    Seg (Function.update next c v) p xs q := by
  apply h.congr
  intro y hy
  apply Function.update_of_ne
  rintro rfl
  exact hc hy

theorem Seg.nil_of_none (h : Seg next none xs q) : xs = [] := by
  cases xs with
  | nil => rfl
  | cons x xs => cases h.1

theorem Seg.exists_cons (h : Seg next (some x) xs none) : ∃ ys, xs = x :: ys ∧ Seg next (next x) ys none := by
  cases xs with
  | nil => cases h
  | cons y ys =>
    obtain ⟨hp, ht⟩ := h
    cases hp
    exact ⟨ys, rfl, ht⟩

theorem Seg.isSome_iff (h : Seg next p xs none) : p.isSome ↔ xs ≠ [] := by
  cases xs with
  | nil => simp [seg_nil.1 h]
  | cons x xs => simp [h.1]

/-- The start of a list determines its cells. -/
theorem Seg.unique (h : Seg next p xs none) (h' : Seg next p ys none) : xs = ys := by
  induction xs generalizing p ys with
  | nil =>
    rw [seg_nil.1 h] at h'
    exact h'.nil_of_none.symm
  | cons x xs ih =>
    obtain ⟨rfl, ht⟩ := h
    obtain ⟨zs, rfl, hz⟩ := h'.exists_cons
    rw [ih ht hz]

/-- From each of its cells, a list leads to its end. -/
theorem Seg.of_mem (h : Seg next p xs none) (hx : x ∈ xs) :
    ∃ ys, Seg next (some x) ys none ∧ ys.length ≤ xs.length := by
  obtain ⟨as, bs, rfl⟩ := List.append_of_mem hx
  obtain ⟨r, -, rfl, hr⟩ := seg_append.1 h
  exact ⟨x :: bs, ⟨rfl, hr⟩, by simp⟩

/-- No cell is on a list twice. -/
theorem Seg.nodup (h : Seg next p xs none) : xs.Nodup := by
  induction xs generalizing p with
  | nil => exact List.nodup_nil
  | cons x xs ih =>
    refine List.nodup_cons.2 ⟨?_, ih h.2⟩
    intro hx
    -- the rest of the list behind the second visit would be the rest of the list behind the first
    obtain ⟨as, bs, rfl⟩ := List.append_of_mem hx
    obtain ⟨r, -, rfl, hr⟩ := seg_append.1 h.2
    have := congrArg List.length (Seg.unique h.2 hr)
    simp at this
    omega

/-- Two memories with the same list have the same links in its cells. -/
theorem Seg.next_eq (h : Seg next p xs q) (h' : Seg next' p xs q) : ∀ x ∈ xs, next x = next' x := by
  induction xs generalizing p with
  | nil => intro x hx; cases hx
  | cons y ys ih =>
    obtain ⟨rfl, ht⟩ := h
    obtain ⟨-, ht'⟩ := h'
    have hy : next y = next' y := by
      cases ys with
      | nil => rw [seg_nil.1 ht, seg_nil.1 ht']
      | cons z zs => rw [ht.1, ht'.1]
    intro x hx
    rcases List.mem_cons.1 hx with rfl | hx
    · exact hy
    · exact ih ht (hy ▸ ht') x hx

/-! ### Lists under construction -/

/-- A list under construction: it starts at `list`, its cells are `xs`, and the last of them is `tail`. -/
def Built (next : P → Option P) (list : Option P) (xs : List P) (tail : Option P) : Prop :=
  (xs = [] ∧ list = none ∧ tail = none) ∨
    ∃ ys t, xs = ys ++ [t] ∧ tail = some t ∧ Seg next list ys (some t)

variable {list tail : Option P}

theorem Built.nil : Built next none [] none := Or.inl ⟨rfl, rfl, rfl⟩

/-- The cell `e` is linked behind the last cell. -/
theorem Built.push [DecidableEq P] {t e : P} (h : Built next list xs (some t)) (hx : xs.Nodup) :
    Built (Function.update next t (some e)) list (xs ++ [e]) (some e) := by
  rcases h with ⟨-, -, h⟩ | ⟨ys, t', rfl, ht, hs⟩
  · cases h
  · cases ht
    refine Or.inr ⟨ys ++ [t], e, rfl, rfl, ?_⟩
    have hy : t ∉ ys := fun hm => (List.disjoint_of_nodup_append hx) hm (List.mem_singleton_self t)
    exact (hs.update hy).append ⟨rfl, by simp⟩

/-- The first cell of a list. -/
theorem Built.first {e : P} (h : Built next list xs none) : xs = [] ∧ Built next (some e) [e] (some e) := by
  rcases h with ⟨rfl, -, -⟩ | ⟨ys, t, -, h, -⟩
  · exact ⟨rfl, Or.inr ⟨[], e, rfl, rfl, rfl⟩⟩
  · cases h

/-- The last cell is made to link to nothing. -/
theorem Built.close [DecidableEq P] {t : P} (h : Built next list xs (some t)) (hx : xs.Nodup) :
    Seg (Function.update next t none) list xs none := by
  rcases h with ⟨-, -, h⟩ | ⟨ys, t', rfl, ht, hs⟩
  · cases h
  · cases ht
    have hy : t ∉ ys := fun hm => (List.disjoint_of_nodup_append hx) hm (List.mem_singleton_self t)
    exact (hs.update hy).append ⟨rfl, by simp⟩

theorem Built.mem_of_tail {t : P} (h : Built next list xs (some t)) : t ∈ xs := by
  rcases h with ⟨-, -, h⟩ | ⟨ys, t', rfl, ht, hs⟩
  · cases h
  · cases ht
    simp

end Linked
