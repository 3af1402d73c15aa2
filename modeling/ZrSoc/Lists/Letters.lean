import Mathlib.Computability.DFA

/-!
# Languages that are read letter by letter

`letters p` holds the words of one letter with the property `p`.  For products of such languages and of their stars, a
lemma says what remains of a word behind its first letter.  To find the language that a machine accepts, it is enough to
say for each state which language remains to be read in it (`mem_acceptsFrom_iff`).
-/

namespace Letters

open scoped Computability

variable {α σ : Type*} {L : Language α} {p : α → Prop} {a : α} {x : List α}

/-- The words of one letter with the property `p`. -/
def letters (p : α → Prop) : Language α := {x | ∃ a, p a ∧ x = [a]}

@[simp] theorem nil_mem_letters_mul : [] ∈ letters p * L ↔ False := by
  rw [iff_false, Language.mem_mul]
  rintro ⟨x, ⟨a, -, rfl⟩, y, -, h⟩
  cases h

@[simp] theorem cons_mem_letters_mul : a :: x ∈ letters p * L ↔ p a ∧ x ∈ L := by
  rw [Language.mem_mul]
  constructor
  · rintro ⟨y, ⟨b, hb, rfl⟩, z, hz, h⟩
    cases h
    exact ⟨hb, hz⟩
  · rintro ⟨ha, hx⟩
    exact ⟨[a], ⟨a, ha, rfl⟩, x, hx, rfl⟩

theorem star_mul_eq (p : α → Prop) (L : Language α) :
    (letters p)∗ * L = L + letters p * ((letters p)∗ * L) := by
  conv_lhs => rw [← Language.one_add_self_mul_kstar_eq_kstar]
  rw [add_mul, one_mul, mul_assoc]

@[simp] theorem nil_mem_star_mul : [] ∈ (letters p)∗ * L ↔ [] ∈ L := by
  rw [star_mul_eq, Language.mem_add, nil_mem_letters_mul, or_false]

@[simp] theorem cons_mem_star_mul : a :: x ∈ (letters p)∗ * L ↔ a :: x ∈ L ∨ p a ∧ x ∈ (letters p)∗ * L := by
  conv_lhs => rw [star_mul_eq, Language.mem_add, cons_mem_letters_mul]

@[simp] theorem nil_mem_star : [] ∈ (letters p)∗ := Language.nil_mem_kstar _

@[simp] theorem cons_mem_star : a :: x ∈ (letters p)∗ ↔ p a ∧ x ∈ (letters p)∗ := by
  conv_lhs => rw [← mul_one (letters p)∗, cons_mem_star_mul, mul_one]
  simp [Language.mem_one]

/-- The words of `L` and the empty word. -/
def optional (L : Language α) : Language α := 1 + L

@[simp] theorem mem_optional_mul {L' : Language α} : x ∈ optional L' * L ↔ x ∈ L ∨ x ∈ L' * L := by
  rw [optional, add_mul, one_mul, Language.mem_add]

/-- A machine accepts from each state what remains to be read there. -/
theorem mem_acceptsFrom_iff {M : DFA α σ} (remains : σ → Language α) (nil : ∀ s, [] ∈ remains s ↔ s ∈ M.accept)
    (cons : ∀ s a x, a :: x ∈ remains s ↔ x ∈ remains (M.step s a)) (s : σ) :
    x ∈ M.acceptsFrom s ↔ x ∈ remains s := by
  induction x generalizing s with
  | nil => exact (nil s).symm
  | cons a x ih =>
    rw [cons, ← ih]
    rfl

end Letters
