import Mathlib.Data.List.GetD
import Mathlib.Tactic.Push

/-!
# Frames on a line

A frame is a list of bits, each of which stays on the line for `d` clocks; `sent n` is the frame that begins in cycle
`n`, if there is one.  A line that carries such a sequence of frames is high between them.
-/

namespace SerialLine

/-- The line carries the frames `sent`, one after the other, with bits of `d` clocks. -/
structure Carries (d : ℕ) (sent : ℕ → Option (List Bool)) (line : ℕ → Bool) : Prop where
  spaced : ∀ m n f g, sent m = some f → sent n = some g → m < n → m + f.length * d ≤ n
  bits : ∀ m f, sent m = some f → ∀ k r, k < f.length → r < d → line (m + (k * d + r)) = f.getD k true
  idle : ∀ n, (∀ m f, sent m = some f → m ≤ n → m + f.length * d ≤ n) → line n = true

variable {d : ℕ} {sent : ℕ → Option (List Bool)} {line : ℕ → Bool} {m n k : ℕ} {f g : List Bool}

theorem Carries.bit_at (h : Carries d sent line) (hm : sent m = some f) (hk : k < f.length) (hle : m + k * d ≤ n)
    (hlt : n < m + (k + 1) * d) : line n = f.getD k true := by
  have hmul : (k + 1) * d = k * d + d := Nat.succ_mul k d
  have hn : n = m + (k * d + (n - m - k * d)) := by omega
  rw [hn]
  exact h.bits m f hm k _ hk (by omega)

theorem Carries.level (h : Carries d sent line) (hm : sent m = some f) (hle : m ≤ n) (hlt : n < m + f.length * d) :
    line n = f.getD ((n - m) / d) true := by
  have hd : 0 < d := by
    rcases Nat.eq_zero_or_pos d with rfl | hd
    · omega
    · exact hd
  have hdm := Nat.div_add_mod (n - m) d
  have hmod := Nat.mod_lt (n - m) hd
  have hk : (n - m) / d < f.length := (Nat.div_lt_iff_lt_mul hd).2 (by omega)
  rw [Nat.mul_comm] at hdm
  exact h.bit_at hm hk (by omega) (by rw [Nat.succ_mul]; omega)

/-- The line is high where each earlier frame is over or has come to a last bit that is high. -/
theorem Carries.high (h : Carries d sent line)
    (hover : ∀ m f, sent m = some f → m ≤ n →
      m + f.length * d ≤ n ∨ m + (f.length - 1) * d ≤ n ∧ f.getD (f.length - 1) true = true) : line n = true := by
  by_cases hall : ∀ m f, sent m = some f → m ≤ n → m + f.length * d ≤ n
  · exact h.idle n hall
  · push Not at hall
    obtain ⟨m, f, hm, hmn, hlt⟩ := hall
    rcases hover m f hm hmn with hle | ⟨hle, hlast⟩
    · omega
    · have hpos : 0 < f.length := by
        rcases Nat.eq_zero_or_pos f.length with h0 | h0
        · rw [h0] at hlt
          omega
        · exact h0
      have hsucc : f.length - 1 + 1 = f.length := by omega
      rw [h.bit_at hm (by omega) hle (by rw [hsucc]; omega), hlast]

/-! ### Lines whose frames are given by what they carry -/

section

variable {α : Type*} {g : α → List Bool} {sent : ℕ → Option α} {a b : α}

theorem map_eq_some (hm : sent m = some a) : (sent m).map g = some (g a) := by
  rw [hm]
  rfl

theorem Carries.map_bit_at (h : Carries d (fun n => (sent n).map g) line) (hm : sent m = some a)
    (hk : k < (g a).length) (hle : m + k * d ≤ n) (hlt : n < m + (k + 1) * d) : line n = (g a).getD k true :=
  h.bit_at (map_eq_some hm) hk hle hlt

theorem Carries.map_level (h : Carries d (fun n => (sent n).map g) line) (hm : sent m = some a) (hle : m ≤ n)
    (hlt : n < m + (g a).length * d) : line n = (g a).getD ((n - m) / d) true :=
  h.level (map_eq_some hm) hle hlt

theorem Carries.map_spaced (h : Carries d (fun n => (sent n).map g) line) (hm : sent m = some a)
    (hn : sent n = some b) (hlt : m < n) : m + (g a).length * d ≤ n :=
  h.spaced m n _ _ (map_eq_some hm) (map_eq_some hn) hlt

end

/-- What begins in cycle `t`, and nothing else. -/
def single {α : Type*} (t : ℕ) (a : α) (n : ℕ) : Option α := if n = t then some a else none

theorem map_single {α β : Type*} (g : α → β) (t : ℕ) (a : α) : (single t a n).map g = single t (g a) n := by
  unfold single
  split <;> rfl

theorem eq_of_single {α : Type*} {t : ℕ} {a b : α} (h : single t a n = some b) : n = t ∧ b = a := by
  unfold single at h
  split at h
  next heq => exact ⟨heq, (Option.some.inj h).symm⟩
  next => simp at h

def singleLine (d t : ℕ) (f : List Bool) (n : ℕ) : Bool := if n < t then true else f.getD ((n - t) / d) true

theorem carries_single (hd : 0 < d) (t : ℕ) (f : List Bool) : Carries d (single t f) (singleLine d t f) := by
  refine ⟨?_, ?_, ?_⟩
  · intro m n f' g hm hn hlt
    have h1 := (eq_of_single hm).1
    have h2 := (eq_of_single hn).1
    omega
  · intro m g hm k r hk hr
    obtain ⟨rfl, rfl⟩ := eq_of_single hm
    have hdiv : (m + (k * d + r) - m) / d = k := by
      rw [Nat.add_sub_cancel_left, Nat.mul_comm, Nat.mul_add_div (by omega), Nat.div_eq_of_lt hr, Nat.add_zero]
    rw [singleLine, if_neg (by omega), hdiv]
  · intro n hn
    unfold singleLine
    split
    next => rfl
    next hle =>
      have hend := hn t f (by simp [single]) (by omega)
      exact List.getD_eq_default _ _ ((Nat.le_div_iff_mul_le hd).2 (by omega))

/-- What begins in cycle `u`, after what was sent before. -/
def followed {α : Type*} (sent : ℕ → Option α) (u : ℕ) (a : α) (n : ℕ) : Option α :=
  if n = u then some a else sent n

theorem map_followed {α β : Type*} (g : α → β) (sent : ℕ → Option α) (u : ℕ) (a : α) :
    (followed sent u a n).map g = followed (fun m => (sent m).map g) u (g a) n := by
  unfold followed
  split <;> rfl

def followedLine (d : ℕ) (line : ℕ → Bool) (u : ℕ) (f : List Bool) (n : ℕ) : Bool :=
  if n < u then line n else singleLine d u f n

/-- A frame may begin as soon as the frames before it are over. -/
theorem Carries.followed (hd : 0 < d) (h : Carries d sent line) {u : ℕ}
    (hover : ∀ m f, sent m = some f → m < u ∧ m + f.length * d ≤ u) (f : List Bool) :
    Carries d (followed sent u f) (followedLine d line u f) := by
  have hlast := carries_single hd u f
  have hsingle : single u f u = some f := if_pos rfl
  have hcases {m : ℕ} {g : List Bool} (hm : SerialLine.followed sent u f m = some g) :
      m = u ∧ g = f ∨ m < u ∧ sent m = some g := by
    unfold SerialLine.followed at hm
    split at hm
    next heq => exact .inl ⟨heq, (Option.some.inj hm).symm⟩
    next => exact .inr ⟨(hover m g hm).1, hm⟩
  refine ⟨?_, ?_, ?_⟩
  · intro m n g g' hm hn hlt
    rcases hcases hm with ⟨rfl, rfl⟩ | ⟨hmu, hm'⟩ <;> rcases hcases hn with ⟨rfl, rfl⟩ | ⟨hnu, hn'⟩
    · omega
    · omega
    · exact (hover m g hm').2
    · exact h.spaced m n g g' hm' hn' hlt
  · intro m g hm k r hk hr
    unfold followedLine
    rcases hcases hm with ⟨rfl, rfl⟩ | ⟨hmu, hm'⟩
    · rw [if_neg (by omega)]
      exact hlast.bits m g hsingle k r hk hr
    · have hle := (hover m g hm').2
      have hmul : (k + 1) * d ≤ g.length * d := Nat.mul_le_mul_right d hk
      rw [Nat.succ_mul] at hmul
      rw [if_pos (by omega)]
      exact h.bits m g hm' k r hk hr
  · intro n hn
    unfold followedLine
    split
    next hlt =>
      refine h.idle n fun m g hm hmn => hn m g ?_ hmn
      rw [SerialLine.followed, if_neg (by omega), hm]
    next hge =>
      refine hlast.idle n fun m g hm hmn => ?_
      obtain ⟨rfl, rfl⟩ := eq_of_single hm
      exact hn m g (if_pos rfl) hmn

end SerialLine
