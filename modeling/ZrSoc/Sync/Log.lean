import ZrSoc.Sync.Run
import Mathlib.Data.List.Basic
import Mathlib.Data.List.Forall2
import Mathlib.Data.Nat.Count

/-!
# Event logs

`log f n` lists the events of the cycles before `n`, in order, when `f m` is the event of cycle `m` (if there is
one).  The conservation rule `log_eq_log_append` is the one behind every statement that nothing is lost or
duplicated: if each cycle moves events through a buffer in order, what went in is what came out followed by what the
buffer still holds.
-/

namespace Sync

variable {ε δ : Type*}

/-- The events of the cycles before `n`, in order. -/
def log (f : ℕ → Option ε) : ℕ → List ε
  | 0 => []
  | n + 1 => log f n ++ (f n).toList

@[simp] theorem log_zero (f : ℕ → Option ε) : log f 0 = [] := rfl

theorem log_succ (f : ℕ → Option ε) (n : ℕ) : log f (n + 1) = log f n ++ (f n).toList := rfl

theorem log_congr {f g : ℕ → Option ε} {n : ℕ} (h : ∀ m < n, f m = g m) : log f n = log g n := by
  induction n with
  | zero => rfl
  | succ n ih => rw [log_succ, log_succ, ih fun m hm => h m (by omega), h n (by omega)]

theorem mem_log {f : ℕ → Option ε} {n : ℕ} {x : ε} : x ∈ log f n ↔ ∃ m < n, f m = some x := by
  induction n with
  | zero => simp
  | succ n ih =>
    simp only [log_succ, List.mem_append, ih, Option.mem_toList, Nat.lt_succ_iff_lt_or_eq, or_and_right,
      exists_or, exists_eq_left]

theorem map_log (g : ε → δ) (f : ℕ → Option ε) (n : ℕ) :
    (log f n).map g = log (fun m => (f m).map g) n := by
  induction n with
  | zero => rfl
  | succ n ih => cases h : f n <;> simp [log_succ, ih, h]

theorem filterMap_log (g : ε → Option δ) (f : ℕ → Option ε) (n : ℕ) :
    (log f n).filterMap g = log (fun m => (f m).bind g) n := by
  induction n with
  | zero => rfl
  | succ n ih =>
    cases h : f n with
    | none => simp [log_succ, ih, h]
    | some x => cases hx : g x <;> simp [log_succ, ih, h, hx]

theorem filter_log (p : ε → Bool) (f : ℕ → Option ε) (n : ℕ) :
    (log f n).filter p = log (fun m => (f m).filter p) n := by
  induction n with
  | zero => rfl
  | succ n ih =>
    cases h : f n with
    | none => simp [log_succ, ih, h]
    | some x => cases hx : p x <;> simp [log_succ, ih, h, hx, Option.filter]

/-- A log only grows, at its end. -/
theorem log_mono (f : ℕ → Option ε) {m n : ℕ} (h : m ≤ n) : log f m <+: log f n := by
  induction n, h using Nat.le_induction with
  | base => exact List.prefix_rfl
  | succ n _ ih => exact ih.trans (List.prefix_append _ _)

theorem length_log_le (f : ℕ → Option ε) {m n : ℕ} (h : m ≤ n) : (log f m).length ≤ (log f n).length :=
  (log_mono f h).length_le

theorem length_log (f : ℕ → Option ε) (n : ℕ) : (log f n).length = Nat.count (fun m => (f m).isSome = true) n := by
  induction n with
  | zero => rfl
  | succ n ih => cases h : f n <;> simp [log_succ, Nat.count_succ, ih, h]

theorem getElem?_log_mono {f : ℕ → Option ε} {m n k : ℕ} {x : ε} (hmn : m ≤ n) (h : (log f m)[k]? = some x) :
    (log f n)[k]? = some x := by
  obtain ⟨t, ht⟩ := log_mono f hmn
  rw [← ht, List.getElem?_append_left (List.getElem?_eq_some_iff.1 h).1, h]

/-- The event of cycle `n` has in the log the number of the events before it. -/
theorem getElem?_log {f : ℕ → Option ε} {m n : ℕ} {x : ε} (h : f n = some x) (hm : n < m) :
    (log f m)[(log f n).length]? = some x := by
  refine getElem?_log_mono hm ?_
  rw [log_succ, h, List.getElem?_append_right le_rfl, Nat.sub_self]
  rfl

/-- The event with number `k` happened in a cycle before which there were `k` events. -/
theorem exists_of_getElem?_log {f : ℕ → Option ε} {m k : ℕ} {x : ε} (h : (log f m)[k]? = some x) :
    ∃ n < m, f n = some x ∧ (log f n).length = k := by
  induction m with
  | zero => simp at h
  | succ m ih =>
    rw [log_succ] at h
    rcases lt_or_ge k (log f m).length with hk | hk
    · rw [List.getElem?_append_left hk] at h
      obtain ⟨n, hn, hx⟩ := ih h
      exact ⟨n, by omega, hx⟩
    · rw [List.getElem?_append_right hk] at h
      cases hf : f m with
      | none => simp [hf] at h
      | some y =>
        rw [hf, Option.toList_some] at h
        obtain ⟨hk', hy⟩ := List.getElem?_eq_some_iff.1 h
        rw [List.length_singleton] at hk'
        exact ⟨m, by omega, by rw [hf, ← hy]; simp, by omega⟩

/-- A log that stays shorter than `b` stops growing. -/
theorem exists_quiet {f : ℕ → Option ε} {b : ℕ} (hb : ∀ m, (log f m).length < b) (n : ℕ) :
    ∃ k, n ≤ k ∧ ∀ m, k ≤ m → f m = none := by
  by_contra hno
  push Not at hno
  have hgrow : ∀ c, ∃ m, n ≤ m ∧ c ≤ (log f m).length := by
    intro c
    induction c with
    | zero => exact ⟨n, le_rfl, Nat.zero_le _⟩
    | succ c ih =>
      obtain ⟨m, hnm, hc⟩ := ih
      obtain ⟨k, hmk, hk⟩ := hno m hnm
      obtain ⟨x, hx⟩ := Option.ne_none_iff_exists'.1 hk
      have := length_log_le f hmk
      refine ⟨k + 1, by omega, ?_⟩
      rw [log_succ, hx, List.length_append, Option.toList_some, List.length_singleton]
      omega
  obtain ⟨m, -, hm⟩ := hgrow b
  exact absurd (hb m) (by omega)

/-- Leaving events out shortens the log: the logs agree only if no event was left out. -/
theorem log_eq_iff {f g : ℕ → Option ε} (hgf : ∀ m, g m = none ∨ g m = f m) (n : ℕ) :
    log f n = log g n ↔ ∀ m < n, f m = g m := by
  refine ⟨fun h => ?_, log_congr⟩
  have hle : ∀ k, (log g k).length ≤ (log f k).length := by
    intro k
    induction k with
    | zero => simp
    | succ k ih =>
      rcases hgf k with hk | hk <;> simp only [log_succ, List.length_append, hk]
      · simp only [Option.toList_none, List.length_nil]; omega
      · omega
  induction n with
  | zero => intro m hm; omega
  | succ n ih =>
    -- the last event decides: a missing one would leave `log g` shorter for good
    have hn : f n = g n := by
      rcases hgf n with hk | hk
      · have hlen := congrArg List.length h
        have := hle n
        simp only [log_succ, List.length_append, hk, Option.toList_none, List.length_nil] at hlen
        cases hf : f n with
        | none => rw [hk]
        | some x => simp only [hf, Option.toList_some, List.length_singleton] at hlen; omega
      · exact hk.symm
    rw [log_succ, log_succ, hn] at h
    intro m hm
    rcases Nat.lt_succ_iff_lt_or_eq.1 hm with hm | rfl
    · exact ih (List.append_cancel_right h) m hm
    · exact hn

/-- Logs of events that are related in every cycle. -/
theorem forall₂_log {R : ε → δ → Prop} {f : ℕ → Option ε} {g : ℕ → Option δ} (h : ∀ m, Option.Rel R (f m) (g m))
    (n : ℕ) : List.Forall₂ R (log f n) (log g n) := by
  induction n with
  | zero => exact List.Forall₂.nil
  | succ n ih =>
    rw [log_succ, log_succ]
    have hn := h n
    revert hn
    generalize f n = x
    generalize g n = y
    intro hn
    cases hn with
    | some hr => exact List.rel_append ih (List.Forall₂.cons hr List.Forall₂.nil)
    | none => simpa using ih

/-- Conservation: if every cycle appends its `f`-event to a buffer and removes its `g`-event from the front, then
what went in is what came out followed by what the buffer holds. -/
theorem log_eq_log_append {f g : ℕ → Option ε} {b : ℕ → List ε} (h0 : b 0 = [])
    (hs : ∀ m, b m ++ (f m).toList = (g m).toList ++ b (m + 1)) (n : ℕ) :
    log f n = log g n ++ b n := by
  induction n with
  | zero => simp [h0]
  | succ n ih => rw [log_succ, log_succ, ih, List.append_assoc, hs n, List.append_assoc]

/-- What went in comes out if there is always an event at the output again while the buffer is not empty. -/
theorem exists_delivered {f g : ℕ → Option ε} {b : ℕ → List ε} {c : ℕ} (hb : ∀ n, log f n = log g n ++ b n)
    (hg : ∀ n, c ≤ n → b n ≠ [] → ∃ m, n ≤ m ∧ g m ≠ none) (n : ℕ) : ∃ m, log f n <+: log g m := by
  have hlen : ∀ k ≤ (log f n).length, ∃ m, n ≤ m ∧ c ≤ m ∧ k ≤ (log g m).length := by
    intro k
    induction k with
    | zero => exact fun _ => ⟨max n c, le_max_left n c, le_max_right n c, Nat.zero_le _⟩
    | succ k ih =>
      intro hk
      obtain ⟨m, hnm, hcm, hkm⟩ := ih (by omega)
      by_cases hlt : k + 1 ≤ (log g m).length
      · exact ⟨m, hnm, hcm, hlt⟩
      · have hne : b m ≠ [] := by
          intro hnil
          have heq := hb m
          have hmono := length_log_le f hnm
          rw [hnil, List.append_nil] at heq
          rw [heq] at hmono
          omega
        obtain ⟨m', hmm', hm'⟩ := hg m hcm hne
        have hsucc : (log g (m' + 1)).length = (log g m').length + 1 := by
          rw [log_succ, List.length_append, Option.length_toList, if_pos (Option.isSome_iff_ne_none.2 hm')]
        have hmono := length_log_le g hmm'
        exact ⟨m' + 1, by omega, by omega, by omega⟩
  obtain ⟨m, hnm, -, hm⟩ := hlen _ le_rfl
  exact ⟨m, List.prefix_of_prefix_length_le (log_mono f hnm) ⟨b m, (hb m).symm⟩ hm⟩

/-- The log of what happens `k` cycles later. -/
theorem log_delay {f : ℕ → Option ε} (h0 : f 0 = none) (k n : ℕ) : log (fun m => f (m - k)) n = log f (n - k) := by
  induction n with
  | zero => rw [Nat.zero_sub]; rfl
  | succ n ih =>
    rw [log_succ, ih]
    rcases Nat.lt_or_ge n k with hn | hn
    · rw [Nat.sub_eq_zero_of_le hn.le, Nat.sub_eq_zero_of_le hn, h0]
      rfl
    · rw [Nat.sub_add_comm hn, log_succ]

/-- The events of the cycle before. -/
def late (f : ℕ → Option ε) : ℕ → Option ε
  | 0 => none
  | n + 1 => f n

theorem log_late (f : ℕ → Option ε) (n : ℕ) : log (late f) (n + 1) = log f n := by
  induction n with
  | zero => rfl
  | succ n ih => rw [log_succ, ih, log_succ]; rfl

end Sync
