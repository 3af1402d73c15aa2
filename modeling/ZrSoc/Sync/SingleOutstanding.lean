import ZrSoc.Sync.Log
import Mathlib.Data.Nat.Count

/-!
# One outstanding transaction on a bus with several slaves

`grant n` is the slave that accepts a transaction in cycle `n`, and `answer n k` means that slave `k` gives a response
in cycle `n`, possibly in the cycle of the grant.  The slaves know nothing of each other: each answers at most as
often as it was granted.  If the master starts a transaction only when every earlier one has been answered, then no
two slaves answer in the same cycle, and the answers come in the order of the grants: the `k`-th answer is given by
the slave of the `k`-th grant.
-/

namespace Sync.SingleOutstanding

variable {κ : Type*} [DecidableEq κ] (grant : ℕ → Option κ) (answer : ℕ → κ → Bool) (any : ℕ → Bool)

/-- The slave whose answer is outstanding at the beginning of cycle `n`. -/
def waiting : ℕ → Option κ
  | 0 => none
  | n + 1 => ((waiting n).or (grant n)).bind fun k => if answer n k then none else some k

/-- The slave that may answer in cycle `n`. -/
def serving (n : ℕ) : Option κ := (waiting grant answer n).or (grant n)

/-- What is assumed of the slaves and of the master in cycle `n`. -/
structure RulesAt (n : ℕ) : Prop where
  any_iff : any n = true ↔ ∃ k, answer n k = true
  slave : ∀ k, answer n k = true →
    Nat.count (fun m => answer m k = true) n < Nat.count (fun m => grant m = some k) (n + 1)
  master : (grant n).isSome = true →
    Nat.count (fun m => (grant m).isSome = true) n = Nat.count (fun m => any m = true) n

/-- What is outstanding makes up the difference of grants and answers, in total and for each slave. -/
structure Balance (n : ℕ) : Prop where
  each : ∀ k, Nat.count (fun m => grant m = some k) n =
    Nat.count (fun m => answer m k = true) n + if waiting grant answer n = some k then 1 else 0
  total : Nat.count (fun m => (grant m).isSome = true) n =
    Nat.count (fun m => any m = true) n + if (waiting grant answer n).isSome then 1 else 0

variable {grant answer any} {n : ℕ} {k : κ}

theorem balance_zero : Balance grant answer any 0 := ⟨fun k => by simp [waiting], by simp [waiting]⟩

theorem Balance.waiting_of_grant (hb : Balance grant answer any n) (hr : RulesAt grant answer any n)
    (hg : (grant n).isSome = true) : waiting grant answer n = none := by
  have hm := hr.master hg
  have ht := hb.total
  cases hw : waiting grant answer n with
  | none => rfl
  | some k => rw [hw] at ht; simp only [Option.isSome_some, ↓reduceIte] at ht; omega

theorem Balance.serving_of_answer (hb : Balance grant answer any n) (hr : RulesAt grant answer any n)
    (ha : answer n k = true) : serving grant answer n = some k := by
  have hs := hr.slave k ha
  rw [Nat.count_succ, hb.each k] at hs
  by_cases hw : waiting grant answer n = some k
  · simp [serving, hw]
  · rw [if_neg hw] at hs
    have hg : grant n = some k := by
      by_contra hg
      rw [if_neg hg] at hs
      omega
    rw [serving, hb.waiting_of_grant hr (by simp [hg]), Option.none_or, hg]

theorem Balance.succ (hb : Balance grant answer any n) (hr : RulesAt grant answer any n) :
    Balance grant answer any (n + 1) := by
  have hserve : ∀ k, answer n k = true → serving grant answer n = some k := fun k => hb.serving_of_answer hr
  have hnext : waiting grant answer (n + 1) =
      (serving grant answer n).bind fun k => if answer n k then none else some k := rfl
  have hgrant : (grant n).isSome = true → waiting grant answer n = none := hb.waiting_of_grant hr
  cases hs : serving grant answer n with
  | none =>
    -- nothing is outstanding and nothing happens
    obtain ⟨hw, hg⟩ := Option.or_eq_none_iff.1 hs
    have hno : ∀ k, answer n k = false := fun k => by
      by_contra ha
      simp [hserve k (by simpa using ha)] at hs
    have hany : any n = false := by
      by_contra h
      obtain ⟨k, hk⟩ := hr.any_iff.1 (by simpa using h)
      simp [hno k] at hk
    refine ⟨fun k => ?_, ?_⟩
    · have := hb.each k
      simp only [hw, reduceCtorEq, ↓reduceIte] at this
      simp [Nat.count_succ, hnext, hs, hg, hno, this]
    · have := hb.total
      simp only [hw, Option.isSome_none, Bool.false_eq_true, ↓reduceIte] at this
      simp [Nat.count_succ, hnext, hs, hg, hany, this]
  | some k =>
    have hother : ∀ k', answer n k' = true → k' = k := fun k' ha => by
      have := hserve k' ha; rw [hs] at this; exact (Option.some.inj this).symm
    have hany : any n = answer n k := by
      rw [Bool.eq_iff_iff, hr.any_iff]
      exact ⟨fun ⟨k', h⟩ => hother k' h ▸ h, fun h => ⟨k, h⟩⟩
    have hnext' : waiting grant answer (n + 1) = if answer n k then none else some k := by rw [hnext, hs]; rfl
    -- the outstanding transaction is an old one, or one that starts now
    have hcases : waiting grant answer n = some k ∧ grant n = none ∨
        waiting grant answer n = none ∧ grant n = some k := by
      cases hg : grant n with
      | none => left; simpa [serving, hg] using hs
      | some k' =>
        have hw := hgrant (by simp [hg])
        right; simpa [serving, hg, hw] using hs
    refine ⟨fun k' => ?_, ?_⟩
    · have heach := hb.each k'
      rw [Nat.count_succ, Nat.count_succ, heach, hnext']
      by_cases hk : k = k'
      · subst hk
        rcases hcases with ⟨hw, hg⟩ | ⟨hw, hg⟩ <;> cases ha : answer n k <;> simp [hw, hg]
      · have hno : answer n k' = false := by
          by_contra ha
          exact hk (hother k' (by simpa using ha)).symm
        rcases hcases with ⟨hw, hg⟩ | ⟨hw, hg⟩ <;> cases ha : answer n k <;> simp [hw, hg, hno, hk]
    · rw [Nat.count_succ, Nat.count_succ, hb.total, hnext', hany]
      rcases hcases with ⟨hw, hg⟩ | ⟨hw, hg⟩ <;> cases ha : answer n k <;> simp [hw, hg]

/-! ### Whole runs -/

variable (hr : ∀ n, RulesAt grant answer any n)

include hr in
theorem balance (n : ℕ) : Balance grant answer any n := by
  induction n with
  | zero => exact balance_zero
  | succ n ih => exact ih.succ (hr n)

include hr in
/-- No two slaves answer in the same cycle. -/
theorem answer_unique {k' : κ} (ha : answer n k = true) (ha' : answer n k' = true) :
    k = k' := by
  have h := (balance hr n).serving_of_answer (hr n) ha
  rw [(balance hr n).serving_of_answer (hr n) ha'] at h
  exact (Option.some.inj h).symm

include hr in
/-- The grant of an outstanding transaction. -/
private theorem exists_grant_of_waiting (hw : waiting grant answer n = some k) :
    ∃ g < n, grant g = some k ∧
      Nat.count (fun m => (grant m).isSome = true) g = Nat.count (fun m => any m = true) n ∧
      Nat.count (fun m => grant m = some k) g = Nat.count (fun m => answer m k = true) n := by
  induction n with
  | zero => exact absurd hw (by simp [waiting])
  | succ n ih =>
    have hb := balance hr n
    obtain ⟨k', hs, hk⟩ := Option.bind_eq_some_iff.1 hw
    obtain ⟨hno, rfl⟩ : answer n k' = false ∧ k' = k := by
      cases ha : answer n k' <;> simp_all
    have hany : any n = false := by
      by_contra h
      obtain ⟨k'', hk''⟩ := (hr n).any_iff.1 (by simpa using h)
      have := hb.serving_of_answer (hr n) hk''
      rw [serving, hs] at this
      obtain rfl := Option.some.inj this
      simp [hno] at hk''
    simp only [Nat.count_succ, hany, hno, Bool.false_eq_true, ↓reduceIte, Nat.add_zero]
    cases hg : grant n with
    | none =>
      obtain ⟨g, hgn, h⟩ := ih (by simpa [hg] using hs)
      exact ⟨g, by omega, h⟩
    | some k'' =>
      have hwn := hb.waiting_of_grant (hr n) (by simp [hg])
      rw [hwn, hg, Option.none_or] at hs
      obtain rfl := Option.some.inj hs
      have ht := hb.total
      have he := hb.each k''
      simp only [hwn, Option.isSome_none, reduceCtorEq, Bool.false_eq_true, ↓reduceIte, Nat.add_zero] at ht he
      exact ⟨n, by omega, hg, ht, he⟩

include hr in
/-- An answer belongs to a grant of the same slave, and is as many answers into the run as the grant is grants. -/
theorem exists_grant (ha : answer n k = true) :
    ∃ g ≤ n, grant g = some k ∧
      Nat.count (fun m => (grant m).isSome = true) g = Nat.count (fun m => any m = true) n ∧
      Nat.count (fun m => grant m = some k) g = Nat.count (fun m => answer m k = true) n := by
  have hb := balance hr n
  have hs := hb.serving_of_answer (hr n) ha
  cases hg : grant n with
  | none =>
    obtain ⟨g, hgn, h⟩ := exists_grant_of_waiting hr (by simpa [serving, hg] using hs)
    exact ⟨g, by omega, h⟩
  | some k' =>
    have hwn := hb.waiting_of_grant (hr n) (by simp [hg])
    rw [serving, hwn, hg, Option.none_or] at hs
    obtain rfl := Option.some.inj hs
    have ht := hb.total
    have he := hb.each k'
    simp only [hwn, Option.isSome_none, reduceCtorEq, Bool.false_eq_true, ↓reduceIte, Nat.add_zero] at ht he
    exact ⟨n, le_rfl, hg, ht, he⟩

include hr in
/-- The grants are the answers, in order, and what is outstanding. -/
theorem grants_eq_answers (n : ℕ) : log grant n =
    log (fun m => (serving grant answer m).filter fun k => answer m k) n ++ (waiting grant answer n).toList := by
  refine log_eq_log_append (b := fun n => (waiting grant answer n).toList) rfl (fun m => ?_) n
  have hwait : (grant m).isSome = true → waiting grant answer m = none := (balance hr m).waiting_of_grant (hr m)
  have hnext : waiting grant answer (m + 1) =
      (serving grant answer m).bind fun k => if answer m k then none else some k := rfl
  rw [hnext, serving]
  cases hg : grant m with
  | none =>
    cases hw : waiting grant answer m with
    | none => simp
    | some k => cases ha : answer m k <;> simp [Option.filter, ha]
  | some k =>
    rw [hwait (by simp [hg])]
    cases ha : answer m k <;> simp [Option.filter, ha]

include hr in
/-- A grant is answered if its slave answers each transaction at some time. -/
theorem exists_answer
    (hlive : ∀ n, ∃ m, Nat.count (fun m => grant m = some k) n ≤ Nat.count (fun m => answer m k = true) m)
    (hg : grant n = some k) : ∃ m, n ≤ m ∧ any m = true ∧
      Nat.count (fun m => any m = true) m = Nat.count (fun m => (grant m).isSome = true) n := by
  have hb := balance hr n
  have hwn := hb.waiting_of_grant (hr n) (by simp [hg])
  have ht := hb.total
  have he := hb.each k
  simp only [hwn, Option.isSome_none, reduceCtorEq, Bool.false_eq_true, ↓reduceIte, Nat.add_zero] at ht he
  have hex : ∃ m, n ≤ m ∧ any m = true := by
    by_contra hno
    push Not at hno
    have hstop : ∀ m, Nat.count (fun m => answer m k = true) m ≤ Nat.count (fun m => answer m k = true) n := by
      intro m
      rcases Nat.le_total m n with hle | hle
      · exact Nat.count_monotone _ hle
      · induction m, hle using Nat.le_induction with
        | base => exact le_rfl
        | succ m hm ih =>
          have : answer m k = false := by
            by_contra ha
            exact hno m hm ((hr m).any_iff.2 ⟨k, by simpa using ha⟩)
          rw [Nat.count_succ, this]
          simpa using ih
    obtain ⟨m, hm⟩ := hlive (n + 1)
    have := hstop m
    rw [Nat.count_succ, if_pos hg] at hm
    omega
  -- the first answer from the grant on is the one for it
  obtain ⟨m, hle, hcount, hany, -⟩ := exists_until
    (P := fun j => Nat.count (fun m => any m = true) j = Nat.count (fun m => any m = true) n)
    rfl (fun j _ hj ha => by rw [Nat.count_succ, if_neg ha, Nat.add_zero, hj]) hex
  exact ⟨m, hle, hany, by rw [ht, hcount]⟩

end Sync.SingleOutstanding
