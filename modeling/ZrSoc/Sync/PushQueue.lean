import ZrSoc.Sync.Log

/-!
# Queues with push and pop strobes

A queue of `cap` places that is told to push and to pop, whether it can or not: it shows that it is full or empty and
ignores a push or a pop that it cannot carry out.  With `bypass` an entry that is pushed into an empty queue is on its
output in the same cycle; a queue without places is such a wire.  `flush` empties the queue.

`sinceFlush f n` lists the events of the cycles from the last flush before `n` on.
-/

namespace Sync.PushQueue

variable {α : Type*}

structure Input (α : Type*) where
  flush : Bool
  push : Bool
  data : α
  pop : Bool

variable (cap : ℕ) (bypass : Bool) (q : List α) (x : Input α)

def full : Bool := if cap = 0 then !x.pop else q.length == cap

def empty : Bool := q.isEmpty && !(bypass && x.push)

/-- What the queue takes in a cycle. -/
def pushed : Option α := if x.push && !full cap q x then some x.data else none

/-- The entry on the output. -/
def head : Option α := if bypass && q.isEmpty && x.push then some x.data else q.head?

/-- What the queue gives away in a cycle. -/
def popped : Option α := if x.pop && !empty bypass q x then head bypass q x else none

/-- The queue after a cycle. -/
def next : List α :=
  if x.flush then [] else (q ++ (pushed cap q x).toList).drop (x.pop && !empty bypass q x).toNat

/-- The queue at the beginning of each cycle. -/
def contents (i : ℕ → Input α) : ℕ → List α
  | 0 => []
  | n + 1 => next cap bypass (contents i n) (i n)

/-- The events of the cycles before `n`, from the last flush on. -/
def sinceFlush {ε : Type*} (i : ℕ → Input α) (f : ℕ → Option ε) : ℕ → List ε
  | 0 => []
  | n + 1 => if (i n).flush then [] else sinceFlush i f n ++ (f n).toList

variable {cap bypass q x}

/-- A push that a queue without places takes is popped in the same cycle. -/
theorem length_next_le (hb : cap = 0 → bypass = true) (h : q.length ≤ cap) : (next cap bypass q x).length ≤ cap := by
  unfold next
  split
  · exact Nat.zero_le _
  · rcases Nat.eq_zero_or_pos cap with rfl | hcap
    · obtain rfl : q = [] := List.eq_nil_of_length_eq_zero (by omega)
      cases hpush : x.push <;> cases hpop : x.pop <;> simp [pushed, full, empty, hb rfl, hpush, hpop]
    · have hne : cap ≠ 0 := by omega
      rw [List.length_drop, List.length_append]
      cases hpush : (x.push && !full cap q x) with
      | false => simp [pushed, hpush]; omega
      | true =>
        have hlt : q.length ≠ cap := by
          intro heq
          simp [full, hne, heq] at hpush
        simp [pushed, hpush]
        omega

/-- Without a flush a cycle appends what is pushed and removes what is popped from the front. -/
theorem conservation (hb : cap = 0 → bypass = true) (hlen : q.length ≤ cap) (hf : x.flush = false) :
    q ++ (pushed cap q x).toList = (popped bypass q x).toList ++ next cap bypass q x := by
  rw [next, hf, if_neg (by simp), popped]
  cases hpop : (x.pop && !empty bypass q x) with
  | false => simp
  | true =>
    cases q with
    | cons a q => simp [head]
    | nil =>
      -- the entry on the output of an empty queue is the one that is pushed
      simp only [empty, List.isEmpty_nil, Bool.true_and, Bool.not_not, Bool.and_eq_true] at hpop
      obtain ⟨hpop, hby, hpush⟩ := hpop
      have hroom : full cap ([] : List α) x = false := by
        rcases Nat.eq_zero_or_pos cap with rfl | hcap
        · simp [full, hpop]
        · have : cap ≠ 0 := by omega
          simp [full, this, this.symm]
      simp [head, hby, hpush, pushed, hroom]

section Runs

variable (i : ℕ → Input α)

theorem length_contents_le (hb : cap = 0 → bypass = true) (n : ℕ) : (contents cap bypass i n).length ≤ cap := by
  induction n with
  | zero => exact Nat.zero_le _
  | succ n ih => exact length_next_le hb ih

/-- What was pushed since the last flush is what was popped since then, in order, and what the queue holds. -/
theorem sinceFlush_eq (hb : cap = 0 → bypass = true) (n : ℕ) :
    sinceFlush i (fun m => pushed cap (contents cap bypass i m) (i m)) n =
      sinceFlush i (fun m => popped bypass (contents cap bypass i m) (i m)) n ++ contents cap bypass i n := by
  induction n with
  | zero => rfl
  | succ n ih =>
    cases hf : (i n).flush with
    | true => simp [sinceFlush, contents, next, hf]
    | false =>
      have hc := conservation hb (length_contents_le i hb n) hf
      simp only [sinceFlush, hf, Bool.false_eq_true, if_false, contents]
      rw [ih, List.append_assoc, hc, List.append_assoc]

end Runs

end Sync.PushQueue
