import ZrSoc.Sync.Log

/-!
# Bounded queues

The queue that a FIFO with two handshakes is supposed to be: it has `cap` places, takes an entry when it has room and
gives its first entry away when it has one and is asked for it.  With `through` a full queue also takes an entry in a
cycle in which it gives one away.

`Refines` is what has to be shown of a circuit with the ports of such a queue: a relation between registers and queues
that holds under reset, is kept by a clock edge, and under which the ports show what the queue shows.  Then in every
run the circuit holds the queue (`Refines.run`), and what it took is what it gave away, in order, and what is left
(`Refines.log_eq`).
-/

namespace Sync.BoundedQueue

variable {σ ι α : Type*} (cap : ℕ) (through : Bool)

/-- What the two sides of a queue offer in a cycle: an entry, and a place for one. -/
structure Input (α : Type*) where
  valid : Bool
  data : α
  ready : Bool

/-! ### The queue -/

def gives (q : List α) (x : Input α) : Bool := !q.isEmpty && x.ready

def hasRoom (q : List α) (x : Input α) : Bool := decide (q.length < cap) || through && gives q x

def takes (q : List α) (x : Input α) : Bool := x.valid && hasRoom cap through q x

/-- The queue after a cycle. -/
def next (q : List α) (x : Input α) : List α :=
  (if gives q x then q.tail else q) ++ if takes cap through q x then [x.data] else []

/-- The queue at the beginning of each cycle. -/
def contents (i : ℕ → Input α) : ℕ → List α
  | 0 => []
  | n + 1 => next cap through (contents i n) (i n)

/-- What the queue takes in a cycle. -/
def taken (q : List α) (x : Input α) : Option α := if takes cap through q x then some x.data else none

/-- What the queue gives away in a cycle. -/
def given (q : List α) (x : Input α) : Option α := if gives q x then q.head? else none

variable {cap through} {q : List α} {x : Input α}

@[simp] theorem gives_nil : gives ([] : List α) x = false := rfl

theorem hasRoom_iff :
    hasRoom cap through q x = true ↔ q.length < cap ∨ through = true ∧ gives q x = true := by
  simp [hasRoom]

/-- A queue never holds more than it has places for. -/
theorem length_next_le (h : q.length ≤ cap) : (next cap through q x).length ≤ cap := by
  rw [next, List.length_append]
  cases ht : takes cap through q x with
  | false =>
    cases gives q x <;> simp <;> omega
  | true =>
    rcases hasRoom_iff.1 (Bool.and_eq_true_iff.1 ht).2 with hlt | ⟨-, hg⟩
    · cases gives q x <;> simp <;> omega
    · cases q with
      | nil => simp at hg
      | cons a q => simpa [hg] using h

/-- A cycle appends what is taken and removes what is given away from the front. -/
theorem conservation (q : List α) (x : Input α) :
    q ++ (taken cap through q x).toList = (given q x).toList ++ next cap through q x := by
  rw [taken, given, next]
  cases hg : gives q x with
  | false => cases takes cap through q x <;> simp
  | true =>
    cases q with
    | nil => simp at hg
    | cons a q => cases takes cap through (a :: q) x <;> simp

/-! ### Circuits -/

/-- The ports of a circuit that is supposed to be a queue. -/
structure Ports (σ ι α : Type*) where
  input : ι → Input α
  ready : σ → ι → Bool
  valid : σ → Bool
  head : σ → α

variable (cap through) (M : Machine σ ι) (P : Ports σ ι α) (R : σ → List α → Prop)

/-- Registers that are related to a queue show on the ports what the queue shows. -/
structure Shows (s : σ) (q : List α) : Prop where
  ready : ∀ x, P.ready s x = hasRoom cap through q (P.input x)
  valid : P.valid s = !q.isEmpty
  head : ∀ a ∈ q.head?, P.head s = a

structure Refines : Prop where
  reset : R M.reset []
  edge : ∀ s q x, R s q → R (M.edge s x) (next cap through q (P.input x))
  shows : ∀ s q, R s q → Shows cap through P s q

/-- What the ports show to be taken in a cycle. -/
def pushed (s : σ) (x : ι) : Option α := if (P.input x).valid && P.ready s x then some (P.input x).data else none

/-- What the ports show to be given away in a cycle. -/
def popped (s : σ) (x : ι) : Option α := if P.valid s && (P.input x).ready then some (P.head s) else none

variable {cap through M P R} {s : σ}

theorem Shows.pushed_eq (h : Shows cap through P s q) (x : ι) :
    pushed P s x = taken cap through q (P.input x) := by
  rw [pushed, taken, takes, h.ready]

theorem Shows.popped_eq (h : Shows cap through P s q) (x : ι) : popped P s x = given q (P.input x) := by
  rw [popped, given, gives, h.valid]
  cases q with
  | nil => rfl
  | cons a q => rw [h.head a rfl, List.head?_cons]

/-- In every run the circuit holds the queue. -/
theorem Refines.run (h : Refines cap through M P R) (i : ℕ → ι) (n : ℕ) :
    R (M.run i n) (contents cap through (fun m => P.input (i m)) n) := by
  induction n with
  | zero => exact h.reset
  | succ n ih => exact h.edge _ _ _ ih

theorem length_contents_le (i : ℕ → Input α) (n : ℕ) : (contents cap through i n).length ≤ cap := by
  induction n with
  | zero => exact Nat.zero_le _
  | succ n ih => exact length_next_le ih

/-- What the circuit took is what it gave away, in order, and what the queue still holds. -/
theorem Refines.log_eq (h : Refines cap through M P R) (i : ℕ → ι) (n : ℕ) :
    log (fun m => pushed P (M.run i m) (i m)) n =
      log (fun m => popped P (M.run i m) (i m)) n ++ contents cap through (fun m => P.input (i m)) n := by
  refine log_eq_log_append rfl (fun m => ?_) n
  have hs := h.shows _ _ (h.run i m)
  rw [hs.pushed_eq, hs.popped_eq]
  exact conservation _ _

end Sync.BoundedQueue
