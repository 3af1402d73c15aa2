import ZrSoc.Sync.Log

/-!
# Serving one request at a time

The abstract model of a component that serves the requests of several ports one after the other: it accepts a
request when it is idle, offers it to a server, waits for the server's answer, and offers the answer to the port the
request came from; only when the port has consumed the answer it is idle again.

Whatever the events are, nothing is lost or duplicated: the accepted requests are the taken ones and the one still
offered (`accepted_eq_taken`), the taken ones are the answered ones and the one the server is working on
(`taken_eq_answered`), and the answers are the consumed ones and the one still offered (`answered_eq_consumed`).
-/

namespace Sync.Transaction

/-- The phase of the transaction of a request `a` of port `p` with answer `b`. -/
inductive Phase (π α β : Type*)
  | idle
  | request (p : π) (a : α)
  | waiting (p : π) (a : α)
  | response (p : π) (a : α) (b : β)

/-- What may happen in a cycle: a request is accepted, the server takes the offered request, the server answers, the
port consumes the offered answer. -/
structure Events (π α β : Type*) where
  accept : Option (π × α)
  take : Bool
  answer : Option β
  consume : Bool

namespace Phase

variable {π α β : Type*}

/-- The next phase.  The server may answer in the cycle in which it takes the request. -/
def next : Phase π α β → Events π α β → Phase π α β
  | idle, e => match e.accept with
    | some (p, a) => request p a
    | none => idle
  | request p a, e => if e.take then
      match e.answer with
      | some b => response p a b
      | none => waiting p a
    else request p a
  | waiting p a, e => match e.answer with
    | some b => response p a b
    | none => waiting p a
  | response p a b, e => if e.consume then idle else response p a b

/-- The request accepted in a cycle. -/
def accepted : Phase π α β → Events π α β → Option (π × α)
  | idle, e => e.accept
  | _, _ => none

/-- The request the server takes in a cycle. -/
def taken : Phase π α β → Events π α β → Option (π × α)
  | request p a, e => if e.take then some (p, a) else none
  | _, _ => none

/-- The request answered in a cycle, with its answer. -/
def answered : Phase π α β → Events π α β → Option ((π × α) × β)
  | request p a, e => if e.take then e.answer.map fun b => ((p, a), b) else none
  | waiting p a, e => e.answer.map fun b => ((p, a), b)
  | _, _ => none

/-- The request whose answer is consumed in a cycle, with the answer. -/
def consumed : Phase π α β → Events π α β → Option ((π × α) × β)
  | response p a b, e => if e.consume then some ((p, a), b) else none
  | _, _ => none

/-- The request offered to the server. -/
def asking : Phase π α β → List (π × α)
  | request p a => [(p, a)]
  | _ => []

/-- The request the server has taken and not answered. -/
def unanswered : Phase π α β → List (π × α)
  | waiting p a => [(p, a)]
  | _ => []

/-- The answer offered to its port. -/
def offered : Phase π α β → List ((π × α) × β)
  | response p a b => [((p, a), b)]
  | _ => []

/-- The request being served. -/
def current : Phase π α β → Option (π × α)
  | idle => none
  | request p a => some (p, a)
  | waiting p a => some (p, a)
  | response p a _ => some (p, a)

/-- A request is served until its answer is consumed. -/
theorem current_next {s : Phase π α β} {e : Events π α β} {c : π × α} (hc : s.current = some c)
    (hno : s.consumed e = none) : (s.next e).current = some c := by
  cases s with
  | idle => exact absurd hc (by simp [current])
  | request p a => cases ht : e.take <;> cases ha : e.answer <;> simp_all [current, next]
  | waiting p a => cases ha : e.answer <;> simp_all [current, next]
  | response p a b => cases hk : e.consume <;> simp_all [current, next, consumed]

/-- A port without a request that is accepted is not served. -/
theorem not_current_next {s : Phase π α β} {e : Events π α β} {p : π} (hs : ∀ a, s.current ≠ some (p, a))
    (he : ∀ a, s.accepted e ≠ some (p, a)) (a : α) : (s.next e).current ≠ some (p, a) := by
  cases s with
  | idle =>
    have := he a
    rcases h : e.accept with _ | ⟨p', a'⟩ <;> simp_all [current, next, accepted]
  | request p' a' => have := hs a; cases ht : e.take <;> cases ha : e.answer <;> simp_all [current, next]
  | waiting p' a' => have := hs a; cases ha : e.answer <;> simp_all [current, next]
  | response p' a' b' => have := hs a; cases hk : e.consume <;> simp_all [current, next]

theorem asking_step (s : Phase π α β) (e : Events π α β) :
    s.asking ++ (s.accepted e).toList = (s.taken e).toList ++ (s.next e).asking := by
  cases s with
  | idle => rcases h : e.accept with _ | ⟨p, a⟩ <;> simp [asking, accepted, taken, next, h]
  | request p a => by_cases ht : e.take <;> cases h : e.answer <;> simp [asking, accepted, taken, next, ht, h]
  | waiting p a => cases h : e.answer <;> simp [asking, accepted, taken, next, h]
  | response p a b => by_cases hc : e.consume <;> simp [asking, accepted, taken, next, hc]

theorem unanswered_step (s : Phase π α β) (e : Events π α β) :
    s.unanswered ++ (s.taken e).toList = ((s.answered e).map Prod.fst).toList ++ (s.next e).unanswered := by
  cases s with
  | idle => rcases h : e.accept with _ | ⟨p, a⟩ <;> simp [unanswered, answered, taken, next, h]
  | request p a => by_cases ht : e.take <;> cases h : e.answer <;> simp [unanswered, answered, taken, next, ht, h]
  | waiting p a => cases h : e.answer <;> simp [unanswered, answered, taken, next, h]
  | response p a b => by_cases hc : e.consume <;> simp [unanswered, answered, taken, next, hc]

theorem offered_step (s : Phase π α β) (e : Events π α β) :
    s.offered ++ (s.answered e).toList = (s.consumed e).toList ++ (s.next e).offered := by
  cases s with
  | idle => rcases h : e.accept with _ | ⟨p, a⟩ <;> simp [offered, answered, consumed, next, h]
  | request p a => by_cases ht : e.take <;> cases h : e.answer <;> simp [offered, answered, consumed, next, ht, h]
  | waiting p a => cases h : e.answer <;> simp [offered, answered, consumed, next, h]
  | response p a b => by_cases hc : e.consume <;> simp [offered, answered, consumed, next, hc]

end Phase

/-! ### Whole runs -/

variable {π α β : Type*}

def machine (π α β : Type*) : Machine (Phase π α β) (Events π α β) where
  reset := .idle
  edge := Phase.next

variable (e : ℕ → Events π α β)

/-- The phase at the beginning of each cycle. -/
abbrev phase : ℕ → Phase π α β := (machine π α β).run e

theorem accepted_eq_taken (n : ℕ) :
    log (fun m => (phase e m).accepted (e m)) n = log (fun m => (phase e m).taken (e m)) n ++ (phase e n).asking :=
  log_eq_log_append rfl (fun m => (phase e m).asking_step (e m)) n

theorem taken_eq_answered (n : ℕ) :
    log (fun m => (phase e m).taken (e m)) n =
      (log (fun m => (phase e m).answered (e m)) n).map Prod.fst ++ (phase e n).unanswered := by
  rw [map_log]
  exact log_eq_log_append rfl (fun m => (phase e m).unanswered_step (e m)) n

theorem answered_eq_consumed (n : ℕ) :
    log (fun m => (phase e m).answered (e m)) n =
      log (fun m => (phase e m).consumed (e m)) n ++ (phase e n).offered :=
  log_eq_log_append rfl (fun m => (phase e m).offered_step (e m)) n

end Sync.Transaction
