import ZrSoc.Cdc2Phase
import ZrSoc.Sync.Ticks
import Mathlib.Data.BitVec

/-!
# Transfers across the clock domains

In every interleaving of the edges of the two clocks the items come out as they went in, and one is under way at
most (`accepted_eq_delivered`).  An item is offered after at most four edges of the destination clock, and the source
half is ready again after at most three edges of the source clock: one edge to see the line, possibly a second one if
the first missed the change, and two synchronisers (one of them with the source).
-/

namespace Cdc2Phase

open Sync BitRing

variable {T : Type*}

theorem inFlight_length_le (k : ℕ) (x : T) : (inFlight k x).length ≤ 1 := by
  unfold inFlight
  split <;> simp

variable {s : State T} {p : Bool} {k : ℕ} {x : T}

/-- What is under way and what is accepted is what is delivered and what is under way then. -/
theorem Holds.conservation (h : Holds s p k x) (e : Event T) :
    inFlight k x ++ (accepted s e).toList =
      (delivered s e).toList ++ inFlight (passed 7 (advances s e k) k) (item s e x) := by
  have hlt := h.moving.lt
  rw [h.delivered_eq]
  rcases Nat.eq_zero_or_pos k with rfl | hpos
  · have hacc := h.accepted_zero e
    cases hadv : advances s e 0 with
    | false =>
      rw [hadv, Option.isSome_eq_false_iff, Option.isNone_iff_eq_none] at hacc
      simp [hacc, passed, inFlight]
    | true =>
      obtain ⟨y, hy⟩ := Option.isSome_iff_exists.1 (hacc.trans hadv)
      simp [hy, item, passed, inFlight]
  · rw [item, h.accepted_none e (by omega)]
    rcases Nat.lt_trichotomy k 4 with h4 | rfl | h4
    · have h1 : k ≠ 4 := by omega
      have h2 : k ≤ 4 := by omega
      have h3 : k + 1 ≤ 4 := by omega
      rw [passed_eq (by omega)]
      cases advances s e k <;> simp [inFlight, h1, h2, h3, hpos]
    · cases advances s e 4 <;> simp [inFlight, passed]
    · have h1 : k ≠ 4 := by omega
      have h2 : ¬ k ≤ 4 := by omega
      have h3 : ¬ (0 < passed 7 (advances s e k) k ∧ passed 7 (advances s e k) k ≤ 4) := by
        unfold passed
        interval_cases k <;> cases advances s e _ <;> simp
      simp [inFlight, h1, h2, h3]

variable [DecidableEq T]

section Runs

variable [Zero T] (e : ℕ → Event T)

theorem exists_holds (n : ℕ) : ∃ p k x, Holds ((machine T).run e n) p k x ∧
    log (fun m => accepted ((machine T).run e m) (e m)) n =
      log (fun m => delivered ((machine T).run e m) (e m)) n ++ inFlight k x := by
  induction n with
  | zero => exact ⟨false, 0, 0, holds_reset, rfl⟩
  | succ n ih =>
    obtain ⟨p, k, x, h, hlog⟩ := ih
    refine ⟨_, _, _, h.edge (e n), ?_⟩
    rw [log_succ, log_succ, hlog, List.append_assoc, h.conservation (e n), List.append_assoc]

/-- Whatever the order of the clock edges, the items that were delivered are those that were accepted, in order, but
for one that may be under way.  None is under way when the source half is ready, and what the destination half
offers is the one under way. -/
theorem accepted_eq_delivered (n : ℕ) : ∃ q : List T, q.length ≤ 1 ∧
    log (fun m => accepted ((machine T).run e m) (e m)) n =
      log (fun m => delivered ((machine T).run e m) (e m)) n ++ q ∧
    (((machine T).run e n).src.readyO = true → q = []) ∧
    (((machine T).run e n).dst.validO = true → q = [((machine T).run e n).dst.dataO]) := by
  obtain ⟨p, k, x, h, hlog⟩ := exists_holds e n
  refine ⟨inFlight k x, inFlight_length_le k x, hlog, fun hr => ?_, fun hv => ?_⟩
  · rw [h.readyO_eq, decide_eq_true_iff] at hr
    simp [inFlight, hr]
  · rw [h.validO_eq, decide_eq_true_iff] at hv
    simp [inFlight, hv, Dst.dataO, h.dataDstQ (by omega)]

end Runs

/-! ### How long a transfer takes -/

/-- The edges of the destination clock until an announced item is offered. -/
def edgesToOffer (s : State T) : ℕ → ℕ
  | 1 => if s.reqSeen = s.src.reqSrcQ then 3 else 4
  | k => 4 - k

/-- The edges of the source clock until the source half is ready again. -/
def edgesToReady (s : State T) : ℕ → ℕ
  | 5 => if s.ackSeen = s.dst.ackDstQ then 2 else 3
  | 6 => 1
  | _ => 0

omit [DecidableEq T] in
theorem edgesToOffer_le (s : State T) : edgesToOffer s 1 ≤ 4 := by
  simp only [edgesToOffer]
  split <;> omega

omit [DecidableEq T] in
theorem edgesToReady_le (s : State T) : edgesToReady s 5 ≤ 3 := by
  simp only [edgesToReady]
  split <;> omega

omit [DecidableEq T] in
theorem edgesToOffer_pos (s : State T) (h0 : 0 < k) (h4 : k < 4) : 0 < edgesToOffer s k := by
  interval_cases k
  · simp only [edgesToOffer]
    split <;> omega
  · exact Nat.two_pos
  · exact Nat.one_pos

omit [DecidableEq T] in
theorem edgesToReady_pos (s : State T) (h4 : 4 < k) (hlt : k < 7) : 0 < edgesToReady s k := by
  interval_cases k
  · simp only [edgesToReady]
    split <;> omega
  · exact Nat.one_pos

/-- An edge of the destination clock brings an announced item nearer, and nothing takes it away. -/
theorem Holds.toOffer_edge (h : Holds s p k x) (h0 : 0 < k) (h4 : k < 4) (e : Event T) :
    0 < passed 7 (advances s e k) k ∧ passed 7 (advances s e k) k ≤ 4 ∧
      edgesToOffer (Cdc2Phase.edge s e) (passed 7 (advances s e k) k) + (if e.dst.isSome then 1 else 0) ≤
        edgesToOffer s k := by
  have hreq : (Cdc2Phase.edge s e).src.reqSrcQ = s.src.reqSrcQ := by
    have := h.regs_edge e (i := 0) (by omega)
    rwa [show decide (k = 0) = false from decide_eq_false (by omega), Bool.and_false, Bool.xor_false] at this
  have hseen : (Cdc2Phase.edge s e).reqSeen = if e.dst.isSome then s.src.reqSrcQ else s.reqSeen := rfl
  rw [passed_eq (by omega)]
  obtain ⟨src, dst⟩ := e
  interval_cases k
  · cases dst with
    | none => simp [advances, edgesToOffer, hreq, hseen]
    | some y =>
      by_cases hold : s.reqSeen = s.src.reqSrcQ
      · simp [advances, edgesToOffer, hold]
      · cases hy : y.settled <;> simp [advances, edgesToOffer, hold, hy, hreq, hseen]
  · cases dst <;> simp [advances, edgesToOffer]
  · cases dst <;> simp [advances, edgesToOffer]

/-- An edge of the source clock brings the acknowledge nearer, and nothing takes it away. -/
theorem Holds.toReady_edge (h : Holds s p k x) (h4 : 4 < k) (e : Event T) :
    (passed 7 (advances s e k) k = 0 ∨ 4 < passed 7 (advances s e k) k) ∧
      edgesToReady (Cdc2Phase.edge s e) (passed 7 (advances s e k) k) + (if e.src.isSome then 1 else 0) ≤
        edgesToReady s k := by
  have hlt := h.moving.lt
  have hack : (Cdc2Phase.edge s e).dst.ackDstQ = s.dst.ackDstQ := by
    have := h.regs_edge e (i := 4) (by omega)
    rwa [show decide (k = 4) = false from decide_eq_false (by omega), Bool.and_false, Bool.xor_false] at this
  have hseen : (Cdc2Phase.edge s e).ackSeen = if e.src.isSome then s.dst.ackDstQ else s.ackSeen := rfl
  obtain ⟨src, dst⟩ := e
  interval_cases k
  · cases src with
    | none => simp [passed, advances, edgesToReady, hack, hseen]
    | some u =>
      by_cases hold : s.ackSeen = s.dst.ackDstQ
      · simp [passed, advances, edgesToReady, hold]
      · cases hu : u.settled <;> simp [passed, advances, edgesToReady, hold, hu, hack, hseen]
  · cases src <;> simp [passed, advances, edgesToReady]

/-- The item `x` is on its way to the destination and needs at most `r` edges of its clock. -/
def ToOffer (x : T) (s : State T) (r : ℕ) : Prop :=
  ∃ p k, Holds s p k x ∧ 0 < k ∧ k ≤ 4 ∧ edgesToOffer s k ≤ r

/-- The acknowledge is on its way to the source and needs at most `r` edges of its clock. -/
def ToReady (s : State T) (r : ℕ) : Prop :=
  ∃ p k x, Holds s p k x ∧ (k = 0 ∨ 4 < k) ∧ edgesToReady s k ≤ r

theorem ToOffer.step {r : ℕ} (h : ToOffer x s r) (e : Event T) : (s.dst.validO = true ∧ s.dst.dataO = x) ∨
    0 < r ∧ ∃ r', ToOffer x (edge s e) r' ∧ r' + (if e.dst.isSome then 1 else 0) ≤ r := by
  obtain ⟨p, k, h, h0, h4, hr⟩ := h
  rcases Nat.lt_or_eq_of_le h4 with hlt | rfl
  · right
    obtain ⟨h0', h4', hle⟩ := h.toOffer_edge h0 hlt e
    have hpos := edgesToOffer_pos s h0 hlt
    have hx : item s e x = x := by rw [item, h.accepted_none e (by omega), Option.getD_none]
    have h' := h.edge e
    rw [hx] at h'
    exact ⟨by omega, _, ⟨_, _, h', h0', h4', le_rfl⟩, by omega⟩
  · left
    exact ⟨by rw [h.validO_eq]; rfl, h.dataDstQ (by omega)⟩

theorem ToReady.step {r : ℕ} (h : ToReady s r) (e : Event T) : s.src.readyO = true ∨
    0 < r ∧ ∃ r', ToReady (edge s e) r' ∧ r' + (if e.src.isSome then 1 else 0) ≤ r := by
  obtain ⟨p, k, x, h, rfl | h4, hr⟩ := h
  · left
    rw [h.readyO_eq]
    rfl
  · right
    obtain ⟨h4', hle⟩ := h.toReady_edge h4 e
    have hpos := edgesToReady_pos s h4 h.moving.lt
    exact ⟨by omega, _, ⟨_, _, _, h.edge e, h4', le_rfl⟩, by omega⟩

/-- Accepting an item starts its way to the destination. -/
theorem Holds.toOffer (h : Holds s p k x) {e : Event T} {y : T} (hacc : accepted s e = some y) :
    ToOffer y (Cdc2Phase.edge s e) 4 := by
  obtain rfl : k = 0 := by
    by_contra hk
    rw [h.accepted_none e hk] at hacc
    cases hacc
  have hadv : advances s e 0 = true := by rw [← h.accepted_zero e, hacc, Option.isSome_some]
  have h' := h.edge e
  rw [hadv, item, hacc, Option.getD_some] at h'
  exact ⟨_, 1, h', by omega, by omega, edgesToOffer_le _⟩

/-- Delivering an item starts the way of the acknowledge to the source. -/
theorem Holds.toReady (h : Holds s p k x) {e : Event T} (hdel : (delivered s e).isSome = true) :
    ToReady (Cdc2Phase.edge s e) 3 := by
  rw [h.delivered_eq] at hdel
  split at hdel
  next hk =>
    obtain ⟨rfl, hadv⟩ := hk
    have h' := h.edge e
    rw [hadv] at h'
    exact ⟨_, 5, _, h', Or.inr (by omega), edgesToReady_le _⟩
  next => cases hdel

/-- An item that was accepted is offered within four edges of the destination clock, and after a delivery the source
half is ready within three edges of the source clock, whatever the other clock does. -/
theorem transfer_within [Zero T] (e : ℕ → Event T) {n m : ℕ} (hnm : n < m) :
    (∀ x, accepted ((machine T).run e n) (e n) = some x →
      Nat.count (fun j => (e j).dst.isSome) (n + 1) + 4 ≤ Nat.count (fun j => (e j).dst.isSome) m →
      ∃ j, n < j ∧ j ≤ m ∧ ((machine T).run e j).dst.validO = true ∧ ((machine T).run e j).dst.dataO = x) ∧
    ((delivered ((machine T).run e n) (e n)).isSome = true →
      Nat.count (fun j => (e j).src.isSome) (n + 1) + 3 ≤ Nat.count (fun j => (e j).src.isSome) m →
      ∃ j, n < j ∧ j ≤ m ∧ ((machine T).run e j).src.readyO = true) := by
  obtain ⟨p, k, y, h, -⟩ := exists_holds e n
  constructor
  · intro x hacc hm
    have hstep (j r : ℕ) (hj : ToOffer x ((machine T).run e j) r) := hj.step (e j)
    exact exists_within_ticks hstep hnm (h.toOffer hacc) hm
  · intro hdel hm
    have hstep (j r : ℕ) (hj : ToReady ((machine T).run e j) r) := hj.step (e j)
    exact exists_within_ticks hstep hnm (h.toReady hdel) hm

/-- The source clock ticks in every instant, the destination clock in every second one; the item 5 is sent. -/
def slowReceiver (n : ℕ) : Event (BitVec 8) where
  src := some { valid := true, data := 5, settled := false }
  dst := if n % 2 = 0 then some { ready := true, settled := false, junk := 0 } else none

/-- It is accepted in instant 0 and delivered in instant 10. -/
theorem transfer_within_slow : (∃ j, 0 < j ∧ j ≤ 9 ∧
    ((machine (BitVec 8)).run slowReceiver j).dst.validO = true ∧
    ((machine (BitVec 8)).run slowReceiver j).dst.dataO = 5) ∧
    ∃ j, 10 < j ∧ j ≤ 14 ∧ ((machine (BitVec 8)).run slowReceiver j).src.readyO = true :=
  ⟨(transfer_within slowReceiver (n := 0) (m := 9) (by omega)).1 5 (by decide) (by decide),
    (transfer_within slowReceiver (n := 10) (m := 14) (by omega)).2 (by decide) (by decide)⟩

end Cdc2Phase
