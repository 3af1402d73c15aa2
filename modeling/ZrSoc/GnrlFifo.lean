import ZrSoc.Sync.Log
import ZrSoc.Sync.OneHot

/-!
# The FIFO (`rtl/perips/sirv_gnrl_fifo.sv`)

`DP = dp` entries of `DW = dw` bits with one-hot read and write pointers and a thermometer code of the number of
entries.  The model is that of `DP ≥ 1`; the source leaves the entries undefined until they are written, here they
start as 0.

In every run the FIFO is a queue (`Holds`): the entries from the read pointer on are those of the queue, the write
pointer is where the next one goes, and the thermometer code has one bit more than the queue has entries.
-/

namespace GnrlFifo

open Sync Sync.OneHot

structure State (dp dw : ℕ) where
  fifoRf : Fin dp → BitVec dw
  rptrVec : BitVec dp
  wptrVec : BitVec dp
  vec : BitVec (dp + 1)

structure Input (dw : ℕ) where
  iVld : Bool
  iDat : BitVec dw
  oRdy : Bool
  deriving DecidableEq, Repr

variable {dp dw : ℕ} (cutReady : Bool) (s : State dp dw) (x : Input dw)

def oVld : Bool := s.vec.getLsbD 1

def oDat : BitVec dw := orMux s.rptrVec s.fifoRf

def ren (oRdy : Bool) : Bool := oVld s && oRdy

def iRdy (oRdy : Bool) : Bool :=
  if dp = 1 ∧ cutReady = false then !s.vec.getLsbD dp || ren s oRdy else !s.vec.getLsbD dp

def wen : Bool := x.iVld && iRdy cutReady s x.oRdy

/-- `rptr_vec_nxt` and `wptr_vec_nxt` -/
def ptrNxt (p : BitVec dp) : BitVec dp := if dp = 1 then BitVec.ofNat dp 1 else rotate p

def vecNxt : BitVec (dp + 1) :=
  if wen cutReady s x then s.vec.extractLsb' 0 dp ++ 1#1 else s.vec >>> 1

def reset : State dp dw where
  fifoRf := fun _ => 0
  rptrVec := BitVec.ofNat dp 1
  wptrVec := BitVec.ofNat dp 1
  vec := 1#(dp + 1)

def edge : State dp dw where
  fifoRf := fun k => if wen cutReady s x && s.wptrVec.getLsbD k then x.iDat else s.fifoRf k
  rptrVec := if ren s x.oRdy then ptrNxt s.rptrVec else s.rptrVec
  wptrVec := if wen cutReady s x then ptrNxt s.wptrVec else s.wptrVec
  vec := if ren s x.oRdy ^^ wen cutReady s x then vecNxt cutReady s x else s.vec

/-- The FIFO as a clocked circuit. -/
def machine (dp dw : ℕ) (cutReady : Bool) : Machine (State dp dw) (Input dw) where
  reset := reset
  edge := edge cutReady

/-! ### The queue -/

/-- The registers hold the queue `q`. -/
structure Holds (s : State dp dw) (q : List (BitVec dw)) : Prop where
  length_le : q.length ≤ dp
  vec : ∀ k, s.vec.getLsbD k = decide (k ≤ q.length)
  ring : ∃ r < dp, s.rptrVec = BitVec.twoPow dp r ∧ s.wptrVec = BitVec.twoPow dp (slot dp r q.length) ∧
    ∀ (j : Fin dp) (k : ℕ), k < q.length → (j : ℕ) = slot dp r k → q[k]? = some (s.fifoRf j)

/-- The queue after a cycle. -/
def nextQueue (q : List (BitVec dw)) : List (BitVec dw) :=
  (if ren s x.oRdy then q.tail else q) ++ if wen cutReady s x then [x.iDat] else []

variable {cutReady s x} {q : List (BitVec dw)}

theorem holds_reset (hdp : 0 < dp) : Holds (reset : State dp dw) [] := by
  refine ⟨Nat.zero_le _, fun k => ?_, 0, hdp, ?_, ?_, fun _ _ hk => absurd hk (by simp)⟩
  · simp [reset, BitVec.getLsbD_one]
  · rw [reset, BitVec.twoPow_eq, BitVec.shiftLeft_zero]
  · rw [reset, List.length_nil, slot_zero hdp, BitVec.twoPow_eq, BitVec.shiftLeft_zero]

theorem Holds.oVld_eq (h : Holds s q) : oVld s = decide (0 < q.length) := h.vec 1

theorem Holds.oVld_iff (h : Holds s q) : oVld s = true ↔ q ≠ [] := by
  rw [h.oVld_eq, decide_eq_true_iff, List.length_pos_iff]

theorem Holds.full_iff (h : Holds s q) : s.vec.getLsbD dp = true ↔ q.length = dp := by
  have := h.length_le
  rw [h.vec, decide_eq_true_iff]
  omega

/-- The FIFO takes an entry if it is not full, or gives one away when it has a single place and its ready is not
cut. -/
theorem Holds.iRdy_iff (h : Holds s q) {oRdy : Bool} : iRdy cutReady s oRdy = true ↔
    q.length < dp ∨ dp = 1 ∧ cutReady = false ∧ ren s oRdy = true := by
  have hlt : s.vec.getLsbD dp = false ↔ q.length < dp := by
    have := h.length_le
    rw [← Bool.not_eq_true, h.full_iff]
    omega
  unfold iRdy
  split
  next hc => rw [Bool.or_eq_true, Bool.not_eq_true', hlt]; tauto
  next hc => rw [Bool.not_eq_true', hlt]; tauto

/-- The output is the head of the queue. -/
theorem Holds.oDat_eq (h : Holds s q) (hq : 0 < q.length) : q[0]? = some (oDat s) := by
  obtain ⟨r, hr, hrp, -, hrf⟩ := h.ring
  rw [oDat, hrp, orMux_twoPow s.fifoRf ⟨r, hr⟩]
  exact hrf ⟨r, hr⟩ 0 hq (slot_zero hr).symm

private theorem ptrNxt_twoPow {r : ℕ} (hr : r < dp) : ptrNxt (BitVec.twoPow dp r) = BitVec.twoPow dp (next dp r) := by
  unfold ptrNxt
  split
  next h =>
    subst h
    obtain rfl : r = 0 := by omega
    rfl
  next => exact rotate_twoPow hr

theorem length_nextQueue : (nextQueue cutReady s x q).length =
    q.length - (ren s x.oRdy).toNat + (wen cutReady s x).toNat := by
  unfold nextQueue
  cases ren s x.oRdy <;> cases wen cutReady s x <;> simp

/-- The entries kept are those of the old queue, the one taken comes last. -/
private theorem getElem?_nextQueue (k : ℕ) : (nextQueue cutReady s x q)[k]? =
    if k < q.length - (ren s x.oRdy).toNat then q[k + (ren s x.oRdy).toNat]?
    else if wen cutReady s x ∧ k = q.length - (ren s x.oRdy).toNat then some x.iDat else none := by
  have hlen : (if ren s x.oRdy = true then q.tail else q).length = q.length - (ren s x.oRdy).toNat := by
    cases ren s x.oRdy <;> simp
  rw [nextQueue, List.getElem?_append, hlen]
  split
  · cases ren s x.oRdy <;> simp
  · generalize q.length - (ren s x.oRdy).toNat = c at *
    cases wen cutReady s x
    · simp
    · by_cases hk : k = c
      · simp [hk]
      · have : k - c ≠ 0 := by omega
        simp [hk, this]

/-- The places of the next queue on the ring. -/
private theorem slot_succ {r k : ℕ} (hr : r < dp) (hk : k < dp) :
    slot dp (if ren s x.oRdy then next dp r else r) k = slot dp r (k + (ren s x.oRdy).toNat) := by
  cases ren s x.oRdy
  · rfl
  · exact slot_next hr hk

private theorem Holds.ren_le (h : Holds s q) (oRdy : Bool) : (ren s oRdy).toNat ≤ q.length := by
  cases hr : ren s oRdy
  · exact Nat.zero_le _
  · simp only [ren, h.oVld_eq, Bool.and_eq_true, decide_eq_true_eq] at hr
    exact hr.1

/-- An entry is taken only if there is a place for it. -/
private theorem Holds.room (h : Holds s q) (hw : wen cutReady s x = true) :
    q.length < dp ∨ dp = 1 ∧ q.length = 1 ∧ ren s x.oRdy = true := by
  simp only [wen, Bool.and_eq_true] at hw
  rcases h.iRdy_iff.1 hw.2 with hlt | ⟨h1, -, hr⟩
  · exact Or.inl hlt
  · have hle := h.length_le
    have hren := h.ren_le x.oRdy
    rw [hr, Bool.toNat_true] at hren
    exact Or.inr ⟨h1, by omega, hr⟩

/-- The thermometer code follows the length of the queue. -/
private theorem Holds.vec_next (h : Holds s q) (k : ℕ) :
    (edge cutReady s x).vec.getLsbD k = decide (k ≤ (nextQueue cutReady s x q).length) := by
  have hren := h.ren_le x.oRdy
  have hle := h.length_le
  rw [length_nextQueue]
  simp only [edge, vecNxt]
  cases hr : ren s x.oRdy <;> cases hw : wen cutReady s x <;> simp only [hr, Bool.toNat_true] at hren ⊢
  · exact h.vec k
  · simp only [Bool.xor_true, Bool.not_false, ↓reduceIte, BitVec.getLsbD_append, Bool.toNat_false, Nat.sub_zero]
    have hroom : q.length < dp := by
      rcases h.room hw with hlt | ⟨-, -, hr'⟩
      · exact hlt
      · simp [hr] at hr'
    cases k with
    | zero => simp
    | succ k =>
      have : ¬ k + 1 < 1 := by omega
      simp only [this, ↓reduceIte, Nat.add_sub_cancel, BitVec.getLsbD_extractLsb', Nat.zero_add, h.vec]
      rw [← Bool.decide_and]
      exact decide_eq_decide.2 (by omega)
  · simp only [Bool.xor_false, ↓reduceIte, Bool.false_eq_true, BitVec.getLsbD_ushiftRight, h.vec]
    exact decide_eq_decide.2 (by simp only [Bool.toNat_false]; omega)
  · simp only [Bool.xor_self, Bool.false_eq_true, ↓reduceIte, h.vec]
    exact decide_eq_decide.2 (by omega)

/-- The write pointer follows the end of the queue. -/
private theorem Holds.wptr_next (h : Holds s q) {r : ℕ} (hr : r < dp)
    (hw : s.wptrVec = BitVec.twoPow dp (slot dp r q.length)) : (edge cutReady s x).wptrVec =
      BitVec.twoPow dp (slot dp (if ren s x.oRdy then next dp r else r) (nextQueue cutReady s x q).length) := by
  have hren := h.ren_le x.oRdy
  have hle := h.length_le
  rw [length_nextQueue]
  simp only [edge]
  cases hwen : wen cutReady s x
  · simp only [Bool.false_eq_true, ↓reduceIte, Bool.toNat_false, Nat.add_zero, hw]
    cases hr' : ren s x.oRdy
    · rfl
    · rw [hr', Bool.toNat_true] at hren
      simp only [↓reduceIte, Bool.toNat_true, slot_next hr (show q.length - 1 < dp by omega), Nat.sub_add_cancel hren]
  · simp only [↓reduceIte, Bool.toNat_true, hw, ptrNxt_twoPow (slot_lt hr hle)]
    rcases h.room hwen with hlt | ⟨rfl, hq, hr'⟩
    · rw [next_slot hr hlt]
      cases hr' : ren s x.oRdy
      · rfl
      · rw [hr', Bool.toNat_true] at hren
        simp only [↓reduceIte, Bool.toNat_true, Nat.sub_add_cancel hren, slot_next hr hlt]
    · obtain rfl : r = 0 := by omega
      simp [hq, hr', next, slot]

/-- The entries of the queue are those on the ring. -/
private theorem Holds.ring_next (h : Holds s q) {r : ℕ} (hr : r < dp)
    (hw : s.wptrVec = BitVec.twoPow dp (slot dp r q.length))
    (hrf : ∀ (j : Fin dp) (k : ℕ), k < q.length → (j : ℕ) = slot dp r k → q[k]? = some (s.fifoRf j))
    (j : Fin dp) (k : ℕ) (hk : k < (nextQueue cutReady s x q).length)
    (hj : (j : ℕ) = slot dp (if ren s x.oRdy then next dp r else r) k) :
    (nextQueue cutReady s x q)[k]? = some ((edge cutReady s x).fifoRf j) := by
  have hren := h.ren_le x.oRdy
  have hle := h.length_le
  have hone : (ren s x.oRdy).toNat ≤ 1 := Bool.toNat_le _
  rw [length_nextQueue] at hk
  rw [getElem?_nextQueue]
  simp only [edge, hw, BitVec.getLsbD_twoPow, slot_lt hr hle, decide_true, Bool.true_and, Bool.and_eq_true,
    decide_eq_true_eq]
  have hkdp : k < dp := by
    cases hwen : wen cutReady s x
    · simp [hwen] at hk; omega
    · rcases h.room hwen with hlt | ⟨rfl, hq, hr'⟩
      · simp [hwen] at hk; omega
      · simp [hwen, hr', hq] at hk; omega
  rw [slot_succ hr hkdp] at hj
  by_cases hold : k < q.length - (ren s x.oRdy).toNat
  · -- an entry that stays is not overwritten
    rw [if_pos hold, if_neg, hrf j _ (by omega) hj]
    rintro ⟨hwen, heq⟩
    refine slot_ne (n := dp) (r := r) (j := k + (ren s x.oRdy).toNat) (k := q.length) (by omega) ?_ (hj.symm.trans heq.symm)
    rcases h.room hwen with hlt | ⟨-, -, hr'⟩
    · omega
    · rw [hr', Bool.toNat_true]; omega
  · -- the new entry is at the write pointer
    cases hwen : wen cutReady s x
    · simp [hwen] at hk; omega
    · have hk' : k = q.length - (ren s x.oRdy).toNat := by simp [hwen] at hk; omega
      have hpos : slot dp r q.length = j := by rw [hj, hk', Nat.sub_add_cancel hren]
      rw [if_neg hold, if_pos ⟨rfl, hk'⟩, if_pos ⟨rfl, hpos⟩]

/-- A clock edge moves the registers as the queue moves. -/
theorem Holds.next (h : Holds s q) : Holds (edge cutReady s x) (nextQueue cutReady s x q) := by
  obtain ⟨r, hr, hrp, hwp, hrf⟩ := h.ring
  refine ⟨?_, h.vec_next, if ren s x.oRdy then OneHot.next dp r else r, ?_, ?_, h.wptr_next hr hwp,
    h.ring_next hr hwp hrf⟩
  · have hren := h.ren_le x.oRdy
    have hle := h.length_le
    rw [length_nextQueue]
    cases hw : wen cutReady s x
    · simp; omega
    · rcases h.room hw with hlt | ⟨rfl, hq, hr'⟩
      · simp; omega
      · simp [hr', hq]
  · split
    · exact next_lt hr
    · exact hr
  · simp only [edge]
    split
    · rw [hrp, ptrNxt_twoPow hr]
    · exact hrp

/-! ### Whole runs -/

/-- What the FIFO takes in a cycle. -/
def pushed (cutReady : Bool) (s : State dp dw) (x : Input dw) : Option (BitVec dw) :=
  if wen cutReady s x then some x.iDat else none

/-- What the FIFO gives away in a cycle. -/
def popped (s : State dp dw) (x : Input dw) : Option (BitVec dw) := if ren s x.oRdy then some (oDat s) else none

/-- A cycle appends what is taken to the queue and removes what is given away from its front. -/
theorem Holds.conservation (h : Holds s q) :
    q ++ (pushed cutReady s x).toList = (popped s x).toList ++ nextQueue cutReady s x q := by
  have hren := h.ren_le x.oRdy
  rw [pushed, popped, nextQueue]
  cases hr : ren s x.oRdy
  · cases wen cutReady s x <;> simp
  · rw [hr, Bool.toNat_true] at hren
    have hhead := h.oDat_eq (by omega)
    cases q with
    | nil => simp at hren
    | cons a q =>
      simp only [List.getElem?_cons_zero, Option.some.injEq] at hhead
      cases wen cutReady s x <;> simp [hhead]

/-- An entry that is not given away stays at the output. -/
theorem Holds.stays (h : Holds s q) (hv : oVld s = true) (hp : popped s x = none) :
    oVld (edge cutReady s x) = true ∧ oDat (edge cutReady s x) = oDat s := by
  have hr : ren s x.oRdy = false := by
    by_contra hr
    simp [popped, hr] at hp
  have hq := h.oVld_iff.1 hv
  have hhead : (nextQueue cutReady s x q)[0]? = q[0]? := by
    rw [nextQueue, hr]
    exact List.getElem?_append_left (List.length_pos_iff.2 hq)
  have hnext : nextQueue cutReady s x q ≠ [] := by
    intro h0
    rw [h0, h.oDat_eq (List.length_pos_iff.2 hq)] at hhead
    simp at hhead
  refine ⟨h.next.oVld_iff.2 hnext, Option.some.inj ?_⟩
  rw [← h.next.oDat_eq (List.length_pos_iff.2 hnext), hhead, h.oDat_eq (List.length_pos_iff.2 hq)]

variable (i : ℕ → Input dw)

/-- The queue at the beginning of each cycle. -/
def queue (dp : ℕ) (cutReady : Bool) : ℕ → List (BitVec dw)
  | 0 => []
  | n + 1 => nextQueue cutReady ((machine dp dw cutReady).run i n) (i n) (queue dp cutReady n)

/-- In every run the registers hold the queue. -/
theorem holds_queue (hdp : 0 < dp) (n : ℕ) : Holds ((machine dp dw cutReady).run i n) (queue i dp cutReady n) := by
  induction n with
  | zero => exact holds_reset hdp
  | succ n ih => exact ih.next

/-- What was taken is what was given away, in order, and what the queue still holds. -/
theorem pushed_eq_popped (hdp : 0 < dp) (n : ℕ) :
    log (fun m => pushed cutReady ((machine dp dw cutReady).run i m) (i m)) n =
      log (fun m => popped ((machine dp dw cutReady).run i m) (i m)) n ++ queue i dp cutReady n :=
  log_eq_log_append rfl (fun m => (holds_queue i hdp m).conservation) n

end GnrlFifo
