import ZrSoc.Sync.PushQueue
import ZrSoc.Sync.OneHot
import Mathlib.Data.BitVec
import Mathlib.Data.Nat.Log

/-!
# The FIFO with status counter (`rtl/pulp/fifo_v3.sv`)

`DEPTH` entries of any type with binary read and write pointers and a counter of the entries.  The memory of the
model has a place for every value of a pointer; the pointers stay below `FIFO_DEPTH`, so that the others are never
used.  The part select `FIFO_DEPTH[ADDR_DEPTH:0]` of the source exists up to `DEPTH = 2 ** 31`.

A pointer is compared with `FIFO_DEPTH[ADDR_DEPTH-1:0] - 1` in the 32 bits of the literal: for a power of two the
difference is `2 ** 32 - 1`, which no pointer equals, and the pointer wraps by overflow (`incr_toNat`).
-/

namespace FifoV3

open Sync OneHot

variable {T : Type*} {depth : ℕ}

def addrDepth (depth : ℕ) : ℕ := if 1 < depth then Nat.clog 2 depth else 1

def fifoDepth (depth : ℕ) : ℕ := if 0 < depth then depth else 1

structure State (T : Type*) (depth : ℕ) where
  readPointerQ : BitVec (addrDepth depth)
  writePointerQ : BitVec (addrDepth depth)
  statusCntQ : BitVec (addrDepth depth + 1)
  memQ : BitVec (addrDepth depth) → T

structure Input (T : Type*) where
  flushI : Bool
  dataI : T
  pushI : Bool
  popI : Bool

variable (fallThrough : Bool) (s : State T depth) (x : Input T)

def fullO : Bool := if depth = 0 then !x.popI else s.statusCntQ == BitVec.ofNat _ (fifoDepth depth)

def emptyO : Bool := if depth = 0 then !x.pushI else s.statusCntQ == 0 && !(fallThrough && x.pushI)

def usageO : BitVec (addrDepth depth) := s.statusCntQ.setWidth _

def dataO : T :=
  if fallThrough && s.statusCntQ == 0 && x.pushI then x.dataI
  else if depth = 0 then x.dataI else s.memQ s.readPointerQ

/-- `pointer == FIFO_DEPTH[ADDR_DEPTH-1:0] - 1`, in 32 bits. -/
def isLast (p : BitVec (addrDepth depth)) : Bool :=
  p.setWidth 32 == (BitVec.ofNat (addrDepth depth) (fifoDepth depth)).setWidth 32 - 1

def incr (p : BitVec (addrDepth depth)) : BitVec (addrDepth depth) := if isLast p then 0 else p + 1

/-- An entry is written into the memory. -/
def pushes : Bool := x.pushI && !fullO s x

/-- An entry is removed. -/
def pops : Bool := x.popI && !emptyO fallThrough s x

/-- The entry that is pushed into the empty FIFO is popped in the same cycle. -/
def passesThrough : Bool := fallThrough && s.statusCntQ == 0 && x.pushI && x.popI

def writePointerN : BitVec (addrDepth depth) :=
  if passesThrough fallThrough s x then s.writePointerQ
  else if pushes s x then incr s.writePointerQ else s.writePointerQ

def readPointerN : BitVec (addrDepth depth) :=
  if passesThrough fallThrough s x then s.readPointerQ
  else if pops fallThrough s x then incr s.readPointerQ else s.readPointerQ

def statusCntN : BitVec (addrDepth depth + 1) :=
  if passesThrough fallThrough s x then s.statusCntQ
  else if x.pushI && x.popI && !fullO s x && !emptyO fallThrough s x then s.statusCntQ
  else if pops fallThrough s x then s.statusCntQ - 1
  else if pushes s x then s.statusCntQ + 1
  else s.statusCntQ

def memN (p : BitVec (addrDepth depth)) : T := if pushes s x && p == s.writePointerQ then x.dataI else s.memQ p

def reset [Zero T] : State T depth where
  readPointerQ := 0
  writePointerQ := 0
  statusCntQ := 0
  memQ := fun _ => 0

/-- A flush clears the pointers and the counter, not the memory. -/
def edge : State T depth where
  readPointerQ := if x.flushI then 0 else readPointerN fallThrough s x
  writePointerQ := if x.flushI then 0 else writePointerN fallThrough s x
  statusCntQ := if x.flushI then 0 else statusCntN fallThrough s x
  memQ := memN s x

/-- The FIFO as a clocked circuit. -/
def machine (T : Type*) [Zero T] (fallThrough : Bool) (depth : ℕ) : Machine (State T depth) (Input T) where
  reset := reset
  edge := edge fallThrough

/-! ### The pointers -/

variable {fallThrough s x}

theorem fifoDepth_pos (depth : ℕ) : 0 < fifoDepth depth := by unfold fifoDepth; split <;> omega

theorem fifoDepth_le (depth : ℕ) : fifoDepth depth ≤ 2 ^ addrDepth depth := by
  unfold fifoDepth addrDepth
  by_cases h : 1 < depth
  · have hpos : 0 < depth := by omega
    rw [if_pos hpos, if_pos h]
    exact Nat.le_pow_clog (by omega) depth
  · rw [if_neg h]
    split <;> omega

theorem addrDepth_lt (hd : depth ≤ 2 ^ 31) : addrDepth depth < 32 := by
  unfold addrDepth
  split
  · exact Nat.lt_succ_of_le (Nat.clog_le_of_le_pow hd)
  · omega

theorem addrDepth_pos (depth : ℕ) : 0 < addrDepth depth := by
  unfold addrDepth
  split
  next h => exact Nat.clog_pos (by omega) h
  next => omega

/-- The comparison finds the last place, unless the places are all that the pointer can name. -/
theorem isLast_iff (hd : depth ≤ 2 ^ 31) {p : BitVec (addrDepth depth)} (hp : p.toNat < fifoDepth depth) :
    isLast p = true ↔ fifoDepth depth < 2 ^ addrDepth depth ∧ p.toNat + 1 = fifoDepth depth := by
  have hle := fifoDepth_le depth
  have hpos := fifoDepth_pos depth
  have hpow : 2 ^ addrDepth depth ≤ 2 ^ 31 := Nat.pow_le_pow_right (by omega) (by have := addrDepth_lt hd; omega)
  rw [isLast, beq_iff_eq, BitVec.toNat_eq, BitVec.toNat_sub, BitVec.toNat_setWidth, BitVec.toNat_setWidth,
    BitVec.toNat_ofNat, show BitVec.toNat (1 : BitVec 32) = 1 from rfl]
  rcases Nat.lt_or_eq_of_le hle with hlt | heq
  · rw [Nat.mod_eq_of_lt hlt]
    omega
  · rw [heq, Nat.mod_self]
    omega

/-- Incrementing a pointer moves it to the next place of the ring. -/
theorem incr_toNat (hd : depth ≤ 2 ^ 31) {p : BitVec (addrDepth depth)} (hp : p.toNat < fifoDepth depth) :
    (incr p).toNat = next (fifoDepth depth) p.toNat := by
  have hle := fifoDepth_le depth
  have hlast := isLast_iff hd hp
  unfold incr next
  split
  next h =>
    have := hlast.1 h
    rw [if_neg (by omega)]
    rfl
  next h =>
    rw [hlast, not_and] at h
    have hone : 1 < 2 ^ addrDepth depth := Nat.one_lt_two_pow (by have := addrDepth_pos depth; omega)
    rw [BitVec.toNat_add, show (1 : BitVec (addrDepth depth)).toNat = 1 from BitVec.toNat_one (by
      have := addrDepth_pos depth; omega)]
    split
    next hlt => exact Nat.mod_eq_of_lt (by omega)
    next hge =>
      -- the last place of all that the pointer can name: it overflows
      have heq : p.toNat + 1 = 2 ^ addrDepth depth := by omega
      rw [heq, Nat.mod_self]

/-! ### The queue -/

/-- What the strobes ask of the queue. -/
def strobes (x : Input T) : PushQueue.Input T := ⟨x.flushI, x.pushI, x.dataI, x.popI⟩

/-- A FIFO without places is a wire. -/
def bypass (fallThrough : Bool) (depth : ℕ) : Bool := fallThrough || depth == 0

/-- The registers hold the queue `q`: its entries are those on the ring from the read pointer on. -/
structure Holds (s : State T depth) (q : List T) : Prop where
  length_le : q.length ≤ depth
  status : s.statusCntQ.toNat = q.length
  read_lt : s.readPointerQ.toNat < fifoDepth depth
  write : s.writePointerQ.toNat = slot (fifoDepth depth) s.readPointerQ.toNat q.length
  mem : ∀ (p : BitVec (addrDepth depth)) (k : ℕ), k < q.length →
    p.toNat = slot (fifoDepth depth) s.readPointerQ.toNat k → q[k]? = some (s.memQ p)

variable {q : List T}

theorem holds_zero {m : BitVec (addrDepth depth) → T} : Holds (T := T) ⟨0, 0, 0, m⟩ [] where
  length_le := Nat.zero_le _
  status := rfl
  read_lt := fifoDepth_pos depth
  write := (slot_zero (fifoDepth_pos depth)).symm
  mem := fun _ _ hk => absurd hk (by simp)

theorem Holds.status_zero (h : Holds s q) : (s.statusCntQ == 0) = q.isEmpty := by
  rw [Bool.eq_iff_iff, beq_iff_eq, BitVec.toNat_eq, h.status, List.isEmpty_iff_length_eq_zero]
  rfl

theorem Holds.fullO_eq (h : Holds s q) : fullO s x = PushQueue.full depth q (strobes x) := by
  unfold fullO PushQueue.full
  split
  · rfl
  next hd =>
    have hle := fifoDepth_le depth
    have hfd : fifoDepth depth = depth := if_pos (by omega)
    rw [Bool.eq_iff_iff, beq_iff_eq, beq_iff_eq, BitVec.toNat_eq, h.status, BitVec.toNat_ofNat,
      Nat.mod_eq_of_lt (by rw [Nat.pow_succ]; omega), hfd]

theorem Holds.emptyO_eq (h : Holds s q) :
    emptyO fallThrough s x = PushQueue.empty (bypass fallThrough depth) q (strobes x) := by
  unfold emptyO PushQueue.empty bypass
  split
  next hd =>
    obtain rfl : q = [] := List.eq_nil_of_length_eq_zero (by have := h.length_le; omega)
    simp [hd, strobes]
  next hd => rw [h.status_zero, beq_false_of_ne hd, Bool.or_false, strobes]

/-- The entry on the output is the one that the queue shows, unless the FIFO shows that it is empty. -/
theorem Holds.dataO_eq (h : Holds s q) (he : emptyO fallThrough s x = false) :
    PushQueue.head (bypass fallThrough depth) q (strobes x) = some (dataO fallThrough s x) := by
  rw [h.emptyO_eq] at he
  unfold PushQueue.head dataO
  rw [h.status_zero]
  cases q with
  | nil =>
    have hby : bypass fallThrough depth = true ∧ x.pushI = true := by
      simpa [PushQueue.empty, strobes] using he
    obtain ⟨hby, hpush⟩ := hby
    cases hft : fallThrough with
    | true => simp [bypass, strobes, hpush]
    | false =>
      have hd : depth = 0 := by simpa [bypass, hft] using hby
      simp [bypass, hd, strobes, hpush]
  | cons a q =>
    have hd : depth ≠ 0 := by have := h.length_le; rw [List.length_cons] at this; omega
    have hmem := h.mem s.readPointerQ 0 (by simp) (slot_zero h.read_lt).symm
    simpa [hd] using hmem

theorem Holds.pushed_eq (h : Holds s q) :
    PushQueue.pushed depth q (strobes x) = if pushes s x then some x.dataI else none := by
  rw [PushQueue.pushed, ← h.fullO_eq]
  rfl

theorem Holds.pops_eq (h : Holds s q) :
    ((strobes x).pop && !PushQueue.empty (bypass fallThrough depth) q (strobes x)) = pops fallThrough s x := by
  rw [← h.emptyO_eq]
  rfl

/-- A FIFO that pops is not empty, or passes an entry through. -/
theorem Holds.pops_cases (h : Holds s q) (hd : depth ≠ 0) (hr : pops fallThrough s x = true) :
    q ≠ [] ∨ passesThrough fallThrough s x = true := by
  rw [← h.pops_eq, Bool.and_eq_true, Bool.not_eq_true', bypass, beq_false_of_ne hd, Bool.or_false] at hr
  obtain ⟨hpop, he⟩ := hr
  cases q with
  | cons a q => exact Or.inl (by simp)
  | nil =>
    right
    simp only [PushQueue.empty, List.isEmpty_nil, Bool.true_and, Bool.not_eq_false', Bool.and_eq_true] at he
    rw [passesThrough, h.status_zero]
    simp [he.1, show x.pushI = true from he.2, show x.popI = true from hpop]

theorem Holds.pushes_lt (h : Holds s q) (hd : depth ≠ 0) (hp : pushes s x = true) : q.length < depth := by
  have hle := h.length_le
  rw [pushes, Bool.and_eq_true, h.fullO_eq, PushQueue.full, if_neg hd] at hp
  have hne : q.length ≠ depth := by simpa using hp.2
  omega

theorem passesThrough_strobes (hd : depth ≠ 0) (hp : passesThrough fallThrough s x = true) :
    pushes s x = true ∧ pops fallThrough s x = true := by
  have hfd : fifoDepth depth = depth := if_pos (by omega)
  have hle := fifoDepth_le depth
  simp only [passesThrough, Bool.and_eq_true, beq_iff_eq] at hp
  obtain ⟨⟨⟨hft, h0⟩, hpush⟩, hpop⟩ := hp
  have hfull : fullO s x = false := by
    rw [fullO, if_neg hd, h0, beq_eq_false_iff_ne, ne_eq, BitVec.toNat_eq, BitVec.toNat_ofNat,
      Nat.mod_eq_of_lt (by rw [Nat.pow_succ]; omega), hfd]
    exact fun heq => hd heq.symm
  have hempty : emptyO fallThrough s x = false := by simp [emptyO, hd, h0, hft, hpush]
  simp [pushes, pops, hpush, hpop, hfull, hempty]

theorem Holds.next_eq (h : Holds s q) (hf : x.flushI = false) :
    PushQueue.next depth (bypass fallThrough depth) q (strobes x) =
      (q ++ (if pushes s x then some x.dataI else none).toList).drop (pops fallThrough s x).toNat := by
  rw [PushQueue.next, show (strobes x).flush = false from hf, if_neg (by simp), h.pops_eq, h.pushed_eq]

/-- The counter follows the length of the queue. -/
theorem Holds.statusCntN_toNat (h : Holds s q) (hd : depth ≠ 0) : (statusCntN fallThrough s x).toNat =
    q.length + (pushes s x).toNat - (pops fallThrough s x).toNat := by
  have hle := fifoDepth_le depth
  have hfd : fifoDepth depth = depth := if_pos (by omega)
  have hpow : 2 ^ (addrDepth depth + 1) = 2 * 2 ^ addrDepth depth := by rw [Nat.pow_succ, Nat.mul_comm]
  have hone : (1 : BitVec (addrDepth depth + 1)).toNat = 1 := BitVec.toNat_one (by omega)
  have hboth : (x.pushI && x.popI && !fullO s x && !emptyO fallThrough s x) =
      (pushes s x && pops fallThrough s x) := by
    rw [pushes, pops]
    cases x.pushI <;> cases x.popI <;> simp
  unfold statusCntN
  rw [hboth]
  cases hpt : passesThrough fallThrough s x with
  | true =>
    obtain ⟨hp, hr⟩ := passesThrough_strobes hd hpt
    simp [hp, hr, h.status]
  | false =>
    cases hr : pops fallThrough s x with
    | false =>
      cases hp : pushes s x with
      | false => simp [h.status]
      | true =>
        have hlt := h.pushes_lt hd hp
        simp only [Bool.false_eq_true, if_false, Bool.and_false, if_true, BitVec.toNat_add, hone, h.status]
        rw [Nat.mod_eq_of_lt (by omega)]
        rfl
    | true =>
      cases hp : pushes s x with
      | true => simp [h.status]
      | false =>
        have hq : q ≠ [] := (h.pops_cases hd hr).resolve_right (by simp [hpt])
        have hpos : 0 < q.length := List.length_pos_iff.2 hq
        have hlen := h.length_le
        simp only [Bool.false_eq_true, if_false, Bool.false_and, if_true, BitVec.toNat_sub, hone, h.status]
        rw [show 2 ^ (addrDepth depth + 1) - 1 + q.length = 2 ^ (addrDepth depth + 1) + (q.length - 1) by omega,
          Nat.add_mod_left, Nat.mod_eq_of_lt (by omega)]
        rfl

/-- The pointers follow the two ends of the queue. -/
theorem Holds.pointers_toNat (h : Holds s q) (hd : depth ≤ 2 ^ 31) (h0 : depth ≠ 0)
    (hpt : passesThrough fallThrough s x = false) :
    (readPointerN fallThrough s x).toNat =
        (if pops fallThrough s x then next depth s.readPointerQ.toNat else s.readPointerQ.toNat) ∧
      (writePointerN fallThrough s x).toNat =
        slot depth s.readPointerQ.toNat (q.length + (pushes s x).toNat) := by
  have hfd : fifoDepth depth = depth := if_pos (by omega)
  have hr := h.read_lt
  have hw := h.write
  constructor
  · simp only [readPointerN, hpt, Bool.false_eq_true, if_false]
    split
    · rw [incr_toNat hd hr, hfd]
    · rfl
  · rw [hfd] at hr hw
    simp only [writePointerN, hpt, Bool.false_eq_true, if_false]
    cases hp : pushes s x with
    | false => simpa using hw
    | true =>
      have hlt := h.pushes_lt h0 hp
      rw [if_pos rfl, incr_toNat hd (by rw [hw, hfd]; exact slot_lt hr (by omega)), hw, hfd, next_slot hr hlt,
        Bool.toNat_true]

/-- An entry that is popped or stays is not overwritten by the one that is pushed. -/
theorem Holds.memN_eq (h : Holds s q) (h0 : depth ≠ 0) {p : BitVec (addrDepth depth)} {k : ℕ}
    (hk : k < q.length + (pushes s x).toNat) (hp : p.toNat = slot depth s.readPointerQ.toNat k) :
    (q ++ (if pushes s x then some x.dataI else none).toList)[k]? = some (memN s x p) := by
  have hfd : fifoDepth depth = depth := if_pos (by omega)
  have hr := h.read_lt
  have hw := h.write
  have hmem := h.mem p k
  rw [hfd] at hr hw hmem
  unfold memN
  rcases Nat.lt_or_ge k q.length with hlt | hge
  · rw [List.getElem?_append_left hlt, hmem hlt hp]
    cases hpush : pushes s x with
    | false => rfl
    | true =>
      have hlen := h.pushes_lt h0 hpush
      have hne : p ≠ s.writePointerQ := by
        rw [ne_eq, BitVec.toNat_eq, hp, hw]
        exact slot_ne hlt (by omega)
      simp [hne]
  · cases hpush : pushes s x with
    | false => rw [hpush] at hk; simp at hk; omega
    | true =>
      obtain rfl : k = q.length := by rw [hpush, Bool.toNat_true] at hk; omega
      have heq : p = s.writePointerQ := by rw [BitVec.toNat_eq, hp, hw]
      simp [heq]

/-- A FIFO without places stays empty: what it pushes is popped in the same cycle. -/
theorem Holds.edge_wire {s : State T 0} (h : Holds s q) {m : BitVec (addrDepth 0) → T} :
    Holds ⟨readPointerN fallThrough s x, writePointerN fallThrough s x, statusCntN fallThrough s x, m⟩ [] := by
  obtain rfl : q = [] := List.eq_nil_of_length_eq_zero (Nat.le_zero.1 h.length_le)
  have hr : s.readPointerQ.toNat = 0 := Nat.lt_one_iff.1 h.read_lt
  have hw : s.writePointerQ.toNat = 0 := by
    rw [h.write, hr]
    rfl
  have hincr (p : BitVec (addrDepth 0)) (hp : p.toNat = 0) : (incr p).toNat = 0 := by
    rw [incr_toNat (by omega) (by rw [hp]; exact fifoDepth_pos _), hp]
    rfl
  have hr' : (readPointerN fallThrough s x).toNat = 0 := by
    unfold readPointerN
    split
    · exact hr
    · split
      · exact hincr _ hr
      · exact hr
  have hw' : (writePointerN fallThrough s x).toNat = 0 := by
    unfold writePointerN
    split
    · exact hw
    · split
      · exact hincr _ hw
      · exact hw
  have hs' : statusCntN fallThrough s x = s.statusCntQ := by
    cases hpush : x.pushI <;> cases hpop : x.popI <;> simp [statusCntN, pushes, pops, fullO, emptyO, hpush, hpop]
  refine ⟨Nat.le_refl 0, ?_, ?_, ?_, fun _ _ hk => absurd hk (by simp)⟩
  · rw [hs', h.status]
  · rw [hr']
    exact fifoDepth_pos _
  · rw [hr', hw']
    rfl

/-- An entry that passes through an empty FIFO changes the memory only. -/
theorem Holds.edge_through (h : Holds s q) (h0 : depth ≠ 0) (hpt : passesThrough fallThrough s x = true) :
    Holds ⟨readPointerN fallThrough s x, writePointerN fallThrough s x, statusCntN fallThrough s x, memN s x⟩
      ((q ++ (if pushes s x then some x.dataI else none).toList).drop (pops fallThrough s x).toNat) := by
  obtain ⟨hp, hr⟩ := passesThrough_strobes h0 hpt
  have hq : q = [] := by
    simp only [passesThrough, Bool.and_eq_true] at hpt
    rw [← List.isEmpty_iff, ← h.status_zero]
    exact hpt.1.1.2
  subst hq
  simp only [readPointerN, writePointerN, statusCntN, hpt, hp, hr, if_true]
  exact ⟨Nat.zero_le _, h.status, h.read_lt, h.write, fun _ _ hk => absurd hk (by simp)⟩

/-- A clock edge moves the registers as the queue moves. -/
theorem Holds.edge (h : Holds s q) (hd : depth ≤ 2 ^ 31) : Holds (FifoV3.edge fallThrough s x)
    (PushQueue.next depth (bypass fallThrough depth) q (strobes x)) := by
  have hby : depth = 0 → bypass fallThrough depth = true := by rintro rfl; simp [bypass]
  have hlen := PushQueue.length_next_le (x := strobes x) hby h.length_le
  unfold FifoV3.edge
  cases hf : x.flushI with
  | true =>
    rw [PushQueue.next, if_pos (show (strobes x).flush = true from hf)]
    exact holds_zero
  | false =>
    simp only [Bool.false_eq_true, if_false]
    rcases Nat.eq_zero_or_pos depth with rfl | hpos
    · rw [List.eq_nil_of_length_eq_zero (Nat.le_zero.1 hlen)]
      exact h.edge_wire
    have h0 : depth ≠ 0 := by omega
    rw [h.next_eq hf] at hlen ⊢
    cases hpt : passesThrough fallThrough s x with
    | true => exact h.edge_through h0 hpt
    | false =>
      have hfd : fifoDepth depth = depth := if_pos hpos
      have hr := h.read_lt
      rw [hfd] at hr
      obtain ⟨hread, hwrite⟩ := h.pointers_toNat hd h0 hpt
      -- an entry is popped from a queue that has one
      have hpops : (pops fallThrough s x).toNat ≤ q.length := by
        cases hrd : pops fallThrough s x with
        | false => exact Nat.zero_le _
        | true =>
          exact List.length_pos_iff.2 ((h.pops_cases h0 hrd).resolve_right (by simp [hpt]))
      have hpush : ((if pushes s x then some x.dataI else none).toList).length = (pushes s x).toNat := by
        cases pushes s x <;> rfl
      have hroom : q.length + (pushes s x).toNat ≤ depth := by
        cases hp : pushes s x with
        | false => simpa using h.length_le
        | true => exact h.pushes_lt h0 hp
      have hstep (k : ℕ) (hk : k + (pops fallThrough s x).toNat ≤ depth) :
          slot depth (readPointerN fallThrough s x).toNat k =
            slot depth s.readPointerQ.toNat (k + (pops fallThrough s x).toNat) := by
        rw [hread]
        cases hrd : pops fallThrough s x with
        | false => rfl
        | true =>
          rw [hrd, Bool.toNat_true] at hk
          exact slot_next hr (by omega)
      refine ⟨hlen, ?_, ?_, ?_, ?_⟩
      · rw [h.statusCntN_toNat h0, List.length_drop, List.length_append, hpush]
      · rw [hread, hfd]
        split
        · exact next_lt hr
        · exact hr
      · rw [hwrite, hfd, List.length_drop, List.length_append, hpush, hstep _ (by omega),
          Nat.sub_add_cancel (by omega)]
      · intro p k hk hp
        rw [List.length_drop, List.length_append, hpush] at hk
        rw [hfd, hstep k (by omega)] at hp
        rw [List.getElem?_drop, Nat.add_comm, h.memN_eq h0 (by omega) hp]

/-! ### Whole runs -/

section Runs

variable [Zero T] (i : ℕ → Input T)

/-- The entries at the beginning of cycle `n`, as a queue with the same strobes keeps them. -/
def stored (fallThrough : Bool) (depth : ℕ) (i : ℕ → Input T) (n : ℕ) : List T :=
  PushQueue.contents depth (bypass fallThrough depth) (fun m => strobes (i m)) n

theorem holds_stored (hd : depth ≤ 2 ^ 31) (n : ℕ) :
    Holds ((machine T fallThrough depth).run i n) (stored fallThrough depth i n) := by
  induction n with
  | zero => exact holds_zero
  | succ n ih => exact ih.edge hd

/-- What the ports show to be pushed in cycle `n`. -/
def pushed (fallThrough : Bool) (depth : ℕ) (i : ℕ → Input T) (n : ℕ) : Option T :=
  if (i n).pushI && !fullO ((machine T fallThrough depth).run i n) (i n) then some (i n).dataI else none

/-- What the ports show to be popped in cycle `n`. -/
def popped (fallThrough : Bool) (depth : ℕ) (i : ℕ → Input T) (n : ℕ) : Option T :=
  if (i n).popI && !emptyO fallThrough ((machine T fallThrough depth).run i n) (i n) then
    some (dataO fallThrough ((machine T fallThrough depth).run i n) (i n))
  else none

theorem pushed_eq_queue (hd : depth ≤ 2 ^ 31) (n : ℕ) : pushed fallThrough depth i n =
    PushQueue.pushed depth (stored fallThrough depth i n) (strobes (i n)) := by
  rw [(holds_stored i hd n).pushed_eq]
  rfl

theorem popped_eq_queue (hd : depth ≤ 2 ^ 31) (n : ℕ) : popped fallThrough depth i n =
    PushQueue.popped (bypass fallThrough depth) (stored fallThrough depth i n) (strobes (i n)) := by
  have h : Holds ((machine T fallThrough depth).run i n) (stored fallThrough depth i n) := holds_stored i hd n
  rw [PushQueue.popped, h.pops_eq, popped, pops]
  split
  next hp =>
    rw [Bool.and_eq_true, Bool.not_eq_true'] at hp
    rw [h.dataO_eq hp.2]
  next => rfl

/-- In every run, with pushes and pops whether the FIFO can carry them out or not, what was pushed since the last
flush is what was popped since then, in order, and what is stored; the flags and the output are those of the queue.
The fill pointer lacks the top bit of the counter: it shows 0 when a FIFO with a power of two of places is full. -/
theorem refines_pushQueue (hd : depth ≤ 2 ^ 31) (fallThrough : Bool) (n : ℕ) :
    PushQueue.sinceFlush (fun m => strobes (i m)) (pushed fallThrough depth i) n =
        PushQueue.sinceFlush (fun m => strobes (i m)) (popped fallThrough depth i) n ++
          stored fallThrough depth i n ∧
      (stored fallThrough depth i n).length ≤ depth ∧
      fullO ((machine T fallThrough depth).run i n) (i n) =
        PushQueue.full depth (stored fallThrough depth i n) (strobes (i n)) ∧
      emptyO fallThrough ((machine T fallThrough depth).run i n) (i n) =
        PushQueue.empty (bypass fallThrough depth) (stored fallThrough depth i n) (strobes (i n)) ∧
      (emptyO fallThrough ((machine T fallThrough depth).run i n) (i n) = false →
        PushQueue.head (bypass fallThrough depth) (stored fallThrough depth i n) (strobes (i n)) =
          some (dataO fallThrough ((machine T fallThrough depth).run i n) (i n))) ∧
      (usageO ((machine T fallThrough depth).run i n)).toNat =
        (stored fallThrough depth i n).length % 2 ^ addrDepth depth := by
  have h : Holds ((machine T fallThrough depth).run i n) (stored fallThrough depth i n) := holds_stored i hd n
  have hby : depth = 0 → bypass fallThrough depth = true := by rintro rfl; simp [bypass]
  have hpushed : pushed fallThrough depth i = fun m => _ := funext fun m => pushed_eq_queue i hd m
  have hpopped : popped fallThrough depth i = fun m => _ := funext fun m => popped_eq_queue i hd m
  refine ⟨?_, h.length_le, h.fullO_eq, h.emptyO_eq, h.dataO_eq, ?_⟩
  · rw [hpushed, hpopped]
    exact PushQueue.sinceFlush_eq (fun m => strobes (i m)) hby n
  · rw [usageO, BitVec.toNat_setWidth, h.status]

/-- A FIFO with three places is told to push in every cycle and to pop in none: it keeps the first three entries. -/
def pushOnly (n : ℕ) : Input (BitVec 8) := ⟨false, BitVec.ofNat 8 n, true, false⟩

theorem refines_pushQueue_pushOnly : stored false 3 pushOnly 5 = [0#8, 1#8, 2#8] ∧
    fullO ((machine (BitVec 8) false 3).run pushOnly 5) (pushOnly 5) = true := by
  refine ⟨by decide, ?_⟩
  rw [(refines_pushQueue pushOnly (show 3 ≤ 2 ^ 31 by omega) false 5).2.2.1]
  decide

end Runs

end FifoV3
