import ZrSoc.Sync.BoundedQueue
import ZrSoc.GnrlFifo
import ZrSoc.Queue1

/-!
# The FIFOs refine bounded queues

The two FIFOs of the design have the ports of a bounded queue.  In every run from reset, whatever their memories hold at
that time, the byte queue of the peripherals is the queue of eight places (`Queue1.refines_queue`), and the FIFO of the
interconnect is the queue of `DP` places (`GnrlFifo.refines_boundedQueue`), which with a single place and without
`CUT_READY` takes an entry also in the cycle in which it gives one away.
-/

open Sync

namespace Queue1

def machine (ram : Vector (BitVec 8) 8) : Machine State Input where
  reset := reset ram
  edge := edge

def ports : BoundedQueue.Ports State Input (BitVec 8) where
  input := fun x => ⟨x.enqValid, x.enqBits, x.deqReady⟩
  ready := fun s _ => enqReady s
  valid := deqValid
  head := deqBits

variable {s : State} {x : Input}

private theorem deqValid_eq : deqValid s = !(entries s).isEmpty := by
  rw [Bool.eq_iff_iff, deqValid_iff, ← length_entries]
  cases entries s <;> simp

private theorem enqReady_eq : enqReady s = BoundedQueue.hasRoom 8 false (entries s) (ports.input x) := by
  rw [Bool.eq_iff_iff, enqReady_iff, BoundedQueue.hasRoom_iff, length_entries]
  simp

private theorem deqBits_head {a : BitVec 8} (ha : a ∈ (entries s).head?) : deqBits s = a := by
  rw [List.head?_eq_getElem?, getElem?_entries] at ha
  split at ha
  next => rw [deqBits_eq]; exact Option.some.inj ha
  next => simp at ha

theorem shows_entries (s : State) : BoundedQueue.Shows 8 false ports s (entries s) where
  ready := fun _ => enqReady_eq
  valid := deqValid_eq
  head := fun _ ha => deqBits_head ha

/-- The entries are moved as those of a queue. -/
theorem entries_edge : entries (edge s x) = BoundedQueue.next 8 false (entries s) (ports.input x) := by
  have hs := shows_entries s
  have hpop : popped s x = BoundedQueue.given (entries s) (ports.input x) := by
    rw [← hs.popped_eq, popped, deq, Bool.and_comm]
    rfl
  have hpush : pushed s x = BoundedQueue.taken 8 false (entries s) (ports.input x) := by
    rw [← hs.pushed_eq, pushed, enq, Bool.and_comm]
    rfl
  have hc := conservation (s := s) (x := x)
  rw [hpop, hpush, BoundedQueue.conservation] at hc
  exact (List.append_cancel_left hc).symm

theorem refines (ram : Vector (BitVec 8) 8) :
    BoundedQueue.Refines 8 false (machine ram) ports fun s q => entries s = q where
  reset := entries_reset ram
  edge := fun s q x h => by rw [← h]; exact entries_edge
  shows := fun s q h => h ▸ shows_entries s

/-- The entries stored at the beginning of cycle `n`, as a queue of eight places keeps them. -/
def stored (i : ℕ → Input) (n : ℕ) : List (BitVec 8) :=
  BoundedQueue.contents 8 false (fun m => ports.input (i m)) n

/-- In every run the byte queue is a queue of eight places, and counts what it holds. -/
theorem refines_queue (ram : Vector (BitVec 8) 8) (i : ℕ → Input) (n : ℕ) :
    log (fun m => pushed ((machine ram).run i m) (i m)) n =
        log (fun m => popped ((machine ram).run i m) (i m)) n ++ stored i n ∧
      (enqReady ((machine ram).run i n) = true ↔ (stored i n).length < 8) ∧
      (deqValid ((machine ram).run i n) = true ↔ 1 ≤ (stored i n).length) ∧
      (count ((machine ram).run i n)).toNat = (stored i n).length := by
  have hq : entries ((machine ram).run i n) = stored i n := (refines ram).run i n
  have hlen : (count ((machine ram).run i n)).toNat = (stored i n).length := by rw [← hq, length_entries]
  have hlog := log_eq_log_append (b := fun m => entries ((machine ram).run i m)) (entries_reset ram)
    (fun m => conservation (s := (machine ram).run i m) (x := i m)) n
  rw [hq] at hlog
  refine ⟨hlog, ?_, ?_, hlen⟩
  · rw [enqReady_iff, hlen]
  · rw [deqValid_iff, hlen, Nat.lt_iff_add_one_le]

end Queue1

namespace GnrlFifo

/-- The FIFO as a clocked circuit whose entries are arbitrary under reset. -/
def machineFrom {dp dw : ℕ} (fifoRf : Fin dp → BitVec dw) (cutReady : Bool) : Machine (State dp dw) (Input dw) where
  reset := { (reset : State dp dw) with fifoRf := fifoRf }
  edge := edge cutReady

/-- `o_dat`, with and without the mask of the parameter `MSKO`. -/
def maskedDat {dp dw : ℕ} (msko : Bool) (s : State dp dw) : BitVec dw :=
  if msko && !oVld s then 0 else oDat s

def queueInput {dw : ℕ} (x : Input dw) : BoundedQueue.Input (BitVec dw) := ⟨x.iVld, x.iDat, x.oRdy⟩

def ports (dp dw : ℕ) (cutReady msko : Bool) : BoundedQueue.Ports (State dp dw) (Input dw) (BitVec dw) where
  input := queueInput
  ready := fun s x => iRdy cutReady s x.oRdy
  valid := oVld
  head := maskedDat msko

/-- A full FIFO takes an entry when it gives one away. -/
def through (dp : ℕ) (cutReady : Bool) : Bool := decide (dp = 1) && !cutReady

variable {dp dw : ℕ} {cutReady msko : Bool} {s : State dp dw} {x : Input dw} {q : List (BitVec dw)}

theorem holds_from (fifoRf : Fin dp → BitVec dw) (hdp : 0 < dp) :
    Holds { (reset : State dp dw) with fifoRf := fifoRf } [] := by
  have h : Holds (reset : State dp dw) [] := holds_reset hdp
  obtain ⟨r, hr, hrp, hwp, -⟩ := h.ring
  exact ⟨h.length_le, h.vec, r, hr, hrp, hwp, fun _ _ hk => absurd hk (by simp)⟩

theorem Holds.ren_eq (h : Holds s q) : ren s x.oRdy = BoundedQueue.gives q (queueInput x) := by
  rw [ren, BoundedQueue.gives, h.oVld_eq]
  cases q <;> rfl

theorem Holds.iRdy_eq (h : Holds s q) : iRdy cutReady s x.oRdy =
    BoundedQueue.hasRoom dp (through dp cutReady) q (queueInput x) := by
  rw [Bool.eq_iff_iff, h.iRdy_iff, BoundedQueue.hasRoom_iff, through, h.ren_eq]
  simp [and_assoc]

theorem Holds.shows (h : Holds s q) :
    BoundedQueue.Shows dp (through dp cutReady) (ports dp dw cutReady msko) s q where
  ready := fun _ => h.iRdy_eq
  valid := by
    rw [show (ports dp dw cutReady msko).valid s = oVld s from rfl, h.oVld_eq]
    cases q <;> rfl
  head := fun a ha => by
    have hpos : 0 < q.length := List.length_pos_of_mem (List.mem_of_mem_head? ha)
    have hhead : oDat s = a := by
      rw [List.head?_eq_getElem?, h.oDat_eq hpos] at ha
      exact Option.some.inj ha
    have hv : oVld s = true := by rw [h.oVld_eq, decide_eq_true hpos]
    rw [show (ports dp dw cutReady msko).head s = maskedDat msko s from rfl, maskedDat, hv, hhead]
    simp

theorem Holds.nextQueue_eq (h : Holds s q) : nextQueue cutReady s x q =
    BoundedQueue.next dp (through dp cutReady) q (queueInput x) := by
  rw [nextQueue, BoundedQueue.next, BoundedQueue.takes, ← h.ren_eq, ← h.iRdy_eq]
  rfl

theorem refines (fifoRf : Fin dp → BitVec dw) (hdp : 0 < dp) : BoundedQueue.Refines dp (through dp cutReady)
    (machineFrom fifoRf cutReady) (ports dp dw cutReady msko) Holds where
  reset := holds_from fifoRf hdp
  edge := fun s q x h => by
    rw [show (ports dp dw cutReady msko).input x = queueInput x from rfl, ← h.nextQueue_eq]
    exact h.next
  shows := fun _ _ h => h.shows

/-- The registers `s` are those of a FIFO that holds the queue `q`. -/
structure IsFifo (cutReady msko : Bool) (s : State dp dw) (q : List (BitVec dw)) : Prop where
  valid : oVld s = true ↔ q ≠ []
  ready : ∀ oRdy, iRdy cutReady s oRdy = true ↔
    q.length ≠ dp ∨ dp = 1 ∧ cutReady = false ∧ (oVld s = true ∧ oRdy = true)
  dat : ∀ a ∈ q.head?, maskedDat msko s = a
  rptr_oneHot : ∃ r < dp, s.rptrVec = BitVec.twoPow dp r
  wptr_oneHot : ∃ r < dp, s.wptrVec = BitVec.twoPow dp r
  -- bit 0 of the code is always set, the other `dp` bits count the entries
  thermometer : ∀ k, s.vec.getLsbD k = decide (k ≤ q.length)

theorem Holds.isFifo (h : Holds s q) : IsFifo cutReady msko s q where
  valid := h.oVld_iff
  ready := fun oRdy => by
    have hle := h.length_le
    rw [h.iRdy_iff, ren, Bool.and_eq_true, lt_iff_le_and_ne, and_iff_right hle]
  dat := by
    have hs : BoundedQueue.Shows dp (through dp cutReady) (ports dp dw cutReady msko) s q := h.shows
    exact hs.head
  rptr_oneHot := by
    obtain ⟨r, hr, hrp, -⟩ := h.ring
    exact ⟨r, hr, hrp⟩
  wptr_oneHot := by
    obtain ⟨r, hr, -, hwp, -⟩ := h.ring
    exact ⟨_, OneHot.slot_lt hr h.length_le, hwp⟩
  thermometer := h.vec

/-- The entries stored at the beginning of cycle `n`, as a queue of `dp` places keeps them. -/
def stored (dp : ℕ) (cutReady : Bool) (i : ℕ → Input dw) (n : ℕ) : List (BitVec dw) :=
  BoundedQueue.contents dp (through dp cutReady) (fun m => queueInput (i m)) n

/-- In every run the FIFO is a queue of `dp` places: what was pushed is what was popped, in order, and what is stored,
and the registers are those of a FIFO that stores it. -/
theorem refines_boundedQueue (hdp : 1 ≤ dp) (cutReady msko : Bool) (fifoRf : Fin dp → BitVec dw) (i : ℕ → Input dw)
    (n : ℕ) :
    log (fun m => BoundedQueue.pushed (ports dp dw cutReady msko) ((machineFrom fifoRf cutReady).run i m) (i m)) n =
        log (fun m => BoundedQueue.popped (ports dp dw cutReady msko) ((machineFrom fifoRf cutReady).run i m) (i m)) n
          ++ stored dp cutReady i n ∧
      (stored dp cutReady i n).length ≤ dp ∧
      IsFifo cutReady msko ((machineFrom fifoRf cutReady).run i n) (stored dp cutReady i n) := by
  have href : BoundedQueue.Refines dp (through dp cutReady) (machineFrom fifoRf cutReady) (ports dp dw cutReady msko)
      Holds := refines fifoRf hdp
  have hholds : Holds ((machineFrom fifoRf cutReady).run i n) (stored dp cutReady i n) := href.run i n
  exact ⟨href.log_eq i n, BoundedQueue.length_contents_le _ n, hholds.isFifo⟩

/-- Three entries are pushed into a FIFO with two places, the first is popped. -/
def pushThree (n : ℕ) : Input 8 := ⟨decide (n < 4), BitVec.ofNat 8 (n + 1), decide (n = 2)⟩

theorem refines_boundedQueue_pushThree : stored 2 false pushThree 4 = [2#8, 4#8] ∧
    IsFifo false true ((machineFrom (fun _ : Fin 2 => 0xff#8) false).run pushThree 4) (stored 2 false pushThree 4) :=
  ⟨rfl, (refines_boundedQueue (by decide) false true (fun _ => 0xff#8) pushThree 4).2.2⟩

end GnrlFifo
