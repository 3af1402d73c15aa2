import ZrSoc.PeripSlots
import ZrSoc.UartReceive
import ZrSoc.UartTransmit

/-!
# The UART as its software sees it

The values that the registers are read with, and what becomes of the accesses to the two queues.  A driver that writes
a byte only after it has read that the transmit queue is not full (`Polls`) loses none (`pushed_of_polls`).  A read
gives the next byte of the receive queue, or that there is none (`read_eq_popped`).
-/

namespace Uart

open RegisterPort (gets puts lanes)

variable (s : State) (x : Input)

/-- `io_in_0_d_bits_data` -/
def rdata : BitVec 32 :=
  if x.port.aAddress.extractLsb' 5 7 == 0#7 then
    if word x == 7#3 then 0#32
    else if word x == 6#3 then 0#16 ++ s.regs.div
    else if word x == 5#3 then
      0#30 ++ BitVec.ofBool (decide (s.regs.rxwm < Queue1.count s.rxq)) ++
        BitVec.ofBool (decide (Queue1.count s.txq < s.regs.txwm))
    else if word x == 4#3 then 0#30 ++ BitVec.ofBool s.regs.ieRxwm ++ BitVec.ofBool s.regs.ieTxwm
    else if word x == 3#3 then 0#12 ++ s.regs.rxwm ++ 0#15 ++ BitVec.ofBool s.regs.rxen
    else if word x == 2#3 then
      0#12 ++ s.regs.txwm ++ 0#14 ++ BitVec.ofBool s.regs.nstop ++ BitVec.ofBool s.regs.txen
    else if word x == 1#3 then BitVec.ofBool (!Queue1.deqValid s.rxq) ++ 0#23 ++ Queue1.deqBits s.rxq
    else BitVec.ofBool (!Queue1.enqReady s.txq) ++ 0#31
  else 0#32

/-- The byte that is written to `txdata`. -/
def written : Option (BitVec 8) := if (txqInput s x).enqValid then some (txqInput s x).enqBits else none

/-- A read of `txdata` tells that the transmit queue is not full. -/
def polled : Bool :=
  gets x.port && x.port.aAddress.extractLsb' 5 7 == 0#7 && word x == 0#3 && !(rdata s x).getLsbD 31

/-- The byte that a read of `rxdata` gives. -/
def read : Option (BitVec 8) :=
  if gets x.port && word x == 1#3 && !(rdata s x).getLsbD 31 then some ((rdata s x).extractLsb' 0 8) else none

variable {s x}

theorem polled_iff : polled s x = true ↔ gets x.port = true ∧ x.port.aAddress.extractLsb' 5 7 = 0#7 ∧ word x = 0#3 ∧
    Queue1.enqReady s.txq = true := by
  rw [polled, Bool.and_eq_true, Bool.and_eq_true, Bool.and_eq_true, beq_iff_eq, beq_iff_eq, and_assoc, and_assoc]
  refine and_congr_right fun _ => and_congr_right fun ha => and_congr_right fun hw => ?_
  rw [rdata, ha, hw]
  cases Queue1.enqReady s.txq <;> simp

/-- A read of `rxdata` within the registers gives the byte that leaves the receive queue. -/
theorem read_eq_popped (hm : x.port.aMask = 15#4) (ha : x.port.aAddress.extractLsb' 5 7 = 0#7) :
    read s x = Queue1.popped s.rxq (rxqInput s x) := by
  have hdeq : Queue1.deq s.rxq (rxqInput s x) = (gets x.port && word x == 1#3 && Queue1.deqValid s.rxq) := pops_eq hm
  rw [read, Queue1.popped, hdeq]
  by_cases hw : word x = 1#3
  · have hread : rdata s x = BitVec.ofBool (!Queue1.deqValid s.rxq) ++ 0#23 ++ Queue1.deqBits s.rxq := by
      rw [rdata, ha, hw]
      rfl
    have hbits : (rdata s x).extractLsb' 0 8 = Queue1.deqBits s.rxq := by
      apply BitVec.eq_of_getLsbD_eq
      intro j hj
      rw [hread, BitVec.getLsbD_extractLsb', BitVec.getLsbD_append, Nat.zero_add, if_pos hj, decide_eq_true hj,
        Bool.true_and]
    have hflag : (rdata s x).getLsbD 31 = !Queue1.deqValid s.rxq := by
      rw [hread, BitVec.getLsbD_append, if_neg (by decide), BitVec.getLsbD_append, if_neg (by decide),
        BitVec.getLsbD_ofBool]
      simp
    rw [hbits, hflag, Bool.not_not]
  · simp [hw]

/-- A write and a read of the port exclude each other. -/
theorem written_of_gets (hg : gets x.port = true) : written s x = none := by
  have hread : RegisterPort.isGet x.port = true := (Bool.and_eq_true_iff.1 hg).2
  simp [written, txqInput, puts, hread]

/-- The receiver expects eight data bits and no parity. -/
theorem character (s : State) (x : Input) : UartRx.Character (rxmInput s x) := by
  have hdata : ∀ b, (0#5 ++ BitVec.ofBool b ++ 3#2).extractLsb' 0 2 = 3#2 := by decide
  have hparity : ∀ b, (0#5 ++ BitVec.ofBool b ++ 3#2).getLsbD 3 = false := by decide
  exact ⟨hdata _, hparity _⟩

end Uart

namespace UartTransmit

open Sync

variable (txRam rxRam : Vector (BitVec 8) 8) (i : ℕ → Uart.Input)

/-- The byte that is written to `txdata` in cycle `n`. -/
def written (n : ℕ) : Option (BitVec 8) := Uart.written (run txRam rxRam i n) (i n)

/-- Before each byte that is written, `txdata` has been read and the transmit queue was not full; no other byte has
been written since then. -/
def Polls : Prop :=
  ∀ n, (written txRam rxRam i n).isSome = true → ∃ m < n, Uart.polled (run txRam rxRam i m) (i m) = true ∧
    ∀ k, m < k → k < n → written txRam rxRam i k = none

variable {txRam rxRam i} {n : ℕ}

theorem pushed_of_written_none (h : written txRam rxRam i n = none) : pushed txRam rxRam i n = none := by
  have hvalid : (Uart.txqInput (run txRam rxRam i n) (i n)).enqValid = false := by
    by_contra hv
    rw [written, Uart.written, if_pos (by simpa using hv)] at h
    cases h
  rw [pushed, Queue1.pushed, Queue1.enq, hvalid, Bool.and_false]
  rfl

/-- Without a write the transmit queue does not grow. -/
theorem count_of_unwritten (h : written txRam rxRam i n = none) :
    (Queue1.count (run txRam rxRam i (n + 1)).txq).toNat ≤ (Queue1.count (run txRam rxRam i n).txq).toNat := by
  have henq : Queue1.enq (run txRam rxRam i n).txq (Uart.txqInput (run txRam rxRam i n) (i n)) = false := by
    have hpush := pushed_of_written_none h
    rw [pushed, Queue1.pushed] at hpush
    by_contra he
    rw [if_pos (by simpa using he)] at hpush
    cases hpush
  have hedge := Queue1.count_edge (s := (run txRam rxRam i n).txq) (x := Uart.txqInput (run txRam rxRam i n) (i n))
  have hrun : (run txRam rxRam i (n + 1)).txq =
      Queue1.edge (run txRam rxRam i n).txq (Uart.txqInput (run txRam rxRam i n) (i n)) := rfl
  rw [henq, Bool.toNat_false] at hedge
  rw [hrun]
  omega

/-- The transmit queue takes every byte of a driver that polls. -/
theorem pushed_of_polls (hp : Polls txRam rxRam i) (n : ℕ) : pushed txRam rxRam i n = written txRam rxRam i n := by
  cases hw : written txRam rxRam i n with
  | none => exact pushed_of_written_none hw
  | some b =>
    obtain ⟨m, hmn, hpoll, hno⟩ := hp n (by rw [hw]; rfl)
    obtain ⟨hgets, -, -, hready⟩ := Uart.polled_iff.1 hpoll
    -- since the poll nothing has entered the queue
    have hcount : ∀ k, m ≤ k → k ≤ n → (Queue1.count (run txRam rxRam i k).txq).toNat < 8 := by
      intro k hk
      induction k, hk using Nat.le_induction with
      | base => exact fun _ => Queue1.enqReady_iff.1 hready
      | succ k hk ih =>
        intro hkn
        have hnone : written txRam rxRam i k = none := by
          rcases Nat.eq_or_lt_of_le hk with rfl | hlt
          · exact Uart.written_of_gets hgets
          · exact hno k hlt (by omega)
        exact Nat.lt_of_le_of_lt (count_of_unwritten hnone) (ih (by omega))
    have hready' := Queue1.enqReady_iff.2 (hcount n (by omega) (Nat.le_refl n))
    rw [← hw, pushed, Queue1.pushed, Queue1.enq, hready', Bool.true_and, written, Uart.written]

end UartTransmit
