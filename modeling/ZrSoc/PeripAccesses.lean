import ZrSoc.PeripSlots

/-!
# Byte enables and register windows

An access of a peripheral slot is compared with the same cycle without it.  As the byte enables are not handed on, a
write changes bits outside its lanes unless it happens to carry their values; as the high bits of the offset are not
decoded, an access beyond the registers of a block acts on the register it aliases to.
-/

namespace PeripSlots

open Sync TileLink
open RegisterPort (Slot puts gets)

variable (s : State) (x : Input)

/-- Outside the lanes `be`, the data of a write are what the register it addresses holds. -/
def CarriesOld (be : BitVec 4) : Block → Prop
  | .gpio => Gpio.CarriesOld be s.gpio (gpioInput x)
  | .uart0 => Uart.CarriesOld be s.uart0 (uartInput x)
  | .qspi0 => FlashQspi.CarriesOld be s.qspi0 (qspiInput x)
  | .pwm0 => Pwm8.CarriesOld be s.pwm0 (pwmInput x)

/-- If a transmit queue is addressed, it has no room. -/
def TxFull : Block → Prop
  | .gpio => True
  | .uart0 => Uart.word (uartInput x) = 0#3 → Queue1.enqReady s.uart0.txq = false
  | .qspi0 => FlashQspi.word (qspiInput x) = 18#5 → Queue1.enqReady s.qspi0.fifo.txq = false
  | .pwm0 => True

/-- If a receive queue is addressed, it is empty. -/
def RxEmpty : Block → Prop
  | .gpio => True
  | .uart0 => Uart.word (uartInput x) = 1#3 → Queue1.deqValid s.uart0.rxq = false
  | .qspi0 => FlashQspi.word (qspiInput x) = 19#5 → Queue1.deqValid s.qspi0.fifo.rxq = false
  | .pwm0 => True

/-- A byte enters the transmit queue of the block. -/
def pushes : Block → Bool
  | .gpio => false
  | .uart0 => Uart.pushes s.uart0 (uartInput x)
  | .qspi0 => FlashQspi.pushes s.qspi0 (qspiInput x)
  | .pwm0 => false

/-- The register bits of the block outside the lanes `be` are the same in `a` and `a'`. -/
def RegsKept (be : BitVec 4) (a a' : State) : Block → Prop
  | .gpio => Gpio.RegsKept be a.gpio a'.gpio
  | .uart0 => Uart.RegsKept be a.uart0.regs a'.uart0.regs
  | .qspi0 => FlashQspi.RegsKept be a.qspi0.regs a'.qspi0.regs
  | .pwm0 => Pwm8.RegsKept be a.pwm0 a'.pwm0

/-- A write is accepted in the slot of block `b`. -/
def Writes (b : Block) : Prop := (x.slot b).Accepts ∧ (x.slot b).cmd.read = false

/-- The write changes no register bit outside its byte enables, and pushes a byte only with the lowest of them. -/
structure HonoursMask (b : Block) : Prop where
  regs : RegsKept (x.slot b).cmd.wmask (edge s x) (edge s (withoutCmd x b)) b
  push : pushes s x b = true → (x.slot b).cmd.wmask.getLsbD 0 = true

/-- The size of the register window of a block. -/
def window : Block → ℕ
  | .gpio => 0x80
  | .uart0 => 0x20
  | .qspi0 => 0x80
  | .pwm0 => 0x40

/-- An access is accepted beyond the registers of block `b`. -/
def Beyond (b : Block) : Prop := (x.slot b).Accepts ∧ window b ≤ (x.slot b).offset

/-- The access of slot `b` changes nothing. -/
def NoSideEffect (b : Block) : Prop := edge s x = edge s (withoutCmd x b)

variable {s x} {b : Block} {be : BitVec 4}

private theorem writes_iff : Writes x b ↔ puts (x.slot b).port = true := puts_port_iff.symm

/-! ### Byte enables -/

private theorem regsKept_iff : RegsKept be (edge s x) (edge s (withoutCmd x b)) b ↔
    (Writes x b → CarriesOld s x be b) := by
  rw [writes_iff]
  cases b with
  | gpio => exact Gpio.regsKept_edge_iff rfl
  | uart0 => exact Uart.regsKept_edge_iff rfl
  | qspi0 => exact FlashQspi.regsKept_edge_iff rfl
  | pwm0 => exact Pwm8.regsKept_edge_iff rfl

private theorem pushes_eq_false_iff (hw : Writes x b) : pushes s x b = false ↔ TxFull s x b := by
  rw [writes_iff] at hw
  cases b with
  | gpio => simp [pushes, TxFull]
  | uart0 =>
    have hp : puts (uartInput x).port = true := hw
    simp [pushes, TxFull, Uart.pushes_eq (x := uartInput x) rfl, hp]
  | qspi0 =>
    have hp : puts (qspiInput x).port = true := hw
    simp [pushes, TxFull, FlashQspi.pushes_eq (x := qspiInput x) rfl, hp]
  | pwm0 => simp [pushes, TxFull]

/-- A write honours its byte enables if and only if it carries the contents of the register outside them and, without
the lowest one, does not push a byte. -/
theorem honoursMask_iff (hw : Writes x b) : HonoursMask s x b ↔
    CarriesOld s x (x.slot b).cmd.wmask b ∧ ((x.slot b).cmd.wmask.getLsbD 0 = false → TxFull s x b) := by
  have hpush : (pushes s x b = true → (x.slot b).cmd.wmask.getLsbD 0 = true) ↔
      ((x.slot b).cmd.wmask.getLsbD 0 = false → TxFull s x b) := by
    rw [← pushes_eq_false_iff hw]
    cases pushes s x b <;> cases (x.slot b).cmd.wmask.getLsbD 0 <;> simp
  exact ⟨fun h => ⟨regsKept_iff.1 h.regs hw, hpush.1 h.push⟩, fun h => ⟨regsKept_iff.2 fun _ => h.1, hpush.2 h.2⟩⟩

variable (r : Rams) (i : ℕ → Input)

/-- In every run, all writes honour their byte enables if and only if each carries, outside them, what the register
it addresses holds, and finds a transmit queue full if it addresses it without the lowest byte. -/
theorem masks_honoured_iff :
    (∀ n b, Writes (i n) b → HonoursMask ((machine r).run i n) (i n) b) ↔
      ∀ n b, Writes (i n) b → CarriesOld ((machine r).run i n) (i n) ((i n).slot b).cmd.wmask b ∧
        (((i n).slot b).cmd.wmask.getLsbD 0 = false → TxFull ((machine r).run i n) (i n) b) :=
  forall_congr' fun _ => forall_congr' fun _ => forall_congr' fun hw => honoursMask_iff hw

/-- A write of `data` at address `addr` of each slot in every cycle. -/
def writes (addr : Block → BitVec 32) (data : BitVec 32) (wmask : BitVec 4) : Input where
  slot b :=
    { cmdValid := true
      cmd :=
        { read := false, addr := addr b, wdata := data, wmask := wmask, lock := false, excl := false, size := 0#2
          burst := 0#2, beat := 0#2 }
      rspReady := true }
  ival := 0#32
  rxd := true
  aValid := false
  aBits :=
    { opcode := opGet, param := 0#3, size := 0#3, source := 0#7, address := 0#30, mask := 1#1, data := 0#8 }
  dReady := true
  dqI := 0#4

/-- Byte stores to the low bytes of a register of each block. -/
def byteStores (_ : ℕ) : Input :=
  writes
    (fun
      | .gpio => 0x1001200c#32
      | .uart0 => 0x10013018#32
      | .qspi0 => 0x10014000#32
      | .pwm0 => 0x10015000#32)
    0x12345610#32 1#4

private theorem not_honoursMask_byteStores (b : Block) : Writes (byteStores 0) b ∧
    ¬ HonoursMask ((machine zeroRams).run byteStores 0) (byteStores 0) b := by
  refine ⟨⟨⟨rfl, rfl⟩, rfl⟩, fun h => ?_⟩
  have hregs := h.regs
  cases b with
  | gpio => exact absurd ((hregs 3#5).1 _ rfl _ rfl 9 (by decide) (by decide)) (by decide)
  | uart0 => exact absurd (hregs.div 10 (by decide) (by decide)) (by decide)
  | qspi0 => exact absurd (hregs.sckDiv 9 (by decide) (by decide)) (by decide)
  | pwm0 => exact absurd (hregs.countAlways (by decide)) (by decide)

/-- The stores change the other bytes of the output value, of both divisors and of the configuration. -/
theorem masks_not_honoured_byteStores :
    (Writes (byteStores 0) .gpio ∧ ¬ HonoursMask ((machine zeroRams).run byteStores 0) (byteStores 0) .gpio) ∧
    (Writes (byteStores 0) .uart0 ∧ ¬ HonoursMask ((machine zeroRams).run byteStores 0) (byteStores 0) .uart0) ∧
    (Writes (byteStores 0) .qspi0 ∧ ¬ HonoursMask ((machine zeroRams).run byteStores 0) (byteStores 0) .qspi0) ∧
    (Writes (byteStores 0) .pwm0 ∧ ¬ HonoursMask ((machine zeroRams).run byteStores 0) (byteStores 0) .pwm0) :=
  ⟨not_honoursMask_byteStores _, not_honoursMask_byteStores _, not_honoursMask_byteStores _,
    not_honoursMask_byteStores _⟩

/-! ### Register windows -/

private theorem queues_iff {w g v e : Bool} {k k' : ℕ} {a b : BitVec k} {c d : BitVec k'} {C : Prop} :
    (w && a == b && v) = false ∧ (g && c == d && e) = false ∧ (w = true → C) ↔
      (w = true → (a = b → v = false) ∧ C) ∧ (g = true → c = d → e = false) := by
  cases w <;> cases g <;> simp
  tauto

/-- An access has no side effect if and only if it is a write that finds a transmit queue full and carries the contents
of the register, or a read that finds a receive queue empty. -/
theorem noSideEffect_iff (ha : (x.slot b).Accepts) : NoSideEffect s x b ↔
    ((x.slot b).cmd.read = false → TxFull s x b ∧ CarriesOld s x 0#4 b) ∧
      ((x.slot b).cmd.read = true → RxEmpty s x b) := by
  have hput : puts (x.slot b).port = true ↔ (x.slot b).cmd.read = false := by
    rw [puts_port_iff, and_iff_right ha]
  have hget : gets (x.slot b).port = true ↔ (x.slot b).cmd.read = true := by
    rw [gets_port_iff, and_iff_right ha]
  rw [NoSideEffect, edge_withoutCmd_iff, ← hput, ← hget]
  cases b with
  | gpio =>
    simp only [TxFull, RxEmpty, true_and, implies_true, and_true]
    exact Gpio.edge_eq_quiet_iff rfl
  | uart0 =>
    have hport : (x.slot .uart0).port = (uartInput x).port := rfl
    simp only [hport, Uart.edge_eq_quiet_iff (x := uartInput x) rfl, Uart.pushes_eq (x := uartInput x) rfl,
      Uart.pops_eq (x := uartInput x) rfl]
    exact queues_iff
  | qspi0 =>
    have hport : (x.slot .qspi0).port = (qspiInput x).port := rfl
    simp only [hport, FlashQspi.edge_eq_quiet_iff (x := qspiInput x) rfl, FlashQspi.pushes_eq (x := qspiInput x) rfl,
      FlashQspi.pops_eq (x := qspiInput x) rfl]
    exact queues_iff
  | pwm0 =>
    simp only [TxFull, RxEmpty, true_and, implies_true, and_true]
    exact Pwm8.edge_eq_quiet_iff rfl

/-- In every run, no access beyond the registers of a block has a side effect if and only if each is as in
`noSideEffect_iff` on the register that the low bits of its address select. -/
theorem no_side_effects_iff :
    (∀ n b, Beyond (i n) b → NoSideEffect ((machine r).run i n) (i n) b) ↔
      ∀ n b, Beyond (i n) b →
        (((i n).slot b).cmd.read = false →
          TxFull ((machine r).run i n) (i n) b ∧ CarriesOld ((machine r).run i n) (i n) 0#4 b) ∧
        (((i n).slot b).cmd.read = true → RxEmpty ((machine r).run i n) (i n) b) :=
  forall_congr' fun _ => forall_congr' fun _ => forall_congr' fun hb => noSideEffect_iff hb.1

/-- Writes beyond the registers of each block. -/
def aliasedWrites (_ : ℕ) : Input :=
  writes
    (fun
      | .gpio => 0x10012084#32
      | .uart0 => 0x10013020#32
      | .qspi0 => 0x10014080#32
      | .pwm0 => 0x10015040#32)
    0xffffffff#32 15#4

private theorem sideEffect_aliasedWrites (b : Block) : Beyond (aliasedWrites 0) b ∧
    ¬ NoSideEffect ((machine zeroRams).run aliasedWrites 0) (aliasedWrites 0) b := by
  cases b with
  | gpio =>
    refine ⟨⟨⟨rfl, rfl⟩, by decide⟩, fun h => ?_⟩
    exact absurd (congrArg (fun s => s.gpio.ieReg) h) (by decide)
  | uart0 =>
    refine ⟨⟨⟨rfl, rfl⟩, by decide⟩, fun h => ?_⟩
    exact absurd (congrArg (fun s => s.uart0.txq.wptr) h) (by decide)
  | qspi0 =>
    refine ⟨⟨⟨rfl, rfl⟩, by decide⟩, fun h => ?_⟩
    exact absurd (congrArg (fun s => s.qspi0.regs.sckDiv) h) (by decide)
  | pwm0 =>
    refine ⟨⟨⟨rfl, rfl⟩, by decide⟩, fun h => ?_⟩
    exact absurd (congrArg (fun s => s.pwm0.scale) h) (by decide)

/-- The writes change the input enables, push a byte and change the divisor and the configuration. -/
theorem side_effects_aliasedWrites :
    (Beyond (aliasedWrites 0) .gpio ∧
      ¬ NoSideEffect ((machine zeroRams).run aliasedWrites 0) (aliasedWrites 0) .gpio) ∧
    (Beyond (aliasedWrites 0) .uart0 ∧
      ¬ NoSideEffect ((machine zeroRams).run aliasedWrites 0) (aliasedWrites 0) .uart0) ∧
    (Beyond (aliasedWrites 0) .qspi0 ∧
      ¬ NoSideEffect ((machine zeroRams).run aliasedWrites 0) (aliasedWrites 0) .qspi0) ∧
    (Beyond (aliasedWrites 0) .pwm0 ∧
      ¬ NoSideEffect ((machine zeroRams).run aliasedWrites 0) (aliasedWrites 0) .pwm0) :=
  ⟨sideEffect_aliasedWrites _, sideEffect_aliasedWrites _, sideEffect_aliasedWrites _, sideEffect_aliasedWrites _⟩

end PeripSlots
