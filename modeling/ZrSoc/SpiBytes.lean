import ZrSoc.SpiModel
import Mathlib.Tactic.IntervalCases

/-!
# The bytes of the flash device

Under one chip select the device takes the command and three bytes of address, bit by bit on one line, and sends the
bytes of its memory from that address on, in the mode of the command.  `Taking` and `Showing` describe it after each
period of SCK.
-/

namespace SpiModel

/-- The periods of a byte. -/
def beats : Mode → ℕ
  | .single => 8
  | .dual => 4
  | .quad => 2

/-- The data lines in use. -/
def width : Mode → ℕ
  | .single => 1
  | .dual => 2
  | .quad => 4

/-- The line on which bit `l` of a sample is sent. -/
def outLine : Mode → ℕ → ℕ
  | .single, _ => 1
  | _, l => l

/-- The mode of the data of a read command. -/
inductive Reads : BitVec 8 → Mode → Prop
  | read : Reads 0x03#8 .single
  | fast : Reads 0x0b#8 .single
  | dual : Reads 0x3b#8 .dual
  | quad : Reads 0x6b#8 .quad

/-- A period of SCK under the chip select. -/
def period (size : ℕ) (mem : ℕ → BitVec 8) (undef : BitVec 8) (d : State) (dqI : BitVec 4) : State :=
  sckFall size mem undef (sckRise d false dqI) false

/-- No byte has been taken. -/
structure Fresh (d : State) : Prop where
  mode : d.xferMode = .single
  input : d.xferType ≠ .dataOut
  cntBit : d.cntBit = 0
  cntByte : d.cntByte = 0

/-- Of the read of address `a` with command `code`, `m` bytes have been taken, and the upper `k` bits of the next
byte `b`. -/
structure Taking (code : BitVec 8) (a : BitVec 24) (m : ℕ) (b : BitVec 8) (k : ℕ) (d : State) : Prop where
  mode : d.xferMode = .single
  input : d.xferType ≠ .dataOut
  cntBit : d.cntBit = 8 * m + k
  cntByte : d.cntByte = m
  cmd : 0 < m → d.cmd = code
  addr : ∀ i < 24, 32 ≤ i + 8 * m → d.addrBase.getLsbD i = a.getLsbD i
  bits : ∀ i < k, d.bufferIn.getLsbD i = b.getLsbD (8 - k + i)

/-- The first `k` samples of byte `a + j` of the memory have been sent in mode `M`. -/
structure Showing (size : ℕ) (mem : ℕ → BitVec 8) (undef code : BitVec 8) (M : Mode) (a : BitVec 24) (j k : ℕ)
    (d : State) : Prop where
  mode : d.xferMode = M
  output : d.xferType = .dataOut
  cntBit : d.cntBit = 32 + j * beats M + k
  cntByte : d.cntByte = 4 + j
  cmd : d.cmd = code
  addrBase : d.addrBase = a
  addrOffset : d.addrOffset = j
  bits : ∀ i < 8, k * width M ≤ i →
    d.bufferOut.getLsbD i = (fetch size mem undef (a.toNat + j)).getLsbD (i - k * width M)

variable {size : ℕ} {mem : ℕ → BitVec 8} {undef code b : BitVec 8} {M : Mode} {a : BitVec 24}
  {j k l m : ℕ} {d : State} {q : BitVec 4}

theorem fresh_reset {v : BitVec 8} : Fresh (reset v) := ⟨rfl, by simp [reset], rfl, rfl⟩

theorem fresh_csRise : Fresh (csRise d) := ⟨rfl, by simp [csRise], rfl, rfl⟩

theorem Fresh.taking (h : Fresh d) : Taking code a 0 b 0 d :=
  ⟨h.mode, h.input, h.cntBit, h.cntByte, fun h => absurd h (Nat.lt_irrefl 0), fun i hi h => by omega,
    fun i h => absurd h (Nat.not_lt_zero i)⟩

/-! ### The bits of a byte -/

/-- The mask selects the position in the byte. -/
theorem and_cntBitMask (d : State) : d.cntBit &&& cntBitMask d = d.cntBit % beats d.xferMode := by
  rw [cntBitMask]
  cases d.xferMode with
  | single => exact Nat.and_two_pow_sub_one_eq_mod _ 3
  | dual => exact Nat.and_two_pow_sub_one_eq_mod _ 2
  | quad => exact Nat.and_two_pow_sub_one_eq_mod _ 1

theorem lastBeat_eq (d : State) : lastBeat d = decide (d.cntBit % beats d.xferMode = beats d.xferMode - 1) := by
  have hm : cntBitMask d = beats d.xferMode - 1 := by
    rw [cntBitMask]
    cases d.xferMode <;> rfl
  rw [lastBeat, and_cntBitMask, hm, Bool.beq_eq_decide_eq]

theorem getLsbD_bufferInComb {i : ℕ} (hi : i < 8) :
    (bufferInComb d q).getLsbD i = if i = 0 then q.getLsbD 0 else d.bufferIn.getLsbD (i - 1) := by
  rw [bufferInComb, BitVec.getLsbD_append]
  cases i with
  | zero => simp
  | succ i => simp [show i < 7 by omega]

theorem getLsbD_bufferOutComb {i : ℕ} (hi : i < 8) (hw : width d.xferMode ≤ i) :
    (bufferOutComb d).getLsbD i = d.bufferOut.getLsbD (i - width d.xferMode) := by
  rw [bufferOutComb]
  cases hm : d.xferMode <;> rw [hm] at hw <;> simp only [width] at hw ⊢ <;>
    rw [BitVec.getLsbD_append, if_neg (by omega)] <;> simp <;> omega

/-! ### A period of SCK -/

/-- The counter is at the beginning of a byte after the last beat. -/
theorem succ_and_eq_zero_iff : (d.cntBit + 1) &&& cntBitMask d = 0 ↔ lastBeat d = true := by
  have hmod : (d.cntBit + 1) &&& cntBitMask d = (d.cntBit + 1) % beats d.xferMode :=
    and_cntBitMask { d with cntBit := d.cntBit + 1 }
  rw [hmod, lastBeat_eq, decide_eq_true_iff]
  cases d.xferMode <;> simp only [beats] <;> omega

/-- Within a byte the registers shift. -/
theorem period_of_not_last (h : lastBeat d = false) : period size mem undef d q =
    { d with cntBit := d.cntBit + 1, bufferIn := bufferInComb d q, bufferOut := bufferOutComb d } := by
  have hand : ¬ (d.cntBit + 1) &&& cntBitMask d = 0 := by simp [succ_and_eq_zero_iff, h]
  have hrise : sckRise d false q = { d with cntBit := d.cntBit + 1, bufferIn := bufferInComb d q } := by
    simp [sckRise, h]
  rw [period, hrise, sckFall, if_neg Bool.false_ne_true, if_neg fun h => hand h.2]
  rfl

/-- After a byte its number decides. -/
theorem period_of_last (h : lastBeat d = true) (hr : Reads (sckRise d false q).cmd M) : period size mem undef d q =
    if d.cntByte + 1 ≤ 3 then { sckRise d false q with xferType := .addr }
    else { sckRise d false q with
      xferType := .dataOut
      xferMode := M
      addrOffset := if d.cntByte + 1 = 4 then 0 else d.addrOffset + 1
      bufferOut := fetch size mem undef (nextAddr (sckRise d false q)) } := by
  have hbyte : (sckRise d false q).cntByte = d.cntByte + 1 := by simp [sckRise, h]
  have hbit : (sckRise d false q).cntBit = d.cntBit + 1 := rfl
  have hmask : cntBitMask (sckRise d false q) = cntBitMask d := rfl
  have hoff : (sckRise d false q).addrOffset = d.addrOffset := rfl
  have hcmd : (sckRise d false q).cmd ≠ 0xff#8 ∧ isRead (sckRise d false q) = true ∧
      dataMode (sckRise d false q) = M := by
    rw [isRead, dataMode]
    generalize (sckRise d false q).cmd = c at hr
    cases hr <;> decide
  rw [period, sckFall, if_neg Bool.false_ne_true, hbit, hmask, if_pos ⟨Nat.succ_pos _, succ_and_eq_zero_iff.2 h⟩,
    if_neg hcmd.1, if_pos hcmd.2.1, hbyte, hoff, hcmd.2.2]
  simp only [hbyte, hbit, hoff]

/-! ### The command and the address -/

theorem Taking.lastBeat_eq (h : Taking code a m b k d) : lastBeat d = decide (k % 8 = 7) := by
  rw [SpiModel.lastBeat_eq, h.mode, h.cntBit, beats]
  exact decide_eq_decide.2 (by omega)

theorem Taking.bits_succ (h : Taking code a m b k d) (hk : k < 8) (hq : q.getLsbD 0 = b.getLsbD (7 - k)) :
    ∀ i < k + 1, (bufferInComb d q).getLsbD i = b.getLsbD (8 - (k + 1) + i) := by
  intro i hi
  rw [getLsbD_bufferInComb (by omega)]
  split
  next h0 => rw [hq, h0, show 8 - (k + 1) + 0 = 7 - k by omega]
  next h0 => rw [h.bits (i - 1) (by omega), show 8 - k + (i - 1) = 8 - (k + 1) + i by omega]

theorem Taking.next (h : Taking code a m b k d) (hk : k < 7) (hq : q.getLsbD 0 = b.getLsbD (7 - k)) :
    Taking code a m b (k + 1) (period size mem undef d q) := by
  have hlast : lastBeat d = false := by
    rw [h.lastBeat_eq]
    exact decide_eq_false (by omega)
  rw [period_of_not_last hlast]
  refine ⟨h.mode, h.input, ?_, h.cntByte, h.cmd, h.addr, h.bits_succ (by omega) hq⟩
  change d.cntBit + 1 = _
  rw [h.cntBit]
  omega

/-- The byte that is complete with the next bit. -/
theorem Taking.bufferInComb_eq (h : Taking code a m b 7 d) (hq : q.getLsbD 0 = b.getLsbD 0) : bufferInComb d q = b := by
  refine BitVec.eq_of_getLsbD_eq fun i hi => ?_
  rw [h.bits_succ (by decide) hq i hi, show 8 - (7 + 1) + i = i by omega]

/-- Byte `m` of the read of address `a` with command `code`. -/
def byteOf (code : BitVec 8) (a : BitVec 24) (m : ℕ) : BitVec 8 :=
  if m = 0 then code else a.extractLsb' (24 - 8 * m) 8

theorem getLsbD_byteOf (hm : 0 < m) {i : ℕ} (hi : i < 8) :
    (byteOf code a m).getLsbD i = a.getLsbD (24 - 8 * m + i) := by
  rw [byteOf, if_neg (by omega), BitVec.getLsbD_extractLsb']
  simp [hi]

/-- The registers of the command and the address after a byte. -/
theorem Taking.rise (h : Taking code a m (byteOf code a m) 7 d) (hm : m ≤ 3)
    (hq : q.getLsbD 0 = (byteOf code a m).getLsbD 0) : (sckRise d false q).cmd = code ∧
      ∀ i < 24, 32 ≤ i + 8 * (m + 1) → (sckRise d false q).addrBase.getLsbD i = a.getLsbD i := by
  have hlast : lastBeat d = true := h.lastBeat_eq
  have hcomb := h.bufferInComb_eq hq
  refine ⟨?_, fun i hi hle => ?_⟩
  · by_cases h0 : m = 0
    · simp [sckRise, hlast, h.cntByte, h0, hcomb, byteOf]
    · simp [sckRise, hlast, h.cntByte, h0, h.cmd (by omega)]
  · have hb : m = 0 ∨ m = 1 ∨ m = 2 ∨ m = 3 := by omega
    have haddr := h.addr i hi
    have hbyte (hm : 0 < m) {j : ℕ} (hj : j < 8) : (byteOf code a m).getLsbD j = a.getLsbD (24 - 8 * m + j) :=
      getLsbD_byteOf hm hj
    rcases hb with rfl | rfl | rfl | rfl
    · omega
    · simp only [sckRise, hlast, h.cntByte, hcomb, ↓reduceIte, BitVec.getLsbD_append]
      rw [if_neg (by omega), hbyte (by decide) (by omega), show 24 - 8 * 1 + (i - 16) = i by omega]
    · simp only [sckRise, hlast, h.cntByte, hcomb, ↓reduceIte]
      refine BitVec.getLsbD_append.trans ?_
      rw [if_neg (by omega)]
      refine BitVec.getLsbD_append.trans ?_
      split
      next hlt => rw [hbyte (by decide) (by omega), show 24 - 8 * 2 + (i - 8) = i by omega]
      next hge => simp [show i - 8 - 8 < 8 by omega, show 16 + (i - 8 - 8) = i by omega, haddr (by omega)]
    · simp only [sckRise, hlast, h.cntByte, hcomb, ↓reduceIte]
      refine BitVec.getLsbD_append.trans ?_
      split
      next hlt => rw [hbyte (by decide) (by omega), show 24 - 8 * 3 + i = i by omega]
      next hge => simp [show i - 8 < 16 by omega, show 8 + (i - 8) = i by omega, haddr (by omega)]

/-- After the command and each byte of the address but the last one the device takes the next byte. -/
theorem Taking.taken (h : Taking code a m (byteOf code a m) 7 d) (hr : Reads code M) (hm : m < 3)
    (hq : q.getLsbD 0 = (byteOf code a m).getLsbD 0) : Taking code a (m + 1) b 0 (period size mem undef d q) := by
  have hlast : lastBeat d = true := h.lastBeat_eq
  obtain ⟨hcmd, haddr⟩ := h.rise (by omega) hq
  have hbyte := h.cntByte
  rw [period_of_last hlast (hcmd ▸ hr), if_pos (by omega)]
  refine ⟨h.mode, by simp, ?_, ?_, fun _ => hcmd, haddr, fun i hi => absurd hi (Nat.not_lt_zero i)⟩
  · change d.cntBit + 1 = _
    rw [h.cntBit]
    omega
  · simp [sckRise, hlast, hbyte]

/-- After the last byte of the address the device sends the byte at this address. -/
theorem Taking.showing (h : Taking code a 3 (byteOf code a 3) 7 d) (hr : Reads code M)
    (hq : q.getLsbD 0 = (byteOf code a 3).getLsbD 0) :
    Showing size mem undef code M a 0 0 (period size mem undef d q) := by
  have hlast : lastBeat d = true := h.lastBeat_eq
  obtain ⟨hcmd, haddr⟩ := h.rise le_rfl hq
  have hbase : (sckRise d false q).addrBase = a := BitVec.eq_of_getLsbD_eq fun i hi => haddr i hi (by omega)
  have hbyte : (sckRise d false q).cntByte = 4 := by simp [sckRise, hlast, h.cntByte]
  rw [period_of_last hlast (hcmd ▸ hr), h.cntByte, if_neg (by decide), if_pos rfl]
  refine ⟨rfl, rfl, ?_, hbyte, hcmd, hbase, rfl, fun i hi _ => ?_⟩
  · change d.cntBit + 1 = _
    rw [h.cntBit]
    omega
  · simp [nextAddr, hbyte, hbase]

/-! ### The data -/

theorem beats_mul_width (M : Mode) : beats M * width M = 8 := by cases M <;> rfl

theorem getLsbD_dqO (hl : l < width d.xferMode) :
    (dqO d).getLsbD (outLine d.xferMode l) = d.bufferOut.getLsbD (8 - width d.xferMode + l) := by
  rw [dqO]
  cases hm : d.xferMode with
  | single =>
    rw [hm] at hl
    obtain rfl : l = 0 := Nat.lt_one_iff.1 hl
    refine BitVec.getLsbD_append.trans ?_
    rw [if_neg (by decide)]
    exact BitVec.getLsbD_append.trans (by simp [outLine, width])
  | dual =>
    rw [hm] at hl
    have hlt : l < 2 := hl
    refine BitVec.getLsbD_append.trans ?_
    simp [outLine, width, hlt]
  | quad =>
    rw [hm] at hl
    have hlt : l < 4 := hl
    simp [outLine, width, hlt]

/-- The lines have the bits of the sample, and the device drives them. -/
theorem Showing.lines (h : Showing size mem undef code M a j k d) (hk : k < beats M) (hl : l < width M) :
    (dqT d).getLsbD (outLine M l) = false ∧
      (dqO d).getLsbD (outLine M l) =
        (fetch size mem undef (a.toNat + j)).getLsbD ((beats M - 1 - k) * width M + l) := by
  have hpos : k * width M ≤ 8 - width M + l := by cases M <;> simp only [width, beats] at hl hk ⊢ <;> omega
  have hsub : 8 - width M + l - k * width M = (beats M - 1 - k) * width M + l := by
    cases M <;> simp only [width, beats] at hl hk ⊢ <;> omega
  have hbit := h.bits (8 - width M + l) (by cases M <;> simp only [width] at hl ⊢ <;> omega) hpos
  rw [hsub] at hbit
  refine ⟨?_, by rw [← hbit, ← h.mode, getLsbD_dqO (h.mode ▸ hl)]⟩
  rw [dqT, h.mode, h.output]
  cases M <;> simp only [width] at hl <;> interval_cases l <;> decide

theorem Showing.next (h : Showing size mem undef code M a j k d) (hk : k + 1 < beats M) :
    Showing size mem undef code M a j (k + 1) (period size mem undef d q) := by
  have hmode := h.mode
  have hlast : lastBeat d = false := by
    rw [lastBeat_eq, h.mode, h.cntBit, decide_eq_false_iff_not]
    cases M <;> simp only [beats] at hk ⊢ <;> omega
  rw [period_of_not_last hlast]
  refine ⟨h.mode, h.output, ?_, h.cntByte, h.cmd, h.addrBase, h.addrOffset, fun i hi hle => ?_⟩
  · change d.cntBit + 1 = _
    rw [h.cntBit]
    omega
  · rw [Nat.succ_mul] at hle
    change (bufferOutComb d).getLsbD i = _
    rw [getLsbD_bufferOutComb hi (by rw [hmode]; omega), hmode, h.bits (i - width M) (by omega) (by omega),
      Nat.succ_mul, Nat.sub_sub, Nat.add_comm (width M)]

/-- After its last sample the device goes on to the next byte. -/
theorem Showing.shown (h : Showing size mem undef code M a j k d) (hr : Reads code M) (hk : k + 1 = beats M) :
    Showing size mem undef code M a (j + 1) 0 (period size mem undef d q) := by
  have hlast : lastBeat d = true := by
    rw [lastBeat_eq, h.mode, h.cntBit, decide_eq_true_iff]
    cases M <;> simp only [beats] at hk ⊢ <;> omega
  have hbyte : (sckRise d false q).cntByte = 4 + j + 1 := by simp [sckRise, hlast, h.cntByte]
  have hcmd : (sckRise d false q).cmd = code := by
    simp [sckRise, hlast, h.cntByte, h.cmd]
  have hbase : (sckRise d false q).addrBase = a := by
    simp only [sckRise, hlast, h.cntByte, ↓reduceIte]
    rw [if_neg (by omega), if_neg (by omega), if_neg (by omega), h.addrBase]
  have hoff : (sckRise d false q).addrOffset = j := h.addrOffset
  rw [period_of_last hlast (hcmd ▸ hr), h.cntByte, if_neg (by omega), if_neg (by omega), h.addrOffset]
  refine ⟨rfl, rfl, ?_, ?_, hcmd, hbase, rfl, fun i hi _ => ?_⟩
  · change d.cntBit + 1 = _
    rw [h.cntBit, Nat.succ_mul]
    omega
  · exact hbyte.trans (by omega)
  · simp [nextAddr, hbyte, hbase, hoff, Nat.add_assoc]

end SpiModel
