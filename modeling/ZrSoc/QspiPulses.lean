import ZrSoc.FlashQspi
import ZrSoc.QspiFrames
import ZrSoc.QspiSck
import Mathlib.Data.Nat.Count

/-!
# The SCK pulses of a frame

The media layer gives a frame as many pulses of SCK as its count of beats says (`pulsesOf_of_frame`), and takes the next
frame after the last of them.  The software FIFO derives the count from the length of the frame with a correction that
looks at one bit too many: a frame of `len` bits on `w` lines gets a beat too many if `len` is an odd multiple of `w`
(`linkCnt_eq`), and the right number otherwise (`lengths_iff`).
-/

namespace QspiMedia

open Sync QspiPhysical

variable (i : ℕ → Input)

/-- The pulses of SCK that have ended from cycle `t` on at the beginning of cycle `u`. -/
def pulses (t u : ℕ) : ℕ :=
  Nat.count (fun j => portSck (run i (t + j)).phy = true ∧ portSck (run i (t + j + 1)).phy = false) (u - t)

/-- The frame accepted in cycle `t` has `k` pulses: there are never more before the next frame, and all of them have
ended at some time before it. -/
structure PulsesOf (t k : ℕ) : Prop where
  most : ∀ u, t < u → (∀ v, t < v → v < u → ¬ FrameAt i v) → pulses i t u ≤ k
  all : ∃ u, t < u ∧ (∀ v, t < v → v < u → ¬ FrameAt i v) ∧ portSck (run i u).phy = false ∧ pulses i t u = k

variable {i} {c j k l t u : ℕ}

theorem PulsesOf.unique (h : PulsesOf i t k) (h' : PulsesOf i t l) : k = l := by
  have hle {k l : ℕ} (h : PulsesOf i t k) (h' : PulsesOf i t l) : l ≤ k := by
    obtain ⟨u, htu, hq, -, rfl⟩ := h'.all
    exact h.most u htu hq
  exact Nat.le_antisymm (hle h' h) (hle h h')

theorem pulses_succ (htu : t ≤ u) : pulses i t (u + 1) =
    pulses i t u + if portSck (run i u).phy = true ∧ portSck (run i (u + 1)).phy = false then 1 else 0 := by
  have hsub : u + 1 - t = u - t + 1 := by omega
  have hadd : t + (u - t) = u := by omega
  rw [pulses, hsub, Nat.count_succ, hadd, ← pulses]

variable (ha : FrameAt i t) (hc : (phyStream i t).op.cnt.toNat = c)

include ha hc in
/-- SCK after `j` half periods of a frame. -/
theorem sck_of_frame (hj : j ≤ 2 * c) : portSck (run i (t + 1 + j)).phy = decide (j % 2 = 1) := by
  rcases Nat.lt_or_eq_of_le hj with hlt | rfl
  · exact (shifting_of_frame ha hc hlt).sck
  · rw [decide_eq_false (by omega)]
    by_cases h0 : c = 0
    · exact sck_low ha hc (by omega) fun v hv hvu => absurd hvu (by omega)
    · exact sck_low ha hc (by omega) fun v hv hvu => not_frame ha hc h0 hv (by omega)

include ha hc in
theorem pulses_of_frame (hj : j ≤ 2 * c) : pulses i t (t + 1 + j) = j / 2 := by
  induction j with
  | zero =>
    have hlow : portSck (run i t).phy = false := (idle_of_frame ha).sck
    have hbase : pulses i t t = 0 := by rw [pulses, Nat.sub_self, Nat.count_zero]
    rw [Nat.add_zero, pulses_succ le_rfl, hbase, if_neg (by simp [hlow])]
  | succ j ih =>
    have hs := sck_of_frame ha hc (j := j) (by omega)
    have hs' := sck_of_frame ha hc (j := j + 1) hj
    rw [show t + 1 + (j + 1) = t + 1 + j + 1 by omega] at hs' ⊢
    rw [pulses_succ (by omega), ih (by omega), hs, hs']
    simp only [decide_eq_true_eq, decide_eq_false_iff_not]
    split <;> omega

include ha hc in
/-- A frame has a pulse for each beat. -/
theorem pulsesOf_of_frame : PulsesOf i t c := by
  have hnot (v : ℕ) (hv : t < v) (hvu : v < t + 1 + 2 * c) : ¬ FrameAt i v := by
    by_cases h0 : c = 0
    · omega
    · exact not_frame ha hc h0 hv (by omega)
  have hend : pulses i t (t + 1 + 2 * c) = c := by rw [pulses_of_frame ha hc le_rfl]; omega
  refine ⟨fun u htu hq => ?_, t + 1 + 2 * c, by omega, hnot, ?_, hend⟩
  · rcases Nat.lt_or_ge u (t + 1 + 2 * c) with hlt | hge
    · have hj := pulses_of_frame ha hc (j := u - (t + 1)) (by omega)
      rw [show t + 1 + (u - (t + 1)) = u by omega] at hj
      omega
    · have hconst : pulses i t u = c := by
        induction u, hge using Nat.le_induction with
        | base => exact hend
        | succ u hge ih =>
          have hlow : portSck (run i u).phy = false :=
            sck_low ha hc (by omega) fun v hv hvu => hq v hv (by omega)
          rw [pulses_succ (by omega), ih (by omega) fun v hv hvu => hq v hv (by omega), if_neg (by simp [hlow]),
            Nat.add_zero]
      exact hconst.le
  · rw [sck_of_frame ha hc le_rfl]
    exact decide_eq_false (by omega)

end QspiMedia

namespace QspiFifo

open QspiPhysical (Width)

/-- The beats of a frame of `len` bits on `w` lines: `len / w` rounded up. -/
def beatsFor (w len : ℕ) : ℕ := (len + w - 1) / w

/-- The correction of `io_link_cnt` is right, but one too much when the length is an odd multiple of `w`. -/
theorem linkCnt_eq {c : Ctrl} {w : ℕ} (hw : Width w c.fmtProto) :
    (linkCnt c).toNat = beatsFor w c.fmtLen.toNat + if c.fmtLen.toNat % (2 * w) = w then 1 else 0 := by
  obtain ⟨proto, endian, iodir, len, mode⟩ := c
  change Width w proto at hw
  change (linkCnt ⟨proto, false, false, len, 0#2⟩).toNat =
    beatsFor w len.toNat + if len.toNat % (2 * w) = w then 1 else 0
  cases hw <;> revert len <;> decide

end QspiFifo

namespace FlashQspi

open QspiMedia (PulsesOf FrameAt)
open QspiPhysical (Width)
open QspiFifo (beatsFor linkCnt)

variable (txRam rxRam : Vector (BitVec 8) 8) (i : ℕ → Input)

abbrev run : ℕ → State := (machine txRam rxRam).run i

/-- The ports of the media layer in a run. -/
def macStream (n : ℕ) : QspiMedia.Input :=
  FlashLink.macInput (run txRam rxRam i n).link
    (linkInput (run txRam rxRam i n) (i n)
      (QspiFifo.link (run txRam rxRam i n).fifo (fifoInput (run txRam rxRam i n) (i n))))

/-- A frame of the software FIFO is taken in cycle `t`. -/
def FifoFrame (t : ℕ) : Prop :=
  QspiFifo.fireTx (run txRam rxRam i t).fifo (fifoInput (run txRam rxRam i t) (i t)) = true

/-- Every frame of the software FIFO in one of the protocols has as many pulses of SCK as its length takes on the lines
of the protocol. -/
def Lengths : Prop := ∀ t w, FifoFrame txRam rxRam i t → Width w (run txRam rxRam i t).regs.fmt.fmtProto →
  PulsesOf (macStream txRam rxRam i) t (beatsFor w (run txRam rxRam i t).regs.fmt.fmtLen.toNat)

variable {txRam rxRam i} {t w : ℕ}

theorem run_mac (n : ℕ) : (run txRam rxRam i n).link.mac = QspiMedia.run (macStream txRam rxRam i) n := by
  induction n with
  | zero => rfl
  | succ n ih => exact congrArg (QspiMedia.edge · (macStream txRam rxRam i n)) ih

/-- One side of the link is selected. -/
theorem sel1_eq (n : ℕ) : (run txRam rxRam i n).link.arb.sel1 = !(run txRam rxRam i n).link.arb.sel0 := by
  induction n with
  | zero => rfl
  | succ n ih =>
    change (edge (run txRam rxRam i n) (i n)).link.arb.sel1 = !(edge (run txRam rxRam i n) (i n)).link.arb.sel0
    simp only [edge, FlashLink.edge, QspiArbiter.edge]
    split
    · simp
    · exact ih

/-- A frame of the software FIFO is a transfer of the beats of `io_link_cnt`. -/
theorem frame_of_fifo (h : FifoFrame txRam rxRam i t) : FrameAt (macStream txRam rxRam i) t ∧
    (QspiMedia.phyStream (macStream txRam rxRam i) t).op.cnt = linkCnt (run txRam rxRam i t).regs.fmt := by
  obtain ⟨hready, hvalid⟩ := Bool.and_eq_true_iff.1 h
  obtain ⟨hready, hsel1⟩ : QspiMedia.linkTxReady (run txRam rxRam i t).link.mac (macStream txRam rxRam i t) = true ∧
      (run txRam rxRam i t).link.arb.sel1 = true := Bool.and_eq_true_iff.1 hready
  have hsel0 : (run txRam rxRam i t).link.arb.sel0 = false := by
    have h1 : (run txRam rxRam i t).link.arb.sel1 = !(run txRam rxRam i t).link.arb.sel0 := sel1_eq t
    rw [hsel1] at h1
    simpa using h1.symm
  have htx : (macStream txRam rxRam i t).link.txValid = true := by
    have hfifo : (macStream txRam rxRam i t).link.txValid =
        ((run txRam rxRam i t).link.arb.sel0 && _ ||
          (run txRam rxRam i t).link.arb.sel1 && Queue1.deqValid (run txRam rxRam i t).fifo.txq) := rfl
    rw [hfifo, hsel0, hsel1, hvalid]
    rfl
  have hcnt : (macStream txRam rxRam i t).link.cnt = linkCnt (run txRam rxRam i t).regs.fmt := by
    have hfifo : (macStream txRam rxRam i t).link.cnt =
        QspiPhysical.mask 8 (run txRam rxRam i t).link.arb.sel0 &&& _ |||
          QspiPhysical.mask 8 (run txRam rxRam i t).link.arb.sel1 &&& linkCnt (run txRam rxRam i t).regs.fmt := rfl
    rw [hfifo, hsel0, hsel1, QspiPhysical.mask_false_and, QspiPhysical.mask_true_and, BitVec.zero_or]
  simp only [QspiMedia.linkTxReady, Bool.and_eq_true, Bool.not_eq_true'] at hready
  obtain ⟨⟨⟨hmain, hassert⟩, hkeep⟩, hop⟩ := hready
  have hready : QspiPhysical.t251 (run txRam rxRam i t).link.mac.phy = true := hop
  rw [run_mac] at hmain hassert hkeep hready
  have hinter : QspiMedia.sIntercs (QspiMedia.run (macStream txRam rxRam i) t) = false ∧
      QspiMedia.sInterxfr (QspiMedia.run (macStream txRam rxRam i) t) = false := by
    rw [QspiMedia.sMain, beq_iff_eq] at hmain
    rw [QspiMedia.sIntercs, QspiMedia.sInterxfr, hmain]
    exact ⟨rfl, rfl⟩
  constructor
  · simp [FrameAt, QspiPhysical.accepts, QspiMedia.phyStream, QspiMedia.phyInput, QspiMedia.opValid, QspiMedia.opBits,
      hready, hmain, hassert, hkeep, htx]
  · simp [QspiMedia.phyStream, QspiMedia.phyInput, QspiMedia.opBits, QspiMedia.t195, QspiMedia.t189, hinter, hmain,
      hassert, hkeep, hcnt]

/-- A frame has as many pulses as its length takes if and only if its length is no odd multiple of the number of
lines. -/
theorem pulsesOf_fifo_iff (h : FifoFrame txRam rxRam i t) (hw : Width w (run txRam rxRam i t).regs.fmt.fmtProto) :
    PulsesOf (macStream txRam rxRam i) t (beatsFor w (run txRam rxRam i t).regs.fmt.fmtLen.toNat) ↔
      (run txRam rxRam i t).regs.fmt.fmtLen.toNat % (2 * w) ≠ w := by
  obtain ⟨hframe, hcnt⟩ := frame_of_fifo h
  have hpulses := QspiMedia.pulsesOf_of_frame hframe rfl
  rw [hcnt, QspiFifo.linkCnt_eq hw] at hpulses
  constructor
  · intro hlen hodd
    rw [if_pos hodd] at hpulses
    exact absurd (hpulses.unique hlen) (by omega)
  · intro hlen
    rwa [if_neg hlen, Nat.add_zero] at hpulses

/-- In a run every frame of the software FIFO has the pulses of its length if and only if no frame has a length that is
an odd multiple of its number of lines: an odd length in single mode, 2 more than a multiple of 4 in dual mode, 4 more
than a multiple of 8 in quad mode. -/
theorem lengths_iff (txRam rxRam : Vector (BitVec 8) 8) (i : ℕ → Input) : Lengths txRam rxRam i ↔
    ∀ t w, FifoFrame txRam rxRam i t → Width w (run txRam rxRam i t).regs.fmt.fmtProto →
      (run txRam rxRam i t).regs.fmt.fmtLen.toNat % (2 * w) ≠ w :=
  forall_congr' fun _ => forall_congr' fun _ => forall_congr' fun h => forall_congr' fun hw => pulsesOf_fifo_iff h hw

/-- The software takes the link from the flash map, sets the length 1 in single mode and sends a byte. -/
def oneBit (n : ℕ) : Input where
  port :=
    { aValid := decide (n < 3), aOpcode := 0#3
      aAddress := if n = 0 then 0x60#29 else if n = 1 then 0x40#29 else 0x48#29
      aMask := 15#4
      aData := if n = 0 then 0#32 else if n = 1 then 0x10008#32 else 0xff#32
      dReady := true }
  aValid := false
  aBits := ⟨0#3, 0#3, 0#3, 0#7, 0#30, 0#1, 0#8⟩
  dReady := true
  dqI := 0#4

def zeros : Vector (BitVec 8) 8 := Vector.replicate 8 0#8

/-- The frame of one bit taken in cycle 4 has two pulses. -/
theorem not_lengths_oneBit : FifoFrame zeros zeros oneBit 4 ∧ (run zeros zeros oneBit 4).regs.fmt.fmtProto = 0#2 ∧
    (run zeros zeros oneBit 4).regs.fmt.fmtLen = 1#4 ∧ PulsesOf (macStream zeros zeros oneBit) 4 2 ∧
    ¬ Lengths zeros zeros oneBit := by
  have hframe : FifoFrame zeros zeros oneBit 4 := by unfold FifoFrame; decide +kernel
  have hproto : (run zeros zeros oneBit 4).regs.fmt.fmtProto = 0#2 := by decide +kernel
  have hlen : (run zeros zeros oneBit 4).regs.fmt.fmtLen = 1#4 := by decide +kernel
  have hw : Width 1 (run zeros zeros oneBit 4).regs.fmt.fmtProto := by rw [hproto]; exact Width.single
  obtain ⟨hfifo, hcnt⟩ := frame_of_fifo hframe
  have hpulses : PulsesOf (macStream zeros zeros oneBit) 4 2 :=
    QspiMedia.pulsesOf_of_frame hfifo (by rw [hcnt, QspiFifo.linkCnt_eq hw, hlen]; rfl)
  refine ⟨hframe, hproto, hlen, hpulses, fun h => ?_⟩
  exact (pulsesOf_fifo_iff hframe hw).1 (h 4 1 hframe hw) (by rw [hlen]; rfl)

end FlashQspi
