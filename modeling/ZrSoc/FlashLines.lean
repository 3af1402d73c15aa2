import ZrSoc.FlashSystem
import ZrSoc.FlashStages

/-!
# The data lines of the flash

A frame of the bit engine as the device sees it, and the samples that come back: they are on the lines three clocks
before the bit engine has them.  `taken_of_frame` is for the bytes of the command and the address, `shown_of_frame` for
the bytes of the data.
-/

namespace FlashSystem

open Sync
open QspiPhysical (Width)
open SpiModel (Mode Taking Showing Reads period)

variable (r : Regs) (v : Device) (i : ℕ → Input)

abbrev run : ℕ → State := (machine r v).run i

/-- What the flash path sees. -/
def linkStream (n : ℕ) : FlashLink.Input := linkInput r (run r v i n) (i n)

/-- What the bit engine sees. -/
def phyStream (n : ℕ) : QspiPhysical.Input :=
  QspiMedia.phyInput (run r v i n).link.mac (FlashLink.macInput (run r v i n).link (linkStream r v i n))

/-- The bit engine accepts a frame of `c` beats in cycle `t`. -/
structure FrameAt (t c : ℕ) : Prop where
  accepted : QspiPhysical.accepts (run r v i t).link.mac.phy (phyStream r v i t) = true
  stb : (phyStream r v i t).op.stb = true
  cnt : (phyStream r v i t).op.cnt.toNat = c
  ne_zero : c ≠ 0

/-- The device is selected during the frame. -/
def SelectedAt (t c : ℕ) : Prop := ∀ m, t ≤ m → m ≤ t + 3 + 2 * c → (run r v i m).link.mac.csDflt0 = false

variable {r v i} {n t c k l m j w : ℕ} {code : BitVec 8} {a : BitVec 24} {M : Mode}

theorem run_phy (n : ℕ) : (run r v i n).link.mac.phy = QspiPhysical.machine.run (phyStream r v i) n := by
  induction n with
  | zero => rfl
  | succ n ih =>
    have hstep : (run r v i (n + 1)).link.mac.phy =
        QspiPhysical.edge (run r v i n).link.mac.phy (phyStream r v i n) := rfl
    rw [hstep, ih]
    rfl

theorem phyStream_noStrobedDelay (n : ℕ) : QspiPhysical.NoStrobedDelay (phyStream r v i n) :=
  QspiMedia.noStrobedDelay _ _

/-- The synchronisers delay the data lines by three clocks. -/
theorem dqI_eq (n : ℕ) : (phyStream r v i (n + 3)).dqI = dq (run r v i n).link (run r v i n).dev (i n).float := rfl

/-! ### The lines -/

theorem resolve_of_driven {oe o devT devO float : BitVec 4} (hoe : oe.getLsbD l = true) (ht : devT.getLsbD l = true) :
    (resolve oe o devT devO float).getLsbD l = o.getLsbD l := by
  simp [resolve, hoe, ht]

theorem resolve_of_device {oe o devT devO float : BitVec 4} (hl : l < 4) (hoe : oe.getLsbD l = false)
    (ht : devT.getLsbD l = false) : (resolve oe o devT devO float).getLsbD l = devO.getLsbD l := by
  rw [BitVec.getLsbD_eq_getElem hl] at hoe ht
  simp [resolve, hoe, ht, hl]

/-! ### The clock of the device -/

theorem run_dev_succ (n : ℕ) : (run r v i (n + 1)).dev =
    SpiModel.step v.size v.mem v.undef (run r v i n).dev (pins (run r v i n).link) (pins (run r v i (n + 1)).link)
      (dq (run r v i (n + 1)).link (run r v i n).dev (i n).float) := rfl

/-- Without a change of SCK the device is only reset by its chip select. -/
theorem dev_of_low (h : (run r v i n).link.mac.phy.sck = false) (h' : (run r v i (n + 1)).link.mac.phy.sck = false) :
    (run r v i (n + 1)).dev =
      if (run r v i n).link.mac.csDflt0 = false ∧ (run r v i (n + 1)).link.mac.csDflt0 = true then
        SpiModel.csRise (run r v i n).dev
      else (run r v i n).dev := by
  rw [run_dev_succ, SpiModel.step]
  simp only [pins, QspiPhysical.portSck, QspiMedia.portCs0, h, h']
  simp

/-- A period of SCK. -/
theorem dev_of_period (h0 : (run r v i n).link.mac.phy.sck = false) (h1 : (run r v i (n + 1)).link.mac.phy.sck = true)
    (h2 : (run r v i (n + 2)).link.mac.phy.sck = false)
    (hp : ∀ m, n ≤ m → m ≤ n + 2 → (run r v i m).link.mac.csDflt0 = false) :
    (run r v i (n + 2)).dev = period v.size v.mem v.undef (run r v i n).dev
      (dq (run r v i (n + 1)).link (run r v i n).dev (i n).float) := by
  have hp0 := hp n le_rfl (by omega)
  have hp1 := hp (n + 1) (by omega) (by omega)
  have hp2 := hp (n + 2) (by omega) le_rfl
  have hrise : (run r v i (n + 1)).dev = SpiModel.sckRise (run r v i n).dev false
      (dq (run r v i (n + 1)).link (run r v i n).dev (i n).float) := by
    rw [run_dev_succ, SpiModel.step]
    simp [pins, QspiPhysical.portSck, QspiMedia.portCs0, h0, h1, hp0, hp1]
  rw [run_dev_succ (n + 1), SpiModel.step, hrise]
  simp [pins, QspiPhysical.portSck, QspiMedia.portCs0, h1, h2, hp1, hp2, period]

/-! ### A frame -/

section Frame

variable (hf : FrameAt r v i t c)

include hf

theorem FrameAt.accepted_run :
    QspiPhysical.accepts (QspiPhysical.machine.run (phyStream r v i) t) (phyStream r v i t) = true := by
  rw [← run_phy]
  exact hf.accepted

theorem FrameAt.sck (hj : j < 2 * c) : (run r v i (t + 1 + j)).link.mac.phy.sck = decide (j % 2 = 1) := by
  rw [run_phy]
  exact (QspiPhysical.shifting_of_accepts phyStream_noStrobedDelay hf.accepted_run hf.cnt hj).sck

/-- SCK is low when the frame has been shifted. -/
theorem FrameAt.sck_end : (run r v i (t + 1 + 2 * c)).link.mac.phy.sck = false ∧
    (run r v i (t + 2 + 2 * c)).link.mac.phy.sck = false ∧ (run r v i (t + 3 + 2 * c)).link.mac.phy.sck = false := by
  obtain ⟨h0, h1, h2⟩ := QspiPhysical.draining_of_accepts phyStream_noStrobedDelay hf.accepted_run hf.cnt hf.ne_zero
  rw [run_phy, run_phy, run_phy]
  exact ⟨h0.sck, h1.sck, h2.sck⟩

theorem FrameAt.formatted (hj : j ≤ 2 * c + 2) :
    QspiPhysical.Formatted (phyStream r v i t).ctrlFmt (run r v i (t + 1 + j)).link.mac.phy := by
  rw [run_phy]
  exact QspiPhysical.formatted_of_accepts phyStream_noStrobedDelay hf.accepted_run hf.cnt hf.ne_zero hf.stb hj

variable (hp : SelectedAt r v i t c)

include hp

/-- The device is clocked once for each beat. -/
theorem FrameAt.dev_period (hk : k < c) : (run r v i (t + 1 + 2 * (k + 1))).dev =
    period v.size v.mem v.undef (run r v i (t + 1 + 2 * k)).dev
      (dq (run r v i (t + 1 + (2 * k + 1))).link (run r v i (t + 1 + 2 * k)).dev (i (t + 1 + 2 * k)).float) := by
  have h0 := hf.sck (j := 2 * k) (by omega)
  have h1 := hf.sck (j := 2 * k + 1) (by omega)
  have h2 : (run r v i (t + 1 + 2 * k + 2)).link.mac.phy.sck = false := by
    obtain hlt | heq : 2 * k + 2 < 2 * c ∨ 2 * k + 2 = 2 * c := by omega
    · have h2 := hf.sck hlt
      rw [show (2 * k + 2) % 2 = 0 by omega] at h2
      exact h2
    · rw [Nat.add_assoc, heq]
      exact hf.sck_end.1
  refine dev_of_period (n := t + 1 + 2 * k) ?_ ?_ h2 fun m h1 h2 => hp m (by omega) (by omega)
  · rw [h0]
    exact decide_eq_false (by omega)
  · rw [Nat.add_assoc, h1]
    exact decide_eq_true (by omega)

/-- The device is not clocked before the first and after the last beat. -/
theorem FrameAt.dev_ends : (run r v i (t + 1)).dev = (run r v i t).dev ∧
    (run r v i (t + 3 + 2 * c)).dev = (run r v i (t + 1 + 2 * c)).dev := by
  have hquiet (n : ℕ) (h0 : (run r v i n).link.mac.phy.sck = false)
      (h1 : (run r v i (n + 1)).link.mac.phy.sck = false) (hn : t ≤ n) (hn' : n + 1 ≤ t + 3 + 2 * c) :
      (run r v i (n + 1)).dev = (run r v i n).dev := by
    rw [dev_of_low h0 h1, if_neg]
    rw [hp (n + 1) (by omega) hn']
    simp
  have hidle := QspiPhysical.idle_of_accepts phyStream_noStrobedDelay hf.accepted_run
  rw [← run_phy] at hidle
  obtain ⟨h0, h1, h2⟩ := hf.sck_end
  refine ⟨hquiet t hidle.sck (hf.sck (j := 0) (by have := hf.ne_zero; omega)) le_rfl (by omega), ?_⟩
  have e1 : t + 2 + 2 * c = t + 1 + 2 * c + 1 := by omega
  have e2 : t + 3 + 2 * c = t + 1 + 2 * c + 1 + 1 := by omega
  rw [e1] at h1
  rw [e2] at h2
  rw [e2, hquiet _ h1 h2 (by omega) (by omega), hquiet _ h0 h1 (by omega) (by omega)]

end Frame

/-! ### A byte to the device -/

section Send

variable (hf : FrameAt r v i t 8) (hp : SelectedAt r v i t 8)
  (hfmt : (phyStream r v i t).ctrlFmt = ⟨0#2, false, true⟩)
  (hdata : (phyStream r v i t).op.data = SpiModel.byteOf code a m)
  (hd : Taking code a m (SpiModel.byteOf code a m) 0 (run r v i t).dev)

include hf hfmt hdata in
/-- The device samples the bits of the byte on line 0. -/
theorem line_of_send (hk : k < 8) {d : SpiModel.State} (hm : d.xferMode = .single) {float : BitVec 4} :
    (dq (run r v i (t + 1 + (2 * k + 1))).link d float).getLsbD 0 = (SpiModel.byteOf code a m).getLsbD (7 - k) := by
  have hform := hf.formatted (j := 2 * k + 1) (by omega)
  have htx := QspiPhysical.txd_of_accepts phyStream_noStrobedDelay hf.accepted_run hf.cnt hf.stb
    (by rw [hfmt]) (j := 2 * k + 1) (by omega)
  rw [hfmt] at hform
  have hoe : (QspiPhysical.portDqOe (run r v i (t + 1 + (2 * k + 1))).link.mac.phy).getLsbD 0 = true := by
    exact BitVec.getLsbD_append.trans (by simp [hform.ctrlFmt, hform.protoS])
  have ht : (SpiModel.dqT d).getLsbD 0 = true := BitVec.getLsbD_append.trans (by simp [hm])
  rw [dq, resolve_of_driven hoe ht, QspiPhysical.portDqO, run_phy, htx, show 7 - (2 * k + 1) / 2 = 7 - k by omega]
  simp [QspiPhysical.bufferIn, hfmt, hdata]

include hf hp hfmt hdata hd

private theorem taking_of_send (hk : k < 8) :
    Taking code a m (SpiModel.byteOf code a m) k (run r v i (t + 1 + 2 * k)).dev := by
  induction k with
  | zero =>
    rw [show t + 1 + 2 * 0 = t + 1 by omega, (hf.dev_ends hp).1]
    exact hd
  | succ k ih =>
    have h := ih (by omega)
    rw [hf.dev_period hp (by omega)]
    exact h.next (by omega) (line_of_send hf hfmt hdata (by omega) h.mode)

/-- A frame hands a byte of the command or the address to the device. -/
theorem taken_of_send (hr : Reads code M) (hm : m < 3) (b : BitVec 8) :
    Taking code a (m + 1) b 0 (run r v i (t + 19)).dev := by
  have h := taking_of_send hf hp hfmt hdata hd (k := 7) (by decide)
  have hend : (run r v i (t + 19)).dev = (run r v i (t + 1 + 2 * (7 + 1))).dev := (hf.dev_ends hp).2
  rw [hend, hf.dev_period hp (by decide)]
  exact h.taken hr hm (line_of_send hf hfmt hdata (by decide) h.mode)

/-- After the last byte of the address the device has the data. -/
theorem showing_of_send (hr : Reads code M) (hm : m = 3) :
    Showing v.size v.mem v.undef code M a 0 0 (run r v i (t + 19)).dev := by
  subst hm
  have h := taking_of_send hf hp hfmt hdata hd (k := 7) (by decide)
  have hend : (run r v i (t + 19)).dev = (run r v i (t + 1 + 2 * (7 + 1))).dev := (hf.dev_ends hp).2
  rw [hend, hf.dev_period hp (by decide)]
  exact h.showing hr (line_of_send hf hfmt hdata (by decide) h.mode)

end Send

/-! ### A byte from the device -/

section Receive

variable (hf : FrameAt r v i t c) (hp : SelectedAt r v i t c)
  (hw : Width (SpiModel.width M) (phyStream r v i t).ctrlFmt.proto) (hc : c = SpiModel.beats M)
  (hio : (phyStream r v i t).ctrlFmt.iodir = false)
  (hd : Showing v.size v.mem v.undef code M a j 0 (run r v i t).dev)

include hf hp hc hd

private theorem showing_of_receive (hk : k < c) :
    Showing v.size v.mem v.undef code M a j k (run r v i (t + 1 + 2 * k)).dev := by
  induction k with
  | zero =>
    rw [show t + 1 + 2 * 0 = t + 1 by omega, (hf.dev_ends hp).1]
    exact hd
  | succ k ih =>
    rw [hf.dev_period hp (by omega)]
    exact (ih (by omega)).next (by omega)

/-- A frame of the data leads the device to the next byte of its memory. -/
theorem shown_of_receive (hr : Reads code M) :
    Showing v.size v.mem v.undef code M a (j + 1) 0 (run r v i (t + 3 + 2 * c)).dev := by
  have h0 := hf.ne_zero
  have h := showing_of_receive hf hp hc hd (k := c - 1) (by omega)
  have hlast := hf.dev_period hp (k := c - 1) (by omega)
  rw [show c - 1 + 1 = c by omega] at hlast
  rw [(hf.dev_ends hp).2, hlast]
  exact h.shown hr (by omega)

include hw hio

/-- The bit engine receives the byte that the device shows. -/
theorem buffer_of_receive : (run r v i (t + 3 + 2 * c)).link.mac.phy.buffer =
    SpiModel.fetch v.size v.mem v.undef (a.toNat + j) := by
  have hcw : c * SpiModel.width M = 8 := hc ▸ SpiModel.beats_mul_width M
  have hsample {q l : ℕ} (hq : q < c) (hl : l < SpiModel.width M) :
      (run r v i (t + 3 + 2 * c)).link.mac.phy.buffer.getLsbD ((c - 1 - q) * SpiModel.width M + l) =
        (SpiModel.fetch v.size v.mem v.undef (a.toNat + j)).getLsbD ((c - 1 - q) * SpiModel.width M + l) := by
    have hform := hf.formatted (j := 2 * q) (by omega)
    have hoe : QspiPhysical.portDqOe (run r v i (t + 1 + 2 * q)).link.mac.phy = 0#4 := by
      simp [QspiPhysical.portDqOe, hform.ctrlFmt, hio]
    obtain ⟨ht, ho⟩ := (showing_of_receive hf hp hc hd hq).lines (hc ▸ hq) hl
    have hline : QspiPhysical.lane (SpiModel.width M) l = SpiModel.outLine M l ∧ SpiModel.outLine M l < 4 := by
      cases M <;> simp only [SpiModel.width] at hl <;> simp [QspiPhysical.lane, SpiModel.outLine, SpiModel.width] <;>
        omega
    rw [run_phy, QspiPhysical.buffer_of_accepts phyStream_noStrobedDelay hf.accepted_run hf.cnt hf.stb hw hcw hq hl,
      show t + 4 + 2 * q = t + 1 + 2 * q + 3 by omega, dqI_eq, hline.1, dq,
      resolve_of_device hline.2 (by rw [hoe]; simp) ht, ho, hc]
  -- bit `p` is bit `p % w` of sample `c - 1 - p / w`
  refine BitVec.eq_of_getLsbD_eq fun p hp => ?_
  have hpos : 0 < SpiModel.width M := by cases M <;> decide
  have hdiv : p / SpiModel.width M < c := by
    rw [Nat.div_lt_iff_lt_mul hpos, hcw]
    exact hp
  have hmod := Nat.div_add_mod' p (SpiModel.width M)
  generalize p / SpiModel.width M = q at hdiv hmod
  have hbit := hsample (q := c - 1 - q) (by omega) (Nat.mod_lt p hpos)
  rwa [show c - 1 - (c - 1 - q) = q by omega, hmod] at hbit

end Receive

end FlashSystem
