import ZrSoc.FlashFormat

/-!
# The shared link of the QSPI (`rtl/perips/sirv_qspi_arbiter.v`)

The memory map and the software FIFOs share the link of the media layer.  `QspiArbiter` selects between them, and
`FlashLink` is the part of `rtl/perips/sirv_flash_qspi.v` with the flash map, the arbiter and the media layer.  The
registers and the software side of the link are inputs.
-/

namespace QspiArbiter

open QspiMedia (Link)
open QspiPhysical (mask)

structure State where
  sel0 : Bool
  sel1 : Bool
  deriving DecidableEq, Repr

structure Input where
  inner0 : Link
  lock0 : Bool
  inner1 : Link
  lock1 : Bool
  sel : Bool

variable (s : State) (x : Input)

/-- The selected side does not lock the link. -/
def selSet : Bool := !(s.sel0 && x.lock0 || s.sel1 && x.lock1)

def outer : Link where
  txValid := s.sel0 && x.inner0.txValid || s.sel1 && x.inner1.txValid
  txBits := mask 8 s.sel0 &&& x.inner0.txBits ||| mask 8 s.sel1 &&& x.inner1.txBits
  cnt := mask 8 s.sel0 &&& x.inner0.cnt ||| mask 8 s.sel1 &&& x.inner1.cnt
  fmt :=
    { proto := mask 2 s.sel0 &&& x.inner0.fmt.proto ||| mask 2 s.sel1 &&& x.inner1.fmt.proto
      endian := s.sel0 && x.inner0.fmt.endian || s.sel1 && x.inner1.fmt.endian
      iodir := s.sel0 && x.inner0.fmt.iodir || s.sel1 && x.inner1.fmt.iodir }
  csSet := s.sel0 && x.inner0.csSet || s.sel1 && x.inner1.csSet
  csClear :=
    selSet s x && (s.sel1 != x.sel || s.sel0 != !x.sel) || s.sel0 && x.inner0.csClear || s.sel1 && x.inner1.csClear
  csHold := s.sel0 && x.inner0.csHold || s.sel1 && x.inner1.csHold

def reset : State where
  sel0 := true
  sel1 := false

def edge : State where
  sel0 := if selSet s x then !x.sel else s.sel0
  sel1 := if selSet s x then x.sel else s.sel1

end QspiArbiter

namespace FlashLink

open Sync TileLink
open FlashMap (Format)
open QspiMedia (Link Delays)
open QspiPhysical (SckCtrl)

structure State where
  flash : FlashPort.State
  arb : QspiArbiter.State
  mac : QspiMedia.State
  deriving DecidableEq, Repr

/-- The registers, the flash port, the software side of the link (`fifo`) and the data lines. -/
structure Input where
  flashEn : Bool
  insn : Format
  sck : SckCtrl
  dla : Delays
  csId : Bool
  csDflt0 : Bool
  aValid : Bool
  aBits : A 7 1 8
  dReady : Bool
  fifo : Link
  fifoLock : Bool
  dqI : BitVec 4

variable (s : State) (x : Input)

def innerActive : Bool := QspiMedia.linkActive s.mac && s.arb.sel0

/-- The flash port, with `io_link_tx_ready` still open. -/
def flashPorts (txReady : Bool) : FlashPort.Input where
  en := x.flashEn
  ctrl := x.insn
  aValid := x.aValid
  aBits := x.aBits
  dReady := x.dReady
  linkTxReady := txReady
  linkRxValid := QspiMedia.linkRxValid s.mac && s.arb.sel0
  linkRxBits := QspiMedia.linkRxBits s.mac
  linkActive := innerActive s

/-- The ports of `arb`.  What the flash map drives does not depend on `io_link_tx_ready`. -/
def arbInput : QspiArbiter.Input where
  inner0 := FlashPort.link s.flash (flashPorts s x false)
  lock0 := FlashPort.lock s.flash (flashPorts s x false)
  inner1 := x.fifo
  lock1 := x.fifoLock
  sel := x.flashEn == false

/-- The ports of `mac`. -/
def macInput : QspiMedia.Input where
  dqI := x.dqI
  sck := x.sck
  dla := x.dla
  csId := x.csId
  csDflt0 := x.csDflt0
  link := QspiArbiter.outer s.arb (arbInput s x)

/-- The ports of the flash port. -/
def flashInput : FlashPort.Input := flashPorts s x (QspiMedia.linkTxReady s.mac (macInput s x) && s.arb.sel0)

def reset : State where
  flash := FlashPort.reset
  arb := QspiArbiter.reset
  mac := QspiMedia.reset

def edge : State where
  flash := FlashPort.edge s.flash (flashInput s x)
  arb := QspiArbiter.edge s.arb (arbInput s x)
  mac := QspiMedia.edge s.mac (macInput s x)

def machine : Machine State Input where
  reset := reset
  edge := edge

variable (i : ℕ → Input)

abbrev run : ℕ → State := machine.run i

/-- What the flash port sees. -/
def flashStream (n : ℕ) : FlashPort.Input := flashInput (run i n) (i n)

variable {i} {s x} {k m n p : ℕ}

theorem run_succ_mac (n : ℕ) : (run i (n + 1)).mac = QspiMedia.edge (run i n).mac (macInput (run i n) (i n)) := rfl

theorem run_succ_arb (n : ℕ) : (run i (n + 1)).arb = QspiArbiter.edge (run i n).arb (arbInput (run i n) (i n)) := rfl

theorem run_flash (n : ℕ) : (run i n).flash = FlashPort.run (flashStream i) n := by
  induction n with
  | zero => rfl
  | succ n ih =>
    have h : (run i (n + 1)).flash = FlashPort.edge (run i n).flash (flashStream i n) := rfl
    rw [h, ih]
    rfl

/-- One side is selected. -/
theorem sel1_eq (n : ℕ) : (run i n).arb.sel1 = !(run i n).arb.sel0 := by
  induction n with
  | zero => rfl
  | succ n ih =>
    rw [run_succ_arb, QspiArbiter.edge]
    cases QspiArbiter.selSet (run i n).arb (arbInput (run i n) (i n)) <;> simp [ih]

/-! ### A cleared chip select -/

/-- A clear of an asserted chip select lasts until the chip select is inactive. -/
theorem clear_of_csClear (hkp : k < p) (hc : (macInput (run i k) (i k)).link.csClear = true)
    (ha : ∀ m, k ≤ m → m ≤ p → (run i m).mac.csAssert = true) : (run i p).mac.clear = true := by
  have hmain {m : ℕ} (hm : k ≤ m) (hmp : m + 1 ≤ p) : QspiMedia.sIntercs (run i m).mac = false := by
    have h := ha (m + 1) (by omega) hmp
    by_contra hs
    rw [Bool.not_eq_false] at hs
    rw [run_succ_mac] at h
    simp [QspiMedia.edge, hs] at h
  induction p, hkp using Nat.le_induction with
  | base =>
    rw [run_succ_mac]
    simp [QspiMedia.edge, hmain le_rfl le_rfl, hc, ha k le_rfl (by omega)]
  | succ p hkp ih =>
    have hp := ih (fun m h1 h2 => ha m h1 (by omega)) fun h1 h2 => hmain h1 (by omega)
    rw [run_succ_mac]
    simp [QspiMedia.edge, hmain (by omega : k ≤ p) le_rfl, hp]

/-- The media layer takes no frame while a clear is pending. -/
theorem not_ready_of_clear (h : (run i n).mac.clear = true) : (flashStream i n).linkTxReady = false := by
  simp [flashStream, flashInput, flashPorts, QspiMedia.linkTxReady, QspiMedia.csDeassert, h]

theorem ready_iff : (flashStream i n).linkTxReady = true ↔
    QspiMedia.linkTxReady (run i n).mac (macInput (run i n) (i n)) = true ∧ (run i n).arb.sel0 = true := by
  simp [flashStream, flashInput, flashPorts]

theorem csAssert_of_ready (h : (flashStream i n).linkTxReady = true) : (run i n).mac.csAssert = true := by
  obtain ⟨h, -⟩ := ready_iff.1 h
  simp only [QspiMedia.linkTxReady, Bool.and_eq_true] at h
  exact h.1.1.2

/-- The arbiter and the media layer give the flash map the link it relies on. -/
theorem linkOk : FlashPort.LinkOk (flashStream i) where
  active n h := by
    have hsel := (ready_iff.1 h).2
    simp [flashStream, flashInput, flashPorts, innerActive, QspiMedia.linkActive, csAssert_of_ready h, hsel]
  clears t m htm hc ha hr := by
    have ha' : (run i t).mac.csAssert = true ∧ (run i t).arb.sel0 = true := by
      simpa [flashStream, flashInput, flashPorts, innerActive, QspiMedia.linkActive] using ha
    by_contra hno
    push Not at hno
    have hclear : (macInput (run i t) (i t)).link.csClear = true := by
      have hc' : (arbInput (run i t) (i t)).inner0.csClear = true := by
        rw [← run_flash] at hc
        exact hc
      simp [macInput, QspiArbiter.outer, hc', ha'.2]
    have hassert : ∀ j, t ≤ j → j ≤ m → (run i j).mac.csAssert = true := by
      intro j h1 h2
      rcases Nat.eq_or_lt_of_le h1 with rfl | h1
      · exact ha'.1
      rcases Nat.eq_or_lt_of_le h2 with rfl | h2
      · exact csAssert_of_ready hr
      have hj : (flashStream i j).linkActive = true := by simpa using hno j h1 h2
      exact (Bool.and_eq_true_iff.1 hj).1
    have h0 := not_ready_of_clear (clear_of_csClear htm hclear hassert)
    rw [h0] at hr
    exact absurd hr (by simp)

end FlashLink
