import ZrSoc.FlashControl
import ZrSoc.QspiProgress
import ZrSoc.QspiPulses
import ZrSoc.QspiReceive
import ZrSoc.Sync.Log

/-!
# Transfers of the software through the QSPI

The bytes that software writes to `txdata` are the frames of the software side of the link, in order and each of them
once (`sends`), however the flash map uses the link in between; they all are sent if the flash map leaves the link to
the software.  A frame in the receive direction locks the link until its end and puts one byte into the receive queue,
the data lines at the pulses of the frame (`receives_frames`).
-/

namespace QspiMedia

open Sync

variable {s : State} {x : Input} {i : ℕ → Input} {n k m : ℕ} {p : Bool}

/-- The link offers a frame with the level `p` of the chip select, as the software side does. -/
structure Waiting (p : Bool) (x : Input) : Prop where
  txValid : x.link.txValid = true
  csHold : x.link.csHold = false
  csClear : x.link.csClear = false
  level : t163 x = p

/-- The steps to the next frame with this level. -/
def stepsTo (p : Bool) (s : State) : ℕ :=
  match s.state with
  | .interxfr => 4
  | .intercs => 2
  | .main => if s.csAssert then (if s.clear || p != s.csDflt0 then 3 else 0) else 1

/-- Without a frame every clock edge keeps the steps, and a ready engine makes one. -/
theorem stepsTo_edge (hc : ClearOk s) (hx : Waiting p x) (hr : linkTxReady s x = false) :
    stepsTo p (edge s x) ≤ stepsTo p s ∧ (opReady s = true → stepsTo p (edge s x) < stepsTo p s) := by
  have hd : csDeassert s x = (s.clear || p != s.csDflt0) := by simp [csDeassert, hx.csHold, hx.level]
  cases hs : s.state with
  | interxfr =>
    cases hcont : opReady s || continuous x with
    | true =>
      have hlt : stepsTo p (edge s x) < 4 := by
        simp only [stepsTo, edge, hs, hcont, ↓reduceIte]
        grind
      simp only [stepsTo, hs] at hlt ⊢
      omega
    | false =>
      obtain ⟨hop, hcont⟩ := Bool.or_eq_false_iff.1 hcont
      simp [stepsTo, edge, hs, hcont, hop]
  | intercs => cases hop : opReady s <;> simp [stepsTo, edge, hs, sIntercs, hop]
  | main =>
    cases hca : s.csAssert with
    | false =>
      have hcl := hc hca
      cases hop : opReady s <;>
        simp [stepsTo, edge, hs, hca, sIntercs, sMain, t189, t195, hx.txValid, hx.level, hop, hcl]
    | true =>
      cases hde : s.clear || p != s.csDflt0 with
      | true =>
        rw [hde] at hd
        cases hop : opReady s <;>
          simp [stepsTo, edge, hs, hca, hd, hde, hx.csClear, sIntercs, sMain, t189, t195, hop]
      | false =>
        rw [hde] at hd
        have hop : opReady s = false := by simpa [linkTxReady, sMain, hs, hca, hd] using hr
        simp [stepsTo, edge, hs, hca, hd, hde, hx.csClear, sIntercs, sMain, t189, t195, hop]

private theorem stepsTo_le (hx : ∀ m, k ≤ m → Waiting p (i m))
    (hno : ∀ m, k ≤ m → ¬ linkTxReady (run i m) (i m) = true) (hkm : k ≤ m) :
    stepsTo p (run i m) ≤ stepsTo p (run i k) := by
  induction m, hkm using Nat.le_induction with
  | base => exact le_rfl
  | succ m hkm ih =>
    exact (stepsTo_edge (clearOk i m) (hx m hkm) (Bool.not_eq_true _ ▸ hno m hkm)).1.trans ih

/-- A frame that waits for good is taken. -/
theorem exists_linkTxReady_of_waiting (hx : ∀ m, n ≤ m → Waiting p (i m)) :
    ∃ m, n ≤ m ∧ linkTxReady (run i m) (i m) = true := by
  refine Sync.exists_of_progress (P := fun _ => True) (fun m => stepsTo p (run i m)) trivial fun k hk _ => ?_
  by_cases hQ : ∃ m, k ≤ m ∧ linkTxReady (run i m) (i m) = true
  · exact Or.inl hQ
  · have hno : ∀ m, k ≤ m → ¬ linkTxReady (run i m) (i m) = true := fun m hm hr => hQ ⟨m, hm, hr⟩
    obtain ⟨m, hkm, hm⟩ := exists_ready i k
    have hle := stepsTo_le (fun j hj => hx j (by omega)) hno hkm
    have hlt : stepsTo p (run i (m + 1)) < stepsTo p (run i m) :=
      (stepsTo_edge (clearOk i m) (hx m (by omega)) (Bool.not_eq_true _ ▸ hno m hkm)).2 hm
    exact Or.inr ⟨m + 1, by omega, trivial, by omega⟩

end QspiMedia

namespace QspiArbiter

variable {s : State} {x : Input}

/-- With side 1 selected the link is that of side 1, and is cleared when side 0 takes over. -/
theorem outer_of_sel1 (h0 : s.sel0 = false) (h1 : s.sel1 = true) :
    outer s x = { x.inner1 with csClear := !x.lock1 && !x.sel || x.inner1.csClear } := by
  simp [outer, selSet, h0, h1, QspiPhysical.mask_true_and, QspiPhysical.mask_false_and]

end QspiArbiter

namespace FlashQspi

open Sync
open QspiMedia (FrameAt Waiting phyStream)
open QspiPhysical (Width finish tick place lane rxValid)

variable (txRam rxRam : Vector (BitVec 8) 8) (i : ℕ → Input)

/-- The ports of `fifo` in a run. -/
def fifoStream (n : ℕ) : QspiFifo.Input := fifoInput (run txRam rxRam i n) (i n)

/-- The byte that is put into `txq` in cycle `n`: a write of `txdata` while there is place. -/
def written (n : ℕ) : Option (BitVec 8) :=
  Queue1.pushed (run txRam rxRam i n).fifo.txq (QspiFifo.txqInput (fifoStream txRam rxRam i n))

/-- The byte that is taken out of `txq`. -/
def sent (n : ℕ) : Option (BitVec 8) :=
  Queue1.popped (run txRam rxRam i n).fifo.txq (QspiFifo.txqInput (fifoStream txRam rxRam i n))

/-- The byte that arrives on the link and is meant for `rxq`. -/
def received (n : ℕ) : Option (BitVec 8) :=
  if (run txRam rxRam i n).fifo.rxen && (fifoStream txRam rxRam i n).linkRxValid then
    some (fifoStream txRam rxRam i n).linkRxBits else none

def kept (n : ℕ) : Option (BitVec 8) :=
  Queue1.pushed (run txRam rxRam i n).fifo.rxq
    (QspiFifo.rxqInput (run txRam rxRam i n).fifo (fifoStream txRam rxRam i n))

/-- The byte that a read of `rxdata` takes out of `rxq`. -/
def read (n : ℕ) : Option (BitVec 8) :=
  Queue1.popped (run txRam rxRam i n).fifo.rxq
    (QspiFifo.rxqInput (run txRam rxRam i n).fifo (fifoStream txRam rxRam i n))

/-- The format of the registers. -/
def formatAt (n : ℕ) : QspiPhysical.Fmt :=
  ⟨(run txRam rxRam i n).regs.fmt.fmtProto, (run txRam rxRam i n).regs.fmt.fmtEndian,
    (run txRam rxRam i n).regs.fmt.fmtIodir⟩

/-- The configuration of the bit engine. -/
abbrev ctrlSckAt (n : ℕ) : QspiPhysical.SckCtrl := (run txRam rxRam i n).link.mac.phy.ctrlSck

/-- A frame of the software in the receive direction. -/
def Expects (t : ℕ) : Prop := FifoFrame txRam rxRam i t ∧ (run txRam rxRam i t).regs.fmt.fmtIodir = false

variable {txRam rxRam i} {n t u w : ℕ}

/-! ### Sending -/

theorem log_written (n : ℕ) : log (written txRam rxRam i) n =
    log (sent txRam rxRam i) n ++ Queue1.entries (run txRam rxRam i n).fifo.txq :=
  log_eq_log_append (b := fun n => Queue1.entries (run txRam rxRam i n).fifo.txq) (Queue1.entries_reset txRam)
    (fun _ => Queue1.conservation) n

theorem fifoFrame_iff : FifoFrame txRam rxRam i t ↔
    QspiMedia.linkTxReady (run txRam rxRam i t).link.mac (macStream txRam rxRam i t) = true ∧
      (run txRam rxRam i t).link.arb.sel1 = true ∧ Queue1.deqValid (run txRam rxRam i t).fifo.txq = true := by
  change (_ && _ && _) = true ↔ _
  rw [Bool.and_eq_true, Bool.and_eq_true, and_assoc]
  rfl

theorem sent_eq : sent txRam rxRam i t =
    if QspiFifo.fireTx (run txRam rxRam i t).fifo (fifoStream txRam rxRam i t) then
      some (Queue1.deqBits (run txRam rxRam i t).fifo.txq) else none := rfl

theorem sent_ne_none_iff : sent txRam rxRam i t ≠ none ↔ FifoFrame txRam rxRam i t := by
  rw [sent_eq, FifoFrame, fifoStream]
  split <;> simp_all

theorem sel0_of_sel1 (h : (run txRam rxRam i t).link.arb.sel1 = true) :
    (run txRam rxRam i t).link.arb.sel0 = false := by
  have h1 : (run txRam rxRam i t).link.arb.sel1 = !(run txRam rxRam i t).link.arb.sel0 := sel1_eq t
  rw [h] at h1
  simpa using h1.symm

/-- The media layer sees the software side while it is selected, and a clear when the flash map is to take over. -/
theorem macStream_link (h : (run txRam rxRam i t).link.arb.sel1 = true) : (macStream txRam rxRam i t).link =
    { QspiFifo.link (run txRam rxRam i t).fifo (fifoStream txRam rxRam i t) with
      csClear := !QspiFifo.linkLock (run txRam rxRam i t).fifo && (run txRam rxRam i t).regs.flashEn ||
        (QspiFifo.link (run txRam rxRam i t).fifo (fifoStream txRam rxRam i t)).csClear } := by
  refine (QspiArbiter.outer_of_sel1 (sel0_of_sel1 h) h).trans ?_
  have hsel : (!((run txRam rxRam i t).regs.flashEn == false)) = (run txRam rxRam i t).regs.flashEn := by simp
  rw [← hsel]
  rfl

theorem sent_eq_some_iff {b : BitVec 8} : sent txRam rxRam i t = some b ↔
    FifoFrame txRam rxRam i t ∧ Queue1.deqBits (run txRam rxRam i t).fifo.txq = b := by
  rw [sent_eq, FifoFrame, fifoStream]
  split
  next h => simp [h]
  next h => simp [h]

/-- A byte is sent when the bit engine takes a transfer while the software side is selected. -/
theorem sent_iff {b : BitVec 8} : sent txRam rxRam i t = some b ↔ FrameAt (macStream txRam rxRam i) t ∧
    (run txRam rxRam i t).link.arb.sel1 = true ∧ (phyStream (macStream txRam rxRam i) t).op.data = b := by
  have hframe : FrameAt (macStream txRam rxRam i) t ↔
      QspiMedia.linkTxReady (run txRam rxRam i t).link.mac (macStream txRam rxRam i t) = true ∧
        (macStream txRam rxRam i t).link.txValid = true := by
    rw [FrameAt, phyStream, QspiMedia.accepts_phy, Bool.and_eq_true, ← run_mac]
  have hdata : (phyStream (macStream txRam rxRam i) t).op.data = (macStream txRam rxRam i t).link.txBits := rfl
  rw [sent_eq_some_iff, fifoFrame_iff, hframe, hdata]
  constructor
  · rintro ⟨⟨hready, hsel, hvalid⟩, hb⟩
    rw [macStream_link hsel]
    exact ⟨⟨hready, hvalid⟩, hsel, hb⟩
  · rintro ⟨⟨hready, hvalid⟩, hsel, hb⟩
    rw [macStream_link hsel] at hvalid hb
    exact ⟨⟨hready, hsel, hvalid⟩, hb⟩

/-- Its frame has the length and the format of the registers. -/
theorem frame_of_sent (h : FifoFrame txRam rxRam i t) :
    (phyStream (macStream txRam rxRam i) t).op.cnt = QspiFifo.linkCnt (run txRam rxRam i t).regs.fmt ∧
      (phyStream (macStream txRam rxRam i) t).op.stb = true ∧
      (phyStream (macStream txRam rxRam i) t).ctrlFmt = formatAt txRam rxRam i t := by
  obtain ⟨hready, hsel, -⟩ := fifoFrame_iff.1 h
  rw [run_mac] at hready
  refine ⟨(frame_of_fifo h).2, (QspiMedia.opBits_of_ready hready).1, ?_⟩
  change (macStream txRam rxRam i t).link.fmt = _
  rw [macStream_link hsel]
  rfl

variable (txRam rxRam i) in
/-- From cycle `m` on the software has the link: the flash map is off, and the registers of the chip select are not
written. -/
structure Owns (m : ℕ) : Prop where
  selected : (run txRam rxRam i m).link.arb.sel1 = true
  flashEn : ∀ n, m ≤ n → (run txRam rxRam i n).regs.flashEn = false
  csId : ∀ n, m ≤ n → (run txRam rxRam i n).regs.csId = (run txRam rxRam i m).regs.csId
  csDflt0 : ∀ n, m ≤ n → (run txRam rxRam i n).regs.csDflt0 = (run txRam rxRam i m).regs.csDflt0
  csMode : ∀ n, m ≤ n → (run txRam rxRam i n).regs.fmt.csMode = (run txRam rxRam i m).regs.fmt.csMode

variable {m : ℕ}

/-- With the flash map off the software side stays selected. -/
theorem Owns.sel1 (h : Owns txRam rxRam i m) (hmn : m ≤ n) : (run txRam rxRam i n).link.arb.sel1 = true := by
  induction n, hmn using Nat.le_induction with
  | base => exact h.selected
  | succ n hmn ih =>
    change (edge (run txRam rxRam i n) (i n)).link.arb.sel1 = true
    have hsel : ((run txRam rxRam i n).regs.flashEn == false) = true := by rw [h.flashEn n hmn]; rfl
    simp only [edge, FlashLink.edge, QspiArbiter.edge]
    split
    · exact hsel
    · exact ih

/-- The FIFO knows the mode of the chip select. -/
theorem Owns.csMode_fifo (h : Owns txRam rxRam i m) (hmn : m < n) :
    (run txRam rxRam i n).fifo.csMode = (run txRam rxRam i m).regs.fmt.csMode := by
  obtain ⟨k, rfl⟩ : ∃ k, n = k + 1 := ⟨n - 1, by omega⟩
  exact h.csMode k (by omega)

/-- As long as nothing is sent a byte in `txq` waits for the media layer. -/
theorem Owns.waiting (h : Owns txRam rxRam i m) (hmn : m < n)
    (hvalid : Queue1.deqValid (run txRam rxRam i n).fifo.txq = true) (hno : ¬ FifoFrame txRam rxRam i n) :
    Waiting ((run txRam rxRam i m).regs.csDflt0 ^^
      ((run txRam rxRam i m).regs.fmt.csMode != 3#2 && !(run txRam rxRam i m).regs.csId))
      (macStream txRam rxRam i n) := by
  have hlink := macStream_link (h.sel1 hmn.le)
  have hmode := h.csMode_fifo hmn
  have hclear : (QspiFifo.link (run txRam rxRam i n).fifo (fifoStream txRam rxRam i n)).csClear = false := by
    have hfire : QspiFifo.fireTx (run txRam rxRam i n).fifo (fifoStream txRam rxRam i n) = false :=
      (Bool.not_eq_true _).mp hno
    have hctrl : (fifoStream txRam rxRam i n).ctrl.csMode = (run txRam rxRam i m).regs.fmt.csMode := h.csMode n hmn.le
    rw [QspiFifo.link, hfire, hmode, hctrl]
    simp
  refine ⟨?_, ?_, ?_, ?_⟩
  · rw [hlink]
    exact hvalid
  · rw [hlink]
    rfl
  · rw [hlink, hclear, h.flashEn n hmn.le]
    simp
  · change ((run txRam rxRam i n).regs.csDflt0 ^^ ((macStream txRam rxRam i n).link.csSet &&
      !(run txRam rxRam i n).regs.csId)) = _
    rw [hlink, h.csDflt0 n hmn.le, h.csId n hmn.le, ← hmode]
    rfl

/-- So it is sent. -/
theorem Owns.exists_sent (h : Owns txRam rxRam i m) (hmn : m < n)
    (hvalid : Queue1.entries (run txRam rxRam i n).fifo.txq ≠ []) : ∃ k, n ≤ k ∧ sent txRam rxRam i k ≠ none := by
  by_contra hno
  have hframe (k : ℕ) (hk : n ≤ k) : ¬ FifoFrame txRam rxRam i k := fun hf => hno ⟨k, hk, sent_ne_none_iff.2 hf⟩
  have hentries (k : ℕ) (hk : n ≤ k) : Queue1.entries (run txRam rxRam i k).fifo.txq ≠ [] := by
    induction k, hk using Nat.le_induction with
    | base => exact hvalid
    | succ k hk ih =>
      have hsent : sent txRam rxRam i k = none := by simpa using mt sent_ne_none_iff.1 (hframe k hk)
      have hconserve : Queue1.entries (run txRam rxRam i k).fifo.txq ++ (written txRam rxRam i k).toList =
          (sent txRam rxRam i k).toList ++ Queue1.entries (run txRam rxRam i (k + 1)).fifo.txq := Queue1.conservation
      rw [hsent, Option.toList_none, List.nil_append] at hconserve
      rw [← hconserve]
      exact List.append_ne_nil_of_left_ne_nil ih _
  have hstay (k : ℕ) (hk : n ≤ k) : Queue1.deqValid (run txRam rxRam i k).fifo.txq = true := by
    rw [Queue1.deqValid_iff, ← Queue1.length_entries]
    exact List.length_pos_iff.2 (hentries k hk)
  obtain ⟨k, hk, hready⟩ := QspiMedia.exists_linkTxReady_of_waiting fun k hk =>
    h.waiting (by omega) (hstay k hk) (hframe k hk)
  rw [← run_mac] at hready
  exact hframe k hk (fifoFrame_iff.2 ⟨hready, h.sel1 (by omega), hstay k hk⟩)

/-! ### Receiving -/

theorem log_kept (n : ℕ) : log (kept txRam rxRam i) n =
    log (read txRam rxRam i) n ++ Queue1.entries (run txRam rxRam i n).fifo.rxq :=
  log_eq_log_append (b := fun n => Queue1.entries (run txRam rxRam i n).fifo.rxq) (Queue1.entries_reset rxRam)
    (fun _ => Queue1.conservation) n

/-- A byte that finds eight unread bytes is dropped. -/
theorem kept_eq (n : ℕ) : kept txRam rxRam i n =
    if (Queue1.entries (run txRam rxRam i n).fifo.rxq).length < 8 then received txRam rxRam i n else none := by
  have hready := Queue1.enqReady_iff (s := (run txRam rxRam i n).fifo.rxq)
  rw [← Queue1.length_entries] at hready
  have hvalid : (QspiFifo.rxqInput (run txRam rxRam i n).fifo (fifoStream txRam rxRam i n)).enqValid =
      ((run txRam rxRam i n).fifo.rxen && (fifoStream txRam rxRam i n).linkRxValid) := Bool.and_comm _ _
  rw [kept, Queue1.pushed, Queue1.enq, hvalid, received]
  by_cases h : (Queue1.entries (run txRam rxRam i n).fifo.rxq).length < 8
  · rw [if_pos h, hready.2 h, Bool.true_and]
    rfl
  · rw [if_neg h, (Bool.not_eq_true _).mp (mt hready.1 h), Bool.false_and, if_neg Bool.false_ne_true]

/-- A frame is taken when the engine is done with the one before. -/
theorem done_of_fifoFrame (h : FifoFrame txRam rxRam i t) : rxValid (run txRam rxRam i t).link.mac.phy = true := by
  have hready := (fifoFrame_iff.1 h).1
  simp only [QspiMedia.linkTxReady, Bool.and_eq_true] at hready
  exact (Bool.and_eq_true_iff.1 hready.2).2

/-- A waiting frame or one in the receive direction locks the link. -/
theorem sel1_succ (h : (run txRam rxRam i n).link.arb.sel1 = true)
    (hlock : QspiFifo.linkLock (run txRam rxRam i n).fifo = true) :
    (run txRam rxRam i (n + 1)).link.arb.sel1 = true := by
  change (edge (run txRam rxRam i n) (i n)).link.arb.sel1 = true
  have hkeep (x : FlashLink.Input) (hx : x.fifoLock = true) :
      QspiArbiter.selSet (run txRam rxRam i n).link.arb (FlashLink.arbInput (run txRam rxRam i n).link x) = false := by
    simp [QspiArbiter.selSet, FlashLink.arbInput, h, hx]
  simp only [edge, FlashLink.edge, QspiArbiter.edge]
  rw [hkeep _ hlock]
  exact h

theorem rxen_succ (n : ℕ) : (run txRam rxRam i (n + 1)).fifo.rxen =
    if QspiFifo.fireTx (run txRam rxRam i n).fifo (fifoStream txRam rxRam i n) then
      !(run txRam rxRam i n).regs.fmt.fmtIodir
    else if (fifoStream txRam rxRam i n).linkRxValid then false else (run txRam rxRam i n).fifo.rxen := rfl

/-- While a byte is expected the software side is selected. -/
theorem sel1_of_rxen (n : ℕ) (h : (run txRam rxRam i n).fifo.rxen = true) :
    (run txRam rxRam i n).link.arb.sel1 = true := by
  induction n with
  | zero => cases h
  | succ n ih =>
    rw [rxen_succ] at h
    by_cases hfire : FifoFrame txRam rxRam i n
    · obtain ⟨-, hsel, hvalid⟩ := fifoFrame_iff.1 hfire
      exact sel1_succ hsel (by rw [QspiFifo.linkLock, hvalid, Bool.true_or])
    · have hno : QspiFifo.fireTx (run txRam rxRam i n).fifo (fifoStream txRam rxRam i n) = false :=
        (Bool.not_eq_true _).mp hfire
      rw [hno, if_neg Bool.false_ne_true] at h
      have hrxen : (run txRam rxRam i n).fifo.rxen = true := by
        split at h
        · cases h
        · exact h
      exact sel1_succ (ih hrxen) (by rw [QspiFifo.linkLock, hrxen, Bool.or_true])

/-- A byte is expected from a frame in the receive direction on until the engine is done. -/
theorem rxen_iff (n : ℕ) : (run txRam rxRam i n).fifo.rxen = true ↔ ∃ t < n, Expects txRam rxRam i t ∧
    ∀ v, t < v → v < n → rxValid (run txRam rxRam i v).link.mac.phy = false := by
  induction n with
  | zero =>
    constructor
    · intro h
      cases h
    · rintro ⟨t, ht, -⟩
      exact absurd ht (Nat.not_lt_zero t)
  | succ n ih =>
    rw [rxen_succ]
    by_cases hfire : FifoFrame txRam rxRam i n
    · have hyes : QspiFifo.fireTx (run txRam rxRam i n).fifo (fifoStream txRam rxRam i n) = true := hfire
      rw [if_pos hyes]
      constructor
      · intro h
        exact ⟨n, Nat.lt_succ_self n, ⟨hfire, by simpa using h⟩, fun v hv hvn => by omega⟩
      · rintro ⟨t, ht, hexp, hbusy⟩
        rcases Nat.lt_succ_iff_lt_or_eq.1 ht with hlt | rfl
        · exact absurd (done_of_fifoFrame hfire) (by simp [hbusy n hlt (Nat.lt_succ_self n)])
        · simpa using hexp.2
    · have hno : QspiFifo.fireTx (run txRam rxRam i n).fifo (fifoStream txRam rxRam i n) = false :=
        (Bool.not_eq_true _).mp hfire
      have hvalid : (fifoStream txRam rxRam i n).linkRxValid =
          (rxValid (run txRam rxRam i n).link.mac.phy && (run txRam rxRam i n).link.arb.sel1) := rfl
      rw [hno, if_neg Bool.false_ne_true, hvalid]
      constructor
      · intro h
        obtain ⟨hbusy, hrxen⟩ : (rxValid (run txRam rxRam i n).link.mac.phy &&
            (run txRam rxRam i n).link.arb.sel1) = false ∧ (run txRam rxRam i n).fifo.rxen = true := by
          split at h
          · cases h
          · exact ⟨(Bool.not_eq_true _).mp ‹_›, h⟩
        rw [sel1_of_rxen n hrxen, Bool.and_true] at hbusy
        obtain ⟨t, ht, hexp, hall⟩ := ih.1 hrxen
        refine ⟨t, by omega, hexp, fun v hv hvn => ?_⟩
        rcases Nat.lt_succ_iff_lt_or_eq.1 hvn with hlt | rfl
        · exact hall v hv hlt
        · exact hbusy
      · rintro ⟨t, ht, hexp, hall⟩
        have hlt : t < n := by
          rcases Nat.lt_succ_iff_lt_or_eq.1 ht with hlt | rfl
          · exact hlt
          · exact absurd hexp.1 hfire
        rw [hall n hlt (Nat.lt_succ_self n), Bool.false_and, if_neg Bool.false_ne_true]
        exact ih.2 ⟨t, hlt, hexp, fun v hv hvn => hall v hv (by omega)⟩

theorem received_iff {b : BitVec 8} : received txRam rxRam i u = some b ↔
    (∃ t < u, Expects txRam rxRam i t ∧ ∀ v, t < v → v < u → rxValid (run txRam rxRam i v).link.mac.phy = false) ∧
      rxValid (run txRam rxRam i u).link.mac.phy = true ∧
      QspiPhysical.rxBits (run txRam rxRam i u).link.mac.phy = b := by
  have hvalid : (fifoStream txRam rxRam i u).linkRxValid =
      (rxValid (run txRam rxRam i u).link.mac.phy && (run txRam rxRam i u).link.arb.sel1) := rfl
  have hsel : (run txRam rxRam i u).fifo.rxen = true → (run txRam rxRam i u).link.arb.sel1 = true := sel1_of_rxen u
  rw [← rxen_iff, received, hvalid]
  cases hrxen : (run txRam rxRam i u).fifo.rxen with
  | false => simp
  | true =>
    rw [hsel hrxen, Bool.and_true, Bool.true_and]
    split
    next h => simp [h]; rfl
    next h => simp [h]

/-- While a byte is expected nothing is received or sent, and the flash map does not get the link. -/
theorem between (h : Expects txRam rxRam i t)
    (hbusy : ∀ v, t < v → v < u → rxValid (run txRam rxRam i v).link.mac.phy = false) {v : ℕ} (hv : t < v)
    (hvu : v < u) : received txRam rxRam i v = none ∧ ¬ FifoFrame txRam rxRam i v ∧
      (run txRam rxRam i v).link.arb.sel1 = true := by
  refine ⟨?_, fun hf => ?_, ?_⟩
  · rw [Option.eq_none_iff_forall_ne_some]
    intro b hb
    exact absurd (received_iff.1 hb).2.1 (by simp [hbusy v hv hvu])
  · exact absurd (done_of_fifoFrame hf) (by simp [hbusy v hv hvu])
  · exact sel1_of_rxen v ((rxen_iff v).2 ⟨t, hv, h, fun v' hv' hlt => hbusy v' hv' (by omega)⟩)

theorem run_phy (n : ℕ) : (run txRam rxRam i n).link.mac.phy =
    QspiPhysical.machine.run (phyStream (macStream txRam rxRam i)) n := by
  rw [run_mac, QspiMedia.run_phy]

/-- The bit engine keeps the format of a frame. -/
theorem ctrlFmt_of_sent (h : FifoFrame txRam rxRam i t) :
    (QspiPhysical.machine.run (phyStream (macStream txRam rxRam i)) (t + 1)).ctrlFmt = formatAt txRam rxRam i t := by
  obtain ⟨-, hstb, hfmt⟩ := frame_of_sent h
  have haccepts := (frame_of_fifo h).1
  rw [FrameAt, QspiMedia.run_phy] at haccepts
  have hstrobes : QspiPhysical.strobes (QspiPhysical.machine.run (phyStream (macStream txRam rxRam i)) t)
      (phyStream (macStream txRam rxRam i) t) = true := by
    rw [QspiPhysical.strobes, hstb, Bool.and_true]
    exact (Bool.and_eq_true_iff.1 haccepts).1
  exact (QspiPhysical.formatted_of_strobes hstrobes).ctrlFmt.trans hfmt

/-- Eight bits take the beats of a byte on each number of lines. -/
theorem beats_eight {p : BitVec 2} (hw : Width w p) :
    QspiFifo.beatsFor w 8 + (if 8 % (2 * w) = w then 1 else 0) = 8 / w ∧ 8 / w * w = 8 := by
  cases hw <;> decide

/-- A frame of eight bits carries a byte. -/
theorem byteFrame (h : FifoFrame txRam rxRam i t) (hw : Width w (run txRam rxRam i t).regs.fmt.fmtProto)
    (hlen : (run txRam rxRam i t).regs.fmt.fmtLen = 8#4) :
    QspiPhysical.ByteFrame (ctrlSckAt txRam rxRam i t) w (8 / w) (phyStream (macStream txRam rxRam i)) t := by
  have haccepts := (frame_of_fifo h).1
  rw [FrameAt, QspiMedia.run_phy] at haccepts
  refine ⟨haccepts, by rw [← run_phy], ?_, ?_, (beats_eight hw).2⟩
  · rw [(frame_of_sent h).1, QspiFifo.linkCnt_eq hw, hlen]
    exact (beats_eight hw).1
  · rw [ctrlFmt_of_sent h]
    exact hw

/-- It puts its byte on the link at its end, and nothing before. -/
theorem received_of_frame (h : Expects txRam rxRam i t) (hw : Width w (run txRam rxRam i t).regs.fmt.fmtProto)
    (hlen : (run txRam rxRam i t).regs.fmt.fmtLen = 8#4) :
    (∀ v, t < v → v < finish (ctrlSckAt txRam rxRam i t) (8 / w) t →
        rxValid (run txRam rxRam i v).link.mac.phy = false) ∧
      received txRam rxRam i (finish (ctrlSckAt txRam rxRam i t) (8 / w) t) =
        some (QspiPhysical.rxBits (run txRam rxRam i (finish (ctrlSckAt txRam rxRam i t) (8 / w) t)).link.mac.phy) := by
  have hframe := (byteFrame h.1 hw hlen).frameFrom
  have hlt : t < finish (ctrlSckAt txRam rxRam i t) (8 / w) t :=
    QspiPhysical.lt_tick.trans_le (Nat.le_add_right _ 4)
  have hbusy (v : ℕ) (hv : t < v) (hvf : v < finish (ctrlSckAt txRam rxRam i t) (8 / w) t) :
      rxValid (run txRam rxRam i v).link.mac.phy = false := by
    rw [run_phy]
    exact hframe.not_done hv hvf
  have hdone : rxValid (run txRam rxRam i (finish (ctrlSckAt txRam rxRam i t) (8 / w) t)).link.mac.phy = true := by
    rw [run_phy]
    exact hframe.done
  exact ⟨hbusy, received_iff.2 ⟨⟨t, hlt, h, hbusy⟩, hdone, rfl⟩⟩

/-- The byte of a frame has the pads at the pulses of SCK, three clocks before the lines reach the engine. -/
theorem rxBits_of_frame (h : FifoFrame txRam rxRam i t) (hw : Width w (run txRam rxRam i t).regs.fmt.fmtProto)
    (hlen : (run txRam rxRam i t).regs.fmt.fmtLen = 8#4) {pads : ℕ → BitVec 4}
    (hpads : ∀ n, (i n).dqI = (QspiPhysical.dqSync.run pads n).stage2) {q l : ℕ} (hq : q < 8 / w) (hl : l < w) :
    (QspiPhysical.rxBits (run txRam rxRam i (finish (ctrlSckAt txRam rxRam i t) (8 / w) t)).link.mac.phy).getLsbD
        (place (formatAt txRam rxRam i t) w (8 / w) q l) =
      (pads (tick (ctrlSckAt txRam rxRam i t) t q)).getLsbD (lane w l) := by
  have hframe := byteFrame h hw hlen
  have hfin : t < finish (ctrlSckAt txRam rxRam i t) (8 / w) t :=
    QspiPhysical.lt_tick.trans_le (Nat.le_add_right _ 4)
  have hfmt : (QspiPhysical.machine.run (phyStream (macStream txRam rxRam i))
      (finish (ctrlSckAt txRam rxRam i t) (8 / w) t)).ctrlFmt = formatAt txRam rxRam i t := by
    rw [hframe.frameFrom.ctrlFmt_eq hfin (Or.inl le_rfl), ctrlFmt_of_sent h]
  have hdq : (phyStream (macStream txRam rxRam i) (tick (ctrlSckAt txRam rxRam i t) t q + 3)).dqI =
      pads (tick (ctrlSckAt txRam rxRam i t) t q) := hpads _
  rw [run_phy, QspiPhysical.rxBits, ← hfmt, QspiPhysical.getLsbD_place hframe.byte hq hl,
    hframe.getLsbD_buffer hq hl, hdq]

/-! ### The two directions -/

/-- In every run the bytes put into `txq` are those sent and those still in it, in order; a byte is sent when the bit
engine takes a transfer with it while the software side is selected, with the length and the format of the registers;
and from a time on at which the software has the link every byte is sent. -/
theorem sends (txRam rxRam : Vector (BitVec 8) 8) (i : ℕ → Input) :
    (∀ n, log (written txRam rxRam i) n =
        log (sent txRam rxRam i) n ++ Queue1.entries (run txRam rxRam i n).fifo.txq) ∧
      (∀ t b, sent txRam rxRam i t = some b ↔ FrameAt (macStream txRam rxRam i) t ∧
        (run txRam rxRam i t).link.arb.sel1 = true ∧ (phyStream (macStream txRam rxRam i) t).op.data = b) ∧
      (∀ t, sent txRam rxRam i t ≠ none →
        (phyStream (macStream txRam rxRam i) t).op.cnt = QspiFifo.linkCnt (run txRam rxRam i t).regs.fmt ∧
          (phyStream (macStream txRam rxRam i) t).op.stb = true ∧
          (phyStream (macStream txRam rxRam i) t).ctrlFmt = formatAt txRam rxRam i t) ∧
      ∀ m, Owns txRam rxRam i m → ∀ n, ∃ k, log (written txRam rxRam i) n <+: log (sent txRam rxRam i) k := by
  refine ⟨log_written, fun t b => sent_iff, fun t h => frame_of_sent (sent_ne_none_iff.1 h), fun m h n => ?_⟩
  exact exists_delivered (c := m + 1) log_written (fun n hmn hne => h.exists_sent hmn hne) n

/-- In every run the bytes read from `rxdata` and those still in `rxq` are, in order, the ones received while less than
eight were unread.  Each of them comes at the end of a frame in the receive direction, with no other frame in between;
and each such frame of eight bits gives one byte, which has on each line what the pads showed at its pulses. -/
theorem receives_frames (txRam rxRam : Vector (BitVec 8) 8) (i : ℕ → Input) :
    (∀ n, log (kept txRam rxRam i) n =
        log (read txRam rxRam i) n ++ Queue1.entries (run txRam rxRam i n).fifo.rxq) ∧
      (∀ n, kept txRam rxRam i n =
        if (Queue1.entries (run txRam rxRam i n).fifo.rxq).length < 8 then received txRam rxRam i n else none) ∧
      (∀ u b, received txRam rxRam i u = some b → ∃ t < u, Expects txRam rxRam i t ∧
        ∀ v, t < v → v < u → received txRam rxRam i v = none ∧ ¬ FifoFrame txRam rxRam i v ∧
          (run txRam rxRam i v).link.arb.sel1 = true) ∧
      ∀ t w, Expects txRam rxRam i t → Width w (run txRam rxRam i t).regs.fmt.fmtProto →
        (run txRam rxRam i t).regs.fmt.fmtLen = 8#4 →
        ∃ b, received txRam rxRam i (finish (ctrlSckAt txRam rxRam i t) (8 / w) t) = some b ∧
          (∀ v, t < v → v < finish (ctrlSckAt txRam rxRam i t) (8 / w) t → received txRam rxRam i v = none ∧
            ¬ FifoFrame txRam rxRam i v ∧ (run txRam rxRam i v).link.arb.sel1 = true) ∧
          ∀ pads : ℕ → BitVec 4, (∀ n, (i n).dqI = (QspiPhysical.dqSync.run pads n).stage2) →
            ∀ q < 8 / w, ∀ l < w, b.getLsbD (place (formatAt txRam rxRam i t) w (8 / w) q l) =
              (pads (tick (ctrlSckAt txRam rxRam i t) t q)).getLsbD (lane w l) := by
  refine ⟨log_kept, kept_eq, fun u b hb => ?_, fun t w h hw hlen => ?_⟩
  · obtain ⟨⟨t, htu, hexp, hbusy⟩, -, -⟩ := received_iff.1 hb
    exact ⟨t, htu, hexp, fun v hv hvu => between hexp hbusy hv hvu⟩
  · obtain ⟨hbusy, hreceived⟩ := received_of_frame h hw hlen
    exact ⟨_, hreceived, fun v hv hvf => between h hbusy hv hvf,
      fun pads hpads q hq l hl => rxBits_of_frame h.1 hw hlen hpads hq hl⟩

/-! ### A transfer -/

/-- The software turns the flash map off and sends a byte in the receive direction, while line 1 is high. -/
def oneByte (n : ℕ) : Input where
  port :=
    { aValid := decide (n < 2), aOpcode := 0#3
      aAddress := if n = 0 then 0x60#29 else 0x48#29
      aMask := 15#4
      aData := if n = 0 then 0#32 else 0xa5#32
      dReady := true }
  aValid := false
  aBits := ⟨0#3, 0#3, 0#3, 0#7, 0#30, 0#1, 0#8⟩
  dReady := true
  dqI := if n < 3 then 0#4 else 2#4

theorem regs_oneByte (hn : 2 ≤ n) : (run zeros zeros oneByte n).regs = (run zeros zeros oneByte 2).regs := by
  induction n, hn using Nat.le_induction with
  | base => rfl
  | succ n hn ih =>
    have hquiet : oneByte n = quiet (oneByte n) := by simp [oneByte, quiet, RegisterPort.idle, Nat.not_lt.2 hn]
    have hrun : (run zeros zeros oneByte (n + 1)).regs = edgeRegs (run zeros zeros oneByte n) (oneByte n) := rfl
    rw [hrun, hquiet, edgeRegs_quiet, ih]

theorem owns_oneByte : Owns zeros zeros oneByte 2 where
  selected := by decide +kernel
  flashEn n hn := by
    rw [regs_oneByte hn]
    decide +kernel
  csId n hn := by rw [regs_oneByte hn]
  csDflt0 n hn := by rw [regs_oneByte hn]
  csMode n hn := by rw [regs_oneByte hn]

theorem sends_oneByte : ∃ k, [0xa5#8] <+: log (sent zeros zeros oneByte) k := by
  have hwritten : log (written zeros zeros oneByte) 2 = [0xa5#8] := by decide +kernel
  rw [← hwritten]
  exact (sends zeros zeros oneByte).2.2.2 2 owns_oneByte 2

theorem dqI_oneByte (n : ℕ) : (oneByte n).dqI = (QspiPhysical.dqSync.run (fun _ => 2#4) n).stage2 := by
  rcases Nat.lt_or_ge n 3 with h | h
  · interval_cases n <;> rfl
  · obtain ⟨k, rfl⟩ := Nat.exists_eq_add_of_le' h
    rw [QspiPhysical.dqSync_run, oneByte, if_neg (by omega : ¬ k + 3 < 3)]

/-- The byte arrives in cycle 22. -/
theorem receives_frames_oneByte :
    ∃ b, received zeros zeros oneByte 22 = some b ∧ ∀ q < 8, b.getLsbD (7 - q) = true := by
  have hexp : Expects zeros zeros oneByte 3 := ⟨by unfold FifoFrame; decide +kernel, by decide +kernel⟩
  have hproto : (run zeros zeros oneByte 3).regs.fmt.fmtProto = 0#2 := by decide +kernel
  have hfinish : finish (ctrlSckAt zeros zeros oneByte 3) (8 / 1) 3 = 22 := by decide +kernel
  have hendian : (formatAt zeros zeros oneByte 3).endian = false := by decide +kernel
  obtain ⟨b, hb, -, hbits⟩ := (receives_frames zeros zeros oneByte).2.2.2 3 1 hexp (hproto ▸ Width.single)
    (by decide +kernel)
  rw [hfinish] at hb
  refine ⟨b, hb, fun q hq => ?_⟩
  have hbit := hbits (fun _ => 2#4) dqI_oneByte q hq 0 (by omega)
  rw [place, hendian, if_neg Bool.false_ne_true] at hbit
  rw [show 7 - q = (8 / 1 - 1 - q) * 1 + 0 by omega, hbit]
  rfl

end FlashQspi
