import ZrSoc.FlashLines

/-!
# The bytes of the flash

Whenever the bit engine is idle, the device is where the flash map is: it has the bytes of the command and the address
that were sent, or it shows the byte of its memory that is read next (`Tied`).  The byte received last is the one at
the address of the read.
-/

namespace FlashSystem

open Sync
open FlashMap (Format Reading Stage stage CntOk)
open FlashLink (Configured Control)
open QspiMedia (Open)
open SpiModel (Mode Taking Showing Reads Fresh fetch)

variable (r : Regs) (v : Device) (i : ℕ → Input)

/-- The address of the read under way, or of the last one. -/
def hold (n : ℕ) : BitVec 32 := FlashPort.flashAddr (run r v i n).link.flash.aAddress

/-- The ports of the flash map. -/
def mapPorts (n : ℕ) : FlashMap.Input := FlashLink.ports (run r v i n).link (linkStream r v i n)

/-- The link of the flash map. -/
def mapLink (n : ℕ) : QspiMedia.Link := FlashMap.link (run r v i n).link.flash.map (mapPorts r v i n)

def stageAt (n : ℕ) : Stage := stage (run r v i n).link.flash.map

/-- The device shows byte `p` of its memory next. -/
def Shows (M : Mode) (n p : ℕ) : Prop :=
  ∃ a j, Showing v.size v.mem v.undef r.insn.cmdCode M a j 0 (run r v i n).dev ∧ a.toNat + j = p

/-- Under an open chip select the device follows the flash map. -/
def Follows (M : Mode) (n : ℕ) : Stage → Prop
  | .byte m => ∀ b, Taking r.insn.cmdCode ((hold r v i n).setWidth 24) m b 0 (run r v i n).dev
  | .pad => Showing v.size v.mem v.undef r.insn.cmdCode M ((hold r v i n).setWidth 24) 0 0 (run r v i n).dev
  | .data => Shows r v i M n (hold r v i n).toNat
  | .post => Shows r v i M n ((hold r v i n).toNat + 1) ∧
      QspiPhysical.Kept ⟨r.insn.dataProto, false, false⟩ (run r v i n).link.mac.phy ∧
      (run r v i n).link.mac.phy.buffer = fetch v.size v.mem v.undef (hold r v i n).toNat
  | .idle => Shows r v i M n ((hold r v i n).toNat + 1)

/-- A device that is not selected has taken no byte. -/
structure Tied (M : Mode) (n : ℕ) : Prop where
  fresh : (run r v i n).link.mac.csDflt0 = true → Fresh (run r v i n).dev
  opened : Open (run r v i n).link.mac → Follows r v i M n (stageAt r v i n)

/-- The flash is enabled and chip 0 is selected by a low pin. -/
structure Selecting (r : Regs) : Prop where
  flashEn : r.flashEn = true
  csId : r.csId = false
  csDflt0 : r.csDflt0 = true

variable {r v i} {M : Mode} {n t c m : ℕ}

theorem sIdle_eq (n : ℕ) : FlashMap.sIdle (run r v i n).link.flash.map = decide (stageAt r v i n = .idle) := by
  rw [stageAt, stage, FlashMap.sIdle]
  cases (run r v i n).link.flash.map.state <;> rfl

theorem Selecting.configured (hs : Selecting r) (n : ℕ) : Configured r.insn (linkStream r v i n) where
  flashEn := hs.flashEn
  insn := rfl
  csId := hs.csId
  csDflt0 := hs.csDflt0

/-- The address changes with a new read only. -/
theorem Selecting.hold_succ (hs : Selecting r) (n : ℕ) : hold r v i (n + 1) =
    if stageAt r v i n = .idle ∧ (mapPorts r v i n).addrValid = true then (mapPorts r v i n).addrNext
    else hold r v i n := by
  have hstep : hold r v i (n + 1) = FlashPort.flashAddr
      (if FlashMap.addrReady (run r v i n).link.flash.map (mapPorts r v i n) && (mapPorts r v i n).addrValid then
        (linkStream r v i n).aBits.address else (run r v i n).link.flash.aAddress) := rfl
  have hen : (mapPorts r v i n).en = true := hs.flashEn
  rw [hstep, FlashMap.addrReady, sIdle_eq, hen]
  by_cases hi : stageAt r v i n = .idle
  · cases hv : (mapPorts r v i n).addrValid <;> simp [hi] <;> rfl
  · simp [hi]
    rfl

/-- While a read is under way its address stays. -/
theorem Selecting.hold_of_busy (hs : Selecting r) (hi : stageAt r v i n ≠ .idle) :
    hold r v i (n + 1) = hold r v i n := by
  rw [hs.hold_succ, if_neg fun h => hi h.1]

theorem Selecting.hold_lt (hs : Selecting r)
    (hin : ∀ n, (mapPorts r v i n).addrValid = true → (mapPorts r v i n).addrNext.toNat < 2 ^ 24) (n : ℕ) :
    (hold r v i n).toNat < 2 ^ 24 := by
  induction n with
  | zero =>
    change (FlashPort.flashAddr 0#30).toNat < 2 ^ 24
    decide
  | succ n ih =>
    rw [hs.hold_succ]
    split
    next h => exact hin n h.2
    next => exact ih

/-- Under an open chip select a read continues the previous one. -/
theorem Selecting.hold_of_merge (hs : Selecting r)
    (hin : ∀ n, (mapPorts r v i n).addrValid = true → (mapPorts r v i n).addrNext.toNat < 2 ^ 24)
    (hm : FlashMap.merge (mapPorts r v i n) = true) (hv : (mapPorts r v i n).addrValid = true)
    (hi : stageAt r v i n = .idle) : (hold r v i (n + 1)).toNat = (hold r v i n).toNat + 1 := by
  have hlt := hs.hold_lt hin n
  have hnext : (mapPorts r v i n).addrNext = hold r v i n + 1#32 := by
    rw [FlashMap.merge, Bool.and_eq_true, beq_iff_eq] at hm
    exact hm.2
  rw [hs.hold_succ, if_pos ⟨hi, hv⟩, hnext]
  bv_omega

/-- A device without a clock is reset by its chip select only. -/
theorem dev_of_idle (hidle : QspiPhysical.Idle (run r v i n).link.mac.phy)
    (hidle' : QspiPhysical.Idle (run r v i (n + 1)).link.mac.phy)
    (hp : (run r v i (n + 1)).link.mac.csDflt0 = false) : (run r v i (n + 1)).dev = (run r v i n).dev := by
  rw [dev_of_low hidle.sck hidle'.sck, if_neg]
  simp [hp]

theorem fresh_of_idle (hidle : QspiPhysical.Idle (run r v i n).link.mac.phy)
    (hidle' : QspiPhysical.Idle (run r v i (n + 1)).link.mac.phy)
    (hf : (run r v i n).link.mac.csDflt0 = true → Fresh (run r v i n).dev)
    (hp : (run r v i (n + 1)).link.mac.csDflt0 = true) : Fresh (run r v i (n + 1)).dev := by
  rw [dev_of_low hidle.sck hidle'.sck, hp]
  cases hp0 : (run r v i n).link.mac.csDflt0 with
  | true => simpa using hf hp0
  | false => simpa using SpiModel.fresh_csRise

theorem tied_reset : Tied r v i M 0 :=
  ⟨fun _ => SpiModel.fresh_reset, fun ho => absurd ho.csAssert Bool.false_ne_true⟩

section Run

variable (hs : Selecting r) (hr : Reading r.insn (SpiModel.width M))

include hs hr

theorem control (n : ℕ) : Control r.insn (run r v i n).link := by
  induction n with
  | zero => exact FlashLink.control_reset
  | succ n ih => exact ih.next (hs.configured n) hr.cmdEn hr.addrLen

theorem ctrl_eq (n : ℕ) : FlashMap.ctrl (run r v i n).link.flash.map (mapPorts r v i n) = r.insn :=
  (control hs hr n).ctrl_eq (hs.configured n)

/-- The media layer sees the link of the flash map. -/
theorem link_eq (n : ℕ) : (FlashLink.macInput (run r v i n).link (linkStream r v i n)).link = mapLink r v i n :=
  (control hs hr n).macInput_link (hs.configured n)

/-- The bit engine accepts the frames that the flash map hands over. -/
theorem accepts_eq (n : ℕ) : QspiPhysical.accepts (run r v i n).link.mac.phy (phyStream r v i n) =
    ((mapPorts r v i n).linkTxReady && FlashMap.linkTxValid (run r v i n).link.flash.map) := by
  have h := control (v := v) (i := i) hs hr n
  rw [mapPorts, h.ports_linkTxReady, phyStream, QspiMedia.accepts_phy, link_eq hs hr]
  rfl

/-- A frame leads to the next stage. -/
theorem stageAt_of_accepts (ha : QspiPhysical.accepts (run r v i n).link.mac.phy (phyStream r v i n) = true) :
    stageAt r v i (n + 1) = (stageAt r v i n).sent := by
  rw [accepts_eq hs hr, Bool.and_eq_true] at ha
  exact FlashMap.stage_of_ready (control hs hr n).cnt (ctrl_eq hs hr n) hr ha.2 ha.1

/-- Without a frame the stage stays, unless a read is taken or answered. -/
theorem stageAt_of_not_accepts (ha : QspiPhysical.accepts (run r v i n).link.mac.phy (phyStream r v i n) = false) :
    stageAt r v i (n + 1) = if stageAt r v i n = .idle then
        (if (mapPorts r v i n).addrValid then (if FlashMap.merge (mapPorts r v i n) then .data else .byte 0) else .idle)
      else if stageAt r v i n = .post then
        (if (mapPorts r v i n).linkRxValid && (mapPorts r v i n).dataReady then .idle else .post)
      else stageAt r v i n := by
  rw [accepts_eq hs hr] at ha
  exact FlashMap.stage_of_not_sent (control hs hr n).cnt (ctrl_eq hs hr n) hr hs.flashEn ha

/-- The pin of an open chip select is low. -/
theorem csDflt0_of_open (ho : Open (run r v i n).link.mac) : (run r v i n).link.mac.csDflt0 = false := by
  rw [(control hs hr n).selected.pin, ho.csAssert]
  rfl

/-- Only an idle flash map clears the chip select. -/
theorem csClear_eq (n : ℕ) :
    (FlashLink.macInput (run r v i n).link (linkStream r v i n)).link.csClear =
      (decide (stageAt r v i n = .idle) && (mapPorts r v i n).addrValid && !FlashMap.merge (mapPorts r v i n)) := by
  have hen : (mapPorts r v i n).en = true := hs.flashEn
  rw [link_eq hs hr]
  change (FlashMap.sIdle (run r v i n).link.flash.map && (mapPorts r v i n).en && (mapPorts r v i n).addrValid &&
    !FlashMap.merge (mapPorts r v i n)) = _
  rw [sIdle_eq, hen, Bool.and_true]

theorem open_succ (ho : Open (run r v i n).link.mac) (hi : stageAt r v i n ≠ .idle) :
    Open (run r v i (n + 1)).link.mac := by
  refine ho.next ((control hs hr n).selects (hs.configured n)) ((csClear_eq hs hr n).trans ?_)
  simp [hi]

variable (hin : ∀ n, (mapPorts r v i n).addrValid = true → (mapPorts r v i n).addrNext.toNat < 2 ^ 24)

/-! ### A cycle without a frame -/

include hin in
theorem Follows.quiet (h : Follows r v i M n (stageAt r v i n)) (ho : Open (run r v i n).link.mac)
    (ho' : Open (run r v i (n + 1)).link.mac) (hdev : (run r v i (n + 1)).dev = (run r v i n).dev)
    (ha : QspiPhysical.accepts (run r v i n).link.mac.phy (phyStream r v i n) = false) :
    Follows r v i M (n + 1) (stageAt r v i (n + 1)) := by
  have hstage := stageAt_of_not_accepts hs hr ha
  have hshows {p : ℕ} (hp : Shows r v i M n p) : Shows r v i M (n + 1) p := by
    rw [Shows, hdev]
    exact hp
  cases hst : stageAt r v i n with
  | idle =>
    rw [hst] at h hstage
    cases hv : (mapPorts r v i n).addrValid with
    | false =>
      rw [hstage, if_pos rfl, if_neg (by simp [hv]), Follows, hs.hold_succ, if_neg (by simp [hv])]
      exact hshows h
    | true =>
      cases hm : FlashMap.merge (mapPorts r v i n) with
      | true =>
        rw [hstage, if_pos rfl, if_pos hv, if_pos hm, Follows, hs.hold_of_merge hin hm hv hst]
        exact hshows h
      | false =>
        -- a read that does not continue the previous one clears the chip select
        have hc := csClear_eq (v := v) (i := i) hs hr n
        rw [hst, hv, hm] at hc
        exact absurd ho' (ho.clears hc)
  | byte m =>
    rw [hst] at h
    have hi : stageAt r v i n ≠ .idle := by simp [hst]
    rw [hstage, if_neg hi, if_neg (by simp [hst]), hst]
    intro b
    rw [hs.hold_of_busy hi, hdev]
    exact h b
  | pad =>
    rw [hst] at h
    have hi : stageAt r v i n ≠ .idle := by simp [hst]
    rw [hstage, if_neg hi, if_neg (by simp [hst]), hst, Follows, hs.hold_of_busy hi, hdev]
    exact h
  | data =>
    rw [hst] at h
    have hi : stageAt r v i n ≠ .idle := by simp [hst]
    rw [hstage, if_neg hi, if_neg (by simp [hst]), hst, Follows, hs.hold_of_busy hi]
    exact hshows h
  | post =>
    rw [hst] at h
    obtain ⟨hnext, hkept, hbuf⟩ := h
    have hi : stageAt r v i n ≠ .idle := by simp [hst]
    rw [hstage, if_neg hi, if_pos hst]
    split
    · rw [Follows, hs.hold_of_busy hi]
      exact hshows hnext
    · obtain ⟨hkept', hbuf'⟩ := hkept.next hr.dataProto (phyStream_noStrobedDelay n) ha
      rw [Follows, hs.hold_of_busy hi]
      exact ⟨hshows hnext, hkept', hbuf'.trans hbuf⟩

include hin in
theorem Tied.quiet (h : Tied r v i M n) (hidle : QspiPhysical.Idle (run r v i n).link.mac.phy)
    (ha : QspiPhysical.accepts (run r v i n).link.mac.phy (phyStream r v i n) = false) : Tied r v i M (n + 1) := by
  have hidle' : QspiPhysical.Idle (run r v i (n + 1)).link.mac.phy := hidle.next (phyStream_noStrobedDelay n) ha
  refine ⟨fresh_of_idle hidle hidle' h.fresh, fun ho' => ?_⟩
  have hdev := dev_of_idle hidle hidle' (csDflt0_of_open hs hr ho')
  by_cases ho : Open (run r v i n).link.mac
  · exact (h.opened ho).quiet hs hr hin ho ho' hdev ha
  · -- the chip select is asserted for the command
    obtain ⟨hm, hca, hv⟩ := QspiMedia.not_open_cases ho ho'
    have hctl := control (v := v) (i := i) hs hr n
    have hpin : (run r v i n).link.mac.csDflt0 = true := by
      rw [hctl.selected.pin, hca, hm]
      rfl
    have hst : stageAt r v i n = .byte 0 := by
      rw [stageAt, stage]
      rcases hctl.inactive hca with hi | hi
      · have hv' := (congrArg QspiMedia.Link.txValid (link_eq hs hr n)).symm.trans hv
        simp [mapLink, FlashMap.link, FlashMap.linkTxValid, hi] at hv'
      · rw [hi]
    rw [stageAt_of_not_accepts hs hr ha, hst, if_neg (by simp), if_neg (by simp)]
    intro b
    rw [hdev]
    exact (h.fresh hpin).taking

/-! ### A frame -/

theorem mapLink_of_byte (hst : stageAt r v i n = .byte m) :
    (mapLink r v i n).txBits = SpiModel.byteOf r.insn.cmdCode ((hold r v i n).setWidth 24) m ∧
      (mapLink r v i n).cnt = 8#8 ∧ (mapLink r v i n).fmt = ⟨0#2, false, true⟩ :=
  FlashMap.link_of_byte (control hs hr n).cnt (ctrl_eq hs hr n) hr hst

theorem mapLink_of_data (hst : stageAt r v i n = .data) : (mapLink r v i n).cnt.toNat * SpiModel.width M = 8 ∧
    (mapLink r v i n).fmt = ⟨r.insn.dataProto, false, false⟩ :=
  FlashMap.link_of_data (ctrl_eq hs hr n) hr hst

theorem mapLink_of_pad (hst : stageAt r v i n = .pad) : (mapLink r v i n).cnt = 0#8 :=
  FlashMap.link_of_pad (ctrl_eq hs hr n) hr hst

/-- A frame is one of the flash map under an open chip select. -/
theorem sent_of_accepts (ha : QspiPhysical.accepts (run r v i n).link.mac.phy (phyStream r v i n) = true) :
    Open (run r v i n).link.mac ∧ (phyStream r v i n).op.stb = true ∧
      (phyStream r v i n).op.cnt = (mapLink r v i n).cnt ∧ (phyStream r v i n).op.data = (mapLink r v i n).txBits ∧
      (phyStream r v i n).ctrlFmt = (mapLink r v i n).fmt ∧
      stageAt r v i n ≠ .idle ∧ stageAt r v i n ≠ .post := by
  have hctl := control (v := v) (i := i) hs hr n
  have hlink := link_eq (v := v) (i := i) hs hr n
  have hv := ha
  rw [accepts_eq hs hr, Bool.and_eq_true, hctl.cnt.linkTxValid_eq, decide_eq_true_iff] at hv
  rw [phyStream, QspiMedia.accepts_phy, Bool.and_eq_true] at ha
  obtain ⟨hstb, hcnt, hdata⟩ := QspiMedia.opBits_of_ready ha.1
  refine ⟨(QspiMedia.open_of_ready (hctl.selects (hs.configured n)) ha.1).1, hstb, ?_, ?_, ?_, hv.2⟩
  · exact hcnt.trans (congrArg QspiMedia.Link.cnt hlink)
  · exact hdata.trans (congrArg QspiMedia.Link.txBits hlink)
  · exact congrArg QspiMedia.Link.fmt hlink

include hin in
/-- The empty frame of the pad cycles leads to the data. -/
theorem Tied.empty (h : Tied r v i M n) (hidle : QspiPhysical.Idle (run r v i n).link.mac.phy)
    (ha : QspiPhysical.accepts (run r v i n).link.mac.phy (phyStream r v i n) = true)
    (hc : (phyStream r v i n).op.cnt.toNat = 0) : Tied r v i M (n + 1) := by
  obtain ⟨ho, -, hcnt, -, -, hi, hp⟩ := sent_of_accepts hs hr ha
  have ho' := open_succ hs hr ho hi
  have hlow := csDflt0_of_open hs hr ho'
  have hidle' : QspiPhysical.Idle (run r v i (n + 1)).link.mac.phy := by
    have h1 := hidle.start ha hc
    rwa [if_pos rfl] at h1
  refine ⟨fun hp => by simp [hlow] at hp, fun _ => ?_⟩
  have hf := h.opened ho
  cases hst : stageAt r v i n with
  | pad =>
    rw [hst, Follows, ← dev_of_idle hidle hidle' hlow] at hf
    rw [stageAt_of_accepts hs hr ha, hst]
    refine ⟨_, 0, hf, ?_⟩
    have hlt := hs.hold_lt hin n
    rw [hs.hold_of_busy hi, BitVec.toNat_setWidth, Nat.mod_eq_of_lt hlt, Nat.add_zero]
  | byte m =>
    rw [hcnt, (mapLink_of_byte hs hr hst).2.1] at hc
    exact absurd hc (by decide)
  | data =>
    have hbeats := (mapLink_of_data hs hr hst).1
    rw [← hcnt, hc] at hbeats
    omega
  | idle => exact absurd hst hi
  | post => exact absurd hst hp

section Frame

variable (hf : FrameAt r v i t c)

include hs hr hf

/-- During a frame the flash map waits, and the chip select stays open. -/
theorem FrameAt.waits {j : ℕ} (hj : j ≤ 2 * c + 2) : Open (run r v i (t + 1 + j)).link.mac ∧
    stageAt r v i (t + 1 + j) = (stageAt r v i t).sent ∧ hold r v i (t + 1 + j) = hold r v i t := by
  obtain ⟨ho, -, -, -, -, hi, hp⟩ := sent_of_accepts hs hr hf.accepted
  have hsent : (stageAt r v i t).sent ≠ .idle := by
    cases hst : stageAt r v i t <;> simp_all [Stage.sent]
    split <;> simp
  induction j with
  | zero => exact ⟨open_succ hs hr ho hi, stageAt_of_accepts hs hr hf.accepted, hs.hold_of_busy hi⟩
  | succ j ih =>
    obtain ⟨ho', hst, hh⟩ := ih (by omega)
    have hready := QspiPhysical.not_ready_of_accepts phyStream_noStrobedDelay hf.accepted_run hf.cnt hf.ne_zero
      (u := t + 1 + j) (by omega) (by omega)
    have hdone := QspiPhysical.done_of_accepts phyStream_noStrobedDelay hf.accepted_run hf.cnt hf.ne_zero
      (u := t + 1 + j) (by omega) (by omega)
    rw [← run_phy] at hready hdone
    have ha : QspiPhysical.accepts (run r v i (t + 1 + j)).link.mac.phy (phyStream r v i (t + 1 + j)) = false := by
      simp [QspiPhysical.accepts, show QspiPhysical.t251 (run r v i (t + 1 + j)).link.mac.phy = false from hready]
    have hrx : (mapPorts r v i (t + 1 + j)).linkRxValid = false := by
      change ((run r v i (t + 1 + j)).link.mac.phy.done && _) = false
      rw [hdone, Bool.false_and]
    have hi' : stageAt r v i (t + 1 + j) ≠ .idle := by rw [hst]; exact hsent
    refine ⟨open_succ hs hr ho' hi', ?_, (hs.hold_of_busy hi').trans hh⟩
    have hstage := stageAt_of_not_accepts hs hr ha
    rw [if_neg hi', hrx] at hstage
    rw [show t + 1 + (j + 1) = t + 1 + j + 1 by omega, hstage, ← hst]
    simp only [Bool.false_and, Bool.false_eq_true, ↓reduceIte]
    split
    next h => exact h.symm
    next => rfl

theorem FrameAt.selectedAt : SelectedAt r v i t c := by
  intro m hm hmc
  rcases Nat.eq_or_lt_of_le hm with rfl | hlt
  · exact csDflt0_of_open hs hr (sent_of_accepts hs hr hf.accepted).1
  · obtain ⟨j, rfl⟩ := Nat.exists_eq_add_of_le hlt
    exact csDflt0_of_open hs hr (hf.waits hs hr (by omega)).1

/-- After a frame the device has taken a byte, or the bit engine has received one. -/
theorem Tied.frame (hcmd : Reads r.insn.cmdCode M) (h : Tied r v i M t) : Tied r v i M (t + 3 + 2 * c) := by
  obtain ⟨ho, hstb, hcnt, hdata, hfmt, hi, hp⟩ := sent_of_accepts hs hr hf.accepted
  obtain ⟨ho', hst', hhold⟩ := hf.waits hs hr (j := 2 * c + 2) le_rfl
  have hsel := hf.selectedAt hs hr
  rw [show t + 1 + (2 * c + 2) = t + 3 + 2 * c by omega] at ho' hst' hhold
  refine ⟨fun hp => by simp [csDflt0_of_open hs hr ho'] at hp, fun _ => ?_⟩
  have hfol := h.opened ho
  cases hst : stageAt r v i t with
  | byte m =>
    obtain ⟨hbits, hbeats, hform⟩ := mapLink_of_byte hs hr hst
    obtain rfl : c = 8 := by rw [← hf.cnt, hcnt, hbeats]; rfl
    have hle := (control (v := v) (i := i) hs hr t).cnt.le hst
    rw [hst] at hfol hst'
    rw [hst', Stage.sent]
    split
    next hlt =>
      intro b
      rw [hhold]
      exact taken_of_send hf hsel (hfmt.trans hform) (hdata.trans hbits) (hfol _) hcmd hlt b
    next hge =>
      rw [Follows, hhold]
      exact showing_of_send hf hsel (hfmt.trans hform) (hdata.trans hbits) (hfol _) hcmd (by omega)
  | data =>
    obtain ⟨hbeats, hform⟩ := mapLink_of_data hs hr hst
    have hfmt' := hfmt.trans hform
    have hc : c = SpiModel.beats M := by
      rw [← hcnt, hf.cnt] at hbeats
      have hpos : 0 < SpiModel.width M := by cases M <;> decide
      exact Nat.eq_of_mul_eq_mul_right hpos (hbeats.trans (SpiModel.beats_mul_width M).symm)
    have hw : QspiPhysical.Width (SpiModel.width M) (phyStream r v i t).ctrlFmt.proto := by
      rw [hfmt']
      exact hr.dataProto
    have hio : (phyStream r v i t).ctrlFmt.iodir = false := by rw [hfmt']
    rw [hst] at hfol hst'
    obtain ⟨a, j, hshow, hsum⟩ := hfol
    have hkept := QspiPhysical.kept_of_accepts phyStream_noStrobedDelay hf.accepted_run hf.cnt hf.ne_zero hf.stb
    rw [← run_phy, hfmt'] at hkept
    rw [hst', Stage.sent, Follows, hhold, ← hsum]
    refine ⟨⟨a, j + 1, shown_of_receive hf hsel hc hshow hcmd, (Nat.add_assoc _ _ _).symm⟩, hkept, ?_⟩
    exact buffer_of_receive hf hsel hw hc hio hshow
  | pad =>
    refine absurd hf.cnt (Ne.symm ?_)
    rw [hcnt, mapLink_of_pad hs hr hst]
    exact hf.ne_zero
  | idle => exact absurd hst hi
  | post => exact absurd hst hp

end Frame

/-! ### Whole runs -/

include hin in
/-- The device follows the flash map whenever the bit engine is idle. -/
theorem tied (hcmd : Reads r.insn.cmdCode M) (n : ℕ) (hidle : QspiPhysical.Idle (run r v i n).link.mac.phy) :
    Tied r v i M n := by
  rw [run_phy] at hidle
  refine QspiPhysical.idle_induction phyStream_noStrobedDelay (P := fun n => Tied r v i M n) tied_reset ?_ ?_ ?_ n hidle
  · intro n hi h ha
    rw [← run_phy] at hi ha
    exact h.quiet hs hr hin hi ha
  · intro n h ha hc
    have hi := QspiPhysical.idle_of_accepts phyStream_noStrobedDelay ha
    rw [← run_phy] at hi ha
    exact h.empty hs hr hin hi ha hc
  · intro t h ha h0
    rw [← run_phy] at ha
    have hf : FrameAt r v i t (phyStream r v i t).op.cnt.toNat :=
      ⟨ha, (sent_of_accepts hs hr ha).2.1, rfl, h0⟩
    exact h.frame hs hr hf hcmd

theorem open_of_post (hst : stageAt r v i n = .post) : Open (run r v i n).link.mac := by
  have hctl := control (v := v) (i := i) hs hr n
  have hne : (run r v i n).link.flash.map.state ≠ .idle ∧ (run r v i n).link.flash.map.state ≠ .cmd := by
    rw [stageAt, stage] at hst
    cases hm : (run r v i n).link.flash.map.state <;> simp [hm] at hst ⊢
  have hca : (run r v i n).link.mac.csAssert = true := by
    by_contra hca
    rcases hctl.inactive (Bool.eq_false_iff.2 hca) with h | h
    · exact hne.1 h
    · exact hne.2 h
  by_contra ho
  exact hne.2 (hctl.releasing hca ho)

include hin in
/-- A byte that is handed on is the one at the address of the read. -/
theorem linkRxBits_eq (hcmd : Reads r.insn.cmdCode M) (hst : stageAt r v i n = .post)
    (hrx : (mapPorts r v i n).linkRxValid = true) :
    (mapPorts r v i n).linkRxBits = fetch v.size v.mem v.undef (hold r v i n).toNat := by
  have hdone : (run r v i n).link.mac.phy.done = true := (Bool.and_eq_true_iff.1 hrx).1
  have hidle : QspiPhysical.Idle (run r v i n).link.mac.phy := by
    rw [run_phy] at hdone ⊢
    exact QspiPhysical.idle_of_done phyStream_noStrobedDelay hdone
  have hfol := (tied hs hr hin hcmd n hidle).opened (open_of_post hs hr hst)
  rw [hst] at hfol
  obtain ⟨-, hkept, hbuf⟩ := hfol
  have hbits : (mapPorts r v i n).linkRxBits = QspiPhysical.rxBits (run r v i n).link.mac.phy := rfl
  rw [hbits, QspiPhysical.rxBits, hkept.formatted.ctrlFmt, ← hbuf]
  rfl

end Run

end FlashSystem
