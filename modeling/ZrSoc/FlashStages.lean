import ZrSoc.FlashControl
import ZrSoc.SpiBytes

/-!
# The stages of a flash read

A read in a format with three address bytes and no pad cycles sends four bytes, an empty frame and the frame of the
data.  `stage_edge` says what a cycle does to the stage while the chip select is open.
-/

namespace FlashMap

open QspiPhysical (Width)

/-- What the flash map has to do next: send byte `m`, the empty frame or the data frame, hand the data on, or nothing. -/
inductive Stage
  | idle
  | byte (m : ℕ)
  | pad
  | data
  | post
  deriving DecidableEq, Repr

def stage (s : State) : Stage :=
  match s.state with
  | .idle => .idle
  | .cmd => .byte 0
  | .addr => .byte (4 - s.cnt.toNat)
  | .pad => .pad
  | .pre => .data
  | .dataPost => .post

/-- The stage after a frame. -/
def Stage.sent : Stage → Stage
  | .idle => .idle
  | .byte m => if m < 3 then .byte (m + 1) else .pad
  | .pad => .data
  | .data => .post
  | .post => .post

/-- A read with a command, three bytes of address and no pad cycles, command and address on one line, most significant
bit first; the data come on `w` lines. -/
structure Reading (f : Format) (w : ℕ) : Prop where
  cmdEn : f.cmdEn = true
  addrLen : f.addrLen = 3#3
  padCnt : f.padCnt = 0#4
  cmdProto : f.cmdProto = 0#2
  addrProto : f.addrProto = 0#2
  endian : f.endian = false
  dataProto : Width w f.dataProto

variable {s : State} {x : Input} {f : Format} {w m : ℕ}

theorem CntOk.le (h : CntOk s) (hs : stage s = .byte m) : m ≤ 3 := by
  cases hst : s.state with
  | addr =>
    simp only [stage, hst, Stage.byte.injEq] at hs
    rcases h hst with hc | hc | hc <;> rw [hc] at hs <;> simp at hs <;> omega
  | cmd =>
    simp only [stage, hst, Stage.byte.injEq] at hs
    omega
  | idle => simp [stage, hst] at hs
  | pad => simp [stage, hst] at hs
  | pre => simp [stage, hst] at hs
  | dataPost => simp [stage, hst] at hs

/-- A frame is ready in all stages but the first and the last. -/
theorem CntOk.linkTxValid_eq (h : CntOk s) : linkTxValid s = decide (stage s ≠ .idle ∧ stage s ≠ .post) := by
  cases hs : s.state with
  | addr =>
    have hc : s.cnt ≠ 0#4 := by rcases h hs with hc | hc | hc <;> rw [hc] <;> decide
    simp [linkTxValid, stage, hs, hc]
  | cmd => simp [linkTxValid, stage, hs]
  | idle => simp [linkTxValid, stage, hs]
  | pad => simp [linkTxValid, stage, hs]
  | pre => simp [linkTxValid, stage, hs]
  | dataPost => simp [linkTxValid, stage, hs]

/-- A frame leads to the next stage. -/
theorem stage_of_ready (h : CntOk s) (hctrl : ctrl s x = f) (hf : Reading f w) (hv : linkTxValid s = true)
    (hr : x.linkTxReady = true) : stage (edge s x) = (stage s).sent := by
  cases hs : s.state with
  | cmd => simp [stage, edge, hs, hr, hctrl, hf.addrLen, Stage.sent]
  | addr =>
    rcases h hs with hc | hc | hc <;> simp [stage, edge, hs, hr, hc, cntDone, sends, linkTxValid, Stage.sent]
  | pad => simp [stage, edge, hs, hr, Stage.sent]
  | pre => simp [stage, edge, hs, hr, Stage.sent]
  | idle => simp [linkTxValid, hs] at hv
  | dataPost => simp [linkTxValid, hs] at hv

/-- Without a frame the stage stays, unless a read is taken or answered. -/
theorem stage_of_not_sent (h : CntOk s) (hctrl : ctrl s x = f) (hf : Reading f w) (hen : x.en = true)
    (hr : (x.linkTxReady && linkTxValid s) = false) :
    stage (edge s x) = if stage s = .idle then
        (if x.addrValid then (if merge x then .data else .byte 0) else .idle)
      else if stage s = .post then (if x.linkRxValid && x.dataReady then .idle else .post)
      else stage s := by
  cases hs : s.state with
  | idle =>
    cases hv : x.addrValid <;> cases hm : merge x <;> simp [stage, edge, hs, hen, hv, hm, hctrl, hf.cmdEn]
  | cmd =>
    have hr' : x.linkTxReady = false := by simpa [linkTxValid, hs] using hr
    simp [stage, edge, hs, hr']
  | addr =>
    have hc : s.cnt ≠ 0#4 := by rcases h hs with hc | hc | hc <;> rw [hc] <;> decide
    have hr' : x.linkTxReady = false := by simpa [linkTxValid, hs, hc] using hr
    simp [stage, edge, hs, hr', cntDone, hc, sends]
  | pad =>
    have hr' : x.linkTxReady = false := by simpa [linkTxValid, hs] using hr
    simp [stage, edge, hs, hr']
  | pre =>
    have hr' : x.linkTxReady = false := by simpa [linkTxValid, hs] using hr
    simp [stage, edge, hs, hr']
  | dataPost =>
    cases hd : x.dataReady <;> cases hv : x.linkRxValid <;> simp [stage, edge, hs, dataValid, hd, hv]

/-! ### The frames of the stages -/

/-- The frame of byte `m` has this byte on one line. -/
theorem link_of_byte (h : CntOk s) (hctrl : ctrl s x = f) (hf : Reading f w) (hs : stage s = .byte m) :
    (link s x).txBits = SpiModel.byteOf f.cmdCode (x.addrHold.setWidth 24) m ∧ (link s x).cnt = 8#8 ∧
      (link s x).fmt = ⟨0#2, false, true⟩ := by
  cases hst : s.state with
  | cmd =>
    simp only [stage, hst, Stage.byte.injEq] at hs
    subst hs
    refine ⟨?_, ?_, ?_⟩
    · simp [link, linkTxBits, hst, hctrl, SpiModel.byteOf]
    · simp [link, linkCnt, linkFmtProto, hst, hctrl, hf.cmdProto, beats]
    · simp [link, linkFmtProto, linkFmtIodir, hst, hctrl, hf.cmdProto, hf.endian]
  | addr =>
    simp only [stage, hst, Stage.byte.injEq] at hs
    refine ⟨?_, ?_, ?_⟩
    · have hbits : (link s x).txBits = addrByte x.addrHold s.cnt := by simp [link, linkTxBits, hst]
      have hc : s.cnt ≠ 0#4 := by rcases h hst with hc | hc | hc <;> rw [hc] <;> decide
      have hm : 8 * (s.cnt.toNat - 1) = 24 - 8 * m ∧ m ≠ 0 := by
        rcases h hst with hc | hc | hc <;> rw [hc] at hs ⊢ <;> simp at hs ⊢ <;> omega
      rw [hbits, addrByte_eq x.addrHold hc, SpiModel.byteOf, if_neg hm.2, hm.1]
      refine BitVec.eq_of_getLsbD_eq fun j hj => ?_
      simp [hj]
      omega
    · simp [link, linkCnt, linkFmtProto, hst, hctrl, hf.addrProto, beats]
    · simp [link, linkFmtProto, linkFmtIodir, hst, hctrl, hf.addrProto, hf.endian]
  | idle => simp [stage, hst] at hs
  | pad => simp [stage, hst] at hs
  | pre => simp [stage, hst] at hs
  | dataPost => simp [stage, hst] at hs

theorem link_of_pad (hctrl : ctrl s x = f) (hf : Reading f w) (hs : stage s = .pad) : (link s x).cnt = 0#8 := by
  cases hst : s.state with
  | pad => simp [link, linkCnt, hst, hctrl, hf.padCnt]
  | addr => simp [stage, hst] at hs
  | cmd => simp [stage, hst] at hs
  | idle => simp [stage, hst] at hs
  | pre => simp [stage, hst] at hs
  | dataPost => simp [stage, hst] at hs

theorem link_of_data (hctrl : ctrl s x = f) (hf : Reading f w) (hs : stage s = .data) :
    (link s x).cnt.toNat * w = 8 ∧ (link s x).fmt = ⟨f.dataProto, false, false⟩ := by
  cases hst : s.state with
  | pre =>
    have hw := hf.dataProto
    refine ⟨?_, ?_⟩
    · simp only [link, linkCnt, linkFmtProto, hst, hctrl]
      generalize f.dataProto = p at hw
      cases hw <;> simp [beats]
    · simp [link, linkFmtProto, linkFmtIodir, hst, hctrl, hf.endian]
  | addr => simp [stage, hst] at hs
  | cmd => simp [stage, hst] at hs
  | idle => simp [stage, hst] at hs
  | pad => simp [stage, hst] at hs
  | dataPost => simp [stage, hst] at hs

end FlashMap
