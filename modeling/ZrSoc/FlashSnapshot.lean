import ZrSoc.FlashLink

/-!
# The snapshot of the format

All frames under one chip select follow the format registers as they were in the last cycle before the chip select was
asserted.  Whether a command is sent at all is decided earlier, when the read is taken: a read follows the snapshot
exactly if it is merged with the previous one or saw the same command enable.
-/

namespace FlashLink

open Sync TileLink
open FlashMap (Format Frame)
open FlashPort (Transaction Sends Merges ctrlAt framesFrom addrAt sentFrames)

variable (i : ℕ → Input)

/-- The chip select is asserted after cycle `k` and has been since, up to cycle `p`. -/
def AssertedFrom (k p : ℕ) : Prop :=
  k < p ∧ (run i k).mac.csAssert = false ∧ ∀ m, k < m → m ≤ p → (run i m).mac.csAssert = true

/-- The read from `t` to `e` is served, at least in part, under the chip select asserted after cycle `k`. -/
def ServedFrom (k t e : ℕ) : Prop :=
  Transaction (flashStream i) t e ∧ ∃ p, t < p ∧ p < e ∧ Sends (flashStream i) p ∧ AssertedFrom i k p

/-- All that the read from `t` to `e` sends, and whether it sends a command, is as the format `f` says. -/
def FollowsSnapshot (t e : ℕ) (f : Format) : Prop :=
  framesFrom (flashStream i) t (e + 1 - t) =
    sentFrames f (addrAt (flashStream i) t) (FlashMap.merge (FlashPort.ports (flashStream i) t)) f.cmdEn

/-- Every read follows, in all it does, the format registers of the cycle in which its chip select was asserted. -/
def UsesSnapshot : Prop := ∀ k t e, ServedFrom i k t e → FollowsSnapshot i t e (i k).insn

variable {i} {k k' t e m n p q : ℕ}

/-! ### One chip select -/

theorem exists_assertedFrom (h : (run i p).mac.csAssert = true) : ∃ k, AssertedFrom i k p := by
  induction p with
  | zero => exact absurd (show false = true from h) (by decide)
  | succ p ih =>
    cases hp : (run i p).mac.csAssert with
    | false => exact ⟨p, by omega, hp, fun m h1 h2 => by rw [show m = p + 1 by omega, h]⟩
    | true =>
      obtain ⟨k, hkp, hk, hall⟩ := ih hp
      refine ⟨k, by omega, hk, fun m h1 h2 => ?_⟩
      rcases Nat.eq_or_lt_of_le h2 with rfl | h2
      · exact h
      · exact hall m h1 (by omega)

theorem AssertedFrom.unique (h : AssertedFrom i k p) (h' : AssertedFrom i k' p) : k = k' := by
  rcases lt_trichotomy k k' with hlt | rfl | hlt
  · exact absurd (h.2.2 k' hlt h'.1.le) (by rw [h'.2.1]; simp)
  · rfl
  · exact absurd (h'.2.2 k hlt h.1.le) (by rw [h.2.1]; simp)

private theorem Sends.ready (h : Sends (flashStream i) n) : (flashStream i n).linkTxReady = true :=
  (Bool.and_eq_true_iff.1 (h : FlashMap.sends _ _ = true)).1

/-- A chip select under which the flash map sends a frame has been its own from the start. -/
private theorem sel0_of_asserted (ha : AssertedFrom i k p) (hs : Sends (flashStream i) p) (hm : k < m) (hmp : m ≤ p) :
    (run i m).arb.sel0 = true := by
  have hr := Sends.ready hs
  by_contra hsel
  -- the selection changed in between, with a clear that the frame would have had to wait for
  obtain ⟨q, hmq, hqp, hq, hmin⟩ := exists_first (Q := fun q => (run i q).arb.sel0 = true) hmp (ready_iff.1 hr).2
  obtain ⟨j, rfl⟩ : ∃ j, q = j + 1 := by
    refine ⟨q - 1, ?_⟩
    have : q ≠ m := fun h => hsel (h ▸ hq)
    omega
  have hmj : m ≤ j := by
    by_contra h
    exact hsel ((show m = j + 1 by omega) ▸ hq)
  have hj : (run i j).arb.sel0 = false := Bool.eq_false_iff.2 (hmin j hmj (by omega))
  have hclear : (macInput (run i j) (i j)).link.csClear = true := by
    rw [run_succ_arb] at hq
    simp only [QspiArbiter.edge, hj] at hq
    simp only [macInput, QspiArbiter.outer]
    cases hset : QspiArbiter.selSet (run i j).arb (arbInput (run i j) (i j)) with
    | false => simp [hset] at hq
    | true =>
      have hsel' : (arbInput (run i j) (i j)).sel = false := by simpa [hset] using hq
      simp [sel1_eq, hj, hsel']
  have h0 := not_ready_of_clear (clear_of_csClear (show j < p by omega) hclear
    fun l h1 h2 => ha.2.2 l (by omega) h2)
  rw [h0] at hr
  exact absurd hr (by simp)

/-- A frame follows the registers of the cycle in which its chip select was asserted. -/
theorem ctrlAt_of_asserted (ha : AssertedFrom i k p) (hs : Sends (flashStream i) p) :
    ctrlAt (flashStream i) p = (i k).insn := by
  have hactive {m : ℕ} (hm : k < m) (hmp : m ≤ p) : (flashStream i m).linkActive = true :=
    Bool.and_eq_true_iff.2 ⟨ha.2.2 m hm hmp, sel0_of_asserted ha hs hm hmp⟩
  have hinactive : (flashStream i k).linkActive = false := by
    simp [flashStream, flashInput, flashPorts, innerActive, QspiMedia.linkActive, ha.2.1]
  have hlatched {m : ℕ} (hm : k < m) (hmp : m ≤ p) : (FlashPort.run (flashStream i) m).map.latched = (i k).insn := by
    induction m, hm using Nat.le_induction with
    | base =>
      rw [FlashPort.run_succ_map]
      simp only [FlashMap.edge, FlashPort.ports, FlashPort.mapInput, hinactive]
      rfl
    | succ m hm ih =>
      rw [FlashPort.run_succ_map]
      simp [FlashMap.edge, FlashPort.ports, FlashPort.mapInput, hactive hm (by omega : m ≤ p), ih (by omega)]
  have hp := hactive ha.1 le_rfl
  simp [ctrlAt, FlashMap.ctrl, FlashPort.ports, FlashPort.mapInput, hp, hlatched ha.1 le_rfl]

/-- The flash map holds the chip select. -/
private structure Holds (s : State) : Prop where
  sel0 : s.arb.sel0 = true
  csAssert : s.mac.csAssert = true
  clear : s.mac.clear = false
  state : s.mac.state ≠ .intercs

private theorem holds_of_sends (hs : Sends (flashStream i) n) : Holds (run i n) := by
  obtain ⟨h, hsel⟩ := ready_iff.1 (Sends.ready hs)
  have hassert := csAssert_of_ready (Sends.ready hs)
  simp only [QspiMedia.linkTxReady, QspiMedia.sMain, QspiMedia.csDeassert, Bool.and_eq_true, beq_iff_eq,
    Bool.not_eq_true', Bool.or_eq_false_iff] at h
  exact ⟨hsel, hassert, h.1.2.1, by simp [h.1.1.1]⟩

/-- A read keeps the chip select. -/
private theorem Holds.next (h : Holds (run i n)) (hi : (run i n).flash.map.state ≠ .idle) : Holds (run i (n + 1)) := by
  have hlock : (arbInput (run i n) (i n)).lock0 = true := by
    simp [arbInput, FlashPort.lock, FlashMap.linkLock, FlashMap.sIdle, hi]
  have hset : QspiArbiter.selSet (run i n).arb (arbInput (run i n) (i n)) = false := by
    simp [QspiArbiter.selSet, h.sel0, hlock]
  have hsel1 : (run i n).arb.sel1 = false := by rw [sel1_eq, h.sel0]; rfl
  have hclear0 : (arbInput (run i n) (i n)).inner0.csClear = false := by
    simp [arbInput, FlashPort.link, FlashMap.link, FlashMap.linkCsClear, FlashMap.sIdle, hi]
  have hclear : (macInput (run i n) (i n)).link.csClear = false := by
    simp [macInput, QspiArbiter.outer, hset, hsel1, hclear0]
  have hhold : (macInput (run i n) (i n)).link.csHold = true := by
    simp [macInput, QspiArbiter.outer, h.sel0, arbInput, FlashPort.link, FlashMap.link]
  have hde : QspiMedia.csDeassert (run i n).mac (macInput (run i n) (i n)) = false := by
    simp [QspiMedia.csDeassert, h.clear, hhold]
  have hinter : QspiMedia.sIntercs (run i n).mac = false := by simp [QspiMedia.sIntercs, h.state]
  refine ⟨?_, ?_, ?_, ?_⟩
  · simp [run_succ_arb, QspiArbiter.edge, hset, h.sel0]
  · simp [run_succ_mac, QspiMedia.edge, hinter, h.csAssert]
  · simp [run_succ_mac, QspiMedia.edge, hinter, hclear, h.clear]
  · rw [run_succ_mac]
    cases hs : (run i n).mac.state with
    | intercs => exact absurd hs h.state
    | interxfr =>
      simp only [QspiMedia.edge, hs]
      split <;> simp
    | main =>
      simp only [QspiMedia.edge, hs, h.csAssert, hde, ↓reduceIte]
      split <;> simp

/-- All frames of a read are sent under one chip select. -/
private theorem asserted_of_le (h : Transaction (flashStream i) t e) (htp : t < p) (hs : Sends (flashStream i) p)
    (ha : AssertedFrom i k p) (hpq : p ≤ q) (hq : q < e) : AssertedFrom i k q := by
  have hholds {m : ℕ} (hpm : p ≤ m) (hmq : m ≤ q) : Holds (run i m) := by
    induction m, hpm using Nat.le_induction with
    | base => exact holds_of_sends hs
    | succ m hpm ih =>
      refine (ih (by omega)).next ?_
      obtain ⟨j, rfl⟩ : ∃ j, m = t + j + 1 := ⟨m - t - 1, by omega⟩
      rw [run_flash]
      exact (h.takes.busy fun l h1 h2 => h.pending l h1 (by omega)).2
  refine ⟨by have := ha.1; omega, ha.2.1, fun m h1 h2 => ?_⟩
  rcases le_or_gt m p with hmp | hmp
  · exact ha.2.2 m h1 hmp
  · exact (hholds hmp.le h2).csAssert

private theorem ctrlAt_of_served (h : ServedFrom i k t e) (htq : t < q) (hq : q < e) (hs : Sends (flashStream i) q) :
    ctrlAt (flashStream i) q = (i k).insn := by
  obtain ⟨htr, p, htp, hp, hsp, ha⟩ := h
  rcases le_total p q with hpq | hqp
  · exact ctrlAt_of_asserted (asserted_of_le htr htp hsp ha hpq hq) hs
  · obtain ⟨k', ha'⟩ := exists_assertedFrom (csAssert_of_ready (Sends.ready hs))
    obtain rfl := ha.unique (asserted_of_le htr htq hs ha' hqp hp)
    exact ctrlAt_of_asserted ha' hs

/-- Every read is served under some chip select. -/
theorem exists_servedFrom (h : Transaction (flashStream i) t e) : ∃ k, ServedFrom i k t e := by
  obtain ⟨p, htp, hpe, hs⟩ := h.exists_sends
  obtain ⟨k, ha⟩ := exists_assertedFrom (csAssert_of_ready (Sends.ready hs))
  exact ⟨k, h, p, htp, hpe, hs, ha⟩

/-! ### The snapshot -/

/-- What a read sends follows the snapshot, except for the command enable, which is the one seen in the request. -/
theorem framesFrom_of_served (h : ServedFrom i k t e) : framesFrom (flashStream i) t (e + 1 - t) =
    sentFrames (i k).insn (addrAt (flashStream i) t) (FlashMap.merge (FlashPort.ports (flashStream i) t))
      (ctrlAt (flashStream i) t).cmdEn :=
  h.1.framesFrom_eq fun _ h1 h2 hs => ctrlAt_of_served h h1 h2 hs

theorem followsSnapshot_iff (h : ServedFrom i k t e) : FollowsSnapshot i t e (i k).insn ↔
    Merges (flashStream i) t ∨ (ctrlAt (flashStream i) t).cmdEn = (i k).insn.cmdEn := by
  rw [FollowsSnapshot, framesFrom_of_served h, Merges]
  cases hm : FlashMap.merge (FlashPort.ports (flashStream i) t) with
  | true => simp [sentFrames]
  | false => simp [FlashPort.sentFrames_inj]

/-- In every run, all reads follow their snapshots if and only if no read that is not merged with the previous one saw
a command enable other than the one of its snapshot. -/
theorem usesSnapshot_iff : UsesSnapshot i ↔ ∀ k t e, ServedFrom i k t e →
    Merges (flashStream i) t ∨ (ctrlAt (flashStream i) t).cmdEn = (i k).insn.cmdEn :=
  forall_congr' fun _ => forall_congr' fun _ => forall_congr' fun _ => forall_congr' followsSnapshot_iff

/-! ### A format write between the request and the chip select -/

/-- A quad read with a command and a three-byte address. -/
def oldInsn : Format where
  cmdProto := 2#2
  cmdCode := 0x6b#8
  cmdEn := true
  addrProto := 2#2
  addrLen := 3#3
  padCode := 0#8
  padCnt := 0#4
  dataProto := 2#2
  endian := false

/-- Neither a command nor an address. -/
def newInsn : Format := { oldInsn with cmdCode := 0#8, cmdEn := false, addrLen := 0#3 }

/-- A read in cycle 0, and the format registers are written at the end of that cycle. -/
def rewrittenRead (n : ℕ) : Input where
  flashEn := true
  insn := if n = 0 then oldInsn else newInsn
  sck := { div := 0#12, pol := false, pha := false }
  dla := { cssck := 1#8, sckcs := 1#8, intercs := 1#8, interxfr := 0#8 }
  csId := false
  csDflt0 := true
  aValid := n == 0
  aBits :=
    { opcode := opGet, param := 0#3, size := 0#3, source := 0#7, address := 0x123456#30, mask := 1#1, data := 0#8 }
  dReady := true
  fifo :=
    { txValid := false, txBits := 0#8, cnt := 0#8, fmt := { proto := 0#2, endian := false, iodir := false },
      csSet := false, csClear := false, csHold := false }
  fifoLock := false
  dqI := 0#4

private theorem answers_rewrittenRead : FlashPort.Answers (flashStream rewrittenRead) 18 :=
  ⟨by decide +kernel, rfl⟩

private theorem servedFrom_rewrittenRead : ServedFrom rewrittenRead 1 0 18 := by
  refine ⟨⟨⟨rfl, rfl, rfl⟩, by decide, answers_rewrittenRead, fun m h1 h2 h => ?_⟩, 2, by decide, by decide, ?_, ?_⟩
  · have hnone : ∀ m < 18, 0 < m →
        FlashPort.dValid (FlashPort.run (flashStream rewrittenRead) m) (flashStream rewrittenRead m) = false := by
      decide +kernel
    exact absurd h.1 (by rw [hnone m h2 h1]; simp)
  · have h : FlashMap.sends (FlashPort.run (flashStream rewrittenRead) 2).map
        (FlashPort.ports (flashStream rewrittenRead) 2) = true := by decide +kernel
    exact h
  · refine ⟨by decide, by decide +kernel, fun m h1 h2 => ?_⟩
    obtain rfl : m = 2 := by omega
    decide +kernel

/-- The read sends the command byte of the new format, in which there is no command; no contents that the format
registers ever have explain its frames. -/
theorem not_usesSnapshot_rewrittenRead : ServedFrom rewrittenRead 1 0 18 ∧ ¬ Merges (flashStream rewrittenRead) 0 ∧
    framesFrom (flashStream rewrittenRead) 0 19 = [newInsn.cmdFrame, newInsn.padFrame, newInsn.dataFrame] ∧
    (∀ m, ¬ FollowsSnapshot rewrittenRead 0 18 (rewrittenRead m).insn) ∧ ¬ UsesSnapshot rewrittenRead := by
  have hold : ¬ FollowsSnapshot rewrittenRead 0 18 oldInsn := by
    unfold FollowsSnapshot
    decide +kernel
  have hnew : ¬ FollowsSnapshot rewrittenRead 0 18 newInsn := by
    unfold FollowsSnapshot
    decide +kernel
  have hc : ¬ FlashMap.merge (FlashPort.ports (flashStream rewrittenRead) 0) = true := by decide
  refine ⟨servedFrom_rewrittenRead, hc, by decide +kernel, fun m => ?_, fun h => ?_⟩
  · by_cases hm : m = 0
    · simpa [rewrittenRead, hm] using hold
    · simpa [rewrittenRead, hm] using hnew
  · exact hnew (h 1 0 18 servedFrom_rewrittenRead)

end FlashLink
