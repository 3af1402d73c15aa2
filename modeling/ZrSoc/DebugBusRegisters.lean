import ZrSoc.DebugBusFsm
import ZrSoc.Sync.Latest

/-!
# The registers of the debug transport module

The interrupt enable of a hart is the bit last written to `IEN`, blocked for the 64 cycles after a write to `TMP_IDIS`
with this bit set (`dbgIen_iff`).

The read multiplexer has no entry for `IEN` and `TMP_IDIS`, which read as 0.  So the registers that are documented as
readable and writable read back what was written if and only if it is `REQ DWORD` or `REQ OTHERS`, or nothing was
written to bits that exist (`reads_back_iff`).
-/

namespace Icb2DebugBus

open Sync

variable {a h : ℕ} {i : ℕ → Input h} {n t b : ℕ}

/-! ### The temporary interrupt disable -/

/-- Cycle `t` has the last write to the register at `addr` before cycle `n` since reset or a write to `CTRL`. -/
def LastWritten (i : ℕ → Input h) (addr : BitVec 12) (t n : ℕ) : Prop :=
  LastWrite (fun k => weAt (i k) addr = true) (fun k => weCtrl (i k) = true) t n

/-- A register that takes the data written at `addr` and that a write to `CTRL` clears. -/
private theorem written_cases {r : ℕ → BitVec h} {addr : BitVec 12} (hne : addr ≠ addrCtrl) (h0 : r 0 = 0)
    (hs : ∀ n, r (n + 1) =
      if dtmRst (i n) then 0 else if weAt (i n) addr then (i n).icbCmdWdata.setWidth h else r n) (n : ℕ) :
    (∃ t, LastWritten i addr t n ∧ r n = (i t).icbCmdWdata.setWidth h) ∨
    (∀ t, ¬ LastWritten i addr t n) ∧ r n = 0 := by
  refine cell_cases (v := fun t => (i t).icbCmdWdata.setWidth h) h0 ?_ ?_ ?_ n
  · intro n hc
    rw [hs, dtmRst, hc, if_pos rfl]
  · intro n hw
    have hc : weCtrl (i n) = false := weAt_disjoint hne hw
    rw [hs, dtmRst, hc, if_neg Bool.false_ne_true, if_pos hw]
  · intro n hw hc
    rw [hs, dtmRst, if_neg hc, if_neg hw]

theorem regDmIen_cases (n : ℕ) :
    (∃ t, LastWritten i addrDmIen t n ∧ (run i n : State a h).regDmIen = (i t).icbCmdWdata.setWidth h) ∨
    (∀ t, ¬ LastWritten i addrDmIen t n) ∧ (run i n : State a h).regDmIen = 0 :=
  written_cases (r := fun n => (run i n : State a h).regDmIen) (by decide) rfl (fun _ => rfl) n

theorem regDmTmpIdis_cases (n : ℕ) :
    (∃ t, LastWritten i addrDmTmpIdis t n ∧ (run i n : State a h).regDmTmpIdis = (i t).icbCmdWdata.setWidth h) ∨
    (∀ t, ¬ LastWritten i addrDmTmpIdis t n) ∧ (run i n : State a h).regDmTmpIdis = 0 :=
  written_cases (r := fun n => (run i n : State a h).regDmTmpIdis) (by decide) rfl (fun _ => rfl) n

/-- The counter `j` cycles after it was started. -/
def counted (j : ℕ) : BitVec 7 := BitVec.ofNat 7 (if j < 64 then 63 - j else 127)

theorem counted_urun (j : ℕ) : (counted j).getLsbD 6 = decide (64 ≤ j) := by
  unfold counted
  by_cases hj : j < 64
  · rw [if_pos hj, BitVec.getLsbD_ofNat, Nat.testBit_lt_two_pow (by omega)]
    exact (decide_eq_false (by omega)).symm
  · rw [if_neg hj, decide_eq_true (by omega)]
    rfl

theorem counted_succ (j : ℕ) : counted (j + 1) = if (counted j).getLsbD 6 then counted j else counted j - 1 := by
  rw [counted_urun]
  by_cases hj : 64 ≤ j
  · rw [decide_eq_true hj, if_pos rfl, counted, counted, if_neg (by omega), if_neg (by omega)]
  · rw [decide_eq_false hj, if_neg Bool.false_ne_true]
    apply BitVec.eq_of_toNat_eq
    unfold counted
    rw [if_pos (show j < 64 by omega), BitVec.toNat_sub, BitVec.toNat_ofNat, BitVec.toNat_ofNat]
    split <;> simp <;> omega

/-- The counter runs from the last write to `TMP_IDIS` on, and has run out before the first one. -/
theorem cntDmTmpIdis_of_lastWritten (hw : LastWritten i addrDmTmpIdis t n) :
    (run i n : State a h).cntDmTmpIdis = counted (n - t - 1) := by
  obtain ⟨hlt, hwt, hno⟩ := hw
  induction n, hlt using Nat.le_induction with
  | base =>
    have hc : weCtrl (i t) = false := weAt_disjoint (by decide) hwt
    have hz : t.succ - t - 1 = 0 := by omega
    have hwt' : weAt (i t) addrDmTmpIdis = true := hwt
    rw [hz, run_succ]
    simp only [edge, dtmRst, hc, hwt', Bool.false_eq_true, ↓reduceIte]
    decide
  | succ n hlt ih =>
    obtain ⟨hw, hc⟩ := hno n (by omega) (by omega)
    have hsub : n + 1 - t - 1 = n - t - 1 + 1 := by omega
    have hurun : cntDmTmpIdisUrun (run i n : State a h) = (run i n : State a h).cntDmTmpIdis.getLsbD 6 := rfl
    simp only [Bool.not_eq_true] at hw hc
    rw [run_succ, hsub, counted_succ, ← ih fun k hk hkn => hno k hk (by omega), ← hurun]
    cases hu : cntDmTmpIdisUrun (run i n : State a h) <;> simp [edge, dtmRst, hw, hc, hu]

theorem getLsbD_dbgIen {s : State a h} (hb : b < h) : (dbgIen s).getLsbD b =
    (s.regDmIen.getLsbD b && !(s.regDmTmpIdis.getLsbD b && !cntDmTmpIdisUrun s)) := by
  rw [dbgIen, BitVec.getLsbD_and, BitVec.getLsbD_not, BitVec.getLsbD_and]
  cases cntDmTmpIdisUrun s <;> simp [hb]

/-- Bit `b` of `dbg_ien` is the one last written to `IEN`, unless the last write to `TMP_IDIS` had this bit set and
was at most 64 cycles ago. -/
theorem dbgIen_iff (b n : ℕ) (hb : b < h) : (dbgIen (run i n : State a h)).getLsbD b = true ↔
    (∃ t, LastWritten i addrDmIen t n ∧ (i t).icbCmdWdata.getLsbD b = true) ∧
    ¬ ∃ t, LastWritten i addrDmTmpIdis t n ∧ (i t).icbCmdWdata.getLsbD b = true ∧ n ≤ t + 64 := by
  have hien : (run i n : State a h).regDmIen.getLsbD b = true ↔
      ∃ t, LastWritten i addrDmIen t n ∧ (i t).icbCmdWdata.getLsbD b = true := by
    rcases regDmIen_cases (a := a) (i := i) n with ⟨t, ht, hv⟩ | ⟨hno, hv⟩
    · rw [hv, BitVec.getLsbD_setWidth, decide_eq_true hb, Bool.true_and]
      refine ⟨fun h1 => ⟨t, ht, h1⟩, fun ⟨t', ht', h1⟩ => ?_⟩
      rwa [ht.unique ht'] at h1
    · rw [hv]
      refine ⟨fun h1 => by simp at h1, fun ⟨t', ht', _⟩ => absurd ht' (hno t')⟩
  have hidis : (run i n : State a h).regDmTmpIdis.getLsbD b = true ∧
      cntDmTmpIdisUrun (run i n : State a h) = false ↔
      ∃ t, LastWritten i addrDmTmpIdis t n ∧ (i t).icbCmdWdata.getLsbD b = true ∧ n ≤ t + 64 := by
    rcases regDmTmpIdis_cases (a := a) (i := i) n with ⟨t, ht, hv⟩ | ⟨hno, hv⟩
    · have hlt := ht.lt
      rw [hv, BitVec.getLsbD_setWidth, decide_eq_true hb, Bool.true_and, cntDmTmpIdisUrun,
        cntDmTmpIdis_of_lastWritten ht, counted_urun, decide_eq_false_iff_not]
      constructor
      · rintro ⟨h1, hn⟩
        exact ⟨t, ht, h1, by omega⟩
      · rintro ⟨t', ht', h1, hn⟩
        rw [ht.unique ht'] at h1 hn
        exact ⟨h1, by omega⟩
    · rw [hv]
      refine ⟨fun h1 => by simp at h1, fun ⟨t', ht', _⟩ => absurd ht' (hno t')⟩
  rw [← hien, ← hidis, getLsbD_dbgIen hb, Bool.and_eq_true, Bool.not_eq_true', Bool.and_eq_false_iff,
    Bool.not_eq_false']
  refine and_congr_right fun _ => ?_
  cases (run i n : State a h).regDmTmpIdis.getLsbD b <;> cases cntDmTmpIdisUrun (run i n : State a h) <;> decide

/-- `IEN` is written in cycle 0 and `TMP_IDIS` in cycle 1. -/
def blockIrq : ℕ → Input 2
  | 0 => writeCmd addrDmIen 3#32
  | 1 => writeCmd addrDmTmpIdis 1#32
  | _ => noCmd

theorem dbgIen_blockIrq : (dbgIen (run blockIrq 2 : State 7 2)).getLsbD 1 = true := by
  refine (dbgIen_iff 1 2 (by decide)).2 ⟨⟨0, ⟨by decide, by decide, ?_⟩, by decide⟩, ?_⟩
  · intro k hk hk2
    obtain rfl : k = 1 := by omega
    exact ⟨by decide, by decide⟩
  · rintro ⟨t, ⟨ht, hw, -⟩, hbit, -⟩
    obtain rfl | rfl : t = 0 ∨ t = 1 := by omega
    · exact absurd hw (by decide)
    · exact absurd hbit (by decide)

/-! ### Reading back -/

/-- The registers that are documented as readable and writable. -/
inductive RwReg
  | reqDword
  | reqOthers
  | dmIen
  | dmTmpIdis
  deriving DecidableEq, Repr

def RwReg.addr : RwReg → BitVec 12
  | .reqDword => addrReqDword
  | .reqOthers => addrReqOthers
  | .dmIen => addrDmIen
  | .dmTmpIdis => addrDmTmpIdis

/-- The bits of `v` that the register implements. -/
def RwReg.masked (a h : ℕ) (v : BitVec 32) : RwReg → BitVec 32
  | .reqDword => v
  | .reqOthers => (v.setWidth (a + 4)).setWidth 32
  | .dmIen => (v.setWidth h).setWidth 32
  | .dmTmpIdis => (v.setWidth h).setWidth 32

def contents (s : State a h) : RwReg → BitVec 32
  | .reqDword => s.regDbusReqDword
  | .reqOthers => s.regDbusReqOthers.setWidth 32
  | .dmIen => s.regDmIen.setWidth 32
  | .dmTmpIdis => s.regDmTmpIdis.setWidth 32

/-- A write to the register that is not rejected as busy. -/
def AcceptedWrite (a : ℕ) (i : ℕ → Input h) (r : RwReg) (n : ℕ) : Prop :=
  weAt (i n) r.addr = true ∧ (r = .reqDword ∨ r = .reqOthers → (run i n : State a h).dbusFsmAct = .idle)

/-- An accepted read of the register at `addr`. -/
def ReadAt (x : Input h) (addr : BitVec 12) : Prop :=
  x.icbCmdValid = true ∧ icbCmdReady x = true ∧ x.icbCmdRead = true ∧ x.icbCmdAddr = addr

/-- The read of cycle `n` returns what was written in cycle `t`, and no write to another register than `CTRL` changes
the contents of this one. -/
structure ReadsBack (a : ℕ) (i : ℕ → Input h) (r : RwReg) (t n : ℕ) : Prop where
  value : icbRspRdata (run i n : State a h) (i n) = r.masked a h (i t).icbCmdWdata
  undisturbed : ∀ m addr, weAt (i m) addr = true → addr ≠ r.addr → addr ≠ addrCtrl →
    contents (run i (m + 1) : State a h) r = contents (run i m : State a h) r

variable {r : RwReg} {s : State a h} {x : Input h}

theorem contents_edge_of_not_write (hw : weAt x r.addr = false) (hc : weCtrl x = false) :
    contents (edge s x) r = contents s r := by
  have hno : icbWrite x = true → x.icbCmdAddr ≠ r.addr := by
    intro hwr ha
    simp [weAt, hwr, ha] at hw
  cases r with
  | dmIen => simp [contents, edge, dtmRst, hc, show weAt x addrDmIen = false from hw]
  | dmTmpIdis => simp [contents, edge, dtmRst, hc, show weAt x addrDmTmpIdis = false from hw]
  | reqDword =>
    by_cases hwr : icbWrite x = true
    · simp [contents, edge, hwr, show x.icbCmdAddr ≠ addrReqDword from hno hwr]
    · simp [contents, edge, hwr]
  | reqOthers =>
    by_cases hwr : icbWrite x = true
    · simp [contents, edge, hwr, show x.icbCmdAddr ≠ addrReqOthers from hno hwr]
    · simp [contents, edge, hwr]

/-- A rejected write, and a write to `CTRL`, leaves the request registers as they are. -/
theorem contents_req_edge (hr : r = .reqDword ∨ r = .reqOthers)
    (hw : ¬ (weAt x r.addr = true ∧ s.dbusFsmAct = .idle)) : contents (edge s x) r = contents s r := by
  by_cases hf : s.dbusFsmAct = .idle
  · have hno : ¬ (x.icbCmdAddr = r.addr ∧ icbWrite x = true) := fun h => hw ⟨weAt_iff.2 h, hf⟩
    rcases hr with rfl | rfl
    · simp only [contents, edge]
      rw [if_neg fun h => hno (by simp at h; exact ⟨h.2, h.1.1⟩)]
    · simp only [contents, edge]
      rw [if_neg fun h => hno (by simp at h; exact ⟨h.2, h.1.1⟩)]
  · rcases hr with rfl | rfl
    · simp [contents, edge, hf]
    · simp [contents, edge, hf]

/-- The request registers hold what was last written. -/
theorem contents_req_of_lastWrite (hr : r = .reqDword ∨ r = .reqOthers)
    (hw : LastWrite (AcceptedWrite a i r) (fun k => weCtrl (i k) = true) t n) :
    contents (run i n : State a h) r = r.masked a h (i t).icbCmdWdata := by
  obtain ⟨hlt, ⟨hwt, hidle⟩, hno⟩ := hw
  induction n, hlt using Nat.le_induction with
  | base =>
    obtain ⟨haddr, hwr⟩ := weAt_iff.1 hwt
    have hf := hidle hr
    rcases hr with rfl | rfl
    · have haddr' : (i t).icbCmdAddr = addrReqDword := haddr
      simp [contents, run_succ, edge, RwReg.masked, haddr', hwr, hf]
    · have haddr' : (i t).icbCmdAddr = addrReqOthers := haddr
      simp [contents, run_succ, edge, RwReg.masked, haddr', hwr, hf]
  | succ n hlt ih =>
    obtain ⟨hw', -⟩ := hno n (by omega) (by omega)
    rw [run_succ, contents_req_edge hr fun h => hw' ⟨h.1, fun _ => h.2⟩]
    exact ih fun k hk hkn => hno k hk (by omega)

/-- The read multiplexer knows the request registers only. -/
theorem icbRspRdata_eq (hr : ReadAt x r.addr) : icbRspRdata s x =
    if r = .reqDword ∨ r = .reqOthers then contents s r else 0#32 := by
  obtain ⟨hv, -, hrd, ha⟩ := hr
  have h : ∀ r : RwReg, r.addr ≠ addrRspDword ∧ r.addr ≠ addrRspOthers ∧ r.addr ≠ addrStat := by
    intro r
    cases r <;> decide
  have hd : ∀ r : RwReg, r.addr = addrReqDword ↔ r = .reqDword := by
    intro r
    cases r <;> decide
  have ho : ∀ r : RwReg, r.addr = addrReqOthers ↔ r = .reqOthers := by
    intro r
    cases r <;> decide
  cases r <;> simp [icbRspRdata, hv, hrd, ha, h, hd, ho, contents]

/-- After an accepted write, with no other one to the register and none to `CTRL` since, a read returns the implemented
bits of the value if and only if the register is a request register or these bits are 0. -/
theorem reads_back_iff (hw : LastWrite (AcceptedWrite a i r) (fun k => weCtrl (i k) = true) t n)
    (hr : ReadAt (i n) r.addr) : ReadsBack a i r t n ↔
      r = .reqDword ∨ r = .reqOthers ∨ r.masked a h (i t).icbCmdWdata = 0#32 := by
  have hread := icbRspRdata_eq (s := (run i n : State a h)) hr
  have hkept : ∀ m addr, weAt (i m) addr = true → addr ≠ r.addr → addr ≠ addrCtrl →
      contents (run i (m + 1) : State a h) r = contents (run i m : State a h) r := by
    intro m addr hm hne hctrl
    exact contents_edge_of_not_write (weAt_disjoint hne hm) (weAt_disjoint hctrl hm)
  by_cases hreq : r = .reqDword ∨ r = .reqOthers
  · rw [if_pos hreq, contents_req_of_lastWrite hreq hw] at hread
    exact ⟨fun _ => or_assoc.1 (Or.inl hreq), fun _ => ⟨hread, hkept⟩⟩
  · rw [if_neg hreq] at hread
    constructor
    · intro hb
      exact Or.inr (Or.inr (hb.value.symm.trans hread))
    · intro h
      rcases or_assoc.2 h with h | h
      · exact absurd h hreq
      · exact ⟨hread.trans h.symm, hkept⟩

/-- The register `r` is written in cycle 0 and read in cycle 1. -/
def writeRead (r : RwReg) : ℕ → Input 2
  | 0 => writeCmd r.addr 1#32
  | _ => readCmd r.addr

private theorem lastWrite_writeRead (r : RwReg) :
    LastWrite (AcceptedWrite 7 (writeRead r) r) (fun k => weCtrl (writeRead r k) = true) 0 1 := by
  refine ⟨by decide, ⟨by cases r <;> decide, fun _ => rfl⟩, fun k hk hk1 => by omega⟩

private theorem readAt_writeRead (r : RwReg) : ReadAt (writeRead r 1) r.addr := ⟨rfl, rfl, rfl, rfl⟩

/-- The enable that was written reads as 0. -/
theorem not_reads_back : ¬ ∀ (i : ℕ → Input 2) (r : RwReg) (t n : ℕ),
    LastWrite (AcceptedWrite 7 i r) (fun k => weCtrl (i k) = true) t n → (r = .dmTmpIdis → n ≤ t + 64) →
    ReadAt (i n) r.addr → ReadsBack 7 i r t n := by
  intro hall
  have hb := hall (writeRead .dmIen) .dmIen 0 1 (lastWrite_writeRead _) (by decide) (readAt_writeRead _)
  exact absurd hb.value (by decide)

theorem reads_back_writeRead : ReadsBack 7 (writeRead .reqOthers) .reqOthers 0 1 :=
  (reads_back_iff (lastWrite_writeRead _) (readAt_writeRead _)).2 (by decide)

end Icb2DebugBus
