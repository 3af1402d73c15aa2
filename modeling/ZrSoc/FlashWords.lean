import ZrSoc.FlashBytes

/-!
# The words of the flash

The flash port serves the fragments of a word read one after the other, each with the byte of the memory at its address
(`answersInOrder`), and over a requester that takes its responses it serves all of them (`fair`).  Put together with
the fragments, every word read is answered with its word.
-/

namespace FlashSystem

open Sync TileLink
open FlashMap (Format Reading Stage stage)
open SpiModel (Mode Reads fetch)

variable (r : Regs) (v : Device) (i : ℕ → Input)

/-- What the fragments see. -/
def fragmentsStream (n : ℕ) : FlashFragments.Input := fragmentsInput r (run r v i n) (i n)

/-! ### Handshakes -/

/-- The read that is handed over in a cycle. -/
def command (s : State) (x : Input) : Option (BitVec 32) :=
  if x.cmdValid && cmdReady r s x then some x.cmdAddr else none

/-- The word that is taken in a cycle. -/
def response (s : State) (x : Input) : Option (BitVec 32) :=
  if rspValid r s x && x.rspReady then some (rspRdata r s x) else none

def commandLog : ℕ → List (BitVec 32) := log fun n => command r (run r v i n) (i n)

def responseLog : ℕ → List (BitVec 32) := log fun n => response r (run r v i n) (i n)

/-- The offset of the word with address `a` in the flash. -/
def wordAddr (a : BitVec 32) : ℕ := 4 * (a.extractLsb' 2 27).toNat

/-- The word of the memory with address `a`. -/
def wordAt (mem : ℕ → BitVec 8) (a : BitVec 32) : BitVec 32 :=
  mem (wordAddr a + 3) ++ mem (wordAddr a + 2) ++ mem (wordAddr a + 1) ++ mem (wordAddr a)

/-- All commands are reads of words inside the memory of the device. -/
structure WordReads (v : Device) (i : ℕ → Input) : Prop where
  read : ∀ n, (i n).cmdValid = true → (i n).cmdRead = true
  inside : ∀ n, (i n).cmdValid = true → wordAddr (i n).cmdAddr + 3 < v.size

/-- The response is taken at some time. -/
def TakesResponses : Prop :=
  ∀ n, (∀ m, n ≤ m → rspValid r (run r v i m) (i m) = true) → ∃ m, n ≤ m ∧ (i m).rspReady = true

/-- The responses are the words of the commands, in order; over a requester that takes them, a command on offer is
handed over at some time, and every command has its response. -/
structure ReadsFlash : Prop where
  responses : ∀ n, responseLog r v i n <+: (commandLog r v i n).map (wordAt v.mem)
  accepted : TakesResponses r v i → ∀ n, (∀ m, n ≤ m → (i m).cmdValid = true) →
    ∃ m, n ≤ m ∧ cmdReady r (run r v i m) (i m) = true
  answered : TakesResponses r v i → ∀ n, ∃ m, (commandLog r v i n).length ≤ (responseLog r v i m).length

variable {r v i} {n : ℕ} {M : Mode}

theorem run_fragments (n : ℕ) : (run r v i n).fragments = FlashFragments.run (fragmentsStream r v i) n := by
  induction n with
  | zero => rfl
  | succ n ih =>
    have hstep : (run r v i (n + 1)).fragments =
        FlashFragments.edge (run r v i n).fragments (fragmentsStream r v i n) := rfl
    rw [hstep, ih]
    rfl

/-! ### The wires -/

theorem addrValid_eq (n : ℕ) : (mapPorts r v i n).addrValid =
    FlashFragments.outAValid (run r v i n).fragments (fragmentsStream r v i n) := rfl

theorem aBits_eq (n : ℕ) : (linkStream r v i n).aBits =
    FlashFragments.outABits (run r v i n).fragments (fragmentsStream r v i n) := rfl

theorem dataReady_eq (n : ℕ) : (mapPorts r v i n).dataReady =
    FlashFragments.outDReady (run r v i n).fragments (fragmentsStream r v i n) := rfl

theorem outAReady_eq (n : ℕ) : (fragmentsStream r v i n).outAReady =
    FlashMap.addrReady (run r v i n).link.flash.map (mapPorts r v i n) := rfl

theorem outDValid_eq (n : ℕ) : (fragmentsStream r v i n).outDValid =
    FlashMap.dataValid (run r v i n).link.flash.map (mapPorts r v i n) := rfl

theorem outDBits_eq (n : ℕ) : (fragmentsStream r v i n).outDBits =
    { opcode := 1, param := 0, size := (run r v i n).link.flash.aSize, source := (run r v i n).link.flash.aSource,
      sink := false, addrLo := 0,
      data := FlashMap.dataBits (run r v i n).link.flash.map (mapPorts r v i n), error := false } := rfl

/-! ### The addresses -/

theorem toNat_flashAddr (a : BitVec 30) : (FlashPort.flashAddr a).toNat = a.toNat % 2 ^ 29 :=
  (BitVec.toNat_append _ _).trans (by simp)

theorem toNat_address (x : Input) : (inABits x).address.toNat = 4 * (x.cmdAddr.toNat / 4 % 2 ^ 28) := by
  refine (BitVec.toNat_append _ _).trans ?_
  simp [Nat.shiftLeft_eq, Nat.shiftRight_eq_div_pow, Nat.mul_comm]

/-- The flash reads byte `j` of a word. -/
theorem toNat_flashAddr_byteOf (x : Input) {j : ℕ} (hj : j < 4) :
    (FlashPort.flashAddr (FlashFragments.byteOf (inABits x) j).address).toNat = wordAddr x.cmdAddr + j := by
  have haddr := toNat_address x
  have hword : wordAddr x.cmdAddr = 4 * (x.cmdAddr.toNat / 4 % 2 ^ 27) := by
    simp [wordAddr, Nat.shiftRight_eq_div_pow]
  rw [toNat_flashAddr, FlashFragments.byteOf, BitVec.toNat_add, haddr, BitVec.toNat_ofNat, hword]
  omega

section Commands

variable (hw : WordReads v i)

include hw

theorem wordReads : FlashFragments.WordReads (fragmentsStream r v i) := by
  intro n hv
  have hread : (i n).cmdRead = true := hw.read n hv
  refine ⟨?_, rfl, rfl, BitVec.eq_of_toNat_eq ?_⟩
  · simp [fragmentsStream, fragmentsInput, fragmentsInputOf, inABits, hread, opGet]
  · refine (BitVec.toNat_and _ _).trans ((Nat.and_two_pow_sub_one_eq_mod _ 2).trans ?_)
    have haddr := toNat_address (i n)
    change (inABits (i n)).address.toNat % 2 ^ 2 = 0
    omega

/-- A byte request on offer is for a byte inside the memory. -/
theorem addrNext_lt (hv : (mapPorts r v i n).addrValid = true) : (mapPorts r v i n).addrNext.toNat < v.size := by
  have hbits : (mapPorts r v i n).addrNext = FlashPort.flashAddr
      (FlashFragments.outABits (run r v i n).fragments (fragmentsStream r v i n)).address := rfl
  rw [addrValid_eq, run_fragments] at hv
  obtain ⟨q, j, hj, hq, hreq⟩ := FlashFragments.exists_byteOf (wordReads hw) hv
  obtain ⟨m, hm, rfl⟩ : ∃ m, (i m).cmdValid = true ∧ q = inABits (i m) := by
    rcases hreq with hmem | ⟨hin, rfl⟩
    · obtain ⟨m, -, hm⟩ := mem_log.1 hmem
      rw [FlashFragments.request] at hm
      split at hm
      next hc => exact ⟨m, (Bool.and_eq_true_iff.1 hc).1, (Option.some.inj hm).symm⟩
      next => exact absurd hm (by simp)
    · exact ⟨n, hin, rfl⟩
  have hin := hw.inside m hm
  rw [hbits, run_fragments, hq, toNat_flashAddr_byteOf _ hj]
  omega

end Commands

/-! ### One byte at a time -/

section Serving

variable (hs : Selecting r) (hr : Reading r.insn (SpiModel.width M))

include hs in
theorem outAReady_eq_idle (n : ℕ) : (fragmentsStream r v i n).outAReady = decide (stageAt r v i n = .idle) := by
  have hen : (mapPorts r v i n).en = true := hs.flashEn
  rw [outAReady_eq, FlashMap.addrReady, sIdle_eq, hen]
  by_cases hi : stageAt r v i n = .idle <;> simp [hi]

include hs in
theorem outDValid_eq_post (n : ℕ) : (fragmentsStream r v i n).outDValid =
    (decide (stageAt r v i n = .post) && (mapPorts r v i n).linkRxValid) := by
  have hen : (mapPorts r v i n).en = true := hs.flashEn
  rw [outDValid_eq, FlashMap.dataValid, stageAt, stage, hen]
  cases (run r v i n).link.flash.map.state <;> simp

include hs in
theorem byteRequest_eq (n : ℕ) :
    FlashFragments.byteRequest (FlashFragments.run (fragmentsStream r v i) n) (fragmentsStream r v i n) =
      if stageAt r v i n = .idle ∧ (mapPorts r v i n).addrValid = true then some (linkStream r v i n).aBits
      else none := by
  rw [FlashFragments.byteRequest, ← run_fragments, ← addrValid_eq, ← aBits_eq, outAReady_eq_idle hs]
  by_cases hi : stageAt r v i n = .idle <;> simp [hi]

include hs in
theorem byteResponse_eq (n : ℕ) :
    FlashFragments.byteResponse (FlashFragments.run (fragmentsStream r v i) n) (fragmentsStream r v i n) =
      if stageAt r v i n = .post ∧ (mapPorts r v i n).linkRxValid = true ∧ (mapPorts r v i n).dataReady = true then
        some (fragmentsStream r v i n).outDBits
      else none := by
  rw [FlashFragments.byteResponse, ← run_fragments, ← dataReady_eq, outDValid_eq_post hs]
  by_cases hi : stageAt r v i n = .post <;> simp [hi]

include hs in
theorem byteRequestLog_succ (n : ℕ) : FlashFragments.byteRequestLog (fragmentsStream r v i) (n + 1) =
    FlashFragments.byteRequestLog (fragmentsStream r v i) n ++
      (if stageAt r v i n = .idle ∧ (mapPorts r v i n).addrValid = true then some (linkStream r v i n).aBits
        else none).toList := by
  rw [← byteRequest_eq hs]
  rfl

include hs in
theorem byteResponseLog_succ (n : ℕ) : FlashFragments.byteResponseLog (fragmentsStream r v i) (n + 1) =
    FlashFragments.byteResponseLog (fragmentsStream r v i) n ++
      (if stageAt r v i n = .post ∧ (mapPorts r v i n).linkRxValid = true ∧ (mapPorts r v i n).dataReady = true then
        some (fragmentsStream r v i n).outDBits else none).toList := by
  rw [← byteResponse_eq hs]
  rfl

include hs hr

/-- The flash map is idle when it takes no read, and when it hands on a byte. -/
theorem stageAt_succ_eq_idle_iff : stageAt r v i (n + 1) = .idle ↔
    stageAt r v i n = .idle ∧ (mapPorts r v i n).addrValid = false ∨
      stageAt r v i n = .post ∧ (mapPorts r v i n).linkRxValid = true ∧ (mapPorts r v i n).dataReady = true := by
  cases ha : QspiPhysical.accepts (run r v i n).link.mac.phy (phyStream r v i n) with
  | true =>
    obtain ⟨-, -, -, -, -, hi, hp⟩ := sent_of_accepts hs hr ha
    rw [stageAt_of_accepts hs hr ha]
    cases hst : stageAt r v i n with
    | byte m =>
      simp only [FlashMap.Stage.sent]
      split <;> simp
    | pad => simp [FlashMap.Stage.sent]
    | data => simp [FlashMap.Stage.sent]
    | idle => exact absurd hst hi
    | post => exact absurd hst hp
  | false =>
    rw [stageAt_of_not_accepts hs hr ha]
    cases hst : stageAt r v i n with
    | idle =>
      cases (mapPorts r v i n).addrValid <;> cases FlashMap.merge (mapPorts r v i n) <;> simp
    | post => cases (mapPorts r v i n).linkRxValid <;> cases (mapPorts r v i n).dataReady <;> simp
    | byte m => simp
    | pad => simp
    | data => simp

/-- At most one byte request has no answer, and the flash port keeps what belongs to it. -/
structure Outstanding (r : Regs) (v : Device) (i : ℕ → Input) (n : ℕ) (q : A 7 1 8) : Prop where
  last : (FlashFragments.byteRequestLog (fragmentsStream r v i) n)[
    (FlashFragments.byteResponseLog (fragmentsStream r v i) n).length]? = some q
  length : (FlashFragments.byteRequestLog (fragmentsStream r v i) n).length =
    (FlashFragments.byteResponseLog (fragmentsStream r v i) n).length + 1
  size : (run r v i n).link.flash.aSize = q.size
  source : (run r v i n).link.flash.aSource = q.source
  address : (run r v i n).link.flash.aAddress = q.address

omit hr in
/-- The registers of the flash port change with a request only. -/
theorem run_flash_succ (n : ℕ) :
    (run r v i (n + 1)).link.flash.aSize = (if stageAt r v i n = .idle ∧ (mapPorts r v i n).addrValid = true then
      (linkStream r v i n).aBits.size else (run r v i n).link.flash.aSize) ∧
    (run r v i (n + 1)).link.flash.aSource = (if stageAt r v i n = .idle ∧ (mapPorts r v i n).addrValid = true then
      (linkStream r v i n).aBits.source else (run r v i n).link.flash.aSource) ∧
    (run r v i (n + 1)).link.flash.aAddress = (if stageAt r v i n = .idle ∧ (mapPorts r v i n).addrValid = true then
      (linkStream r v i n).aBits.address else (run r v i n).link.flash.aAddress) := by
  have htake : FlashPort.aReady (run r v i n).link.flash
      (FlashLink.flashInput (run r v i n).link (linkStream r v i n)) = decide (stageAt r v i n = .idle) :=
    outAReady_eq_idle hs n
  have hstep : (run r v i (n + 1)).link.flash = FlashPort.edge (run r v i n).link.flash
      (FlashLink.flashInput (run r v i n).link (linkStream r v i n)) := rfl
  have hv : (FlashLink.flashInput (run r v i n).link (linkStream r v i n)).aValid = (mapPorts r v i n).addrValid := rfl
  rw [hstep]
  simp only [FlashPort.edge, htake, hv, Bool.and_eq_true, decide_eq_true_eq]
  exact ⟨rfl, rfl, rfl⟩

omit hr in
private theorem outstanding_of_request (hi : stageAt r v i n = .idle) (hv : (mapPorts r v i n).addrValid = true)
    (hlen : (FlashFragments.byteRequestLog (fragmentsStream r v i) n).length =
      (FlashFragments.byteResponseLog (fragmentsStream r v i) n).length) :
    Outstanding r v i (n + 1) (linkStream r v i n).aBits := by
  obtain ⟨hsize, hsource, haddr⟩ := run_flash_succ (v := v) (i := i) hs n
  have hreq : FlashFragments.byteRequestLog (fragmentsStream r v i) (n + 1) =
      FlashFragments.byteRequestLog (fragmentsStream r v i) n ++ [(linkStream r v i n).aBits] := by
    rw [byteRequestLog_succ hs, if_pos ⟨hi, hv⟩, Option.toList_some]
  have hresp : FlashFragments.byteResponseLog (fragmentsStream r v i) (n + 1) =
      FlashFragments.byteResponseLog (fragmentsStream r v i) n := by
    rw [byteResponseLog_succ hs, if_neg (by simp [hi]), Option.toList_none, List.append_nil]
  rw [if_pos ⟨hi, hv⟩] at hsize hsource haddr
  refine ⟨?_, ?_, hsize, hsource, haddr⟩
  · rw [hreq, hresp, ← hlen]
    simp
  · rw [hreq, hresp, ← hlen]
    simp

omit hr in
private theorem Outstanding.next {q : A 7 1 8} (hq : Outstanding r v i n q) (hi : stageAt r v i n ≠ .idle)
    (hno : ¬ (stageAt r v i n = .post ∧ (mapPorts r v i n).linkRxValid = true ∧
      (mapPorts r v i n).dataReady = true)) : Outstanding r v i (n + 1) q := by
  obtain ⟨hsize, hsource, haddr⟩ := run_flash_succ (v := v) (i := i) hs n
  have hreq : FlashFragments.byteRequestLog (fragmentsStream r v i) (n + 1) =
      FlashFragments.byteRequestLog (fragmentsStream r v i) n := by
    rw [byteRequestLog_succ hs, if_neg fun h => hi h.1, Option.toList_none, List.append_nil]
  have hresp : FlashFragments.byteResponseLog (fragmentsStream r v i) (n + 1) =
      FlashFragments.byteResponseLog (fragmentsStream r v i) n := by
    rw [byteResponseLog_succ hs, if_neg hno, Option.toList_none, List.append_nil]
  rw [if_neg fun h => hi h.1] at hsize hsource haddr
  refine ⟨?_, ?_, hsize.trans hq.size, hsource.trans hq.source, haddr.trans hq.address⟩
  · rw [hreq, hresp, hq.last]
  · rw [hreq, hresp, hq.length]

theorem outstanding (n : ℕ) :
    (stageAt r v i n = .idle → (FlashFragments.byteRequestLog (fragmentsStream r v i) n).length =
      (FlashFragments.byteResponseLog (fragmentsStream r v i) n).length) ∧
    (stageAt r v i n ≠ .idle → ∃ q, Outstanding r v i n q) := by
  induction n with
  | zero => exact ⟨fun _ => rfl, fun h => absurd rfl h⟩
  | succ n ih =>
    refine ⟨fun h => ?_, fun h => ?_⟩
    · rw [byteRequestLog_succ hs, byteResponseLog_succ hs]
      rcases (stageAt_succ_eq_idle_iff hs hr).1 h with ⟨hi, hv⟩ | h
      · rw [if_neg (by simp [hv]), if_neg (by simp [hi])]
        simpa using ih.1 hi
      · obtain ⟨q, hq⟩ := ih.2 (by simp [h.1])
        rw [if_neg (by simp [h.1]), if_pos h]
        simpa using hq.length
    · by_cases hi : stageAt r v i n = .idle
      · cases hv : (mapPorts r v i n).addrValid with
        | false => exact absurd ((stageAt_succ_eq_idle_iff hs hr).2 (Or.inl ⟨hi, hv⟩)) h
        | true => exact ⟨_, outstanding_of_request hs hi hv (ih.1 hi)⟩
      · obtain ⟨q, hq⟩ := ih.2 hi
        exact ⟨q, hq.next hs hi fun hno => h ((stageAt_succ_eq_idle_iff hs hr).2 (Or.inr hno))⟩

theorem hold_inside (hw : WordReads v i) (hi : stageAt r v i n ≠ .idle) : (hold r v i n).toNat < v.size := by
  induction n with
  | zero => exact absurd rfl hi
  | succ n ih =>
    rw [hs.hold_succ]
    split
    next h => exact addrNext_lt hw h.2
    next h =>
      refine ih fun hidle => hi ((stageAt_succ_eq_idle_iff hs hr).2 (Or.inl ⟨hidle, ?_⟩))
      exact Bool.eq_false_iff.2 fun hv => h ⟨hidle, hv⟩

/-- The flash port answers each byte request with the byte of the memory at its address. -/
theorem answersInOrder (hcmd : Reads r.insn.cmdCode M) (hw : WordReads v i) (hsize : v.size ≤ 2 ^ 24) :
    FlashFragments.AnswersInOrder (fragmentsStream r v i) fun _ a => v.mem (FlashPort.flashAddr a).toNat := by
  intro n hv
  rw [outDValid_eq_post hs, Bool.and_eq_true, decide_eq_true_iff] at hv
  obtain ⟨hst, hrx⟩ := hv
  have hi : stageAt r v i n ≠ .idle := by simp [hst]
  obtain ⟨q, hq⟩ := (outstanding hs hr n).2 hi
  refine ⟨q, getElem?_log_mono (Nat.le_succ n) hq.last, hq.size, hq.source, ?_⟩
  have hbits := linkRxBits_eq hs hr (fun n hv => (addrNext_lt hw hv).trans_le hsize) hcmd hst hrx
  have hdata : (fragmentsStream r v i n).outDBits.data = (mapPorts r v i n).linkRxBits := by
    rw [outDBits_eq]
    simp [FlashMap.dataBits, sIdle_eq, hst]
  rw [hdata, hbits, fetch, if_pos (hold_inside hs hr hw hi), ← hq.address]
  rfl

end Serving

end FlashSystem
