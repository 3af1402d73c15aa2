import ZrSoc.FlashWords

/-!
# Flash reads

The frames of a read are sent and its bytes received in the end, so that the flash port is fair to the fragments
(`fair`).  The main result is `reads_flash`: every read of a word returns the word of the memory.
-/

namespace FlashSystem

open Sync TileLink
open FlashMap (Format Reading Stage CntOk)
open QspiMedia (Offered)
open SpiModel (Mode Reads)

variable {r : Regs} {v : Device} {i : ℕ → Input} {M : Mode} {n : ℕ}

/-- What the media layer sees. -/
def macStream (r : Regs) (v : Device) (i : ℕ → Input) (n : ℕ) : QspiMedia.Input :=
  FlashLink.macInput (run r v i n).link (linkStream r v i n)

theorem run_mac (n : ℕ) : (run r v i n).link.mac = QspiMedia.run (macStream r v i) n := by
  induction n with
  | zero => rfl
  | succ n ih =>
    have hstep : (run r v i (n + 1)).link.mac = QspiMedia.edge (run r v i n).link.mac (macStream r v i n) := rfl
    rw [hstep, ih]
    rfl

/-- The frames and the byte that are still to come. -/
def rank : Stage → ℕ
  | .idle => 0
  | .post => 1
  | .data => 2
  | .pad => 3
  | .byte m => 7 - m

/-- A stage with a frame to send is followed by one with less to come. -/
theorem rank_sent {st : Stage} (hi : st ≠ .idle) (hp : st ≠ .post) (hle : ∀ m, st = .byte m → m ≤ 3) :
    st.sent ≠ .idle ∧ rank st.sent < rank st := by
  cases st with
  | byte m =>
    have := hle m rfl
    rw [Stage.sent]
    split
    · exact ⟨by simp, by simp only [rank]; omega⟩
    · exact ⟨by simp, by simp only [rank]; omega⟩
  | pad => exact ⟨by simp [Stage.sent], by decide⟩
  | data => exact ⟨by simp [Stage.sent], by decide⟩
  | idle => exact absurd rfl hi
  | post => exact absurd rfl hp

section Progress

variable (hs : Selecting r) (hr : Reading r.insn (SpiModel.width M))

include hs hr

/-- A frame that is to be sent is sent. -/
theorem exists_accepts (hi : stageAt r v i n ≠ .idle) (hp : stageAt r v i n ≠ .post) :
    ∃ m, n ≤ m ∧ stageAt r v i m = stageAt r v i n ∧
      QspiPhysical.accepts (run r v i m).link.mac.phy (phyStream r v i m) = true := by
  have hstay : ∀ k, n ≤ k → stageAt r v i k = stageAt r v i n →
      ¬ QspiPhysical.accepts (run r v i k).link.mac.phy (phyStream r v i k) = true →
      stageAt r v i (k + 1) = stageAt r v i n := by
    intro k _ hst ha
    rw [stageAt_of_not_accepts hs hr (Bool.eq_false_iff.2 ha), if_neg (by rwa [hst]), if_neg (by rwa [hst]), hst]
  obtain ⟨m, hm, ha⟩ : ∃ m, n ≤ m ∧
      QspiPhysical.accepts (run r v i m).link.mac.phy (phyStream r v i m) = true := by
    by_contra hno
    push Not at hno
    have hoffer : ∀ m, n ≤ m → Offered (macStream r v i m).link := by
      intro m hm
      have hst : stageAt r v i m = stageAt r v i n :=
        persists (P := fun k => stageAt r v i k = stageAt r v i n) hm rfl (fun k hk _ => hstay k hk)
          fun k hk _ => hno k hk
      have hvalid := (control (v := v) (i := i) hs hr m).cnt.linkTxValid_eq
      refine ⟨?_, ?_, ?_⟩
      · rw [macStream, link_eq hs hr]
        exact hvalid.trans (decide_eq_true (by rw [← stageAt, hst]; exact ⟨hi, hp⟩))
      · rw [macStream, link_eq hs hr]
        rfl
      · exact (csClear_eq hs hr m).trans (by simp [hst, hi])
    obtain ⟨m, hm, hready⟩ := QspiMedia.exists_linkTxReady hoffer
    refine hno m hm ?_
    rw [← run_mac] at hready
    rw [phyStream, QspiMedia.accepts_phy]
    exact Bool.and_eq_true_iff.2 ⟨hready, (hoffer m hm).txValid⟩
  obtain ⟨k, hk, hst, hak, -⟩ := exists_until (P := fun k => stageAt r v i k = stageAt r v i n) rfl hstay ⟨m, hm, ha⟩
  exact ⟨k, hk, hst, hak⟩

/-- Every read comes to the point where its byte is handed on. -/
theorem exists_post (hi : stageAt r v i n ≠ .idle) : ∃ m, n ≤ m ∧ stageAt r v i m = .post := by
  refine exists_of_progress (P := fun k => stageAt r v i k ≠ .idle) (fun k => rank (stageAt r v i k)) hi
    fun k _ hk => ?_
  by_cases hp : stageAt r v i k = .post
  · exact Or.inl ⟨k, le_rfl, hp⟩
  · obtain ⟨m, hm, hst, ha⟩ := exists_accepts hs hr hk hp
    have hlt := rank_sent hk hp fun j => (control (v := v) (i := i) hs hr k).cnt.le (m := j)
    rw [← hst, ← stageAt_of_accepts hs hr ha, hst] at hlt
    exact Or.inr ⟨m + 1, by omega, hlt⟩

/-- Without an answer the byte stays on offer. -/
theorem offer_next (hst : stageAt r v i n = .post)
    (hd : (mapPorts r v i n).linkRxValid = true → ¬ (mapPorts r v i n).dataReady = true) :
    stageAt r v i (n + 1) = .post ∧
      ((mapPorts r v i n).linkRxValid = true → (mapPorts r v i (n + 1)).linkRxValid = true) := by
  have hctl := control (v := v) (i := i) hs hr n
  have hctl' := control (v := v) (i := i) hs hr (n + 1)
  have ha : QspiPhysical.accepts (run r v i n).link.mac.phy (phyStream r v i n) = false := by
    have hst' : FlashMap.stage (run r v i n).link.flash.map = .post := hst
    rw [accepts_eq hs hr, hctl.cnt.linkTxValid_eq, hst']
    simp
  refine ⟨?_, fun hrx => ?_⟩
  · rw [stageAt_of_not_accepts hs hr ha, hst]
    simpa using hd
  · have hdone : (run r v i n).link.mac.phy.done = true := (Bool.and_eq_true_iff.1 hrx).1
    have hidle : QspiPhysical.Idle (run r v i n).link.mac.phy := by
      rw [run_phy] at hdone ⊢
      exact QspiPhysical.idle_of_done phyStream_noStrobedDelay hdone
    have hidle' : QspiPhysical.Idle (run r v i (n + 1)).link.mac.phy := hidle.next (phyStream_noStrobedDelay n) ha
    exact Bool.and_eq_true_iff.2 ⟨hidle'.done, hctl'.sel0⟩

/-- A byte that is to be handed on is received at some time. -/
theorem exists_rxValid (n : ℕ) : ∃ m, n ≤ m ∧ (mapPorts r v i m).linkRxValid = true := by
  obtain ⟨m, hm, hidle⟩ : ∃ m, n ≤ m ∧ QspiPhysical.Idle (run r v i m).link.mac.phy := by
    rcases QspiPhysical.idle_or_frame (y := phyStream r v i) phyStream_noStrobedDelay n with
      h | ⟨t, htn, ha, h0, hn⟩
    · rw [← run_phy] at h
      exact ⟨n, le_rfl, h⟩
    · have hend := (QspiPhysical.draining_of_accepts phyStream_noStrobedDelay ha rfl h0).2.2
      rw [← run_phy] at hend
      exact ⟨_, hn.le, hend⟩
  exact ⟨m, hm, Bool.and_eq_true_iff.2 ⟨hidle.done, (control hs hr m).sel0⟩⟩

variable (ht : TakesResponses r v i)

include ht

/-- A byte is handed on over a requester that takes its responses. -/
theorem exists_answer (hst : stageAt r v i n = .post) : ∃ m, n ≤ m ∧ stageAt r v i m = .post ∧
    (mapPorts r v i m).linkRxValid = true ∧ (mapPorts r v i m).dataReady = true := by
  by_contra hno
  push Not at hno
  have hpost : ∀ m, n ≤ m → stageAt r v i m = .post := by
    intro m hm
    induction m, hm using Nat.le_induction with
    | base => exact hst
    | succ m hm ih => exact (offer_next hs hr ih (hno m hm ih)).1
  obtain ⟨k, hnk, hk⟩ := exists_rxValid (v := v) (i := i) hs hr n
  have hrx : ∀ m, k ≤ m → (mapPorts r v i m).linkRxValid = true := by
    intro m hm
    induction m, hm using Nat.le_induction with
    | base => exact hk
    | succ m hm ih =>
      have hp := hpost m (hnk.trans hm)
      exact (offer_next hs hr hp (hno m (hnk.trans hm) hp)).2 ih
  -- the byte waits for the requester
  have hwait : ∀ m, k ≤ m → rspValid r (run r v i m) (i m) = true ∧ (i m).rspReady = false := by
    intro m hm
    have hp := hpost m (hnk.trans hm)
    have hv : (fragmentsStream r v i m).outDValid = true := by
      rw [outDValid_eq_post hs, hp, hrx m hm]
      rfl
    exact FlashFragments.waits_of_not_ready hv (Bool.eq_false_iff.2 (hno m (hnk.trans hm) hp (hrx m hm)))
  obtain ⟨m, hm, hready⟩ := ht k fun m hm => (hwait m hm).1
  rw [(hwait m hm).2] at hready
  exact absurd hready (by decide)

/-- The flash port is fair to the fragments. -/
theorem fair : FlashFragments.Fair (fragmentsStream r v i) := by
  have hanswer {n : ℕ} (hi : stageAt r v i n ≠ .idle) : ∃ m, n ≤ m ∧ stageAt r v i m = .post ∧
      (mapPorts r v i m).linkRxValid = true ∧ (mapPorts r v i m).dataReady = true := by
    obtain ⟨k, hk, hpost⟩ := exists_post hs hr hi
    obtain ⟨m, hm, h⟩ := exists_answer hs hr ht hpost
    exact ⟨m, hk.trans hm, h⟩
  refine ⟨fun n _ => ?_, fun n hlt => ?_, fun n hv hno => ?_, fun n hv => ?_⟩
  · by_cases hi : stageAt r v i n = .idle
    · exact ⟨n, le_rfl, by rw [outAReady_eq_idle hs, hi]; rfl⟩
    · obtain ⟨m, hm, h⟩ := hanswer hi
      refine ⟨m + 1, by omega, ?_⟩
      rw [outAReady_eq_idle hs, (stageAt_succ_eq_idle_iff hs hr).2 (Or.inr h)]
      rfl
  · have hi : stageAt r v i n ≠ .idle := fun hi => by
      have := (outstanding hs hr n).1 hi
      omega
    obtain ⟨m, hm, hst, hrx, -⟩ := hanswer hi
    exact ⟨m, hm, by rw [outDValid_eq_post hs, hst, hrx]; rfl⟩
  · rw [outDValid_eq_post hs, Bool.and_eq_true, decide_eq_true_iff] at hv
    rw [byteResponse_eq hs] at hno
    obtain ⟨hst, hrx⟩ := hv
    have hd : ¬ (mapPorts r v i n).dataReady = true := fun hd => by simp [hst, hrx, hd] at hno
    obtain ⟨hst', hrx'⟩ := offer_next hs hr hst fun _ => hd
    rw [outDValid_eq_post hs, hst', hrx' hrx]
    rfl
  · refine ht n fun m hm => ?_
    have h := hv m hm
    rw [← run_fragments] at h
    exact h

end Progress

/-! ### Reads -/

/-- A read command with the protocol of its data. -/
inductive Command : BitVec 8 → BitVec 2 → Prop
  | read : Command 0x03#8 0#2
  | fast : Command 0x0b#8 0#2
  | dual : Command 0x3b#8 1#2
  | quad : Command 0x6b#8 2#2

/-- The flash is enabled, and read with a command, three bytes of address and no pad cycles, command and address on one
line, most significant bit first. -/
structure ReadConfig (r : Regs) : Prop where
  flashEn : r.flashEn = true
  cmdEn : r.insn.cmdEn = true
  addrLen : r.insn.addrLen = 3#3
  padCnt : r.insn.padCnt = 0#4
  cmdProto : r.insn.cmdProto = 0#2
  addrProto : r.insn.addrProto = 0#2
  endian : r.insn.endian = false
  command : Command r.insn.cmdCode r.insn.dataProto

theorem ReadConfig.exists_mode (h : ReadConfig r) :
    ∃ M, Reading r.insn (SpiModel.width M) ∧ Reads r.insn.cmdCode M := by
  obtain ⟨-, h1, h2, h3, h4, h5, h6, hc⟩ := h
  generalize hcode : r.insn.cmdCode = code at hc
  generalize hproto : r.insn.dataProto = proto at hc
  cases hc with
  | read => exact ⟨.single, ⟨h1, h2, h3, h4, h5, h6, hproto ▸ .single⟩, .read⟩
  | fast => exact ⟨.single, ⟨h1, h2, h3, h4, h5, h6, hproto ▸ .single⟩, .fast⟩
  | dual => exact ⟨.dual, ⟨h1, h2, h3, h4, h5, h6, hproto ▸ .dual⟩, .dual⟩
  | quad => exact ⟨.quad, ⟨h1, h2, h3, h4, h5, h6, hproto ▸ .quad⟩, .quad⟩

theorem request_eq (n : ℕ) :
    FlashFragments.request (FlashFragments.run (fragmentsStream r v i) n) (fragmentsStream r v i n) =
      if (i n).cmdValid && cmdReady r (run r v i n) (i n) then some (inABits (i n)) else none := by
  rw [← run_fragments]
  rfl

theorem length_commandLog (n : ℕ) :
    (commandLog r v i n).length = (FlashFragments.requestLog (fragmentsStream r v i) n).length := by
  rw [commandLog, FlashFragments.requestLog, length_log, length_log]
  congr 1
  funext m
  rw [request_eq, command]
  split <;> rfl

/-- A request for a word is a command. -/
theorem exists_command {k : ℕ} {q : A 2 4 32}
    (hq : (FlashFragments.requestLog (fragmentsStream r v i) n)[k]? = some q) :
    ∃ x, (commandLog r v i n)[k]? = some x.cmdAddr ∧ q = inABits x := by
  obtain ⟨m, hm, hreq, hk⟩ := exists_of_getElem?_log hq
  rw [request_eq] at hreq
  split at hreq
  next hc =>
    have hcmd : command r (run r v i m) (i m) = some (i m).cmdAddr := if_pos hc
    have hlen : (commandLog r v i m).length = k := (length_commandLog m).trans hk
    exact ⟨i m, hlen ▸ getElem?_log hcmd hm, (Option.some.inj hreq).symm⟩
  next => exact absurd hreq (by simp)

theorem responseLog_eq (n : ℕ) :
    responseLog r v i n = (FlashFragments.responseLog (fragmentsStream r v i) n).map fun d => d.data := by
  rw [FlashFragments.responseLog, map_log]
  refine log_congr fun m _ => ?_
  rw [← run_fragments, response, FlashFragments.response]
  have hv : (FlashFragments.inDValid (run r v i m).fragments (fragmentsStream r v i m) &&
    (fragmentsStream r v i m).inDReady) = (rspValid r (run r v i m) (i m) && (i m).rspReady) := rfl
  rw [hv]
  split <;> rfl

/-- The bytes of a word are those of the memory. -/
theorem wordOf_eq (x : Input) (k : ℕ) :
    FlashFragments.wordOf (fun _ a => v.mem (FlashPort.flashAddr a).toNat) k (inABits x).address =
      wordAt v.mem x.cmdAddr := by
  have hbyte {j : ℕ} (hj : j < 4) := toNat_flashAddr_byteOf x hj
  have h0 : (FlashPort.flashAddr (inABits x).address).toNat = wordAddr x.cmdAddr := by
    have h0 := hbyte (j := 0) (by decide)
    rwa [FlashFragments.byteOf, BitVec.add_zero] at h0
  have h1 : (FlashPort.flashAddr ((inABits x).address + 1)).toNat = wordAddr x.cmdAddr + 1 := hbyte (by decide)
  have h2 : (FlashPort.flashAddr ((inABits x).address + 2)).toNat = wordAddr x.cmdAddr + 2 := hbyte (by decide)
  have h3 : (FlashPort.flashAddr ((inABits x).address + 3)).toNat = wordAddr x.cmdAddr + 3 := hbyte (by decide)
  rw [FlashFragments.wordOf, h0, h1, h2, h3, wordAt]

/-- In every run with chip 0 selected and a memory that three bytes address, every read of a word is answered with its
word, in order. -/
theorem reads_flash (hr : ReadConfig r) (hid : r.csId = false) (hdef : r.csDflt0 = true) (hsize : v.size ≤ 2 ^ 24)
    (hw : WordReads v i) : ReadsFlash r v i := by
  obtain ⟨M, hread, hcmd⟩ := hr.exists_mode
  have hs : Selecting r := ⟨hr.flashEn, hid, hdef⟩
  have hwords := FlashFragments.reads_words (wordReads hw) (answersInOrder hs hread hcmd hw hsize)
  refine ⟨fun n => ?_, fun ht n hv => ?_, fun ht n => ?_⟩
  · rw [responseLog_eq, List.prefix_iff_getElem?]
    intro k hk
    rw [List.length_map] at hk
    obtain ⟨q, hq, -, hdata⟩ := hwords.responses n k _ (List.getElem?_eq_getElem hk)
    obtain ⟨x, hx, rfl⟩ := exists_command hq
    rw [List.getElem?_map, hx, List.getElem_map, hdata, wordOf_eq]
    rfl
  · obtain ⟨m, hm, hready⟩ := FlashFragments.exists_inAReady (wordReads hw) (fair hs hread ht) hv
    rw [← run_fragments] at hready
    exact ⟨m, hm, hready⟩
  · obtain ⟨m, hm⟩ := hwords.complete (fair hs hread ht) n
    refine ⟨m, ?_⟩
    rw [length_commandLog, responseLog_eq, List.length_map]
    exact hm

/-! ### Chip 0 and the size of the memory -/

/-- Reads on four lines from chip 0, SCK not divided and idle low. -/
def quadRead : Regs where
  flashEn := true
  insn :=
    { cmdProto := 0#2, cmdCode := 0x6b#8, cmdEn := true, addrProto := 0#2, addrLen := 3#3, padCode := 0#8,
      padCnt := 0#4, dataProto := 2#2, endian := false }
  sck := { div := 0#12, pol := false, pha := false }
  dla := { cssck := 0#8, sckcs := 0#8, intercs := 0#8, interxfr := 0#8 }
  csId := false
  csDflt0 := true

/-- A memory with the number of the bank of 16 MiB, from 1 on. -/
def banks (size : ℕ) : Device where
  size := size
  mem a := BitVec.ofNat 8 (a / 2 ^ 24 + 1)
  undef := 0#8
  bufferIn := 0#8

/-- A read of address `a` in cycle 0. -/
def oneRead (a : BitVec 32) (n : ℕ) : Input where
  cmdValid := n == 0
  cmdAddr := a
  cmdRead := true
  cmdWdata := 0#32
  rspReady := true
  fifo :=
    { txValid := false, txBits := 0#8, cnt := 0#8, fmt := { proto := 0#2, endian := false, iodir := false },
      csSet := false, csClear := false, csHold := false }
  fifoLock := false
  float := 0#4

/-- A memory that holds the low bytes of its addresses. -/
def ramp (size : ℕ) : Device where
  size := size
  mem a := BitVec.ofNat 8 a
  undef := 0#8
  bufferIn := 0#8

theorem readConfig_quadRead : ReadConfig quadRead := ⟨rfl, rfl, rfl, rfl, rfl, rfl, rfl, Command.quad⟩

/-- The word at address 4 is `0x07060504`. -/
theorem reads_flash_quadRead : wordAt (ramp (2 ^ 24)).mem 4#32 = 0x07060504#32 ∧
    ReadsFlash quadRead (ramp (2 ^ 24)) (oneRead 4#32) ∧ TakesResponses quadRead (ramp (2 ^ 24)) (oneRead 4#32) := by
  have hword : WordReads (ramp (2 ^ 24)) (oneRead 4#32) :=
    ⟨fun _ _ => rfl, fun _ _ => show wordAddr 4#32 + 3 < 2 ^ 24 by decide⟩
  exact ⟨by decide, reads_flash readConfig_quadRead rfl rfl le_rfl hword, fun n _ => ⟨n, le_rfl, rfl⟩⟩

/-- With chip 1 selected, with a pin that is active high, or with a memory that three bytes do not address, a read
returns another word. -/
theorem not_readsFlash_quadRead :
    (ReadConfig { quadRead with csId := true } ∧ WordReads (banks (2 ^ 24)) (oneRead 4#32) ∧
      ¬ ReadsFlash { quadRead with csId := true } (banks (2 ^ 24)) (oneRead 4#32)) ∧
    (ReadConfig { quadRead with csDflt0 := false } ∧ WordReads (banks (2 ^ 24)) (oneRead 4#32) ∧
      ¬ ReadsFlash { quadRead with csDflt0 := false } (banks (2 ^ 24)) (oneRead 4#32)) ∧
    (ReadConfig quadRead ∧ WordReads (banks (2 ^ 24 + 4)) (oneRead 0x1000000#32) ∧
      ¬ ReadsFlash quadRead (banks (2 ^ 24 + 4)) (oneRead 0x1000000#32)) := by
  have hword : WordReads (banks (2 ^ 24)) (oneRead 4#32) :=
    ⟨fun _ _ => rfl, fun _ _ => show wordAddr 4#32 + 3 < 2 ^ 24 by decide⟩
  have hword' : WordReads (banks (2 ^ 24 + 4)) (oneRead 0x1000000#32) :=
    ⟨fun _ _ => rfl, fun _ _ => show wordAddr 0x1000000#32 + 3 < 2 ^ 24 + 4 by decide⟩
  refine ⟨⟨⟨rfl, rfl, rfl, rfl, rfl, rfl, rfl, Command.quad⟩, hword, fun h => ?_⟩,
    ⟨⟨rfl, rfl, rfl, rfl, rfl, rfl, rfl, Command.quad⟩, hword, fun h => ?_⟩,
    ⟨readConfig_quadRead, hword', fun h => ?_⟩⟩
  · exact absurd (h.responses 115) (by decide +kernel)
  · exact absurd (h.responses 115) (by decide +kernel)
  · exact absurd (h.responses 115) (by decide +kernel)

end FlashSystem
