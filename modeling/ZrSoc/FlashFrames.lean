import ZrSoc.FlashMap
import Mathlib.Tactic.IntervalCases

/-!
# The frames of a flash read

A read of the memory map is a transaction from the request to its answer.  The frames that the flash map pushes to the
link in between are counted from behind: `remaining` are those still to come, and every clock edge either pushes the
first of them or leaves them as they are.
-/

/-! ### The frames of a format -/

namespace FlashMap

/-- A frame of the link: the byte driven onto the data lines, if they are driven, the beats and the format. -/
structure Frame where
  tx : Option (BitVec 8)
  cnt : BitVec 8
  proto : BitVec 2
  endian : Bool
  deriving DecidableEq, Repr

def Frame.ofLink (l : QspiMedia.Link) : Frame where
  tx := if l.fmt.iodir then some l.txBits else none
  cnt := l.cnt
  proto := l.fmt.proto
  endian := l.fmt.endian

namespace Format

variable (f : Format)

def cmdFrame : Frame := ⟨some f.cmdCode, (beats f.cmdProto).setWidth 8, f.cmdProto, f.endian⟩

/-- The frame of byte `k` of the address, counted from the least significant. -/
def addrFrame (addr : BitVec 32) (k : ℕ) : Frame :=
  ⟨some (addr.extractLsb' (8 * k) 8), (beats f.addrProto).setWidth 8, f.addrProto, f.endian⟩

/-- The frames of the `n` low bytes of the address, most significant first. -/
def addrFrames (addr : BitVec 32) : ℕ → List Frame
  | 0 => []
  | n + 1 => f.addrFrame addr n :: addrFrames addr n

def padFrame : Frame := ⟨some f.padCode, f.padCnt.setWidth 8, f.addrProto, f.endian⟩

def dataFrame : Frame := ⟨none, (beats f.dataProto).setWidth 8, f.dataProto, f.endian⟩

/-- The frames of a read that does not continue the previous one. -/
def frames (addr : BitVec 32) : List Frame :=
  (if f.cmdEn then [f.cmdFrame] else []) ++ f.addrFrames addr f.addrLen.toNat ++ [f.padFrame, f.dataFrame]

@[simp] theorem length_addrFrames (addr : BitVec 32) (n : ℕ) : (f.addrFrames addr n).length = n := by
  induction n with
  | zero => rfl
  | succ n ih => rw [addrFrames, List.length_cons, ih]

end Format

/-- The frames still to come when the flash map is in state `s`, for address `addr`. -/
def remaining (f : Format) (addr : BitVec 32) (s : State) : List Frame :=
  match s.state with
  | .idle => []
  | .cmd => f.cmdFrame :: (f.addrFrames addr f.addrLen.toNat ++ [f.padFrame, f.dataFrame])
  | .addr => f.addrFrames addr s.cnt.toNat ++ [f.padFrame, f.dataFrame]
  | .pad => [f.padFrame, f.dataFrame]
  | .pre => [f.dataFrame]
  | .dataPost => []

/-- The frame pushed in a cycle. -/
def pushed (s : State) (x : Input) : Option Frame := if sends s x then some (.ofLink (link s x)) else none

/-- The byte that the memory map is waiting for is there, and it is taken. -/
def answers (s : State) (x : Input) : Bool := s.state == .dataPost && x.linkRxValid && x.dataReady

variable {s : State} {x : Input} {f : Format}

/-- The counter selects the bytes of the address from the most significant of those left. -/
theorem addrByte_eq (addr : BitVec 32) {c : BitVec 4} (hc : c ≠ 0#4) :
    addrByte addr c = addr.extractLsb' (8 * (c.toNat - 1)) 8 := by
  have hlt := c.isLt
  have hof : c = BitVec.ofNat 4 c.toNat := by simp
  generalize hn : c.toNat = n at hlt hof
  subst hof
  interval_cases n
  · exact absurd rfl hc
  all_goals simp [addrByte]
  all_goals
    ext j hj
    rw [BitVec.getElem_zero, BitVec.getElem_extractLsb', BitVec.getLsbD_of_ge addr _ (by omega)]

/-- The counter is zero unless an address is being sent. -/
def CntIdle (s : State) : Prop := s.state ≠ .addr → s.cnt = 0#4

theorem cntIdle_edge (h : CntIdle s) : CntIdle (edge s x) := by
  intro hne
  cases hs : s.state with
  | addr =>
    rw [edge, hs] at hne
    cases hd : cntDone s x with
    | false => simp [hd] at hne
    | true =>
      have hc : s.cnt = 1#4 ∧ x.linkTxReady = true ∨ s.cnt = 0#4 := by simpa [cntDone] using hd
      rcases hc with ⟨hc, hx⟩ | hc
      · simp [edge, hs, sends, linkTxValid, hc, hx]
      · simp [edge, hs, sends, linkTxValid, hc]
  | cmd =>
    cases hx : x.linkTxReady with
    | true => simp [edge, hs, hx] at hne
    | false => simp [edge, hs, hx, h (by simp [hs])]
  | idle => simp [edge, hs, h (by simp [hs])]
  | pad => simp [edge, hs, h (by simp [hs])]
  | pre => simp [edge, hs, h (by simp [hs])]
  | dataPost => simp [edge, hs, h (by simp [hs])]

theorem dataPost_edge (hs : s.state = .dataPost) (ha : answers s x = false) : (edge s x).state = .dataPost := by
  have ha' : (x.dataReady && dataValid s x) = false := by
    rw [← ha, answers, dataValid, hs]
    simp [Bool.and_comm]
  simp [edge, hs, ha']

/-- The data frame is sent before its byte is waited for. -/
theorem sends_of_edge (hs : s.state ≠ .dataPost) (he : (edge s x).state = .dataPost) : sends s x = true := by
  cases hst : s.state with
  | dataPost => exact absurd hst hs
  | pre =>
    cases hx : x.linkTxReady with
    | true => simp [sends, linkTxValid, hst, hx]
    | false => simp [edge, hst, hx] at he
  | idle =>
    simp only [edge, hst] at he
    split at he
    · split at he
      · split at he <;> simp at he
      · simp at he
    · simp at he
  | cmd => cases hx : x.linkTxReady <;> simp [edge, hst, hx] at he
  | addr => cases hd : cntDone s x <;> simp [edge, hst, hd] at he
  | pad => cases hx : x.linkTxReady <;> simp [edge, hst, hx] at he

/-- A read keeps the flash map busy until its answer. -/
theorem busy_edge (hi : s.state ≠ .idle) (ha : answers s x = false) : (edge s x).state ≠ .idle := by
  cases hs : s.state with
  | idle => exact absurd hs hi
  | dataPost => simp [dataPost_edge hs ha]
  | cmd => cases hx : x.linkTxReady <;> simp [edge, hs, hx]
  | addr => cases hd : cntDone s x <;> simp [edge, hs, hd]
  | pad => cases hx : x.linkTxReady <;> simp [edge, hs, hx]
  | pre => cases hx : x.linkTxReady <;> simp [edge, hs, hx]

/-- A frame of the address is pushed. -/
private theorem remaining_addr_edge (hs : s.state = .addr) (hc : s.cnt ≠ 0#4) (hx : x.linkTxReady = true)
    (hctrl : ctrl s x = f) :
    remaining f x.addrHold s = (pushed s x).toList ++ remaining f x.addrHold (edge s x) := by
  have hc1 : s.cnt.toNat = (s.cnt - 1#4).toNat + 1 := by bv_omega
  have hbyte := addrByte_eq x.addrHold hc
  rw [hc1, Nat.add_sub_cancel] at hbyte
  have hrem : remaining f x.addrHold s =
      f.addrFrame x.addrHold (s.cnt - 1#4).toNat ::
        (f.addrFrames x.addrHold (s.cnt - 1#4).toNat ++ [f.padFrame, f.dataFrame]) := by
    simp only [remaining, hs]
    rw [hc1, Format.addrFrames, List.cons_append]
  have hpush : pushed s x = some (f.addrFrame x.addrHold (s.cnt - 1#4).toNat) := by
    simp [pushed, sends, linkTxValid, hs, hx, hc, Frame.ofLink, link, linkFmtIodir, linkTxBits, hctrl, linkCnt,
      linkFmtProto, Format.addrFrame, hbyte]
  rw [hrem, hpush]
  by_cases hc2 : s.cnt = 1#4
  · simp [remaining, hs, edge, cntDone, hc2, hx, Format.addrFrames]
  · simp [remaining, hs, edge, cntDone, hc, hc2, hx, sends, linkTxValid]

/-- One clock edge of a transaction pushes the first of the frames to come, or none. -/
theorem remaining_edge (hi : s.state ≠ .idle) (hf : sends s x = true → ctrl s x = f)
    (ha : answers s x = false) :
    remaining f x.addrHold s = (pushed s x).toList ++ remaining f x.addrHold (edge s x) := by
  cases hx : x.linkTxReady with
  | false =>
    have hp : pushed s x = none := by simp [pushed, sends, hx]
    cases hs : s.state with
    | idle => exact absurd hs hi
    | addr =>
      by_cases hc : s.cnt = 0#4
      · simp [remaining, hp, hs, edge, cntDone, hc, hx, Format.addrFrames]
      · simp [remaining, hp, hs, edge, cntDone, hc, hx, sends]
    | dataPost => simp [remaining, hp, hs, dataPost_edge hs ha]
    | cmd => simp [remaining, hp, hs, edge, hx]
    | pad => simp [remaining, hp, hs, edge, hx]
    | pre => simp [remaining, hp, hs, edge, hx]
  | true =>
    have hctrl (hv : linkTxValid s = true) : ctrl s x = f := hf (by rw [sends, hx, hv]; rfl)
    cases hs : s.state with
    | idle => exact absurd hs hi
    | cmd =>
      have hctrl := hctrl (by simp [linkTxValid, hs])
      have hlen : f.addrLen.toNat % 16 = f.addrLen.toNat := Nat.mod_eq_of_lt (by omega)
      simp [remaining, pushed, sends, linkTxValid, hs, edge, hx, hctrl, Frame.ofLink, link, linkFmtIodir, linkTxBits,
        linkCnt, linkFmtProto, Format.cmdFrame, hlen]
    | addr =>
      by_cases hc : s.cnt = 0#4
      · simp [remaining, pushed, sends, linkTxValid, hs, edge, cntDone, hc, Format.addrFrames]
      · exact remaining_addr_edge hs hc hx (hctrl (by simp [linkTxValid, hs, hc]))
    | pad =>
      have hctrl := hctrl (by simp [linkTxValid, hs])
      simp [remaining, pushed, sends, linkTxValid, hs, edge, hx, hctrl, Frame.ofLink, link, linkFmtIodir, linkTxBits,
        linkCnt, linkFmtProto, Format.padFrame]
    | pre =>
      have hctrl := hctrl (by simp [linkTxValid, hs])
      simp [remaining, pushed, sends, linkTxValid, hs, edge, hx, hctrl, Frame.ofLink, link, linkFmtIodir, linkTxBits,
        linkCnt, linkFmtProto, Format.dataFrame]
    | dataPost => simp [remaining, pushed, sends, linkTxValid, hs, dataPost_edge hs ha]

end FlashMap

/-! ### Transactions -/

namespace FlashPort

open Sync
open FlashMap (Format Frame CntIdle remaining)

variable (i : ℕ → Input)

/-- The ports of `flash` in a cycle. -/
def ports (n : ℕ) : FlashMap.Input := mapInput (run i n) (i n)

/-- The format the flash map uses in a cycle. -/
def ctrlAt (n : ℕ) : Format := FlashMap.ctrl (run i n).map (ports i n)

/-- The flash map takes a read of the memory map. -/
def Takes (t : ℕ) : Prop := (run i t).map.state = .idle ∧ (i t).en = true ∧ (i t).aValid = true

/-- A frame is pushed to the link. -/
def Sends (n : ℕ) : Prop := FlashMap.sends (run i n).map (ports i n) = true

/-- A frame that receives is pushed to the link. -/
def DataFrame (n : ℕ) : Prop := Sends i n ∧ (link (run i n) (i n)).fmt.iodir = false

/-- The address of the read of cycle `t`. -/
def addrAt (t : ℕ) : BitVec 32 := flashAddr (i t).aBits.address

/-- The link is active and the address follows the one in the register, so that only the data frame is sent. -/
def Merges (t : ℕ) : Prop := FlashMap.merge (ports i t) = true

def Answers (n : ℕ) : Prop := dValid (run i n) (i n) = true ∧ (i n).dReady = true

/-- The read of cycle `t` is answered in cycle `e`. -/
structure Transaction (t e : ℕ) : Prop where
  takes : Takes i t
  lt : t < e
  answers : Answers i e
  pending : ∀ m, t < m → m < e → ¬ Answers i m

/-- The frames pushed in the `n` cycles from `t` on. -/
def framesFrom (t n : ℕ) : List Frame := log (fun k => FlashMap.pushed (run i (t + k)).map (ports i (t + k))) n

/-- What a transaction sends if its first cycle sees `merge` and `cmdEn`, and all frames follow `f`. -/
def sentFrames (f : Format) (addr : BitVec 32) (merge cmdEn : Bool) : List Frame :=
  if merge then [f.dataFrame]
  else if cmdEn then f.cmdFrame :: (f.addrFrames addr f.addrLen.toNat ++ [f.padFrame, f.dataFrame])
  else [f.padFrame, f.dataFrame]

variable {i} {t e m n : ℕ} {f : Format}

theorem sentFrames_inj {addr : BitVec 32} {b b' : Bool} :
    sentFrames f addr false b = sentFrames f addr false b' ↔ b = b' := by
  refine ⟨fun h => ?_, fun h => by rw [h]⟩
  have hlen := congrArg List.length h
  cases b <;> cases b' <;> simp [sentFrames] at hlen ⊢

theorem run_succ_map (n : ℕ) : (run i (n + 1)).map = FlashMap.edge (run i n).map (ports i n) := rfl

theorem cntIdle_run (n : ℕ) : CntIdle (run i n).map := by
  induction n with
  | zero => exact fun _ => rfl
  | succ n ih => exact FlashMap.cntIdle_edge ih

/-- While a read is under way the answers are those of the memory map. -/
theorem answers_iff (hi : (run i n).map.state ≠ .idle) :
    Answers i n ↔ FlashMap.answers (run i n).map (ports i n) = true := by
  rw [Answers, dValid, FlashMap.dataValid, FlashMap.answers]
  cases hs : (run i n).map.state <;> simp_all [ports, mapInput]

theorem aAddress_succ (hi : (run i n).map.state ≠ .idle) : (run i (n + 1)).aAddress = (run i n).aAddress := by
  have hr : aReady (run i n) (i n) = false := by simp [aReady, FlashMap.addrReady, FlashMap.sIdle, hi]
  rw [run, Machine.run_succ]
  exact if_neg (by rw [hr]; simp)

/-- The first clock edge of a transaction. -/
theorem Takes.next (ht : Takes i t) : (run i (t + 1)).aAddress = (i t).aBits.address ∧
    (run i (t + 1)).map.state ≠ .idle ∧ FlashMap.pushed (run i t).map (ports i t) = none ∧
    remaining f (addrAt i t) (run i (t + 1)).map =
      sentFrames f (addrAt i t) (FlashMap.merge (ports i t)) (ctrlAt i t).cmdEn := by
  obtain ⟨hs, hen, hv⟩ := ht
  have hcnt := cntIdle_run (i := i) t (by simp [hs])
  have hr : aReady (run i t) (i t) = true := by simp [aReady, FlashMap.addrReady, FlashMap.sIdle, hs, mapInput, hen]
  have hen' : (ports i t).en = true := hen
  have hv' : (ports i t).addrValid = true := hv
  have hnext : FlashMap.edge (run i t).map (ports i t) = (run i (t + 1)).map := rfl
  refine ⟨?_, ?_, ?_, ?_⟩
  · rw [run, Machine.run_succ]
    exact if_pos (by rw [hr, hv]; rfl)
  · rw [run_succ_map]
    simp only [FlashMap.edge, hs, hen', hv', Bool.and_self, ↓reduceIte]
    split
    · split <;> simp
    · simp
  · simp [FlashMap.pushed, FlashMap.sends, FlashMap.linkTxValid, hs]
  · cases hm : FlashMap.merge (ports i t) with
    | true =>
      have hst : (run i (t + 1)).map.state = .pre := by simp [run_succ_map, FlashMap.edge, hs, hen', hv', hm]
      simp [remaining, hst, sentFrames]
    | false =>
      cases hc : (FlashMap.ctrl (run i t).map (ports i t)).cmdEn with
      | true =>
        have hst : (run i (t + 1)).map.state = .cmd := by simp [run_succ_map, FlashMap.edge, hs, hen', hv', hm, hc]
        simp [remaining, hst, sentFrames, ctrlAt, hc]
      | false =>
        have hst : (run i (t + 1)).map.state = .addr := by simp [run_succ_map, FlashMap.edge, hs, hen', hv', hm, hc]
        have hcn : (run i (t + 1)).map.cnt = 0#4 := by simp [run_succ_map, FlashMap.edge, hs, hcnt]
        simp [remaining, hst, sentFrames, ctrlAt, hc, hcn, Format.addrFrames]

/-- Up to its answer, a transaction keeps the flash map busy with its address. -/
theorem Takes.busy (ht : Takes i t) (hp : ∀ m, t < m → m ≤ t + n → ¬ Answers i m) :
    (run i (t + n + 1)).aAddress = (i t).aBits.address ∧ (run i (t + n + 1)).map.state ≠ .idle := by
  induction n with
  | zero =>
    obtain ⟨haddr, hi, -⟩ := ht.next (f := ctrlAt i t)
    exact ⟨haddr, hi⟩
  | succ n ih =>
    obtain ⟨haddr, hi⟩ := ih fun m h1 h2 => hp m h1 (by omega)
    have ha : FlashMap.answers (run i (t + n + 1)).map (ports i (t + n + 1)) = false := by
      rw [← Bool.not_eq_true, ← answers_iff hi]
      exact hp _ (by omega) (by omega)
    exact ⟨(aAddress_succ hi).trans haddr, FlashMap.busy_edge hi ha⟩

/-- Up to its answer, a transaction has pushed all frames but the remaining ones. -/
theorem Takes.frames (ht : Takes i t) (hf : ∀ m, t < m → m ≤ t + n → Sends i m → ctrlAt i m = f)
    (hp : ∀ m, t < m → m ≤ t + n → ¬ Answers i m) :
    framesFrom i t (n + 1) ++ remaining f (addrAt i t) (run i (t + n + 1)).map =
      sentFrames f (addrAt i t) (FlashMap.merge (ports i t)) (ctrlAt i t).cmdEn := by
  induction n with
  | zero =>
    obtain ⟨-, -, hpush, hrem⟩ := ht.next (f := f)
    rw [framesFrom, log_succ, log_zero, List.nil_append]
    simpa [hpush] using hrem
  | succ n ih =>
    have hlog := ih (fun m h1 h2 => hf m h1 (by omega)) (fun m h1 h2 => hp m h1 (by omega))
    obtain ⟨haddr, hi⟩ := ht.busy (n := n) fun m h1 h2 => hp m h1 (by omega)
    have ha : FlashMap.answers (run i (t + n + 1)).map (ports i (t + n + 1)) = false := by
      rw [← Bool.not_eq_true, ← answers_iff hi]
      exact hp _ (by omega) (by omega)
    have hhold : (ports i (t + n + 1)).addrHold = addrAt i t := congrArg flashAddr haddr
    have hrem := FlashMap.remaining_edge (f := f) hi (hf (t + n + 1) (by omega) (by omega)) ha
    rw [hhold] at hrem
    rw [← hlog, hrem, ← List.append_assoc]
    rfl

/-- A transaction ends with the byte that the link received last. -/
theorem Transaction.answered (h : Transaction i t e) :
    (run i e).map.state = .dataPost ∧ (i e).linkRxValid = true ∧ FlashMap.pushed (run i e).map (ports i e) = none := by
  obtain ⟨n, rfl⟩ : ∃ n, e = t + n + 1 := ⟨e - t - 1, by have := h.lt; omega⟩
  obtain ⟨-, hi⟩ := h.takes.busy (n := n) fun m h1 h2 => h.pending m h1 (by omega)
  have ha := (answers_iff hi).1 h.answers
  rw [FlashMap.answers, Bool.and_eq_true, Bool.and_eq_true, beq_iff_eq] at ha
  exact ⟨ha.1.1, ha.1.2, by simp [FlashMap.pushed, FlashMap.sends, FlashMap.linkTxValid, ha.1.1]⟩

/-- The frames of a transaction whose frames all follow the format `f`. -/
theorem Transaction.framesFrom_eq (h : Transaction i t e)
    (hf : ∀ m, t < m → m < e → Sends i m → ctrlAt i m = f) :
    framesFrom i t (e + 1 - t) = sentFrames f (addrAt i t) (FlashMap.merge (ports i t)) (ctrlAt i t).cmdEn := by
  obtain ⟨hst, -, hpush⟩ := h.answered
  obtain ⟨n, rfl⟩ : ∃ n, e = t + n + 1 := ⟨e - t - 1, by have := h.lt; omega⟩
  have hlog := h.takes.frames (f := f) (n := n) (fun m h1 h2 => hf m h1 (by omega))
    fun m h1 h2 => h.pending m h1 (by omega)
  rw [← hlog, show t + n + 1 + 1 - t = n + 1 + 1 by omega, framesFrom, log_succ, ← Nat.add_assoc, hpush]
  simp [framesFrom, remaining, hst]

/-- A read that is merged pushes nothing, and then its data frame. -/
theorem Takes.frames_of_merges (ht : Takes i t) (hm : Merges i t) (hp : ∀ m, t < m → m ≤ t + n → ¬ Answers i m) :
    (run i (t + n + 1)).map.state = .pre ∧ framesFrom i t (n + 1) = [] ∧
      (∀ m, t < m → m ≤ t + n → ¬ Sends i m) ∨
    (run i (t + n + 1)).map.state = .dataPost ∧
      ∃ p, t < p ∧ p ≤ t + n ∧ DataFrame i p ∧ framesFrom i t (n + 1) = [(ctrlAt i p).dataFrame] ∧
        ∀ m, t < m → m ≤ t + n → Sends i m → m = p := by
  induction n with
  | zero =>
    obtain ⟨-, -, hpush, -⟩ := ht.next (f := ctrlAt i t)
    obtain ⟨hs, hen, hv⟩ := ht
    have hen' : (ports i t).en = true := hen
    have hv' : (ports i t).addrValid = true := hv
    have hm' : FlashMap.merge (ports i t) = true := hm
    left
    refine ⟨by simp [run_succ_map, FlashMap.edge, hs, hen', hv', hm'], ?_, fun m h1 h2 => by omega⟩
    simp [framesFrom, log_succ, hpush]
  | succ n ih =>
    have hlog : framesFrom i t (n + 1 + 1) =
        framesFrom i t (n + 1) ++ (FlashMap.pushed (run i (t + n + 1)).map (ports i (t + n + 1))).toList := rfl
    rw [hlog, show t + (n + 1) + 1 = t + n + 1 + 1 by omega, run_succ_map]
    rcases ih fun m h1 h2 => hp m h1 (by omega) with ⟨hs, hfr, hno⟩ | ⟨hs, p, hp1, hp2, hsend, hfr, hone⟩
    · cases hx : (ports i (t + n + 1)).linkTxReady with
      | false =>
        left
        have hns : ¬ Sends i (t + n + 1) := by simp [Sends, FlashMap.sends, hx]
        refine ⟨by simp [FlashMap.edge, hs, hx], by simp [hfr, FlashMap.pushed, FlashMap.sends, hx], fun m h1 h2 => ?_⟩
        rcases Nat.eq_or_lt_of_le h2 with rfl | h2
        · exact hns
        · exact hno m h1 (by omega)
      | true =>
        right
        have hsend : Sends i (t + n + 1) := by simp [Sends, FlashMap.sends, FlashMap.linkTxValid, hs, hx]
        have hdata : DataFrame i (t + n + 1) := ⟨hsend, by simp [link, FlashMap.link, FlashMap.linkFmtIodir, hs]⟩
        refine ⟨by simp [FlashMap.edge, hs, hx], t + n + 1, by omega, by omega, hdata, ?_, fun m h1 h2 h => ?_⟩
        · rw [hfr, FlashMap.pushed, if_pos (show FlashMap.sends _ _ = true from hsend)]
          simp [Frame.ofLink, FlashMap.link, FlashMap.linkFmtIodir, FlashMap.linkCnt, FlashMap.linkFmtProto, hs,
            Format.dataFrame, ctrlAt]
        · by_contra hne
          exact hno m h1 (by omega) h
    · right
      have ha : FlashMap.answers (run i (t + n + 1)).map (ports i (t + n + 1)) = false := by
        rw [← Bool.not_eq_true, ← answers_iff (by simp [hs])]
        exact hp _ (by omega) (by omega)
      have hns : ¬ Sends i (t + n + 1) := by simp [Sends, FlashMap.sends, FlashMap.linkTxValid, hs]
      refine ⟨FlashMap.dataPost_edge hs ha, p, hp1, by omega, hsend, ?_, fun m h1 h2 h => ?_⟩
      · simp [hfr, FlashMap.pushed, FlashMap.sends, FlashMap.linkTxValid, hs]
      · rcases Nat.eq_or_lt_of_le h2 with rfl | h2
        · exact absurd h hns
        · exact hone m h1 (by omega) h

theorem Transaction.framesFrom_of_merges (h : Transaction i t e) (hm : Merges i t) :
    ∃ p, t < p ∧ p < e ∧ DataFrame i p ∧ framesFrom i t (e + 1 - t) = [(ctrlAt i p).dataFrame] ∧
      ∀ m, t < m → m < e → Sends i m → m = p := by
  obtain ⟨hst, -, hpush⟩ := h.answered
  obtain ⟨n, rfl⟩ : ∃ n, e = t + n + 1 := ⟨e - t - 1, by have := h.lt; omega⟩
  rcases h.takes.frames_of_merges (n := n) hm fun m h1 h2 => h.pending m h1 (by omega) with
    ⟨hs, -⟩ | ⟨-, p, hp1, hp2, hsend, hfr, hone⟩
  · exact absurd (hs.symm.trans hst) (by decide)
  · refine ⟨p, hp1, by omega, hsend, ?_, fun m h1 h2 => hone m h1 (by omega)⟩
    rw [← hfr, show t + n + 1 + 1 - t = n + 1 + 1 by omega, framesFrom, log_succ, ← Nat.add_assoc, hpush]
    simp [framesFrom]

theorem Transaction.exists_sends (h : Transaction i t e) : ∃ p, t < p ∧ p < e ∧ Sends i p := by
  obtain ⟨k, hk, hke, hst, hmin⟩ :=
    exists_first (Q := fun k => (run i k).map.state = .dataPost) (show t + 1 ≤ e by have := h.lt; omega) h.answered.1
  have hne : k ≠ t + 1 := by
    rintro rfl
    obtain ⟨-, -, -, hrem⟩ := h.takes.next (f := ctrlAt i t)
    rw [remaining, hst] at hrem
    have hlen := congrArg List.length hrem
    simp only [sentFrames] at hlen
    split at hlen
    · simp at hlen
    · split at hlen <;> simp at hlen
  obtain ⟨p, rfl⟩ : ∃ p, k = p + 1 := ⟨k - 1, by omega⟩
  exact ⟨p, by omega, by omega, FlashMap.sends_of_edge (hmin p (by omega) (by omega)) hst⟩

end FlashPort
