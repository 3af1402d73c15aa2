import ZrSoc.UartReceive
import ZrSoc.Sync.Run
import Mathlib.Data.List.Basic

/-!
# What the receiver makes of its samples

From the cycle in which the idle receiver sees a low line, its states are determined by the line control register and by
the values of the filtered line half a bit later and then every `io_div` clocks (`Receiving`).  If the first of them is
low, an entry follows with the data, the errors and the break flag that the samples give (`entry_of_start`); otherwise
the receiver goes back to its idle state (`idle_of_false_start`).
-/

namespace UartRx

open Sync UartFrame

def machine : Machine State Input where
  reset := reset
  edge := edge

abbrev run (i : ℕ → Input) : ℕ → State := machine.run i

/-- The receiver is enabled, with the divider `d` and the line control `c`. -/
structure Configured (d : BitVec 16) (c : BitVec 8) (i : ℕ → Input) : Prop where
  en : ∀ n, (i n).en = true
  div : ∀ n, (i n).div = d
  lcr : ∀ n, (i n).lcr = c

/-! ### The line -/

/-- The line `j` cycles before cycle `n`; it is high under reset. -/
def before (line : ℕ → Bool) (n j : ℕ) : Bool := if n < j then true else line (n - j)

/-- The majority of the line in the last three cycles. -/
def voted (line : ℕ → Bool) (n : ℕ) : Bool :=
  before line n 1 && before line n 2 || before line n 1 && before line n 3 || before line n 2 && before line n 3

/-- The line control register and the divider are constant in a run, so the samples of a frame are determined by the
line and by the cycle `u` in which the receiver has noticed the frame. -/
def samples (line : ℕ → Bool) (d u k : ℕ) : Bool := voted line (u + 1 + d / 2 + k * d)

/-! ### The line control -/

/-- The number of data bits of a character. -/
def dataBits (c : BitVec 8) : ℕ := 5 + (c.extractLsb' 0 2).toNat

def parityOn (c : BitVec 8) : Bool := c.getLsbD 3

/-- The number of the sample of the stop bit; the start bit has sample 0. -/
def stopSample (c : BitVec 8) : ℕ := dataBits c + 1 + if parityOn c then 1 else 0

/-- The number of ones in `b` is odd. -/
def oddOnes (b : BitVec 8) : Bool := (List.range 8).foldl (fun p k => p ^^ b.getLsbD k) false

/-- The parity bit that the line control prescribes for the data `b`. -/
def prescribed (c b : BitVec 8) : Bool :=
  if c.getLsbD 5 then !c.getLsbD 4 else if c.getLsbD 4 then oddOnes b else !oddOnes b

/-- The state in which the receiver waits for sample `k`. -/
def phaseAt (c : BitVec 8) (k : ℕ) : Phase :=
  if h : 0 < k ∧ k ≤ 8 ∧ k ≤ dataBits c then .bit ⟨k - 1, by omega⟩
  else if k = 0 then .start
  else if k = dataBits c + 1 ∧ parityOn c then .parity else .stop1

variable {c : BitVec 8} {d e k j t u n : ℕ} {s : State} {x : Input} {v : ℕ → Bool}

theorem dataBits_le (c : BitVec 8) : dataBits c ≤ 8 := by
  have hlt := (c.extractLsb' 0 2).isLt
  unfold dataBits
  omega

theorem dataBits_lt_stopSample (c : BitVec 8) : dataBits c < stopSample c := by
  unfold stopSample
  split <;> omega

theorem phaseAt_bit (hj : j < dataBits c) : phaseAt c (j + 1) = .bit ⟨j, Nat.lt_of_lt_of_le hj (dataBits_le c)⟩ := by
  have hle := dataBits_le c
  unfold phaseAt
  rw [dif_pos ⟨by omega, by omega, by omega⟩]
  rfl

theorem phaseAt_parity (hp : parityOn c = true) : phaseAt c (dataBits c + 1) = .parity := by
  unfold phaseAt
  rw [dif_neg (by omega), if_neg (by omega), if_pos ⟨rfl, hp⟩]

theorem phaseAt_stop : phaseAt c (stopSample c) = .stop1 := by
  have hlt := dataBits_lt_stopSample c
  unfold phaseAt
  rw [dif_neg (by omega), if_neg (by omega), if_neg]
  rintro ⟨heq, hp⟩
  rw [stopSample, if_pos hp] at heq
  omega

/-- A sample number up to that of the stop bit belongs to the start bit, a data bit, the parity bit or the stop bit. -/
theorem sample_cases (hk : k ≤ stopSample c) : k = 0 ∨ (∃ j < dataBits c, k = j + 1) ∨
    (parityOn c = true ∧ k = dataBits c + 1 ∧ stopSample c = dataBits c + 2) ∨ k = stopSample c := by
  rcases Nat.lt_or_ge (dataBits c) k with hlt | hle
  · unfold stopSample at hk ⊢
    cases hp : parityOn c with
    | true =>
      rw [hp, if_pos rfl] at hk
      obtain rfl | rfl : k = dataBits c + 1 ∨ k = dataBits c + 1 + 1 := by omega
      · exact Or.inr (Or.inr (Or.inl ⟨rfl, rfl, rfl⟩))
      · exact Or.inr (Or.inr (Or.inr rfl))
    | false =>
      rw [hp, if_neg Bool.false_ne_true] at hk
      exact Or.inr (Or.inr (Or.inr (by simp; omega)))
  · rcases Nat.eq_zero_or_pos k with h0 | h0
    · exact Or.inl h0
    · exact Or.inr (Or.inl ⟨k - 1, by omega, by omega⟩)

/-- After a data bit comes the next one, the parity bit or the stop bit. -/
theorem afterBit_eq (hc : x.lcr = c) (hj : j < dataBits c) :
    afterBit x ⟨j, Nat.lt_of_lt_of_le hj (dataBits_le c)⟩ = phaseAt c (j + 2) := by
  have hle := dataBits_le c
  have hnb : dataBits c = 5 + (c.extractLsb' 0 2).toNat := rfl
  unfold afterBit
  rw [hc]
  by_cases hlast : j + 1 < dataBits c
  · rw [if_pos (show j < 4 + (c.extractLsb' 0 2).toNat by omega), dif_pos (show j + 1 < 8 by omega),
      phaseAt_bit hlast]
  · have heq : dataBits c = j + 1 := by omega
    rw [if_neg (show ¬ j < 4 + (c.extractLsb' 0 2).toNat by omega), afterData, hc]
    cases hp : c.getLsbD 3 with
    | true => rw [if_pos rfl, ← phaseAt_parity hp, heq]
    | false =>
      have hstop : stopSample c = j + 2 := by
        rw [stopSample, show parityOn c = false from hp, if_neg Bool.false_ne_true, heq]
      rw [if_neg Bool.false_ne_true, ← hstop, phaseAt_stop]

/-! ### The data and the errors of the samples `v` -/

def byteOf (g : ℕ → Bool) : BitVec 8 :=
  BitVec.ofBool (g 7) ++ BitVec.ofBool (g 6) ++ BitVec.ofBool (g 5) ++ BitVec.ofBool (g 4) ++ BitVec.ofBool (g 3) ++
    BitVec.ofBool (g 2) ++ BitVec.ofBool (g 1) ++ BitVec.ofBool (g 0)

theorem getLsbD_byteOf (g : ℕ → Bool) (hj : j < 8) : (byteOf g).getLsbD j = g j := by
  have hcases : j = 0 ∨ j = 1 ∨ j = 2 ∨ j = 3 ∨ j = 4 ∨ j = 5 ∨ j = 6 ∨ j = 7 := by omega
  unfold byteOf
  simp only [SingleBit.getLsbD_append_ofBool, BitVec.getLsbD_ofBool]
  rcases hcases with rfl | rfl | rfl | rfl | rfl | rfl | rfl | rfl <;> simp

/-- The data bits are the samples after that of the start bit. -/
def sampledData (c : BitVec 8) (v : ℕ → Bool) : BitVec 8 := byteOf fun j => decide (j < dataBits c) && v (j + 1)

def sampledParityError (c : BitVec 8) (v : ℕ → Bool) : Bool :=
  parityOn c && v (dataBits c + 1) != prescribed c (sampledData c v)

/-- What the receiver hands over with a character. -/
structure Entry where
  bits : BitVec 8
  parityError : Bool
  framingError : Bool
  breakError : Bool
  deriving DecidableEq, Repr

def entry (s : State) : Option Entry :=
  if outValid s then some ⟨outBits s, s.parityError, s.framingError, s.breakError⟩ else none

def sampledEntry (c : BitVec 8) (v : ℕ → Bool) : Entry where
  bits := sampledData c v
  parityError := sampledParityError c v
  framingError := !v (stopSample c)
  breakError := !v (stopSample c) && sampledData c v == 0#8 && !sampledParityError c v

theorem getLsbD_sampledData (hj : j < 8) :
    (sampledData c v).getLsbD j = (decide (j < dataBits c) && v (j + 1)) := getLsbD_byteOf _ hj

/-- The receiver waits for sample `k`, and its buffer has the data and the parity error of the samples `v` before. -/
structure Receiving (c : BitVec 8) (d : ℕ) (v : ℕ → Bool) (k e : ℕ) (s : State) : Prop where
  state : s.rxState = phaseAt c k
  push : s.pushRxFifo = false
  counting : Counting d e (sampleAt d k) s
  buffer : ∀ j < 11, s.rxBuffer.getLsbD j = (decide (j < dataBits c ∧ j + 1 < k) && v (j + 1) ||
    decide (j = 9 ∧ dataBits c + 1 < k) && sampledParityError c v)

theorem phaseAt_ne : phaseAt c k ≠ .idle ∧ phaseAt c k ≠ .stop2 := by
  unfold phaseAt
  split
  · exact ⟨by simp, by simp⟩
  · split
    · exact ⟨by simp, by simp⟩
    · split
      · exact ⟨by simp, by simp⟩
      · exact ⟨by simp, by simp⟩

theorem Receiving.ne_idle (hr : Receiving c d v k e s) : s.rxState ≠ .idle := by
  rw [hr.state]
  exact phaseAt_ne.1

theorem Receiving.ne_stop2 (hr : Receiving c d v k e s) : s.rxState ≠ .stop2 := by
  rw [hr.state]
  exact phaseAt_ne.2

theorem Receiving.next_wait (hr : Receiving c x.div.toNat v k e s) (hd : 2 ≤ x.div.toNat) (he : s.enable = false) :
    Receiving c x.div.toNat v k (e + 1) (edge s x) := by
  obtain ⟨hs', hp', hb'⟩ := edge_wait (x := x) hr.ne_idle hr.ne_stop2 he
  have hnext := hr.counting.next hr.ne_idle hd
  rw [he, if_neg Bool.false_ne_true] at hnext
  exact ⟨hs'.trans hr.state, hp'.trans hr.push, hnext, fun j hj => by rw [hb', hr.buffer j hj]⟩

/-- After the data bits the buffer has the data, and so the prescribed parity bit is compared. -/
theorem Receiving.outBits_eq (hr : Receiving c d v k e s) (hk : dataBits c < k) : outBits s = sampledData c v := by
  have hle := dataBits_le c
  apply BitVec.eq_of_getLsbD_eq
  intro j hj
  rw [outBits, BitVec.getLsbD_extractLsb', Nat.zero_add, hr.buffer j (by omega), getLsbD_sampledData hj,
    decide_eq_true hj, Bool.true_and, decide_eq_false (show ¬ (j = 9 ∧ dataBits c + 1 < k) by omega), Bool.false_and,
    Bool.or_false]
  congr 1
  exact decide_eq_decide.2 (by omega)

theorem xorBuffer_eq (hhigh : ∀ j, 8 ≤ j → j < 11 → s.rxBuffer.getLsbD j = false) :
    xorBuffer s = oddOnes (outBits s) := by
  have hlow : ∀ j < 8, (outBits s).getLsbD j = s.rxBuffer.getLsbD j := by
    intro j hj
    rw [outBits, BitVec.getLsbD_extractLsb', Nat.zero_add, decide_eq_true hj, Bool.true_and]
  have hsplit : List.range 11 = List.range 8 ++ [8, 9, 10] := rfl
  unfold xorBuffer oddOnes
  rw [hsplit, List.foldl_append]
  simp only [List.foldl_cons, List.foldl_nil, hhigh 8 (by omega) (by omega), hhigh 9 (by omega) (by omega),
    hhigh 10 (by omega) (by omega), Bool.xor_false]
  exact List.foldl_ext _ _ _ fun p j hj => by rw [hlow j (List.mem_range.1 hj)]

theorem Receiving.parityBit_eq (hr : Receiving c d v (dataBits c + 1) e s) (hc : x.lcr = c) (hp : parityOn c = true)
    (hv : filteredRxd s = v (dataBits c + 1)) : parityBit s x = sampledParityError c v := by
  have hle := dataBits_le c
  have hxor : xorBuffer s = oddOnes (sampledData c v) := by
    rw [← hr.outBits_eq (Nat.lt_succ_self _)]
    apply xorBuffer_eq
    intro j hj hj'
    rw [hr.buffer j hj', decide_eq_false (show ¬ (j < dataBits c ∧ j + 1 < dataBits c + 1) by omega),
      decide_eq_false (show ¬ (j = 9 ∧ dataBits c + 1 < dataBits c + 1) by omega)]
    rfl
  have h3 : c.getLsbD 3 = true := hp
  unfold parityBit sampledParityError prescribed
  rw [hp, hc, hxor, hv, h3]
  cases c.getLsbD 5 <;> cases c.getLsbD 4 <;> cases v (dataBits c + 1) <;> cases oddOnes (sampledData c v) <;> rfl

theorem Receiving.next_count (hr : Receiving c x.div.toNat v k e s) (hd : 2 ≤ x.div.toNat) (he : s.enable = true) :
    e = sampleAt x.div.toNat k ∧ Counting x.div.toNat (e + 1) (sampleAt x.div.toNat (k + 1)) (edge s x) := by
  have heq := hr.counting.enable
  have hnext := hr.counting.next hr.ne_idle hd
  rw [he] at heq
  rw [he, if_pos rfl, ← sampleAt_succ] at hnext
  exact ⟨of_decide_eq_true heq.symm, hnext⟩

/-- A sample before the stop bit: `v` has the value of the filtered line. -/
theorem Receiving.next_sample (hr : Receiving c x.div.toNat v k e s) (hd : 2 ≤ x.div.toNat) (hc : x.lcr = c)
    (he : s.enable = true) (hk : k < stopSample c) (h0 : v 0 = false) (hv : filteredRxd s = v k) :
    Receiving c x.div.toNat v (k + 1) (e + 1) (edge s x) := by
  have hle := dataBits_le c
  have hcount := (hr.next_count hd he).2
  rcases sample_cases (Nat.le_of_lt hk) with rfl | ⟨j, hj, rfl⟩ | ⟨hp, rfl, hstop⟩ | rfl
  · obtain ⟨hs', hp', hb'⟩ := edge_start (x := x) hr.state he (hv.trans h0)
    have hpos : 0 < dataBits c := by
      unfold dataBits
      omega
    refine ⟨hs'.trans (phaseAt_bit hpos).symm, hp'.trans hr.push, hcount, fun i hi => ?_⟩
    rw [hb', hr.buffer i hi]
    grind
  · obtain ⟨hs', hp', hb'⟩ := edge_bit (x := x) (hr.state.trans (phaseAt_bit hj)) he
    refine ⟨hs'.trans (afterBit_eq hc hj), hp'.trans hr.push, hcount, fun i hi => ?_⟩
    rw [hb', getLsbD_setBuffer hi, hv, hr.buffer i hi]
    simp only
    grind
  · obtain ⟨hs', hp', hb'⟩ := edge_parity (x := x) (hr.state.trans (phaseAt_parity hp)) he
    have hnext : phaseAt c (dataBits c + 2) = .stop1 := by rw [← hstop, phaseAt_stop]
    refine ⟨hs'.trans hnext.symm, hp'.trans hr.push, hcount, fun i hi => ?_⟩
    rw [hb', getLsbD_setBuffer hi, hr.parityBit_eq hc hp hv, hr.buffer i hi]
    grind
  · omega

/-- The receiver has the entry of the samples `v` but for the two flags that follow in the next cycle. -/
structure Complete (c : BitVec 8) (v : ℕ → Bool) (s : State) : Prop where
  state : s.rxState = .stop2
  bits : outBits s = sampledData c v
  parityError : s.parityError = sampledParityError c v
  framingError : s.rxBuffer.getLsbD 8 = !v (stopSample c)
  breakError : s.rxBuffer.getLsbD 10 =
    (!v (stopSample c) && sampledData c v == 0#8 && !sampledParityError c v)

theorem outBits_setBuffer {w : Bool} {b : BitVec 11} (hk : 8 ≤ k) :
    outBits { s with rxBuffer := setBuffer { s with rxBuffer := b } k w } = outBits { s with rxBuffer := b } := by
  apply BitVec.eq_of_getLsbD_eq
  intro j hj
  unfold outBits
  rw [BitVec.getLsbD_extractLsb', BitVec.getLsbD_extractLsb', Nat.zero_add, getLsbD_setBuffer (by omega),
    if_neg (by omega)]

theorem Receiving.parityError_eq (hr : Receiving c d v (stopSample c) e s) :
    s.rxBuffer.getLsbD 9 = sampledParityError c v := by
  have hle := dataBits_le c
  rw [hr.buffer 9 (by omega), decide_eq_false (show ¬ (9 < dataBits c ∧ 9 + 1 < stopSample c) by omega),
    Bool.false_and, Bool.false_or]
  unfold stopSample sampledParityError
  cases parityOn c with
  | true => simp
  | false => simp

theorem buffer_eq_zero_iff : s.rxBuffer = 0#11 ↔
    outBits s = 0#8 ∧ ∀ j, 8 ≤ j → j < 11 → s.rxBuffer.getLsbD j = false := by
  constructor
  · intro h
    unfold outBits
    rw [h]
    exact ⟨rfl, fun j _ _ => by simp⟩
  · rintro ⟨hlow, hhigh⟩
    apply BitVec.eq_of_getLsbD_eq
    intro j hj
    rcases Nat.lt_or_ge j 8 with hj8 | hj8
    · have hbit := congrArg (fun b => b.getLsbD j) hlow
      simp only [outBits, BitVec.getLsbD_extractLsb', Nat.zero_add, decide_eq_true hj8, Bool.true_and] at hbit
      rw [hbit]
      simp
    · rw [hhigh j hj8 hj]
      simp

theorem Receiving.buffer_eq_zero_iff (hr : Receiving c d v (stopSample c) e s) :
    s.rxBuffer = 0#11 ↔ sampledData c v = 0#8 ∧ sampledParityError c v = false := by
  have hle := dataBits_le c
  rw [UartRx.buffer_eq_zero_iff, hr.outBits_eq (dataBits_lt_stopSample c), ← hr.parityError_eq]
  constructor
  · rintro ⟨hdata, hhigh⟩
    exact ⟨hdata, hhigh 9 (by omega) (by omega)⟩
  · rintro ⟨hdata, hparity⟩
    refine ⟨hdata, fun j hj hj' => ?_⟩
    by_cases h9 : j = 9
    · rw [h9, hparity]
    · rw [hr.buffer j hj', decide_eq_false (show ¬ (j < dataBits c ∧ j + 1 < stopSample c) by omega),
        decide_eq_false (show ¬ (j = 9 ∧ dataBits c + 1 < stopSample c) by omega)]
      rfl

/-- The sample of the stop bit. -/
theorem Receiving.next_stop (hr : Receiving c x.div.toNat v (stopSample c) e s) (he : s.enable = true)
    (hv : filteredRxd s = v (stopSample c)) : Complete c v (edge s x) ∧ (edge s x).pushRxFifo = false := by
  have hs : s.rxState = .stop1 := hr.state.trans phaseAt_stop
  obtain ⟨hs', hp', hb'⟩ := edge_stop1 (x := x) hs he
  refine ⟨⟨hs', ?_, ?_, ?_, ?_⟩, hp'.trans hr.push⟩
  · have hout : outBits (edge s x) = outBits { s with rxBuffer := (edge s x).rxBuffer } := rfl
    rw [hout, hb', outBits_setBuffer (by omega), outBits_setBuffer (by omega)]
    exact hr.outBits_eq (dataBits_lt_stopSample c)
  · rw [edge_parityError, if_pos hs, hr.parityError_eq]
  · rw [hb', getLsbD_setBuffer (by omega), if_neg (by omega), getLsbD_setBuffer (by omega), if_pos rfl, hv]
  · rw [hb', getLsbD_setBuffer (by omega), if_pos rfl, hv, Bool.and_assoc]
    congr 1
    rw [Bool.eq_iff_iff]
    simp [hr.buffer_eq_zero_iff]

/-- The entry is handed over in the cycle after the second stop state. -/
theorem Complete.next (hc : Complete c v s) :
    entry (edge s x) = some (sampledEntry c v) ∧ (edge s x).rxState = .idle := by
  obtain ⟨hs', hp', hb'⟩ := edge_stop2 (x := x) hc.state
  have hbits : outBits (edge s x) = sampledData c v := by
    rw [← hc.bits]
    unfold outBits
    rw [hb']
  have hne : s.rxState ≠ .stop1 := by simp [hc.state]
  refine ⟨?_, hs'⟩
  rw [entry, outValid, hp', if_pos rfl, hbits, edge_parityError, if_neg hne, hc.parityError, edge_framingError,
    if_pos hc.state, hc.framingError, edge_breakError, if_pos hc.state, hc.breakError]
  rfl

/-! ### The runs of the receiver -/

/-- The counter is where the next start bit needs it. -/
structure Steady (d : ℕ) (s : State) : Prop where
  idle : s.rxState = .idle → s.dlc.toNat ≠ 0
  enable : s.rxState ≠ .idle → s.enable = true → s.dlc.toNat + 1 = d
  stop2 : s.rxState = .stop2 → s.dlc.toNat + 2 = d

theorem edge_dlc_reload (hs : s.rxState ≠ .idle) (h0 : s.dlc.toNat = 0) (hd : 2 ≤ x.div.toNat) :
    (edge s x).dlc.toNat + 1 = x.div.toNat := by
  have hlt := x.div.isLt
  have hz : s.dlc = 0#16 := BitVec.eq_of_toNat_eq h0
  rw [edge_dlc, if_neg hs, if_pos hz, BitVec.toNat_sub]
  simp
  omega

theorem edge_dlc_count (hs : s.rxState ≠ .idle) (h0 : s.dlc.toNat ≠ 0) :
    (edge s x).dlc.toNat + 1 = s.dlc.toNat := by
  have hlt := s.dlc.isLt
  have hz : s.dlc ≠ 0#16 := by
    intro heq
    rw [heq] at h0
    simp at h0
  rw [edge_dlc, if_neg hs, if_neg hz, BitVec.toNat_sub]
  simp
  omega

theorem edge_enable_iff (hd : 2 ≤ x.div.toNat) : (edge s x).enable = true ↔ s.dlc.toNat = 0 := by
  have hne : x.div ≠ 0#16 := by
    intro heq
    rw [heq] at hd
    simp at hd
  rw [edge_enable, Bool.and_eq_true, bne_iff_ne, beq_iff_eq]
  constructor
  · rintro ⟨-, h0⟩
    rw [h0]
    rfl
  · intro h0
    exact ⟨hne, BitVec.eq_of_toNat_eq h0⟩

/-- The second stop state follows the sample of the first one. -/
theorem edge_stop2_iff : (edge s x).rxState = .stop2 ↔ s.rxState = .stop1 ∧ s.enable = true := by
  cases h : s.rxState with
  | bit k =>
    have hafter : afterBit x k ≠ .stop2 := by
      unfold afterBit afterData
      split
      · split
        · simp
        · split <;> simp
      · split <;> simp
    cases he : s.enable <;> simp [edge, h, sample, he, hafter]
  | idle => cases hst : rxStart s x <;> simp [edge, h, sample, hst]
  | start => cases he : s.enable <;> cases hf : filteredRxd s <;> simp [edge, h, sample, he, hf]
  | parity => cases he : s.enable <;> simp [edge, h, sample, he]
  | stop1 => cases he : s.enable <;> simp [edge, h, sample, he]
  | stop2 => simp [edge, h, sample]

theorem Steady.next (hst : Steady x.div.toNat s) (hd : 8 ≤ x.div.toNat) : Steady x.div.toNat (edge s x) := by
  by_cases hs : s.rxState = .idle
  · -- half a bit is preset
    have hdlc := edge_dlc_idle (x := x) hs (by omega)
    have hne : (edge s x).enable ≠ true := fun he => hst.idle hs ((edge_enable_iff (by omega)).1 he)
    refine ⟨fun _ => by omega, fun _ he => absurd he hne, fun hs2 => ?_⟩
    obtain ⟨hs1, -⟩ := edge_stop2_iff.1 hs2
    rw [hs] at hs1
    simp at hs1
  · refine ⟨fun hs' => ?_, fun _ he => ?_, fun hs2 => ?_⟩
    · -- back to idle from the sample of the start bit or from the second stop state
      have hcause : s.rxState = .stop2 ∨ s.enable = true := by
        by_cases h2 : s.rxState = .stop2
        · exact Or.inl h2
        · by_contra hno
          push Not at hno
          obtain ⟨hkeep, -, -⟩ := edge_wait (x := x) hs h2 (Bool.eq_false_iff.2 hno.2)
          exact hs (hkeep.symm.trans hs')
      have hcount : s.dlc.toNat + 2 = x.div.toNat ∨ s.dlc.toNat + 1 = x.div.toNat := by
        rcases hcause with h2 | he
        · exact Or.inl (hst.stop2 h2)
        · exact Or.inr (hst.enable hs he)
      have := edge_dlc_count (x := x) hs (by omega)
      omega
    · exact edge_dlc_reload hs ((edge_enable_iff (by omega)).1 he) (by omega)
    · obtain ⟨-, he⟩ := edge_stop2_iff.1 hs2
      have h1 := hst.enable hs he
      have := edge_dlc_count (x := x) hs (by omega)
      omega

theorem filter_run (i : ℕ → Input) (n : ℕ) :
    ∀ j < 3, (run i n).filter.getLsbD j = before (fun m => (i m).in_) n (j + 1) := by
  induction n with
  | zero =>
    intro j hj
    have hreset : (run i 0).filter = 7#3 := rfl
    rw [before, if_pos (Nat.succ_pos j), hreset]
    obtain rfl | rfl | rfl : j = 0 ∨ j = 1 ∨ j = 2 := by omega
    all_goals rfl
  | succ n ih =>
    intro j hj
    have hedge : (run i (n + 1)).filter.getLsbD j = _ := getLsbD_edge_filter hj
    rw [hedge]
    cases j with
    | zero => simp [before]
    | succ j =>
      rw [if_neg (Nat.succ_ne_zero j), Nat.add_sub_cancel, ih j (by omega)]
      unfold before
      by_cases hlt : n < j + 1
      · rw [if_pos hlt, if_pos (by omega)]
      · rw [if_neg hlt, if_neg (by omega), Nat.add_sub_add_right]

theorem filteredRxd_run (i : ℕ → Input) (n : ℕ) : filteredRxd (run i n) = voted (fun m => (i m).in_) n := by
  unfold filteredRxd voted
  rw [filter_run i n 0 (by omega), filter_run i n 1 (by omega), filter_run i n 2 (by omega)]
  cases before (fun m => (i m).in_) n (0 + 1) <;> cases before (fun m => (i m).in_) n (1 + 1) <;>
    cases before (fun m => (i m).in_) n (2 + 1) <;> rfl

section

variable {i : ℕ → Input} {d : BitVec 16}

theorem Configured.steady (hc : Configured d c i) (hd : 8 ≤ d.toNat) (hn : 0 < n) : Steady d.toNat (run i n) := by
  induction n, hn using Nat.le_induction with
  | base =>
    have hidle : (run i 1).rxState = .idle := (edge_idle (s := reset) (x := i 0) rfl rfl).1
    have hdlc : (run i 1).dlc.toNat + 1 = (i 0).div.toNat / 2 :=
      edge_dlc_idle (s := reset) (x := i 0) rfl (by rw [hc.div]; omega)
    rw [hc.div] at hdlc
    change Steady d.toNat (run i 1)
    exact ⟨fun _ => by omega, fun hne => absurd hidle hne, fun h2 => by rw [hidle] at h2; simp at h2⟩
  | succ n hn ih =>
    rw [← hc.div n] at ih hd ⊢
    exact ih.next hd

/-- In cycle `u` the idle receiver notices a low line. -/
structure Noticed (i : ℕ → Input) (u : ℕ) : Prop where
  idle : (run i u).rxState = .idle
  low : voted (fun m => (i m).in_) u = false

/-- The receiver waits for sample `k` of the frame that it has noticed in cycle `u`. -/
abbrev ReceivingAt (c : BitVec 8) (d : BitVec 16) (i : ℕ → Input) (u k n : ℕ) : Prop :=
  Receiving c d.toNat (samples (fun m => (i m).in_) d.toNat u) k (n + 2 - u) (run i n)

theorem Noticed.pos (hu : Noticed i u) : 0 < u := by
  rcases Nat.eq_zero_or_pos u with rfl | hpos
  · have hlow := hu.low
    simp [voted, before] at hlow
  · exact hpos

theorem Noticed.next (hu : Noticed i u) (hc : Configured d c i) (hd : 8 ≤ d.toNat) :
    ReceivingAt c d i u 0 (u + 1) := by
  have hlow : filteredRxd (run i u) = false := (filteredRxd_run i u).trans hu.low
  obtain ⟨hs', hp', hb'⟩ := edge_detected (x := i u) hu.idle hlow (hc.en u)
  have hdlc := edge_dlc_idle (x := i u) hu.idle (by rw [hc.div]; omega)
  have hne := (hc.steady hd hu.pos).idle hu.idle
  have hen : ¬ (edge (run i u) (i u)).enable = true := fun he =>
    hne ((edge_enable_iff (by rw [hc.div]; omega)).1 he)
  rw [hc.div] at hdlc
  have he : u + 1 + 2 - u = 3 := by omega
  have hsample : sampleAt d.toNat 0 = 3 + d.toNat / 2 := by simp [sampleAt]
  unfold ReceivingAt
  rw [he]
  refine ⟨hs', hp', ⟨?_, ?_, ?_⟩, fun j hj => ?_⟩
  · rw [hsample]
    omega
  · rw [hsample, decide_eq_false (by omega)]
    exact Bool.eq_false_iff.2 hen
  · rw [hsample, if_neg (by omega)]
    change (edge (run i u) (i u)).dlc.toNat + 1 + 3 = _
    omega
  · change (edge (run i u) (i u)).rxBuffer.getLsbD j = _
    rw [hb']
    simp

theorem sampled_run (hu : u + 1 ≤ n) (he : n + 2 - u = sampleAt d.toNat k) :
    filteredRxd (run i n) = samples (fun m => (i m).in_) d.toNat u k := by
  rw [filteredRxd_run, samples]
  unfold sampleAt at he
  congr 1
  omega

/-- The receiver waits for the sample of the start bit. -/
theorem Noticed.waiting (hu : Noticed i u) (hc : Configured d c i) (hd : 8 ≤ d.toNat) (hn : u < n)
    (hle : n + 2 - u ≤ sampleAt d.toNat 0) : ReceivingAt c d i u 0 n := by
  induction n, hn using Nat.le_induction with
  | base => exact hu.next hc hd
  | succ n hn ih =>
    have hr := ih (by omega)
    have hen : (run i n).enable = false := by
      rw [hr.counting.enable]
      exact decide_eq_false (by omega)
    have he : n + 1 + 2 - u = n + 2 - u + 1 := by omega
    unfold ReceivingAt at hr ⊢
    rw [he]
    rw [← hc.div n] at hr hd ⊢
    exact hr.next_wait (by omega) hen

/-- A low start bit is followed by the samples of the other bits. -/
theorem Noticed.receiving (hu : Noticed i u) (hc : Configured d c i) (hd : 8 ≤ d.toNat)
    (h0 : samples (fun m => (i m).in_) d.toNat u 0 = false) (hn : u < n)
    (hle : n + 2 - u ≤ sampleAt d.toNat (stopSample c)) : ∃ k ≤ stopSample c, ReceivingAt c d i u k n := by
  induction n, hn using Nat.le_induction with
  | base => exact ⟨0, Nat.zero_le _, hu.next hc hd⟩
  | succ n hn ih =>
    obtain ⟨k, hk, hr⟩ := ih (by omega)
    have he : n + 1 + 2 - u = n + 2 - u + 1 := by omega
    have hdiv := hc.div n
    unfold ReceivingAt at hr ⊢
    rw [he]
    cases hen : (run i n).enable with
    | false =>
      rw [← hdiv] at hr hd ⊢
      exact ⟨k, hk, hr.next_wait (by omega) hen⟩
    | true =>
      have heq : n + 2 - u = sampleAt d.toNat k := by
        have heq := hr.counting.enable
        rw [hen] at heq
        exact of_decide_eq_true heq.symm
      have hlt : k < stopSample c := by
        rcases Nat.eq_or_lt_of_le hk with rfl | hlt
        · omega
        · exact hlt
      have hv := sampled_run (i := i) (u := u) hn heq
      rw [← hdiv] at hr hd h0 hv ⊢
      exact ⟨k + 1, hlt, hr.next_sample (by omega) (hc.lcr n) hen hlt h0 hv⟩

theorem sampleAt_strictMono {D j k : ℕ} (hD : 0 < D) (hjk : j < k) : sampleAt D j < sampleAt D k := by
  have := Nat.mul_lt_mul_of_pos_right hjk hD
  unfold sampleAt
  omega

theorem entry_of_quiet (hp : s.pushRxFifo = false) : entry s = none := by
  unfold entry outValid
  rw [hp, if_neg Bool.false_ne_true]

/-- A frame that is noticed and whose start bit is low gives an entry after its stop bit, and only then. -/
theorem entry_of_start (hu : Noticed i u) (hc : Configured d c i) (hd : 8 ≤ d.toNat)
    (h0 : samples (fun m => (i m).in_) d.toNat u 0 = false) :
    (∀ n, u < n → n < u + sampleAt d.toNat (stopSample c) → entry (run i n) = none) ∧
      entry (run i (u + sampleAt d.toNat (stopSample c))) =
        some (sampledEntry c (samples (fun m => (i m).in_) d.toNat u)) ∧
      (run i (u + sampleAt d.toNat (stopSample c))).rxState = .idle := by
  have hlarge : 3 ≤ sampleAt d.toNat (stopSample c) := by
    unfold sampleAt
    omega
  -- the stop bit is sampled in the cycle `m`
  obtain ⟨m, hm⟩ : ∃ m, u + sampleAt d.toNat (stopSample c) = m + 2 := ⟨_, (Nat.sub_add_cancel (by omega)).symm⟩
  obtain ⟨k, hk, hr⟩ := hu.receiving hc hd h0 (n := m) (by omega) (by omega)
  obtain rfl : k = stopSample c := by
    by_contra hne
    have := sampleAt_strictMono (D := d.toNat) (by omega) (show k < stopSample c by omega)
    have := hr.counting.le
    omega
  have heq : m + 2 - u = sampleAt d.toNat (stopSample c) := by omega
  have hen : (run i m).enable = true := by
    rw [hr.counting.enable]
    exact decide_eq_true heq
  have hv := sampled_run (i := i) (u := u) (n := m) (by omega) heq
  have hstop : Complete c (samples (fun m => (i m).in_) d.toNat u) (run i (m + 1)) ∧
      (run i (m + 1)).pushRxFifo = false := by
    unfold ReceivingAt at hr
    rw [← hc.div m] at hr hv ⊢
    exact hr.next_stop hen hv
  rw [hm]
  refine ⟨fun n hn hlt => ?_, hstop.1.next⟩
  rcases Nat.lt_or_ge m n with hgt | hle
  · obtain rfl : n = m + 1 := by omega
    exact entry_of_quiet hstop.2
  · obtain ⟨k', -, hr'⟩ := hu.receiving hc hd h0 hn (by omega)
    exact entry_of_quiet hr'.push

theorem edge_false_start (hs : s.rxState = .start) (he : s.enable = true) (hf : filteredRxd s = true) :
    (edge s x).rxState = .idle ∧ (edge s x).pushRxFifo = s.pushRxFifo := by
  simp [edge, hs, he, hf, sample]

/-- A frame whose start bit is high when it is sampled is no frame. -/
theorem idle_of_false_start (hu : Noticed i u) (hc : Configured d c i) (hd : 8 ≤ d.toNat)
    (h0 : samples (fun m => (i m).in_) d.toNat u 0 = true) :
    (∀ n, u < n → n < u + sampleAt d.toNat 0 → entry (run i n) = none) ∧
      (run i (u + sampleAt d.toNat 0 - 1)).rxState = .idle := by
  have hsample : sampleAt d.toNat 0 = 3 + d.toNat / 2 := by simp [sampleAt]
  obtain ⟨m, hm⟩ : ∃ m, u + sampleAt d.toNat 0 = m + 2 := ⟨_, (Nat.sub_add_cancel (by omega)).symm⟩
  have hr := hu.waiting hc hd (n := m) (by omega) (by omega)
  have heq : m + 2 - u = sampleAt d.toNat 0 := by omega
  have hen : (run i m).enable = true := by
    rw [hr.counting.enable]
    exact decide_eq_true heq
  have hv := (sampled_run (i := i) (u := u) (n := m) (by omega) heq).trans h0
  have hs : (run i m).rxState = .start := hr.state
  obtain ⟨hs', hp'⟩ := edge_false_start (x := i m) hs hen hv
  have hprev : m + 2 - 1 = m + 1 := rfl
  rw [hm, hprev]
  refine ⟨fun n hn hlt => ?_, hs'⟩
  rcases Nat.lt_or_ge m n with hgt | hle
  · obtain rfl : n = m + 1 := by omega
    exact entry_of_quiet (hp'.trans hr.push)
  · exact entry_of_quiet (hu.waiting hc hd hn (by omega)).push

/-- A high line leaves the idle receiver idle. -/
theorem idle_next (hs : (run i n).rxState = .idle) (hv : voted (fun m => (i m).in_) n = true) :
    (run i (n + 1)).rxState = .idle ∧ entry (run i (n + 1)) = none := by
  obtain ⟨hs', hp'⟩ := edge_idle (x := i n) hs ((filteredRxd_run i n).trans hv)
  exact ⟨hs', entry_of_quiet hp'⟩

end

end UartRx
