import ZrSoc.UartModel
import ZrSoc.SingleBit
import ZrSoc.Sync.Run
import Mathlib.Algebra.Group.Nat.Defs

/-!
# The way of the testbench receiver through a frame

The two counters of the receiver say how many clocks have gone by since they were last restarted (`Counting`).  So in a
frame that began in cycle `t₀` the state is determined by the number of clocks since then (`Position`), until the
receiver fails on a bit of the wrong level or comes to the end of the first stop bit (`Outcome`): the bit counter still
has the number of data bits when the state machine comes to the stop bits.
-/

namespace UartModel

open Sync

def machine (c : Config) : Machine State Bool where
  reset := reset
  edge := edge c

abbrev run (c : Config) (line : ℕ → Bool) : ℕ → State := (machine c).run line

theorem run_succ (c : Config) (line : ℕ → Bool) (t : ℕ) : run c line (t + 1) = edge c (run c line t) (line t) := rfl

/-- What the receiver reports in a cycle. -/
structure Report where
  data : BitVec 32
  err : Bool
  deriving DecidableEq, Repr

def report (s : State) : Option Report := if s.rxRdy then some ⟨s.rxData, s.rxErr⟩ else none

/-! ### The configuration in clocks and bits -/

namespace Config

def baud (c : Config) : ℕ := c.ctrlBaudClks.toInt.toNat

def half (c : Config) : ℕ := c.baud / 2

def bits (c : Config) : ℕ := c.ctrlBits.toInt.toNat

def stops (c : Config) : ℕ := c.ctrlStops.toInt.toNat

theorem baud_lt (c : Config) : c.baud < 2 ^ 31 := by
  have := c.ctrlBaudClks.toInt_lt
  unfold baud
  omega

theorem stops_lt (c : Config) : c.stops < 2 ^ 31 := by
  have := c.ctrlStops.toInt_lt
  unfold stops
  omega

end Config

variable {c : Config} {s : State} {line : ℕ → Bool} {rxd : Bool} {b k r j t t₀ : ℕ}

theorem toInt_succ {a : Int32} (ha : a.toInt = k) (hk : k + 1 < 2 ^ 31) : (a + 1).toInt = (k + 1 : ℕ) := by
  have hone : (1 : Int32).toInt = 1 := rfl
  rw [Int32.toInt_add, ha, hone, Int.bmod_eq_of_le (by omega) (by omega)]
  rfl

theorem baudHalf_iff (hB : 2 ≤ c.baud) (hb : s.baudCnt.toInt = b) : baudHalf c s = true ↔ b = c.half := by
  have htwo : (2 : Int32).toInt = 2 := rfl
  unfold Config.baud at hB
  unfold baudHalf Config.half Config.baud
  rw [beq_iff_eq, ← Int32.toInt_inj, hb, Int32.toInt_div_of_ne_right _ _ (by decide), htwo,
    Int.tdiv_eq_ediv_of_nonneg (by omega)]
  omega

theorem baudFull_iff (hb : s.baudCnt.toInt = b) : baudFull c s = true ↔ c.baud ≤ b := by
  unfold baudFull Config.baud
  rw [decide_eq_true_iff, Int32.le_iff_toInt_le, hb]
  omega

theorem bits_lt_iff (hk : s.bitCnt.toInt = k) (hpos : 0 < k) : c.ctrlBits < s.bitCnt ↔ c.bits < k := by
  unfold Config.bits
  rw [Int32.lt_iff_toInt_lt, hk]
  omega

theorem stops_le_iff (hk : s.bitCnt.toInt = k) : c.ctrlStops ≤ s.bitCnt ↔ c.stops ≤ k := by
  unfold Config.stops
  rw [Int32.le_iff_toInt_le, hk]
  omega

/-! ### The counters -/

/-- In `r` clocks since their restart the counters have counted clocks and bit times. -/
structure Counting (c : Config) (r : ℕ) (s : State) : Prop where
  baud : s.baudCnt.toInt = (r % c.baud + 1 : ℕ)
  bit : s.bitCnt.toInt = (r / c.baud + 1 : ℕ)

theorem counting_restart (hr : s.baudCnt = 1) (hb : s.bitCnt = 1) : Counting c 0 s := by
  refine ⟨?_, ?_⟩
  · rw [hr, Nat.zero_mod]
    rfl
  · rw [hb, Nat.zero_div]
    rfl

theorem edge_restart (hrst : (comb c s rxd).baudRst = true) : Counting c 0 (edge c s rxd) := by
  apply counting_restart
  · unfold edge
    simp only [hrst, if_pos]
  · unfold edge
    simp only [hrst, if_pos]

theorem baudCnt_next (hB : 2 ≤ c.baud) (hb : s.baudCnt.toInt = (r % c.baud + 1 : ℕ))
    (hrst : (comb c s rxd).baudRst = false) : (edge c s rxd).baudCnt.toInt = ((r + 1) % c.baud + 1 : ℕ) := by
  have hlt := Nat.mod_lt r (show 0 < c.baud by omega)
  have hmax := c.baud_lt
  have hcnt : (edge c s rxd).baudCnt = if baudFull c s then 1 else s.baudCnt + 1 := by
    unfold edge
    simp only [hrst, Bool.false_eq_true, if_false]
  rw [hcnt, Nat.add_mod, Nat.mod_eq_of_lt (show 1 < c.baud by omega)]
  by_cases hfull : baudFull c s = true
  · have heq : r % c.baud + 1 = c.baud := by
      have := (baudFull_iff hb).1 hfull
      omega
    rw [if_pos hfull, heq, Nat.mod_self]
    rfl
  · have hne : r % c.baud + 1 < c.baud := by
      by_contra h
      exact hfull ((baudFull_iff hb).2 (by omega))
    rw [if_neg hfull, Nat.mod_eq_of_lt hne]
    exact toInt_succ hb (by omega)

theorem div_succ (hB : 0 < b) : (r + 1) / b = if r % b + 1 = b then r / b + 1 else r / b := by
  have hlt := Nat.mod_lt r hB
  have hr : (r + 1) / b = (b * (r / b) + (r % b + 1)) / b := by
    congr 1
    have := Nat.div_add_mod r b
    omega
  rw [hr, Nat.mul_add_div hB]
  split
  next heq => rw [heq, Nat.div_self hB]
  next hne => rw [Nat.div_eq_of_lt (show r % b + 1 < b by omega), Nat.add_zero]

theorem Counting.next (hc : Counting c r s) (hB : 2 ≤ c.baud) (hrst : (comb c s rxd).baudRst = false)
    (hstop : (comb c s rxd).rxFsmN = .stop → r % c.baud + 1 ≠ c.baud) (hr : (r + 1) / c.baud + 1 < 2 ^ 31) :
    Counting c (r + 1) (edge c s rxd) := by
  refine ⟨baudCnt_next hB hc.baud hrst, ?_⟩
  have hlt := Nat.mod_lt r (show 0 < c.baud by omega)
  have hcnt : (edge c s rxd).bitCnt =
      if baudFull c s then (if (comb c s rxd).rxFsmN = .stop then 1 else s.bitCnt + 1) else s.bitCnt := by
    unfold edge
    simp only [hrst, Bool.false_eq_true, if_false]
  rw [hcnt]
  have hdiv := div_succ (r := r) (show 0 < c.baud by omega)
  by_cases hfull : baudFull c s = true
  · have heq : r % c.baud + 1 = c.baud := by
      have := (baudFull_iff hc.baud).1 hfull
      omega
    rw [if_pos heq] at hdiv
    rw [if_pos hfull, if_neg fun h => hstop h heq, hdiv]
    exact toInt_succ hc.bit (by omega)
  · have hne : r % c.baud + 1 ≠ c.baud := fun h => hfull ((baudFull_iff hc.baud).2 (by omega))
    rw [if_neg hne] at hdiv
    rw [if_neg hfull, hdiv]
    exact hc.bit

/-! ### The positions in a frame -/

/-- The cycle in which the receiver looks at bit `k` of the frame that began in cycle `t₀`: first the data bits, then
the stop bits. -/
def sampleTime (c : Config) (t₀ k : ℕ) : ℕ := t₀ + (c.half - 1) + (k + 1) * c.baud

/-- The first `n` data bits are collected. -/
def Collected (c : Config) (line : ℕ → Bool) (t₀ n : ℕ) (x : BitVec 32) : Prop :=
  ∀ k < 32, x.getLsbD k = (decide (k < n) && line (sampleTime c t₀ k))

/-- The receiver is in the frame that began in cycle `t₀`. -/
inductive Position (c : Config) (line : ℕ → Bool) (t₀ t : ℕ) (s : State) : Prop
  | start (j : ℕ) (ht : t = t₀ + j) (hj : j < c.half) (hs : s.rxFsmQ = if j = 0 then .idle else .start)
      (hc : Counting c j s)
  | data (r : ℕ) (ht : t = t₀ + c.half + r) (hr : r < c.bits * c.baud + c.half) (hs : s.rxFsmQ = .data)
      (hc : Counting c r s) (hx : Collected c line t₀ (r / c.baud) s.rxDataInt)
  | stop (r : ℕ) (ht : t = t₀ + c.half + r) (hr : c.bits * c.baud + c.half ≤ r) (hs : s.rxFsmQ = .stop)
      (hb : s.baudCnt.toInt = (r % c.baud + 1 : ℕ))
      (hk : s.bitCnt.toInt = ((if r < (c.bits + 1) * c.baud then c.bits + 1 else 1) : ℕ))
      (hx : Collected c line t₀ c.bits s.rxDataInt) (hlate : (c.bits + 1) * c.baud ≤ r → c.bits + 1 < c.stops)

/-- The line has the level that the receiver asks for: low in the first half of the start bit and high from half a bit
after the last data sample on. -/
structure LineRight (c : Config) (line : ℕ → Bool) (t₀ t : ℕ) : Prop where
  start : t + 1 < t₀ + c.half → line t = false
  stop : t₀ + 2 * c.half + c.bits * c.baud ≤ t → line t = true

/-- What a clock does in the frame that began in cycle `t₀`. -/
inductive Outcome (c : Config) (line : ℕ → Bool) (t₀ t : ℕ) (s : State) : Prop
  | goesOn (hp : Position c line t₀ (t + 1) s) (hr : report s = none)
      (hl : LineRight c line t₀ t)
  | fails (hs : s.rxFsmQ = .recover) (hc : Counting c 0 s) (hr : report s = some ⟨0#32, true⟩)
      (hl : ¬ LineRight c line t₀ t)
  | ends (x : BitVec 32) (hs : s.rxFsmQ = .idle) (hr : report s = some ⟨x, false⟩)
      (hx : Collected c line t₀ c.bits x) (ht : t = sampleTime c t₀ c.bits) (hl : line t = true)
      (hstops : c.stops ≤ c.bits + 1)

theorem report_edge : report (edge c s rxd) =
    if (comb c s rxd).rxRdyComb then
      some ⟨if (comb c s rxd).rxErrComb then 0#32 else s.rxDataInt, (comb c s rxd).rxErrComb⟩
    else none := by
  unfold report edge
  simp only
  cases (comb c s rxd).rxRdyComb <;> rfl

theorem comb_start (hB : 2 ≤ c.baud) (hj : j < c.half) (hs : s.rxFsmQ = if j = 0 then .idle else .start)
    (hc : Counting c j s) (hlow : rxd = false ∨ j ≠ 0) : comb c s rxd =
      if j + 1 = c.half then { rxFsmN := .data, baudRst := true, rxRdyComb := false, rxErrComb := false }
      else if rxd then toRecover
      else { rxFsmN := .start, baudRst := false, rxRdyComb := false, rxErrComb := false } := by
  have hle : c.half ≤ c.baud := Nat.div_le_self _ _
  have hb := hc.baud
  rw [Nat.mod_eq_of_lt (by omega)] at hb
  have hhalf := baudHalf_iff hB hb
  unfold comb
  by_cases h0 : j = 0
  · rw [if_pos h0] at hs
    have hrxd : rxd = false := hlow.resolve_right fun h => h h0
    rw [hs, hrxd]
    by_cases heq : j + 1 = c.half
    · simp [hhalf.2 heq, heq, stay]
    · simp [Bool.eq_false_iff.2 fun h => heq (hhalf.1 h), heq, stay]
  · rw [if_neg h0] at hs
    rw [hs]
    by_cases heq : j + 1 = c.half
    · simp [hhalf.2 heq, heq, stay]
    · cases rxd with
      | true => simp [Bool.eq_false_iff.2 fun h => heq (hhalf.1 h), heq]
      | false => simp [Bool.eq_false_iff.2 fun h => heq (hhalf.1 h), heq, stay, hs]

/-- The data phase ends half a bit after the last data bit has been sampled. -/
theorem data_end_iff (hB : 2 ≤ c.baud) (hr : r < c.bits * c.baud + c.half) :
    r % c.baud + 1 = c.half ∧ c.bits ≤ r / c.baud ↔ r + 1 = c.bits * c.baud + c.half := by
  have hle : c.half ≤ c.baud := Nat.div_le_self _ _
  have hpos : 0 < c.half := Nat.div_pos hB (by omega)
  have hdm := Nat.div_add_mod r c.baud
  constructor
  · rintro ⟨hmod, hdiv⟩
    have hmul := Nat.mul_le_mul_left c.baud hdiv
    rw [Nat.mul_comm c.baud c.bits] at hmul
    omega
  · intro heq
    have hr' : r = c.baud * c.bits + (c.half - 1) := by
      rw [Nat.mul_comm]
      omega
    have hlt : c.half - 1 < c.baud := by omega
    constructor
    · rw [hr', Nat.mul_add_mod, Nat.mod_eq_of_lt hlt]
      omega
    · rw [hr', Nat.mul_add_div (by omega), Nat.div_eq_of_lt hlt]
      exact Nat.le_refl _

theorem comb_data (hB : 2 ≤ c.baud) (hr : r < c.bits * c.baud + c.half) (hs : s.rxFsmQ = .data)
    (hc : Counting c r s) : comb c s rxd =
      { rxFsmN := if r + 1 = c.bits * c.baud + c.half then .stop else .data, baudRst := false, rxRdyComb := false,
        rxErrComb := false } := by
  have hhalf := baudHalf_iff hB hc.baud
  have hbits := bits_lt_iff (c := c) hc.bit (Nat.succ_pos _)
  have hend := data_end_iff hB hr
  unfold comb
  rw [hs]
  by_cases h1 : baudHalf c s = true
  · by_cases h2 : c.ctrlBits < s.bitCnt
    · have heq := hend.1 ⟨hhalf.1 h1, Nat.lt_succ_iff.1 (hbits.1 h2)⟩
      simp [h1, h2, heq, stay]
    · have hne : ¬ r + 1 = c.bits * c.baud + c.half := fun h => h2 (hbits.2 (Nat.lt_succ_iff.2 (hend.2 h).2))
      simp [h1, h2, hne, stay]
  · have hne : ¬ r + 1 = c.bits * c.baud + c.half := fun h => h1 (hhalf.2 (hend.2 h).1)
    simp [h1, hne, stay, hs]

theorem comb_stop (hs : s.rxFsmQ = .stop) (hb : s.baudCnt.toInt = b) (hk : s.bitCnt.toInt = k) : comb c s rxd =
    if rxd = false then toRecover
    else if c.baud ≤ b ∧ c.stops ≤ k then { rxFsmN := .idle, baudRst := true, rxRdyComb := true, rxErrComb := false }
    else { rxFsmN := .stop, baudRst := false, rxRdyComb := false, rxErrComb := false } := by
  have hfull := baudFull_iff (c := c) hb
  have hstops := stops_le_iff (c := c) hk
  unfold comb
  rw [hs]
  cases rxd with
  | false => simp
  | true =>
    by_cases h1 : c.baud ≤ b
    · by_cases h2 : c.stops ≤ k
      · simp [hfull.2 h1, hstops.2 h2, h1, h2]
      · have h3 : ¬ c.ctrlStops ≤ s.bitCnt := fun h => h2 (hstops.1 h)
        simp [hfull.2 h1, -Int32.not_le, h3, h2, stay, hs]
    · simp [Bool.eq_false_iff.2 fun h => h1 (hfull.1 h), h1, stay, hs]

theorem getLsbD_setBit {x : BitVec 32} {a : Int32} {i : ℕ} (ha : a.toInt = k) (hi : i < 32) :
    (setBit x a rxd).getLsbD i = if i = k then rxd else x.getLsbD i := by
  unfold setBit
  rw [ha, Int.toNat_natCast]
  by_cases hk : k < 32
  · rw [if_pos ⟨by omega, by omega⟩]
    exact SingleBit.getLsbD_replace x rxd hi
  · rw [if_neg fun h => hk (by omega), if_neg (by omega)]

theorem toInt_pred {a : Int32} (ha : a.toInt = (k + 1 : ℕ)) : (a - 1).toInt = k := by
  have hone : (1 : Int32).toInt = 1 := rfl
  have hlt := a.toInt_lt
  rw [Int32.toInt_sub, ha, hone, Int.bmod_eq_of_le (by omega) (by omega)]
  omega

/-- The last clock of a bit time brings the next data bit. -/
theorem collected_next (hB : 2 ≤ c.baud) (hs : s.rxFsmQ = .data) (hc : Counting c r s) (ht : t = t₀ + c.half + r)
    (hx : Collected c line t₀ (r / c.baud) s.rxDataInt) (hrst : (comb c s (line t)).baudRst = false) :
    Collected c line t₀ ((r + 1) / c.baud) (edge c s (line t)).rxDataInt := by
  have hlt := Nat.mod_lt r (show 0 < c.baud by omega)
  have hpos : 0 < c.half := Nat.div_pos hB (by omega)
  have hdm := Nat.div_add_mod r c.baud
  have hdata : (edge c s (line t)).rxDataInt =
      if baudFull c s then setBit s.rxDataInt (s.bitCnt - 1) (line t) else s.rxDataInt := by
    unfold edge
    simp only [hrst, hs, Bool.false_eq_true, if_false, beq_self_eq_true, Bool.and_true]
  have hfull := baudFull_iff (c := c) hc.baud
  have hdiv := div_succ (r := r) (show 0 < c.baud by omega)
  intro i hi
  rw [hdata]
  by_cases heq : r % c.baud + 1 = c.baud
  · rw [if_pos heq] at hdiv
    rw [if_pos (hfull.2 (by omega)), getLsbD_setBit (toInt_pred hc.bit) hi, hx i hi, hdiv]
    by_cases hik : i = r / c.baud
    · have htime : t = sampleTime c t₀ i := by
        rw [sampleTime, hik, Nat.succ_mul, Nat.mul_comm]
        omega
      rw [if_pos hik, decide_eq_true (by omega), Bool.true_and, htime]
    · rw [if_neg hik]
      congr 1
      exact decide_eq_decide.2 (by omega)
  · rw [if_neg heq] at hdiv
    rw [if_neg fun h => heq (by have := hfull.1 h; omega), hx i hi, hdiv]

/-- The last clock of bit time `n`. -/
theorem last_clock_iff {n : ℕ} (hle : n * b ≤ r) (hlt : r < (n + 1) * b) :
    r % b + 1 = b ↔ r + 1 = (n + 1) * b := by
  have hdiv : r / b = n := Nat.div_eq_of_lt_le hle hlt
  have hdm := Nat.div_add_mod r b
  rw [hdiv, Nat.mul_comm] at hdm
  rw [Nat.succ_mul]
  omega

theorem report_none (h : (comb c s rxd).rxRdyComb = false) : report (edge c s rxd) = none := by
  rw [report_edge, h, if_neg Bool.false_ne_true]

theorem report_fail (h : comb c s rxd = toRecover) : report (edge c s rxd) = some ⟨0#32, true⟩ ∧
    (edge c s rxd).rxFsmQ = .recover ∧ Counting c 0 (edge c s rxd) := by
  refine ⟨?_, ?_, edge_restart (by rw [h]; rfl)⟩
  · rw [report_edge, h]
    rfl
  · unfold edge
    rw [h]
    rfl

theorem edge_rxFsmQ : (edge c s rxd).rxFsmQ = (comb c s rxd).rxFsmN := rfl

section

variable (hB : 2 ≤ c.baud)

include hB

theorem Position.next_start (ht : t = t₀ + j) (hj : j < c.half) (hs : s.rxFsmQ = if j = 0 then .idle else .start)
    (hc : Counting c j s) (hlow : line t₀ = false) : Outcome c line t₀ t (edge c s (line t)) := by
  have hle : c.half ≤ c.baud := Nat.div_le_self _ _
  have hlow' : line t = false ∨ j ≠ 0 := by
    by_cases h0 : j = 0
    · exact Or.inl (by rw [ht, h0]; exact hlow)
    · exact Or.inr h0
  have hcomb := comb_start hB hj hs hc hlow'
  by_cases hhalf : j + 1 = c.half
  · rw [if_pos hhalf] at hcomb
    have hpos : Position c line t₀ (t + 1) (edge c s (line t)) := Position.data 0 (by omega) (by omega)
      (by rw [edge_rxFsmQ, hcomb]) (edge_restart (by rw [hcomb])) (fun i hi => by
        have hx : (edge c s (line t)).rxDataInt = 0#32 := by
          unfold edge
          simp only [hcomb, if_pos]
        rw [hx, Nat.zero_div]
        simp)
    exact Outcome.goesOn hpos (report_none (by rw [hcomb])) ⟨fun h => by omega, fun h => by omega⟩
  · rw [if_neg hhalf] at hcomb
    cases hl : line t with
    | true =>
      rw [hl, if_pos rfl] at hcomb
      obtain ⟨hr, hs', hc'⟩ := report_fail hcomb
      exact Outcome.fails hs' hc' hr fun h => by
        rw [h.start (by omega)] at hl
        simp at hl
    | false =>
      rw [hl, if_neg Bool.false_ne_true] at hcomb
      have hcount : Counting c (j + 1) (edge c s false) := hc.next hB (by rw [hcomb]) (fun h => by rw [hcomb] at h; simp at h) (by
        rw [Nat.div_eq_of_lt (by omega)]
        omega)
      have hpos : Position c line t₀ (t + 1) (edge c s false) := Position.start (j + 1) (by omega)
        (by omega) (by rw [edge_rxFsmQ, hcomb, if_neg (Nat.succ_ne_zero j)]) hcount
      exact Outcome.goesOn hpos (report_none (by rw [hcomb])) ⟨fun _ => hl, fun h => by omega⟩

theorem Position.next_data (hbits : c.bits + 1 < 2 ^ 31) (ht : t = t₀ + c.half + r)
    (hr : r < c.bits * c.baud + c.half) (hs : s.rxFsmQ = .data) (hc : Counting c r s)
    (hx : Collected c line t₀ (r / c.baud) s.rxDataInt) : Outcome c line t₀ t (edge c s (line t)) := by
  have hlt : c.half < c.baud := Nat.div_lt_self (by omega) (by omega)
  have hcomb : comb c s (line t) = _ := comb_data hB hr hs hc
  have hrst : (comb c s (line t)).baudRst = false := by rw [hcomb]
  have hrep : report (edge c s (line t)) = none := report_none (by rw [hcomb])
  have hdiv : (r + 1) / c.baud ≤ c.bits := by
    have hsucc : (r + 1) / c.baud < c.bits + 1 := by
      rw [Nat.div_lt_iff_lt_mul (by omega), Nat.succ_mul]
      omega
    omega
  have hcount := hc.next hB hrst (fun h => by
    rw [hcomb] at h
    by_cases hend : r + 1 = c.bits * c.baud + c.half
    · have := ((data_end_iff hB hr).2 hend).1
      omega
    · simp [hend] at h) (by omega)
  have hx' := collected_next hB hs hc ht hx hrst
  have hright : LineRight c line t₀ t := ⟨fun h => by omega, fun h => by omega⟩
  by_cases hend : r + 1 = c.bits * c.baud + c.half
  · have hbit : (r + 1) / c.baud = c.bits := by
      rw [hend, Nat.mul_comm, Nat.mul_add_div (by omega), Nat.div_eq_of_lt hlt, Nat.add_zero]
    have hfirst : r + 1 < (c.bits + 1) * c.baud := by
      rw [Nat.succ_mul]
      omega
    have hk := hcount.bit
    rw [hbit] at hk hx'
    exact Outcome.goesOn (Position.stop (r + 1) (by omega) (by omega) (by rw [edge_rxFsmQ, hcomb, if_pos hend])
      hcount.baud (by rw [if_pos hfirst]; exact hk) hx' fun h => by omega) hrep hright
  · exact Outcome.goesOn (Position.data (r + 1) (by omega) (by omega) (by rw [edge_rxFsmQ, hcomb, if_neg hend])
      hcount hx') hrep hright

/-- The receiver leaves the stop state at the end of the first stop bit: the bit counter still has the number of the data
bits there, and later it is too small. -/
theorem stop_end (ht : t = t₀ + c.half + r) (hr : c.bits * c.baud + c.half ≤ r)
    (hlate : (c.bits + 1) * c.baud ≤ r → c.bits + 1 < c.stops) (hfull : c.baud ≤ r % c.baud + 1)
    (hstops : c.stops ≤ if r < (c.bits + 1) * c.baud then c.bits + 1 else 1) :
    t = sampleTime c t₀ c.bits ∧ c.stops ≤ c.bits + 1 := by
  have hlt := Nat.mod_lt r (show 0 < c.baud by omega)
  have hpos : 0 < c.half := Nat.div_pos hB (by omega)
  have hfirst : r < (c.bits + 1) * c.baud := by
    by_contra h
    rw [if_neg h] at hstops
    have := hlate (by omega)
    omega
  rw [if_pos hfirst] at hstops
  have heq := (last_clock_iff (n := c.bits) (r := r) (by omega) hfirst).1 (by omega)
  refine ⟨?_, hstops⟩
  unfold sampleTime
  omega

/-- In the stop state the bit counter restarts at the end of a bit time. -/
theorem bitCnt_stop (hr : c.bits * c.baud + c.half ≤ r) (hb : s.baudCnt.toInt = (r % c.baud + 1 : ℕ))
    (hk : s.bitCnt.toInt = ((if r < (c.bits + 1) * c.baud then c.bits + 1 else 1) : ℕ))
    (hrst : (comb c s rxd).baudRst = false) (hfsm : (comb c s rxd).rxFsmN = .stop) :
    (edge c s rxd).bitCnt.toInt = ((if r + 1 < (c.bits + 1) * c.baud then c.bits + 1 else 1) : ℕ) := by
  have hlt := Nat.mod_lt r (show 0 < c.baud by omega)
  have hlast := last_clock_iff (n := c.bits) (r := r) (b := c.baud) (by omega)
  have hfull := baudFull_iff (c := c) hb
  have hcnt : (edge c s rxd).bitCnt = if baudFull c s then 1 else s.bitCnt := by
    unfold edge
    simp only [hrst, hfsm, Bool.false_eq_true, if_false, if_true]
  rw [hcnt]
  by_cases hf : baudFull c s = true
  · have hend : ¬ r + 1 < (c.bits + 1) * c.baud := by
      intro h
      have := (hlast (by omega)).1 (by have := hfull.1 hf; omega)
      omega
    rw [if_pos hf, if_neg hend]
    rfl
  · have hsame : r + 1 < (c.bits + 1) * c.baud ↔ r < (c.bits + 1) * c.baud := by
      constructor
      · omega
      · intro h
        have := (hlast h).2
        have hne : ¬ r % c.baud + 1 = c.baud := fun h' => hf (hfull.2 (by omega))
        omega
    rw [if_neg hf, hk]
    simp only [hsame]

theorem Position.next_stop (ht : t = t₀ + c.half + r) (hr : c.bits * c.baud + c.half ≤ r) (hs : s.rxFsmQ = .stop)
    (hb : s.baudCnt.toInt = (r % c.baud + 1 : ℕ))
    (hk : s.bitCnt.toInt = ((if r < (c.bits + 1) * c.baud then c.bits + 1 else 1) : ℕ))
    (hx : Collected c line t₀ c.bits s.rxDataInt) (hlate : (c.bits + 1) * c.baud ≤ r → c.bits + 1 < c.stops) :
    Outcome c line t₀ t (edge c s (line t)) := by
  cases hl : line t with
  | false =>
    have hcomb : comb c s false = toRecover := (comb_stop hs hb hk).trans (if_pos rfl)
    obtain ⟨hr', hs', hc'⟩ := report_fail hcomb
    exact Outcome.fails hs' hc' hr' fun h => by
      rw [h.stop (by omega)] at hl
      simp at hl
  | true =>
    have hcomb : comb c s true = _ := comb_stop hs hb hk
    rw [if_neg (by simp)] at hcomb
    by_cases hend : c.baud ≤ r % c.baud + 1 ∧ c.stops ≤ if r < (c.bits + 1) * c.baud then c.bits + 1 else 1
    · rw [if_pos hend] at hcomb
      obtain ⟨htime, hstops⟩ := stop_end hB ht hr hlate hend.1 hend.2
      refine Outcome.ends s.rxDataInt (by rw [edge_rxFsmQ, hcomb]) ?_ hx htime hl hstops
      rw [report_edge, hcomb]
      rfl
    · rw [if_neg hend] at hcomb
      have hrst : (comb c s true).baudRst = false := by rw [hcomb]
      have hfsm : (comb c s true).rxFsmN = .stop := by rw [hcomb]
      have hdata : (edge c s true).rxDataInt = s.rxDataInt := by
        unfold edge
        simp [hrst, hs]
      have hpos : Position c line t₀ (t + 1) (edge c s true) := by
        refine Position.stop (r + 1) (by omega) (by omega) (by rw [edge_rxFsmQ, hfsm]) (baudCnt_next hB hb hrst)
          (bitCnt_stop hB hr hb hk hrst hfsm) (by rwa [hdata]) fun hle => ?_
        by_cases hfirst : r < (c.bits + 1) * c.baud
        · -- the end of the first stop bit, where the bit counter was too small
          have heq := (last_clock_iff (n := c.bits) (r := r) (by omega) hfirst).2 (by omega)
          by_contra hstops
          exact hend ⟨by omega, by rw [if_pos hfirst]; omega⟩
        · exact hlate (by omega)
      exact Outcome.goesOn hpos (report_none (by rw [hcomb])) ⟨fun h => by omega, fun _ => hl⟩

/-- A clock in a frame that has begun with a low line. -/
theorem Position.next (hbits : c.bits + 1 < 2 ^ 31) (hlow : line t₀ = false) (hp : Position c line t₀ t s) :
    Outcome c line t₀ t (edge c s (line t)) := by
  cases hp with
  | start j ht hj hs hc => exact Position.next_start hB ht hj hs hc hlow
  | data r ht hr hs hc hx => exact Position.next_data hB hbits ht hr hs hc hx
  | stop r ht hr hs hb hk hx hlate => exact Position.next_stop hB ht hr hs hb hk hx hlate

end

/-! ### The runs of the receiver -/

theorem comb_idle_restart (h : (comb c s rxd).rxFsmN = .idle) : (comb c s rxd).baudRst = true := by
  unfold comb at h ⊢
  cases hs : s.rxFsmQ with
  | idle =>
    cases rxd with
    | true => rfl
    | false => cases hh : baudHalf c s <;> simp [hs, hh] at h
  | start => cases rxd <;> cases hh : baudHalf c s <;> simp [hs, hh, stay, toRecover] at h
  | data =>
    cases hh : baudHalf c s with
    | false => simp [hs, hh, stay] at h
    | true =>
      simp only [hs, hh, if_true] at h
      split at h <;> simp at h
  | stop =>
    cases rxd with
    | false => simp [hs, toRecover] at h
    | true =>
      simp only [hs, bne_self_eq_false, Bool.false_eq_true, if_false] at h ⊢
      split at h
      next hf =>
        split at h
        next hk => rw [if_pos hf, if_pos hk]
        next => simp [stay, hs] at h
      next => simp [stay, hs] at h
  | recover =>
    cases rxd with
    | false => rfl
    | true =>
      simp only [hs, bne_self_eq_false, Bool.false_eq_true, if_false] at h ⊢
      split at h
      next hf => rw [if_pos hf]
      next => simp [stay, hs] at h

/-- An idle receiver has restarted its counters. -/
theorem idle_counting (hs : (run c line t).rxFsmQ = .idle) : Counting c 0 (run c line t) := by
  cases t with
  | zero => exact counting_restart rfl rfl
  | succ t => exact edge_restart (comb_idle_restart hs)

/-- The idle receiver stays idle on a high line. -/
theorem idle_next (hs : (run c line t).rxFsmQ = .idle) (hl : line t = true) :
    (run c line (t + 1)).rxFsmQ = .idle ∧ report (run c line (t + 1)) = none := by
  have hcomb : comb c (run c line t) (line t) = { stay (run c line t) with baudRst := true } := by
    unfold comb
    rw [hs, hl]
    rfl
  have hnone : report (edge c (run c line t) (line t)) = none := report_none (by rw [hcomb]; rfl)
  refine ⟨?_, hnone⟩
  rw [run_succ, edge_rxFsmQ, hcomb]
  exact hs

section

variable (hB : 2 ≤ c.baud) (hbits : c.bits + 1 < 2 ^ 31) (hidle : (run c line t₀).rxFsmQ = .idle)
  (hlow : line t₀ = false)

include hB hbits hidle hlow

/-- Until its first report the receiver is in the frame, and the line has had the levels that it asks for. -/
theorem position_of_quiet (ht : t₀ ≤ t) (hquiet : ∀ t', t₀ < t' → t' ≤ t → report (run c line t') = none) :
    Position c line t₀ t (run c line t) ∧ ∀ t', t₀ ≤ t' → t' < t → LineRight c line t₀ t' := by
  have hhalf : 0 < c.half := Nat.div_pos hB (by omega)
  induction t, ht using Nat.le_induction with
  | base =>
    refine ⟨Position.start 0 rfl hhalf hidle (idle_counting hidle), ?_⟩
    intro t' hle hlt
    omega
  | succ t ht ih =>
    obtain ⟨hp, hright⟩ := ih fun t' h1 h2 => hquiet t' h1 (by omega)
    have hq := hquiet (t + 1) (by omega) (by omega)
    cases hp.next hB hbits hlow with
    | goesOn hp' hr hl =>
      refine ⟨hp', fun t' hle hlt => ?_⟩
      rcases Nat.lt_succ_iff_lt_or_eq.1 hlt with hlt' | rfl
      · exact hright t' hle hlt'
      · exact hl
    | fails hs hc hr hl => exact absurd (hr.symm.trans hq) (by simp)
    | ends x hs hr hx ht hl hstops => exact absurd (hr.symm.trans hq) (by simp)

/-- The first report of the frame. -/
theorem outcome_of_first (ht : t₀ ≤ t) (hquiet : ∀ t', t₀ < t' → t' ≤ t → report (run c line t') = none) :
    Outcome c line t₀ t (run c line (t + 1)) :=
  (position_of_quiet hB hbits hidle hlow ht hquiet).1.next hB hbits hlow

/-- If the line has the levels that the receiver asks for, the frame is reported in the middle of its first stop bit. -/
theorem frame_reported (hstops : c.stops ≤ c.bits + 1)
    (hright : ∀ t, t₀ ≤ t → t ≤ sampleTime c t₀ c.bits → LineRight c line t₀ t) :
    (∀ t, t₀ < t → t ≤ sampleTime c t₀ c.bits → report (run c line t) = none) ∧
      (run c line (sampleTime c t₀ c.bits + 1)).rxFsmQ = .idle ∧
      ∃ x, report (run c line (sampleTime c t₀ c.bits + 1)) = some ⟨x, false⟩ ∧ Collected c line t₀ c.bits x := by
  have hmul : (c.bits + 1) * c.baud = c.bits * c.baud + c.baud := Nat.succ_mul _ _
  have hhalf : 0 < c.half := Nat.div_pos hB (by omega)
  have hlt : c.half < c.baud := Nat.div_lt_self (by omega) (by omega)
  have htime : sampleTime c t₀ c.bits = t₀ + (c.half - 1) + (c.bits + 1) * c.baud := rfl
  have hquiet : ∀ t, t₀ ≤ t → t ≤ sampleTime c t₀ c.bits →
      ∀ t', t₀ < t' → t' ≤ t → report (run c line t') = none := by
    intro t ht
    induction t, ht using Nat.le_induction with
    | base =>
      intro _ t' h1 h2
      omega
    | succ t ht ih =>
      intro hle t' h1 h2
      have hq := ih (by omega)
      rcases Nat.le_succ_iff.1 h2 with h2' | rfl
      · exact hq t' h1 h2'
      · cases outcome_of_first hB hbits hidle hlow ht hq with
        | goesOn hp hr hl => exact hr
        | fails hs hc hr hl => exact absurd (hright t ht (by omega)) hl
        | ends x hs hr hx heq hl hstops => omega
  have hq := hquiet (sampleTime c t₀ c.bits) (by omega) (Nat.le_refl _)
  refine ⟨hq, ?_⟩
  cases outcome_of_first hB hbits hidle hlow (by omega) hq with
  | goesOn hp hr hl =>
    -- the receiver does not stay in the stop state
    cases hp with
    | start j ht hj hs hc => omega
    | data r ht hr hs hc hx => omega
    | stop r ht hr hs hb hk hx hlate =>
      have := hlate (by omega)
      omega
  | fails hs hc hr hl => exact absurd (hright _ (by omega) (Nat.le_refl _)) hl
  | ends x hs hr hx heq hl hstops => exact ⟨hs, x, hr, hx⟩

/-- In a frame the receiver is not idle. -/
theorem not_idle_of_quiet (ht : t₀ < t) (hquiet : ∀ t', t₀ < t' → t' ≤ t → report (run c line t') = none) :
    (run c line t).rxFsmQ ≠ .idle := by
  cases (position_of_quiet hB hbits hidle hlow (Nat.le_of_lt ht) hquiet).1 with
  | start j htj hj hs hc =>
    rw [hs, if_neg (by omega)]
    simp
  | data r htr hr hs hc hx => simp [hs]
  | stop r htr hr hs hb hk hx hlate => simp [hs]

end

end UartModel
