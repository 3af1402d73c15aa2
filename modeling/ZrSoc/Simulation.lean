import ZrSoc.Sync.Run
import Mathlib.Data.Nat.Count
import Mathlib.Tactic.NormNum

/-!
# The timeout of the simulation (`verilator/sim.cpp`)

The system thread clocks the testbench until its counter is above `1 << max_cycs_pow`.  The counter goes up before the
comparison, which comes after the cycle, so the thread stops one cycle late; and the shift is one of a 32-bit `int`, so
that for 31 and more the limit is another number altogether (`obeys_timeout_iff`).
-/

namespace Simulation

/-! ### The command line -/

def cmdOptionExists (tokens : List String) (option : String) : Bool := tokens.contains option

/-- The token after the first one that is the option. -/
def getCmdOption (tokens : List String) (option : String) : String :=
  match tokens.dropWhile (· != option) with
  | _ :: value :: _ => value
  | _ => ""

/-- The characters that `isspace` accepts. -/
def isSpace (c : Char) : Bool := c.toNat == 32 || decide (9 ≤ c.toNat ∧ c.toNat ≤ 13)

/-- The number at the beginning of a text as `strtol` reads it. -/
def numeral (text : List Char) : Option ℤ :=
  match text.dropWhile isSpace with
  | '-' :: cs => (digits cs).map fun v => -v
  | '+' :: cs => digits cs
  | cs => digits cs
where
  digits (cs : List Char) : Option ℤ :=
    match cs.takeWhile Char.isDigit with
    | [] => none
    | ds => some (ds.foldl (fun v d => 10 * v + (d.toNat - 48 : ℕ)) 0)

inductive StoiError
  | invalidArgument
  | outOfRange
  deriving DecidableEq, Repr

def stoi (s : String) : Except StoiError ℤ :=
  match numeral s.toList with
  | none => .error .invalidArgument
  | some v => if -2 ^ 31 ≤ v ∧ v < 2 ^ 31 then .ok v else .error .outOfRange

/-- `cycs_pow` -/
def cycsPow (tokens : List String) : ℤ :=
  if cmdOptionExists tokens "-c" && !(getCmdOption tokens "-c").isEmpty then
    match stoi (getCmdOption tokens "-c") with
    | .ok v => v
    | .error _ => 17
  else 17

/-- The help is printed instead of a simulation. -/
def helps (tokens : List String) : Bool := cmdOptionExists tokens "-h" || cmdOptionExists tokens "--help"

/-! ### The system thread -/

/-- `1 << n` in an `int` of 32 bits.  From 32 on the shift is not defined and may have any value. -/
def shiftOne (undef : ℕ → BitVec 32) (n : ℕ) : BitVec 32 := if n < 32 then 1#32 <<< n else undef n

/-- The number the counter is compared with, if there is a timeout: the `int` as a `uint64_t`. -/
def limit (undef : ℕ → BitVec 32) (maxCycsPow : ℤ) : Option (BitVec 64) :=
  if 0 < maxCycsPow then some ((shiftOne undef maxCycsPow.toNat).signExtend 64) else none

/-- The variables of `sys_thrd` and the input `quit` of the testbench. -/
structure State where
  done : Bool
  cnt : BitVec 64
  uartRxStr : List (BitVec 8)
  uartRxErrs : ℕ
  quit : Bool
  deriving DecidableEq, Repr

/-- What the thread finds in the testbench in a pass of its loop. -/
structure Input where
  gotFinish : Bool
  uartRxRdy : Bool
  uartRxErr : Bool
  uartRxData : BitVec 8
  deriving DecidableEq, Repr

/-- The state after the ten cycles under reset. -/
def afterReset : State where
  done := false
  cnt := 0#64
  uartRxStr := []
  uartRxErrs := 0
  quit := false

variable (lim : Option (BitVec 64)) (s : State) (x : Input)

/-- The counter is above the limit. -/
def expired (cnt : BitVec 64) : Bool :=
  match lim with
  | some l => decide (l < cnt)
  | none => false

/-- The pass of the loop generates a clock cycle. -/
def clocks : Bool := !s.done && !x.gotFinish

/-- A pass of the loop; nothing happens any more when the thread has left it. -/
def pass : State :=
  if s.done then s
  else if x.gotFinish then { s with cnt := s.cnt + 1, done := true }
  else
    { done := expired lim (s.cnt + 1)
      cnt := s.cnt + 1
      uartRxStr := if x.uartRxRdy && !x.uartRxErr then s.uartRxStr ++ [x.uartRxData] else s.uartRxStr
      uartRxErrs := if x.uartRxRdy && x.uartRxErr then s.uartRxErrs + 1 else s.uartRxErrs
      quit := expired lim (s.cnt + 1) || s.quit }

def machine : Sync.Machine State Input where
  reset := afterReset
  edge := pass lim

/-! ### Runs that nothing else ends -/

variable (i : ℕ → Input)

/-- The number of clock cycles that the first `n` passes have generated. -/
def cycles (n : ℕ) : ℕ := Nat.count (fun m => clocks ((machine lim).run i m) (i m) = true) n

variable {i} {L : BitVec 64} {n : ℕ}

theorem cycles_succ : cycles lim i (n + 1) = cycles lim i n + (clocks ((machine lim).run i n) (i n)).toNat := by
  rw [cycles, Nat.count_succ, ← cycles]
  cases clocks ((machine lim).run i n) (i n) <;> rfl

theorem pass_cnt (hd : s.done = false) (hf : x.gotFinish = false) :
    (pass lim s x).cnt = s.cnt + 1 ∧ (pass lim s x).done = expired lim (s.cnt + 1) ∧
      (pass lim s x).quit = (expired lim (s.cnt + 1) || s.quit) := by
  simp [pass, hd, hf]

private theorem cnt_succ (n : ℕ) : BitVec.ofNat 64 n + 1 = BitVec.ofNat 64 (n + 1) := (BitVec.ofNat_add n 1).symm

/-- Every pass clocks the testbench and counts, until the limit is reached. -/
theorem before_limit (hi : ∀ m, (i m).gotFinish = false) (hn : ∀ l ∈ lim, n ≤ l.toNat) :
    ((machine lim).run i n).done = false ∧ ((machine lim).run i n).cnt = BitVec.ofNat 64 n ∧
      ((machine lim).run i n).quit = false ∧ cycles lim i n = n := by
  induction n with
  | zero => exact ⟨rfl, rfl, rfl, rfl⟩
  | succ n ih =>
    obtain ⟨hd, hc, hq, hcyc⟩ := ih fun l hl => (Nat.le_succ n).trans (hn l hl)
    obtain ⟨hc', hd', hq'⟩ := pass_cnt lim _ (i n) hd (hi n)
    have hcnt : ((machine lim).run i n).cnt + 1 = BitVec.ofNat 64 (n + 1) := by rw [hc, cnt_succ]
    have hexp : expired lim (((machine lim).run i n).cnt + 1) = false := by
      rw [hcnt]
      cases hl : lim with
      | none => rfl
      | some l =>
        have hle := hn l (by rw [hl]; rfl)
        have hlt := l.isLt
        rw [expired, decide_eq_false_iff_not, BitVec.lt_def, BitVec.toNat_ofNat, Nat.mod_eq_of_lt (by omega)]
        omega
    rw [cycles_succ, hcyc, clocks, hd, hi n]
    refine ⟨hd'.trans hexp, hc'.trans hcnt, ?_, rfl⟩
    rw [Sync.Machine.run_succ, show (machine lim).edge = pass lim from rfl, hq', hexp, hq]
    rfl

/-- With a limit below the greatest number the pass after it is the last one. -/
theorem after_limit (hi : ∀ m, (i m).gotFinish = false) (hL : L.toNat + 1 < 2 ^ 64) (hn : L.toNat + 1 ≤ n) :
    ((machine (some L)).run i n).done = true ∧ ((machine (some L)).run i n).quit = true ∧
      cycles (some L) i n = L.toNat + 1 := by
  induction n, hn using Nat.le_induction with
  | base =>
    obtain ⟨hd, hc, -, hcyc⟩ := before_limit (some L) (n := L.toNat) hi (by simp)
    obtain ⟨-, hd', hq'⟩ := pass_cnt (some L) _ (i L.toNat) hd (hi L.toNat)
    have hexp : expired (some L) (((machine (some L)).run i L.toNat).cnt + 1) = true := by
      rw [hc, cnt_succ, expired, decide_eq_true_iff, BitVec.lt_def, BitVec.toNat_ofNat, Nat.mod_eq_of_lt hL]
      omega
    rw [cycles_succ, hcyc, clocks, hd, hi]
    refine ⟨hd'.trans hexp, ?_, rfl⟩
    rw [Sync.Machine.run_succ, show (machine (some L)).edge = pass (some L) from rfl, hq', hexp]
    rfl
  | succ n hn ih =>
    obtain ⟨hd, hq, hcyc⟩ := ih
    have hpass : (machine (some L)).run i (n + 1) = (machine (some L)).run i n := by
      rw [Sync.Machine.run_succ, show (machine (some L)).edge = pass (some L) from rfl, pass, if_pos hd]
    rw [hpass, cycles_succ, hcyc, clocks, hd]
    exact ⟨rfl, hq, rfl⟩

/-- A limit that the counter is never above does not end the run. -/
theorem never_done (hi : ∀ m, (i m).gotFinish = false) (he : ∀ c, expired lim c = false) (n : ℕ) :
    ((machine lim).run i n).done = false := by
  induction n with
  | zero => rfl
  | succ n ih => exact (pass_cnt lim _ (i n) ih (hi n)).2.1.trans (he _)

/-- The thread ends after `N` cycles if and only if the limit is the number before `N`. -/
theorem done_iff (hi : ∀ m, (i m).gotFinish = false) {N : ℕ} :
    (∃ k, ((machine (some L)).run i k).done = true ∧ ((machine (some L)).run i k).quit = true ∧
      cycles (some L) i k = N) ↔ L.toNat + 1 = N ∧ N < 2 ^ 64 := by
  have hlt := L.isLt
  by_cases hL : L.toNat + 1 < 2 ^ 64
  · constructor
    · rintro ⟨k, hd, -, hcyc⟩
      have hk : L.toNat + 1 ≤ k := by
        by_contra hk
        obtain ⟨hd', -⟩ := before_limit (some L) (n := k) hi (by simp; omega)
        exact absurd hd (by simp [hd'])
      obtain ⟨-, -, hcyc'⟩ := after_limit hi hL hk
      omega
    · rintro ⟨hN, -⟩
      obtain ⟨hd, hq, hcyc⟩ := after_limit (n := L.toNat + 1) hi hL le_rfl
      exact ⟨_, hd, hq, hcyc.trans hN⟩
  · refine iff_of_false ?_ (by omega)
    rintro ⟨k, hd, -⟩
    have hnever := never_done (some L) hi (fun c => by
      have hc := c.isLt
      rw [expired, decide_eq_false_iff_not, BitVec.lt_def]
      omega) k
    simp [hnever] at hd

/-! ### The documented timeout -/

/-- The option gives the value `n`, and the help is not asked for. -/
structure Given (tokens : List String) (n : ℤ) : Prop where
  runs : helps tokens = false
  option : cmdOptionExists tokens "-c" = true
  value : numeral (getCmdOption tokens "-c").toList = some n

/-- What the option is for: a positive value ends the simulation after `2^n` cycles, others do not end it. -/
structure Obeys (lim : Option (BitVec 64)) (i : ℕ → Input) (n : ℤ) : Prop where
  timeout : 0 < n → ∃ k, ((machine lim).run i k).done = true ∧ ((machine lim).run i k).quit = true ∧
    cycles lim i k = 2 ^ n.toNat
  never : n ≤ 0 → ∀ k, ((machine lim).run i k).done = false

theorem cycsPow_eq {tokens : List String} {m : ℤ} (h : Given tokens m) :
    cycsPow tokens = if -2 ^ 31 ≤ m ∧ m < 2 ^ 31 then m else 17 := by
  have hne : (getCmdOption tokens "-c").isEmpty = false := by
    rw [Bool.eq_false_iff, Ne, String.isEmpty_iff]
    intro h0
    have hv := h.value
    rw [h0] at hv
    simp [numeral, numeral.digits] at hv
  rw [cycsPow, h.option, hne, stoi, h.value]
  by_cases hr : -2 ^ 31 ≤ m ∧ m < 2 ^ 31
  · simp only [if_pos hr]
    rfl
  · simp only [if_neg hr]
    rfl

/-- The `int` as a `uint64_t`: below `2^31`, or one of the greatest numbers. -/
theorem signExtend_bounds (v : BitVec 32) :
    (v.signExtend 64).toNat < 2 ^ 31 ∨ 2 ^ 64 - 2 ^ 31 ≤ (v.signExtend 64).toNat := by
  have hv := v.isLt
  rw [BitVec.toNat_signExtend, BitVec.toNat_setWidth, Nat.mod_eq_of_lt (by omega)]
  cases hm : v.msb with
  | false =>
    rw [BitVec.msb_eq_decide, decide_eq_false_iff_not] at hm
    simp
    omega
  | true =>
    rw [BitVec.msb_eq_decide, decide_eq_true_iff] at hm
    simp
    omega

/-- A shift that is defined gives an even limit. -/
theorem limit_even (undef : ℕ → BitVec 32) {p : ℕ} (hp : 0 < p) (hlt : p < 32) :
    ((shiftOne undef p).signExtend 64).toNat % 2 = 0 := by
  have hbit : ((shiftOne undef p).signExtend 64).getLsbD 0 = false := by
    rw [shiftOne, if_pos hlt, BitVec.getLsbD_signExtend]
    simp [hp]
  rw [← BitVec.testBit_toNat, Nat.testBit_zero, decide_eq_false_iff_not] at hbit
  omega

/-- No positive value gives the limit that would end the simulation after `2^n` cycles. -/
theorem limit_ne (undef : ℕ → BitVec 32) {p n : ℕ} (hp : 0 < p) (hn : 0 < n) (hpn : p < 32 ∨ p = n) :
    ((shiftOne undef p).signExtend 64).toNat + 1 ≠ 2 ^ n ∨ ¬ 2 ^ n < 2 ^ 64 := by
  by_cases hlt : p < 32
  · left
    have heven := limit_even undef hp hlt
    obtain ⟨m, rfl⟩ : ∃ m, n = m + 1 := ⟨n - 1, by omega⟩
    rw [Nat.pow_succ]
    omega
  · obtain rfl : p = n := by omega
    by_cases h64 : 64 ≤ p
    · exact Or.inr (not_lt.2 (Nat.pow_le_pow_right (by decide) h64))
    · left
      have hlow : 2 ^ 32 ≤ 2 ^ p := Nat.pow_le_pow_right (by decide) (by omega)
      have hhigh : 2 ^ p ≤ 2 ^ 63 := Nat.pow_le_pow_right (by decide) (by omega)
      rcases signExtend_bounds (shiftOne undef p) with h | h <;> omega

/-- The thread does what the option is for if and only if its value is one of an `int` and not positive. -/
theorem obeys_timeout_iff (undef : ℕ → BitVec 32) (tokens : List String) (n : ℤ) (i : ℕ → Input) (hg : Given tokens n)
    (hi : ∀ m, (i m).gotFinish = false) :
    Obeys (limit undef (cycsPow tokens)) i n ↔ -2 ^ 31 ≤ n ∧ n ≤ 0 := by
  have hpow := cycsPow_eq hg
  constructor
  · intro h
    by_cases hpos : 0 < n
    · exfalso
      have hp : 0 < cycsPow tokens := by rw [hpow]; split <;> omega
      have hlim : limit undef (cycsPow tokens) = some ((shiftOne undef (cycsPow tokens).toNat).signExtend 64) :=
        if_pos hp
      have hdone := h.timeout hpos
      rw [hlim, done_iff hi] at hdone
      have hor : (cycsPow tokens).toNat < 32 ∨ (cycsPow tokens).toNat = n.toNat := by
        rw [hpow]
        split <;> omega
      rcases limit_ne undef (by omega) (by omega) hor with hne | hne
      · exact hne hdone.1
      · exact hne hdone.2
    · refine ⟨?_, by omega⟩
      by_contra hlow
      have h17 : cycsPow tokens = 17 := by rw [hpow, if_neg (by omega)]
      have hlim : limit undef (cycsPow tokens) = some 0x20000#64 := by rw [h17]; rfl
      rw [hlim] at h
      obtain ⟨k, hk, -⟩ := (done_iff (L := 0x20000#64) (N := 2 ^ 17 + 1) hi).2 (by decide)
      rw [h.never (by omega) k] at hk
      exact absurd hk Bool.false_ne_true
  · rintro ⟨hlow, hle⟩
    have hlim : limit undef (cycsPow tokens) = none := by
      rw [hpow, if_pos (by omega)]
      exact if_neg (by omega)
    rw [hlim]
    exact ⟨fun hpos => by omega, fun _ => never_done none hi fun _ => rfl⟩

def quietPass : ℕ → Input := fun _ => ⟨false, false, false, 0#8⟩

private theorem given_noTimeout : Given ["-c", "0"] 0 := ⟨by decide, by decide, by decide⟩

private theorem given_negative : Given ["-c", "-5"] (-5) := ⟨by decide, by decide, by decide⟩

private theorem given_tooLow : Given ["-c", "-2147483649"] (-2147483649) := ⟨by decide, by decide, by decide⟩

/-- There is no timeout for 0 and for a negative value of an `int`. -/
theorem obeys_noTimeout : Obeys (limit (fun _ => 0#32) (cycsPow ["-c", "0"])) quietPass 0 ∧
    Obeys (limit (fun _ => 0#32) (cycsPow ["-c", "-5"])) quietPass (-5) ∧
    ¬ Obeys (limit (fun _ => 0#32) (cycsPow ["-c", "-2147483649"])) quietPass (-2147483649) :=
  ⟨(obeys_timeout_iff (fun _ => 0#32) ["-c", "0"] 0 quietPass given_noTimeout fun _ => rfl).2 (by decide),
    (obeys_timeout_iff (fun _ => 0#32) ["-c", "-5"] (-5) quietPass given_negative fun _ => rfl).2 (by decide),
    fun h => absurd ((obeys_timeout_iff (fun _ => 0#32) _ _ quietPass given_tooLow fun _ => rfl).1 h) (by decide)⟩

/-- With the value 1 the thread generates three cycles. -/
theorem not_obeys_one : Given ["-c", "1"] 1 ∧ cycles (limit (fun _ => 0#32) (cycsPow ["-c", "1"])) quietPass 4 = 3 ∧
    ¬ Obeys (limit (fun _ => 0#32) (cycsPow ["-c", "1"])) quietPass 1 := by
  have hg : Given ["-c", "1"] 1 := ⟨by decide, by decide, by decide⟩
  have hlim : limit (fun _ => 0#32) (cycsPow ["-c", "1"]) = some 2#64 := by rw [cycsPow_eq hg]; rfl
  rw [hlim]
  refine ⟨hg, (after_limit (n := 4) (fun _ => rfl) (by decide) (by decide)).2.2, fun h => ?_⟩
  have hdone := (done_iff (fun _ => rfl)).1 (h.timeout (by decide))
  exact absurd hdone.1 (by decide)

end Simulation
