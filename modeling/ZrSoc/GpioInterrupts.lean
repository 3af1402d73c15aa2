import ZrSoc.Gpio
import ZrSoc.Sync.Latest

/-!
# The interrupts of the GPIO block

A pin interrupts for an event of one of four kinds (`Kind`): the events are kept pending in one register and enabled in
another.  Both are described over the whole history of pins and accesses: an enable bit is the one most recently written
(`ie_run`), a pending bit tells that there was an event in or after the cycle of its most recent clear (`ip_run_iff`).
-/

namespace Gpio

open RegisterPort (puts)

inductive Kind where
  | rise | fall | high | low
  deriving DecidableEq, Repr

namespace Kind

/-- The word of the enable register. -/
def ieWord : Kind → BitVec 5
  | rise => 6#5
  | fall => 8#5
  | high => 10#5
  | low => 12#5

/-- The word of the pending register. -/
def ipWord : Kind → BitVec 5
  | rise => 7#5
  | fall => 9#5
  | high => 11#5
  | low => 13#5

def ie (s : State) : Kind → BitVec 32
  | rise => s.riseIeReg
  | fall => s.fallIeReg
  | high => s.highIeReg
  | low => s.lowIeReg

def ip (s : State) : Kind → BitVec 32
  | rise => s.riseIpReg
  | fall => s.fallIpReg
  | high => s.highIpReg
  | low => s.lowIpReg

end Kind

/-- `io_interrupts` -/
def interrupts (s : State) : BitVec 32 :=
  s.riseIpReg &&& s.riseIeReg ||| s.fallIpReg &&& s.fallIeReg ||| s.highIpReg &&& s.highIeReg |||
    s.lowIpReg &&& s.lowIeReg

/-! ### Histories -/

/-- The offset of the access in the page of the block. -/
def offset (x : Input) : ℕ := x.port.aAddress.toNat % 4096

/-- A write is one of a full word at an offset below 0x80. -/
def FullWord (x : Input) : Prop := puts x.port = true → x.port.aMask = 15#4 ∧ offset x < 0x80

/-- What is written to the word `k` in a cycle. -/
def written (x : Input) (k : BitVec 5) : Option (BitVec 32) :=
  if puts x.port = true ∧ offset x / 4 = k.toNat then some x.port.aData else none

variable (i : ℕ → Input)

/-- The pins as they were `d` cycles before cycle `n`; before reset they are taken to be 0. -/
def pinsBefore (d n : ℕ) : BitVec 32 := if d ≤ n then (i (n - d)).ival else 0#32

/-- Pin `b` behind the last but one stage of the synchroniser, and behind the last one. -/
def inSync (b n : ℕ) : Bool := (pinsBefore i 3 n).getLsbD b

def value (b n : ℕ) : Bool := (pinsBefore i 4 n).getLsbD b

/-- There is an event of the kind on the synchronised pin. -/
def Kind.event (b n : ℕ) : Kind → Bool
  | rise => !value i b n && inSync i b n
  | fall => value i b n && !inSync i b n
  | high => value i b n
  | low => !value i b n

/-- The enable bit that was written most recently. -/
def Kind.enabled (k : Kind) (b : ℕ) : ℕ → Bool :=
  Sync.held false fun n => (written (i n) k.ieWord).map (·.getLsbD b)

/-- A 1 is written to the pending bit. -/
def Kind.Cleared (k : Kind) (b n : ℕ) : Prop := ∃ v ∈ written (i n) k.ipWord, v.getLsbD b = true

variable {i} {s : State} {x : Input} {b n : ℕ}

/-! ### The registers -/

theorem word_eq_iff (h : offset x < 0x80) (k : BitVec 5) : word x = k ↔ offset x / 4 = k.toNat := by
  have hword : (word x).toNat = offset x / 4 := by
    rw [word, BitVec.extractLsb'_toNat, Nat.shiftRight_eq_div_pow]
    unfold offset at h ⊢
    omega
  rw [← hword, BitVec.toNat_inj]

/-- Without a write the registers move as if there were no access. -/
theorem edge_quiet (hp : puts x.port = false) : edge s x = edge s (quiet x) := by
  simp only [edge, clear, quiet, RegisterPort.field, RegisterPort.puts_idle, hp, Bool.false_and]
  rfl

theorem stored_edge_full (hx : FullWord x) (k : BitVec 5) :
    stored (edge s x) k = (stored s k).map fun v => (written x k).getD v := by
  cases hp : puts x.port with
  | false =>
    rw [edge_quiet hp, stored_quiet]
    simp [written, hp]
  | true =>
    obtain ⟨hm, ho⟩ := hx hp
    rw [stored_edge hm]
    refine congrArg (Option.map · (stored s k)) (funext fun v => ?_)
    by_cases hk : word x = k
    · simp [written, hp, hk, (word_eq_iff ho k).1 hk]
    · simp [written, hp, hk, mt (word_eq_iff ho k).2 hk]

theorem pending_edge_full (hx : FullWord x) (k : BitVec 5) :
    pending (edge s x) k = pending s k &&& ~~~(written x k).getD 0#32 ||| events s k := by
  cases hp : puts x.port with
  | false =>
    rw [edge_quiet hp, pending_quiet, written, if_neg (by simp [hp]), Option.getD_none, BitVec.not_zero,
      BitVec.and_allOnes]
  | true =>
    obtain ⟨hm, ho⟩ := hx hp
    rw [pending_edge hm]
    by_cases hk : word x = k
    · simp [written, hp, hk, (word_eq_iff ho k).1 hk]
    · simp [written, hp, hk, mt (word_eq_iff ho k).2 hk]

theorem ie_edge (hx : FullWord x) (k : Kind) : k.ie (edge s x) = (written x k.ieWord).getD (k.ie s) := by
  have hstored (t : State) : stored t k.ieWord = some (k.ie t) := by cases k <;> rfl
  have h := stored_edge_full (s := s) hx k.ieWord
  rw [hstored, hstored, Option.map_some] at h
  exact Option.some.inj h

theorem ip_edge (hx : FullWord x) (k : Kind) :
    k.ip (edge s x) = k.ip s &&& ~~~(written x k.ipWord).getD 0#32 ||| events s k.ipWord := by
  have hpending (t : State) : pending t k.ipWord = k.ip t := by cases k <;> rfl
  have h := pending_edge_full (s := s) hx k.ipWord
  rwa [hpending, hpending] at h

/-- The stages of the synchroniser hold the pins of the cycles before. -/
theorem stages_run (n : ℕ) : (machine.run i n).t3256 = pinsBefore i 1 n ∧ (machine.run i n).t3257 = pinsBefore i 2 n ∧
    (machine.run i n).inSyncReg = pinsBefore i 3 n ∧ (machine.run i n).valueReg = pinsBefore i 4 n := by
  have hsucc (d n : ℕ) : pinsBefore i (d + 1) (n + 1) = pinsBefore i d n := by simp [pinsBefore]
  induction n with
  | zero => exact ⟨rfl, rfl, rfl, rfl⟩
  | succ n ih =>
    obtain ⟨h1, h2, h3, -⟩ := ih
    refine ⟨?_, ?_, ?_, ?_⟩
    · exact (if_pos (Nat.le_add_left 1 n)).symm
    · exact h1.trans (hsucc 1 n).symm
    · exact h2.trans (hsucc 2 n).symm
    · exact h3.trans (hsucc 3 n).symm

theorem events_run (k : Kind) (hb : b < 32) : (events (machine.run i n) k.ipWord).getLsbD b = k.event i b n := by
  obtain ⟨-, -, hsync, hvalue⟩ := stages_run (i := i) n
  cases k <;>
    simp [Kind.ipWord, Kind.event, events, inSync, value, hsync, hvalue, hb, -BitVec.getLsbD_eq_getElem]

/-! ### Whole runs -/

theorem ie_run (hi : ∀ n, FullWord (i n)) (k : Kind) (n b : ℕ) :
    (k.ie (machine.run i n)).getLsbD b = k.enabled i b n := by
  induction n with
  | zero => cases k <;> simp [Kind.ie, Kind.enabled, Sync.held, machine, reset]
  | succ n ih =>
    rw [Sync.Machine.run_succ, show machine.edge = edge from rfl, ie_edge (hi n), Kind.enabled, Sync.held]
    cases written (i n) k.ieWord with
    | none => exact ih
    | some v => rfl

theorem ip_run_iff (hi : ∀ n, FullWord (i n)) (k : Kind) (n : ℕ) (hb : b < 32) :
    (k.ip (machine.run i n)).getLsbD b = true ↔
      Sync.Since (fun t => k.event i b t = true) (k.Cleared i b) n := by
  induction n with
  | zero =>
    have hreset : (k.ip (machine.run i 0)).getLsbD b = false := by cases k <;> simp [Kind.ip, machine, reset]
    rw [hreset]
    exact ⟨fun h => absurd h Bool.false_ne_true, fun ⟨t, ht, _⟩ => absurd ht (Nat.not_lt_zero t)⟩
  | succ n ih =>
    have hclear : ((written (i n) k.ipWord).getD 0#32).getLsbD b = true ↔ k.Cleared i b n := by
      rw [Kind.Cleared]
      cases written (i n) k.ipWord <;> simp
    rw [Sync.since_succ_iff, ← ih, ← hclear, Sync.Machine.run_succ, show machine.edge = edge from rfl, ip_edge (hi n),
      BitVec.getLsbD_or, events_run k hb, BitVec.getLsbD_and, BitVec.getLsbD_not, Bool.or_eq_true, Bool.and_eq_true]
    simp only [hb, decide_true, Bool.true_and, Bool.not_eq_true']
    rw [Bool.not_eq_true, or_comm, and_comm]

theorem getLsbD_interrupts (b : ℕ) :
    (interrupts s).getLsbD b = true ↔ ∃ k : Kind, (k.ie s).getLsbD b = true ∧ (k.ip s).getLsbD b = true := by
  simp only [interrupts, BitVec.getLsbD_or, BitVec.getLsbD_and, Bool.or_eq_true, Bool.and_eq_true]
  constructor
  · rintro (((⟨hip, hie⟩ | ⟨hip, hie⟩) | ⟨hip, hie⟩) | ⟨hip, hie⟩)
    · exact ⟨.rise, hie, hip⟩
    · exact ⟨.fall, hie, hip⟩
    · exact ⟨.high, hie, hip⟩
    · exact ⟨.low, hie, hip⟩
  · rintro ⟨k, hie, hip⟩
    cases k with
    | rise => exact Or.inl (Or.inl (Or.inl ⟨hip, hie⟩))
    | fall => exact Or.inl (Or.inl (Or.inr ⟨hip, hie⟩))
    | high => exact Or.inl (Or.inr ⟨hip, hie⟩)
    | low => exact Or.inr ⟨hip, hie⟩

/-- In every history of pins and full-word accesses, pin `b` interrupts if and only if for one of the kinds its enable
bit was last written 1 and there was an event in or after the cycle of the most recent clear of its pending bit. -/
theorem interrupts_iff (i : ℕ → Input) (hi : ∀ n, FullWord (i n)) (n : ℕ) (b : Fin 32) :
    (interrupts (machine.run i n)).getLsbD b = true ↔
      ∃ k : Kind, k.enabled i b n = true ∧ Sync.Since (fun t => k.event i b t = true) (k.Cleared i b) n := by
  rw [getLsbD_interrupts]
  exact exists_congr fun k => and_congr (by rw [ie_run hi]) (ip_run_iff hi k n b.isLt)

/-- Pin 3 rises in cycle 2; its rise interrupt is enabled in cycle 0 and its pending bit is written in cycle 5, in which
the event reaches the last stages of the synchroniser. -/
def risingPin (n : ℕ) : Input where
  port :=
    { aValid := decide (n = 0 ∨ n = 5)
      aOpcode := 0#3
      aAddress := if n = 0 then 0x18#29 else 0x1c#29
      aMask := 15#4
      aData := 8#32
      dReady := true }
  ival := if n < 2 then 0#32 else 8#32

theorem interrupts_iff_risingPin : (interrupts (machine.run risingPin 6)).getLsbD 3 = true ∧
    ∃ k : Kind, k.enabled risingPin 3 6 = true ∧
      Sync.Since (fun t => k.event risingPin 3 t = true) (k.Cleared risingPin 3) 6 := by
  have hfull : ∀ n, FullWord (risingPin n) := fun n _ => by
    refine ⟨rfl, ?_⟩
    simp only [offset, risingPin]
    split <;> decide
  have hset : (interrupts (machine.run risingPin 6)).getLsbD 3 = true := by decide
  exact ⟨hset, (interrupts_iff risingPin hfull 6 3).1 hset⟩

end Gpio
