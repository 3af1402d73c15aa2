import ZrSoc.CoreplexBus

/-!
# The CPU port of the debug module

The instruction and the data bus share the slave port of the debug module.  `dm_instr_sel` says whose turn it is; it
goes to the other master after each cycle in which both ask, and to the one that asks if it is alone.  So a master waits
for at most one cycle, the port carries the accesses of the granted master, and the response of the next cycle goes to
it (`dm_slave_port`).
-/

namespace Coreplex

open Sync
open Tcm (Bus)

variable {w : ℕ} (base : BitVec 32) (init : BitVec (w - 1) → BitVec 32) (i : ℕ → Input)

/-- What the debug module sees on its slave port. -/
structure SlaveAccess where
  addr : BitVec 32
  we : Bool
  be : BitVec 4
  wdata : BitVec 32
  deriving DecidableEq, Repr

def slaveAccess (s : State w) (x : Input) : Option SlaveAccess :=
  if dmSlaveReq s x then some ⟨dmSlaveAddr s x, dmSlaveWe s x, dmSlaveBe s x, dmSlaveWdata x⟩ else none

/-- The access that is granted the debug module, with its master. -/
def dmGranted (s : State w) (x : Input) : Option (Bus × Tcm.Input) :=
  if dmInstrGnt s x then some (.instr, x.core) else if dmDataGnt s x then some (.data, x.core) else none

/-- The access on the slave port is the one of the master.  A fetch has no write data and reads whole words. -/
def Carries (g : Bus × Tcm.Input) (p : SlaveAccess) : Prop :=
  match g.1 with
  | .instr => p.addr = g.2.instrAddr ∧ p.we = false ∧ p.be = BitVec.allOnes 4
  | .data => p = ⟨g.2.dataAddr, g.2.dataWe, g.2.dataBe, g.2.dataWdata⟩

/-- The read data that the debug module has for bus `b`. -/
def dmRdata (s : State w) (x : Input) (b : Bus) : BitVec 32 :=
  match b with
  | .instr => dmInstrRdata s x
  | .data => dmDataRdata s x

/-- A request to the debug module is held until it is granted. -/
def DmHeld (b : Bus) : Prop :=
  ∀ n, selected base (i n) w b .dm = true → gntOf base (run base init i n) (i n) b .dm = false →
    selected base (i (n + 1)) w b .dm = true

/-- The debug module serves the two buses: one of them at a time, without delaying a request by more than a cycle, with
the accesses of the granted master, and with the response to it and to nobody else. -/
structure DmSlaveServed : Prop where
  exclusive : ∀ n, ¬ (gntOf base (run base init i n) (i n) .instr .dm = true ∧
    gntOf base (run base init i n) (i n) .data .dm = true)
  bounded : ∀ b n, selected base (i n) w b .dm = true → gntOf base (run base init i n) (i n) b .dm = true ∨
    gntOf base (run base init i (n + 1)) (i (n + 1)) b .dm = true
  accesses : ∀ n, List.Forall₂ Carries (log (fun m => dmGranted (run base init i m) (i m)) n)
    (log (fun m => slaveAccess (run base init i m) (i m)) n)
  fetchReads : ∀ n, gntOf base (run base init i n) (i n) .instr .dm = true →
    dmSlaveWe (run base init i n) (i n) = false
  responds : ∀ b n, rvalidOf (run base init i n) b .dm = true ↔
    ∃ m, n = m + 1 ∧ gntOf base (run base init i m) (i m) b .dm = true
  delivered : ∀ b n, rvalidOf (run base init i n) b .dm = true → rvalid (run base init i n) b = true ∧
    dmRdata (run base init i n) (i n) b = (i n).dmSlaveRdata ∧
    ((∀ k, k ≠ .dm → rvalidOf (run base init i n) b k = false) →
      rdata (run base init i n) (i n) b = (i n).dmSlaveRdata)
  onlyTo : ∀ b n, rvalidOf (run base init i n) b .dm = false → dmRdata (run base init i n) (i n) b = 0 ∧
    (rvalid (run base init i n) b = true ↔ ∃ k, k ≠ .dm ∧ rvalidOf (run base init i n) b k = true)

variable {base init i} {s : State w} {x : Input} {b : Bus} {n : ℕ}

/-! ### One cycle -/

theorem not_both_dmGnt (s : State w) (x : Input) : ¬ (dmInstrGnt s x = true ∧ dmDataGnt s x = true) := by
  rintro ⟨hi, hd⟩
  simp only [dmInstrGnt, dmDataGnt, Bool.and_eq_true, Bool.not_eq_true'] at hi hd
  rw [hi.1] at hd
  exact absurd hd.1 (by decide)

/-- A master that asks in vain has the next turn. -/
theorem instrSel_of_refused (hs : selected base x w b .dm = true) (hg : gntOf base s x b .dm = false) :
    (edge base s x).dmInstrSel = (b == .instr) := by
  cases b with
  | instr =>
    have hreq : dmSlaveInstReq x = true := hs
    have hsel : s.dmInstrSel = false := by simpa [gntOf, dmInstrGnt, hreq] using hg
    cases hd : dmSlaveDataReq x <;> simp [edge, hreq, hd, hsel]
  | data =>
    have hreq : dmSlaveDataReq x = true := hs
    have hsel : s.dmInstrSel = true := by simpa [gntOf, dmDataGnt, hreq] using hg
    cases hd : dmSlaveInstReq x <;> simp [edge, hreq, hd, hsel]

/-- A request is granted when it is the master's turn. -/
theorem gntOf_of_turn (hs : selected base x w b .dm = true) (ht : s.dmInstrSel = (b == .instr)) :
    gntOf base s x b .dm = true := by
  cases b with
  | instr =>
    have hreq : dmSlaveInstReq x = true := hs
    simp [gntOf, dmInstrGnt, hreq, ht]
  | data =>
    have hreq : dmSlaveDataReq x = true := hs
    simp [gntOf, dmDataGnt, hreq, ht]

/-- The slave port carries the granted access of the cycle, and nothing else. -/
theorem carries_rel (s : State w) (x : Input) : Option.Rel Carries (dmGranted s x) (slaveAccess s x) := by
  unfold dmGranted slaveAccess
  cases hsel : s.dmInstrSel with
  | true =>
    cases hreq : dmSlaveInstReq x with
    | true =>
      have hbe : dmSlaveBe s x = BitVec.allOnes 4 := by
        rw [dmSlaveBe, hsel, if_pos rfl, BitVec.or_allOnes]
      rw [if_pos (by simp [dmInstrGnt, hsel, hreq]), if_pos (by simp [dmSlaveReq, hsel, hreq])]
      exact Option.Rel.some ⟨by simp [dmSlaveAddr, hsel], by simp [dmSlaveWe, hsel], hbe⟩
    | false =>
      rw [if_neg (by simp [dmInstrGnt, hreq]), if_neg (by simp [dmDataGnt, hsel]),
        if_neg (by simp [dmSlaveReq, hsel, hreq])]
      exact Option.Rel.none
  | false =>
    cases hreq : dmSlaveDataReq x with
    | true =>
      rw [if_neg (by simp [dmInstrGnt, hsel]), if_pos (by simp [dmDataGnt, hsel, hreq]),
        if_pos (by simp [dmSlaveReq, hsel, hreq])]
      refine Option.Rel.some ?_
      simp [Carries, dmSlaveAddr, dmSlaveWe, dmSlaveBe, dmSlaveWdata, hsel]
    | false =>
      rw [if_neg (by simp [dmInstrGnt, hsel]), if_neg (by simp [dmDataGnt, hreq]),
        if_neg (by simp [dmSlaveReq, hsel, hreq])]
      exact Option.Rel.none

theorem dmRdata_eq : dmRdata s x b = if rvalidOf s b .dm then x.dmSlaveRdata else 0 := by cases b <;> rfl

/-- The read data of the bus are those of the debug module if no other slave responds. -/
theorem rdata_of_only_dm (hk : ∀ k, k ≠ .dm → rvalidOf s b k = false) (hv : rvalidOf s b .dm = true) :
    rdata s x b = x.dmSlaveRdata := by
  have honly : ∀ k, rvalidOf s b k = true ↔ k = .dm := by
    intro k
    constructor
    · intro h
      by_contra hne
      exact absurd h (by simp [hk k hne])
    · rintro rfl
      exact hv
  rw [rdata_eq honly]
  cases b <;> rfl

/-! ### Whole runs -/

/-- With every request to the debug module held until it is granted, the slave port serves both buses. -/
theorem dm_slave_port (hheld : ∀ b, DmHeld base init i b) : DmSlaveServed base init i := by
  refine ⟨fun n => not_both_dmGnt _ _, ?_, ?_, ?_, ?_, ?_, ?_⟩
  · intro b n hs
    by_cases hg : gntOf base (run base init i n) (i n) b .dm = true
    · exact Or.inl hg
    · rw [Bool.not_eq_true] at hg
      exact Or.inr (gntOf_of_turn (hheld b n hs hg) (instrSel_of_refused hs hg))
  · exact forall₂_log fun m => carries_rel _ _
  · intro n hg
    have hsel : (run base init i n).dmInstrSel = true := (Bool.and_eq_true_iff.1 hg).1
    simp [dmSlaveWe, hsel]
  · intro b n
    cases n with
    | zero =>
      have hreset : rvalidOf (run base init i 0) b .dm = false := by cases b <;> rfl
      rw [hreset]
      exact ⟨fun h => absurd h Bool.false_ne_true, fun ⟨m, hm, _⟩ => absurd hm (by omega)⟩
    | succ n =>
      rw [rvalidOf_succ (by decide)]
      refine ⟨fun h => ⟨n, rfl, h⟩, fun ⟨m, hm, h⟩ => ?_⟩
      obtain rfl : n = m := by omega
      exact h
  · intro b n hv
    refine ⟨(rvalid_iff _ b).2 ⟨.dm, hv⟩, ?_, fun hk => rdata_of_only_dm hk hv⟩
    rw [dmRdata_eq, if_pos hv]
  · intro b n hv
    refine ⟨by rw [dmRdata_eq, if_neg (by simp [hv])], ?_⟩
    rw [rvalid_iff]
    constructor
    · rintro ⟨k, hk⟩
      refine ⟨k, ?_, hk⟩
      rintro rfl
      exact absurd hk (by simp [hv])
    · rintro ⟨k, -, hk⟩
      exact ⟨k, hk⟩

/-- Both buses ask in the first two cycles; the core then withdraws the request of the instruction bus, which is
granted first. -/
def dmTraffic (n : ℕ) : Input :=
  { busTraffic n with
    core :=
      { instrReq := n == 0, instrAddr := 0x00000800#32, dataReq := n == 0 || n == 1, dataWe := true,
        dataBe := 0b0011#4, dataAddr := 0x00000100#32, dataWdata := 9 } }

theorem dm_slave_port_dmTraffic : DmSlaveServed (w := 15) 0x80000000#32 (fun _ => 0) dmTraffic := by
  refine dm_slave_port fun b n hs hg => ?_
  cases b with
  | instr =>
    obtain rfl : n = 0 := by
      have hreq := (Bool.and_eq_true_iff.1 hs).1
      simpa [dmTraffic] using hreq
    exact absurd hg (by decide +kernel)
  | data =>
    obtain rfl | rfl : n = 0 ∨ n = 1 := by
      have hreq := (Bool.and_eq_true_iff.1 hs).1
      simpa [dmTraffic] using hreq
    · decide +kernel
    · exact absurd hg (by decide +kernel)

end Coreplex
