import ZrSoc.DpRam

/-!
# The tightly coupled memory (`rtl/zr_coreplex.sv`)

The select and response signals of the TCM and its `dp_ram`, for `TCM_AWIDTH = w` and `TCM_ADDR_BASE = base`.  Port A
of the RAM serves the instruction bus and never writes, port B serves the data bus.  The RAM is addressed by
`addr[w:2]`, one bit more than the window of `2 ^ w` bytes needs; in the window this bit is that of the base.

In every run the two buses read one byte-addressed memory (`byte_memory`).
-/

namespace Tcm

open Sync

structure State (w : ℕ) where
  ram : DpRam.State 4 8 (w - 1)
  tcmDataRvalid : Bool
  tcmInstrRvalid : Bool

structure Input where
  instrReq : Bool
  instrAddr : BitVec 32
  dataReq : Bool
  dataWe : Bool
  dataBe : BitVec 4
  dataAddr : BitVec 32
  dataWdata : BitVec 32
  deriving DecidableEq, Repr

variable (w : ℕ) (base : BitVec 32)

def tcmAddrMask : BitVec 32 := (BitVec.allOnes w).setWidth 32

def inWindow (addr : BitVec 32) : Bool := addr &&& ~~~tcmAddrMask w == base &&& ~~~tcmAddrMask w

def tcmInstrCs (x : Input) : Bool := x.instrReq && inWindow w base x.instrAddr

def tcmDataCs (x : Input) : Bool := x.dataReq && inWindow w base x.dataAddr

/-- `addr[TCM_AWIDTH:2]` -/
def ramAddr (addr : BitVec 32) : BitVec (w - 1) := addr.extractLsb' 2 (w - 1)

/-- The ports of `u_tcm_ram`. -/
def ramInput (x : Input) : DpRam.Input 4 8 (w - 1) where
  addra := ramAddr w x.instrAddr
  addrb := ramAddr w x.dataAddr
  dina := 0
  dinb := x.dataWdata
  wea := 0
  web := (if x.dataWe then BitVec.allOnes 4 else 0) &&& x.dataBe
  ena := tcmInstrCs w base x
  enb := tcmDataCs w base x

def edge (s : State w) (x : Input) : State w where
  ram := DpRam.edge s.ram (ramInput w base x)
  tcmDataRvalid := tcmDataCs w base x
  tcmInstrRvalid := tcmInstrCs w base x

def machine (init : BitVec (w - 1) → BitVec 32) : Machine (State w) Input where
  reset := { ram := (DpRam.machine init).reset, tcmDataRvalid := false, tcmInstrRvalid := false }
  edge := edge w base

/-! ### The two buses -/

inductive Bus
  | instr
  | data
  deriving DecidableEq, Repr

def Input.addr (x : Input) : Bus → BitVec 32
  | .instr => x.instrAddr
  | .data => x.dataAddr

/-- A read on bus `b` inside the window. -/
def reads (b : Bus) (x : Input) : Bool :=
  match b with
  | .instr => tcmInstrCs w base x
  | .data => tcmDataCs w base x && !x.dataWe

def State.rvalid {w : ℕ} (s : State w) : Bus → Bool
  | .instr => s.tcmInstrRvalid
  | .data => s.tcmDataRvalid

/-- `tcm_instr_rdata_i` and `tcm_data_rdata_i` -/
def State.rdata {w : ℕ} (s : State w) : Bus → BitVec 32
  | .instr => s.ram.douta
  | .data => s.ram.doutb

/-! ### The memory the buses see -/

/-- The word address of a byte address. -/
def wordAddr (addr : BitVec 32) : BitVec 30 := addr.extractLsb' 2 30

/-- Byte lane `c` of a word. -/
def lane (c : Fin 4) (v : BitVec 32) : BitVec 8 := v.extractLsb' (c * 8) 8

/-- What a cycle writes to byte lane `c` of the word at `addr`. -/
def laneWrite (addr : BitVec 32) (c : Fin 4) (x : Input) : Option (BitVec 8) :=
  if tcmDataCs w base x ∧ x.dataWe ∧ wordAddr x.dataAddr = wordAddr addr ∧ x.dataBe.getLsbD c then
    some (lane c x.dataWdata)
  else none

/-- The TCM is one byte-addressed memory: a read in cycle `n` is answered in the next cycle, in each byte lane with
the most recent earlier write to that lane of the word, or with its initial contents. -/
structure ByteMemory (init : BitVec (w - 1) → BitVec 32) (i : ℕ → Input) : Prop where
  read : ∀ b n, reads w base b (i n) → ((machine w base init).run i (n + 1)).rvalid b = true ∧
    ∀ c, IsLatest (lane c (init (ramAddr w ((i n).addr b)))) (fun m => laneWrite w base ((i n).addr b) c (i m)) n
      (lane c (((machine w base init).run i (n + 1)).rdata b))
  noAlias : ∀ addr addr', inWindow w base addr → inWindow w base addr' → ramAddr w addr = ramAddr w addr' →
    wordAddr addr = wordAddr addr'

variable {w base}

theorem inWindow_of_tcmInstrCs {x : Input} (h : tcmInstrCs w base x = true) : inWindow w base x.instrAddr = true :=
  (Bool.and_eq_true_iff.1 h).2

theorem inWindow_of_tcmDataCs {x : Input} (h : tcmDataCs w base x = true) : inWindow w base x.dataAddr = true :=
  (Bool.and_eq_true_iff.1 h).2

theorem getLsbD_tcmAddrMask (k : ℕ) : (tcmAddrMask w).getLsbD k = (decide (k < w) && decide (k < 32)) := by
  simp [tcmAddrMask, Bool.and_comm]

/-- Two addresses in the window agree from bit `w` on. -/
private theorem getLsbD_of_inWindow {addr addr' : BitVec 32} (h : inWindow w base addr) (h' : inWindow w base addr')
    {k : ℕ} (hk : w ≤ k) : addr.getLsbD k = addr'.getLsbD k := by
  have heq : addr &&& ~~~tcmAddrMask w = addr' &&& ~~~tcmAddrMask w :=
    (beq_iff_eq.1 h).trans (beq_iff_eq.1 h').symm
  rcases Nat.lt_or_ge k 32 with hlt | hge
  · have := congrArg (·.getLsbD k) heq
    have hm : (tcmAddrMask w).getLsbD k = false := by rw [getLsbD_tcmAddrMask]; simp; omega
    simpa only [BitVec.getLsbD_and, BitVec.getLsbD_not, hm, hlt, decide_true, Bool.not_false, Bool.and_true] using this
  · rw [BitVec.getLsbD_of_ge _ _ hge, BitVec.getLsbD_of_ge _ _ hge]

/-- The address truncation is injective on the words of the window. -/
theorem ramAddr_eq_iff {addr addr' : BitVec 32} (h : inWindow w base addr) (h' : inWindow w base addr') :
    ramAddr w addr = ramAddr w addr' ↔ wordAddr addr = wordAddr addr' := by
  constructor
  · intro heq
    refine BitVec.eq_of_getLsbD_eq fun k hk => ?_
    simp only [wordAddr, BitVec.getLsbD_extractLsb', hk, decide_true, Bool.true_and]
    rcases Nat.lt_or_ge k (w - 1) with hlt | hge
    · have := congrArg (·.getLsbD k) heq
      simpa only [ramAddr, BitVec.getLsbD_extractLsb', hlt, decide_true, Bool.true_and] using this
    · exact getLsbD_of_inWindow h h' (by omega)
  · intro heq
    refine BitVec.eq_of_getLsbD_eq fun k hk => ?_
    simp only [ramAddr, BitVec.getLsbD_extractLsb', hk, decide_true, Bool.true_and]
    rcases Nat.lt_or_ge k 30 with hlt | hge
    · have := congrArg (·.getLsbD k) heq
      simpa only [wordAddr, BitVec.getLsbD_extractLsb', hlt, decide_true, Bool.true_and] using this
    · rw [BitVec.getLsbD_of_ge _ _ (by omega), BitVec.getLsbD_of_ge _ _ (by omega)]

theorem run_ram (init : BitVec (w - 1) → BitVec 32) (i : ℕ → Input) (n : ℕ) :
    ((machine w base init).run i n).ram = (DpRam.machine init).run (fun m => ramInput w base (i m)) n := by
  induction n with
  | zero => rfl
  | succ n ih => rw [Machine.run_succ, Machine.run_succ, ← ih]; rfl

/-- A write of the RAM to the word of an address in the window is a write to this address. -/
private theorem colWrite_ramInput {addr : BitVec 32} (h : inWindow w base addr) (c : Fin 4) (x : Input) :
    DpRam.colWrite (ramAddr w addr) c (ramInput w base x) = laneWrite w base addr c x := by
  rw [DpRam.colWrite, laneWrite]
  refine if_congr ?_ rfl rfl
  have hweb : (ramInput w base x).web.getLsbD c = (x.dataWe && x.dataBe.getLsbD c) := by
    rw [ramInput, BitVec.getLsbD_and]
    cases x.dataWe
    · simp
    · simp only [↓reduceIte, BitVec.getLsbD_allOnes, c.isLt, decide_true]
  rw [hweb]
  simp only [ramInput, Bool.and_eq_true]
  constructor
  · rintro ⟨hcs, ha, hwe, hbe⟩
    exact ⟨hcs, hwe, (ramAddr_eq_iff (inWindow_of_tcmDataCs hcs) h).1 ha, hbe⟩
  · rintro ⟨hcs, hwe, ha, hbe⟩
    exact ⟨hcs, (ramAddr_eq_iff (inWindow_of_tcmDataCs hcs) h).2 ha, hwe, hbe⟩

/-- A byte lane of the memory holds its most recent write. -/
private theorem isLatest_mem (init : BitVec (w - 1) → BitVec 32) (i : ℕ → Input) {addr : BitVec 32}
    (h : inWindow w base addr) (c : Fin 4) (n : ℕ) :
    IsLatest (lane c (init (ramAddr w addr))) (fun m => laneWrite w base addr c (i m)) n
      (lane c (((machine w base init).run i n).ram.mem (ramAddr w addr))) := by
  have hcol := DpRam.col_mem init (fun m => ramInput w base (i m)) (fun _ => rfl) (ramAddr w addr) c n
  simp only [colWrite_ramInput h, ← run_ram] at hcol
  have hlat := isLatest_held (lane c (init (ramAddr w addr))) (fun m => laneWrite w base addr c (i m)) n
  rwa [← show lane c _ = held (lane c _) _ n from hcol] at hlat

/-- A read is in the window, and is answered in the next cycle with the word the memory holds at its address. -/
private theorem answer_of_reads (init : BitVec (w - 1) → BitVec 32) {i : ℕ → Input} {b : Bus} {n : ℕ}
    (hr : reads w base b (i n)) : inWindow w base ((i n).addr b) ∧
    ((machine w base init).run i (n + 1)).rvalid b = true ∧ ((machine w base init).run i (n + 1)).rdata b =
      ((machine w base init).run i n).ram.mem (ramAddr w ((i n).addr b)) := by
  rw [Machine.run_succ]
  cases b with
  | instr =>
    have hcs : tcmInstrCs w base (i n) = true := hr
    exact ⟨inWindow_of_tcmInstrCs hcs, hcs, if_pos hcs⟩
  | data =>
    simp only [reads, Bool.and_eq_true] at hr
    obtain ⟨hcs, -⟩ := hr
    exact ⟨inWindow_of_tcmDataCs hcs, hcs, if_pos hcs⟩

/-- Every run of the TCM is one of a byte-addressed memory, for every width, base, and initial contents. -/
theorem byte_memory (init : BitVec (w - 1) → BitVec 32) (i : ℕ → Input) : ByteMemory w base init i := by
  refine ⟨?_, fun addr addr' h h' => (ramAddr_eq_iff h h').1⟩
  intro b n hr
  obtain ⟨hin, hvalid, hdata⟩ := answer_of_reads init hr
  refine ⟨hvalid, fun c => ?_⟩
  rw [hdata]
  exact isLatest_mem init i hin c n

end Tcm
