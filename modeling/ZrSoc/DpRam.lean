import ZrSoc.Sync.Run
import ZrSoc.Sync.Latest
import Mathlib

/-!
# The dual-port RAM (`module dp_ram` in `rtl/zr_coreplex.sv`)

`nb` columns of `cw` bits, addressed by `aw` bits.  Both ports read the contents before the clock edge and write
single columns.  The source initialises the memory from a file or with zeros and leaves the outputs undefined until
the first access; here the initial contents are a parameter and the outputs start as 0.
-/

namespace DpRam

open Sync

variable {nb cw aw : ℕ}

structure State (nb cw aw : ℕ) where
  mem : BitVec aw → BitVec (nb * cw)
  douta : BitVec (nb * cw)
  doutb : BitVec (nb * cw)

structure Input (nb cw aw : ℕ) where
  addra : BitVec aw
  addrb : BitVec aw
  dina : BitVec (nb * cw)
  dinb : BitVec (nb * cw)
  wea : BitVec nb
  web : BitVec nb
  ena : Bool
  enb : Bool

/-- A word after the columns selected by `we` have been written (`byte_write`). -/
def writeCols (we : BitVec nb) (din old : BitVec (nb * cw)) : BitVec (nb * cw) :=
  .ofFnLE fun k => if we.getLsbD (k / cw) then din.getLsbD k else old.getLsbD k

/-- The memory after the write of one port. -/
def writePort (en : Bool) (we : BitVec nb) (addr : BitVec aw) (din : BitVec (nb * cw))
    (mem : BitVec aw → BitVec (nb * cw)) : BitVec aw → BitVec (nb * cw) :=
  fun k => if en ∧ k = addr then writeCols we din (mem k) else mem k

/-- The registers after a clock edge.  Of two writes to one column in one cycle, whose order the source leaves open,
port B's is the one kept. -/
def edge (s : State nb cw aw) (x : Input nb cw aw) : State nb cw aw where
  mem := writePort x.enb x.web x.addrb x.dinb (writePort x.ena x.wea x.addra x.dina s.mem)
  douta := if x.ena then s.mem x.addra else s.douta
  doutb := if x.enb then s.mem x.addrb else s.doutb

/-- The RAM with the initial contents `init`. -/
def machine (init : BitVec aw → BitVec (nb * cw)) : Machine (State nb cw aw) (Input nb cw aw) where
  reset := { mem := init, douta := 0, doutb := 0 }
  edge := edge

/-! ### Columns -/

/-- Column `c` of a word. -/
def col (c : Fin nb) (w : BitVec (nb * cw)) : BitVec cw := w.extractLsb' (c * cw) cw

theorem col_writeCols (c : Fin nb) (we : BitVec nb) (din old : BitVec (nb * cw)) :
    col c (writeCols we din old) = if we.getLsbD c then col c din else col c old := by
  refine BitVec.eq_of_getLsbD_eq fun k hk => ?_
  have hlt : c * cw + k < nb * cw := by
    have := Nat.mul_le_mul_right cw c.isLt
    rw [Nat.succ_mul] at this
    omega
  have hdiv : (c * cw + k) / cw = c := by
    rw [Nat.mul_comm, Nat.mul_add_div (by omega), Nat.div_eq_of_lt hk, Nat.add_zero]
  rw [col, BitVec.getLsbD_extractLsb', writeCols, BitVec.getLsbD_ofFnLE]
  simp only [hlt, hdiv, hk, decide_true, Bool.true_and, ↓reduceDIte]
  split <;> simp [col, hk]

/-- The value written to column `c` of the word at `addr` by port B. -/
def colWrite (addr : BitVec aw) (c : Fin nb) (x : Input nb cw aw) : Option (BitVec cw) :=
  if x.enb ∧ x.addrb = addr ∧ x.web.getLsbD c then some (col c x.dinb) else none

/-- If port A does not write, a column of the memory holds what port B wrote to it last. -/
theorem col_mem (init : BitVec aw → BitVec (nb * cw)) (i : ℕ → Input nb cw aw) (hA : ∀ n, (i n).wea = 0)
    (addr : BitVec aw) (c : Fin nb) (n : ℕ) :
    col c (((machine init).run i n).mem addr) = held (col c (init addr)) (fun m => colWrite addr c (i m)) n := by
  induction n with
  | zero => rfl
  | succ n ih =>
    have hread : writePort (i n).ena (i n).wea (i n).addra (i n).dina ((machine init).run i n).mem =
        ((machine init).run i n).mem := by
      funext k
      rw [writePort]
      split
      · refine BitVec.eq_of_getLsbD_eq fun j hj => ?_
        simp [writeCols, hA, hj]
      · rfl
    rw [Machine.run_succ, held, ← ih]
    change col c (writePort _ _ _ _ (writePort _ _ _ _ _) addr) = _
    rw [hread, writePort, colWrite]
    by_cases h : (i n).enb = true ∧ addr = (i n).addrb
    · rw [if_pos h, col_writeCols]
      by_cases hw : (i n).web.getLsbD c = true
      · rw [if_pos hw, if_pos ⟨h.1, h.2.symm, hw⟩]; rfl
      · rw [if_neg hw, if_neg fun h' => hw h'.2.2]; rfl
    · rw [if_neg h, if_neg fun h' => h ⟨h'.1, h'.2.1.symm⟩]; rfl

end DpRam
