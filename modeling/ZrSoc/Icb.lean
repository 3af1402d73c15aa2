import Mathlib.Data.Nat.Init

/-!
# ICB commands and responses (`rtl/perips/sirv_gnrl_icbs.v`)

The payloads of the two channels of the internal chip bus for 32-bit addresses and data, and their packing into the
words of the FIFOs of `sirv_gnrl_icb_buffer`.
-/

namespace Icb

structure Cmd where
  read : Bool
  addr : BitVec 32
  wdata : BitVec 32
  wmask : BitVec 4
  lock : Bool
  excl : Bool
  size : BitVec 2
  burst : BitVec 2
  beat : BitVec 2
  deriving DecidableEq, Repr

structure Rsp where
  err : Bool
  exclOk : Bool
  rdata : BitVec 32
  deriving DecidableEq, Repr

abbrev cmdPackW : ℕ := 1 + 32 + 32 + 4 + 1 + 1 + 2 + 2 + 2 + 1

abbrev rspPackW : ℕ := 1 + 1 + 32 + 1

/-- `cmd_fifo_i_dat`; the last bit is `i_icb_cmd_usr`, which is tied to 0. -/
def Cmd.toBits (c : Cmd) : BitVec cmdPackW :=
  BitVec.ofBool c.read ++ c.addr ++ c.wdata ++ c.wmask ++ BitVec.ofBool c.lock ++ BitVec.ofBool c.excl ++ c.size ++
    c.burst ++ c.beat ++ 0#1

/-- The fields of `cmd_fifo_o_dat`. -/
def Cmd.ofBits (v : BitVec cmdPackW) : Cmd where
  read := v.getLsbD 77
  addr := v.extractLsb' 45 32
  wdata := v.extractLsb' 13 32
  wmask := v.extractLsb' 9 4
  lock := v.getLsbD 8
  excl := v.getLsbD 7
  size := v.extractLsb' 5 2
  burst := v.extractLsb' 3 2
  beat := v.extractLsb' 1 2

/-- `rsp_fifo_i_dat`; the last bit is `o_icb_rsp_usr`, which is tied to 0. -/
def Rsp.toBits (r : Rsp) : BitVec rspPackW := BitVec.ofBool r.err ++ BitVec.ofBool r.exclOk ++ r.rdata ++ 0#1

/-- The fields of `rsp_fifo_o_dat`. -/
def Rsp.ofBits (v : BitVec rspPackW) : Rsp where
  err := v.getLsbD 34
  exclOk := v.getLsbD 33
  rdata := v.extractLsb' 1 32

/-- A field of a concatenation, skipping the parts below it. -/
private theorem field_skip {v w k l : ℕ} {x : BitVec v} {y : BitVec w} {z : BitVec l} (hk : w ≤ k)
    (h : x.extractLsb' (k - w) l = z) : (x ++ y).extractLsb' k l = z :=
  (BitVec.extractLsb'_append_eq_of_le hk).trans h

private theorem bit_skip {v w k : ℕ} {x : BitVec v} {y : BitVec w} {b : Bool} (hk : w ≤ k)
    (h : x.getLsbD (k - w) = b) : (x ++ y).getLsbD k = b := by
  rw [BitVec.getLsbD_append, if_neg (by omega), h]

private theorem bit_here {v : ℕ} {x : BitVec v} {b : Bool} : (x ++ BitVec.ofBool b).getLsbD 0 = b := by
  rw [BitVec.getLsbD_append, if_pos Nat.one_pos]
  cases b <;> rfl

@[simp] theorem Cmd.ofBits_toBits (c : Cmd) : Cmd.ofBits c.toBits = c := by
  obtain ⟨read, addr, wdata, wmask, lock, excl, size, burst, beat⟩ := c
  simp only [Cmd.ofBits, Cmd.toBits, Cmd.mk.injEq]
  refine ⟨?_, ?_, ?_, ?_, ?_, ?_, ?_, ?_, ?_⟩
  case refine_1 =>
    iterate 9 refine bit_skip (by decide) ?_
    cases read <;> rfl
  case refine_5 | refine_6 =>
    repeat refine bit_skip (by decide) ?_
    exact bit_here
  all_goals
    repeat refine field_skip (by decide) ?_
    exact BitVec.extractLsb'_append_eq_right

@[simp] theorem Rsp.ofBits_toBits (r : Rsp) : Rsp.ofBits r.toBits = r := by
  obtain ⟨err, exclOk, rdata⟩ := r
  simp only [Rsp.ofBits, Rsp.toBits, Rsp.mk.injEq]
  refine ⟨?_, ?_, ?_⟩
  · iterate 3 refine bit_skip (by decide) ?_
    cases err <;> rfl
  · iterate 2 refine bit_skip (by decide) ?_
    exact bit_here
  · refine field_skip (by decide) ?_
    exact BitVec.extractLsb'_append_eq_right

end Icb
