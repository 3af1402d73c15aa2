import ZrSoc.Icb1to16Bus

/-!
# The decode of the peripheral bus fabric

The windows of the sixteen ports are disjoint, so that the decode selects for each command one port: the one whose
window contains the address, or the default slave (`target`).  The splitter holds the port of a command whose
response has not been taken, and with it its signals are those of a single slave: the command goes to its target
while no port is held, and the response comes from the port held, or in the same cycle from the target.
-/

namespace Icb1to16Bus

open Sync Icb

/-! ### The windows -/

/-- The window of port `k`: `2 ^ Ok_BASE_REGION_LSB` bytes from `Ok_BASE_ADDR` on. -/
def InWindow (k : Fin 16) (addr : BitVec 32) : Prop :=
  (oBaseAddr k).toNat ≤ addr.toNat ∧ addr.toNat < (oBaseAddr k).toNat + 2 ^ oBaseRegionLsb k

instance (k : Fin 16) (addr : BitVec 32) : Decidable (InWindow k addr) := instDecidableAnd

/-- The port whose window contains the address, or else the default slave. -/
def target (addr : BitVec 32) : Port := (List.finRange 16).find? fun k => InWindow k addr

/-- The windows are aligned to their sizes. -/
private theorem dvd_oBaseAddr : ∀ k, 2 ^ oBaseRegionLsb k ∣ (oBaseAddr k).toNat ∧ oBaseRegionLsb k ≤ 32 := by decide

/-- The windows follow each other. -/
private theorem oBaseAddr_apart : ∀ k k', k ≠ k' →
    (oBaseAddr k).toNat + 2 ^ oBaseRegionLsb k ≤ (oBaseAddr k').toNat ∨
      (oBaseAddr k').toNat + 2 ^ oBaseRegionLsb k' ≤ (oBaseAddr k).toNat := by decide

private theorem toNat_region (v : BitVec 32) {l : ℕ} (hl : l ≤ 32) :
    (v.extractLsb' l (32 - l)).toNat = v.toNat / 2 ^ l := by
  rw [BitVec.extractLsb'_toNat, Nat.shiftRight_eq_div_pow]
  refine Nat.mod_eq_of_lt (Nat.div_lt_of_lt_mul ?_)
  rw [← Nat.pow_add, Nat.add_sub_cancel' hl]
  exact v.isLt

/-- The comparison of the upper address bits decides the window. -/
theorem regionEq_iff {k : Fin 16} {addr : BitVec 32} : regionEq k addr = true ↔ InWindow k addr := by
  obtain ⟨⟨c, hc⟩, hl⟩ := dvd_oBaseAddr k
  have hpos : 0 < 2 ^ oBaseRegionLsb k := Nat.two_pow_pos _
  rw [regionEq, beq_iff_eq, ← BitVec.toNat_inj, toNat_region _ hl, toNat_region _ hl, InWindow, hc,
    Nat.mul_div_cancel_left _ hpos, Nat.div_eq_iff hpos, Nat.mul_comm]
  omega

theorem inWindow_unique {k k' : Fin 16} {addr : BitVec 32} (h : InWindow k addr) (h' : InWindow k' addr) :
    k = k' := by
  by_contra hne
  have := oBaseAddr_apart k k' hne
  obtain ⟨h1, h2⟩ := h
  obtain ⟨h1', h2'⟩ := h'
  omega

private theorem inWindow_of_target {k : Fin 16} {addr : BitVec 32} (h : target addr = some k) : InWindow k addr :=
  of_decide_eq_true (List.find?_some (p := fun k => decide (InWindow k addr)) h)

theorem target_eq_some_iff {k : Fin 16} {addr : BitVec 32} : target addr = some k ↔ InWindow k addr := by
  refine ⟨inWindow_of_target, fun h => ?_⟩
  cases ht : target addr with
  | none => exact absurd (decide_eq_true h) (List.find?_eq_none.1 ht k (List.mem_finRange k))
  | some k' => rw [inWindow_unique (inWindow_of_target ht) h]

theorem target_eq_none_iff {addr : BitVec 32} : target addr = none ↔ ∀ k, ¬ InWindow k addr := by
  simp only [← target_eq_some_iff, Option.eq_none_iff_forall_ne_some]

/-! ### The decode -/

variable (s : State) (x : Input)

/-- The port the decode selects; without a command it is the default slave. -/
def currentTarget : Port := if bufCmdValid s then target (bufCmd s).addr else none

/-- The command the splitter takes from the buffer in a cycle. -/
def passed : Option Cmd := if bufCmdValid s && bufCmdReady s x then some (bufCmd s) else none

variable {s x} {p : Port} {w : Option Port}

theorem currentTarget_eq (h : bufCmdValid s = true) : currentTarget s = target (bufCmd s).addr := if_pos h

theorem icbCmd_eq (p : Port) : icbCmd s p = decide (p = currentTarget s) := by
  rw [Bool.eq_iff_iff, decide_eq_true_iff, currentTarget]
  cases hv : bufCmdValid s
  · cases p <;> simp [icbCmd, hv]
  · cases p with
    | none => simp [icbCmd, hv, oEnable, ← Bool.not_eq_true, regionEq_iff, eq_comm (a := none), target_eq_none_iff]
    | some k => simp [icbCmd, hv, oEnable, regionEq_iff, eq_comm (a := some k), target_eq_some_iff]

/-- The splitter sees a one-hot vector. -/
theorem spltInput_indic : (spltInput s x).indic = BitVec.twoPow 17 (bit (currentTarget s)) := by
  rw [← ports_decide]
  exact congrArg ports (funext icbCmd_eq)

/-! ### The ports -/

theorem passed_eq : passed s x =
    if IcbSplt.rspidFifoWen s.splt (spltInput s x) (spltBus s x) then some (bufCmd s) else none := rfl

theorem passed_isSome : (passed s x).isSome = IcbSplt.rspidFifoWen s.splt (spltInput s x) (spltBus s x) := by
  rw [passed_eq]
  cases IcbSplt.rspidFifoWen s.splt (spltInput s x) (spltBus s x) <;> rfl

/-- The command valid signals: the target of the command, while no port is held. -/
theorem portCmdValid_eq (h : IcbSplt.Holds s.splt (w.map bit)) :
    portCmdValid s x p = (decide (currentTarget s = p) && (bufCmdValid s && w.isNone)) := by
  rw [portCmdValid, IcbSplt.oCmdValid_eq spltInput_indic, h.iCmdValidPre_eq, Option.isNone_map]
  congr 1
  exact decide_eq_decide.2 ⟨fun h => bit_injective h, fun h => congrArg bit h⟩

/-- The splitter takes a command if the target does. -/
theorem passed_isSome_eq (h : IcbSplt.Holds s.splt (w.map bit)) :
    (passed s x).isSome = (bufCmdValid s && w.isNone && portCmdReady s x (currentTarget s)) := by
  rw [passed_isSome, IcbSplt.rspidFifoWen_eq spltInput_indic, h.iCmdValidPre_eq, Option.isNone_map]
  exact congrArg _ (getLsbD_ports _ _)

/-- The response ready signals: the port held, or else the target. -/
theorem portRspReady_eq (h : IcbSplt.Holds s.splt (w.map bit)) :
    portRspReady s x p = (decide (w.getD (currentTarget s) = p) && bufRspReady s x) := by
  rw [portRspReady, h.oRspReady_eq spltInput_indic, Option.getD_map]
  congr 1
  exact decide_eq_decide.2 ⟨fun h => bit_injective h, fun h => congrArg bit h⟩

theorem bufRspValid_eq (h : IcbSplt.Holds s.splt (w.map bit)) :
    bufRspValid s x = portRspValid s x (w.getD (currentTarget s)) := by
  rw [bufRspValid, h.iRspValid_eq spltInput_indic, Option.getD_map]
  exact getLsbD_ports _ _

/-- The response is that of the port held, or else of the target. -/
theorem bufRsp_eq (h : IcbSplt.Holds s.splt (w.map bit)) : bufRsp s x = portRsp x (w.getD (currentTarget s)) := by
  rw [bufRsp, h.iRsp_eq spltInput_indic, Option.getD_map]
  exact congrArg (portRsp x) (portOf_bit _)

/-- A port is offered the buffered command, unchanged. -/
theorem portCmd_eq (h : portCmdValid s x p = true) : portCmd s x p = bufCmd s := by
  have hv : IcbSplt.oCmdValid s.splt (spltInput s x) (bit p) = true := h
  simp only [portCmd, IcbSplt.oCmd, hv, Bool.true_and, ↓reduceIte]
  rfl

/-- A command is handed over at its target, unchanged, when the splitter takes it. -/
theorem slaveCmd_eq : slaveCmd s x p = (passed s x).filter fun c => target c.addr = p := by
  have hpre : IcbSplt.rspidFifoWen s.splt (spltInput s x) (spltBus s x) =
      (IcbSplt.iCmdValidPre s.splt (spltInput s x) && portCmdReady s x (currentTarget s)) := by
    rw [IcbSplt.rspidFifoWen_eq spltInput_indic]
    exact congrArg _ (getLsbD_ports _ _)
  have hval : portCmdValid s x p =
      (decide (bit (currentTarget s) = bit p) && IcbSplt.iCmdValidPre s.splt (spltInput s x)) :=
    IcbSplt.oCmdValid_eq spltInput_indic
  by_cases hp : currentTarget s = p
  · subst hp
    simp only [decide_true, Bool.true_and] at hval
    rw [slaveCmd, hval, passed_eq, hpre]
    split
    next h =>
      have hpre' := (Bool.and_eq_true_iff.1 h).1
      have hbuf : bufCmdValid s = true := by
        simp only [IcbSplt.iCmdValidPre, Bool.and_eq_true] at hpre'
        exact hpre'.1.1
      rw [Option.filter_some, if_pos (by simp [currentTarget_eq hbuf]), portCmd_eq (hval.trans hpre')]
    next => rfl
  · rw [slaveCmd, hval, decide_eq_false fun h => hp (bit_injective h), passed_eq]
    split
    next h => exact absurd h (by simp)
    next =>
      split
      next h =>
        have hbuf : bufCmdValid s = true := (Bool.and_eq_true_iff.1 h).1
        rw [Option.filter_some, if_neg (by simpa [← currentTarget_eq hbuf] using hp)]
      next => rfl

end Icb1to16Bus
