import ZrSoc.RegisterPort
import ZrSoc.Sync.Run

/-!
# The PWM block (`rtl/perips/sirv_pwm8.v`, `rtl/perips/sirv_pwm8_core.v`)

Word `k` of the registers is selected by bit `k` of `T_2131`.  The writes of `countHi`, `s`, `feed` and `key` have no
effect.
-/

namespace Pwm8

open RegisterPort (puts lanes FieldKept FlagKept fieldKept_zero flagKept_zero fieldKept_refl flagKept_refl
  fieldKept_ite flagKept_ite)

structure State where
  scale : BitVec 4
  cmp : Fin 4 → BitVec 8
  pwmcount : BitVec 23
  center : BitVec 4
  zerocmp : Bool
  deglitch : Bool
  sticky : Bool
  ipClr : Bool
  ip : BitVec 4
  gang : BitVec 4
  oneShot : Bool
  countAlways : Bool
  deriving DecidableEq

structure Input where
  port : RegisterPort.Input

variable (s : State) (x : Input)

/-- `T_2090` -/
def word : BitVec 4 := x.port.aAddress.extractLsb' 2 4

/-- `io_regs_cfg_write_valid` -/
def cfgWrite : Bool := puts x.port && word x == 0#4 && lanes x.port 0 32

/-- `io_regs_countLo_write_valid` -/
def countLoWrite : Bool := puts x.port && word x == 2#4 && lanes x.port 0 32

/-- `io_regs_cmp_0_write_valid` to `io_regs_cmp_3_write_valid` -/
def cmpWrite (k : Fin 4) : Bool := puts x.port && word x == BitVec.ofNat 4 (8 + k) && lanes x.port 0 8

def pwmcountInc : BitVec 24 := s.pwmcount.setWidth 24 + (BitVec.ofBool (s.countAlways || s.oneShot)).setWidth 24

def pwms : BitVec 8 := (s.pwmcount >>> s.scale.toNat).setWidth 8

def pwmsCenter (k : Fin 4) : Bool := (pwms s).getLsbD 7 && s.center.getLsbD k

def elapsed : BitVec 4 :=
  RegisterPort.nibble fun k => decide (s.cmp k ≤ (if pwmsCenter s k then 255#8 else 0#8) ^^^ pwms s)

def scaleCo : Bool :=
  (((s.pwmcount.extractLsb' 8 15).setWidth 16 ^^^ (pwmcountInc s).extractLsb' 8 16) >>> s.scale.toNat).getLsbD 0

def countReset : Bool := scaleCo s || s.zerocmp && (elapsed s).getLsbD 0

def reset : State where
  scale := 0#4
  cmp _ := 0#8
  pwmcount := 0#23
  center := 0#4
  zerocmp := false
  deglitch := false
  sticky := false
  ipClr := false
  ip := 0#4
  gang := 0#4
  oneShot := false
  countAlways := false

def edge : State where
  scale := if cfgWrite x then x.port.aData.extractLsb' 0 4 else s.scale
  cmp k := if cmpWrite x k then x.port.aData.extractLsb' 0 8 else s.cmp k
  pwmcount :=
    if countReset s then 0#23
    else if countLoWrite x then x.port.aData.extractLsb' 0 23
    else (pwmcountInc s).extractLsb' 0 23
  center := if cfgWrite x then x.port.aData.extractLsb' 16 4 else s.center
  zerocmp := if cfgWrite x then x.port.aData.getLsbD 9 else s.zerocmp
  deglitch := if cfgWrite x then x.port.aData.getLsbD 10 else s.deglitch
  sticky := if cfgWrite x then x.port.aData.getLsbD 8 else s.sticky
  ipClr := s.deglitch && !countReset s || s.sticky
  ip := if cfgWrite x then x.port.aData.extractLsb' 28 4 else elapsed s ||| (if s.ipClr then s.ip else 0#4)
  gang := if cfgWrite x then x.port.aData.extractLsb' 24 4 else s.gang
  oneShot := if cfgWrite x || countReset s then x.port.aData.getLsbD 13 && !countReset s else s.oneShot
  countAlways := if cfgWrite x then x.port.aData.getLsbD 12 else s.countAlways

def machine : Sync.Machine State Input where
  reset := reset
  edge := edge

/-! ### The effect of an access -/

/-- The same cycle without an access. -/
def quiet : Input := { port := RegisterPort.idle x.port }

/-- The register bits outside the lanes `be` are the same in `a` and `b`. -/
structure RegsKept (be : BitVec 4) (a b : State) : Prop where
  scale : FieldKept be 0 a.scale b.scale
  cmp : ∀ k, FieldKept be 0 (a.cmp k) (b.cmp k)
  pwmcount : FieldKept be 0 a.pwmcount b.pwmcount
  center : FieldKept be 16 a.center b.center
  zerocmp : FlagKept be 9 a.zerocmp b.zerocmp
  deglitch : FlagKept be 10 a.deglitch b.deglitch
  sticky : FlagKept be 8 a.sticky b.sticky
  ip : FieldKept be 28 a.ip b.ip
  gang : FieldKept be 24 a.gang b.gang
  oneShot : FlagKept be 13 a.oneShot b.oneShot
  countAlways : FlagKept be 12 a.countAlways b.countAlways

/-- Outside the lanes `be`, the data on the port are what the register that its address selects will hold anyhow: its
contents, for the counter and the pending bits the next ones. -/
structure CarriesOld (be : BitVec 4) (s : State) (x : Input) : Prop where
  cfg : word x = 0#4 → FieldKept be 0 (x.port.aData.extractLsb' 0 4) s.scale ∧
    FieldKept be 16 (x.port.aData.extractLsb' 16 4) s.center ∧ FlagKept be 9 (x.port.aData.getLsbD 9) s.zerocmp ∧
    FlagKept be 10 (x.port.aData.getLsbD 10) s.deglitch ∧ FlagKept be 8 (x.port.aData.getLsbD 8) s.sticky ∧
    FieldKept be 28 (x.port.aData.extractLsb' 28 4) (elapsed s ||| (if s.ipClr then s.ip else 0#4)) ∧
    FieldKept be 24 (x.port.aData.extractLsb' 24 4) s.gang ∧
    (countReset s = false → FlagKept be 13 (x.port.aData.getLsbD 13) s.oneShot) ∧
    FlagKept be 12 (x.port.aData.getLsbD 12) s.countAlways
  countLo : word x = 2#4 → countReset s = false →
    FieldKept be 0 (x.port.aData.extractLsb' 0 23) ((pwmcountInc s).extractLsb' 0 23)
  cmp : ∀ k : Fin 4, word x = BitVec.ofNat 4 (8 + k) → FieldKept be 0 (x.port.aData.extractLsb' 0 8) (s.cmp k)

variable {s x} {be : BitVec 4}

theorem regsKept_zero {a b : State} (hc : a.ipClr = b.ipClr) : RegsKept 0#4 a b ↔ a = b := by
  refine ⟨fun h => ?_, fun h => ?_⟩
  · have hscale := fieldKept_zero.1 h.scale
    have hcmp : a.cmp = b.cmp := funext fun k => fieldKept_zero.1 (h.cmp k)
    have hcount := fieldKept_zero.1 h.pwmcount
    have hcenter := fieldKept_zero.1 h.center
    have hzero := flagKept_zero.1 h.zerocmp
    have hdeglitch := flagKept_zero.1 h.deglitch
    have hsticky := flagKept_zero.1 h.sticky
    have hip := fieldKept_zero.1 h.ip
    have hgang := fieldKept_zero.1 h.gang
    have hone := flagKept_zero.1 h.oneShot
    have halways := flagKept_zero.1 h.countAlways
    cases a
    cases b
    simp_all
  · rw [h]
    exact ⟨fieldKept_refl _, fun _ => fieldKept_refl _, fieldKept_refl _, fieldKept_refl _, flagKept_refl _,
      flagKept_refl _, flagKept_refl _, fieldKept_refl _, fieldKept_refl _, flagKept_refl _, flagKept_refl _⟩

theorem cfgWrite_iff (hm : x.port.aMask = 15#4) : cfgWrite x = true ↔ puts x.port = true ∧ word x = 0#4 := by
  rw [cfgWrite, RegisterPort.lanes_full hm (by decide), Bool.and_true, Bool.and_eq_true, beq_iff_eq]

theorem countLoWrite_iff (hm : x.port.aMask = 15#4) : countLoWrite x = true ↔ puts x.port = true ∧ word x = 2#4 := by
  rw [countLoWrite, RegisterPort.lanes_full hm (by decide), Bool.and_true, Bool.and_eq_true, beq_iff_eq]

theorem cmpWrite_iff (hm : x.port.aMask = 15#4) (k : Fin 4) :
    cmpWrite x k = true ↔ puts x.port = true ∧ word x = BitVec.ofNat 4 (8 + k) := by
  rw [cmpWrite, RegisterPort.lanes_full hm (by decide), Bool.and_true, Bool.and_eq_true, beq_iff_eq]

/-- A write keeps the register bits outside the lanes if and only if it carries their contents. -/
theorem regsKept_edge_iff (hm : x.port.aMask = 15#4) :
    RegsKept be (edge s x) (edge s (quiet x)) ↔ (puts x.port = true → CarriesOld be s x) := by
  have hcfg0 : cfgWrite (quiet x) = false := rfl
  constructor
  · intro h hp
    constructor
    · intro hw
      have hx := (cfgWrite_iff hm).2 ⟨hp, hw⟩
      refine ⟨fieldKept_ite.1 h.scale hx, fieldKept_ite.1 h.center hx, flagKept_ite.1 h.zerocmp hx,
        flagKept_ite.1 h.deglitch hx, flagKept_ite.1 h.sticky hx, fieldKept_ite.1 h.ip hx,
        fieldKept_ite.1 h.gang hx, fun hr => ?_, flagKept_ite.1 h.countAlways hx⟩
      have hone : FlagKept be 13 (if cfgWrite x then x.port.aData.getLsbD 13 else s.oneShot) s.oneShot := by
        simpa [edge, hr, hcfg0] using h.oneShot
      exact flagKept_ite.1 hone hx
    · intro hw hr
      have hcount : FieldKept be 0
          (if countLoWrite x then x.port.aData.extractLsb' 0 23 else (pwmcountInc s).extractLsb' 0 23)
          ((pwmcountInc s).extractLsb' 0 23) := by
        simpa [edge, countLoWrite, quiet, hr] using h.pwmcount
      exact fieldKept_ite.1 hcount ((countLoWrite_iff hm).2 ⟨hp, hw⟩)
    · exact fun k hw => fieldKept_ite.1 (h.cmp k) ((cmpWrite_iff hm k).2 ⟨hp, hw⟩)
  · intro h
    have hcfg (hx : cfgWrite x = true) := (h ((cfgWrite_iff hm).1 hx).1).cfg ((cfgWrite_iff hm).1 hx).2
    constructor
    · exact fieldKept_ite.2 fun hx => (hcfg hx).1
    · exact fun k => fieldKept_ite.2 fun hx =>
        (h ((cmpWrite_iff hm k).1 hx).1).cmp k ((cmpWrite_iff hm k).1 hx).2
    · cases hr : countReset s with
      | true => simpa [edge, hr] using fieldKept_refl _
      | false =>
        have hcount : FieldKept be 0
            (if countLoWrite x then x.port.aData.extractLsb' 0 23 else (pwmcountInc s).extractLsb' 0 23)
            ((pwmcountInc s).extractLsb' 0 23) :=
          fieldKept_ite.2 fun hx =>
            (h ((countLoWrite_iff hm).1 hx).1).countLo ((countLoWrite_iff hm).1 hx).2 hr
        simpa [edge, countLoWrite, quiet, hr] using hcount
    · exact fieldKept_ite.2 fun hx => (hcfg hx).2.1
    · exact flagKept_ite.2 fun hx => (hcfg hx).2.2.1
    · exact flagKept_ite.2 fun hx => (hcfg hx).2.2.2.1
    · exact flagKept_ite.2 fun hx => (hcfg hx).2.2.2.2.1
    · exact fieldKept_ite.2 fun hx => (hcfg hx).2.2.2.2.2.1
    · exact fieldKept_ite.2 fun hx => (hcfg hx).2.2.2.2.2.2.1
    · cases hr : countReset s with
      | true => simpa [edge, hr] using flagKept_refl _
      | false =>
        have hone : FlagKept be 13 (if cfgWrite x then x.port.aData.getLsbD 13 else s.oneShot) s.oneShot :=
          flagKept_ite.2 fun hx => (hcfg hx).2.2.2.2.2.2.2.1 hr
        simpa [edge, hr, hcfg0] using hone
    · exact flagKept_ite.2 fun hx => (hcfg hx).2.2.2.2.2.2.2.2

/-- An access has no effect if and only if it is a read or writes what the registers will hold anyhow. -/
theorem edge_eq_quiet_iff (hm : x.port.aMask = 15#4) :
    edge s x = edge s (quiet x) ↔ (puts x.port = true → CarriesOld 0#4 s x) := by
  rw [← regsKept_edge_iff hm]
  have hclr : (edge s x).ipClr = (edge s (quiet x)).ipClr := rfl
  exact (regsKept_zero hclr).symm

end Pwm8
