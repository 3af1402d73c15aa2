import ZrSoc.Icb
import Mathlib.Tactic

/-!
# The register ports of the peripherals

The TileLink port through which `sirv_uart`, `sirv_flash_qspi`, `sirv_gpio` and `sirv_pwm8` are programmed, as far as it
has an effect, and the way `sirv_uart_top`, `sirv_flash_qspi_top`, `sirv_gpio_top` and `sirv_pwm8_top` drive it from the
command channel of their bus.  The bytes of a word are its lanes.
-/

namespace RegisterPort

/-- Channel A and `d_ready`. -/
structure Input where
  aValid : Bool
  aOpcode : BitVec 3
  aAddress : BitVec 29
  aMask : BitVec 4
  aData : BitVec 32
  dReady : Bool
  deriving DecidableEq, Repr

variable (p : Input)

/-- `a_bits_opcode == 4`, a read. -/
def isGet : Bool := p.aOpcode == 4#3

def aReady : Bool := p.dReady

/-- A read is accepted. -/
def gets : Bool := p.aValid && p.dReady && isGet p

/-- A write is accepted. -/
def puts : Bool := p.aValid && p.dReady && !isGet p

/-- The four bytes of a word. -/
def bytes (b : Fin 4 → BitVec 8) : BitVec 32 := b 3 ++ b 2 ++ b 1 ++ b 0

/-- Four bits, the first one lowest. -/
def nibble (b : Fin 4 → Bool) : BitVec 4 :=
  BitVec.ofBool (b 3) ++ BitVec.ofBool (b 2) ++ BitVec.ofBool (b 1) ++ BitVec.ofBool (b 0)

theorem getLsbD_nibble (b : Fin 4 → Bool) (k : Fin 4) : (nibble b).getLsbD k = b k := by
  unfold nibble
  match k with
  | 0 | 1 | 2 | 3 => cases b 0 <;> cases b 1 <;> cases b 2 <;> cases b 3 <;> rfl

/-- The mask with every bit repeated eight times. -/
def maskBits : BitVec 32 := bytes fun l => if p.aMask.getLsbD l then 255#8 else 0#8

/-- The mask has all bits of the field of `n` bits from bit `lo`. -/
def lanes (lo n : ℕ) : Bool := (maskBits p).extractLsb' lo n == BitVec.allOnes n

/-- The next value of a register field, if `hit` tells that its word is addressed. -/
def field {n : ℕ} (hit : Bool) (lo : ℕ) (old : BitVec n) : BitVec n :=
  if puts p && hit && lanes p lo n then p.aData.extractLsb' lo n else old

/-- The next value of a register bit. -/
def flag (hit : Bool) (k : ℕ) (old : Bool) : Bool :=
  if puts p && hit && lanes p k 1 then p.aData.getLsbD k else old

/-- No access. -/
def idle : Input := { p with aValid := false }

/-- The slot of a peripheral: a command of its bus, with the byte enables in `wmask`, and the ready of the response. -/
structure Slot where
  cmdValid : Bool
  cmd : Icb.Cmd
  rspReady : Bool
  deriving DecidableEq, Repr

/-- How the tops drive the port: the byte enables are not among their ports, and the mask is tied to `4'b1111`. -/
def Slot.port (c : Slot) : Input where
  aValid := c.cmdValid
  aOpcode := if c.cmd.read then 4#3 else 0#3
  aAddress := c.cmd.addr.extractLsb' 0 29
  aMask := 15#4
  aData := c.cmd.wdata
  dReady := c.rspReady

/-- A command is accepted. -/
def Slot.Accepts (c : Slot) : Prop := c.cmdValid = true ∧ c.rspReady = true

/-- The offset of the access in the page of the peripheral. -/
def Slot.offset (c : Slot) : ℕ := c.cmd.addr.toNat % 4096

/-! ### Lanes

The bits of a register field from bit `lo` of its word that lie outside the lanes `be` are the same in `a` and `b`. -/

def FieldKept {n : ℕ} (be : BitVec 4) (lo : ℕ) (a b : BitVec n) : Prop :=
  ∀ j < n, be.getLsbD ((lo + j) / 8) = false → a.getLsbD j = b.getLsbD j

def FlagKept (be : BitVec 4) (k : ℕ) (a b : Bool) : Prop := be.getLsbD (k / 8) = false → a = b

variable {p} {n lo k : ℕ} {hit : Bool} {be : BitVec 4}

@[simp] theorem gets_idle : gets (idle p) = false := rfl

@[simp] theorem puts_idle : puts (idle p) = false := rfl

@[simp] theorem field_idle (old : BitVec n) : field (idle p) hit lo old = old := rfl

@[simp] theorem flag_idle (old : Bool) : flag (idle p) hit k old = old := rfl

theorem maskBits_full (h : p.aMask = 15#4) : maskBits p = BitVec.allOnes 32 := by
  rw [maskBits, h]
  decide

/-- With all lanes enabled every field is. -/
theorem lanes_full (h : p.aMask = 15#4) (hn : lo + n ≤ 32) : lanes p lo n = true := by
  rw [lanes, maskBits_full h, beq_iff_eq]
  ext j hj
  rw [BitVec.getElem_extractLsb', BitVec.getElem_allOnes, BitVec.getLsbD_allOnes]
  exact decide_eq_true (by omega)

theorem field_full (h : p.aMask = 15#4) (hn : lo + n ≤ 32) (old : BitVec n) :
    field p hit lo old = if puts p && hit then p.aData.extractLsb' lo n else old := by
  rw [field, lanes_full h hn, Bool.and_true]

theorem flag_full (h : p.aMask = 15#4) (hk : k < 32) (old : Bool) :
    flag p hit k old = if puts p && hit then p.aData.getLsbD k else old := by
  rw [flag, lanes_full h (by omega), Bool.and_true]

theorem fieldKept_refl (a : BitVec n) : FieldKept be lo a a := fun _ _ _ => rfl

theorem flagKept_refl (a : Bool) : FlagKept be k a a := fun _ => rfl

/-- With no lane enabled nothing may differ. -/
theorem fieldKept_zero {a b : BitVec n} : FieldKept 0#4 lo a b ↔ a = b := by
  refine ⟨fun h => BitVec.eq_of_getLsbD_eq fun j hj => h j hj (by simp), fun h => ?_⟩
  rw [h]
  exact fieldKept_refl b

theorem flagKept_zero {a b : Bool} : FlagKept 0#4 k a b ↔ a = b := by simp [FlagKept]

theorem fieldKept_ite {w : Bool} {new old : BitVec n} :
    FieldKept be lo (if w then new else old) old ↔ (w = true → FieldKept be lo new old) := by
  cases w <;> simp [fieldKept_refl]

theorem flagKept_ite {w new old : Bool} :
    FlagKept be k (if w then new else old) old ↔ (w = true → FlagKept be k new old) := by
  cases w <;> simp [flagKept_refl]

/-- A write to word `k` keeps the bits outside the lanes if and only if it carries their values. -/
theorem fieldKept_field {m : ℕ} {w k : BitVec m} (h : p.aMask = 15#4) (hn : lo + n ≤ 32) {old : BitVec n} :
    FieldKept be lo (field p (w == k) lo old) old ↔
      (puts p = true → w = k → FieldKept be lo (p.aData.extractLsb' lo n) old) := by
  rw [field_full h hn, fieldKept_ite, Bool.and_eq_true, and_imp, beq_iff_eq]

theorem flagKept_flag {m : ℕ} {w k : BitVec m} (h : p.aMask = 15#4) (hk : lo < 32) {old : Bool} :
    FlagKept be lo (flag p (w == k) lo old) old ↔
      (puts p = true → w = k → FlagKept be lo (p.aData.getLsbD lo) old) := by
  rw [flag_full h hk, flagKept_ite, Bool.and_eq_true, and_imp, beq_iff_eq]

end RegisterPort
