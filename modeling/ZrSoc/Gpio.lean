import ZrSoc.RegisterPort
import ZrSoc.Sync.Run

/-!
# The GPIO block (`rtl/perips/sirv_gpio.v`)

All registers have 32 bits, one for each pin.  Word `k` of them is selected by bit `k` of `T_5359`; a write takes effect
with all four lanes only.
-/

namespace Gpio

open RegisterPort (field puts lanes FieldKept)

structure State where
  portReg : BitVec 32
  oeReg : BitVec 32
  pueReg : BitVec 32
  dsReg : BitVec 32
  ieReg : BitVec 32
  t3256 : BitVec 32
  t3257 : BitVec 32
  inSyncReg : BitVec 32
  valueReg : BitVec 32
  highIeReg : BitVec 32
  lowIeReg : BitVec 32
  riseIeReg : BitVec 32
  fallIeReg : BitVec 32
  highIpReg : BitVec 32
  lowIpReg : BitVec 32
  riseIpReg : BitVec 32
  fallIpReg : BitVec 32
  iofEnReg : BitVec 32
  iofSelReg : BitVec 32
  xorReg : BitVec 32
  deriving DecidableEq, Repr

structure Input where
  port : RegisterPort.Input
  ival : BitVec 32

variable (s : State) (x : Input)

/-- `T_5301` -/
def word : BitVec 5 := x.port.aAddress.extractLsb' 2 5

/-- The pending bits that a write to word `k` clears. -/
def clear (k : BitVec 5) : BitVec 32 :=
  if puts x.port && word x == k && lanes x.port 0 32 then x.port.aData else 0#32

def reset : State where
  portReg := 0#32
  oeReg := 0#32
  pueReg := 0#32
  dsReg := 0#32
  ieReg := 0#32
  t3256 := 0#32
  t3257 := 0#32
  inSyncReg := 0#32
  valueReg := 0#32
  highIeReg := 0#32
  lowIeReg := 0#32
  riseIeReg := 0#32
  fallIeReg := 0#32
  highIpReg := 0#32
  lowIpReg := 0#32
  riseIpReg := 0#32
  fallIpReg := 0#32
  iofEnReg := 0#32
  iofSelReg := 0#32
  xorReg := 0#32

def edge : State where
  portReg := field x.port (word x == 3#5) 0 s.portReg
  oeReg := field x.port (word x == 2#5) 0 s.oeReg
  pueReg := field x.port (word x == 4#5) 0 s.pueReg
  dsReg := field x.port (word x == 5#5) 0 s.dsReg
  ieReg := field x.port (word x == 1#5) 0 s.ieReg
  t3256 := x.ival
  t3257 := s.t3256
  inSyncReg := s.t3257
  valueReg := s.inSyncReg
  highIeReg := field x.port (word x == 10#5) 0 s.highIeReg
  lowIeReg := field x.port (word x == 12#5) 0 s.lowIeReg
  riseIeReg := field x.port (word x == 6#5) 0 s.riseIeReg
  fallIeReg := field x.port (word x == 8#5) 0 s.fallIeReg
  highIpReg := ~~~(~~~s.highIpReg ||| clear x 11#5) ||| s.valueReg
  lowIpReg := ~~~(~~~s.lowIpReg ||| clear x 13#5) ||| ~~~s.valueReg
  riseIpReg := ~~~(~~~s.riseIpReg ||| clear x 7#5) ||| ~~~s.valueReg &&& s.inSyncReg
  fallIpReg := ~~~(~~~s.fallIpReg ||| clear x 9#5) ||| s.valueReg &&& ~~~s.inSyncReg
  iofEnReg := field x.port (word x == 14#5) 0 s.iofEnReg
  iofSelReg := field x.port (word x == 15#5) 0 s.iofSelReg
  xorReg := field x.port (word x == 16#5) 0 s.xorReg

def machine : Sync.Machine State Input where
  reset := reset
  edge := edge

/-! ### The effect of an access -/

/-- The same cycle without an access. -/
def quiet : Input := { x with port := RegisterPort.idle x.port }

/-- The register of word `k` that a write replaces. -/
def stored : BitVec 5 → Option (BitVec 32)
  | 1 => some s.ieReg
  | 2 => some s.oeReg
  | 3 => some s.portReg
  | 4 => some s.pueReg
  | 5 => some s.dsReg
  | 6 => some s.riseIeReg
  | 8 => some s.fallIeReg
  | 10 => some s.highIeReg
  | 12 => some s.lowIeReg
  | 14 => some s.iofEnReg
  | 15 => some s.iofSelReg
  | 16 => some s.xorReg
  | _ => none

/-- The pending bits of word `k`, of which a write clears those set in its data. -/
def pending : BitVec 5 → BitVec 32
  | 7 => s.riseIpReg
  | 9 => s.fallIpReg
  | 11 => s.highIpReg
  | 13 => s.lowIpReg
  | _ => 0#32

/-- The events of the pins that set the pending bits of word `k`. -/
def events : BitVec 5 → BitVec 32
  | 7 => ~~~s.valueReg &&& s.inSyncReg
  | 9 => s.valueReg &&& ~~~s.inSyncReg
  | 11 => s.valueReg
  | 13 => ~~~s.valueReg
  | _ => 0#32

/-- The register bits outside the lanes `be` are the same in `a` and `b`. -/
def RegsKept (be : BitVec 4) (a b : State) : Prop :=
  ∀ k, (∀ v ∈ stored a k, ∀ w ∈ stored b k, FieldKept be 0 v w) ∧ FieldKept be 0 (pending a k) (pending b k)

/-- Outside the lanes `be`, the data on the port are the contents of the register that its address selects, and clear
no pending bit that no event sets again. -/
def CarriesOld (be : BitVec 4) (s : State) (x : Input) : Prop :=
  (∀ v ∈ stored s (word x), FieldKept be 0 x.port.aData v) ∧
    FieldKept be 0 (x.port.aData &&& pending s (word x) &&& ~~~events s (word x)) 0#32

variable {s x} {be : BitVec 4} {k : BitVec 5}

theorem stored_edge (hm : x.port.aMask = 15#4) :
    stored (edge s x) k = (stored s k).map fun v => if puts x.port && word x == k then x.port.aData else v := by
  have hfield (v : BitVec 32) (j : BitVec 5) :
      field x.port (word x == j) 0 v = if puts x.port && word x == j then x.port.aData else v := by
    rw [RegisterPort.field_full hm (by decide), BitVec.extractLsb'_eq_self]
  unfold stored
  split <;> simp only [edge, hfield, Option.map_some, Option.map_none]

theorem pending_edge (hm : x.port.aMask = 15#4) : pending (edge s x) k =
    pending s k &&& ~~~(if puts x.port && word x == k then x.port.aData else 0#32) ||| events s k := by
  have hclear (v c : BitVec 32) : ~~~(~~~v ||| c) = v &&& ~~~c := by simp [BitVec.not_or]
  have hlanes : RegisterPort.lanes x.port 0 32 = true := RegisterPort.lanes_full hm (by decide)
  unfold pending events
  split <;> simp [edge, clear, hlanes, hclear]

theorem stored_quiet : stored (edge s (quiet x)) k = stored s k := by
  unfold stored
  split <;> rfl

theorem pending_quiet : pending (edge s (quiet x)) k = pending s k ||| events s k := by
  unfold pending events
  split <;> simp [edge, clear, quiet]

/-- Clearing keeps the bits outside the lanes if and only if no pending bit is cleared that no event sets again. -/
private theorem fieldKept_clear {v c e : BitVec 32} :
    FieldKept be 0 (v &&& ~~~c ||| e) (v ||| e) ↔ FieldKept be 0 (c &&& v &&& ~~~e) 0#32 := by
  refine forall_congr' fun j => forall_congr' fun hj => forall_congr' fun _ => ?_
  simp only [BitVec.getLsbD_or, BitVec.getLsbD_and, BitVec.getLsbD_not, hj, BitVec.getLsbD_zero, decide_true,
    Bool.true_and]
  cases v.getLsbD j <;> cases c.getLsbD j <;> cases e.getLsbD j <;> decide

/-- A write keeps the register bits outside the lanes if and only if it carries their contents. -/
theorem regsKept_edge_iff (hm : x.port.aMask = 15#4) :
    RegsKept be (edge s x) (edge s (quiet x)) ↔ (puts x.port = true → CarriesOld be s x) := by
  constructor
  · intro h hp
    obtain ⟨h1, h2⟩ := h (word x)
    rw [pending_edge hm, pending_quiet, hp, beq_self_eq_true, Bool.and_self, if_pos rfl] at h2
    refine ⟨fun v hv => h1 x.port.aData ?_ v (by rwa [stored_quiet]), fieldKept_clear.1 h2⟩
    rw [stored_edge hm, Option.mem_def.1 hv, hp]
    simp
  · intro h k
    rw [stored_edge hm, stored_quiet, pending_edge hm, pending_quiet]
    by_cases hk : (puts x.port && word x == k) = true
    · obtain ⟨hp, hw⟩ := Bool.and_eq_true_iff.1 hk
      obtain rfl := beq_iff_eq.1 hw
      obtain ⟨h1, h2⟩ := h hp
      simp only [hk, ↓reduceIte]
      refine ⟨fun v hv w hw => ?_, fieldKept_clear.2 h2⟩
      obtain ⟨u, -, rfl⟩ := Option.mem_map.1 hv
      exact h1 w hw
    · simp only [hk, Bool.false_eq_true, ↓reduceIte, BitVec.not_zero, BitVec.and_allOnes]
      refine ⟨fun v hv w hw => ?_, RegisterPort.fieldKept_refl _⟩
      obtain ⟨u, hu, rfl⟩ := Option.mem_map.1 hv
      rw [Option.mem_unique hu hw]
      exact RegisterPort.fieldKept_refl _

/-- An access has no effect if and only if it is a read, or writes nothing new and clears nothing for good. -/
theorem edge_eq_quiet_iff (hm : x.port.aMask = 15#4) :
    edge s x = edge s (quiet x) ↔ (puts x.port = true → CarriesOld 0#4 s x) := by
  rw [← regsKept_edge_iff hm]
  constructor
  · intro h k
    rw [h]
    exact ⟨fun v hv w hw => by rw [Option.mem_unique hv hw]; exact RegisterPort.fieldKept_refl _,
      RegisterPort.fieldKept_refl _⟩
  · intro h
    have hs (k : BitVec 5) (v w : BitVec 32) (hv : stored (edge s x) k = some v)
        (hw : stored (edge s (quiet x)) k = some w) : v = w :=
      RegisterPort.fieldKept_zero.1 ((h k).1 v hv w hw)
    have hp (k : BitVec 5) : pending (edge s x) k = pending (edge s (quiet x)) k :=
      RegisterPort.fieldKept_zero.1 (h k).2
    have h1 := hs 1#5 _ _ rfl rfl
    have h2 := hs 2#5 _ _ rfl rfl
    have h3 := hs 3#5 _ _ rfl rfl
    have h4 := hs 4#5 _ _ rfl rfl
    have h5 := hs 5#5 _ _ rfl rfl
    have h6 := hs 6#5 _ _ rfl rfl
    have h8 := hs 8#5 _ _ rfl rfl
    have h10 := hs 10#5 _ _ rfl rfl
    have h12 := hs 12#5 _ _ rfl rfl
    have h14 := hs 14#5 _ _ rfl rfl
    have h15 := hs 15#5 _ _ rfl rfl
    have h16 := hs 16#5 _ _ rfl rfl
    have h7 : (edge s x).riseIpReg = (edge s (quiet x)).riseIpReg := hp 7#5
    have h9 : (edge s x).fallIpReg = (edge s (quiet x)).fallIpReg := hp 9#5
    have h11 : (edge s x).highIpReg = (edge s (quiet x)).highIpReg := hp 11#5
    have h13 : (edge s x).lowIpReg = (edge s (quiet x)).lowIpReg := hp 13#5
    have ht : (edge s x).t3256 = (edge s (quiet x)).t3256 ∧ (edge s x).t3257 = (edge s (quiet x)).t3257 ∧
        (edge s x).inSyncReg = (edge s (quiet x)).inSyncReg ∧ (edge s x).valueReg = (edge s (quiet x)).valueReg :=
      ⟨rfl, rfl, rfl, rfl⟩
    generalize edge s x = a at *
    generalize edge s (quiet x) = b at *
    cases a
    cases b
    simp_all

end Gpio
