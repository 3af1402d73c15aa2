import ZrSoc.Sync.Run

/-!
# The fragmenter of the flash port (`rtl/perips/sirv_tlfragmenter_qspi_1.v`)

The payloads of the two TileLink channels, the repeater `sirv_repeater_6`, which offers a request again and again
while `io_repeat` is set, and the fragmenter around it, which counts the byte requests of a read down in `gennum` and
their responses in `acknum`.  Signals `io_in_0_a_..` are named `inA..` and so on.
-/

namespace TileLink

/-- The payload of channel A. -/
structure A (source mask data : ℕ) where
  opcode : BitVec 3
  param : BitVec 3
  size : BitVec 3
  source : BitVec source
  address : BitVec 30
  mask : BitVec mask
  data : BitVec data
  deriving DecidableEq, Repr

/-- The payload of channel D. -/
structure D (source addrLo data : ℕ) where
  opcode : BitVec 3
  param : BitVec 2
  size : BitVec 3
  source : BitVec source
  sink : Bool
  addrLo : BitVec addrLo
  data : BitVec data
  error : Bool
  deriving DecidableEq, Repr

/-- The opcode of a read. -/
def opGet : BitVec 3 := 4

end TileLink

/-! ### `sirv_repeater_6` -/

namespace Repeater6

open TileLink

structure State where
  full : Bool
  saved : A 2 1 8
  deriving DecidableEq, Repr

structure Input where
  ioRepeat : Bool
  ioEnqValid : Bool
  ioEnqBits : A 2 1 8
  ioDeqReady : Bool

variable (s : State) (x : Input)

def ioEnqReady : Bool := x.ioDeqReady && !s.full

def ioDeqValid : Bool := x.ioEnqValid || s.full

def ioDeqBits : A 2 1 8 := if s.full then s.saved else x.ioEnqBits

def reset : State where
  full := false
  saved := { opcode := 0, param := 0, size := 0, source := 0, address := 0, mask := 0, data := 0 }

def edge : State where
  full :=
    if x.ioDeqReady && ioDeqValid s x && !x.ioRepeat then false
    else if ioEnqReady s x && x.ioEnqValid && x.ioRepeat then true
    else s.full
  saved := if ioEnqReady s x && x.ioEnqValid && x.ioRepeat then x.ioEnqBits else s.saved

end Repeater6

/-! ### `sirv_tlfragmenter_qspi_1` -/

namespace TlFragmenter

open TileLink

structure State where
  repeater : Repeater6.State
  acknum : BitVec 5
  dOrig : BitVec 3
  gennum : BitVec 5
  deriving DecidableEq, Repr

/-- The inputs of the two A channels. -/
structure AInput where
  inAValid : Bool
  inABits : A 2 1 8
  outAReady : Bool

/-- The inputs of the two D channels. -/
structure DInput where
  inDReady : Bool
  outDValid : Bool
  outDBits : D 7 1 8

variable (s : State) (x : AInput) (y : DInput) (d : D 7 1 8)

/-! #### Channel A -/

/-- `repeater_io_deq_bits_..` -/
def deqBits : A 2 1 8 := if s.repeater.full then s.repeater.saved else x.inABits

def aFrag : BitVec 3 := if 0 < (deqBits s x).size then 0 else (deqBits s x).size

def t1497 : BitVec 12 := 0x1f#12 <<< (deqBits s x).size

def aOrigOH1 : BitVec 5 := ~~~(t1497 s x).setWidth 5

def t1501 : BitVec 1 := (1#8 <<< aFrag s x).setWidth 1

def aFragOH1 : BitVec 1 := ~~~t1501 s x

def aFirst : Bool := s.gennum == 0

def oldGennum1 : BitVec 5 := if aFirst s then aOrigOH1 s x else s.gennum - 1

def newGennum : BitVec 5 := oldGennum1 s x &&& ~~~(aFragOH1 s x).setWidth 5

def ioRepeat : Bool := newGennum s x != 0

def t1528 : BitVec 5 := ~~~newGennum s x &&& aOrigOH1 s x

/-- The ports of `u_repeater`. -/
def repeaterInput : Repeater6.Input where
  ioRepeat := ioRepeat s x
  ioEnqValid := x.inAValid
  ioEnqBits := x.inABits
  ioDeqReady := x.outAReady

def inAReady : Bool := Repeater6.ioEnqReady s.repeater (repeaterInput s x)

def outAValid : Bool := Repeater6.ioDeqValid s.repeater (repeaterInput s x)

def outABits : A 7 1 8 where
  opcode := (deqBits s x).opcode
  param := (deqBits s x).param
  size := aFrag s x
  source := (deqBits s x).source ++ newGennum s x
  address := (deqBits s x).address ||| (t1528 s x).setWidth 30
  mask := if s.repeater.full then 1 else x.inABits.mask
  data := x.inABits.data

/-! #### Channel D -/

def outDReady (inDReady : Bool) : Bool := inDReady

def dFirst : Bool := s.acknum == 0

def dsizeOH1 : BitVec 1 := (~~~(1#8 <<< d.size)).setWidth 1

def dFirstAcknum : BitVec 5 := d.source.setWidth 5 ||| (dsizeOH1 d).setWidth 5

def t1434 : BitVec 6 := (dFirstAcknum d ++ 1#1) &&& ~~~(dFirstAcknum d).setWidth 6

def t1438 : Bool := (t1434 d).extractLsb' 4 2 != 0

def t1439 : BitVec 4 := ((t1434 d).extractLsb' 4 2).setWidth 4 ||| (t1434 d).setWidth 4

def t1443 : Bool := (t1439 d).extractLsb' 2 2 != 0

def t1444 : BitVec 2 := (t1439 d).extractLsb' 2 2 ||| (t1439 d).setWidth 2

def t1446 : BitVec 2 := BitVec.ofBool (t1443 d) ++ BitVec.ofBool ((t1444 d).getLsbD 1)

def dFirstSize : BitVec 3 := BitVec.ofBool (t1438 d) ++ t1446 d

def inDValid (outDValid : Bool) : Bool := outDValid

def inDBits : D 2 1 8 where
  opcode := d.opcode
  param := d.param
  size := if dFirst s then dFirstSize d else s.dOrig
  source := d.source.extractLsb' 5 2
  sink := d.sink
  addrLo := d.addrLo &&& ~~~dsizeOH1 d
  data := d.data
  error := d.error

def t1447 : Bool := outDReady y.inDReady && y.outDValid

/-! #### Registers -/

def reset : State where
  repeater := Repeater6.reset
  acknum := 0
  dOrig := 0
  gennum := 0

def edge : State where
  repeater := Repeater6.edge s.repeater (repeaterInput s x)
  acknum := if t1447 y then (if dFirst s then dFirstAcknum y.outDBits else s.acknum - 1) else s.acknum
  dOrig := if t1447 y && dFirst s then dFirstSize y.outDBits else s.dOrig
  gennum := if x.outAReady && outAValid s x then newGennum s x else s.gennum

/-! ### The fragments of a word read -/

variable {s x y d}

/-- A request of a word (`size = 2`) starts the count at 3. -/
theorem aOrigOH1_eq (h : (deqBits s x).size = 2) : aOrigOH1 s x = 3 := by
  rw [aOrigOH1, t1497, h]; decide

theorem aFrag_eq (h : (deqBits s x).size = 2) : aFrag s x = 0 := by
  rw [aFrag, h]; decide

theorem newGennum_eq (h : (deqBits s x).size = 2) : newGennum s x = if s.gennum = 0 then 3 else s.gennum - 1 := by
  have hfrag : aFragOH1 s x = 0#1 := by rw [aFragOH1, t1501, aFrag_eq h]; decide
  rw [newGennum, hfrag, oldGennum1, aFirst, aOrigOH1_eq h]
  have hand : ∀ v : BitVec 5, v &&& ~~~(0#1).setWidth 5 = v := by decide
  rw [hand]
  simp only [beq_iff_eq]

/-- Without a byte request nothing changes on the A channels. -/
theorem edge_of_not_sent (h : (x.outAReady && outAValid s x) = false) :
    (edge s x y).repeater = s.repeater ∧ (edge s x y).gennum = s.gennum := by
  have henq : (Repeater6.ioEnqReady s.repeater (repeaterInput s x) && x.inAValid) = false := by
    by_contra hne
    rw [Bool.not_eq_false, Repeater6.ioEnqReady, Bool.and_eq_true, Bool.and_eq_true] at hne
    have hready : x.outAReady = true := hne.1.1
    simp [outAValid, Repeater6.ioDeqValid, repeaterInput, hready, hne.2] at h
  have hdeq : ((repeaterInput s x).ioDeqReady && Repeater6.ioDeqValid s.repeater (repeaterInput s x)) = false := h
  have hval : (repeaterInput s x).ioEnqValid = x.inAValid := rfl
  refine ⟨?_, by simp [edge, h]⟩
  simp only [edge, Repeater6.edge, hdeq, hval, henq, Bool.false_and, Bool.false_eq_true, ↓reduceIte]

/-- A byte request that is not the last one of its word keeps the request in the repeater. -/
theorem edge_of_repeat (hr : x.outAReady = true) (hv : s.repeater.full = true ∨ x.inAValid = true)
    (hg : newGennum s x ≠ 0) : (edge s x y).repeater.full = true ∧
      (edge s x y).repeater.saved = deqBits s x ∧ (edge s x y).gennum = newGennum s x := by
  have hrep : (repeaterInput s x).ioRepeat = true := by simpa [repeaterInput, ioRepeat] using hg
  cases hf : s.repeater.full <;>
    simp_all [edge, Repeater6.edge, Repeater6.ioDeqValid, Repeater6.ioEnqReady, repeaterInput, outAValid, deqBits]

/-- The last one empties the repeater. -/
theorem edge_of_last (hr : x.outAReady = true) (hf : s.repeater.full = true) (hg : newGennum s x = 0) :
    (edge s x y).repeater.full = false ∧ (edge s x y).gennum = 0 := by
  simp [edge, Repeater6.edge, Repeater6.ioDeqValid, repeaterInput, outAValid, ioRepeat, hr, hf, hg]

/-- The first response of a word restores the size of the request from its tag. -/
theorem dFirst_eq (hs : d.size = 0) (ht : d.source.setWidth 5 = 3#5) : dFirstAcknum d = 3 ∧ dFirstSize d = 2 := by
  have hack : dFirstAcknum d = 3 := by rw [dFirstAcknum, dsizeOH1, hs, ht]; decide
  refine ⟨hack, ?_⟩
  simp only [dFirstSize, t1446, t1444, t1443, t1439, t1438, t1434, hack]
  decide

end TlFragmenter
