import ZrSoc.TlFragmenter

/-!
# The width widget of the flash port (`rtl/perips/sirv_tlwidthwidget_qspi.v`)

Channel A is wired through, as the repeater that the module once had never repeats.  Channel D gathers the bytes of a
response in `T_1512`, counted by `T_1527`, and passes the last one on together with the bytes gathered.
-/

namespace TlWidthWidget

open TileLink

structure State where
  t1512 : BitVec 24
  t1527 : BitVec 2
  deriving DecidableEq, Repr

/-! ### Channel A -/

variable (b : A 2 4 32)

def inAReady (outAReady : Bool) : Bool := outAReady

def outAValid (inAValid : Bool) : Bool := inAValid

def t1535 : BitVec 2 := ~~~(3#2 <<< b.size)

def t1541 : BitVec 4 :=
  ~~~(BitVec.ofBool ((t1535 b).getLsbD 0) ++ BitVec.ofBool ((t1535 b).getLsbD 1) ++
    BitVec.ofBool ((t1535 b).getLsbD 0) ++ 0#1)

def outABits : A 2 1 8 where
  opcode := b.opcode
  param := b.param
  size := b.size
  source := b.source
  address := b.address
  mask :=
    BitVec.ofBool ((t1541 b).getLsbD 0 && b.mask.getLsbD 0 || (t1541 b).getLsbD 1 && b.mask.getLsbD 1 ||
      (t1541 b).getLsbD 2 && b.mask.getLsbD 2 || (t1541 b).getLsbD 3 && b.mask.getLsbD 3)
  data := 0

/-! ### Channel D -/

structure DInput where
  inDReady : Bool
  outDValid : Bool
  outDBits : D 2 1 8

variable (s : State) (y : DInput) (d : D 2 1 8)

def t1515 : BitVec 32 := d.data ++ s.t1512

def t1534 : BitVec 2 := ~~~(3#2 <<< d.size)

def t1536 : Bool := s.t1527 == t1534 d

def outDReady : Bool := y.inDReady || !t1536 s y.outDBits

def t1540 : Bool := outDReady s y && y.outDValid

def inDValid : Bool := y.outDValid && t1536 s y.outDBits

def inDBits : D 2 2 32 where
  opcode := d.opcode
  param := d.param
  size := d.size
  source := d.source
  sink := d.sink
  addrLo := d.addrLo.setWidth 2
  data :=
    if 0 = d.size then
      (t1515 s d).extractLsb' 24 8 ++ (t1515 s d).extractLsb' 24 8 ++ (t1515 s d).extractLsb' 24 8 ++
        (t1515 s d).extractLsb' 24 8
    else if 1 = d.size then (t1515 s d).extractLsb' 16 16 ++ (t1515 s d).extractLsb' 16 16
    else t1515 s d
  error := d.error

def reset : State where
  t1512 := 0
  t1527 := 0

def edge : State where
  t1512 := if t1540 s y then (t1515 s y.outDBits).extractLsb' 8 24 else s.t1512
  t1527 := if t1540 s y then (if t1536 s y.outDBits then 0 else s.t1527 + 1) else s.t1527

end TlWidthWidget
