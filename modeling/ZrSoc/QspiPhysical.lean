import ZrSoc.Sync.Run

/-!
# The physical layer of the QSPI (`rtl/perips/sirv_qspi_physical.v`)

The bit engine: it accepts micro-operations, which are transfers of `cnt` beats or delays of `cnt` SCK periods, and
counts them down in `scnt`, each period in two runs of `tcnt`.  `cref` is the internal SCK, high in the first half of
a period.  Bit `j` of `dq` is the data line `io_port_dq_j`.
-/

namespace QspiPhysical

structure SckCtrl where
  div : BitVec 12
  pol : Bool
  pha : Bool
  deriving DecidableEq, Repr

structure Fmt where
  proto : BitVec 2
  endian : Bool
  iodir : Bool
  deriving DecidableEq, Repr

/-- A micro-operation; `fn` is 0 for a transfer and 1 for a delay. -/
structure Op where
  fn : Bool
  stb : Bool
  cnt : BitVec 8
  data : BitVec 8
  deriving DecidableEq, Repr

structure State where
  ctrlSck : SckCtrl
  ctrlFmt : Fmt
  protoS : Bool
  protoD : Bool
  protoQ : Bool
  setupD : Bool
  t119 : Bool
  t120 : Bool
  sampleD : Bool
  t122 : Bool
  t123 : Bool
  lastD : Bool
  scnt : BitVec 8
  tcnt : BitVec 12
  sck : Bool
  cref : Bool
  buffer : BitVec 8
  txd : BitVec 4
  done : Bool
  xfr : Bool
  deriving DecidableEq, Repr

structure Input where
  dqI : BitVec 4
  ctrlSck : SckCtrl
  ctrlFmt : Fmt
  opValid : Bool
  op : Op
  deriving DecidableEq, Repr

variable (s : State) (x : Input)

/-! ### Combinational signals -/

def stop : Bool := s.scnt == 0#8

def beat : Bool := s.tcnt == 0#12

def cinv : Bool := s.ctrlSck.pha ^^ s.ctrlSck.pol

def scntEqOne : Bool := s.scnt == 1#8

def crefRise : Bool := beat s && !s.cref

def gen21 : Bool := scntEqOne s && crefRise s || stop s

/-- `io_op_ready` -/
def t251 : Bool := gen21 s && s.done

def opReady : Bool := t251 s

def rev8 (v : BitVec 8) : BitVec 8 := v.reverse

def bufferIn : BitVec 8 := if !x.ctrlFmt.endian then x.op.data else rev8 x.op.data

def mask (n : ℕ) (b : Bool) : BitVec n := if b then BitVec.allOnes n else 0#n

theorem mask_true_and {n : ℕ} (v : BitVec n) : mask n true &&& v = v := by
  rw [mask, if_pos rfl, BitVec.allOnes_and]

theorem mask_false_and {n : ℕ} (v : BitVec n) : mask n false &&& v = 0#n := by
  rw [mask, if_neg Bool.false_ne_true, BitVec.zero_and]

/-- The buffer shifts before the next beat and after the last sample. -/
def shifts : Bool := s.setupD || s.sampleD && stop s

def t179 : BitVec 8 :=
  (mask 8 s.protoS &&&
    ((if shifts s then s.buffer.extractLsb' 0 7 else s.buffer.extractLsb' 1 7) ++
      (if s.sampleD then x.dqI.extractLsb' 1 1 else s.buffer.extractLsb' 0 1))) |||
  (mask 8 s.protoD &&&
    ((if shifts s then s.buffer.extractLsb' 0 6 else s.buffer.extractLsb' 2 6) ++
      (if s.sampleD then x.dqI.extractLsb' 0 2 else s.buffer.extractLsb' 0 2))) |||
  (mask 8 s.protoQ &&&
    ((if shifts s then s.buffer.extractLsb' 0 4 else s.buffer.extractLsb' 4 4) ++
      (if s.sampleD then x.dqI else s.buffer.extractLsb' 0 4)))

/-- The dual part has three bits of the buffer, as in the source. -/
def t193 : BitVec 4 :=
  (if (if gen21 s then x.ctrlFmt.proto == 0#2 else s.protoS) then
    ((if gen21 s then bufferIn x else s.buffer).extractLsb' 7 1).setWidth 4 else 0#4) |||
  (if (if gen21 s then x.ctrlFmt.proto == 1#2 else s.protoD) then
    ((if gen21 s then bufferIn x else s.buffer).extractLsb' 5 3).setWidth 4 else 0#4) |||
  (if (if gen21 s then x.ctrlFmt.proto == 2#2 else s.protoQ) then
    (if gen21 s then bufferIn x else s.buffer).extractLsb' 4 4 else 0#4)

/-- `T_251 & io_op_valid & ~io_op_bits_fn` -/
def accepts : Bool := t251 s && x.opValid && !x.op.fn

def gen60 : Bool :=
  accepts s x || (!scntEqOne s || !crefRise s) && (!stop s && beat s && s.xfr && !s.cref)

/-- The next value of `T_119`: the clock edge at which the data lines are sampled. -/
def samples : Bool := !stop s && beat s && s.xfr && s.cref

/-! ### Ports -/

def portSck : Bool := s.sck

def portDqO : BitVec 4 := s.txd

def portDqOe : BitVec 4 :=
  BitVec.ofBool (s.ctrlFmt.iodir && s.protoQ) ++ BitVec.ofBool (s.ctrlFmt.iodir && s.protoQ) ++
    BitVec.ofBool (s.ctrlFmt.iodir && (s.protoQ || s.protoD)) ++
    BitVec.ofBool (s.ctrlFmt.iodir && (s.protoQ || s.protoD || s.protoS))

def rxValid : Bool := s.done

def rxBits : BitVec 8 := if s.ctrlFmt.endian then rev8 s.buffer else s.buffer

/-! ### Registers -/

def reset : State where
  ctrlSck := { div := 0#12, pol := false, pha := false }
  ctrlFmt := { proto := 0#2, endian := false, iodir := false }
  protoS := true
  protoD := false
  protoQ := false
  setupD := false
  t119 := false
  t120 := false
  sampleD := false
  t122 := false
  t123 := false
  lastD := false
  scnt := 0#8
  tcnt := 0#12
  sck := false
  cref := true
  buffer := 0#8
  txd := 0#4
  done := true
  xfr := false

/-- `T_251 & io_op_valid & io_op_bits_stb` -/
def strobes : Bool := t251 s && x.opValid && x.op.stb

def edge : State where
  ctrlSck := if strobes s x && x.op.fn then x.ctrlSck else s.ctrlSck
  ctrlFmt := if strobes s x then x.ctrlFmt else s.ctrlFmt
  protoS := if strobes s x then x.ctrlFmt.proto == 0#2 else s.protoS
  protoD := if strobes s x then x.ctrlFmt.proto == 1#2 else s.protoD
  protoQ := if strobes s x then x.ctrlFmt.proto == 2#2 else s.protoQ
  setupD := gen60 s x
  t119 := samples s
  t120 := s.t119
  sampleD := s.t120
  t122 := scntEqOne s && beat s && s.xfr && s.cref
  t123 := s.t122
  lastD := s.t123
  scnt :=
    if t251 s && x.opValid then x.op.cnt
    else if !stop s && beat s && !s.cref then s.scnt - 1#8
    else s.scnt
  tcnt := if stop s || beat s then s.ctrlSck.div else s.tcnt - 1#12
  sck :=
    if t251 s && x.opValid && x.op.fn && x.op.stb then x.ctrlSck.pol
    else if accepts s x then cinv s
    else if beat s then
      if scntEqOne s && !s.cref then s.ctrlSck.pol
      else if !stop s && s.xfr then s.cref ^^ cinv s
      else s.sck
    else s.sck
  cref := if !stop s && beat s then !s.cref else s.cref
  buffer := if accepts s x then bufferIn x else t179 s x
  txd := if gen60 s x then t193 s x else s.txd
  done := if accepts s x then x.op.cnt == 0#8 else if s.lastD then true else s.done
  xfr := if t251 s && x.opValid then !x.op.fn else s.xfr

def machine : Sync.Machine State Input where
  reset := reset
  edge := edge

end QspiPhysical
