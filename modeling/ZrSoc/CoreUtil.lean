import Mathlib.Data.BitVec
import Mathlib.Logic.Function.Iterate

/-!
# The CRC of the benchmark

Model of the service functions of `core_util.c`.  `crcu8` shifts a byte into a 16-bit code, the low bit first; `crcu16`
and `crcu32` do so with the bytes and halves of a word, the low one first.
-/

namespace CoreMark

/-- One turn of the loop of `crcu8`: the bits that are left of `data`, and `crc`. -/
def crcu8Turn (s : BitVec 8 × BitVec 16) : BitVec 8 × BitVec 16 :=
  let x16 := (s.1 &&& 1) ^^^ (s.2.setWidth 8 &&& 1)
  let data := s.1 >>> 1
  let carry : Bool := x16 == 1
  let crc := if x16 == 1 then s.2 ^^^ 0x4002 else s.2
  let crc := crc >>> 1
  (data, if carry then crc ||| 0x8000 else crc &&& 0x7fff)

def crcu8 (data : BitVec 8) (crc : BitVec 16) : BitVec 16 :=
  (crcu8Turn^[8] (data, crc)).2

def crcu16 (newval crc : BitVec 16) : BitVec 16 :=
  let crc := crcu8 (newval.setWidth 8) crc
  crcu8 ((newval >>> 8).setWidth 8) crc

def crc16 (newval crc : BitVec 16) : BitVec 16 :=
  crcu16 newval crc

def crcu32 (newval : BitVec 32) (crc : BitVec 16) : BitVec 16 :=
  let crc := crc16 (newval.setWidth 16) crc
  crc16 ((newval >>> 16).setWidth 16) crc

end CoreMark
