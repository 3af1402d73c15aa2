import ZrSoc.PeripSlots
import ZrSoc.UartDriver

/-!
# The read data of the peripherals

What the register blocks give on a read (`.._d_bits_data`), and the block of the clock generator
(`rtl/perips/sirv_hclkgen_regs.v`), whose registers drive nothing inside the SoC.  The PWM block decodes fewer bits of
the address than the others and repeats its registers through its page.
-/

namespace Gpio

variable (s : State) (x : Input)

/-- `io_in_0_d_bits_data` -/
def rdata : BitVec 32 :=
  if x.port.aAddress.extractLsb' 7 5 == 0#5 then
    match word x with
    | 16 => s.xorReg
    | 15 => s.iofSelReg
    | 14 => s.iofEnReg
    | 13 => s.lowIpReg
    | 12 => s.lowIeReg
    | 11 => s.highIpReg
    | 10 => s.highIeReg
    | 9 => s.fallIpReg
    | 8 => s.fallIeReg
    | 7 => s.riseIpReg
    | 6 => s.riseIeReg
    | 5 => s.dsReg
    | 4 => s.pueReg
    | 3 => s.portReg
    | 2 => s.oeReg
    | 1 => s.ieReg
    | 0 => s.valueReg
    | _ => 0#32
  else 0#32

end Gpio

namespace Pwm8

variable (s : State) (x : Input)

/-- `io_regs_cfg_read` -/
def cfgRead : BitVec 32 :=
  s.ip ++ s.gang ++ 0#4 ++ s.center ++ 0#2 ++ BitVec.ofBool s.oneShot ++ BitVec.ofBool s.countAlways ++ 0#1 ++
    BitVec.ofBool s.deglitch ++ BitVec.ofBool s.zerocmp ++ BitVec.ofBool s.sticky ++ 0#4 ++ s.scale

/-- `io_regs_cmp_k_read` -/
def cmpRead (k : ℕ) : BitVec 8 := if h : k < 4 then s.cmp ⟨k, h⟩ else 0#8

/-- `tl_d_bits_data` -/
def rdata : BitVec 32 :=
  match word x with
  | 11 => 0#24 ++ cmpRead s 3
  | 10 => 0#24 ++ cmpRead s 2
  | 9 => 0#24 ++ cmpRead s 1
  | 8 => 0#24 ++ cmpRead s 0
  | 7 => 1#32
  | 4 => 0#24 ++ pwms s
  | 2 => 0#9 ++ s.pwmcount
  | 0 => cfgRead s
  | _ => 0#32

end Pwm8

namespace FlashQspi

variable (s : State) (x : Input)

/-- `fifo_io_ip_txwm` -/
def ipTxwm : Bool := decide (Queue1.count s.fifo.txq < s.regs.wmTx)

/-- `fifo_io_ip_rxwm` -/
def ipRxwm : Bool := decide (s.regs.wmRx < Queue1.count s.fifo.rxq)

/-- `io_tl_r_0_d_bits_data` -/
def rdata : BitVec 32 :=
  if x.port.aAddress.extractLsb' 7 5 == 0#5 then
    match word x with
    | 29 => 0#30 ++ BitVec.ofBool (ipRxwm s) ++ BitVec.ofBool (ipTxwm s)
    | 28 => 0#30 ++ BitVec.ofBool s.regs.ieRxwm ++ BitVec.ofBool s.regs.ieTxwm
    | 25 => s.regs.insnPadCode ++ s.regs.insnCmdCode ++ 0#2 ++ s.regs.insnDataProto ++ s.regs.insnAddrProto ++
        s.regs.insnCmdProto ++ s.regs.insnPadCnt ++ s.regs.insnAddrLen ++ BitVec.ofBool s.regs.insnCmdEn
    | 24 => 0#31 ++ BitVec.ofBool s.regs.flashEn
    | 21 => 0#28 ++ s.regs.wmRx
    | 20 => 0#28 ++ s.regs.wmTx
    | 19 => BitVec.ofBool (!Queue1.deqValid s.fifo.rxq) ++ 0#23 ++ Queue1.deqBits s.fifo.rxq
    | 18 => BitVec.ofBool (!Queue1.enqReady s.fifo.txq) ++ 0#31
    | 16 => 0#12 ++ s.regs.fmt.fmtLen ++ 0#12 ++ BitVec.ofBool s.regs.fmt.fmtIodir ++
        BitVec.ofBool s.regs.fmt.fmtEndian ++ s.regs.fmt.fmtProto
    | 11 => 0#8 ++ s.regs.dla.interxfr ++ 0#8 ++ s.regs.dla.intercs
    | 10 => 0#8 ++ s.regs.dla.sckcs ++ 0#8 ++ s.regs.dla.cssck
    | 6 => 0#30 ++ s.regs.fmt.csMode
    | 5 => 0#31 ++ BitVec.ofBool s.regs.csDflt0
    | 4 => 0#31 ++ BitVec.ofBool s.regs.csId
    | 1 => 0#30 ++ BitVec.ofBool s.regs.sckPol ++ BitVec.ofBool s.regs.sckPha
    | 0 => 0#20 ++ s.regs.sckDiv
    | _ => 0#32
  else 0#32

end FlashQspi

/-! ### The clock generator -/

namespace Hclkgen

open RegisterPort (Slot)

structure State where
  hfxoscen : Bool
  pllN : BitVec 5
  pllM : BitVec 8
  pllOD : BitVec 2
  pllbypass : Bool
  pllRESET : Bool
  pllASLEEP : Bool
  plloutdiv : BitVec 6
  plloutdivby1 : Bool
  deriving DecidableEq, Repr

variable (s : State) (c : Slot)

/-- `icb_wr_en` with the selection of the word at `addr`. -/
def writes (addr : BitVec 12) : Bool := c.cmdValid && c.rspReady && !c.cmd.read && c.cmd.addr.setWidth 12 == addr

/-- `hfxosccfg_r` -/
def hfxosccfg : BitVec 32 := 0#1 ++ BitVec.ofBool s.hfxoscen ++ 0#30

/-- `pllcfg_r` -/
def pllcfg : BitVec 32 :=
  0#1 ++ BitVec.ofBool s.pllRESET ++ BitVec.ofBool s.pllASLEEP ++ 0#10 ++ BitVec.ofBool s.pllbypass ++ 0#3 ++ s.pllOD ++
    s.pllM ++ s.pllN

/-- `plloutdiv_r` -/
def plloutdivWord : BitVec 32 := 0#23 ++ BitVec.ofBool s.plloutdivby1 ++ 0#2 ++ s.plloutdiv

/-- `i_icb_rsp_rdata` -/
def rdata : BitVec 32 :=
  if c.cmd.addr.setWidth 12 == 4#12 then hfxosccfg s
  else if c.cmd.addr.setWidth 12 == 8#12 then pllcfg s
  else if c.cmd.addr.setWidth 12 == 12#12 then plloutdivWord s
  else 0#32

def reset : State where
  hfxoscen := true
  pllN := 2#5
  pllM := 0b00110010#8
  pllOD := 2#2
  pllbypass := true
  pllRESET := false
  pllASLEEP := false
  plloutdiv := 0#6
  plloutdivby1 := true

def edge : State where
  hfxoscen := if writes c 4#12 then c.cmd.wdata.getLsbD 30 else s.hfxoscen
  pllN := if writes c 8#12 then c.cmd.wdata.extractLsb' 0 5 else s.pllN
  pllM := if writes c 8#12 then c.cmd.wdata.extractLsb' 5 8 else s.pllM
  pllOD := if writes c 8#12 then c.cmd.wdata.extractLsb' 13 2 else s.pllOD
  pllbypass := if writes c 8#12 then c.cmd.wdata.getLsbD 18 else s.pllbypass
  pllRESET := if writes c 8#12 then c.cmd.wdata.getLsbD 30 else s.pllRESET
  pllASLEEP := if writes c 8#12 then c.cmd.wdata.getLsbD 29 else s.pllASLEEP
  plloutdiv := if writes c 12#12 then c.cmd.wdata.extractLsb' 0 6 else s.plloutdiv
  plloutdivby1 := if writes c 12#12 then c.cmd.wdata.getLsbD 8 else s.plloutdivby1

def machine : Sync.Machine State Slot where
  reset := reset
  edge := edge

end Hclkgen

namespace PeripSlots

variable (s : State) (x : Input)

/-- `oK_icb_rsp_rdata` of the slot of block `b`. -/
def rdata : Block → BitVec 32
  | .gpio => Gpio.rdata s.gpio (gpioInput x)
  | .uart0 => Uart.rdata s.uart0 (uartInput x)
  | .qspi0 => FlashQspi.rdata s.qspi0 (qspiInput x)
  | .pwm0 => Pwm8.rdata s.pwm0 (pwmInput x)

end PeripSlots
