import ZrSoc.Gpio
import ZrSoc.Pwm8

/-!
# The pins of the GPIO block

What `sirv_gpio` drives on its pins: pin by pin the port register or, where it is enabled, one of the two I/O functions,
inverted where `xorReg` says so; the input enable of a pin comes from the same place.  `e203_subsys_perips` connects the
output of the UART to function 0 of pin 17, its input to that of pin 16, and the PWM outputs to function 1 of the pins
0 to 3.
-/

namespace Gpio

/-- The ports `io_port_iof_0_o` and `io_port_iof_1_o`. -/
structure Iof where
  oval : BitVec 32
  ie : BitVec 32
  valid : BitVec 32

/-- `c ? a : b`, pin by pin. -/
def mux (c a b : BitVec 32) : BitVec 32 := c &&& a ||| ~~~c &&& b

variable (s : State) (iof0 iof1 : Iof)

/-- What the pins take from the I/O functions, or else from the register `reg`. -/
def select (out : Iof → BitVec 32) (reg : BitVec 32) : BitVec 32 :=
  mux s.iofEnReg (mux s.iofSelReg (mux iof1.valid (out iof1) reg) (mux iof0.valid (out iof0) reg)) reg

/-- `io_port_pins_o_oval` -/
def pinsOval : BitVec 32 := select s iof0 iof1 Iof.oval s.portReg ^^^ s.xorReg

/-- `io_port_pins_o_ie` -/
def pinsIe : BitVec 32 := select s iof0 iof1 Iof.ie s.ieReg

/-- Pin `k` has function 0. -/
structure Routed (k : ℕ) : Prop where
  iofEn : s.iofEnReg.getLsbD k = true
  iofSel : s.iofSelReg.getLsbD k = false
  xor : s.xorReg.getLsbD k = false

/-- Pin `k` has function 1. -/
structure RoutedOne (k : ℕ) : Prop where
  iofEn : s.iofEnReg.getLsbD k = true
  iofSel : s.iofSelReg.getLsbD k = true
  xor : s.xorReg.getLsbD k = false

/-- Pin `k` shows the port register, which is low. -/
structure Low (k : ℕ) : Prop where
  iofEn : s.iofEnReg.getLsbD k = false
  port : s.portReg.getLsbD k = false
  xor : s.xorReg.getLsbD k = false

variable {s iof0 iof1} {k : ℕ}

theorem getLsbD_mux {c a b : BitVec 32} (hk : k < 32) :
    (mux c a b).getLsbD k = if c.getLsbD k then a.getLsbD k else b.getLsbD k := by
  rw [mux, BitVec.getLsbD_or, BitVec.getLsbD_and, BitVec.getLsbD_and, BitVec.getLsbD_not, decide_eq_true hk]
  cases c.getLsbD k <;> simp

theorem Routed.select (h : Routed s k) (hk : k < 32) (hv : iof0.valid.getLsbD k = true) {out : Iof → BitVec 32}
    {reg : BitVec 32} : (Gpio.select s iof0 iof1 out reg).getLsbD k = (out iof0).getLsbD k := by
  simp only [Gpio.select, getLsbD_mux hk, h.iofEn, h.iofSel, hv, if_true, Bool.false_eq_true, if_false]

theorem Routed.pinsOval (h : Routed s k) (hk : k < 32) (hv : iof0.valid.getLsbD k = true) :
    (Gpio.pinsOval s iof0 iof1).getLsbD k = iof0.oval.getLsbD k := by
  rw [Gpio.pinsOval, BitVec.getLsbD_xor, h.select hk hv, h.xor, Bool.xor_false]

theorem Routed.pinsIe (h : Routed s k) (hk : k < 32) (hv : iof0.valid.getLsbD k = true) :
    (Gpio.pinsIe s iof0 iof1).getLsbD k = iof0.ie.getLsbD k := h.select hk hv

theorem RoutedOne.pinsOval (h : RoutedOne s k) (hk : k < 32) (hv : iof1.valid.getLsbD k = true) :
    (Gpio.pinsOval s iof0 iof1).getLsbD k = iof1.oval.getLsbD k := by
  simp only [Gpio.pinsOval, BitVec.getLsbD_xor, Gpio.select, getLsbD_mux hk, h.iofEn, h.iofSel, hv, h.xor, if_true,
    Bool.xor_false]

theorem Low.pinsOval (h : Low s k) (hk : k < 32) : (Gpio.pinsOval s iof0 iof1).getLsbD k = false := by
  simp [Gpio.pinsOval, Gpio.select, getLsbD_mux hk, h.iofEn, h.port, h.xor]

end Gpio

namespace SubsysPerips

/-- `gpio_iof_0_o` -/
def gpioIof0 (uart0Txd : Bool) : Gpio.Iof where
  oval := (BitVec.ofBool uart0Txd).setWidth 32 <<< 17
  ie := 1#32 <<< 16
  valid := 3#32 <<< 16

/-- `gpio_iof_1_o` -/
def gpioIof1 (pwm0Gpio : BitVec 4) : Gpio.Iof where
  oval := pwm0Gpio.setWidth 32
  ie := 0#32
  valid := 15#32

/-- `uart0_rxd`, the bit of `gpio_iof_0_i_ival` for pin 16. -/
def uart0Rxd (s : Gpio.State) : Bool := s.inSyncReg.getLsbD 16

end SubsysPerips

namespace Pwm8

/-- `io_gpio` -/
def gpio (s : State) : BitVec 4 := s.ip &&& ~~~(s.gang &&& s.ip.rotateRight 1)

end Pwm8
