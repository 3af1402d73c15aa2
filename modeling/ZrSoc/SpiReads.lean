import ZrSoc.SpiBytes
import Mathlib.Data.List.Forall2

/-!
# Sequential reads of the flash device

A master drives the pins of the device through a list of values, of which each may be held for any time.  A period of
SCK is the pin seen low any number of times, at least once high and low again; a read (`Performs`) selects the device,
clocks the command and the address into it and as many samples out of it as it wants, and releases it.  The master takes
what is on the lines at each rising edge (`samples`).

After whatever else has happened on the pins, a session of reads delivers the bytes of each (`reads_bytes`).
-/

namespace SpiModel

/-- What the master drives: the pins that clock the device and the four lines. -/
structure Drive where
  pins : Pins
  dqI : BitVec 4
  deriving DecidableEq, Repr

/-- What the master samples: the lines, and those that the device does not drive. -/
structure Lines where
  dqO : BitVec 4
  dqT : BitVec 4
  deriving DecidableEq, Repr

/-- The device and its pins as it has last seen them. -/
structure Device where
  pins : Pins
  regs : State
  deriving DecidableEq, Repr

def lines (d : State) : Lines := ⟨dqO d, dqT d⟩

variable (size : ℕ) (mem : ℕ → BitVec 8) (undef : BitVec 8)

def drive (c : Device) (x : Drive) : Device := ⟨x.pins, step size mem undef c.regs c.pins x.pins x.dqI⟩

def after (c : Device) (w : List Drive) : Device := w.foldl (drive size mem undef) c

/-- The lines at the rising edges of SCK under the chip select. -/
def samples (c : Device) : List Drive → List Lines
  | [] => []
  | x :: w => (if !c.pins.sck && x.pins.sck && !x.pins.csN then [lines c.regs] else []) ++
      samples (drive size mem undef c x) w

/-! ### Reads -/

/-- The device is selected, with SCK low or high, or it is not selected, with SCK low. -/
def SckLow (x : Drive) : Prop := x.pins = ⟨false, false⟩

def SckHigh (x : Drive) : Prop := x.pins = ⟨true, false⟩

def Released (x : Drive) : Prop := x.pins = ⟨false, true⟩

/-- A period of SCK with `q` on the lines at its rising edge. -/
inductive Period (q : BitVec 4) : List Drive → Prop
  | intro {lows highs : List Drive} {first last : Drive} (hlows : ∀ x ∈ lows, SckLow x) (hfirst : SckHigh first)
      (hq : first.dqI = q) (hhighs : ∀ x ∈ highs, SckHigh x) (hlast : SckLow last) :
      Period q (lows ++ first :: (highs ++ [last]))

/-- The first `n` periods, with `q k` on the lines at the rising edge of period `k`. -/
inductive Periods (q : ℕ → BitVec 4) : ℕ → List Drive → Prop
  | zero : Periods q 0 []
  | succ {n : ℕ} {w v : List Drive} (hw : Periods q n w) (hv : Period (q n) v) : Periods q (n + 1) (w ++ v)

/-- A read of `count` bytes from address `addr` on. -/
structure Read where
  code : BitVec 8
  mode : Mode
  addr : BitVec 24
  count : ℕ

/-- The periods of SCK in a read: those of the command and the address, and those of the data. -/
def Read.periods (r : Read) : ℕ := 32 + r.count * beats r.mode

structure Read.Ok (size : ℕ) (r : Read) : Prop where
  reads : Reads r.code r.mode
  pos : 1 ≤ r.count
  inside : r.addr.toNat + r.count ≤ size

/-- The master performs the read: it selects the device, sends the command and the address on line 0, the most
significant bit first, goes on clocking for the data, and releases the device; SCK is low when it is not used. -/
inductive Performs (r : Read) : List Drive → Prop
  | intro {select clocks gap : List Drive} {q : ℕ → BitVec 4} (hselect : select ≠ [] ∧ ∀ x ∈ select, SckLow x)
      (hheader : ∀ k < 32, (q k).getLsbD 0 = (r.code ++ r.addr).getLsbD (31 - k)) (hclocks : Periods q r.periods clocks)
      (hgap : gap ≠ [] ∧ ∀ x ∈ gap, Released x) : Performs r (select ++ (clocks ++ gap))

inductive Session : List Read → List Drive → Prop
  | nil : Session [] []
  | cons {r : Read} {rs : List Read} {w v : List Drive} (hw : Performs r w) (hv : Session rs v) :
      Session (r :: rs) (w ++ v)

/-- What the master has sampled in a read.  Sample `k` of a byte has its bits from bit `(beats - 1 - k) * width` on, on
lines that the device drives. -/
structure DeliversBytes (r : Read) (out : List Lines) : Prop where
  length : out.length = r.periods
  bytes : ∀ j < r.count, ∀ k < beats r.mode, ∃ s, out[32 + j * beats r.mode + k]? = some s ∧
    ∀ l < width r.mode, s.dqT.getLsbD (outLine r.mode l) = false ∧
      s.dqO.getLsbD (outLine r.mode l) =
        (mem (r.addr.toNat + j)).getLsbD ((beats r.mode - 1 - k) * width r.mode + l)

/-- The registers after `n` periods of SCK. -/
def clocked (d : State) (q : ℕ → BitVec 4) : ℕ → State
  | 0 => d
  | n + 1 => period size mem undef (clocked d q n) (q n)

variable {c : Device} {d : State} {w v : List Drive} {x : Drive} {code : BitVec 8} {M : Mode}
  {a : BitVec 24} {r : Read}

/-! ### The pins -/

theorem after_append : after size mem undef c (w ++ v) = after size mem undef (after size mem undef c w) v :=
  List.foldl_append

theorem samples_append : samples size mem undef c (w ++ v) =
    samples size mem undef c w ++ samples size mem undef (after size mem undef c w) v := by
  induction w generalizing c with
  | nil => rfl
  | cons x w ih =>
    rw [List.cons_append, samples, samples, ih, List.append_assoc]
    rfl

/-- SCK stays low while the device is selected. -/
theorem run_sckLow (hc : c.pins.sck = false) (hw : ∀ x ∈ w, SckLow x) : (after size mem undef c w).pins.sck = false ∧
    (after size mem undef c w).regs = c.regs ∧ samples size mem undef c w = [] := by
  induction w generalizing c with
  | nil => exact ⟨hc, rfl, rfl⟩
  | cons x w ih =>
    have hx : x.pins = ⟨false, false⟩ := hw x List.mem_cons_self
    have hd : drive size mem undef c x = ⟨⟨false, false⟩, c.regs⟩ := by simp [drive, step, hx, hc]
    obtain ⟨hsck, hregs, hs⟩ := ih (c := drive size mem undef c x) (by rw [hd])
      fun y hy => hw y (List.mem_cons_of_mem x hy)
    refine ⟨hsck, hregs.trans (by rw [hd]), ?_⟩
    rw [samples, hs, hx]
    simp

/-- SCK stays high while the device is selected. -/
theorem run_sckHigh (hc : c.pins = ⟨true, false⟩) (hw : ∀ x ∈ w, SckHigh x) :
    after size mem undef c w = c ∧ samples size mem undef c w = [] := by
  induction w generalizing c with
  | nil => exact ⟨rfl, rfl⟩
  | cons x w ih =>
    have hx : x.pins = ⟨true, false⟩ := hw x List.mem_cons_self
    have hd : drive size mem undef c x = c := by
      cases c
      simp only at hc
      simp [drive, step, hx, hc]
    have hrest := ih (c := drive size mem undef c x) (by rw [hd, hc]) fun y hy => hw y (List.mem_cons_of_mem x hy)
    rw [hd] at hrest
    refine ⟨?_, ?_⟩
    · rw [after, List.foldl_cons, hd]
      exact hrest.1
    · rw [samples, hd, hrest.2, hc, hx]
      simp

/-- A period clocks the registers, and the master samples what they show before it. -/
theorem run_period {q : BitVec 4} (hc : c.pins.sck = false) (hw : Period q w) :
    after size mem undef c w = ⟨⟨false, false⟩, period size mem undef c.regs q⟩ ∧
      samples size mem undef c w = [lines c.regs] := by
  obtain @⟨lows, highs, first, last, hlows, hfirst, hq, hhighs, hlast⟩ := hw
  obtain ⟨hsck, hregs, hs⟩ := run_sckLow size mem undef hc hlows
  have hd : drive size mem undef (after size mem undef c lows) first =
      ⟨⟨true, false⟩, sckRise c.regs false q⟩ := by
    rw [SckHigh] at hfirst
    simp [drive, step, hsck, hregs, hfirst, hq]
  obtain ⟨hafter, hsamples⟩ := run_sckHigh size mem undef
    (c := ⟨⟨true, false⟩, sckRise c.regs false q⟩) rfl hhighs
  rw [SckLow] at hlast
  rw [after_append, samples_append, after, List.foldl_cons, ← after, samples, hd, after_append, samples_append, hafter,
    hs, hsamples, hsck, hregs, hfirst]
  constructor
  · simp [after, drive, step, hlast, period]
  · simp [samples, hlast]

theorem run_periods {q : ℕ → BitVec 4} {n : ℕ} (hc : c.pins.sck = false) (hw : Periods q n w) :
    (after size mem undef c w).pins.sck = false ∧
      (after size mem undef c w).regs = clocked size mem undef c.regs q n ∧
      samples size mem undef c w = (List.range n).map fun k => lines (clocked size mem undef c.regs q k) := by
  induction hw with
  | zero => exact ⟨hc, rfl, rfl⟩
  | succ _ hv ih =>
    obtain ⟨hsck, hregs, hs⟩ := ih
    obtain ⟨hafter, hsample⟩ := run_period size mem undef hsck hv
    rw [after_append, samples_append, hafter, hsample, hs, hregs, List.range_succ, List.map_append]
    exact ⟨rfl, rfl, rfl⟩

/-- A device that is not selected has taken nothing. -/
theorem fresh_drive (hc : c.pins.csN = true → Fresh c.regs) (hx : x.pins.csN = true) :
    Fresh (drive size mem undef c x).regs := by
  have hcs : Fresh (if !c.pins.csN && x.pins.csN then csRise c.regs else c.regs) := by
    cases h : c.pins.csN with
    | false => simpa [hx] using fresh_csRise
    | true => simpa using hc h
  have hrise {d : State} (hd : Fresh d) : Fresh (sckRise d true x.dqI) := by
    have hlast : lastBeat d = false := by rw [lastBeat_eq, hd.mode, hd.cntBit]; rfl
    exact ⟨hd.mode, hd.input, rfl, rfl⟩
  have hfall {d : State} (hd : Fresh d) : Fresh (sckFall size mem undef d true) :=
    ⟨rfl, by simp [sckFall], hd.cntBit, hd.cntByte⟩
  rw [drive, step, hx]
  rw [hx] at hcs
  split
  · exact hrise hcs
  · split
    · exact hfall hcs
    · exact hcs

/-- Whatever has happened on the pins, the device is ready for a read when it is not selected. -/
theorem fresh_after (hc : c.pins.csN = true → Fresh c.regs) (w : List Drive) :
    (after size mem undef c w).pins.csN = true → Fresh (after size mem undef c w).regs := by
  induction w generalizing c with
  | nil => exact hc
  | cons x w ih => exact ih fun hx => fresh_drive size mem undef hc hx

/-- While the device is not selected, it stays so and the master samples nothing. -/
theorem run_released (hw : ∀ x ∈ w, Released x) (hne : w ≠ []) :
    (after size mem undef c w).pins = ⟨false, true⟩ ∧ samples size mem undef c w = [] := by
  induction w generalizing c with
  | nil => exact absurd rfl hne
  | cons x w ih =>
    have hx : x.pins = ⟨false, true⟩ := hw x List.mem_cons_self
    have hrest : (after size mem undef (drive size mem undef c x) w).pins = ⟨false, true⟩ ∧
        samples size mem undef (drive size mem undef c x) w = [] := by
      by_cases hw0 : w = []
      · subst hw0
        exact ⟨hx, rfl⟩
      · exact ih (fun y hy => hw y (List.mem_cons_of_mem x hy)) hw0
    refine ⟨hrest.1, ?_⟩
    rw [samples, hrest.2, hx]
    simp

/-! ### The registers -/

/-- The header is the command followed by the bytes of the address. -/
theorem getLsbD_header {k : ℕ} (hk : k < 32) :
    (code ++ a).getLsbD (31 - k) = (byteOf code a (k / 8)).getLsbD (7 - k % 8) := by
  rw [BitVec.getLsbD_append]
  by_cases h0 : k < 8
  · rw [if_neg (by omega), byteOf, if_pos (by omega), show 31 - k - 24 = 7 - k % 8 by omega]
  · rw [if_pos (by omega), getLsbD_byteOf (by omega) (by omega),
      show 31 - k = 24 - 8 * (k / 8) + (7 - k % 8) by omega]

variable {q : ℕ → BitVec 4}

/-- The device takes the header bit by bit. -/
theorem taking_clocked (hd : Fresh d) (hr : Reads code M)
    (hq : ∀ k < 32, (q k).getLsbD 0 = (code ++ a).getLsbD (31 - k)) {k : ℕ} (hk : k < 32) :
    Taking code a (k / 8) (byteOf code a (k / 8)) (k % 8) (clocked size mem undef d q k) := by
  induction k with
  | zero => exact hd.taking
  | succ k ih =>
    have hbit := (hq k (by omega)).trans (getLsbD_header (by omega))
    have htaking := ih (by omega)
    by_cases hlast : k % 8 < 7
    · rw [show (k + 1) / 8 = k / 8 by omega, show (k + 1) % 8 = k % 8 + 1 by omega]
      exact htaking.next hlast hbit
    · have h7 : k % 8 = 7 := by omega
      rw [h7] at hbit htaking
      rw [show (k + 1) / 8 = k / 8 + 1 by omega, show (k + 1) % 8 = 0 by omega]
      exact htaking.taken hr (by omega) hbit

/-- After the header the device shows the samples of the bytes, one after the other. -/
theorem showing_clocked (hd : Fresh d) (hr : Reads code M)
    (hq : ∀ k < 32, (q k).getLsbD 0 = (code ++ a).getLsbD (31 - k)) (j : ℕ) {k : ℕ} (hk : k < beats M) :
    Showing size mem undef code M a j k (clocked size mem undef d q (32 + j * beats M + k)) := by
  have hbyte (j : ℕ) (h0 : Showing size mem undef code M a j 0 (clocked size mem undef d q (32 + j * beats M))) (k : ℕ)
      (hk : k < beats M) :
      Showing size mem undef code M a j k (clocked size mem undef d q (32 + j * beats M + k)) := by
    induction k with
    | zero => exact h0
    | succ k ih => exact (ih (by omega)).next hk
  refine hbyte j ?_ k hk
  induction j with
  | zero =>
    have htaking := taking_clocked size mem undef hd hr hq (k := 31) (by decide)
    rw [Nat.zero_mul]
    exact htaking.showing hr (hq 31 (by decide) |>.trans (getLsbD_header (by decide)))
  | succ j ih =>
    obtain ⟨b, hb⟩ : ∃ b, b + 1 = beats M := by cases M <;> exact ⟨_, rfl⟩
    have hlast := (hbyte j ih b (by omega)).shown (q := q (32 + j * beats M + b)) hr hb
    rw [Nat.succ_mul, ← Nat.add_assoc]
    exact hb ▸ hlast

/-! ### Sessions -/

/-- A read delivers its bytes, and leaves a device that is not selected. -/
theorem run_performs (hc : c.pins.sck = false) (hd : Fresh c.regs) (hok : r.Ok size) (hw : Performs r w) :
    DeliversBytes mem r (samples size mem undef c w) ∧ (after size mem undef c w).pins = ⟨false, true⟩ ∧
      Fresh (after size mem undef c w).regs := by
  have hfresh := fresh_after size mem undef (c := c) (fun _ => hd) w
  obtain @⟨select, clocks, gap, q, ⟨-, hselect⟩, hheader, hclocks, hne, hgap⟩ := hw
  obtain ⟨hsck, hregs, hs⟩ := run_sckLow size mem undef hc hselect
  obtain ⟨-, -, hs'⟩ := run_periods size mem undef hsck hclocks
  obtain ⟨hpins, hs''⟩ := run_released size mem undef
    (c := after size mem undef (after size mem undef c select) clocks) hgap hne
  have hend : (after size mem undef c (select ++ (clocks ++ gap))).pins = ⟨false, true⟩ := by
    rw [after_append, after_append, hpins]
  refine ⟨?_, hend, hfresh (by rw [hend])⟩
  rw [samples_append, samples_append, hs, hs', hs'', hregs, List.nil_append, List.append_nil]
  refine ⟨by rw [List.length_map, List.length_range], fun j hj k hk =>
    ⟨lines (clocked size mem undef c.regs q (32 + j * beats r.mode + k)), ?_, fun l hl => ?_⟩⟩
  · have hlt : 32 + j * beats r.mode + k < r.periods := by
      have hle : (j + 1) * beats r.mode ≤ r.count * beats r.mode := Nat.mul_le_mul_right _ hj
      rw [Nat.succ_mul] at hle
      rw [Read.periods]
      omega
    rw [List.getElem?_map, List.getElem?_range hlt, Option.map_some]
  · have hinside := hok.inside
    have hfetch : fetch size mem undef (r.addr.toNat + j) = mem (r.addr.toNat + j) := if_pos (by omega)
    rw [← hfetch]
    exact (showing_clocked size mem undef hd hok.reads hheader j hk).lines hk hl

/-- In a session of reads on a device that is not selected, each read delivers its bytes. -/
theorem run_session {rs : List Read} (hc : c.pins.sck = false) (hd : Fresh c.regs) (hok : ∀ r ∈ rs, r.Ok size)
    (hw : Session rs w) : ∃ outs, samples size mem undef c w = outs.flatten ∧
      List.Forall₂ (DeliversBytes mem) rs outs := by
  induction hw generalizing c with
  | nil => exact ⟨[], rfl, List.Forall₂.nil⟩
  | cons hw _ ih =>
    obtain ⟨hout, hpins, hfresh⟩ := run_performs size mem undef hc hd (hok _ List.mem_cons_self) hw
    obtain ⟨outs, hs, houts⟩ := ih (by rw [hpins]) hfresh fun r hr => hok r (List.mem_cons_of_mem _ hr)
    exact ⟨_ :: outs, by rw [samples_append, hs, List.flatten_cons], List.Forall₂.cons hout houts⟩

/-- Whatever has happened on the pins since power-up, once the device is not selected and SCK is low every session of
reads delivers the bytes of the memory, read by read. -/
theorem reads_bytes (size : ℕ) (_hsize : size ≤ 2 ^ 24) (mem : ℕ → BitVec 8) (undef bufferIn : BitVec 8) (pins : Pins)
    (before : List Drive) (hidle : (after size mem undef ⟨pins, reset bufferIn⟩ before).pins = ⟨false, true⟩)
    (rs : List Read) (hok : ∀ r ∈ rs, r.Ok size) (w : List Drive) (hw : Session rs w) :
    ∃ outs, samples size mem undef (after size mem undef ⟨pins, reset bufferIn⟩ before) w = outs.flatten ∧
      List.Forall₂ (DeliversBytes mem) rs outs := by
  have hfresh := fresh_after size mem undef (c := ⟨pins, reset bufferIn⟩)
    (fun _ => fresh_reset) before
  exact run_session size mem undef (by rw [hidle]) (hfresh (by rw [hidle])) hok hw

/-- The shortest way to clock the device. -/
def clocking (q : ℕ → BitVec 4) : ℕ → List Drive
  | 0 => []
  | n + 1 => clocking q n ++ [⟨⟨true, false⟩, q n⟩, ⟨⟨false, false⟩, q n⟩]

theorem periods_clocking (q : ℕ → BitVec 4) (n : ℕ) : Periods q n (clocking q n) := by
  induction n with
  | zero => exact Periods.zero
  | succ n ih =>
    have hperiod : Period (q n) ([] ++ ⟨⟨true, false⟩, q n⟩ :: ([] ++ [⟨⟨false, false⟩, q n⟩])) :=
      Period.intro (List.forall_mem_nil _) rfl rfl (List.forall_mem_nil _) rfl
    exact Periods.succ ih hperiod

/-- The command and the address on line 0. -/
def header (r : Read) (k : ℕ) : BitVec 4 := (BitVec.ofBool ((r.code ++ r.addr).getLsbD (31 - k))).setWidth 4

/-- The shortest way to perform a read. -/
def performing (r : Read) : List Drive :=
  [⟨⟨false, false⟩, 0#4⟩] ++ (clocking (header r) r.periods ++ [⟨⟨false, true⟩, 0#4⟩])

theorem performs_performing (r : Read) : Performs r (performing r) :=
  Performs.intro ⟨by simp, by simp [SckLow]⟩ (fun k _ => by simp [header]) (periods_clocking _ _)
    ⟨by simp, by simp [Released]⟩

/-- The bytes 5 and 6 of a memory, on four lines, and then byte 5 on one line. -/
def twoReads : List Read := [⟨0x6b#8, .quad, 5#24, 2⟩, ⟨0x03#8, .single, 5#24, 1⟩]

theorem reads_bytes_twoReads : ∃ outs, samples 8 (BitVec.ofNat 8) 0#8 ⟨⟨false, true⟩, reset 0#8⟩
    (twoReads.flatMap performing) = outs.flatten ∧ List.Forall₂ (DeliversBytes (BitVec.ofNat 8)) twoReads outs := by
  have hok : ∀ r ∈ twoReads, r.Ok 8 := by
    simp only [twoReads, List.mem_cons, List.not_mem_nil, or_false, forall_eq_or_imp, forall_eq]
    exact ⟨⟨Reads.quad, by decide, by decide⟩, ⟨Reads.read, by decide, by decide⟩⟩
  have hw : Session twoReads (twoReads.flatMap performing) :=
    Session.cons (performs_performing _) (Session.cons (performs_performing _) Session.nil)
  exact reads_bytes 8 (by decide) (BitVec.ofNat 8) 0#8 0#8 ⟨false, true⟩ [] rfl twoReads hok _ hw

end SpiModel
