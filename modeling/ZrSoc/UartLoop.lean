import ZrSoc.Sync.Log
import ZrSoc.Uart
import ZrSoc.UartReceive
import ZrSoc.UartSend

/-!
# The UART with its output wired to its input

`sirv_uart` with `txd` connected to `rxd`.  The transmitter and the receiver run with the same divider, at least 16, and
the transmitter starts its first frame in this configuration (`Configured`).  Every byte that enters the transmit queue
is handed over by the receiver once, in order and without an error (`round_trip`): what has entered the queue is what
the receiver has handed over, the byte on the line, the byte that waits for its start bit, and what is in the queue
(`pushed_eq`).
-/

namespace UartLoop

open Sync UartFrame

/-- The output of the transmitter is the input of the receiver. -/
def loopInput (s : Uart.State) (p : RegisterPort.Input) : Uart.Input where
  port := p
  rxd := Uart.txd s

def machine (txRam rxRam : Vector (BitVec 8) 8) : Machine Uart.State RegisterPort.Input where
  reset := Uart.reset txRam rxRam
  edge s p := Uart.edge s (loopInput s p)

variable (txRam rxRam : Vector (BitVec 8) 8) (i : ℕ → RegisterPort.Input)

abbrev run (n : ℕ) : Uart.State := (machine txRam rxRam).run i n

/-- The ports of the transmitter and of the receiver in cycle `n`. -/
def txmInput (n : ℕ) : UartTx.Input := Uart.txmInput (run txRam rxRam i n)

def rxmInput (n : ℕ) : UartRx.Input :=
  Uart.rxmInput (run txRam rxRam i n) (loopInput (run txRam rxRam i n) (i n))

def txqInput (n : ℕ) : Queue1.Input :=
  Uart.txqInput (run txRam rxRam i n) (loopInput (run txRam rxRam i n) (i n))

/-- The byte that enters the transmit queue in cycle `n`. -/
def pushed (n : ℕ) : Option (BitVec 8) := Queue1.pushed (run txRam rxRam i n).txq (txqInput txRam rxRam i n)

/-- The byte that the transmitter takes in cycle `n`. -/
def started (n : ℕ) : Option (BitVec 8) := UartTx.started (run txRam rxRam i n).txm (txmInput txRam rxRam i n)

/-- The byte that the receiver hands over in cycle `n`, the pulse of `io_out_valid`. -/
def received (n : ℕ) : Option (BitVec 8) := UartRx.received (run txRam rxRam i n).rxm

/-- From cycle `c` on the UART is enabled with the divider `div` and the stop bits `nstop`; the transmitter has not
started before. -/
structure Configured (div : BitVec 16) (nstop : Bool) (c : ℕ) : Prop where
  div_ge : 16 ≤ div.toNat
  unstarted : ∀ n < c, started txRam rxRam i n = none
  div : ∀ n, c ≤ n → (run txRam rxRam i n).regs.div = div
  nstop : ∀ n, c ≤ n → (run txRam rxRam i n).regs.nstop = nstop
  txen : ∀ n, c ≤ n → (run txRam rxRam i n).regs.txen = true
  rxen : ∀ n, c ≤ n → (run txRam rxRam i n).regs.rxen = true

/-- What the line has carried at the beginning of cycle `n`. -/
def heard (nstop : Bool) : ℕ → Heard
  | 0 => none
  | n + 1 => UartTx.hear nstop (run txRam rxRam i n).txm (heard nstop n)

/-- The registers at the beginning of cycle `n` are those of a transmitter and a receiver on one line. -/
structure Tracks (div : BitVec 16) (nstop : Bool) (c n : ℕ) : Prop where
  tx : UartTx.At div.toNat nstop (heard txRam rxRam i nstop n) (run txRam rxRam i n).txm
  rx : UartRx.At div.toNat (heard txRam rxRam i nstop n) (run txRam rxRam i n).rxm
  before : n ≤ c → (run txRam rxRam i n).txm = UartTx.reset ∧ heard txRam rxRam i nstop n = none

/-- The bytes between the transmit queue and the output of the receiver. -/
def inFlight (div : BitVec 16) (nstop : Bool) (n : ℕ) : List (BitVec 8) :=
  UartRx.onLine div.toNat (heard txRam rxRam i nstop n) ++ UartTx.held nstop (run txRam rxRam i n).txm

/-- The bytes that have entered the queue and have not been handed over. -/
def pending (div : BitVec 16) (nstop : Bool) (n : ℕ) : List (BitVec 8) :=
  inFlight txRam rxRam i div nstop n ++ Queue1.entries (run txRam rxRam i n).txq

/-- The number of cycles at most until a byte arrives, when `r` bounds those until the next start bit. -/
def arrivalRank (d : ℕ) (r : ℕ) : Heard → ℕ
  | none => UartRx.doneAt d + r
  | some (_, e) => if e ≤ UartRx.doneAt d then UartRx.doneAt d - e else UartRx.doneAt d + r

def rank (div : BitVec 16) (nstop : Bool) (n : ℕ) : ℕ :=
  arrivalRank div.toNat (UartTx.rank div.toNat nstop (run txRam rxRam i n).txm) (heard txRam rxRam i nstop n)

variable {txRam rxRam i} {div : BitVec 16} {nstop : Bool} {c n : ℕ}

theorem character : UartRx.Character (rxmInput txRam rxRam i n) := by
  cases h : (run txRam rxRam i n).regs.nstop <;>
    exact ⟨by simp only [rxmInput, Uart.rxmInput, h]; decide, by simp only [rxmInput, Uart.rxmInput, h]; decide⟩

theorem not_start (hc : Configured txRam rxRam i div nstop c) (hn : n < c) :
    UartTx.start (run txRam rxRam i n).txm (txmInput txRam rxRam i n) = false := by
  have h := hc.unstarted n hn
  rw [started, UartTx.started] at h
  by_contra hs
  simp [hs] at h

theorem tracks_reset : Tracks txRam rxRam i div nstop c 0 where
  tx := UartTx.at_reset
  rx := UartRx.at_reset
  before := fun _ => ⟨rfl, rfl⟩

theorem Tracks.succ (hc : Configured txRam rxRam i div nstop c) (ht : Tracks txRam rxRam i div nstop c n) :
    Tracks txRam rxRam i div nstop c (n + 1) := by
  have hline : (rxmInput txRam rxRam i n).in_ = past div.toNat 0 (heard txRam rxRam i nstop n) := ht.tx.line
  have htx : (run txRam rxRam i (n + 1)).txm =
      UartTx.edge (run txRam rxRam i n).txm (txmInput txRam rxRam i n) := rfl
  have hrx : (run txRam rxRam i (n + 1)).rxm =
      UartRx.edge (run txRam rxRam i n).rxm (rxmInput txRam rxRam i n) := rfl
  have hheard : heard txRam rxRam i nstop (n + 1) =
      UartTx.hear nstop (run txRam rxRam i n).txm (heard txRam rxRam i nstop n) := rfl
  by_cases hn : n < c
  · -- before the configuration the line is idle
    obtain ⟨hreset, hnone⟩ := ht.before hn.le
    have hcount : (run txRam rxRam i n).txm.counter = 0#4 := by rw [hreset]; rfl
    have htx' : (run txRam rxRam i (n + 1)).txm = UartTx.reset := by
      rw [htx, UartTx.edge_of_idle hcount (not_start hc hn), hreset]
    have hheard' : heard txRam rxRam i nstop (n + 1) = none := by
      rw [hheard, hreset, hnone]
      rfl
    have hrx' := ht.rx
    rw [hnone] at hrx' hline
    exact ⟨by rw [htx', hheard']; exact UartTx.at_reset,
      by rw [hrx, hheard']; exact hrx'.next_none hc.div_ge hline, fun _ => ⟨htx', hheard'⟩⟩
  · have hdiv := hc.div n (by omega)
    have htxdiv : (txmInput txRam rxRam i n).div.toNat = div.toNat := by rw [← hdiv]; rfl
    have hrxdiv : (rxmInput txRam rxRam i n).div.toNat = div.toNat := by rw [← hdiv]; rfl
    obtain ⟨htx', hfollows⟩ := ht.tx.next htxdiv (hc.nstop n (by omega))
    have hrx' := ht.rx
    have hd := hc.div_ge
    rw [← hrxdiv] at hrx' hfollows hline hd
    have hnext := hrx'.next hfollows hd character (hc.rxen n (by omega)) hline
    rw [hrxdiv] at hnext
    exact ⟨htx', hnext, fun hle => absurd hle (by omega)⟩

theorem tracks (hc : Configured txRam rxRam i div nstop c) (n : ℕ) : Tracks txRam rxRam i div nstop c n := by
  induction n with
  | zero => exact tracks_reset
  | succ n ih => exact ih.succ hc

/-! ### Nothing is lost or duplicated -/

/-- A cycle moves the bytes through the transmitter and over the line. -/
theorem Tracks.conservation (hc : Configured txRam rxRam i div nstop c) (ht : Tracks txRam rxRam i div nstop c n) :
    inFlight txRam rxRam i div nstop n ++ (started txRam rxRam i n).toList =
      (received txRam rxRam i n).toList ++ inFlight txRam rxRam i div nstop (n + 1) := by
  have hns : UartTx.start (run txRam rxRam i n).txm (txmInput txRam rxRam i n) = true →
      (txmInput txRam rxRam i n).nstop = nstop := by
    intro hs
    refine hc.nstop n (Nat.le_of_not_lt fun hn => ?_)
    rw [not_start hc hn] at hs
    simp at hs
  have hreceived : received txRam rxRam i n = UartRx.arrived div.toNat (heard txRam rxRam i nstop n) :=
    ht.rx.received_eq
  have hheard : heard txRam rxRam i nstop (n + 1) =
      UartTx.hear nstop (run txRam rxRam i n).txm (heard txRam rxRam i nstop n) := rfl
  have htx : (run txRam rxRam i (n + 1)).txm =
      UartTx.edge (run txRam rxRam i n).txm (txmInput txRam rxRam i n) := rfl
  rw [hreceived, inFlight, inFlight, hheard, htx, started]
  rcases ht.tx.conservation hns with ⟨b, hheld, hhear, hheld', hstarted, hover⟩ | ⟨hhear, hheld⟩
  · obtain ⟨hline, harrived⟩ := UartRx.onLine_over hc.div_ge hover
    rw [hheld, hhear, hheld', hstarted, hline, harrived]
    rfl
  · rw [hhear, List.append_assoc, hheld, UartRx.onLine_tick, List.append_assoc]

theorem pending_conservation (hc : Configured txRam rxRam i div nstop c) (n : ℕ) :
    pending txRam rxRam i div nstop n ++ (pushed txRam rxRam i n).toList =
      (received txRam rxRam i n).toList ++ pending txRam rxRam i div nstop (n + 1) := by
  have hqueue : Queue1.entries (run txRam rxRam i n).txq ++ (pushed txRam rxRam i n).toList =
      (started txRam rxRam i n).toList ++ Queue1.entries (run txRam rxRam i (n + 1)).txq := Queue1.conservation
  rw [pending, pending, List.append_assoc, hqueue, ← List.append_assoc, (tracks hc n).conservation hc,
    List.append_assoc]

/-- What has entered the transmit queue is what the receiver has handed over, in order, and what is on the way. -/
theorem pushed_eq (hc : Configured txRam rxRam i div nstop c) (n : ℕ) :
    log (pushed txRam rxRam i) n = log (received txRam rxRam i) n ++ pending txRam rxRam i div nstop n := by
  refine log_eq_log_append ?_ (pending_conservation hc) n
  have hheld : UartTx.held nstop UartTx.reset = [] := UartTx.held_of_ne UartTx.full_ne.symm
  have hentries : Queue1.entries (Queue1.reset txRam) = [] := Queue1.entries_reset txRam
  calc pending txRam rxRam i div nstop 0
    _ = ([] ++ UartTx.held nstop UartTx.reset) ++ Queue1.entries (Queue1.reset txRam) := rfl
    _ = [] := by rw [hheld, hentries]; rfl

/-! ### Every byte arrives -/

theorem arrivalRank_fall {d r r' : ℕ} {h : Heard} {b : BitVec 8} (hline : UartRx.onLine d h = []) (hr : 0 < r) :
    arrivalRank d r' (some (b, 0)) < arrivalRank d r h := by
  have hzero : arrivalRank d r' (some (b, 0)) = UartRx.doneAt d := by simp [arrivalRank]
  rw [hzero]
  cases h with
  | none =>
    simp only [arrivalRank]
    omega
  | some p =>
    have hlate : ¬ p.2 ≤ UartRx.doneAt d := by
      intro hle
      simp [UartRx.onLine, hle] at hline
    simp only [arrivalRank, if_neg hlate]
    omega

theorem arrivalRank_tick {d r r' : ℕ} {h : Heard} (hr : UartRx.onLine d h = [] → r' < r)
    (ha : UartRx.arrived d h = none) : arrivalRank d r' (tick h) < arrivalRank d r h := by
  cases h with
  | none =>
    have := hr rfl
    simp only [arrivalRank, tick, Option.map_none]
    omega
  | some p =>
    simp only [UartRx.onLine, UartRx.arrived, arrivalRank, tick, Option.map_some] at hr ha ⊢
    grind

theorem progress (hc : Configured txRam rxRam i div nstop c) (hn : c ≤ n)
    (hp : pending txRam rxRam i div nstop n ≠ []) (hr : received txRam rxRam i n = none) :
    pending txRam rxRam i div nstop (n + 1) ≠ [] ∧
      rank txRam rxRam i div nstop (n + 1) < rank txRam rxRam i div nstop n := by
  have ht := tracks hc n
  have htx : (run txRam rxRam i (n + 1)).txm =
      UartTx.edge (run txRam rxRam i n).txm (txmInput txRam rxRam i n) := rfl
  have hheard : heard txRam rxRam i nstop (n + 1) =
      UartTx.hear nstop (run txRam rxRam i n).txm (heard txRam rxRam i nstop n) := rfl
  constructor
  · intro hnil
    have hcons := pending_conservation hc n
    rw [hnil, hr] at hcons
    exact hp (List.append_eq_nil_iff.1 hcons).1
  · rw [rank, rank, hheard, htx]
    rcases ht.tx.conservation (x := txmInput txRam rxRam i n) (fun _ => hc.nstop n hn) with
      ⟨b, hheld, hhear, hheld', hstarted, hover⟩ | ⟨hhear, hheld⟩
    · obtain ⟨hline, -⟩ := UartRx.onLine_over hc.div_ge hover
      rw [hhear]
      exact arrivalRank_fall hline (UartTx.rank_pos)
    · rw [hhear]
      refine arrivalRank_tick (fun hline => ?_) (ht.rx.received_eq.symm.trans hr)
      refine ht.tx.rank_lt (congrArg BitVec.toNat (hc.div n hn)) (hc.nstop n hn) (fun hcount => ?_) hhear
      -- with nothing on the way, the queue has the next byte
      have hheld' : UartTx.held nstop (run txRam rxRam i n).txm = [] :=
        UartTx.held_of_ne (by rw [hcount]; exact UartTx.full_ne.symm)
      rw [pending, inFlight, hline, hheld', List.append_nil, List.nil_append, ← List.length_pos_iff,
        Queue1.length_entries, ← Queue1.deqValid_iff] at hp
      have hready : UartTx.inReady (run txRam rxRam i n).txm (txmInput txRam rxRam i n) = true := by
        simp [UartTx.inReady, UartTx.busy, hcount, txmInput, Uart.txmInput, hc.txen n hn]
      rw [UartTx.start, hready, Bool.true_and]
      exact hp

theorem exists_received (hc : Configured txRam rxRam i div nstop c) (hn : c ≤ n)
    (hp : pending txRam rxRam i div nstop n ≠ []) : ∃ m, n ≤ m ∧ received txRam rxRam i m ≠ none := by
  refine exists_of_rank (P := fun m => pending txRam rxRam i div nstop m ≠ [])
    (Q := fun m => received txRam rxRam i m ≠ none) (rank txRam rxRam i div nstop) hp fun m hnm hpm hrm => ?_
  exact progress hc (by omega) hpm (not_not.1 hrm)

theorem exists_length (hc : Configured txRam rxRam i div nstop c) (n k : ℕ)
    (hk : k ≤ (log (pushed txRam rxRam i) n).length) :
    ∃ m, n ≤ m ∧ c ≤ m ∧ k ≤ (log (received txRam rxRam i) m).length := by
  induction k with
  | zero => exact ⟨max n c, le_max_left n c, le_max_right n c, Nat.zero_le _⟩
  | succ k ih =>
    obtain ⟨m, hnm, hcm, hkm⟩ := ih (by omega)
    by_cases hlt : k + 1 ≤ (log (received txRam rxRam i) m).length
    · exact ⟨m, hnm, hcm, hlt⟩
    · have hp : pending txRam rxRam i div nstop m ≠ [] := by
        intro hnil
        have heq := pushed_eq hc m
        rw [hnil, List.append_nil] at heq
        have hmono := length_log_le (pushed txRam rxRam i) hnm
        rw [heq] at hmono
        omega
      obtain ⟨m', hmm', hm'⟩ := exists_received hc hcm hp
      have hlen : (log (received txRam rxRam i) (m' + 1)).length = (log (received txRam rxRam i) m').length + 1 := by
        rw [log_succ, List.length_append, Option.length_toList, if_pos (Option.isSome_iff_ne_none.2 hm')]
      have hmono := length_log_le (received txRam rxRam i) hmm'
      exact ⟨m' + 1, by omega, by omega, by omega⟩

/-- Every byte that enters the transmit queue is handed over by the receiver once, in order and without an error. -/
theorem round_trip (hc : Configured txRam rxRam i div nstop c) :
    (∀ n, log (received txRam rxRam i) n <+: log (pushed txRam rxRam i) n) ∧
      (∀ n, ∃ m, log (pushed txRam rxRam i) n <+: log (received txRam rxRam i) m) ∧
      ∀ n, (run txRam rxRam i n).rxm.parityError = false ∧ (run txRam rxRam i n).rxm.framingError = false ∧
        (run txRam rxRam i n).rxm.breakError = false := by
  have hinit : ∀ n, log (received txRam rxRam i) n <+: log (pushed txRam rxRam i) n :=
    fun n => ⟨pending txRam rxRam i div nstop n, (pushed_eq hc n).symm⟩
  refine ⟨hinit, fun n => ?_, fun n => ?_⟩
  · obtain ⟨m, hnm, -, hlen⟩ := exists_length hc n _ le_rfl
    exact ⟨m, List.prefix_of_prefix_length_le (log_mono _ hnm) (hinit m) hlen⟩
  · have hrx := (tracks hc n).rx
    exact ⟨hrx.parityError, hrx.framingError, hrx.breakError⟩

/-! ### A run -/

/-- A write of all lanes of a register. -/
def store (address : BitVec 29) (data : BitVec 32) : RegisterPort.Input where
  aValid := true
  aOpcode := 0#3
  aAddress := address
  aMask := 15#4
  aData := data
  dReady := true

/-- The divider is set to 16, the receiver and the transmitter are enabled, and two bytes are sent. -/
def twoBytes : ℕ → RegisterPort.Input
  | 0 => store 0x18 16
  | 1 => store 0xc 1
  | 2 => store 0x8 1
  | 3 => store 0x0 0x41
  | 4 => store 0x0 0x5a
  | _ => RegisterPort.idle (store 0 0)

def zeroRam : Vector (BitVec 8) 8 := Vector.replicate 8 0#8

theorem edgeRegs_send (s : Uart.State) (data : BitVec 32) :
    Uart.edgeRegs s (loopInput s (store 0x0 data)) = s.regs := by
  simp [Uart.edgeRegs, RegisterPort.field, RegisterPort.flag, Uart.word, loopInput, store]

theorem regs_twoBytes (n : ℕ) : (run zeroRam zeroRam twoBytes (n + 3)).regs =
    { div := 16#16, txen := true, rxen := true, txwm := 0#4, rxwm := 0#4, nstop := false, ieRxwm := false
      ieTxwm := false } := by
  induction n with
  | zero => decide +kernel
  | succ n ih =>
    have hedge : (run zeroRam zeroRam twoBytes (n + 1 + 3)).regs = Uart.edgeRegs (run zeroRam zeroRam twoBytes (n + 3))
        (loopInput (run zeroRam zeroRam twoBytes (n + 3)) (twoBytes (n + 3))) := rfl
    rw [hedge, ← ih]
    generalize run zeroRam zeroRam twoBytes (n + 3) = s
    match n with
    | 0 => exact edgeRegs_send s 0x41
    | 1 => exact edgeRegs_send s 0x5a
    | n + 2 => exact Uart.edgeRegs_quiet (x := loopInput s (store 0 0))

theorem configured_twoBytes : Configured zeroRam zeroRam twoBytes 16#16 false 3 := by
  have hregs : ∀ n, 3 ≤ n → (run zeroRam zeroRam twoBytes n).regs = (run zeroRam zeroRam twoBytes 3).regs := by
    intro n hn
    rw [← Nat.sub_add_cancel hn, regs_twoBytes, regs_twoBytes 0]
  have hthree := regs_twoBytes 0
  refine ⟨by decide, fun n hn => ?_, fun n hn => ?_, fun n hn => ?_, fun n hn => ?_, fun n hn => ?_⟩
  · obtain rfl | rfl | rfl : n = 0 ∨ n = 1 ∨ n = 2 := by omega
    all_goals rfl
  all_goals rw [hregs n hn, hthree]

theorem round_trip_twoBytes : Configured zeroRam zeroRam twoBytes 16#16 false 3 ∧
    (∀ n, log (received zeroRam zeroRam twoBytes) n <+: log (pushed zeroRam zeroRam twoBytes) n) ∧
      (∀ n, ∃ m, log (pushed zeroRam zeroRam twoBytes) n <+: log (received zeroRam zeroRam twoBytes) m) ∧
      ∀ n, (run zeroRam zeroRam twoBytes n).rxm.parityError = false ∧
        (run zeroRam zeroRam twoBytes n).rxm.framingError = false ∧
        (run zeroRam zeroRam twoBytes n).rxm.breakError = false :=
  ⟨configured_twoBytes, round_trip configured_twoBytes⟩

end UartLoop
