import ZrSoc.UartSend
import ZrSoc.Uart
import ZrSoc.UartModelReceive
import ZrSoc.Sync.Log

/-!
# The bytes of the UART on its line

From what the line has carried (`Heard`) the frames on it are read off: a frame begins where the clocks since the last
start bit are 0 (`begins`), and the line carries these frames (`carries_begins`).

In every run of the UART in which the transmitter is enabled before it sends, with a divider and a number of stop bits
that stay, the bytes whose frames begin are those that were written, in order, and every byte that was written gets its
frame (`pushed_eq`, `exists_shown`).
-/

open Sync UartFrame

namespace UartFrame

variable {d m n e : ℕ} {h : ℕ → Heard} {b : BitVec 8}

/-- The byte whose start bit begins in a cycle. -/
def begins : Heard → Option (BitVec 8)
  | some (b, 0) => some b
  | _ => none

theorem begins_iff {h : Heard} : begins h = some b ↔ h = some (b, 0) := by
  rcases h with _ | ⟨b', _ | e⟩ <;> simp [begins]

/-- A clock goes by, or a start bit begins on a line that carries no frame. -/
theorem Follows.tick_or_begins {h h' : Heard} (hf : Follows d h h') :
    h' = UartFrame.tick h ∨ ∃ b, h' = some (b, 0) ∧ ∀ b' e, h = some (b', e) → 10 * (d + 1) ≤ e := by
  cases hf with
  | tick => exact Or.inl rfl
  | first b => exact Or.inr ⟨b, rfl, fun b' e he => by cases he⟩
  | fall b hle =>
    refine Or.inr ⟨b, rfl, fun b' e he => ?_⟩
    cases he
    exact hle

section

variable (hf : ∀ n, Follows d (h n) (h (n + 1)))

include hf

/-- The byte on the line began as long ago as the clocks say. -/
theorem began (h0 : h 0 = none) (hn : h n = some (b, e)) : e ≤ n ∧ h (n - e) = some (b, 0) := by
  induction n generalizing b e with
  | zero => simp [h0] at hn
  | succ n ih =>
    rcases (hf n).tick_or_begins with htick | ⟨b', hb', -⟩
    · rw [hn] at htick
      cases hh : h n with
      | none => simp [hh, tick] at htick
      | some p =>
        obtain ⟨b', e'⟩ := p
        simp only [hh, tick, Option.map_some, Option.some.injEq, Prod.mk.injEq] at htick
        obtain ⟨rfl, rfl⟩ := htick
        obtain ⟨hle, hb⟩ := ih hh
        exact ⟨by omega, by rw [Nat.add_sub_add_right, hb]⟩
    · rw [hn] at hb'
      cases hb'
      exact ⟨Nat.zero_le _, hn⟩

/-- A frame stays on the line for ten bit times. -/
theorem stays_on_line (hm : h m = some (b, 0)) (he : e < 10 * (d + 1)) : h (m + e) = some (b, e) := by
  induction e with
  | zero => exact hm
  | succ e ih =>
    have hh := ih (by omega)
    rcases (hf (m + e)).tick_or_begins with htick | ⟨b', -, hle⟩
    · rw [← Nat.add_assoc, htick, hh]
      rfl
    · have := hle b e hh
      omega

/-- The line carries the frames that begin on it. -/
theorem carries_begins (h0 : h 0 = none) {f : BitVec 8 → List Bool} (hlen : ∀ b, (f b).length = 10)
    (hbit : ∀ b k, k < 10 → (f b).getD k true = frameBit b k) :
    SerialLine.Carries (d + 1) (fun n => (begins (h n)).map f) fun n => past d 0 (h n) := by
  refine ⟨?_, ?_, ?_⟩
  · intro m n g g' hm hn hlt
    obtain ⟨b, hb, rfl⟩ := Option.map_eq_some_iff.1 hm
    obtain ⟨b', hb', rfl⟩ := Option.map_eq_some_iff.1 hn
    rw [begins_iff] at hb hb'
    rw [hlen]
    by_contra hle
    have hh := stays_on_line hf hb (e := n - m) (by omega)
    rw [show m + (n - m) = n by omega, hb'] at hh
    have he := (Prod.mk.inj (Option.some.inj hh)).2
    omega
  · intro m g hm k r hk hr
    obtain ⟨b, hb, rfl⟩ := Option.map_eq_some_iff.1 hm
    rw [begins_iff] at hb
    rw [hlen] at hk
    have hmul : (k + 1) * (d + 1) ≤ 10 * (d + 1) := Nat.mul_le_mul_right _ hk
    rw [Nat.succ_mul] at hmul
    rw [stays_on_line hf hb (by omega), past, if_neg (by omega), Nat.sub_zero, level_bit (Nat.lt_succ_iff.1 hr),
      hbit b k hk]
  · intro n hover
    cases hh : h n with
    | none => rfl
    | some p =>
      obtain ⟨b, e⟩ := p
      obtain ⟨hle, hb⟩ := began hf h0 hh
      have hend := hover (n - e) (f b) (by rw [begins_iff.2 hb]; rfl) (by omega)
      rw [hlen] at hend
      exact past_high (by omega)

end

/-! ### The byte that is read off the line `r` clocks after its start bit has begun -/

def shown (r : ℕ) : Heard → Option (BitVec 8)
  | none => none
  | some (b, e) => if e = r then some b else none

def unshown (r : ℕ) : Heard → List (BitVec 8)
  | none => []
  | some (b, e) => if e ≤ r then [b] else []

/-- The number of cycles at most until a byte is shown, when `k` bounds those until the next start bit. -/
def showRank (r k : ℕ) : Heard → ℕ
  | none => r + k
  | some (_, e) => if e ≤ r then r - e else r + k

variable {r k k' : ℕ}

theorem shown_iff {g : Heard} : shown r g = some b ↔ g = some (b, r) := by
  rcases g with _ | ⟨b', e⟩
  · simp [shown]
  · simp only [shown]
    constructor
    · intro h
      split at h
      next he => rw [he, Option.some.inj h]
      next => cases h
    · intro h
      cases h
      simp

theorem unshown_tick (g : Heard) : unshown r g = (shown r g).toList ++ unshown r (tick g) := by
  rcases g with _ | ⟨b, e⟩
  · rfl
  · simp only [unshown, shown, tick, Option.map_some]
    rcases Nat.lt_trichotomy e r with h | h | h
    · have h1 : e ≠ r := by omega
      have h2 : e ≤ r := by omega
      have h3 : e + 1 ≤ r := by omega
      simp [h1, h2, h3]
    · have h2 : ¬ e + 1 ≤ r := by omega
      simp [h]
    · have h1 : e ≠ r := by omega
      have h2 : ¬ e ≤ r := by omega
      have h3 : ¬ e + 1 ≤ r := by omega
      simp [h1, h2, h3]

/-- A frame that is over has been shown. -/
theorem unshown_over {g : Heard} (hr : r < 10 * (d + 1)) (hg : ∀ b e, g = some (b, e) → 10 * (d + 1) ≤ e) :
    unshown r g = [] ∧ shown r g = none := by
  rcases g with _ | ⟨b, e⟩
  · exact ⟨rfl, rfl⟩
  · have he := hg b e rfl
    have h1 : ¬ e ≤ r := by omega
    have h2 : e ≠ r := by omega
    simp [unshown, shown, h1, h2]

theorem showRank_begins {g : Heard} (hg : unshown r g = []) (hk : 0 < k) :
    showRank r k' (some (b, 0)) < showRank r k g := by
  rcases g with _ | ⟨b', e⟩
  · simp [showRank, hk]
  · by_cases he : e ≤ r
    · simp [unshown, he] at hg
    · simp [showRank, he, hk]

theorem showRank_tick {g : Heard} (hk : unshown r g = [] → k' < k) (hg : shown r g = none) :
    showRank r k' (tick g) < showRank r k g := by
  rcases g with _ | ⟨b, e⟩
  · have := hk rfl
    simpa [showRank, tick] using this
  · simp only [showRank, tick, Option.map_some]
    have hne : e ≠ r := by
      rintro rfl
      simp [shown] at hg
    by_cases he : e ≤ r
    · rw [if_pos he, if_pos (by omega)]
      omega
    · have := hk (by simp [unshown, he])
      rw [if_neg he, if_neg (by omega)]
      omega

end UartFrame

namespace UartTransmit

/-! ### The transmitter of the UART -/

variable (txRam rxRam : Vector (BitVec 8) 8) (i : ℕ → Uart.Input)

abbrev run (n : ℕ) : Uart.State := (Uart.machine txRam rxRam).run i n

/-- The byte that is written into the transmit queue in cycle `n`. -/
def pushed (n : ℕ) : Option (BitVec 8) :=
  Queue1.pushed (run txRam rxRam i n).txq (Uart.txqInput (run txRam rxRam i n) (i n))

/-- The byte that the transmitter takes in cycle `n`. -/
def started (n : ℕ) : Option (BitVec 8) :=
  UartTx.started (run txRam rxRam i n).txm (Uart.txmInput (run txRam rxRam i n))

/-- From cycle `c` on the transmitter is enabled with the divider `div` and the stop bits `nstop`; it has not started
before. -/
structure Configured (div : BitVec 16) (nstop : Bool) (c : ℕ) : Prop where
  unstarted : ∀ n < c, started txRam rxRam i n = none
  div : ∀ n, c ≤ n → (run txRam rxRam i n).regs.div = div
  nstop : ∀ n, c ≤ n → (run txRam rxRam i n).regs.nstop = nstop
  txen : ∀ n, c ≤ n → (run txRam rxRam i n).regs.txen = true

/-- What the line has carried before cycle `n`. -/
def heard (nstop : Bool) : ℕ → Heard
  | 0 => none
  | n + 1 => UartTx.hear nstop (run txRam rxRam i n).txm (heard nstop n)

/-- The registers of the transmitter are those of one that has sent what the line has carried. -/
structure Tracks (div : BitVec 16) (nstop : Bool) (c n : ℕ) : Prop where
  tx : UartTx.At div.toNat nstop (heard txRam rxRam i nstop n) (run txRam rxRam i n).txm
  before : n ≤ c → (run txRam rxRam i n).txm = UartTx.reset ∧ heard txRam rxRam i nstop n = none

/-- The bytes that were written and whose frames have not begun. -/
def waiting (nstop : Bool) (n : ℕ) : List (BitVec 8) :=
  UartTx.held nstop (run txRam rxRam i n).txm ++ Queue1.entries (run txRam rxRam i n).txq

variable {txRam rxRam i} {div : BitVec 16} {nstop : Bool} {c n : ℕ}

theorem Tracks.succ (hc : Configured txRam rxRam i div nstop c) (ht : Tracks txRam rxRam i div nstop c n) :
    Tracks txRam rxRam i div nstop c (n + 1) ∧
      Follows div.toNat (heard txRam rxRam i nstop n) (heard txRam rxRam i nstop (n + 1)) := by
  have htx : (run txRam rxRam i (n + 1)).txm =
      UartTx.edge (run txRam rxRam i n).txm (Uart.txmInput (run txRam rxRam i n)) := rfl
  have hheard : heard txRam rxRam i nstop (n + 1) =
      UartTx.hear nstop (run txRam rxRam i n).txm (heard txRam rxRam i nstop n) := rfl
  by_cases hn : n < c
  · -- before the configuration the transmitter is as after reset
    obtain ⟨hreset, hnone⟩ := ht.before hn.le
    have hstart : UartTx.start (run txRam rxRam i n).txm (Uart.txmInput (run txRam rxRam i n)) = false := by
      have h := hc.unstarted n hn
      rw [started, UartTx.started] at h
      by_contra hs
      simp [hs] at h
    have hcount : (run txRam rxRam i n).txm.counter = 0#4 := by
      rw [hreset]
      rfl
    have htx' : (run txRam rxRam i (n + 1)).txm = UartTx.reset := by
      rw [htx, UartTx.edge_of_idle hcount hstart, hreset]
    have hheard' : heard txRam rxRam i nstop (n + 1) = none := by
      rw [hheard, hreset, hnone]
      rfl
    refine ⟨⟨?_, fun _ => ⟨htx', hheard'⟩⟩, ?_⟩
    · rw [htx', hheard']
      exact UartTx.at_reset
    · rw [hheard', hnone]
      exact Follows.tick none
  · have hdiv : (Uart.txmInput (run txRam rxRam i n)).div.toNat = div.toNat :=
      congrArg BitVec.toNat (hc.div n (by omega))
    obtain ⟨htx', hfollows⟩ := ht.tx.next hdiv (hc.nstop n (by omega))
    exact ⟨⟨htx', fun hle => absurd hle (by omega)⟩, hfollows⟩

theorem tracks (hc : Configured txRam rxRam i div nstop c) (n : ℕ) : Tracks txRam rxRam i div nstop c n := by
  induction n with
  | zero => exact ⟨UartTx.at_reset, fun _ => ⟨rfl, rfl⟩⟩
  | succ n ih => exact (ih.succ hc).1

theorem follows (hc : Configured txRam rxRam i div nstop c) (n : ℕ) :
    Follows div.toNat (heard txRam rxRam i nstop n) (heard txRam rxRam i nstop (n + 1)) :=
  ((tracks hc n).succ hc).2

/-- The output of the transmitter is what the line carries. -/
theorem txd_eq (hc : Configured txRam rxRam i div nstop c) (n : ℕ) :
    Uart.txd (run txRam rxRam i n) = past div.toNat 0 (heard txRam rxRam i nstop n) := (tracks hc n).tx.line

/-! ### Nothing is lost or duplicated -/

section

variable (txRam rxRam i) in
/-- The bytes that were written and have not been read off the line `r` clocks after the beginning of their frames. -/
def pending (r : ℕ) (nstop : Bool) (n : ℕ) : List (BitVec 8) :=
  unshown r (heard txRam rxRam i nstop n) ++ waiting txRam rxRam i nstop n

variable (txRam rxRam i) in
def rank (r : ℕ) (div : BitVec 16) (nstop : Bool) (n : ℕ) : ℕ :=
  showRank r (UartTx.rank div.toNat nstop (run txRam rxRam i n).txm) (heard txRam rxRam i nstop n)

variable {r : ℕ} (hc : Configured txRam rxRam i div nstop c) (hr : r < 10 * (div.toNat + 1))

include hc hr

/-- A cycle moves the bytes through the queue and the transmitter and over the line. -/
theorem pending_conservation (n : ℕ) : pending txRam rxRam i r nstop n ++ (pushed txRam rxRam i n).toList =
    (shown r (heard txRam rxRam i nstop n)).toList ++ pending txRam rxRam i r nstop (n + 1) := by
  have hqueue : Queue1.entries (run txRam rxRam i n).txq ++ (pushed txRam rxRam i n).toList =
      (started txRam rxRam i n).toList ++ Queue1.entries (run txRam rxRam i (n + 1)).txq := Queue1.conservation
  have hns : UartTx.start (run txRam rxRam i n).txm (Uart.txmInput (run txRam rxRam i n)) = true →
      (Uart.txmInput (run txRam rxRam i n)).nstop = nstop := by
    intro hs
    refine hc.nstop n (Nat.le_of_not_lt fun hn => ?_)
    have h := hc.unstarted n hn
    rw [started, UartTx.started, hs, if_pos rfl] at h
    cases h
  have hheard : heard txRam rxRam i nstop (n + 1) =
      UartTx.hear nstop (run txRam rxRam i n).txm (heard txRam rxRam i nstop n) := rfl
  have htx : (run txRam rxRam i (n + 1)).txm =
      UartTx.edge (run txRam rxRam i n).txm (Uart.txmInput (run txRam rxRam i n)) := rfl
  rw [pending, pending, waiting, waiting, hheard, htx, List.append_assoc, List.append_assoc, hqueue, started]
  rcases (tracks hc n).tx.conservation hns with ⟨b, hheld, hhear, hheld', hstarted, hover⟩ | ⟨hhear, hheld⟩
  · obtain ⟨hline, hshown⟩ := unshown_over hr hover
    rw [hheld, hhear, hheld', hstarted, hline, hshown]
    rfl
  · rw [hhear, ← hheld, unshown_tick]
    simp only [List.append_assoc]

theorem pushed_eq (n : ℕ) : log (pushed txRam rxRam i) n =
    log (fun m => shown r (heard txRam rxRam i nstop m)) n ++ pending txRam rxRam i r nstop n := by
  refine log_eq_log_append ?_ (pending_conservation hc hr) n
  have hheld : UartTx.held nstop UartTx.reset = [] := UartTx.held_of_ne UartTx.full_ne.symm
  have hentries : Queue1.entries (Queue1.reset txRam) = [] := Queue1.entries_reset txRam
  calc pending txRam rxRam i r nstop 0
    _ = [] ++ (UartTx.held nstop UartTx.reset ++ Queue1.entries (Queue1.reset txRam)) := rfl
    _ = [] := by rw [hheld, hentries]; rfl

/-! ### Every byte gets to the line -/

theorem progress (hn : c ≤ n) (hp : pending txRam rxRam i r nstop n ≠ [])
    (hs : shown r (heard txRam rxRam i nstop n) = none) : pending txRam rxRam i r nstop (n + 1) ≠ [] ∧
      rank txRam rxRam i r div nstop (n + 1) < rank txRam rxRam i r div nstop n := by
  have ht := tracks hc n
  have htx : (run txRam rxRam i (n + 1)).txm =
      UartTx.edge (run txRam rxRam i n).txm (Uart.txmInput (run txRam rxRam i n)) := rfl
  have hheard : heard txRam rxRam i nstop (n + 1) =
      UartTx.hear nstop (run txRam rxRam i n).txm (heard txRam rxRam i nstop n) := rfl
  constructor
  · intro hnil
    have hcons := pending_conservation hc hr n
    rw [hnil, hs] at hcons
    exact hp (List.append_eq_nil_iff.1 hcons).1
  · rw [rank, rank, hheard, htx]
    rcases ht.tx.conservation (x := Uart.txmInput (run txRam rxRam i n)) (fun _ => hc.nstop n hn) with
      ⟨b, hheld, hhear, hheld', hstarted, hover⟩ | ⟨hhear, hheld⟩
    · rw [hhear]
      exact showRank_begins (unshown_over hr hover).1 UartTx.rank_pos
    · rw [hhear]
      refine showRank_tick (fun hline => ?_) hs
      refine ht.tx.rank_lt (congrArg BitVec.toNat (hc.div n hn)) (hc.nstop n hn) (fun hcount => ?_) hhear
      -- with nothing on the way, the queue has the next byte
      have hheld' : UartTx.held nstop (run txRam rxRam i n).txm = [] :=
        UartTx.held_of_ne (by rw [hcount]; exact UartTx.full_ne.symm)
      rw [pending, waiting, hline, hheld', List.nil_append, List.nil_append, ← List.length_pos_iff,
        Queue1.length_entries, ← Queue1.deqValid_iff] at hp
      have hready : UartTx.inReady (run txRam rxRam i n).txm (Uart.txmInput (run txRam rxRam i n)) = true := by
        simp [UartTx.inReady, UartTx.busy, hcount, Uart.txmInput, hc.txen n hn]
      rw [UartTx.start, hready, Bool.true_and]
      exact hp

theorem exists_shown (hn : c ≤ n) (hp : pending txRam rxRam i r nstop n ≠ []) :
    ∃ m, n ≤ m ∧ shown r (heard txRam rxRam i nstop m) ≠ none := by
  refine exists_of_rank (P := fun m => pending txRam rxRam i r nstop m ≠ [])
    (Q := fun m => shown r (heard txRam rxRam i nstop m) ≠ none) (rank txRam rxRam i r div nstop) hp
    fun m hnm hpm hsm => ?_
  exact progress hc hr (by omega) hpm (not_not.1 hsm)

end

end UartTransmit
