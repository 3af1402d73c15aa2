import ZrSoc.UartFrame
import ZrSoc.UartTx

/-!
# The transmitter sends frames

In every reachable state the transmitter is idle, holds a byte whose start bit has not begun yet, or sends a bit of the
last frame on the line (`At`).  A start bit begins only when the stop bits of the frame before it are over, since the
prescaler goes on from its last value.
-/

namespace UartTx

open UartFrame

/-- The number of bits of a frame. -/
def full (nstop : Bool) : BitVec 4 := if nstop then 11#4 else 10#4

/-- What the line carries after a cycle: the first bit that is shifted out is a start bit. -/
def hear (nstop : Bool) (s : State) (h : Heard) : Heard :=
  if nextBit s && s.counter == full nstop then some (s.shifter.extractLsb' 1 8, 0) else tick h

/-- The last frame ends when the prescaler has run down. -/
def Over (d : ℕ) (nstop : Bool) (s : State) (h : Heard) (extra : ℕ) : Prop :=
  s.prescaler.toNat ≤ d ∧
    ∀ b e, h = some (b, e) → ((full nstop).toNat - 1) * (d + 1) + d + extra ≤ e + s.prescaler.toNat

/-- The registers of the transmitter when the line has carried `h`. -/
inductive At (d : ℕ) (nstop : Bool) (h : Heard) (s : State) : Prop
  | idle (hcount : s.counter = 0#4) (hout : s.out = true) (hover : Over d nstop s h 0)
  | loaded (b : BitVec 8) (hcount : s.counter = full nstop) (hout : s.out = true) (hshift : s.shifter = b ++ 0#1)
      (hover : Over d nstop s h 1)
  | sending (b : BitVec 8) (k r : ℕ) (hh : h = some (b, k * (d + 1) + r)) (hr : r ≤ d)
      (hcount : s.counter.toNat + k + 1 = (full nstop).toNat) (hpos : s.counter ≠ 0#4)
      (hpre : s.prescaler.toNat + r = d) (hshift : ∀ i < 9, s.shifter.getLsbD i = frameBit b (k + 1 + i))
      (hout : s.out = frameBit b k)

variable {d : ℕ} {nstop : Bool} {h : Heard} {s : State} {x : Input}

variable (nstop) in
theorem full_range : 10 ≤ (full nstop).toNat ∧ (full nstop).toNat ≤ 11 := by cases nstop <;> decide

/-- The last frame is over with the prescaler. -/
theorem Over.ten (hover : Over d nstop s h 1) (hp : s.prescaler.toNat = 0) (b : BitVec 8) (e : ℕ)
    (hh : h = some (b, e)) : 10 * (d + 1) ≤ e := by
  have he := hover.2 b e hh
  have hf := full_range nstop
  have hmul : 9 * (d + 1) ≤ ((full nstop).toNat - 1) * (d + 1) := Nat.mul_le_mul_right _ (by omega)
  omega

theorem full_ne : full nstop ≠ 0#4 := by cases nstop <;> decide

theorem getLsbD_loaded {b : BitVec 8} {i : ℕ} (hi : i < 9) : (b ++ 0#1).getLsbD i = frameBit b i := by
  cases i with
  | zero =>
    rw [BitVec.getLsbD_append]
    rfl
  | succ i =>
    rw [frameBit_succ (by omega), BitVec.getLsbD_append]
    simp

theorem extract_loaded {b : BitVec 8} : (b ++ 0#1).extractLsb' 1 8 = b := by
  apply BitVec.eq_of_getLsbD_eq
  intro i hi
  rw [BitVec.getLsbD_extractLsb', getLsbD_loaded (by omega), Nat.add_comm, frameBit_succ hi]
  simp [hi]

theorem at_reset : At d nstop none reset :=
  At.idle rfl rfl ⟨Nat.zero_le d, fun b e hn => by simp at hn⟩

/-- The transmitter drives the line. -/
theorem At.line (ha : At d nstop h s) : s.out = past d 0 h := by
  have hf := full_range nstop
  have hhigh : ∀ extra, Over d nstop s h extra → past d 0 h = true := by
    intro extra hover
    cases h with
    | none => rfl
    | some p =>
      have he := hover.2 p.1 p.2 rfl
      have hle := hover.1
      have hmul : 9 * (d + 1) ≤ ((full nstop).toNat - 1) * (d + 1) := Nat.mul_le_mul_right _ (by omega)
      exact past_high (by omega)
  cases ha with
  | idle hcount hout hover => rw [hout, hhigh 0 hover]
  | loaded b hcount hout hshift hover => rw [hout, hhigh 1 hover]
  | sending b k r hh hr hcount hpos hpre hshift hout =>
    rw [hout, hh, past, if_neg (Nat.not_lt_zero _), Nat.sub_zero, level_bit hr]

theorem pulse_iff : pulse s = true ↔ s.prescaler.toNat = 0 := by
  rw [pulse, beq_iff_eq, BitVec.toNat_eq]
  rfl

/-! ### The effect of a cycle -/

theorem edge_of_idle (hcount : s.counter = 0#4) (hstart : start s x = false) : edge s x = s := by
  simp [edge, nextBit, busy, hcount, hstart]
  rw [← hcount]

theorem edge_of_start (hcount : s.counter = 0#4) (hstart : start s x = true) :
    edge s x = { s with counter := full x.nstop, shifter := x.inBits ++ 0#1 } := by
  simp [edge, nextBit, busy, hcount, hstart, full]

theorem not_start_of_busy (hcount : s.counter ≠ 0#4) : start s x = false := by
  simp [start, inReady, busy, hcount]

theorem edge_of_wait (hcount : s.counter ≠ 0#4) (hp : s.prescaler.toNat ≠ 0) :
    edge s x = { s with prescaler := s.prescaler - 1#16 } := by
  have hpulse : pulse s = false := by rwa [← Bool.not_eq_true, pulse_iff]
  simp [edge, nextBit, not_start_of_busy hcount, hpulse, busy, hcount]

theorem edge_of_nextBit (hcount : s.counter ≠ 0#4) (hp : s.prescaler.toNat = 0) : edge s x =
    { prescaler := x.div, counter := s.counter - 1#4, shifter := 1#1 ++ s.shifter.extractLsb' 1 8,
      out := s.shifter.getLsbD 0 } := by
  simp [edge, nextBit, pulse_iff.2 hp, busy, hcount]

theorem hear_of_not_first (hn : nextBit s = false ∨ s.counter ≠ full nstop) : hear nstop s h = tick h := by
  rw [hear, if_neg]
  rcases hn with hn | hn
  · simp [hn]
  · simp [hn]

theorem At.next_idle (hcount : s.counter = 0#4) (hout : s.out = true) (hover : Over d nstop s h 0)
    (hns : x.nstop = nstop) : At d nstop (tick h) (edge s x) := by
  have hover' : ∀ extra ≤ 1, Over d nstop s (tick h) extra := by
    intro extra hextra
    refine ⟨hover.1, fun b e he => ?_⟩
    cases h with
    | none => simp [tick] at he
    | some p =>
      simp only [tick, Option.map_some, Option.some.injEq, Prod.mk.injEq] at he
      have := hover.2 p.1 p.2 rfl
      omega
  cases hstart : start s x with
  | false =>
    rw [edge_of_idle hcount hstart]
    exact At.idle hcount hout (hover' 0 (by omega))
  | true =>
    rw [edge_of_start hcount hstart, hns]
    exact At.loaded x.inBits rfl hout rfl (hover' 1 (by omega))

theorem toNat_prescaler (hp : s.prescaler.toNat ≠ 0) : (s.prescaler - 1#16).toNat = s.prescaler.toNat - 1 := by
  have hlt := s.prescaler.isLt
  rw [BitVec.toNat_sub]
  simp
  omega

/-- While the prescaler runs down, the clocks on the line go up. -/
theorem At.next_wait (hp : s.prescaler.toNat ≠ 0) (hover : Over d nstop s h 1) :
    Over d nstop { s with prescaler := s.prescaler - 1#16 } (tick h) 1 := by
  have hsub := toNat_prescaler hp
  refine ⟨by simp only [hsub]; have := hover.1; omega, fun b e he => ?_⟩
  cases h with
  | none => simp [tick] at he
  | some p =>
    simp only [tick, Option.map_some, Option.some.injEq, Prod.mk.injEq] at he
    have := hover.2 p.1 p.2 rfl
    simp only [hsub]
    omega

/-- A shift brings the next bits of the frame to the end, with stop bits behind them. -/
theorem getLsbD_shifted {b : BitVec 8} {k : ℕ} (hs : ∀ i < 9, s.shifter.getLsbD i = frameBit b (k + i)) :
    ∀ i < 9, (1#1 ++ s.shifter.extractLsb' 1 8).getLsbD i = frameBit b (k + 1 + i) := by
  intro i hi
  rw [BitVec.getLsbD_append, BitVec.getLsbD_extractLsb']
  by_cases hi8 : i < 8
  · rw [if_pos hi8, hs (1 + i) (by omega), ← Nat.add_assoc]
    simp [hi8]
  · obtain rfl : i = 8 := by omega
    rw [if_neg hi8, frameBit_stop (by omega)]
    rfl

theorem toNat_pred {c : BitVec 4} (hc : c ≠ 0#4) : (c - 1#4).toNat + 1 = c.toNat := by
  have hne : c.toNat ≠ 0 := fun h0 => hc (BitVec.eq_of_toNat_eq h0)
  have hlt := c.isLt
  rw [BitVec.toNat_sub]
  simp
  omega

theorem At.next_loaded {b : BitVec 8} (hcount : s.counter = full nstop) (hout : s.out = true)
    (hshift : s.shifter = b ++ 0#1) (hover : Over d nstop s h 1) (hdiv : x.div.toNat = d) :
    At d nstop (hear nstop s h) (edge s x) ∧ Follows d h (hear nstop s h) := by
  have hpos : s.counter ≠ 0#4 := hcount ▸ full_ne
  by_cases hp : s.prescaler.toNat = 0
  · -- the start bit begins
    have hhear : hear nstop s h = some (b, 0) := by
      simp [hear, nextBit, pulse_iff.2 hp, busy, hcount, full_ne, hshift, extract_loaded]
    have hpred := toNat_pred hpos
    rw [hhear, edge_of_nextBit hpos hp]
    constructor
    · refine At.sending b 0 0 (by simp) (Nat.zero_le d) (by rw [hpred, hcount]) ?_ hdiv ?_ ?_
      · intro h0
        simp only at h0
        have hf := full_range nstop
        rw [h0, hcount] at hpred
        simp only [BitVec.toNat_ofNat] at hpred
        omega
      · refine getLsbD_shifted fun i hi => ?_
        rw [hshift, getLsbD_loaded hi, Nat.zero_add]
      · simp only [hshift]
        rw [getLsbD_loaded (by omega)]
    · cases h with
      | none => exact Follows.first b
      | some p => exact Follows.fall b (hover.ten hp p.1 p.2 rfl)
  · have hpulse : pulse s = false := by rwa [← Bool.not_eq_true, pulse_iff]
    rw [hear_of_not_first (Or.inl (by simp [nextBit, hpulse])), edge_of_wait hpos hp]
    exact ⟨At.loaded b hcount hout hshift (At.next_wait hp hover), Follows.tick h⟩

theorem At.next_sending {b : BitVec 8} {k r : ℕ} (hr : r ≤ d) (hcount : s.counter.toNat + k + 1 = (full nstop).toNat)
    (hpos : s.counter ≠ 0#4) (hpre : s.prescaler.toNat + r = d)
    (hshift : ∀ i < 9, s.shifter.getLsbD i = frameBit b (k + 1 + i)) (hout : s.out = frameBit b k)
    (hdiv : x.div.toNat = d) : At d nstop (some (b, k * (d + 1) + r + 1)) (edge s x) := by
  by_cases hp : s.prescaler.toNat = 0
  · -- the next bit
    have hpred := toNat_pred hpos
    have he : k * (d + 1) + r + 1 = (k + 1) * (d + 1) + 0 := by
      rw [Nat.succ_mul]
      omega
    have hout' : s.shifter.getLsbD 0 = frameBit b (k + 1) := hshift 0 (by omega)
    rw [he, edge_of_nextBit hpos hp]
    by_cases hlast : s.counter - 1#4 = 0#4
    · have hf := full_range nstop
      have hk : (full nstop).toNat - 1 = k + 1 := by
        rw [hlast] at hpred
        simp only [BitVec.toNat_ofNat] at hpred
        omega
      refine At.idle hlast (hout'.trans (frameBit_stop (by omega))) ⟨Nat.le_of_eq hdiv, fun b' e' hh => ?_⟩
      simp only [Option.some.injEq, Prod.mk.injEq] at hh
      rw [hk, hdiv]
      omega
    · exact At.sending b (k + 1) 0 rfl (Nat.zero_le d) (by simp only; omega) hlast hdiv (getLsbD_shifted hshift) hout'
  · rw [edge_of_wait hpos hp]
    have hsub := toNat_prescaler hp
    exact At.sending b k (r + 1) rfl (by omega) hcount hpos (by simp only [hsub]; omega) hshift hout

/-- A cycle keeps the transmitter on the line. -/
theorem At.next (ha : At d nstop h s) (hdiv : x.div.toNat = d) (hns : x.nstop = nstop) :
    At d nstop (hear nstop s h) (edge s x) ∧ Follows d h (hear nstop s h) := by
  cases ha with
  | idle hcount hout hover =>
    rw [hear_of_not_first (Or.inl (by simp [nextBit, busy, hcount]))]
    exact ⟨At.next_idle hcount hout hover hns, Follows.tick h⟩
  | loaded b hcount hout hshift hover => exact At.next_loaded hcount hout hshift hover hdiv
  | sending b k r hh hr hcount hpos hpre hshift hout =>
    have hne : s.counter ≠ full nstop := by
      intro h0
      rw [h0] at hcount
      omega
    rw [hear_of_not_first (Or.inr hne)]
    refine ⟨?_, Follows.tick h⟩
    rw [hh]
    exact At.next_sending hr hcount hpos hpre hshift hout hdiv

/-! ### The bytes that are sent -/

/-- The byte that the transmitter takes in a cycle. -/
def started (s : State) (x : Input) : Option (BitVec 8) := if start s x then some x.inBits else none

/-- The byte whose start bit has not begun yet. -/
def held (nstop : Bool) (s : State) : List (BitVec 8) :=
  if s.counter = full nstop then [s.shifter.extractLsb' 1 8] else []

/-- The number of cycles at most until the next start bit begins, once there is a byte to send. -/
def rank (d : ℕ) (nstop : Bool) (s : State) : ℕ :=
  if s.counter = full nstop then s.prescaler.toNat + 1 else s.counter.toNat * (d + 1) + s.prescaler.toNat + 2

theorem rank_pos : 0 < rank d nstop s := by
  rw [rank]
  split <;> omega

theorem held_of_ne (hne : s.counter ≠ full nstop) : held nstop s = [] := if_neg hne

theorem sending_ne {k : ℕ} (hcount : s.counter.toNat + k + 1 = (full nstop).toNat) : s.counter ≠ full nstop := by
  intro h0
  rw [h0] at hcount
  omega

/-- Once a bit is on the line the byte is no longer held. -/
theorem held_edge_of_nextBit (hpos : s.counter ≠ 0#4) (hp : s.prescaler.toNat = 0)
    (hle : s.counter.toNat ≤ (full nstop).toNat) : held nstop (edge s x) = [] := by
  have hpred := toNat_pred hpos
  rw [edge_of_nextBit hpos hp]
  refine held_of_ne fun h0 => ?_
  simp only at h0
  rw [h0] at hpred
  omega

/-- A byte that is held goes to the line, or what is taken is held. -/
theorem At.conservation (ha : At d nstop h s) (hns : start s x = true → x.nstop = nstop) :
    (∃ b, held nstop s = [b] ∧ hear nstop s h = some (b, 0) ∧ held nstop (edge s x) = [] ∧ started s x = none ∧
        ∀ b' e, h = some (b', e) → 10 * (d + 1) ≤ e) ∨
      hear nstop s h = tick h ∧ held nstop s ++ (started s x).toList = held nstop (edge s x) := by
  cases ha with
  | idle hcount hout hover =>
    have hheld : held nstop s = [] := held_of_ne (by rw [hcount]; exact full_ne.symm)
    right
    refine ⟨hear_of_not_first (Or.inl (by simp [nextBit, busy, hcount])), ?_⟩
    cases hstart : start s x with
    | false =>
      rw [edge_of_idle hcount hstart, hheld, started, hstart]
      rfl
    | true =>
      rw [edge_of_start hcount hstart, hheld, started, hstart, hns hstart]
      simp [held, extract_loaded]
  | loaded b hcount hout hshift hover =>
    have hpos : s.counter ≠ 0#4 := hcount ▸ full_ne
    have hheld : held nstop s = [b] := by rw [held, if_pos hcount, hshift, extract_loaded]
    have hstarted : started s x = none := by
      rw [started, not_start_of_busy hpos]
      rfl
    by_cases hp : s.prescaler.toNat = 0
    · left
      refine ⟨b, hheld, ?_, held_edge_of_nextBit hpos hp (Nat.le_of_eq (by rw [hcount])), hstarted, hover.ten hp⟩
      simp [hear, nextBit, pulse_iff.2 hp, busy, hcount, full_ne, hshift, extract_loaded]
    · right
      have hpulse : pulse s = false := by rwa [← Bool.not_eq_true, pulse_iff]
      refine ⟨hear_of_not_first (Or.inl (by simp [nextBit, hpulse])), ?_⟩
      rw [edge_of_wait hpos hp, hstarted]
      simp [held]
  | sending b k r hh hr hcount hpos hpre hshift hout =>
    right
    have hne := sending_ne hcount
    refine ⟨hear_of_not_first (Or.inr hne), ?_⟩
    rw [held_of_ne hne, started, not_start_of_busy hpos]
    by_cases hp : s.prescaler.toNat = 0
    · rw [held_edge_of_nextBit hpos hp (by omega)]
      rfl
    · have hne' : (edge s x).counter ≠ full nstop := by
        rw [edge_of_wait hpos hp]
        exact hne
      rw [held_of_ne hne']
      rfl

/-- Until the next start bit begins, every cycle brings it nearer. -/
theorem At.rank_lt (ha : At d nstop h s) (hdiv : x.div.toNat = d) (hns : x.nstop = nstop)
    (hgo : s.counter = 0#4 → start s x = true) (ht : hear nstop s h = tick h) :
    rank d nstop (edge s x) < rank d nstop s := by
  cases ha with
  | idle hcount hout hover =>
    rw [edge_of_start hcount (hgo hcount), rank, rank, if_pos (by rw [hns]), if_neg (by rw [hcount]; exact full_ne.symm)]
    simp only
    omega
  | loaded b hcount hout hshift hover =>
    have hpos : s.counter ≠ 0#4 := hcount ▸ full_ne
    by_cases hp : s.prescaler.toNat = 0
    · have hhear : hear nstop s h = some (b, 0) := by
        simp [hear, nextBit, pulse_iff.2 hp, busy, hcount, full_ne, hshift, extract_loaded]
      rw [hhear] at ht
      cases h <;> simp [tick] at ht
    · rw [edge_of_wait hpos hp, rank, rank, if_pos hcount, if_pos hcount]
      simp only [toNat_prescaler hp]
      omega
  | sending b k r hh hr hcount hpos hpre hshift hout =>
    have hne := sending_ne hcount
    by_cases hp : s.prescaler.toNat = 0
    · have hpred := toNat_pred hpos
      have hmul : s.counter.toNat * (d + 1) = (s.counter - 1#4).toNat * (d + 1) + (d + 1) := by
        rw [← hpred, Nat.succ_mul]
      have hne' : s.counter - 1#4 ≠ full nstop := by
        intro h0
        rw [h0] at hpred
        omega
      rw [edge_of_nextBit hpos hp, rank, rank, if_neg hne, if_neg hne']
      simp only [hdiv]
      omega
    · rw [edge_of_wait hpos hp, rank, rank, if_neg hne, if_neg hne]
      simp only [toNat_prescaler hp]
      omega

end UartTx
