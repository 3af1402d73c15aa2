import ZrSoc.Sync.Log
import ZrSoc.Sync.BitRing
import Mathlib.Tactic.IntervalCases

/-!
# The clock domain crossing (`rtl/pulp/cdc_2phase.sv`)

The two halves run on clocks of their own.  An instant of a run has an edge of the source clock, an edge of the
destination clock, or both at once, in any order.

The lines between the domains are sampled by a clock they are not synchronous to.  A request or acknowledge that
changed since the last edge of the sampling clock may be seen as it was or as it is (`settled`), and a data line that
changed since then may be seen as anything (`junk`).  The circuit of the source is the case in which `settled` is
always true.

The seven one-bit registers form a ring, and at most one change of level is under way in it (`Holds`): it starts
when an item is accepted, passes the synchronisers of the destination, waits until the item is delivered, and comes
back through the synchronisers of the source.
-/

namespace Cdc2Phase

open Sync BitRing

variable {T : Type*}

/-- `cdc_2phase_src` -/
structure Src (T : Type*) where
  reqSrcQ : Bool
  ackSrcQ : Bool
  ackQ : Bool
  dataSrcQ : T

/-- `cdc_2phase_dst` -/
structure Dst (T : Type*) where
  reqDstQ : Bool
  reqQ0 : Bool
  reqQ1 : Bool
  ackDstQ : Bool
  dataDstQ : T

structure SrcInput (T : Type*) where
  valid : Bool
  data : T
  settled : Bool

structure DstInput (T : Type*) where
  ready : Bool
  settled : Bool
  junk : T

def Src.readyO (s : Src T) : Bool := s.reqSrcQ == s.ackQ

def Src.edge (s : Src T) (validI : Bool) (dataI : T) (asyncAckI : Bool) : Src T where
  reqSrcQ := if validI && s.readyO then !s.reqSrcQ else s.reqSrcQ
  ackSrcQ := asyncAckI
  ackQ := s.ackSrcQ
  dataSrcQ := if validI && s.readyO then dataI else s.dataSrcQ

def Dst.validO (s : Dst T) : Bool := s.ackDstQ != s.reqQ1

def Dst.dataO (s : Dst T) : T := s.dataDstQ

def Dst.edge (s : Dst T) (readyI : Bool) (asyncReqI : Bool) (asyncDataI : T) : Dst T where
  reqDstQ := asyncReqI
  reqQ0 := s.reqDstQ
  reqQ1 := s.reqQ0
  ackDstQ := if s.validO && readyI then !s.ackDstQ else s.ackDstQ
  dataDstQ := if s.reqQ0 != s.reqQ1 && !s.validO then asyncDataI else s.dataDstQ

/-! ### The two domains together -/

/-- The two halves, and what the lines between them were at the last edge of the clock that samples them. -/
structure State (T : Type*) where
  src : Src T
  dst : Dst T
  reqSeen : Bool
  dataSeen : T
  ackSeen : Bool

/-- An instant: the edges in it, with the inputs of the half that has one. -/
structure Event (T : Type*) where
  src : Option (SrcInput T)
  dst : Option (DstInput T)

/-- What a synchroniser sees of a line that was `seen` at the last edge. -/
def sampled (seen line settled : Bool) : Bool := if settled then line else seen

/-- What a register sees of data lines that were `seen` at the last edge. -/
def sampledData [DecidableEq T] (seen line junk : T) : T := if seen = line then line else junk

def reset [Zero T] : State T where
  src := { reqSrcQ := false, ackSrcQ := false, ackQ := false, dataSrcQ := 0 }
  dst := { reqDstQ := false, reqQ0 := false, reqQ1 := false, ackDstQ := false, dataDstQ := 0 }
  reqSeen := false
  dataSeen := 0
  ackSeen := false

def edge [DecidableEq T] (s : State T) (e : Event T) : State T where
  src := match e.src with
    | some x => s.src.edge x.valid x.data (sampled s.ackSeen s.dst.ackDstQ x.settled)
    | none => s.src
  dst := match e.dst with
    | some y => s.dst.edge y.ready (sampled s.reqSeen s.src.reqSrcQ y.settled)
        (sampledData s.dataSeen s.src.dataSrcQ y.junk)
    | none => s.dst
  reqSeen := if e.dst.isSome then s.src.reqSrcQ else s.reqSeen
  dataSeen := if e.dst.isSome then s.src.dataSrcQ else s.dataSeen
  ackSeen := if e.src.isSome then s.dst.ackDstQ else s.ackSeen

/-- The crossing as a circuit with two clocks. -/
def machine (T : Type*) [DecidableEq T] [Zero T] : Machine (State T) (Event T) where
  reset := reset
  edge := edge

/-- The item that the source half accepts. -/
def accepted (s : State T) (e : Event T) : Option T :=
  e.src.bind fun x => if x.valid && s.src.readyO then some x.data else none

/-- The item that the destination half hands over. -/
def delivered (s : State T) (e : Event T) : Option T :=
  e.dst.bind fun y => if s.dst.validO && y.ready then some s.dst.dataO else none

/-! ### The change of level on its way round the ring -/

/-- The one-bit registers in the order in which a change passes them. -/
def regs (s : State T) : ℕ → Bool
  | 0 => s.src.reqSrcQ
  | 1 => s.dst.reqDstQ
  | 2 => s.dst.reqQ0
  | 3 => s.dst.reqQ1
  | 4 => s.dst.ackDstQ
  | 5 => s.src.ackSrcQ
  | _ => s.src.ackQ

/-- The change of level has passed `k` of the seven registers; `x` is the item that it announces. -/
structure Holds (s : State T) (p : Bool) (k : ℕ) (x : T) : Prop where
  moving : Moving 7 (regs s) p k
  reqSeen : k ≠ 1 → s.reqSeen = s.src.reqSrcQ
  ackSeen : k ≠ 5 → s.ackSeen = s.dst.ackDstQ
  dataSrcQ : 0 < k → s.src.dataSrcQ = x
  dataSeen : 1 < k → s.dataSeen = x
  dataDstQ : 3 < k → s.dst.dataDstQ = x

/-- The change of level passes the next register in this instant. -/
def advances (s : State T) (e : Event T) : ℕ → Bool
  | 0 => e.src.any (·.valid)
  | 1 => e.dst.any fun y => y.settled || s.reqSeen == s.src.reqSrcQ
  | 2 => e.dst.isSome
  | 3 => e.dst.isSome
  | 4 => e.dst.any (·.ready)
  | 5 => e.src.any fun x => x.settled || s.ackSeen == s.dst.ackDstQ
  | _ => e.src.isSome

/-- The item that is under way after the instant. -/
def item (s : State T) (e : Event T) (x : T) : T := (accepted s e).getD x

/-- The item while it has been accepted and not yet delivered. -/
def inFlight (k : ℕ) (x : T) : List T := if 0 < k ∧ k ≤ 4 then [x] else []

variable {s : State T} {p : Bool} {k : ℕ} {x : T}

theorem Holds.readyO_eq (h : Holds s p k x) : s.src.readyO = decide (k = 0) := h.moving.eq_last

theorem Holds.validO_eq (h : Holds s p k x) : s.dst.validO = decide (k = 4) := h.moving.ne_succ (i := 3) (by omega)

theorem Holds.reqQ_ne (h : Holds s p k x) : (s.dst.reqQ0 != s.dst.reqQ1) = decide (k = 3) := by
  rw [bne_comm]
  exact h.moving.ne_succ (i := 2) (by omega)

theorem holds_reset [Zero T] : Holds (reset : State T) false 0 0 := by
  refine ⟨moving_zero (by omega) fun i hi => ?_, fun _ => rfl, fun _ => rfl, fun h => absurd h (by omega),
    fun h => absurd h (by omega), fun h => absurd h (by omega)⟩
  interval_cases i <;> rfl

/-- A synchroniser that samples the register before it in the ring follows it if the change is there and seen. -/
private theorem sampled_eq {seen line q settled : Bool} {b : Prop} [Decidable b] (hline : line = (q ^^ decide b))
    (hseen : ¬ b → seen = line) : sampled seen line settled = (q ^^ ((settled || seen == line) && decide b)) := by
  unfold sampled
  by_cases hb : b
  · simp only [hb, decide_true, Bool.xor_true, Bool.and_true] at hline ⊢
    subst hline
    cases q <;> cases seen <;> cases settled <;> rfl
  · rw [hseen hb, hline]
    simp [hb]

theorem Holds.accepted_eq (h : Holds s p k x) (e : Event T) :
    accepted s e = e.src.bind fun u => if u.valid && decide (k = 0) then some u.data else none := by
  rw [accepted, h.readyO_eq]

theorem Holds.accepted_none (h : Holds s p k x) (e : Event T) (hk : k ≠ 0) : accepted s e = none := by
  rw [h.accepted_eq]
  cases e.src <;> simp [hk]

/-- A change starts when an item is accepted. -/
theorem Holds.accepted_zero (h : Holds s p 0 x) (e : Event T) : (accepted s e).isSome = advances s e 0 := by
  rw [h.accepted_eq, advances]
  cases e.src with
  | none => rfl
  | some u => cases hu : u.valid <;> simp [hu]

theorem Holds.delivered_eq (h : Holds s p k x) (e : Event T) :
    delivered s e = if k = 4 ∧ advances s e 4 = true then some x else none := by
  rw [delivered, h.validO_eq, advances]
  cases e.dst with
  | none => simp
  | some y =>
    by_cases hk : k = 4
    · simp [hk, Dst.dataO, h.dataDstQ (by omega)]
    · simp [hk]

variable [DecidableEq T] (e : Event T)

/-- In every instant the register that the change has reached follows, if it is clocked, and no other one changes. -/
theorem Holds.regs_edge (h : Holds s p k x) {i : ℕ} (hi : i < 7) :
    regs (edge s e) i = (regs s i ^^ (advances s e k && decide (k = i))) := by
  have hcopy {j : ℕ} (hj : j + 1 < 7) : regs s j = (regs s (j + 1) ^^ decide (k = j + 1)) := h.moving.copy hj
  have hc {j : ℕ} {a : Bool} (ha : ∀ (_ : k = j), advances s e k = a) :
      (advances s e k && decide (k = j)) = (a && decide (k = j)) := by
    by_cases hk : k = j
    · rw [ha hk]
    · simp [hk]
  obtain ⟨src, dst⟩ := e
  interval_cases i
  · rw [hc (a := src.any (·.valid)) (by rintro rfl; rfl)]
    cases src with
    | none => simp [regs, edge]
    | some u => cases hv : u.valid <;> by_cases hk : k = 0 <;> simp [regs, edge, Src.edge, h.readyO_eq, hv, hk]
  · rw [hc (a := dst.any fun y => y.settled || s.reqSeen == s.src.reqSrcQ) (by rintro rfl; rfl)]
    cases dst with
    | none => simp [regs, edge]
    | some y => exact sampled_eq (hcopy (j := 0) (by omega)) h.reqSeen
  · rw [hc (a := dst.isSome) (by rintro rfl; rfl)]
    cases dst with
    | none => simp [regs, edge]
    | some y => exact hcopy (j := 1) (by omega)
  · rw [hc (a := dst.isSome) (by rintro rfl; rfl)]
    cases dst with
    | none => simp [regs, edge]
    | some y => exact hcopy (j := 2) (by omega)
  · rw [hc (a := dst.any (·.ready)) (by rintro rfl; rfl)]
    cases dst with
    | none => simp [regs, edge]
    | some y => cases hr : y.ready <;> by_cases hk : k = 4 <;> simp [regs, edge, Dst.edge, h.validO_eq, hr, hk]
  · rw [hc (a := src.any fun u => u.settled || s.ackSeen == s.dst.ackDstQ) (by rintro rfl; rfl)]
    cases src with
    | none => simp [regs, edge]
    | some u => exact sampled_eq (hcopy (j := 4) (by omega)) h.ackSeen
  · rw [hc (a := src.isSome) (by rintro rfl; rfl)]
    cases src with
    | none => simp [regs, edge]
    | some u => exact hcopy (j := 5) (by omega)

/-- What was seen of a line at the last edge of the sampling clock is what the line is, unless the change is in the
register that samples it. -/
private theorem seen_edge {seen line line' clk a : Bool} {i k : ℕ} (hi : i + 1 < 7)
    (hline : line' = (line ^^ (a && decide (k = i)))) (hseen : k ≠ i + 1 → seen = line)
    (hclk : k = i + 1 → a = true → clk = true) (hk : passed 7 a k ≠ i + 1) :
    (if clk then line else seen) = line' := by
  rw [hline]
  rcases Nat.lt_trichotomy k i with hlt | rfl | hlt
  · have h1 : k ≠ i := by omega
    simp [h1, hseen (by omega)]
  · cases a with
    | false => simp [hseen (by omega)]
    | true => exact absurd (by rw [passed_eq hi, if_pos rfl]) hk
  · have h1 : k ≠ i := by omega
    simp only [h1, decide_false, Bool.and_false, Bool.xor_false]
    by_cases h2 : k = i + 1
    · cases a with
      | false => exact absurd (by rw [passed, if_neg (by simp), h2]) hk
      | true => rw [hclk h2 rfl, if_pos rfl]
    · simp [hseen h2]

/-- An item is accepted into the data register of the source, which keeps it otherwise. -/
theorem dataSrcQ_edge (s : State T) : (edge s e).src.dataSrcQ = item s e s.src.dataSrcQ := by
  obtain ⟨src, dst⟩ := e
  cases src with
  | none => rfl
  | some u =>
    simp only [edge, Src.edge, item, accepted, Option.bind_some]
    split <;> rfl

/-- The data register of the destination takes what it sees of the data lines when the change is about to pass the
last synchroniser. -/
theorem Holds.dataDstQ_edge (h : Holds s p k x) : (Cdc2Phase.edge s e).dst.dataDstQ =
    if k = 3 then (e.dst.map fun y => sampledData s.dataSeen s.src.dataSrcQ y.junk).getD s.dst.dataDstQ
    else s.dst.dataDstQ := by
  obtain ⟨src, dst⟩ := e
  cases dst with
  | none => simp [Cdc2Phase.edge]
  | some y =>
    by_cases hk : k = 3
    · simp [Cdc2Phase.edge, Dst.edge, h.reqQ_ne, h.validO_eq, hk]
    · simp [Cdc2Phase.edge, Dst.edge, h.reqQ_ne, hk]

/-- The change is past register `i + 1` only if it was there or has come there just now. -/
private theorem lt_of_lt_passed {a : Bool} {i k : ℕ} (hk : k < 7) (h : i + 1 < passed 7 a k) :
    k = i + 1 ∧ a = true ∨ i + 1 < k := by
  rcases Nat.lt_or_eq_of_le (Nat.lt_succ_iff.1 hk) with hk6 | rfl
  · rw [passed_eq (by omega)] at h
    cases a <;> simp at h ⊢ <;> omega
  · cases a
    · exact Or.inr h
    · exact absurd h (by simp [passed])

/-- Every instant keeps the invariant. -/
theorem Holds.edge (h : Holds s p k x) :
    Holds (edge s e) (level 7 (advances s e k) p k) (passed 7 (advances s e k) k) (item s e x) := by
  have hlt := h.moving.lt
  -- an item that is under way is not replaced
  have hitem (hk : 0 < k) : item s e x = x := by rw [item, h.accepted_none e (by omega), Option.getD_none]
  refine ⟨h.moving.step fun i hi => h.regs_edge e hi, ?_, ?_, ?_, ?_, ?_⟩
  · refine seen_edge (by omega) (h.regs_edge e (i := 0) (by omega)) h.reqSeen ?_
    rintro rfl hadv
    exact Option.isSome_of_any hadv
  · refine seen_edge (by omega) (h.regs_edge e (i := 4) (by omega)) h.ackSeen ?_
    rintro rfl hadv
    exact Option.isSome_of_any hadv
  · intro hk
    rw [dataSrcQ_edge]
    rcases Nat.eq_zero_or_pos k with rfl | hpos
    · cases hadv : advances s e 0 with
      | false => simp [passed, hadv] at hk
      | true =>
        obtain ⟨y, hy⟩ := Option.isSome_iff_exists.1 ((h.accepted_zero e).trans hadv)
        simp [item, hy]
    · rw [hitem hpos, item, h.accepted_none e (by omega), Option.getD_none, h.dataSrcQ hpos]
  · intro hk
    rcases lt_of_lt_passed hlt hk with ⟨rfl, hadv⟩ | hpos
    · have hdst : e.dst.isSome = true := Option.isSome_of_any hadv
      rw [hitem (by omega), ← h.dataSrcQ (by omega)]
      simp [Cdc2Phase.edge, hdst]
    · rw [hitem (by omega)]
      simp only [Cdc2Phase.edge]
      split
      · exact h.dataSrcQ (by omega)
      · exact h.dataSeen (by omega)
  · intro hk
    rw [h.dataDstQ_edge]
    rcases lt_of_lt_passed hlt hk with ⟨rfl, hadv⟩ | hpos
    · -- the data lines have been stable since the destination has seen the change
      obtain ⟨y, hy⟩ := Option.isSome_iff_exists.1 (show e.dst.isSome = true from hadv)
      simp [hitem, hy, sampledData, h.dataSeen (by omega), h.dataSrcQ (by omega)]
    · rw [if_neg (by omega), hitem (by omega), h.dataDstQ (by omega)]

end Cdc2Phase
