import Mathlib.Init

/-!
# Handshake flops

The two one-bit registers every ready-valid handshake of the design is built from.  Both are enabled by either of
two strobes: a valid flop is raised by `set` and dropped by `clr`, a ready flop is dropped by `accept` and raised by
`done`.
-/

namespace Sync

/-- `if (set | clr) vld <= set | ~clr`. -/
def vldFlop (set clr vld : Bool) : Bool := if set || clr then set || !clr else vld

/-- `if (accept | done) rdy <= ~accept | done`. -/
def rdyFlop (accept done rdy : Bool) : Bool := if accept || done then !accept || done else rdy

@[simp] theorem vldFlop_eq (set clr vld : Bool) : vldFlop set clr vld = (set || (!clr && vld)) := by
  cases set <;> cases clr <;> rfl

@[simp] theorem rdyFlop_eq (accept done rdy : Bool) : rdyFlop accept done rdy = (done || (!accept && rdy)) := by
  cases accept <;> cases done <;> rfl

end Sync
