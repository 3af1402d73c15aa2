import ZrSoc.CoreUtil
import Mathlib.Data.List.Basic

/-!
# The state machine of the benchmark

Model of `core_state.c`.  `coreStateTransition` scans one token of the input and says what kind of number it is;
`coreBenchState` goes over the input twice, and changes every `step`-th byte in between and afterwards.

The block of memory is the list of its bytes.  A pointer into it is what lies behind the pointer, so that reading an
empty list means reading outside of the block, and is `none`.
-/

namespace CoreMark

/-- `enum CORE_STATE`. -/
inductive CoreState
  | start
  | invalid
  | s1
  | s2
  | int
  | float
  | exponent
  | scientific
  deriving DecidableEq, Repr

/-- The states in the order of the enumeration. -/
def CoreState.all : List CoreState :=
  [.start, .invalid, .s1, .s2, .int, .float, .exponent, .scientific]

/-- An array with a counter for every state. -/
abbrev Counts := CoreState → BitVec 32

/-- One counter goes up. -/
def Counts.bump (cnt : Counts) (st : CoreState) : Counts :=
  fun x => if x = st then cnt x + 1 else cnt x

/-- The byte of a character. -/
def byte (c : Char) : BitVec 8 := BitVec.ofNat 8 c.toNat

def eeIsdigit (c : BitVec 8) : Bool :=
  decide (byte '0' ≤ c) && decide (c ≤ byte '9')

/-- The `switch` of the machine, for a symbol that does not end the input. -/
def nextState (state : CoreState) (sym : BitVec 8) (cnt : Counts) : CoreState × Counts :=
  match state with
  | .start =>
    if eeIsdigit sym then (.int, cnt.bump .start)
    else if sym = byte '+' ∨ sym = byte '-' then (.s1, cnt.bump .start)
    else if sym = byte '.' then (.float, cnt.bump .start)
    else (.invalid, (cnt.bump .invalid).bump .start)
  | .s1 =>
    if eeIsdigit sym then (.int, cnt.bump .s1)
    else if sym = byte '.' then (.float, cnt.bump .s1)
    else (.invalid, cnt.bump .s1)
  | .int =>
    if sym = byte '.' then (.float, cnt.bump .int)
    else if !eeIsdigit sym then (.invalid, cnt.bump .int)
    else (.int, cnt)
  | .float =>
    if sym = byte 'E' ∨ sym = byte 'e' then (.s2, cnt.bump .float)
    else if !eeIsdigit sym then (.invalid, cnt.bump .float)
    else (.float, cnt)
  | .s2 =>
    if sym = byte '+' ∨ sym = byte '-' then (.exponent, cnt.bump .s2)
    else (.invalid, cnt.bump .s2)
  | .exponent =>
    if eeIsdigit sym then (.scientific, cnt.bump .exponent)
    else (.invalid, cnt.bump .exponent)
  | .scientific =>
    if !eeIsdigit sym then (.invalid, cnt.bump .invalid)
    else (.scientific, cnt)
  | .invalid => (.invalid, cnt)

/-- The loop of `core_state_transition`, from `state` on: the end state and the pointer behind the token. -/
def transitionLoop (state : CoreState) (cnt : Counts) : List (BitVec 8) → Option (CoreState × List (BitVec 8) × Counts)
  | [] => none
  | sym :: str =>
    if sym = 0 ∨ state = .invalid then some (state, sym :: str, cnt)
    -- end of this input
    else if sym = byte ',' then some (state, str, cnt)
    else transitionLoop (nextState state sym cnt).1 (nextState state sym cnt).2 str

def coreStateTransition (instr : List (BitVec 8)) (cnt : Counts) : Option (CoreState × List (BitVec 8) × Counts) :=
  transitionLoop .start cnt instr

/-- The counters of a run over the input: how often each state was the end state, and the transitions. -/
structure StateCounts where
  final : Counts
  track : Counts

/-- The loop over the tokens of the input; every turn reads a byte at least, `fuel` bounds the turns. -/
def scan : ℕ → List (BitVec 8) → StateCounts → Option StateCounts
  | _, [], _ => none
  | 0, sym :: _, cnt => if sym = 0 then some cnt else none
  | fuel + 1, sym :: str, cnt =>
    if sym = 0 then some cnt
    else
      (coreStateTransition (sym :: str) cnt.track).bind fun (fstate, rest, track) =>
        scan fuel rest ⟨cnt.final.bump fstate, track⟩

/-- What the corruption makes of a byte. -/
def corruptByte (seed sym : BitVec 8) : BitVec 8 :=
  if sym ≠ byte ',' then sym ^^^ seed else sym

/-- The loop that changes every `step`-th byte, from the byte `i` on; `fuel` bounds its turns. -/
def corruptLoop (blksize step : ℕ) (seed : BitVec 8) : ℕ → ℕ → List (BitVec 8) → Option (List (BitVec 8))
  | 0, i, blk => if i < blksize then none else some blk
  | fuel + 1, i, blk =>
    if i < blksize then
      blk[i]?.bind fun sym => corruptLoop blksize step seed fuel (i + step) (blk.set i (corruptByte seed sym))
    else some blk

def coreBenchState (blksize : ℕ) (memblock : List (BitVec 8)) (seed1 seed2 step crc : BitVec 16) :
    Option (BitVec 16 × List (BitVec 8)) := do
  let cnt : StateCounts := ⟨fun _ => 0, fun _ => 0⟩
  -- run the state machine over the input
  let cnt ← scan memblock.length memblock cnt
  let memblock ← corruptLoop blksize step.toInt.toNat (seed1.setWidth 8) blksize 0 memblock
  -- run the state machine over the input again
  let cnt ← scan memblock.length memblock cnt
  let memblock ← corruptLoop blksize step.toInt.toNat (seed2.setWidth 8) blksize 0 memblock
  let crc := CoreState.all.foldl (fun crc st => crcu32 (cnt.track st) (crcu32 (cnt.final st) crc)) crc
  return (crc, memblock)

/-! ### The input -/

def intpat : List (List (BitVec 8)) :=
  ["5012", "1234", "-874", "+122"].map fun s => s.toList.map byte

def floatpat : List (List (BitVec 8)) :=
  ["35.54400", ".1234500", "-110.700", "+0.64400"].map fun s => s.toList.map byte

def scipat : List (List (BitVec 8)) :=
  ["5.500e+3", "-.123e-2", "-87e+832", "+0.6e-12"].map fun s => s.toList.map byte

def errpat : List (List (BitVec 8)) :=
  ["T0.3e-1F", "-T.T++Tq", "1T3.4e4z", "34.0e-T^"].map fun s => s.toList.map byte

/-- The `switch` of `core_init_state`: the pattern that a seed chooses. -/
def pattern (seed : BitVec 16) : List (BitVec 8) :=
  let pats := match (seed &&& 0x7).toNat with
    | 0 | 1 | 2 => intpat
    | 3 | 4 => floatpat
    | 5 | 6 => scipat
    | _ => errpat
  pats.getD ((seed >>> 3) &&& 0x3).toNat []

/-- The loop of `core_init_state`.  `p` is what has been written, so that `total` is its length, and `next` is the
length of `buf`.  Every turn but the first writes a byte at least; `fuel` bounds the turns. -/
def initLoop (size : ℕ) : ℕ → BitVec 16 → List (BitVec 8) → List (BitVec 8) → Option (List (BitVec 8))
  | 0, _, p, buf => if p.length + buf.length + 1 < size then none else some p
  | fuel + 1, seed, p, buf =>
    if p.length + buf.length + 1 < size then
      let p := if 0 < buf.length then p ++ buf ++ [byte ','] else p
      initLoop size fuel (seed + 1) p (pattern (seed + 1))
    else some p

/-- The bytes that `core_init_state` writes to its block. -/
def coreInitState (size : ℕ) (seed : BitVec 16) : Option (List (BitVec 8)) := do
  let p ← initLoop (size - 1) size seed [] []
  -- fill the rest with 0
  return p ++ List.replicate (size - p.length) 0

end CoreMark
