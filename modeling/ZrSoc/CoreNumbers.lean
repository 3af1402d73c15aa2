import ZrSoc.CoreState
import ZrSoc.Lists.Letters

/-!
# The tokens of the state machine

`core_state_transition` reads a token up to a comma or a zero.  Its end state says what kind of number the token is
(`coreStateTransition_classifies`): the languages of the numbers are given here, and the run is the run of a finite
machine, of which each state is characterised by what remains to be read.  The machine is in the state `invalid` when no
continuation is a number, and stops there.
-/

namespace CoreMark

open Letters
open scoped Computability

variable {st : CoreState} {sym : BitVec 8} {tok : List (BitVec 8)}

/-! ### Numbers -/

def digit : Language (BitVec 8) := letters fun c => eeIsdigit c

def sign : Language (BitVec 8) := letters fun c => c = byte '+' ∨ c = byte '-'

def point : Language (BitVec 8) := letters fun c => c = byte '.'

def exponentMark : Language (BitVec 8) := letters fun c => c = byte 'E' ∨ c = byte 'e'

/-- Digits, with or without a sign. -/
def integers : Language (BitVec 8) := optional sign * (digit * digit∗)

/-- Digits with a point in front of them, between them or behind them, and then a word of `L`. -/
def pointed (L : Language (BitVec 8)) : Language (BitVec 8) := digit∗ * (point * (digit∗ * L))

/-- The exponents: the sign is not optional. -/
def exponents : Language (BitVec 8) := exponentMark * (sign * (digit * digit∗))

def floats : Language (BitVec 8) := optional sign * pointed 1

def scientifics : Language (BitVec 8) := optional sign * pointed exponents

/-! ### The machine -/

/-- A step of the machine without its counters. -/
def stepState (st : CoreState) (sym : BitVec 8) : CoreState := (nextState st sym fun _ => 0).1

/-- The step does not depend on the counters. -/
theorem nextState_fst (st : CoreState) (sym : BitVec 8) (cnt : Counts) :
    (nextState st sym cnt).1 = stepState st sym := by
  cases st <;> simp only [stepState, nextState] <;> split_ifs <;> rfl

/-- The machine that accepts the tokens with one end state. -/
def machine (accept : CoreState) : DFA (BitVec 8) CoreState := ⟨stepState, .start, {accept}⟩

/-- The state behind a word. -/
def endState (st : CoreState) (w : List (BitVec 8)) : CoreState := w.foldl stepState st

@[simp] theorem endState_nil (st : CoreState) : endState st [] = st := rfl

@[simp] theorem endState_cons (st : CoreState) (c : BitVec 8) (w : List (BitVec 8)) :
    endState st (c :: w) = endState (stepState st c) w := rfl

theorem endState_append (st : CoreState) (v w : List (BitVec 8)) :
    endState st (v ++ w) = endState (endState st v) w := List.foldl_append

@[simp] theorem endState_invalid (w : List (BitVec 8)) : endState .invalid w = .invalid := by
  induction w with
  | nil => rfl
  | cons c w ih => exact ih

/-! ### What remains to be read -/

/-- What a symbol means to the machine. -/
theorem symbol_cases (c : BitVec 8) :
    (eeIsdigit c = true ∧ c ≠ byte '+' ∧ c ≠ byte '-' ∧ c ≠ byte '.' ∧ c ≠ byte 'E' ∧ c ≠ byte 'e') ∨
      c = byte '+' ∨ c = byte '-' ∨ c = byte '.' ∨ c = byte 'E' ∨ c = byte 'e' ∨
      (eeIsdigit c = false ∧ c ≠ byte '+' ∧ c ≠ byte '-' ∧ c ≠ byte '.' ∧ c ≠ byte 'E' ∧ c ≠ byte 'e') := by
  revert c
  decide +kernel

/-- What remains of an integer in each state. -/
def integersFrom : CoreState → Language (BitVec 8)
  | .start => integers
  | .s1 => digit * digit∗
  | .int => digit∗
  | _ => 0

/-- What remains of a float. -/
def floatsFrom : CoreState → Language (BitVec 8)
  | .start => floats
  | .s1 | .int => pointed 1
  | .float => digit∗ * 1
  | _ => 0

/-- What remains of a number with an exponent. -/
def scientificsFrom : CoreState → Language (BitVec 8)
  | .start => scientifics
  | .s1 | .int => pointed exponents
  | .float => digit∗ * exponents
  | .s2 => sign * (digit * digit∗)
  | .exponent => digit * digit∗
  | .scientific => digit∗
  | .invalid => 0

theorem integersFrom_nil (st : CoreState) : [] ∈ integersFrom st ↔ st = .int := by
  cases st <;> simp [integersFrom, integers, digit, sign, Language.notMem_zero]

theorem floatsFrom_nil (st : CoreState) : [] ∈ floatsFrom st ↔ st = .float := by
  cases st <;> simp [floatsFrom, floats, pointed, digit, sign, point, Language.notMem_zero]

theorem scientificsFrom_nil (st : CoreState) : [] ∈ scientificsFrom st ↔ st = .scientific := by
  cases st <;> simp [scientificsFrom, scientifics, pointed, exponents, digit, sign, point, exponentMark,
    Language.notMem_zero]

theorem integersFrom_cons (st : CoreState) (c : BitVec 8) (w : List (BitVec 8)) :
    c :: w ∈ integersFrom st ↔ w ∈ integersFrom (stepState st c) := by
  rcases symbol_cases c with ⟨h₀, h₁, h₂, h₃, h₄, h₅⟩ | rfl | rfl | rfl | rfl | rfl | ⟨h₀, h₁, h₂, h₃, h₄, h₅⟩ <;>
    cases st <;> simp +decide [stepState, nextState, integersFrom, integers, digit, sign, Language.notMem_zero, *]

theorem floatsFrom_cons (st : CoreState) (c : BitVec 8) (w : List (BitVec 8)) :
    c :: w ∈ floatsFrom st ↔ w ∈ floatsFrom (stepState st c) := by
  rcases symbol_cases c with ⟨h₀, h₁, h₂, h₃, h₄, h₅⟩ | rfl | rfl | rfl | rfl | rfl | ⟨h₀, h₁, h₂, h₃, h₄, h₅⟩ <;>
    cases st <;> simp +decide [stepState, nextState, floatsFrom, floats, pointed, digit, sign, point,
      Language.notMem_zero, *]

theorem scientificsFrom_cons (st : CoreState) (c : BitVec 8) (w : List (BitVec 8)) :
    c :: w ∈ scientificsFrom st ↔ w ∈ scientificsFrom (stepState st c) := by
  rcases symbol_cases c with ⟨h₀, h₁, h₂, h₃, h₄, h₅⟩ | rfl | rfl | rfl | rfl | rfl | ⟨h₀, h₁, h₂, h₃, h₄, h₅⟩ <;>
    cases st <;> simp +decide [stepState, nextState, scientificsFrom, scientifics, pointed, exponents, digit, sign,
      point, exponentMark, Language.notMem_zero, *]

theorem endState_int_iff (w : List (BitVec 8)) : endState .start w = .int ↔ w ∈ integers :=
  mem_acceptsFrom_iff (M := machine .int) integersFrom integersFrom_nil integersFrom_cons .start

theorem endState_float_iff (w : List (BitVec 8)) : endState .start w = .float ↔ w ∈ floats :=
  mem_acceptsFrom_iff (M := machine .float) floatsFrom floatsFrom_nil floatsFrom_cons .start

theorem endState_scientific_iff (w : List (BitVec 8)) : endState .start w = .scientific ↔ w ∈ scientifics :=
  mem_acceptsFrom_iff (M := machine .scientific) scientificsFrom scientificsFrom_nil scientificsFrom_cons .start

/-! ### Tokens without a continuation -/

def numbers : Language (BitVec 8) := {w | w ∈ integers ∨ w ∈ floats ∨ w ∈ scientifics}

theorem mem_numbers_iff (w : List (BitVec 8)) :
    w ∈ numbers ↔ endState .start w = .int ∨ endState .start w = .float ∨ endState .start w = .scientific := by
  rw [endState_int_iff, endState_float_iff, endState_scientific_iff]
  rfl

/-- From every other state than `invalid`, the machine can go on to a number. -/
theorem exists_number (h : st ≠ .invalid) :
    ∃ w, endState st w = .int ∨ endState st w = .float ∨ endState st w = .scientific := by
  cases st with
  | start => exact ⟨[byte '1'], by decide⟩
  | invalid => exact absurd rfl h
  | s1 => exact ⟨[byte '1'], by decide⟩
  | s2 => exact ⟨[byte '+', byte '1'], by decide⟩
  | int => exact ⟨[], by decide⟩
  | float => exact ⟨[], by decide⟩
  | exponent => exact ⟨[byte '1'], by decide⟩
  | scientific => exact ⟨[], by decide⟩

/-- The machine is in the state `invalid` when no continuation is a number. -/
theorem endState_invalid_iff (w : List (BitVec 8)) : endState .start w = .invalid ↔ ∀ v, w ++ v ∉ numbers := by
  constructor
  · intro h v hv
    rw [mem_numbers_iff, endState_append, h, endState_invalid] at hv
    simp at hv
  · intro h
    by_contra hne
    obtain ⟨v, hv⟩ := exists_number hne
    rw [← endState_append, ← mem_numbers_iff] at hv
    exact h v hv

/-! ### The loop -/

/-- Where the loop stops: behind the separator of the token, or behind the first symbol that leaves no continuation. -/
def StopsAt (st : CoreState) (tok : List (BitVec 8)) (sep : BitVec 8) (rest rest' : List (BitVec 8)) : Prop :=
  (endState st tok ≠ .invalid → rest' = if sep = 0 then sep :: rest else rest) ∧
    (endState st tok = .invalid → ∃ v c w, tok = v ++ c :: w ∧ rest' = w ++ sep :: rest ∧ endState st v ≠ .invalid ∧
      endState st (v ++ [c]) = .invalid)

theorem transitionLoop_invalid {str : List (BitVec 8)} (h : str ≠ []) (cnt : Counts) :
    transitionLoop .invalid cnt str = some (.invalid, str, cnt) := by
  cases str with
  | nil => exact absurd rfl h
  | cons c str => rw [transitionLoop, if_pos (Or.inr rfl)]

theorem transitionLoop_endState {sep : BitVec 8} (htok : ∀ c ∈ tok, c ≠ 0 ∧ c ≠ byte ',')
    (hsep : sep = 0 ∨ sep = byte ',') (rest : List (BitVec 8)) (hst : st ≠ .invalid) (cnt : Counts) :
    ∃ rest' cnt', transitionLoop st cnt (tok ++ sep :: rest) = some (endState st tok, rest', cnt') ∧
      StopsAt st tok sep rest rest' := by
  induction tok generalizing st cnt with
  | nil =>
    by_cases h0 : sep = 0
    · refine ⟨sep :: rest, cnt, ?_, fun _ => (if_pos h0).symm, fun h => absurd h hst⟩
      rw [List.nil_append, transitionLoop, if_pos (Or.inl h0), endState_nil]
    · refine ⟨rest, cnt, ?_, fun _ => (if_neg h0).symm, fun h => absurd h hst⟩
      rw [List.nil_append, transitionLoop, if_neg (not_or.2 ⟨h0, hst⟩), if_pos (hsep.resolve_left h0), endState_nil]
  | cons c tok ih =>
    obtain ⟨hc0, hcomma⟩ := htok c List.mem_cons_self
    rw [List.cons_append, transitionLoop, if_neg (not_or.2 ⟨hc0, hst⟩), if_neg hcomma, nextState_fst]
    by_cases hnext : stepState st c = .invalid
    · -- the next turn stops in front of what is left of the token
      have hend : endState st (c :: tok) = .invalid := by rw [endState_cons, hnext, endState_invalid]
      rw [hnext, transitionLoop_invalid (by simp), hend]
      refine ⟨_, _, rfl, fun h => absurd hend h, fun _ => ⟨[], c, tok, rfl, rfl, hst, ?_⟩⟩
      exact hnext
    · obtain ⟨rest', cnt', hrun, hvalid, hinvalid⟩ := ih (fun c hc => htok c (List.mem_cons_of_mem _ hc)) hnext
        (nextState st c cnt).2
      refine ⟨rest', cnt', hrun, hvalid, ?_⟩
      intro h
      obtain ⟨v, x, w, rfl, hrest, hv, hx⟩ := hinvalid h
      exact ⟨c :: v, x, w, rfl, hrest, hv, hx⟩

/-- The end state of a token says what kind of number it is; it is `invalid` when no continuation of the token is a
number.  A token that can be continued is read up to its separator, and any other up to the symbol after which it
cannot. -/
theorem coreStateTransition_classifies (tok : List (BitVec 8)) (sep : BitVec 8) (rest : List (BitVec 8)) (cnt : Counts)
    (htok : ∀ c ∈ tok, c ≠ 0 ∧ c ≠ byte ',') (hsep : sep = 0 ∨ sep = byte ',') :
    ∃ fstate rest' cnt', coreStateTransition (tok ++ sep :: rest) cnt = some (fstate, rest', cnt') ∧
      (fstate = .int ↔ tok ∈ integers) ∧ (fstate = .float ↔ tok ∈ floats) ∧ (fstate = .scientific ↔ tok ∈ scientifics) ∧
      (fstate = .invalid ↔ ∀ v, tok ++ v ∉ numbers) ∧
      (fstate ≠ .invalid → rest' = if sep = 0 then sep :: rest else rest) ∧
      (fstate = .invalid → ∃ v c w, tok = v ++ c :: w ∧ rest' = w ++ sep :: rest ∧ (∃ u, v ++ u ∈ numbers) ∧
        ∀ u, v ++ c :: u ∉ numbers) := by
  obtain ⟨rest', cnt', hrun, hvalid, hinvalid⟩ := transitionLoop_endState htok hsep rest
    (show CoreState.start ≠ .invalid by decide) cnt
  refine ⟨endState .start tok, rest', cnt', hrun, endState_int_iff tok, endState_float_iff tok,
    endState_scientific_iff tok, endState_invalid_iff tok, hvalid, ?_⟩
  intro h
  obtain ⟨v, c, w, htok, hrest, hv, hc⟩ := hinvalid h
  refine ⟨v, c, w, htok, hrest, ?_, ?_⟩
  · by_contra hno
    exact hv ((endState_invalid_iff v).2 (not_exists.1 hno))
  · intro u hu
    apply (endState_invalid_iff _).1 hc u
    rwa [List.append_assoc]

theorem coreStateTransition_classifies_float :
    [byte '0', byte '.', byte '5'] ∈ floats ∧ ∀ v, [byte '0', byte 'x', byte '5'] ++ v ∉ numbers := by
  constructor
  · obtain ⟨fstate, rest', cnt', hrun, -, hfloat, -⟩ :=
      coreStateTransition_classifies [byte '0', byte '.', byte '5'] (byte ',') [0] (fun _ => 0) (by decide) (Or.inr rfl)
    have heval : (coreStateTransition ([byte '0', byte '.', byte '5'] ++ byte ',' :: [0]) fun _ => 0).map Prod.fst =
        some .float := by decide
    rw [hrun] at heval
    exact hfloat.1 (Option.some.inj heval)
  · obtain ⟨fstate, rest', cnt', hrun, -, -, -, hinvalid, -⟩ :=
      coreStateTransition_classifies [byte '0', byte 'x', byte '5'] (byte ',') [0] (fun _ => 0) (by decide) (Or.inr rfl)
    have heval : (coreStateTransition ([byte '0', byte 'x', byte '5'] ++ byte ',' :: [0]) fun _ => 0).map Prod.fst =
        some .invalid := by decide
    rw [hrun] at heval
    exact hinvalid.1 (Option.some.inj heval)

end CoreMark
