import Mathlib.Data.Nat.Init

/-!
# The byte queue of the peripherals (`rtl/perips/sirv_queue_1.v`)

A ring of eight bytes.  In every state it is a queue (`entries`): a cycle appends the byte that is taken and removes the
one that is given away from the front (`conservation`).
-/

namespace Queue1

structure State where
  ram : Vector (BitVec 8) 8
  wptr : BitVec 3
  rptr : BitVec 3
  maybeFull : Bool
  deriving DecidableEq, Repr

structure Input where
  enqValid : Bool
  enqBits : BitVec 8
  deqReady : Bool

variable (s : State) (x : Input)

def ptrMatch : Bool := s.wptr == s.rptr

def enqReady : Bool := !ptrMatch s || !s.maybeFull

def deqValid : Bool := !ptrMatch s || s.maybeFull

def deqBits : BitVec 8 := s.ram[s.rptr.toNat]

def enq : Bool := enqReady s && x.enqValid

def deq : Bool := x.deqReady && deqValid s

def count : BitVec 4 := BitVec.ofBool (s.maybeFull && ptrMatch s) ++ (s.wptr - s.rptr)

/-- The contents of the memory after reset are arbitrary. -/
def reset (ram : Vector (BitVec 8) 8) : State where
  ram := ram
  wptr := 0
  rptr := 0
  maybeFull := false

def edge : State where
  ram := if enq s x then s.ram.set s.wptr.toNat x.enqBits else s.ram
  wptr := if enq s x then s.wptr + 1#3 else s.wptr
  rptr := if deq s x then s.rptr + 1#3 else s.rptr
  maybeFull := if enq s x != deq s x then enq s x else s.maybeFull

variable {s} {x y : Input}

/-- Two inputs that agree on what is taken out have the same effect if and only if neither puts a byte in. -/
theorem edge_eq_iff_enq (hy : y.enqValid = false) (hr : x.deqReady = y.deqReady) :
    edge s x = edge s y ↔ enq s x = false := by
  have hd : deq s x = deq s y := by rw [deq, deq, hr]
  have he : enq s y = false := by rw [enq, hy, Bool.and_false]
  cases h : enq s x with
  | false => simp [edge, h, he, hd]
  | true =>
    simp only [edge, h, he, State.mk.injEq, ↓reduceIte, Bool.false_eq_true, reduceCtorEq, iff_false, not_and]
    exact fun _ hw => absurd hw (by bv_omega)

/-- Two inputs that agree on what is put in have the same effect if and only if neither takes a byte out. -/
theorem edge_eq_iff_deq (hy : y.deqReady = false) (hv : x.enqValid = y.enqValid) (hb : x.enqBits = y.enqBits) :
    edge s x = edge s y ↔ deq s x = false := by
  have he : enq s x = enq s y := by rw [enq, enq, hv]
  have hd : deq s y = false := by rw [deq, hy, Bool.false_and]
  cases h : deq s x with
  | false => simp [edge, h, he, hd, hb]
  | true =>
    simp only [edge, h, hd, State.mk.injEq, ↓reduceIte, Bool.false_eq_true, reduceCtorEq, iff_false, not_and]
    exact fun _ _ hr => absurd hr (by bv_omega)

/-! ### The queue -/

/-- The byte of the ring at position `j`. -/
def slot (ram : Vector (BitVec 8) 8) (j : ℕ) : BitVec 8 := ram[j % 8]

variable (s) in
/-- Byte `k` of the queue. -/
def entry (k : ℕ) : BitVec 8 := slot s.ram (s.rptr.toNat + k)

variable (s) in
/-- The bytes in the queue, the next one to be taken out first. -/
def entries : List (BitVec 8) := (List.range (count s).toNat).map (entry s)

variable (s x) in
/-- What the queue takes in a cycle. -/
def pushed : Option (BitVec 8) := if enq s x then some x.enqBits else none

variable (s x) in
/-- What the queue gives away in a cycle. -/
def popped : Option (BitVec 8) := if deq s x then some (deqBits s) else none

theorem count_eq : (count s).toNat =
    if s.wptr = s.rptr then (if s.maybeFull then 8 else 0) else (s.wptr.toNat + 8 - s.rptr.toNat) % 8 := by
  have hw := s.wptr.isLt
  have hr := s.rptr.isLt
  by_cases h : s.wptr = s.rptr
  · cases hm : s.maybeFull <;> simp [count, ptrMatch, h, hm]
  · have hne : s.wptr.toNat ≠ s.rptr.toNat := fun he => h (BitVec.eq_of_toNat_eq he)
    simp only [count, ptrMatch, beq_eq_false_iff_ne.2 h, Bool.and_false, if_neg h, BitVec.toNat_append,
      BitVec.ofBool_false, BitVec.toNat_sub]
    simp
    omega

/-- The write pointer is behind the last byte. -/
theorem wptr_eq : s.wptr.toNat = (s.rptr.toNat + (count s).toNat) % 8 := by
  have hw := s.wptr.isLt
  have hr := s.rptr.isLt
  rw [count_eq]
  split
  next h => rw [h]; split <;> omega
  next h => omega

theorem deqValid_iff : deqValid s = true ↔ 0 < (count s).toNat := by
  have hw := s.wptr.isLt
  have hr := s.rptr.isLt
  rw [count_eq, deqValid, ptrMatch]
  by_cases h : s.wptr = s.rptr
  · cases hm : s.maybeFull <;> simp [h]
  · have hne : s.wptr.toNat ≠ s.rptr.toNat := fun he => h (BitVec.eq_of_toNat_eq he)
    simp [h]
    omega

theorem enqReady_iff : enqReady s = true ↔ (count s).toNat < 8 := by
  rw [count_eq, enqReady, ptrMatch]
  by_cases h : s.wptr = s.rptr
  · cases hm : s.maybeFull <;> simp [h]
  · simp [h]
    omega

theorem deqBits_eq : deqBits s = entry s 0 := by
  have hr := s.rptr.isLt
  simp [deqBits, entry, slot, Nat.mod_eq_of_lt hr]

private theorem ptr_succ (p : BitVec 3) : (p + 1#3).toNat = (p.toNat + 1) % 8 := by
  simp [BitVec.toNat_add]

theorem rptr_edge : (edge s x).rptr.toNat = (s.rptr.toNat + (deq s x).toNat) % 8 := by
  have hr := s.rptr.isLt
  cases hd : deq s x
  · simp [edge, hd, Nat.mod_eq_of_lt hr]
  · simp [edge, hd, BitVec.toNat_add]

theorem count_le : (count s).toNat ≤ 8 := by
  rw [count_eq]
  split
  · split <;> omega
  · omega

theorem count_lt_of_enq (h : enq s x = true) : (count s).toNat < 8 := enqReady_iff.1 (Bool.and_eq_true_iff.1 h).1

theorem count_pos_of_deq (h : deq s x = true) : 0 < (count s).toNat := deqValid_iff.1 (Bool.and_eq_true_iff.1 h).2

theorem count_edge : (count (edge s x)).toNat + (deq s x).toNat = (count s).toNat + (enq s x).toNat := by
  have hw := s.wptr.isLt
  have hr := s.rptr.isLt
  have he := count_lt_of_enq (s := s) (x := x)
  have hd := count_pos_of_deq (s := s) (x := x)
  have hpw := ptr_succ s.wptr
  have hpr := ptr_succ s.rptr
  have hptr : ∀ p q : BitVec 3, p = q ↔ p.toNat = q.toNat := fun p q => BitVec.toNat_eq
  rw [count_eq] at he hd
  rw [count_eq, count_eq]
  simp only [hptr] at he hd ⊢
  cases h1 : enq s x <;> cases h2 : deq s x <;>
    simp only [edge, h1, h2, Bool.toNat_false, Bool.toNat_true, ↓reduceIte, Bool.false_eq_true, bne_self_eq_false,
      Bool.bne_false, Bool.bne_true, Bool.not_false, hpw, hpr] at he hd ⊢ <;>
    grind

private theorem slot_congr {ram : Vector (BitVec 8) 8} {j k : ℕ} (h : j % 8 = k % 8) : slot ram j = slot ram k := by
  simp only [slot, h]

private theorem slot_set {ram : Vector (BitVec 8) 8} {w j : ℕ} {b : BitVec 8} (hw : w < 8) :
    slot (ram.set w b) j = if w = j % 8 then b else slot ram j := by
  rw [slot, Vector.getElem_set, slot]

private theorem slot_edge {j : ℕ} :
    slot (edge s x).ram j = if enq s x = true ∧ s.wptr.toNat = j % 8 then x.enqBits else slot s.ram j := by
  by_cases h : enq s x = true
  · simp only [edge, h, ↓reduceIte, slot_set s.wptr.isLt, true_and]
  · simp only [edge, h, ↓reduceIte, false_and, Bool.false_eq_true]

/-- A byte that is taken comes behind the others. -/
theorem entry_edge {k : ℕ} (hk : k < (count (edge s x)).toNat) : entry (edge s x) k =
    if k + (deq s x).toNat < (count s).toNat then entry s (k + (deq s x).toNat) else x.enqBits := by
  have hc := count_edge (s := s) (x := x)
  have hw := wptr_eq (s := s)
  have hle := count_le (s := s)
  have hidx : ((edge s x).rptr.toNat + k) % 8 = (s.rptr.toNat + (k + (deq s x).toNat)) % 8 := by
    rw [rptr_edge]
    omega
  rw [entry, slot_congr hidx, slot_edge, entry, hw]
  cases h : enq s x with
  | false =>
    rw [h, Bool.toNat_false] at hc
    rw [if_neg (by simp), if_pos (by omega)]
  | true =>
    have hlt := count_lt_of_enq h
    rw [h, Bool.toNat_true] at hc
    by_cases hk' : k + (deq s x).toNat < (count s).toNat
    · rw [if_neg (fun heq => by omega), if_pos hk']
    · rw [if_pos ⟨rfl, by omega⟩, if_neg hk']

theorem entries_reset (ram : Vector (BitVec 8) 8) : entries (reset ram) = [] := by
  have hcount : (count (reset ram)).toNat = 0 := by
    rw [count_eq]
    rfl
  rw [entries, hcount]
  rfl

theorem length_entries : (entries s).length = (count s).toNat := by simp [entries]

theorem getElem?_entries {k : ℕ} : (entries s)[k]? = if k < (count s).toNat then some (entry s k) else none := by
  rw [entries, List.getElem?_map]
  split
  next hk => rw [List.getElem?_range hk, Option.map_some]
  next hk => rw [List.getElem?_eq_none (by rw [List.length_range]; omega), Option.map_none]

private theorem getElem?_entries_pushed {k : ℕ} : (entries s ++ (pushed s x).toList)[k]? =
    if k < (count s).toNat + (enq s x).toNat then some (if k < (count s).toNat then entry s k else x.enqBits)
    else none := by
  rw [List.getElem?_append, length_entries]
  split
  next hk => rw [getElem?_entries, if_pos hk, if_pos (by omega)]
  next hk =>
    cases h : enq s x with
    | false => simp [pushed, h, hk]
    | true =>
      by_cases hk' : k = (count s).toNat
      · simp [pushed, h, hk']
      · simp only [pushed, h, ↓reduceIte, Option.toList_some, Bool.toNat_true]
        rw [if_neg (by omega), List.getElem?_eq_none (by simp; omega)]

/-- The bytes stay in order. -/
private theorem getElem?_entries_edge {k : ℕ} :
    (entries (edge s x))[k]? = (entries s ++ (pushed s x).toList)[k + (deq s x).toNat]? := by
  have hc := count_edge (s := s) (x := x)
  rw [getElem?_entries, getElem?_entries_pushed]
  by_cases hk : k < (count (edge s x)).toNat
  · rw [if_pos hk, if_pos (show k + (deq s x).toNat < (count s).toNat + (enq s x).toNat by omega), entry_edge hk]
  · rw [if_neg hk, if_neg (by omega)]

/-- A cycle appends the byte that is taken and removes the one that is given away from the front. -/
theorem conservation : entries s ++ (pushed s x).toList = (popped s x).toList ++ entries (edge s x) := by
  apply List.ext_getElem?
  intro k
  cases h : deq s x with
  | false => simp [popped, h, getElem?_entries_edge]
  | true =>
    have hpos := count_pos_of_deq h
    rw [popped, h]
    cases k with
    | zero => simp [getElem?_entries_pushed, deqBits_eq, hpos, Nat.add_pos_left hpos]
    | succ k => simp [getElem?_entries_edge, h]

end Queue1
