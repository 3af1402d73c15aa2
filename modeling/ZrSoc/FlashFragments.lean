import ZrSoc.TlWidthWidget
import ZrSoc.Sync.Log
import Mathlib.Tactic.IntervalCases

/-!
# The flash port of the QSPI (`rtl/perips/sirv_flash_qspi_top.v`)

The width widget with the fragmenter behind it, as wired in front of the memory map of the flash.
-/

namespace FlashFragments

open Sync TileLink

structure State where
  widget : TlWidthWidget.State
  fragmenter : TlFragmenter.State
  deriving DecidableEq, Repr

/-- The inputs on the side of the requester, `in`, and of the byte-wide slave, `out`. -/
structure Input where
  inAValid : Bool
  inABits : A 2 4 32
  inDReady : Bool
  outAReady : Bool
  outDValid : Bool
  outDBits : D 7 1 8

variable (s : State) (x : Input)

/-- The ports of `qspi_TLFragmenter_1` on the A channels. -/
def fragmenterA : TlFragmenter.AInput where
  inAValid := TlWidthWidget.outAValid x.inAValid
  inABits := TlWidthWidget.outABits x.inABits
  outAReady := x.outAReady

/-- The ports of `qspi_TLWidthWidget` on the D channels. -/
def widgetD : TlWidthWidget.DInput where
  inDReady := x.inDReady
  outDValid := TlFragmenter.inDValid x.outDValid
  outDBits := TlFragmenter.inDBits s.fragmenter x.outDBits

/-- The ports of `qspi_TLFragmenter_1` on the D channels. -/
def fragmenterD : TlFragmenter.DInput where
  inDReady := TlWidthWidget.outDReady s.widget (widgetD s x)
  outDValid := x.outDValid
  outDBits := x.outDBits

def inAReady : Bool := TlWidthWidget.inAReady (TlFragmenter.inAReady s.fragmenter (fragmenterA x))

def outAValid : Bool := TlFragmenter.outAValid s.fragmenter (fragmenterA x)

def outABits : A 7 1 8 := TlFragmenter.outABits s.fragmenter (fragmenterA x)

def outDReady : Bool := TlFragmenter.outDReady (fragmenterD s x).inDReady

def inDValid : Bool := TlWidthWidget.inDValid s.widget (widgetD s x)

def inDBits : D 2 2 32 := TlWidthWidget.inDBits s.widget (widgetD s x).outDBits

def reset : State where
  widget := TlWidthWidget.reset
  fragmenter := TlFragmenter.reset

def edge : State where
  widget := TlWidthWidget.edge s.widget (widgetD s x)
  fragmenter := TlFragmenter.edge s.fragmenter (fragmenterA x) (fragmenterD s x)

def machine : Machine State Input where
  reset := reset
  edge := edge

/-! ### Handshakes -/

/-- The request the requester hands over in a cycle. -/
def request : Option (A 2 4 32) := if x.inAValid && inAReady s x then some x.inABits else none

/-- The byte request the slave accepts in a cycle. -/
def byteRequest : Option (A 7 1 8) := if outAValid s x && x.outAReady then some (outABits s x) else none

/-- The response the slave hands over in a cycle. -/
def byteResponse : Option (D 7 1 8) := if x.outDValid && outDReady s x then some x.outDBits else none

/-- The response the requester takes in a cycle. -/
def response : Option (D 2 2 32) := if inDValid s x && x.inDReady then some (inDBits s x) else none

variable (i : ℕ → Input)

abbrev run : ℕ → State := machine.run i

def requestLog : ℕ → List (A 2 4 32) := log fun m => request (run i m) (i m)

def byteRequestLog : ℕ → List (A 7 1 8) := log fun m => byteRequest (run i m) (i m)

def byteResponseLog : ℕ → List (D 7 1 8) := log fun m => byteResponse (run i m) (i m)

def responseLog : ℕ → List (D 2 2 32) := log fun m => response (run i m) (i m)

/-! ### Word reads and their slave -/

/-- A request for a word at an aligned address. -/
structure WordRead (r : A 2 4 32) : Prop where
  opcode : r.opcode = opGet
  size : r.size = 2
  mask : r.mask = BitVec.allOnes 4
  aligned : r.address &&& 3 = 0

/-- The requester asks for aligned words only. -/
def WordReads : Prop := ∀ n, (i n).inAValid = true → WordRead (i n).inABits

/-- The slave answers its requests in order: a response it offers is the one to the oldest request it has not answered,
accepted at the latest in the same cycle; `byte k a` is the byte it answers to request `k`, if that has the
address `a`. -/
def AnswersInOrder (byte : ℕ → BitVec 30 → BitVec 8) : Prop :=
  ∀ n, (i n).outDValid = true → ∃ q, (byteRequestLog i (n + 1))[(byteResponseLog i n).length]? = some q ∧
    (i n).outDBits.size = q.size ∧ (i n).outDBits.source = q.source ∧
    (i n).outDBits.data = byte (byteResponseLog i n).length q.address

/-- The slave accepts each request at some time, answers it at some time and holds the answer until it is taken, and
the requester takes each response at some time. -/
structure Fair : Prop where
  accepts : ∀ n, (∀ m, n ≤ m → outAValid (run i m) (i m) = true) → ∃ m, n ≤ m ∧ (i m).outAReady = true
  answers : ∀ n, (byteResponseLog i n).length < (byteRequestLog i n).length → ∃ m, n ≤ m ∧ (i m).outDValid = true
  holds : ∀ n, (i n).outDValid = true → byteResponse (run i n) (i n) = none → (i (n + 1)).outDValid = true
  takes : ∀ n, (∀ m, n ≤ m → inDValid (run i m) (i m) = true) → ∃ m, n ≤ m ∧ (i m).inDReady = true

/-- The byte request of a word for its byte `j`. -/
def byteOf (r : A 2 4 32) (j : ℕ) : A 7 1 8 where
  opcode := r.opcode
  param := r.param
  size := 0
  source := r.source ++ (3 - BitVec.ofNat 5 j)
  address := r.address + BitVec.ofNat 30 j
  mask := 1
  data := 0

def bytesOf (r : A 2 4 32) : List (A 7 1 8) := [byteOf r 0, byteOf r 1, byteOf r 2, byteOf r 3]

/-- The word made of the answers to the byte requests of word read `k`. -/
def wordOf (byte : ℕ → BitVec 30 → BitVec 8) (k : ℕ) (a : BitVec 30) : BitVec 32 :=
  byte (4 * k + 3) (a + 3) ++ byte (4 * k + 2) (a + 2) ++ byte (4 * k + 1) (a + 1) ++ byte (4 * k) a

/-- The flash port reads words by bytes: the slave gets the byte requests of each word in order, the last word being
possibly under way; the requester gets a response for each four bytes answered, in the order of its requests, with the
bytes in little-endian order and the source of the request; and if everybody is fair, then each request is
answered. -/
structure ReadsWords (byte : ℕ → BitVec 30 → BitVec 8) : Prop where
  sent : ∀ n, ∃ todo, (requestLog i n).flatMap bytesOf = byteRequestLog i n ++ todo ∧ todo.length ≤ 3
  gathered : ∀ n, ∃ got, (byteResponseLog i n).length = 4 * (responseLog i n).length + got ∧ got ≤ 3
  responses : ∀ n k r, (responseLog i n)[k]? = some r → ∃ q, (requestLog i n)[k]? = some q ∧
    r.source = q.source ∧ r.data = wordOf byte k q.address
  complete : Fair i → ∀ n, ∃ m, (requestLog i n).length ≤ (responseLog i m).length

variable {s x i} {r : A 2 4 32} {byte : ℕ → BitVec 30 → BitVec 8}

/-! ### The way down -/

/-- The byte requests of `reqs` that have been sent: all of them, or all but the last `g` of the saved request. -/
def Sent (s : State) (reqs : List (A 2 4 32)) (bytes : List (A 7 1 8)) : Prop :=
  (s.fragmenter.repeater.full = false ∧ s.fragmenter.gennum = 0 ∧ bytes = reqs.flatMap bytesOf) ∨
  ∃ reqs' r g, s.fragmenter.repeater.full = true ∧ s.fragmenter.repeater.saved = TlWidthWidget.outABits r ∧
    WordRead r ∧ (g = 1 ∨ g = 2 ∨ g = 3) ∧ s.fragmenter.gennum = BitVec.ofNat 5 g ∧ reqs = reqs' ++ [r] ∧
    bytes = reqs'.flatMap bytesOf ++ (bytesOf r).take (4 - g)

private theorem or_eq_add {a k : BitVec 30} (h : a &&& 3 = 0) (hk : 3 &&& k = k) : a ||| k = a + k := by
  refine (BitVec.add_eq_or_of_and_eq_zero a k ?_).symm
  rw [← hk, ← BitVec.and_assoc, h]
  exact BitVec.zero_and

private theorem widget_mask (h : WordRead r) : (TlWidthWidget.outABits r).mask = 1 := by
  simp only [TlWidthWidget.outABits, TlWidthWidget.t1541, TlWidthWidget.t1535, h.size, h.mask]
  decide

/-- The fragmenter sends byte `j` of request `r` when it counts `3 - j`. -/
private theorem outABits_eq {j : ℕ} (hr : WordRead r) (hj : j < 4)
    (hdeq : TlFragmenter.deqBits s.fragmenter (fragmenterA x) = TlWidthWidget.outABits r)
    (hfull : s.fragmenter.repeater.full = true ∨ x.inABits = r)
    (hgen : TlFragmenter.newGennum s.fragmenter (fragmenterA x) = 3 - BitVec.ofNat 5 j) :
    outABits s x = byteOf r j := by
  have hsize : (TlFragmenter.deqBits s.fragmenter (fragmenterA x)).size = 2 := by rw [hdeq]; exact hr.size
  have hmask : (if s.fragmenter.repeater.full = true then 1 else (fragmenterA x).inABits.mask) = 1 := by
    rcases hfull with h | h
    · exact if_pos h
    · have hw : (fragmenterA x).inABits.mask = 1 := by rw [← h] at hr; exact widget_mask hr
      rw [hw, ite_self]
  have haddr : r.address ||| (~~~(3 - BitVec.ofNat 5 j) &&& 3).setWidth 30 = r.address + BitVec.ofNat 30 j := by
    have hoff : (~~~(3 - BitVec.ofNat 5 j) &&& 3).setWidth 30 = BitVec.ofNat 30 j ∧
        3 &&& BitVec.ofNat 30 j = BitVec.ofNat 30 j := by
      interval_cases j <;> decide
    rw [hoff.1, or_eq_add hr.aligned hoff.2]
  simp only [outABits, TlFragmenter.outABits, TlFragmenter.t1528, TlFragmenter.aFrag_eq hsize,
    TlFragmenter.aOrigOH1_eq hsize, hgen, hdeq, hmask, byteOf]
  exact congrArg (fun a => { byteOf r j with address := a }) haddr

/-- The first byte request of a word is made of the request itself. -/
theorem outABits_of_first (hf : s.fragmenter.repeater.full = false) (hg : s.fragmenter.gennum = 0)
    (hr : WordRead x.inABits) :
    TlFragmenter.newGennum s.fragmenter (fragmenterA x) = 3 ∧ outABits s x = byteOf x.inABits 0 := by
  have hdeq : TlFragmenter.deqBits s.fragmenter (fragmenterA x) = TlWidthWidget.outABits x.inABits :=
    if_neg (by simp [hf])
  have hgen : TlFragmenter.newGennum s.fragmenter (fragmenterA x) = 3 := by
    rw [TlFragmenter.newGennum_eq (by rw [hdeq]; exact hr.size), if_pos hg]
  exact ⟨hgen, outABits_eq hr (by decide) hdeq (Or.inr rfl) hgen⟩

/-- The others are made of the saved request. -/
theorem outABits_of_saved {g : ℕ} (hf : s.fragmenter.repeater.full = true)
    (hs : s.fragmenter.repeater.saved = TlWidthWidget.outABits r) (hr : WordRead r) (hg : g = 1 ∨ g = 2 ∨ g = 3)
    (hgen : s.fragmenter.gennum = BitVec.ofNat 5 g) :
    TlFragmenter.newGennum s.fragmenter (fragmenterA x) = BitVec.ofNat 5 (g - 1) ∧
      outABits s x = byteOf r (4 - g) := by
  have hdeq : TlFragmenter.deqBits s.fragmenter (fragmenterA x) = TlWidthWidget.outABits r := (if_pos hf).trans hs
  have hnew : TlFragmenter.newGennum s.fragmenter (fragmenterA x) = BitVec.ofNat 5 (g - 1) := by
    rw [TlFragmenter.newGennum_eq (by rw [hdeq]; exact hr.size), hgen]
    rcases hg with rfl | rfl | rfl <;> decide
  refine ⟨hnew, outABits_eq hr (by omega) hdeq (Or.inl hf) (hnew.trans ?_)⟩
  rcases hg with rfl | rfl | rfl <;> decide

/-- With nothing saved a word request comes in as its first byte goes out. -/
private theorem Sent.next_first {reqs : List (A 2 4 32)} (hf : s.fragmenter.repeater.full = false)
    (hg : s.fragmenter.gennum = 0) (hx : x.inAValid = true → WordRead x.inABits) :
    Sent (edge s x) (reqs ++ (request s x).toList) (reqs.flatMap bytesOf ++ (byteRequest s x).toList) := by
  have hreq : request s x = if x.inAValid && x.outAReady then some x.inABits else none := by
    simp [request, inAReady, TlWidthWidget.inAReady, TlFragmenter.inAReady, Repeater6.ioEnqReady,
      TlFragmenter.repeaterInput, fragmenterA, hf]
  have hbyte : byteRequest s x = if x.inAValid && x.outAReady then some (outABits s x) else none := by
    simp [byteRequest, outAValid, TlFragmenter.outAValid, Repeater6.ioDeqValid, TlFragmenter.repeaterInput,
      fragmenterA, TlWidthWidget.outAValid, hf]
  rw [hreq, hbyte]
  cases hv : x.inAValid && x.outAReady with
  | false =>
    have hstay := TlFragmenter.edge_of_not_sent (s := s.fragmenter) (x := fragmenterA x) (y := fragmenterD s x) (by
      simpa [TlFragmenter.outAValid, Repeater6.ioDeqValid, TlFragmenter.repeaterInput, fragmenterA,
        TlWidthWidget.outAValid, hf, Bool.and_comm] using hv)
    exact Or.inl ⟨(congrArg Repeater6.State.full hstay.1).trans hf, hstay.2.trans hg, by simp⟩
  | true =>
    obtain ⟨hv, hready⟩ := Bool.and_eq_true_iff.1 hv
    obtain ⟨hnew, hout⟩ := outABits_of_first hf hg (hx hv)
    obtain ⟨hfull, hsaved, hgen⟩ := TlFragmenter.edge_of_repeat (s := s.fragmenter) (x := fragmenterA x)
      (y := fragmenterD s x) hready (Or.inr hv) (by rw [hnew]; decide)
    refine Or.inr ⟨reqs, x.inABits, 3, hfull, hsaved.trans (if_neg (by simp [hf])), hx hv, by decide,
      hgen.trans hnew, rfl, ?_⟩
    rw [hout]
    rfl

/-- The last `g` bytes of a saved request follow, and nothing comes in until they have gone out. -/
private theorem Sent.next_saved {reqs : List (A 2 4 32)} {g : ℕ} (hf : s.fragmenter.repeater.full = true)
    (hs : s.fragmenter.repeater.saved = TlWidthWidget.outABits r) (hr : WordRead r) (hg : g = 1 ∨ g = 2 ∨ g = 3)
    (hgen : s.fragmenter.gennum = BitVec.ofNat 5 g) :
    Sent (edge s x) (reqs ++ [r] ++ (request s x).toList)
      (reqs.flatMap bytesOf ++ (bytesOf r).take (4 - g) ++ (byteRequest s x).toList) := by
  have hreq : request s x = none := by
    simp [request, inAReady, TlWidthWidget.inAReady, TlFragmenter.inAReady, Repeater6.ioEnqReady,
      TlFragmenter.repeaterInput, fragmenterA, hf]
  have hbyte : byteRequest s x = if x.outAReady then some (outABits s x) else none := by
    simp [byteRequest, outAValid, TlFragmenter.outAValid, Repeater6.ioDeqValid, hf]
  rw [hreq, hbyte]
  cases hv : x.outAReady with
  | false =>
    obtain ⟨hrep, hgen'⟩ := TlFragmenter.edge_of_not_sent (s := s.fragmenter) (x := fragmenterA x)
      (y := fragmenterD s x) (by simp [fragmenterA, hv])
    exact Or.inr ⟨reqs, r, g, (congrArg Repeater6.State.full hrep).trans hf,
      (congrArg Repeater6.State.saved hrep).trans hs, hr, hg, hgen'.trans hgen, by simp, by simp⟩
  | true =>
    obtain ⟨hnew, hout⟩ := outABits_of_saved (x := x) hf hs hr hg hgen
    have htake : (bytesOf r).take (4 - g) ++ [byteOf r (4 - g)] = (bytesOf r).take (4 - (g - 1)) := by
      rcases hg with rfl | rfl | rfl <;> rfl
    simp only [if_true, Option.toList_none, Option.toList_some, List.append_nil, List.append_assoc, hout, htake]
    rcases hg with rfl | hg
    · obtain ⟨hfull, hgen'⟩ := TlFragmenter.edge_of_last (s := s.fragmenter) (x := fragmenterA x)
        (y := fragmenterD s x) hv hf hnew
      exact Or.inl ⟨hfull, hgen', by simp [bytesOf]⟩
    · obtain ⟨hfull, hsaved, hgen'⟩ := TlFragmenter.edge_of_repeat (s := s.fragmenter) (x := fragmenterA x)
        (y := fragmenterD s x) hv (Or.inl hf) (by rw [hnew]; rcases hg with rfl | rfl <;> decide)
      exact Or.inr ⟨reqs, r, g - 1, hfull, hsaved.trans ((if_pos hf).trans hs), hr, by omega,
        hgen'.trans hnew, rfl, rfl⟩

/-- A clock edge sends the next byte request, if the slave accepts it. -/
theorem Sent.next {reqs : List (A 2 4 32)} {bytes : List (A 7 1 8)} (h : Sent s reqs bytes)
    (hx : x.inAValid = true → WordRead x.inABits) :
    Sent (edge s x) (reqs ++ (request s x).toList) (bytes ++ (byteRequest s x).toList) := by
  rcases h with ⟨hf, hg, rfl⟩ | ⟨reqs', r, g, hf, hs, hr, hg, hgen, rfl, rfl⟩
  · exact next_first hf hg hx
  · exact next_saved hf hs hr hg hgen

/-! ### The way up -/

/-- The last three bytes of a list, the last one on top. -/
def lastBytes (l : List (BitVec 8)) : BitVec 24 := l.foldl (fun v b => (b ++ v).extractLsb' 8 24) 0

private theorem lastBytes_append (l : List (BitVec 8)) (b : BitVec 8) :
    lastBytes (l ++ [b]) = (b ++ lastBytes l).extractLsb' 8 24 := by
  rw [lastBytes, List.foldl_append]
  rfl

private theorem append_lastBytes (v : BitVec 24) (a b c : BitVec 8) :
    (c ++ (b ++ (a ++ v).extractLsb' 8 24).extractLsb' 8 24).extractLsb' 8 24 = c ++ b ++ a := by
  refine BitVec.eq_of_getLsbD_eq fun j hj => ?_
  simp only [BitVec.getLsbD_append, BitVec.getLsbD_extractLsb']
  grind

private theorem lastBytes_eq {l : List (BitVec 8)} {m : ℕ} {a b c : BitVec 8} (ha : l[m]? = some a)
    (hb : l[m + 1]? = some b) (hc : l[m + 2]? = some c) (hl : l.length = m + 3) : lastBytes l = c ++ b ++ a := by
  have hsplit : l = l.take m ++ [a] ++ [b] ++ [c] := by
    conv_lhs => rw [← List.take_of_length_le hl.le]
    rw [List.take_add_one, List.take_add_one, List.take_add_one, ha, hb, hc]
    rfl
  rw [hsplit, lastBytes_append, lastBytes_append, lastBytes_append, append_lastBytes]

/-- The widget and the fragmenter have gathered the answers `bytes`, of which the last `bytes.length % 4` belong to a
word that is not complete. -/
structure Gathered (s : State) (bytes : List (D 7 1 8)) : Prop where
  acknum : s.fragmenter.acknum = BitVec.ofNat 5 ((4 - bytes.length % 4) % 4)
  dOrig : bytes.length % 4 ≠ 0 → s.fragmenter.dOrig = 2
  t1527 : s.widget.t1527 = BitVec.ofNat 2 bytes.length
  t1512 : s.widget.t1512 = lastBytes (bytes.map fun b => b.data)

/-- The answer to a byte request: the first one of a word has the tag 3. -/
structure Tagged (d : D 7 1 8) (k : ℕ) : Prop where
  size : d.size = 0
  tag : k % 4 = 0 → d.source.setWidth 5 = 3#5

variable {bytes : List (D 7 1 8)}

private theorem dFirst_iff (h : Gathered s bytes) : TlFragmenter.dFirst s.fragmenter = decide (bytes.length % 4 = 0) := by
  have hlt := Nat.mod_lt bytes.length (show 0 < 4 by decide)
  rw [TlFragmenter.dFirst, h.acknum]
  generalize bytes.length % 4 = k at hlt
  interval_cases k <;> decide

/-- The fragmenter gives each answer the size of the word. -/
private theorem widgetD_size (h : Gathered s bytes) (hd : Tagged x.outDBits bytes.length) :
    (widgetD s x).outDBits.size = 2 := by
  have hsize : (widgetD s x).outDBits.size =
    if TlFragmenter.dFirst s.fragmenter then TlFragmenter.dFirstSize x.outDBits else s.fragmenter.dOrig := rfl
  rw [hsize, dFirst_iff h]
  by_cases hk : bytes.length % 4 = 0
  · simp [hk, (TlFragmenter.dFirst_eq hd.size (hd.tag hk)).2]
  · simp [hk, h.dOrig hk]

/-- The widget passes every fourth answer on. -/
private theorem t1536_eq (h : Gathered s bytes) (hd : Tagged x.outDBits bytes.length) :
    TlWidthWidget.t1536 s.widget (widgetD s x).outDBits = decide (bytes.length % 4 = 3) := by
  have hlt := Nat.mod_lt bytes.length (show 0 < 4 by decide)
  have hmod : BitVec.ofNat 2 bytes.length = BitVec.ofNat 2 (bytes.length % 4) := by
    apply BitVec.eq_of_toNat_eq
    simp
  rw [TlWidthWidget.t1536, TlWidthWidget.t1534, widgetD_size h hd, h.t1527, hmod]
  generalize bytes.length % 4 = k at hlt
  interval_cases k <;> decide

theorem byteResponse_eq (h : Gathered s bytes) (hd : x.outDValid = true → Tagged x.outDBits bytes.length) :
    byteResponse s x =
      if x.outDValid && (x.inDReady || decide (bytes.length % 4 ≠ 3)) then some x.outDBits else none := by
  cases hv : x.outDValid with
  | false => simp [byteResponse, hv]
  | true =>
    simp [byteResponse, outDReady, TlFragmenter.outDReady, fragmenterD, TlWidthWidget.outDReady, t1536_eq h (hd hv), hv]
    rfl

theorem response_eq (h : Gathered s bytes) (hd : x.outDValid = true → Tagged x.outDBits bytes.length) :
    response s x =
      if x.outDValid && decide (bytes.length % 4 = 3) && x.inDReady then some (inDBits s x) else none := by
  cases hv : x.outDValid with
  | false => simp [response, inDValid, TlWidthWidget.inDValid, widgetD, TlFragmenter.inDValid, hv]
  | true =>
    simp [response, inDValid, TlWidthWidget.inDValid, t1536_eq h (hd hv)]
    simp [widgetD, TlFragmenter.inDValid, hv]

/-- The response of a word. -/
theorem inDBits_eq (h : Gathered s bytes) (hd : Tagged x.outDBits bytes.length) :
    (inDBits s x).source = x.outDBits.source.extractLsb' 5 2 ∧
      (inDBits s x).data = x.outDBits.data ++ lastBytes (bytes.map fun b => b.data) := by
  refine ⟨rfl, ?_⟩
  have hsize := widgetD_size h hd
  simp only [inDBits, TlWidthWidget.inDBits, hsize, ← h.t1512]
  rfl

private theorem handover_iff : (byteResponse s x).isSome = (x.outDValid && outDReady s x) := by
  rw [byteResponse]
  cases x.outDValid && outDReady s x <;> rfl

/-- The fragment counter after an answer counts down from the first of four. -/
private theorem Gathered.acknum_next (h : Gathered s bytes) (htag : Tagged x.outDBits bytes.length)
    (hfrag : TlFragmenter.t1447 (fragmenterD s x) = true) :
    (edge s x).fragmenter.acknum = BitVec.ofNat 5 ((4 - (bytes.length + 1) % 4) % 4) := by
  have hfirst := dFirst_iff h
  have hlt := Nat.mod_lt bytes.length (show 0 < 4 by decide)
  have hack : (edge s x).fragmenter.acknum =
      if bytes.length % 4 = 0 then 3 else BitVec.ofNat 5 ((4 - bytes.length % 4) % 4) - 1 := by
    by_cases hk : bytes.length % 4 = 0
    · have : TlFragmenter.dFirstAcknum (fragmenterD s x).outDBits = 3 :=
        (TlFragmenter.dFirst_eq htag.size (htag.tag hk)).1
      simp [edge, TlFragmenter.edge, hfrag, hfirst, hk, this]
    · simp [edge, TlFragmenter.edge, hfrag, hfirst, hk, h.acknum]
  rw [hack, Nat.add_mod]
  generalize bytes.length % 4 = k at hlt
  interval_cases k <;> decide

/-- The byte counter of the width widget after an answer. -/
private theorem Gathered.t1527_next (h : Gathered s bytes) (htag : Tagged x.outDBits bytes.length)
    (hwidget : TlWidthWidget.t1540 s.widget (widgetD s x) = true) :
    (edge s x).widget.t1527 = BitVec.ofNat 2 (bytes.length + 1) := by
  have hlast := t1536_eq (x := x) h htag
  have hcount : (edge s x).widget.t1527 = if bytes.length % 4 = 3 then 0 else BitVec.ofNat 2 bytes.length + 1 := by
    simp [edge, TlWidthWidget.edge, hwidget, hlast, h.t1527]
  rw [hcount, BitVec.ofNat_add]
  split
  next hk =>
    have hmod : BitVec.ofNat 2 bytes.length = BitVec.ofNat 2 (bytes.length % 4) := by
      apply BitVec.eq_of_toNat_eq
      simp
    rw [hmod, hk]
    decide
  next => rfl

/-- A clock edge gathers the answer the slave hands over. -/
theorem Gathered.next (h : Gathered s bytes) (hd : x.outDValid = true → Tagged x.outDBits bytes.length) :
    Gathered (edge s x) (bytes ++ (byteResponse s x).toList) := by
  have hfrag : TlFragmenter.t1447 (fragmenterD s x) = (byteResponse s x).isSome := by
    rw [handover_iff, Bool.and_comm]; rfl
  have hwidget : TlWidthWidget.t1540 s.widget (widgetD s x) = (byteResponse s x).isSome := by
    rw [handover_iff, Bool.and_comm]; rfl
  cases hb : byteResponse s x with
  | none =>
    rw [hb, Option.isSome_none] at hfrag hwidget
    rw [Option.toList_none, List.append_nil]
    refine ⟨?_, fun hk => ?_, ?_, ?_⟩
    · simpa [edge, TlFragmenter.edge, hfrag] using h.acknum
    · simpa [edge, TlFragmenter.edge, hfrag] using h.dOrig hk
    · simpa [edge, TlWidthWidget.edge, hwidget] using h.t1527
    · simpa [edge, TlWidthWidget.edge, hwidget] using h.t1512
  | some d =>
    rw [hb, Option.isSome_some] at hfrag hwidget
    obtain ⟨hv, rfl⟩ : x.outDValid = true ∧ d = x.outDBits := by
      rw [byteResponse] at hb
      split at hb
      next hc => exact ⟨(Bool.and_eq_true_iff.1 hc).1, (Option.some.inj hb).symm⟩
      next => exact absurd hb (by simp)
    have htag := hd hv
    rw [Option.toList_some]
    refine ⟨?_, fun hk => ?_, ?_, ?_⟩
    · rw [List.length_append, List.length_singleton]
      exact h.acknum_next htag hfrag
    · have hfirst := dFirst_iff h
      by_cases hk0 : bytes.length % 4 = 0
      · have : TlFragmenter.dFirstSize (fragmenterD s x).outDBits = 2 :=
          (TlFragmenter.dFirst_eq htag.size (htag.tag hk0)).2
        simp [edge, TlFragmenter.edge, hfrag, hfirst, hk0, this]
      · simp [edge, TlFragmenter.edge, hfrag, hfirst, hk0, h.dOrig hk0]
    · rw [List.length_append, List.length_singleton]
      exact h.t1527_next htag hwidget
    · have hshift : (edge s x).widget.t1512 = (x.outDBits.data ++ s.widget.t1512).extractLsb' 8 24 := by
        simp only [edge, TlWidthWidget.edge, hwidget, ↓reduceIte]
        rfl
      rw [hshift, List.map_append, List.map_singleton, lastBytes_append, h.t1512]

/-! ### Whole runs -/

private theorem length_flatMap_bytesOf (reqs : List (A 2 4 32)) : (reqs.flatMap bytesOf).length = 4 * reqs.length := by
  rw [List.length_flatMap]
  simp [bytesOf, mul_comm]

/-- Byte request `k` is the one for byte `k % 4` of word `k / 4`. -/
private theorem getElem?_flatMap_bytesOf {reqs : List (A 2 4 32)} {k : ℕ} {q : A 7 1 8}
    (h : (reqs.flatMap bytesOf)[k]? = some q) : ∃ r, reqs[k / 4]? = some r ∧ q = byteOf r (k % 4) := by
  induction reqs generalizing k with
  | nil => simp at h
  | cons r reqs ih =>
    rw [List.flatMap_cons] at h
    by_cases hk : k < 4
    · refine ⟨r, by rw [Nat.div_eq_of_lt hk]; rfl, ?_⟩
      rw [List.getElem?_append_left (by simpa [bytesOf] using hk)] at h
      interval_cases k <;> exact (Option.some.inj h).symm
    · rw [List.getElem?_append_right (by simpa [bytesOf] using hk)] at h
      obtain ⟨r', hr', hq⟩ := ih h
      have hlen : (bytesOf r).length = 4 := rfl
      refine ⟨r', ?_, ?_⟩
      · rw [show k / 4 = (k - 4) / 4 + 1 by omega, List.getElem?_cons_succ]
        exact hr'
      · rw [hq, hlen, show (k - 4) % 4 = k % 4 by omega]

variable {n : ℕ}

theorem sent (hw : WordReads i) (n : ℕ) : Sent (run i n) (requestLog i n) (byteRequestLog i n) := by
  induction n with
  | zero => exact Or.inl ⟨rfl, rfl, rfl⟩
  | succ n ih => exact ih.next (hw n)

theorem Sent.todo {reqs : List (A 2 4 32)} {bytes : List (A 7 1 8)} (h : Sent s reqs bytes) :
    ∃ todo, reqs.flatMap bytesOf = bytes ++ todo ∧ todo.length ≤ 3 := by
  rcases h with ⟨-, -, rfl⟩ | ⟨reqs', r, g, -, -, -, hg, -, rfl, rfl⟩
  · exact ⟨[], (List.append_nil _).symm, Nat.zero_le _⟩
  · refine ⟨(bytesOf r).drop (4 - g), ?_, ?_⟩
    · simp only [List.flatMap_append, List.flatMap_singleton, List.append_assoc, List.take_append_drop]
    · have hlen : (bytesOf r).length = 4 := rfl
      rw [List.length_drop, hlen]
      omega

/-- A byte request on offer belongs to a request that has been handed over or is offered. -/
theorem exists_byteOf (hw : WordReads i) (hv : outAValid (run i n) (i n) = true) :
    ∃ q j, j < 4 ∧ outABits (run i n) (i n) = byteOf q j ∧
      (q ∈ requestLog i n ∨ (i n).inAValid = true ∧ q = (i n).inABits) := by
  rcases sent hw n with ⟨hf, hg, -⟩ | ⟨reqs, r, g, hf, hs, hr, hg, hgen, hreqs, -⟩
  · have hin : (i n).inAValid = true := by
      simpa [outAValid, TlFragmenter.outAValid, Repeater6.ioDeqValid, TlFragmenter.repeaterInput, fragmenterA,
        TlWidthWidget.outAValid, hf] using hv
    exact ⟨_, 0, by decide, (outABits_of_first hf hg (hw n hin)).2, Or.inr ⟨hin, rfl⟩⟩
  · exact ⟨r, 4 - g, by omega, (outABits_of_saved hf hs hr hg hgen).2, Or.inl (by simp [hreqs])⟩

/-- A byte request that has been sent belongs to a request that has been handed over. -/
theorem exists_request (hw : WordReads i) {k : ℕ} {q : A 7 1 8} (h : (byteRequestLog i n)[k]? = some q) :
    ∃ r, (requestLog i n)[k / 4]? = some r ∧ q = byteOf r (k % 4) := by
  obtain ⟨todo, heq, -⟩ := (sent hw n).todo
  refine getElem?_flatMap_bytesOf ?_
  rw [heq, List.getElem?_append_left (List.getElem?_eq_some_iff.1 h).1, h]

theorem tagged (hw : WordReads i) (ha : AnswersInOrder i byte) (n : ℕ) (hv : (i n).outDValid = true) :
    Tagged (i n).outDBits (byteResponseLog i n).length := by
  obtain ⟨q, hq, hsize, hsource, -⟩ := ha n hv
  obtain ⟨r, -, rfl⟩ := exists_request hw hq
  refine ⟨hsize, fun hk => ?_⟩
  rw [hsource, hk]
  exact BitVec.setWidth_append_eq_right

theorem gathered (hw : WordReads i) (ha : AnswersInOrder i byte) (n : ℕ) :
    Gathered (run i n) (byteResponseLog i n) := by
  induction n with
  | zero => exact ⟨by simp [machine, reset, TlFragmenter.reset, byteResponseLog], fun h => absurd rfl h, rfl, rfl⟩
  | succ n ih => exact ih.next (tagged hw ha n)

/-- The answer with number `k` has the tag and the byte of byte request `k`. -/
theorem answered (ha : AnswersInOrder i byte) {k : ℕ} {d : D 7 1 8} (h : (byteResponseLog i n)[k]? = some d) :
    ∃ q, (byteRequestLog i n)[k]? = some q ∧ d.source = q.source ∧ d.data = byte k q.address := by
  obtain ⟨m, hm, hd, hk⟩ := exists_of_getElem?_log h
  rw [byteResponse] at hd
  split at hd
  next hc =>
    obtain ⟨q, hq, -, hsource, hdata⟩ := ha m (Bool.and_eq_true_iff.1 hc).1
    have hlen : (byteResponseLog i m).length = k := hk
    rw [← Option.some.inj hd, hsource, hdata, hlen]
    rw [hlen] at hq
    exact ⟨q, getElem?_log_mono hm hq, rfl, rfl⟩
  next => exact absurd hd (by simp)

/-- The requester gets a response with every fourth answer. -/
theorem length_responseLog (hw : WordReads i) (ha : AnswersInOrder i byte) (n : ℕ) :
    (responseLog i n).length = (byteResponseLog i n).length / 4 := by
  induction n with
  | zero => simp [responseLog, byteResponseLog]
  | succ n ih =>
    have hg := gathered hw ha n
    have ht := tagged hw ha n
    simp only [responseLog, byteResponseLog, log_succ, List.length_append] at ih ⊢
    rw [ih, response_eq hg ht, byteResponse_eq hg ht]
    have hlog : (byteResponseLog i n).length = (log (fun m => byteResponse (run i m) (i m)) n).length := rfl
    rw [hlog]
    cases (i n).outDValid <;> cases (i n).inDReady <;>
      by_cases hk : (log (fun m => byteResponse (run i m) (i m)) n).length % 4 = 3 <;> simp [hk] <;> omega

/-- A byte that has been gathered is the answer to the byte request of its word. -/
private theorem gathered_byte (hw : WordReads i) (ha : AnswersInOrder i byte) {k j : ℕ} {q : A 2 4 32}
    (hq : (requestLog i (n + 1))[k]? = some q) (hj : j < 4) (hk : 4 * k + j < (byteResponseLog i n).length) :
    ((byteResponseLog i n).map fun b => b.data)[4 * k + j]? = some (byte (4 * k + j) (q.address + BitVec.ofNat 30 j)) := by
  rw [List.getElem?_map]
  have hget : (byteResponseLog i n)[4 * k + j]? = some (byteResponseLog i n)[4 * k + j] := List.getElem?_eq_getElem hk
  obtain ⟨q', hq', -, hdata⟩ := answered ha hget
  obtain ⟨r, hr, rfl⟩ := exists_request hw hq'
  rw [show (4 * k + j) / 4 = k by omega] at hr
  have hrq : r = q := Option.some.inj ((getElem?_log_mono (Nat.le_succ n) hr).symm.trans hq)
  rw [hget, Option.map_some, hdata, hrq, show (4 * k + j) % 4 = j by omega]
  rfl

private theorem append_bytes (a b c d : BitVec 8) : a ++ (b ++ c ++ d) = a ++ b ++ c ++ d := by
  refine BitVec.eq_of_getLsbD_eq fun j hj => ?_
  simp only [BitVec.getLsbD_append]
  grind

/-- Response `k` answers request `k` with the four bytes of its word. -/
theorem responses_eq (hw : WordReads i) (ha : AnswersInOrder i byte) {k : ℕ} {r : D 2 2 32}
    (h : (responseLog i n)[k]? = some r) : ∃ q, (requestLog i n)[k]? = some q ∧
      r.source = q.source ∧ r.data = wordOf byte k q.address := by
  obtain ⟨m, hm, hr, hk⟩ := exists_of_getElem?_log h
  have hg := gathered hw ha m
  rw [response_eq hg (tagged hw ha m)] at hr
  split at hr
  next hc =>
    simp only [Bool.and_eq_true, decide_eq_true_eq] at hc
    obtain ⟨⟨hv, hmod⟩, -⟩ := hc
    have hcount : (byteResponseLog i m).length = 4 * k + 3 := by
      have hlen : (responseLog i m).length = k := hk
      have := length_responseLog hw ha m
      omega
    obtain ⟨b, hb, -, hsource, hdata⟩ := ha m hv
    obtain ⟨q, hq, rfl⟩ := exists_request hw hb
    rw [hcount, show (4 * k + 3) / 4 = k by omega] at hq
    refine ⟨q, getElem?_log_mono hm hq, ?_⟩
    obtain ⟨hs, hd⟩ := inDBits_eq hg (tagged hw ha m hv)
    rw [← Option.some.inj hr, hs, hd, hsource, hdata]
    have hbyte : ∀ j < 3, ((byteResponseLog i m).map fun b => b.data)[4 * k + j]? =
        some (byte (4 * k + j) (q.address + BitVec.ofNat 30 j)) :=
      fun j hj => gathered_byte hw ha hq (by omega) (by omega)
    refine ⟨BitVec.extractLsb'_append_eq_left, ?_⟩
    rw [lastBytes_eq (hbyte 0 (by decide)) (hbyte 1 (by decide)) (hbyte 2 (by decide)) (by simpa using hcount),
      hcount, show (4 * k + 3) % 4 = 3 by omega, wordOf, byteOf]
    rw [append_bytes, BitVec.add_zero]
    rfl
  next => exact absurd hr (by simp)

/-! ### Progress -/

/-- The byte requests of the requests handed over before cycle `n` are sent at some time. -/
private theorem all_sent (hw : WordReads i) (hf : Fair i) (n : ℕ) :
    ∃ m, n ≤ m ∧ 4 * (requestLog i n).length ≤ (byteRequestLog i m).length := by
  by_contra hno
  push Not at hno
  have hshort : ∀ m, (byteRequestLog i m).length < 4 * (requestLog i n).length := by
    intro m
    rcases le_total n m with h | h
    · exact hno m h
    · exact (length_log_le _ h).trans_lt (hno n le_rfl)
  obtain ⟨k, hnk, hquiet⟩ := exists_quiet hshort n
  -- a request is in the repeater as long as not everything has been sent
  have hvalid : ∀ m, k ≤ m → outAValid (run i m) (i m) = true := by
    intro m hm
    rcases sent hw m with ⟨-, -, heq⟩ | ⟨-, -, -, hfull, -⟩
    · have hlen := hshort m
      have hle : (requestLog i n).length ≤ (requestLog i m).length := length_log_le _ (hnk.trans hm)
      rw [heq, length_flatMap_bytesOf] at hlen
      omega
    · simp [outAValid, TlFragmenter.outAValid, Repeater6.ioDeqValid, hfull]
  obtain ⟨m, hm, hready⟩ := hf.accepts k hvalid
  have := hquiet m hm
  rw [byteRequest, hvalid m hm, hready] at this
  exact absurd this (by simp)

/-- A requester that offers a request for good hands it over. -/
theorem exists_inAReady (hw : WordReads i) (hf : Fair i) (hv : ∀ m, n ≤ m → (i m).inAValid = true) :
    ∃ m, n ≤ m ∧ inAReady (run i m) (i m) = true := by
  by_contra hno
  push Not at hno
  have hstop : ∀ m, n ≤ m → requestLog i m = requestLog i n := by
    intro m hm
    induction m, hm using Nat.le_induction with
    | base => rfl
    | succ m hm ih =>
      have hlog : requestLog i (m + 1) = requestLog i m ++ (request (run i m) (i m)).toList := rfl
      rw [hlog, request, Bool.eq_false_iff.2 (hno m hm), Bool.and_false, ih]
      simp
  obtain ⟨k, hnk, hk⟩ := all_sent hw hf n
  -- the repeater is empty once everything has been sent
  have hempty : ∀ m, k ≤ m → (run i m).fragmenter.repeater.full = false := by
    intro m hm
    rcases sent hw m with ⟨hf, -⟩ | ⟨reqs, r, g, -, -, -, hg, -, hreq, hbytes⟩
    · exact hf
    · have hle := hk.trans (length_log_le _ hm)
      have hlen : (byteRequestLog i m).length = 4 * reqs.length + (4 - g) := by
        rw [hbytes, List.length_append, length_flatMap_bytesOf, List.length_take]
        simp [bytesOf]
      have hlen' : (requestLog i n).length = reqs.length + 1 := by
        rw [← hstop m (hnk.trans hm), hreq, List.length_append, List.length_singleton]
      have hlen'' : (byteRequestLog i m).length = (log (fun m => byteRequest (run i m) (i m)) m).length := rfl
      omega
  have hvalid : ∀ m, k ≤ m → outAValid (run i m) (i m) = true := by
    intro m hm
    simp [outAValid, TlFragmenter.outAValid, Repeater6.ioDeqValid, TlFragmenter.repeaterInput, fragmenterA,
      TlWidthWidget.outAValid, hv m (hnk.trans hm)]
  obtain ⟨m, hm, hready⟩ := hf.accepts k hvalid
  refine hno m (hnk.trans hm) ?_
  simp [inAReady, TlWidthWidget.inAReady, TlFragmenter.inAReady, Repeater6.ioEnqReady, TlFragmenter.repeaterInput,
    fragmenterA, hready, hempty m hm]

/-- An answer that is not taken waits for the requester. -/
theorem waits_of_not_ready (hv : x.outDValid = true) (hr : outDReady s x = false) :
    inDValid s x = true ∧ x.inDReady = false := by
  simp only [outDReady, TlFragmenter.outDReady, fragmenterD, TlWidthWidget.outDReady, Bool.or_eq_false_iff,
    Bool.not_eq_false'] at hr
  exact ⟨Bool.and_eq_true_iff.2 ⟨hv, hr.2⟩, hr.1⟩

/-- What has been sent is answered at some time. -/
private theorem all_answered (hf : Fair i) (n : ℕ) :
    ∃ m, n ≤ m ∧ (byteRequestLog i n).length ≤ (byteResponseLog i m).length := by
  by_contra hno
  push Not at hno
  have hshort : ∀ m, (byteResponseLog i m).length < (byteRequestLog i n).length := by
    intro m
    rcases le_total n m with h | h
    · exact hno m h
    · exact (length_log_le _ h).trans_lt (hno n le_rfl)
  obtain ⟨k, hnk, hquiet⟩ := exists_quiet hshort n
  obtain ⟨k', hk', hv⟩ := hf.answers k ((hshort k).trans_le (length_log_le _ hnk))
  have hvalid : ∀ m, k' ≤ m → (i m).outDValid = true := by
    intro m hm
    induction m, hm using Nat.le_induction with
    | base => exact hv
    | succ m hm ih => exact hf.holds m ih (hquiet m (hk'.trans hm))
  -- the answer waits for the requester
  have hwait : ∀ m, k' ≤ m → inDValid (run i m) (i m) = true ∧ (i m).inDReady = false := by
    intro m hm
    have hb : byteResponse (run i m) (i m) = none := hquiet m (hk'.trans hm)
    rw [byteResponse, hvalid m hm, Bool.true_and, ite_eq_right_iff] at hb
    have hready : outDReady (run i m) (i m) = false := by
      by_contra hne
      exact absurd (hb (by simpa using hne)) (by simp)
    exact waits_of_not_ready (hvalid m hm) hready
  obtain ⟨m, hm, hready⟩ := hf.takes k' fun m hm => (hwait m hm).1
  rw [(hwait m hm).2] at hready
  exact absurd hready (by decide)

/-- The flash port reads words, in every run with a requester that asks for aligned words and a slave that answers its
byte requests in order. -/
theorem reads_words (hw : WordReads i) (ha : AnswersInOrder i byte) : ReadsWords i byte where
  sent := fun n => (sent hw n).todo
  gathered := fun n => ⟨(byteResponseLog i n).length % 4, by rw [length_responseLog hw ha]; omega, by omega⟩
  responses := fun n k r => responses_eq hw ha
  complete := fun hf n => by
    obtain ⟨m, hnm, hm⟩ := all_sent hw hf n
    obtain ⟨m', -, hm'⟩ := all_answered hf m
    exact ⟨m', by rw [length_responseLog hw ha]; omega⟩

/-- A read of the word at address 4 with source 2, and five cycles later one of the word at address 8 with source 1; the
slave answers each byte request in the next cycle with the low byte of the address. -/
def wordRead (n : ℕ) : Input where
  inAValid := n == 0 || n == 5
  inABits :=
    { opcode := opGet, param := 0, size := 2, source := if n < 5 then 2 else 1, address := if n < 5 then 4 else 8,
      mask := BitVec.allOnes 4, data := 0 }
  inDReady := true
  outAReady := true
  outDValid := 1 ≤ n && n ≤ 4 || 6 ≤ n && n ≤ 9
  outDBits :=
    { opcode := 1, param := 0, size := 0,
      source := if n < 6 then 2#2 ++ BitVec.ofNat 5 (4 - n) else 1#2 ++ BitVec.ofNat 5 (9 - n), sink := false,
      addrLo := 0, data := BitVec.ofNat 8 (if n < 6 then n + 3 else n + 2), error := false }

theorem wordReads_wordRead : WordReads wordRead := by
  intro n _
  refine ⟨rfl, rfl, rfl, ?_⟩
  change (if n < 5 then 4 else 8 : BitVec 30) &&& 3 = 0
  split <;> decide

theorem answersInOrder_wordRead : AnswersInOrder wordRead fun _ a => a.setWidth 8 := by
  intro n hn
  have hn : 1 ≤ n ∧ n ≤ 4 ∨ 6 ≤ n ∧ n ≤ 9 := by simpa [wordRead] using hn
  rcases hn with ⟨h1, h4⟩ | ⟨h6, h9⟩
  · interval_cases n
    · exact ⟨byteOf (wordRead 0).inABits 0, by decide⟩
    · exact ⟨byteOf (wordRead 0).inABits 1, by decide⟩
    · exact ⟨byteOf (wordRead 0).inABits 2, by decide⟩
    · exact ⟨byteOf (wordRead 0).inABits 3, by decide⟩
  · interval_cases n
    · exact ⟨byteOf (wordRead 5).inABits 0, by decide⟩
    · exact ⟨byteOf (wordRead 5).inABits 1, by decide⟩
    · exact ⟨byteOf (wordRead 5).inABits 2, by decide⟩
    · exact ⟨byteOf (wordRead 5).inABits 3, by decide⟩

private theorem length_requestLog_wordRead (n : ℕ) : (requestLog wordRead n).length ≤ 2 := by
  have hsub : (Finset.range n).filter (fun m => (request (run wordRead m) (wordRead m)).isSome = true) ⊆ {0, 5} := by
    intro m hm
    obtain ⟨-, hm⟩ := Finset.mem_filter.1 hm
    by_contra hno
    rw [Finset.mem_insert, Finset.mem_singleton, not_or] at hno
    simp [request, wordRead, hno.1, hno.2] at hm
  rw [requestLog, length_log, Nat.count_eq_card_filter_range]
  exact (Finset.card_le_card hsub).trans Finset.card_le_two

theorem fair_wordRead : Fair wordRead := by
  refine ⟨fun n _ => ⟨n, le_rfl, rfl⟩, fun n h => ?_, fun n hv h => ?_, fun n _ => ⟨n, le_rfl, rfl⟩⟩
  · by_cases hn : n ≤ 9
    · exact ⟨9, hn, rfl⟩
    · obtain ⟨todo, heq, -⟩ := (sent wordReads_wordRead n).todo
      have hreq := length_requestLog_wordRead n
      have hlen := congrArg List.length heq
      have hans : 8 ≤ (byteResponseLog wordRead n).length :=
        le_trans (by decide) (length_log_le _ (show 10 ≤ n by omega))
      rw [length_flatMap_bytesOf, List.length_append] at hlen
      omega
  · have hready : outDReady (run wordRead n) (wordRead n) = true := by
      simp [outDReady, TlFragmenter.outDReady, fragmenterD, TlWidthWidget.outDReady, widgetD, wordRead]
    rw [byteResponse, hv, hready] at h
    exact absurd h (by simp)

theorem reads_words_wordRead : ReadsWords wordRead (fun _ a => a.setWidth 8) ∧ Fair wordRead :=
  ⟨reads_words wordReads_wordRead answersInOrder_wordRead, fair_wordRead⟩

end FlashFragments
