import ZrSoc.QspiChipSelect

/-!
# The delays around the chip select of the QSPI

The media layer has a table of the delays that belong around its chip select: `cssck` periods between its assertion
and the first frame, `interxfr` periods between two frames, `sckcs` periods between the last frame and its release,
and `intercs` periods while it is inactive; a delay of no period needs no operation.  The log of the micro-operations
that the physical layer accepts and of the changes of the chip select has the delays of the table if and only if the
delays other than `interxfr` are 0 where they belong (`followsTable_iff`), as the media layer never hands these over
(`since_run`).
-/

namespace QspiMedia

open Sync QspiPhysical

inductive MicroOp
  | xfer (cnt data : BitVec 8)
  | delay (periods : BitVec 8)
  deriving DecidableEq, Repr

/-- What happens at the chip select and between the layers. -/
inductive Event
  | asserted
  | released
  | op (o : MicroOp)
  deriving DecidableEq, Repr

section

variable (s : State) (x : Input)

/-- The micro-operation the physical layer accepts in a cycle. -/
def handed : Option MicroOp :=
  if opReady s && opValid s x then
    some (if (opBits s x).fn then .delay (opBits s x).cnt else .xfer (opBits s x).cnt (opBits s x).data)
  else none

/-- The change of the chip select at the end of a cycle. -/
def change : Option Event :=
  match linkActive s, linkActive (edge s x) with
  | false, true => some .asserted
  | true, false => some .released
  | _, _ => none

def events : List Event := (handed s x).toList.map .op ++ (change s x).toList

/-- A frame of the link is accepted. -/
def transfers : Bool := linkTxReady s x && x.link.txValid

/-- The link asks for a frame, and the chip select is asserted for it. -/
def asserts : Bool := sMain s && t189 s x && opReady s

/-- The chip select is released. -/
def releases : Bool := sIntercs s && s.csAssert

/-- The delay between two frames is handed over. -/
def separates : Bool := sInterxfr s && !continuous x && opReady s

end

/-! ### The table -/

/-- A delay, if it has a period. -/
def delayOf (p : BitVec 8) : List (BitVec 8) := if p = 0#8 then [] else [p]

/-- The delays between an event and the next one that is not a delay, if they may follow each other. -/
def table (d : Delays) : Option Event → Event → Option (List (BitVec 8))
  | none, .asserted => some []
  | some .released, .asserted => some (delayOf d.intercs)
  | some .asserted, .op (.xfer _ _) => some (delayOf d.cssck)
  | some (.op (.xfer _ _)), .op (.xfer _ _) => some (delayOf d.interxfr)
  | some .asserted, .released => some (delayOf d.cssck ++ delayOf d.sckcs)
  | some (.op (.xfer _ _)), .released => some (delayOf d.interxfr ++ delayOf d.sckcs)
  | _, _ => none

/-- The last event that is not a delay, and the delays after it. -/
def sinceNext (p : Option Event × List (BitVec 8)) : Event → Option Event × List (BitVec 8)
  | .op (.delay q) => (p.1, p.2 ++ [q])
  | e => (some e, [])

def since (l : List Event) : Option Event × List (BitVec 8) := l.foldl sinceNext (none, [])

/-- The delays in a log are those of the table. -/
structure Spaced (d : Delays) (l : List Event) : Prop where
  between : ∀ u e v, l = u ++ e :: v → (∀ p, e ≠ .op (.delay p)) → table d (since u).1 e = some (since u).2
  pending : ∃ e ps, table d (since l).1 e = some ps ∧ (since l).2 <+: ps

section

variable (i : ℕ → Input)

/-- The events of the cycles before `n`. -/
def eventLog : ℕ → List Event
  | 0 => []
  | n + 1 => eventLog n ++ events (run i n) (i n)

/-- The media layer hands over the frames of the link with the delays `d` of its table around them and nothing else.
A delay of `p` periods, of two clocks each, lasts so long, and the chip select stays inactive for `intercs` periods. -/
structure FollowsTable (d : Delays) : Prop where
  spaced : ∀ n, Spaced d (eventLog i n)
  frames : ∀ n c b, handed (run i n) (i n) = some (.xfer c b) ↔
    linkTxReady (run i n) (i n) = true ∧ (i n).link.txValid = true ∧ (i n).link.cnt = c ∧ (i n).link.txBits = b
  lasts : ∀ t p u, Event.op (.delay p) ∈ events (run i t) (i t) → t < u → u < t + 2 * p.toNat →
    events (run i u) (i u) = []
  inactive : ∀ r a, r < a → Event.released ∈ events (run i r) (i r) → Event.asserted ∈ events (run i a) (i a) →
    r + 2 * d.intercs.toNat ≤ a

end

variable {s : State} {x : Input} {i : ℕ → Input} {d : Delays} {e : Event} {l u v : List Event} {m n r t w : ℕ}
  {p : BitVec 8} {q : Option Event × List (BitVec 8)}

section

variable {c b c' b' : BitVec 8}

@[simp] theorem table_none_asserted : table d none .asserted = some [] := rfl

@[simp] theorem table_released_asserted : table d (some .released) .asserted = some (delayOf d.intercs) := rfl

@[simp] theorem table_asserted_xfer :
    table d (some .asserted) (.op (.xfer c b)) = some (delayOf d.cssck) := rfl

@[simp] theorem table_xfer_xfer :
    table d (some (.op (.xfer c b))) (.op (.xfer c' b')) = some (delayOf d.interxfr) := rfl

@[simp] theorem table_asserted_released :
    table d (some .asserted) .released = some (delayOf d.cssck ++ delayOf d.sckcs) := rfl

@[simp] theorem table_xfer_released :
    table d (some (.op (.xfer c b))) .released = some (delayOf d.interxfr ++ delayOf d.sckcs) := rfl

end

private theorem delayOf_eq_nil_iff : delayOf p = [] ↔ p = 0#8 := by simp [delayOf]

@[simp] theorem since_nil : since [] = (none, []) := rfl

theorem since_append (l l' : List Event) : since (l ++ l') = l'.foldl sinceNext (since l) := List.foldl_append

/-! ### The events of a cycle -/

theorem handed_eq : handed s x =
    if transfers s x then some (.xfer x.link.cnt x.link.txBits)
    else if separates s x then some (.delay x.dla.interxfr) else none := by
  cases hst : s.state with
  | main =>
    cases hca : s.csAssert <;> cases hd : csDeassert s x <;> cases hv : x.link.txValid <;> cases hr : opReady s <;>
      simp [handed, opValid, opBits, transfers, separates, linkTxReady, sMain, sInterxfr, sIntercs, t189, t195, hst,
        hca, hd, hv, hr]
  | interxfr =>
    cases hc : continuous x <;> cases hr : opReady s <;>
      simp [handed, opValid, opBits, transfers, separates, linkTxReady, sMain, sInterxfr, sIntercs, hst, hc, hr]
  | intercs => simp [handed, opValid, transfers, separates, linkTxReady, sMain, sInterxfr, hst]

theorem change_eq : change s x =
    if asserts s x then some .asserted else if releases s then some .released else none := by
  cases hst : s.state <;> cases hca : s.csAssert <;> cases hv : x.link.txValid <;> cases hr : opReady s <;>
    simp [change, linkActive, edge, asserts, releases, sMain, sIntercs, t189, hst, hca, hv, hr]

/-- At most one thing happens in a cycle. -/
theorem events_eq : events s x =
    if asserts s x then [.asserted] else if releases s then [.released]
    else if transfers s x then [.op (.xfer x.link.cnt x.link.txBits)]
    else if separates s x then [.op (.delay x.dla.interxfr)] else [] := by
  rw [events, handed_eq, change_eq]
  cases hst : s.state <;> cases hca : s.csAssert <;>
    simp [asserts, releases, transfers, separates, linkTxReady, sMain, sInterxfr, sIntercs, t189, hst, hca] <;>
    split <;> simp

theorem events_of_asserts (h : asserts s x = true) : events s x = [.asserted] := by simp [events_eq, h]

theorem events_of_releases (h : releases s = true) : events s x = [.released] := by
  have hno : asserts s x = false := by
    simp only [releases, Bool.and_eq_true] at h
    simp [asserts, t189, h.2]
  simp [events_eq, hno, h]

theorem events_of_transfers (h : transfers s x = true) :
    events s x = [.op (.xfer x.link.cnt x.link.txBits)] := by
  have hmain : s.state = .main ∧ s.csAssert = true := by
    simp only [transfers, linkTxReady, sMain, Bool.and_eq_true, beq_iff_eq] at h
    exact h.1.1.1
  have hno : asserts s x = false := by simp [asserts, t189, hmain.2]
  have hrel : releases s = false := by simp [releases, sIntercs, hmain.1]
  simp [events_eq, hno, hrel, h]

theorem events_length : events s x = [] ∨ ∃ e, events s x = [e] := by
  rw [events_eq]
  repeat' split
  all_goals simp

theorem events_of_mem (h : e ∈ events s x) : events s x = [e] := by
  rcases events_length (s := s) (x := x) with h0 | ⟨a, ha⟩
  · exact absurd h (by simp [h0])
  · rw [ha, List.mem_singleton] at h
    rw [ha, h]

theorem eq_of_events (h : events s x = [e]) :
    e = .asserted ∧ asserts s x = true ∨ e = .released ∧ releases s = true ∨
    e = .op (.xfer x.link.cnt x.link.txBits) ∧ transfers s x = true ∨
    e = .op (.delay x.dla.interxfr) ∧ separates s x = true := by
  rw [events_eq] at h
  grind

/-! ### The log -/

/-- Each event of the log is the one of a cycle, and before it are those of the cycles before. -/
theorem exists_of_eventLog (h : eventLog i n = u ++ e :: v) :
    ∃ m < n, u = eventLog i m ∧ events (run i m) (i m) = [e] := by
  induction n generalizing v with
  | zero => exact absurd h (by simp [eventLog])
  | succ n ih =>
    rw [eventLog] at h
    rcases events_length (s := run i n) (x := i n) with h0 | ⟨a, ha⟩
    · rw [h0, List.append_nil] at h
      obtain ⟨m, hm, hu⟩ := ih h
      exact ⟨m, by omega, hu⟩
    · rw [ha] at h
      rcases List.eq_nil_or_concat v with rfl | ⟨v', b, rfl⟩
      · obtain ⟨hu, he⟩ := List.append_inj' h rfl
        exact ⟨n, by omega, hu.symm, by rw [ha, he]⟩
      · rw [List.concat_eq_append, ← List.cons_append, ← List.append_assoc] at h
        obtain ⟨m, hm, hu⟩ := ih (List.append_inj' h rfl).1
        exact ⟨m, by omega, hu⟩

/-- What the log ends with in a state of the media layer: the delay between two frames is the only one. -/
inductive Since (d : Delays) (s : State) : Option Event × List (BitVec 8) → Prop
  | reset (ha : s.csAssert = false) (hs : s.state ≠ .interxfr) : Since d s (none, [])
  | released (ha : s.csAssert = false) (hs : s.state ≠ .interxfr) : Since d s (some .released, [])
  | asserted (ha : s.csAssert = true) (hs : s.state ≠ .interxfr) : Since d s (some .asserted, [])
  | transferring (c b : BitVec 8) (ha : s.csAssert = true) (hs : s.state = .interxfr) :
    Since d s (some (.op (.xfer c b)), [])
  | transferred (c b : BitVec 8) (ha : s.csAssert = true) (hs : s.state ≠ .interxfr) :
    Since d s (some (.op (.xfer c b)), delayOf d.interxfr)

theorem edge_csAssert : (edge s x).csAssert =
    if asserts s x then true else if releases s then false else s.csAssert := by
  cases hst : s.state <;> cases hca : s.csAssert <;> cases hv : x.link.txValid <;> cases hr : opReady s <;>
    simp [edge, asserts, releases, sMain, sIntercs, t189, hst, hca, hv, hr]

theorem edge_state_eq_interxfr_iff : (edge s x).state = .interxfr ↔
    transfers s x = true ∨ s.state = .interxfr ∧ (opReady s || continuous x) = false := by
  cases hst : s.state with
  | main =>
    cases hca : s.csAssert <;> cases hd : csDeassert s x <;> cases hr : opReady s <;> cases hv : x.link.txValid <;>
      simp [edge, transfers, linkTxReady, opValid, sMain, sInterxfr, hst, hca, hd, hr, hv]
  | interxfr =>
    cases hr : opReady s <;> cases hc : continuous x <;> simp [edge, transfers, linkTxReady, sMain, hst, hr, hc]
  | intercs => cases hr : opReady s <;> simp [edge, transfers, linkTxReady, sMain, hst, hr]

/-- A cycle before which the chip select is inactive. -/
theorem inactive_cases (ha : s.csAssert = false) (hs : s.state ≠ .interxfr) :
    events s x = [.asserted] ∧ (edge s x).csAssert = true ∧ (edge s x).state ≠ .interxfr ∨
    events s x = [] ∧ (edge s x).csAssert = false ∧ (edge s x).state ≠ .interxfr := by
  have htr : transfers s x = false := by simp [transfers, linkTxReady, ha]
  have hsep : separates s x = false := by simp [separates, sInterxfr, hs]
  have hrel : releases s = false := by simp [releases, ha]
  have hstate : (edge s x).state ≠ .interxfr := by simp [edge_state_eq_interxfr_iff, htr, hs]
  cases h : asserts s x with
  | true => exact Or.inl ⟨by simp [events_eq, h], by simp [edge_csAssert, h], hstate⟩
  | false => exact Or.inr ⟨by simp [events_eq, h, hrel, htr, hsep], by simp [edge_csAssert, h, hrel, ha], hstate⟩

/-- A cycle before which the chip select is active. -/
theorem active_cases (ha : s.csAssert = true) (hs : s.state ≠ .interxfr) :
    events s x = [.released] ∧ (edge s x).csAssert = false ∧ (edge s x).state ≠ .interxfr ∨
    events s x = [.op (.xfer x.link.cnt x.link.txBits)] ∧ (edge s x).csAssert = true ∧
      (edge s x).state = .interxfr ∨
    events s x = [] ∧ (edge s x).csAssert = true ∧ (edge s x).state ≠ .interxfr := by
  have hno : asserts s x = false := by simp [asserts, t189, ha]
  have hsep : separates s x = false := by simp [separates, sInterxfr, hs]
  cases hrel : releases s with
  | true =>
    have htr : transfers s x = false := by
      simp only [releases, sIntercs, Bool.and_eq_true, beq_iff_eq] at hrel
      simp [transfers, linkTxReady, sMain, hrel.1]
    exact Or.inl ⟨by simp [events_eq, hno, hrel], by simp [edge_csAssert, hno, hrel],
      by simp [edge_state_eq_interxfr_iff, htr, hs]⟩
  | false =>
    cases htr : transfers s x with
    | true =>
      exact Or.inr (Or.inl ⟨by simp [events_eq, hno, hrel, htr], by simp [edge_csAssert, hno, hrel, ha],
        by simp [edge_state_eq_interxfr_iff, htr]⟩)
    | false =>
      exact Or.inr (Or.inr ⟨by simp [events_eq, hno, hrel, htr, hsep], by simp [edge_csAssert, hno, hrel, ha],
        by simp [edge_state_eq_interxfr_iff, htr, hs]⟩)

/-- A cycle between two frames. -/
theorem interxfr_cases (ha : s.csAssert = true) (hs : s.state = .interxfr) :
    events s x = (delayOf x.dla.interxfr).map (.op ∘ .delay) ∧ (edge s x).csAssert = true ∧
      (edge s x).state ≠ .interxfr ∨
    events s x = [] ∧ (edge s x).csAssert = true ∧ (edge s x).state = .interxfr := by
  have hno : asserts s x = false := by simp [asserts, t189, ha]
  have hrel : releases s = false := by simp [releases, sIntercs, hs]
  have htr : transfers s x = false := by simp [transfers, linkTxReady, sMain, hs]
  have hcs : (edge s x).csAssert = true := by simp [edge_csAssert, hno, hrel, ha]
  have hcont : continuous x = decide (x.dla.interxfr = 0#8) := rfl
  have hevents : events s x = if separates s x then [.op (.delay x.dla.interxfr)] else [] := by
    simp [events_eq, hno, hrel, htr]
  have hsep : separates s x = (!continuous x && opReady s) := by simp [separates, sInterxfr, hs]
  by_cases h0 : x.dla.interxfr = 0#8
  · exact Or.inl ⟨by simp [hevents, hsep, hcont, h0, delayOf], hcs,
      by simp [edge_state_eq_interxfr_iff, htr, hcont, h0]⟩
  · cases hr : opReady s with
    | true =>
      exact Or.inl ⟨by simp [hevents, hsep, hcont, h0, hr, delayOf], hcs,
        by simp [edge_state_eq_interxfr_iff, htr, hr]⟩
    | false =>
      exact Or.inr ⟨by simp [hevents, hsep, hr], hcs, by simp [edge_state_eq_interxfr_iff, hs, hr, hcont, h0]⟩

theorem Since.next (h : Since d s q) (hd : x.dla = d) : Since d (edge s x) ((events s x).foldl sinceNext q) := by
  cases h with
  | reset ha hs =>
    rcases inactive_cases (x := x) ha hs with ⟨he, hca, hst⟩ | ⟨he, hca, hst⟩ <;> rw [he]
    · exact Since.asserted hca hst
    · exact Since.reset hca hst
  | released ha hs =>
    rcases inactive_cases (x := x) ha hs with ⟨he, hca, hst⟩ | ⟨he, hca, hst⟩ <;> rw [he]
    · exact Since.asserted hca hst
    · exact Since.released hca hst
  | asserted ha hs =>
    rcases active_cases (x := x) ha hs with ⟨he, hca, hst⟩ | ⟨he, hca, hst⟩ | ⟨he, hca, hst⟩ <;> rw [he]
    · exact Since.released hca hst
    · exact Since.transferring _ _ hca hst
    · exact Since.asserted hca hst
  | transferring c b ha hs =>
    rcases interxfr_cases (x := x) ha hs with ⟨he, hca, hst⟩ | ⟨he, hca, hst⟩ <;> rw [he]
    · have hnext : ((delayOf x.dla.interxfr).map (Event.op ∘ MicroOp.delay)).foldl sinceNext
          (some (.op (.xfer c b)), []) = (some (.op (.xfer c b)), delayOf d.interxfr) := by
        rw [hd, delayOf]
        split <;> rfl
      rw [hnext]
      exact Since.transferred c b hca hst
    · exact Since.transferring c b hca hst
  | transferred c b ha hs =>
    rcases active_cases (x := x) ha hs with ⟨he, hca, hst⟩ | ⟨he, hca, hst⟩ | ⟨he, hca, hst⟩ <;> rw [he]
    · exact Since.released hca hst
    · exact Since.transferring _ _ hca hst
    · exact Since.transferred c b hca hst

theorem Since.csAssert_of_interxfr (h : Since d s q) (hs : s.state = .interxfr) : s.csAssert = true := by
  cases h with
  | reset _ hn | released _ hn => exact absurd hs hn
  | asserted ha | transferring _ _ ha | transferred _ _ ha => exact ha

theorem Since.released_of_inactive (h : Since d s q) (ha : s.csAssert = false) (hq : q.1 ≠ none) :
    q.1 = some .released := by
  cases h with
  | reset => exact absurd rfl hq
  | released => rfl
  | asserted hc | transferring _ _ hc | transferred _ _ hc => exact absurd hc (by simp [ha])

theorem Since.asserted_iff (h : Since d s q) (ha : s.csAssert = false) :
    table d q.1 .asserted = some q.2 ↔ (q.1 ≠ none → d.intercs = 0#8) := by
  cases h with
  | reset => simp
  | released => simp [delayOf_eq_nil_iff]
  | asserted hc | transferring _ _ hc | transferred _ _ hc => exact absurd hc (by simp [ha])

theorem Since.xfer_iff (h : Since d s q) (ha : s.csAssert = true) (hs : s.state ≠ .interxfr) {c b : BitVec 8} :
    table d q.1 (.op (.xfer c b)) = some q.2 ↔ (q.1 = some .asserted → d.cssck = 0#8) := by
  cases h with
  | reset hc | released hc => exact absurd ha (by simp [hc])
  | asserted => simp [delayOf_eq_nil_iff]
  | transferring _ _ _ hi => exact absurd hi hs
  | transferred => simp

theorem Since.released_iff (h : Since d s q) (ha : s.csAssert = true) (hs : s.state ≠ .interxfr) :
    table d q.1 .released = some q.2 ↔ (q.1 = some .asserted → d.cssck = 0#8) ∧ d.sckcs = 0#8 := by
  cases h with
  | reset hc | released hc => exact absurd ha (by simp [hc])
  | asserted => simp [delayOf_eq_nil_iff]
  | transferring _ _ _ hi => exact absurd hi hs
  | transferred => simp [delayOf_eq_nil_iff]

/-- What has happened since the last event is the beginning of what the table has before some other. -/
theorem Since.pending (h : Since d s q) : ∃ e ps, table d q.1 e = some ps ∧ q.2 <+: ps := by
  cases h with
  | reset => exact ⟨.asserted, [], rfl, List.nil_prefix⟩
  | released => exact ⟨.asserted, _, rfl, List.nil_prefix⟩
  | asserted => exact ⟨.released, _, rfl, List.nil_prefix⟩
  | transferring c b => exact ⟨.op (.xfer c b), _, rfl, List.nil_prefix⟩
  | transferred c b => exact ⟨.op (.xfer c b), _, rfl, List.prefix_refl _⟩

theorem since_run (hd : ∀ n, (i n).dla = d) (n : ℕ) : Since d (run i n) (since (eventLog i n)) := by
  induction n with
  | zero => exact Since.reset rfl (by simp [run, machine, Machine.run, reset])
  | succ n ih =>
    rw [eventLog, since_append]
    exact ih.next (hd n)

/-- An event stays noted. -/
private theorem fst_foldl (l : List Event) (hq : q.1 ≠ none) : (l.foldl sinceNext q).1 ≠ none := by
  induction l generalizing q with
  | nil => exact hq
  | cons e l ih =>
    refine ih ?_
    rcases e with _ | _ | ⟨_ | _⟩
    · simp [sinceNext]
    · simp [sinceNext]
    · simp [sinceNext]
    · exact hq

/-- After a release the log has an event that is not a delay. -/
private theorem since_ne_none (hr : releases (run i r) = true) (hrn : r < n) : (since (eventLog i n)).1 ≠ none := by
  induction n, (show r + 1 ≤ n from hrn) using Nat.le_induction with
  | base =>
    rw [eventLog, since_append, events_of_releases hr]
    simp [sinceNext]
  | succ n hn ih =>
    rw [eventLog, since_append]
    exact fst_foldl _ (ih (by omega))

private theorem exists_of_since (h : (since (eventLog i n)).1 = some e) :
    ∃ m < n, events (run i m) (i m) = [e] := by
  induction n with
  | zero => exact absurd h (by simp [eventLog])
  | succ n ih =>
    rw [eventLog, since_append] at h
    rcases events_length (s := run i n) (x := i n) with h0 | ⟨a, ha⟩
    · rw [h0] at h
      obtain ⟨m, hm, hme⟩ := ih h
      exact ⟨m, by omega, hme⟩
    · rw [ha] at h
      by_cases hdel : ∃ p, a = .op (.delay p)
      · obtain ⟨p, rfl⟩ := hdel
        obtain ⟨m, hm, hme⟩ := ih h
        exact ⟨m, by omega, hme⟩
      · have hae : a = e := by
          rcases a with _ | _ | ⟨_ | p⟩
          · exact Option.some.inj h
          · exact Option.some.inj h
          · exact Option.some.inj h
          · exact absurd ⟨p, rfl⟩ hdel
        exact ⟨n, by omega, by rw [ha, hae]⟩

/-! ### A delay that is handed over -/

/-- The physical layer accepts no operation in the periods of a delay. -/
theorem not_ready_of_delay (h : handed (run i t) (i t) = some (.delay p)) (htw : t < w) (hw : w < t + 2 * p.toNat) :
    opReady (run i w) = false := by
  obtain ⟨hready, hvalid, hfn, hcnt⟩ : opReady (run i t) = true ∧ (phyStream i t).opValid = true ∧
      (phyStream i t).op.fn = true ∧ (phyStream i t).op.cnt = p := by
    rw [handed] at h
    split at h
    next hc =>
      obtain ⟨h1, h2⟩ := Bool.and_eq_true_iff.1 hc
      refine ⟨h1, h2, ?_⟩
      split at h
      next hf => exact ⟨hf, MicroOp.delay.inj (Option.some.inj h)⟩
      next => exact absurd h (by simp)
    next => exact absurd h (by simp)
  rw [opReady, run_phy] at hready ⊢
  exact QspiPhysical.not_ready_of_delay phyStream_noStrobedDelay hready hvalid hfn (by rw [hcnt]) htw hw

/-- While the physical layer is not ready, nothing happens under the chip select. -/
theorem Transferring.events_eq_nil {c : Bool} (h : Transferring c s) (hr : opReady s = false) : events s x = [] := by
  simp [events_eq, asserts, releases, transfers, separates, linkTxReady, sIntercs, hr, h.state]

theorem events_eq_nil_of_delay (hd : ∀ n, (i n).dla = d) (h : Event.op (.delay p) ∈ events (run i t) (i t))
    (htw : t < w) (hw : w < t + 2 * p.toNat) : events (run i w) (i w) = [] := by
  have hh : handed (run i t) (i t) = some (.delay p) := by
    rw [events, List.mem_append] at h
    rcases h with h | h
    · simpa using h
    · rw [change_eq] at h
      grind
  have hsep : (run i t).state = .interxfr ∧ opReady (run i t) = true := by
    rw [handed_eq] at hh
    split at hh
    · exact absurd hh (by simp)
    · split at hh
      next hs =>
        simp only [separates, sInterxfr, Bool.and_eq_true, beq_iff_eq] at hs
        exact ⟨hs.1.1, hs.2⟩
      next => exact absurd hh (by simp)
  have hca : (run i t).csAssert = true := (since_run hd t).csAssert_of_interxfr hsep.1
  have hstart : Transferring (portCs0 (run i (t + 1))) (run i (t + 1)) := by
    refine ⟨?_, ?_, rfl⟩
    · change (edge (run i t) (i t)).csAssert = true
      simp [edge_csAssert, asserts, releases, t189, sIntercs, hca, hsep.1]
    · change (edge (run i t) (i t)).state ≠ .intercs
      simp [edge, hsep.1, hsep.2]
  have hrun : Transferring (portCs0 (run i (t + 1))) (run i w) := by
    clear h
    induction w, (show t + 1 ≤ w from htw) using Nat.le_induction with
    | base => exact hstart
    | succ w hw' ih => exact (ih (by omega) (by omega)).next (not_ready_of_delay hh (by omega) (by omega))
  exact hrun.events_eq_nil (not_ready_of_delay hh htw hw)

/-! ### The table is followed -/

private theorem table_of_events (h : FollowsTable i d) (he : events (run i n) (i n) = [e])
    (hmark : ∀ p, e ≠ .op (.delay p)) : table d (since (eventLog i n)).1 e = some (since (eventLog i n)).2 :=
  (h.spaced (n + 1)).between _ _ [] (by rw [eventLog, he]) hmark

/-- The first transfer or release comes after the assertion of the chip select. -/
private theorem exists_first (h : ∃ n, transfers (run i n) (i n) = true ∨ releases (run i n) = true) :
    ∃ n, (transfers (run i n) (i n) = true ∨ releases (run i n) = true) ∧
      ∀ c b, (since (eventLog i n)).1 ≠ some (.op (.xfer c b)) := by
  obtain ⟨n, hn⟩ := h
  induction n using Nat.strong_induction_on with
  | _ n ih =>
    by_cases hlast : ∃ c b, (since (eventLog i n)).1 = some (.op (.xfer c b))
    · obtain ⟨c, b, hcb⟩ := hlast
      obtain ⟨m, hm, hme⟩ := exists_of_since hcb
      exact ih m hm (Or.inl (by simpa using And.right (by simpa using eq_of_events hme)))
    · exact ⟨n, hn, fun c b hcb => hlast ⟨c, b, hcb⟩⟩

private theorem transfers_spec (h : transfers s x = true) : s.csAssert = true ∧ s.state ≠ .interxfr := by
  simp only [transfers, linkTxReady, sMain, Bool.and_eq_true, beq_iff_eq] at h
  exact ⟨h.1.1.1.2, by simp [h.1.1.1.1]⟩

private theorem releases_spec (h : releases s = true) : s.csAssert = true ∧ s.state ≠ .interxfr := by
  simp only [releases, sIntercs, Bool.and_eq_true, beq_iff_eq] at h
  exact ⟨h.2, by simp [h.1]⟩

private theorem asserts_spec (h : asserts s x = true) : s.csAssert = false := by
  simp only [asserts, t189, Bool.and_eq_true, Bool.not_eq_true'] at h
  exact h.1.2.1

private theorem cssck_of_followsTable (hd : ∀ n, (i n).dla = d) (h : FollowsTable i d)
    (hn : ∃ n, transfers (run i n) (i n) = true ∨ releases (run i n) = true) : d.cssck = 0#8 := by
  obtain ⟨n, hn, hfirst⟩ := exists_first hn
  have hs := since_run hd n
  have hlast : (since (eventLog i n)).1 = some .asserted := by
    have hca : (run i n).csAssert = true := hn.elim (fun h => (transfers_spec h).1) fun h => (releases_spec h).1
    generalize since (eventLog i n) = q at hs hfirst
    cases hs with
    | reset hc | released hc => exact absurd hca (by simp [hc])
    | asserted => rfl
    | transferring c b | transferred c b => exact absurd rfl (hfirst c b)
  rcases hn with ht | hr
  · obtain ⟨hca, hst⟩ := transfers_spec ht
    exact (hs.xfer_iff hca hst).1 (table_of_events h (events_of_transfers ht) (by simp)) hlast
  · obtain ⟨hca, hst⟩ := releases_spec hr
    exact ((hs.released_iff hca hst).1 (table_of_events h (events_of_releases hr) (by simp))).1 hlast

/-- With constant delays, the media layer follows its table if and only if `cssck` is 0 when a frame is transferred or
the chip select released, `sckcs` is 0 when it is released, and `intercs` is 0 when it is asserted again after that. -/
theorem followsTable_iff (hd : ∀ n, (i n).dla = d) : FollowsTable i d ↔
    (∀ n, transfers (run i n) (i n) = true ∨ releases (run i n) = true → d.cssck = 0#8) ∧
    (∀ n, releases (run i n) = true → d.sckcs = 0#8) ∧
    (∀ r a, r < a → releases (run i r) = true → asserts (run i a) (i a) = true → d.intercs = 0#8) := by
  constructor
  · intro h
    refine ⟨fun n hn => cssck_of_followsTable hd h ⟨n, hn⟩, fun n hr => ?_, fun r a hra hr ha => ?_⟩
    · obtain ⟨hca, hst⟩ := releases_spec hr
      exact (((since_run hd n).released_iff hca hst).1 (table_of_events h (events_of_releases hr) (by simp))).2
    · exact ((since_run hd a).asserted_iff (asserts_spec ha)).1 (table_of_events h (events_of_asserts ha) (by simp))
        (since_ne_none hr hra)
  · rintro ⟨hcssck, hsckcs, hintercs⟩
    refine ⟨fun n => ⟨fun u e v huv hmark => ?_, (since_run hd n).pending⟩, fun n c b => ?_,
      fun t p w h htw hw => events_eq_nil_of_delay hd h htw hw, fun r a hra hr ha => ?_⟩
    · obtain ⟨m, -, rfl, hm⟩ := exists_of_eventLog huv
      have hs := since_run hd m
      rcases eq_of_events hm with ⟨rfl, ha⟩ | ⟨rfl, hr⟩ | ⟨rfl, ht⟩ | ⟨rfl, -⟩
      · refine (hs.asserted_iff (asserts_spec ha)).2 fun hnone => ?_
        obtain ⟨r, hrm, hr⟩ := exists_of_since (hs.released_of_inactive (asserts_spec ha) hnone)
        exact hintercs r m hrm (by simpa using eq_of_events hr) ha
      · obtain ⟨hca, hst⟩ := releases_spec hr
        exact (hs.released_iff hca hst).2 ⟨fun _ => hcssck m (Or.inr hr), hsckcs m hr⟩
      · obtain ⟨hca, hst⟩ := transfers_spec ht
        exact (hs.xfer_iff hca hst).2 fun _ => hcssck m (Or.inl ht)
      · exact absurd rfl (hmark _)
    · rw [handed_eq, ← and_assoc, ← Bool.and_eq_true, ← transfers]
      grind
    · have hrel : releases (run i r) = true := by simpa using eq_of_events (events_of_mem hr)
      have hass : asserts (run i a) (i a) = true := by simpa using eq_of_events (events_of_mem ha)
      rw [hintercs r a hra hrel hass]
      exact hra.le

/-- In the run of the divided frame the chip select is asserted in cycle 0, and the frame follows without the delay of
`cssck = 1`. -/
theorem not_followsTable_dividedFrame : (∀ n, (dividedFrame n).dla = (dividedFrame 0).dla) ∧
    eventLog dividedFrame 2 = [.asserted, .op (.xfer 8#8 0x9f#8)] ∧
    ¬ FollowsTable dividedFrame (dividedFrame 0).dla := by
  have hlog : eventLog dividedFrame 2 = [.asserted, .op (.xfer 8#8 0x9f#8)] := by decide +kernel
  refine ⟨fun _ => rfl, hlog, fun h => ?_⟩
  have htab := (h.spaced 2).between [.asserted] _ [] hlog (by simp)
  exact absurd htab (by decide)

/-- Frames of one beat with `interxfr = 2` between them, and a new chip select now and then. -/
def spacedFrames (n : ℕ) : Input where
  dqI := 0
  sck := { div := 0, pol := false, pha := false }
  dla := { cssck := 0, sckcs := 0, intercs := 0, interxfr := 2 }
  csId := false
  csDflt0 := true
  link :=
    { txValid := true, txBits := BitVec.ofNat 8 n, cnt := 1, fmt := { proto := 0, endian := false, iodir := true },
      csSet := true, csClear := n % 32 == 20, csHold := false }

/-- Two frames of that run with the delay between them. -/
theorem followsTable_spacedFrames :
    eventLog spacedFrames 12 = [.asserted, .op (.xfer 1#8 1#8), .op (.delay 2#8), .op (.xfer 1#8 10#8)] ∧
    FollowsTable spacedFrames (spacedFrames 0).dla := by
  have hd : ∀ n, (spacedFrames n).dla = (spacedFrames 0).dla := fun _ => rfl
  exact ⟨by decide +kernel, (followsTable_iff hd).2 ⟨fun _ _ => rfl, fun _ _ => rfl, fun _ _ _ _ _ => rfl⟩⟩

end QspiMedia
