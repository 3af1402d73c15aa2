import ZrSoc.QspiFrames
import ZrSoc.QspiSck

/-!
# The media layer takes the frames of its link

The bit engine is ready again and again: a frame ends after its beats, and a delay after its periods
(`exists_opReady`).  Each time the media layer comes closer to the next frame of the link, and takes it in the end
(`exists_linkTxReady`).
-/

namespace QspiPhysical

variable {s : State} {x : Input} {y : ℕ → Input} {n : ℕ}

/-- The half periods of a delay. -/
def delayRank (s : State) : ℕ := 2 * s.scnt.toNat + s.cref.toNat

/-- A delay is counted down. -/
theorem Idle.delayRank_lt (h : Idle s) (hr : opReady s = false) : delayRank (edge s x) < delayRank s := by
  have hne : s.scnt ≠ 0#8 := fun h0 => by simp [h.opReady_iff.2 (Or.inl h0)] at hr
  have hbeat : beat s = true := by simp [beat, h.tcnt]
  have hstop : stop s = false := by simpa [stop] using hne
  have hready : t251 s = false := hr
  cases hc : s.cref with
  | true => simp [delayRank, edge, hready, hstop, hbeat, hc]
  | false =>
    simp only [delayRank, edge, hready, hstop, hbeat, hc, Bool.false_and, Bool.false_eq_true, Bool.not_false,
      Bool.and_self, ↓reduceIte, Bool.toNat_true, Bool.toNat_false]
    have hpos : s.scnt.toNat ≠ 0 := fun h0 => hne (BitVec.eq_of_toNat_eq h0)
    bv_omega

theorem exists_opReady (hy : ∀ n, NoStrobedDelay (y n)) (n : ℕ) : ∃ m, n ≤ m ∧ opReady (machine.run y m) = true := by
  obtain ⟨k, hnk, hk⟩ : ∃ k, n ≤ k ∧ Idle (machine.run y k) := by
    rcases idle_or_frame hy n with h | ⟨t, htn, ha, h0, hn⟩
    · exact ⟨n, le_rfl, h⟩
    · exact ⟨_, hn.le, (draining_of_accepts hy ha rfl h0).2.2⟩
  obtain ⟨m, hkm, hm⟩ := Sync.exists_of_rank (P := fun m => Idle (machine.run y m))
    (Q := fun m => opReady (machine.run y m) = true) (fun m => delayRank (machine.run y m)) hk fun m _ hi hr => by
      rw [Bool.not_eq_true] at hr
      have ha : accepts (machine.run y m) (y m) = false := by
        simp [accepts, show t251 (machine.run y m) = false from hr]
      exact ⟨hi.next (hy m) ha, hi.delayRank_lt hr⟩
  exact ⟨m, hnk.trans hkm, hm⟩

end QspiPhysical

namespace QspiMedia

open Sync

variable {s : State} {x : Input} {i : ℕ → Input} {n : ℕ}

/-- The link offers a frame and keeps the chip select. -/
structure Offered (l : Link) : Prop where
  txValid : l.txValid = true
  csHold : l.csHold = true
  csClear : l.csClear = false

/-- The steps to the next frame. -/
def steps (s : State) : ℕ :=
  match s.state with
  | .interxfr => 4
  | .intercs => 2
  | .main => if s.csAssert then (if s.clear then 3 else 0) else 1

/-- A clear is pending under an asserted chip select only. -/
def ClearOk (s : State) : Prop := s.csAssert = false → s.clear = false

theorem clearOk_edge (h : ClearOk s) : ClearOk (edge s x) := by
  intro ha
  cases hi : sIntercs s with
  | true => simp [edge, hi]
  | false =>
    cases hca : s.csAssert with
    | true =>
      simp [edge, hi, t189, hca] at ha
    | false => simp [edge, hi, hca, h hca]

theorem clearOk (i : ℕ → Input) (n : ℕ) : ClearOk (run i n) := by
  induction n with
  | zero => exact fun _ => rfl
  | succ n ih => exact clearOk_edge ih

/-- Without a frame every clock edge keeps the steps, and a ready engine makes one. -/
theorem steps_edge (hc : ClearOk s) (ho : Offered x.link) (hr : linkTxReady s x = false) :
    steps (edge s x) ≤ steps s ∧ (opReady s = true → steps (edge s x) < steps s) := by
  have hd : csDeassert s x = s.clear := by simp [csDeassert, ho.csHold]
  cases hs : s.state with
  | interxfr =>
    cases hcont : opReady s || continuous x with
    | true =>
      have hlt : steps (edge s x) < 4 := by
        simp only [steps, edge, hs, hcont, ↓reduceIte]
        grind
      simp only [steps, hs] at hlt ⊢
      omega
    | false =>
      obtain ⟨hop, hcont⟩ := Bool.or_eq_false_iff.1 hcont
      simp [steps, edge, hs, hcont, hop]
  | intercs =>
    cases hop : opReady s with
    | true => simp [steps, edge, hs, sIntercs, hop]
    | false => simp [steps, edge, hs, sIntercs, hop]
  | main =>
    cases hca : s.csAssert with
    | false =>
      have hcl := hc hca
      cases hop : opReady s <;>
        simp [steps, edge, hs, hca, sIntercs, sMain, t189, ho.txValid, hop, hcl]
    | true =>
      cases hcl : s.clear with
      | true => cases hop : opReady s <;> simp [steps, edge, hs, hca, hd, hcl, sIntercs, sMain, hop]
      | false =>
        have hop : opReady s = false := by
          simpa [linkTxReady, sMain, hs, hca, hd, hcl] using hr
        simp [steps, edge, hs, hca, hd, hcl, sIntercs, sMain, hop, ho.csClear]

theorem exists_ready (i : ℕ → Input) (n : ℕ) : ∃ m, n ≤ m ∧ opReady (run i m) = true := by
  obtain ⟨m, hm, hr⟩ := QspiPhysical.exists_opReady (y := phyStream i) phyStream_noStrobedDelay n
  rw [← run_phy] at hr
  exact ⟨m, hm, hr⟩

private theorem steps_le {k m : ℕ} (ho : ∀ m, k ≤ m → Offered (i m).link)
    (hno : ∀ m, k ≤ m → ¬ linkTxReady (run i m) (i m) = true) (hkm : k ≤ m) : steps (run i m) ≤ steps (run i k) := by
  induction m, hkm using Nat.le_induction with
  | base => exact le_rfl
  | succ m hkm ih =>
    exact (steps_edge (clearOk i m) (ho m hkm) (Bool.not_eq_true _ ▸ hno m hkm)).1.trans ih

/-- A frame that is offered for good is taken. -/
theorem exists_linkTxReady (ho : ∀ m, n ≤ m → Offered (i m).link) :
    ∃ m, n ≤ m ∧ linkTxReady (run i m) (i m) = true := by
  refine Sync.exists_of_progress (P := fun _ => True) (fun m => steps (run i m)) trivial fun k hk _ => ?_
  by_cases hQ : ∃ m, k ≤ m ∧ linkTxReady (run i m) (i m) = true
  · exact Or.inl hQ
  · have hno : ∀ m, k ≤ m → ¬ linkTxReady (run i m) (i m) = true := fun m hm hr => hQ ⟨m, hm, hr⟩
    obtain ⟨m, hkm, hm⟩ := exists_ready i k
    have hle := steps_le (fun j hj => ho j (by omega)) hno hkm
    have hlt : steps (run i (m + 1)) < steps (run i m) :=
      (steps_edge (clearOk i m) (ho m (by omega)) (Bool.not_eq_true _ ▸ hno m hkm)).2 hm
    exact Or.inr ⟨m + 1, by omega, trivial, by omega⟩

end QspiMedia
