import ZrSoc.FlashLink
import ZrSoc.QspiProgress

/-!
# The chip select of the flash

With the configuration held, the media layer keeps the chip select asserted between the frames of the flash map
(`Open`), and releases it when a read does not continue the previous one.  What the flash map is doing follows:
`Control` holds in every run.
-/

namespace QspiMedia

/-- The registers and the link of the flash map, which selects chip 0. -/
structure Selects (x : Input) : Prop where
  csId : x.csId = false
  csDflt0 : x.csDflt0 = true
  csSet : x.link.csSet = true
  csHold : x.link.csHold = true

/-- The pin of the chip select follows the state. -/
structure Selected (s : State) : Prop where
  clearOk : ClearOk s
  csId : s.csId = false
  csSet : s.csAssert = true ∨ s.state = .intercs → s.csSet = true
  pin : s.csDflt0 = !(s.csAssert || s.state == .intercs)
  interxfr : s.state = .interxfr → s.csAssert = true

/-- The chip select is asserted and stays so. -/
structure Open (s : State) : Prop where
  csAssert : s.csAssert = true
  clear : s.clear = false
  state : s.state ≠ .intercs

variable {s : State} {x : Input}

theorem csDeassert_eq (hx : Selects x) : csDeassert s x = s.clear := by simp [csDeassert, hx.csHold]

theorem selected_reset : Selected reset := by
  refine ⟨fun _ => rfl, rfl, fun h => ?_, rfl, fun h => ?_⟩
  · rcases h with h | h <;> exact absurd h (by decide)
  · exact absurd h (by decide)

theorem Selected.next (h : Selected s) (hx : Selects x) : Selected (edge s x) := by
  have hok : ClearOk (edge s x) := clearOk_edge h.clearOk
  have hid : (edge s x).csId = false := by simp [edge, hx.csId, h.csId]
  cases hs : s.state with
  | intercs =>
    -- the pin goes high at the end of the delay
    have hset := h.csSet (Or.inr hs)
    have hpin : s.csDflt0 = false := by simp [h.pin, hs]
    cases hop : opReady s <;> refine ⟨hok, hid, ?_, ?_, ?_⟩ <;>
      simp [edge, sIntercs, sMain, hs, hop, hset, hpin, h.csId]
  | interxfr =>
    have hca := h.interxfr hs
    have hset := h.csSet (Or.inl hca)
    have hpin : s.csDflt0 = false := by simp [h.pin, hca]
    cases hop : opReady s || continuous x <;> refine ⟨hok, hid, ?_, ?_, ?_⟩ <;>
      simp [edge, sIntercs, sMain, hs, hop, hca, hset, hpin]
  | main =>
    cases hca : s.csAssert with
    | true =>
      have hset := h.csSet (Or.inl hca)
      have hpin : s.csDflt0 = false := by simp [h.pin, hca]
      refine ⟨hok, hid, fun _ => ?_, ?_, fun _ => ?_⟩ <;>
        simp [edge, sIntercs, sMain, t189, t195, hs, hca, hset, hpin]
    | false =>
      -- the pin goes low when a frame waits and the bit engine takes the delay
      have hpin : s.csDflt0 = true := by simp [h.pin, hca, hs]
      cases hv : x.link.txValid <;> cases hop : opReady s <;> refine ⟨hok, hid, ?_, ?_, ?_⟩ <;>
        simp [edge, sIntercs, sMain, t163, t189, t195, hs, hca, hv, hop, hpin, hx.csId, hx.csDflt0, hx.csSet]

/-- A transfer is accepted when the link hands over a frame. -/
theorem accepts_phy : QspiPhysical.accepts s.phy (phyInput s x) = (linkTxReady s x && x.link.txValid) := by
  have hready : QspiPhysical.t251 s.phy = opReady s := rfl
  simp only [QspiPhysical.accepts, phyInput, opValid, opBits, linkTxReady, hready]
  by_cases hs : s.state = .main
  · have hm : sMain s = true := by simp [sMain, hs]
    have hi : sInterxfr s = false := by simp [sInterxfr, hs]
    rw [hm, hi]
    cases opReady s <;> cases s.csAssert <;> cases csDeassert s x <;> simp
  · have hm : sMain s = false := by simpa [sMain] using hs
    simp [hm]

/-- The operation of a frame. -/
theorem opBits_of_ready (hr : linkTxReady s x = true) :
    (opBits s x).stb = true ∧ (opBits s x).cnt = x.link.cnt ∧ (opBits s x).data = x.link.txBits := by
  simp only [linkTxReady, Bool.and_eq_true, Bool.not_eq_true'] at hr
  obtain ⟨⟨⟨hm, hca⟩, hd⟩, -⟩ := hr
  have hs : s.state = .main := by simpa [sMain] using hm
  simp [opBits, sMain, sIntercs, sInterxfr, t195, t189, hs, hca, hd]

/-- A ready link has an open chip select. -/
theorem open_of_ready (hx : Selects x) (hr : linkTxReady s x = true) : Open s ∧ s.state = .main ∧ opReady s = true := by
  simp only [linkTxReady, csDeassert_eq hx, Bool.and_eq_true, Bool.not_eq_true'] at hr
  obtain ⟨⟨⟨hm, hca⟩, hd⟩, hop⟩ := hr
  have hs : s.state = .main := by simpa [sMain] using hm
  exact ⟨⟨hca, hd, by simp [hs]⟩, hs, hop⟩

/-- The chip select stays open without a clear. -/
theorem Open.next (h : Open s) (hx : Selects x) (hc : x.link.csClear = false) : Open (edge s x) := by
  have hi : sIntercs s = false := by simpa [sIntercs] using h.state
  refine ⟨?_, ?_, ?_⟩
  · simp [edge, hi, h.csAssert]
  · simp [edge, hi, hc, h.clear]
  · cases hs : s.state with
    | main =>
      simp only [edge, hs, h.csAssert, csDeassert_eq hx, h.clear, ↓reduceIte]
      grind
    | interxfr =>
      simp only [edge, hs]
      grind
    | intercs => exact absurd hs h.state

theorem Open.clears (h : Open s) (hc : x.link.csClear = true) : ¬ Open (edge s x) := by
  have hi : sIntercs s = false := by simpa [sIntercs] using h.state
  intro h'
  have := h'.clear
  simp [edge, hi, hc, h.csAssert] at this

/-- A chip select that is not open is asserted first. -/
theorem not_open_cases (hn : ¬ Open s) (h : Open (edge s x)) : s.state = .main ∧ s.csAssert = false ∧
    x.link.txValid = true := by
  have hca := h.csAssert
  have hcl := h.clear
  have hst := h.state
  cases hi : sIntercs s with
  | true => simp [edge, hi] at hca
  | false =>
    cases hs : s.csAssert with
    | true =>
      refine absurd ⟨hs, ?_, by simpa [sIntercs] using hi⟩ hn
      by_contra hne
      simp [edge, hi, hs, hne] at hcl
    | false =>
      have hm : s.state = .main ∧ x.link.txValid = true := by
        simp [edge, hi, hs, t189, sMain] at hca
        exact hca.1
      exact ⟨hm.1, rfl, hm.2⟩

end QspiMedia

/-- The counter of the bytes of an address. -/
def FlashMap.CntOk (s : FlashMap.State) : Prop := s.state = .addr → s.cnt = 1#4 ∨ s.cnt = 2#4 ∨ s.cnt = 3#4

namespace FlashLink

open Sync TileLink
open FlashMap (Format CntOk)
open QspiMedia (Open Selects Selected)

/-- The flash is read in the format `f` from chip 0, which is not selected when its pin is high. -/
structure Configured (f : Format) (x : Input) : Prop where
  flashEn : x.flashEn = true
  insn : x.insn = f
  csId : x.csId = false
  csDflt0 : x.csDflt0 = true

/-- The ports of the flash map. -/
def ports (s : State) (x : Input) : FlashMap.Input := FlashPort.mapInput s.flash (flashInput s x)

/-- The flash map has the link, and the chip select is open from the command on. -/
structure Control (f : Format) (s : State) : Prop where
  sel0 : s.arb.sel0 = true
  sel1 : s.arb.sel1 = false
  selected : Selected s.mac
  latched : s.mac.csAssert = true → s.flash.map.latched = f
  inactive : s.mac.csAssert = false → s.flash.map.state = .idle ∨ s.flash.map.state = .cmd
  releasing : s.mac.csAssert = true → ¬ Open s.mac → s.flash.map.state = .cmd
  cnt : CntOk s.flash.map

variable {f : Format} {s : State} {x : Input} {i : ℕ → Input} {n : ℕ}

theorem edge_map : (edge s x).flash.map = FlashMap.edge s.flash.map (ports s x) := rfl

theorem edge_mac : (edge s x).mac = QspiMedia.edge s.mac (macInput s x) := rfl

theorem Control.ports_linkTxReady (h : Control f s) :
    (ports s x).linkTxReady = QspiMedia.linkTxReady s.mac (macInput s x) := by
  simp [ports, FlashPort.mapInput, flashInput, flashPorts, h.sel0]

theorem Control.ports_linkActive (h : Control f s) : (ports s x).linkActive = s.mac.csAssert := by
  simp [ports, FlashPort.mapInput, flashInput, flashPorts, innerActive, QspiMedia.linkActive, h.sel0]

/-- The flash map always uses the format of the registers. -/
theorem Control.ctrl_eq (h : Control f s) (hx : Configured f x) : FlashMap.ctrl s.flash.map (ports s x) = f := by
  rw [FlashMap.ctrl, h.ports_linkActive]
  cases hca : s.mac.csAssert with
  | true => exact h.latched hca
  | false => exact hx.insn

/-- The media layer sees the link of the flash map. -/
theorem Control.macInput_link (h : Control f s) (hx : Configured f x) :
    (macInput s x).link = FlashMap.link s.flash.map (ports s x) := by
  have hlink : FlashPort.link s.flash (flashPorts s x false) = FlashMap.link s.flash.map (ports s x) := rfl
  rw [← hlink]
  simp [macInput, QspiArbiter.outer, arbInput, h.sel0, h.sel1, hx.flashEn, QspiPhysical.mask_true_and,
    QspiPhysical.mask_false_and]

theorem Control.selects (h : Control f s) (hx : Configured f x) : Selects (macInput s x) where
  csId := hx.csId
  csDflt0 := hx.csDflt0
  csSet := by rw [h.macInput_link hx]; rfl
  csHold := by rw [h.macInput_link hx]; rfl

theorem control_reset : Control f reset := by
  refine ⟨rfl, rfl, QspiMedia.selected_reset, ?_, fun _ => Or.inl rfl, ?_, ?_⟩ <;> intro h <;> exact absurd h (by decide)

/-- A link that is not open does not take a frame. -/
theorem Control.not_ready (h : Control f s) (hx : Configured f x) (hn : ¬ Open s.mac) : (ports s x).linkTxReady = false := by
  rw [h.ports_linkTxReady, Bool.eq_false_iff]
  exact fun hr => hn (QspiMedia.open_of_ready (h.selects hx) hr).1

/-- The flash map releases the chip select with a command. -/
theorem cmd_of_csClear (hc : (FlashMap.link s.flash.map (ports s x)).csClear = true)
    (hcmd : (FlashMap.ctrl s.flash.map (ports s x)).cmdEn = true) : (edge s x).flash.map.state = .cmd := by
  simp only [FlashMap.link, FlashMap.linkCsClear, FlashMap.sIdle, Bool.and_eq_true, beq_iff_eq, Bool.not_eq_true'] at hc
  obtain ⟨⟨⟨hs, hen⟩, hv⟩, hm⟩ := hc
  simp [edge_map, FlashMap.edge, hs, hen, hv, hm, hcmd]

/-- While no slave is selected the flash map waits for a request or starts with the command. -/
theorem Control.idle_or_cmd_next (h : Control f s) (hx : Configured f x) (hcmd : f.cmdEn = true)
    (hca : s.mac.csAssert = false) :
    (edge s x).flash.map.state = .idle ∨ (edge s x).flash.map.state = .cmd := by
  have hctrl := h.ctrl_eq hx
  have hr := h.not_ready hx fun ho => by simp [ho.csAssert] at hca
  have hm : FlashMap.merge (ports s x) = false := by simp [FlashMap.merge, h.ports_linkActive, hca]
  rcases h.inactive hca with hs | hs
  · cases hv : (ports s x).en && (ports s x).addrValid <;> simp [edge_map, FlashMap.edge, hs, hv, hm, hctrl, hcmd]
  · simp [edge_map, FlashMap.edge, hs, hr]

/-- The command waits until the link is open again. -/
theorem Control.cmd_next (h : Control f s) (hx : Configured f x) (hca : s.mac.csAssert = true) (hn : ¬ Open s.mac) :
    (edge s x).flash.map.state = .cmd := by
  simp [edge_map, FlashMap.edge, h.releasing hca hn, h.not_ready hx hn]

/-- The address counter starts with three bytes and counts the bytes that are taken. -/
theorem Control.cnt_next (h : Control f s) (hx : Configured f x) (hcmd : f.cmdEn = true) (hlen : f.addrLen = 3#3) :
    CntOk (edge s x).flash.map := by
  have hctrl := h.ctrl_eq hx
  intro hs'
  rw [edge_map] at hs' ⊢
  cases hs : s.flash.map.state with
  | addr =>
    have hcnt := h.cnt hs
    cases hr : (ports s x).linkTxReady with
    | true =>
      rcases hcnt with hc | hc | hc <;> simp [FlashMap.edge, FlashMap.cntDone, FlashMap.sends,
        FlashMap.linkTxValid, hs, hr, hc] at hs' ⊢
    | false => simpa [FlashMap.edge, hs, FlashMap.sends, hr] using hcnt
  | cmd => cases hr : (ports s x).linkTxReady <;> simp [FlashMap.edge, hs, hr, hctrl, hlen] at hs' ⊢
  | idle =>
    simp only [FlashMap.edge, hs, hctrl, hcmd, ↓reduceIte] at hs'
    grind
  | pad => cases hr : (ports s x).linkTxReady <;> simp [FlashMap.edge, hs, hr] at hs'
  | pre => cases hr : (ports s x).linkTxReady <;> simp [FlashMap.edge, hs, hr] at hs'
  | dataPost =>
    simp only [FlashMap.edge, hs] at hs'
    grind

theorem Control.next (h : Control f s) (hx : Configured f x) (hcmd : f.cmdEn = true) (hlen : f.addrLen = 3#3) :
    Control f (edge s x) := by
  have hctrl := h.ctrl_eq hx
  have hsel := h.selects hx
  have hlink := h.macInput_link hx
  refine ⟨?_, ?_, h.selected.next hsel, ?_, ?_, ?_, h.cnt_next hx hcmd hlen⟩
  · simp [edge, QspiArbiter.edge, arbInput, hx.flashEn, h.sel0]
  · simp [edge, QspiArbiter.edge, arbInput, hx.flashEn, h.sel1]
  · intro _
    have hl : (edge s x).flash.map.latched = if !(ports s x).linkActive then (ports s x).ctrl else s.flash.map.latched :=
      rfl
    rw [hl, h.ports_linkActive]
    cases hca : s.mac.csAssert with
    | true => exact h.latched hca
    | false => exact hx.insn
  · intro hca'
    cases hca : s.mac.csAssert with
    | false => exact h.idle_or_cmd_next hx hcmd hca
    | true =>
      refine Or.inr (h.cmd_next hx hca fun ho => ?_)
      have hi : QspiMedia.sIntercs s.mac = false := by simpa [QspiMedia.sIntercs] using ho.state
      simp [edge_mac, QspiMedia.edge, hi, hca] at hca'
  · intro hca' hn'
    by_cases ho : Open s.mac
    · have hc : (FlashMap.link s.flash.map (ports s x)).csClear = true := by
        rw [← hlink, ← Bool.not_eq_false]
        exact fun hc => hn' (ho.next hsel hc)
      exact cmd_of_csClear hc (by rw [hctrl, hcmd])
    · cases hca : s.mac.csAssert with
      | true => exact h.cmd_next hx hca ho
      | false =>
        refine absurd ⟨hca', ?_, ?_⟩ hn'
        · have hcl := h.selected.clearOk hca
          simp [edge_mac, QspiMedia.edge, hca, hcl]
        · cases hst : s.mac.state with
          | main => simp [edge_mac, QspiMedia.edge, hst, hca]
          | interxfr => simp [h.selected.interxfr hst] at hca
          | intercs => simp [edge_mac, QspiMedia.edge, QspiMedia.sIntercs, hst] at hca'

end FlashLink
