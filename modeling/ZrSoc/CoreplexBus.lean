import ZrSoc.Coreplex
import ZrSoc.Sync.SingleOutstanding

/-!
# The instruction and data buses of the core complex

The slaves of a bus answer after different times: the TCM, the debug module and the debug transport module in the
cycle after the grant, a peripheral bus some time after it has accepted the command.  The core starts a transaction
only when the earlier one has been answered, at the earliest in the cycle of its response; with this the response
merge of each bus delivers, for each grant in order, the response of the slave that was selected at the grant
(`buses_served`).
-/

namespace Coreplex

open Sync
open Tcm (Bus)

variable {w : ℕ} (base : BitVec 32) (init : BitVec (w - 1) → BitVec 32) (i : ℕ → Input)

abbrev run : ℕ → State w := (machine w base init).run i

/-! ### The surroundings -/

/-- The TCM window is disjoint from the other windows. -/
def TcmDisjoint (w : ℕ) (base : BitVec 32) : Prop :=
  ∀ b k v addr, k ≠ .tcm → v ∈ window base w b k → inWindow v addr = true →
    inWindow (base, Tcm.tcmAddrMask w) addr = false

/-- At most one transaction of the core is outstanding on bus `b`: when it requests one, each earlier grant has had
its response, the last one possibly in this cycle. -/
def OneOutstanding (b : Bus) : Prop :=
  ∀ n, req (i n) b = true → Nat.count (fun m => gnt base (run base init i m) (i m) b = true) n =
    Nat.count (fun m => rvalid (run base init i m) b = true) (n + 1)

/-- The ICB behind bus `b` gives one response for each accepted command, at the earliest in the same cycle. -/
structure IcbAnswersOnce (b : Bus) : Prop where
  accepted : ∀ n, icbRspValid (i n) b = true → Nat.count (fun m => icbRspValid (i m) b = true) n <
    Nat.count (fun m => gntOf base (run base init i m) (i m) b .perip = true) (n + 1)
  eventually : ∀ n, ∃ m, Nat.count (fun m => gntOf base (run base init i m) (i m) b .perip = true) n ≤
    Nat.count (fun m => icbRspValid (i m) b = true) m

/-! ### What the buses guarantee -/

/-- The read data of bus `b` in cycle `m` is the response of slave `k` to the transaction granted in cycle `g`. -/
def Delivered (b : Bus) (k : Slave) (g m : ℕ) : Prop :=
  match k with
  | .tcm => m = g + 1 ∧
      rdata (run base init i m) (i m) b = (run base init i g).tcm.ram.mem (Tcm.ramAddr w ((i g).core.addr b))
  | .dm => m = g + 1 ∧ dmSlaveReq (run base init i g) (i g) = true ∧
      dmSlaveAddr (run base init i g) (i g) = (i g).core.addr b ∧
      (∀ b', b' ≠ b → gntOf base (run base init i g) (i g) b' .dm = false) ∧
      rdata (run base init i m) (i m) b = (i m).dmSlaveRdata
  | .dtm => m = g + 1 ∧ rdata (run base init i m) (i m) b =
      Icb2DebugBus.icbRspRdata (run base init i g).icb2dm (icb2dmInput (i g))
  | .perip => ∃ a, m = a + 1 ∧ g ≤ a ∧ icbRspValid (i a) b = true ∧
      Nat.count (fun m => gntOf base (run base init i m) (i m) b .perip = true) g =
        Nat.count (fun m => icbRspValid (i m) b = true) a ∧
      rdata (run base init i m) (i m) b = icbRspRdata (i a) b

/-- Bus `b` serves the core: at most one slave is selected in a cycle, each response cycle belongs to the grant with
the same number and delivers the response of the slave selected at the grant and of no other, and each grant has
exactly one response. -/
structure BusServed (b : Bus) : Prop where
  oneSelected : ∀ n k k', selected base (i n) w b k = true → selected base (i n) w b k' = true → k = k'
  answered : ∀ m, rvalid (run base init i m) b = true → ∃ g < m, ∃ k,
    gntOf base (run base init i g) (i g) b k = true ∧ selected base (i g) w b k = true ∧
    Nat.count (fun m => gnt base (run base init i m) (i m) b = true) g =
      Nat.count (fun m => rvalid (run base init i m) b = true) m ∧
    (∀ k', rvalidOf (run base init i m) b k' = true ↔ k' = k) ∧ Delivered base init i b k g m
  once : ∀ g, gnt base (run base init i g) (i g) b = true → ∃! m, g < m ∧ rvalid (run base init i m) b = true ∧
    Nat.count (fun m => rvalid (run base init i m) b = true) m =
      Nat.count (fun m => gnt base (run base init i m) (i m) b = true) g

variable {base init i} {b : Bus} {k k' : Slave} {n : ℕ}

/-! ### The windows -/

/-- Two windows that differ in a bit they both decode are disjoint. -/
private theorem not_inWindow {v v' : BitVec 32 × BitVec 32} {addr : BitVec 32} (j : ℕ) (hm : v.2.getLsbD j = false)
    (hm' : v'.2.getLsbD j = false) (hj : j < 32) (hc : v.1.getLsbD j ≠ v'.1.getLsbD j) (h : inWindow v addr = true) :
    inWindow v' addr = false := by
  by_contra h'
  simp only [inWindow, Bool.not_eq_false, beq_iff_eq] at h h'
  have h1 := congrArg (·.getLsbD j) h
  have h2 := congrArg (·.getLsbD j) h'
  simp only [BitVec.getLsbD_and, BitVec.getLsbD_not, hm, hm', hj, decide_true, Bool.not_false, Bool.and_true] at h1 h2
  exact hc (h1.symm.trans h2)

/-- The fixed windows of a bus differ in bit 14, 28 or 29. -/
private theorem window_disjoint {v v' : BitVec 32 × BitVec 32} {addr : BitVec 32} (hk : k ≠ .tcm) (hk' : k' ≠ .tcm)
    (hne : k ≠ k') (hv : v ∈ window base w b k) (hv' : v' ∈ window base w b k') (h : inWindow v addr = true) :
    inWindow v' addr = false := by
  have hsep : ∃ j ∈ [14, 28, 29], v.2.getLsbD j = false ∧ v'.2.getLsbD j = false ∧
      v.1.getLsbD j ≠ v'.1.getLsbD j := by
    cases b <;> cases k <;> cases k' <;> simp only [window, Option.mem_def, Option.some.injEq, reduceCtorEq] at hv hv' <;>
      subst hv hv' <;> first | contradiction | decide
  obtain ⟨j, hj, hm, hm', hc⟩ := hsep
  refine not_inWindow j hm hm' ?_ hc h
  simp only [List.mem_cons, List.not_mem_nil, or_false] at hj
  omega

theorem selected_unique (hd : TcmDisjoint w base) {x : Input} (h : selected base x w b k = true)
    (h' : selected base x w b k' = true) : k = k' := by
  obtain ⟨-, v, hv, hin⟩ := (selected_iff _ _).1 h
  obtain ⟨-, v', hv', hin'⟩ := (selected_iff _ _).1 h'
  have htcm : ∀ {v}, v ∈ window base w b .tcm → v = (base, Tcm.tcmAddrMask w) := by
    intro v hv; cases b <;> exact (Option.mem_some_iff.1 hv).symm
  by_contra hne
  by_cases hk : k = .tcm
  · subst hk
    rw [htcm hv] at hin
    exact absurd hin (by simp [hd b k' v' _ (Ne.symm hne) hv' hin'])
  by_cases hk' : k' = .tcm
  · subst hk'
    rw [htcm hv'] at hin'
    exact absurd hin' (by simp [hd b k v _ hne hv hin])
  · exact absurd hin' (by simp [window_disjoint hk hk' hne hv hv' hin])

/-! ### The rules of a single outstanding transaction -/

/-- The slave that grants a transaction of bus `b` in cycle `n`. -/
def granted (base : BitVec 32) (init : BitVec (w - 1) → BitVec 32) (i : ℕ → Input) (b : Bus) (n : ℕ) : Option Slave :=
  Slave.all.find? fun k => gntOf base (run base init i n) (i n) b k

theorem granted_eq_some_iff (hd : TcmDisjoint w base) :
    granted base init i b n = some k ↔ gntOf base (run base init i n) (i n) b k = true := by
  constructor
  · exact fun h => List.find?_some h
  · intro h
    cases hg : granted base init i b n with
    | none => exact absurd h (List.find?_eq_none.1 hg k k.mem_all)
    | some k' => rw [selected_unique hd (selected_of_gntOf _ _ _ (List.find?_some hg)) (selected_of_gntOf _ _ _ h)]

theorem isSome_granted : (granted base init i b n).isSome = gnt base (run base init i n) (i n) b := by
  rw [Bool.eq_iff_iff, gnt_iff, granted, List.find?_isSome]
  exact ⟨fun ⟨k, _, h⟩ => ⟨k, h⟩, fun ⟨k, h⟩ => ⟨k, k.mem_all, h⟩⟩

/-- A slave other than the ICB raises its response valid signal in the cycle after a grant. -/
theorem rvalidOf_succ (hk : k ≠ .perip) :
    rvalidOf (run base init i (n + 1)) b k = gntOf base (run base init i n) (i n) b k := by
  cases b <;> cases k <;> first | exact absurd rfl hk | rfl

theorem rvalidOf_perip_succ : rvalidOf (run base init i (n + 1)) b .perip = icbRspValid (i n) b := by
  cases b <;> exact Bool.and_true _

theorem rvalid_reset : rvalid (reset base init) b = false := by cases b <;> rfl

private theorem count_rvalid_succ (n : ℕ) : Nat.count (fun m => rvalid (run base init i m) b = true) (n + 1) =
    Nat.count (fun m => rvalid (run base init i (m + 1)) b = true) n := by
  rw [Nat.count_succ', if_neg (by simp [machine, rvalid_reset]), Nat.add_zero]

theorem rules (hd : TcmDisjoint w base) (hm : OneOutstanding base init i b) (hs : IcbAnswersOnce base init i b) :
    ∀ n, SingleOutstanding.RulesAt (granted base init i b) (fun n k => rvalidOf (run base init i (n + 1)) b k)
      (fun n => rvalid (run base init i (n + 1)) b) n := by
  refine fun n => ⟨rvalid_iff _ _, ?_, ?_⟩
  · intro k ha
    simp only [granted_eq_some_iff hd]
    by_cases hk : k = .perip
    · subst hk
      simp only [rvalidOf_perip_succ] at ha ⊢
      exact hs.accepted n ha
    · simp only [rvalidOf_succ hk] at ha ⊢
      rw [Nat.count_succ, if_pos ha]
      omega
  · intro hg
    simp only [isSome_granted] at hg ⊢
    obtain ⟨k, hk⟩ := (gnt_iff _ _ _ _).1 hg
    rw [hm n ((selected_iff _ _).1 (selected_of_gntOf _ _ _ hk)).1, count_rvalid_succ]

/-! ### The response merge -/

theorem and_mask32 (v : BitVec 32) (p : Bool) : v &&& mask32 p = if p then v else 0 := by
  cases p
  · exact BitVec.and_zero
  · exact BitVec.and_allOnes

/-- The read data of a bus on which only slave `k` responds. -/
def rdataOf (s : State w) (x : Input) (b : Bus) (k : Slave) : BitVec 32 :=
  match b, k with
  | .instr, .tcm => s.tcm.rdata .instr
  | .instr, .perip => s.cpu2pi.dataRdata
  | .data, .tcm => s.tcm.rdata .data
  | .data, .perip => s.cpu2pd.dataRdata
  | _, .dm => x.dmSlaveRdata
  | _, .dtm => s.dtmDataRdata

theorem rdata_eq {s : State w} {x : Input} (h : ∀ k', rvalidOf s b k' = true ↔ k' = k) :
    rdata s x b = rdataOf s x b k := by
  have hval : ∀ k', rvalidOf s b k' = decide (k' = k) := fun k' => by rw [Bool.eq_iff_iff, h]; simp
  cases b with
  | instr =>
    have h1 : s.tcm.tcmInstrRvalid = _ := hval .tcm
    have h2 : s.dmInstrRvalid = _ := hval .dm
    have h3 : false = _ := hval .dtm
    have h4 : s.cpu2pi.dataRvalid = _ := hval .perip
    simp only [rdata, instrRdata, and_mask32, dmInstrRdata, h1, h2, h4]
    cases k <;> simp [rdataOf] at h3 ⊢
  | data =>
    have h1 : s.tcm.tcmDataRvalid = _ := hval .tcm
    have h2 : s.dmDataRvalid = _ := hval .dm
    have h3 : s.dtmDataRvalid = _ := hval .dtm
    have h4 : s.cpu2pd.dataRvalid = _ := hval .perip
    simp only [rdata, dataRdata, and_mask32, dmDataRdata, h1, h2, h3, h4]
    cases k <;> simp [rdataOf]

/-! ### The buses serve the core -/

/-- A transaction of a slave other than the ICB is answered in the next cycle. -/
private theorem grant_eq (hm : OneOutstanding base init i b) (hk : k ≠ .perip) {g a : ℕ}
    (hr : rvalidOf (run base init i (a + 1)) b k = true) (hg : gnt base (run base init i g) (i g) b = true)
    (hc : Nat.count (fun m => gnt base (run base init i m) (i m) b = true) g =
      Nat.count (fun m => rvalid (run base init i m) b = true) (a + 1)) : g = a := by
  rw [rvalidOf_succ hk] at hr
  have hsel := (selected_iff _ _).1 (selected_of_gntOf _ _ _ hr)
  exact Nat.count_injective hg ((gnt_iff _ _ _ _).2 ⟨k, hr⟩) (hc.trans (hm a hsel.1).symm)

/-- The response of the slave that raises its valid signal in the cycle after `a`. -/
private theorem delivered (hm : OneOutstanding base init i b) {g a : ℕ} (hga : g ≤ a)
    (hr : rvalidOf (run base init i (a + 1)) b k = true)
    (hu : ∀ k', rvalidOf (run base init i (a + 1)) b k' = true ↔ k' = k)
    (hg : gntOf base (run base init i g) (i g) b k = true)
    (hc : Nat.count (fun m => gnt base (run base init i m) (i m) b = true) g =
      Nat.count (fun m => rvalid (run base init i m) b = true) (a + 1))
    (hck : Nat.count (fun m => gntOf base (run base init i m) (i m) b k = true) g =
      Nat.count (fun m => rvalidOf (run base init i (m + 1)) b k = true) a) :
    Delivered base init i b k g (a + 1) := by
  have hrdata := rdata_eq (x := i (a + 1)) hu
  have heq : k ≠ .perip → g = a := fun hk =>
    grant_eq hm hk hr ((gnt_iff _ _ _ _).2 ⟨k, hg⟩) hc
  cases k with
  | tcm =>
    obtain rfl := heq (by decide)
    refine ⟨rfl, hrdata.trans ?_⟩
    cases b with
    | instr => exact if_pos hg
    | data => exact if_pos hg
  | dm =>
    obtain rfl := heq (by decide)
    cases b with
    | instr =>
      obtain ⟨hsel, hreq⟩ := Bool.and_eq_true_iff.1 (show (_ && _) = true from hg)
      refine ⟨rfl, by simp [dmSlaveReq, hsel, hreq], by simp [dmSlaveAddr, hsel, Tcm.Input.addr], ?_, hrdata⟩
      rintro (_ | _) hb
      · exact absurd rfl hb
      · simp [gntOf, dmDataGnt, hsel]
    | data =>
      obtain ⟨hsel, hreq⟩ := Bool.and_eq_true_iff.1 (show (_ && _) = true from hg)
      rw [Bool.not_eq_true'] at hsel
      refine ⟨rfl, by simp [dmSlaveReq, hsel, hreq], by simp [dmSlaveAddr, hsel, Tcm.Input.addr], ?_, hrdata⟩
      rintro (_ | _) hb
      · simp [gntOf, dmInstrGnt, hsel]
      · exact absurd rfl hb
  | dtm =>
    obtain rfl := heq (by decide)
    refine ⟨rfl, hrdata.trans ?_⟩
    cases b with
    | instr => exact absurd hg (by simp [gntOf])
    | data => exact if_pos hr
  | perip =>
    rw [rvalidOf_perip_succ] at hr
    simp only [rvalidOf_perip_succ] at hck
    refine ⟨a, rfl, hga, hr, hck, hrdata.trans ?_⟩
    cases b with
    | instr => exact if_pos (Bool.and_eq_true_iff.2 ⟨hr, rfl⟩)
    | data => exact if_pos (Bool.and_eq_true_iff.2 ⟨hr, rfl⟩)

private theorem answered_eventually (hs : IcbAnswersOnce base init i b) (k : Slave) (n : ℕ) :
    ∃ m, Nat.count (fun m => gntOf base (run base init i m) (i m) b k = true) n ≤
      Nat.count (fun m => rvalidOf (run base init i (m + 1)) b k = true) m := by
  by_cases hk : k = .perip
  · subst hk
    simp only [rvalidOf_perip_succ]
    exact hs.eventually n
  · simp only [rvalidOf_succ hk]
    exact ⟨n, le_rfl⟩

/-- Each bus of the core complex serves the core, whatever the addresses, in every run in which the core keeps to one
outstanding transaction on each bus and each ICB gives one response for each command. -/
theorem buses_served (hd : TcmDisjoint w base) (hm : ∀ b, OneOutstanding base init i b)
    (hs : ∀ b, IcbAnswersOnce base init i b) (b : Bus) : BusServed base init i b := by
  have hr := rules hd (hm b) (hs b)
  refine ⟨fun n k k' => selected_unique hd, ?_, ?_⟩
  · intro m hv
    obtain ⟨a, rfl⟩ : ∃ a, m = a + 1 := by
      cases m with
      | zero => exact absurd hv (by simp [machine, rvalid_reset])
      | succ a => exact ⟨a, rfl⟩
    obtain ⟨k, hk⟩ := (rvalid_iff _ _).1 hv
    obtain ⟨g, hga, hg, hc, hck⟩ := SingleOutstanding.exists_grant hr hk
    simp only [isSome_granted, ← count_rvalid_succ] at hc
    simp only [granted_eq_some_iff hd] at hck
    rw [granted_eq_some_iff hd] at hg
    have hu : ∀ k', rvalidOf (run base init i (a + 1)) b k' = true ↔ k' = k :=
      fun k' => ⟨fun h => SingleOutstanding.answer_unique hr h hk, fun h => h ▸ hk⟩
    exact ⟨g, by omega, k, hg, selected_of_gntOf _ _ _ hg, hc, hu, delivered (hm b) hga hk hu hg hc hck⟩
  · intro g hg
    obtain ⟨k, hk⟩ := (gnt_iff _ _ _ _).1 hg
    have hlive := answered_eventually (hs b) k
    simp only [← granted_eq_some_iff hd] at hlive hk
    obtain ⟨a, hga, hv, hc⟩ := SingleOutstanding.exists_answer hr hlive hk
    simp only [isSome_granted, ← count_rvalid_succ] at hc
    exact ⟨a + 1, ⟨by omega, hv, hc⟩, fun m ⟨_, hv', hc'⟩ => Nat.count_injective hv' hv (hc'.trans hc.symm)⟩

/-- Two fetches from the TCM, a read of a peripheral with its response in cycle 2, and a write to the TCM in the cycle
after. -/
def busTraffic (n : ℕ) : Input where
  core :=
    { instrReq := n == 0 || n == 1, instrAddr := 0x80000000#32, dataReq := n == 0 || n == 3, dataWe := n == 3,
      dataBe := 0b1111#4, dataAddr := if n = 0 then 0x10000000#32 else 0x80000004#32, dataWdata := 7 }
  piIcbCmdReady := true
  piIcbRspValid := false
  piIcbRspRdata := 0
  pdIcbCmdReady := true
  pdIcbRspValid := n == 2
  pdIcbRspRdata := 5
  dmSlaveRdata := 0
  dmDbgIrq := 0
  sysDtmReqReady := true
  sysDtmRespValid := false
  sysDtmResp := 0

theorem tcmDisjoint_busTraffic : TcmDisjoint 15 0x80000000#32 := by
  intro b k v addr hk hv hin
  have hsep : v.2.getLsbD 31 = false ∧ v.1.getLsbD 31 = false := by
    cases b <;> cases k <;> simp only [window, Option.mem_def, Option.some.injEq, reduceCtorEq] at hv <;>
      first | exact absurd rfl hk | (subst hv; decide)
  exact not_inWindow 31 hsep.1 (by decide) (by decide) (by rw [hsep.2]; decide) hin

theorem oneOutstanding_busTraffic (b : Bus) : OneOutstanding (w := 15) 0x80000000#32 (fun _ => 0) busTraffic b := by
  intro n hn
  cases b with
  | instr =>
    obtain rfl | rfl : n = 0 ∨ n = 1 := by simpa [req, busTraffic] using hn
    all_goals decide
  | data =>
    obtain rfl | rfl : n = 0 ∨ n = 3 := by simpa [req, busTraffic] using hn
    all_goals decide

/-- The only command on the peripheral buses is the one of cycle 0. -/
private theorem perip_busTraffic {s : State 15} {n : ℕ}
    (h : gntOf 0x80000000#32 s (busTraffic n) b .perip = true) : b = .data ∧ n = 0 := by
  obtain ⟨-, v, hv, hin⟩ := (selected_iff _ _).1 (selected_of_gntOf _ _ _ h)
  cases b with
  | instr =>
    obtain rfl := Option.mem_some_iff.1 hv
    exact absurd (show inWindow _ 0x80000000#32 = true from hin) (by decide)
  | data =>
    refine ⟨rfl, ?_⟩
    by_contra hn
    obtain rfl := Option.mem_some_iff.1 hv
    have haddr : (busTraffic n).core.addr .data = 0x80000004#32 := by simp [busTraffic, Tcm.Input.addr, hn]
    rw [haddr] at hin
    exact absurd hin (by decide)

theorem icbAnswersOnce_busTraffic (b : Bus) :
    IcbAnswersOnce (w := 15) 0x80000000#32 (fun _ => 0) busTraffic b := by
  refine ⟨fun n hn => ?_, fun n => ⟨3, ?_⟩⟩
  · cases b with
    | instr => exact absurd hn (by simp [icbRspValid, busTraffic])
    | data =>
      obtain rfl : n = 2 := by simpa [icbRspValid, busTraffic] using hn
      decide
  · cases b with
    | instr =>
      rw [Nat.count_of_forall_not fun m _ h => absurd (perip_busTraffic h).1 (by decide)]
      exact Nat.zero_le _
    | data =>
      cases n with
      | zero => exact Nat.zero_le _
      | succ n =>
        rw [Nat.count_succ', Nat.count_of_forall_not fun m _ h => absurd (perip_busTraffic h).2 (by omega)]
        decide

theorem buses_served_busTraffic : BusServed (w := 15) 0x80000000#32 (fun _ => 0) busTraffic .instr ∧
    BusServed (w := 15) 0x80000000#32 (fun _ => 0) busTraffic .data :=
  ⟨buses_served tcmDisjoint_busTraffic oneOutstanding_busTraffic icbAnswersOnce_busTraffic .instr,
    buses_served tcmDisjoint_busTraffic oneOutstanding_busTraffic icbAnswersOnce_busTraffic .data⟩

end Coreplex
