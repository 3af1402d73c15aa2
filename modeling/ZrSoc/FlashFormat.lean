import ZrSoc.FlashFrames

/-!
# The format of a flash read

With the format registers held during a read, its frames are those of the format exactly if the read continues the
previous one, or it is not merged and the command is enabled (as the flash map sees it when it takes the read) or there
is no address (`followsFormat_iff`).  The counter of the address bytes is loaded with the command only, and a read is
merged with whatever left its address in the register, also if the chip select has been released since.
-/

namespace FlashMap

/-- The frames and waiting states still ahead, with room for every address length. -/
def rank (s : State) : ℕ :=
  match s.state with
  | .idle => 0
  | .cmd => 20
  | .addr => 3 + s.cnt.toNat
  | .pad => 2
  | .pre => 1
  | .dataPost => 0

variable {s : State} {x : Input}

/-- Without a ready link a state with a frame to send is kept. -/
theorem edge_of_not_ready (hv : linkTxValid s = true) (hx : x.linkTxReady = false) :
    (edge s x).state = s.state ∧ (edge s x).cnt = s.cnt := by
  cases hs : s.state with
  | addr =>
    have hc : s.cnt ≠ 0#4 := by simpa [linkTxValid, hs] using hv
    simp [edge, hs, hx, cntDone, sends, hc]
  | cmd => simp [edge, hs, hx]
  | pad => simp [edge, hs, hx]
  | pre => simp [edge, hs, hx]
  | idle => simp [linkTxValid, hs] at hv
  | dataPost => simp [linkTxValid, hs] at hv

theorem rank_edge_lt (hv : linkTxValid s = true) (hx : x.linkTxReady = true) :
    rank (edge s x) < rank s ∧ (edge s x).state ≠ .idle := by
  cases hs : s.state with
  | cmd =>
    simp only [rank, edge, hs, hx]
    refine ⟨?_, by simp⟩
    have := (BitVec.setWidth 4 (ctrl s x).addrLen).isLt
    simp only [beq_self_eq_true, Bool.and_self, ↓reduceIte]
    omega
  | addr =>
    have hc : s.cnt ≠ 0#4 := by simpa [linkTxValid, hs] using hv
    by_cases hc1 : s.cnt = 1#4
    · simp [rank, edge, hs, hx, cntDone, hc1]
    · have hlt : (s.cnt - 1#4).toNat < s.cnt.toNat := by bv_omega
      simpa [rank, edge, hs, hx, cntDone, hc, hc1, sends, linkTxValid] using hlt
  | pad => simp [rank, edge, hs, hx]
  | pre => simp [rank, edge, hs, hx]
  | idle => simp [linkTxValid, hs] at hv
  | dataPost => simp [linkTxValid, hs] at hv

end FlashMap

namespace FlashPort

open Sync TileLink
open FlashMap (Format Frame rank)

variable (i : ℕ → Input)

/-- What the flash map relies on at the link: it is ready under an active chip select only, and after a clear it is
not ready until the chip select was inactive. -/
structure LinkOk : Prop where
  active : ∀ n, (i n).linkTxReady = true → (i n).linkActive = true
  clears : ∀ t m, t < m → (link (run i t) (i t)).csClear = true → (i t).linkActive = true →
    (i m).linkTxReady = true → ∃ k, t < k ∧ k < m ∧ (i k).linkActive = false

/-- The link takes every frame in the end, and the byte received is handed on. -/
structure Fair : Prop where
  tx : ∀ n, (link (run i n) (i n)).txValid = true → ∃ m, n ≤ m ∧ (i m).linkTxReady = true
  rx : ∀ n, (run i n).map.state = .dataPost → ∃ m, n ≤ m ∧ (i m).linkRxValid = true ∧ (i m).dReady = true

/-- The format registers hold `f` during the transaction from `t` to `e`. -/
def Held (t e : ℕ) (f : Format) : Prop := ∀ m, t ≤ m → m ≤ e → (i m).ctrl = f

/-- The read from `t` to `e` continues the last one taken before, that of cycle `t'`: its address is the next one, and
the link has been active from the data frame of the one, in cycle `d'`, to that of the other, in cycle `d`. -/
def Continues (t e : ℕ) : Prop := ∃ t' d' d, Takes i t' ∧ (∀ m, t' < m → m < t → ¬ Takes i m) ∧
  DataFrame i d' ∧ DataFrame i d ∧ t' < d' ∧ d' < t ∧ t < d ∧ d < e ∧
  addrAt i t = addrAt i t' + 1#32 ∧ ∀ k, d' ≤ k → k ≤ d → (i k).linkActive = true

/-- The transaction from `t` to `e` has the frames of the format `f`, and the byte of its data frame is the answer.  A
read that continues the previous one is its data frame only, still in the format of the chip select. -/
structure FollowsFormat (t e : ℕ) (f : Format) : Prop where
  continued : Continues i t e → framesFrom i t (e + 1 - t) = [(run i t).map.latched.dataFrame]
  fresh : ¬ Continues i t e → framesFrom i t (e + 1 - t) = f.frames (addrAt i t)
  answer : (i e).linkRxValid = true ∧ (dBits (run i e) (i e)).data = (i e).linkRxBits

variable {i} {t e m n k : ℕ} {f : Format}

/-! ### Every read is answered -/

/-- A state with a frame to send waits for the link, and then it has one frame less to send. -/
private theorem exists_rank_lt (hf : Fair i) (hv : FlashMap.linkTxValid (run i n).map = true) :
    ∃ m, n ≤ m ∧ (run i m).map.state ≠ .idle ∧ rank (run i m).map < rank (run i n).map := by
  obtain ⟨k, hnk, ⟨hst, hcnt⟩, hx, -⟩ := exists_until
    (P := fun k => (run i k).map.state = (run i n).map.state ∧ (run i k).map.cnt = (run i n).map.cnt)
    ⟨rfl, rfl⟩ (fun j _ ⟨hs, hc⟩ hx => by
      have hvj : FlashMap.linkTxValid (run i j).map = true := by
        rw [← hv, FlashMap.linkTxValid, FlashMap.linkTxValid, hs, hc]
      obtain ⟨hs', hc'⟩ := FlashMap.edge_of_not_ready (x := ports i j) hvj (Bool.eq_false_iff.2 hx)
      exact ⟨hs'.trans hs, hc'.trans hc⟩) (hf.tx n hv)
  have hvk : FlashMap.linkTxValid (run i k).map = true := by
    rw [← hv, FlashMap.linkTxValid, FlashMap.linkTxValid, hst, hcnt]
  have hrk : rank (run i k).map = rank (run i n).map := by rw [rank, rank, hst, hcnt]
  obtain ⟨hlt, hi⟩ := FlashMap.rank_edge_lt (x := ports i k) hvk hx
  exact ⟨k + 1, by omega, hi, hrk ▸ hlt⟩

/-- The byte of a read is received and handed on at some time. -/
private theorem exists_answers_of_dataPost (hf : Fair i) (hs : (run i n).map.state = .dataPost) :
    ∃ e, n ≤ e ∧ Answers i e := by
  obtain ⟨k, hnk, hst, hx, -⟩ := exists_until (P := fun k => (run i k).map.state = .dataPost) hs
    (fun j _ hj hx => by
      refine FlashMap.dataPost_edge hj ?_
      rw [FlashMap.answers, hj, Bool.eq_false_iff]
      exact fun h => hx (by simpa [ports, mapInput] using h)) (hf.rx n hs)
  exact ⟨k, hnk, (answers_iff (by simp [hst])).2 (by simp [FlashMap.answers, hst, ports, mapInput, hx])⟩

private theorem exists_answers (hf : Fair i) (hi : (run i n).map.state ≠ .idle) : ∃ e, n ≤ e ∧ Answers i e := by
  refine exists_of_progress (P := fun k => (run i k).map.state ≠ .idle) (fun k => rank (run i k).map) hi
    fun k _ hk => ?_
  cases hv : FlashMap.linkTxValid (run i k).map with
  | true => exact Or.inr (exists_rank_lt hf hv)
  | false =>
    cases hs : (run i k).map.state with
    | addr =>
      -- no byte of the address is left
      have hc : (run i k).map.cnt = 0#4 := by simpa [FlashMap.linkTxValid, hs] using hv
      have hs' : (run i (k + 1)).map.state = .pad := by
        simp [run_succ_map, FlashMap.edge, hs, FlashMap.cntDone, hc]
      exact Or.inr ⟨k + 1, by omega, by simp [hs'], by simp [rank, hs, hs', hc]⟩
    | dataPost => exact Or.inl (exists_answers_of_dataPost hf hs)
    | idle => exact absurd hs hk
    | cmd => simp [FlashMap.linkTxValid, hs] at hv
    | pad => simp [FlashMap.linkTxValid, hs] at hv
    | pre => simp [FlashMap.linkTxValid, hs] at hv

/-- Over a fair link every read that the flash map takes is answered. -/
theorem exists_transaction (hf : Fair i) (ht : Takes i t) : ∃ e, Transaction i t e := by
  obtain ⟨-, hi, -, -⟩ := ht.next (f := ctrlAt i t)
  obtain ⟨r, hr, ha⟩ := exists_answers (n := t + 1) hf hi
  obtain ⟨e, he, -, hae, hmin⟩ := exists_first hr ha
  exact ⟨e, ht, by omega, hae, fun m h1 h2 => hmin m (by omega) h2⟩

/-! ### The format of the frames -/

/-- While the link is active the copy of the format is kept. -/
private theorem latched_keep (ht : t ≤ m) (ha : ∀ k, t ≤ k → k < m → (i k).linkActive = true) :
    (run i m).map.latched = (run i t).map.latched := by
  induction m, ht using Nat.le_induction with
  | base => rfl
  | succ m hm ih =>
    rw [run_succ_map, ← ih fun k h1 h2 => ha k h1 (by omega)]
    simp [FlashMap.edge, ports, mapInput, ha m hm (by omega)]

/-- Once the link was inactive the copy of the format is up to date. -/
private theorem latched_eq (hF : Held i t e f) (hk : t ≤ k) (ha : (i k).linkActive = false) (hkm : k < m) (hm : m ≤ e) :
    (run i m).map.latched = f := by
  induction m, hkm using Nat.le_induction with
  | base => simp [run_succ_map, FlashMap.edge, ports, mapInput, ha, hF k hk (by omega)]
  | succ m hm' ih =>
    rw [run_succ_map]
    cases ha : (i m).linkActive with
    | true => simpa [FlashMap.edge, ports, mapInput, ha] using ih (by omega)
    | false => simp [FlashMap.edge, ports, mapInput, ha, hF m (by omega) (by omega)]

private theorem Sends.ready (h : Sends i m) : (i m).linkTxReady = true :=
  (Bool.and_eq_true_iff.1 (h : FlashMap.sends _ _ = true)).1

private theorem LinkOk.ctrlAt_eq (hl : LinkOk i) (h : Sends i m) : ctrlAt i m = (run i m).map.latched :=
  if_pos (hl.active m h.ready)

/-- The flash map clears the chip select for a read that is not merged. -/
private theorem Takes.csClear (ht : Takes i t) (hm : ¬ Merges i t) : (link (run i t) (i t)).csClear = true := by
  obtain ⟨hs, hen, hv⟩ := ht
  have hnm : FlashMap.merge (mapInput (run i t) (i t)) = false := Bool.eq_false_iff.2 hm
  have hen' : (mapInput (run i t) (i t)).en = true := hen
  have hv' : (mapInput (run i t) (i t)).addrValid = true := hv
  simp [link, FlashMap.link, FlashMap.linkCsClear, FlashMap.sIdle, hs, hnm, hen', hv']

/-- The frames of a read that is not merged follow the format registers. -/
private theorem LinkOk.ctrlAt_fresh (hl : LinkOk i) (ht : Takes i t) (hm : ¬ Merges i t) (hF : Held i t e f)
    (htm : t < m) (hme : m ≤ e) (h : Sends i m) : ctrlAt i m = f := by
  rw [hl.ctrlAt_eq h]
  cases ha : (i t).linkActive with
  | false => exact latched_eq hF le_rfl ha htm hme
  | true =>
    obtain ⟨k, hk1, hk2, hka⟩ := hl.clears t m htm (ht.csClear hm) ha h.ready
    exact latched_eq hF (by omega) hka hk2 hme

/-- A read that continues the previous one is merged: without that the chip select would have been cleared. -/
theorem Continues.merges (h : Continues i t e) (hl : LinkOk i) (ht : Takes i t) : Merges i t := by
  obtain ⟨t', d', d, -, -, -, hd, -, hd't, htd, -, -, hact⟩ := h
  by_contra hm
  obtain ⟨k, hk1, hk2, hka⟩ := hl.clears t d htd (ht.csClear hm) (hact t hd't.le htd.le) hd.1.ready
  rw [hact k (by omega) hk2.le] at hka
  exact absurd hka (by simp)

/-- No read of the memory map and no request while it is off changes the address in the register. -/
theorem aAddress_of_quiet (ht : Takes i t) (hlast : ∀ m, t < m → m < n → ¬ Takes i m)
    (hen : ∀ m, t < m → m < n → (i m).en = true) (htn : t < n) : (run i n).aAddress = (i t).aBits.address := by
  induction n, htn using Nat.le_induction with
  | base => exact (ht.next (f := ctrlAt i t)).1
  | succ n hn ih =>
    rw [← ih (fun m h1 h2 => hlast m h1 (by omega)) fun m h1 h2 => hen m h1 (by omega)]
    have hno : (aReady (run i n) (i n) && (i n).aValid) = false := by
      have hnt := hlast n hn (Nat.lt_succ_self n)
      have he := hen n hn (Nat.lt_succ_self n)
      by_contra h
      simp only [Bool.not_eq_false, Bool.and_eq_true] at h
      refine hnt ⟨?_, he, h.2⟩
      by_contra hi
      simp [aReady, FlashMap.addrReady, FlashMap.sIdle, hi] at h
    rw [run, Machine.run_succ]
    exact if_neg (by rw [hno]; simp)

/-- While the memory map is on and the link active, a read is merged exactly if it continues the last one. -/
theorem continues_iff_merges (hl : LinkOk i) (h : Transaction i t e) (ht : Takes i k)
    (hlast : ∀ m, k < m → m < t → ¬ Takes i m) (hen : ∀ m, k < m → m < t → (i m).en = true) (hd : DataFrame i n)
    (hkn : k < n) (hnt : n < t) (hact : ∀ m, n ≤ m → m < e → (i m).linkActive = true) :
    Continues i t e ↔ Merges i t := by
  refine ⟨fun hc => hc.merges hl h.takes, fun hm => ?_⟩
  obtain ⟨p, htp, hpe, hp, -, -⟩ := h.framesFrom_of_merges hm
  have haddr : addrAt i t = addrAt i k + 1#32 := by
    have hreg := aAddress_of_quiet ht hlast hen (by omega)
    have hm' := (Bool.and_eq_true_iff.1 (show FlashMap.merge (ports i t) = true from hm)).2
    rw [beq_iff_eq] at hm'
    rw [addrAt, addrAt, ← hreg]
    exact hm'
  exact ⟨k, n, p, ht, hlast, hd, hp, hkn, hnt, htp, hpe, haddr, fun m h1 h2 => hact m h1 (by omega)⟩

/-- The frames are those of the format if the command was found as it is in the registers, and with no command
there is no address. -/
private theorem sentFrames_eq_iff {addr : BitVec 32} {b : Bool} :
    sentFrames f addr false b = f.frames addr ↔ b = f.cmdEn ∧ (f.cmdEn = true ∨ f.addrLen = 0#3) := by
  constructor
  · intro h
    have hlen := congrArg List.length h
    have hcmd : b = f.cmdEn := by
      cases b <;> cases hcmd : f.cmdEn <;> simp [sentFrames, Format.frames, hcmd] at hlen ⊢
    refine ⟨hcmd, ?_⟩
    cases hf : f.cmdEn with
    | true => exact .inl rfl
    | false =>
      right
      have h0 : f.addrLen.toNat = 0 := by simpa [sentFrames, Format.frames, hcmd, hf] using hlen
      exact BitVec.eq_of_toNat_eq h0
  · rintro ⟨rfl, hf | hf⟩
    · simp [sentFrames, Format.frames, hf]
    · cases hcmd : f.cmdEn <;> simp [sentFrames, Format.frames, hcmd, hf, Format.addrFrames]

private theorem two_le_length_frames (addr : BitVec 32) : 2 ≤ (f.frames addr).length := by
  simp only [Format.frames, List.length_append, List.length_cons, List.length_nil]
  omega

/-- Over every link, a read has the frames of the format held in the registers if and only if it continues the
previous one, or it is not merged, the flash map saw the command enable of the registers when it took the read, and the
command is enabled or there is no address.  Over a fair link, every read has an answer. -/
theorem followsFormat_iff (hl : LinkOk i) (ht : Takes i t) :
    (Fair i → ∃ e, Transaction i t e) ∧
      ∀ e f, Transaction i t e → Held i t e f →
        (FollowsFormat i t e f ↔ Continues i t e ∨
          ¬ Merges i t ∧ (ctrlAt i t).cmdEn = f.cmdEn ∧ (f.cmdEn = true ∨ f.addrLen = 0#3)) := by
  refine ⟨fun hf => exists_transaction hf ht, fun e f h hF => ?_⟩
  obtain ⟨hst, hrx, -⟩ := h.answered
  have hanswer : (i e).linkRxValid = true ∧ (dBits (run i e) (i e)).data = (i e).linkRxBits :=
    ⟨hrx, by simp [dBits, FlashMap.dataBits, FlashMap.sIdle, hst, mapInput]⟩
  by_cases hm : Merges i t
  · obtain ⟨p, hp1, hp2, hp, hfr, hone⟩ := h.framesFrom_of_merges hm
    by_cases hc : Continues i t e
    · refine ⟨fun _ => .inl hc, fun _ => ⟨fun _ => ?_, fun hn => absurd hc hn, hanswer⟩⟩
      obtain ⟨-, d', d, -, -, -, hd, -, hd't, htd, hde, -, hact⟩ := hc
      obtain rfl := hone d htd hde hd.1
      rw [hfr, hl.ctrlAt_eq hp.1, latched_keep hp1.le fun k h1 h2 => hact k (by omega) h2.le]
    · refine ⟨fun h => ?_, fun h => h.elim (fun h => absurd h hc) fun h => absurd hm h.1⟩
      -- a single frame is not a whole read
      have hlen := two_le_length_frames (f := f) (addrAt i t)
      rw [← h.fresh hc, hfr] at hlen
      exact absurd hlen (by simp)
  · have hc : ¬ Continues i t e := fun hc => hm (hc.merges hl ht)
    have hmf : FlashMap.merge (ports i t) = false := Bool.eq_false_iff.2 hm
    have hfr := h.framesFrom_eq fun m h1 h2 hs => hl.ctrlAt_fresh ht hm hF h1 h2.le hs
    rw [hmf] at hfr
    rw [or_iff_right hc, and_iff_right hm, ← sentFrames_eq_iff, ← hfr]
    exact ⟨fun h => h.fresh hc, fun h => ⟨fun hn => absurd hn hc, fun _ => h, hanswer⟩⟩

/-! ### A read without a command -/

/-- Three address bytes, and no command. -/
def uncommanded : Format where
  cmdProto := 0#2
  cmdCode := 3#8
  cmdEn := false
  addrProto := 0#2
  addrLen := 3#3
  padCode := 0#8
  padCnt := 0#4
  dataProto := 0#2
  endian := false

/-- One read of address `0x123456`, over a link that is ready from the next cycle on. -/
def uncommandedRead (n : ℕ) : Input where
  en := true
  ctrl := uncommanded
  aValid := n == 0
  aBits :=
    { opcode := opGet, param := 0#3, size := 0#3, source := 0#7, address := 0x123456#30, mask := 1#1, data := 0#8 }
  dReady := true
  linkTxReady := n != 0
  linkRxValid := true
  linkRxBits := 0xa5#8
  linkActive := n != 0

theorem linkOk_uncommandedRead : LinkOk uncommandedRead where
  active _ h := h
  clears t m _ hc ha _ := by
    have ht : (uncommandedRead t).aValid = false := by
      simpa [uncommandedRead] using ha
    simp [link, FlashMap.link, FlashMap.linkCsClear, mapInput, ht] at hc

theorem fair_uncommandedRead : Fair uncommandedRead where
  tx n _ := ⟨n + 1, by omega, by simp [uncommandedRead]⟩
  rx n _ := ⟨n, le_rfl, rfl, rfl⟩

private theorem transaction_uncommandedRead : Transaction uncommandedRead 0 4 where
  takes := ⟨rfl, rfl, rfl⟩
  lt := by decide
  answers := ⟨by decide, rfl⟩
  pending m h1 h2 := by
    interval_cases m <;> exact fun h => absurd h.1 (by decide)

/-- The format asks for three address bytes and the link gets none. -/
theorem frames_uncommandedRead : LinkOk uncommandedRead ∧ Fair uncommandedRead ∧ Transaction uncommandedRead 0 4 ∧
    Held uncommandedRead 0 4 uncommanded ∧ ¬ Continues uncommandedRead 0 4 ∧
    framesFrom uncommandedRead 0 5 = [uncommanded.padFrame, uncommanded.dataFrame] ∧
    ¬ FollowsFormat uncommandedRead 0 4 uncommanded := by
  have hc : ¬ Continues uncommandedRead 0 4 := fun ⟨_, _, _, _, _, _, _, _, hlt, _⟩ => absurd hlt (by omega)
  refine ⟨linkOk_uncommandedRead, fair_uncommandedRead, transaction_uncommandedRead, fun _ _ _ => rfl, hc, by decide,
    fun h => ?_⟩
  exact absurd (h.fresh hc) (by decide)

/-! ### Reads with a command -/

/-- A command and one address byte. -/
def commanded : Format := { uncommanded with cmdEn := true, addrLen := 1#3 }

/-- A read of address `0x10` in cycle 0 and one of address `0x11` in cycle 7, over a link that is ready from cycle 1
on, unless the chip select is released in cycle 6. -/
def twoReads (released : Bool) (n : ℕ) : Input where
  en := true
  ctrl := commanded
  aValid := n == 0 || n == 7
  aBits :=
    { opcode := opGet, param := 0#3, size := 0#3, source := 0#7, address := if n < 7 then 0x10#30 else 0x11#30,
      mask := 1#1, data := 0#8 }
  dReady := true
  linkTxReady := n != 0 && n != 6
  linkRxValid := true
  linkRxBits := BitVec.ofNat 8 n
  linkActive := n != 0 && !(released && n == 6)

variable {b : Bool}

theorem linkOk_twoReads : LinkOk (twoReads b) where
  active n h := by
    simp only [twoReads, Bool.and_eq_true, bne_iff_ne] at h
    simp [twoReads, h.1, h.2]
  clears t m _ hc ha _ := by
    rcases Nat.eq_zero_or_pos t with rfl | h0
    · exact absurd ha (by simp [twoReads])
    by_cases h7 : t = 7
    · subst h7
      exact absurd hc (by cases b <;> decide)
    · have ht : (twoReads b t).aValid = false := by
        simp [twoReads, h7]
        omega
      simp [link, FlashMap.link, FlashMap.linkCsClear, mapInput, ht] at hc

theorem fair_twoReads : Fair (twoReads b) where
  tx n _ := ⟨n + 7, by omega, by simp [twoReads]⟩
  rx n _ := ⟨n, le_rfl, rfl, rfl⟩

private theorem transaction_first : Transaction (twoReads b) 0 5 where
  takes := ⟨rfl, rfl, rfl⟩
  lt := by decide
  answers := ⟨by cases b <;> decide, rfl⟩
  pending m h1 h2 := by
    interval_cases m <;> exact fun h => absurd h.1 (by cases b <;> decide)

private theorem transaction_second : Transaction (twoReads b) 7 9 where
  takes := ⟨by cases b <;> decide, rfl, rfl⟩
  lt := by decide
  answers := ⟨by cases b <;> decide, rfl⟩
  pending m h1 h2 := by
    interval_cases m
    exact fun h => absurd h.1 (by cases b <;> decide)

private theorem dataFrame_twoReads : DataFrame (twoReads false) 4 ∧ DataFrame (twoReads false) 8 :=
  ⟨⟨show FlashMap.sends _ _ = true by decide, by decide⟩, show FlashMap.sends _ _ = true by decide, by decide⟩

private theorem continues_second : Continues (twoReads false) 7 9 := by
  refine ⟨0, 4, 8, transaction_first.takes, fun m h1 h2 h => ?_, dataFrame_twoReads.1, dataFrame_twoReads.2, by decide,
    by decide, by decide, by decide, by decide, fun k h1 h2 => ?_⟩
  · have hv : (twoReads false m).aValid = true := h.2.2
    simp only [twoReads, Bool.or_eq_true, beq_iff_eq] at hv
    omega
  · interval_cases k <;> rfl

/-- The first read has a command, an address byte, a pad frame and a data frame, the second one, which continues it, a
data frame. -/
theorem followsFormat_twoReads : (∃ e, Transaction (twoReads false) 0 e) ∧
    framesFrom (twoReads false) 0 6 =
      [commanded.cmdFrame, commanded.addrFrame 0x10#32 0, commanded.padFrame, commanded.dataFrame] ∧
    FollowsFormat (twoReads false) 0 5 commanded ∧
    framesFrom (twoReads false) 7 3 = [commanded.dataFrame] ∧ FollowsFormat (twoReads false) 7 9 commanded := by
  obtain ⟨hall, hfirst⟩ := followsFormat_iff linkOk_twoReads (transaction_first (b := false)).takes
  obtain ⟨-, hsecond⟩ := followsFormat_iff linkOk_twoReads (transaction_second (b := false)).takes
  have hm : ¬ FlashMap.merge (ports (twoReads false) 0) = true := by decide
  exact ⟨hall fair_twoReads, by decide,
    (hfirst 5 commanded transaction_first fun _ _ _ => rfl).2 (Or.inr ⟨hm, by decide, Or.inl rfl⟩), by decide,
    (hsecond 9 commanded transaction_second fun _ _ _ => rfl).2 (Or.inl continues_second)⟩

/-- With the chip select released in between, the second read still is its data frame only. -/
theorem frames_released : Transaction (twoReads true) 7 9 ∧ ¬ Continues (twoReads true) 7 9 ∧
    framesFrom (twoReads true) 7 3 = [commanded.dataFrame] ∧ ¬ FollowsFormat (twoReads true) 7 9 commanded := by
  have hc : ¬ Continues (twoReads true) 7 9 := by
    rintro ⟨t', d', d, ht', -, -, -, h1, h2, h3, -, -, hact⟩
    have hv : (twoReads true t').aValid = true := ht'.2.2
    simp only [twoReads, Bool.or_eq_true, beq_iff_eq] at hv
    exact absurd (hact 6 (by omega) (by omega)) (by decide)
  exact ⟨transaction_second, hc, by decide, fun h => absurd (h.fresh hc) (by decide)⟩

end FlashPort
