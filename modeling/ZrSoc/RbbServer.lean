import ZrSoc.Sync.Log

/-!
# The remote bitbang server of the simulator (`verilator/rbb_server.cpp`)

The server reads the commands of its client one byte at a time, has its backend execute them and sends the replies.  The
backend is the one of `verilator/sim.cpp`, which makes the server finish when it is told to quit.

The result of `read` at the end of the stream is not told from that for a byte, so the server goes on with what its
variable `c` holds; it closes the connection on the command `Q` only (`obeys_iff`).
-/

namespace RbbServer

open Sync

/-- The calls of the backend. -/
inductive Call
  | quit
  | reset
  | blink (on : ℕ)
  | setInputs (tck tms tdi : ℕ)
  | getTdo
  deriving DecidableEq, Repr

/-- What the server does for its client. -/
inductive Action
  | call (c : Call)
  | reply (c : Char)
  deriving DecidableEq, Repr

/-- The result of `read`. -/
inductive ReadResult
  | byte (b : BitVec 8)
  | eof
  | error
  deriving DecidableEq, Repr

/-- The file descriptors are 0 when they are closed; `backend` is whether a backend is registered. -/
structure Server where
  sockfd : ℕ
  clientfd : ℕ
  backend : Bool
  deriving DecidableEq, Repr

/-- What a call of `respond` finds: the result of `read`, what `c` holds before and whether `getTdo` is not 0. -/
structure Input where
  read : ReadResult
  stale : BitVec 8
  tdo : Bool

/-- What `accept` waits for: a client or the pipe that ends the server. -/
inductive Event
  | client (fd : ℕ)
  | pipe

/-- The labels of the `switch` in `respond`. -/
inductive Command
  | quit
  | reset
  | blink (on : ℕ)
  | setInputs (tck tms tdi : ℕ)
  | read
  | unknown
  deriving DecidableEq, Repr

variable (s : Server)

/-- The constructor; the backend is registered if its `setServer` returns 0. -/
def make (setServer : Option ℕ) : Server where
  sockfd := 0
  clientfd := 0
  backend := setServer == some 0

def finished : Bool := s.sockfd == 0 && s.clientfd == 0

def finish : Server := if s.sockfd != 0 then { s with sockfd := 0, clientfd := 0 } else s

def listen (fd : ℕ) : Server := { s with sockfd := fd }

def accept (events : List Event) : Server :=
  if s.clientfd == 0 && s.sockfd != 0 then
    events.foldl (fun s e =>
      match e with
      | .client fd => if s.sockfd != 0 then { s with clientfd := fd } else finish s
      | .pipe => finish s) s
  else s

def switch (c : BitVec 8) : Command :=
  match Char.ofNat c.toNat with
  | 'Q' => .quit
  | 'r' => .reset
  | 'B' => .blink 1
  | 'b' => .blink 0
  | '0' => .setInputs 0 0 0
  | '1' => .setInputs 0 0 1
  | '2' => .setInputs 0 1 0
  | '3' => .setInputs 0 1 1
  | '4' => .setInputs 1 0 0
  | '5' => .setInputs 1 0 1
  | '6' => .setInputs 1 1 0
  | '7' => .setInputs 1 1 1
  | 'R' => .read
  | _ => .unknown

/-- The actions of a command; without a backend `R` is answered by `1`. -/
def actions (backend tdo : Bool) : Command → List Action
  | .quit => if backend then [.call .quit] else []
  | .reset => if backend then [.call .reset] else []
  | .blink on => if backend then [.call (.blink on)] else []
  | .setInputs tck tms tdi => if backend then [.call (.setInputs tck tms tdi)] else []
  | .read => if backend then [.call .getTdo, .reply (if tdo then '1' else '0')] else [.reply '1']
  | .unknown => []

/-- The server after a call of `respond`, and what it has done.  `quit` of the backend calls `finish`. -/
def respond (x : Input) : Server × List Action :=
  if s.clientfd != 0 then
    match x.read with
    | .error => (s, [])
    | .byte b => (if switch b = .quit then finish s else s, actions s.backend x.tdo (switch b))
    -- nothing is read, and `c` keeps what it holds
    | .eof => (if switch x.stale = .quit then finish s else s, actions s.backend x.tdo (switch x.stale))
  else (s, [])

/-- The server and its actions after `n` iterations of the loop that polls `finished`. -/
def loop (i : ℕ → Input) : ℕ → Server × List Action
  | 0 => (s, [])
  | n + 1 =>
    if finished (loop i n).1 then loop i n
    else ((respond (loop i n).1 (i n)).1, (loop i n).2 ++ (respond (loop i n).1 (i n)).2)

/-! ### The remote bitbang stream -/

def charByte (c : Char) : BitVec 8 := BitVec.ofNat 8 c.toNat

/-- The actions that a byte of the stream asks for: the bits of a digit are `tck`, `tms` and `tdi`. -/
def decode (tdo : Bool) (b : BitVec 8) : List Action :=
  if charByte '0' ≤ b ∧ b ≤ charByte '7' then
    [.call (.setInputs (b.getLsbD 2).toNat (b.getLsbD 1).toNat (b.getLsbD 0).toNat)]
  else if b = charByte 'r' then [.call .reset]
  else if b = charByte 'B' then [.call (.blink 1)]
  else if b = charByte 'b' then [.call (.blink 0)]
  else if b = charByte 'R' then [.call .getTdo, .reply (if tdo then '1' else '0')]
  else if b = charByte 'Q' then [.call .quit]
  else []

theorem actions_eq_decode (tdo : Bool) (b : BitVec 8) : actions true tdo (switch b) = decode tdo b := by
  revert tdo b
  decide +kernel

theorem switch_eq_quit_iff (b : BitVec 8) : switch b = .quit ↔ b = charByte 'Q' := by
  revert b
  decide +kernel

theorem quit_mem_decode_iff (tdo : Bool) (b : BitVec 8) : Action.call .quit ∈ decode tdo b ↔ b = charByte 'Q' := by
  revert tdo b
  decide +kernel

/-- The bytes up to the first `Q`, after which the connection is closed. -/
def upToQuit : List (BitVec 8 × Bool) → List (BitVec 8 × Bool)
  | [] => []
  | p :: l => p :: if p.1 = charByte 'Q' then [] else upToQuit l

def ReadResult.byte? : ReadResult → Option (BitVec 8)
  | .byte b => some b
  | .eof => none
  | .error => none

/-- The byte that is read in an iteration and the value of `tdo` then. -/
def received (i : ℕ → Input) (n : ℕ) : Option (BitVec 8 × Bool) := (i n).read.byte?.map fun b => (b, (i n).tdo)

/-- The client sends `bs` and closes the connection, which the server can notice in iteration `k`; a read before that
brings a byte or fails. -/
structure Delivers (bs : List (BitVec 8)) (k : ℕ) (i : ℕ → Input) : Prop where
  bytes : log (fun n => (i n).read.byte?) k = bs
  before : ∀ n < k, (i n).read ≠ .eof
  after : ∀ n, k ≤ n → (i n).read = .eof

/-- A client is connected to a server with a backend. -/
structure Connected (s : Server) : Prop where
  sockfd : s.sockfd ≠ 0
  clientfd : s.clientfd ≠ 0
  backend : s.backend = true

def asked (i : ℕ → Input) (k : ℕ) : List Action := (upToQuit (log (received i) k)).flatMap fun p => decode p.2 p.1

/-- The loop ends, and until then the server has done what the bytes ask for, in order, and nothing else. -/
def Obeys (s : Server) (i : ℕ → Input) (k : ℕ) : Prop :=
  ∃ n, finished (loop s i n).1 = true ∧ (loop s i n).2 = asked i k

variable {s} {i : ℕ → Input} {bs : List (BitVec 8)} {k n : ℕ} {b : BitVec 8} {x : Input}

theorem connected_of_accept {fd fd' : ℕ} (hfd : fd ≠ 0) (hfd' : fd' ≠ 0) :
    Connected (accept (listen (make (some 0)) fd) [.client fd']) := by
  have haccept : accept (listen (make (some 0)) fd) [.client fd'] = ⟨fd, fd', true⟩ := by
    simp [accept, listen, make, hfd]
  rw [haccept]
  exact ⟨hfd, hfd', rfl⟩

theorem Connected.not_finished (hs : Connected s) : finished s = false := by
  unfold finished
  rw [beq_eq_false_iff_ne.2 hs.sockfd, Bool.false_and]

theorem finished_finish (hs : Connected s) : finished (finish s) = true := by
  unfold finished finish
  rw [bne_iff_ne.2 hs.sockfd]
  rfl

theorem respond_byte (hs : Connected s) (hx : x.read = .byte b) :
    respond s x = (if b = charByte 'Q' then finish s else s, decode x.tdo b) := by
  unfold respond
  rw [if_pos (bne_iff_ne.2 hs.clientfd), hx, hs.backend]
  simp only [actions_eq_decode, switch_eq_quit_iff]

theorem respond_error (hx : x.read = .error) : respond s x = (s, []) := by
  unfold respond
  rw [hx]
  split <;> rfl

/-- At the end of the stream the server executes the command that `c` happens to hold. -/
theorem respond_eof (hs : Connected s) (hx : x.read = .eof) :
    respond s x = (if x.stale = charByte 'Q' then finish s else s, decode x.tdo x.stale) := by
  unfold respond
  rw [if_pos (bne_iff_ne.2 hs.clientfd), hx, hs.backend]
  simp only [actions_eq_decode, switch_eq_quit_iff]

theorem loop_succ (h : finished (loop s i n).1 = false) : loop s i (n + 1) =
    ((respond (loop s i n).1 (i n)).1, (loop s i n).2 ++ (respond (loop s i n).1 (i n)).2) := by
  rw [loop, if_neg (by rw [h]; exact Bool.false_ne_true)]

/-- Until the first `Q` the loop does what the bytes ask for. -/
theorem loop_of_no_quit (hs : Connected s) (hopen : ∀ m < n, (i m).read ≠ .eof)
    (hquit : ∀ m < n, (i m).read ≠ .byte (charByte 'Q')) :
    loop s i n = (s, (log (received i) n).flatMap fun p => decode p.2 p.1) := by
  induction n with
  | zero => rfl
  | succ n ih =>
    have hn := ih (fun m hm => hopen m (by omega)) fun m hm => hquit m (by omega)
    rw [loop_succ (by rw [hn]; exact hs.not_finished), hn, log_succ]
    cases hr : (i n).read with
    | eof => exact absurd hr (hopen n (Nat.lt_succ_self n))
    | error =>
      have hrec : received i n = none := by rw [received, hr]; rfl
      rw [respond_error hr, hrec]
      simp
    | byte b =>
      have hrec : received i n = some (b, (i n).tdo) := by rw [received, hr]; rfl
      have hne : b ≠ charByte 'Q' := by
        rintro rfl
        exact hquit n (Nat.lt_succ_self n) hr
      rw [respond_byte hs hr, hrec, if_neg hne]
      simp

/-- The connection is closed by `quit` only. -/
theorem closed_by_quit (hs : Connected s) (i : ℕ → Input) (n : ℕ) :
    (loop s i n).1 = s ∨ Action.call .quit ∈ (loop s i n).2 := by
  induction n with
  | zero => exact Or.inl rfl
  | succ n ih =>
    cases hf : finished (loop s i n).1 with
    | true =>
      rw [loop, if_pos hf]
      exact ih
    | false =>
      rw [loop_succ hf]
      rcases ih with hsame | hquit
      · simp only [hsame]
        -- a byte that is executed is `Q` or leaves the server as it is
        have hcases : ∀ b, respond s (i n) = (if b = charByte 'Q' then finish s else s, decode (i n).tdo b) →
            (respond s (i n)).1 = s ∨ Action.call .quit ∈ (loop s i n).2 ++ (respond s (i n)).2 := by
          intro b hb
          rw [hb]
          by_cases hq : b = charByte 'Q'
          · exact Or.inr (List.mem_append_right _ ((quit_mem_decode_iff _ _).2 hq))
          · exact Or.inl (if_neg hq)
        cases hr : (i n).read with
        | error => exact Or.inl (by rw [respond_error hr])
        | byte b => exact hcases b (respond_byte hs hr)
        | eof => exact hcases _ (respond_eof hs hr)
      · exact Or.inr (List.mem_append_left _ hquit)

theorem upToQuit_append {l l' : List (BitVec 8 × Bool)} {p : BitVec 8 × Bool} (hp : p.1 = charByte 'Q')
    (hl : ∀ q ∈ l, q.1 ≠ charByte 'Q') : upToQuit (l ++ p :: l') = l ++ [p] := by
  induction l with
  | nil => simp [upToQuit, hp]
  | cons q l ih =>
    have hq := hl q (List.mem_cons_self ..)
    rw [List.cons_append, upToQuit, if_neg hq, ih fun r hr => hl r (List.mem_cons_of_mem q hr)]
    rfl

theorem mem_of_mem_upToQuit {l : List (BitVec 8 × Bool)} {p : BitVec 8 × Bool} (h : p ∈ upToQuit l) : p ∈ l := by
  induction l with
  | nil => exact h
  | cons q l ih =>
    rw [upToQuit, List.mem_cons] at h
    rcases h with rfl | h
    · exact List.mem_cons_self ..
    · split at h
      · simp at h
      · exact List.mem_cons_of_mem q (ih h)

/-- If the server ends its loop, it has executed a `Q`. -/
theorem quit_of_obeys (hs : Connected s) (hd : Delivers bs k i) (h : Obeys s i k) : charByte 'Q' ∈ bs := by
  obtain ⟨n, hfin, htrace⟩ := h
  have hquit : Action.call .quit ∈ asked i k := by
    rcases closed_by_quit hs i n with hsame | hquit
    · rw [hsame, hs.not_finished] at hfin
      exact absurd hfin Bool.false_ne_true
    · rwa [htrace] at hquit
  unfold asked at hquit
  obtain ⟨p, hp, hcall⟩ := List.mem_flatMap.1 hquit
  obtain ⟨m, hm, hrec⟩ := mem_log.1 (mem_of_mem_upToQuit hp)
  obtain ⟨b, hb, rfl⟩ := Option.map_eq_some_iff.1 hrec
  rw [quit_mem_decode_iff] at hcall
  rw [← hd.bytes, mem_log]
  exact ⟨m, hm, hb.trans (congrArg some hcall)⟩

/-- The first `Q` of the stream ends the loop. -/
theorem obeys_of_quit (hs : Connected s) (hd : Delivers bs k i) (h : charByte 'Q' ∈ bs) : Obeys s i k := by
  rw [← hd.bytes, mem_log] at h
  obtain ⟨r, hrk, hr⟩ := h
  obtain ⟨m, -, hmr, hm, hfirst⟩ := exists_first (Q := fun n => (i n).read.byte? = some (charByte 'Q'))
    (Nat.zero_le r) hr
  have hread : (i m).read = .byte (charByte 'Q') := by
    cases hx : (i m).read with
    | byte b =>
      rw [hx] at hm
      rw [Option.some.inj hm]
    | eof => simp [hx, ReadResult.byte?] at hm
    | error => simp [hx, ReadResult.byte?] at hm
  have hloop := loop_of_no_quit (n := m) hs (fun n hn => hd.before n (by omega)) fun n hn hq =>
    hfirst n (Nat.zero_le n) hn (by rw [hq]; rfl)
  have hrec : received i m = some (charByte 'Q', (i m).tdo) := by rw [received, hread]; rfl
  have hnext := loop_succ (s := s) (i := i) (n := m) (by rw [hloop]; exact hs.not_finished)
  rw [hloop, respond_byte hs hread, if_pos rfl] at hnext
  refine ⟨m + 1, by rw [hnext]; exact finished_finish hs, ?_⟩
  -- the bytes after the first `Q` are not decoded
  obtain ⟨l', hl'⟩ := log_mono (received i) (show m + 1 ≤ k by omega)
  have hsplit : log (received i) k = log (received i) m ++ (charByte 'Q', (i m).tdo) :: l' := by
    rw [← hl', log_succ, hrec]
    simp
  have hno : ∀ q ∈ log (received i) m, q.1 ≠ charByte 'Q' := by
    intro q hq heq
    obtain ⟨n, hn, hrec'⟩ := mem_log.1 hq
    obtain ⟨b, hb, rfl⟩ := Option.map_eq_some_iff.1 hrec'
    exact hfirst n (Nat.zero_le n) hn (by rw [hb]; exact congrArg some heq)
  rw [hnext]
  unfold asked
  rw [hsplit, upToQuit_append rfl hno, List.flatMap_append]
  simp

/-- The server obeys the stream of a client and the loop ends if and only if the stream has a `Q`. -/
theorem obeys_iff (hs : Connected s) (hd : Delivers bs k i) : Obeys s i k ↔ charByte 'Q' ∈ bs :=
  ⟨quit_of_obeys hs hd, obeys_of_quit hs hd⟩

/-- A client that sends `bs` at once and closes the connection; at the end `c` holds the last byte. -/
def sends (bs : List (BitVec 8)) (n : ℕ) : Input where
  read := if h : n < bs.length then .byte bs[n] else .eof
  stale := bs.getD (min n bs.length - 1) 0#8
  tdo := true

theorem delivers_sends (bs : List (BitVec 8)) : Delivers bs bs.length (sends bs) where
  bytes := by
    have htake : ∀ n ≤ bs.length, log (fun n => (sends bs n).read.byte?) n = bs.take n := by
      intro n hn
      induction n with
      | zero => rfl
      | succ n ih =>
        have hlt : n < bs.length := by omega
        rw [log_succ, ih (by omega), List.take_succ_eq_append_getElem hlt]
        simp [sends, hlt, ReadResult.byte?]
    rw [htake _ (Nat.le_refl _), List.take_length]
  before := by
    intro n hn
    simp [sends, hn]
  after := by
    intro n hn
    simp [sends, Nat.not_lt.2 hn]

theorem obeys_quit : Obeys ⟨3, 4, true⟩ (sends [charByte '5', charByte 'R', charByte 'Q']) 3 :=
  (obeys_iff ⟨by decide, by decide, rfl⟩ (delivers_sends [charByte '5', charByte 'R', charByte 'Q'])).2 (by decide)

theorem not_obeys : ¬ ∀ (s : Server) (i : ℕ → Input) (bs : List (BitVec 8)) (k : ℕ), Connected s →
    Delivers bs k i → Obeys s i k := by
  intro h
  have hs : Connected ⟨3, 4, true⟩ := ⟨by decide, by decide, rfl⟩
  have hd := delivers_sends [charByte 'R']
  have hquit := quit_of_obeys hs hd (h _ _ _ _ hs hd)
  revert hquit
  decide

end RbbServer
