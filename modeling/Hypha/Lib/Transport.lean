import Mathlib.Data.List.Infix

/-!
# Byte streams that are polled

One end of a byte stream accepts what is written and delivers what arrives, in pieces of any size, and may ask a program
to come back later. An asynchronous program is what it does to its end of the stream.

* `Poll`, `ReadBuf`, `AsyncRead`, `AsyncWrite` : polling, buffers that are read into, readers and writers;
* `Conn` : one end of a stream, with what will arrive and how the polls to come are answered;
* `Ends` : what holds when a program returns and when it stops, `Ends.bind`, `pollLoop_ends` : its rules;
* `writeAll`, `flush`, `readExact` : the loops that poll until everything is written or read.
-/

namespace Hypha.Lib

inductive Poll (α : Type) where
  | pending
  | ready (a : α)
  deriving DecidableEq

inductive ErrorKind where
  | unexpectedEof
  | writeZero
  | invalidData
  | connection
  deriving DecidableEq

/-! ## Buffers -/

/-- A buffer that is read into: its first bytes are filled, and at least those are initialised. -/
structure ReadBuf where
  filled : List UInt8
  initialized : Nat
  capacity : Nat
  filled_le : filled.length ≤ initialized
  initialized_le : initialized ≤ capacity
  deriving DecidableEq

namespace ReadBuf

/-- A buffer without initialised bytes. -/
def uninit (capacity : Nat) : ReadBuf := ⟨[], 0, capacity, Nat.le_refl 0, Nat.zero_le _⟩

/-- A buffer of initialised bytes. -/
def new (capacity : Nat) : ReadBuf := ⟨[], capacity, capacity, Nat.zero_le _, Nat.le_refl _⟩

variable (buf : ReadBuf)

def remaining : Nat := buf.capacity - buf.filled.length

/-- The part that is not filled, up to `n` bytes, taken for uninitialised. -/
def take (n : Nat) : ReadBuf := uninit (min buf.remaining n)

/-- Bytes are copied to the end of the filled part. It panics if there is no room for them. -/
def putSlice (bytes : List UInt8) : Option ReadBuf :=
  if h : bytes.length ≤ buf.remaining then
    some
      { buf with
        filled := buf.filled ++ bytes
        initialized := max buf.initialized (buf.filled.length + bytes.length)
        filled_le := by rw [List.length_append]; exact Nat.le_max_right _ _
        initialized_le := by
          have := buf.filled_le
          have := buf.initialized_le
          unfold remaining at h
          omega }
  else none

/-- The bytes that lie after the filled part are filled as well. It panics if they are not initialised. -/
def advance (bytes : List UInt8) : Option ReadBuf :=
  if h : buf.filled.length + bytes.length ≤ buf.initialized then
    some { buf with filled := buf.filled ++ bytes, filled_le := by rw [List.length_append]; exact h }
  else none

theorem putSlice_of_le {bytes : List UInt8} (h : bytes.length ≤ buf.remaining) :
    ∃ buf', buf.putSlice bytes = some buf' ∧ buf'.filled = buf.filled ++ bytes := by
  unfold putSlice
  rw [dif_pos h]
  exact ⟨_, rfl, rfl⟩

theorem advance_of_le {bytes : List UInt8} (h : buf.filled.length + bytes.length ≤ buf.initialized) :
    ∃ buf', buf.advance bytes = some buf' ∧ buf'.filled = buf.filled ++ bytes := by
  unfold advance
  rw [dif_pos h]
  exact ⟨_, rfl, rfl⟩

@[simp] theorem remaining_take (n : Nat) : (buf.take n).remaining = min buf.remaining n := Nat.sub_zero _

@[simp] theorem filled_take (n : Nat) : (buf.take n).filled = [] := rfl

end ReadBuf

/-! ## Readers and writers -/

/-- A reader is told how much room there is and answers with bytes, none at all at the end of the stream. -/
class AsyncRead (R : Type) where
  pollRead : R → Nat → Poll (Except ErrorKind (List UInt8)) × R

class AsyncWrite (W : Type) where
  pollWrite : W → List UInt8 → Poll (Except ErrorKind Nat) × W
  pollFlush : W → Poll (Except ErrorKind Unit) × W
  pollShutdown : W → Poll (Except ErrorKind Unit) × W

/-- How a poll is answered: later, with some number of bytes, or with an error. -/
inductive Turn where
  | pending
  | ready (n : Nat)
  | fails
  deriving DecidableEq

/-- One end of a byte stream: what it has accepted, what will arrive before the end of the stream, and how it answers
the polls to come. After these it answers no poll. -/
structure Conn where
  written : List UInt8 := []
  incoming : List UInt8 := []
  turns : List Turn
  isShutdown : Bool := false
  deriving DecidableEq

namespace Conn

variable (c : Conn)

/-- The next answer in the schedule, `ready` being what it does if it is not an error. -/
def answer {α : Type} (ready : Nat → Conn → α × Conn) : Poll (Except ErrorKind α) × Conn :=
  match c.turns with
  | [] => (.pending, c)
  | .pending :: turns => (.pending, { c with turns := turns })
  | .fails :: turns => (.ready (.error .connection), { c with turns := turns })
  | .ready n :: turns => ((.ready (.ok (ready n { c with turns := turns }).1)), (ready n { c with turns := turns }).2)

/-- At least one byte arrives unless the stream has ended. -/
def pollRead (room : Nat) : Poll (Except ErrorKind (List UInt8)) × Conn :=
  c.answer fun n c =>
    (c.incoming.take (min (max n 1) room), { c with incoming := c.incoming.drop (min (max n 1) room) })

def pollWrite (buf : List UInt8) : Poll (Except ErrorKind Nat) × Conn :=
  c.answer fun n c => (min n buf.length, { c with written := c.written ++ buf.take (min n buf.length) })

def pollFlush : Poll (Except ErrorKind Unit) × Conn := c.answer fun _ c => ((), c)

def pollShutdown : Poll (Except ErrorKind Unit) × Conn := { c with isShutdown := true }.answer fun _ c => ((), c)

end Conn

instance : AsyncRead Conn := ⟨Conn.pollRead⟩

instance : AsyncWrite Conn := ⟨Conn.pollWrite, Conn.pollFlush, Conn.pollShutdown⟩

@[simp] theorem pollRead_conn (c : Conn) (room : Nat) : AsyncRead.pollRead c room = c.pollRead room := rfl

@[simp] theorem pollWrite_conn (c : Conn) (buf : List UInt8) : AsyncWrite.pollWrite c buf = c.pollWrite buf := rfl

@[simp] theorem pollShutdown_conn (c : Conn) : AsyncWrite.pollShutdown c = c.pollShutdown := rfl

/-! ## Programs -/

/-- Why a program does not return: it still waits for an answer, or it has failed. -/
inductive Stop where
  | waiting
  | failed (kind : ErrorKind)
  deriving DecidableEq

abbrev Async := EStateM Stop Conn

/-- What holds when a program returns, and when it does not. -/
def Ends {α : Type} (x : Async α) (c : Conn) (P : α → Conn → Prop) (Q : Stop → Conn → Prop) : Prop :=
  match x c with
  | .ok a c' => P a c'
  | .error stop c' => Q stop c'

section Rules
variable {α β : Type} {x : Async α} {f : α → Async β} {c : Conn} {P P' : α → Conn → Prop} {R : β → Conn → Prop}
  {Q Q' : Stop → Conn → Prop}

theorem Ends.pure {a : α} (h : P a c) : Ends (Pure.pure a : Async α) c P Q := h

theorem Ends.get : Ends (MonadState.get : Async Conn) c (fun a c' => a = c ∧ c' = c) Q := ⟨rfl, rfl⟩

theorem Ends.bind (hx : Ends x c P Q) (hf : ∀ a c', P a c' → Ends (f a) c' R Q) : Ends (x >>= f) c R Q := by
  unfold Ends at hx ⊢
  change match EStateM.bind x f c with
    | .ok b c' => R b c'
    | .error stop c' => Q stop c'
  unfold EStateM.bind
  cases hxc : x c with
  | ok a c' =>
    rw [hxc] at hx
    exact hf a c' hx
  | error stop c' =>
    rw [hxc] at hx
    exact hx

theorem Ends.mono (hx : Ends x c P Q) (hP : ∀ a c', P a c' → P' a c') (hQ : ∀ stop c', Q stop c' → Q' stop c') :
    Ends x c P' Q' := by
  unfold Ends at hx ⊢
  cases hxc : x c with
  | ok a c' =>
    rw [hxc] at hx
    exact hP a c' hx
  | error stop c' =>
    rw [hxc] at hx
    exact hQ stop c' hx

end Rules

/-! ## Loops -/

/-- What a loop does after a poll. -/
inductive Flow (σ α : Type) where
  | again (s : σ)
  | done (a : α)
  | failed (kind : ErrorKind)

/-- A loop that polls the stream. It waits when no poll is answered any more. -/
def loopFor {σ α : Type} (body : σ → Conn → Flow σ α × Conn) : Nat → σ → Async α
  | 0, _, c => .error .waiting c
  | fuel + 1, s, c =>
    match body s c with
    | (.done a, c') => .ok a c'
    | (.failed kind, c') => .error (.failed kind) c'
    | (.again s', c') => if c.turns = [] then .error .waiting c' else loopFor body fuel s' c'

/-- Every turn of the loop takes an answer from the schedule. -/
def pollLoop {σ α : Type} (body : σ → Conn → Flow σ α × Conn) (s : σ) : Async α :=
  fun c => loopFor body (c.turns.length + 1) s c

/-- What a turn of a loop has to give for its invariant `I`. -/
def TurnEnds {σ α : Type} (I : σ → Conn → Prop) (c : Conn) (P : α → Conn → Prop) (Q : Stop → Conn → Prop) :
    Flow σ α × Conn → Prop
  | (.done a, c') => P a c'
  | (.failed kind, c') => Q (.failed kind) c'
  | (.again s', c') =>
    (c.turns = [] → Q .waiting c') ∧ (c.turns ≠ [] → I s' c' ∧ c'.turns.length < c.turns.length)

/-- **The loop rule.** -/
theorem pollLoop_ends {σ α : Type} {body : σ → Conn → Flow σ α × Conn} {I : σ → Conn → Prop} {P : α → Conn → Prop}
    {Q : Stop → Conn → Prop} (step : ∀ s c, I s c → TurnEnds I c P Q (body s c)) {s : σ} {c : Conn} (h : I s c) :
    Ends (pollLoop body s) c P Q := by
  have hloop : ∀ fuel s c, I s c → c.turns.length < fuel → Ends (loopFor body fuel s) c P Q := by
    intro fuel
    induction fuel with
    | zero => exact fun _ _ _ hlt => absurd hlt (Nat.not_lt_zero _)
    | succ fuel ih =>
      intro s c h hlt
      have hstep := step s c h
      unfold Ends loopFor
      rcases hbody : body s c with ⟨s' | a | kind, c'⟩ <;> rw [hbody] at hstep
      · dsimp only
        split_ifs with hturns
        · exact hstep.1 hturns
        · obtain ⟨hI, hshorter⟩ := hstep.2 hturns
          exact ih s' c' hI (by omega)
      · exact hstep
      · exact hstep
  exact hloop _ s c h (Nat.lt_succ_self _)

/-- `write_all`. -/
def writeAll (buf : List UInt8) : Async Unit :=
  pollLoop (fun rest c =>
    if rest = [] then (.done (), c)
    else
      match c.pollWrite rest with
      | (.pending, c') => (.again rest, c')
      | (.ready (.error kind), c') => (.failed kind, c')
      | (.ready (.ok n), c') => if n = 0 then (.failed .writeZero, c') else (.again (rest.drop n), c')) buf

def flush : Async Unit :=
  pollLoop (fun _ c =>
    match c.pollFlush with
    | (.pending, c') => (.again (), c')
    | (.ready (.error kind), c') => (.failed kind, c')
    | (.ready (.ok ()), c') => (.done (), c')) ()

/-- `read_exact`, for a buffer of `n` bytes. -/
def readExact (n : Nat) : Async (List UInt8) :=
  pollLoop (fun got c =>
    if got.length = n then (.done got, c)
    else
      match c.pollRead (n - got.length) with
      | (.pending, c') => (.again got, c')
      | (.ready (.error kind), c') => (.failed kind, c')
      | (.ready (.ok bytes), c') =>
        if bytes = [] then (.failed .unexpectedEof, c') else (.again (got ++ bytes), c')) []

/-! ## What polls do -/

def Turn.isReady : Turn → Bool
  | .ready _ => true
  | _ => false

/-- A poll that is answered with an error, or by accepting nothing. -/
def Turn.refuses : Turn → Bool
  | .fails => true
  | .ready 0 => true
  | _ => false

/-- How many polls are answered with bytes. -/
def answers (turns : List Turn) : Nat := turns.countP Turn.isReady

/-- Some polls have been answered, at most `n` of them with bytes. -/
structure Spends (n : Nat) (c c' : Conn) : Prop where
  suffix : c'.turns <:+ c.turns
  count : answers c.turns ≤ n + answers c'.turns

namespace Spends

variable {n m : Nat} {c c' c'' : Conn}

theorem refl (c : Conn) : Spends 0 c c := ⟨List.suffix_rfl, by omega⟩

theorem trans (h : Spends n c c') (h' : Spends m c' c'') : Spends (n + m) c c'' :=
  ⟨h'.suffix.trans h.suffix, by have := h.count; have := h'.count; omega⟩

theorem mono (h : Spends n c c') (hle : n ≤ m) : Spends m c c' := ⟨h.suffix, by have := h.count; omega⟩

theorem refuses (h : Spends n c c') (hrefuses : ∃ t ∈ c'.turns, t.refuses = true) :
    ∃ t ∈ c.turns, t.refuses = true := by
  obtain ⟨t, ht, hrefuses⟩ := hrefuses
  exact ⟨t, h.suffix.mem ht, hrefuses⟩

theorem of_cons {t : Turn} {turns : List Turn} (hc : c.turns = t :: turns) (hc' : c'.turns = turns)
    (hn : t.isReady = true → 1 ≤ n) : Spends n c c' := by
  refine ⟨by rw [hc, hc']; exact List.suffix_cons t turns, ?_⟩
  rw [hc, hc']
  unfold answers
  rw [List.countP_cons]
  split_ifs with ht
  · have := hn ht
    omega
  · omega

theorem answers_le (h : Spends n c c') (hturns : c'.turns = []) : answers c.turns ≤ n := by
  have hcount := h.count
  rwa [hturns] at hcount

end Spends

/-- The answers to a poll. -/
inductive Answered {α : Type} (ready : Nat → Conn → α × Conn) (c : Conn) : Poll (Except ErrorKind α) × Conn → Prop where
  | pending {c' : Conn} (spends : Spends 0 c c') (shorter : c.turns ≠ [] → c'.turns.length < c.turns.length)
      (incoming : c'.incoming = c.incoming) (written : c'.written = c.written) : Answered ready c (.pending, c')
  | failed {c' : Conn} (refuses : ∃ t ∈ c.turns, t.refuses = true) (written : c'.written = c.written) :
      Answered ready c (.ready (.error .connection), c')
  | ready {n : Nat} {turns : List Turn} (asked : c.turns = .ready n :: turns) :
      Answered ready c (.ready (.ok (ready n { c with turns := turns }).1), (ready n { c with turns := turns }).2)

theorem Conn.answered {α : Type} (c : Conn) (ready : Nat → Conn → α × Conn) : Answered ready c (c.answer ready) := by
  unfold Conn.answer
  split
  · next hturns => exact .pending (.refl c) (fun h => absurd hturns h) rfl rfl
  · next turns hturns =>
    refine .pending (.of_cons hturns rfl fun h => by cases h) (fun _ => ?_) rfl rfl
    rw [hturns]
    exact Nat.lt_succ_self _
  · next turns hturns => exact .failed ⟨.fails, by rw [hturns]; exact List.mem_cons_self, rfl⟩ rfl
  · next n turns hturns => exact .ready hturns

theorem Conn.answer_written {α : Type} {c : Conn} {ready : Nat → Conn → α × Conn}
    (h : ∀ n c, (ready n c).2.written = c.written) : (c.answer ready).2.written = c.written := by
  unfold Conn.answer
  split
  · rfl
  · rfl
  · rfl
  · exact h _ _

theorem Conn.answer_isShutdown {α : Type} {c : Conn} {ready : Nat → Conn → α × Conn}
    (h : ∀ n c, (ready n c).2.isShutdown = c.isShutdown) : (c.answer ready).2.isShutdown = c.isShutdown := by
  unfold Conn.answer
  split
  · rfl
  · rfl
  · rfl
  · exact h _ _

/-- What a poll for bytes can do: nothing is read only at the end of the stream. -/
inductive Read (room : Nat) (c : Conn) : Poll (Except ErrorKind (List UInt8)) × Conn → Prop where
  | pending {c' : Conn} (spends : Spends 0 c c') (shorter : c.turns ≠ [] → c'.turns.length < c.turns.length)
      (incoming : c'.incoming = c.incoming) (written : c'.written = c.written) : Read room c (.pending, c')
  | failed {c' : Conn} (refuses : ∃ t ∈ c.turns, t.refuses = true) (written : c'.written = c.written) :
      Read room c (.ready (.error .connection), c')
  | arrived {bytes : List UInt8} {c' : Conn} (spends : Spends 1 c c') (shorter : c'.turns.length < c.turns.length)
      (incoming : c.incoming = bytes ++ c'.incoming) (written : c'.written = c.written) (fits : bytes.length ≤ room)
      (ended : bytes = [] → room ≠ 0 → c.incoming = []) : Read room c (.ready (.ok bytes), c')

theorem Conn.read (c : Conn) (room : Nat) : Read room c (c.pollRead room) := by
  have hanswered := c.answered fun n c => (c.incoming.take (min (max n 1) room),
    { c with incoming := c.incoming.drop (min (max n 1) room) })
  unfold Conn.pollRead
  generalize c.answer _ = answer at hanswered ⊢
  cases hanswered with
  | pending spends shorter incoming written => exact .pending spends shorter incoming written
  | failed refuses written => exact .failed refuses written
  | @ready n turns asked =>
    refine .arrived (.of_cons asked rfl fun _ => Nat.le_refl 1) ?_ (List.take_append_drop _ _).symm rfl ?_
      fun hnone hroom => ?_
    · rw [asked]
      exact Nat.lt_succ_self _
    · rw [List.length_take]
      omega
    · rcases List.take_eq_nil_iff.mp hnone with h | h
      · omega
      · exact h

/-- What a poll with bytes to write can do: nothing is accepted only by a stream that refuses. -/
inductive Write (buf : List UInt8) (c : Conn) : Poll (Except ErrorKind Nat) × Conn → Prop where
  | pending {c' : Conn} (spends : Spends 0 c c') (shorter : c.turns ≠ [] → c'.turns.length < c.turns.length)
      (incoming : c'.incoming = c.incoming) (written : c'.written = c.written) : Write buf c (.pending, c')
  | failed {c' : Conn} (refuses : ∃ t ∈ c.turns, t.refuses = true) (written : c'.written = c.written) :
      Write buf c (.ready (.error .connection), c')
  | accepted {n : Nat} {c' : Conn} (spends : Spends 1 c c') (shorter : c'.turns.length < c.turns.length)
      (incoming : c'.incoming = c.incoming) (written : c'.written = c.written ++ buf.take n) (fits : n ≤ buf.length)
      (refused : n = 0 → buf ≠ [] → ∃ t ∈ c.turns, t.refuses = true) : Write buf c (.ready (.ok n), c')

theorem Conn.write (c : Conn) (buf : List UInt8) : Write buf c (c.pollWrite buf) := by
  have hanswered := c.answered fun n c =>
    (min n buf.length, { c with written := c.written ++ buf.take (min n buf.length) })
  unfold Conn.pollWrite
  generalize c.answer _ = answer at hanswered ⊢
  cases hanswered with
  | pending spends shorter incoming written => exact .pending spends shorter incoming written
  | failed refuses written => exact .failed refuses written
  | @ready n turns asked =>
    refine .accepted (.of_cons asked rfl fun _ => Nat.le_refl 1) ?_ rfl rfl (Nat.min_le_right _ _) fun hnone hbuf => ?_
    · rw [asked]
      exact Nat.lt_succ_self _
    · have := List.length_pos_iff.mpr hbuf
      obtain rfl : n = 0 := by omega
      exact ⟨.ready 0, by rw [asked]; exact List.mem_cons_self, rfl⟩

/-! ## What loops do -/

/-- Why a program does not return: it waits while `waits` holds, the stream has ended so that `ends` holds, or it has
refused. -/
def StopsFor (waits ends : Prop) (c : Conn) : Stop → Prop
  | .waiting => waits
  | .failed .unexpectedEof => ends
  | .failed .invalidData => False
  | .failed _ => ∃ t ∈ c.turns, t.refuses = true

/-- A program that stops after another one has used the stream. -/
theorem StopsFor.after {waits waits' ends ends' : Prop} {n : Nat} {c c₁ : Conn} {stop : Stop}
    (h : StopsFor waits ends c₁ stop) (hspends : Spends n c c₁) (hwaits : waits → waits') (hends : ends → ends') :
    StopsFor waits' ends' c stop := by
  cases stop with
  | waiting => exact hwaits h
  | failed kind =>
    cases kind with
    | unexpectedEof => exact hends h
    | invalidData => exact h
    | writeZero => exact hspends.refuses h
    | connection => exact hspends.refuses h

theorem readExact_ends (n : Nat) (c : Conn) :
    Ends (readExact n) c
      (fun bytes c' => bytes.length = n ∧ c.incoming = bytes ++ c'.incoming ∧ c'.written = c.written ∧ Spends n c c')
      (fun stop c' => c'.written = c.written ∧
        StopsFor (answers c.turns ≤ c.incoming.length) (c.incoming.length < n) c stop) := by
  refine pollLoop_ends (I := fun got c' => c.incoming = got ++ c'.incoming ∧ got.length ≤ n ∧ c'.written = c.written ∧
    Spends got.length c c') ?_ ⟨rfl, Nat.zero_le n, rfl, .refl c⟩
  rintro got c₁ ⟨hincoming, hle, hwritten, hspends⟩
  have hlength := congrArg List.length hincoming
  rw [List.length_append] at hlength
  split_ifs with hn
  · exact ⟨hn, hincoming, hwritten, hn ▸ hspends⟩
  have hread := c₁.read (n - got.length)
  generalize c₁.pollRead (n - got.length) = answer at hread ⊢
  cases hread with
  | pending spends shorter incoming written =>
    refine ⟨fun hturns => ⟨written.trans hwritten, (hspends.answers_le hturns).trans (by omega)⟩, fun hturns => ?_⟩
    refine ⟨⟨?_, hle, written.trans hwritten, hspends.trans spends⟩, shorter hturns⟩
    rw [incoming]
    exact hincoming
  | failed refuses written => exact ⟨written.trans hwritten, hspends.refuses refuses⟩
  | @arrived bytes c₂ spends shorter incoming written fits ended =>
    dsimp only
    split_ifs with hnone
    · refine ⟨written.trans hwritten, ?_⟩
      have hempty := ended hnone (by omega)
      rw [hempty, List.length_nil] at hlength
      change c.incoming.length < n
      omega
    · have := List.length_pos_iff.mpr hnone
      refine ⟨fun hturns => ?_, fun _ => ⟨⟨?_, ?_, written.trans hwritten, ?_⟩, shorter⟩⟩
      · rw [hturns] at shorter
        exact absurd shorter (Nat.not_lt_zero _)
      · rw [hincoming, incoming, List.append_assoc]
      · rw [List.length_append]
        omega
      · rw [List.length_append]
        exact (hspends.trans spends).mono (by omega)

theorem writeAll_ends (buf : List UInt8) (c : Conn) :
    Ends (writeAll buf) c
      (fun _ c' => c'.written = c.written ++ buf ∧ c'.incoming = c.incoming ∧ Spends buf.length c c')
      (fun stop c' => (∃ part, part <+: buf ∧ c'.written = c.written ++ part) ∧
        StopsFor (answers c.turns ≤ buf.length) False c stop) := by
  refine pollLoop_ends (I := fun rest c' => ∃ part, buf = part ++ rest ∧ c'.written = c.written ++ part ∧
    c'.incoming = c.incoming ∧ Spends part.length c c') ?_ ⟨[], rfl, (List.append_nil _).symm, rfl, .refl c⟩
  rintro rest c₁ ⟨part, rfl, hwritten, hincoming, hspends⟩
  split_ifs with hrest
  · subst hrest
    rw [List.append_nil]
    exact ⟨hwritten, hincoming, hspends⟩
  have hwrite := c₁.write rest
  generalize c₁.pollWrite rest = answer at hwrite ⊢
  cases hwrite with
  | pending spends shorter incoming written =>
    refine ⟨fun hturns => ⟨⟨part, List.prefix_append _ _, written.trans hwritten⟩, ?_⟩, fun hturns =>
      ⟨⟨part, rfl, written.trans hwritten, incoming.trans hincoming, hspends.trans spends⟩, shorter hturns⟩⟩
    change answers c.turns ≤ (part ++ rest).length
    rw [List.length_append]
    exact (hspends.answers_le hturns).trans (by omega)
  | failed refuses written =>
    exact ⟨⟨part, List.prefix_append _ _, written.trans hwritten⟩, hspends.refuses refuses⟩
  | @accepted n c₂ spends shorter incoming written fits refused =>
    have htake : c₂.written = c.written ++ (part ++ rest.take n) := by rw [written, hwritten, List.append_assoc]
    have hsplit : part ++ rest = part ++ rest.take n ++ rest.drop n := by
      rw [List.append_assoc, List.take_append_drop]
    dsimp only
    split_ifs with hn
    · refine ⟨⟨part ++ rest.take n, ?_, htake⟩, hspends.refuses (refused hn hrest)⟩
      rw [hsplit]
      exact List.prefix_append _ _
    · refine ⟨fun hturns => ?_, fun _ => ⟨⟨_, hsplit, htake, incoming.trans hincoming, ?_⟩, shorter⟩⟩
      · rw [hturns] at shorter
        exact absurd shorter (Nat.not_lt_zero _)
      · rw [List.length_append, List.length_take]
        exact (hspends.trans spends).mono (by omega)

theorem flush_ends (c : Conn) :
    Ends flush c (fun _ c' => c'.written = c.written ∧ c'.incoming = c.incoming ∧ Spends 1 c c')
      (fun stop c' => c'.written = c.written ∧ StopsFor (answers c.turns ≤ 1) False c stop) := by
  refine pollLoop_ends (I := fun _ c' => c'.written = c.written ∧ c'.incoming = c.incoming ∧ Spends 0 c c') ?_
    ⟨rfl, rfl, .refl c⟩
  rintro _ c₁ ⟨hwritten, hincoming, hspends⟩
  have hanswered := c₁.answered fun _ c => ((), c)
  change TurnEnds _ _ _ _ (match c₁.answer fun _ c => ((), c) with
    | (.pending, c') => (.again (), c')
    | (.ready (.error kind), c') => (.failed kind, c')
    | (.ready (.ok ()), c') => (.done (), c'))
  generalize c₁.answer _ = answer at hanswered ⊢
  cases hanswered with
  | pending spends shorter incoming written =>
    refine ⟨fun hturns => ⟨written.trans hwritten, ?_⟩, fun hturns =>
      ⟨⟨written.trans hwritten, incoming.trans hincoming, hspends.trans spends⟩, shorter hturns⟩⟩
    exact (hspends.answers_le hturns).trans (by omega)
  | failed refuses written => exact ⟨written.trans hwritten, hspends.refuses refuses⟩
  | @ready n turns asked =>
    exact ⟨hwritten, hincoming, (hspends.trans (.of_cons asked rfl fun _ => Nat.le_refl 1)).mono (by omega)⟩

/-- Everything is written and flushed, and then the program goes on. -/
theorem Ends.writeAll_flush {α : Type} {buf : List UInt8} {x : Async α} {c : Conn} {P : α → Conn → Prop}
    {Q : Stop → Conn → Prop}
    (hx : ∀ c', c'.written = c.written ++ buf → c'.incoming = c.incoming → Spends (buf.length + 1) c c' → Ends x c' P Q)
    (hQ : ∀ stop c', c'.written <+: c.written ++ buf → StopsFor (answers c.turns ≤ buf.length + 1) False c stop →
      Q stop c') :
    Ends (writeAll buf >>= fun _ => flush >>= fun _ => x) c P Q := by
  refine Ends.bind ((writeAll_ends buf c).mono (fun _ _ h => h) ?_) ?_
  · rintro stop c' ⟨⟨part, hpart, hwritten⟩, hstop⟩
    refine hQ stop c' ?_ (hstop.after (.refl c) (fun h => h.trans (Nat.le_succ _)) fun h => h)
    rw [hwritten]
    exact (List.prefix_append_right_inj _).mpr hpart
  rintro _ c₁ ⟨hwritten, hincoming, hspends⟩
  refine Ends.bind ((flush_ends c₁).mono (fun _ _ h => h) ?_) ?_
  · rintro stop c' ⟨hwritten', hstop⟩
    refine hQ stop c' (by rw [hwritten', hwritten]) (hstop.after hspends (fun h => ?_) fun h => h)
    have hcount := hspends.count
    omega
  · rintro _ c₂ ⟨hwritten', hincoming', hspends'⟩
    exact hx c₂ (hwritten'.trans hwritten) (hincoming'.trans hincoming) (hspends.trans hspends')

end Hypha.Lib
