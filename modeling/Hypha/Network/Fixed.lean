import Hypha.Network.Utils

/-!
# Readers and writers of fixed numbers of bytes

* `writing` : a program that writes, flushes and shuts down; `WriteChecked` : the writer and the stream agree on what
  has been sent, and nothing goes beyond the declared length;
* `writing_checked` : over every run that writes pieces of a payload;
* `FixedAsyncRead.readToEnd` : a program that reads until the end or an error; `readToEnd_exact` : what it gets;
* `Honours`, `honours_iff` : the contract of a single poll, for any inner reader and any buffer, and when it is kept.
-/

namespace Hypha.Network

open Hypha.Lib

/-! ## Writers -/

inductive WriteOp where
  | write (buf : List UInt8)
  | flush
  | shutdown

inductive WriteAnswer where
  | wrote (poll : Poll (Except ErrorKind Nat))
  | done (poll : Poll (Except ErrorKind Unit))

/-- A program that uses a writer. -/
def writing : Machine (FixedAsyncWrite Conn) WriteOp WriteAnswer where
  step
    | s, .write buf => ((s.pollWrite buf).2, .wrote (s.pollWrite buf).1)
    | s, .flush => (s.pollFlush.2, .done s.pollFlush.1)
    | s, .shutdown => (s.pollShutdown.2, .done s.pollShutdown.1)

abbrev WriteEvent := Event (FixedAsyncWrite Conn) WriteOp WriteAnswer

/-- The bytes that the program has been told are written. -/
def accepted : WriteOp → WriteAnswer → List UInt8
  | .write buf, .wrote (.ready (.ok n)) => buf.take n
  | _, _ => []

def acceptedBytes : List WriteEvent → List UInt8
  | [] => []
  | e :: h => acceptedBytes h ++ accepted e.input e.output

/-- The program writes the payload piece by piece, or tries to write more than what remains. -/
def Slices (payload : List UInt8) (e : WriteEvent) (h : List WriteEvent) : Prop :=
  ∀ buf, e.input = .write buf → buf.length ≤ e.pre.remaining → buf <+: payload.drop (acceptedBytes h).length

/-- The writer and the stream agree on what has been sent, which is the beginning of the payload. -/
structure Agrees (header payload sent : List UInt8) (s : FixedAsyncWrite Conn) : Prop where
  written : s.inner.written = header ++ sent
  begins : sent <+: payload
  remaining : sent.length + s.remaining = payload.length

/-- What a step of the program shows. -/
structure WriteChecked (header payload : List UInt8) (e : WriteEvent) (h : List WriteEvent) : Prop where
  agrees : Agrees header payload (acceptedBytes (e :: h)) e.post
  rejected : ∀ buf, e.input = .write buf → e.pre.remaining < buf.length →
    e.output = .wrote (.ready (.error .invalidData)) ∧ e.post = e.pre
  passed : ∀ buf, e.input = .write buf → buf ≠ [] → buf.length ≤ e.pre.remaining →
    e.output = .wrote (e.pre.inner.pollWrite buf).1
  shutdown : e.post.inner.isShutdown = true ↔
    e.pre.inner.isShutdown = true ∨ e.input = .shutdown ∧ acceptedBytes h = payload

section Write

variable {s : FixedAsyncWrite Conn} {header payload sent buf : List UInt8}

theorem Agrees.of_written (h : Agrees header payload sent s) {inner : Conn}
    (hwritten : inner.written = s.inner.written) : Agrees header payload sent { s with inner := inner } :=
  ⟨hwritten.trans h.written, h.begins, h.remaining⟩

/-- A piece of the payload is written. -/
theorem Agrees.write (h : Agrees header payload sent s)
    (hbuf : buf.length ≤ s.remaining → buf <+: payload.drop sent.length) :
    Agrees header payload (sent ++ accepted (.write buf) (.wrote (s.pollWrite buf).1)) (s.pollWrite buf).2 := by
  have hnone : Agrees header payload (sent ++ []) s := by
    rw [List.append_nil]
    exact h
  unfold FixedAsyncWrite.pollWrite
  split_ifs with hempty hlarge
  · exact hnone
  · exact hnone
  have hwrite := s.inner.write buf
  rw [pollWrite_conn]
  generalize s.inner.pollWrite buf = answer at hwrite ⊢
  cases hwrite with
  | pending spends shorter incoming written => exact hnone.of_written written
  | failed refuses written => exact hnone.of_written written
  | @accepted n inner spends shorter incoming written fits refused =>
    have hsplit : sent ++ buf.take n <+: payload := by
      obtain ⟨rest, hrest⟩ := (List.take_prefix n buf).trans (hbuf (Nat.not_lt.mp hlarge))
      obtain ⟨tail, rfl⟩ := h.begins
      rw [List.drop_left] at hrest
      exact ⟨rest, by rw [List.append_assoc, hrest]⟩
    have hlength := h.remaining
    dsimp only
    split_ifs with hzero hmore
    · subst hzero
      refine hnone.of_written ?_
      rw [written, List.take_zero, List.append_nil]
    · omega
    · refine ⟨?_, hsplit, ?_⟩
      · rw [written, h.written, List.append_assoc]
        rfl
      · change (sent ++ buf.take n).length + (s.remaining - n) = payload.length
        rw [List.length_append, List.length_take]
        omega

theorem isShutdown_pollWrite : (s.pollWrite buf).2.inner.isShutdown = s.inner.isShutdown := by
  have hshut : (s.inner.pollWrite buf).2.isShutdown = s.inner.isShutdown := Conn.answer_isShutdown fun _ _ => rfl
  unfold FixedAsyncWrite.pollWrite
  split_ifs
  · rfl
  · rfl
  rw [pollWrite_conn]
  generalize s.inner.pollWrite buf = answer at hshut ⊢
  split
  · exact hshut
  · exact hshut
  · split_ifs <;> exact hshut

/-- A write that is too large changes nothing. -/
theorem pollWrite_of_lt (h : s.remaining < buf.length) : s.pollWrite buf = (.ready (.error .invalidData), s) := by
  unfold FixedAsyncWrite.pollWrite
  rw [if_neg, if_pos h]
  intro hempty
  rw [List.isEmpty_iff.mp hempty] at h
  exact absurd h (Nat.not_lt_zero _)

/-- A write that fits is answered by the stream. -/
theorem pollWrite_of_le (hbuf : buf ≠ []) (h : buf.length ≤ s.remaining) :
    (s.pollWrite buf).1 = (s.inner.pollWrite buf).1 := by
  have hwrite := s.inner.write buf
  unfold FixedAsyncWrite.pollWrite
  rw [if_neg fun hempty => hbuf (List.isEmpty_iff.mp hempty), if_neg (Nat.not_lt.mpr h), pollWrite_conn]
  generalize s.inner.pollWrite buf = answer at hwrite ⊢
  cases hwrite with
  | pending => rfl
  | failed => rfl
  | @accepted n inner spends shorter incoming written fits refused =>
    dsimp only
    split_ifs with hzero hmore
    · rw [hzero]
    · omega
    · rfl

theorem Agrees.shutdown (h : Agrees header payload sent s) :
    Agrees header payload sent s.pollShutdown.2 ∧
      (s.pollShutdown.2.inner.isShutdown = true ↔ s.inner.isShutdown = true ∨ sent = payload) := by
  have hlength := h.remaining
  have hcomplete : sent = payload ↔ s.remaining = 0 := by
    constructor
    · rintro rfl
      omega
    · intro hzero
      exact h.begins.eq_of_length (by omega)
  unfold FixedAsyncWrite.pollShutdown
  rw [hcomplete, pollShutdown_conn]
  split_ifs with hremaining
  · exact ⟨h, (or_iff_left (by omega)).symm⟩
  · refine ⟨h.of_written (Conn.answer_written fun _ _ => rfl), iff_of_true ?_ (Or.inr (by omega))⟩
    exact Conn.answer_isShutdown fun _ _ => rfl

theorem Agrees.step (h : Agrees header payload sent s) {op : WriteOp}
    (hslices : ∀ buf, op = .write buf → buf.length ≤ s.remaining → buf <+: payload.drop sent.length) :
    Agrees header payload (sent ++ accepted op (writing.step s op).2) (writing.step s op).1 ∧
      ((writing.step s op).1.inner.isShutdown = true ↔
        s.inner.isShutdown = true ∨ op = .shutdown ∧ sent = payload) := by
  cases op with
  | write buf =>
    refine ⟨h.write (hslices buf rfl), ?_⟩
    rw [or_iff_left (fun hop => by cases hop.1)]
    exact Bool.eq_iff_iff.mp isShutdown_pollWrite
  | flush =>
    have hflush : (writing.step s .flush).1 = { s with inner := s.inner.pollFlush.2 } := rfl
    rw [hflush, or_iff_left (fun hop => by cases hop.1)]
    refine ⟨?_, Bool.eq_iff_iff.mp (Conn.answer_isShutdown fun _ _ => rfl)⟩
    change Agrees header payload (sent ++ []) _
    rw [List.append_nil]
    exact h.of_written (Conn.answer_written fun _ _ => rfl)
  | shutdown =>
    obtain ⟨hagrees, hshut⟩ := h.shutdown
    change Agrees header payload (sent ++ []) s.pollShutdown.2 ∧ _
    rw [List.append_nil]
    refine ⟨hagrees, hshut.trans (or_congr_right ?_)⟩
    exact ⟨fun hsent => ⟨rfl, hsent⟩, And.right⟩

end Write

/-- **Writing** over every run that writes pieces of the payload. -/
theorem writing_checked {header payload : List UInt8} {s : FixedAsyncWrite Conn} (h : Agrees header payload [] s)
    (ops : List WriteOp) (hslices : Along (Slices payload) (writing.run s ops).history) :
    Agrees header payload (acceptedBytes (writing.run s ops).history) (writing.run s ops).state ∧
      Along (WriteChecked header payload) (writing.run s ops).history := by
  refine writing.along_of_invariant (fun w => Agrees header payload (acceptedBytes w.history) w.state) (Slices payload)
    (WriteChecked header payload) h (fun w op hagrees hslices => ?_) ops hslices
  obtain ⟨hnext, hshut⟩ := hagrees.step hslices
  refine ⟨hnext, hnext, fun buf hbuf hlarge => ?_, fun buf hbuf hsome hfits => ?_, hshut⟩ <;>
    obtain rfl : op = .write buf := hbuf
  case refine_2 => exact congrArg WriteAnswer.wrote (pollWrite_of_le hsome hfits)
  have hrejected : w.state.pollWrite buf = (.ready (.error .invalidData), w.state) := pollWrite_of_lt hlarge
  constructor
  · rw [Machine.event_output]
    exact congrArg (fun r => WriteAnswer.wrote r.1) hrejected
  · rw [Machine.event_post]
    exact congrArg Prod.snd hrejected

/-! ## Readers -/

/-- How reading ends. -/
inductive Ending where
  | eof
  | failed (kind : ErrorKind)
  | waiting
  | panicked
  deriving DecidableEq

/-- A buffer of initialised bytes with room. -/
def Usable (buf : ReadBuf) : Prop := 0 < buf.remaining ∧ buf.initialized = buf.capacity

instance : DecidablePred Usable := fun _ => inferInstanceAs (Decidable (_ ∧ _))

/-- A program that reads until nothing more comes, with the buffers that it passes to the polls. -/
def FixedAsyncRead.readToEnd (s : FixedAsyncRead Conn) : List ReadBuf → List UInt8 × Ending
  | [] => ([], .waiting)
  | buf :: bufs =>
    match s.pollRead buf with
    | (none, _) => ([], .panicked)
    | (some (.pending, _), s') => s'.readToEnd bufs
    | (some (.ready (.error kind), _), _) => ([], .failed kind)
    | (some (.ready (.ok ()), buf'), s') =>
      if buf'.filled.length = buf.filled.length then ([], .eof)
      else (buf'.filled.drop buf.filled.length ++ (s'.readToEnd bufs).1, (s'.readToEnd bufs).2)

/-- What a poll can do. -/
inductive FixedRead (s : FixedAsyncRead Conn) (buf : ReadBuf) :
    Option (Poll (Except ErrorKind Unit) × ReadBuf) × FixedAsyncRead Conn → Prop where
  | complete (done : s.remaining = 0) : FixedRead s buf (some (.ready (.ok ()), buf), s)
  | pending {inner : Conn} (more : 0 < s.remaining) (spends : Spends 0 s.inner inner)
      (shorter : s.inner.turns ≠ [] → inner.turns.length < s.inner.turns.length)
      (incoming : inner.incoming = s.inner.incoming) : FixedRead s buf (some (.pending, buf), { s with inner := inner })
  | failed {s' : FixedAsyncRead Conn} (refuses : ∃ t ∈ s.inner.turns, t.refuses = true) :
      FixedRead s buf (some (.ready (.error .connection), buf), s')
  | ended {s' : FixedAsyncRead Conn} (more : 0 < s.remaining) (incoming : s.inner.incoming = []) :
      FixedRead s buf (some (.ready (.error .unexpectedEof), buf), s')
  | read {bytes : List UInt8} {inner : Conn} {buf' : ReadBuf} (nonempty : bytes ≠ [])
      (fits : bytes.length ≤ s.remaining) (incoming : s.inner.incoming = bytes ++ inner.incoming) (spends : Spends 1 s.inner inner)
      (shorter : inner.turns.length < s.inner.turns.length) (filled : buf'.filled = buf.filled ++ bytes) :
      FixedRead s buf (some (.ready (.ok ()), buf'), { inner := inner, remaining := s.remaining - bytes.length })

theorem FixedAsyncRead.polled (s : FixedAsyncRead Conn) {buf : ReadBuf} (h : Usable buf) :
    FixedRead s buf (s.pollRead buf) := by
  obtain ⟨hroom, hinit⟩ := h
  unfold FixedAsyncRead.pollRead
  split_ifs with hzero
  · exact .complete hzero
  have hread := s.inner.read (buf.take (min s.remaining buf.remaining)).remaining
  rw [pollRead_conn]
  generalize s.inner.pollRead _ = answer at hread ⊢
  cases hread with
  | pending spends shorter incoming written => exact .pending (by omega) spends shorter incoming
  | failed refuses written => exact .failed refuses
  | @arrived bytes inner spends shorter incoming written fits ended =>
    obtain ⟨limited, hlimited, hfilled⟩ := ReadBuf.putSlice_of_le _ fits
    rw [ReadBuf.filled_take, List.nil_append] at hfilled
    rw [ReadBuf.remaining_take] at fits ended
    dsimp only
    rw [hlimited]
    dsimp only
    rw [hfilled]
    split_ifs with hnone hmore
    · exact .ended (by omega) (ended (List.length_eq_zero_iff.mp hnone) (by omega))
    · omega
    · have hadvance : buf.filled.length + bytes.length ≤ buf.initialized := by
        unfold ReadBuf.remaining at hroom fits
        omega
      obtain ⟨buf', hbuf', hfilled'⟩ := buf.advance_of_le hadvance
      rw [hbuf']
      exact .read (fun hnil => hnone (by rw [hnil]; rfl)) (by omega) incoming spends shorter hfilled'

/-- What reading gets from a stream on which not too much arrives: everything and the end, or everything and an error at
the end of the stream. -/
def Exact (s : FixedAsyncRead Conn) (polls : Nat) : List UInt8 × Ending → Prop
  | (data, .eof) => data = s.inner.incoming ∧ s.inner.incoming.length = s.remaining
  | (data, .failed .unexpectedEof) => data = s.inner.incoming ∧ s.inner.incoming.length < s.remaining
  | (data, .failed .connection) => data <+: s.inner.incoming ∧ ∃ t ∈ s.inner.turns, t.refuses = true
  | (data, .waiting) =>
    data <+: s.inner.incoming ∧ (polls ≤ s.inner.turns.length ∨ answers s.inner.turns ≤ s.inner.incoming.length)
  | _ => False

/-- A poll, and then the rest. -/
theorem Exact.after {s s' : FixedAsyncRead Conn} {polls : Nat} {bytes : List UInt8} {r : List UInt8 × Ending}
    (h : Exact s' polls r) (incoming : s.inner.incoming = bytes ++ s'.inner.incoming)
    (remaining : s.remaining = bytes.length + s'.remaining) (spends : Spends bytes.length s.inner s'.inner)
    (shorter : s.inner.turns ≠ [] → s'.inner.turns.length < s.inner.turns.length) :
    Exact s (polls + 1) (bytes ++ r.1, r.2) := by
  have hlength : s.inner.incoming.length = bytes.length + s'.inner.incoming.length := by
    rw [incoming, List.length_append]
  have hcount := spends.count
  obtain ⟨data, ending⟩ := r
  cases ending with
  | eof =>
    obtain ⟨rfl, hend⟩ := h
    exact ⟨incoming.symm, by omega⟩
  | failed kind =>
    cases kind with
    | unexpectedEof =>
      obtain ⟨rfl, hend⟩ := h
      exact ⟨incoming.symm, by omega⟩
    | connection =>
      obtain ⟨hdata, hrefuses⟩ := h
      refine ⟨?_, spends.refuses hrefuses⟩
      rw [incoming]
      exact (List.prefix_append_right_inj bytes).mpr hdata
    | writeZero => exact h
    | invalidData => exact h
  | waiting =>
    obtain ⟨hdata, hmany⟩ := h
    refine ⟨?_, ?_⟩
    · rw [incoming]
      exact (List.prefix_append_right_inj bytes).mpr hdata
    · by_cases hturns : s.inner.turns = []
      · right
        rw [hturns]
        exact Nat.zero_le _
      · have := shorter hturns
        omega
  | panicked => exact h

theorem readToEnd_exact {bufs : List ReadBuf} (husable : ∀ buf ∈ bufs, Usable buf) :
    ∀ {s : FixedAsyncRead Conn}, s.inner.incoming.length ≤ s.remaining → Exact s bufs.length (s.readToEnd bufs) := by
  induction bufs with
  | nil => exact fun _ => ⟨List.nil_prefix, Or.inl (Nat.zero_le _)⟩
  | cons buf bufs ih =>
    intro s hle
    replace ih (s' : FixedAsyncRead Conn) := @ih (fun b hb => husable b (List.mem_cons_of_mem _ hb)) s'
    have hpolled := s.polled (husable buf List.mem_cons_self)
    unfold FixedAsyncRead.readToEnd
    generalize s.pollRead buf = r at hpolled ⊢
    cases hpolled with
    | complete hnone =>
      have hnil : s.inner.incoming = [] := List.length_eq_zero_iff.mp (by omega)
      dsimp only
      rw [if_pos rfl]
      exact ⟨hnil.symm, by rw [hnil, hnone]; rfl⟩
    | @pending inner hmore spends shorter incoming =>
      have hrest := ih { s with inner := inner } (by rw [incoming]; exact hle)
      have hnothing : s.inner.incoming = [] ++ inner.incoming := incoming.symm
      exact hrest.after hnothing (Nat.zero_add _).symm spends shorter
    | failed refuses => exact ⟨List.nil_prefix, refuses⟩
    | ended hmore incoming =>
      refine ⟨incoming.symm, ?_⟩
      rw [incoming]
      exact hmore
    | @read bytes inner buf' hnonempty fits incoming spends shorter filled =>
      have hlength := congrArg List.length incoming
      rw [List.length_append] at hlength
      have hpos := List.length_pos_iff.mpr hnonempty
      have hrest := ih ⟨inner, s.remaining - bytes.length⟩ (by dsimp only; omega)
      have hnew : ¬ (buf.filled ++ bytes).length = buf.filled.length := by
        rw [List.length_append]
        omega
      dsimp only
      rw [filled, if_neg hnew, List.drop_left]
      exact hrest.after incoming (by dsimp only; omega) (spends.mono hpos) fun _ => shorter

/-! ## One poll, with any buffer -/

section Contract
variable {R : Type} [AsyncRead R]

/-- The room in the buffer that the inner reader is given. -/
def FixedAsyncRead.room (s : FixedAsyncRead R) (buf : ReadBuf) : Nat := min s.remaining buf.remaining

/-- How the inner reader answers the poll. -/
def FixedAsyncRead.innerAnswer (s : FixedAsyncRead R) (buf : ReadBuf) : Poll (Except ErrorKind (List UInt8)) :=
  (AsyncRead.pollRead s.inner (s.room buf)).1

/-- The inner reader does not write beyond the buffer it is given. -/
def WithinRoom (s : FixedAsyncRead R) (buf : ReadBuf) : Prop :=
  ∀ bytes, s.innerAnswer buf = .ready (.ok bytes) → bytes.length ≤ s.room buf

/-- What the inner reader produces in the poll. It is not polled once all bytes have been read. -/
def FixedAsyncRead.produced (s : FixedAsyncRead R) (buf : ReadBuf) : List UInt8 :=
  if s.remaining = 0 then []
  else
    match s.innerAnswer buf with
    | .ready (.ok bytes) => bytes
    | _ => []

/-- The inner reader is at its end: it has room and reads nothing, or it says so itself. -/
def FixedAsyncRead.AtEnd (s : FixedAsyncRead R) (buf : ReadBuf) : Prop :=
  0 < s.room buf ∧ s.innerAnswer buf = .ready (.ok []) ∨ s.innerAnswer buf = .ready (.error .unexpectedEof)

/-- The contract of a poll: it does not panic, what the inner reader produces is appended to the buffer, and the end is
reported as unexpected only if the inner reader is at it and bytes are missing. -/
structure Honours (s : FixedAsyncRead R) (buf : ReadBuf) : Prop where
  advances : (s.pollRead buf).1 ≠ none
  appends : ∀ poll buf', (s.pollRead buf).1 = some (poll, buf') → buf'.filled = buf.filled ++ s.produced buf
  ends : ∀ buf', (s.pollRead buf).1 = some (.ready (.error .unexpectedEof), buf') → s.AtEnd buf ∧ 0 < s.remaining

/-- The caller's buffer suits the answer: it has room, and what is read lies in its initialised part. -/
def Suits (s : FixedAsyncRead R) (buf : ReadBuf) : Prop :=
  s.remaining ≠ 0 → ∀ bytes, s.innerAnswer buf = .ready (.ok bytes) →
    0 < buf.remaining ∧ buf.filled.length + bytes.length ≤ buf.initialized

theorem withinRoom_conn (s : FixedAsyncRead Conn) (buf : ReadBuf) : WithinRoom s buf := by
  intro bytes hbytes
  have hread := s.inner.read (s.room buf)
  unfold FixedAsyncRead.innerAnswer at hbytes
  rw [pollRead_conn] at hbytes
  generalize s.inner.pollRead _ = answer at hread hbytes
  cases hread with
  | pending => cases hbytes
  | failed => cases hbytes
  | arrived spends shorter incoming written fits ended =>
    cases hbytes
    exact fits

/-- A poll of a reader that still waits for bytes, by the inner reader's answer. -/
theorem FixedAsyncRead.pollRead_eq {s : FixedAsyncRead R} {buf : ReadBuf} (h : s.remaining ≠ 0) :
    (s.pollRead buf).1 =
      match s.innerAnswer buf with
      | .pending => some (.pending, buf)
      | .ready (.error kind) => some (.ready (.error kind), buf)
      | .ready (.ok bytes) =>
        if s.room buf < bytes.length then none
        else if bytes.length = 0 then some (.ready (.error .unexpectedEof), buf)
        else (buf.advance bytes).map fun buf' => (.ready (.ok ()), buf') := by
  have hroom : (buf.take (min s.remaining buf.remaining)).remaining = s.room buf := by
    rw [ReadBuf.remaining_take]
    exact min_eq_right (min_le_right _ _)
  unfold pollRead innerAnswer
  rw [if_neg h, hroom]
  rcases AsyncRead.pollRead s.inner (s.room buf) with ⟨_ | kind | bytes, inner⟩
  · rfl
  · rfl
  dsimp only
  by_cases hfits : bytes.length ≤ s.room buf
  · obtain ⟨limited, hlimited, hfilled⟩ :=
      (buf.take (min s.remaining buf.remaining)).putSlice_of_le (hroom.symm ▸ hfits)
    rw [ReadBuf.filled_take, List.nil_append] at hfilled
    have hremaining : s.room buf ≤ s.remaining := min_le_left _ _
    rw [hlimited, if_neg (Nat.not_lt.mpr hfits)]
    dsimp only
    rw [hfilled]
    split_ifs with hnone hmore
    · rfl
    · omega
    · cases buf.advance bytes <;> rfl
  · have hnone : (buf.take (min s.remaining buf.remaining)).putSlice bytes = none :=
      dif_neg (hroom.symm ▸ hfits)
    rw [hnone, if_pos (Nat.not_le.mp hfits)]

theorem ReadBuf.advance_eq_none {buf : ReadBuf} {bytes : List UInt8}
    (h : ¬ buf.filled.length + bytes.length ≤ buf.initialized) : buf.advance bytes = none := dif_neg h

section Polled
variable {s : FixedAsyncRead R} {buf : ReadBuf}

/-- A poll that leaves the buffer as it was and does not report the end. -/
theorem Honours.of_unchanged {poll : Poll (Except ErrorKind Unit)} (hpoll : (s.pollRead buf).1 = some (poll, buf))
    (hproduced : s.produced buf = []) (hends : poll = .ready (.error .unexpectedEof) → s.AtEnd buf ∧ 0 < s.remaining) :
    Honours s buf := by
  refine ⟨?_, fun poll' buf' h => ?_, fun buf' h => ?_⟩
  · rw [hpoll]
    exact Option.some_ne_none _
  · obtain ⟨-, rfl⟩ := Prod.mk.inj (Option.some.inj (hpoll.symm.trans h))
    rw [hproduced, List.append_nil]
  · exact hends (Prod.mk.inj (Option.some.inj (hpoll.symm.trans h))).1

theorem produced_of_answer {bytes : List UInt8} (hmore : s.remaining ≠ 0) (h : s.innerAnswer buf = .ready (.ok bytes)) :
    s.produced buf = bytes := by
  unfold FixedAsyncRead.produced
  rw [if_neg hmore, h]

/-- The inner reader reads nothing, which is taken for its end. -/
theorem honours_nothing_iff (hmore : s.remaining ≠ 0) (h : s.innerAnswer buf = .ready (.ok [])) :
    Honours s buf ↔ 0 < buf.remaining := by
  have hroom : 0 < s.room buf ↔ 0 < buf.remaining := by
    unfold FixedAsyncRead.room
    omega
  have hpoll : (s.pollRead buf).1 = some (.ready (.error .unexpectedEof), buf) := by
    rw [FixedAsyncRead.pollRead_eq hmore, h]
    rfl
  constructor
  · intro hhonours
    rcases (hhonours.ends buf hpoll).1 with ⟨hpos, -⟩ | herror
    · exact hroom.mp hpos
    · cases h.symm.trans herror
  · intro hpos
    refine .of_unchanged hpoll (produced_of_answer hmore h) fun _ => ⟨.inl ⟨hroom.mpr hpos, h⟩, ?_⟩
    exact Nat.pos_of_ne_zero hmore

/-- The inner reader reads bytes, which are to be counted as filled. -/
theorem honours_bytes_iff {bytes : List UInt8} (hmore : s.remaining ≠ 0) (h : s.innerAnswer buf = .ready (.ok bytes))
    (hsome : bytes.length ≠ 0) (hfits : bytes.length ≤ s.room buf) :
    Honours s buf ↔ buf.filled.length + bytes.length ≤ buf.initialized := by
  have hpoll : (s.pollRead buf).1 = (buf.advance bytes).map fun buf' => (.ready (.ok ()), buf') := by
    rw [FixedAsyncRead.pollRead_eq hmore, h]
    dsimp only
    rw [if_neg (Nat.not_lt.mpr hfits), if_neg hsome]
  constructor
  · intro hhonours
    by_contra hinit
    rw [ReadBuf.advance_eq_none hinit] at hpoll
    exact hhonours.advances hpoll
  · intro hinit
    obtain ⟨filled, hfilled, hbytes⟩ := buf.advance_of_le hinit
    rw [hfilled, Option.map_some] at hpoll
    refine ⟨hpoll ▸ Option.some_ne_none _, fun poll buf' hbuf' => ?_, fun buf' hbuf' => ?_⟩
    · obtain ⟨-, rfl⟩ := Prod.mk.inj (Option.some.inj (hpoll.symm.trans hbuf'))
      rw [hbytes, produced_of_answer hmore h]
    · cases hpoll.symm.trans hbuf'

end Polled

/-- **One poll**: the contract is kept exactly with a buffer that suits the answer. -/
theorem honours_iff (s : FixedAsyncRead R) (buf : ReadBuf) (h : WithinRoom s buf) :
    Honours s buf ↔ Suits s buf := by
  by_cases hzero : s.remaining = 0
  · have hpoll : (s.pollRead buf).1 = some (.ready (.ok ()), buf) := by
      unfold FixedAsyncRead.pollRead
      rw [if_pos hzero]
    exact iff_of_true (.of_unchanged hpoll (if_pos hzero) nofun) fun hmore => absurd hzero hmore
  have hproduced : s.produced buf = match s.innerAnswer buf with | .ready (.ok bytes) => bytes | _ => [] := if_neg hzero
  have hpoll := @FixedAsyncRead.pollRead_eq R _ s buf hzero
  rcases hanswer : s.innerAnswer buf with _ | kind | bytes
  · rw [hanswer] at hpoll hproduced
    exact iff_of_true (.of_unchanged hpoll hproduced nofun) fun _ _ hok => nomatch hanswer.symm.trans hok
  · rw [hanswer] at hpoll hproduced
    refine iff_of_true (.of_unchanged hpoll hproduced fun hkind => ?_) fun _ _ hok => nomatch hanswer.symm.trans hok
    obtain rfl : kind = .unexpectedEof := by
      cases hkind
      rfl
    exact ⟨.inr hanswer, Nat.pos_of_ne_zero hzero⟩
  have hfits := h bytes hanswer
  have hle : s.room buf ≤ buf.remaining := min_le_right _ _
  have hsuits : Suits s buf ↔ 0 < buf.remaining ∧ buf.filled.length + bytes.length ≤ buf.initialized :=
    ⟨fun hall => hall hzero bytes hanswer, fun hone _ bytes' hok => by
      cases hanswer.symm.trans hok
      exact hone⟩
  rw [hsuits]
  by_cases hnone : bytes.length = 0
  · obtain rfl := List.length_eq_zero_iff.mp hnone
    rw [honours_nothing_iff hzero hanswer]
    exact (and_iff_left buf.filled_le).symm
  · rw [honours_bytes_iff hzero hanswer hnone hfits]
    exact (and_iff_right (by omega)).symm

/-- Two bytes are declared and arrive together, in a buffer with one byte filled and three more initialised. -/
theorem honours_two_bytes :
    Honours (⟨{ incoming := [7, 8], turns := [.ready 2] }, 2⟩ : FixedAsyncRead Conn) ⟨[1], 4, 4, by decide, by decide⟩ :=
  (honours_iff _ _ (withinRoom_conn _ _)).mpr fun _ _ h => by
    cases h
    decide

/-- The same bytes in a buffer that is not initialised make the poll panic, and in a full one they are reported as
missing. -/
theorem honours_fails :
    (¬ ∀ (s : FixedAsyncRead Conn) (buf : ReadBuf), WithinRoom s buf → Honours s buf) ∧
      (FixedAsyncRead.pollRead ⟨({ incoming := [7, 8], turns := [.ready 2] } : Conn), 2⟩ (.uninit 4)).1 = none ∧
      (FixedAsyncRead.pollRead ⟨({ incoming := [7, 8], turns := [.ready 2] } : Conn), 2⟩ (.new 0)).1 =
        some (.ready (.error .unexpectedEof), .new 0) := by
  refine ⟨fun hclaim => ?_, by decide, by decide⟩
  exact (hclaim ⟨{ incoming := [7, 8], turns := [.ready 2] }, 2⟩ (.uninit 4) (withinRoom_conn _ _)).advances (by decide)

end Contract

end Hypha.Network
