import Hypha.Network.Fixed
import Hypha.Network.Streams

/-!
# Length-framed streams deliver everything or fail

* `frame` : a payload with its length before it;
* `sent`, `received` : what a sender's end of the stream accepts, and what a receiver gets;
* `AllOrFail` : the whole payload and the end of the file, or a prefix of it and an error;
* `streams_all_or_fail` : push and pull streams, over every fragmentation and every end of the streams.
-/

namespace Hypha.Network

open Hypha.Lib

/-- Bytes with their length before them. -/
def frame (bytes : List UInt8) : List UInt8 := toLe 8 bytes.length ++ bytes

/-- What arrives of a frame starts with the length, and the rest is the beginning of the bytes. -/
theorem frame_split {header rest bytes : List UInt8} (hheader : header.length = 8) (hlen : bytes.length < 2 ^ 64)
    (h : header ++ rest <+: frame bytes) :
    header = toLe 8 bytes.length ∧ ofLe header = bytes.length ∧ rest <+: bytes := by
  obtain ⟨tail, htail⟩ := h
  unfold frame at htail
  rw [List.append_assoc] at htail
  obtain ⟨rfl, hrest⟩ := List.append_inj htail (by rw [hheader, length_toLe])
  exact ⟨rfl, ofLe_toLe 8 hlen, tail, hrest⟩

/-! ## Senders -/

/-- What the stream of a sender accepts, the sender having opened it and then used the writer. -/
def sent (ops : List WriteOp) : EStateM.Result Stop Conn (Option (FixedAsyncWrite Conn)) → List UInt8
  | .ok (some writer) _ => (writing.run writer ops).state.inner.written
  | .ok none c => c.written
  | .error _ c => c.written

/-- The sender writes the payload piece by piece. -/
def SendsSlices (payload : List UInt8) (ops : List WriteOp) :
    EStateM.Result Stop Conn (Option (FixedAsyncWrite Conn)) → Prop
  | .ok (some writer) _ => Along (Slices payload) (writing.run writer ops).history
  | _ => True

/-- Every step of the sender is checked. -/
def SendsChecked (payload : List UInt8) (ops : List WriteOp) :
    EStateM.Result Stop Conn (Option (FixedAsyncWrite Conn)) → Prop
  | .ok (some writer) _ => Along (WriteChecked (toLe 8 payload.length) payload) (writing.run writer ops).history
  | _ => True

/-- What opening a stream for a payload leaves. -/
def OpensWriter (payload : List UInt8) (x : Async (Option (FixedAsyncWrite Conn))) (c : Conn) : Prop :=
  Ends x c
    (fun writer c' => match writer with
      | some writer => Agrees (toLe 8 payload.length) payload [] writer
      | none => c'.written = [])
    (fun _ c' => c'.written <+: frame payload)

theorem OpensWriter.sent {payload : List UInt8} {x : Async (Option (FixedAsyncWrite Conn))} {c : Conn}
    (h : OpensWriter payload x c) {ops : List WriteOp} (hslices : SendsSlices payload ops (x c)) :
    sent ops (x c) <+: frame payload ∧ SendsChecked payload ops (x c) := by
  unfold OpensWriter Ends at h
  generalize x c = r at h hslices ⊢
  cases r with
  | ok writer c' =>
    cases writer with
    | none =>
      dsimp only at h
      refine ⟨?_, trivial⟩
      change c'.written <+: frame payload
      rw [h]
      exact List.nil_prefix
    | some writer =>
      obtain ⟨hagrees, hchecked⟩ := writing_checked h ops hslices
      refine ⟨?_, hchecked⟩
      change (writing.run writer ops).state.inner.written <+: frame payload
      rw [hagrees.written]
      exact (List.prefix_append_right_inj _).mpr hagrees.begins
  | error stop c' => exact ⟨h, trivial⟩

/-- `open_push_stream`, for a writer. -/
def push (payloadLen : Nat) : Async (Option (FixedAsyncWrite Conn)) := some <$> openPushStream payloadLen

/-- `streams_pull` and then `create_response`, for a writer. -/
def respond {PeerId T : Type} (json : Json T) (peerId : PeerId) (payloadLen : Nat) :
    Async (Option (FixedAsyncWrite Conn)) := do
  match ← streamsPull json peerId with
  | none => return none
  | some incoming =>
    let (_, _, writer) ← incoming.createResponse payloadLen
    return some writer

/-- The length of the payload is announced. -/
theorem announce_agrees {payload : List UInt8} {c c' : Conn} (hfresh : c.written = [])
    (hwritten : c'.written = c.written ++ toLe 8 payload.length) :
    Agrees (toLe 8 payload.length) payload [] { inner := c', remaining := payload.length } := by
  refine ⟨?_, List.nil_prefix, Nat.zero_add _⟩
  rw [hwritten, hfresh, List.nil_append, List.append_nil]

theorem announce_prefix {payload : List UInt8} {c c' : Conn} (hfresh : c.written = [])
    (hwritten : c'.written <+: c.written ++ toLe 8 payload.length) : c'.written <+: frame payload := by
  rw [hfresh, List.nil_append] at hwritten
  exact hwritten.trans (List.prefix_append _ _)

theorem push_opens (payload : List UInt8) {c : Conn} (hfresh : c.written = []) :
    OpensWriter payload (push payload.length) c := by
  refine Ends.bind (P := fun writer _ => Agrees (toLe 8 payload.length) payload [] writer) ?_ fun writer c' h => h
  refine Ends.writeAll_flush (fun c₁ hwritten _ _ => ?_) fun stop c' h _ => announce_prefix hfresh h
  refine Ends.bind Ends.get fun stream c₂ h => ?_
  obtain ⟨rfl, rfl⟩ := h
  exact announce_agrees hfresh hwritten

/-! ## Requests -/

section Pull

variable {PeerId T : Type} {json : Json T} {peerId : PeerId} {request : T}

/-- The stream ends before a request has been read that is not too long. -/
def EndsEarly (c : Conn) : Prop :=
  c.incoming.length < 8 ∨ ∃ header rest, header.length = 8 ∧ c.incoming = header ++ rest ∧
    ofLe header < maxRequestHeaderSize ∧ rest.length < ofLe header

/-- What is made of the bytes of a request. -/
def RequestRead (json : Json T) (peerId : PeerId) (c c' : Conn) (header : List UInt8) :
    Option (IncomingPullStream PeerId T) → Prop
  | none => maxRequestHeaderSize ≤ ofLe header ∨
      ∃ bytes, bytes.length = ofLe header ∧ c.incoming = header ++ (bytes ++ c'.incoming) ∧ json.fromSlice bytes = none
  | some incoming => incoming.stream = c' ∧ incoming.peerId = peerId ∧ ofLe header < maxRequestHeaderSize ∧
      ∃ bytes, bytes.length = ofLe header ∧ c.incoming = header ++ (bytes ++ c'.incoming) ∧
        json.fromSlice bytes = some incoming.request

theorem streamsPull_ends (json : Json T) (peerId : PeerId) (c : Conn) :
    Ends (streamsPull json peerId) c
      (fun incoming c' => c'.written = c.written ∧
        ∃ header rest, header.length = 8 ∧ c.incoming = header ++ rest ∧ RequestRead json peerId c c' header incoming)
      (fun stop c' => c'.written = c.written ∧
        StopsFor (answers c.turns ≤ c.incoming.length) (EndsEarly c) c stop) := by
  refine Ends.bind ((readExact_ends 8 c).mono (fun _ _ h => h) ?_) ?_
  · rintro stop c' ⟨hwritten, hstop⟩
    exact ⟨hwritten, hstop.after (.refl c) (fun h => h) Or.inl⟩
  rintro header c₁ ⟨hheader, hincoming, hwritten, hspends⟩
  have hlength := congrArg List.length hincoming
  rw [List.length_append] at hlength
  split_ifs with hlarge
  · exact ⟨hwritten, header, _, hheader, hincoming, Or.inl hlarge⟩
  have hsmall : ofLe header < maxRequestHeaderSize := Nat.lt_of_not_le hlarge
  refine Ends.bind ((readExact_ends (ofLe header) c₁).mono (fun _ _ h => h) ?_) ?_
  · rintro stop c' ⟨hwritten', hstop⟩
    refine ⟨hwritten'.trans hwritten, hstop.after hspends (fun h => ?_) fun h => ?_⟩
    · have hcount := hspends.count
      omega
    · exact Or.inr ⟨header, _, hheader, hincoming, hsmall, h⟩
  rintro bytes c₂ ⟨hbytes, hincoming', hwritten', -⟩
  refine Ends.bind Ends.get fun stream c₃ h => ?_
  obtain ⟨rfl, rfl⟩ := h
  refine Ends.pure ⟨hwritten'.trans hwritten, header, _, hheader, hincoming, ?_⟩
  rw [hincoming'] at hincoming
  cases hjson : json.fromSlice bytes with
  | none => exact Or.inr ⟨bytes, hbytes, hincoming, hjson⟩
  | some request => exact ⟨rfl, rfl, hsmall, bytes, hbytes, hincoming, hjson⟩

/-- What becomes of a request: it arrives as it was sent, unless it is too long or the stream ends or fails. -/
def RequestArrives (json : Json T) (peerId : PeerId) (request : T) (c : Conn) :
    EStateM.Result Stop Conn (Option (IncomingPullStream PeerId T)) → Prop
  | .ok (some incoming) _ => incoming.request = request ∧ incoming.peerId = peerId ∧
      (json.toVec request).length < maxRequestHeaderSize ∧ c.incoming = frame (json.toVec request)
  | .ok none _ => maxRequestHeaderSize ≤ (json.toVec request).length
  | .error .waiting _ => answers c.turns ≤ c.incoming.length
  | .error (.failed .unexpectedEof) _ => c.incoming ≠ frame (json.toVec request)
  | .error (.failed .invalidData) _ => False
  | .error (.failed _) _ => ∃ t ∈ c.turns, t.refuses = true

theorem request_arrives {c : Conn} (harrives : c.incoming <+: frame (json.toVec request)) :
    RequestArrives json peerId request c (streamsPull json peerId c) := by
  have hends := streamsPull_ends json peerId c
  unfold Ends at hends
  generalize streamsPull json peerId c = r at hends ⊢
  cases r with
  | ok incoming c' =>
    obtain ⟨-, header, rest, hheader, hincoming, hread⟩ := hends
    rw [hincoming] at harrives
    obtain ⟨rfl, hlength, hrest⟩ := frame_split hheader (json.length_lt request) harrives
    -- the bytes that were read are as many as those of the request, hence the same
    have hbytes : ∀ bytes, bytes.length = ofLe (toLe 8 (json.toVec request).length) →
        c.incoming = toLe 8 (json.toVec request).length ++ (bytes ++ c'.incoming) →
          bytes = json.toVec request ∧ c'.incoming = [] := by
      intro bytes hbytes hsplit
      obtain rfl : rest = bytes ++ c'.incoming := List.append_cancel_left (hincoming.symm.trans hsplit)
      rw [hlength] at hbytes
      have hle := hrest.length_le
      rw [List.length_append] at hle
      have hnil : c'.incoming = [] := List.length_eq_zero_iff.mp (by omega)
      rw [hnil, List.append_nil] at hrest
      exact ⟨hrest.eq_of_length hbytes, hnil⟩
    cases incoming with
    | none =>
      rcases hread with hlarge | ⟨bytes, hcount, hsplit, hjson⟩
      · rwa [hlength] at hlarge
      · rw [(hbytes bytes hcount hsplit).1, json.fromSlice_toVec] at hjson
        cases hjson
    | some incoming =>
      obtain ⟨-, hpeer, hsmall, bytes, hcount, hsplit, hjson⟩ := hread
      obtain ⟨rfl, hnil⟩ := hbytes bytes hcount hsplit
      rw [json.fromSlice_toVec] at hjson
      rw [hlength] at hsmall
      refine ⟨(Option.some.inj hjson).symm, hpeer, hsmall, ?_⟩
      rw [hsplit, hnil, List.append_nil]
      rfl
  | error stop c' =>
    obtain ⟨-, hstop⟩ := hends
    cases stop with
    | waiting => exact hstop
    | failed kind =>
      cases kind with
      | unexpectedEof =>
        intro hall
        rcases hstop with hshort | ⟨header, rest, hheader, hincoming, -, hshort⟩
        · rw [hall, frame, List.length_append, length_toLe] at hshort
          omega
        · rw [hincoming] at hall
          obtain ⟨rfl, hlength, -⟩ := frame_split hheader (json.length_lt request) ⟨[], by rw [List.append_nil, hall]⟩
          rw [List.append_cancel_left hall, hlength] at hshort
          exact absurd hshort (Nat.lt_irrefl _)
      | connection => exact hstop
      | writeZero => exact hstop
      | invalidData => exact hstop

theorem respond_opens (payload : List UInt8) {c : Conn} (hfresh : c.written = []) :
    OpensWriter payload (respond json peerId payload.length) c := by
  refine Ends.bind ((streamsPull_ends json peerId c).mono (fun _ _ h => h) ?_) ?_
  · rintro stop c' ⟨hwritten, -⟩
    rw [hwritten, hfresh]
    exact List.nil_prefix
  rintro incoming c₁ ⟨hwritten, header, rest, -, -, hread⟩
  cases incoming with
  | none => exact hwritten.trans hfresh
  | some incoming =>
    obtain ⟨rfl, -⟩ := hread
    have hfresh' := hwritten.trans hfresh
    refine Ends.bind (P := fun opened _ => Agrees (toLe 8 payload.length) payload [] opened.2.2) ?_ fun opened _ h => ?_
    · refine Ends.bind (P := fun _ c' => c' = incoming.stream) rfl fun _ c₂ h => ?_
      subst h
      refine Ends.writeAll_flush (fun c₁ hwritten _ _ => ?_) fun stop c' h _ => announce_prefix hfresh' h
      refine Ends.bind Ends.get fun stream c₂ h => ?_
      obtain ⟨rfl, rfl⟩ := h
      exact announce_agrees hfresh' hwritten
    · obtain ⟨peer, request, writer⟩ := opened
      exact h

end Pull

/-! ## Receivers -/

/-- What a receiver gets, having opened the stream and then read from it. -/
def received (bufs : List ReadBuf) : EStateM.Result Stop Conn (FixedAsyncRead Conn) → List UInt8 × Ending
  | .ok reader _ => reader.readToEnd bufs
  | .error .waiting _ => ([], .waiting)
  | .error (.failed kind) _ => ([], .failed kind)

/-- **All or fail.** The end of the file comes after the whole payload, and `UnexpectedEof` after what has arrived of it
if that is not all. Reading waits on only while the receiver polls little or the stream answers little, `extra` answers
being for what the receiver writes. -/
def AllOrFail (payload : List UInt8) (extra : Nat) (c : Conn) (polls : Nat) : List UInt8 × Ending → Prop
  | (data, .eof) => data = payload ∧ c.incoming = frame payload
  | (data, .failed .unexpectedEof) => data = c.incoming.drop 8 ∧ data <+: payload ∧ c.incoming ≠ frame payload
  | (_, .failed .invalidData) => False
  | (data, .failed _) => data <+: payload ∧ ∃ t ∈ c.turns, t.refuses = true
  | (data, .waiting) => data <+: payload ∧ (polls ≤ c.turns.length ∨ answers c.turns ≤ c.incoming.length + extra)
  | (_, .panicked) => False

/-- Why opening a stream to read from it stops. -/
def OpenStops (extra : Nat) (c : Conn) : Stop → Prop :=
  StopsFor (answers c.turns ≤ c.incoming.length + extra) (c.incoming.length < 8) c

/-- A reader for the rest of the stream, which has read the length. -/
def OpenedReader (extra : Nat) (c : Conn) (reader : FixedAsyncRead Conn) : Prop :=
  ∃ header, header.length = 8 ∧ c.incoming = header ++ reader.inner.incoming ∧ reader.remaining = ofLe header ∧
    Spends (8 + extra) c reader.inner

theorem OpenedReader.allOrFail {payload : List UInt8} {extra : Nat} {c : Conn} {reader : FixedAsyncRead Conn}
    (h : OpenedReader extra c reader) (hlen : payload.length < 2 ^ 64) (harrives : c.incoming <+: frame payload)
    {bufs : List ReadBuf} (husable : ∀ buf ∈ bufs, Usable buf) :
    AllOrFail payload extra c bufs.length (reader.readToEnd bufs) := by
  obtain ⟨header, hheader, hincoming, hremaining, hspends⟩ := h
  have hcount := hspends.count
  have hturns := hspends.suffix.length_le
  rw [hincoming] at harrives
  obtain ⟨rfl, hlength, hrest⟩ := frame_split hheader hlen harrives
  rw [hlength] at hremaining
  have hexact := readToEnd_exact husable (s := reader) (hrest.length_le.trans_eq hremaining.symm)
  have hall : c.incoming = frame payload ↔ reader.inner.incoming = payload := by
    rw [hincoming]
    exact List.append_right_inj _
  have hdrop : c.incoming.drop 8 = reader.inner.incoming := by
    rw [hincoming]
    exact List.drop_left' hheader
  have htotal := congrArg List.length hincoming
  rw [List.length_append, hheader] at htotal
  generalize reader.readToEnd bufs = r at hexact ⊢
  obtain ⟨data, ending⟩ := r
  cases ending with
  | eof =>
    obtain ⟨rfl, hend⟩ := hexact
    have hpayload := hrest.eq_of_length (hend.trans hremaining)
    exact ⟨hpayload, hall.mpr hpayload⟩
  | failed kind =>
    cases kind with
    | unexpectedEof =>
      obtain ⟨rfl, hend⟩ := hexact
      refine ⟨hdrop.symm, hrest, fun heq => ?_⟩
      rw [hall.mp heq, hremaining] at hend
      exact absurd hend (Nat.lt_irrefl _)
    | connection => exact ⟨hexact.1.trans hrest, hspends.refuses hexact.2⟩
    | writeZero => exact absurd hexact not_false
    | invalidData => exact hexact
  | waiting =>
    obtain ⟨hdata, hmany⟩ := hexact
    refine ⟨hdata.trans hrest, ?_⟩
    omega
  | panicked => exact hexact

theorem OpenStops.allOrFail {payload : List UInt8} {extra polls : Nat} {c c' : Conn} {stop : Stop}
    (h : OpenStops extra c stop) {bufs : List ReadBuf} : AllOrFail payload extra c polls (received bufs (.error stop c')) := by
  cases stop with
  | waiting => exact ⟨List.nil_prefix, Or.inr h⟩
  | failed kind =>
    cases kind with
    | unexpectedEof =>
      refine ⟨(List.drop_eq_nil_of_le (Nat.le_of_lt h)).symm, List.nil_prefix, fun hall => ?_⟩
      change c.incoming.length < 8 at h
      rw [hall, frame, List.length_append, length_toLe] at h
      omega
    | invalidData => exact h
    | writeZero => exact ⟨List.nil_prefix, h⟩
    | connection => exact ⟨List.nil_prefix, h⟩

/-- The length is read, the stream having been used before. -/
theorem header_ends {extra : Nat} {c c₁ : Conn} (hincoming : c₁.incoming = c.incoming) (hspends : Spends extra c c₁)
    {P : FixedAsyncRead Conn → Conn → Prop} {Q : Stop → Conn → Prop}
    (hP : ∀ reader c', c'.written = c₁.written → OpenedReader extra c reader → P reader c')
    (hQ : ∀ stop c', c'.written = c₁.written → OpenStops extra c stop → Q stop c') :
    Ends (readExact payloadLengthHeaderSize >>= fun header => get >>= fun stream =>
      pure { inner := stream, remaining := ofLe header }) c₁ P Q := by
  refine Ends.bind ((readExact_ends payloadLengthHeaderSize c₁).mono (fun _ _ h => h) ?_) ?_
  · rintro stop c' ⟨hwritten, hstop⟩
    rw [hincoming] at hstop
    refine hQ stop c' hwritten (hstop.after hspends (fun h => ?_) fun h => h)
    have hcount := hspends.count
    omega
  rintro header c₂ ⟨hheader, hsplit, hwritten, hspends'⟩
  refine Ends.bind Ends.get fun stream c₃ h => ?_
  obtain ⟨rfl, rfl⟩ := h
  refine Ends.pure (hP _ _ hwritten ⟨header, hheader, ?_, rfl, ?_⟩)
  · rw [← hincoming, hsplit]
  · exact (hspends.trans hspends').mono (by unfold payloadLengthHeaderSize; omega)

theorem streamsPush_ends (c : Conn) :
    Ends streamsPush c (fun reader _ => OpenedReader 0 c reader) (fun stop _ => OpenStops 0 c stop) :=
  header_ends rfl (.refl c) (fun _ _ _ h => h) fun _ _ _ h => h

/-- What the stream of a receiver accepts while it is opened. -/
def requested : EStateM.Result Stop Conn (FixedAsyncRead Conn) → List UInt8
  | .ok _ c => c.written
  | .error _ c => c.written

/-- How many answers it takes to send a request. -/
def requestAnswers (bytes : List UInt8) : Nat := 8 + (bytes.length + 1)

theorem openPullStream_ends {T : Type} (json : Json T) (request : T) {c : Conn} (hfresh : c.written = []) :
    Ends (openPullStream json request) c
      (fun reader c' => c'.written <+: frame (json.toVec request) ∧
        OpenedReader (requestAnswers (json.toVec request)) c reader)
      (fun stop c' => c'.written <+: frame (json.toVec request) ∧
        OpenStops (requestAnswers (json.toVec request)) c stop) := by
  refine Ends.bind ((writeAll_ends _ c).mono (fun _ _ h => h) ?_) ?_
  · rintro stop c' ⟨⟨part, hpart, hwritten⟩, hstop⟩
    rw [length_toLe] at hstop
    refine ⟨?_, hstop.after (.refl c) (fun h => ?_) False.elim⟩
    · rw [hwritten, hfresh, List.nil_append]
      exact hpart.trans (List.prefix_append _ _)
    · unfold requestAnswers
      omega
  rintro _ c₁ ⟨hwritten, hincoming, hspends⟩
  rw [length_toLe] at hspends
  have hframe : c₁.written ++ json.toVec request = frame (json.toVec request) := by
    rw [hwritten, hfresh, List.nil_append, frame]
  refine Ends.writeAll_flush (fun c₂ hwritten' hincoming' hspends' => ?_) fun stop c' hwritten' hstop => ?_
  · have hsent : c₂.written = frame (json.toVec request) := hwritten'.trans hframe
    refine header_ends (hincoming'.trans hincoming) (hspends.trans hspends') ?_ ?_
    · exact fun reader c' hsame hopened => ⟨by rw [hsame, hsent], hopened⟩
    · exact fun stop c' hsame hstop => ⟨by rw [hsame, hsent], hstop⟩
  · refine ⟨hframe ▸ hwritten', hstop.after hspends (fun h => ?_) False.elim⟩
    have hcount := hspends.count
    unfold requestAnswers
    omega

/-! ## Push and pull streams -/

/-- A push stream from end to end. -/
structure PushRun where
  sender : Conn
  ops : List WriteOp
  receiver : Conn
  bufs : List ReadBuf

namespace PushRun

variable (r : PushRun) (payload : List UInt8)

/-- What arrives before the stream of the receiver ends is what the stream of the sender has accepted until some point. -/
structure Connected : Prop where
  fresh : r.sender.written = []
  slices : SendsSlices payload r.ops (push payload.length r.sender)
  arrives : r.receiver.incoming <+: sent r.ops (push payload.length r.sender)
  usable : ∀ buf ∈ r.bufs, Usable buf

def Delivers : Prop :=
  SendsChecked payload r.ops (push payload.length r.sender) ∧
    AllOrFail payload 0 r.receiver r.bufs.length (received r.bufs (streamsPush r.receiver))

end PushRun

/-- A pull stream from end to end: the puller sends a request, and the provider answers with a payload. -/
structure PullRun (PeerId T : Type) where
  peerId : PeerId
  request : T
  puller : Conn
  provider : Conn
  ops : List WriteOp
  bufs : List ReadBuf

namespace PullRun

variable {PeerId T : Type} (r : PullRun PeerId T) (json : Json T) (payload : List UInt8)

structure Connected : Prop where
  fresh : r.puller.written = [] ∧ r.provider.written = []
  asks : r.provider.incoming <+: requested (openPullStream json r.request r.puller)
  slices : SendsSlices payload r.ops (respond json r.peerId payload.length r.provider)
  arrives : r.puller.incoming <+: sent r.ops (respond json r.peerId payload.length r.provider)
  usable : ∀ buf ∈ r.bufs, Usable buf

def Delivers : Prop :=
  RequestArrives json r.peerId r.request r.provider (streamsPull json r.peerId r.provider) ∧
    SendsChecked payload r.ops (respond json r.peerId payload.length r.provider) ∧
      AllOrFail payload (requestAnswers (json.toVec r.request)) r.puller r.bufs.length
        (received r.bufs (openPullStream json r.request r.puller))

end PullRun

theorem PushRun.Connected.delivers {r : PushRun} {payload : List UInt8} (h : r.Connected payload)
    (hlen : payload.length < 2 ^ 64) : r.Delivers payload := by
  obtain ⟨hsent, hchecked⟩ := (push_opens payload h.fresh).sent h.slices
  have harrives := h.arrives.trans hsent
  refine ⟨hchecked, ?_⟩
  have hends := streamsPush_ends r.receiver
  unfold Ends at hends
  generalize streamsPush r.receiver = opened at hends ⊢
  cases opened with
  | ok reader c => exact hends.allOrFail hlen harrives h.usable
  | error stop c => exact hends.allOrFail

theorem PullRun.Connected.delivers {PeerId T : Type} {r : PullRun PeerId T} {json : Json T} {payload : List UInt8}
    (h : r.Connected json payload) (hlen : payload.length < 2 ^ 64) : r.Delivers json payload := by
  obtain ⟨hsent, hchecked⟩ := (respond_opens payload h.fresh.2).sent h.slices
  have harrives := h.arrives.trans hsent
  have hends := openPullStream_ends json r.request h.fresh.1
  have hasks := h.asks
  refine ⟨?_, hchecked, ?_⟩
  · refine request_arrives (hasks.trans ?_)
    unfold Ends at hends
    generalize openPullStream json r.request r.puller = opened at hends ⊢
    cases opened with
    | ok reader c => exact hends.1
    | error stop c => exact hends.1
  · unfold Ends at hends
    generalize openPullStream json r.request r.puller = opened at hends ⊢
    cases opened with
    | ok reader c => exact hends.2.allOrFail hlen harrives h.usable
    | error stop c => exact hends.2.allOrFail

/-- **Length-framed streams deliver everything or fail**, over every fragmentation and every end of the streams. -/
theorem streams_all_or_fail {PeerId T : Type} (json : Json T) {payload : List UInt8} (hlen : payload.length < 2 ^ 64)
    {push : PushRun} (hpush : push.Connected payload) {pull : PullRun PeerId T} (hpull : pull.Connected json payload) :
    push.Delivers payload ∧ pull.Delivers json payload := ⟨hpush.delivers hlen, hpull.delivers hlen⟩

/-- Requests that are `true` or `false`. -/
def boolJson : Json Bool where
  toVec b := if b then [116, 114, 117, 101] else [102, 97, 108, 115, 101]
  fromSlice bytes :=
    if bytes = [116, 114, 117, 101] then some true else if bytes = [102, 97, 108, 115, 101] then some false else none
  fromSlice_toVec := by decide
  length_lt := by decide

/-- Four bytes are written in two pieces, after one of which too much is tried. -/
def fourBytes : List WriteOp := [.write [1, 2, 3, 4], .write [4, 5], .write [4], .shutdown]

def pushedBytes : PushRun where
  sender := { turns := [.ready 5, .pending, .ready 8, .ready 0, .ready 3, .ready 1, .ready 0] }
  ops := fourBytes
  receiver :=
    { incoming := [4, 0, 0, 0, 0, 0, 0, 0, 1, 2, 3, 4],
      turns := [.ready 3, .pending, .ready 8, .ready 1, .ready 8, .ready 8] }
  bufs := [.new 2, .new 2, .new 2, .new 2]

/-- The response ends early. -/
def pulledBytes : PullRun Nat Bool where
  peerId := 7
  request := true
  puller :=
    { incoming := [4, 0, 0, 0, 0, 0, 0, 0, 1, 2],
      turns := [.ready 8, .ready 4, .ready 0, .ready 8, .ready 1, .ready 1, .ready 1] }
  provider :=
    { incoming := [4, 0, 0, 0, 0, 0, 0, 0, 116, 114, 117, 101],
      turns := [.ready 8, .ready 9, .ready 8, .ready 0, .ready 3, .ready 1, .ready 0] }
  ops := fourBytes
  bufs := [.new 4, .new 4, .new 4]

example : received pushedBytes.bufs (streamsPush pushedBytes.receiver) = ([1, 2, 3, 4], .eof) := by decide

example : received pulledBytes.bufs (openPullStream boolJson true pulledBytes.puller) =
    ([1, 2], .failed .unexpectedEof) := by decide

theorem streams_all_or_fail_fourBytes :
    pushedBytes.Delivers [1, 2, 3, 4] ∧ pulledBytes.Delivers boolJson [1, 2, 3, 4] := by
  have hpush : pushedBytes.Connected [1, 2, 3, 4] := by
    refine ⟨rfl, ⟨?_, ?_, ?_, ?_, trivial⟩, by decide, by decide⟩ <;> intro buf hbuf <;> cases hbuf <;> decide
  have hpull : pulledBytes.Connected boolJson [1, 2, 3, 4] := by
    refine ⟨⟨rfl, rfl⟩, by decide, ⟨?_, ?_, ?_, ?_, trivial⟩, by decide, by decide⟩ <;> intro buf hbuf <;>
      cases hbuf <;> decide
  exact streams_all_or_fail boolJson (by decide) hpush hpull

end Hypha.Network
