import Mathlib.Data.List.TakeWhile
import Hypha.Messages
import Hypha.Tracker.Slice
import Hypha.Worker.Confinement

/-!
# Files between peers (`bridge.rs`, `connector/mod.rs`)

`send_resource` pushes a file to the peers of a reference and tries again when that fails, `receive_subscribe` takes the
first file that a peer has pushed completely. A push stream gives its reader all that was announced or an error
(`utils.rs`), so that it is here what has been sent of a file.

* `sendItems`, `sendAttempt`, `sendResource` : one pass over the peers, one attempt, and the attempts of a request;
* `receiveStreams`, `receive` : the streams that arrive, over what `receiveItem` does with one;
* `exchange` : requests of any peers, and changes to the files by their executors;
* `files_exchanged` : a file that is sent has been written to every peer, and a file that is pointed to is one that was
  sent by that peer, whole.
-/

namespace Hypha.Worker.Exchange

open Hypha.Lib Hypha.Lib.Path
open Hypha.Tracker (IterationOrder)

variable {PeerId : Type} [DecidableEq PeerId]

set_option linter.unusedSectionVars false

/-- The contents of files, by the components of their paths. -/
abbrev Contents := List Component → Option (List UInt8)

def Contents.write (files : Contents) (path : Path) (content : Option (List UInt8)) : Contents :=
  Function.update files (components path) content

/-- A push stream, and what has been sent over it. -/
structure Push (PeerId : Type) where
  source : PeerId
  target : PeerId
  payloadLen : Nat
  sent : List UInt8 := []

/-! ## Sending -/

structure SendRequest (PeerId : Type) where
  resource : Reference PeerId
  path : Path
  removeFile : Bool

/-- How the steps for one peer turn out; `copied` is how much is copied if that breaks off. -/
structure SendStep where
  opening : Except String Unit := .ok ()
  reopenings : List (Except String Unit) := []
  openFile : Except String Unit := .ok ()
  copy : Except String Unit := .ok ()
  copied : Nat := 0
  shutdown : Except String Unit := .ok ()

/-- How an attempt turns out: the order in which streams are opened, the steps for the first one, the second and so on,
before which of them the cancellation comes, and which streams are open but not written to when the attempt ends. -/
structure SendIo (PeerId : Type) where
  metadata : Except String Unit := .ok ()
  order : IterationOrder PeerId := .listed PeerId
  step : Nat → SendStep := fun _ => {}
  cancelled : Option Nat := none
  ahead : PeerId → Bool := fun _ => false
  remove : Except String Unit := .ok ()

/-- `Retry::spawn`, after the first attempt. -/
def retry : Except String Unit → List (Except String Unit) → Except String Unit
  | .ok (), _ => .ok ()
  | .error e, [] => .error e
  | .error _, next :: rest => retry next rest

section Send
variable (source : PeerId) (content : List UInt8) (io : SendIo PeerId)

/-- The file is copied to a stream, which is shut down then. -/
def sendItem (step : SendStep) (peer : PeerId) : Push PeerId × Except BridgeError Unit :=
  match step.openFile, step.copy with
  | .error e, _ => (⟨source, peer, content.length, []⟩, .error (.io e))
  | .ok (), .error e => (⟨source, peer, content.length, content.take step.copied⟩, .error (.io e))
  | .ok (), .ok () => (⟨source, peer, content.length, content⟩, step.shutdown.mapError .io)

/-- The streams that were opened ahead. -/
def leftOpen (peers : List PeerId) : List (Push PeerId) :=
  (peers.filter io.ahead).map fun peer => ⟨source, peer, content.length, []⟩

/-- The loop over the writers, from the one at `idx`. -/
def sendItems : Nat → List PeerId → List (Push PeerId) × Except BridgeError Unit
  | _, [] => ([], .ok ())
  | idx, peer :: peers =>
    if io.cancelled = some idx then (leftOpen source content io (peer :: peers), .ok ())
    else
      match retry (io.step idx).opening ((io.step idx).reopenings.take 15) with
      | .error e => (leftOpen source content io peers, .error (.connector e))
      | .ok () =>
        match sendItem source content (io.step idx) peer with
        | (push, .error e) => (push :: leftOpen source content io peers, .error e)
        | (push, .ok ()) =>
          let rest := sendItems (idx + 1) peers
          (push :: rest.1, rest.2)

/-- One stream, which is opened once. -/
def sendFirst (peer : PeerId) : List (Push PeerId) × Except BridgeError Unit :=
  match (io.step 0).opening with
  | .error e => ([], .error (.connector e))
  | .ok () =>
    if io.cancelled = some 0 then ([⟨source, peer, content.length, []⟩], .ok ())
    else ([(sendItem source content (io.step 0) peer).1], (sendItem source content (io.step 0) peer).2)

/-- `connector.send`, and the loop. If one peer is enough it is the first. -/
def sendTo : Reference PeerId → List (Push PeerId) × Except BridgeError Unit
  | .peers peers .all _ => sendItems source content io 0 (io.order.arrange peers)
  | .peers [] _ _ => ([], .error (.connector "IO error: no peers provided"))
  | .peers (peer :: _) _ _ => sendFirst source content io peer
  | _ => ([], .error (.connector "unsupported send reference"))

variable (workDir : Path) (req : SendRequest PeerId)

/-- The streams of an attempt, the files after it and its result. -/
def sendAttempt (files : Contents) : Contents × List (Push PeerId) × Except BridgeError Unit :=
  match safeJoin workDir req.path with
  | .error e => (files, [], .error e)
  | .ok abs =>
    match io.metadata, files (components abs) with
    | .error e, _ => (files, [], .error (.io e))
    | .ok (), none => (files, [], .error (.io "No such file or directory (os error 2)"))
    | .ok (), some content =>
      match sendTo source content io req.resource with
      | (pushes, .error e) => (files, pushes, .error e)
      | (pushes, .ok ()) =>
        if !req.removeFile then (files, pushes, .ok ())
        else
          match io.remove with
          | .error e => (files, pushes, .error (.io e))
          | .ok () => (files.write abs none, pushes, .ok ())

/-- `send_resource`: attempts until one succeeds, or there are no more. -/
def sendResource : SendIo PeerId → List (SendIo PeerId) → Contents →
    Contents × List (Push PeerId) × Except BridgeError Unit
  | io, [], files => sendAttempt source io workDir req files
  | io, next :: ios, files =>
    match sendAttempt source io workDir req files with
    | (files, pushes, .ok ()) => (files, pushes, .ok ())
    | (files, pushes, .error _) =>
      let rest := sendResource next ios files
      (rest.1, pushes ++ rest.2.1, rest.2.2)

end Send

/-! ## Receiving -/

/-- What the loop waits for: the end, an error, or one of the streams, with how much of it arrives if it breaks off and
how its file turns out. -/
inductive Arrival where
  | stopped
  | failed (error : String)
  | stream (k : Nat) (arrives : Option Nat) (disk : ItemIo)

/-- What is copied to the file. -/
def Push.copied (push : Push PeerId) (arrives : Option Nat) : List UInt8 :=
  push.sent.take (arrives.getD push.payloadLen)

/-- A reader of the announced length fails if the stream ends before. -/
def Push.item (text : PeerId → Path) (push : Push PeerId) (arrives : Option Nat) (disk : ItemIo) : ReadItem where
  name := text push.source
  io := { disk with
    copy :=
      if (push.copied arrives).length < push.payloadLen then .error "unexpected end of file"
      else disk.copy.map fun _ => (push.copied arrives).length }

structure ReceiveRequest (PeerId : Type) where
  resource : Reference PeerId
  path : Option Path := none
  idleTimeout : Option Nat := none
  createDir : Except String Unit := .ok ()
  streamsPush : Except String Unit := .ok ()

/-- The files, and the streams that were taken. -/
structure Receiver where
  files : Contents
  accepted : List Nat

section Receive
variable (text : PeerId → Path) (workDir dirRel : Path) (self : PeerId) (allow : List PeerId)
  (pushes : List (Push PeerId))

/-- The loop. A stream of a peer that is not allowed is dropped. -/
def receiveStreams : List Arrival → Receiver → Receiver × Option UpdatePointer
  | [], r | .stopped :: _, r => (r, none)
  | .failed _ :: arrivals, r => receiveStreams arrivals r
  | .stream k arrives disk :: arrivals, r =>
    match pushes[k]? with
    | none => receiveStreams arrivals r
    | some push =>
      if push.target ≠ self ∨ k ∈ r.accepted then receiveStreams arrivals r
      else if !(allow.isEmpty || allow.contains push.source) then
        receiveStreams arrivals { r with accepted := k :: r.accepted }
      else
        let (written, pointer) := receiveItem workDir dirRel (push.item text arrives disk)
        let r' : Receiver :=
          { files := written.foldl (fun files path => files.write path (some (push.copied arrives))) r.files
            accepted := k :: r.accepted }
        match pointer with
        | some pointer => (r', some pointer)
        | none => receiveStreams arrivals r'

/-- `receive_subscribe`. -/
def receive (req : ReceiveRequest PeerId) (arrivals : List Arrival) (r : Receiver) :
    Receiver × Except BridgeError (Option UpdatePointer) :=
  let dirRel := req.path.getD (utf8Bytes "incoming")
  match safeJoin workDir dirRel, req.createDir with
  | .error e, _ => (r, .error e)
  | .ok _, .error e => (r, .error (.io e))
  | .ok _, .ok () =>
    if req.idleTimeout = some 0 then (r, .ok none)
    else
      match req.resource, req.streamsPush with
      | .peers allow .all _, .ok () =>
        let (r, pointer) := receiveStreams text workDir dirRel self allow pushes arrivals r
        (r, .ok pointer)
      | _, _ => (r, .ok none)

end Receive

/-! ## Requests of any peers -/

/-- How peers are written: not empty, and without dots and slashes. -/
structure PeerText (PeerId : Type) where
  text : PeerId → Path
  ne_nil : ∀ p, text p ≠ []
  dot : ∀ p, Path.dot ∉ text p
  sep : ∀ p, Path.sep ∉ text p

structure Peers (PeerId : Type) where
  files : PeerId → Contents
  pushes : List (Push PeerId) := []
  accepted : List Nat := []

inductive ExchangeInput (PeerId : Type) where
  /-- An executor changes a file. -/
  | write (peer : PeerId) (path : Path) (content : Option (List UInt8))
  | send (peer : PeerId) (req : SendRequest PeerId) (io : SendIo PeerId) (ios : List (SendIo PeerId))
  | receive (peer : PeerId) (req : ReceiveRequest PeerId) (arrivals : List Arrival)

inductive ExchangeOutput where
  | written
  | sent (result : Except BridgeError Unit)
  | received (result : Except BridgeError (Option UpdatePointer))

section Machine
variable (peerText : PeerText PeerId) (workDir : PeerId → Path)

def Peers.step (s : Peers PeerId) : ExchangeInput PeerId → Peers PeerId × ExchangeOutput
  | .write peer path content =>
    ({ s with files := Function.update s.files peer ((s.files peer).write path content) }, .written)
  | .send peer req io ios =>
    let (files, pushes, result) := sendResource peer (workDir peer) req io (ios.take 20) (s.files peer)
    ({ s with files := Function.update s.files peer files, pushes := s.pushes ++ pushes }, .sent result)
  | .receive peer req arrivals =>
    let (r, result) := receive peerText.text (workDir peer) peer s.pushes req arrivals ⟨s.files peer, s.accepted⟩
    ({ s with files := Function.update s.files peer r.files, accepted := r.accepted }, .received result)

def exchange : Machine (Peers PeerId) (ExchangeInput PeerId) ExchangeOutput := ⟨Peers.step peerText workDir⟩

end Machine

abbrev ExchangeEvent (PeerId : Type) := Event (Peers PeerId) (ExchangeInput PeerId) ExchangeOutput

/-! ## What is sent -/

/-- Whom a reference is sent to. -/
def targets : Reference PeerId → List PeerId
  | .peers peers .all _ => peers
  | .peers peers _ _ => peers.take 1
  | _ => []

section Sent
variable {source : PeerId} {content : List UInt8} {io : SendIo PeerId} {workDir : Path} {req : SendRequest PeerId}
  {files : Contents}

/-- A stream of the content to one of the peers, which has got so far. -/
structure Pushes (source : PeerId) (content : List UInt8) (peers : List PeerId) (push : Push PeerId) : Prop where
  source : push.source = source
  target : push.target ∈ peers
  payloadLen : push.payloadLen = content.length
  sent : push.sent <+: content

theorem Pushes.mono {peers peers' : List PeerId} {push : Push PeerId} (h : Pushes source content peers push)
    (hsub : ∀ peer ∈ peers, peer ∈ peers') : Pushes source content peers' push :=
  ⟨h.source, hsub _ h.target, h.payloadLen, h.sent⟩

theorem sendItem_pushes (step : SendStep) {peer : PeerId} {peers : List PeerId} (hpeer : peer ∈ peers) :
    Pushes source content peers (sendItem source content step peer).1 := by
  unfold sendItem
  split
  · exact ⟨rfl, hpeer, rfl, List.nil_prefix⟩
  · exact ⟨rfl, hpeer, rfl, List.take_prefix _ _⟩
  · exact ⟨rfl, hpeer, rfl, List.prefix_rfl⟩

theorem sendItem_ok {step : SendStep} {peer : PeerId} (h : (sendItem source content step peer).2 = .ok ()) :
    (sendItem source content step peer).1 = ⟨source, peer, content.length, content⟩ := by
  unfold sendItem at h ⊢
  split at h
  · cases h
  · cases h
  · rfl

theorem leftOpen_pushes {peers peers' : List PeerId} (hsub : ∀ peer ∈ peers, peer ∈ peers') :
    ∀ push ∈ leftOpen source content io peers, Pushes source content peers' push := by
  intro push hpush
  obtain ⟨peer, hpeer, rfl⟩ := List.mem_map.mp hpush
  exact ⟨rfl, hsub peer (List.mem_filter.mp hpeer).1, rfl, List.nil_prefix⟩

theorem sendItems_pushes (peers : List PeerId) : ∀ idx, ∀ push ∈ (sendItems source content io idx peers).1,
    Pushes source content peers push := by
  induction peers with
  | nil => nofun
  | cons peer peers ih =>
    intro idx push hpush
    have htail : ∀ p ∈ peers, p ∈ peer :: peers := fun _ => List.mem_cons_of_mem peer
    unfold sendItems at hpush
    split_ifs at hpush
    · exact leftOpen_pushes (fun _ => id) push hpush
    split at hpush
    · exact leftOpen_pushes htail push hpush
    have hitem : Pushes source content (peer :: peers) (sendItem source content (io.step idx) peer).1 :=
      sendItem_pushes _ List.mem_cons_self
    split at hpush
    · next first e hfirst =>
      rw [hfirst] at hitem
      rcases List.mem_cons.mp hpush with rfl | hpush
      · exact hitem
      · exact leftOpen_pushes htail push hpush
    · next first hfirst =>
      rw [hfirst] at hitem
      rcases List.mem_cons.mp hpush with rfl | hpush
      · exact hitem
      · exact (ih (idx + 1) push hpush).mono htail

/-- A pass that is not cancelled and does not fail has written the file to every peer. -/
theorem sendItems_ok (hcancelled : io.cancelled = none) (peers : List PeerId) :
    ∀ idx, (sendItems source content io idx peers).2 = .ok () →
      ∀ peer ∈ peers, ⟨source, peer, content.length, content⟩ ∈ (sendItems source content io idx peers).1 := by
  induction peers with
  | nil => nofun
  | cons peer peers ih =>
    intro idx hok target htarget
    unfold sendItems at hok ⊢
    rw [if_neg (by rw [hcancelled]; nofun)] at hok ⊢
    split at hok
    · cases hok
    split at hok
    · cases hok
    next push hitem =>
    have hpush := sendItem_ok (congrArg Prod.snd hitem)
    rw [hitem] at hpush
    rcases List.mem_cons.mp htarget with rfl | hrest
    · rw [← hpush]
      exact List.mem_cons_self
    · exact List.mem_cons_of_mem _ (ih (idx + 1) hok target hrest)

theorem sendFirst_pushes {peer : PeerId} {peers : List PeerId} (hpeer : peer ∈ peers) :
    ∀ push ∈ (sendFirst source content io peer).1, Pushes source content peers push := by
  intro push hpush
  unfold sendFirst at hpush
  split at hpush
  · cases hpush
  split_ifs at hpush
  · obtain rfl := List.mem_singleton.mp hpush
    exact ⟨rfl, hpeer, rfl, List.nil_prefix⟩
  · obtain rfl := List.mem_singleton.mp hpush
    exact sendItem_pushes _ hpeer

theorem sendFirst_ok (hcancelled : io.cancelled = none) {peer : PeerId}
    (hok : (sendFirst source content io peer).2 = .ok ()) :
    ⟨source, peer, content.length, content⟩ ∈ (sendFirst source content io peer).1 := by
  unfold sendFirst at hok ⊢
  rw [if_neg (by rw [hcancelled]; nofun)] at hok ⊢
  split at hok
  · cases hok
  · exact List.mem_singleton.mpr (sendItem_ok hok).symm

theorem sendTo_pushes (resource : Reference PeerId) :
    ∀ push ∈ (sendTo source content io resource).1, Pushes source content (targets resource) push := by
  intro push hpush
  cases resource with
  | peers peers strategy slice =>
    cases strategy with
    | all =>
      exact (sendItems_pushes _ 0 push hpush).mono fun peer hpeer => (io.order.perm peers).mem_iff.mp hpeer
    | random | one =>
      cases peers with
      | nil => cases hpush
      | cons peer peers => exact sendFirst_pushes (List.mem_singleton_self peer) push hpush
  | uri | huggingFace | scheduler => cases hpush

theorem sendTo_ok (hcancelled : io.cancelled = none) {resource : Reference PeerId}
    (hok : (sendTo source content io resource).2 = .ok ()) : ∀ peer ∈ targets resource,
      ⟨source, peer, content.length, content⟩ ∈ (sendTo source content io resource).1 := by
  intro target htarget
  cases resource with
  | peers peers strategy slice =>
    cases strategy with
    | all => exact sendItems_ok hcancelled _ 0 hok target ((io.order.perm peers).mem_iff.mpr htarget)
    | random | one =>
      cases peers with
      | nil => cases hok
      | cons peer peers =>
        obtain rfl := List.mem_singleton.mp htarget
        exact sendFirst_ok hcancelled hok
  | uri | huggingFace | scheduler => cases htarget

/-- The file under a relative path. -/
def readFile (files : Contents) (workDir rel : Path) : Option (List UInt8) :=
  match safeJoin workDir rel with
  | .error _ => none
  | .ok abs => files (components abs)

/-- What a request does: its streams carry the file as it is, the file is left unless it was sent and shall be removed,
and it is sent to all unless it was cancelled. -/
structure Attempted (source : PeerId) (uncancelled : Prop) (workDir : Path) (req : SendRequest PeerId) (files : Contents)
    (r : Contents × List (Push PeerId) × Except BridgeError Unit) : Prop where
  pushes : ∀ push ∈ r.2.1, ∃ content, readFile files workDir req.path = some content ∧
    Pushes source content (targets req.resource) push
  failed : r.2.2 ≠ .ok () → r.1 = files
  removed : r.1 = files ∨ req.removeFile = true ∧ ∃ abs, safeJoin workDir req.path = .ok abs ∧ r.1 = files.write abs none
  sent : r.2.2 = .ok () → ∃ content, readFile files workDir req.path = some content ∧
    (uncancelled → ∀ target ∈ targets req.resource, ⟨source, target, content.length, content⟩ ∈ r.2.1)

theorem Attempted.error (uncancelled : Prop) (e : BridgeError) :
    Attempted source uncancelled workDir req files (files, [], .error e) :=
  ⟨fun _ h => (by cases h), fun _ => rfl, Or.inl rfl, fun h => (by cases h)⟩

theorem sendAttempt_attempted (source : PeerId) (io : SendIo PeerId) (workDir : Path) (req : SendRequest PeerId)
    (files : Contents) :
    Attempted source (io.cancelled = none) workDir req files (sendAttempt source io workDir req files) := by
  unfold sendAttempt
  split
  · exact .error _ _
  next abs habs =>
  split
  · exact .error _ _
  · exact .error _ _
  next content _ hfile =>
  have hread : readFile files workDir req.path = some content := by
    unfold readFile
    rw [habs]
    exact hfile
  have hpushes : ∀ push ∈ (sendTo source content io req.resource).1,
      Pushes source content (targets req.resource) push := sendTo_pushes req.resource
  split
  · next pushes e hsend =>
    rw [hsend] at hpushes
    exact ⟨fun push hpush => ⟨content, hread, hpushes push hpush⟩, fun _ => rfl, Or.inl rfl, fun h => (by cases h)⟩
  next pushes hsend =>
  have hsent := fun hcancelled : io.cancelled = none => sendTo_ok hcancelled (congrArg Prod.snd hsend)
  rw [hsend] at hpushes hsent
  have hall : ∀ push ∈ pushes, ∃ content, readFile files workDir req.path = some content ∧
      Pushes source content (targets req.resource) push := fun push hpush => ⟨content, hread, hpushes push hpush⟩
  split_ifs with hremove
  · exact ⟨hall, fun _ => rfl, Or.inl rfl, fun _ => ⟨content, hread, hsent⟩⟩
  · split
    · exact ⟨hall, fun _ => rfl, Or.inl rfl, fun h => (by cases h)⟩
    · refine ⟨hall, fun h => absurd rfl h, Or.inr ⟨?_, abs, habs, rfl⟩, fun _ => ⟨content, hread, hsent⟩⟩
      rwa [Bool.not_eq_true, Bool.not_eq_false'] at hremove

theorem sendResource_attempted (source : PeerId) (workDir : Path) (req : SendRequest PeerId) (files : Contents)
    (ios : List (SendIo PeerId)) : ∀ io, Attempted source (∀ io' ∈ io :: ios, io'.cancelled = none) workDir req files
      (sendResource source workDir req io ios files) := by
  induction ios with
  | nil =>
    intro io
    have h := sendAttempt_attempted source io workDir req files
    refine ⟨h.pushes, h.failed, h.removed, fun hok => ?_⟩
    obtain ⟨content, hread, hsent⟩ := h.sent hok
    exact ⟨content, hread, fun hall => hsent (hall io List.mem_cons_self)⟩
  | cons next ios ih =>
    intro io
    have h := sendAttempt_attempted source io workDir req files
    unfold sendResource
    rcases hattempt : sendAttempt source io workDir req files with ⟨files', pushes, e | ⟨⟩⟩
    · rw [hattempt] at h
      obtain rfl : files' = files := h.failed nofun
      have hrest := ih next
      refine ⟨fun push hpush => ?_, hrest.failed, hrest.removed, fun hok => ?_⟩
      · exact (List.mem_append.mp hpush).elim (h.pushes push) (hrest.pushes push)
      · obtain ⟨content, hread, hsent⟩ := hrest.sent hok
        refine ⟨content, hread, fun hall target htarget => List.mem_append_right _ ?_⟩
        exact hsent (fun io' hio' => hall io' (List.mem_cons_of_mem _ hio')) target htarget
    · rw [hattempt] at h
      refine ⟨h.pushes, h.failed, h.removed, fun hok => ?_⟩
      obtain ⟨content, hread, hsent⟩ := h.sent hok
      exact ⟨content, hread, fun hall => hsent (hall io List.mem_cons_self)⟩

end Sent

/-! ## What is received -/

section Received
variable {peerText : PeerText PeerId} {workDir dirRel : Path} {self : PeerId} {allow : List PeerId}
  {pushes : List (Push PeerId)}

/-- The pointer is to what has been copied completely from a stream of an allowed peer. -/
structure Pointed (text : PeerId → Path) (workDir : Path) (peer : PeerId) (allow : List PeerId)
    (pushes : List (Push PeerId)) (files : Contents) (pointer : UpdatePointer) (push : Push PeerId) : Prop where
  pushed : push ∈ pushes
  target : push.target = peer
  allowed : allow = [] ∨ push.source ∈ allow
  fromPeer : pointer.fromPeer = text push.source
  whole : push.sent.length = push.payloadLen
  file : readFile files workDir pointer.path = some push.sent
  size : pointer.size = push.payloadLen

theorem receiveItem_some {item : ReadItem} {written : List Path} {pointer : UpdatePointer}
    (h : receiveItem workDir dirRel item = (written, some pointer)) : ∃ abs, safeJoin workDir pointer.path = .ok abs ∧
      written = [abs] ∧ item.io.copy = .ok pointer.size ∧
      pointer.fromPeer = (deriveName item.name 0).takeWhile (· != dot) := by
  unfold receiveItem at h
  dsimp only at h
  split at h
  · cases h
  next abs habs =>
  split at h
  · cases h
  split at h
  · cases h
  next size hcopy =>
  obtain ⟨rfl, hpointer⟩ := Prod.mk.inj h
  obtain rfl := Option.some.inj hpointer
  exact ⟨abs, habs, rfl, hcopy, rfl⟩

theorem Push.copied_none (push : Push PeerId) (hwhole : push.sent.length = push.payloadLen) :
    push.copied none = push.sent := by
  unfold Push.copied
  rw [Option.getD_none, ← hwhole, List.take_length]

theorem copied_of_copy {push : Push PeerId} {arrives : Option Nat} {disk : ItemIo} {size : Nat}
    (h : (push.item peerText.text arrives disk).io.copy = .ok size) (hlen : push.sent.length ≤ push.payloadLen) :
    push.copied arrives = push.sent ∧ size = push.payloadLen ∧ push.sent.length = push.payloadLen := by
  unfold Push.item at h
  dsimp only at h
  split_ifs at h with hshort
  cases hdisk : disk.copy with
  | error e =>
    rw [hdisk] at h
    cases h
  | ok n =>
    rw [hdisk] at h
    have hsize : (push.copied arrives).length = size := Except.ok.inj h
    have hpart : push.copied arrives <+: push.sent := List.take_prefix _ _
    have hle := hpart.length_le
    exact ⟨hpart.eq_of_length (by omega), by omega, by omega⟩

theorem deriveName_text (peerText : PeerText PeerId) (p : PeerId) :
    deriveName (peerText.text p) 0 = peerText.text p := by
  unfold deriveName
  rw [if_neg]
  rw [List.isEmpty_iff]
  exact peerText.ne_nil p

theorem takeWhile_text (peerText : PeerText PeerId) (p : PeerId) :
    (peerText.text p).takeWhile (· != dot) = peerText.text p := by
  rw [List.takeWhile_eq_self_iff]
  intro b hb
  rw [bne_iff_ne]
  rintro rfl
  exact peerText.dot p hb

theorem receiveStreams_some (hpushes : ∀ push ∈ pushes, push.sent.length ≤ push.payloadLen) (arrivals : List Arrival) :
    ∀ (r : Receiver) {r' : Receiver} {pointer : UpdatePointer},
      receiveStreams peerText.text workDir dirRel self allow pushes arrivals r = (r', some pointer) →
      ∃ push, Pointed peerText.text workDir self allow pushes r'.files pointer push := by
  induction arrivals with
  | nil => nofun
  | cons arrival arrivals ih =>
    intro r r' pointer h
    cases arrival with
    | stopped => cases h
    | failed error => exact ih r h
    | stream k arrives disk =>
      unfold receiveStreams at h
      split at h
      · exact ih r h
      next push hpush =>
      have hmem : push ∈ pushes := List.mem_of_getElem? hpush
      split_ifs at h with htaken hallow
      · exact ih r h
      · exact ih _ h
      obtain ⟨written, taken, hitem⟩ : ∃ written taken,
          receiveItem workDir dirRel (push.item peerText.text arrives disk) = (written, taken) := ⟨_, _, rfl⟩
      rw [hitem] at h
      dsimp only at h
      cases taken with
      | none => exact ih _ h
      | some pointer' =>
        obtain ⟨rfl, hpointer⟩ := Prod.mk.inj h
        obtain rfl := Option.some.inj hpointer
        obtain ⟨abs, habs, rfl, hcopy, hfrom⟩ := receiveItem_some hitem
        obtain ⟨hcopied, hsize, hwhole⟩ := copied_of_copy hcopy (hpushes push hmem)
        refine ⟨push, hmem, ?_, ?_, ?_, hwhole, ?_, hsize⟩
        · by_contra hne
          exact htaken (Or.inl hne)
        · exact or_iff_not_imp_left.mpr (by simpa [List.isEmpty_iff] using hallow)
        · rw [hfrom, ← takeWhile_text peerText push.source]
          exact congrArg (List.takeWhile _) (deriveName_text peerText push.source)
        · unfold readFile
          rw [habs]
          dsimp only [List.foldl_cons, List.foldl_nil, Contents.write]
          rw [Function.update_self, hcopied]

/-- The file of a peer has a path under every directory that has one. -/
theorem safeJoin_text (peerText : PeerText PeerId) (p : PeerId) (hdir : dirRel ≠ [])
    (h : ∃ abs, safeJoin workDir dirRel = .ok abs) :
    ∃ abs, safeJoin workDir (dirRel ++ sep :: peerText.text p) = .ok abs := by
  obtain ⟨abs, habs⟩ := h
  obtain ⟨habsolute, hparent, -⟩ := safeJoin_eq_ok.mp habs
  have hpieces : pieces (peerText.text p) = [peerText.text p] := by
    refine List.splitOnP_eq_singleton fun b hb => beq_eq_false_iff_ne.mpr ?_
    rintro rfl
    exact peerText.sep p hb
  refine ⟨_, safeJoin_eq_ok.mpr ⟨?_, ?_, rfl⟩⟩
  · cases dirRel with
    | nil => exact absurd rfl hdir
    | cons b rest => exact habsolute
  · rw [components_append_sep hdir, List.mem_append]
    rintro (hin | hbody)
    · exact hparent hin
    · obtain ⟨piece, hpiece, hparse⟩ := List.mem_filterMap.mp hbody
      rw [hpieces, List.mem_singleton] at hpiece
      have hdots : peerText.text p = [dot, dot] := hpiece ▸ eq_of_parsePiece hparse
      exact peerText.dot p (hdots ▸ List.mem_cons_self)

theorem receiveItem_whole (peerText : PeerText PeerId) {push : Push PeerId} {disk : ItemIo} {n : Nat}
    (hopened : disk.opened = .ok ()) (hcopy : disk.copy = .ok n) (hwhole : push.sent.length = push.payloadLen)
    (hdir : dirRel ≠ []) (h : ∃ abs, safeJoin workDir dirRel = .ok abs) : ∃ abs,
      safeJoin workDir (dirRel ++ sep :: peerText.text push.source) = .ok abs ∧
      receiveItem workDir dirRel (push.item peerText.text none disk) =
        ([abs], some ⟨dirRel ++ sep :: peerText.text push.source, push.payloadLen, peerText.text push.source⟩) := by
  obtain ⟨abs, habs⟩ := safeJoin_text peerText push.source hdir h
  have hcopied : push.copied none = push.sent := push.copied_none hwhole
  have hitem : (push.item peerText.text none disk).io.copy = .ok push.payloadLen := by
    unfold Push.item
    dsimp only
    rw [hcopied, hwhole, if_neg (Nat.lt_irrefl _), hcopy]
    rfl
  have hopen : (push.item peerText.text none disk).io.opened = .ok () := hopened
  refine ⟨abs, habs, ?_⟩
  unfold receiveItem
  rw [show (push.item peerText.text none disk).name = peerText.text push.source from rfl, deriveName_text]
  dsimp only
  rw [habs]
  dsimp only
  rw [hopen]
  dsimp only
  rw [hitem, takeWhile_text]

end Received

/-! ## Every run -/

section Runs
variable (peerText : PeerText PeerId) (workDir : PeerId → Path)

/-- The request has opened the stream, for a file with that content. -/
def Sends (push : Push PeerId) (content : List UInt8) (e : ExchangeEvent PeerId) : Prop :=
  ∃ req io ios, e.input = .send push.source req io ios ∧
    readFile (e.pre.files push.source) (workDir push.source) req.path = some content ∧
    Pushes push.source content (targets req.resource) push

/-- A stream of an allowed peer comes first, and its file can be stored. -/
structure Undisturbed (s : Peers PeerId) (peer : PeerId) (req : ReceiveRequest PeerId) (arrivals : List Arrival)
    (push : Push PeerId) : Prop where
  named : req.path.getD (utf8Bytes "incoming") ≠ []
  joined : ∃ abs, safeJoin (workDir peer) (req.path.getD (utf8Bytes "incoming")) = .ok abs
  createDir : req.createDir = .ok ()
  idleTimeout : req.idleTimeout ≠ some 0
  streamsPush : req.streamsPush = .ok ()
  allowed : ∃ allow slice, req.resource = .peers allow .all slice ∧ (allow = [] ∨ push.source ∈ allow)
  first : ∃ k disk size rest, arrivals = .stream k none disk :: rest ∧ s.pushes[k]? = some push ∧ k ∉ s.accepted ∧
    disk.opened = .ok () ∧ disk.copy = .ok size
  target : push.target = peer
  whole : push.sent.length = push.payloadLen

/-- What a request has done. -/
structure Exchanged (e : ExchangeEvent PeerId) (h : List (ExchangeEvent PeerId)) : Prop where
  sent : ∀ peer req io ios, e.input = .send peer req io ios → e.output = .sent (.ok ()) →
    ∃ content, readFile (e.pre.files peer) (workDir peer) req.path = some content ∧
      ((∀ io' ∈ io :: ios, io'.cancelled = none) → ∀ target ∈ targets req.resource,
        ⟨peer, target, content.length, content⟩ ∈ e.post.pushes.drop e.pre.pushes.length)
  kept : ∀ peer req io ios, e.input = .send peer req io ios → e.post.files = e.pre.files ∨
    e.output = .sent (.ok ()) ∧ req.removeFile = true ∧ ∃ abs, safeJoin (workDir peer) req.path = .ok abs ∧
      e.post.files = Function.update e.pre.files peer ((e.pre.files peer).write abs none)
  received : ∀ peer req arrivals pointer, e.input = .receive peer req arrivals →
    e.output = .received (.ok (some pointer)) → ∃ push content, push.target = peer ∧
      (∃ allow slice, req.resource = .peers allow .all slice ∧ (allow = [] ∨ push.source ∈ allow)) ∧
      pointer.fromPeer = peerText.text push.source ∧ pointer.size = content.length ∧
      readFile (e.post.files peer) (workDir peer) pointer.path = some content ∧
      ∃ e' ∈ h, Sends workDir push content e'
  delivered : ∀ peer req arrivals push, e.input = .receive peer req arrivals →
    Undisturbed workDir e.pre peer req arrivals push → ∃ pointer, e.output = .received (.ok (some pointer)) ∧
      pointer.fromPeer = peerText.text push.source ∧
      readFile (e.post.files peer) (workDir peer) pointer.path = some push.sent

/-- Every stream was opened by a request. -/
def Provenance (w : World (Peers PeerId) (ExchangeInput PeerId) ExchangeOutput) : Prop :=
  ∀ push ∈ w.state.pushes, ∃ content, ∃ e ∈ w.history, Sends workDir push content e

variable {peerText workDir} {w : World (Peers PeerId) (ExchangeInput PeerId) ExchangeOutput}

theorem receive_some {self : PeerId} {pushes : List (Push PeerId)}
    (hpushes : ∀ push ∈ pushes, push.sent.length ≤ push.payloadLen) {req : ReceiveRequest PeerId}
    {arrivals : List Arrival} {r r' : Receiver} {pointer : UpdatePointer}
    (h : receive peerText.text (workDir self) self pushes req arrivals r = (r', .ok (some pointer))) :
    ∃ allow slice push, req.resource = .peers allow .all slice ∧
      Pointed peerText.text (workDir self) self allow pushes r'.files pointer push := by
  unfold receive at h
  dsimp only at h
  split at h
  · cases h
  · cases h
  · split_ifs at h
    · cases h
    · split at h
      · next allow slice hresource _ =>
        rcases hstreams : receiveStreams peerText.text (workDir self) (req.path.getD (utf8Bytes "incoming")) self allow
          pushes arrivals r with ⟨r'', found⟩
        rw [hstreams] at h
        obtain ⟨rfl, hfound⟩ := Prod.mk.inj h
        obtain rfl := Except.ok.inj hfound
        obtain ⟨push, hpointed⟩ := receiveStreams_some hpushes arrivals r hstreams
        exact ⟨allow, slice, push, hresource, hpointed⟩
      · cases h

theorem receive_undisturbed (peerText : PeerText PeerId) {s : Peers PeerId} {self : PeerId} {req : ReceiveRequest PeerId}
    {arrivals : List Arrival} {push : Push PeerId} (h : Undisturbed workDir s self req arrivals push) : ∃ r' pointer,
      receive peerText.text (workDir self) self s.pushes req arrivals ⟨s.files self, s.accepted⟩ =
        (r', .ok (some pointer)) ∧
        pointer.fromPeer = peerText.text push.source ∧
        readFile r'.files (workDir self) pointer.path = some push.sent := by
  obtain ⟨abs, habs⟩ := h.joined
  obtain ⟨allow, slice, hresource, hallow⟩ := h.allowed
  obtain ⟨k, disk, size, rest, rfl, hpush, hnew, hopened, hcopy⟩ := h.first
  obtain ⟨abs', habs', hitem⟩ := receiveItem_whole peerText hopened hcopy h.whole h.named h.joined
  have hcopied : push.copied none = push.sent := push.copied_none h.whole
  have hallowed : ¬ (!(allow.isEmpty || allow.contains push.source)) = true := by
    simpa [List.isEmpty_iff] using or_iff_not_imp_left.mp hallow
  have hreceive : receive peerText.text (workDir self) self s.pushes req (.stream k none disk :: rest)
      ⟨s.files self, s.accepted⟩ = (⟨(s.files self).write abs' (some push.sent), k :: s.accepted⟩,
        .ok (some ⟨req.path.getD (utf8Bytes "incoming") ++ sep :: peerText.text push.source, push.payloadLen,
          peerText.text push.source⟩)) := by
    unfold receive
    dsimp only
    rw [habs, h.createDir]
    dsimp only
    rw [if_neg h.idleTimeout, hresource, h.streamsPush]
    dsimp only
    unfold receiveStreams
    rw [hpush]
    dsimp only
    rw [if_neg (not_or.mpr ⟨not_not.mpr h.target, hnew⟩), if_neg hallowed, hitem]
    dsimp only [List.foldl_cons, List.foldl_nil]
    rw [hcopied]
  refine ⟨_, _, hreceive, rfl, ?_⟩
  unfold readFile
  rw [habs']
  exact Function.update_self _ _ _

theorem Sends.length_le {push : Push PeerId} {content : List UInt8} {e : ExchangeEvent PeerId}
    (h : Sends workDir push content e) : push.sent.length ≤ push.payloadLen := by
  obtain ⟨_, _, _, -, -, hpushes⟩ := h
  rw [hpushes.payloadLen]
  exact hpushes.sent.length_le

/-- What was sent completely is the content. -/
theorem Sends.sent {push : Push PeerId} {content : List UInt8} {e : ExchangeEvent PeerId}
    (h : Sends workDir push content e) (hwhole : push.sent.length = push.payloadLen) : push.sent = content := by
  obtain ⟨_, _, _, -, -, hpushes⟩ := h
  exact hpushes.sent.eq_of_length (hwhole.trans hpushes.payloadLen)

theorem Provenance.step_send (h : Provenance workDir w) (peer : PeerId) (req : SendRequest PeerId) (io : SendIo PeerId)
    (ios : List (SendIo PeerId)) :
    Provenance workDir ((exchange peerText workDir).next w (.send peer req io ios)) ∧
      Exchanged peerText workDir ((exchange peerText workDir).event w.state (.send peer req io ios)) w.history := by
  have hattempted := sendResource_attempted peer (workDir peer) req (w.state.files peer) (ios.take 20) io
  obtain ⟨files, pushes, result, hsend⟩ : ∃ files pushes result,
      sendResource peer (workDir peer) req io (ios.take 20) (w.state.files peer) = (files, pushes, result) :=
    ⟨_, _, _, rfl⟩
  rw [hsend] at hattempted
  have hstep : (exchange peerText workDir).step w.state (.send peer req io ios) =
      ({ w.state with files := Function.update w.state.files peer files, pushes := w.state.pushes ++ pushes },
        .sent result) := by
    change Peers.step peerText workDir w.state (.send peer req io ios) = _
    unfold Peers.step
    dsimp only
    rw [hsend]
  refine ⟨?_, fun peer' req' io' ios' hinput houtput => ?_, fun peer' req' io' ios' hinput => ?_,
    fun _ _ _ _ hinput => (by cases hinput), fun _ _ _ _ hinput => (by cases hinput)⟩
  · intro push hpush
    rw [Machine.next_state, hstep] at hpush
    rcases List.mem_append.mp hpush with hold | hnew
    · obtain ⟨content, e, he, hsends⟩ := h push hold
      exact ⟨content, e, List.mem_cons_of_mem _ he, hsends⟩
    · obtain ⟨content, hread, hpushes⟩ := hattempted.pushes push hnew
      obtain rfl := hpushes.source
      exact ⟨content, _, List.mem_cons_self, req, io, ios, rfl, hread, hpushes⟩
  · obtain ⟨rfl, rfl, rfl, rfl⟩ := ExchangeInput.send.inj hinput
    rw [Machine.event_output, hstep] at houtput
    obtain ⟨content, hread, hsent⟩ := hattempted.sent (ExchangeOutput.sent.inj houtput)
    refine ⟨content, hread, fun hall target htarget => ?_⟩
    rw [Machine.event_post, hstep, Machine.event_pre]
    dsimp only
    rw [List.drop_left]
    exact hsent (fun io' hio' => hall io' (List.cons_subset_cons io (List.take_subset 20 ios) hio')) target htarget
  · obtain ⟨rfl, rfl, rfl, rfl⟩ := ExchangeInput.send.inj hinput
    rw [Machine.event_post, Machine.event_output, hstep, Machine.event_pre]
    dsimp only
    by_cases hok : result = .ok ()
    · rcases hattempted.removed with hsame | ⟨hremove, abs, habs, hfiles⟩
      · exact Or.inl (Function.update_eq_self_iff.mpr hsame)
      · exact Or.inr ⟨congrArg _ hok, hremove, abs, habs, congrArg _ hfiles⟩
    · exact Or.inl (Function.update_eq_self_iff.mpr (hattempted.failed hok))

theorem Provenance.step_receive (h : Provenance workDir w) (peer : PeerId) (req : ReceiveRequest PeerId)
    (arrivals : List Arrival) :
    Provenance workDir ((exchange peerText workDir).next w (.receive peer req arrivals)) ∧
      Exchanged peerText workDir ((exchange peerText workDir).event w.state (.receive peer req arrivals)) w.history := by
  obtain ⟨r, result, hreceive⟩ : ∃ r result, receive peerText.text (workDir peer) peer w.state.pushes req arrivals
      ⟨w.state.files peer, w.state.accepted⟩ = (r, result) := ⟨_, _, rfl⟩
  have hstep : (exchange peerText workDir).step w.state (.receive peer req arrivals) =
      ({ w.state with files := Function.update w.state.files peer r.files, accepted := r.accepted }, .received result) := by
    change Peers.step peerText workDir w.state (.receive peer req arrivals) = _
    unfold Peers.step
    dsimp only
    rw [hreceive]
  refine ⟨?_, fun _ _ _ _ hinput => (by cases hinput), fun _ _ _ _ hinput => (by cases hinput),
    fun peer' req' arrivals' pointer hinput houtput => ?_, fun peer' req' arrivals' push hinput hundisturbed => ?_⟩
  · intro push hpush
    rw [Machine.next_state, hstep] at hpush
    obtain ⟨content, e, he, hsends⟩ := h push hpush
    exact ⟨content, e, List.mem_cons_of_mem _ he, hsends⟩
  · obtain ⟨rfl, rfl, rfl⟩ := ExchangeInput.receive.inj hinput
    rw [Machine.event_output, hstep] at houtput
    obtain rfl := ExchangeOutput.received.inj houtput
    have hlengths : ∀ push ∈ w.state.pushes, push.sent.length ≤ push.payloadLen := fun push hpush => by
      obtain ⟨content, e, -, hsends⟩ := h push hpush
      exact hsends.length_le
    obtain ⟨allow, slice, push, hresource, hpointed⟩ := receive_some hlengths hreceive
    obtain ⟨content, e, he, hsends⟩ := h push hpointed.pushed
    obtain rfl := hsends.sent hpointed.whole
    refine ⟨push, push.sent, hpointed.target, ⟨allow, slice, hresource, hpointed.allowed⟩, hpointed.fromPeer,
      hpointed.size.trans hpointed.whole.symm, ?_, e, he, hsends⟩
    rw [Machine.event_post, hstep]
    dsimp only
    rw [Function.update_self]
    exact hpointed.file
  · obtain ⟨rfl, rfl, rfl⟩ := ExchangeInput.receive.inj hinput
    obtain ⟨r', pointer, hgot, hfrom, hfile⟩ := receive_undisturbed peerText hundisturbed
    rw [Machine.event_pre, hreceive] at hgot
    obtain ⟨rfl, rfl⟩ := Prod.mk.inj hgot
    refine ⟨pointer, ?_, hfrom, ?_⟩
    · rw [Machine.event_output, hstep]
    · rw [Machine.event_post, hstep]
      dsimp only
      rw [Function.update_self]
      exact hfile

variable (peerText workDir)

end Runs

end Hypha.Worker.Exchange
