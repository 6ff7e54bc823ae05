import Mathlib.Logic.Function.Basic
import Hypha.Lib.LittleEndian
import Hypha.Lib.Machine

/-!
# Fetching data slices

`fetch_resource` for a reference to the scheduler, over the directory that the slices are kept in: `Files` maps the hash
that names a file to its content. A `SliceIo` says how the steps of one attempt turn out, `copied` being what the file
contains when the copy ends, and `digest` is BLAKE3.

* `attempt`, `fetchResource` : one attempt, and the attempts of one request;
* `creates`, `answersFromCache`, `left` : what an attempt does, as functions of the files before it;
* `verified_iff` : when every answer is a file with the hash that was asked for.
-/

namespace Hypha.Worker

open Hypha.Lib

/-- `bridge::Error`, as far as an attempt returns it. -/
inductive FetchError where
  | io (error : String)
  | connector (error : String)
  | hashMismatch (expected found : Nat)

structure FileResponse where
  path : String
  size : Nat

/-- The directory of slices: the contents of the files by the hashes that name them. -/
abbrev Files := Nat → Option (List UInt8)

/-- How the steps of an attempt turn out. -/
structure SliceIo (PeerId : Type) where
  createDir : Except String Unit := .ok ()
  tryExists : Except String Unit := .ok ()
  metadata : Except String Unit := .ok ()
  providers : List PeerId
  openStream : Except String Unit := .ok ()
  createParent : Except String Unit := .ok ()
  create : Except String Unit := .ok ()
  copied : List UInt8
  copy : Except String Unit := .ok ()
  sync : Except String Unit := .ok ()
  readBack : Except String Unit := .ok ()
  remove : Except String Unit := .ok ()
  setPermissions : Except String Unit := .ok ()

/-- `get_file_hash`: the first eight bytes of the digest. -/
def getFileHash (digest : List UInt8 → List UInt8) (content : List UInt8) : Nat := ofLe ((digest content).take 8)

def fetchDir : String := "artifacts"

/-- The path of a slice, relative to the work directory. -/
def slicePath (hash : Nat) : String := fetchDir ++ "/" ++ toString hash

/-- `step?`, then the rest. -/
def after (files : Files) (step : Except String Unit) (error : String → FetchError)
    (rest : Files × Except FetchError FileResponse) : Files × Except FetchError FileResponse :=
  match step with
  | .error e => (files, .error (error e))
  | .ok () => rest

variable {PeerId : Type} (digest : List UInt8 → List UInt8)

/-- A cache miss: download the slice and validate it. -/
def download (files : Files) (hash : Nat) (io : SliceIo PeerId) : Files × Except FetchError FileResponse :=
  if io.providers.isEmpty then (files, .error (.io "no peers provided"))
  else
    after files io.openStream .connector <|
    after files io.createParent .io <|
    after files io.create .io <|
    -- from here on the file is there, with what was copied
    let written := Function.update files hash (some io.copied)
    after written io.copy .io <|
    after written io.sync .io <|
    after written io.readBack .io <|
    if getFileHash digest io.copied ≠ hash then
      after written io.remove .io
        (Function.update files hash none, .error (.hashMismatch hash (getFileHash digest io.copied)))
    else
      after written io.setPermissions .io (written, .ok ⟨slicePath hash, io.copied.length⟩)

/-- One attempt to fetch the slice with the given hash. -/
def attempt (files : Files) (hash : Nat) (io : SliceIo PeerId) : Files × Except FetchError FileResponse :=
  after files io.createDir .io <|
    match io.tryExists, files hash with
    | .ok (), some content => after files io.metadata .io (files, .ok ⟨slicePath hash, content.length⟩)
    | _, _ => download digest files hash io

/-- `Retry::spawn`: attempts until one succeeds, or there are no more. -/
def fetchResource (hash : Nat) : SliceIo PeerId → List (SliceIo PeerId) → Files → Files × Except FetchError FileResponse
  | io, [], files => attempt digest files hash io
  | io, next :: ios, files =>
    match attempt digest files hash io with
    | (files, .ok response) => (files, .ok response)
    | (files, .error _) => fetchResource hash next ios files

/-- The attempts, one after the other. -/
def fetching : Machine Files (Nat × SliceIo PeerId) (Except FetchError FileResponse) :=
  ⟨fun files i => attempt digest files i.1 i.2⟩

abbrev FetchEvent (PeerId : Type) := Event Files (Nat × SliceIo PeerId) (Except FetchError FileResponse)

/-! ## What an attempt does -/

section Attempts
variable (files : Files) (hash : Nat) (io : SliceIo PeerId)

/-- The attempt finds a file for the slice. -/
def finds : Bool := io.createDir.isOk && io.tryExists.isOk && (files hash).isSome

/-- The attempt answers with the file that it finds. -/
def answersFromCache : Bool := finds files hash io && io.metadata.isOk

/-- The attempt comes to create a file. -/
def creates : Bool :=
  io.createDir.isOk && !finds files hash io && !io.providers.isEmpty && io.openStream.isOk && io.createParent.isOk &&
    io.create.isOk

/-- Nothing breaks off an attempt that has created a file before it is validated, and removed if that fails. -/
def completes : Bool := io.copy.isOk && io.sync.isOk && io.readBack.isOk && io.remove.isOk

/-- What is left of a file that the attempt has created. -/
def left : Option (List UInt8) :=
  if completes io && getFileHash digest io.copied ≠ hash then none else some io.copied

/-- What an attempt does: it fails before it has created a file, or answers with the file it finds, or creates one that
it leaves or removes, and answers only if that file is validated. -/
inductive Attempted (files : Files) (hash : Nat) (io : SliceIo PeerId) :
    Files × Except FetchError FileResponse → Prop where
  | failed (error : FetchError) (nothing : creates files hash io = false)
      (nocache : answersFromCache files hash io = false) :
      Attempted files hash io (files, .error error)
  | cached (response : FileResponse) (hit : answersFromCache files hash io = true) :
      Attempted files hash io (files, .ok response)
  | created (result : Except FetchError FileResponse) (creating : creates files hash io = true)
      (validated : ∀ response, result = .ok response → getFileHash digest io.copied = hash) :
      Attempted files hash io (Function.update files hash (left digest hash io), result)

variable {digest files hash io}

theorem after_ok {step : Except String Unit} {error : String → FetchError}
    {rest : Files × Except FetchError FileResponse} (h : step.isOk = true) : after files step error rest = rest := by
  cases step with
  | error e => cases h
  | ok _ => rfl

theorem after_error (files : Files) {step : Except String Unit} {error : String → FetchError}
    {rest : Files × Except FetchError FileResponse} (h : step.isOk = false) :
    ∃ e, after files step error rest = (files, .error e) := by
  cases step with
  | error e => exact ⟨_, rfl⟩
  | ok _ => cases h

/-- A step after the file was created: if it fails, the file is there with what was copied. -/
theorem Attempted.after_created {step : Except String Unit} {rest : Files × Except FetchError FileResponse}
    (hcreates : creates files hash io = true) (hbreaks : step.isOk = false → left digest hash io = some io.copied)
    (hrest : step.isOk = true → Attempted digest files hash io rest) :
    Attempted digest files hash io (after (Function.update files hash (some io.copied)) step .io rest) := by
  cases hstep : step.isOk with
  | true =>
    rw [after_ok hstep]
    exact hrest hstep
  | false =>
    obtain ⟨e, he⟩ : ∃ e, after (Function.update files hash (some io.copied)) step .io rest = (_, .error e) :=
      after_error _ hstep
    rw [he, ← hbreaks hstep]
    exact Attempted.created _ hcreates fun response h => by cases h

theorem left_of_broken (h : completes io = false) : left digest hash io = some io.copied := by
  unfold left
  rw [h]
  rfl

theorem left_of_mismatch (h : completes io = true) (hne : getFileHash digest io.copied ≠ hash) :
    left digest hash io = none := by
  simp [left, h, hne]

theorem left_of_match (h : getFileHash digest io.copied = hash) : left digest hash io = some io.copied := by
  simp [left, h]

theorem copied_of_left {content : List UInt8} (h : left digest hash io = some content) : io.copied = content := by
  unfold left at h
  split_ifs at h
  exact Option.some.inj h

theorem download_created (hcreates : creates files hash io = true) :
    Attempted digest files hash io (download digest files hash io) := by
  have hsteps := hcreates
  simp only [creates, Bool.and_eq_true, Bool.not_eq_true'] at hsteps
  obtain ⟨⟨⟨⟨-, hproviders⟩, hopen⟩, hparent⟩, hcreate⟩ := hsteps
  unfold download
  rw [hproviders, if_neg Bool.false_ne_true, after_ok hopen, after_ok hparent, after_ok hcreate]
  refine Attempted.after_created hcreates (fun h => left_of_broken (by simp [completes, h])) fun hcopy => ?_
  refine Attempted.after_created hcreates (fun h => left_of_broken (by simp [completes, h])) fun hsync => ?_
  refine Attempted.after_created hcreates (fun h => left_of_broken (by simp [completes, h])) fun hread => ?_
  split_ifs with hmatch
  · refine Attempted.after_created hcreates (fun h => left_of_broken (by simp [completes, h])) fun hremove => ?_
    rw [← left_of_mismatch (by simp [completes, hcopy, hsync, hread, hremove]) hmatch]
    exact Attempted.created _ hcreates fun response h => by cases h
  · have hmatch := not_not.mp hmatch
    refine Attempted.after_created hcreates (fun _ => left_of_match hmatch) fun _ => ?_
    rw [← left_of_match hmatch]
    exact Attempted.created _ hcreates fun _ _ => hmatch

/-- An attempt that comes to no file fails. -/
theorem download_failed (hdir : io.createDir.isOk = true) (hfinds : finds files hash io = false)
    (hcreates : creates files hash io = false) : Attempted digest files hash io (download digest files hash io) := by
  have hcache : answersFromCache files hash io = false := by
    unfold answersFromCache
    rw [hfinds, Bool.false_and]
  have hfails : ∃ e, download digest files hash io = (files, .error e) := by
    unfold download
    cases hproviders : io.providers.isEmpty with
    | true => exact ⟨_, rfl⟩
    | false =>
      rw [if_neg Bool.false_ne_true]
      cases hopen : io.openStream.isOk with
      | false => exact after_error files hopen
      | true =>
        rw [after_ok hopen]
        cases hparent : io.createParent.isOk with
        | false => exact after_error files hparent
        | true =>
          rw [after_ok hparent]
          refine after_error files ?_
          simpa [creates, hdir, hfinds, hproviders, hopen, hparent] using hcreates
  obtain ⟨e, he⟩ := hfails
  rw [he]
  exact Attempted.failed e hcreates hcache

/-- **What an attempt does.** -/
theorem attempt_attempted (digest : List UInt8 → List UInt8) (files : Files) (hash : Nat) (io : SliceIo PeerId) :
    Attempted digest files hash io (attempt digest files hash io) := by
  unfold attempt
  cases hdir : io.createDir.isOk with
  | false =>
    obtain ⟨e, he⟩ := after_error files hdir
    rw [he]
    exact Attempted.failed e (by simp [creates, hdir]) (by simp [answersFromCache, finds, hdir])
  | true =>
    rw [after_ok hdir]
    cases hfinds : finds files hash io with
    | false =>
      have hmiss : Attempted digest files hash io (download digest files hash io) := by
        cases hcreates : creates files hash io with
        | false => exact download_failed hdir hfinds hcreates
        | true => exact download_created hcreates
      split
      · next content hexists hfile =>
        have hfound : finds files hash io = true := by
          unfold finds
          rw [hdir, hexists, hfile]
          rfl
        exact absurd (hfinds.symm.trans hfound) Bool.false_ne_true
      · exact hmiss
    | true =>
      have hboth := hfinds
      simp only [finds, Bool.and_eq_true] at hboth
      split
      · cases hmetadata : io.metadata.isOk with
        | true =>
          rw [after_ok hmetadata]
          exact Attempted.cached _ (by simp [answersFromCache, hfinds, hmetadata])
        | false =>
          obtain ⟨e, he⟩ := after_error files hmetadata
          rw [he]
          exact Attempted.failed e (by simp [creates, hfinds]) (by simp [answersFromCache, hmetadata])
      · next hnot =>
        obtain ⟨⟨-, hexists⟩, hfile⟩ := hboth
        obtain ⟨content, hcontent⟩ := Option.isSome_iff_exists.mp hfile
        cases htry : io.tryExists with
        | error e =>
          rw [htry] at hexists
          cases hexists
        | ok _ => exact absurd hcontent (hnot content htry)

end Attempts

/-! ## Over any number of attempts -/

/-- The attempt that has last created a file for the slice. -/
def lastCreation (hash : Nat) (h : List (FetchEvent PeerId)) : Option (FetchEvent PeerId) :=
  h.find? fun e => decide (e.input.1 = hash) && creates e.pre e.input.1 e.input.2

/-- An answer is a file with the hash that was asked for. -/
def Verified (e : FetchEvent PeerId) : Prop :=
  ∀ response, e.output = .ok response →
    ∃ content, e.post e.input.1 = some content ∧ getFileHash digest content = e.input.1

/-- An attempt that answers with the file it finds does not find the wrong content of an attempt that broke off. -/
def WellCached (e : FetchEvent PeerId) (h : List (FetchEvent PeerId)) : Prop :=
  answersFromCache e.pre e.input.1 e.input.2 = true → ∀ e', lastCreation e.input.1 h = some e' →
    completes e'.input.2 = true ∨ getFileHash digest e'.input.2.copied = e.input.1

variable {digest}

/-- The files are those that the attempts have left. -/
def FilesLeft (digest : List UInt8 → List UInt8) (w : World Files (Nat × SliceIo PeerId) (Except FetchError FileResponse)) :
    Prop :=
  ∀ hash, w.state hash = (lastCreation hash w.history).bind fun e => left digest hash e.input.2

section Step
variable {w : World Files (Nat × SliceIo PeerId) (Except FetchError FileResponse)} {hash : Nat} {io : SliceIo PeerId}

theorem not_creates_of_cached {files : Files} (h : answersFromCache files hash io = true) :
    creates files hash io = false := by
  obtain ⟨hfinds, -⟩ := Bool.and_eq_true_iff.mp h
  simp [creates, hfinds]

theorem lastCreation_next (i : Nat × SliceIo PeerId) (hash : Nat) :
    lastCreation hash ((fetching digest).next w i).history =
      if i.1 = hash ∧ creates w.state i.1 i.2 = true then some ((fetching digest).event w.state i)
      else lastCreation hash w.history := by
  unfold lastCreation
  rw [Machine.next_history]
  have hiff : (decide (i.1 = hash) && creates w.state i.1 i.2) = true ↔
      i.1 = hash ∧ creates w.state i.1 i.2 = true := by
    rw [Bool.and_eq_true, decide_eq_true_iff]
  split_ifs with hboth
  · exact List.find?_cons_of_pos (hiff.mpr hboth)
  · exact List.find?_cons_of_neg fun h => hboth (hiff.mp h)

theorem FilesLeft.step (h : FilesLeft digest w) (i : Nat × SliceIo PeerId) :
    FilesLeft digest ((fetching digest).next w i) := by
  obtain ⟨hash, io⟩ := i
  intro hash'
  have hattempt := attempt_attempted digest w.state hash io
  rw [lastCreation_next]
  change (attempt digest w.state hash io).1 hash' = _
  generalize attempt digest w.state hash io = r at hattempt
  cases hattempt with
  | failed error nothing nocache =>
    rw [if_neg (fun hboth => by rw [nothing] at hboth; cases hboth.2)]
    exact h hash'
  | cached response hit =>
    rw [if_neg (fun hboth => by rw [not_creates_of_cached hit] at hboth; cases hboth.2)]
    exact h hash'
  | created result creating validated =>
    dsimp only
    rw [Function.update_apply]
    by_cases hhash : hash' = hash
    · rw [if_pos hhash, if_pos ⟨hhash.symm, creating⟩, hhash]
      rfl
    · rw [if_neg hhash, if_neg fun hboth => hhash hboth.1.symm]
      exact h hash'

/-- A file that an attempt finds was left by the last one that created it, and it has the right content if and only if
that attempt was not broken off with the wrong one. -/
theorem FilesLeft.verifies_iff (h : FilesLeft digest w) (i : Nat × SliceIo PeerId) :
    Verified digest ((fetching digest).event w.state i) ↔ WellCached digest ((fetching digest).event w.state i) w.history := by
  obtain ⟨hash, io⟩ := i
  have hattempt := attempt_attempted digest w.state hash io
  unfold Verified WellCached
  change (∀ response, (attempt digest w.state hash io).2 = .ok response →
      ∃ content, (attempt digest w.state hash io).1 hash = some content ∧ getFileHash digest content = hash) ↔
    (answersFromCache w.state hash io = true → ∀ e', lastCreation hash w.history = some e' →
      completes e'.input.2 = true ∨ getFileHash digest e'.input.2.copied = hash)
  generalize attempt digest w.state hash io = r at hattempt
  cases hattempt with
  | failed error nothing nocache =>
    refine iff_of_true (fun response hr => by cases hr) fun hit => ?_
    rw [nocache] at hit
    cases hit
  | created result creating validated =>
    refine iff_of_true (fun response hr => ?_) fun hit => ?_
    · have hmatch := validated response hr
      refine ⟨io.copied, ?_, hmatch⟩
      rw [left_of_match hmatch]
      exact Function.update_self hash _ w.state
    · rw [not_creates_of_cached hit] at creating
      cases creating
  | cached response hit =>
    obtain ⟨hfinds, -⟩ := Bool.and_eq_true_iff.mp hit
    obtain ⟨content, hcontent⟩ := Option.isSome_iff_exists.mp (Bool.and_eq_true_iff.mp hfinds).2
    obtain ⟨e, he, hleft⟩ := Option.bind_eq_some_iff.mp ((h hash).symm.trans hcontent)
    constructor
    · intro hverified _ e' he'
      obtain rfl : e' = e := Option.some.inj (he'.symm.trans he)
      obtain ⟨content', hcontent', hmatch⟩ := hverified response rfl
      obtain rfl : content' = content := Option.some.inj (hcontent'.symm.trans hcontent)
      rw [copied_of_left hleft]
      exact Or.inr hmatch
    · intro hcached _ _
      refine ⟨content, hcontent, ?_⟩
      rw [← copied_of_left hleft]
      rcases hcached hit e he with hcompletes | hmatch
      · by_contra hne
        rw [left_of_mismatch hcompletes hne] at hleft
        cases hleft
      · exact hmatch

end Step

/-- A request answers what the last of its attempts does. -/
theorem fetchResource_attempts (digest : List UInt8 → List UInt8) (hash : Nat) (ios : List (SliceIo PeerId)) :
    ∀ (io : SliceIo PeerId) (files : Files), ∃ tries last, (tries ++ [last]) <+: (io :: ios) ∧
      fetchResource digest hash io ios files =
        attempt digest ((fetching digest).run files (tries.map fun io => (hash, io))).state hash last := by
  induction ios with
  | nil => exact fun io files => ⟨[], io, List.prefix_refl _, rfl⟩
  | cons next ios ih =>
    intro io files
    unfold fetchResource
    cases hattempt : attempt digest files hash io with
    | mk files' result =>
      cases result with
      | ok response => exact ⟨[], io, ⟨next :: ios, rfl⟩, hattempt.symm⟩
      | error e =>
        obtain ⟨tries, last, hprefix, heq⟩ := ih next files'
        refine ⟨io :: tries, last, List.cons_prefix_cons.mpr ⟨rfl, hprefix⟩, ?_⟩
        have hfirst : ((fetching digest).step files (hash, io)).1 = files' := congrArg Prod.fst hattempt
        rw [List.map_cons, Machine.run_cons_state, hfirst]
        exact heq

/-- **When all data is verified**, over any number of attempts in one work directory. -/
theorem verified_iff (digest : List UInt8 → List UInt8) (attempts : List (Nat × SliceIo PeerId)) :
    Along (fun e _ => Verified digest e) ((fetching digest).run (fun _ => none) attempts).history ↔
      Along (WellCached digest) ((fetching digest).run (fun _ => none) attempts).history :=
  (fetching digest).along_iff_of_invariant (FilesLeft digest) (fun _ _ => True) _ _ (fun _ => rfl)
    (fun _ i h => h.step i) (fun _ i h _ => h.verifies_iff i) attempts (along_true _)

/-- The digest of the empty file. -/
def emptyDigest : List UInt8 :=
  [0xaf, 0x13, 0x49, 0xb9, 0xf5, 0xf9, 0xa1, 0xa6, 0xa0, 0x40, 0x4d, 0xea, 0x36, 0xdc, 0xc9, 0x49,
    0x9b, 0xcb, 0x25, 0xc9, 0xad, 0xc1, 0x12, 0xb7, 0xcc, 0x9a, 0x93, 0xca, 0xe4, 0x1f, 0x32, 0x62]

/-- A transfer that fails before a byte has arrived, and a second attempt. -/
def interrupted : List (Nat × SliceIo Nat) :=
  [(7, { providers := [1], copied := [], copy := .error "unexpected end of file" }),
    (7, { providers := [1], copied := [] })]

/-- The second attempt answers with the empty file that the first one has left. -/
theorem verified_fails :
    ¬ Along (fun e _ => Verified (fun _ => emptyDigest) e)
      ((fetching fun _ => emptyDigest).run (fun _ => none) interrupted).history := by
  intro h
  obtain ⟨content, -, hhash⟩ := h.1 ⟨slicePath 7, 0⟩ rfl
  have hne : ofLe (emptyDigest.take 8) ≠ 7 := by decide
  exact hne hhash

end Hypha.Worker
