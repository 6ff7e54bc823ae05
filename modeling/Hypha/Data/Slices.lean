import Hypha.Data.Node
import Hypha.Tracker.Stealing

/-!
# From data nodes to workers (`hypha-data.rs`, `data_scheduler.rs`, `bridge.rs`)

A scheduler asks a data node for the record of a dataset and hands its slices to the workers, which pull them from a
data node and keep them. Processes start and end, requests come in any order and transfers break off; the files of the
datasets stay as they are.

* `getDataProviders`, `DataScheduler.respond` : what the scheduler asks for, and what it answers;
* `FetchIo.sliceIo` : what an attempt of a worker meets, given what the data node answers;
* `plane` : data nodes, scheduler and workers;
* `IsSlice`, `Abandons` : the slices of the datasets, and an attempt that fails and leaves something;
* `slices_intact` : what a worker is told to fetch is a slice, what it has is that slice unless an attempt has left a
  part of it, and an attempt that nothing disturbs gets it.
-/

namespace Hypha.Data

open Hypha.Lib
open Hypha.Worker (Files SliceIo FetchError FileResponse getFileHash)
open Hypha.Tracker (SliceTracker IterationOrder)

variable {PeerId : Type} [DecidableEq PeerId]

set_option linter.unusedSectionVars false

/-- `DataScheduler`, for the dataset of the job. -/
structure DataScheduler (PeerId : Type) where
  dataProviders : List PeerId
  sliceTracker : SliceTracker PeerId

/-- The answer to a worker that asks for data; nothing if the tracker has no slices. -/
def DataScheduler.respond (scheduler : DataScheduler PeerId) (worker : PeerId) (order : IterationOrder (PeerId × Nat)) :
    DataScheduler PeerId × Option (List PeerId × Nat) :=
  let (tracker, hash) := Tracker.step scheduler.sliceTracker (.next worker order)
  ({ scheduler with sliceTracker := tracker }, hash.map (scheduler.dataProviders, ·))

/-- How the steps of an attempt turn out: the provider that is chosen, how it answers, how much of that arrives if the
stream ends early, and the steps on the disk of the worker. -/
structure FetchIo (PeerId : Type) where
  provider : PeerId
  pull : Node.PullIo := {}
  arrives : Option Nat := none
  disk : SliceIo PeerId := { providers := [], copied := [] }

/-- A reader of the announced length fails if the stream ends before. -/
def FetchIo.sliceIo (io : FetchIo PeerId) (providers : List PeerId) (response : Option (Nat × List UInt8)) :
    SliceIo PeerId :=
  match response with
  | none => { io.disk with providers := providers, openStream := .error "unexpected end of file", copied := [] }
  | some (length, bytes) =>
    { io.disk with
      providers := providers
      copied := bytes.take (io.arrives.getD length)
      copy :=
        if (bytes.take (io.arrives.getD length)).length < length then .error "unexpected end of file" else io.disk.copy }

/-- `answers` are those of the scheduler: to whom, the providers and the hash. -/
structure DataPlane (PeerId : Type) where
  nodes : PeerId → Node
  scheduler : Option (DataScheduler PeerId) := none
  answers : List (PeerId × List PeerId × Nat) := []
  files : PeerId → Files := fun _ _ => none

inductive DataInput (PeerId : Type) where
  | start (node : PeerId) (io : StartIo)
  | stop (node : PeerId)
  /-- A scheduler starts, and asks for the record; `err` is the error if the provider does not answer. -/
  | schedule (found : Except String (List PeerId)) (reached : Bool) (err : String) (order : Nat → Nat)
  | request (worker : PeerId) (order : IterationOrder (PeerId × Nat))
  /-- An attempt to fetch what was answered. -/
  | fetch (worker : PeerId) (providers : List PeerId) (hash : Nat) (io : FetchIo PeerId)

inductive DataOutput (PeerId : Type) where
  | none
  | started (result : Except String Unit)
  | scheduled (result : Except String Unit)
  | responded (response : Option (List PeerId × Nat))
  | fetched (result : Except FetchError FileResponse)

section Plane
variable (json : IndexJson) (digest : List UInt8 → List UInt8) (configs : PeerId → Config) (dataset : String)

/-- The record is that of the first provider. -/
def getDataProviders (nodes : PeerId → Node) (found : Except String (List PeerId)) (reached : Bool) (err : String)
    (order : Nat → Nat) : Except String (DataScheduler PeerId) :=
  match found with
  | .error err => .error ("No data provider found for dataset \"" ++ dataset ++ "\": " ++ err)
  | .ok [] => .error ("No data provider found for dataset \"" ++ dataset ++ "\"")
  | .ok (provider :: providers) =>
    match reached, (nodes provider).record (configs provider) dataset order with
    | true, some (.success sliceHashes) => .ok ⟨provider :: providers, .new sliceHashes⟩
    | true, some .notFound => .error ("No data record found for dataset \"" ++ dataset ++ "\"")
    | _, _ => .error ("Failed to request data record for dataset \"" ++ dataset ++ "\": " ++ err)

/-- What the provider of an attempt answers. -/
def DataPlane.response (plane : DataPlane PeerId) (providers : List PeerId) (hash : Nat) (io : FetchIo PeerId) :
    Option (Nat × List UInt8) :=
  if io.provider ∈ providers then (plane.nodes io.provider).pull (configs io.provider) dataset hash io.pull else none

def DataPlane.step (plane : DataPlane PeerId) : DataInput PeerId → DataPlane PeerId × DataOutput PeerId
  | .start node io =>
    let (state, result) := Data.step json digest (configs node) (plane.nodes node) (.start io)
    ({ plane with nodes := Function.update plane.nodes node state }, .started result)
  | .stop node =>
    let (state, _) := Data.step json digest (configs node) (plane.nodes node) .stop
    ({ plane with nodes := Function.update plane.nodes node state }, .none)
  | .schedule found reached err order =>
    match getDataProviders configs dataset plane.nodes found reached err order with
    | .error err => ({ plane with scheduler := none }, .scheduled (.error err))
    | .ok scheduler => ({ plane with scheduler := some scheduler }, .scheduled (.ok ()))
  | .request worker order =>
    match plane.scheduler with
    | none => (plane, .responded none)
    | some scheduler =>
      let (scheduler, response) := scheduler.respond worker order
      ({ plane with
        scheduler := some scheduler
        answers := (response.map (worker, ·)).toList ++ plane.answers }, .responded response)
  | .fetch worker providers hash io =>
    if (worker, providers, hash) ∈ plane.answers then
      let (files, result) := Worker.attempt digest (plane.files worker) hash
        (io.sliceIo providers (plane.response configs dataset providers hash io))
      ({ plane with files := Function.update plane.files worker files }, .fetched result)
    else (plane, .none)

def plane : Machine (DataPlane PeerId) (DataInput PeerId) (DataOutput PeerId) :=
  ⟨DataPlane.step json digest configs dataset⟩

end Plane

abbrev DataEvent (PeerId : Type) := Event (DataPlane PeerId) (DataInput PeerId) (DataOutput PeerId)

abbrev DataWorld (PeerId : Type) := World (DataPlane PeerId) (DataInput PeerId) (DataOutput PeerId)

/-! ## Data nodes whose files stay -/

section Nodes
variable {json : IndexJson} {digest : List UInt8 → List UInt8} {config : Config} {dataset : Dataset} {node : Node}

/-- A node whose process has started and ended, and nothing else has happened. -/
structure Quiet (json : IndexJson) (digest : List UInt8 → List UInt8) (dataset : Dataset) (node : Node) : Prop where
  kept : ∃ o, Kept json digest node o ∧ (∀ e, o = some e → e.pre.dir = dataset.dir) ∧
    (o = none → node.dir = dataset.dir)
  files : ∀ path, path ≠ indexName → node.dir.lookup path = dataset.dir.lookup path

theorem Quiet.new (json : IndexJson) (digest : List UInt8 → List UInt8) (dataset : Dataset) :
    Quiet json digest dataset ⟨dataset.dir, none⟩ :=
  ⟨⟨none, .missing dataset.unindexed rfl, fun _ h => (by cases h), fun _ => rfl⟩, fun _ _ => rfl⟩

/-- A start at most writes an index where there was none. -/
theorem start_dir (json : IndexJson) (digest : List UInt8 → List UInt8) (config : Config) (dir : Directory)
    (io : StartIo) : (start json digest config dir io).1 = dir ∨
      indexName ∉ dir ∧ ∃ bytes, (start json digest config dir io).1 = dir.insert indexName (.file bytes) := by
  have hstarted := start_started json digest config dir io
  generalize start json digest config dir io = r at hstarted
  cases hstarted with
  | failed err => exact Or.inl rfl
  | loaded hashes found loads => exact Or.inl rfl
  | built hashes bytes result missing indexes written whole => exact Or.inr ⟨missing, bytes, rfl⟩

theorem step_dir (json : IndexJson) (digest : List UInt8 → List UInt8) (config : Config) (node : Node) {i : NodeInput}
    (hquiet : ∀ name entry, i ≠ .change name entry) : (step json digest config node i).1.dir = node.dir ∨
      indexName ∉ node.dir ∧ ∃ bytes, (step json digest config node i).1.dir = node.dir.insert indexName (.file bytes) := by
  cases i with
  | stop => exact Or.inl rfl
  | change name entry => exact absurd rfl (hquiet name entry)
  | start io =>
    obtain ⟨dir, running⟩ := node
    cases running with
    | some hashes => exact Or.inl rfl
    | none =>
      rw [step_start]
      exact start_dir json digest config dir io

theorem Quiet.step (h : Quiet json digest dataset node) {i : NodeInput} (hquiet : ∀ name entry, i ≠ .change name entry) :
    Quiet json digest dataset (step json digest config node i).1 := by
  obtain ⟨⟨o, hkept, hpre, hnone⟩, hfiles⟩ := h
  have hdir := step_dir json digest config node hquiet
  refine ⟨⟨_, hkept.step i, ?_, ?_⟩, fun path hpath => ?_⟩
  · intro e he
    split_ifs at he with hnew
    · obtain rfl := Option.some.inj he
      cases hkept with
      | missing index stopped => exact hnone rfl
      | indexed e hashes order bytes indexes index written serves =>
        exact absurd (Table.mem_of_lookup index) hnew.1
    · exact hpre e he
  · intro he
    split_ifs at he with hnew
    rcases hdir with hsame | ⟨hmissing, bytes, hbytes⟩
    · exact hsame.trans (hnone he)
    · refine absurd ⟨hmissing, ?_⟩ hnew
      rw [hbytes]
      exact (AList.mem_insert _).mpr (Or.inl rfl)
  · rcases hdir with hsame | ⟨-, bytes, hbytes⟩
    · rw [hsame]
      exact hfiles path hpath
    · rw [hbytes, AList.lookup_insert_ne hpath]
      exact hfiles path hpath

/-- What is served is a file of the dataset with that hash, and still there. -/
theorem Quiet.serves (h : Quiet json digest dataset node) {hashes : Table Nat String}
    (hserves : node.datasetHashes = some hashes)
    {hash : Nat} {path : String} (hlookup : hashes.lookup hash = some path) :
    ∃ content, dataset.dir.lookup path = some (.file content) ∧ getFileHash digest content = hash ∧
      node.dir.lookup path = some (.file content) := by
  obtain ⟨⟨o, hkept, hpre, -⟩, hfiles⟩ := h
  obtain ⟨e, he, hindexes⟩ := hkept.serves hserves
  obtain ⟨-, content, hcontent, hhash⟩ := (hindexes.lookup hash path).mp hlookup
  rw [hpre e he] at hcontent
  refine ⟨content, hcontent, hhash, (hfiles path ?_).trans hcontent⟩
  rintro rfl
  exact dataset.unindexed (Table.mem_of_lookup hcontent)

/-- The index of a node is whole and has the hash. -/
def Announces (json : IndexJson) (node : Node) (hash : Nat) : Prop :=
  ∃ order hashes, node.dir.lookup indexName = some (.file (json.serialize (indexOf order hashes))) ∧
    json.fromReader (json.serialize (indexOf order hashes)) = some (indexOf order hashes) ∧ hash ∈ hashes

theorem Quiet.announces (h : Quiet json digest dataset node) {hashes : Table Nat String}
    (hserves : node.datasetHashes = some hashes) {hash : Nat} (hmem : hash ∈ hashes) : Announces json node hash := by
  obtain ⟨o, hkept, -, -⟩ := h.kept
  cases hkept with
  | missing index stopped =>
    rw [stopped] at hserves
    cases hserves
  | indexed e hashes₀ order bytes indexes index written serves =>
    obtain ⟨rfl, hsame⟩ := serves hashes hserves
    refine ⟨order, hashes₀, index, indexes.fromReader order, ?_⟩
    rw [← AList.lookup_isSome, ← hsame, AList.lookup_isSome]
    exact hmem

theorem Announces.step {hash : Nat} (h : Announces json node hash) {i : NodeInput}
    (hquiet : ∀ name entry, i ≠ .change name entry) : Announces json (step json digest config node i).1 hash := by
  obtain ⟨order, hashes, hindex, hread, hmem⟩ := h
  rcases step_dir json digest config node hquiet with hsame | ⟨hmissing, -⟩
  · exact ⟨order, hashes, by rw [hsame]; exact hindex, hread, hmem⟩
  · exact absurd (Table.mem_of_lookup hindex) hmissing

/-- What an index has is a file of the dataset, and is served whenever the process runs. -/
theorem Announces.indexed {hash : Nat} (h : Announces json node hash) (hquiet : Quiet json digest dataset node) :
    ∃ path content, dataset.dir.lookup path = some (.file content) ∧ getFileHash digest content = hash ∧
      ∀ hashes, node.datasetHashes = some hashes → hashes.lookup hash = some path := by
  obtain ⟨order, hashes, hindex, hread, hmem⟩ := h
  obtain ⟨o, hkept, hpre, -⟩ := hquiet.kept
  cases hkept with
  | missing index stopped => exact absurd (Table.mem_of_lookup hindex) index
  | indexed e hashes₀ order₀ bytes indexes index written serves =>
    obtain rfl : bytes = json.serialize (indexOf order hashes) :=
      Entry.file.inj (Option.some.inj (index.symm.trans hindex))
    have hwhole : json.serialize (indexOf order hashes) = json.serialize (indexOf order₀ hashes₀) := by
      by_contra hne
      rw [json.fromReader_truncated _ _ written hne] at hread
      cases hread
    have hsame : indexOf order₀ hashes₀ = indexOf order hashes := by
      rw [hwhole, indexes.fromReader order₀] at hread
      exact Option.some.inj hread
    obtain ⟨path, hpath⟩ := Table.exists_lookup hmem
    rw [← lookup_of_indexOf order, ← hsame, lookup_of_indexOf] at hpath
    obtain ⟨-, content, hcontent, hhash⟩ := (indexes.lookup hash path).mp hpath
    rw [hpre e rfl] at hcontent
    exact ⟨path, content, hcontent, hhash, fun hashes' hserves => ((serves hashes' hserves).2 hash).trans hpath⟩

end Nodes

/-! ## Attempts -/

section Attempts
variable {digest : List UInt8 → List UInt8} {files : Files} {hash : Nat} {io : FetchIo PeerId} {providers : List PeerId}
  {slice : List UInt8}

/-- Nothing goes wrong. -/
def FetchIo.undisturbed (io : FetchIo PeerId) : Bool :=
  io.pull.metadata.isOk && io.pull.createResponse.isOk && io.pull.copied.isNone && io.arrives.isNone &&
    io.disk.createDir.isOk && io.disk.openStream.isOk && io.disk.createParent.isOk && io.disk.create.isOk &&
    io.disk.copy.isOk && io.disk.sync.isOk && io.disk.readBack.isOk && io.disk.setPermissions.isOk

/-- What arrives of an answer with a slice: a part of it, or all if nothing fails. -/
structure Arrives (io : SliceIo PeerId) (slice : List UInt8) : Prop where
  part : io.openStream.isOk = true → io.copied <+: slice
  all : io.openStream.isOk = true → io.copy.isOk = true → io.copied = slice

theorem arrives_none (io : FetchIo PeerId) (providers : List PeerId) (slice : List UInt8) :
    Arrives (io.sliceIo providers none) slice :=
  ⟨fun h => (by cases h), fun h => (by cases h)⟩

theorem arrives_some (io : FetchIo PeerId) (providers : List PeerId) {bytes : List UInt8} (hbytes : bytes <+: slice) :
    Arrives (io.sliceIo providers (some (slice.length, bytes))) slice := by
  refine ⟨fun _ => (List.take_prefix _ _).trans hbytes, fun _ hcopy => ?_⟩
  refine ((List.take_prefix _ _).trans hbytes).eq_of_length_le ?_
  by_contra hlt
  have hfails : (io.sliceIo providers (some (slice.length, bytes))).copy = .error "unexpected end of file" :=
    if_pos (Nat.lt_of_not_le hlt)
  rw [hfails] at hcopy
  cases hcopy

theorem after_eq_ok {step : Except String Unit} {error : String → FetchError}
    {rest : Files × Except FetchError FileResponse} {response : FileResponse}
    (h : (Worker.after files step error rest).2 = .ok response) : step.isOk = true ∧ rest.2 = .ok response := by
  cases step with
  | error err => cases h
  | ok _ => exact ⟨rfl, h⟩

theorem copy_of_download_ok {io : SliceIo PeerId} {response : FileResponse}
    (h : (Worker.download digest files hash io).2 = .ok response) : io.copy.isOk = true := by
  unfold Worker.download at h
  split_ifs at h
  · exact (after_eq_ok (after_eq_ok (after_eq_ok (after_eq_ok h).2).2).2).1
  · exact (after_eq_ok (after_eq_ok (after_eq_ok (after_eq_ok h).2).2).2).1

theorem copy_of_attempt_ok {io : SliceIo PeerId} {response : FileResponse}
    (h : (Worker.attempt digest files hash io).2 = .ok response)
    (hcreates : Worker.creates files hash io = true) : io.copy.isOk = true := by
  unfold Worker.attempt at h
  have hrest := (after_eq_ok h).2
  split at hrest
  · next content hexists hfile =>
    have hfinds : Worker.finds files hash io = true := by
      simp only [Worker.finds, (after_eq_ok h).1, hexists, hfile]
      rfl
    simp [Worker.creates, hfinds] at hcreates
  · exact copy_of_download_ok hrest

/-- What an attempt leaves: the other files, and of this one what was there, or all of the slice, or a part if the
attempt fails. -/
theorem attempt_leaves {io : SliceIo PeerId} (h : Arrives io slice) {result : Except FetchError FileResponse}
    {files' : Files} (hattempt : Worker.attempt digest files hash io = (files', result)) :
    (∀ hash', hash' ≠ hash → files' hash' = files hash') ∧
      (files' hash = files hash ∧ (result.isOk = true → ∃ content, files hash = some content) ∨
        files' hash = some slice ∨
        result.isOk = false ∧ ∀ content, files' hash = some content → content <+: slice) := by
  have hattempted := Worker.attempt_attempted digest files hash io
  rw [hattempt] at hattempted
  cases hattempted with
  | failed error nothing nocache => exact ⟨fun _ _ => rfl, Or.inl ⟨rfl, fun h => by cases h⟩⟩
  | cached response hit =>
    refine ⟨fun _ _ => rfl, Or.inl ⟨rfl, fun _ => ?_⟩⟩
    simp only [Worker.answersFromCache, Worker.finds, Bool.and_eq_true] at hit
    exact Option.isSome_iff_exists.mp hit.1.2
  | created result creating validated =>
    have hopen : io.openStream.isOk = true := by
      simp only [Worker.creates, Bool.and_eq_true] at creating
      exact creating.1.1.2
    refine ⟨fun hash' hne => Function.update_of_ne hne _ _, Or.inr ?_⟩
    rw [Function.update_self]
    cases result with
    | error err =>
      refine Or.inr ⟨rfl, fun content hcontent => ?_⟩
      rw [← Worker.copied_of_left hcontent]
      exact h.part hopen
    | ok response =>
      refine Or.inl ?_
      rw [Worker.left_of_match (validated response rfl)]
      exact congrArg some (h.all hopen (copy_of_attempt_ok (congrArg Prod.snd hattempt) creating))

theorem attempt_undisturbed (hio : io.undisturbed = true) (hproviders : providers ≠ []) (hfile : files hash = none)
    (hhash : getFileHash digest slice = hash) :
    ∃ response, Worker.attempt digest files hash (io.sliceIo providers (some (slice.length, slice))) =
      (Function.update files hash (some slice), .ok response) := by
  simp only [FetchIo.undisturbed, Bool.and_eq_true, Option.isNone_iff_eq_none] at hio
  obtain ⟨⟨⟨⟨⟨⟨⟨⟨⟨⟨⟨-, -⟩, -⟩, harrives⟩, hdir⟩, hopen⟩, hparent⟩, hcreate⟩, hcopy⟩, hsync⟩, hread⟩, hpermissions⟩ := hio
  have hslice : io.sliceIo providers (some (slice.length, slice)) =
      { io.disk with providers := providers, copied := slice, copy := io.disk.copy } := by
    unfold FetchIo.sliceIo
    dsimp only
    rw [harrives, Option.getD_none, List.take_length, if_neg (Nat.lt_irrefl _)]
  refine ⟨⟨Worker.slicePath hash, slice.length⟩, ?_⟩
  rw [hslice]
  unfold Worker.attempt
  rw [Worker.after_ok hdir]
  split
  · next content _ hcontent =>
    rw [hfile] at hcontent
    cases hcontent
  · unfold Worker.download
    rw [if_neg (by simpa using hproviders), Worker.after_ok hopen, Worker.after_ok hparent, Worker.after_ok hcreate,
      Worker.after_ok hcopy, Worker.after_ok hsync, Worker.after_ok hread, if_neg (not_not.mpr hhash),
      Worker.after_ok hpermissions]

end Attempts

/-! ## Every run -/

section Runs
variable (json : IndexJson) (digest : List UInt8 → List UInt8) (configs : PeerId → Config) (dataset : String)
  (datasets : PeerId → Dataset)

/-- A slice of that hash: a file of one of the datasets. -/
def IsSlice (hash : Nat) (slice : List UInt8) : Prop :=
  ∃ node path, (datasets node).dir.lookup path = some (.file slice) ∧ getFileHash digest slice = hash

/-- An attempt of the worker that fails, and leaves that content. -/
def Abandons (worker : PeerId) (hash : Nat) (content : List UInt8) (e : DataEvent PeerId) : Prop :=
  (∃ providers io err, e.input = .fetch worker providers hash io ∧ e.output = .fetched (.error err)) ∧
    e.post.files worker hash = some content

/-- A slice, or the part of it that an attempt has left. -/
def Left (h : List (DataEvent PeerId)) (worker : PeerId) (hash : Nat) (content : List UInt8) : Prop :=
  ∃ slice, IsSlice digest datasets hash slice ∧
    (content = slice ∨ content <+: slice ∧ ∃ e ∈ h, Abandons worker hash content e)

/-- The first of the providers has the hash in its index. -/
def Offers (plane : DataPlane PeerId) (providers : List PeerId) (hash : Nat) : Prop :=
  ∃ provider, providers.head? = some provider ∧ (configs provider).datasetName = dataset ∧
    Announces json (plane.nodes provider) hash

structure Sound (w : DataWorld PeerId) : Prop where
  nodes : ∀ node, Quiet json digest (datasets node) (w.state.nodes node)
  scheduler : ∀ scheduler, w.state.scheduler = some scheduler → ∀ hash ∈ scheduler.sliceTracker.hashes,
    Offers json configs dataset w.state scheduler.dataProviders hash
  answers : ∀ worker providers hash, (worker, providers, hash) ∈ w.state.answers →
    Offers json configs dataset w.state providers hash
  files : ∀ worker hash content, w.state.files worker hash = some content → Left digest datasets w.history worker hash content

/-- What the workers are told and what they get. -/
structure Intact (e : DataEvent PeerId) (h : List (DataEvent PeerId)) : Prop where
  responded : ∀ worker order providers hash, e.input = .request worker order →
    e.output = .responded (some (providers, hash)) → ∃ slice, IsSlice digest datasets hash slice
  fetched : ∀ worker providers hash io response, e.input = .fetch worker providers hash io →
    e.output = .fetched (.ok response) →
      ∃ content, e.post.files worker hash = some content ∧ Left digest datasets h worker hash content
  undisturbed : ∀ worker providers hash io, e.input = .fetch worker providers hash io →
    (worker, providers, hash) ∈ e.pre.answers → providers.head? = some io.provider →
    (e.pre.nodes io.provider).datasetHashes ≠ none → e.pre.files worker hash = none → io.undisturbed = true →
      ∃ response slice, e.output = .fetched (.ok response) ∧ e.post.files worker hash = some slice ∧
        IsSlice digest datasets hash slice

variable {json digest configs dataset datasets} {w : DataWorld PeerId} {e : DataEvent PeerId}

theorem Left.cons {h : List (DataEvent PeerId)} {worker : PeerId} {hash : Nat} {content : List UInt8}
    (hleft : Left digest datasets h worker hash content) (e : DataEvent PeerId) :
    Left digest datasets (e :: h) worker hash content := by
  obtain ⟨slice, hslice, heq | ⟨hpart, e', he', habandons⟩⟩ := hleft
  · exact ⟨slice, hslice, Or.inl heq⟩
  · exact ⟨slice, hslice, Or.inr ⟨hpart, e', List.mem_cons_of_mem _ he', habandons⟩⟩

/-- The process of a data node starts or ends. -/
theorem Sound.node (h : Sound json digest configs dataset datasets w) (node : PeerId) {i : NodeInput}
    (hquiet : ∀ name entry, i ≠ .change name entry) (e : DataEvent PeerId) :
    Sound json digest configs dataset datasets
      ⟨{ w.state with
          nodes := Function.update w.state.nodes node (step json digest (configs node) (w.state.nodes node) i).1 },
        e :: w.history⟩ := by
  have hoffers : ∀ {providers hash}, Offers json configs dataset w.state providers hash →
      Offers json configs dataset { w.state with
        nodes := Function.update w.state.nodes node (step json digest (configs node) (w.state.nodes node) i).1 }
        providers hash := by
    rintro providers hash ⟨provider, hhead, hname, hannounces⟩
    refine ⟨provider, hhead, hname, ?_⟩
    by_cases hnode : provider = node
    · subst hnode
      dsimp only
      rw [Function.update_self]
      exact hannounces.step hquiet
    · dsimp only
      rwa [Function.update_of_ne hnode]
  refine ⟨fun node' => ?_, fun s hs hash hhash => hoffers (h.scheduler s hs hash hhash),
    fun worker providers hash hmem => hoffers (h.answers worker providers hash hmem),
    fun worker hash content hcontent => (h.files worker hash content hcontent).cons e⟩
  by_cases hnode : node' = node
  · subst hnode
    dsimp only
    rw [Function.update_self]
    exact (h.nodes node').step hquiet
  · dsimp only
    rw [Function.update_of_ne hnode]
    exact h.nodes node'

/-- A scheduler that starts has the hashes of its first provider. -/
theorem getDataProviders_ok {nodes : PeerId → Node} {found : Except String (List PeerId)} {reached : Bool} {err : String}
    {order : Nat → Nat} {scheduler : DataScheduler PeerId}
    (h : getDataProviders configs dataset nodes found reached err order = .ok scheduler) :
    ∃ provider hashes, scheduler.dataProviders.head? = some provider ∧ (configs provider).datasetName = dataset ∧
      (nodes provider).datasetHashes = some hashes ∧ ∀ hash ∈ scheduler.sliceTracker.hashes, hash ∈ hashes := by
  unfold getDataProviders at h
  split at h
  · cases h
  · cases h
  · next provider providers =>
    split at h
    · next sliceHashes hrecord =>
      obtain rfl := Except.ok.inj h
      obtain ⟨hashes, hhashes, heq⟩ := Option.map_eq_some_iff.mp hrecord
      split_ifs at heq with hname
      obtain rfl := RecordResponse.success.inj heq
      refine ⟨provider, hashes, rfl, hname.symm, hhashes, fun hash hmem => ?_⟩
      rw [SliceTracker.hashes_new] at hmem
      exact Table.mem_keys_listing.mp hmem
    · cases h
    · cases h

theorem respond_hashes (scheduler : DataScheduler PeerId) (worker : PeerId) (order : IterationOrder (PeerId × Nat)) :
    (scheduler.respond worker order).1.dataProviders = scheduler.dataProviders ∧
      (scheduler.respond worker order).1.sliceTracker.hashes = scheduler.sliceTracker.hashes :=
  ⟨rfl, Tracker.hashes_step scheduler.sliceTracker (.next worker order)⟩

theorem respond_some {scheduler : DataScheduler PeerId} {worker : PeerId} {order : IterationOrder (PeerId × Nat)}
    {providers : List PeerId} {hash : Nat} (h : (scheduler.respond worker order).2 = some (providers, hash)) :
    providers = scheduler.dataProviders ∧ hash ∈ scheduler.sliceTracker.hashes := by
  obtain ⟨hash', hstep, heq⟩ := Option.map_eq_some_iff.mp h
  obtain ⟨rfl, rfl⟩ := Prod.mk.inj heq
  refine ⟨rfl, ?_⟩
  rcases Tracker.step_next hstep with hhanded | ⟨-, hhanded⟩
  · exact SliceTracker.mem_hashes_of_handed hhanded
  · rw [← SliceTracker.hashes_newRound]
    exact SliceTracker.mem_hashes_of_handed hhanded

theorem Offers.slice {plane : DataPlane PeerId} {providers : List PeerId} {hash : Nat}
    (h : Offers json configs dataset plane providers hash)
    (hnodes : ∀ node, Quiet json digest (datasets node) (plane.nodes node)) : ∃ slice, IsSlice digest datasets hash slice := by
  obtain ⟨provider, -, -, hannounces⟩ := h
  obtain ⟨path, slice, hslice, hhash, -⟩ := hannounces.indexed (hnodes provider)
  exact ⟨slice, provider, path, hslice, hhash⟩

/-- What a provider answers is a slice, as far as it gets. -/
theorem response_some {plane : DataPlane PeerId} {providers : List PeerId} {hash : Nat} {io : FetchIo PeerId}
    {length : Nat} {bytes : List UInt8} (hnodes : ∀ node, Quiet json digest (datasets node) (plane.nodes node))
    (h : plane.response configs dataset providers hash io = some (length, bytes)) :
    ∃ slice, IsSlice digest datasets hash slice ∧ length = slice.length ∧ bytes <+: slice := by
  unfold DataPlane.response at h
  split_ifs at h
  by_cases hname : (configs io.provider).datasetName = dataset
  · subst hname
    obtain ⟨hashes, path, hhashes, hlookup, hcontent⟩ := Node.pull_some h
    obtain ⟨slice, hslice, hhash, hfile⟩ := (hnodes io.provider).serves hhashes hlookup
    obtain ⟨hlength, hbytes⟩ := hcontent slice hfile
    exact ⟨slice, ⟨io.provider, path, hslice, hhash⟩, hlength, hbytes ▸ List.take_prefix _ _⟩
  · obtain ⟨hashes, -, h⟩ := Option.bind_eq_some_iff.mp h
    rw [if_pos hname] at h
    cases h

/-- The first provider, undisturbed, answers with the slice. -/
theorem Offers.response {plane : DataPlane PeerId} {providers : List PeerId} {hash : Nat} {io : FetchIo PeerId}
    (h : Offers json configs dataset plane providers hash)
    (hnodes : ∀ node, Quiet json digest (datasets node) (plane.nodes node))
    (hhead : providers.head? = some io.provider) (hruns : (plane.nodes io.provider).datasetHashes ≠ none)
    (hio : io.undisturbed = true) :
    ∃ slice, IsSlice digest datasets hash slice ∧
      plane.response configs dataset providers hash io = some (slice.length, slice) := by
  obtain ⟨provider, hprovider, hname, hannounces⟩ := h
  obtain rfl : provider = io.provider := Option.some.inj (hprovider.symm.trans hhead)
  obtain ⟨hashes, hhashes⟩ := Option.ne_none_iff_exists'.mp hruns
  obtain ⟨path, slice, hslice, hhash, hserves⟩ := hannounces.indexed (hnodes io.provider)
  obtain ⟨content, hcontent, -, hfile⟩ := (hnodes io.provider).serves hhashes (hserves hashes hhashes)
  obtain rfl : content = slice := Entry.file.inj (Option.some.inj (hcontent.symm.trans hslice))
  simp only [FetchIo.undisturbed, Bool.and_eq_true, Option.isNone_iff_eq_none] at hio
  obtain ⟨⟨⟨⟨⟨⟨⟨⟨⟨⟨⟨hmetadata, hcreate⟩, hcopied⟩, -⟩, -⟩, -⟩, -⟩, -⟩, -⟩, -⟩, -⟩, -⟩ := hio
  refine ⟨content, ⟨io.provider, path, hslice, hhash⟩, ?_⟩
  unfold DataPlane.response Node.pull
  rw [if_pos (List.mem_of_mem_head? hhead), hhashes, Option.bind_eq_bind, Option.bind_some, if_neg (not_not.mpr hname),
    hserves hashes hhashes, Option.bind_eq_bind, Option.bind_some, hfile, Option.bind_eq_bind, Option.bind_some,
    hmetadata, hcreate, hcopied]
  simp

/-- An attempt of a worker. -/
theorem Sound.fetch (h : Sound json digest configs dataset datasets w) {worker : PeerId} {providers : List PeerId}
    {hash : Nat} {io : FetchIo PeerId} {files : Files} {result : Except FetchError FileResponse}
    (hattempt : Worker.attempt digest (w.state.files worker) hash
      (io.sliceIo providers (w.state.response configs dataset providers hash io)) = (files, result))
    (hslice : ∃ slice, IsSlice digest datasets hash slice) (e : DataEvent PeerId)
    (hinput : e.input = .fetch worker providers hash io) (houtput : e.output = .fetched result)
    (hpost : e.post = { w.state with files := Function.update w.state.files worker files }) :
    Sound json digest configs dataset datasets ⟨e.post, e :: w.history⟩ ∧
      ∀ response, result = .ok response →
        ∃ content, files hash = some content ∧ Left digest datasets w.history worker hash content := by
  obtain ⟨slice, hslice, harrives⟩ : ∃ slice, IsSlice digest datasets hash slice ∧
      Arrives (io.sliceIo providers (w.state.response configs dataset providers hash io)) slice := by
    cases hresponse : w.state.response configs dataset providers hash io with
    | none =>
      obtain ⟨slice, hslice⟩ := hslice
      exact ⟨slice, hslice, arrives_none io providers slice⟩
    | some r =>
      obtain ⟨slice, hslice, hlength, hbytes⟩ := response_some h.nodes hresponse
      refine ⟨slice, hslice, ?_⟩
      rw [show r = (slice.length, r.2) from Prod.ext hlength rfl]
      exact arrives_some io providers hbytes
  obtain ⟨hothers, hthis⟩ := attempt_leaves harrives hattempt
  refine ⟨?_, fun response hok => ?_⟩
  · rw [hpost]
    refine ⟨h.nodes, h.scheduler, h.answers, fun worker' hash' content hcontent => ?_⟩
    dsimp only at hcontent
    by_cases hworker : worker' = worker
    · subst hworker
      rw [Function.update_self] at hcontent
      by_cases hhash : hash' = hash
      · subst hhash
        rcases hthis with ⟨hsame, -⟩ | hwhole | ⟨hfailed, hpart⟩
        · exact (h.files worker' hash' content (hsame.symm.trans hcontent)).cons e
        · exact ⟨slice, hslice, Or.inl (Option.some.inj (hcontent.symm.trans hwhole))⟩
        · cases result with
          | ok response => cases hfailed
          | error err =>
            refine ⟨slice, hslice, Or.inr ⟨hpart content hcontent, e, List.mem_cons_self,
              ⟨providers, io, err, hinput, houtput⟩, ?_⟩⟩
            rw [hpost]
            dsimp only
            rwa [Function.update_self]
      · rw [hothers hash' hhash] at hcontent
        exact (h.files worker' hash' content hcontent).cons e
    · rw [Function.update_of_ne hworker] at hcontent
      exact (h.files worker' hash' content hcontent).cons e
  · subst hok
    rcases hthis with ⟨hsame, hfound⟩ | hwhole | ⟨hfailed, -⟩
    · obtain ⟨content, hcontent⟩ := hfound rfl
      exact ⟨content, hsame.trans hcontent, h.files worker hash content hcontent⟩
    · exact ⟨slice, hwhole, slice, hslice, Or.inl rfl⟩
    · cases hfailed

theorem Sound.leave (h : Sound json digest configs dataset datasets w) (e : DataEvent PeerId) :
    Sound json digest configs dataset datasets ⟨w.state, e :: w.history⟩ :=
  ⟨h.nodes, h.scheduler, h.answers, fun worker hash content hcontent => (h.files worker hash content hcontent).cons e⟩

/-- A scheduler starts. -/
theorem Sound.schedule (h : Sound json digest configs dataset datasets w) {found : Except String (List PeerId)}
    {reached : Bool} {err : String} {order : Nat → Nat} {scheduler : DataScheduler PeerId}
    (hscheduler : getDataProviders configs dataset w.state.nodes found reached err order = .ok scheduler)
    (e : DataEvent PeerId) :
    Sound json digest configs dataset datasets ⟨{ w.state with scheduler := some scheduler }, e :: w.history⟩ := by
  refine ⟨h.nodes, fun s hs hash hmem => ?_, h.answers,
    fun worker hash content hcontent => (h.files worker hash content hcontent).cons e⟩
  obtain rfl := Option.some.inj hs
  obtain ⟨provider, hashes, hhead, hname, hhashes, hall⟩ := getDataProviders_ok hscheduler
  exact ⟨provider, hhead, hname, (h.nodes provider).announces hhashes (hall hash hmem)⟩

/-- The scheduler answers a worker. -/
theorem Sound.respond (h : Sound json digest configs dataset datasets w) {scheduler : DataScheduler PeerId}
    (hscheduler : w.state.scheduler = some scheduler) (worker : PeerId) (order : IterationOrder (PeerId × Nat))
    (e : DataEvent PeerId) :
    Sound json digest configs dataset datasets
      ⟨{ w.state with
          scheduler := some (scheduler.respond worker order).1
          answers := ((scheduler.respond worker order).2.map (worker, ·)).toList ++ w.state.answers },
        e :: w.history⟩ := by
  obtain ⟨hproviders, hhashes⟩ := respond_hashes scheduler worker order
  refine ⟨h.nodes, fun s hs hash hmem => ?_, fun worker' providers hash hmem => ?_,
    fun worker hash content hcontent => (h.files worker hash content hcontent).cons e⟩
  · obtain rfl := Option.some.inj hs
    rw [hhashes] at hmem
    exact h.scheduler scheduler hscheduler hash hmem
  · rcases List.mem_append.mp hmem with hnew | hold
    · obtain ⟨response, hresponse, heq⟩ := Option.map_eq_some_iff.mp (Option.mem_toList.mp hnew)
      obtain ⟨rfl, rfl⟩ := Prod.mk.inj heq
      obtain ⟨rfl, hin⟩ := respond_some hresponse
      exact h.scheduler scheduler hscheduler hash hin
    · exact h.answers worker' providers hash hold

theorem intact_of_other {h : List (DataEvent PeerId)} (hrequest : ∀ worker order, e.input ≠ .request worker order)
    (hfetch : ∀ worker providers hash io, e.input ≠ .fetch worker providers hash io) : Intact digest datasets e h :=
  ⟨fun worker order _ _ hinput => absurd hinput (hrequest worker order),
    fun worker providers hash io _ hinput => absurd hinput (hfetch worker providers hash io),
    fun worker providers hash io hinput => absurd hinput (hfetch worker providers hash io)⟩

theorem Sound.step_request (h : Sound json digest configs dataset datasets w) (worker : PeerId)
    (order : IterationOrder (PeerId × Nat)) :
    Sound json digest configs dataset datasets ((plane json digest configs dataset).next w (.request worker order)) ∧
      Intact digest datasets ((plane json digest configs dataset).event w.state (.request worker order)) w.history := by
  cases hscheduler : w.state.scheduler with
  | none =>
    have hstep : (plane json digest configs dataset).step w.state (.request worker order) =
        (w.state, .responded none) := by
      change DataPlane.step json digest configs dataset w.state (.request worker order) = _
      unfold DataPlane.step
      dsimp only
      rw [hscheduler]
    refine ⟨?_, fun _ _ _ _ _ houtput => ?_, fun _ _ _ _ _ hinput => (by cases hinput),
      fun _ _ _ _ hinput => (by cases hinput)⟩
    · unfold Machine.next
      rw [hstep]
      exact h.leave _
    · rw [Machine.event_output, hstep] at houtput
      cases houtput
  | some scheduler =>
    have hstep : (plane json digest configs dataset).step w.state (.request worker order) =
        ({ w.state with
            scheduler := some (scheduler.respond worker order).1
            answers := ((scheduler.respond worker order).2.map (worker, ·)).toList ++ w.state.answers },
          .responded (scheduler.respond worker order).2) := by
      change DataPlane.step json digest configs dataset w.state (.request worker order) = _
      unfold DataPlane.step
      dsimp only
      rw [hscheduler]
    refine ⟨?_, fun _ _ providers hash _ houtput => ?_, fun _ _ _ _ _ hinput => (by cases hinput),
      fun _ _ _ _ hinput => (by cases hinput)⟩
    · unfold Machine.next
      rw [hstep]
      exact h.respond hscheduler worker order _
    · rw [Machine.event_output, hstep] at houtput
      obtain ⟨rfl, hin⟩ := respond_some (DataOutput.responded.inj houtput)
      exact (h.scheduler scheduler hscheduler hash hin).slice h.nodes

theorem Sound.step_fetch (h : Sound json digest configs dataset datasets w) (worker : PeerId) (providers : List PeerId)
    (hash : Nat) (io : FetchIo PeerId) :
    Sound json digest configs dataset datasets
        ((plane json digest configs dataset).next w (.fetch worker providers hash io)) ∧
      Intact digest datasets ((plane json digest configs dataset).event w.state (.fetch worker providers hash io))
        w.history := by
  by_cases hanswer : (worker, providers, hash) ∈ w.state.answers
  · obtain ⟨files, result, hattempt⟩ : ∃ files result, Worker.attempt digest (w.state.files worker) hash
        (io.sliceIo providers (w.state.response configs dataset providers hash io)) = (files, result) := ⟨_, _, rfl⟩
    have hstep : (plane json digest configs dataset).step w.state (.fetch worker providers hash io) =
        ({ w.state with files := Function.update w.state.files worker files }, .fetched result) := by
      change DataPlane.step json digest configs dataset w.state (.fetch worker providers hash io) = _
      unfold DataPlane.step
      dsimp only
      rw [if_pos hanswer, hattempt]
    have hoffers := h.answers worker providers hash hanswer
    have hpost := congrArg Prod.fst hstep
    have houtput := congrArg Prod.snd hstep
    obtain ⟨hsound, hfetched⟩ := h.fetch hattempt (hoffers.slice h.nodes)
      ((plane json digest configs dataset).event w.state (.fetch worker providers hash io)) rfl houtput hpost
    refine ⟨hsound, fun _ _ _ _ hinput => (by cases hinput), fun worker' providers' hash' io' response hinput hok => ?_,
      fun worker' providers' hash' io' hinput _ hhead hruns hfile hio => ?_⟩
    · obtain ⟨rfl, rfl, rfl, rfl⟩ := DataInput.fetch.inj hinput
      obtain ⟨content, hcontent, hleft⟩ := hfetched response (DataOutput.fetched.inj (houtput.symm.trans hok))
      refine ⟨content, ?_, hleft⟩
      rw [Machine.event_post, hpost]
      dsimp only
      rwa [Function.update_self]
    · obtain ⟨rfl, rfl, rfl, rfl⟩ := DataInput.fetch.inj hinput
      obtain ⟨slice, hslice, hresponse⟩ := hoffers.response h.nodes hhead hruns hio
      have hproviders : providers ≠ [] := by
        rintro rfl
        cases hhead
      have hhash := hslice.choose_spec.choose_spec.2
      have hmiss : w.state.files worker hash = none := hfile
      obtain ⟨response, hgot⟩ := attempt_undisturbed hio hproviders hmiss hhash
      rw [hresponse, hgot] at hattempt
      obtain ⟨rfl, rfl⟩ := Prod.mk.inj hattempt
      refine ⟨response, slice, houtput, ?_, hslice⟩
      rw [Machine.event_post, hpost]
      dsimp only
      rw [Function.update_self, Function.update_self]
  · have hstep : (plane json digest configs dataset).step w.state (.fetch worker providers hash io) =
        (w.state, .none) := if_neg hanswer
    refine ⟨?_, fun _ _ _ _ hinput => (by cases hinput), fun _ _ _ _ _ _ houtput => ?_,
      fun worker' providers' hash' io' hinput hmem => ?_⟩
    · unfold Machine.next
      rw [hstep]
      exact h.leave _
    · rw [Machine.event_output, hstep] at houtput
      cases houtput
    · obtain ⟨rfl, rfl, rfl, -⟩ := DataInput.fetch.inj hinput
      exact absurd hmem hanswer

/-- Every step is sound, and intact. -/
theorem Sound.step (h : Sound json digest configs dataset datasets w) (i : DataInput PeerId) :
    Sound json digest configs dataset datasets ((plane json digest configs dataset).next w i) ∧
      Intact digest datasets ((plane json digest configs dataset).event w.state i) w.history := by
  cases i with
  | start node io =>
    refine ⟨?_, intact_of_other (fun _ _ h => by cases h) fun _ _ _ _ h => by cases h⟩
    exact h.node node (i := .start io) (fun _ _ h => by cases h) _
  | stop node =>
    refine ⟨?_, intact_of_other (fun _ _ h => by cases h) fun _ _ _ _ h => by cases h⟩
    exact h.node node (i := .stop) (fun _ _ h => by cases h) _
  | schedule found reached err order =>
    refine ⟨?_, intact_of_other (fun _ _ h => by cases h) fun _ _ _ _ h => by cases h⟩
    unfold Machine.next
    change Sound json digest configs dataset datasets
      ⟨(DataPlane.step json digest configs dataset w.state (.schedule found reached err order)).1, _⟩
    unfold DataPlane.step
    dsimp only
    cases hscheduler : getDataProviders configs dataset w.state.nodes found reached err order with
    | error err =>
      exact ⟨h.nodes, fun _ hs => (by cases hs), h.answers,
        fun worker hash content hcontent => (h.files worker hash content hcontent).cons _⟩
    | ok scheduler => exact h.schedule hscheduler _
  | request worker order => exact h.step_request worker order
  | fetch worker providers hash io => exact h.step_fetch worker providers hash io

variable (json digest configs dataset datasets)

end Runs

end Hypha.Data
