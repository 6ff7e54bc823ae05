import Mathlib.Logic.Encodable.Basic
import Mathlib.Logic.Equiv.List
import Hypha.Lib.Machine
import Hypha.Lib.Table
import Hypha.Worker.Fetch

/-!
# The data node (`hypha-data.rs`)

A data node serves the files of a directory by their hashes. Its first start hashes them and writes an index; later ones
take the hashes from the index, whatever the files are by then.

* `start` : from the directory to the table of hashes, every step of which may fail;
* `machine` : starts and ends of the process, and changes to the files by others, who leave the index alone;
* `record`, `pull` : the answers of a running node;
* `indexing` : the start that has written the index;
* `answers_since_indexed` : whatever is answered is about the files as they were indexed, and an index that broke off is
  never served.
-/

namespace Hypha.Data

open Hypha.Lib
open Hypha.Worker (getFileHash)

structure DatasetIndexEntry where
  hash : Nat
  path : String
  deriving DecidableEq, Repr

structure DatasetIndex where
  entries : List DatasetIndexEntry
  deriving DecidableEq, Repr

/-- How `serde_json` writes an index and reads one. A text that breaks off is not read. -/
structure IndexJson where
  serialize : DatasetIndex → List UInt8
  fromReader : List UInt8 → Option DatasetIndex
  fromReader_serialize : ∀ index : DatasetIndex, (∀ e ∈ index.entries, e.hash < 2 ^ 64) →
    fromReader (serialize index) = some index
  fromReader_truncated : ∀ index bytes, bytes <+: serialize index → bytes ≠ serialize index → fromReader bytes = none

def DatasetIndex.codes (index : DatasetIndex) : List (Nat × List Nat) :=
  index.entries.map fun e => (e.hash, e.path.toList.map Char.toNat)

theorem codes_injective : Function.Injective DatasetIndex.codes := by
  intro index index' h
  have hpath : Function.Injective fun path : String => path.toList.map Char.toNat :=
    (List.map_injective_iff.mpr fun _ _ h => Char.toNat_inj.mp h).comp fun _ _ h => String.toList_inj.mp h
  have hentry : Function.Injective fun e : DatasetIndexEntry => (e.hash, e.path.toList.map Char.toNat) := by
    rintro ⟨hash, path⟩ ⟨hash', path'⟩ heq
    obtain rfl : hash = hash' := (Prod.mk.inj heq).1
    obtain rfl : path = path' := hpath (Prod.mk.inj heq).2
    rfl
  exact congrArg DatasetIndex.mk (List.map_injective_iff.mpr hentry h)

/-- There are such formats: a number of ones, which stands for the index, and a zero. -/
example : Nonempty IndexJson := by
  classical
  obtain ⟨code, hcode⟩ := exists_injective_nat (List (Nat × List Nat))
  let serialize (index : DatasetIndex) : List UInt8 := List.replicate (code index.codes) 1 ++ [0]
  have hlength : ∀ index, (serialize index).length = code index.codes + 1 := fun index => by
    rw [List.length_append, List.length_replicate, List.length_singleton]
  have hinjective : Function.Injective serialize := fun index index' h => by
    have hcodes := (hlength index).symm.trans ((congrArg List.length h).trans (hlength index'))
    exact codes_injective (hcode (Nat.succ.inj hcodes))
  refine ⟨⟨serialize, fun bytes => if h : ∃ index, serialize index = bytes then some h.choose else none, ?_, ?_⟩⟩
  · intro index _
    have hexists : ∃ index', serialize index' = serialize index := ⟨index, rfl⟩
    rw [dif_pos hexists, hinjective hexists.choose_spec]
  · rintro index bytes hpart hne
    refine dif_neg ?_
    rintro ⟨index', rfl⟩
    refine hne (hpart.eq_of_length ?_)
    have hzero : (0 : UInt8) ∈ serialize index' := List.mem_append_right _ List.mem_cons_self
    by_contra hlengths
    have hlt := Nat.lt_of_le_of_ne hpart.length_le hlengths
    rw [hlength index] at hlt
    -- a shorter text has no zero
    have hones : serialize index' <+: List.replicate (code index.codes) 1 := by
      refine List.prefix_of_prefix_length_le hpart (List.prefix_append _ _) ?_
      rw [List.length_replicate]
      exact Nat.lt_succ_iff.mp hlt
    exact absurd (List.eq_of_mem_replicate (hones.subset hzero)) (by decide)

/-- What lies under a name in a directory. -/
inductive Entry where
  | file (content : List UInt8)
  | directory
  deriving DecidableEq, Repr

abbrev Directory := Table String Entry

structure Config where
  datasetName : String
  indexPath : String

def indexName : String := "index.json"

/-- How the steps of a start turn out. `order` is the order of the directory, `finished` the one in which files are
hashed, and `hashOrder` that of the hash map; `written` is how much of the index is written if that breaks off. -/
structure StartIo where
  isDir : Bool := true
  readDir : Except String Unit := .ok ()
  entryOk : String → Bool := fun _ => true
  order : String → Nat := fun _ => 0
  indexFound : Bool := true
  openIndex : Except String Unit := .ok ()
  readIndex : Except String Unit := .ok ()
  readFile : String → Except String Unit := fun _ => .ok ()
  finished : String → Nat := fun _ => 0
  hashOrder : Nat → Nat := id
  createIndex : Except String Unit := .ok ()
  written : Option Nat := none
  announce : Except String Unit := .ok ()

section Start
variable (json : IndexJson) (digest : List UInt8 → List UInt8) (config : Config) (dir : Directory) (io : StartIo)

/-- The names that `read_dir` yields; one that it fails to yield is left out. -/
def listed : List String := ((Table.listing io.order dir).map Sigma.fst).filter io.entryOk

def hashFile (name : String) : Except String Nat :=
  match io.readFile name, dir.lookup name with
  | .error err, _ => .error err
  | .ok (), some (.file content) => .ok (getFileHash digest content)
  | .ok (), some .directory => .error "Is a directory (os error 21)"
  | .ok (), none => .error "No such file or directory (os error 2)"

/-- The files are hashed in parallel, and the first failure ends it. -/
def hashFiles (names : List String) : Except String (List (Nat × String)) :=
  let failure := (names.insertionSort fun a b => io.finished a ≤ io.finished b).findSome? fun name =>
    match hashFile digest dir io name with
    | .error err => some err
    | .ok _ => none
  match failure with
  | some err => .error err
  | none => .ok (names.filterMap fun name => (hashFile digest dir io name).toOption.map (·, name))

/-- No two files may have the same hash. -/
def insertHashes : List (Nat × String) → Table Nat String → Except String (Table Nat String)
  | [], hashes => .ok hashes
  | (hash, path) :: rest, hashes =>
    if hash ∈ hashes then .error "Duplicate hash detected while hashing dataset files"
    else insertHashes rest (hashes.insert hash path)

def indexOf (order : Nat → Nat) (hashes : Table Nat String) : DatasetIndex :=
  ⟨(Table.listing order hashes).map fun e => ⟨e.1, e.2⟩⟩

/-- `create_new` fails if the file exists, and what was written stays if writing breaks off. -/
def writeIndex (hashes : Table Nat String) : Directory × Except String (Table Nat String) :=
  if indexName ∈ dir || !io.createIndex.isOk then
    (dir, .error ("Failed to create dataset index at " ++ config.indexPath))
  else
    match io.written with
    | some n =>
      (dir.insert indexName (.file ((json.serialize (indexOf io.hashOrder hashes)).take n)),
        .error ("Failed to write dataset index at " ++ config.indexPath))
    | none => (dir.insert indexName (.file (json.serialize (indexOf io.hashOrder hashes))), .ok hashes)

/-- Without an index. -/
def buildIndex : Directory × Except String (Table Nat String) :=
  if (listed dir io).isEmpty then (dir, .error "Dataset directory is empty")
  else
    match (hashFiles digest dir io (listed dir io)).bind fun pairs => insertHashes pairs ∅ with
    | .error err => (dir, .error err)
    | .ok hashes => writeIndex json config dir io hashes

/-- With an index; a hash that it lists twice has the path that comes last. -/
def loadIndex : Except String (Table Nat String) :=
  if !io.openIndex.isOk then
    .error ("Failed to open dataset index at " ++ config.indexPath ++
      ". If the file is corrupted, delete it and restart \x60hypha-data\x60.")
  else
    let index := match io.readIndex, dir.lookup indexName with
      | .ok (), some (.file bytes) => json.fromReader bytes
      | _, _ => none
    match index with
    | none => .error ("Failed to parse dataset index at " ++ config.indexPath)
    | some index =>
      if index.entries.isEmpty then .error "Dataset index is empty"
      else .ok (index.entries.foldl (fun hashes entry => hashes.insert entry.hash entry.path) ∅)

/-- `run`, as far as the dataset goes: the directory it leaves, and the hashes it serves. -/
def start : Directory × Except String (Table Nat String) :=
  if !io.isDir then (dir, .error "Dataset path is not a directory")
  else
    match io.readDir with
    | .error err => (dir, .error ("Failed to read dataset directory: " ++ err))
    | .ok () =>
      let (dir, result) :=
        if indexName ∈ dir && io.indexFound then (dir, loadIndex json config dir io)
        else buildIndex json digest config dir io
      (dir, result.bind fun hashes => io.announce.map fun _ => hashes)

end Start

/-! ## The process -/

/-- The directory, and the hashes of the process while it runs. -/
structure Node where
  dir : Directory
  datasetHashes : Option (Table Nat String) := none

inductive NodeInput where
  | start (io : StartIo)
  | stop
  /-- Somebody changes, adds or removes something. -/
  | change (name : String) (entry : Option Entry)

section Machine
variable (json : IndexJson) (digest : List UInt8 → List UInt8) (config : Config)

def step (node : Node) : NodeInput → Node × Except String Unit
  | .start io =>
    match node.datasetHashes with
    | some _ => (node, .ok ())
    | none =>
      match start json digest config node.dir io with
      | (dir, .error err) => (⟨dir, none⟩, .error err)
      | (dir, .ok hashes) => (⟨dir, some hashes⟩, .ok ())
  | .stop => ({ node with datasetHashes := none }, .ok ())
  | .change name entry =>
    if name = indexName then (node, .ok ())
    else
      match entry with
      | some entry => ({ node with dir := node.dir.insert name entry }, .ok ())
      | none => ({ node with dir := node.dir.erase name }, .ok ())

def machine : Machine Node NodeInput (Except String Unit) := ⟨step json digest config⟩

abbrev NodeEvent := Event Node NodeInput (Except String Unit)

abbrev NodeWorld := World Node NodeInput (Except String Unit)

/-- `data_record::Response`, as far as the node answers. -/
inductive RecordResponse where
  | success (sliceHashes : List Nat)
  | notFound
  deriving DecidableEq, Repr

namespace Node
variable (node : Node)

/-- The answer to a request for the record of a dataset. -/
def record (dataset : String) (order : Nat → Nat) : Option RecordResponse :=
  node.datasetHashes.map fun hashes =>
    if dataset = config.datasetName then .success ((Table.listing order hashes).map Sigma.fst) else .notFound

/-- How the steps of an answer turn out: `size` is that of a directory, `copied` how much of the file is copied if that
breaks off. -/
structure PullIo where
  metadata : Except String Unit := .ok ()
  size : Nat := 4096
  createResponse : Except String Unit := .ok ()
  copied : Option Nat := none

/-- The answer to a pull of a slice: the length that is announced, and what follows. -/
def pull (dataset : String) (hash : Nat) (io : PullIo) : Option (Nat × List UInt8) := do
  let hashes ← node.datasetHashes
  if config.datasetName ≠ dataset then none
  else
    let path ← hashes.lookup hash
    let entry ← node.dir.lookup path
    if !io.metadata.isOk || !io.createResponse.isOk then none
    else
      match entry with
      | .directory => some (io.size, [])
      | .file content => some (content.length, content.take (io.copied.getD content.length))

end Node

end Machine

/-! ## What a start does -/

section Starts
variable {json : IndexJson} {digest : List UInt8 → List UInt8} {config : Config} {dir : Directory} {io : StartIo}

/-- A file that is listed has the hash. -/
def Hashed (digest : List UInt8 → List UInt8) (dir : Directory) (names : List String) (hash : Nat) (path : String) :
    Prop :=
  path ∈ names ∧ ∃ content, dir.lookup path = some (.file content) ∧ getFileHash digest content = hash

/-- All that is listed are files, and the map has them by their hashes. -/
structure Indexes (digest : List UInt8 → List UInt8) (dir : Directory) (names : List String)
    (hashes : Table Nat String) : Prop where
  files : ∀ path ∈ names, ∃ content, dir.lookup path = some (.file content)
  lookup : ∀ hash path, hashes.lookup hash = some path ↔ Hashed digest dir names hash path

theorem hashFile_ok {name : String} {hash : Nat} (h : hashFile digest dir io name = .ok hash) :
    ∃ content, dir.lookup name = some (.file content) ∧ getFileHash digest content = hash := by
  unfold hashFile at h
  split at h
  · cases h
  · next content _ hfile => exact ⟨content, hfile, Except.ok.inj h⟩
  · cases h
  · cases h

theorem hashFiles_ok {names : List String} {pairs : List (Nat × String)}
    (h : hashFiles digest dir io names = .ok pairs) :
    (∀ path ∈ names, ∃ content, dir.lookup path = some (.file content)) ∧
      ∀ hash path, (hash, path) ∈ pairs ↔ Hashed digest dir names hash path := by
  unfold hashFiles at h
  dsimp only at h
  split at h
  · cases h
  · next hnone =>
    obtain rfl := Except.ok.inj h
    have hall : ∀ path ∈ names, ∃ hash, hashFile digest dir io path = .ok hash := fun path hpath => by
      have hpath' := List.findSome?_eq_none_iff.mp hnone path ((List.mem_insertionSort _).mpr hpath)
      cases hhash : hashFile digest dir io path with
      | error err =>
        rw [hhash] at hpath'
        cases hpath'
      | ok hash => exact ⟨hash, rfl⟩
    refine ⟨fun path hpath => ?_, fun hash path => ?_⟩
    · obtain ⟨hash, hhash⟩ := hall path hpath
      obtain ⟨content, hfile, -⟩ := hashFile_ok hhash
      exact ⟨content, hfile⟩
    · rw [List.mem_filterMap]
      constructor
      · rintro ⟨name, hname, hpair⟩
        obtain ⟨hash', hhash, heq⟩ := Option.map_eq_some_iff.mp hpair
        obtain ⟨rfl, rfl⟩ := Prod.mk.inj heq
        have hok : hashFile digest dir io name = .ok hash' := by
          cases hfile : hashFile digest dir io name with
          | error err =>
            rw [hfile] at hhash
            cases hhash
          | ok hash =>
            rw [hfile] at hhash
            exact congrArg Except.ok (Option.some.inj hhash)
        exact ⟨hname, hashFile_ok hok⟩
      · rintro ⟨hname, content, hfile, hhash⟩
        obtain ⟨hash', hhash'⟩ := hall path hname
        obtain ⟨content', hfile', hhash''⟩ := hashFile_ok hhash'
        obtain rfl : content' = content := Entry.file.inj (Option.some.inj (hfile'.symm.trans hfile))
        obtain rfl : hash' = hash := hhash''.symm.trans hhash
        refine ⟨path, hname, ?_⟩
        rw [hhash']
        rfl

theorem insertHashes_ok : ∀ {pairs : List (Nat × String)} {hashes hashes' : Table Nat String},
    insertHashes pairs hashes = .ok hashes' → (pairs.map Prod.fst).Nodup ∧ (∀ p ∈ pairs, p.1 ∉ hashes) ∧
      hashes' = pairs.foldl (fun hashes p => hashes.insert p.1 p.2) hashes
  | [], hashes, hashes', h => ⟨List.nodup_nil, fun _ h => (by cases h), (Except.ok.inj h).symm⟩
  | (hash, path) :: rest, hashes, hashes', h => by
    unfold insertHashes at h
    split_ifs at h with hmem
    obtain ⟨hnodup, hnew, heq⟩ := insertHashes_ok h
    refine ⟨List.nodup_cons.mpr ⟨fun hin => ?_, hnodup⟩, fun p hp => ?_, heq⟩
    · obtain ⟨p, hp, hkey⟩ := List.mem_map.mp hin
      exact hnew p hp ((AList.mem_insert _).mpr (Or.inl hkey))
    · rcases List.mem_cons.mp hp with rfl | hp
      · exact hmem
      · exact fun hold => hnew p hp ((AList.mem_insert _).mpr (Or.inr hold))

theorem indexes_of_hashFiles {names : List String} {pairs : List (Nat × String)} {hashes : Table Nat String}
    (h : hashFiles digest dir io names = .ok pairs) (hinsert : insertHashes pairs ∅ = .ok hashes) :
    Indexes digest dir names hashes := by
  obtain ⟨hfiles, hpairs⟩ := hashFiles_ok h
  obtain ⟨hnodup, hnew, rfl⟩ := insertHashes_ok hinsert
  refine ⟨hfiles, fun hash path => ?_⟩
  rw [Table.lookup_foldl_insert Prod.fst Prod.snd hnodup hnew, ← hpairs]
  constructor
  · rintro (⟨p, hp, rfl, rfl⟩ | h)
    · exact hp
    · cases h
  · exact fun hp => Or.inl ⟨(hash, path), hp, rfl, rfl⟩

/-- What an index was written from is what is loaded from it. -/
theorem lookup_of_indexOf (order : Nat → Nat) (hashes : Table Nat String) (hash : Nat) :
    ((indexOf order hashes).entries.foldl (fun hashes entry => hashes.insert entry.hash entry.path)
      (∅ : Table Nat String)).lookup hash = hashes.lookup hash := by
  have hnodup : ((indexOf order hashes).entries.map DatasetIndexEntry.hash).Nodup := by
    unfold indexOf
    rw [List.map_map]
    exact Table.nodupKeys_listing order hashes
  refine Option.ext fun path => ?_
  have hlisted : hashes.lookup hash = some path ↔ ⟨hash, path⟩ ∈ Table.listing order hashes := by
    rw [← Table.dlookup_listing order hashes]
    exact List.mem_dlookup_iff (Table.nodupKeys_listing order hashes)
  rw [Table.lookup_foldl_insert _ _ hnodup fun _ _ h => (by cases h), hlisted]
  unfold indexOf
  constructor
  · rintro (⟨e, he, rfl, rfl⟩ | h)
    · obtain ⟨entry, hentry, rfl⟩ := List.mem_map.mp he
      exact hentry
    · cases h
  · exact fun he => Or.inl ⟨⟨hash, path⟩, List.mem_map_of_mem he, rfl, rfl⟩

/-- What a start can do: fail, load the index, or write one, completely or not. -/
inductive Started (json : IndexJson) (digest : List UInt8 → List UInt8) (config : Config) (dir : Directory)
    (io : StartIo) : Directory × Except String (Table Nat String) → Prop where
  | failed (err : String) : Started json digest config dir io (dir, .error err)
  | loaded (hashes : Table Nat String) (found : indexName ∈ dir) (loads : loadIndex json config dir io = .ok hashes) :
      Started json digest config dir io (dir, .ok hashes)
  | built (hashes : Table Nat String) (bytes : List UInt8) (result : Except String (Table Nat String))
      (missing : indexName ∉ dir) (indexes : Indexes digest dir (listed dir io) hashes)
      (written : bytes <+: json.serialize (indexOf io.hashOrder hashes))
      (whole : ∀ hashes', result = .ok hashes' → hashes' = hashes ∧
        bytes = json.serialize (indexOf io.hashOrder hashes)) :
      Started json digest config dir io (dir.insert indexName (.file bytes), result)

theorem Started.announced {r : Directory × Except String (Table Nat String)} (h : Started json digest config dir io r) :
    Started json digest config dir io (r.1, r.2.bind fun hashes => io.announce.map fun _ => hashes) := by
  cases h with
  | failed err => exact .failed err
  | loaded hashes found loads =>
    cases io.announce with
    | error err => exact .failed err
    | ok _ => exact .loaded hashes found loads
  | built hashes bytes result missing indexes written whole =>
    refine .built hashes bytes _ missing indexes written fun hashes' h => whole hashes' ?_
    cases result with
    | error err => cases h
    | ok hashes'' =>
      revert h
      cases io.announce with
      | error err => exact fun h => by cases h
      | ok _ => exact id

theorem buildIndex_started (json : IndexJson) (digest : List UInt8 → List UInt8) (config : Config) (dir : Directory)
    (io : StartIo) : Started json digest config dir io (buildIndex json digest config dir io) := by
  unfold buildIndex
  split_ifs with hempty
  · exact .failed _
  split
  · exact .failed _
  next hashes hhashes =>
  obtain ⟨pairs, hpairs, hinsert⟩ : ∃ pairs, hashFiles digest dir io (listed dir io) = .ok pairs ∧
      insertHashes pairs ∅ = .ok hashes := by
    cases hpairs : hashFiles digest dir io (listed dir io) with
    | error err =>
      rw [hpairs] at hhashes
      cases hhashes
    | ok pairs =>
      rw [hpairs] at hhashes
      exact ⟨pairs, rfl, hhashes⟩
  have hindexes := indexes_of_hashFiles hpairs hinsert
  unfold writeIndex
  split_ifs with hcreate
  · exact .failed _
  have hmissing : indexName ∉ dir := fun hmem => hcreate (by simp [hmem])
  cases io.written with
  | some n => exact .built hashes _ _ hmissing hindexes (List.take_prefix _ _) fun _ h => by cases h
  | none => exact .built hashes _ _ hmissing hindexes List.prefix_rfl fun _ h => ⟨(Except.ok.inj h).symm, rfl⟩

/-- **What a start does.** -/
theorem start_started (json : IndexJson) (digest : List UInt8 → List UInt8) (config : Config) (dir : Directory)
    (io : StartIo) : Started json digest config dir io (start json digest config dir io) := by
  unfold start
  split_ifs with hdir hfound
  · exact .failed _
  · split
    · exact .failed _
    · have hmem : indexName ∈ dir := by
        simp only [Bool.and_eq_true, decide_eq_true_eq] at hfound
        exact hfound.1
      refine Started.announced (r := (dir, loadIndex json config dir io)) ?_
      cases hload : loadIndex json config dir io with
      | error err => exact .failed err
      | ok hashes => exact .loaded hashes hmem hload
  · split
    · exact .failed _
    · exact (buildIndex_started json digest config dir io).announced

end Starts

/-! ## What is served -/

section Served
variable {json : IndexJson} {digest : List UInt8 → List UInt8} {config : Config} {w : NodeWorld}

/-- The start that has written the index. -/
def indexing (h : List NodeEvent) : Option NodeEvent :=
  h.find? fun e => decide (indexName ∉ e.pre.dir) && decide (indexName ∈ e.post.dir)

/-- What a start has listed. -/
def listedBy (e : NodeEvent) : List String :=
  match e.input with
  | .start io => listed e.pre.dir io
  | _ => []

/-- A file had the hash when it was indexed. -/
def HashedAt (digest : List UInt8 → List UInt8) (e : NodeEvent) (hash : Nat) (path : String) : Prop :=
  Hashed digest e.pre.dir (listedBy e) hash path

/-- There is no index and nothing is served, or the index is what one start has written, and only if that is all of it
is anything served. -/
inductive Kept (json : IndexJson) (digest : List UInt8 → List UInt8) (node : Node) : Option NodeEvent → Prop where
  | missing (index : indexName ∉ node.dir) (stopped : node.datasetHashes = none) : Kept json digest node none
  | indexed (e : NodeEvent) (hashes : Table Nat String) (order : Nat → Nat) (bytes : List UInt8)
      (indexes : Indexes digest e.pre.dir (listedBy e) hashes) (index : node.dir.lookup indexName = some (.file bytes))
      (written : bytes <+: json.serialize (indexOf order hashes))
      (serves : ∀ hashes', node.datasetHashes = some hashes' →
        bytes = json.serialize (indexOf order hashes) ∧ ∀ hash, hashes'.lookup hash = hashes.lookup hash) :
      Kept json digest node (some e)

/-- The index is left as it is, and nothing else is served. -/
theorem Kept.leave {node node' : Node} {o : Option NodeEvent} (h : Kept json digest node o)
    (hindex : node'.dir.lookup indexName = node.dir.lookup indexName)
    (hserves : node'.datasetHashes = none ∨ node'.datasetHashes = node.datasetHashes) : Kept json digest node' o := by
  cases h with
  | missing index stopped =>
    refine .missing (fun hmem => index ?_) ?_
    · rwa [← AList.lookup_isSome, hindex, AList.lookup_isSome] at hmem
    · rcases hserves with hnone | hsame
      · exact hnone
      · exact hsame.trans stopped
  | indexed e hashes order bytes indexes index written serves =>
    refine .indexed e hashes order bytes indexes (hindex.trans index) written fun hashes' h' => ?_
    rcases hserves with hnone | hsame
    · rw [hnone] at h'
      cases h'
    · exact serves hashes' (hsame.symm.trans h')

theorem ofLe_lt : ∀ bytes : List UInt8, ofLe bytes < 256 ^ bytes.length
  | [] => Nat.zero_lt_one
  | b :: bytes => by
    have ih := ofLe_lt bytes
    unfold ofLe at ih ⊢
    rw [List.map_cons, Nat.ofDigits_cons, List.length_cons, Nat.pow_succ]
    have hb := UInt8.toNat_lt b
    omega

theorem getFileHash_lt (digest : List UInt8 → List UInt8) (content : List UInt8) :
    getFileHash digest content < 2 ^ 64 := by
  refine Nat.lt_of_lt_of_le (ofLe_lt _) ?_
  calc 256 ^ ((digest content).take 8).length ≤ 256 ^ 8 :=
        Nat.pow_le_pow_right (by decide) (List.length_take_le _ _)
    _ = 2 ^ 64 := by decide

/-- A whole index is read as it was written. -/
theorem Indexes.fromReader {dir : Directory} {names : List String} {hashes : Table Nat String}
    (h : Indexes digest dir names hashes) (order : Nat → Nat) :
    json.fromReader (json.serialize (indexOf order hashes)) = some (indexOf order hashes) := by
  refine json.fromReader_serialize _ fun entry hentry => ?_
  obtain ⟨⟨hash, path⟩, he, rfl⟩ := List.mem_map.mp hentry
  have hlookup : hashes.lookup hash = some path := by
    rw [← Table.dlookup_listing order hashes]
    exact List.mem_dlookup (Table.nodupKeys_listing order hashes) he
  obtain ⟨-, content, -, hhash⟩ := (h.lookup hash path).mp hlookup
  exact hhash ▸ getFileHash_lt digest content

theorem loadIndex_ok {dir : Directory} {io : StartIo} {hashes : Table Nat String}
    (h : loadIndex json config dir io = .ok hashes) : ∃ bytes index, dir.lookup indexName = some (.file bytes) ∧
      json.fromReader bytes = some index ∧
      hashes = index.entries.foldl (fun hashes entry => hashes.insert entry.hash entry.path) ∅ := by
  unfold loadIndex at h
  split_ifs at h
  dsimp only at h
  split at h
  · cases h
  next index hindex =>
  split_ifs at h
  split at hindex
  · next bytes _ hfile => exact ⟨bytes, index, hfile, hindex, (Except.ok.inj h).symm⟩
  · cases hindex

/-- An index that is loaded has been written completely. -/
theorem Kept.load {dir : Directory} {io : StartIo} {o : Option NodeEvent} {hashes : Table Nat String}
    (h : Kept json digest ⟨dir, none⟩ o) (hload : loadIndex json config dir io = .ok hashes) :
    Kept json digest ⟨dir, some hashes⟩ o := by
  obtain ⟨bytes, index, hfile, hread, rfl⟩ := loadIndex_ok hload
  cases h with
  | missing index stopped => exact absurd (Table.mem_of_lookup hfile) index
  | indexed e hashes order bytes' indexes hindex written serves =>
    obtain rfl : bytes' = bytes := Entry.file.inj (Option.some.inj (hindex.symm.trans hfile))
    have hwhole : bytes' = json.serialize (indexOf order hashes) := by
      by_contra hne
      rw [json.fromReader_truncated _ _ written hne] at hread
      cases hread
    obtain rfl : indexOf order hashes = index := by
      rw [hwhole, indexes.fromReader order] at hread
      exact Option.some.inj hread
    refine .indexed e hashes order bytes' indexes hindex written fun hashes' h' => ?_
    obtain rfl := Option.some.inj h'
    exact ⟨hwhole, lookup_of_indexOf order hashes⟩

theorem indexing_next (i : NodeInput) :
    indexing ((machine json digest config).next w i).history =
      if indexName ∉ w.state.dir ∧ indexName ∈ (step json digest config w.state i).1.dir then
        some ((machine json digest config).event w.state i)
      else indexing w.history := by
  unfold indexing
  rw [Machine.next_history]
  have hiff : (decide (indexName ∉ w.state.dir) && decide (indexName ∈ (step json digest config w.state i).1.dir)) = true ↔
      indexName ∉ w.state.dir ∧ indexName ∈ (step json digest config w.state i).1.dir := by
    rw [Bool.and_eq_true, decide_eq_true_iff, decide_eq_true_iff]
  split_ifs with hboth
  · exact List.find?_cons_of_pos (hiff.mpr hboth)
  · exact List.find?_cons_of_neg fun h => hboth (hiff.mp h)

theorem step_change_index (json : IndexJson) (digest : List UInt8 → List UInt8) (config : Config) (node : Node)
    (name : String) (entry : Option Entry) :
    (step json digest config node (.change name entry)).1.dir.lookup indexName = node.dir.lookup indexName ∧
      (step json digest config node (.change name entry)).1.datasetHashes = node.datasetHashes := by
  unfold step
  dsimp only
  split_ifs with hname
  · exact ⟨rfl, rfl⟩
  · cases entry with
    | some entry => exact ⟨AList.lookup_insert_ne (Ne.symm hname), rfl⟩
    | none => exact ⟨AList.lookup_erase_ne (Ne.symm hname), rfl⟩

theorem step_start (json : IndexJson) (digest : List UInt8 → List UInt8) (config : Config) (dir : Directory)
    (io : StartIo) : (step json digest config ⟨dir, none⟩ (.start io)).1 =
    ⟨(start json digest config dir io).1, (start json digest config dir io).2.toOption⟩ := by
  unfold step
  dsimp only
  split
  · next h => rw [h]; rfl
  · next h => rw [h]; rfl

/-- Every step keeps the index, or writes it. -/
theorem Kept.step {node : Node} {o : Option NodeEvent} (h : Kept json digest node o) (i : NodeInput) :
    Kept json digest (step json digest config node i).1
      (if indexName ∉ node.dir ∧ indexName ∈ (step json digest config node i).1.dir then
        some ((machine json digest config).event node i) else o) := by
  have hleave : ∀ node' : Node, node'.dir.lookup indexName = node.dir.lookup indexName →
      (node'.datasetHashes = none ∨ node'.datasetHashes = node.datasetHashes) →
      Kept json digest node' (if indexName ∉ node.dir ∧ indexName ∈ node'.dir then
        some ((machine json digest config).event node i) else o) := fun node' hindex hserves => by
    rw [if_neg]
    · exact h.leave hindex hserves
    · rintro ⟨hout, hin⟩
      rw [← AList.lookup_isSome, hindex, AList.lookup_isSome] at hin
      exact hout hin
  cases i with
  | stop => exact hleave _ rfl (Or.inl rfl)
  | change name entry =>
    obtain ⟨hindex, hserves⟩ := step_change_index json digest config node name entry
    exact hleave _ hindex (Or.inr hserves)
  | start io =>
    obtain ⟨dir, running⟩ := node
    cases running with
    | some hashes => exact hleave _ rfl (Or.inr rfl)
    | none =>
      have hstarted := start_started json digest config dir io
      rw [step_start]
      generalize start json digest config dir io = r at hstarted
      cases hstarted with
      | failed err => exact hleave _ rfl (Or.inl rfl)
      | loaded hashes found loads =>
        rw [if_neg fun hnew => hnew.1 found]
        exact h.load loads
      | built hashes bytes result missing indexes written whole =>
        rw [if_pos ⟨missing, (AList.mem_insert _).mpr (Or.inl rfl)⟩]
        refine .indexed _ hashes io.hashOrder bytes indexes (AList.lookup_insert _) written fun hashes' h' => ?_
        cases result with
        | error err => cases h'
        | ok hashes'' =>
          obtain ⟨rfl, hbytes⟩ := whole hashes'' rfl
          obtain rfl := Option.some.inj h'
          exact ⟨hbytes, fun _ => rfl⟩

/-- A directory without an index. -/
structure Dataset where
  dir : Directory
  unindexed : indexName ∉ dir

theorem kept_run (json : IndexJson) (digest : List UInt8 → List UInt8) (config : Config) (dataset : Dataset)
    (inputs : List NodeInput) :
    Kept json digest ((machine json digest config).run ⟨dataset.dir, none⟩ inputs).state
      (indexing ((machine json digest config).run ⟨dataset.dir, none⟩ inputs).history) :=
  (machine json digest config).run_invariant (fun w => Kept json digest w.state (indexing w.history))
    (.missing dataset.unindexed rfl) (fun w i h => by rw [indexing_next]; exact h.step i) inputs

/-- The process serves the files by the hashes that they had when they were indexed. -/
theorem Kept.serves {node : Node} {o : Option NodeEvent} {hashes : Table Nat String} (h : Kept json digest node o)
    (hserves : node.datasetHashes = some hashes) :
    ∃ e, o = some e ∧ Indexes digest e.pre.dir (listedBy e) hashes := by
  cases h with
  | missing index stopped =>
    rw [stopped] at hserves
    cases hserves
  | indexed e hashes₀ order bytes indexes index written serves =>
    refine ⟨e, rfl, indexes.files, fun hash path => ?_⟩
    rw [(serves hashes hserves).2 hash]
    exact indexes.lookup hash path

/-- What a node answers is about the files as they were indexed: a record has the hash of each of them once, and what is
pulled is the file that had the hash. -/
structure Answers (json : IndexJson) (digest : List UInt8 → List UInt8) (config : Config) (w : NodeWorld) : Prop where
  record : ∀ order hashes, w.state.record config config.datasetName order = some (.success hashes) →
    ∃ e, indexing w.history = some e ∧ hashes.Nodup ∧ (∀ hash ∈ hashes, ∃ path, HashedAt digest e hash path) ∧
      ∀ path ∈ listedBy e, ∃ hash ∈ hashes, ∀ path', HashedAt digest e hash path' ↔ path' = path
  pull : ∀ hash io length bytes, w.state.pull config config.datasetName hash io = some (length, bytes) →
    ∃ e path, indexing w.history = some e ∧ HashedAt digest e hash path ∧
      ∀ content, w.state.dir.lookup path = some (.file content) → length = content.length ∧ bytes <+: content
  broken : ∀ bytes, w.state.dir.lookup indexName = some (.file bytes) → json.fromReader bytes = none →
    w.state.datasetHashes = none

theorem Indexes.record {dir : Directory} {names : List String} {hashes : Table Nat String}
    (h : Indexes digest dir names hashes) (order : Nat → Nat) :
    ((Table.listing order hashes).map Sigma.fst).Nodup ∧
      (∀ hash ∈ (Table.listing order hashes).map Sigma.fst, ∃ path, Hashed digest dir names hash path) ∧
      ∀ path ∈ names, ∃ hash ∈ (Table.listing order hashes).map Sigma.fst,
        ∀ path', Hashed digest dir names hash path' ↔ path' = path := by
  refine ⟨Table.nodupKeys_listing order hashes, fun hash hmem => ?_, fun path hpath => ?_⟩
  · obtain ⟨path, hlookup⟩ := Table.exists_lookup (Table.mem_keys_listing.mp hmem)
    exact ⟨path, (h.lookup hash path).mp hlookup⟩
  · obtain ⟨content, hfile⟩ := h.files path hpath
    have hlookup := (h.lookup _ path).mpr ⟨hpath, content, hfile, rfl⟩
    refine ⟨getFileHash digest content, Table.mem_keys_listing.mpr (Table.mem_of_lookup hlookup), fun path' => ?_⟩
    rw [← h.lookup, hlookup]
    exact ⟨fun heq => (Option.some.inj heq).symm, fun heq => congrArg some heq.symm⟩

theorem Node.pull_some {node : Node} {hash : Nat} {io : Node.PullIo} {length : Nat} {bytes : List UInt8}
    (h : node.pull config config.datasetName hash io = some (length, bytes)) : ∃ hashes path,
      node.datasetHashes = some hashes ∧ hashes.lookup hash = some path ∧
      ∀ content, node.dir.lookup path = some (.file content) →
        length = content.length ∧ bytes = content.take (io.copied.getD content.length) := by
  obtain ⟨hashes, hhashes, h⟩ := Option.bind_eq_some_iff.mp h
  rw [if_neg fun hne => hne rfl] at h
  obtain ⟨path, hpath, h⟩ := Option.bind_eq_some_iff.mp h
  obtain ⟨entry, hentry, h⟩ := Option.bind_eq_some_iff.mp h
  split_ifs at h
  refine ⟨hashes, path, hhashes, hpath, fun content hfile => ?_⟩
  obtain rfl : entry = .file content := Option.some.inj (hentry.symm.trans hfile)
  obtain ⟨rfl, rfl⟩ := Prod.mk.inj (Option.some.inj h)
  exact ⟨rfl, rfl⟩

theorem Kept.answers {w : NodeWorld} (h : Kept json digest w.state (indexing w.history)) :
    Answers json digest config w := by
  refine ⟨fun order hashes hrecord => ?_, fun hash io length bytes hpull => ?_, fun bytes hfile hread => ?_⟩
  · obtain ⟨table, htable, heq⟩ := Option.map_eq_some_iff.mp hrecord
    rw [if_pos rfl] at heq
    obtain rfl := RecordResponse.success.inj heq
    obtain ⟨e, he, hindexes⟩ := h.serves htable
    exact ⟨e, he, hindexes.record order⟩
  · obtain ⟨table, path, htable, hlookup, hcontent⟩ := Node.pull_some hpull
    obtain ⟨e, he, hindexes⟩ := h.serves htable
    refine ⟨e, path, he, (hindexes.lookup hash path).mp hlookup, fun content hfile => ?_⟩
    obtain ⟨hlength, rfl⟩ := hcontent content hfile
    exact ⟨hlength, List.take_prefix _ _⟩
  · by_contra hrunning
    obtain ⟨hashes', hhashes'⟩ := Option.ne_none_iff_exists'.mp hrunning
    generalize indexing w.history = o at h
    cases h with
    | missing index stopped => exact hrunning stopped
    | indexed e hashes order bytes' indexes index written serves =>
      obtain rfl : bytes' = bytes := Entry.file.inj (Option.some.inj (index.symm.trans hfile))
      rw [(serves hashes' hhashes').1, indexes.fromReader order] at hread
      cases hread

end Served

end Hypha.Data
