import Hypha.Lib.Path
import Hypha.Worker.Fetch

/-!
# The work directory (`bridge.rs`)

`safe_join` turns the relative paths of the handlers into paths below the work directory. What a handler does to the file
system is the list of the files that it creates; how the steps for a file turn out is an `ItemIo`.

* `safeJoin`, `safeJoin_components` : the components of what it returns;
* `fetchOther`, `receiveSubscribe` : the handlers that create files under names that others choose;
* `confines` : all of them are under the work directory.
-/

namespace Hypha.Worker

open List Hypha.Lib Hypha.Lib.Path

/-- `bridge::Error`, as far as these handlers return it. -/
inductive BridgeError where
  | invalidStatus (text : String)
  | io (error : String)
  | connector (error : String)
  deriving DecidableEq, Repr

/-- Validate and join relative path it under work_dir. -/
def safeJoin (workDir rel : Path) : Except BridgeError Path :=
  if isAbsolute rel then .error (.invalidStatus "absolute paths are not allowed")
  else if (components rel).any (· == .parentDir) then .error (.invalidStatus "path traversal is not allowed")
  else .ok (join workDir rel)

/-- The work directory that the executors hand to the bridge. -/
def executorWorkDir (workDirBase : Path) (id : String) : Path := join workDirBase (utf8Bytes s!"hypha-{id}")

/-- `derive_name_and_reader`, the name. -/
def deriveName (name : Path) (idx : Nat) : Path :=
  if name.isEmpty then utf8Bytes s!"part-{idx}.bin" else name

/-- How the steps for one file turn out; `copy` gives the size. -/
structure ItemIo where
  createParent : Except String Unit := .ok ()
  create : Except String Unit := .ok ()
  copy : Except String Nat
  sync : Except String Unit := .ok ()
  setPermissions : Except String Unit := .ok ()

/-- `ReadItem`: the name in its metadata, and how its file turns out. -/
structure ReadItem where
  name : Path
  io : ItemIo

/-- The parent directory, then the file. -/
def ItemIo.opened (io : ItemIo) : Except String Unit := io.createParent.bind fun _ => io.create

/-! ## Fetching -/

/-- `FileResponse`, with the path in bytes. -/
structure Fetched where
  path : Path
  size : Nat
  deriving DecidableEq, Repr

/-- What follows the creation in `fetch_resource`. -/
def ItemIo.stored (io : ItemIo) : Except String Nat :=
  io.copy.bind fun size => io.sync.bind fun _ => io.setPermissions.map fun _ => size

/-- One item, with the files that are created for it. -/
def fetchItem (workDir : Path) (idx : Nat) (item : ReadItem) : List Path × Except BridgeError Fetched :=
  let fileName := deriveName item.name idx
  let rel := utf8Bytes fetchDir ++ sep :: fileName
  match safeJoin workDir rel with
  | .error e => ([], .error e)
  | .ok abs =>
    match item.io.opened with
    | .error e => ([], .error (.io e))
    | .ok () => ([abs], (item.io.stored.mapError .io).map fun size => ⟨rel, size⟩)

def fetchItems (workDir : Path) (idx : Nat) :
    List (Except String ReadItem) → List Path × Except BridgeError (List Fetched)
  | [] => ([], .ok [])
  | .error e :: _ => ([], .error (.io e))
  | .ok item :: items =>
    match fetchItem workDir idx item with
    | (written, .error e) => (written, .error e)
    | (written, .ok response) =>
      let rest := fetchItems workDir (idx + 1) items
      (written ++ rest.1, rest.2.map (response :: ·))

/-- How one attempt turns out: the directory, and the items of `connector.fetch`. -/
structure FetchAttempt where
  createDir : Except String Unit := .ok ()
  fetch : Except String (List (Except String ReadItem))

/-- One attempt, for a reference that is not to the scheduler. -/
def fetchAttempt (workDir : Path) (attempt : FetchAttempt) : List Path × Except BridgeError (List Fetched) :=
  match safeJoin workDir (utf8Bytes fetchDir) with
  | .error e => ([], .error e)
  | .ok _ =>
    match attempt.createDir with
    | .error e => ([], .error (.io e))
    | .ok () =>
      match attempt.fetch with
      | .error e => ([], .error (.connector e))
      | .ok items => fetchItems workDir 0 items

/-- `Retry::spawn`: attempts until one succeeds, or there are no more. -/
def fetchOther (workDir : Path) : FetchAttempt → List FetchAttempt → List Path × Except BridgeError (List Fetched)
  | attempt, [] => fetchAttempt workDir attempt
  | attempt, next :: attempts =>
    match fetchAttempt workDir attempt with
    | (written, .ok responses) => (written, .ok responses)
    | (written, .error _) =>
      let rest := fetchOther workDir next attempts
      (written ++ rest.1, rest.2)

/-! ## Receiving -/

structure UpdatePointer where
  path : Path
  size : Nat
  fromPeer : Path
  deriving DecidableEq, Repr

/-- What the loop waits for: the end (cancelled, idle for too long, or no more items), an error or an item. -/
inductive Incoming where
  | stopped
  | failed (error : String)
  | item (item : ReadItem)

/-- One item; where it fails the loop goes on. -/
def receiveItem (workDir dirRel : Path) (item : ReadItem) : List Path × Option UpdatePointer :=
  let fileName := deriveName item.name 0
  let fileRel := dirRel ++ sep :: fileName
  match safeJoin workDir fileRel with
  | .error _ => ([], none)
  | .ok fileAbs =>
    match item.io.opened with
    | .error _ => ([], none)
    | .ok () =>
      match item.io.copy with
      | .error _ => ([fileAbs], none)
      | .ok size => ([fileAbs], some ⟨fileRel, size, fileName.takeWhile (· != dot)⟩)

def receiveItems (workDir dirRel : Path) : List Incoming → List Path × Option UpdatePointer
  | [] | .stopped :: _ => ([], none)
  | .failed _ :: incoming => receiveItems workDir dirRel incoming
  | .item item :: incoming =>
    match receiveItem workDir dirRel item with
    | (written, some pointer) => (written, some pointer)
    | (written, none) =>
      let rest := receiveItems workDir dirRel incoming
      (written ++ rest.1, rest.2)

/-- `ReceiveSubscribeRequest`, with the time that is left until its timeout, and how its first steps turn out. -/
structure ReceiveRequest where
  path : Option Path
  idleTimeout : Option Nat := none
  createDir : Except String Unit := .ok ()
  receive : Except String (List Incoming)

/-- Without a pointer the response is `NO_CONTENT`. -/
def receiveSubscribe (workDir : Path) (req : ReceiveRequest) : List Path × Except BridgeError (Option UpdatePointer) :=
  let dirRel := req.path.getD (utf8Bytes "incoming")
  match safeJoin workDir dirRel with
  | .error e => ([], .error e)
  | .ok _ =>
    match req.createDir with
    | .error e => ([], .error (.io e))
    | .ok () =>
      if req.idleTimeout = some 0 then ([], .ok none)
      else
        match req.receive with
        | .error _ => ([], .ok none)
        | .ok incoming =>
          let received := receiveItems workDir dirRel incoming
          (received.1, .ok received.2)

/-! ## Joined paths -/

theorem safeJoin_eq_ok {workDir rel abs : Path} :
    safeJoin workDir rel = .ok abs ↔
      isAbsolute rel = false ∧ Component.parentDir ∉ components rel ∧ join workDir rel = abs := by
  have hany : (components rel).any (· == .parentDir) = true ↔ Component.parentDir ∈ components rel := by
    rw [any_beq', contains_iff_mem]
  unfold safeJoin
  split_ifs with habsolute hparent
  · exact iff_of_false nofun fun h => Bool.false_ne_true (h.1.symm.trans habsolute)
  · exact iff_of_false nofun fun h => h.2.1 (hany.mp hparent)
  · rw [Except.ok.injEq, ← hany]
    exact ⟨fun h => ⟨Bool.eq_false_iff.mpr habsolute, hparent, h⟩, fun h => h.2.2⟩

section Joined
variable {workDir rel abs : Path}

/-- The components of what `safe_join` returns. -/
theorem safeJoin_components (hdir : workDir ≠ []) (h : safeJoin workDir rel = .ok abs) :
    components abs = components workDir ++ (components rel).filter Component.isNormal := by
  obtain ⟨habsolute, hparent, rfl⟩ := safeJoin_eq_ok.mp h
  rw [components_join hdir habsolute, filter_components hparent]

theorem under_of_safeJoin (hdir : workDir ≠ []) (h : safeJoin workDir rel = .ok abs) : Under workDir abs := by
  obtain ⟨habsolute, hparent, rfl⟩ := safeJoin_eq_ok.mp h
  exact under_join hdir habsolute hparent

end Joined

/-- What `safe_join` returns for one of its relative paths. -/
def Joined (workDir path : Path) : Prop := ∃ rel, safeJoin workDir rel = .ok path

section Handlers
variable (workDir : Path)

theorem joined_of_fetchItem (idx : Nat) (item : ReadItem) :
    ∀ path ∈ (fetchItem workDir idx item).1, Joined workDir path := by
  intro path h
  unfold fetchItem at h
  dsimp only at h
  split at h
  · cases h
  · rename_i abs habs
    split at h
    · cases h
    · rw [mem_singleton.mp h]
      exact ⟨_, habs⟩

theorem joined_of_fetchItems (items : List (Except String ReadItem)) :
    ∀ idx, ∀ path ∈ (fetchItems workDir idx items).1, Joined workDir path := by
  induction items with
  | nil => nofun
  | cons item items ih =>
    intro idx path h
    cases item with
    | error e => cases h
    | ok item =>
      have hitem := joined_of_fetchItem workDir idx item
      unfold fetchItems at h
      rcases hfetch : fetchItem workDir idx item with ⟨written, _ | response⟩
      · rw [hfetch] at h hitem
        exact hitem path h
      · rw [hfetch] at h hitem
        exact (mem_append.mp h).elim (hitem path) (ih _ path)

theorem joined_of_fetchAttempt (attempt : FetchAttempt) :
    ∀ path ∈ (fetchAttempt workDir attempt).1, Joined workDir path := by
  intro path h
  unfold fetchAttempt at h
  split at h
  · cases h
  split at h
  · cases h
  split at h
  · cases h
  · exact joined_of_fetchItems workDir _ 0 path h

theorem joined_of_fetchOther (attempts : List FetchAttempt) :
    ∀ attempt, ∀ path ∈ (fetchOther workDir attempt attempts).1, Joined workDir path := by
  induction attempts with
  | nil => exact joined_of_fetchAttempt workDir
  | cons next attempts ih =>
    intro attempt path h
    have hattempt := joined_of_fetchAttempt workDir attempt
    unfold fetchOther at h
    rcases hfetch : fetchAttempt workDir attempt with ⟨written, _ | responses⟩
    · rw [hfetch] at h hattempt
      exact (mem_append.mp h).elim (hattempt path) (ih next path)
    · rw [hfetch] at h hattempt
      exact hattempt path h

theorem joined_of_receiveItem (dirRel : Path) (item : ReadItem) :
    ∀ path ∈ (receiveItem workDir dirRel item).1, Joined workDir path := by
  intro path h
  unfold receiveItem at h
  dsimp only at h
  split at h
  · cases h
  · rename_i abs habs
    split at h
    · cases h
    · have hpath : path ∈ [abs] := by split at h <;> exact h
      rw [mem_singleton.mp hpath]
      exact ⟨_, habs⟩

theorem joined_of_receiveItems (dirRel : Path) (incoming : List Incoming) :
    ∀ path ∈ (receiveItems workDir dirRel incoming).1, Joined workDir path := by
  induction incoming with
  | nil => nofun
  | cons arrival incoming ih =>
    intro path h
    cases arrival with
    | stopped => cases h
    | failed e => exact ih path h
    | item item =>
      have hitem := joined_of_receiveItem workDir dirRel item
      unfold receiveItems at h
      rcases hreceive : receiveItem workDir dirRel item with ⟨written, _ | pointer⟩
      · rw [hreceive] at h hitem
        exact (mem_append.mp h).elim (hitem path) (ih path)
      · rw [hreceive] at h hitem
        exact hitem path h

theorem joined_of_receiveSubscribe (req : ReceiveRequest) :
    ∀ path ∈ (receiveSubscribe workDir req).1, Joined workDir path := by
  intro path h
  unfold receiveSubscribe at h
  dsimp only at h
  split at h
  · cases h
  split at h
  · cases h
  split_ifs at h
  · cases h
  split at h
  · cases h
  · exact joined_of_receiveItems workDir _ _ path h

end Handlers

/-! ## Slices -/

theorem utf8Bytes_append (s t : String) : utf8Bytes (s ++ t) = utf8Bytes s ++ utf8Bytes t := by
  unfold utf8Bytes
  rw [String.toList_append, flatMap_append]

/-- The digits come after the slash. -/
theorem sep_lt_of_mem_digits {n : Nat} {b : UInt8} (h : b ∈ utf8Bytes (toString n)) : sep.toNat < b.toNat := by
  obtain ⟨c, hc, hb⟩ := mem_flatMap.mp h
  have hdigits : c ∈ Nat.toDigits 10 n := Nat.toList_repr ▸ hc
  have hdigit := Nat.isDigit_of_mem_toDigits (by decide) (by decide) hdigits
  unfold Char.isDigit at hdigit
  simp only [ge_iff_le, Bool.and_eq_true, decide_eq_true_eq, UInt32.le_iff_toNat_le] at hdigit
  have hsize : c.utf8Size = 1 := by
    rw [Char.utf8Size_eq_one_iff, UInt32.le_iff_toNat_le]
    exact hdigit.2.trans (by decide)
  rw [String.utf8EncodeChar_eq_singleton hsize, mem_singleton] at hb
  rw [hb, UInt32.toNat_toUInt8]
  have hlow : 48 ≤ c.val.toNat := hdigit.1
  have hhigh : c.val.toNat ≤ 57 := hdigit.2
  have hsep : sep.toNat = 47 := rfl
  omega

/-- `safe_join` accepts the path of every slice. -/
theorem joined_slicePath (workDir : Path) (hash : Nat) :
    ∃ abs, safeJoin workDir (utf8Bytes (slicePath hash)) = .ok abs := by
  have hpath : utf8Bytes (slicePath hash) = utf8Bytes fetchDir ++ sep :: utf8Bytes (toString hash) := by
    unfold slicePath
    rw [utf8Bytes_append, utf8Bytes_append, append_assoc]
    rfl
  have hpieces : pieces (utf8Bytes (toString hash)) = [utf8Bytes (toString hash)] := by
    refine splitOnP_eq_singleton fun b hb => beq_eq_false_iff_ne.mpr ?_
    rintro rfl
    exact lt_irrefl _ (sep_lt_of_mem_digits hb)
  refine ⟨_, safeJoin_eq_ok.mpr ⟨?_, ?_, rfl⟩⟩
  · rw [hpath]
    rfl
  · rw [hpath, components_append_sep (by decide), mem_append]
    rintro (hdir | hdigits)
    · revert hdir
      decide
    · obtain ⟨piece, hpiece, hparent⟩ := mem_filterMap.mp hdigits
      rw [hpieces, mem_singleton] at hpiece
      have hdots : utf8Bytes (toString hash) = [dot, dot] := hpiece ▸ eq_of_parsePiece hparent
      have hdot : dot ∈ utf8Bytes (toString hash) := hdots ▸ mem_cons_self
      exact absurd (sep_lt_of_mem_digits hdot) (by decide)

/-! ## Confinement -/

/-- Nothing is created outside of the work directory. -/
structure Confines (workDir : Path) : Prop where
  /-- What `safe_join` returns is the work directory with the names of the relative path, none of them `..` or a root. -/
  joins : ∀ rel abs, safeJoin workDir rel = .ok abs →
    components abs = components workDir ++ (components rel).filter Component.isNormal ∧
      ∀ c ∈ (components abs).drop (components workDir).length, c ≠ .parentDir ∧ c ≠ .rootDir
  slices : ∀ hash, ∃ abs, safeJoin workDir (utf8Bytes (slicePath hash)) = .ok abs ∧ Under workDir abs
  fetches : ∀ attempt attempts, ∀ path ∈ (fetchOther workDir attempt attempts).1, Under workDir path
  receives : ∀ req, ∀ path ∈ (receiveSubscribe workDir req).1, Under workDir path

/-- The work directory of an executor is not the empty path. -/
theorem executorWorkDir_ne_nil (workDirBase : Path) (id : String) : executorWorkDir workDirBase id ≠ [] := by
  have hname : utf8Bytes s!"hypha-{id}" ≠ [] := by
    rw [show s!"hypha-{id}" = "hypha-" ++ id from rfl, utf8Bytes_append]
    exact append_ne_nil_of_left_ne_nil (by decide) _
  unfold executorWorkDir join
  split_ifs
  · exact hname
  · exact append_ne_nil_of_right_ne_nil _ hname
  · exact append_ne_nil_of_right_ne_nil _ (cons_ne_nil _ _)

/-- **Confinement**: the empty path is no directory, and for every other nothing is created outside of it. -/
theorem confines (workDir : Path) (hdir : workDir ≠ []) : Confines workDir where
  joins rel abs h := by
    have hcomponents := safeJoin_components hdir h
    refine ⟨hcomponents, fun c hc => ?_⟩
    rw [hcomponents, drop_left] at hc
    have hnormal := (mem_filter.mp hc).2
    constructor <;>
    · rintro rfl
      cases hnormal
  slices hash := by
    obtain ⟨abs, habs⟩ := joined_slicePath workDir hash
    exact ⟨abs, habs, under_of_safeJoin hdir habs⟩
  fetches attempt attempts path hpath := by
    obtain ⟨rel, hrel⟩ := joined_of_fetchOther workDir attempts attempt path hpath
    exact under_of_safeJoin hdir hrel
  receives req path hpath := by
    obtain ⟨rel, hrel⟩ := joined_of_receiveSubscribe workDir req path hpath
    exact under_of_safeJoin hdir hrel

/-- A peer whose item is called `./a//b/` writes to `a/b` under the directory that the job asked for; one whose item is
called `/etc/passwd` does so under that directory too, and one whose item is called `..` writes nothing. -/
theorem confines_threeItems :
    Confines (executorWorkDir (utf8Bytes "/tmp") "1") ∧
      (receiveSubscribe (executorWorkDir (utf8Bytes "/tmp") "1") {
        path := none
        receive := .ok [.item ⟨utf8Bytes "..", { copy := .ok 1 }⟩,
          .item ⟨utf8Bytes "/etc/passwd", { copy := .error "broken pipe" }⟩,
          .item ⟨utf8Bytes "./a//b/", { copy := .ok 3 }⟩] }).1 =
        [utf8Bytes "/tmp/hypha-1/incoming//etc/passwd", utf8Bytes "/tmp/hypha-1/incoming/./a//b/"] ∧
      components (utf8Bytes "/tmp/hypha-1/incoming/./a//b/") =
        components (executorWorkDir (utf8Bytes "/tmp") "1") ++
          [.normal (utf8Bytes "incoming"), .normal (utf8Bytes "a"), .normal (utf8Bytes "b")] :=
  ⟨confines _ (executorWorkDir_ne_nil _ _), by decide +kernel, by decide +kernel⟩

end Hypha.Worker
