import Mathlib.Algebra.Field.Rat
import Mathlib.Data.List.Infix
import Hypha.Lib.Machine
import Hypha.Lib.Table
import Hypha.Messages

/-!
# The training loop (`training.py`, `utils.py`)

A trainer asks for an action, performs it and reports what came of it. It has a live model, which local batches change,
and a file with the global weights, from which the live model is only ever synchronized. What is sent to the parameter
server is the weighted difference of the two.

* `extractGradients`, `mergeModels`, `loadStateDict` : the functions on state dictionaries;
* `step` : one turn of the loop, with what the bridge and the libraries do meanwhile;
* `globalWeights` : the weights after the updates that were applied and the models that were received;
* `trainer_synchronized` : along every run the file has the global weights, and what is sent is computed from them;
* `trainer_reports` : the round and the losses that are reported with an update.
-/

namespace Hypha.Executor.Training

open Hypha.Lib Hypha.Action

variable {T D PeerId : Type}

/-- What is used of PyTorch, `cast` being `to(dtype)`; `none` is an exception. -/
structure Torch (T D : Type) where
  shape : T → List Nat
  dtype : T → D
  isFloatingPoint : T → Bool
  cast : T → D → T
  bfloat16 : T → T
  /-- `a + b`. -/
  add : T → T → Option T
  /-- `a -= b` and `a *= weight`, which leave `a` with its shape and type. -/
  isub : T → T → Option T
  imul : T → Weight → Option T

/-- What PyTorch says about it. -/
structure Torch.Documented (torch : Torch T D) : Prop where
  shape_cast : ∀ t d, torch.shape (torch.cast t d) = torch.shape t
  dtype_cast : ∀ t d, torch.dtype (torch.cast t d) = d
  cast_dtype : ∀ t, torch.cast t (torch.dtype t) = t
  isub : ∀ a b c, torch.isub a b = some c → torch.shape c = torch.shape a ∧ torch.dtype c = torch.dtype a
  imul : ∀ a w c, torch.imul a w = some c → torch.shape c = torch.shape a ∧ torch.dtype c = torch.dtype a

abbrev StateDict (T : Type) := Table String T

/-- A file, which `safe_open` opens or refuses. -/
inductive Content (T : Type) where
  | tensors (tensors : StateDict T)
  | refused

/-! ## State dictionaries -/

section Functions
variable (torch : Torch T D)

/-- What becomes of a tensor of the live model and one of the same name in the file. -/
def difference (weight : Weight) (name : String) (x p : T) : Option T := do
  let x ← torch.isub x (torch.cast p (torch.dtype x))
  if weight.toRat ≠ 1 ∧ ¬ "num_batches_tracked".toList <:+: name.toList then torch.imul x weight else some x

/-- The loop of `extract_gradients`, as far as it works in place; `KeyError` where a name of the file is missing. -/
def differences (stateDict previous : StateDict T) (weight : Weight) : Option (StateDict T) :=
  if ∀ name ∈ previous.keys, name ∈ stateDict then
    stateDict.traverse fun name x => ((previous.lookup name).map (difference torch weight name x)).getD (some x)
  else none

/-- Downcast for compressed gradients. -/
def downcast (x : T) : T := if torch.isFloatingPoint x then torch.bfloat16 x else x

def extractGradients (stateDict previous : StateDict T) (weight : Weight) : Option (StateDict T) :=
  (differences torch stateDict previous weight).map
    (Table.mapValues fun name x => if name ∈ previous then downcast torch x else x)

/-- `old_model` and `weight_path`, both opened. -/
def mergeModels (oldModel update : StateDict T) : Option (StateDict T) :=
  oldModel.traverse fun name modelWeight =>
    (update.lookup name).bind fun g => torch.add modelWeight (torch.cast g (torch.dtype modelWeight))

/-- `load_state_dict(strict=False)`: what has a name and a shape of the model is copied to it. -/
def loadStateDict (model stateDict : StateDict T) : StateDict T :=
  model.mapValues fun name x =>
    match stateDict.lookup name with
    | some y => if torch.shape y = torch.shape x then torch.cast y (torch.dtype x) else x
    | none => x

/-- It raises if anything has another shape, after the rest is copied. -/
def fits (model stateDict : StateDict T) : Bool :=
  model.entries.all fun e => (stateDict.lookup e.1).all fun y => torch.shape y = torch.shape e.2

/-- `load_model` is strict. -/
def strict (model stateDict : StateDict T) : Bool :=
  decide ((∀ name ∈ model.keys, name ∈ stateDict) ∧ ∀ name ∈ stateDict.keys, name ∈ model)

end Functions

/-! ## The loop -/

def CURRENT_MODEL_NAME : String := "global_weights.pt"

def localGradientsName (epochCounter : Nat) : String := toString epochCounter ++ "_local_gradients.pt"

inductive Phase where
  | running
  | finished
  /-- An exception has left the loop. -/
  | raised
  deriving DecidableEq, Repr

/-- The variables of the loop and the files of the work directory. -/
structure Trainer (T : Type) where
  model : StateDict T
  files : String → Option (Content T)
  epochCounter : Nat := 1
  lossList : List ℚ := []
  currentStatus : TrainStatus := .joined
  phase : Phase := .running

/-- What does not change; `cpu` tells whether `.cpu()` of the model's tensors returns these tensors themselves. -/
structure Setting where
  batchSize : Nat
  cpu : Bool

/-- What the bridge returns for what it has received. -/
structure Pointer where
  path : Option String
  /-- The path in a dictionary of parameters that is not empty. -/
  parameters : Option (Option String) := none

def Pointer.relPath (latest : Pointer) : Option String :=
  match latest.parameters with
  | some path => path
  | none => latest.path

/-- What a call of `session.receive` comes to: what is written to the work directory, and the response; then the text of
the exception, if one is raised over the file. -/
structure Receipt (T : Type) where
  arrived : List (String × Content T)
  response : Except String (Option Pointer)
  exc : String := ""

/-- An action, with what the bridge, the data loader and the optimizer do while it is performed. -/
inductive Input (T PeerId : Type) where
  | terminate
  | idle
  | waitForModel
  /-- The model after each batch that there was, and the loss. -/
  | executeBatch (localBatches : Nat) (trained : List (StateDict T × ℚ))
  | sendUpdate (target : Option (Reference PeerId)) (weight : Weight) (sent : Except String Unit)
  | applyUpdate (source : Option (Reference PeerId)) (receipt : Receipt T)
  | pushToHub (repository token : Option String) (pushed : Except String Unit)
  | sendModel (target : Option (Reference PeerId)) (sent : Except String Unit)
  | receiveModel (source : Option (Reference PeerId)) (receipt : Receipt T)
  /-- Another kind of action. -/
  | unhandled

/-- How the weights change that all workers should have. -/
inductive Sync (T : Type) where
  | applied (update : StateDict T)
  | received (model : StateDict T)

/-- What a turn of the loop does outside: what it sends, and from what it synchronizes. -/
inductive Outcome (T : Type) where
  | nothing
  | sentUpdate (gradients : StateDict T)
  | sentModel (file : Option (Content T))
  | synced (sync : Sync T)

namespace Trainer
variable (t : Trainer T)

def reports (status : TrainStatus) : Trainer T := { t with currentStatus := status }

def fails (error : TrainError) : Trainer T := t.reports (.error error)

def raises : Trainer T := { t with phase := .raised }

/-- `safe_open`. -/
def opened (path : String) : Option (StateDict T) :=
  match t.files path with
  | some (.tensors m) => some m
  | _ => none

def write (path : String) (content : Content T) : Trainer T := { t with files := Function.update t.files path (some content) }

/-- `os.remove`. -/
def remove (path : String) : Trainer T := { t with files := Function.update t.files path none }

/-- `float(np.mean(loss_list))`. -/
def lastMetrics : MetricMap :=
  if t.lossList.isEmpty then [] else [("loss", t.lossList.foldl (· + ·) 0 / t.lossList.length)]

/-- What the bridge writes. -/
def receives (receipt : Receipt T) : Trainer T := receipt.arrived.foldl (fun t file => t.write file.1 file.2) t

end Trainer

section Step
variable (torch : Torch T D) (cfg : Setting)

def executeBatch (t : Trainer T) (localBatches : Nat) (trained : List (StateDict T × ℚ)) : Trainer T :=
  if trained.length = localBatches then
    { t with
      model := (trained.getLast?.map (·.1)).getD t.model
      lossList := t.lossList ++ trained.map (·.2)
      currentStatus := .batchCompleted cfg.batchSize localBatches }
  else t.raises

def sendUpdate (t : Trainer T) (target : Option (Reference PeerId)) (weight : Weight) (sent : Except String Unit) :
    Trainer T × Outcome T :=
  match target with
  | none => (t.fails (.other "SendUpdate missing target reference"), .nothing)
  | some _ =>
    match t.opened CURRENT_MODEL_NAME with
    | none => (t.raises, .nothing)
    | some previous =>
      match differences torch t.model previous weight, extractGradients torch t.model previous weight with
      | some changed, some gradients =>
        let t := ({ t with model := if cfg.cpu then changed else t.model } : Trainer T).write
          (localGradientsName t.epochCounter) (.tensors gradients)
        match sent with
        | .ok () =>
          -- the bridge removes the file
          let t := t.remove (localGradientsName t.epochCounter)
          (({ t with lossList := [] } : Trainer T).reports (.sentUpdate t.epochCounter t.lastMetrics),
            .sentUpdate gradients)
        | .error exc => (t.fails (.connection exc), .nothing)
      | _, _ => (t.raises, .nothing)

/-- From `merge_models` on. -/
def mergeUpdate (t : Trainer T) (path exc : String) : Trainer T × Outcome T :=
  match t.opened path, t.opened CURRENT_MODEL_NAME with
  | some update, some previous =>
    match mergeModels torch previous update with
    | none => (t.fails (.connection exc), .nothing)
    | some merged =>
      let loaded := { t with model := loadStateDict torch t.model merged }
      if fits torch t.model merged then
        let saved := loaded.write CURRENT_MODEL_NAME (.tensors loaded.model)
        let t := saved.remove path
        ({ t with epochCounter := t.epochCounter + 1, currentStatus := .appliedUpdate }, .synced (.applied update))
      else (loaded.fails (.connection exc), .nothing)
  | _, _ => (t.fails (.connection exc), .nothing)

def applyUpdate (t : Trainer T) (source : Option (Reference PeerId)) (receipt : Receipt T) : Trainer T × Outcome T :=
  match source with
  | none => (t.fails (.other "ApplyUpdate missing source reference"), .nothing)
  | some _ =>
    let t := t.receives receipt
    match receipt.response with
    | .error exc => (t.fails (.connection exc), .nothing)
    | .ok none => (t.fails (.connection "No updates received before timeout."), .nothing)
    | .ok (some latest) =>
      match latest.relPath with
      | none => ({ t with epochCounter := t.epochCounter + 1, currentStatus := .appliedUpdate }, .nothing)
      | some path => mergeUpdate torch t path receipt.exc

def pushToHub (t : Trainer T) (repository token : Option String) (pushed : Except String Unit) : Trainer T :=
  match repository, token, pushed with
  | none, _, _ | _, none, _ => t.fails (.other "PushToHub action missing repository or token")
  | some _, some _, .ok () => t.reports .pushedToHub
  | some _, some _, .error exc => t.fails (.other exc)

def sendModel (t : Trainer T) (target : Option (Reference PeerId)) (sent : Except String Unit) :
    Trainer T × Outcome T :=
  match target, sent with
  | none, _ => (t.fails (.other "SendModel missing target reference"), .nothing)
  | some _, .ok () => (t.reports .sentModel, .sentModel (t.files CURRENT_MODEL_NAME))
  | some _, .error exc => (t.fails (.connection exc), .nothing)

/-- From `load_model` on. -/
def loadModel (t : Trainer T) (path exc : String) : Trainer T × Outcome T :=
  match t.opened path with
  | none => (t.fails (.connection exc), .nothing)
  | some model =>
    let loaded := { t with model := loadStateDict torch t.model model }
    if fits torch t.model model && strict t.model model then
      let copied := (loaded.remove CURRENT_MODEL_NAME).write CURRENT_MODEL_NAME (.tensors model)
      ((copied.remove path).reports .appliedUpdate, .synced (.received model))
    else (loaded.fails (.connection exc), .nothing)

def receiveModel (t : Trainer T) (source : Option (Reference PeerId)) (receipt : Receipt T) : Trainer T × Outcome T :=
  match source with
  | none => (t.fails (.other "ReceiveModel missing source reference"), .nothing)
  | some _ =>
    let t := t.receives receipt
    match receipt.response with
    | .error exc => (t.fails (.connection exc), .nothing)
    | .ok none => (t.fails (.connection "No model received before timeout."), .nothing)
    | .ok (some incomming) =>
      match incomming.path with
      | none => (t.reports .appliedUpdate, .nothing)
      | some path => loadModel torch t path receipt.exc

def step (t : Trainer T) (input : Input T PeerId) : Trainer T × Outcome T :=
  if t.phase ≠ .running then (t, .nothing)
  else
    match input with
    | .terminate => ({ t with phase := .finished }, .nothing)
    | .idle => (t.reports .idle, .nothing)
    | .waitForModel => (t.reports .waitedForModel, .nothing)
    | .executeBatch localBatches trained => (executeBatch cfg t localBatches trained, .nothing)
    | .sendUpdate target weight sent => sendUpdate torch cfg t target weight sent
    | .applyUpdate source receipt => applyUpdate torch t source receipt
    | .pushToHub repository token pushed => (pushToHub t repository token pushed, .nothing)
    | .sendModel target sent => sendModel t target sent
    | .receiveModel source receipt => receiveModel torch t source receipt
    | .unhandled => (t.raises, .nothing)

/-- The loop. -/
def trainer (PeerId : Type) : Machine (Trainer T) (Input T PeerId) (Outcome T) where
  step := step torch cfg

end Step

/-! ## Shapes and types -/

section Kinds
variable (torch : Torch T D)

/-- The same names with the same shapes and types. -/
def Alike (a b : StateDict T) : Prop :=
  ∀ name, (a.lookup name).map (fun x => (torch.shape x, torch.dtype x)) =
    (b.lookup name).map fun x => (torch.shape x, torch.dtype x)

variable {torch} {a b c model stateDict : StateDict T} {name : String} {x y : T}

theorem Alike.refl (a : StateDict T) : Alike torch a a := fun _ => rfl

theorem Alike.trans (h : Alike torch a b) (h' : Alike torch b c) : Alike torch a c := fun name => (h name).trans (h' name)

theorem Alike.symm (h : Alike torch a b) : Alike torch b a := fun name => (h name).symm

theorem Alike.exists_lookup (h : Alike torch a b) (hx : a.lookup name = some x) :
    ∃ y, b.lookup name = some y ∧ torch.shape y = torch.shape x ∧ torch.dtype y = torch.dtype x := by
  have hname := h name
  rw [hx] at hname
  obtain ⟨y, hy, hkind⟩ := Option.map_eq_some_iff.mp hname.symm
  exact ⟨y, hy, congrArg Prod.fst hkind, congrArg Prod.snd hkind⟩

theorem fits_iff : fits torch model stateDict = true ↔
    ∀ name x y, model.lookup name = some x → stateDict.lookup name = some y → torch.shape y = torch.shape x := by
  unfold fits
  rw [List.all_eq_true]
  constructor
  · intro h name x y hx hy
    have hall := h ⟨name, x⟩ (AList.mem_lookup_iff.mp hx)
    dsimp only at hall
    rw [hy] at hall
    exact of_decide_eq_true hall
  · rintro h ⟨name, x⟩ hmem
    dsimp only
    cases hy : stateDict.lookup name with
    | none => rfl
    | some y => exact decide_eq_true (h name x y (AList.mem_lookup_iff.mpr hmem) hy)

/-- What is loaded for a name that both have, with the same shape. -/
theorem lookup_load (hx : model.lookup name = some x) (hy : stateDict.lookup name = some y)
    (hshape : torch.shape y = torch.shape x) :
    (loadStateDict torch model stateDict).lookup name = some (torch.cast y (torch.dtype x)) := by
  unfold loadStateDict
  rw [Table.lookup_mapValues, hx, hy]
  exact congrArg some (if_pos hshape)

/-- Loading keeps shapes and types. -/
theorem Torch.Documented.alike_load (hdoc : torch.Documented) (model stateDict : StateDict T) :
    Alike torch (loadStateDict torch model stateDict) model := by
  intro name
  unfold loadStateDict
  rw [Table.lookup_mapValues, Option.map_map]
  refine Option.map_congr fun x _ => ?_
  dsimp only [Function.comp_apply]
  split
  · split_ifs with hshape
    · rw [hdoc.shape_cast, hdoc.dtype_cast, hshape]
    · rfl
  · rfl

theorem Torch.Documented.difference (hdoc : torch.Documented) {weight : Weight} {p d : T}
    (h : difference torch weight name x p = some d) :
    torch.shape d = torch.shape x ∧ torch.dtype d = torch.dtype x := by
  obtain ⟨x', hx', h⟩ := Option.bind_eq_some_iff.mp h
  obtain ⟨hshape, hdtype⟩ := hdoc.isub x _ x' hx'
  split_ifs at h
  · obtain ⟨hshape', hdtype'⟩ := hdoc.imul x' weight d h
    exact ⟨hshape'.trans hshape, hdtype'.trans hdtype⟩
  · obtain rfl := Option.some.inj h
    exact ⟨hshape, hdtype⟩

theorem Torch.Documented.alike_differences (hdoc : torch.Documented) {previous changed : StateDict T} {weight : Weight}
    (h : differences torch model previous weight = some changed) : Alike torch changed model := by
  unfold differences at h
  split_ifs at h
  intro name
  rw [Table.lookup_of_traverse h]
  cases hx : model.lookup name with
  | none => rfl
  | some x =>
    have hsome := Table.isSome_of_traverse h hx
    obtain ⟨d, hd⟩ := Option.isSome_iff_exists.mp hsome
    rw [Option.bind_some, hd, Option.map_some, Option.map_some]
    cases hp : previous.lookup name with
    | none =>
      rw [hp] at hd
      obtain rfl := Option.some.inj hd
      rfl
    | some p =>
      rw [hp] at hd
      obtain ⟨hshape, hdtype⟩ := hdoc.difference hd
      rw [hshape, hdtype]

end Kinds

/-! ## What a turn does -/

/-- A batch keeps shapes and types, and the bridge writes to files of its own. -/
def Input.Sound (torch : Torch T D) (like : StateDict T) : Input T PeerId → Prop
  | .executeBatch _ trained => ∀ batch ∈ trained, Alike torch batch.1 like
  | .applyUpdate _ receipt | .receiveModel _ receipt =>
    (∀ file ∈ receipt.arrived, file.1 ≠ CURRENT_MODEL_NAME) ∧
      ∀ pointer, receipt.response = .ok (some pointer) →
        pointer.relPath ≠ some CURRENT_MODEL_NAME ∧ pointer.path ≠ some CURRENT_MODEL_NAME
  | _ => True

theorem localGradientsName_ne (epochCounter : Nat) : localGradientsName epochCounter ≠ CURRENT_MODEL_NAME := by
  intro h
  have hlength := congrArg String.length h
  unfold localGradientsName at hlength
  rw [String.length_append] at hlength
  have hsuffix : String.length "_local_gradients.pt" = 19 := rfl
  have hname : CURRENT_MODEL_NAME.length = 17 := rfl
  omega

namespace Trainer
variable {t : Trainer T} {path : String} {m : StateDict T}

theorem opened_iff : t.opened path = some m ↔ t.files path = some (.tensors m) := by
  unfold opened
  split
  · rename_i h
    rw [h, Option.some.injEq, Option.some.injEq, Content.tensors.injEq]
  · rename_i h
    exact iff_of_false nofun (h m)

theorem write_self (t : Trainer T) (path : String) (content : Content T) : (t.write path content).files path = some content :=
  Function.update_self _ _ _

theorem write_ne {path' : String} {content : Content T} (h : path ≠ path') :
    (t.write path' content).files path = t.files path :=
  Function.update_of_ne h _ _

theorem remove_ne {path' : String} (h : path ≠ path') : (t.remove path').files path = t.files path :=
  Function.update_of_ne h _ _

@[simp] theorem receives_model (t : Trainer T) (receipt : Receipt T) : (t.receives receipt).model = t.model := by
  unfold receives
  generalize receipt.arrived = files
  induction files generalizing t with
  | nil => rfl
  | cons file files ih => exact ih (t.write file.1 file.2)

theorem receives_files {receipt : Receipt T} (h : ∀ file ∈ receipt.arrived, file.1 ≠ path) :
    (t.receives receipt).files path = t.files path := by
  unfold receives
  generalize receipt.arrived = files at h ⊢
  induction files generalizing t with
  | nil => rfl
  | cons file files ih =>
    obtain ⟨hfile, hfiles⟩ := List.forall_mem_cons.mp h
    exact (ih hfiles).trans (write_ne hfile.symm)

end Trainer

/-- What a turn can do to the live model and to the file of the global weights, and what it can send. -/
inductive Turned (torch : Torch T D) (input : Input T PeerId) (t t' : Trainer T) : Outcome T → Prop where
  | stays (file : t'.files CURRENT_MODEL_NAME = t.files CURRENT_MODEL_NAME) (alike : Alike torch t'.model t.model) :
      Turned torch input t t' .nothing
  | sendsUpdate {target : Reference PeerId} {weight : Weight} {previous gradients : StateDict T}
      (asked : input = .sendUpdate (some target) weight (.ok ()))
      (opens : t.files CURRENT_MODEL_NAME = some (.tensors previous))
      (extracts : extractGradients torch t.model previous weight = some gradients)
      (file : t'.files CURRENT_MODEL_NAME = t.files CURRENT_MODEL_NAME) (alike : Alike torch t'.model t.model) :
      Turned torch input t t' (.sentUpdate gradients)
  | sendsModel (file : t'.files = t.files) (model : t'.model = t.model) :
      Turned torch input t t' (.sentModel (t.files CURRENT_MODEL_NAME))
  | applies {update previous merged : StateDict T} (opens : t.files CURRENT_MODEL_NAME = some (.tensors previous))
      (merges : mergeModels torch previous update = some merged) (fitting : fits torch t.model merged = true)
      (model : t'.model = loadStateDict torch t.model merged)
      (file : t'.files CURRENT_MODEL_NAME = some (.tensors t'.model)) :
      Turned torch input t t' (.synced (.applied update))
  | receives {received : StateDict T} (fitting : fits torch t.model received = true)
      (strictly : strict t.model received = true) (model : t'.model = loadStateDict torch t.model received)
      (file : t'.files CURRENT_MODEL_NAME = some (.tensors received)) :
      Turned torch input t t' (.synced (.received received))

section Turns
variable {torch : Torch T D} {cfg : Setting} {like : StateDict T} {t : Trainer T} {input : Input T PeerId}

theorem Turned.unchanged {t' : Trainer T} (file : t'.files CURRENT_MODEL_NAME = t.files CURRENT_MODEL_NAME)
    (model : t'.model = t.model) : Turned torch input t t' .nothing := .stays file (model ▸ .refl _)

theorem mergeUpdate_turned (hdoc : torch.Documented) {path exc : String} (hpath : path ≠ CURRENT_MODEL_NAME) {t₀ : Trainer T}
    (file : t.files CURRENT_MODEL_NAME = t₀.files CURRENT_MODEL_NAME) (model : t.model = t₀.model) :
    Turned torch input t₀ (mergeUpdate torch t path exc).1 (mergeUpdate torch t path exc).2 := by
  unfold mergeUpdate
  split
  · rename_i update previous _ hprevious
    split
    · exact .unchanged file model
    · rename_i merged hmerged
      dsimp only
      split_ifs with hfits
      · refine .applies (file ▸ Trainer.opened_iff.mp hprevious) hmerged (model ▸ hfits) ?_ ?_
        · exact congrArg (loadStateDict torch · merged) model
        · exact (Trainer.remove_ne hpath.symm).trans (Trainer.write_self _ _ _)
      · exact .stays file (model ▸ hdoc.alike_load _ _)
  · exact .unchanged file model

theorem loadModel_turned (hdoc : torch.Documented) {path exc : String} (hpath : path ≠ CURRENT_MODEL_NAME) {t₀ : Trainer T}
    (file : t.files CURRENT_MODEL_NAME = t₀.files CURRENT_MODEL_NAME) (model : t.model = t₀.model) :
    Turned torch input t₀ (loadModel torch t path exc).1 (loadModel torch t path exc).2 := by
  unfold loadModel
  split
  · exact .unchanged file model
  · rename_i received _
    dsimp only
    split_ifs with hload
    · obtain ⟨hfits, hstrict⟩ := (Bool.and_eq_true _ _).mp hload
      refine .receives (model ▸ hfits) (model ▸ hstrict) ?_ ?_
      · exact congrArg (loadStateDict torch · received) model
      · exact (Trainer.remove_ne hpath.symm).trans (Trainer.write_self _ _ _)
    · exact .stays file (model ▸ hdoc.alike_load _ _)

theorem sendUpdate_turned (hdoc : torch.Documented) (target : Option (Reference PeerId)) (weight : Weight)
    (sent : Except String Unit) :
    Turned torch (.sendUpdate target weight sent) t (sendUpdate torch cfg t target weight sent).1
      (sendUpdate torch cfg t target weight sent).2 := by
  unfold sendUpdate
  split
  · exact .unchanged rfl rfl
  split
  · exact .unchanged rfl rfl
  rename_i hprevious
  split
  · rename_i changed gradients hchanged hgradients
    have hne := (localGradientsName_ne t.epochCounter).symm
    have halike : Alike torch (if cfg.cpu then changed else t.model) t.model := by
      split_ifs
      · exact hdoc.alike_differences hchanged
      · exact .refl _
    cases sent with
    | ok =>
      have hfile := Trainer.opened_iff.mp hprevious
      exact .sendsUpdate rfl hfile hgradients ((Trainer.remove_ne hne).trans (Trainer.write_ne hne)) halike
    | error exc => exact .stays (Trainer.write_ne hne) halike
  · exact .unchanged rfl rfl

theorem executeBatch_turned (hmodel : Alike torch t.model like) {localBatches : Nat} {trained : List (StateDict T × ℚ)}
    (hsound : ∀ batch ∈ trained, Alike torch batch.1 like) :
    Turned torch input t (executeBatch cfg t localBatches trained) .nothing := by
  unfold executeBatch
  split_ifs
  · refine .stays rfl ?_
    cases hlast : trained.getLast? with
    | none => exact .refl _
    | some batch => exact (hsound batch (List.mem_of_getLast? hlast)).trans hmodel.symm
  · exact .unchanged rfl rfl

/-- One turn of the loop. -/
theorem turned (hdoc : torch.Documented) (hmodel : Alike torch t.model like) (hsound : input.Sound torch like) :
    Turned torch input t (step torch cfg t input).1 (step torch cfg t input).2 := by
  unfold step
  split_ifs
  · exact .unchanged rfl rfl
  cases input with
  | terminate | idle | waitForModel | unhandled => exact .unchanged rfl rfl
  | executeBatch localBatches trained => exact executeBatch_turned hmodel hsound
  | sendUpdate target weight sent => exact sendUpdate_turned hdoc target weight sent
  | pushToHub repository token pushed =>
    dsimp only [pushToHub]
    split <;> exact .unchanged rfl rfl
  | sendModel target sent =>
    dsimp only [sendModel]
    split
    · exact .unchanged rfl rfl
    · exact .sendsModel rfl rfl
    · exact .unchanged rfl rfl
  | applyUpdate source receipt =>
    obtain ⟨harrived, hpointer⟩ := hsound
    have hfile := Trainer.receives_files (t := t) harrived
    have hmodel := Trainer.receives_model t receipt
    dsimp only [applyUpdate]
    split
    · exact .unchanged rfl rfl
    split
    · exact .unchanged hfile hmodel
    · exact .unchanged hfile hmodel
    · rename_i latest hresponse
      split
      · exact .unchanged hfile hmodel
      · rename_i path hpath
        exact mergeUpdate_turned hdoc (fun heq => (hpointer latest hresponse).1 (heq ▸ hpath)) hfile hmodel
  | receiveModel source receipt =>
    obtain ⟨harrived, hpointer⟩ := hsound
    have hfile := Trainer.receives_files (t := t) harrived
    have hmodel := Trainer.receives_model t receipt
    dsimp only [receiveModel]
    split
    · exact .unchanged rfl rfl
    split
    · exact .unchanged hfile hmodel
    · exact .unchanged hfile hmodel
    · rename_i incomming hresponse
      split
      · exact .unchanged hfile hmodel
      · rename_i path hpath
        exact loadModel_turned hdoc (fun heq => (hpointer incomming hresponse).2 (heq ▸ hpath)) hfile hmodel

end Turns

/-! ## The weights that all workers should have -/

/-- The loop begins: the model is saved. -/
def launched (model : StateDict T) (files : String → Option (Content T)) : Trainer T :=
  ({ model, files } : Trainer T).write CURRENT_MODEL_NAME (.tensors model)

def Outcome.sync? : Outcome T → Option (Sync T)
  | .synced sync => some sync
  | _ => none

abbrev TrainerEvent (T PeerId : Type) := Event (Trainer T) (Input T PeerId) (Outcome T)

/-- The synchronizations so far, oldest first. -/
def syncs (h : List (TrainerEvent T PeerId)) : List (Sync T) := h.reverse.filterMap fun e => e.output.sync?

section Global
variable (torch : Torch T D) (like : StateDict T)

/-- The sum with an update, in the types of the model, or other weights. -/
def synchronize (weights : String → Option T) : Sync T → String → Option T
  | .applied update, name => do
    let modelWeight ← weights name
    let g ← update.lookup name
    let sum ← torch.add modelWeight (torch.cast g (torch.dtype modelWeight))
    let x ← like.lookup name
    return torch.cast sum (torch.dtype x)
  | .received model, name => model.lookup name

/-- The weights after some synchronizations. They depend on nothing that is local to a worker. -/
def globalWeights (syncs : List (Sync T)) : String → Option T := syncs.foldl (synchronize torch like) (like.lookup ·)

/-- What a turn sends and leaves is as the global weights say. -/
structure Synchronized (e : TrainerEvent T PeerId) (h : List (TrainerEvent T PeerId)) : Prop where
  file : ∃ m, e.post.files CURRENT_MODEL_NAME = some (.tensors m) ∧
    ∀ name, m.lookup name = globalWeights torch like (syncs (e :: h)) name
  /-- An update is the weighted difference between the live model and the global weights. -/
  update : ∀ gradients, e.output = .sentUpdate gradients →
    ∃ target weight, e.input = .sendUpdate (some target) weight (.ok ()) ∧
      (∀ name, name ∈ gradients ↔ name ∈ like) ∧
      ∀ name x p, e.pre.model.lookup name = some x → globalWeights torch like (syncs h) name = some p →
        ∃ d, difference torch weight name x p = some d ∧ gradients.lookup name = some (downcast torch d)
  /-- Nothing that was trained locally is sent as the model. -/
  model : ∀ file, e.output = .sentModel file →
    ∃ m, file = some (.tensors m) ∧ ∀ name, m.lookup name = globalWeights torch like (syncs h) name
  /-- Local training is gone after a synchronization. -/
  live : ∀ sync, e.output = .synced sync → ∀ name x, like.lookup name = some x →
    ∃ p, globalWeights torch like (syncs (e :: h)) name = some p ∧
      e.post.model.lookup name = some (torch.cast p (torch.dtype x))

/-- The live model looks like the first one, and the file has the global weights, which have its names and shapes. -/
structure Kept (w : World (Trainer T) (Input T PeerId) (Outcome T)) : Prop where
  alike : Alike torch w.state.model like
  file : ∃ m, w.state.files CURRENT_MODEL_NAME = some (.tensors m) ∧
    ∀ name, m.lookup name = globalWeights torch like (syncs w.history) name
  shaped : ∀ name, (globalWeights torch like (syncs w.history) name).map torch.shape = (like.lookup name).map torch.shape

end Global

theorem syncs_cons (e : TrainerEvent T PeerId) (h : List (TrainerEvent T PeerId)) :
    syncs (e :: h) = syncs h ++ e.output.sync?.toList := filterMap_reverse_cons _ e h

section Runs
variable {torch : Torch T D} {cfg : Setting} {like : StateDict T} {w : World (Trainer T) (Input T PeerId) (Outcome T)}
  {e : TrainerEvent T PeerId} {h : List (TrainerEvent T PeerId)} {name : String} {x p : T}

theorem globalWeights_quiet (hquiet : e.output.sync? = none) :
    globalWeights torch like (syncs (e :: h)) = globalWeights torch like (syncs h) := by
  rw [syncs_cons, hquiet, Option.toList_none, List.append_nil]

theorem globalWeights_synced {sync : Sync T} (hsync : e.output = .synced sync) :
    globalWeights torch like (syncs (e :: h)) = synchronize torch like (globalWeights torch like (syncs h)) sync := by
  rw [syncs_cons, hsync]
  exact List.foldl_append

/-- A name of the model is one of the global weights, with the same shape. -/
theorem Kept.exists_global (hkept : Kept torch like w) (hx : like.lookup name = some x) :
    ∃ p, globalWeights torch like (syncs w.history) name = some p ∧ torch.shape p = torch.shape x := by
  have hshape := hkept.shaped name
  rw [hx] at hshape
  exact Option.map_eq_some_iff.mp hshape

theorem Kept.mem_iff (hkept : Kept torch like w) {m : StateDict T}
    (hm : ∀ name, m.lookup name = globalWeights torch like (syncs w.history) name) (name : String) :
    name ∈ m ↔ name ∈ like := by
  have hsome := congrArg Option.isSome (hkept.shaped name)
  rw [Option.isSome_map, Option.isSome_map, ← hm name] at hsome
  rw [← AList.lookup_isSome, ← AList.lookup_isSome, hsome]

/-- What is loaded after an update is merged: the next global weights. -/
theorem Kept.lookup_applied (hkept : Kept torch like w) {previous update merged : StateDict T}
    (opens : w.state.files CURRENT_MODEL_NAME = some (.tensors previous))
    (merges : mergeModels torch previous update = some merged) (fitting : fits torch w.state.model merged = true)
    (hdoc : torch.Documented) (name : String) :
    (loadStateDict torch w.state.model merged).lookup name =
      synchronize torch like (globalWeights torch like (syncs w.history)) (.applied update) name := by
  obtain ⟨m, hm, hglobal⟩ := hkept.file
  obtain rfl : previous = m := Content.tensors.inj (Option.some.inj (opens.symm.trans hm))
  cases hx : like.lookup name with
  | none =>
    have hmodel := ((hdoc.alike_load w.state.model merged).trans hkept.alike) name
    have hshape := hkept.shaped name
    rw [hx] at hmodel hshape
    rw [Option.map_eq_none_iff.mp hmodel]
    simp only [synchronize, Option.map_eq_none_iff.mp hshape, Option.bind_eq_bind, Option.bind_none]
  | some x =>
    obtain ⟨p, hp, -⟩ := hkept.exists_global hx
    obtain ⟨x', hx', -, hdtype⟩ := hkept.alike.symm.exists_lookup hx
    have hprevious := (hglobal name).trans hp
    obtain ⟨sum, hsum⟩ := Option.isSome_iff_exists.mp (Table.isSome_of_traverse merges hprevious)
    have hmerged := (Table.lookup_of_traverse merges name).trans (congrArg (Option.bind · _) hprevious)
    rw [Option.bind_some, hsum] at hmerged
    obtain ⟨g, hg, hadd⟩ := Option.bind_eq_some_iff.mp hsum
    rw [lookup_load hx' hmerged (fits_iff.mp fitting name x' sum hx' hmerged), hdtype]
    simp only [synchronize, hp, hg, hadd, hx, Option.bind_eq_bind, Option.bind_some]
    rfl

theorem mem_of_strict {model received : StateDict T} (h : strict model received = true) (name : String) :
    name ∈ model ↔ name ∈ received := by
  obtain ⟨hmodel, hreceived⟩ := of_decide_eq_true h
  exact ⟨fun hname => hmodel name (AList.mem_keys.mp hname), fun hname => hreceived name (AList.mem_keys.mp hname)⟩

/-- What is received has the shapes of the model. -/
theorem Kept.shaped_received (hkept : Kept torch like w) {received : StateDict T}
    (fitting : fits torch w.state.model received = true) (strictly : strict w.state.model received = true) (name : String) :
    (received.lookup name).map torch.shape = (like.lookup name).map torch.shape := by
  have hmem := mem_of_strict strictly name
  cases hx : like.lookup name with
  | none =>
    have hnone := hkept.alike name
    rw [hx] at hnone
    have hmodel : name ∉ w.state.model := AList.lookup_eq_none.mp (Option.map_eq_none_iff.mp hnone)
    rw [AList.lookup_eq_none.mpr (hmem.not.mp hmodel)]
  | some x =>
    obtain ⟨x', hx', hshape, -⟩ := hkept.alike.symm.exists_lookup hx
    obtain ⟨y, hy⟩ := Table.exists_lookup (hmem.mp (Table.mem_of_lookup hx'))
    rw [hy, Option.map_some, Option.map_some, fits_iff.mp fitting name x' y hx' hy, hshape]

/-- What is sent as an update. -/
theorem Kept.extracts (hkept : Kept torch like w) {previous gradients : StateDict T} {weight : Weight}
    (opens : w.state.files CURRENT_MODEL_NAME = some (.tensors previous))
    (extracts : extractGradients torch w.state.model previous weight = some gradients) :
    (∀ name, name ∈ gradients ↔ name ∈ like) ∧
      ∀ name x p, w.state.model.lookup name = some x → globalWeights torch like (syncs w.history) name = some p →
        ∃ d, difference torch weight name x p = some d ∧ gradients.lookup name = some (downcast torch d) := by
  obtain ⟨m, hm, hglobal⟩ := hkept.file
  obtain rfl : previous = m := Content.tensors.inj (Option.some.inj (opens.symm.trans hm))
  obtain ⟨changed, hchanged, rfl⟩ := Option.map_eq_some_iff.mp extracts
  unfold differences at hchanged
  split_ifs at hchanged
  refine ⟨fun name => ?_, fun name x p hx hp => ?_⟩
  · have hsome := congrArg Option.isSome (hkept.alike name)
    rw [Option.isSome_map, Option.isSome_map] at hsome
    rw [Table.mem_mapValues, Table.mem_of_traverse hchanged, ← AList.lookup_isSome, ← AList.lookup_isSome, hsome]
  · have hprevious := (hglobal name).trans hp
    obtain ⟨d, hd⟩ := Option.isSome_iff_exists.mp (Table.isSome_of_traverse hchanged hx)
    have hlookup := (Table.lookup_of_traverse hchanged name).trans (congrArg (Option.bind · _) hx)
    rw [Option.bind_some, hd] at hlookup
    rw [hprevious, Option.map_some, Option.getD_some] at hd
    refine ⟨d, hd, ?_⟩
    rw [Table.lookup_mapValues, hlookup, Option.map_some, if_pos (Table.mem_of_lookup hprevious)]

variable (torch cfg like) in
/-- One turn keeps the invariant, and sends and leaves what it should. -/
theorem Kept.next (hdoc : torch.Documented) (hkept : Kept torch like w) {input : Input T PeerId}
    (hsound : input.Sound torch like) :
    Kept torch like ((trainer torch cfg PeerId).next w input) ∧
      Synchronized torch like ((trainer torch cfg PeerId).event w.state input) w.history := by
  have hturned : Turned torch input w.state ((trainer torch cfg PeerId).event w.state input).post
      ((trainer torch cfg PeerId).event w.state input).output := turned hdoc hkept.alike hsound
  generalize hevent : (trainer torch cfg PeerId).event w.state input = e at hturned
  have hpre : e.pre = w.state := hevent ▸ rfl
  have hinput : e.input = input := hevent ▸ rfl
  have hnext : (trainer torch cfg PeerId).next w input = ⟨e.post, e :: w.history⟩ := by
    rw [← hevent]
    rfl
  rw [hnext]
  -- without a synchronization the global weights are the same, and so is their file
  have hquiet : e.output.sync? = none → e.post.files CURRENT_MODEL_NAME = w.state.files CURRENT_MODEL_NAME →
      Alike torch e.post.model w.state.model → Kept torch like ⟨e.post, e :: w.history⟩ := by
    intro hnone hfile halike
    obtain ⟨m, hm, hglobal⟩ := hkept.file
    refine ⟨halike.trans hkept.alike, ⟨m, hfile.trans hm, fun name => ?_⟩, fun name => ?_⟩
    · rw [globalWeights_quiet hnone, hglobal]
    · rw [globalWeights_quiet hnone, hkept.shaped]
  generalize houtput : e.output = outcome at hturned
  cases hturned with
  | stays file alike =>
    have hkept' := hquiet (houtput ▸ rfl) file alike
    exact ⟨hkept', hkept'.file, fun _ h => (nomatch houtput.symm.trans h), fun _ h => (nomatch houtput.symm.trans h),
      fun _ h => (nomatch houtput.symm.trans h)⟩
  | sendsUpdate asked opens extracts file alike =>
    have hkept' := hquiet (houtput ▸ rfl) file alike
    refine ⟨hkept', hkept'.file, fun gradients h => ?_, fun _ h => (nomatch houtput.symm.trans h),
      fun _ h => (nomatch houtput.symm.trans h)⟩
    obtain rfl := Outcome.sentUpdate.inj (houtput.symm.trans h)
    exact ⟨_, _, hinput.trans asked, hpre ▸ hkept.extracts opens extracts⟩
  | sendsModel file model =>
    have hkept' := hquiet (houtput ▸ rfl) (congrFun file _) (model ▸ .refl _)
    refine ⟨hkept', hkept'.file, fun _ h => (nomatch houtput.symm.trans h), fun sent h => ?_,
      fun _ h => (nomatch houtput.symm.trans h)⟩
    obtain rfl := Outcome.sentModel.inj (houtput.symm.trans h)
    exact hkept.file
  | applies opens merges fitting model file =>
    have hmodel : ∀ name, e.post.model.lookup name = globalWeights torch like (syncs (e :: w.history)) name := by
      intro name
      rw [model, globalWeights_synced houtput]
      exact hkept.lookup_applied opens merges fitting hdoc name
    have halike : Alike torch e.post.model like := model ▸ (hdoc.alike_load _ _).trans hkept.alike
    have hkept' : Kept torch like ⟨e.post, e :: w.history⟩ := by
      refine ⟨halike, ⟨_, file, hmodel⟩, fun name => ?_⟩
      have hshape := congrArg (Option.map Prod.fst) (halike name)
      rw [Option.map_map, Option.map_map] at hshape
      rw [← hmodel]
      exact hshape
    refine ⟨hkept', hkept'.file, fun _ h => (nomatch houtput.symm.trans h), fun _ h => (nomatch houtput.symm.trans h),
      fun sync _ name x hx => ?_⟩
    obtain ⟨p, hp, -⟩ := hkept'.exists_global hx
    refine ⟨p, hp, ?_⟩
    -- the sum has been cast already
    obtain ⟨p', hp', -, hdtype⟩ := halike.symm.exists_lookup hx
    obtain rfl : p = p' := Option.some.inj (hp.symm.trans ((hmodel name).symm.trans hp'))
    rw [hp', ← hdtype, hdoc.cast_dtype]
  | receives fitting strictly model file =>
    rename_i received
    have hglobal : ∀ name, globalWeights torch like (syncs (e :: w.history)) name = received.lookup name := by
      intro name
      rw [globalWeights_synced houtput]
      rfl
    have hkept' : Kept torch like ⟨e.post, e :: w.history⟩ := by
      refine ⟨model ▸ (hdoc.alike_load _ _).trans hkept.alike, ⟨_, file, fun name => (hglobal name).symm⟩, fun name => ?_⟩
      rw [hglobal]
      exact hkept.shaped_received fitting strictly name
    refine ⟨hkept', hkept'.file, fun _ h => (nomatch houtput.symm.trans h), fun _ h => (nomatch houtput.symm.trans h),
      fun sync _ name x hx => ?_⟩
    obtain ⟨p, hp, hshape⟩ := hkept'.exists_global hx
    obtain ⟨x', hx', hshape', hdtype⟩ := hkept.alike.symm.exists_lookup hx
    refine ⟨p, hp, ?_⟩
    rw [model, lookup_load hx' ((hglobal name).symm.trans hp) (hshape.trans hshape'.symm), hdtype]

end Runs

theorem launched_file (model : StateDict T) (files : String → Option (Content T)) :
    (launched model files).files CURRENT_MODEL_NAME = some (.tensors model) := Trainer.write_self _ _ _

theorem kept_launched (torch : Torch T D) (model : StateDict T) (files : String → Option (Content T)) :
    Kept torch model (⟨launched model files, []⟩ : World (Trainer T) (Input T PeerId) (Outcome T)) where
  alike := .refl _
  file := ⟨model, launched_file model files, fun _ => rfl⟩
  shaped _ := rfl

section Main
variable (torch : Torch T D) (cfg : Setting) (model : StateDict T) (files : String → Option (Content T))

theorem trainer_kept (hdoc : torch.Documented) (inputs : List (Input T PeerId))
    (hsound : ∀ input ∈ inputs, input.Sound torch model) :
    Kept torch model ((trainer torch cfg PeerId).run (launched model files) inputs) ∧
      Along (Synchronized torch model) ((trainer torch cfg PeerId).run (launched model files) inputs).history :=
  Machine.along_of_invariant _ (Kept torch model) (fun e _ => e.input.Sound torch model) _ (kept_launched torch model files)
    (fun _ _ hkept hsound => hkept.next torch cfg model hdoc hsound) inputs (Machine.along_input _ hsound)

end Main

/-! ## What is reported with an update -/

/-- The losses of the batches of a turn. -/
def batchLosses (e : TrainerEvent T PeerId) : List ℚ :=
  match e.input with
  | .executeBatch localBatches trained =>
    if e.pre.phase = .running ∧ trained.length = localBatches then trained.map (·.2) else []
  | _ => []

/-- The losses since an update was last sent. -/
def pendingLosses : List (TrainerEvent T PeerId) → List ℚ
  | [] => []
  | e :: h =>
    match e.output with
    | .sentUpdate _ => []
    | _ => pendingLosses h ++ batchLosses e

/-- `ApplyUpdate` is answered with `applied-update`. -/
def answersApplied (e : TrainerEvent T PeerId) : Bool :=
  match e.pre.phase, e.input, e.post.currentStatus with
  | .running, .applyUpdate _ _, .appliedUpdate => true
  | _, _, _ => false

/-- The mean, if there are any. -/
def meanLoss (losses : List ℚ) : MetricMap :=
  if losses.isEmpty then [] else [("loss", losses.foldl (· + ·) 0 / losses.length)]

section Reports
variable (torch : Torch T D) (cfg : Setting)

/-- What a turn counts. -/
structure Counted (e : TrainerEvent T PeerId) : Prop where
  epoch : e.post.epochCounter = e.pre.epochCounter + if answersApplied e then 1 else 0
  losses : (∀ gradients, e.output ≠ .sentUpdate gradients) → e.post.lossList = e.pre.lossList ++ batchLosses e
  sent : ∀ gradients, e.output = .sentUpdate gradients →
    e.post.lossList = [] ∧ e.post.currentStatus = .sentUpdate e.pre.epochCounter (meanLoss e.pre.lossList)

/-- A turn that counts nothing. -/
theorem Counted.nothing {e : TrainerEvent T PeerId} (epoch : e.post.epochCounter = e.pre.epochCounter)
    (losses : e.post.lossList = e.pre.lossList) (hlosses : batchLosses e = []) (hanswers : answersApplied e = false)
    (houtput : ∀ gradients, e.output ≠ .sentUpdate gradients) : Counted e where
  epoch := by rw [epoch, hanswers]; rfl
  losses _ := by rw [losses, hlosses, List.append_nil]
  sent gradients h := absurd h (houtput gradients)

theorem Trainer.receives_counters (t : Trainer T) (receipt : Receipt T) :
    (t.receives receipt).epochCounter = t.epochCounter ∧ (t.receives receipt).lossList = t.lossList ∧
      (t.receives receipt).phase = t.phase := by
  unfold receives
  generalize receipt.arrived = files
  induction files generalizing t with
  | nil => exact ⟨rfl, rfl, rfl⟩
  | cons file files ih => exact ih (t.write file.1 file.2)

theorem mergeUpdate_counters (t : Trainer T) (path exc : String) :
    (mergeUpdate torch t path exc).1.lossList = t.lossList ∧
      (∀ gradients, (mergeUpdate torch t path exc).2 ≠ .sentUpdate gradients) ∧
      ((mergeUpdate torch t path exc).1.currentStatus = .appliedUpdate ∧
          (mergeUpdate torch t path exc).1.epochCounter = t.epochCounter + 1 ∨
        (∃ error, (mergeUpdate torch t path exc).1.currentStatus = .error error) ∧
          (mergeUpdate torch t path exc).1.epochCounter = t.epochCounter) := by
  unfold mergeUpdate
  split
  · split
    · exact ⟨rfl, nofun, .inr ⟨⟨_, rfl⟩, rfl⟩⟩
    · dsimp only
      split_ifs
      · exact ⟨rfl, nofun, .inl ⟨rfl, rfl⟩⟩
      · exact ⟨rfl, nofun, .inr ⟨⟨_, rfl⟩, rfl⟩⟩
  · exact ⟨rfl, nofun, .inr ⟨⟨_, rfl⟩, rfl⟩⟩

theorem applyUpdate_counters (t : Trainer T) (source : Option (Reference PeerId)) (receipt : Receipt T) :
    (applyUpdate torch t source receipt).1.lossList = t.lossList ∧
      (∀ gradients, (applyUpdate torch t source receipt).2 ≠ .sentUpdate gradients) ∧
      ((applyUpdate torch t source receipt).1.currentStatus = .appliedUpdate ∧
          (applyUpdate torch t source receipt).1.epochCounter = t.epochCounter + 1 ∨
        (∃ error, (applyUpdate torch t source receipt).1.currentStatus = .error error) ∧
          (applyUpdate torch t source receipt).1.epochCounter = t.epochCounter) := by
  obtain ⟨hepoch, hlosses, -⟩ := t.receives_counters receipt
  unfold applyUpdate
  split
  · exact ⟨rfl, nofun, .inr ⟨⟨_, rfl⟩, rfl⟩⟩
  dsimp only
  split
  · exact ⟨hlosses, nofun, .inr ⟨⟨_, rfl⟩, hepoch⟩⟩
  · exact ⟨hlosses, nofun, .inr ⟨⟨_, rfl⟩, hepoch⟩⟩
  · split
    · exact ⟨hlosses, nofun, .inl ⟨rfl, congrArg (· + 1) hepoch⟩⟩
    · rename_i path _
      obtain ⟨hlosses', houtput, hstatus⟩ := mergeUpdate_counters torch (t.receives receipt) path receipt.exc
      rw [hepoch] at hstatus
      exact ⟨hlosses'.trans hlosses, houtput, hstatus⟩

theorem receiveModel_counters (t : Trainer T) (source : Option (Reference PeerId)) (receipt : Receipt T) :
    (receiveModel torch t source receipt).1.lossList = t.lossList ∧
      (receiveModel torch t source receipt).1.epochCounter = t.epochCounter ∧
      ∀ gradients, (receiveModel torch t source receipt).2 ≠ .sentUpdate gradients := by
  obtain ⟨hepoch, hlosses, -⟩ := t.receives_counters receipt
  unfold receiveModel
  split
  · exact ⟨rfl, rfl, nofun⟩
  dsimp only
  split
  · exact ⟨hlosses, hepoch, nofun⟩
  · exact ⟨hlosses, hepoch, nofun⟩
  · split
    · exact ⟨hlosses, hepoch, nofun⟩
    · unfold loadModel
      split
      · exact ⟨hlosses, hepoch, nofun⟩
      · dsimp only
        split_ifs <;> exact ⟨hlosses, hepoch, nofun⟩

/-- Neither a batch nor an update that is applied. -/
def Input.isQuiet : Input T PeerId → Bool
  | .executeBatch _ _ | .applyUpdate _ _ => false
  | _ => true

theorem quiet {e : TrainerEvent T PeerId} (h : e.input.isQuiet = true) : batchLosses e = [] ∧ answersApplied e = false := by
  unfold batchLosses answersApplied
  generalize e.input = input at h
  constructor
  · split
    · cases h
    · rfl
  · split
    · cases h
    · rfl

theorem sendUpdate_counters (t : Trainer T) (target : Option (Reference PeerId)) (weight : Weight)
    (sent : Except String Unit) :
    (sendUpdate torch cfg t target weight sent).1.epochCounter = t.epochCounter ∧
      ((sendUpdate torch cfg t target weight sent).2 = .nothing ∧
          (sendUpdate torch cfg t target weight sent).1.lossList = t.lossList ∨
        (∃ gradients, (sendUpdate torch cfg t target weight sent).2 = .sentUpdate gradients) ∧
          (sendUpdate torch cfg t target weight sent).1.lossList = [] ∧
          (sendUpdate torch cfg t target weight sent).1.currentStatus =
            .sentUpdate t.epochCounter (meanLoss t.lossList)) := by
  unfold sendUpdate
  split
  · exact ⟨rfl, .inl ⟨rfl, rfl⟩⟩
  split
  · exact ⟨rfl, .inl ⟨rfl, rfl⟩⟩
  split
  · cases sent with
    | ok => exact ⟨rfl, .inr ⟨⟨_, rfl⟩, rfl, rfl⟩⟩
    | error exc => exact ⟨rfl, .inl ⟨rfl, rfl⟩⟩
  · exact ⟨rfl, .inl ⟨rfl, rfl⟩⟩

theorem counted (t : Trainer T) (input : Input T PeerId) : Counted ((trainer torch cfg PeerId).event t input) := by
  have hstep : ((trainer torch cfg PeerId).event t input).post = (step torch cfg t input).1 ∧
      ((trainer torch cfg PeerId).event t input).output = (step torch cfg t input).2 := ⟨rfl, rfl⟩
  generalize hevent : (trainer torch cfg PeerId).event t input = e at hstep
  have hpre : e.pre = t := hevent ▸ rfl
  have hinput : e.input = input := hevent ▸ rfl
  obtain ⟨hpost, houtput⟩ := hstep
  unfold step at hpost houtput
  by_cases hphase : t.phase = .running
  swap
  · rw [if_pos hphase] at hpost houtput
    refine .nothing (by rw [hpost, hpre]) (by rw [hpost, hpre]) ?_ ?_ (by rw [houtput]; nofun)
    · unfold batchLosses
      split
      · exact if_neg fun h => hphase (hpre ▸ h.1)
      · rfl
    · unfold answersApplied
      split
      · rename_i hrunning _ _
        exact absurd (hpre ▸ hrunning) hphase
      · rfl
  rw [if_neg (not_not.mpr hphase)] at hpost houtput
  cases input with
  | terminate | idle | waitForModel | unhandled =>
    obtain ⟨hbatch, happly⟩ := quiet (hinput ▸ rfl : e.input.isQuiet = true)
    dsimp only at hpost houtput
    subst hpre
    exact .nothing (hpost ▸ rfl) (hpost ▸ rfl) hbatch happly (houtput ▸ nofun)
  | executeBatch localBatches trained =>
    have hanswers : answersApplied e = false := by
      unfold answersApplied
      rw [hinput]
      split
      · rename_i h _
        cases h
      · rfl
    dsimp only [executeBatch] at hpost houtput
    subst hpre
    refine ⟨?_, fun _ => ?_, fun gradients h => nomatch houtput.symm.trans h⟩
    · rw [hanswers, hpost]
      by_cases htrained : trained.length = localBatches
      · rw [if_pos htrained]
        rfl
      · rw [if_neg htrained]
        rfl
    · unfold batchLosses
      rw [hinput, hpost]
      dsimp only
      by_cases htrained : trained.length = localBatches
      · rw [if_pos htrained, if_pos ⟨hphase, htrained⟩]
      · rw [if_neg htrained, if_neg fun h => htrained h.2, List.append_nil]
        rfl
  | sendUpdate target weight sent =>
    obtain ⟨hbatch, happly⟩ := quiet (hinput ▸ rfl : e.input.isQuiet = true)
    obtain ⟨hepoch, hsent⟩ := sendUpdate_counters torch cfg t target weight sent
    dsimp only at hpost houtput
    rw [← hpost] at hepoch hsent
    rw [← houtput] at hsent
    subst hpre
    rcases hsent with ⟨hnothing, hlosses⟩ | ⟨⟨gradients, hgradients⟩, hlosses, hstatus⟩
    · exact .nothing hepoch hlosses hbatch happly (by rw [hnothing]; nofun)
    · exact ⟨by rw [hepoch, happly]; rfl, fun h => absurd hgradients (h gradients), fun _ _ => ⟨hlosses, hstatus⟩⟩
  | applyUpdate source receipt =>
    obtain ⟨hlosses, hsent, hstatus⟩ := applyUpdate_counters torch t source receipt
    dsimp only at hpost houtput
    rw [← hpost] at hlosses hstatus
    rw [← houtput] at hsent
    subst hpre
    have hbatch : batchLosses e = [] := by
      unfold batchLosses
      rw [hinput]
    refine ⟨?_, fun _ => by rw [hlosses, hbatch, List.append_nil], fun gradients h => absurd h (hsent gradients)⟩
    rcases hstatus with ⟨hstatus, hepoch⟩ | ⟨⟨error, hstatus⟩, hepoch⟩
    · unfold answersApplied
      rw [hepoch, hphase, hinput, hstatus]
      rfl
    · unfold answersApplied
      rw [hepoch, hphase, hinput, hstatus]
      rfl
  | pushToHub repository token pushed =>
    obtain ⟨hbatch, happly⟩ := quiet (hinput ▸ rfl : e.input.isQuiet = true)
    dsimp only [pushToHub] at hpost
    refine .nothing ?_ ?_ hbatch happly (by rw [houtput]; nofun)
    · rw [hpost, hpre]
      split <;> rfl
    · rw [hpost, hpre]
      split <;> rfl
  | sendModel target sent =>
    obtain ⟨hbatch, happly⟩ := quiet (hinput ▸ rfl : e.input.isQuiet = true)
    dsimp only [sendModel] at hpost houtput
    refine .nothing ?_ ?_ hbatch happly fun gradients h => ?_
    · rw [hpost, hpre]
      split <;> rfl
    · rw [hpost, hpre]
      split <;> rfl
    · rw [houtput] at h
      split at h <;> cases h
  | receiveModel source receipt =>
    obtain ⟨hbatch, happly⟩ := quiet (hinput ▸ rfl : e.input.isQuiet = true)
    obtain ⟨hlosses, hepoch, hsent⟩ := receiveModel_counters torch t source receipt
    dsimp only at hpost houtput
    rw [← hpost] at hlosses hepoch
    rw [← houtput] at hsent
    subst hpre
    exact .nothing hepoch hlosses hbatch happly hsent

/-- **What is reported with an update**: the round, and the mean loss of all batches since an update was last sent. -/
theorem trainer_reports (torch : Torch T D) (cfg : Setting) (model : StateDict T) (files : String → Option (Content T))
    (inputs : List (Input T PeerId)) :
    Along (fun e h => ∀ gradients, e.output = .sentUpdate gradients →
        e.post.currentStatus = .sentUpdate (h.countP answersApplied + 1) (meanLoss (pendingLosses h)))
      ((trainer torch cfg PeerId).run (launched model files) inputs).history := by
  refine (Machine.along_of_invariant _ (fun w => w.state.epochCounter = w.history.countP answersApplied + 1 ∧
    w.state.lossList = pendingLosses w.history) (fun _ _ => True) _ ⟨rfl, rfl⟩ ?_ inputs (along_true _)).2
  rintro w input ⟨hepoch, hlosses⟩ -
  have hcounted := counted torch cfg w.state input
  have hpre : ((trainer torch cfg PeerId).event w.state input).pre = w.state := rfl
  have hnext : (trainer torch cfg PeerId).next w input = ⟨((trainer torch cfg PeerId).event w.state input).post,
    (trainer torch cfg PeerId).event w.state input :: w.history⟩ := rfl
  rw [hnext]
  generalize (trainer torch cfg PeerId).event w.state input = e at hcounted hpre
  refine ⟨⟨?_, ?_⟩, fun gradients hsent => ?_⟩
  · rw [List.countP_cons, hcounted.epoch, hpre, hepoch]
    omega
  · unfold pendingLosses
    split
    · rename_i gradients hsent
      exact (hcounted.sent gradients hsent).1
    · rename_i hquiet
      rw [hcounted.losses hquiet, hpre, hlosses]
  · rw [(hcounted.sent gradients hsent).2, hpre, hepoch, hlosses]

end Reports

/-- Single numbers. -/
def testTorch : Torch ℚ Unit where
  shape _ := []
  dtype _ := ()
  isFloatingPoint _ := true
  cast x _ := x
  bfloat16 := id
  add a b := some (a + b)
  isub a b := some (a - b)
  imul a w := some (a * w.toRat)

theorem testTorch_documented : testTorch.Documented where
  shape_cast _ _ := rfl
  dtype_cast _ _ := rfl
  cast_dtype _ := rfl
  isub _ _ _ _ := ⟨rfl, rfl⟩
  imul _ _ _ _ := ⟨rfl, rfl⟩

def testModel (x : ℚ) : StateDict ℚ := AList.singleton "weight" x

theorem testModel_alike (x y : ℚ) : Alike testTorch (testModel x) (testModel y) := fun name => by
  unfold testModel
  rw [Table.lookup_singleton, Table.lookup_singleton]
  split_ifs <;> rfl

/-- One round: two batches, an update that can first not be sent, and the update of all. -/
def testInputs : List (Input ℚ Nat) :=
  [.executeBatch 2 [(testModel 3, 1/2), (testModel 5, 1/4)],
    .sendUpdate (some (.peers [9] .one none)) ⟨1, 2⟩ (.error "timed out"),
    .sendUpdate (some (.peers [9] .one none)) ⟨1, 2⟩ (.ok ()),
    .applyUpdate (some (.peers [9] .all none))
      ⟨[("incoming/9", .tensors (testModel 4))], .ok (some ⟨some "incoming/9", none⟩), ""⟩,
    .sendModel (some (.peers [3] .one none)) (.ok ())]

end Hypha.Executor.Training
