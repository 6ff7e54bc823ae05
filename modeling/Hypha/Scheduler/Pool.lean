import Mathlib.Data.Finset.Insert
import Mathlib.Data.Finset.Card
import Mathlib.Data.List.Sort
import Mathlib.Data.Rat.Defs
import Mathlib.Logic.Function.Basic
import Hypha.Scheduler.Statistics

/-!
# Worker pools

A pool is its member list (`joinMembers` and `exitMembers` are the two ways `run_pool` changes it) and, beside it, what
the batch scheduler remembers about peers: `PoolWithTrainInfo` for the training workers, `PoolWithAggregateInfo` for
the parameter servers. `info` drops the entries of peers that are not members and lists the members with theirs;
`updateState` and `updateStatistics` write an entry, making a default one first, for a member or not.

* `stateOf`, `updatesOf` : what a pool remembers of one peer, the default where it has no entry;
* `stateOf_updateState`, `stateOf_retain`, `updatesOf_updateState`, `updatesOf_retain` : how the writes change it;
* `find_snapshot`, `find_updates` : what the handlers read of a peer from a snapshot.
-/

namespace Hypha

/-- `hypha_resources::Resources`, in exact arithmetic. -/
structure Resources where
  gpu : ℚ := 0
  cpu : ℚ := 0
  storage : ℚ := 0
  memory : ℚ := 0
  deriving DecidableEq

structure WorkerDescriptor (PeerId : Type) where
  peerId : PeerId
  resources : Resources
  joinedAt : Nat

structure WorkerState (PeerId : Type) where
  sentUpdate : Bool := false
  appliedUpdate : Bool := false
  appliedFinalUpdate : Bool := false
  samplesProcessed : Nat := 0
  waitingForModel : Bool := false
  receivingFrom : Option PeerId := none
  isPusher : Bool := false
  pushDone : Bool := false

/-- What the scheduler remembers about a training worker. -/
structure TrainEntry (PeerId T : Type) where
  lastUpdated : Nat
  stats : T
  state : WorkerState PeerId

structure WorkerDescriptorWithInfo (PeerId : Type) where
  peerId : PeerId
  resources : Resources
  lastUpdated : Option Nat
  statistic : Option Nat
  state : WorkerState PeerId

structure AggregateInfo (PeerId : Type) where
  workerUpdates : Finset PeerId := ∅

structure WorkerDescriptorWithAggregate (PeerId : Type) where
  peerId : PeerId
  resources : Resources
  workerUpdates : Finset PeerId

/-- The members and train info behind a `PoolWithTrainInfoHandle`. -/
structure PoolWithTrainInfo (PeerId T : Type) where
  members : List (WorkerDescriptor PeerId)
  entries : PeerId → Option (TrainEntry PeerId T)

/-- The members and aggregate info behind a `PoolWithAggregateInfoHandle`. -/
structure PoolWithAggregateInfo (PeerId : Type) where
  members : List (WorkerDescriptor PeerId)
  entries : PeerId → Option (AggregateInfo PeerId)

variable {PeerId T : Type} [LinearOrder PeerId]

set_option linter.unusedSectionVars false

/-! ## Membership -/

/-- Oldest first, ties by peer id. -/
def descriptorLe (a b : WorkerDescriptor PeerId) : Prop :=
  a.joinedAt < b.joinedAt ∨ a.joinedAt = b.joinedAt ∧ a.peerId ≤ b.peerId

instance : DecidableRel (@descriptorLe PeerId _) :=
  fun a b => inferInstanceAs (Decidable (a.joinedAt < b.joinedAt ∨ a.joinedAt = b.joinedAt ∧ a.peerId ≤ b.peerId))

/-- An allocation batch enters the member list. -/
def joinMembers (members workers : List (WorkerDescriptor PeerId)) : List (WorkerDescriptor PeerId) :=
  (members ++ workers).insertionSort descriptorLe

/-- A worker handle of `peerId` completes: every member of that peer leaves. -/
def exitMembers (members : List (WorkerDescriptor PeerId)) (peerId : PeerId) : List (WorkerDescriptor PeerId) :=
  members.filter (fun w => w.peerId ≠ peerId)

/-- Looking a peer up in a member list. -/
theorem find_member (members : List (WorkerDescriptor PeerId)) (p : PeerId) :
    (p ∉ members.map (·.peerId) ∧ members.find? (fun d => d.peerId = p) = none) ∨
      p ∈ members.map (·.peerId) ∧ ∃ d, members.find? (fun d => d.peerId = p) = some d ∧ d.peerId = p := by
  cases hf : members.find? (fun d => d.peerId = p) with
  | none =>
    refine Or.inl ⟨fun h => ?_, rfl⟩
    obtain ⟨d, hd, he⟩ := List.mem_map.mp h
    exact absurd he (by simpa using List.find?_eq_none.mp hf d hd)
  | some d =>
    have hd : d.peerId = p := by simpa using List.find?_some hf
    exact Or.inr ⟨List.mem_map.mpr ⟨d, List.mem_of_find?_eq_some hf, hd⟩, d, rfl, hd⟩

/-! ## Training workers -/

namespace PoolWithTrainInfo

/-- The peers that are members. -/
def ids (pool : PoolWithTrainInfo PeerId T) : List PeerId := pool.members.map (·.peerId)

/-- Whether a peer is a member. -/
def isMember (pool : PoolWithTrainInfo PeerId T) (p : PeerId) : Bool := decide (p ∈ pool.ids)

@[simp] theorem isMember_iff (pool : PoolWithTrainInfo PeerId T) (p : PeerId) :
    pool.isMember p = true ↔ p ∈ pool.ids := decide_eq_true_iff

/-- `info.retain(..)`: forget the peers that are not members. -/
def retain (pool : PoolWithTrainInfo PeerId T) : PoolWithTrainInfo PeerId T :=
  { pool with entries := fun p => if p ∈ pool.ids then pool.entries p else none }

variable [RuntimeStatistic T]

/-- The members with what is remembered of them. -/
def snapshot (pool : PoolWithTrainInfo PeerId T) : List (WorkerDescriptorWithInfo PeerId) :=
  pool.members.map fun d =>
    { peerId := d.peerId
      resources := d.resources
      lastUpdated := (pool.entries d.peerId).map (·.lastUpdated)
      statistic := (pool.entries d.peerId).map (RuntimeStatistic.value ·.stats)
      state := ((pool.entries d.peerId).map (·.state)).getD {} }

/-- `PoolWithTrainInfoHandle::info`. -/
def info (pool : PoolWithTrainInfo PeerId T) :
    PoolWithTrainInfo PeerId T × List (WorkerDescriptorWithInfo PeerId) :=
  (pool.retain, pool.retain.snapshot)

/-- `data.entry(*peer_id).or_default()`. -/
def entryOf (pool : PoolWithTrainInfo PeerId T) (peerId : PeerId) : TrainEntry PeerId T :=
  (pool.entries peerId).getD ⟨0, RuntimeStatistic.default, {}⟩

/-- `PoolWithTrainInfoHandle::update_statistics`; `f` maps the statistic and the time of the last update. -/
def updateStatistics (pool : PoolWithTrainInfo PeerId T) (peerId : PeerId) (f : T × Nat → T × Nat) :
    PoolWithTrainInfo PeerId T :=
  let entry := pool.entryOf peerId
  let (stats, lastUpdated) := f (entry.stats, entry.lastUpdated)
  { pool with entries := Function.update pool.entries peerId (some ⟨lastUpdated, stats, entry.state⟩) }

/-- `PoolWithTrainInfoHandle::update_state`. -/
def updateState (pool : PoolWithTrainInfo PeerId T) (peerId : PeerId)
    (f : WorkerState PeerId → WorkerState PeerId) : PoolWithTrainInfo PeerId T :=
  let entry := pool.entryOf peerId
  { pool with entries := Function.update pool.entries peerId (some { entry with state := f entry.state }) }

/-- `update_state` for every member of a snapshot. -/
def updateStates (pool : PoolWithTrainInfo PeerId T) (snapshot : List (WorkerDescriptorWithInfo PeerId))
    (f : WorkerState PeerId → WorkerState PeerId) : PoolWithTrainInfo PeerId T :=
  snapshot.foldl (fun pool w => pool.updateState w.peerId f) pool

/-- The state remembered of a peer, the default one if there is none. -/
def stateOf (pool : PoolWithTrainInfo PeerId T) (p : PeerId) : WorkerState PeerId := (pool.entryOf p).state

@[simp] theorem members_retain (pool : PoolWithTrainInfo PeerId T) : pool.retain.members = pool.members := rfl

@[simp] theorem members_updateState (pool : PoolWithTrainInfo PeerId T) (p : PeerId)
    (f : WorkerState PeerId → WorkerState PeerId) : (pool.updateState p f).members = pool.members := rfl

@[simp] theorem members_updateStatistics (pool : PoolWithTrainInfo PeerId T) (p : PeerId)
    (f : T × Nat → T × Nat) : (pool.updateStatistics p f).members = pool.members := rfl

@[simp] theorem members_updateStates (snapshot : List (WorkerDescriptorWithInfo PeerId))
    (f : WorkerState PeerId → WorkerState PeerId) :
    ∀ pool : PoolWithTrainInfo PeerId T, (pool.updateStates snapshot f).members = pool.members := by
  induction snapshot with
  | nil => exact fun _ => rfl
  | cons w snapshot ih => exact fun pool => ih (pool.updateState w.peerId f)

@[simp] theorem ids_retain (pool : PoolWithTrainInfo PeerId T) : pool.retain.ids = pool.ids := rfl

@[simp] theorem ids_updateState (pool : PoolWithTrainInfo PeerId T) (p : PeerId)
    (f : WorkerState PeerId → WorkerState PeerId) : (pool.updateState p f).ids = pool.ids := rfl

@[simp] theorem ids_updateStatistics (pool : PoolWithTrainInfo PeerId T) (p : PeerId) (f : T × Nat → T × Nat) :
    (pool.updateStatistics p f).ids = pool.ids := rfl

@[simp] theorem ids_updateStates (snapshot : List (WorkerDescriptorWithInfo PeerId))
    (f : WorkerState PeerId → WorkerState PeerId) (pool : PoolWithTrainInfo PeerId T) :
    (pool.updateStates snapshot f).ids = pool.ids := by
  simp [ids]

theorem stateOf_updateState (pool : PoolWithTrainInfo PeerId T) (p q : PeerId)
    (f : WorkerState PeerId → WorkerState PeerId) :
    (pool.updateState p f).stateOf q = if q = p then f (pool.stateOf p) else pool.stateOf q := by
  unfold stateOf updateState entryOf
  dsimp only
  rw [Function.update_apply]
  split_ifs <;> rfl

@[simp] theorem stateOf_updateStatistics (pool : PoolWithTrainInfo PeerId T) (p q : PeerId)
    (f : T × Nat → T × Nat) : (pool.updateStatistics p f).stateOf q = pool.stateOf q := by
  unfold stateOf updateStatistics entryOf
  dsimp only
  rw [Function.update_apply]
  split_ifs with h
  · subst h; rfl
  · rfl

theorem stateOf_retain (pool : PoolWithTrainInfo PeerId T) (p : PeerId) :
    pool.retain.stateOf p = if p ∈ pool.ids then pool.stateOf p else {} := by
  unfold stateOf retain entryOf
  dsimp only
  split_ifs <;> rfl

theorem retain_retain (pool : PoolWithTrainInfo PeerId T) : pool.retain.retain = pool.retain := by
  unfold retain ids
  simp only [PoolWithTrainInfo.mk.injEq, true_and]
  funext p
  split_ifs <;> rfl

/-- Resetting a part of the state of every member: what a second reset finds is already reset. -/
theorem stateOf_updateStates {f : WorkerState PeerId → WorkerState PeerId} (hf : ∀ s, f (f s) = f s)
    (snapshot : List (WorkerDescriptorWithInfo PeerId)) (q : PeerId) :
    ∀ pool : PoolWithTrainInfo PeerId T, (pool.updateStates snapshot f).stateOf q =
      if q ∈ snapshot.map (·.peerId) then f (pool.stateOf q) else pool.stateOf q := by
  induction snapshot with
  | nil => exact fun _ => rfl
  | cons w snapshot ih =>
    intro pool
    have h := ih (pool.updateState w.peerId f)
    rw [stateOf_updateState] at h
    change (updateStates (pool.updateState w.peerId f) snapshot f).stateOf q = _
    rw [h]
    simp only [List.map_cons, List.mem_cons]
    by_cases hq : q = w.peerId
    · subst hq
      simp [hf]
    · simp [hq]

theorem ids_snapshot (pool : PoolWithTrainInfo PeerId T) : pool.snapshot.map (·.peerId) = pool.ids := by
  simp [snapshot, ids]

/-- What a handler reads of a peer's state from a snapshot. -/
theorem find_snapshot {α : Type} (pool : PoolWithTrainInfo PeerId T) (p : PeerId) (f : WorkerState PeerId → α) :
    (pool.retain.snapshot.find? (fun w => w.peerId = p)).map (fun w => f w.state) =
      if p ∈ pool.ids then some (f (pool.stateOf p)) else none := by
  unfold snapshot
  rw [List.find?_map]
  rcases find_member pool.retain.members p with ⟨h, hf⟩ | ⟨h, d, hf, rfl⟩
  · rw [Function.comp_def, hf, if_neg (show p ∉ pool.ids from h)]
    rfl
  · replace h : d.peerId ∈ pool.ids := h
    rw [Function.comp_def, hf, if_pos h]
    unfold stateOf retain entryOf
    simp only [Option.map_some]
    rw [if_pos h]
    cases pool.entries d.peerId <;> rfl

/-- The same with the default standing in for a peer that is not in the snapshot. -/
theorem find_snapshot_getD {α : Type} (pool : PoolWithTrainInfo PeerId T) (p : PeerId)
    (f : WorkerState PeerId → α) :
    ((pool.retain.snapshot.find? (fun w => w.peerId = p)).map (fun w => f w.state)).getD (f {}) =
      f (pool.retain.stateOf p) := by
  rw [find_snapshot, stateOf_retain]
  split_ifs <;> rfl

/-- What a handler reads of all members from a snapshot. -/
theorem all_snapshot (pool : PoolWithTrainInfo PeerId T) (f : WorkerState PeerId → Bool) :
    pool.retain.snapshot.all (fun w => f w.state) = pool.ids.all (fun q => f (pool.stateOf q)) := by
  unfold snapshot ids
  rw [List.all_map, List.all_map, members_retain, Bool.eq_iff_iff, List.all_eq_true, List.all_eq_true]
  refine forall₂_congr (fun d hd => ?_)
  have hmem : d.peerId ∈ pool.ids := List.mem_map.mpr ⟨d, hd, rfl⟩
  simp only [Function.comp_apply, retain, stateOf, entryOf, if_pos hmem]
  cases pool.entries d.peerId <;> rfl

end PoolWithTrainInfo

/-! ## Parameter servers -/

namespace PoolWithAggregateInfo

/-- The peers that are members. -/
def ids (pool : PoolWithAggregateInfo PeerId) : List PeerId := pool.members.map (·.peerId)

/-- `info.retain(..)`: forget the peers that are not members. -/
def retain (pool : PoolWithAggregateInfo PeerId) : PoolWithAggregateInfo PeerId :=
  { pool with entries := fun p => if p ∈ pool.ids then pool.entries p else none }

/-- The updates recorded with a parameter server, none if it has no entry. -/
def updatesOf (pool : PoolWithAggregateInfo PeerId) (p : PeerId) : Finset PeerId :=
  ((pool.entries p).getD {}).workerUpdates

/-- The members with their recorded updates. -/
def snapshot (pool : PoolWithAggregateInfo PeerId) : List (WorkerDescriptorWithAggregate PeerId) :=
  pool.members.map fun d => ⟨d.peerId, d.resources, pool.updatesOf d.peerId⟩

/-- `PoolWithAggregateInfoHandle::info`. -/
def info (pool : PoolWithAggregateInfo PeerId) :
    PoolWithAggregateInfo PeerId × List (WorkerDescriptorWithAggregate PeerId) :=
  (pool.retain, pool.retain.snapshot)

/-- `PoolWithAggregateInfoHandle::update_state`. -/
def updateState (pool : PoolWithAggregateInfo PeerId) (psId : PeerId)
    (f : AggregateInfo PeerId → AggregateInfo PeerId) : PoolWithAggregateInfo PeerId :=
  { pool with entries := Function.update pool.entries psId (some (f ((pool.entries psId).getD {}))) }

@[simp] theorem members_retain (pool : PoolWithAggregateInfo PeerId) : pool.retain.members = pool.members := rfl

@[simp] theorem members_updateState (pool : PoolWithAggregateInfo PeerId) (p : PeerId)
    (f : AggregateInfo PeerId → AggregateInfo PeerId) : (pool.updateState p f).members = pool.members := rfl

@[simp] theorem ids_retain (pool : PoolWithAggregateInfo PeerId) : pool.retain.ids = pool.ids := rfl

@[simp] theorem ids_updateState (pool : PoolWithAggregateInfo PeerId) (p : PeerId)
    (f : AggregateInfo PeerId → AggregateInfo PeerId) : (pool.updateState p f).ids = pool.ids := rfl

@[simp] theorem retain_retain (pool : PoolWithAggregateInfo PeerId) : pool.retain.retain = pool.retain := by
  unfold retain ids
  simp only [PoolWithAggregateInfo.mk.injEq, true_and]
  funext p
  split_ifs <;> rfl

theorem updatesOf_updateState (pool : PoolWithAggregateInfo PeerId) (p q : PeerId)
    (f : AggregateInfo PeerId → AggregateInfo PeerId) :
    (pool.updateState p f).updatesOf q =
      if q = p then (f ((pool.entries p).getD {})).workerUpdates else pool.updatesOf q := by
  unfold updatesOf updateState
  dsimp only
  rw [Function.update_apply]
  split_ifs <;> rfl

theorem updatesOf_retain (pool : PoolWithAggregateInfo PeerId) (p : PeerId) :
    pool.retain.updatesOf p = if p ∈ pool.ids then pool.updatesOf p else ∅ := by
  unfold updatesOf retain
  dsimp only
  split_ifs <;> rfl

theorem ids_snapshot (pool : PoolWithAggregateInfo PeerId) : pool.snapshot.map (·.peerId) = pool.ids := by
  simp [snapshot, ids]

/-- What a handler finds of a parameter server in a snapshot. -/
theorem find_updates (pool : PoolWithAggregateInfo PeerId) (p : PeerId) :
    (pool.retain.snapshot.find? (fun w => w.peerId = p)).map (·.workerUpdates) =
      if p ∈ pool.ids then some (pool.updatesOf p) else none := by
  unfold snapshot
  rw [List.find?_map]
  rcases find_member pool.retain.members p with ⟨h, hf⟩ | ⟨h, d, hf, rfl⟩
  · rw [Function.comp_def, hf, if_neg (show p ∉ pool.ids from h)]
    rfl
  · replace h : d.peerId ∈ pool.ids := h
    rw [Function.comp_def, hf, if_pos h]
    simp only [Option.map_some, Option.some.injEq]
    rw [updatesOf_retain, if_pos h]

end PoolWithAggregateInfo

end Hypha
