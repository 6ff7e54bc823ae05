import Hypha.Lib.Machine
import Hypha.Messages
import Hypha.Scheduler.Pool

/-!
# The task behind a pool

`run_pool` as a machine: an input is a tick of the reconciliation, with the clock it reads and what the allocator answers
if it is asked, or the exit of a worker whose handle is watched. The output is the number of workers that a tick asks for.

* `PoolTask.track`, `PoolTask.allocate` : the two halves of a tick;
* `poolStep`, `poolMachine`, `runPool` : the task;
* `Change`, `poolStep_change` : what a step can do.

What the allocator is asked for besides the number (the specification and the price range) and logging are left out.
-/

namespace Hypha.Scheduler

open Hypha.Lib

variable {PeerId : Type} [LinearOrder PeerId]

inductive AllocatorError where
  | broadcastFailed (source : String)
  | noWorkersAvailable
  | noOffersReceived
  | timeout
  | leaseFailed (error : String)

inductive WorkerError where
  | disconnected
  | dispatchFailed (reason : String)
  | leaseExpired
  | networkError (error : String)

/-- The error that `run_pool` returns. -/
inductive PoolError where
  | graceExpired (name : String) (min : Nat)

structure PoolConfig where
  name : String
  min : Nat
  target : Nat
  grace : Duration

/-- A worker handle. -/
structure Worker (PeerId : Type) where
  leaseId : Uuid
  peerId : PeerId
  resources : Resources

/-- `WorkerDescriptor::from`. -/
def Worker.descriptor (worker : Worker PeerId) (now : SystemTime) : WorkerDescriptor PeerId where
  peerId := worker.peerId
  resources := worker.resources
  joinedAt := now

/-- The variables of `run_pool`. `joins` lists what was sent to whoever reads the pool, newest first, and `error` is what
the task returned. -/
structure PoolTask (PeerId : Type) where
  members : List (WorkerDescriptor PeerId) := []
  watchers : List (Worker PeerId) := []
  belowMinSince : Option Instant := none
  joins : List (WorkerDescriptor PeerId) := []
  error : Option PoolError := none

inductive PoolInput (PeerId : Type) where
  | tick (now : Instant) (answer : Except AllocatorError (List (Worker PeerId × SystemTime)))
  | exit (i : Nat) (result : Except WorkerError Unit)

namespace PoolTask

variable (config : PoolConfig) (s : PoolTask PeerId)

/-- The first half of a tick keeps track of how long the pool has been below its minimum. The handles are dropped with
the task. -/
def track (now : Instant) : PoolTask PeerId :=
  if s.members.length < config.min then
    match s.belowMinSince with
    | some start =>
      if start + config.grace ≤ now then { s with error := some (.graceExpired config.name config.min), watchers := [] }
      else s
    | none => { s with belowMinSince := some now }
  else { s with belowMinSince := none }

/-- The second half asks for the workers that are missing, and lets the ones it gets join. -/
def allocate (answer : Except AllocatorError (List (Worker PeerId × SystemTime))) : PoolTask PeerId × Option Nat :=
  if s.members.length < config.target then
    match answer with
    | .ok workers =>
      if workers.isEmpty then (s, some (config.target - s.members.length))
      else
        let descriptors := workers.map fun (worker, now) => worker.descriptor now
        ({ s with
            members := joinMembers s.members descriptors
            watchers := s.watchers ++ workers.map (·.1)
            joins := descriptors.reverse ++ s.joins },
          some (config.target - s.members.length))
    | .error _ => (s, some (config.target - s.members.length))
  else (s, none)

end PoolTask

/-- One pass of the loop of `run_pool`. A worker that is not watched does not exit, and a task that has returned does
nothing. -/
def poolStep (config : PoolConfig) (s : PoolTask PeerId) (i : PoolInput PeerId) : PoolTask PeerId × Option Nat :=
  if s.error.isSome then (s, none)
  else match i with
    | .tick now answer =>
      let s := s.track config now
      if s.error.isSome then (s, none) else s.allocate config answer
    | .exit i _ =>
      match s.watchers[i]? with
      | none => (s, none)
      | some worker =>
        ({ s with members := exitMembers s.members worker.peerId, watchers := s.watchers.eraseIdx i }, none)

/-- The task. -/
def poolMachine (config : PoolConfig) : Machine (PoolTask PeerId) (PoolInput PeerId) (Option Nat) := ⟨poolStep config⟩

abbrev PoolEvent (PeerId : Type) := Event (PoolTask PeerId) (PoolInput PeerId) (Option Nat)

/-- A run of the task. -/
def runPool (config : PoolConfig) (inputs : List (PoolInput PeerId)) :
    World (PoolTask PeerId) (PoolInput PeerId) (Option Nat) :=
  (poolMachine config).run {} inputs

/-! ## What a step can do -/

/-- The workers that join with an answer to a request, and when. -/
def joining (request : Option Nat) : PoolInput PeerId → List (Worker PeerId × SystemTime)
  | .tick _ (.ok workers) => if request.isSome then workers else []
  | _ => []

/-- The workers that join in a step. -/
def joinsIn (e : PoolEvent PeerId) : List (Worker PeerId × SystemTime) := joining e.output e.input

/-- A step leaves the members alone, or lets workers join that were asked for, or removes a peer whose worker exits. -/
inductive Change (config : PoolConfig) (s : PoolTask PeerId) (i : PoolInput PeerId) :
    PoolTask PeerId × Option Nat → Prop where
  | stays {s' : PoolTask PeerId} {request : Option Nat} (members : s'.members = s.members)
      (watchers : s'.error = none → s.error = none ∧ s'.watchers = s.watchers) (joins : joining request i = []) :
      Change config s i (s', request)
  | joins {s' : PoolTask PeerId} {request : Option Nat} (below : s.members.length < config.target)
      (members : s'.members = joinMembers s.members ((joining request i).map fun (worker, now) => worker.descriptor now))
      (watchers : s'.watchers = s.watchers ++ (joining request i).map (·.1)) (running : s.error = none ∧ s'.error = none)
      (asked : request = some (config.target - s.members.length)) : Change config s i (s', request)
  | exits {s' : PoolTask PeerId} (n : Nat) (result : Except WorkerError Unit) {worker : Worker PeerId}
      (watched : s.watchers[n]? = some worker) (input : i = .exit n result)
      (members : s'.members = exitMembers s.members worker.peerId) (watchers : s'.watchers = s.watchers.eraseIdx n)
      (running : s.error = none ∧ s'.error = none) : Change config s i (s', none)

section Step
variable (config : PoolConfig) (s : PoolTask PeerId)

omit [LinearOrder PeerId] in
/-- Keeping track leaves the members alone, and the handles unless the task returns. -/
theorem track_keeps (now : Instant) :
    (s.track config now).members = s.members ∧
      ((s.track config now).error = none → s.error = none ∧ (s.track config now).watchers = s.watchers) := by
  unfold PoolTask.track
  split
  · split
    · split
      · exact ⟨rfl, fun h => by cases h⟩
      · exact ⟨rfl, fun h => ⟨h, rfl⟩⟩
    · exact ⟨rfl, fun h => ⟨h, rfl⟩⟩
  · exact ⟨rfl, fun h => ⟨h, rfl⟩⟩

omit [LinearOrder PeerId] in
theorem joining_none (i : PoolInput PeerId) : joining none i = [] := by
  unfold joining
  split <;> rfl

theorem allocate_change (now : Instant) (answer : Except AllocatorError (List (Worker PeerId × SystemTime)))
    {s₁ : PoolTask PeerId} (members : s₁.members = s.members)
    (watchers : s.error = none ∧ s₁.error = none ∧ s₁.watchers = s.watchers) :
    Change config s (.tick now answer) (s₁.allocate config answer) := by
  obtain ⟨hrunning, hrunning', hwatchers⟩ := watchers
  unfold PoolTask.allocate
  split_ifs with hbelow
  · rw [members] at hbelow ⊢
    cases answer with
    | error e => exact Change.stays members (fun _ => ⟨hrunning, hwatchers⟩) rfl
    | ok workers =>
      dsimp only
      split_ifs with hempty
      · exact Change.stays members (fun _ => ⟨hrunning, hwatchers⟩) (List.isEmpty_iff.mp hempty)
      · exact Change.joins hbelow rfl (congrArg (· ++ _) hwatchers) ⟨hrunning, hrunning'⟩ rfl
  · exact Change.stays members (fun _ => ⟨hrunning, hwatchers⟩) (joining_none _)

/-- What a step can do. -/
theorem poolStep_change (i : PoolInput PeerId) : Change config s i (poolStep config s i) := by
  unfold poolStep
  split_ifs with herror
  · exact Change.stays rfl (fun h => ⟨h, rfl⟩) (joining_none i)
  · have hrunning : s.error = none := by simpa using herror
    cases i with
    | tick now answer =>
      obtain ⟨hmembers, hwatchers⟩ := track_keeps config s now
      dsimp only
      split_ifs with hexpired
      · refine Change.stays hmembers (fun h => ?_) (joining_none _)
        rw [h] at hexpired
        cases hexpired
      · have hgoes : (s.track config now).error = none := by simpa using hexpired
        exact allocate_change config s now answer hmembers ⟨hrunning, hgoes, (hwatchers hgoes).2⟩
    | exit n result =>
      cases hwatched : s.watchers[n]? with
      | none =>
        simp only [hwatched]
        exact Change.stays rfl (fun h => ⟨h, rfl⟩) (joining_none _)
      | some worker =>
        simp only [hwatched]
        exact Change.exits n result hwatched rfl rfl rfl ⟨hrunning, hrunning⟩

end Step

end Hypha.Scheduler
