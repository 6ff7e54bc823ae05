import Mathlib.Data.Rat.Defs

/-!
# The action protocol

The reports executors send to the scheduler and the actions it answers with (`hypha-messages`, module `action`).
Times are natural numbers of nanoseconds; the `f32` values are exact rationals, a weight keeps its numerator and
denominator.
-/

namespace Hypha

/-- `std::time::SystemTime`, in nanoseconds since the epoch. -/
abbrev SystemTime := Nat

/-- `std::time::Instant`, in nanoseconds of the monotonic clock. -/
abbrev Instant := Nat

/-- `std::time::Duration`, in nanoseconds. -/
abbrev Duration := Nat

/-- `Duration::from_millis`. -/
def fromMillis (ms : Nat) : Duration := ms * 1000000

/-- `Duration::from_secs`. -/
def fromSecs (s : Nat) : Duration := s * 1000000000

/-- `Duration::as_millis`. -/
def asMillis (d : Duration) : Nat := d / 1000000

/-- `Duration::as_secs_f32`, exact. -/
def asSecs (d : Duration) : ℚ := d / 1000000000

abbrev Uuid := BitVec 128

/-- `HashMap<String, f32>` of metric names, as an association list without repeated keys. -/
abbrev MetricMap := List (String × ℚ)

/-- `HashMap::insert`. -/
def MetricMap.insert (m : MetricMap) (key : String) (value : ℚ) : MetricMap :=
  (key, value) :: m.filter (fun kv => kv.1 ≠ key)

inductive SelectionStrategy where
  | all
  | random
  | one
  deriving DecidableEq, Repr

structure DataSlice where
  dataset : String
  hash : Nat
  deriving DecidableEq, Repr

/-- Where a model, an update or data is to be fetched from or sent to. -/
inductive Reference (PeerId : Type) where
  | uri (value : String)
  | huggingFace (repository : String) (revision : Option String) (filenames : List String) (token : Option String)
  | peers (peers : List PeerId) (strategy : SelectionStrategy) (resource : Option DataSlice)
  | scheduler (peer : PeerId) (dataset : String)
  deriving DecidableEq, Repr

/-- An `f32` quotient of two counters. -/
structure Weight where
  num : Nat
  den : Nat
  deriving DecidableEq, Repr

/-- The value of a weight in exact arithmetic. -/
def Weight.toRat (w : Weight) : ℚ := w.num / w.den

namespace Action

inductive TrainError where
  | connection (message : String)
  | other (message : String)
  deriving DecidableEq, Repr

inductive AggregateError where
  | connection (message : String)
  | other (message : String)
  deriving DecidableEq, Repr

/-- What a training worker reports. -/
inductive TrainStatus where
  | joined
  | idle
  | batchCompleted (batchSize batches : Nat)
  | sentUpdate (round : Nat) (metrics : MetricMap)
  | appliedUpdate
  | pushedToHub
  | sentModel
  | receivedModel
  | waitedForModel
  | terminated
  | error (err : TrainError)

/-- What a parameter server reports. -/
inductive AggregateStatus where
  | idle
  | aggregatedUpdates (metrics : Option MetricMap)
  | broadcastedUpdate (metrics : Option MetricMap)
  | terminated
  | error (err : AggregateError)

inductive ExecutorStatus where
  | train (status : TrainStatus)
  | aggregate (status : AggregateStatus)

/-- Actions for training workers. -/
inductive TrainAction (PeerId : Type) where
  | idle (timeout : SystemTime)
  | waitForModel (timeout : SystemTime)
  | receiveModel (source : Reference PeerId) (timeout : SystemTime)
  | sendModel (target : Reference PeerId)
  | executeBatch (batches : Nat)
  | sendUpdate (target : Reference PeerId) (weight : Weight)
  | applyUpdate (source : Reference PeerId) (timeout : SystemTime)
  | pushToHub (repository token : String)
  | terminate
  deriving DecidableEq, Repr

/-- Actions for parameter servers. -/
inductive AggregateAction (PeerId : Type) where
  | idle (timeout : SystemTime)
  | aggregateUpdates (source : Reference PeerId)
  | broadcastUpdate (target : Reference PeerId)
  | terminate
  deriving DecidableEq, Repr

inductive ExecutorAction (PeerId : Type) where
  | train (action : TrainAction PeerId)
  | aggregate (action : AggregateAction PeerId)
  deriving DecidableEq, Repr

structure ActionRequest where
  jobId : Uuid
  status : ExecutorStatus

structure ActionResponse (PeerId : Type) where
  jobId : Uuid
  next : ExecutorAction PeerId
  deriving DecidableEq

end Action

end Hypha
