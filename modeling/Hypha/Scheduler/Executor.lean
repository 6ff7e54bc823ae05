import Hypha.Scheduler.Run

/-!
# The executors

The action loops of the two executors, as far as the scheduler sees them: a loop reports, is told an action, carries it
out and reports the outcome. `follows` says which reports may come after an action (`training.py` for a training
worker, `parameter_server.rs` for a parameter server); a run is well behaved if every report follows what its peer was
last told, so a peer has one report outstanding and none is delivered twice. A peer that has left a pool starts anew.
-/

namespace Hypha.Scheduler

open Hypha.Lib Hypha.Action

variable {PeerId T : Type} [LinearOrder PeerId] [RuntimeStatistic T]

/-- What a training worker reports after an action. A transfer that fails is a connection error; the process ends on
`Terminate` and on an action that is not for it. -/
def trainFollows : TrainAction PeerId → TrainStatus → Bool
  | .idle _, .idle => true
  | .waitForModel _, .waitedForModel => true
  | .receiveModel _ _, .appliedUpdate => true
  | .receiveModel _ _, .error (.connection _) => true
  | .sendModel _, .sentModel => true
  | .sendModel _, .error (.connection _) => true
  | .executeBatch n, .batchCompleted _ batches => decide (batches = n)
  | .sendUpdate _ _, .sentUpdate _ _ => true
  | .sendUpdate _ _, .error (.connection _) => true
  | .applyUpdate _ _, .appliedUpdate => true
  | .applyUpdate _ _, .error (.connection _) => true
  | .pushToHub _ _, .pushedToHub => true
  | .pushToHub _ _, .error (.other _) => true
  | _, _ => false

/-- What a parameter server reports after an action. -/
def aggregateFollows : AggregateAction PeerId → AggregateStatus → Bool
  | .idle _, .idle => true
  | .aggregateUpdates _, .aggregatedUpdates _ => true
  | .aggregateUpdates _, .error _ => true
  | .broadcastUpdate _, .broadcastedUpdate _ => true
  | .broadcastUpdate _, .error _ => true
  | _, _ => false

/-- What an executor reports after an action, or first of all. A parameter server that cannot get through, or is told
an action that is not for it, reports an error. -/
def follows : Option (ExecutorAction PeerId) → ExecutorStatus → Bool
  | none, .train .joined => true
  | none, .aggregate .idle => true
  | some (.train a), .train status => trainFollows a status
  | some (.aggregate a), .aggregate status =>
    aggregateFollows a status || match a, status with
      | .terminate, _ => false
      | _, .error (.connection _) => true
      | _, _ => false
  | some (.train _), .aggregate (.error (.other _)) => true
  | _, _ => false

/-- Every report follows what its peer was last told. -/
def wellBehaved (e : Step PeerId T) (h : List (Step PeerId T)) : Bool :=
  match e.input.report? with
  | some (p, status) => follows (lastAnswer p h) status
  | none => true

theorem follows_of_wellBehaved {cfg : Settings} {s : SchedulerState PeerId T} {i : Input PeerId}
    {h : List (Step PeerId T)} {p : PeerId} {status : ExecutorStatus} (hi : i.report? = some (p, status))
    (hw : wellBehaved ((machine cfg).event s i) h = true) : follows (lastAnswer p h) status = true := by
  simpa only [wellBehaved, Machine.event_input, hi] using hw

end Hypha.Scheduler
