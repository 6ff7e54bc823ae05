import Hypha.Lib.Machine
import Hypha.Worker.LeaseManager
import Hypha.Worker.JobManager

/-!
# The arbiter

The worker's `arbiter`: batches of requests are answered with offers, leases are renewed, jobs are dispatched, and a loop
prunes finished jobs and expired leases. Every handler is a task that runs in stretches from one await point to the next,
in any interleaving; a stretch makes at most one write to the shared maps, its `Effect`.

* `Config`, `Config.processRequests` : which requests are served, and in which order;
* `Task`, `Task.run` : the handlers and one stretch of them; `Pruning.run` : one stretch of the prune loop;
* `Arbiter`, `Arbiter.step`, `arbiter` : the worker as a machine whose runs are recorded.
-/

namespace Hypha.Worker

open Hypha.Lib

variable {PeerId : Type}

/-- The lifetime of an offer. -/
def offerTimeout : Duration := fromSecs 10

/-- The lifetime of a renewed lease. -/
def leaseTimeout : Duration := fromSecs 180

inductive OfferStrategy where
  | flexible
  | whole
  deriving DecidableEq

structure OfferConfig where
  price : ℚ := 100
  floor : ℚ := 100
  strategy : OfferStrategy := .whole

/-- `request_worker::Request`, the worker specification included. -/
structure WorkerRequest where
  id : Uuid
  resources : Resources
  executor : List ExecutorDescriptor
  timeout : SystemTime
  bid : ℚ
  deriving DecidableEq

/-- `worker_offer::Request`. -/
structure WorkerOffer where
  id : Uuid
  requestId : Uuid
  price : ℚ
  resources : Resources
  timeout : SystemTime
  deriving DecidableEq

/-- What the arbiter is configured with; `score` is the resource evaluator. -/
structure Config where
  resources : Resources
  executors : List ExecutorConfig
  offer : OfferConfig
  score : ℚ → Resources → ℚ

namespace Config

variable (cfg : Config)

/-- Whether a request is considered: executors, bid and resources. -/
def accepts (request : WorkerRequest) : Bool :=
  (request.executor.all fun required => cfg.executors.any fun config => decide (config.descriptor = required)) &&
    !decide (request.bid < cfg.offer.floor) && !request.resources.gt cfg.resources

/-- The first part of `process_requests`: the requests that are considered, best score first. -/
def processRequests (batch : List (PeerId × WorkerRequest)) : List (PeerId × WorkerRequest) :=
  (batch.filter fun request => cfg.accepts request.2).insertionSort fun a b =>
    -cfg.score a.2.bid a.2.resources ≤ -cfg.score b.2.bid b.2.resources

/-- The resources that a lease is requested for. -/
def leaseResources (request : WorkerRequest) : Resources :=
  match cfg.offer.strategy with
  | .whole => cfg.resources
  | .flexible => request.resources

/-- The price that is offered. -/
def offerPrice (request : WorkerRequest) : ℚ :=
  match cfg.offer.strategy with
  | .whole => max cfg.offer.price request.bid
  | .flexible => request.bid

/-- The offer of a lease. -/
def offerOf (request : WorkerRequest) (lease : WorkerLease PeerId) : WorkerOffer where
  id := lease.id
  requestId := request.id
  price := cfg.offerPrice request
  resources := cfg.leaseResources request
  timeout := lease.timeout

end Config

/-- `renew_lease::Response`. -/
inductive RenewLeaseResponse where
  | renewed (id : Uuid) (timeout : SystemTime)
  | notFound
  | forbidden
  | failed
  deriving DecidableEq

/-- `dispatch_job::Response`. -/
inductive DispatchJobResponse where
  | dispatched (id : Uuid) (timeout : SystemTime)
  | failed
  deriving DecidableEq

inductive Response where
  | renewLease (response : RenewLeaseResponse)
  | dispatchJob (response : DispatchJobResponse)
  deriving DecidableEq

/-- Where the prune loop goes on after the cancellation of a job: with the other finished jobs, or with the other jobs
of an expired lease. -/
inductive After (PeerId : Type) where
  | finished (rest : List (JobDescriptor PeerId))
  | linked (lease : WorkerLease PeerId) (jobs : List (JobDescriptor PeerId)) (leases : List (WorkerLease PeerId))
  deriving DecidableEq

/-- Where the prune loop waits: for the finished jobs, in the removal of the lease of a failed job, in `proceed`, for the
jobs of an expired lease, for a job to cancel, for its monitor. -/
inductive Pruning (PeerId : Type) where
  | finding
  | revoking (point : Removing PeerId) (job : JobDescriptor PeerId) (rest : List (JobDescriptor PeerId))
  | proceeding (point : Proceeding PeerId)
  | linking (lease : WorkerLease PeerId) (leases : List (WorkerLease PeerId))
  | cancelling (id : Uuid) (after : After PeerId)
  | joining (execution : Nat) (after : After PeerId)
  deriving DecidableEq

/-- A handler and where it waits. A batch requests a lease, an offer is sent and withdrawn if it cannot be, a renewal
checks the owner and renews, a dispatch looks the lease up, starts the executor and records the job. -/
inductive Task (PeerId : Type) where
  | batch (peer : PeerId) (request : WorkerRequest) (rest : List (PeerId × WorkerRequest)) (point : Requesting PeerId)
  | offering (peer : PeerId) (offer : WorkerOffer)
  | withdrawing (point : Removing PeerId)
  | checking (peer : PeerId) (id : Uuid)
  | renewing (peer : PeerId) (id : Uuid)
  | looking (peer : PeerId) (id : Uuid) (spec : JobSpec)
  | starting (peer : PeerId) (id : Uuid) (spec : JobSpec) (lease : WorkerLease PeerId)
  | recording (job : Job PeerId) (timeout : SystemTime)
  | pruning (point : Pruning PeerId)
  | ended (response : Option Response)
  deriving DecidableEq

/-- What a stretch of a handler reads: whether what it has waited for went well, and whether it has to wait for the next
lock. -/
structure Moment extends Reading where
  ok : Bool := true
  waits : Bool := false

/-- The maps that the tasks share. -/
structure Shared (PeerId : Type) where
  manager : ResourceLeaseManager PeerId
  jobs : JobManager PeerId := {}

/-- What a stretch writes. -/
inductive Effect (PeerId : Type) where
  | lease (access : Access PeerId)
  | job (access : JobAccess PeerId)
  deriving DecidableEq

/-- The maps after the write. -/
def Effect.apply (s : Shared PeerId) : Effect PeerId → Shared PeerId
  | .lease access => { s with manager := access.apply s.manager }
  | .job access => { s with jobs := access.apply s.jobs }

/-- The loop over the requests of a batch. -/
def nextRequest (cfg : Config) : List (PeerId × WorkerRequest) → Task PeerId
  | [] => .ended none
  | (peer, request) :: rest =>
    .batch peer request rest (.reserve peer (cfg.leaseResources request) offerTimeout)

/-- The loop over the finished jobs: a failed one loses its lease, the others are passed over. -/
def nextFinished : List (JobDescriptor PeerId) → Pruning PeerId
  | [] => .proceeding .listing
  | job :: rest => if job.status.isFailed then .revoking (.taking job.lease) job rest else nextFinished rest

/-- The loop over the expired leases. -/
def nextLease : List (WorkerLease PeerId) → Task PeerId
  | [] => .ended none
  | lease :: leases => .pruning (.linking lease leases)

/-- The loop over the jobs of an expired lease. -/
def nextLinked (lease : WorkerLease PeerId) (leases : List (WorkerLease PeerId)) :
    List (JobDescriptor PeerId) → Task PeerId
  | [] => nextLease leases
  | job :: jobs => .pruning (.cancelling job.id (.linked lease jobs leases))

/-- After a job has been cancelled. -/
def After.next : After PeerId → Task PeerId
  | .finished rest => .pruning (nextFinished rest)
  | .linked lease jobs leases => nextLinked lease leases jobs

/-- The prune loop during and after `proceed`: if it fails the iteration ends. -/
def afterProceed : Progress (Proceeding PeerId) (Except LeaseError (List (WorkerLease PeerId))) → Task PeerId
  | .suspends point => .pruning (.proceeding point)
  | .returns (.ok expired) => nextLease expired
  | .returns (.error _) => .ended none

section Run
variable (s : Shared PeerId) (r : Moment)

/-- One stretch of the prune loop. -/
def Pruning.run : Pruning PeerId → Option (Effect PeerId × Task PeerId)
  | .finding =>
    some (.job .reads, .pruning (nextFinished (s.jobs.findJobsWhere r.rank fun job => job.status.isTerminal)))
  | .revoking point job rest =>
    let (access, progress) := point.run s.manager
    -- whether the lease could be removed makes no difference
    some (.lease access, progress.elim (fun point => .pruning (.revoking point job rest))
      fun _ => .pruning (.cancelling job.id (.finished rest)))
  | .proceeding point =>
    let (access, progress) := point.run s.manager r.toReading
    some (.lease access, afterProceed progress)
  | .linking lease leases =>
    some (.job .reads,
      nextLinked lease leases (s.jobs.findJobsWhere r.rank fun job => decide (job.lease = lease.id)))
  | .cancelling id after =>
    match s.jobs.jobs.lookup id with
    | some job => some (.job (.cancels id job), .pruning (.joining job.execution after))
    | none => some (.job .reads, after.next)
  | .joining execution after =>
    match s.jobs.executions[execution]? with
    | some ⟨_, _, .monitored _⟩ => some (.job .reads, after.next)
    | _ => none

variable [DecidableEq PeerId] (cfg : Config)

/-- One stretch of a handler, with the tasks it spawns. -/
def Task.run : Task PeerId → Option (Effect PeerId × Task PeerId × List (Task PeerId))
  | .batch peer request rest point =>
    let (access, progress) := point.run s.manager r.toReading
    match progress with
    | .suspends point => some (.lease access, .batch peer request rest point, [])
    | .returns (.ok lease) =>
      some (.lease access, nextRequest cfg rest, [.offering peer (cfg.offerOf request lease)])
    | .returns (.error _) => some (.lease access, nextRequest cfg rest, [])
  | .offering _ offer =>
    some (.lease .reads, if r.ok then .ended none else .withdrawing (.taking offer.id), [])
  | .withdrawing point =>
    let (access, progress) := point.run s.manager
    some (.lease access, progress.elim .withdrawing fun _ => .ended none, [])
  | .checking peer id =>
    match s.manager.get id with
    | .ok lease =>
      if lease.leasable.peerId = peer then some (.lease .reads, .renewing peer id, [])
      else some (.lease .reads, .ended (some (.renewLease .forbidden)), [])
    | .error _ => some (.lease .reads, .ended (some (.renewLease .notFound)), [])
  | .renewing _ id =>
    match s.manager.renew r.toReading id leaseTimeout with
    | (access, .ok lease) => some (.lease access, .ended (some (.renewLease (.renewed id lease.timeout))), [])
    | (access, .error _) => some (.lease access, .ended (some (.renewLease .failed)), [])
  | .looking peer id spec =>
    match s.manager.getByPeer r.toReading peer with
    | .ok lease =>
      match checkExecutor cfg.executors spec with
      | .ok _ => some (.lease .reads, .starting peer id spec lease, [])
      | .error _ => some (.lease .reads, .ended (some (.dispatchJob .failed)), [])
    | .error _ => some (.lease .reads, .ended (some (.dispatchJob .failed)), [])
  | .starting peer id spec lease =>
    let job : Job PeerId := ⟨id, lease.id, peer, spec, s.jobs.executions.length, .running⟩
    if r.ok then
      -- the monitor is spawned, then the lock of the map is awaited
      if r.waits then some (.job (.spawns id), .recording job lease.timeout, [])
      else some (.job (.launches job), .ended (some (.dispatchJob (.dispatched id lease.timeout))), [])
    else some (.job .reads, .ended (some (.dispatchJob .failed)), [])
  | .recording job timeout =>
    some (.job (.records job), .ended (some (.dispatchJob (.dispatched job.id timeout))), [])
  | .pruning point => (point.run s r).map fun (effect, task) => (effect, task, [])
  | .ended _ => none

end Run

/-- What may happen: a batch of requests, a renewal or a dispatch arrives; the prune loop ticks; a task runs; an execution
stops; its monitor writes. -/
inductive Happening (PeerId : Type) where
  | requests (batch : List (PeerId × WorkerRequest))
  | renews (peer : PeerId) (id : Uuid)
  | dispatches (peer : PeerId) (id : Uuid) (spec : JobSpec)
  | ticks
  | runs (i : Nat) (r : Moment)
  | stops (e : Nat) (status : Status)
  | writes (e : Nat)

/-- The maps and the tasks. -/
structure Arbiter (PeerId : Type) extends Shared PeerId where
  tasks : List (Task PeerId) := []

def Task.isPruning : Task PeerId → Bool
  | .pruning _ => true
  | _ => false

/-- What is written and where the tasks are then, if it can happen. -/
def Arbiter.step [DecidableEq PeerId] (cfg : Config) (w : Arbiter PeerId) :
    Happening PeerId → Option (Effect PeerId × List (Task PeerId))
  | .requests batch => some (.lease .reads, w.tasks ++ [nextRequest cfg (cfg.processRequests batch)])
  | .renews peer id => some (.lease .reads, w.tasks ++ [.checking peer id])
  | .dispatches peer id spec => some (.lease .reads, w.tasks ++ [.looking peer id spec])
  | .ticks => if w.tasks.any Task.isPruning then none else some (.job .reads, w.tasks ++ [.pruning .finding])
  | .runs i r =>
    w.tasks[i]?.bind fun task => (task.run w.toShared r cfg).map fun (effect, task', spawned) =>
      (effect, w.tasks.set i task' ++ spawned)
  | .stops e status =>
    match w.jobs.executions[e]? with
    | some ⟨_, _, .running⟩ => if status.isTerminal then some (.job (.stops e status), w.tasks) else none
    | _ => none
  | .writes e =>
    match w.jobs.executions[e]? with
    | some ⟨id, _, .stopped status⟩ => some (.job (.writes e id status), w.tasks)
    | _ => none

/-- The worker as a machine: the output is what has been written, if it could happen. -/
def arbiter [DecidableEq PeerId] (cfg : Config) :
    Machine (Arbiter PeerId) (Happening PeerId) (Option (Effect PeerId)) where
  step w a :=
    match w.step cfg a with
    | some (effect, tasks) => (⟨effect.apply w.toShared, tasks⟩, some effect)
    | none => (w, none)

/-- One step of a run. -/
abbrev ArbiterStep (PeerId : Type) := Event (Arbiter PeerId) (Happening PeerId) (Option (Effect PeerId))

/-- The worker when the arbiter starts. -/
def Arbiter.initial (cfg : Config) : Arbiter PeerId where
  manager := { computeResources := cfg.resources }

/-- The run of a worker over a list of happenings. -/
def run [DecidableEq PeerId] (cfg : Config) (happenings : List (Happening PeerId)) :
    World (Arbiter PeerId) (Happening PeerId) (Option (Effect PeerId)) :=
  (arbiter cfg).run (Arbiter.initial cfg) happenings

/-- A worker of some resources that runs training processes and parameter servers. -/
def smallWorker (resources : Resources) (strategy : OfferStrategy) : Config where
  resources := resources
  executors := [⟨.train "train", .process⟩, ⟨.aggregate "aggregate", .parameterServer⟩]
  offer := { price := 1, floor := 1, strategy := strategy }
  score := fun bid _ => bid

/-- A worker of four cores that leases what is requested. -/
def fourCores : Config := smallWorker { cpu := 4 } .flexible

/-- A request for a training worker. -/
def trainRequest (resources : Resources) : WorkerRequest := ⟨1, resources, [.train "train"], 0, 1⟩

/-- A batch of one request, served in three stretches by the task at a position, which draw two UUIDs. -/
def served (i peer : Nat) (resources : Resources) (reservation lease : Uuid) (now : SystemTime) :
    List (Happening Nat) :=
  [.requests [(peer, trainRequest resources)], .runs i {}, .runs i { uuid := reservation },
    .runs i { uuid := lease, now := now }]

/-- Peer 7 gets a lease and dispatches a job. -/
def dispatched : List (Happening Nat) :=
  List.flatten [served 0 7 { cpu := 1 } 1 2 0, [.dispatches 7 5 ⟨5, .train "train"⟩, .runs 2 {}, .runs 2 {}]]

end Hypha.Worker
