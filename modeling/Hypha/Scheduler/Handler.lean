import Hypha.Lib.Saturating
import Hypha.Messages
import Hypha.Scheduler.Pool

/-!
# The batch scheduler's request handler

`schedule` (`batch_scheduler.rs`) as the await-free stretches it is made of. An `Await` is a point at which a handler
is suspended (a mutex it asks for, a metrics message it sends, or the end), with the local variables it still needs.
`start` runs a request to its first await point and `resume` runs the stretch after an await point that was granted.
`schedule` drives one handler to its end with nothing in between.

* `Await.waits`, `Await.holds` : the mutex a suspended handler asks for, the mutexes it keeps meanwhile;
* `Settings.projectBatches`, `hasSentUpdate`, `Context.work` : the parts that the arms of `Idle` and `BatchCompleted`
  share.

Each stretch is named after the arm and the await point it follows. Logging is left out.
-/

namespace Hypha.Scheduler

open Hypha.Lib Hypha.Action

variable {PeerId T : Type} [LinearOrder PeerId] [RuntimeStatistic T]

/-! ## State -/

structure RoundState where
  aggregatedUpdates : Bool := false
  firstUpdateAt : Option Instant := none
  roundStartedAt : Instant
  aggregateStartedAt : Option Instant := none
  minQuorum : Nat
  grace : Duration
  round : Nat := 0
  updateRounds : Nat
  trainingComplete : Bool := false
  pushDone : Bool := false

structure TrainingState where
  updateTarget : Nat
  counter : Nat := 0

namespace TrainingState

def recordBatch (self : TrainingState) (batchSize : Nat) : TrainingState :=
  { self with counter := saturatingAdd self.counter batchSize }

def getCount (self : TrainingState) : Nat := self.counter

def getUpdateTarget (self : TrainingState) : Nat := self.updateTarget

def resetRound (self : TrainingState) : TrainingState := { self with counter := 0 }

end TrainingState

/-- A message for the metrics bridge. -/
structure Metrics where
  round : Nat
  metrics : MetricMap

/-- The one error `schedule` returns: the metrics message that could not be sent. -/
inductive BatchSchedulerError (PeerId : Type) where
  | sendMetricsError (message : PeerId × Metrics)

structure ModelDestination where
  repository : String
  token : String

/-- What stays fixed for a job. -/
structure Settings where
  id : Uuid
  batchSizer : Resources → Nat
  multiBatchSize : Nat
  pushDestination : Option ModelDestination
  start : Instant
  simulation : Simulation

/-- What the handlers share. `sent` lists the metrics messages, newest first, and `receiving` says whether the other
end of their channel is alive. -/
structure SchedulerState (PeerId T : Type) where
  workerPool : PoolWithTrainInfo PeerId T
  parameterPool : PoolWithAggregateInfo PeerId
  roundState : RoundState
  trainingState : TrainingState
  sent : List (PeerId × Metrics) := []
  receiving : Bool := true
  cancelled : Bool := false

/-- The locals every arm of a handler may use. -/
structure Context (PeerId : Type) where
  peerId : PeerId
  jobId : Uuid
  now : SystemTime
  sinceStart : Nat
  parameterServers : List PeerId

namespace Context

variable (ctx : Context PeerId)

def shortIdle : SystemTime := ctx.now + fromMillis 500

def waitModel : SystemTime := ctx.now + fromSecs 1

def longIo : SystemTime := ctx.now + fromSecs 60

def psBroadcastIdle : SystemTime := ctx.now + fromSecs 5

def primaryPs : Option PeerId := ctx.parameterServers.head?

end Context

/-! ## Await points -/

inductive Mutex where
  | roundState
  | trainingState
  deriving DecidableEq, Repr

/-- Where a handler is suspended. -/
inductive Await (PeerId : Type) where
  | joinedRound
  | idleRound
  | idleTraining (snapshot : List (WorkerDescriptorWithInfo PeerId))
  | batchTraining (batchSize batches : Nat) (snapshot : List (WorkerDescriptorWithInfo PeerId))
  | batchRound (snapshot : List (WorkerDescriptorWithInfo PeerId)) (count updateTarget contribution : Nat)
  | sentRound (metrics : MetricMap) (workerSamples : Nat)
  | sentSend (message : Metrics)
  | sentRound'
  | appliedRound
  | pushedRound
  | aggregateIdleRound
  | aggregateIdleRound' (workers : List PeerId)
  | aggregatedRound (workers : List PeerId)
  | broadcastedTraining (metrics : Option MetricMap)
  | broadcastedRound (metrics : Option MetricMap) (totalSamples : Nat)
  | broadcastedSend (message : Metrics)
  | broadcastedRound'
  | broadcastedTraining'
  | broadcastedRound''
  | aggregateErrorRound (next : AggregateAction PeerId)
  | done (result : Except (BatchSchedulerError PeerId) (ActionResponse PeerId))

namespace Await

/-- The mutex a suspended handler asks for. -/
def waits : Await PeerId → Option Mutex
  | joinedRound | idleRound | batchRound .. | sentRound .. | sentRound' | appliedRound | pushedRound
  | aggregateIdleRound | aggregateIdleRound' _ | aggregatedRound _ | broadcastedRound .. | broadcastedRound'
  | broadcastedRound'' | aggregateErrorRound _ => some .roundState
  | idleTraining _ | batchTraining .. | broadcastedTraining _ | broadcastedTraining' => some .trainingState
  | sentSend _ | broadcastedSend _ | done _ => none

/-- The mutexes a suspended handler keeps: `Idle` keeps the round state while it asks for the training state,
`BroadcastedUpdate` keeps the training state it reset until the end of its arm. -/
def holds : Await PeerId → Mutex → Bool
  | idleTraining _, .roundState => true
  | broadcastedRound'', .trainingState => true
  | _, _ => false

/-- Whether the handler has ended. -/
def isDone : Await PeerId → Bool
  | done _ => true
  | _ => false

end Await

/-- Answer a training worker. -/
def Context.train (ctx : Context PeerId) (action : TrainAction PeerId) : Await PeerId :=
  .done (.ok ⟨ctx.jobId, .train action⟩)

/-- Answer a parameter server. -/
def Context.aggregate (ctx : Context PeerId) (action : AggregateAction PeerId) : Await PeerId :=
  .done (.ok ⟨ctx.jobId, .aggregate action⟩)

/-! ## What `Idle` and `BatchCompleted` share -/

/-- Whether an update is due, the weight's denominator, and the batches to execute otherwise. -/
def Settings.projectBatches (cfg : Settings) (snapshot : List (WorkerDescriptorWithInfo PeerId))
    (count updateTarget : Nat) (peerId : PeerId) : Bool × Nat × Nat :=
  let peerPosition := (snapshot.findIdx? (fun w => w.peerId = peerId)).getD 0
  let stats := snapshot.map (·.statistic.getD 0)
  let progress := snapshot.map (·.lastUpdated.getD 0)
  let batchSizes := snapshot.map (fun w => cfg.batchSizer w.resources)
  if updateTarget ≤ count then (true, count, 0)
  else if !snapshot.isEmpty && stats.all (fun s => 0 < s && s < u64Max) then
    let (_, cnt, projection, _) :=
      cfg.simulation.project progress batchSizes stats (updateTarget - count) cfg.multiBatchSize
    (false, saturatingAdd count cnt.natAbs, projection.getD peerPosition 0)
  else (false, count, 1)

/-- Whether the primary parameter server has recorded an update of the peer. -/
def hasSentUpdate (pool : PoolWithAggregateInfo PeerId) (primaryPs : Option PeerId) (peerId : PeerId) :
    PoolWithAggregateInfo PeerId × Bool :=
  match primaryPs with
  | none => (pool, false)
  | some ps =>
    let (pool, info) := pool.info
    (pool, ((info.find? (fun w => w.peerId = ps)).map (fun w => decide (peerId ∈ w.workerUpdates))).getD false)

/-- More batches, or the update if it is due and there is a parameter server to send it to. -/
def Context.work (ctx : Context PeerId) (shouldUpdate : Bool) (contribution projectedTarget batches : Nat) :
    TrainAction PeerId :=
  if !shouldUpdate then .executeBatch batches
  else match ctx.parameterServers with
    | [] => .idle ctx.shortIdle
    | ps :: _ => .sendUpdate (.peers [ps] .one none) ⟨contribution, projectedTarget⟩

/-- Fetch the aggregate from every parameter server. -/
def Context.applyUpdate (ctx : Context PeerId) : TrainAction PeerId :=
  .applyUpdate (.peers ctx.parameterServers .all none) (ctx.now + fromSecs 10)

/-! ## The arms for training workers -/

section Arms
variable (cfg : Settings) (ctx : Context PeerId) (s : SchedulerState PeerId T)

def joinedRound : SchedulerState PeerId T × Await PeerId :=
  if s.roundState.round = 0 then (s, ctx.train (.idle ctx.shortIdle))
  else
    ({ s with workerPool := s.workerPool.updateState ctx.peerId fun st => { st with waitingForModel := true } },
      ctx.train (.waitForModel ctx.waitModel))

def waitedForModel : SchedulerState PeerId T × Await PeerId :=
  let (pool, snapshot) := s.workerPool.info
  match (snapshot.find? (fun w => w.peerId = ctx.peerId)).bind (·.state.receivingFrom) with
  | some sendingPeer =>
    ({ s with workerPool := pool.updateState ctx.peerId fun st => { st with receivingFrom := none } },
      ctx.train (.receiveModel (.peers [sendingPeer] .all none) ctx.longIo))
  | none => ({ s with workerPool := pool }, ctx.train (.waitForModel ctx.waitModel))

/-- `Idle` after the target rounds: apply the last aggregate, then push the model. -/
def idleComplete : SchedulerState PeerId T × Await PeerId :=
  if s.roundState.pushDone then ({ s with cancelled := true }, ctx.train .terminate)
  else
    let (pool, snapshot) := s.workerPool.info
    let hasPushAssignment := snapshot.any (·.state.isPusher)
    let (appliedFinalUpdate, hasAppliedUpdate) :=
      ((snapshot.find? (fun w => w.peerId = ctx.peerId)).map
        (fun w => (w.state.appliedFinalUpdate, w.state.appliedUpdate))).getD (false, false)
    if s.roundState.aggregatedUpdates && !hasAppliedUpdate then
      ({ s with workerPool := pool }, ctx.train ctx.applyUpdate)
    else if !hasPushAssignment && appliedFinalUpdate then
      let pool := pool.updateState ctx.peerId fun st => { st with isPusher := true }
      match cfg.pushDestination with
      | some destination =>
        ({ s with workerPool := pool }, ctx.train (.pushToHub destination.repository destination.token))
      | none =>
        ({ s with workerPool := pool, roundState := { s.roundState with pushDone := true } }, ctx.train .terminate)
    else ({ s with workerPool := pool }, ctx.train (.idle ctx.shortIdle))

def idleRound : SchedulerState PeerId T × Await PeerId :=
  if !s.roundState.trainingComplete then
    let (pool, snapshot) := s.workerPool.info
    ({ s with workerPool := pool }, .idleTraining snapshot)
  else idleComplete cfg ctx s

def idleTraining (snapshot : List (WorkerDescriptorWithInfo PeerId)) : SchedulerState PeerId T × Await PeerId :=
  let peerContribution :=
    ((snapshot.find? (fun w => w.peerId = ctx.peerId)).map (·.state.samplesProcessed)).getD 0
  let (shouldUpdate, projectedTarget, batches) :=
    cfg.projectBatches snapshot s.trainingState.getCount s.trainingState.getUpdateTarget ctx.peerId
  let hasAppliedUpdate :=
    ((snapshot.find? (fun w => w.peerId = ctx.peerId)).map (·.state.appliedUpdate)).getD false
  let (parameterPool, sent) := hasSentUpdate s.parameterPool ctx.primaryPs ctx.peerId
  ({ s with parameterPool := parameterPool },
    ctx.train (
      if s.roundState.aggregatedUpdates && !hasAppliedUpdate then ctx.applyUpdate
      else if sent then .idle ctx.shortIdle
      else ctx.work shouldUpdate peerContribution projectedTarget batches))

def batchCompleted (batchSize batches : Nat) : SchedulerState PeerId T × Await PeerId :=
  let pool := s.workerPool.updateStatistics ctx.peerId fun (stats, lastUpdated) =>
    (if lastUpdated > 0 then RuntimeStatistic.update stats (ctx.sinceStart - lastUpdated) batches else stats,
      ctx.sinceStart)
  let (pool, snapshot) := pool.info
  ({ s with workerPool := pool }, .batchTraining batchSize batches snapshot)

def batchTraining (batchSize batches : Nat) (snapshot : List (WorkerDescriptorWithInfo PeerId)) :
    SchedulerState PeerId T × Await PeerId :=
  let training := s.trainingState.recordBatch (wrappingMul batchSize batches)
  let pool := s.workerPool.updateState ctx.peerId fun st =>
    { st with samplesProcessed := saturatingAdd st.samplesProcessed (wrappingMul batchSize batches) }
  -- the contribution is read from the snapshot taken before the batch was recorded
  let peerContribution :=
    ((snapshot.find? (fun w => w.peerId = ctx.peerId)).map
      (fun w => saturatingAdd w.state.samplesProcessed batchSize)).getD batchSize
  ({ s with workerPool := pool, trainingState := training },
    .batchRound snapshot training.getCount training.getUpdateTarget peerContribution)

def batchRound (snapshot : List (WorkerDescriptorWithInfo PeerId)) (count updateTarget contribution : Nat) :
    SchedulerState PeerId T × Await PeerId :=
  let (parameterPool, sent) := hasSentUpdate s.parameterPool ctx.primaryPs ctx.peerId
  let (shouldUpdate, projectedTarget, batches) := cfg.projectBatches snapshot count updateTarget ctx.peerId
  ({ s with parameterPool := parameterPool },
    ctx.train (
      if s.roundState.trainingComplete || sent then .idle ctx.shortIdle
      else ctx.work shouldUpdate contribution projectedTarget batches))

def sentUpdate (metrics : MetricMap) : SchedulerState PeerId T × Await PeerId :=
  let (pool, snapshot) := s.workerPool.info
  let workerSamples :=
    ((snapshot.find? (fun w => w.peerId = ctx.peerId)).map (·.state.samplesProcessed)).getD 0
  ({ s with workerPool := pool }, .sentRound metrics workerSamples)

/-- The metrics of a round: `dataPoints` samples since the round started. -/
def roundMetrics (state : RoundState) (t : Instant) (metrics : MetricMap) (dataPoints : Nat) : Metrics :=
  let elapsedSecs := asSecs (t - state.roundStartedAt)
  let stepsPerSec : ℚ := if 0 < elapsedSecs then dataPoints / elapsedSecs else 0
  ⟨state.round, (((metrics.insert "round" state.round).insert "data_points" dataPoints).insert
    "steps" stepsPerSec).insert "duration" elapsedSecs⟩

def sentRound (t : Instant) (metrics : MetricMap) (workerSamples : Nat) : SchedulerState PeerId T × Await PeerId :=
  (s, .sentSend (roundMetrics s.roundState t metrics workerSamples))

/-- `tx.send((peer_id, message)).await`, then `k` unless the receiver is gone. -/
def sendMetrics (message : Metrics) (k : SchedulerState PeerId T → SchedulerState PeerId T × Await PeerId) :
    SchedulerState PeerId T × Await PeerId :=
  if s.receiving then k { s with sent := (ctx.peerId, message) :: s.sent }
  else (s, .done (.error (.sendMetricsError (ctx.peerId, message))))

def sentSend (message : Metrics) : SchedulerState PeerId T × Await PeerId :=
  sendMetrics ctx s message fun s =>
    let parameterPool := match ctx.primaryPs with
      | none => s.parameterPool
      | some ps =>
        s.parameterPool.updateState ps fun info => { info with workerUpdates := insert ctx.peerId info.workerUpdates }
    ({ s with parameterPool := parameterPool, workerPool := s.workerPool.info.1 }, .sentRound')

def sentRound' (t : Instant) : SchedulerState PeerId T × Await PeerId :=
  let roundState := if s.roundState.firstUpdateAt.isNone then { s.roundState with firstUpdateAt := some t }
    else s.roundState
  -- the number of recorded updates is only logged, but reading it drops the entries of parameter servers that left
  let (parameterPool, _) := hasSentUpdate s.parameterPool ctx.primaryPs ctx.peerId
  ({ s with roundState := roundState, parameterPool := parameterPool }, ctx.train (.idle ctx.shortIdle))

def appliedUpdate : SchedulerState PeerId T × Await PeerId :=
  let pool := s.workerPool.updateState ctx.peerId fun st => { st with appliedUpdate := true }
  let pool := pool.updateStatistics ctx.peerId fun (stats, _) => (stats, ctx.sinceStart)
  ({ s with workerPool := pool }, .appliedRound)

def appliedRound : SchedulerState PeerId T × Await PeerId :=
  if s.roundState.trainingComplete then
    ({ s with workerPool := s.workerPool.updateState ctx.peerId fun st => { st with appliedFinalUpdate := true } },
      ctx.train (.idle (ctx.now + fromMillis 500)))
  else
    let (pool, snapshot) := s.workerPool.info
    match (snapshot.find? (fun w => w.state.waitingForModel)).map (·.peerId) with
    | some updateWorker =>
      ({ s with workerPool := pool.updateState updateWorker fun st =>
          { st with waitingForModel := false, receivingFrom := some ctx.peerId } },
        ctx.train (.sendModel (.peers [updateWorker] .one none)))
    | none => ({ s with workerPool := pool }, ctx.train (.executeBatch 1))

def pushedToHub : SchedulerState PeerId T × Await PeerId :=
  let (pool, snapshot) := s.workerPool.info
  let isPusher := ((snapshot.find? (fun w => w.peerId = ctx.peerId)).map (·.state.isPusher)).getD false
  ({ s with workerPool := pool }, if isPusher then .pushedRound else ctx.train .terminate)

def pushedRound : SchedulerState PeerId T × Await PeerId :=
  ({ s with roundState := { s.roundState with pushDone := true } }, ctx.train .terminate)

/-- A reported error takes the push assignment away. -/
def trainError (next : TrainAction PeerId) : SchedulerState PeerId T × Await PeerId :=
  ({ s with workerPool := s.workerPool.updateState ctx.peerId fun st => { st with isPusher := false } },
    ctx.train next)

/-! ## The arms for parameter servers -/

def aggregateIdleRound : SchedulerState PeerId T × Await PeerId :=
  if s.roundState.trainingComplete then
    let (pool, snapshot) := s.workerPool.info
    ({ s with workerPool := pool },
      ctx.aggregate (if snapshot.all (·.state.appliedFinalUpdate) then .terminate else .idle ctx.shortIdle))
  else if some ctx.peerId ≠ ctx.primaryPs then (s, ctx.aggregate (.idle ctx.shortIdle))
  else
    let (pool, snapshot) := s.workerPool.info
    let workers := (snapshot.filter (fun w => !w.state.waitingForModel)).map (·.peerId)
    ({ s with workerPool := pool },
      if workers.isEmpty then ctx.aggregate (.idle ctx.shortIdle) else .aggregateIdleRound' workers)

/-- Aggregate once every worker has sent its update, or a quorum has and the grace period is over. -/
def aggregateIdleRound' (t : Instant) (workers : List PeerId) : SchedulerState PeerId T × Await PeerId :=
  let (parameterPool, snapshot) := s.parameterPool.info
  let psState := snapshot.find? (fun ps => ps.peerId = ctx.peerId)
  let allSent := (psState.map (fun entry => workers.all (fun w => decide (w ∈ entry.workerUpdates)))).getD false
  let sentCount := (psState.map (·.workerUpdates.card)).getD 0
  let effectiveQuorum := min s.roundState.minQuorum workers.length
  let quorumMet := decide (effectiveQuorum ≤ sentCount)
  let timeboxElapsed :=
    (s.roundState.firstUpdateAt.map (fun first => decide (s.roundState.grace ≤ t - first))).getD false
  if allSent || (quorumMet && timeboxElapsed) then
    ({ s with
        parameterPool := parameterPool
        roundState := if s.roundState.aggregateStartedAt.isNone then
          { s.roundState with aggregateStartedAt := some t } else s.roundState },
      ctx.aggregate (.aggregateUpdates (.peers workers .all none)))
  else ({ s with parameterPool := parameterPool }, ctx.aggregate (.idle ctx.shortIdle))

/-- Only the primary may go on to broadcast. -/
def aggregatedUpdates : SchedulerState PeerId T × Await PeerId :=
  if some ctx.peerId ≠ ctx.primaryPs then (s, ctx.aggregate (.idle ctx.psBroadcastIdle))
  else
    let (pool, snapshot) := s.workerPool.info
    let workers := snapshot.map (·.peerId)
    ({ s with workerPool := pool },
      if workers.isEmpty then ctx.aggregate (.idle ctx.shortIdle) else .aggregatedRound workers)

def aggregatedRound (workers : List PeerId) : SchedulerState PeerId T × Await PeerId :=
  let (pool, snapshot) := s.workerPool.info
  ({ s with
      workerPool := pool.updateStates snapshot fun st => { st with appliedUpdate := false }
      roundState := { s.roundState with aggregatedUpdates := true } },
    ctx.aggregate (.broadcastUpdate (.peers workers .all none)))

def broadcastedTraining (metrics : Option MetricMap) : SchedulerState PeerId T × Await PeerId :=
  (s, .broadcastedRound metrics s.trainingState.getCount)

def broadcastedRound (t : Instant) (metrics : Option MetricMap) (totalSamples : Nat) :
    SchedulerState PeerId T × Await PeerId :=
  (s, .broadcastedSend (roundMetrics s.roundState t (metrics.getD []) totalSamples))

def broadcastedSend (message : Metrics) : SchedulerState PeerId T × Await PeerId :=
  sendMetrics ctx s message fun s => (s, .broadcastedRound')

/-- Reset the round's bookkeeping and advance the round. -/
def broadcastedRound' (t : Instant) : SchedulerState PeerId T × Await PeerId :=
  let (pool, snapshot) := s.workerPool.info
  let parameterPool := match ctx.primaryPs with
    | none => s.parameterPool
    | some ps => s.parameterPool.updateState ps fun info => { info with workerUpdates := ∅ }
  let round := saturatingAdd s.roundState.round 1
  ({ s with
      workerPool := pool.updateStates snapshot fun st => { st with sentUpdate := false, samplesProcessed := 0 }
      parameterPool := parameterPool
      roundState := { s.roundState with
        firstUpdateAt := none
        aggregateStartedAt := none
        roundStartedAt := t
        round := round
        trainingComplete := s.roundState.trainingComplete || decide (s.roundState.updateRounds ≤ round) } },
    .broadcastedTraining')

def broadcastedTraining' : SchedulerState PeerId T × Await PeerId :=
  ({ s with trainingState := s.trainingState.resetRound }, .broadcastedRound'')

def broadcastedRound'' : SchedulerState PeerId T × Await PeerId :=
  ({ s with roundState := { s.roundState with
      aggregatedUpdates := s.roundState.trainingComplete && s.roundState.aggregatedUpdates } },
    ctx.aggregate (.idle ctx.shortIdle))

/-- A parameter server's error calls the aggregate off. -/
def aggregateErrorRound (next : AggregateAction PeerId) : SchedulerState PeerId T × Await PeerId :=
  ({ s with roundState := { s.roundState with aggregatedUpdates := false } }, ctx.aggregate next)

/-! ## The handler -/

/-- The stretch after an await point that was granted at time `t`. -/
def resume (t : Instant) : Await PeerId → SchedulerState PeerId T × Await PeerId
  | .joinedRound => joinedRound ctx s
  | .idleRound => idleRound cfg ctx s
  | .idleTraining snapshot => idleTraining cfg ctx s snapshot
  | .batchTraining batchSize batches snapshot => batchTraining ctx s batchSize batches snapshot
  | .batchRound snapshot count target contribution => batchRound cfg ctx s snapshot count target contribution
  | .sentRound metrics samples => sentRound s t metrics samples
  | .sentSend message => sentSend ctx s message
  | .sentRound' => sentRound' ctx s t
  | .appliedRound => appliedRound ctx s
  | .pushedRound => pushedRound ctx s
  | .aggregateIdleRound => aggregateIdleRound ctx s
  | .aggregateIdleRound' workers => aggregateIdleRound' ctx s t workers
  | .aggregatedRound workers => aggregatedRound ctx s workers
  | .broadcastedTraining metrics => broadcastedTraining s metrics
  | .broadcastedRound metrics total => broadcastedRound s t metrics total
  | .broadcastedSend message => broadcastedSend ctx s message
  | .broadcastedRound' => broadcastedRound' ctx s t
  | .broadcastedTraining' => broadcastedTraining' s
  | .broadcastedRound'' => broadcastedRound'' ctx s
  | .aggregateErrorRound next => aggregateErrorRound ctx s next
  | .done result => (s, .done result)

/-- The stretch of an arm before its first await point. -/
def enter : ExecutorStatus → SchedulerState PeerId T × Await PeerId
  | .train .joined => (s, .joinedRound)
  | .train .waitedForModel => waitedForModel ctx s
  | .train .receivedModel => (s, ctx.train (.idle ctx.now))
  | .train .sentModel => (s, ctx.train (.idle ctx.now))
  | .train .idle => (s, .idleRound)
  | .train (.batchCompleted batchSize batches) => batchCompleted ctx s batchSize batches
  | .train (.sentUpdate _ metrics) => sentUpdate ctx s metrics
  | .train .appliedUpdate => appliedUpdate ctx s
  | .train .pushedToHub => pushedToHub ctx s
  | .train (.error (.connection _)) => trainError ctx s (.idle ctx.shortIdle)
  | .train (.error (.other _)) => trainError ctx s .terminate
  | .train .terminated => (s, ctx.train .terminate)
  | .aggregate .idle => (s, .aggregateIdleRound)
  | .aggregate (.aggregatedUpdates _) => aggregatedUpdates ctx s
  | .aggregate (.broadcastedUpdate metrics) => (s, .broadcastedTraining metrics)
  | .aggregate (.error (.connection _)) => (s, .aggregateErrorRound (.idle ctx.shortIdle))
  | .aggregate (.error (.other _)) => (s, .aggregateErrorRound .terminate)
  | .aggregate .terminated => (s, ctx.aggregate .terminate)

end Arms

/-- The locals of a handler that starts at `t`: the parameter servers are those of the pool then. -/
def context (cfg : Settings) (s : SchedulerState PeerId T) (t : Instant) (now : SystemTime) (peerId : PeerId)
    (jobId : Uuid) : Context PeerId where
  peerId := peerId
  jobId := jobId
  now := now
  sinceStart := asMillis (t - cfg.start)
  parameterServers := s.parameterPool.info.1.info.2.map (·.peerId)

/-- Run a request to its first await point. -/
def start (cfg : Settings) (s : SchedulerState PeerId T) (t : Instant) (now : SystemTime)
    (request : PeerId × ActionRequest) : Context PeerId × SchedulerState PeerId T × Await PeerId :=
  let ctx := context cfg s t now request.1 request.2.jobId
  (ctx, enter ctx { s with parameterPool := s.parameterPool.info.1.info.1 } request.2.status)

/-- Resume a handler until it ends, at most `n` times; `clock` gives the time of each stretch. -/
def drive (cfg : Settings) (ctx : Context PeerId) (clock : Nat → Instant) :
    Nat → SchedulerState PeerId T × Await PeerId → SchedulerState PeerId T × Await PeerId
  | 0, r => r
  | n + 1, r => if r.2.isDone then r else drive cfg ctx clock n (resume cfg ctx r.1 (clock n) r.2)

/-- **`schedule`**, run alone. No arm has more than six await points (`schedule_isDone`). -/
def schedule (cfg : Settings) (s : SchedulerState PeerId T) (clock : Nat → Instant) (now : SystemTime)
    (request : PeerId × ActionRequest) : SchedulerState PeerId T × Await PeerId :=
  let (ctx, r) := start cfg s (clock 6) now request
  drive cfg ctx clock 6 r

/-- The response that is sent: `BatchScheduler::run` answers `Terminate` in place of an error. -/
def respond (cfg : Settings) : Await PeerId → ActionResponse PeerId
  | .done (.ok response) => response
  | _ => ⟨cfg.id, .train .terminate⟩

end Hypha.Scheduler
