import Hypha.Scheduler.Handler

/-!
# What one report does

`schedule` arm by arm, first as an equation (`schedule_idle`, `schedule_batchCompleted`, ..), then as its effect on
what the handlers read from each other.

* `Effect` : the round, the counter, the flags and the records after a report, and what did not change;
* `schedule_effect` : every report has that effect;
* `schedule_isDone` : every report is answered.
-/

namespace Hypha.Scheduler

open Hypha.Lib Hypha.Action

set_option linter.unusedSectionVars false

variable {PeerId T : Type} [LinearOrder PeerId] [RuntimeStatistic T]

/-! ## Running an arm to its end -/

/-- The state after the handler's first two lines: records of parameter servers that left are dropped. -/
def SchedulerState.aligned (s : SchedulerState PeerId T) : SchedulerState PeerId T :=
  { s with parameterPool := s.parameterPool.retain }

section Drive
variable (cfg : Settings) (ctx : Context PeerId) (s : SchedulerState PeerId T) (clock : Nat → Instant)

theorem drive_done (n : Nat) {r : SchedulerState PeerId T × Await PeerId} (h : r.2.isDone = true) :
    drive cfg ctx clock n r = r := by
  cases n with
  | zero => rfl
  | succ n => exact if_pos h

theorem drive_step (n : Nat) {r : SchedulerState PeerId T × Await PeerId} (h : r.2.isDone = false) :
    drive cfg ctx clock (n + 1) r = drive cfg ctx clock n (resume cfg ctx r.1 (clock n) r.2) := by
  rw [drive, h]
  rfl

/-- A stretch that ends the handler. -/
theorem drive_last (n : Nat) {r : SchedulerState PeerId T × Await PeerId} (h : r.2.isDone = false)
    (h' : (resume cfg ctx r.1 (clock n) r.2).2.isDone = true) :
    drive cfg ctx clock (n + 1) r = resume cfg ctx r.1 (clock n) r.2 := by
  rw [drive_step cfg ctx clock n h, drive_done cfg ctx clock n h']

theorem joinedRound_isDone : (joinedRound ctx s).2.isDone = true := by
  unfold joinedRound
  split_ifs <;> rfl

theorem waitedForModel_isDone : (waitedForModel ctx s).2.isDone = true := by
  unfold waitedForModel
  dsimp only
  split <;> rfl

theorem idleComplete_isDone : (idleComplete cfg ctx s).2.isDone = true := by
  unfold idleComplete
  dsimp only
  split_ifs <;> first | rfl | (split <;> rfl)

theorem appliedRound_isDone : (appliedRound ctx s).2.isDone = true := by
  unfold appliedRound
  dsimp only
  split_ifs
  · rfl
  · split <;> rfl

theorem aggregateIdleRound'_isDone (t : Instant) (workers : List PeerId) :
    (aggregateIdleRound' ctx s t workers).2.isDone = true := by
  unfold aggregateIdleRound'
  dsimp only
  split_ifs <;> rfl

theorem drive_aggregateIdle : drive cfg ctx clock 6 (s, .aggregateIdleRound) =
    let s' := { s with workerPool := s.workerPool.retain }
    let workers := (s.workerPool.retain.snapshot.filter (fun w => !w.state.waitingForModel)).map (·.peerId)
    if s.roundState.trainingComplete then
      (s', ctx.aggregate (if s.workerPool.retain.snapshot.all (·.state.appliedFinalUpdate) then .terminate
        else .idle ctx.shortIdle))
    else if some ctx.peerId ≠ ctx.primaryPs then (s, ctx.aggregate (.idle ctx.shortIdle))
    else if workers = [] then (s', ctx.aggregate (.idle ctx.shortIdle))
    else aggregateIdleRound' ctx s' (clock 4) workers := by
  refine (drive_step cfg ctx clock 5 rfl).trans ?_
  change drive cfg ctx clock 5 (aggregateIdleRound ctx s) = _
  unfold aggregateIdleRound
  dsimp only [PoolWithTrainInfo.info]
  by_cases hc : s.roundState.trainingComplete = true
  · rw [if_pos hc, if_pos hc]
    exact drive_done cfg ctx clock 5 rfl
  rw [if_neg hc, if_neg hc]
  by_cases hp : some ctx.peerId ≠ ctx.primaryPs
  · rw [if_pos hp, if_pos hp]
    exact drive_done cfg ctx clock 5 rfl
  rw [if_neg hp, if_neg hp]
  split_ifs with h h' h'
  · exact drive_done cfg ctx clock 5 rfl
  · exact absurd (List.isEmpty_iff.mp h) h'
  · exact absurd (List.isEmpty_iff.mpr h') h
  · exact drive_last cfg ctx clock 4 rfl (aggregateIdleRound'_isDone _ _ _ _)

end Drive

/-- Whether the primary parameter server has recorded an update of the peer. -/
def recorded (pool : PoolWithAggregateInfo PeerId) (p : PeerId) : Bool :=
  (pool.ids.head?.map (fun ps => decide (p ∈ pool.updatesOf ps))).getD false

theorem hasSentUpdate_retain (pool : PoolWithAggregateInfo PeerId) (p : PeerId) :
    hasSentUpdate pool.retain pool.ids.head? p = (pool.retain, recorded pool p) := by
  unfold hasSentUpdate recorded
  cases hps : pool.ids.head? with
  | none => rfl
  | some ps =>
    have hmem : ps ∈ pool.ids := List.mem_of_mem_head? hps
    have hfind := pool.retain.find_updates ps
    rw [PoolWithAggregateInfo.ids_retain, if_pos hmem, PoolWithAggregateInfo.updatesOf_retain, if_pos hmem] at hfind
    dsimp only [PoolWithAggregateInfo.info]
    rw [PoolWithAggregateInfo.retain_retain] at hfind ⊢
    obtain ⟨w, hw, hu⟩ := Option.map_eq_some_iff.mp hfind
    rw [hw]
    simp [hu]

/-- A write to the primary's record, as the handlers make it. -/
def writePrimary (pool : PoolWithAggregateInfo PeerId) (primaryPs : Option PeerId)
    (f : AggregateInfo PeerId → AggregateInfo PeerId) : PoolWithAggregateInfo PeerId :=
  match primaryPs with
  | none => pool
  | some ps => pool.updateState ps f

@[simp] theorem members_writePrimary (pool : PoolWithAggregateInfo PeerId) (primaryPs : Option PeerId)
    (f : AggregateInfo PeerId → AggregateInfo PeerId) : (writePrimary pool primaryPs f).members = pool.members := by
  cases primaryPs <;> rfl

theorem updatesOf_writePrimary (pool : PoolWithAggregateInfo PeerId) (q : PeerId)
    (f : AggregateInfo PeerId → AggregateInfo PeerId) :
    (writePrimary pool.retain pool.ids.head? f).updatesOf q =
      if q ∈ pool.ids then
        if pool.ids.head? = some q then (f ⟨pool.updatesOf q⟩).workerUpdates else pool.updatesOf q
      else ∅ := by
  cases hps : pool.ids.head? with
  | none =>
    have hids : pool.ids = [] := List.head?_eq_none_iff.mp hps
    simp [writePrimary, PoolWithAggregateInfo.updatesOf_retain, hids]
  | some ps =>
    have hmem : ps ∈ pool.ids := List.mem_of_mem_head? hps
    have hentry : (pool.retain.entries ps).getD {} = ⟨pool.updatesOf ps⟩ := by
      have h := pool.updatesOf_retain ps
      rw [if_pos hmem] at h
      rw [← h]
      rfl
    simp only [writePrimary, PoolWithAggregateInfo.updatesOf_updateState, PoolWithAggregateInfo.updatesOf_retain,
      hentry, Option.some.injEq, eq_comm (a := ps)]
    by_cases hq : q = ps
    · subst hq
      simp [hmem]
    · simp [hq]

theorem hasSentUpdate_fst (pool : PoolWithAggregateInfo PeerId) (primaryPs : Option PeerId) (p : PeerId) :
    (hasSentUpdate pool primaryPs p).1 = pool ∨ (hasSentUpdate pool primaryPs p).1 = pool.retain := by
  cases primaryPs
  · exact Or.inl rfl
  · exact Or.inr rfl

section Arms
variable (cfg : Settings) (s : SchedulerState PeerId T) (clock : Nat → Instant) (now : SystemTime) (p : PeerId)
  (j : Uuid)

@[simp] theorem context_parameterServers (t : Instant) :
    (context cfg s t now p j).parameterServers = s.parameterPool.ids :=
  PoolWithAggregateInfo.ids_snapshot _

@[simp] theorem context_primaryPs (t : Instant) :
    (context cfg s t now p j).primaryPs = s.parameterPool.ids.head? :=
  congrArg List.head? (context_parameterServers cfg s now p j t)

@[simp] theorem context_peerId (t : Instant) : (context cfg s t now p j).peerId = p := rfl

theorem schedule_eq (status : ExecutorStatus) :
    schedule cfg s clock now (p, ⟨j, status⟩) =
      drive cfg (context cfg s (clock 6) now p j) clock 6
        (enter (context cfg s (clock 6) now p j) s.aligned status) := by
  unfold schedule start
  dsimp only [PoolWithAggregateInfo.info]
  rw [PoolWithAggregateInfo.retain_retain]
  rfl

theorem schedule_joined : schedule cfg s clock now (p, ⟨j, .train .joined⟩) =
    joinedRound (context cfg s (clock 6) now p j) s.aligned := by
  rw [schedule_eq]
  exact drive_last cfg _ clock 5 rfl (joinedRound_isDone _ _)

theorem schedule_waitedForModel : schedule cfg s clock now (p, ⟨j, .train .waitedForModel⟩) =
    waitedForModel (context cfg s (clock 6) now p j) s.aligned := by
  rw [schedule_eq]
  exact drive_done cfg _ clock 6 (waitedForModel_isDone _ _)

/-- `Idle`: the completion phase, or the training state is read with the worker pool's snapshot at hand. -/
theorem schedule_idle : schedule cfg s clock now (p, ⟨j, .train .idle⟩) =
    if s.roundState.trainingComplete then idleComplete cfg (context cfg s (clock 6) now p j) s.aligned
    else idleTraining cfg (context cfg s (clock 6) now p j)
      { s.aligned with workerPool := s.workerPool.retain } s.workerPool.retain.snapshot := by
  rw [schedule_eq]
  split_ifs with h
  · have hr : idleRound cfg (context cfg s (clock 6) now p j) s.aligned =
        idleComplete cfg (context cfg s (clock 6) now p j) s.aligned := by
      unfold idleRound
      rw [if_neg (by simpa [SchedulerState.aligned] using h)]
    exact (drive_last cfg _ clock 5 rfl ((congrArg (·.2.isDone) hr).trans (idleComplete_isDone cfg _ _))).trans hr
  · have hr : idleRound cfg (context cfg s (clock 6) now p j) s.aligned =
        ({ s.aligned with workerPool := s.workerPool.retain }, .idleTraining s.workerPool.retain.snapshot) := by
      unfold idleRound
      rw [if_pos (by simpa [SchedulerState.aligned] using h)]
      rfl
    refine (drive_step cfg _ clock 5 rfl).trans ?_
    change drive cfg _ clock 5 (idleRound cfg _ s.aligned) = _
    rw [hr]
    exact drive_last cfg _ clock 4 rfl rfl

/-- The pool that a completed batch is recorded in: the reporter's statistic is updated. -/
def batchPool (batches : Nat) : PoolWithTrainInfo PeerId T :=
  (s.workerPool.updateStatistics p fun (stats, lastUpdated) =>
    let sinceStart := (context cfg s (clock 6) now p j).sinceStart
    (if lastUpdated > 0 then RuntimeStatistic.update stats (sinceStart - lastUpdated) batches else stats,
      sinceStart)).retain

/-- The state in which a completed batch has been recorded. -/
def batchRecorded (batchSize batches : Nat) : SchedulerState PeerId T :=
  { s.aligned with
    workerPool := (batchPool cfg s clock now p j batches).updateState p fun st =>
      { st with samplesProcessed := saturatingAdd st.samplesProcessed (wrappingMul batchSize batches) }
    trainingState := s.trainingState.recordBatch (wrappingMul batchSize batches) }

/-- The contribution of the reporter of a completed batch. -/
def batchContribution (batchSize batches : Nat) : Nat :=
  (((batchPool cfg s clock now p j batches).snapshot.find? (fun w => w.peerId = p)).map
    (fun w => saturatingAdd w.state.samplesProcessed batchSize)).getD batchSize

theorem schedule_batchCompleted (batchSize batches : Nat) :
    schedule cfg s clock now (p, ⟨j, .train (.batchCompleted batchSize batches)⟩) =
      batchRound cfg (context cfg s (clock 6) now p j) (batchRecorded cfg s clock now p j batchSize batches)
        (batchPool cfg s clock now p j batches).snapshot
        (s.trainingState.recordBatch (wrappingMul batchSize batches)).getCount s.trainingState.getUpdateTarget
        (batchContribution cfg s clock now p j batchSize batches) := by
  rw [schedule_eq]
  rfl

/-- `SentUpdate`: the metrics are sent, the update is recorded with the primary, the first one is timed. -/
theorem schedule_sentUpdate (round : Nat) (metrics : MetricMap) :
    schedule cfg s clock now (p, ⟨j, .train (.sentUpdate round metrics)⟩) =
      let ctx := context cfg s (clock 6) now p j
      let message := roundMetrics s.roundState (clock 5) metrics
        (((s.workerPool.retain.snapshot.find? (fun w => w.peerId = p)).map (·.state.samplesProcessed)).getD 0)
      if s.receiving then
        sentRound' ctx
          { s.aligned with
            workerPool := s.workerPool.retain.retain
            sent := (p, message) :: s.sent
            parameterPool := writePrimary s.parameterPool.retain s.parameterPool.ids.head? fun info =>
              { info with workerUpdates := insert p info.workerUpdates } } (clock 3)
      else ({ s.aligned with workerPool := s.workerPool.retain }, .done (.error (.sendMetricsError (p, message)))) := by
  rw [schedule_eq, ← context_primaryPs cfg s now p j (clock 6)]
  obtain ⟨workerPool, parameterPool, roundState, trainingState, sent, receiving, cancelled⟩ := s
  cases receiving <;> rfl

theorem schedule_appliedUpdate : schedule cfg s clock now (p, ⟨j, .train .appliedUpdate⟩) =
    let ctx := context cfg s (clock 6) now p j
    appliedRound ctx
      { s.aligned with
        workerPool := (s.workerPool.updateState p fun st => { st with appliedUpdate := true }).updateStatistics p
          fun (stats, _) => (stats, ctx.sinceStart) } := by
  rw [schedule_eq]
  exact drive_last cfg _ clock 5 rfl (appliedRound_isDone _ _)

theorem schedule_pushedToHub : schedule cfg s clock now (p, ⟨j, .train .pushedToHub⟩) =
    let ctx := context cfg s (clock 6) now p j
    let s' := { s.aligned with workerPool := s.workerPool.retain }
    (if (((s.workerPool.retain.snapshot.find? (fun w => w.peerId = p)).map (·.state.isPusher)).getD false) then
      { s' with roundState := { s.roundState with pushDone := true } } else s', ctx.train .terminate) := by
  rw [schedule_eq]
  dsimp only [enter, pushedToHub, PoolWithTrainInfo.info, context_peerId]
  change drive _ _ _ _ (_, if ((((s.workerPool.retain.snapshot.find? (fun w => w.peerId = p)).map
    (·.state.isPusher)).getD false)) = true then _ else _) = _
  split_ifs
  · rfl
  · rfl

/-- A parameter server's `Idle`. -/
theorem schedule_aggregateIdle : schedule cfg s clock now (p, ⟨j, .aggregate .idle⟩) =
    let ctx := context cfg s (clock 6) now p j
    let s' := { s.aligned with workerPool := s.workerPool.retain }
    let workers := (s.workerPool.retain.snapshot.filter (fun w => !w.state.waitingForModel)).map (·.peerId)
    if s.roundState.trainingComplete then
      (s', ctx.aggregate (if s.workerPool.retain.snapshot.all (·.state.appliedFinalUpdate) then .terminate
        else .idle ctx.shortIdle))
    else if some p ≠ s.parameterPool.ids.head? then (s.aligned, ctx.aggregate (.idle ctx.shortIdle))
    else if workers = [] then (s', ctx.aggregate (.idle ctx.shortIdle))
    else aggregateIdleRound' ctx s' (clock 4) workers := by
  rw [schedule_eq, ← context_primaryPs cfg s now p j (clock 6)]
  exact drive_aggregateIdle cfg _ s.aligned clock

theorem schedule_aggregatedUpdates (metrics : Option MetricMap) :
    schedule cfg s clock now (p, ⟨j, .aggregate (.aggregatedUpdates metrics)⟩) =
      let ctx := context cfg s (clock 6) now p j
      let s' := { s.aligned with workerPool := s.workerPool.retain }
      if some p ≠ s.parameterPool.ids.head? then (s.aligned, ctx.aggregate (.idle ctx.psBroadcastIdle))
      else if s.workerPool.ids = [] then (s', ctx.aggregate (.idle ctx.shortIdle))
      else aggregatedRound ctx s' s.workerPool.ids := by
  rw [schedule_eq]
  dsimp only [enter]
  unfold aggregatedUpdates
  rw [context_primaryPs, context_peerId]
  dsimp only [PoolWithTrainInfo.info]
  rw [show (s.aligned.workerPool.retain.snapshot.map (·.peerId)) = s.workerPool.ids from
    PoolWithTrainInfo.ids_snapshot _]
  split_ifs with h h' h'' h''
  · exact drive_done cfg _ clock 6 rfl
  · exact drive_done cfg _ clock 6 rfl
  · simp_all
  · simp_all
  · exact drive_last cfg _ clock 5 rfl rfl

/-- `BroadcastedUpdate`: the metrics are sent, then the round advances. -/
theorem schedule_broadcastedUpdate (metrics : Option MetricMap) :
    schedule cfg s clock now (p, ⟨j, .aggregate (.broadcastedUpdate metrics)⟩) =
      let ctx := context cfg s (clock 6) now p j
      let message := roundMetrics s.roundState (clock 4) (metrics.getD []) s.trainingState.getCount
      if s.receiving then
        broadcastedRound'' ctx
          (broadcastedTraining' (broadcastedRound' ctx { s.aligned with sent := (p, message) :: s.sent } (clock 2)).1).1
      else (s.aligned, .done (.error (.sendMetricsError (p, message)))) := by
  rw [schedule_eq]
  obtain ⟨workerPool, parameterPool, roundState, trainingState, sent, receiving, cancelled⟩ := s
  cases receiving <;> rfl

theorem schedule_isDone (status : ExecutorStatus) :
    (schedule cfg s clock now (p, ⟨j, status⟩)).2.isDone = true := by
  match status with
  | .train .joined => rw [schedule_joined]; exact joinedRound_isDone _ _
  | .train .waitedForModel => rw [schedule_waitedForModel]; exact waitedForModel_isDone _ _
  | .train .idle =>
    rw [schedule_idle]
    split_ifs
    · exact idleComplete_isDone _ _ _
    · rfl
  | .train (.batchCompleted _ _) => rw [schedule_batchCompleted]; rfl
  | .train (.sentUpdate _ _) =>
    rw [schedule_sentUpdate]
    dsimp only
    split_ifs <;> rfl
  | .train .appliedUpdate => rw [schedule_appliedUpdate]; exact appliedRound_isDone _ _
  | .train .pushedToHub => rw [schedule_pushedToHub]; rfl
  | .train .receivedModel | .train .sentModel | .train .terminated | .train (.error (.connection _))
  | .train (.error (.other _)) => rw [schedule_eq]; rfl
  | .aggregate .idle =>
    rw [schedule_aggregateIdle]
    dsimp only
    split_ifs <;> first | rfl | exact aggregateIdleRound'_isDone _ _ _ _
  | .aggregate (.aggregatedUpdates _) =>
    rw [schedule_aggregatedUpdates]
    dsimp only
    split_ifs <;> rfl
  | .aggregate (.broadcastedUpdate _) =>
    rw [schedule_broadcastedUpdate]
    dsimp only
    split_ifs <;> rfl
  | .aggregate .terminated | .aggregate (.error (.connection _)) | .aggregate (.error (.other _)) =>
    rw [schedule_eq]; rfl

end Arms

/-! ## Changes of the worker pool -/

/-- What a worker's later answers depend on. -/
structure Standing where
  appliedUpdate : Bool := false
  appliedFinalUpdate : Bool := false
  samplesProcessed : Nat := 0

/-- The standing a worker state gives. -/
def standingOf (st : WorkerState PeerId) : Standing where
  appliedUpdate := st.appliedUpdate
  appliedFinalUpdate := st.appliedFinalUpdate
  samplesProcessed := st.samplesProcessed

/-- The standing of a peer. -/
def standing (pool : PoolWithTrainInfo PeerId T) (q : PeerId) : Standing := standingOf (pool.stateOf q)

/-- `pool'` has the members of `pool`, whose standings `f` has changed; the standing of another peer may also have
been dropped, before or after `f`. -/
structure Follows (f : PeerId → Standing → Standing) (pool pool' : PoolWithTrainInfo PeerId T) : Prop where
  members : pool'.members = pool.members
  standing : ∀ q, standing pool' q = f q (standing pool q) ∨
    q ∉ pool.ids ∧ (standing pool' q = f q {} ∨ standing pool' q = {})

/-- Change the standing of one peer. -/
def changeAt (p : PeerId) (f : Standing → Standing) (q : PeerId) (st : Standing) : Standing :=
  if q = p then f st else st

namespace Follows

variable {f : PeerId → Standing → Standing} {pool pool' : PoolWithTrainInfo PeerId T}

theorem refl (pool : PoolWithTrainInfo PeerId T) : Follows (fun _ st => st) pool pool :=
  ⟨rfl, fun _ => Or.inl rfl⟩

theorem ids (h : Follows f pool pool') : pool'.ids = pool.ids := by
  rw [PoolWithTrainInfo.ids, h.members, PoolWithTrainInfo.ids]

theorem of_mem (h : Follows f pool pool') {q : PeerId} (hq : q ∈ pool.ids) :
    Scheduler.standing pool' q = f q (Scheduler.standing pool q) :=
  (h.standing q).resolve_right fun h' => h'.1 hq

theorem retain (h : Follows f pool pool') : Follows f pool pool'.retain := by
  refine ⟨h.members, fun q => ?_⟩
  unfold Scheduler.standing
  rw [PoolWithTrainInfo.stateOf_retain, h.ids]
  split_ifs with hq
  · exact Or.inl (h.of_mem hq)
  · exact Or.inr ⟨hq, Or.inr rfl⟩

theorem updateStatistics (h : Follows f pool pool') (p : PeerId) (g : T × Nat → T × Nat) :
    Follows f pool (pool'.updateStatistics p g) := by
  refine ⟨h.members, fun q => ?_⟩
  simpa only [Scheduler.standing, PoolWithTrainInfo.stateOf_updateStatistics] using h.standing q

/-- A write to fields outside the standing. -/
theorem updateState (h : Follows f pool pool') (p : PeerId) {g : WorkerState PeerId → WorkerState PeerId}
    (hg : ∀ st, standingOf (g st) = standingOf st) : Follows f pool (pool'.updateState p g) := by
  refine ⟨h.members, fun q => ?_⟩
  have hq : Scheduler.standing (pool'.updateState p g) q = Scheduler.standing pool' q := by
    unfold Scheduler.standing
    rw [PoolWithTrainInfo.stateOf_updateState]
    split_ifs with hp
    · subst hp
      exact hg _
    · rfl
  rw [hq]
  exact h.standing q

/-- A write to the standing of one peer. -/
theorem changeAt (h : Follows (fun _ st => st) pool pool') (p : PeerId)
    {g : WorkerState PeerId → WorkerState PeerId} {k : Standing → Standing}
    (hg : ∀ st, standingOf (g st) = k (standingOf st)) :
    Follows (changeAt p k) pool (pool'.updateState p g) := by
  refine ⟨h.members, fun q => ?_⟩
  by_cases hp : q = p
  · subst hp
    have hq : Scheduler.standing (pool'.updateState q g) q = k (Scheduler.standing pool' q) := by
      unfold Scheduler.standing
      rw [PoolWithTrainInfo.stateOf_updateState, if_pos rfl, hg]
    simp only [Scheduler.changeAt, if_true, hq]
    rcases h.standing q with h' | ⟨hm, h' | h'⟩
    · exact Or.inl (by rw [h'])
    · exact Or.inr ⟨hm, Or.inl (by rw [h'])⟩
    · exact Or.inr ⟨hm, Or.inl (by rw [h'])⟩
  · have hq : Scheduler.standing (pool'.updateState p g) q = Scheduler.standing pool' q := by
      unfold Scheduler.standing
      rw [PoolWithTrainInfo.stateOf_updateState, if_neg hp]
    simp only [Scheduler.changeAt, if_neg hp, hq]
    exact h.standing q

/-- A reset of every member. -/
theorem updateStates (h : Follows (fun _ st => st) pool pool'.retain)
    {g : WorkerState PeerId → WorkerState PeerId} (hgg : ∀ st, g (g st) = g st) {k : Standing → Standing}
    (hg : ∀ st, standingOf (g st) = k (standingOf st)) :
    Follows (fun _ => k) pool (pool'.retain.updateStates pool'.retain.snapshot g) := by
  refine ⟨(PoolWithTrainInfo.members_updateStates ..).trans h.members, fun q => ?_⟩
  unfold Scheduler.standing
  rw [PoolWithTrainInfo.stateOf_updateStates hgg, PoolWithTrainInfo.ids_snapshot, h.ids]
  split_ifs with hq
  · left
    rw [hg]
    exact congrArg k (h.of_mem hq)
  · refine Or.inr ⟨hq, Or.inr ?_⟩
    rw [PoolWithTrainInfo.stateOf_retain, ← PoolWithTrainInfo.ids_retain, h.ids, if_neg hq]
    rfl

/-- Such a reset drops the standings of the peers that are not members. -/
theorem updateStates_dropped (pool : PoolWithTrainInfo PeerId T) {g : WorkerState PeerId → WorkerState PeerId}
    (hgg : ∀ st, g (g st) = g st) {q : PeerId} (hq : q ∉ pool.ids) :
    Scheduler.standing (pool.retain.updateStates pool.retain.snapshot g) q = {} := by
  unfold Scheduler.standing
  rw [PoolWithTrainInfo.stateOf_updateStates hgg, PoolWithTrainInfo.ids_snapshot, PoolWithTrainInfo.ids_retain,
    if_neg hq, PoolWithTrainInfo.stateOf_retain, if_neg hq]
  rfl

end Follows

/-! ## The effect of a report -/

/-- Whether a report makes the round advance: `BroadcastedUpdate`, once its metrics could be sent. -/
def advances (s : SchedulerState PeerId T) : ExecutorStatus → Bool
  | .aggregate (.broadcastedUpdate _) => s.receiving
  | _ => false

/-- Whether a report announces an aggregate: the primary's `AggregatedUpdates`, if there is a worker to take it. -/
def announces (s : SchedulerState PeerId T) (p : PeerId) : ExecutorStatus → Bool
  | .aggregate (.aggregatedUpdates _) => decide (some p = s.parameterPool.ids.head?) && !s.workerPool.ids.isEmpty
  | _ => false

/-- Whether a report calls the announced aggregate off. -/
def callsOff : ExecutorStatus → Bool
  | .aggregate (.error _) => true
  | _ => false

/-- Whether a report records an update: `SentUpdate`, once its metrics could be sent. -/
def records (s : SchedulerState PeerId T) : ExecutorStatus → Bool
  | .train (.sentUpdate _ _) => s.receiving
  | _ => false

/-- Whether a report says that an aggregate was applied. -/
def applies : ExecutorStatus → Bool
  | .train .appliedUpdate => true
  | _ => false

/-- A counter of samples after a report. -/
def counted : ExecutorStatus → Nat → Nat
  | .train (.batchCompleted batchSize batches), c => saturatingAdd c (wrappingMul batchSize batches)
  | _, c => c

/-- What a report of `p` does to the standing of `q`. -/
def standingAfter (s : SchedulerState PeerId T) (p : PeerId) (status : ExecutorStatus) (q : PeerId) (st : Standing) :
    Standing where
  appliedUpdate := !announces s p status && (st.appliedUpdate || decide (q = p) && applies status)
  appliedFinalUpdate :=
    st.appliedFinalUpdate || decide (q = p) && applies status && s.roundState.trainingComplete
  samplesProcessed := if advances s status then 0 else if q = p then counted status st.samplesProcessed
    else st.samplesProcessed

/-- What a report of `p` does to the updates recorded with the member `q` of the parameter pool. -/
def updatesAfter (s : SchedulerState PeerId T) (p : PeerId) (status : ExecutorStatus) (q : PeerId) : Finset PeerId :=
  if s.parameterPool.ids.head? = some q then
    if advances s status then ∅
    else if records s status then insert p (s.parameterPool.updatesOf q) else s.parameterPool.updatesOf q
  else s.parameterPool.updatesOf q

/-- **What a report of `p` does** to what the handlers read from each other. -/
structure Effect (s s' : SchedulerState PeerId T) (p : PeerId) (status : ExecutorStatus) : Prop where
  servers : s'.parameterPool.members = s.parameterPool.members
  receiving : s'.receiving = s.receiving
  updateTarget : s'.trainingState.updateTarget = s.trainingState.updateTarget
  updateRounds : s'.roundState.updateRounds = s.roundState.updateRounds
  minQuorum : s'.roundState.minQuorum = s.roundState.minQuorum
  grace : s'.roundState.grace = s.roundState.grace
  round : s'.roundState.round =
    if advances s status then saturatingAdd s.roundState.round 1 else s.roundState.round
  trainingComplete : s'.roundState.trainingComplete = (s.roundState.trainingComplete ||
    advances s status && decide (s.roundState.updateRounds ≤ saturatingAdd s.roundState.round 1))
  counter : s'.trainingState.counter = if advances s status then 0 else counted status s.trainingState.counter
  aggregatedUpdates : s'.roundState.aggregatedUpdates = (announces s p status ||
    !callsOff status && (!advances s status || s'.roundState.trainingComplete) && s.roundState.aggregatedUpdates)
  firstUpdateAt : s'.roundState.firstUpdateAt.isSome =
    (!advances s status && (records s status || s.roundState.firstUpdateAt.isSome))
  workerPool : Follows (standingAfter s p status) s.workerPool s'.workerPool
  dropped : (advances s status || announces s p status) = true → ∀ q ∉ s.workerPool.ids, standing s'.workerPool q = {}
  updatesOf : ∀ q, s'.parameterPool.updatesOf q =
    if q ∈ s.parameterPool.ids then updatesAfter s p status q else ∅

theorem advances_congr {s s' : SchedulerState PeerId T} (h : s'.receiving = s.receiving) (status : ExecutorStatus) :
    advances s' status = advances s status := by
  unfold advances
  split
  · exact h
  · rfl

theorem records_congr {s s' : SchedulerState PeerId T} (h : s'.receiving = s.receiving) (status : ExecutorStatus) :
    records s' status = records s status := by
  unfold records
  split
  · exact h
  · rfl

/-- A report that changes nothing but the times, the push and the entries of peers that left. -/
theorem Effect.of_quiet {s s' : SchedulerState PeerId T} {p : PeerId} {status : ExecutorStatus}
    (hadv : advances s status = false) (hann : announces s p status = false) (hoff : callsOff status = false)
    (hrec : records s status = false) (happ : applies status = false) (hcnt : counted status = id)
    (hround : ∃ a b, s'.roundState = { s.roundState with aggregateStartedAt := a, pushDone := b })
    (htraining : s'.trainingState = s.trainingState) (hservers : s'.parameterPool = s.parameterPool.retain)
    (hreceiving : s'.receiving = s.receiving) (hworkers : Follows (fun _ st => st) s.workerPool s'.workerPool) :
    Effect s s' p status := by
  obtain ⟨a, b, hround⟩ := hround
  have hst : standingAfter s p status = fun _ st => st := by
    funext q st
    simp [standingAfter, hadv, hann, happ, hcnt]
  constructor
  · rw [hservers, PoolWithAggregateInfo.members_retain]
  · exact hreceiving
  · rw [htraining]
  · rw [hround]
  · rw [hround]
  · rw [hround]
  · rw [hround, hadv]; rfl
  · rw [hround, hadv]; simp
  · rw [htraining, hadv, hcnt]; rfl
  · rw [hround, hadv, hann, hoff]; simp
  · rw [hround, hadv, hrec]; simp
  · rw [hst]; exact hworkers
  · rw [hadv, hann]
    exact fun h => absurd h (by decide)
  · intro q
    rw [hservers, PoolWithAggregateInfo.updatesOf_retain]
    simp [updatesAfter, hadv, hrec]

theorem Effect.serverIds {s s' : SchedulerState PeerId T} {p : PeerId} {status : ExecutorStatus}
    (h : Effect s s' p status) : s'.parameterPool.ids = s.parameterPool.ids := by
  rw [PoolWithAggregateInfo.ids, h.servers, PoolWithAggregateInfo.ids]

section Effects
variable (cfg : Settings) (s : SchedulerState PeerId T) (clock : Nat → Instant) (now : SystemTime) (p : PeerId)
  (j : Uuid)

theorem effect_joined :
    Effect s (schedule cfg s clock now (p, ⟨j, .train .joined⟩)).1 p (.train .joined) := by
  rw [schedule_joined]
  unfold joinedRound
  split_ifs
  · exact .of_quiet rfl rfl rfl rfl rfl rfl ⟨_, _, rfl⟩ rfl rfl rfl (.refl _)
  · refine .of_quiet rfl rfl rfl rfl rfl rfl ⟨_, _, rfl⟩ rfl rfl rfl ?_
    dsimp only
    exact (Follows.refl s.workerPool).updateState p (by exact fun _ => rfl)

theorem effect_waitedForModel :
    Effect s (schedule cfg s clock now (p, ⟨j, .train .waitedForModel⟩)).1 p (.train .waitedForModel) := by
  rw [schedule_waitedForModel]
  unfold waitedForModel
  dsimp only
  split
  · refine .of_quiet rfl rfl rfl rfl rfl rfl ⟨_, _, rfl⟩ rfl rfl rfl ?_
    dsimp only
    exact (Follows.refl s.workerPool).retain.updateState p (by exact fun _ => rfl)
  · exact .of_quiet rfl rfl rfl rfl rfl rfl ⟨_, _, rfl⟩ rfl rfl rfl (Follows.refl s.workerPool).retain

theorem effect_idle : Effect s (schedule cfg s clock now (p, ⟨j, .train .idle⟩)).1 p (.train .idle) := by
  rw [schedule_idle]
  split_ifs
  · unfold idleComplete
    dsimp only
    split_ifs
    · exact .of_quiet rfl rfl rfl rfl rfl rfl ⟨_, _, rfl⟩ rfl rfl rfl (.refl _)
    · exact .of_quiet rfl rfl rfl rfl rfl rfl ⟨_, _, rfl⟩ rfl rfl rfl (Follows.refl s.workerPool).retain
    · split
      · refine .of_quiet rfl rfl rfl rfl rfl rfl ⟨_, _, rfl⟩ rfl rfl rfl ?_
        dsimp only
        exact (Follows.refl s.workerPool).retain.updateState p (by exact fun _ => rfl)
      · refine .of_quiet rfl rfl rfl rfl rfl rfl ⟨_, _, rfl⟩ rfl rfl rfl ?_
        dsimp only
        exact (Follows.refl s.workerPool).retain.updateState p (by exact fun _ => rfl)
    · exact .of_quiet rfl rfl rfl rfl rfl rfl ⟨_, _, rfl⟩ rfl rfl rfl (Follows.refl s.workerPool).retain
  · refine .of_quiet rfl rfl rfl rfl rfl rfl ⟨_, _, rfl⟩ rfl ?_ rfl (Follows.refl s.workerPool).retain
    exact congrArg Prod.fst ((congrArg (hasSentUpdate _ · p) (context_primaryPs ..)).trans
      (hasSentUpdate_retain s.parameterPool p))

theorem effect_pushedToHub :
    Effect s (schedule cfg s clock now (p, ⟨j, .train .pushedToHub⟩)).1 p (.train .pushedToHub) := by
  rw [schedule_pushedToHub]
  dsimp only
  split_ifs <;> exact .of_quiet rfl rfl rfl rfl rfl rfl ⟨_, _, rfl⟩ rfl rfl rfl (Follows.refl s.workerPool).retain

theorem effect_aggregateIdle :
    Effect s (schedule cfg s clock now (p, ⟨j, .aggregate .idle⟩)).1 p (.aggregate .idle) := by
  rw [schedule_aggregateIdle]
  dsimp only
  split_ifs
  · exact .of_quiet rfl rfl rfl rfl rfl rfl ⟨_, _, rfl⟩ rfl rfl rfl (Follows.refl s.workerPool).retain
  · exact .of_quiet rfl rfl rfl rfl rfl rfl ⟨_, _, rfl⟩ rfl rfl rfl (Follows.refl s.workerPool).retain
  · exact .of_quiet rfl rfl rfl rfl rfl rfl ⟨_, _, rfl⟩ rfl rfl rfl (.refl _)
  · exact .of_quiet rfl rfl rfl rfl rfl rfl ⟨_, _, rfl⟩ rfl rfl rfl (Follows.refl s.workerPool).retain
  · unfold aggregateIdleRound'
    dsimp only
    split_ifs <;>
      exact .of_quiet rfl rfl rfl rfl rfl rfl ⟨_, _, rfl⟩ rfl (PoolWithAggregateInfo.retain_retain _) rfl
        (Follows.refl s.workerPool).retain

theorem effect_trainError (err : TrainError) :
    Effect s (schedule cfg s clock now (p, ⟨j, .train (.error err)⟩)).1 p (.train (.error err)) := by
  have hworkers : Follows (fun _ st => st) s.workerPool
      (s.workerPool.updateState p fun st => { st with isPusher := false }) :=
    (Follows.refl s.workerPool).updateState p (by exact fun _ => rfl)
  rw [schedule_eq]
  cases err <;> exact .of_quiet rfl rfl rfl rfl rfl rfl ⟨_, _, rfl⟩ rfl rfl rfl hworkers

theorem batchRound_parameterPool (batchSize batches : Nat) (snapshot : List (WorkerDescriptorWithInfo PeerId))
    (count updateTarget contribution : Nat) :
    (batchRound cfg (context cfg s (clock 6) now p j) (batchRecorded cfg s clock now p j batchSize batches) snapshot
      count updateTarget contribution).1.parameterPool = s.parameterPool.retain :=
  congrArg Prod.fst ((congrArg (hasSentUpdate _ · p) (context_primaryPs ..)).trans
    (hasSentUpdate_retain s.parameterPool p))

theorem effect_batchCompleted (batchSize batches : Nat) :
    Effect s (schedule cfg s clock now (p, ⟨j, .train (.batchCompleted batchSize batches)⟩)).1 p
      (.train (.batchCompleted batchSize batches)) := by
  have hworkers : Follows
      (changeAt p fun st =>
        { st with samplesProcessed := saturatingAdd st.samplesProcessed (wrappingMul batchSize batches) })
      s.workerPool (batchRecorded cfg s clock now p j batchSize batches).workerPool := by
    unfold batchRecorded batchPool
    dsimp only
    exact ((Follows.refl s.workerPool).updateStatistics p _).retain.changeAt p (by exact fun _ => rfl)
  have hst : standingAfter s p (.train (.batchCompleted batchSize batches)) = changeAt p fun st =>
      { st with samplesProcessed := saturatingAdd st.samplesProcessed (wrappingMul batchSize batches) } := by
    funext q st
    by_cases hq : q = p <;> simp [standingAfter, changeAt, advances, announces, applies, counted, hq]
  rw [schedule_batchCompleted]
  constructor
  case servers => rw [batchRound_parameterPool, PoolWithAggregateInfo.members_retain]
  case workerPool =>
    rw [hst]
    exact hworkers
  case updatesOf =>
    intro q
    rw [batchRound_parameterPool, PoolWithAggregateInfo.updatesOf_retain]
    simp [updatesAfter, advances, records]
  all_goals simp [batchRound, batchRecorded, SchedulerState.aligned, TrainingState.recordBatch, advances, announces,
    callsOff, records, counted]

theorem effect_appliedUpdate :
    Effect s (schedule cfg s clock now (p, ⟨j, .train .appliedUpdate⟩)).1 p (.train .appliedUpdate) := by
  rw [schedule_appliedUpdate]
  unfold appliedRound
  dsimp only
  -- the first write, whatever follows it
  have happlied : Follows (changeAt p fun st => { st with appliedUpdate := true }) s.workerPool
      ((s.workerPool.updateState p fun st => { st with appliedUpdate := true }).updateStatistics p
        fun (stats, _) => (stats, (context cfg s (clock 6) now p j).sinceStart)) :=
    Follows.updateStatistics ((Follows.refl s.workerPool).changeAt p (by exact fun _ => rfl)) p _
  have hupdates : ∀ q, s.aligned.parameterPool.updatesOf q =
      if q ∈ s.parameterPool.ids then updatesAfter s p (.train .appliedUpdate) q else ∅ := by
    intro q
    rw [SchedulerState.aligned, PoolWithAggregateInfo.updatesOf_retain]
    simp [updatesAfter, advances, records]
  by_cases hc : s.roundState.trainingComplete = true
  · rw [if_pos (by exact hc)]
    constructor
    case workerPool =>
      refine ⟨rfl, fun q => Or.inl ?_⟩
      by_cases hq : q = p <;>
        simp [standing, standingOf, standingAfter, PoolWithTrainInfo.stateOf_updateState, announces, advances,
          applies, counted, hq, hc]
    case updatesOf => exact hupdates
    all_goals simp [SchedulerState.aligned, advances, announces, callsOff, records, counted]
  · have hst : standingAfter s p (.train .appliedUpdate) = changeAt p fun st => { st with appliedUpdate := true } := by
      funext q st
      by_cases hq : q = p <;> simp [standingAfter, changeAt, advances, announces, applies, counted, hq, hc]
    rw [if_neg (by exact hc)]
    split
    · constructor
      case workerPool =>
        rw [hst]
        dsimp only
        exact happlied.retain.updateState _ (by exact fun _ => rfl)
      case updatesOf => exact hupdates
      all_goals simp [SchedulerState.aligned, advances, announces, callsOff, records, counted]
    · constructor
      case workerPool =>
        rw [hst]
        exact happlied.retain
      case updatesOf => exact hupdates
      all_goals simp [SchedulerState.aligned, advances, announces, callsOff, records, counted]

theorem effect_sentUpdate (round : Nat) (metrics : MetricMap) :
    Effect s (schedule cfg s clock now (p, ⟨j, .train (.sentUpdate round metrics)⟩)).1 p
      (.train (.sentUpdate round metrics)) := by
  have hst : standingAfter s p (.train (.sentUpdate round metrics)) = fun _ st => st := by
    funext q st
    simp [standingAfter, advances, announces, applies, counted]
  rw [schedule_sentUpdate]
  dsimp only
  by_cases hr : s.receiving = true
  · rw [if_pos hr]
    generalize hpool : writePrimary s.parameterPool.retain s.parameterPool.ids.head? (fun info =>
        { info with workerUpdates := insert p info.workerUpdates }) = pool
    have hmembers : pool.members = s.parameterPool.members := by
      rw [← hpool, members_writePrimary, PoolWithAggregateInfo.members_retain]
    have hupdates : ∀ q, pool.updatesOf q =
        if q ∈ s.parameterPool.ids then updatesAfter s p (.train (.sentUpdate round metrics)) q else ∅ := by
      intro q
      rw [← hpool, updatesOf_writePrimary]
      simp [updatesAfter, advances, records, hr]
    have hretain : ∀ q, pool.retain.updatesOf q = pool.updatesOf q := by
      intro q
      rw [PoolWithAggregateInfo.updatesOf_retain, PoolWithAggregateInfo.ids, hmembers, ← PoolWithAggregateInfo.ids]
      split_ifs with hq
      · rfl
      · rw [hupdates, if_neg hq]
    generalize context cfg s (clock 6) now p j = ctx
    unfold sentRound'
    dsimp only
    have hfst := hasSentUpdate_fst pool ctx.primaryPs ctx.peerId
    generalize (hasSentUpdate pool ctx.primaryPs ctx.peerId).1 = pool' at hfst ⊢
    constructor
    case servers => rcases hfst with rfl | rfl <;> exact hmembers
    case workerPool =>
      rw [hst]
      exact (Follows.refl s.workerPool).retain.retain
    case updatesOf =>
      intro q
      rcases hfst with rfl | rfl
      · exact hupdates q
      · exact (hretain q).trans (hupdates q)
    all_goals
      cases hf : s.roundState.firstUpdateAt <;>
        simp [SchedulerState.aligned, advances, announces, callsOff, records, counted, hr, hf]
  · rw [if_neg hr]
    constructor
    case workerPool =>
      rw [hst]
      exact (Follows.refl s.workerPool).retain
    case updatesOf =>
      intro q
      rw [SchedulerState.aligned, PoolWithAggregateInfo.updatesOf_retain]
      simp [updatesAfter, advances, records, hr]
    all_goals simp [SchedulerState.aligned, advances, announces, callsOff, records, counted, hr]

theorem effect_aggregatedUpdates (metrics : Option MetricMap) :
    Effect s (schedule cfg s clock now (p, ⟨j, .aggregate (.aggregatedUpdates metrics)⟩)).1 p
      (.aggregate (.aggregatedUpdates metrics)) := by
  rw [schedule_aggregatedUpdates]
  dsimp only
  split_ifs with hp hw
  · exact .of_quiet rfl (by simp [announces, hp]) rfl rfl rfl rfl ⟨_, _, rfl⟩ rfl rfl rfl (.refl _)
  · exact .of_quiet rfl (by simp [announces, hw]) rfl rfl rfl rfl ⟨_, _, rfl⟩ rfl rfl rfl
      (Follows.refl s.workerPool).retain
  · have hann : announces s p (.aggregate (.aggregatedUpdates metrics)) = true := by
      simp [announces, not_not.mp hp, hw]
    have hst : standingAfter s p (.aggregate (.aggregatedUpdates metrics)) =
        fun _ st => { st with appliedUpdate := false } := by
      funext q st
      simp [standingAfter, hann, advances, applies, counted]
    constructor
    case workerPool =>
      rw [hst]
      exact Follows.updateStates (Follows.refl s.workerPool).retain.retain (by exact fun _ => rfl)
        (by exact fun _ => rfl)
    case dropped =>
      exact fun _ q hq => Follows.updateStates_dropped s.workerPool.retain (by exact fun _ => rfl) hq
    case updatesOf =>
      intro q
      refine (PoolWithAggregateInfo.updatesOf_retain ..).trans ?_
      simp [updatesAfter, advances, records]
    all_goals simp [aggregatedRound, SchedulerState.aligned, advances, callsOff, records, counted, hann]

theorem effect_broadcastedUpdate (metrics : Option MetricMap) :
    Effect s (schedule cfg s clock now (p, ⟨j, .aggregate (.broadcastedUpdate metrics)⟩)).1 p
      (.aggregate (.broadcastedUpdate metrics)) := by
  rw [schedule_broadcastedUpdate]
  dsimp only
  by_cases hr : s.receiving = true
  · have hadv : advances s (.aggregate (.broadcastedUpdate metrics)) = true := hr
    have hst : standingAfter s p (.aggregate (.broadcastedUpdate metrics)) =
        fun _ st => { st with samplesProcessed := 0 } := by
      funext q st
      simp [standingAfter, hadv, announces, applies]
    rw [if_pos hr]
    constructor
    case servers =>
      refine (members_writePrimary s.parameterPool.retain _ _).trans ?_
      rfl
    case workerPool =>
      rw [hst]
      exact Follows.updateStates (Follows.refl s.workerPool).retain (by exact fun _ => rfl) (by exact fun _ => rfl)
    case dropped =>
      exact fun _ q hq => Follows.updateStates_dropped s.workerPool (by exact fun _ => rfl) hq
    case updatesOf =>
      intro q
      refine (congrArg (fun ps => (writePrimary s.parameterPool.retain ps _).updatesOf q)
        (context_primaryPs cfg s now p j (clock 6))).trans ((updatesOf_writePrimary ..).trans ?_)
      simp [updatesAfter, hadv]
    case trainingComplete =>
      rw [hadv]
      rfl
    all_goals simp [broadcastedRound'', broadcastedTraining', broadcastedRound', SchedulerState.aligned,
      TrainingState.resetRound, announces, callsOff, hadv]
  · rw [if_neg hr]
    exact .of_quiet (by simpa [advances] using hr) rfl rfl rfl rfl rfl ⟨_, _, rfl⟩ rfl rfl rfl (.refl _)

theorem effect_aggregateError (err : AggregateError) :
    Effect s (schedule cfg s clock now (p, ⟨j, .aggregate (.error err)⟩)).1 p (.aggregate (.error err)) := by
  have hst : standingAfter s p (.aggregate (.error err)) = fun _ st => st := by
    funext q st
    simp [standingAfter, advances, announces, applies, counted]
  rw [schedule_eq]
  cases err <;>
  · constructor
    case workerPool =>
      rw [hst]
      exact .refl s.workerPool
    case updatesOf =>
      intro q
      refine (PoolWithAggregateInfo.updatesOf_retain ..).trans ?_
      simp [updatesAfter, advances, records]
    case trainingComplete => exact (Bool.or_false _).symm
    case dropped => exact fun h => absurd h Bool.false_ne_true
    all_goals rfl

/-- **Every report has its effect.** -/
theorem schedule_effect (status : ExecutorStatus) :
    Effect s (schedule cfg s clock now (p, ⟨j, status⟩)).1 p status := by
  match status with
  | .train .joined => exact effect_joined cfg s clock now p j
  | .train .waitedForModel => exact effect_waitedForModel cfg s clock now p j
  | .train .idle => exact effect_idle cfg s clock now p j
  | .train (.batchCompleted batchSize batches) => exact effect_batchCompleted cfg s clock now p j batchSize batches
  | .train (.sentUpdate round metrics) => exact effect_sentUpdate cfg s clock now p j round metrics
  | .train .appliedUpdate => exact effect_appliedUpdate cfg s clock now p j
  | .train .pushedToHub => exact effect_pushedToHub cfg s clock now p j
  | .train (.error err) => exact effect_trainError cfg s clock now p j err
  | .train .receivedModel | .train .sentModel | .train .terminated | .aggregate .terminated =>
    rw [schedule_eq]
    exact .of_quiet rfl rfl rfl rfl rfl rfl ⟨_, _, rfl⟩ rfl rfl rfl (.refl _)
  | .aggregate .idle => exact effect_aggregateIdle cfg s clock now p j
  | .aggregate (.aggregatedUpdates metrics) => exact effect_aggregatedUpdates cfg s clock now p j metrics
  | .aggregate (.broadcastedUpdate metrics) => exact effect_broadcastedUpdate cfg s clock now p j metrics
  | .aggregate (.error err) => exact effect_aggregateError cfg s clock now p j err

end Effects

end Hypha.Scheduler
