import Hypha.Scheduler.Effect

/-!
# What one report is answered

`answer` is the action `BatchScheduler::run` sends back for a report. Four of them carry the protocol: more batches and
the update for a worker, the aggregate and its broadcast for a parameter server.

* `isWork_answer` : who is given work, `ExecuteBatch` or `SendUpdate`;
* `answer_eq_sendUpdate_iff` : who is to send its update, where to, and with which weight;
* `answer_eq_aggregateUpdates`, `answer_eq_broadcastUpdate` : what the parameter server's actions rest on.
-/

namespace Hypha.Scheduler

open Hypha.Lib Hypha.Action

set_option linter.unusedSectionVars false

variable {PeerId T : Type} [LinearOrder PeerId] [RuntimeStatistic T]

/-- The action that answers a report. -/
def answer (cfg : Settings) (s : SchedulerState PeerId T) (clock : Nat → Instant) (now : SystemTime) (p : PeerId)
    (status : ExecutorStatus) : ExecutorAction PeerId :=
  (respond cfg (schedule cfg s clock now (p, ⟨cfg.id, status⟩)).2).next

/-- More batches, or the update. -/
def isWork : ExecutorAction PeerId → Bool
  | .train (.executeBatch _) => true
  | .train (.sendUpdate _ _) => true
  | _ => false

/-- The standing of a peer as the handlers read it: a peer that is not a member has the default one. -/
def present (pool : PoolWithTrainInfo PeerId T) (p : PeerId) : Standing := standing pool.retain p

theorem present_of_mem {pool : PoolWithTrainInfo PeerId T} {p : PeerId} (h : p ∈ pool.ids) :
    present pool p = standing pool p := by
  unfold present standing
  rw [PoolWithTrainInfo.stateOf_retain, if_pos h]

/-! ## The parts -/

section Parts
variable (cfg : Settings) (snapshot : List (WorkerDescriptorWithInfo PeerId)) (count updateTarget : Nat) (p : PeerId)

theorem projectBatches_fst :
    (cfg.projectBatches snapshot count updateTarget p).1 = decide (updateTarget ≤ count) := by
  unfold Settings.projectBatches
  dsimp only
  split_ifs with h <;> simp [h]

theorem projectBatches_of_le (h : updateTarget ≤ count) :
    (cfg.projectBatches snapshot count updateTarget p).2.1 = count := by
  unfold Settings.projectBatches
  dsimp only
  rw [if_pos h]

end Parts

/-- The parameter server aggregates only once an update was recorded with it, or with the round. -/
theorem aggregateIdleRound'_snd (ctx : Context PeerId) (s : SchedulerState PeerId T) (t : Instant)
    {workers : List PeerId} (hw : workers ≠ []) :
    (aggregateIdleRound' ctx s t workers).2 = ctx.aggregate (.idle ctx.shortIdle) ∨
      (aggregateIdleRound' ctx s t workers).2 = ctx.aggregate (.aggregateUpdates (.peers workers .all none)) ∧
        ((s.parameterPool.updatesOf ctx.peerId).Nonempty ∨ s.roundState.firstUpdateAt.isSome = true) := by
  unfold aggregateIdleRound'
  dsimp only
  split
  · rename_i hready
    refine Or.inr ⟨rfl, ?_⟩
    rcases Bool.or_eq_true _ _ ▸ hready with hall | hquorum
    · left
      have hfind := s.parameterPool.find_updates ctx.peerId
      cases hf : s.parameterPool.info.2.find? (fun ps => ps.peerId = ctx.peerId) with
      | none => simp [hf] at hall
      | some entry =>
        obtain ⟨w, hmem⟩ := List.exists_mem_of_ne_nil workers hw
        simp only [hf, Option.map_some, Option.getD_some, List.all_eq_true, decide_eq_true_eq] at hall
        dsimp only [PoolWithAggregateInfo.info] at hf
        rw [hf, Option.map_some] at hfind
        split_ifs at hfind
        rw [← Option.some.inj hfind]
        exact ⟨w, hall w hmem⟩
    · right
      have htime := (Bool.and_eq_true _ _ ▸ hquorum).2
      cases hf : s.roundState.firstUpdateAt with
      | none => simp [hf] at htime
      | some _ => rfl
  · exact Or.inl rfl

section Answers
variable (cfg : Settings) (s : SchedulerState PeerId T) (clock : Nat → Instant) (now : SystemTime) (p : PeerId)

/-- `Idle` before completion, with the projection it rests on. -/
theorem answer_idle_eq (hc : s.roundState.trainingComplete = false) :
    answer cfg s clock now p (.train .idle) = .train (
      let ctx := context cfg s (clock 6) now p cfg.id
      let projected := cfg.projectBatches s.workerPool.retain.snapshot s.trainingState.counter
        s.trainingState.updateTarget p
      if s.roundState.aggregatedUpdates && !(present s.workerPool p).appliedUpdate then ctx.applyUpdate
      else if recorded s.parameterPool p then .idle ctx.shortIdle
      else ctx.work projected.1 (present s.workerPool p).samplesProcessed projected.2.1 projected.2.2) := by
  have hsent : (hasSentUpdate s.parameterPool.retain (context cfg s (clock 6) now p cfg.id).primaryPs p).2 =
      recorded s.parameterPool p := by
    rw [context_primaryPs, hasSentUpdate_retain]
  have happlied : _ = (present s.workerPool p).appliedUpdate :=
    s.workerPool.find_snapshot_getD p (fun st => st.appliedUpdate)
  have hsamples : _ = (present s.workerPool p).samplesProcessed :=
    s.workerPool.find_snapshot_getD p (fun st => st.samplesProcessed)
  unfold answer
  rw [schedule_idle, if_neg (by simp [hc]), ← hsent, ← happlied, ← hsamples]
  rfl

/-- `Idle` before completion. -/
theorem answer_idle (hc : s.roundState.trainingComplete = false) :
    ∃ target batches, (s.trainingState.updateTarget ≤ s.trainingState.counter → target = s.trainingState.counter) ∧
      let ctx := context cfg s (clock 6) now p cfg.id
      answer cfg s clock now p (.train .idle) = .train (
        if s.roundState.aggregatedUpdates && !(present s.workerPool p).appliedUpdate then ctx.applyUpdate
        else if recorded s.parameterPool p then .idle ctx.shortIdle
        else ctx.work (decide (s.trainingState.updateTarget ≤ s.trainingState.counter))
          (present s.workerPool p).samplesProcessed target batches) := by
  refine ⟨_, (cfg.projectBatches s.workerPool.retain.snapshot s.trainingState.counter
    s.trainingState.updateTarget p).2.2, projectBatches_of_le cfg s.workerPool.retain.snapshot _ _ p, ?_⟩
  rw [answer_idle_eq cfg s clock now p hc, ← projectBatches_fst cfg s.workerPool.retain.snapshot _ _ p]

/-- The contribution adds the batch that was just reported to what is remembered. -/
theorem batchContribution_of_mem {p : PeerId} (hp : p ∈ s.workerPool.ids) (batchSize batches : Nat) :
    batchContribution cfg s clock now p cfg.id batchSize batches =
      saturatingAdd (standing s.workerPool p).samplesProcessed batchSize := by
  unfold batchContribution batchPool
  rw [PoolWithTrainInfo.find_snapshot _ p (fun st => saturatingAdd st.samplesProcessed batchSize),
    PoolWithTrainInfo.ids_updateStatistics, if_pos hp, PoolWithTrainInfo.stateOf_updateStatistics]
  rfl

/-- `BatchCompleted`, with the projection it rests on. -/
theorem answer_batchCompleted_eq (batchSize batches : Nat) :
    answer cfg s clock now p (.train (.batchCompleted batchSize batches)) = .train (
      let ctx := context cfg s (clock 6) now p cfg.id
      let projected := cfg.projectBatches (batchPool cfg s clock now p cfg.id batches).snapshot
        (saturatingAdd s.trainingState.counter (wrappingMul batchSize batches)) s.trainingState.updateTarget p
      if s.roundState.trainingComplete || recorded s.parameterPool p then .idle ctx.shortIdle
      else ctx.work projected.1 (batchContribution cfg s clock now p cfg.id batchSize batches) projected.2.1
        projected.2.2) := by
  have hsent : (hasSentUpdate s.parameterPool.retain (context cfg s (clock 6) now p cfg.id).primaryPs p).2 =
      recorded s.parameterPool p := by
    rw [context_primaryPs, hasSentUpdate_retain]
  unfold answer
  rw [schedule_batchCompleted, ← hsent]
  rfl

/-- `BatchCompleted`. -/
theorem answer_batchCompleted (batchSize batches : Nat) :
    ∃ target next,
      let count := saturatingAdd s.trainingState.counter (wrappingMul batchSize batches)
      (s.trainingState.updateTarget ≤ count → target = count) ∧
      let ctx := context cfg s (clock 6) now p cfg.id
      answer cfg s clock now p (.train (.batchCompleted batchSize batches)) = .train (
        if s.roundState.trainingComplete || recorded s.parameterPool p then .idle ctx.shortIdle
        else ctx.work (decide (s.trainingState.updateTarget ≤ count))
          (batchContribution cfg s clock now p cfg.id batchSize batches) target next) := by
  refine ⟨_, (cfg.projectBatches (batchPool cfg s clock now p cfg.id batches).snapshot
      (saturatingAdd s.trainingState.counter (wrappingMul batchSize batches)) s.trainingState.updateTarget p).2.2,
    projectBatches_of_le cfg (batchPool cfg s clock now p cfg.id batches).snapshot _ _ p, ?_⟩
  rw [answer_batchCompleted_eq, ← projectBatches_fst cfg (batchPool cfg s clock now p cfg.id batches).snapshot _ _ p]

/-! ## Who is given work -/

/-- Whether a report is answered with work. -/
def givesWork (s : SchedulerState PeerId T) (p : PeerId) : ExecutorStatus → Bool
  | .train .idle =>
    !s.roundState.trainingComplete && !(s.roundState.aggregatedUpdates && !(present s.workerPool p).appliedUpdate) &&
      !recorded s.parameterPool p &&
      (decide (s.trainingState.counter < s.trainingState.updateTarget) || !s.parameterPool.ids.isEmpty)
  | .train (.batchCompleted batchSize batches) =>
    !s.roundState.trainingComplete && !recorded s.parameterPool p &&
      (decide (saturatingAdd s.trainingState.counter (wrappingMul batchSize batches) < s.trainingState.updateTarget) ||
        !s.parameterPool.ids.isEmpty)
  | .train .appliedUpdate =>
    !s.roundState.trainingComplete && s.workerPool.ids.all (fun q => !(s.workerPool.stateOf q).waitingForModel)
  | _ => false

theorem isWork_work (ctx : Context PeerId) (count updateTarget contribution target batches : Nat) :
    isWork (.train (ctx.work (decide (updateTarget ≤ count)) contribution target batches)) =
      (decide (count < updateTarget) || !ctx.parameterServers.isEmpty) := by
  unfold Context.work
  by_cases h : updateTarget ≤ count
  · simp only [h, decide_true, Bool.not_true, Bool.false_eq_true, if_false, Nat.not_lt.mpr h, decide_false,
      Bool.false_or]
    cases ctx.parameterServers <;> rfl
  · simp [h, Nat.lt_of_not_le h, isWork]

theorem isWork_idle : isWork (answer cfg s clock now p (.train .idle)) = givesWork s p (.train .idle) := by
  cases hc : s.roundState.trainingComplete with
  | true =>
    unfold answer
    rw [schedule_idle, if_pos hc]
    unfold idleComplete
    dsimp only
    simp only [givesWork, hc, Bool.not_true, Bool.false_and]
    split_ifs
    · rfl
    · rfl
    · split <;> rfl
    · rfl
  | false =>
    obtain ⟨target, batches, -, h⟩ := answer_idle cfg s clock now p hc
    rw [h]
    simp only [givesWork, hc, Bool.not_false, Bool.true_and]
    by_cases ha : (s.roundState.aggregatedUpdates && !(present s.workerPool p).appliedUpdate) = true
    · rw [if_pos ha, ha]
      rfl
    · rw [if_neg ha, Bool.not_eq_true] at *
      rw [ha]
      cases hr : recorded s.parameterPool p with
      | true => rfl
      | false =>
        simp only [Bool.false_eq_true, if_false, isWork_work, context_parameterServers]
        rfl

theorem isWork_batchCompleted (batchSize batches : Nat) :
    isWork (answer cfg s clock now p (.train (.batchCompleted batchSize batches))) =
      givesWork s p (.train (.batchCompleted batchSize batches)) := by
  obtain ⟨target, next, -, h⟩ := answer_batchCompleted cfg s clock now p batchSize batches
  rw [h]
  simp only [givesWork, ← Bool.not_or]
  cases hb : s.roundState.trainingComplete || recorded s.parameterPool p with
  | true => rfl
  | false => simp only [Bool.false_eq_true, if_false, isWork_work, context_parameterServers, Bool.not_false,
      Bool.true_and]

/-- A worker that has applied an aggregate goes on, unless another one waits for its model. -/
theorem isWork_appliedRound (ctx : Context PeerId) :
    isWork (respond cfg (appliedRound ctx s).2).next = (!s.roundState.trainingComplete &&
      s.workerPool.ids.all (fun q => !(s.workerPool.stateOf q).waitingForModel)) := by
  rw [← s.workerPool.all_snapshot (fun st => !st.waitingForModel)]
  unfold appliedRound
  dsimp only [PoolWithTrainInfo.info]
  split_ifs with hc
  · rw [hc]
    rfl
  · rw [Bool.not_eq_true] at hc
    rw [hc, Bool.not_false, Bool.true_and]
    split
    · rename_i hfind
      obtain ⟨entry, hentry, -⟩ := Option.map_eq_some_iff.mp hfind
      have hwaits : entry.state.waitingForModel = true := by simpa using List.find?_some hentry
      symm
      refine List.all_eq_false.mpr ?_
      exact ⟨entry, List.mem_of_find?_eq_some hentry, by simp [hwaits]⟩
    · rename_i hfind
      symm
      refine List.all_eq_true.mpr fun entry hmem => ?_
      simpa using List.find?_eq_none.mp (Option.map_eq_none_iff.mp hfind) entry hmem

theorem isWork_appliedUpdate :
    isWork (answer cfg s clock now p (.train .appliedUpdate)) = givesWork s p (.train .appliedUpdate) := by
  have hwait : ∀ q, ((s.workerPool.updateState p fun st => { st with appliedUpdate := true }).stateOf q).waitingForModel =
      (s.workerPool.stateOf q).waitingForModel := by
    intro q
    rw [PoolWithTrainInfo.stateOf_updateState]
    split_ifs with hq
    · rw [hq]
    · rfl
  unfold answer
  rw [schedule_appliedUpdate]
  refine (isWork_appliedRound cfg _ _).trans ?_
  simp only [PoolWithTrainInfo.ids_updateStatistics, PoolWithTrainInfo.ids_updateState,
    PoolWithTrainInfo.stateOf_updateStatistics, hwait]
  rfl

/-- The reports that are never answered with work. -/
theorem isWork_other {status : ExecutorStatus} (hi : status ≠ .train .idle)
    (hb : ∀ batchSize batches, status ≠ .train (.batchCompleted batchSize batches))
    (ha : status ≠ .train .appliedUpdate) : isWork (answer cfg s clock now p status) = false := by
  unfold answer
  match status with
  | .train .idle => exact absurd rfl hi
  | .train (.batchCompleted batchSize batches) => exact absurd rfl (hb batchSize batches)
  | .train .appliedUpdate => exact absurd rfl ha
  | .train .joined =>
    rw [schedule_joined]
    unfold joinedRound
    split_ifs <;> rfl
  | .train .waitedForModel =>
    rw [schedule_waitedForModel]
    unfold waitedForModel
    dsimp only
    split <;> rfl
  | .train (.sentUpdate _ _) =>
    rw [schedule_sentUpdate]
    dsimp only
    split_ifs <;> rfl
  | .train .pushedToHub => rw [schedule_pushedToHub]; rfl
  | .train .receivedModel | .train .sentModel | .train .terminated | .train (.error (.connection _))
  | .train (.error (.other _)) => rw [schedule_eq]; rfl
  | .aggregate .idle =>
    rw [schedule_aggregateIdle]
    unfold aggregateIdleRound'
    dsimp only
    split_ifs <;> rfl
  | .aggregate (.aggregatedUpdates _) =>
    rw [schedule_aggregatedUpdates]
    dsimp only
    split_ifs <;> rfl
  | .aggregate (.broadcastedUpdate _) =>
    rw [schedule_broadcastedUpdate]
    dsimp only
    split_ifs <;> rfl
  | .aggregate .terminated | .aggregate (.error (.connection _)) | .aggregate (.error (.other _)) =>
    rw [schedule_eq]; rfl

/-- **Who is given work.** -/
theorem isWork_answer (status : ExecutorStatus) :
    isWork (answer cfg s clock now p status) = givesWork s p status := by
  by_cases hi : status = .train .idle
  · rw [hi]
    exact isWork_idle cfg s clock now p
  by_cases hb : ∃ batchSize batches, status = .train (.batchCompleted batchSize batches)
  · obtain ⟨batchSize, batches, rfl⟩ := hb
    exact isWork_batchCompleted cfg s clock now p batchSize batches
  by_cases ha : status = .train .appliedUpdate
  · rw [ha]
    exact isWork_appliedUpdate cfg s clock now p
  · rw [isWork_other cfg s clock now p hi (fun b n h => hb ⟨b, n, h⟩) ha]
    unfold givesWork
    split
    · exact absurd rfl hi
    · exact absurd ⟨_, _, rfl⟩ hb
    · exact absurd rfl ha
    · rfl

/-! ## Who is to send its update -/

/-- Whether a worker that reports `Idle` is to send its update, provided there is a parameter server. -/
def updateDue (s : SchedulerState PeerId T) (p : PeerId) : Bool :=
  !s.roundState.trainingComplete && !(s.roundState.aggregatedUpdates && !(present s.workerPool p).appliedUpdate) &&
    !recorded s.parameterPool p && decide (s.trainingState.updateTarget ≤ s.trainingState.counter)

theorem work_eq_sendUpdate_iff (ctx : Context PeerId) (shouldUpdate : Bool) (contribution target batches : Nat)
    (r : Reference PeerId) (w : Weight) :
    ctx.work shouldUpdate contribution target batches = .sendUpdate r w ↔
      shouldUpdate = true ∧ ∃ ps, ctx.parameterServers.head? = some ps ∧ r = .peers [ps] .one none ∧
        w = ⟨contribution, target⟩ := by
  unfold Context.work
  cases shouldUpdate <;> cases ctx.parameterServers <;> simp [eq_comm]

/-- **`SendUpdate` on `Idle`**: to the primary, with the worker's samples over the round's. -/
theorem answer_idle_eq_sendUpdate_iff (r : Reference PeerId) (w : Weight) :
    answer cfg s clock now p (.train .idle) = .train (.sendUpdate r w) ↔
      updateDue s p = true ∧ ∃ ps, s.parameterPool.ids.head? = some ps ∧ r = .peers [ps] .one none ∧
        w = ⟨(present s.workerPool p).samplesProcessed, s.trainingState.counter⟩ := by
  cases hc : s.roundState.trainingComplete with
  | true =>
    have hw := isWork_idle cfg s clock now p
    simp only [givesWork, hc, Bool.not_true, Bool.false_and] at hw
    constructor
    · intro h
      rw [h] at hw
      simp [isWork] at hw
    · rintro ⟨h, -⟩
      simp [updateDue, hc] at h
  | false =>
    obtain ⟨target, batches, ht, h⟩ := answer_idle cfg s clock now p hc
    rw [h]
    simp only [updateDue, hc, Bool.not_false, Bool.true_and]
    cases ha : s.roundState.aggregatedUpdates && !(present s.workerPool p).appliedUpdate with
    | true => simp [Context.applyUpdate]
    | false =>
      cases hr : recorded s.parameterPool p with
      | true => simp
      | false =>
        simp only [Bool.false_eq_true, if_false, ExecutorAction.train.injEq, work_eq_sendUpdate_iff, decide_eq_true_eq,
          context_parameterServers, Bool.not_false, Bool.true_and]
        constructor
        · rintro ⟨hle, ps, hps, hr, hw⟩
          exact ⟨hle, ps, hps, hr, by rw [hw, ht hle]⟩
        · rintro ⟨hle, ps, hps, hr, hw⟩
          exact ⟨hle, ps, hps, hr, by rw [hw, ht hle]⟩

/-- What the update of a worker is weighted with. -/
def contribution (s : SchedulerState PeerId T) (p : PeerId) : ExecutorStatus → Nat
  | .train (.batchCompleted batchSize _) => saturatingAdd (standing s.workerPool p).samplesProcessed batchSize
  | _ => (standing s.workerPool p).samplesProcessed

/-- What a `SendUpdate` rests on. -/
structure SendsUpdate (s : SchedulerState PeerId T) (p : PeerId) (status : ExecutorStatus) (r : Reference PeerId)
    (w : Weight) : Prop where
  report : status = .train .idle ∨ ∃ batchSize batches, status = .train (.batchCompleted batchSize batches)
  trainingComplete : s.roundState.trainingComplete = false
  recorded : recorded s.parameterPool p = false
  updateTarget : s.trainingState.updateTarget ≤ counted status s.trainingState.counter
  target : ∃ ps, s.parameterPool.ids.head? = some ps ∧ r = .peers [ps] .one none
  num : p ∈ s.workerPool.ids → w.num = contribution s p status
  den : w.den = counted status s.trainingState.counter

theorem answer_appliedUpdate_ne_sendUpdate (r : Reference PeerId) (w : Weight) :
    answer cfg s clock now p (.train .appliedUpdate) ≠ .train (.sendUpdate r w) := by
  unfold answer
  rw [schedule_appliedUpdate]
  unfold appliedRound
  dsimp only
  split_ifs
  · simp [respond, Context.train]
  · split <;> simp [respond, Context.train]

/-- **What a `SendUpdate` rests on**, whichever report it answers. -/
theorem sendsUpdate_of_answer {status : ExecutorStatus} {r : Reference PeerId} {w : Weight}
    (h : answer cfg s clock now p status = .train (.sendUpdate r w)) : SendsUpdate s p status r w := by
  by_cases hi : status = .train .idle
  · subst hi
    obtain ⟨hdue, ps, hps, hr, hw⟩ := (answer_idle_eq_sendUpdate_iff cfg s clock now p r w).mp h
    simp only [updateDue, Bool.and_eq_true, Bool.not_eq_true', decide_eq_true_eq] at hdue
    obtain ⟨⟨⟨hc, -⟩, hrec⟩, hle⟩ := hdue
    exact ⟨Or.inl rfl, hc, hrec, hle, ⟨ps, hps, hr⟩, fun hp => by rw [hw, present_of_mem hp]; rfl, by rw [hw]; rfl⟩
  by_cases hb : ∃ batchSize batches, status = .train (.batchCompleted batchSize batches)
  · obtain ⟨batchSize, batches, rfl⟩ := hb
    obtain ⟨target, next, ht, h'⟩ := answer_batchCompleted cfg s clock now p batchSize batches
    rw [h] at h'
    cases hbusy : s.roundState.trainingComplete || Scheduler.recorded s.parameterPool p with
    | true => simp [hbusy] at h'
    | false =>
      simp only [hbusy, Bool.false_eq_true, if_false, ExecutorAction.train.injEq] at h'
      obtain ⟨hle, ps, hps, hr, hw⟩ := (work_eq_sendUpdate_iff _ _ _ _ _ r w).mp h'.symm
      rw [context_parameterServers] at hps
      rw [decide_eq_true_eq] at hle
      obtain ⟨hc, hrec⟩ := Bool.or_eq_false_iff.mp hbusy
      exact ⟨Or.inr ⟨batchSize, batches, rfl⟩, hc, hrec, hle, ⟨ps, hps, hr⟩,
        fun hp => by rw [hw]; exact batchContribution_of_mem cfg s clock now hp batchSize batches,
        by rw [hw]; exact ht hle⟩
  · exfalso
    by_cases ha : status = .train .appliedUpdate
    · subst ha
      exact answer_appliedUpdate_ne_sendUpdate cfg s clock now p r w h
    · have hw := isWork_other cfg s clock now p hi (fun b n h => hb ⟨b, n, h⟩) ha
      rw [h] at hw
      simp [isWork] at hw

/-! ## What a worker without a model is told -/

theorem answer_joined (h : s.roundState.round ≠ 0) :
    ∃ t, answer cfg s clock now p (.train .joined) = .train (.waitForModel t) := by
  unfold answer
  rw [schedule_joined]
  unfold joinedRound
  rw [if_neg (by exact h)]
  exact ⟨_, rfl⟩

theorem answer_waitedForModel :
    (∃ t, answer cfg s clock now p (.train .waitedForModel) = .train (.waitForModel t)) ∨
      ∃ r t, answer cfg s clock now p (.train .waitedForModel) = .train (.receiveModel r t) := by
  unfold answer
  rw [schedule_waitedForModel]
  unfold waitedForModel
  dsimp only
  split
  · exact Or.inr ⟨_, _, rfl⟩
  · exact Or.inl ⟨_, rfl⟩

/-! ## The parameter server's actions -/

/-- A training worker is answered with an action for training workers. -/
theorem answer_train (status : TrainStatus) : ∃ a, answer cfg s clock now p (.train status) = .train a := by
  unfold answer
  match status with
  | .joined =>
    rw [schedule_joined]
    unfold joinedRound
    split_ifs <;> exact ⟨_, rfl⟩
  | .waitedForModel =>
    rw [schedule_waitedForModel]
    unfold waitedForModel
    dsimp only
    split <;> exact ⟨_, rfl⟩
  | .idle =>
    rw [schedule_idle]
    unfold idleComplete
    dsimp only
    split_ifs
    · exact ⟨_, rfl⟩
    · exact ⟨_, rfl⟩
    · split <;> exact ⟨_, rfl⟩
    · exact ⟨_, rfl⟩
    · exact ⟨_, rfl⟩
  | .batchCompleted _ _ => rw [schedule_batchCompleted]; exact ⟨_, rfl⟩
  | .sentUpdate _ _ =>
    rw [schedule_sentUpdate]
    dsimp only
    split_ifs <;> exact ⟨_, rfl⟩
  | .appliedUpdate =>
    rw [schedule_appliedUpdate]
    unfold appliedRound
    dsimp only
    split_ifs
    · exact ⟨_, rfl⟩
    · split <;> exact ⟨_, rfl⟩
  | .pushedToHub => rw [schedule_pushedToHub]; exact ⟨_, rfl⟩
  | .receivedModel | .sentModel | .terminated | .error (.connection _) | .error (.other _) =>
    rw [schedule_eq]; exact ⟨_, rfl⟩

/-- The reports of a parameter server that move nothing on. -/
theorem answer_aggregate_other {status : AggregateStatus} {a : ExecutorAction PeerId} (hi : status ≠ .idle)
    (ha : ∀ metrics, status ≠ .aggregatedUpdates metrics)
    (h : answer cfg s clock now p (.aggregate status) = a) :
    a = .train .terminate ∨ a = .aggregate .terminate ∨ ∃ t, a = .aggregate (.idle t) := by
  subst h
  unfold answer
  match status with
  | .idle => exact absurd rfl hi
  | .aggregatedUpdates metrics => exact absurd rfl (ha metrics)
  | .broadcastedUpdate _ =>
    rw [schedule_broadcastedUpdate]
    dsimp only
    split_ifs
    · exact Or.inr (Or.inr ⟨_, rfl⟩)
    · exact Or.inl rfl
  | .error (.connection _) => rw [schedule_eq]; exact Or.inr (Or.inr ⟨_, rfl⟩)
  | .error (.other _) | .terminated => rw [schedule_eq]; exact Or.inr (Or.inl rfl)

theorem answer_aggregatedUpdates (metrics : Option MetricMap) :
    (announces s p (.aggregate (.aggregatedUpdates metrics)) = true ∧
      answer cfg s clock now p (.aggregate (.aggregatedUpdates metrics)) =
        .aggregate (.broadcastUpdate (.peers s.workerPool.ids .all none))) ∨
      announces s p (.aggregate (.aggregatedUpdates metrics)) = false ∧
        ∃ t, answer cfg s clock now p (.aggregate (.aggregatedUpdates metrics)) = .aggregate (.idle t) := by
  unfold answer
  rw [schedule_aggregatedUpdates]
  dsimp only
  split_ifs with hp hw
  · exact Or.inr ⟨by simp [announces, hp], _, rfl⟩
  · exact Or.inr ⟨by simp [announces, hw], _, rfl⟩
  · exact Or.inl ⟨by simp [announces, not_not.mp hp, hw], rfl⟩

/-- A parameter server's `Idle`: what `AggregateUpdates` rests on. -/
theorem answer_aggregateIdle :
    (∃ r, answer cfg s clock now p (.aggregate .idle) = .aggregate (.aggregateUpdates r) ∧
      s.roundState.trainingComplete = false ∧ s.parameterPool.ids.head? = some p ∧
        ((s.parameterPool.updatesOf p).Nonempty ∨ s.roundState.firstUpdateAt.isSome = true)) ∨
      answer cfg s clock now p (.aggregate .idle) = .aggregate .terminate ∨
        ∃ t, answer cfg s clock now p (.aggregate .idle) = .aggregate (.idle t) := by
  unfold answer
  rw [schedule_aggregateIdle]
  dsimp only
  split_ifs with hc hall hp hw
  · exact Or.inr (Or.inl rfl)
  · exact Or.inr (Or.inr ⟨_, rfl⟩)
  · exact Or.inr (Or.inr ⟨_, rfl⟩)
  · exact Or.inr (Or.inr ⟨_, rfl⟩)
  · have hps : s.parameterPool.ids.head? = some p := (not_not.mp hp).symm
    rcases aggregateIdleRound'_snd (context cfg s (clock 6) now p cfg.id)
      { s.aligned with workerPool := s.workerPool.retain } (clock 4) hw with h | ⟨h, hrec⟩
    · rw [h]
      exact Or.inr (Or.inr ⟨_, rfl⟩)
    · rw [h]
      refine Or.inl ⟨_, rfl, by simpa using hc, hps, ?_⟩
      have hu : s.parameterPool.retain.updatesOf p = s.parameterPool.updatesOf p := by
        rw [PoolWithAggregateInfo.updatesOf_retain, if_pos (List.mem_of_mem_head? hps)]
      rw [← hu]
      exact hrec

/-- A parameter server is answered with an action for parameter servers, or `Terminate` in place of an error. -/
theorem answer_aggregate (status : AggregateStatus) :
    (∃ a, answer cfg s clock now p (.aggregate status) = .aggregate a) ∨
      answer cfg s clock now p (.aggregate status) = .train .terminate := by
  match status with
  | .idle =>
    rcases answer_aggregateIdle cfg s clock now p with ⟨r, h, -⟩ | h | ⟨t, h⟩
    · exact Or.inl ⟨_, h⟩
    · exact Or.inl ⟨_, h⟩
    · exact Or.inl ⟨_, h⟩
  | .aggregatedUpdates metrics =>
    rcases answer_aggregatedUpdates cfg s clock now p metrics with ⟨-, h⟩ | ⟨-, t, h⟩
    · exact Or.inl ⟨_, h⟩
    · exact Or.inl ⟨_, h⟩
  | .broadcastedUpdate _ | .terminated | .error _ =>
    generalize h : answer cfg s clock now p _ = a
    rcases answer_aggregate_other cfg s clock now p (by simp) (by simp) h with rfl | rfl | ⟨t, rfl⟩
    · exact Or.inr rfl
    · exact Or.inl ⟨_, rfl⟩
    · exact Or.inl ⟨_, rfl⟩

/-- **What `AggregateUpdates` rests on.** -/
theorem aggregates_of_answer {status : ExecutorStatus} {r : Reference PeerId}
    (h : answer cfg s clock now p status = .aggregate (.aggregateUpdates r)) :
    status = .aggregate .idle ∧ s.roundState.trainingComplete = false ∧ s.parameterPool.ids.head? = some p ∧
      ((s.parameterPool.updatesOf p).Nonempty ∨ s.roundState.firstUpdateAt.isSome = true) := by
  match status with
  | .train status =>
    obtain ⟨a, ha⟩ := answer_train cfg s clock now p status
    rw [ha] at h
    simp at h
  | .aggregate .idle =>
    rcases answer_aggregateIdle cfg s clock now p with ⟨r, -, h'⟩ | h' | ⟨t, h'⟩
    · exact ⟨rfl, h'⟩
    · simp [h'] at h
    · simp [h'] at h
  | .aggregate (.aggregatedUpdates metrics) =>
    rcases answer_aggregatedUpdates cfg s clock now p metrics with ⟨-, h'⟩ | ⟨-, t, h'⟩ <;> simp [h'] at h
  | .aggregate (.broadcastedUpdate _) | .aggregate .terminated | .aggregate (.error _) =>
    rcases answer_aggregate_other cfg s clock now p (by simp) (by simp) h with h | h | ⟨t, h⟩ <;> simp at h

/-- **What `BroadcastUpdate` rests on.** -/
theorem announces_of_answer {status : ExecutorStatus} {r : Reference PeerId}
    (h : answer cfg s clock now p status = .aggregate (.broadcastUpdate r)) :
    (∃ metrics, status = .aggregate (.aggregatedUpdates metrics)) ∧ announces s p status = true := by
  match status with
  | .train status =>
    obtain ⟨a, ha⟩ := answer_train cfg s clock now p status
    rw [ha] at h
    simp at h
  | .aggregate .idle =>
    rcases answer_aggregateIdle cfg s clock now p with ⟨r, h', -⟩ | h' | ⟨t, h'⟩ <;> simp [h'] at h
  | .aggregate (.aggregatedUpdates metrics) =>
    rcases answer_aggregatedUpdates cfg s clock now p metrics with ⟨ha, -⟩ | ⟨-, t, h'⟩
    · exact ⟨⟨metrics, rfl⟩, ha⟩
    · simp [h'] at h
  | .aggregate (.broadcastedUpdate _) | .aggregate .terminated | .aggregate (.error _) =>
    rcases answer_aggregate_other cfg s clock now p (by simp) (by simp) h with h | h | ⟨t, h⟩ <;> simp at h

end Answers

end Hypha.Scheduler
