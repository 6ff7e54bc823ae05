import Hypha.Scheduler.Run

/-!
# When an aggregation may start

The primary parameter server is told to aggregate once every worker that takes part has sent its update, or a quorum of
them has and the grace period is over. The quorum is taken of the current members, but every recorded update counts
towards it, also that of a worker that has left the pool or waits for a model by then.

* `activeWorkers`, `recordedWorkers`, `firstUpdate` : who takes part, whose updates are there, since when;
* `answer_eq_aggregateUpdates_iff` : when a parameter server is told to aggregate;
* `AggregatesWhenReady` : what should hold then;
* `MembersMakeQuorum`, `aggregates_when_ready_iff` : and when it does.
-/

namespace Hypha.Scheduler

open Hypha.Lib Hypha.Action

set_option linter.unusedSectionVars false

variable {PeerId T : Type} [LinearOrder PeerId] [RuntimeStatistic T]

/-! ## Who takes part -/

/-- The members of the worker pool that do not wait for a model. -/
def activeWorkers (s : SchedulerState PeerId T) : List PeerId :=
  s.workerPool.ids.filter (fun q => !(s.workerPool.stateOf q).waitingForModel)

/-- Those of them whose update is recorded with the parameter server `p`. -/
def recordedWorkers (s : SchedulerState PeerId T) (p : PeerId) : List PeerId :=
  (activeWorkers s).filter (fun q => decide (q ∈ s.parameterPool.updatesOf p))

/-- The updates that suffice after the grace period. -/
def effectiveQuorum (s : SchedulerState PeerId T) : Nat := min s.roundState.minQuorum (activeWorkers s).length

/-- Whether the grace period is over at `t`, counted from the first update. -/
def graceOver (s : SchedulerState PeerId T) (t : Instant) (first : Option Instant) : Bool :=
  (first.map (fun first => decide (s.roundState.grace ≤ t - first))).getD false

/-- The workers that the handler lists are the active ones. -/
theorem activeWorkers_eq (s : SchedulerState PeerId T) :
    (s.workerPool.retain.snapshot.filter (fun w => !w.state.waitingForModel)).map (·.peerId) = activeWorkers s := by
  unfold activeWorkers PoolWithTrainInfo.snapshot PoolWithTrainInfo.ids
  rw [List.filter_map, List.map_map, List.filter_map]
  refine congrArg₂ List.map rfl ?_
  refine List.filter_congr (fun d hd => ?_)
  have hmem : d.peerId ∈ s.workerPool.ids := List.mem_map_of_mem hd
  simp only [Function.comp_apply, PoolWithTrainInfo.retain, PoolWithTrainInfo.stateOf, PoolWithTrainInfo.entryOf,
    if_pos hmem]
  cases s.workerPool.entries d.peerId <;> rfl

/-! ## When `AggregateUpdates` is answered -/

/-- Every active worker has its update recorded, or enough updates are there and the grace period is over. -/
def ready (s : SchedulerState PeerId T) (p : PeerId) (t : Instant) : Bool :=
  (activeWorkers s).all (fun q => decide (q ∈ s.parameterPool.updatesOf p)) ||
    decide (effectiveQuorum s ≤ (s.parameterPool.updatesOf p).card) && graceOver s t s.roundState.firstUpdateAt

theorem aggregateIdleRound'_ready (ctx : Context PeerId) (s : SchedulerState PeerId T) (t : Instant)
    (hp : ctx.peerId ∈ s.parameterPool.ids) :
    (aggregateIdleRound' ctx s t (activeWorkers s)).2 =
      ctx.aggregate (if ready s ctx.peerId t then .aggregateUpdates (.peers (activeWorkers s) .all none)
        else .idle ctx.shortIdle) := by
  have hfind := s.parameterPool.find_updates ctx.peerId
  rw [if_pos hp] at hfind
  obtain ⟨entry, hentry, hupdates⟩ := Option.map_eq_some_iff.mp hfind
  unfold aggregateIdleRound'
  dsimp only [PoolWithAggregateInfo.info]
  rw [hentry]
  simp only [Option.map_some, Option.getD_some, hupdates]
  by_cases h : ready s ctx.peerId t = true
  · rw [if_pos h]
    exact congrArg Prod.snd (if_pos h)
  · rw [if_neg h]
    exact congrArg Prod.snd (if_neg h)

section Answers
variable (cfg : Settings) (s : SchedulerState PeerId T) (clock : Nat → Instant) (now : SystemTime) (p : PeerId)

/-- The handler decides on the state with the entries of absent peers dropped, which changes nothing. -/
theorem activeWorkers_retain {s s' : SchedulerState PeerId T} (h : s'.workerPool = s.workerPool.retain) :
    activeWorkers s' = activeWorkers s := by
  unfold activeWorkers
  rw [h, PoolWithTrainInfo.ids_retain]
  refine List.filter_congr (fun q hq => ?_)
  rw [PoolWithTrainInfo.stateOf_retain, if_pos hq]

theorem ready_congr {s s' : SchedulerState PeerId T} {p : PeerId} (hworkers : activeWorkers s' = activeWorkers s)
    (hupdates : s'.parameterPool.updatesOf p = s.parameterPool.updatesOf p) (hround : s'.roundState = s.roundState)
    (t : Instant) : ready s' p t = ready s p t := by
  unfold ready effectiveQuorum graceOver
  simp only [hworkers, hupdates, hround]

/-- **When a parameter server is told to aggregate.** -/
theorem answer_eq_aggregateUpdates_iff (r : Reference PeerId) :
    answer cfg s clock now p (.aggregate .idle) = .aggregate (.aggregateUpdates r) ↔
      s.roundState.trainingComplete = false ∧ s.parameterPool.ids.head? = some p ∧ activeWorkers s ≠ [] ∧
        ready s p (clock 4) = true ∧ r = .peers (activeWorkers s) .all none := by
  unfold answer
  rw [schedule_aggregateIdle]
  dsimp only
  rw [activeWorkers_eq]
  split_ifs with hc hall hp hw
  · simp [respond, Context.aggregate, hc]
  · simp [respond, Context.aggregate, hc]
  · simp [respond, Context.aggregate, Ne.symm hp]
  · simp [respond, Context.aggregate, hw]
  · have hps : s.parameterPool.ids.head? = some p := (not_not.mp hp).symm
    have hmem : p ∈ s.parameterPool.ids := List.mem_of_mem_head? hps
    have hround := aggregateIdleRound'_ready (context cfg s (clock 6) now p cfg.id)
      { s.aligned with workerPool := s.workerPool.retain } (clock 4) hmem
    have hworkers : activeWorkers { s.aligned with workerPool := s.workerPool.retain } = activeWorkers s :=
      activeWorkers_retain rfl
    have hupdates : s.parameterPool.retain.updatesOf p = s.parameterPool.updatesOf p := by
      rw [PoolWithAggregateInfo.updatesOf_retain, if_pos hmem]
    rw [hworkers, context_peerId, ready_congr hworkers hupdates rfl] at hround
    rw [hround]
    simp only [respond, Context.aggregate]
    split_ifs with h
    · simp [hc, hps, hw, h, eq_comm]
    · simp [h]

/-! ## The first update of the round -/

/-- Only `SentUpdate` and `BroadcastedUpdate` touch the time of the first update. -/
theorem firstUpdateAt_other {status : ExecutorStatus} (hs : ∀ round metrics, status ≠ .train (.sentUpdate round metrics))
    (hb : ∀ metrics, status ≠ .aggregate (.broadcastedUpdate metrics)) :
    (schedule cfg s clock now (p, ⟨cfg.id, status⟩)).1.roundState.firstUpdateAt = s.roundState.firstUpdateAt := by
  match status with
  | .train (.sentUpdate round metrics) => exact absurd rfl (hs round metrics)
  | .aggregate (.broadcastedUpdate metrics) => exact absurd rfl (hb metrics)
  | .train .joined =>
    rw [schedule_joined, joinedRound]
    split_ifs <;> rfl
  | .train .waitedForModel =>
    rw [schedule_waitedForModel, waitedForModel]
    dsimp only
    split <;> rfl
  | .train .idle =>
    rw [schedule_idle, idleComplete]
    dsimp only
    split_ifs <;> first | rfl | (split <;> rfl)
  | .train (.batchCompleted _ _) =>
    rw [schedule_batchCompleted]
    rfl
  | .train .appliedUpdate =>
    rw [schedule_appliedUpdate, appliedRound]
    dsimp only
    split_ifs
    · rfl
    · split <;> rfl
  | .train .pushedToHub =>
    rw [schedule_pushedToHub]
    dsimp only
    split_ifs <;> rfl
  | .aggregate .idle =>
    rw [schedule_aggregateIdle]
    dsimp only [aggregateIdleRound']
    split_ifs <;> rfl
  | .aggregate (.aggregatedUpdates _) =>
    rw [schedule_aggregatedUpdates]
    dsimp only
    split_ifs <;> rfl
  | .train .receivedModel | .train .sentModel | .train .terminated | .train (.error (.connection _))
  | .train (.error (.other _)) | .aggregate .terminated | .aggregate (.error (.connection _))
  | .aggregate (.error (.other _)) =>
    rw [schedule_eq]
    rfl

/-- The time of the first update of the round after a report. -/
theorem firstUpdateAt_schedule (status : ExecutorStatus) :
    (schedule cfg s clock now (p, ⟨cfg.id, status⟩)).1.roundState.firstUpdateAt =
      if advances s status then none
      else s.roundState.firstUpdateAt.or (if records s status then some (clock 3) else none) := by
  by_cases hsent : ∃ round metrics, status = .train (.sentUpdate round metrics)
  · obtain ⟨round, metrics, rfl⟩ := hsent
    rw [schedule_sentUpdate, if_neg (show ¬advances s (.train (.sentUpdate round metrics)) = true by simp [advances])]
    dsimp only
    by_cases hr : s.receiving = true
    · rw [if_pos hr, if_pos (show records s (.train (.sentUpdate round metrics)) = true from hr)]
      cases hf : s.roundState.firstUpdateAt <;> simp [sentRound', SchedulerState.aligned, hf]
    · rw [if_neg hr, if_neg (show ¬records s (.train (.sentUpdate round metrics)) = true from hr)]
      exact (Option.or_none ..).symm
  by_cases hbroadcast : ∃ metrics, status = .aggregate (.broadcastedUpdate metrics)
  · obtain ⟨metrics, rfl⟩ := hbroadcast
    rw [schedule_broadcastedUpdate]
    dsimp only
    by_cases hr : s.receiving = true
    · rw [if_pos hr, if_pos (show advances s (.aggregate (.broadcastedUpdate metrics)) = true from hr)]
      rfl
    · rw [if_neg hr, if_neg (show ¬advances s (.aggregate (.broadcastedUpdate metrics)) = true from hr)]
      exact (Option.or_none ..).symm
  push Not at hsent hbroadcast
  rw [firstUpdateAt_other cfg s clock now p hsent hbroadcast]
  have hquiet : advances s status = false ∧ records s status = false := by
    unfold advances records
    constructor <;> split <;> simp_all
  rw [hquiet.1, hquiet.2]
  exact (Option.or_none ..).symm

end Answers

/-- When a step records an update, the time its handler notes. -/
def updateTime (e : Step PeerId T) : Option Instant :=
  match e.input with
  | .report _ status _ clock => if records e.pre status then some (clock 3) else none
  | _ => none

/-- The time of the first update of the current round. -/
def firstUpdate : List (Step PeerId T) → Option Instant
  | [] => none
  | e :: h => if advancing e then none else (firstUpdate h).or (updateTime e)

theorem firstUpdate_step (cfg : Settings) (w : Trace PeerId T) (i : Input PeerId)
    (h : w.state.roundState.firstUpdateAt = firstUpdate w.history) :
    ((machine cfg).next w i).state.roundState.firstUpdateAt = firstUpdate ((machine cfg).next w i).history := by
  rw [Machine.next_state, Machine.next_history, firstUpdate, ← h]
  cases i with
  | report p status now clock => exact firstUpdateAt_schedule cfg w.state clock now p status
  | _ => exact (Option.or_none ..).symm

/-! ## What should hold -/

/-- Whether an active worker is missing among the updates recorded with `p`. -/
def missesWorker (s : SchedulerState PeerId T) (p : PeerId) : Bool :=
  (activeWorkers s).any (fun q => !decide (q ∈ s.parameterPool.updatesOf p))

/-- A parameter server is told to aggregate only if it is the primary, training is not complete, and the updates of all
active workers are recorded with it, or those of a quorum of them are and the grace period since the first update of
the round is over. -/
def AggregatesWhenReady (e : Step PeerId T) (h : List (Step PeerId T)) : Prop :=
  ∀ p now clock r, e.input = .report p (.aggregate .idle) now clock →
    e.output = some (.aggregate (.aggregateUpdates r)) →
      e.pre.parameterPool.ids.head? = some p ∧ e.pre.roundState.trainingComplete = false ∧
        (missesWorker e.pre p = false ∨
          effectiveQuorum e.pre ≤ (recordedWorkers e.pre p).length ∧
            graceOver e.pre (clock 4) (firstUpdate h) = true)

/-- When the primary asks after the grace period and an active worker is missing, the updates that make the quorum are
those of active workers: none of a worker that left or waits for a model is needed for it. -/
def MembersMakeQuorum (e : Step PeerId T) (h : List (Step PeerId T)) : Prop :=
  ∀ p now clock, e.input = .report p (.aggregate .idle) now clock →
    e.pre.parameterPool.ids.head? = some p → e.pre.roundState.trainingComplete = false →
      missesWorker e.pre p = true → graceOver e.pre (clock 4) (firstUpdate h) = true →
        effectiveQuorum e.pre ≤ (e.pre.parameterPool.updatesOf p).card →
          effectiveQuorum e.pre ≤ (recordedWorkers e.pre p).length

theorem ready_iff (s : SchedulerState PeerId T) (p : PeerId) (t : Instant) :
    ready s p t = true ↔ missesWorker s p = false ∨
      effectiveQuorum s ≤ (s.parameterPool.updatesOf p).card ∧ graceOver s t s.roundState.firstUpdateAt = true := by
  unfold ready missesWorker
  rw [Bool.or_eq_true, Bool.and_eq_true, decide_eq_true_eq, List.all_eq_not_any_not, Bool.not_eq_true']

theorem activeWorkers_ne_nil {s : SchedulerState PeerId T} {p : PeerId} (h : missesWorker s p = true) :
    activeWorkers s ≠ [] := by
  intro hnil
  rw [missesWorker, hnil] at h
  exact Bool.noConfusion h

/-- **Aggregations start when they should** in a run exactly if no update of a worker that has left, or waits for a
model, is needed for a quorum. -/
theorem aggregates_when_ready_iff (job : Job) (workers servers : List (WorkerDescriptor PeerId))
    (inputs : List (Input PeerId)) :
    Along AggregatesWhenReady (run T job workers servers inputs).history ↔
      Along MembersMakeQuorum (run T job workers servers inputs).history := by
  refine (machine job.settings).along_iff_of_invariant
    (fun w => w.state.roundState.firstUpdateAt = firstUpdate w.history) (fun _ _ => True) AggregatesWhenReady
    MembersMakeQuorum rfl (firstUpdate_step job.settings) ?_ inputs (along_true _)
  intro w i hfirst _
  constructor
  · intro hready p now clock hi hps hc hmisses hgrace hcard
    obtain rfl : i = .report p (.aggregate .idle) now clock := hi
    have hanswer := (answer_eq_aggregateUpdates_iff job.settings w.state clock now p _).mpr
      ⟨hc, hps, activeWorkers_ne_nil hmisses, (ready_iff _ _ _).mpr (Or.inr ⟨hcard, hfirst ▸ hgrace⟩), rfl⟩
    rcases (hready p now clock _ rfl (congrArg some hanswer)).2.2 with hall | ⟨hquorum, -⟩
    · exact absurd (hmisses.symm.trans hall) (by simp)
    · exact hquorum
  · intro hmembers p now clock r hi hout
    obtain rfl : i = .report p (.aggregate .idle) now clock := hi
    obtain ⟨hc, hps, -, hready, -⟩ :=
      (answer_eq_aggregateUpdates_iff job.settings w.state clock now p r).mp (Option.some.inj hout)
    refine ⟨hps, hc, ?_⟩
    rcases (ready_iff _ _ _).mp hready with hall | ⟨hcard, hgrace⟩
    · exact Or.inl hall
    · rw [hfirst] at hgrace
      cases hmisses : missesWorker w.state p with
      | false => exact Or.inl hmisses
      | true => exact Or.inr ⟨hmembers p now clock rfl hps hc hmisses hgrace hcard, hgrace⟩

/-- Worker 1 has sent its update and leaves. Worker 2 has sent none, but the update of worker 1 makes the quorum of
one. -/
def departedWorker : List (Input Nat) :=
  [tell 1 .joined, tell 2 .joined, tell 1 .idle, tell 1 (.batchCompleted 1 1), tell 1 (.sentUpdate 0 []),
    .workerExits 1, tellPs 9 .idle]

theorem departed_worker_makes_quorum :
    ¬ ∀ (job : Job) (workers servers : List (WorkerDescriptor Nat)) (inputs : List (Input Nat)),
      Along AggregatesWhenReady (run RunningMean job workers servers inputs).history := by
  intro h
  have hready := (h (smallJob 1 1 5) (joined [1, 2]) (joined [9]) departedWorker).1 9 0 (fun _ => 0)
    (.peers [2] .all none) rfl (by decide)
  revert hready
  decide

end Hypha.Scheduler
