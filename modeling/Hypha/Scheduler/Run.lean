import Hypha.Lib.Machine
import Hypha.Scheduler.Answer

/-!
# Runs of the scheduler

The scheduler as a machine: an input is a report of a peer, handled to its end, or a change of the environment (members
of a pool join and leave, the receiver of the metrics goes away). A run records every input with its answer.

* `machine`, `initial` : the scheduler and the state `BatchScheduler::run` starts it in;
* `step_report`, `step_environment` : what a step does;
* `advancing`, `currentRound`, `lastAnswer` : the history as the protocol sees it.
-/

namespace Hypha.Scheduler

open Hypha.Lib Hypha.Action

set_option linter.unusedSectionVars false

variable {PeerId T : Type} [LinearOrder PeerId] [RuntimeStatistic T]

/-- A report, with the system time and the clock its handler reads, or a change of the environment. -/
inductive Input (PeerId : Type) where
  | report (peer : PeerId) (status : ExecutorStatus) (now : SystemTime) (clock : Nat → Instant)
  | workersJoin (workers : List (WorkerDescriptor PeerId))
  | workerExits (peer : PeerId)
  | serversJoin (servers : List (WorkerDescriptor PeerId))
  | serverExits (peer : PeerId)
  | receiverCloses

/-- The step of an input. -/
def step (cfg : Settings) (s : SchedulerState PeerId T) :
    Input PeerId → SchedulerState PeerId T × Option (ExecutorAction PeerId)
  | .report p status now clock =>
    ((schedule cfg s clock now (p, ⟨cfg.id, status⟩)).1, some (answer cfg s clock now p status))
  | .workersJoin workers =>
    ({ s with workerPool := { s.workerPool with members := joinMembers s.workerPool.members workers } }, none)
  | .workerExits p =>
    ({ s with workerPool := { s.workerPool with members := exitMembers s.workerPool.members p } }, none)
  | .serversJoin servers =>
    ({ s with parameterPool := { s.parameterPool with members := joinMembers s.parameterPool.members servers } }, none)
  | .serverExits p =>
    ({ s with parameterPool := { s.parameterPool with members := exitMembers s.parameterPool.members p } }, none)
  | .receiverCloses => ({ s with receiving := false }, none)

/-- The scheduler. -/
def machine (cfg : Settings) : Machine (SchedulerState PeerId T) (Input PeerId) (Option (ExecutorAction PeerId)) :=
  ⟨step cfg⟩

/-- One step of a run of the scheduler. -/
abbrev Step (PeerId T : Type) := Event (SchedulerState PeerId T) (Input PeerId) (Option (ExecutorAction PeerId))

/-- A run of the scheduler. -/
abbrev Trace (PeerId T : Type) := World (SchedulerState PeerId T) (Input PeerId) (Option (ExecutorAction PeerId))

/-- The arguments of `BatchScheduler::run` that its handlers only read. -/
structure Job where
  settings : Settings
  minQuorum : Nat
  grace : Duration
  samplesBetweenUpdates : Nat
  updateRounds : Nat

/-- The state in which `BatchScheduler::run` starts, with the members the pools have by then. -/
def initial (job : Job) (workers servers : List (WorkerDescriptor PeerId)) : SchedulerState PeerId T where
  workerPool := ⟨workers, fun _ => none⟩
  parameterPool := ⟨servers, fun _ => none⟩
  roundState :=
    { roundStartedAt := job.settings.start
      minQuorum := job.minQuorum
      grace := job.grace
      updateRounds := job.updateRounds }
  trainingState := { updateTarget := job.samplesBetweenUpdates }

/-- The run of a job over a list of inputs. -/
def run (T : Type) [RuntimeStatistic T] (job : Job) (workers servers : List (WorkerDescriptor PeerId))
    (inputs : List (Input PeerId)) : Trace PeerId T :=
  (machine job.settings).run (initial job workers servers) inputs

/-! ## What a step does -/

/-- What a change of the environment leaves alone. -/
structure Environment (s s' : SchedulerState PeerId T) : Prop where
  roundState : s'.roundState = s.roundState
  trainingState : s'.trainingState = s.trainingState
  standing : ∀ q, standing s'.workerPool q = standing s.workerPool q
  updatesOf : ∀ q, s'.parameterPool.updatesOf q = s.parameterPool.updatesOf q

/-- The peer and the report of an input. -/
def Input.report? : Input PeerId → Option (PeerId × ExecutorStatus)
  | .report p status _ _ => some (p, status)
  | _ => none

theorem step_environment (cfg : Settings) (s : SchedulerState PeerId T) {i : Input PeerId} (hi : i.report? = none) :
    Environment s (step cfg s i).1 ∧ (step cfg s i).2 = none := by
  cases i with
  | report p status now clock => cases hi
  | workersJoin _ => exact ⟨⟨rfl, rfl, fun _ => rfl, fun _ => rfl⟩, rfl⟩
  | workerExits _ => exact ⟨⟨rfl, rfl, fun _ => rfl, fun _ => rfl⟩, rfl⟩
  | serversJoin _ => exact ⟨⟨rfl, rfl, fun _ => rfl, fun _ => rfl⟩, rfl⟩
  | serverExits _ => exact ⟨⟨rfl, rfl, fun _ => rfl, fun _ => rfl⟩, rfl⟩
  | receiverCloses => exact ⟨⟨rfl, rfl, fun _ => rfl, fun _ => rfl⟩, rfl⟩

theorem step_report (cfg : Settings) (s : SchedulerState PeerId T) {i : Input PeerId} {p : PeerId}
    {status : ExecutorStatus} (hi : i.report? = some (p, status)) :
    Effect s (step cfg s i).1 p status ∧
      ∃ now clock, (step cfg s i).2 = some (answer cfg s clock now p status) := by
  cases i with
  | report p' status' now clock =>
    obtain ⟨rfl, rfl⟩ := Prod.mk.inj (Option.some.inj hi)
    exact ⟨schedule_effect cfg s clock now p' cfg.id status', now, clock, rfl⟩
  | workersJoin _ => cases hi
  | workerExits _ => cases hi
  | serversJoin _ => cases hi
  | serverExits _ => cases hi
  | receiverCloses => cases hi

section Outputs
variable {cfg : Settings} {s : SchedulerState PeerId T} {i : Input PeerId}

/-- An output answers a report. -/
theorem report_of_output {a : ExecutorAction PeerId} (h : (step cfg s i).2 = some a) :
    ∃ p status now clock, i.report? = some (p, status) ∧ answer cfg s clock now p status = a := by
  cases i with
  | report p status now clock => exact ⟨p, status, now, clock, rfl, Option.some.inj h⟩
  | workersJoin _ => cases h
  | workerExits _ => cases h
  | serversJoin _ => cases h
  | serverExits _ => cases h
  | receiverCloses => cases h

theorem step_sendUpdate {r : Reference PeerId} {weight : Weight}
    (h : (step cfg s i).2 = some (.train (.sendUpdate r weight))) :
    ∃ p status, i.report? = some (p, status) ∧ SendsUpdate s p status r weight := by
  obtain ⟨p, status, now, clock, hi, ha⟩ := report_of_output h
  exact ⟨p, status, hi, sendsUpdate_of_answer cfg s clock now p ha⟩

theorem step_aggregateUpdates {r : Reference PeerId}
    (h : (step cfg s i).2 = some (.aggregate (.aggregateUpdates r))) :
    ∃ p, i.report? = some (p, .aggregate .idle) ∧ s.roundState.trainingComplete = false ∧
      s.parameterPool.ids.head? = some p ∧
        ((s.parameterPool.updatesOf p).Nonempty ∨ s.roundState.firstUpdateAt.isSome = true) := by
  obtain ⟨p, status, now, clock, hi, ha⟩ := report_of_output h
  obtain ⟨rfl, hrest⟩ := aggregates_of_answer cfg s clock now p ha
  exact ⟨p, hi, hrest⟩

theorem step_broadcastUpdate {r : Reference PeerId}
    (h : (step cfg s i).2 = some (.aggregate (.broadcastUpdate r))) :
    ∃ p metrics, i.report? = some (p, .aggregate (.aggregatedUpdates metrics)) ∧
      announces s p (.aggregate (.aggregatedUpdates metrics)) = true := by
  obtain ⟨p, status, now, clock, hi, ha⟩ := report_of_output h
  obtain ⟨⟨metrics, rfl⟩, hann⟩ := announces_of_answer cfg s clock now p ha
  exact ⟨p, metrics, hi, hann⟩

end Outputs

/-! ## The history -/

/-- The peer whose report a step handles. -/
def reporter (e : Step PeerId T) : Option PeerId := e.input.report?.map (·.1)

theorem report_of_reporter {e : Step PeerId T} {p : PeerId} (h : reporter e = some p) :
    ∃ status, e.input.report? = some (p, status) := by
  obtain ⟨⟨q, status⟩, hreport, rfl⟩ := Option.map_eq_some_iff.mp h
  exact ⟨status, hreport⟩

/-- The report a step handles. -/
def statusOf (e : Step PeerId T) : Option ExecutorStatus := e.input.report?.map (·.2)

/-- Whether a step advances the round. -/
def advancing (e : Step PeerId T) : Bool := (statusOf e).any (advances e.pre)

/-- The steps of the current round, newest first. -/
def currentRound (h : List (Step PeerId T)) : List (Step PeerId T) := h.takeWhile (fun e => !advancing e)

/-- The peer that leaves a pool with an input. -/
def Input.exit? : Input PeerId → Option PeerId
  | .workerExits p => some p
  | .serverExits p => some p
  | _ => none

/-- What a peer was last told, nothing if it has left since. -/
def lastAnswer (p : PeerId) : List (Step PeerId T) → Option (ExecutorAction PeerId)
  | [] => none
  | e :: h =>
    if reporter e = some p then e.output
    else if e.input.exit? = some p then none
    else lastAnswer p h

theorem advancing_report (cfg : Settings) (s : SchedulerState PeerId T) {i : Input PeerId} {p : PeerId}
    {status : ExecutorStatus} (hi : i.report? = some (p, status)) :
    advancing ((machine cfg).event s i) = advances s status := by
  simp [advancing, statusOf, hi]

/-- A step that advances the round handles a `BroadcastedUpdate` while its metrics can be sent. -/
theorem report_of_advancing (cfg : Settings) (s : SchedulerState PeerId T) {i : Input PeerId}
    (h : advancing ((machine cfg).event s i) = true) :
    ∃ p metrics, i.report? = some (p, .aggregate (.broadcastedUpdate metrics)) ∧ s.receiving = true := by
  cases hi : i.report? with
  | none => simp [advancing, statusOf, hi] at h
  | some report =>
    obtain ⟨p, status⟩ := report
    rw [advancing_report cfg s hi] at h
    unfold advances at h
    split at h
    · exact ⟨p, _, rfl, h⟩
    · exact absurd h Bool.false_ne_true

/-- A step that does not advance the round changes neither the round nor the completion. -/
theorem round_of_not_advancing {cfg : Settings} {i : Input PeerId} (s : SchedulerState PeerId T)
    (h : advancing ((machine cfg).event s i) = false) :
    (step cfg s i).1.roundState.round = s.roundState.round ∧
      (step cfg s i).1.roundState.trainingComplete = s.roundState.trainingComplete ∧
      (step cfg s i).1.roundState.updateRounds = s.roundState.updateRounds := by
  cases hi : i.report? with
  | none =>
    rw [(step_environment cfg s hi).1.roundState]
    exact ⟨rfl, rfl, rfl⟩
  | some report =>
    obtain ⟨p, status⟩ := report
    rw [advancing_report cfg s hi] at h
    have heff := (step_report cfg s hi).1
    refine ⟨?_, ?_, heff.updateRounds⟩
    · rw [heff.round, h]
      rfl
    · rw [heff.trainingComplete, h, Bool.false_and, Bool.or_false]

theorem currentRound_cons_advancing {e : Step PeerId T} {h : List (Step PeerId T)} (he : advancing e = true) :
    currentRound (e :: h) = [] := by
  simp [currentRound, he]

theorem currentRound_cons {e : Step PeerId T} {h : List (Step PeerId T)} (he : advancing e = false) :
    currentRound (e :: h) = e :: currentRound h := by
  simp [currentRound, he]

/-! ## A small job

For the runs on explicit inputs: peers are numbers, every batch has one sample, and all happens within the first
millisecond. -/

/-- A job with the given quorum, target and number of rounds. -/
def smallJob (minQuorum samplesBetweenUpdates updateRounds : Nat) : Job where
  settings := ⟨0, fun _ => 1, 1, none, 0, basicSimulation⟩
  minQuorum := minQuorum
  grace := 0
  samplesBetweenUpdates := samplesBetweenUpdates
  updateRounds := updateRounds

/-- Members of a pool, in the order in which they joined. -/
def joined (peers : List Nat) : List (WorkerDescriptor Nat) := peers.zipIdx.map fun (p, n) => ⟨p, {}, n⟩

/-- A report of a training worker. -/
def tell (p : Nat) (status : TrainStatus) : Input Nat := .report p (.train status) 0 (fun _ => 0)

/-- A report of a parameter server. -/
def tellPs (p : Nat) (status : AggregateStatus) : Input Nat := .report p (.aggregate status) 0 (fun _ => 0)

/-- Worker 1 sends its update, and the parameter server 9 has aggregated it. -/
def oneAggregate : List (Input Nat) :=
  [tell 1 .joined, tell 1 .idle, tell 1 (.batchCompleted 1 1), tell 1 (.sentUpdate 1 []), tellPs 9 .idle,
    tellPs 9 (.aggregatedUpdates none)]

/-- Workers 1 and 2 train. Worker 1, told to go on before the target of two samples is met, completes a second batch;
both are told to send their updates, and worker 1 has done so. -/
def twoWorkers : List (Input Nat) :=
  [tell 1 .joined, tell 2 .joined, tellPs 9 .idle, tell 1 .idle, tell 2 .idle, tell 1 (.batchCompleted 1 1),
    tell 2 (.batchCompleted 1 1), tell 1 (.batchCompleted 1 1), tell 1 (.sentUpdate 1 [])]

end Hypha.Scheduler
