import Hypha.Scheduler.Concurrent

/-!
# Answers in kind, and errors

A handler fails only where it sends its metrics, in the arms of `SentUpdate` and `BroadcastedUpdate`. Nothing has been
written by then, but `BatchScheduler::run` answers every error with `Train(Terminate)`, also a parameter server's.

* `Belongs`, `enter_belongs`, `resume_belongs` : the points of the arm of a report, and what it is answered at its end;
* `Suspends`, `suspends_belongs` : the points that a handler can reach, whatever happens between its stretches;
* `Unchanged`, `schedule_error` : what an error leaves as it was;
* `answers_in_kind_iff` : a report is answered by an action for its executor, and an error changes nothing, unless a
  broadcast is reported when the receiver of the metrics is gone.
-/

namespace Hypha.Scheduler

open Hypha.Lib Hypha.Action

variable {PeerId T : Type} [LinearOrder PeerId] [RuntimeStatistic T]

/-! ## The arm of a report -/

/-- The points of the arm of a report, and how it ends: with an action for the executor that reports, or with an error if
the arm sends metrics. -/
inductive Belongs (jobId : Uuid) : ExecutorStatus → Await PeerId → Prop where
  | joinedRound : Belongs jobId (.train .joined) .joinedRound
  | idleRound : Belongs jobId (.train .idle) .idleRound
  | idleTraining (snapshot : List (WorkerDescriptorWithInfo PeerId)) :
      Belongs jobId (.train .idle) (.idleTraining snapshot)
  | batchTraining (batchSize batches : Nat) (snapshot : List (WorkerDescriptorWithInfo PeerId)) :
      Belongs jobId (.train (.batchCompleted batchSize batches)) (.batchTraining batchSize batches snapshot)
  | batchRound (batchSize batches : Nat) (snapshot : List (WorkerDescriptorWithInfo PeerId))
      (count target contribution : Nat) :
      Belongs jobId (.train (.batchCompleted batchSize batches)) (.batchRound snapshot count target contribution)
  | sentRound (round : Nat) (metrics : MetricMap) (samples : Nat) :
      Belongs jobId (.train (.sentUpdate round metrics)) (.sentRound metrics samples)
  | sentSend (round : Nat) (metrics : MetricMap) (message : Metrics) :
      Belongs jobId (.train (.sentUpdate round metrics)) (.sentSend message)
  | sentRound' (round : Nat) (metrics : MetricMap) : Belongs jobId (.train (.sentUpdate round metrics)) .sentRound'
  | appliedRound : Belongs jobId (.train .appliedUpdate) .appliedRound
  | pushedRound : Belongs jobId (.train .pushedToHub) .pushedRound
  | aggregateIdleRound : Belongs jobId (.aggregate .idle) .aggregateIdleRound
  | aggregateIdleRound' (workers : List PeerId) : Belongs jobId (.aggregate .idle) (.aggregateIdleRound' workers)
  | aggregatedRound (metrics : Option MetricMap) (workers : List PeerId) :
      Belongs jobId (.aggregate (.aggregatedUpdates metrics)) (.aggregatedRound workers)
  | broadcastedTraining (metrics : Option MetricMap) :
      Belongs jobId (.aggregate (.broadcastedUpdate metrics)) (.broadcastedTraining metrics)
  | broadcastedRound (metrics : Option MetricMap) (samples : Nat) :
      Belongs jobId (.aggregate (.broadcastedUpdate metrics)) (.broadcastedRound metrics samples)
  | broadcastedSend (metrics : Option MetricMap) (message : Metrics) :
      Belongs jobId (.aggregate (.broadcastedUpdate metrics)) (.broadcastedSend message)
  | broadcastedRound' (metrics : Option MetricMap) :
      Belongs jobId (.aggregate (.broadcastedUpdate metrics)) .broadcastedRound'
  | broadcastedTraining' (metrics : Option MetricMap) :
      Belongs jobId (.aggregate (.broadcastedUpdate metrics)) .broadcastedTraining'
  | broadcastedRound'' (metrics : Option MetricMap) :
      Belongs jobId (.aggregate (.broadcastedUpdate metrics)) .broadcastedRound''
  | aggregateErrorRound (error : AggregateError) (next : AggregateAction PeerId) :
      Belongs jobId (.aggregate (.error error)) (.aggregateErrorRound next)
  | train (status : TrainStatus) (action : TrainAction PeerId) :
      Belongs jobId (.train status) (.done (.ok ⟨jobId, .train action⟩))
  | aggregate (status : AggregateStatus) (action : AggregateAction PeerId) :
      Belongs jobId (.aggregate status) (.done (.ok ⟨jobId, .aggregate action⟩))
  | sentFails (round : Nat) (metrics : MetricMap) (error : BatchSchedulerError PeerId) :
      Belongs jobId (.train (.sentUpdate round metrics)) (.done (.error error))
  | broadcastedFails (metrics : Option MetricMap) (error : BatchSchedulerError PeerId) :
      Belongs jobId (.aggregate (.broadcastedUpdate metrics)) (.done (.error error))

section Stretches
variable (cfg : Settings) (ctx : Context PeerId) (s : SchedulerState PeerId T)

theorem enter_belongs (status : ExecutorStatus) : Belongs ctx.jobId status (enter ctx s status).2 := by
  unfold enter
  split
  · exact .joinedRound
  · unfold waitedForModel
    dsimp only
    split <;> exact .train _ _
  · exact .train _ _
  · exact .train _ _
  · exact .idleRound
  · exact .batchTraining _ _ _
  · exact .sentRound _ _ _
  · exact .appliedRound
  · simp only [pushedToHub]
    split_ifs
    · exact .pushedRound
    · exact .train _ _
  · exact .train _ _
  · exact .train _ _
  · exact .train _ _
  · exact .aggregateIdleRound
  · simp only [aggregatedUpdates]
    split_ifs
    · exact .aggregate _ _
    · exact .aggregate _ _
    · exact .aggregatedRound _ _
  · exact .broadcastedTraining _
  · exact .aggregateErrorRound _ _
  · exact .aggregateErrorRound _ _
  · exact .aggregate _ _

theorem resume_belongs (t : Instant) {status : ExecutorStatus} {k : Await PeerId} (h : Belongs ctx.jobId status k) :
    Belongs ctx.jobId status (resume cfg ctx s t k).2 := by
  cases h with
  | joinedRound =>
    simp only [resume, joinedRound]
    split_ifs <;> exact .train _ _
  | idleRound =>
    simp only [resume, idleRound, idleComplete]
    split_ifs
    · exact .idleTraining _
    · exact .train _ _
    · exact .train _ _
    · split <;> exact .train _ _
    · exact .train _ _
  | idleTraining snapshot => exact .train _ _
  | batchTraining batchSize batches snapshot => exact .batchRound _ _ _ _ _ _
  | batchRound => exact .train _ _
  | sentRound round metrics samples => exact .sentSend _ _ _
  | sentSend round metrics message =>
    simp only [resume, sentSend, sendMetrics]
    split_ifs
    · exact .sentRound' _ _
    · exact .sentFails _ _ _
  | sentRound' => exact .train _ _
  | appliedRound =>
    simp only [resume, appliedRound]
    split_ifs
    · exact .train _ _
    · split <;> exact .train _ _
  | pushedRound => exact .train _ _
  | aggregateIdleRound =>
    simp only [resume, aggregateIdleRound]
    split_ifs <;> first | exact .aggregate _ _ | exact .aggregateIdleRound' _
  | aggregateIdleRound' workers =>
    simp only [resume, aggregateIdleRound']
    split_ifs <;> exact .aggregate _ _
  | aggregatedRound => exact .aggregate _ _
  | broadcastedTraining metrics => exact .broadcastedRound _ _
  | broadcastedRound metrics samples => exact .broadcastedSend _ _
  | broadcastedSend metrics message =>
    simp only [resume, broadcastedSend, sendMetrics]
    split_ifs
    · exact .broadcastedRound' _
    · exact .broadcastedFails _ _
  | broadcastedRound' metrics => exact .broadcastedTraining' _
  | broadcastedTraining' metrics => exact .broadcastedRound'' _
  | broadcastedRound'' => exact .aggregate _ _
  | aggregateErrorRound => exact .aggregate _ _
  | train status action => exact .train _ _
  | aggregate status action => exact .aggregate _ _
  | sentFails round metrics error => exact .sentFails _ _ _
  | broadcastedFails metrics error => exact .broadcastedFails _ _

/-- A stretch that ends with an error finds the receiver gone and writes nothing. -/
theorem resume_error (t : Instant) {status : ExecutorStatus} {k : Await PeerId} (hk : Belongs ctx.jobId status k)
    (running : k.isDone = false) {error : BatchSchedulerError PeerId}
    (h : (resume cfg ctx s t k).2 = .done (.error error)) : s.receiving = false ∧ (resume cfg ctx s t k).1 = s := by
  have hend := resume_belongs cfg ctx s t hk
  rw [h] at hend
  cases hend with
  | sentFails round metrics error =>
    cases hk with
    | sentSend round metrics message =>
      simp only [resume, sentSend, sendMetrics] at h ⊢
      split_ifs at h ⊢ with hreceiving
      exact ⟨Bool.eq_false_iff.mpr hreceiving, rfl⟩
    | sentRound => cases h
    | sentRound' => cases h
    | train => cases running
    | sentFails => cases running
  | broadcastedFails metrics error =>
    cases hk with
    | broadcastedSend metrics message =>
      simp only [resume, broadcastedSend, sendMetrics] at h ⊢
      split_ifs at h ⊢ with hreceiving
      exact ⟨Bool.eq_false_iff.mpr hreceiving, rfl⟩
    | broadcastedTraining => cases h
    | broadcastedRound => cases h
    | broadcastedRound' => cases h
    | broadcastedTraining' => cases h
    | broadcastedRound'' => cases h
    | aggregate => cases running
    | broadcastedFails => cases running

end Stretches

/-! ## Whatever happens meanwhile -/

/-- The points that a handler can reach. Its stretches find the shared state in any state. -/
inductive Suspends (T : Type) [RuntimeStatistic T] (cfg : Settings) (request : PeerId × ActionRequest) :
    Context PeerId → Await PeerId → Prop where
  | start (s : SchedulerState PeerId T) (t : Instant) (now : SystemTime) :
      Suspends T cfg request (start cfg s t now request).1 (start cfg s t now request).2.2
  | resume {ctx : Context PeerId} {k : Await PeerId} (h : Suspends T cfg request ctx k) (running : k.isDone = false)
      (s : SchedulerState PeerId T) (t : Instant) : Suspends T cfg request ctx (resume cfg ctx s t k).2

/-- **Every answer is in kind**, and only the reports that send metrics can fail. -/
theorem suspends_belongs {cfg : Settings} {request : PeerId × ActionRequest} {ctx : Context PeerId} {k : Await PeerId}
    (h : Suspends T cfg request ctx k) : ctx.jobId = request.2.jobId ∧ Belongs request.2.jobId request.2.status k := by
  induction h with
  | start s t now => exact ⟨rfl, enter_belongs (context cfg s t now request.1 request.2.jobId) _ request.2.status⟩
  | resume h running s t ih =>
    refine ⟨ih.1, ?_⟩
    have hk := ih.2
    rw [← ih.1] at hk ⊢
    exact resume_belongs cfg _ s t hk

/-- A handler that runs alone reaches its end that way. -/
theorem drive_suspends {cfg : Settings} {request : PeerId × ActionRequest} {ctx : Context PeerId}
    (clock : Nat → Instant) : ∀ (n : Nat) {r : SchedulerState PeerId T × Await PeerId},
      Suspends T cfg request ctx r.2 → Suspends T cfg request ctx (drive cfg ctx clock n r).2
  | 0, _, h => h
  | n + 1, r, h => by
    cases hdone : r.2.isDone with
    | true => rwa [drive_done cfg ctx clock (n + 1) hdone]
    | false =>
      rw [drive_step cfg ctx clock n hdone]
      exact drive_suspends clock n (h.resume hdone r.1 (clock n))

section Alone
variable (cfg : Settings) (s : SchedulerState PeerId T) (clock : Nat → Instant) (now : SystemTime)
  (request : PeerId × ActionRequest)

theorem schedule_belongs : Belongs request.2.jobId request.2.status (schedule cfg s clock now request).2 :=
  (suspends_belongs (drive_suspends clock 6 (.start s (clock 6) now))).2

/-! ## Errors -/

/-- The state is as it was. What is remembered of peers that are not members is dropped whenever a pool is read. -/
structure Unchanged (s s' : SchedulerState PeerId T) : Prop where
  roundState : s'.roundState = s.roundState
  trainingState : s'.trainingState = s.trainingState
  workers : s'.workerPool.retain = s.workerPool.retain
  servers : s'.parameterPool.retain = s.parameterPool.retain

/-- An error comes from a report that sends metrics, when their receiver is gone. -/
theorem schedule_error {error : BatchSchedulerError PeerId}
    (h : (schedule cfg s clock now request).2 = .done (.error error)) :
    s.receiving = false ∧ Unchanged s (schedule cfg s clock now request).1 := by
  obtain ⟨p, j, status⟩ := request
  have hbelongs := schedule_belongs cfg s clock now (p, ⟨j, status⟩)
  rw [h] at hbelongs
  cases hbelongs with
  | sentFails round metrics =>
    rw [schedule_sentUpdate] at h ⊢
    dsimp only at h ⊢
    split_ifs at h ⊢ with hreceiving
    · cases h
    · refine ⟨Bool.eq_false_iff.mpr hreceiving, rfl, rfl, ?_, PoolWithAggregateInfo.retain_retain _⟩
      exact s.workerPool.retain_retain
  | broadcastedFails metrics =>
    rw [schedule_broadcastedUpdate] at h ⊢
    dsimp only at h ⊢
    split_ifs at h ⊢ with hreceiving
    · cases h
    · exact ⟨Bool.eq_false_iff.mpr hreceiving, rfl, rfl, rfl, PoolWithAggregateInfo.retain_retain _⟩

/-! ## Answers -/

/-- The response to a request; a request of another job is none of this scheduler's. -/
def response? : Option (ActionResponse PeerId) :=
  if request.2.jobId = cfg.id then some (respond cfg (schedule cfg s clock now request).2) else none

/-- An action for the executor that reports. -/
def inKind : ExecutorStatus → ExecutorAction PeerId → Bool
  | .train _, .train _ => true
  | .aggregate _, .aggregate _ => true
  | _, _ => false

/-- The asker gets an action of its own class for its job, and an error leaves everything as it was. -/
structure AnswersInKind : Prop where
  answered : ∀ response, response? cfg s clock now request = some response →
    response.jobId = request.2.jobId ∧ inKind request.2.status response.next = true
  unchanged : ∀ error, (schedule cfg s clock now request).2 = .done (.error error) →
    Unchanged s (schedule cfg s clock now request).1

/-- A reported broadcast whose metrics cannot be sent is answered like a training worker. -/
theorem response_broadcastedUpdate_failed {cfg : Settings} {s : SchedulerState PeerId T} {clock : Nat → Instant}
    {now : SystemTime} {p : PeerId} {metrics : Option MetricMap} (hreceiving : s.receiving = false) :
    response? cfg s clock now (p, ⟨cfg.id, .aggregate (.broadcastedUpdate metrics)⟩) =
      some ⟨cfg.id, .train .terminate⟩ := by
  unfold response?
  rw [if_pos rfl, schedule_broadcastedUpdate]
  dsimp only
  rw [if_neg (Bool.eq_false_iff.mp hreceiving)]
  rfl

/-- **Answers in kind**: every report of the job is answered so, and errors change nothing, unless a broadcast is
reported when the receiver of the metrics is gone. -/
theorem answers_in_kind_iff :
    AnswersInKind cfg s clock now request ↔
      ¬ (request.2.jobId = cfg.id ∧ (∃ metrics, request.2.status = .aggregate (.broadcastedUpdate metrics)) ∧
        s.receiving = false) := by
  constructor
  · rintro hkind ⟨hid, ⟨metrics, hstatus⟩, hreceiving⟩
    obtain ⟨p, j, status⟩ := request
    obtain rfl : status = .aggregate (.broadcastedUpdate metrics) := hstatus
    obtain rfl : j = cfg.id := hid
    exact Bool.noConfusion (hkind.answered _ (response_broadcastedUpdate_failed hreceiving)).2
  · intro hgood
    refine ⟨fun response hresponse => ?_, fun error herror => (schedule_error cfg s clock now request herror).2⟩
    unfold response? at hresponse
    split_ifs at hresponse with hid
    obtain rfl := Option.some.inj hresponse
    have hbelongs := schedule_belongs cfg s clock now request
    obtain ⟨result, hresult⟩ := Await.eq_done_of_isDone
      (schedule_isDone cfg s clock now request.1 request.2.jobId request.2.status)
    have hschedule : (schedule cfg s clock now request).2 = .done result := hresult
    rw [hschedule] at hbelongs ⊢
    generalize hstatus : request.2.status = status at hbelongs
    cases hbelongs with
    | train status action => exact ⟨rfl, rfl⟩
    | aggregate status action => exact ⟨rfl, rfl⟩
    | sentFails round metrics error => exact ⟨hid.symm, rfl⟩
    | broadcastedFails metrics error =>
      exact absurd ⟨hid, ⟨metrics, hstatus⟩, (schedule_error cfg s clock now request hschedule).1⟩ hgood

end Alone

/-- The receiver of the metrics is gone, and parameter server 7 reports a broadcast. -/
theorem answers_in_kind_fails :
    ¬ ∀ (cfg : Settings) (s : SchedulerState Nat RunningMean) (clock : Nat → Instant) (now : SystemTime)
      (request : Nat × ActionRequest), AnswersInKind cfg s clock now request := by
  intro hclaim
  have hkind := hclaim (smallJob 1 1 1).settings
    (run RunningMean (smallJob 1 1 1) (joined [1]) (joined [7]) [.receiverCloses]).state (fun _ => 0) 0
    (7, ⟨(smallJob 1 1 1).settings.id, .aggregate (.broadcastedUpdate none)⟩)
  exact Bool.noConfusion (hkind.answered _ (response_broadcastedUpdate_failed rfl)).2

end Hypha.Scheduler
