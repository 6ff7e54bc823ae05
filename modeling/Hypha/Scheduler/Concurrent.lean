import Hypha.Lib.Interleave
import Hypha.Scheduler.Run

/-!
# Handlers that run concurrently

`respond_with_concurrent(None, ..)` runs any number of handlers at once. Each is suspended at its await points, and what
the others do in between is arbitrary, except that a mutex is held by one of them at a time.

* `handlers` : the handlers as tasks, with the round state and the training state behind their mutexes;
* `enter_first`, `resume_next` : the order of their await points;
* `holds_exclusive` : a mutex is held by one of them at a time;
* `resumes_protected` : what a mutex protects is written only by a handler that was just granted it;
* `reachable_schedule` : a handler that runs alone does what `schedule` says.
-/

namespace Hypha.Scheduler

open Hypha.Lib Hypha.Action

variable {PeerId T : Type} [LinearOrder PeerId] [RuntimeStatistic T]

/-- The handler of a request: not started yet, or suspended. -/
inductive Handler (PeerId : Type) where
  | pending (request : PeerId × ActionRequest)
  | suspended (ctx : Context PeerId) (point : Await PeerId)

namespace Handler

def waits : Handler PeerId → Option Mutex
  | pending _ => none
  | suspended _ k => k.waits

def holds : Handler PeerId → Mutex → Bool
  | pending _, _ => false
  | suspended _ k, l => k.holds l

end Handler

/-- A request is started, or a suspended handler is granted what it waits for. -/
inductive Resumes (cfg : Settings) (s : SchedulerState PeerId T) :
    Handler PeerId → SchedulerState PeerId T × Handler PeerId → Prop where
  | start (t : Instant) (now : SystemTime) (request : PeerId × ActionRequest) :
      Resumes cfg s (.pending request)
        ((start cfg s t now request).2.1, .suspended (start cfg s t now request).1 (start cfg s t now request).2.2)
  | resume (t : Instant) (ctx : Context PeerId) (k : Await PeerId) (running : k.isDone = false) :
      Resumes cfg s (.suspended ctx k) ((resume cfg ctx s t k).1, .suspended ctx (resume cfg ctx s t k).2)

/-- The handlers of a job. Meanwhile members join and leave the pools, and the receiver of the metrics may go. -/
def handlers (cfg : Settings) : System (SchedulerState PeerId T) (Handler PeerId) Mutex where
  waits := Handler.waits
  holds := Handler.holds
  resume := Resumes cfg
  environment s s' := ∃ i : Input PeerId, i.report? = none ∧ s' = (step cfg s i).1

/-- The start of a job, with the requests that will arrive. -/
def arriving {ι : Type} (job : Job) (workers servers : List (WorkerDescriptor PeerId))
    (requests : ι → PeerId × ActionRequest) : Config ι (SchedulerState PeerId T) (Handler PeerId) where
  shared := initial job workers servers
  tasks i := .pending (requests i)

/-! ## The order of await points -/

omit [LinearOrder PeerId] in
theorem Await.eq_done_of_isDone {k : Await PeerId} (h : k.isDone = true) : ∃ result, k = .done result := by
  cases k <;> cases h
  exact ⟨_, rfl⟩

/-- The await points at which an arm begins. -/
inductive First : ExecutorStatus → Await PeerId → Prop where
  | joined : First (.train .joined) .joinedRound
  | idle : First (.train .idle) .idleRound
  | batch (batchSize batches : Nat) (snapshot : List (WorkerDescriptorWithInfo PeerId)) :
      First (.train (.batchCompleted batchSize batches)) (.batchTraining batchSize batches snapshot)
  | sent (round : Nat) (metrics : MetricMap) (samples : Nat) :
      First (.train (.sentUpdate round metrics)) (.sentRound metrics samples)
  | applied : First (.train .appliedUpdate) .appliedRound
  | pushed : First (.train .pushedToHub) .pushedRound
  | aggregateIdle : First (.aggregate .idle) .aggregateIdleRound
  | aggregated (metrics : Option MetricMap) (workers : List PeerId) :
      First (.aggregate (.aggregatedUpdates metrics)) (.aggregatedRound workers)
  | broadcasted (metrics : Option MetricMap) :
      First (.aggregate (.broadcastedUpdate metrics)) (.broadcastedTraining metrics)
  | aggregateError (error : AggregateError) (next : AggregateAction PeerId) :
      First (.aggregate (.error error)) (.aggregateErrorRound next)
  | ended (status : ExecutorStatus) (result : Except (BatchSchedulerError PeerId) (ActionResponse PeerId)) :
      First status (.done result)

/-- The await points that follow one another. -/
inductive Next : Await PeerId → Await PeerId → Prop where
  | idle (snapshot : List (WorkerDescriptorWithInfo PeerId)) : Next .idleRound (.idleTraining snapshot)
  | batch (batchSize batches : Nat) (snapshot : List (WorkerDescriptorWithInfo PeerId)) (count target samples : Nat) :
      Next (.batchTraining batchSize batches snapshot) (.batchRound snapshot count target samples)
  | sentRound (metrics : MetricMap) (samples : Nat) (message : Metrics) :
      Next (.sentRound metrics samples) (.sentSend message)
  | sentSend (message : Metrics) : Next (.sentSend message) .sentRound'
  | aggregateIdle (workers : List PeerId) : Next .aggregateIdleRound (.aggregateIdleRound' workers)
  | broadcastedTraining (metrics : Option MetricMap) (samples : Nat) :
      Next (.broadcastedTraining metrics) (.broadcastedRound metrics samples)
  | broadcastedRound (metrics : Option MetricMap) (samples : Nat) (message : Metrics) :
      Next (.broadcastedRound metrics samples) (.broadcastedSend message)
  | broadcastedSend (message : Metrics) : Next (.broadcastedSend message) .broadcastedRound'
  | broadcastedRound' : Next .broadcastedRound' .broadcastedTraining'
  | broadcastedTraining' : Next .broadcastedTraining' .broadcastedRound''
  | ended (k : Await PeerId) (result : Except (BatchSchedulerError PeerId) (ActionResponse PeerId)) :
      Next k (.done result)

section Order
variable (cfg : Settings) (ctx : Context PeerId) (s : SchedulerState PeerId T)

theorem enter_first (status : ExecutorStatus) : First status (enter ctx s status).2 := by
  unfold enter
  split
  · exact First.joined
  · obtain ⟨result, hdone⟩ := Await.eq_done_of_isDone (waitedForModel_isDone ctx s)
    rw [hdone]
    exact First.ended _ _
  · exact First.ended _ _
  · exact First.ended _ _
  · exact First.idle
  · exact First.batch _ _ _
  · exact First.sent _ _ _
  · exact First.applied
  · simp only [pushedToHub]
    split_ifs
    · exact First.pushed
    · exact First.ended _ _
  · exact First.ended _ _
  · exact First.ended _ _
  · exact First.ended _ _
  · exact First.aggregateIdle
  · simp only [aggregatedUpdates]
    split_ifs
    · exact First.ended _ _
    · exact First.ended _ _
    · exact First.aggregated _ _
  · exact First.broadcasted _
  · exact First.aggregateError _ _
  · exact First.aggregateError _ _
  · exact First.ended _ _

omit [LinearOrder PeerId] in
theorem next_of_isDone {k k' : Await PeerId} (h : k'.isDone = true) : Next k k' := by
  obtain ⟨result, rfl⟩ := Await.eq_done_of_isDone h
  exact Next.ended k result

theorem resume_next (t : Instant) (k : Await PeerId) : Next k (resume cfg ctx s t k).2 := by
  cases k with
  | joinedRound => exact next_of_isDone (joinedRound_isDone _ _)
  | idleRound =>
    simp only [resume, idleRound]
    split_ifs
    · exact Next.idle _
    · exact next_of_isDone (idleComplete_isDone _ _ _)
  | batchTraining _ _ _ => exact Next.batch _ _ _ _ _ _
  | sentRound _ _ => exact Next.sentRound _ _ _
  | sentSend message =>
    simp only [resume, sentSend, sendMetrics]
    split_ifs
    · exact Next.sentSend _
    · exact Next.ended _ _
  | appliedRound => exact next_of_isDone (appliedRound_isDone _ _)
  | aggregateIdleRound =>
    simp only [resume, aggregateIdleRound]
    split_ifs
    · exact Next.ended _ _
    · exact Next.ended _ _
    · exact Next.ended _ _
    · exact Next.ended _ _
    · exact Next.aggregateIdle _
  | aggregateIdleRound' workers => exact next_of_isDone (aggregateIdleRound'_isDone _ _ _ _)
  | broadcastedTraining _ => exact Next.broadcastedTraining _ _
  | broadcastedRound _ _ => exact Next.broadcastedRound _ _ _
  | broadcastedSend message =>
    simp only [resume, broadcastedSend, sendMetrics]
    split_ifs
    · exact Next.broadcastedSend _
    · exact Next.ended _ _
  | broadcastedRound' => exact Next.broadcastedRound'
  | broadcastedTraining' => exact Next.broadcastedTraining'
  | _ => exact Next.ended _ _

end Order

omit [LinearOrder PeerId] in
theorem First.holds {status : ExecutorStatus} {k : Await PeerId} (h : First status k) (l : Mutex) :
    k.holds l = false := by
  cases h <;> rfl

omit [LinearOrder PeerId] in
/-- A handler keeps only a mutex it was just granted. -/
theorem Next.waits_of_holds {k k' : Await PeerId} (h : Next k k') {l : Mutex} (hl : k'.holds l = true) :
    k.waits = some l := by
  cases h <;> cases l <;> first | rfl | exact Bool.noConfusion hl

/-- No two handlers hold the same mutex. -/
theorem holds_exclusive {ι : Type} [DecidableEq ι] {job : Job} {workers servers : List (WorkerDescriptor PeerId)}
    {requests : ι → PeerId × ActionRequest} {c : Config ι (SchedulerState PeerId T) (Handler PeerId)}
    (h : (handlers job.settings).Reachable (arriving job workers servers requests) c) {i j : ι} {l : Mutex}
    (hi : (c.tasks i).holds l = true) (hj : (c.tasks j).holds l = true) : i = j := by
  refine System.exclusive (fun _ _ => rfl) ?_ h i j l hi hj
  intro s k s' k' l hres hl
  cases hres with
  | start t now request =>
    have hnone : (start job.settings s t now request).2.2.holds l = false :=
      (enter_first _ _ request.2.status).holds l
    exact Bool.noConfusion (hnone.symm.trans hl)
  | resume t ctx k _ => exact Or.inl ((resume_next job.settings ctx s t k).waits_of_holds hl)

/-! ## What the mutexes protect -/

section Protected
variable (cfg : Settings) (ctx : Context PeerId) (s : SchedulerState PeerId T)

theorem enter_protected (status : ExecutorStatus) :
    (enter ctx s status).1.roundState = s.roundState ∧ (enter ctx s status).1.trainingState = s.trainingState := by
  unfold enter
  split <;> first
    | exact ⟨rfl, rfl⟩
    | (unfold waitedForModel; dsimp only; split <;> exact ⟨rfl, rfl⟩)
    | (unfold aggregatedUpdates; dsimp only; split_ifs <;> exact ⟨rfl, rfl⟩)

theorem start_protected (t : Instant) (now : SystemTime) (request : PeerId × ActionRequest) :
    (start cfg s t now request).2.1.roundState = s.roundState ∧
      (start cfg s t now request).2.1.trainingState = s.trainingState :=
  enter_protected _ _ request.2.status

omit [LinearOrder PeerId] [RuntimeStatistic T] in
theorem sendMetrics_protected (message : Metrics)
    (k : SchedulerState PeerId T → SchedulerState PeerId T × Await PeerId)
    (hk : ∀ s, (k s).1.roundState = s.roundState ∧ (k s).1.trainingState = s.trainingState) :
    (sendMetrics ctx s message k).1.roundState = s.roundState ∧
      (sendMetrics ctx s message k).1.trainingState = s.trainingState := by
  unfold sendMetrics
  split_ifs
  · exact hk _
  · exact ⟨rfl, rfl⟩

/-- What a mutex protects is written only once it was granted. -/
theorem resume_protected (t : Instant) (k : Await PeerId) :
    (k.waits ≠ some .roundState → (resume cfg ctx s t k).1.roundState = s.roundState) ∧
      (k.waits ≠ some .trainingState → (resume cfg ctx s t k).1.trainingState = s.trainingState) := by
  cases k with
  | joinedRound => exact ⟨fun h => absurd rfl h, fun _ => by simp only [resume, joinedRound]; split_ifs <;> rfl⟩
  | idleRound =>
    refine ⟨fun h => absurd rfl h, fun _ => ?_⟩
    simp only [resume, idleRound, idleComplete]
    split_ifs <;> first | rfl | (split <;> rfl)
  | idleTraining _ => exact ⟨fun _ => rfl, fun h => absurd rfl h⟩
  | batchTraining _ _ _ => exact ⟨fun _ => rfl, fun h => absurd rfl h⟩
  | batchRound _ _ _ _ => exact ⟨fun h => absurd rfl h, fun _ => rfl⟩
  | sentRound _ _ => exact ⟨fun h => absurd rfl h, fun _ => rfl⟩
  | sentSend message =>
    have h : (sentSend ctx s message).1.roundState = s.roundState ∧
        (sentSend ctx s message).1.trainingState = s.trainingState :=
      sendMetrics_protected ctx s message _ fun s => ⟨rfl, rfl⟩
    exact ⟨fun _ => h.1, fun _ => h.2⟩
  | sentRound' => exact ⟨fun h => absurd rfl h, fun _ => rfl⟩
  | appliedRound =>
    refine ⟨fun h => absurd rfl h, fun _ => ?_⟩
    simp only [resume, appliedRound]
    split_ifs
    · rfl
    · split <;> rfl
  | pushedRound => exact ⟨fun h => absurd rfl h, fun _ => rfl⟩
  | aggregateIdleRound =>
    refine ⟨fun h => absurd rfl h, fun _ => ?_⟩
    simp only [resume, aggregateIdleRound]
    split_ifs <;> rfl
  | aggregateIdleRound' _ =>
    refine ⟨fun h => absurd rfl h, fun _ => ?_⟩
    simp only [resume, aggregateIdleRound']
    split_ifs <;> rfl
  | aggregatedRound _ => exact ⟨fun h => absurd rfl h, fun _ => rfl⟩
  | broadcastedTraining _ => exact ⟨fun _ => rfl, fun h => absurd rfl h⟩
  | broadcastedRound _ _ => exact ⟨fun h => absurd rfl h, fun _ => rfl⟩
  | broadcastedSend message =>
    have h : (broadcastedSend ctx s message).1.roundState = s.roundState ∧
        (broadcastedSend ctx s message).1.trainingState = s.trainingState :=
      sendMetrics_protected ctx s message _ fun s => ⟨rfl, rfl⟩
    exact ⟨fun _ => h.1, fun _ => h.2⟩
  | broadcastedRound' => exact ⟨fun h => absurd rfl h, fun _ => rfl⟩
  | broadcastedTraining' => exact ⟨fun _ => rfl, fun h => absurd rfl h⟩
  | broadcastedRound'' => exact ⟨fun h => absurd rfl h, fun _ => rfl⟩
  | aggregateErrorRound _ => exact ⟨fun h => absurd rfl h, fun _ => rfl⟩
  | done _ => exact ⟨fun _ => rfl, fun _ => rfl⟩

end Protected

/-- The same of a handler that is started or resumed. -/
theorem resumes_protected {cfg : Settings} {s s' : SchedulerState PeerId T} {k k' : Handler PeerId}
    (h : Resumes cfg s k (s', k')) :
    (k.waits ≠ some .roundState → s'.roundState = s.roundState) ∧
      (k.waits ≠ some .trainingState → s'.trainingState = s.trainingState) := by
  cases h with
  | start t now request =>
    have hstart := start_protected cfg s t now request
    exact ⟨fun _ => hstart.1, fun _ => hstart.2⟩
  | resume t ctx k _ => exact resume_protected cfg ctx s t k

/-! ## A handler that runs alone -/

omit [LinearOrder PeerId] in
theorem Await.holds_of_waits {k : Await PeerId} {l : Mutex} (h : k.waits = some l) : k.holds l = false := by
  cases k <;> cases h <;> rfl

section Alone
variable {ι : Type} [DecidableEq ι] {cfg : Settings} {c : Config ι (SchedulerState PeerId T) (Handler PeerId)}
  {tasks : ι → Handler PeerId} {i : ι}

/-- Starting a handler. -/
theorem reachable_start {s : SchedulerState PeerId T} {request : PeerId × ActionRequest}
    (h : (handlers cfg).Reachable c ⟨s, tasks⟩) (hi : tasks i = .pending request) (t : Instant) (now : SystemTime) :
    (handlers cfg).Reachable c ⟨(start cfg s t now request).2.1, Function.update tasks i
      (.suspended (start cfg s t now request).1 (start cfg s t now request).2.2)⟩ := by
  refine h.run hi (fun l hl => ?_) (Resumes.start t now request)
  cases hl

/-- Resuming a handler some times, while the others hold nothing. -/
theorem reachable_drive (halone : ∀ j, j ≠ i → ∀ l, (tasks j).holds l = false) (ctx : Context PeerId)
    (clock : Nat → Instant) : ∀ (n : Nat) (r : SchedulerState PeerId T × Await PeerId),
    (handlers cfg).Reachable c ⟨r.1, Function.update tasks i (.suspended ctx r.2)⟩ →
    (handlers cfg).Reachable c ⟨(drive cfg ctx clock n r).1,
      Function.update tasks i (.suspended ctx (drive cfg ctx clock n r).2)⟩
  | 0, _, h => h
  | n + 1, r, h => by
    cases hdone : r.2.isDone with
    | true => rwa [drive_done cfg ctx clock (n + 1) hdone]
    | false =>
      rw [drive_step cfg ctx clock n hdone]
      refine reachable_drive halone ctx clock n _ (h.run_again (fun l hl => ?_) ?_)
      · exact ⟨Await.holds_of_waits hl, fun j hj => halone j hj l⟩
      · exact Resumes.resume (clock n) ctx r.2 hdone

/-- **A handler that runs alone** does what `schedule` says. -/
theorem reachable_schedule {s : SchedulerState PeerId T} {request : PeerId × ActionRequest}
    (h : (handlers cfg).Reachable c ⟨s, tasks⟩) (hi : tasks i = .pending request)
    (halone : ∀ j, j ≠ i → ∀ l, (tasks j).holds l = false) (clock : Nat → Instant) (now : SystemTime) :
    (handlers cfg).Reachable c ⟨(schedule cfg s clock now request).1,
      Function.update tasks i (.suspended (context cfg s (clock 6) now request.1 request.2.jobId)
        (schedule cfg s clock now request).2)⟩ :=
  reachable_drive halone _ clock 6 _ (reachable_start h hi (clock 6) now)

end Alone

/-- **Every run of the scheduler is an interleaving** of its handlers, one that runs them one after the other. -/
theorem reachable_run (job : Job) (workers servers : List (WorkerDescriptor PeerId))
    (requests : ℕ → PeerId × ActionRequest) (inputs : List (Input PeerId))
    (hrequests : ∀ n p status, inputs[n]?.bind Input.report? = some (p, status) →
      requests n = (p, ⟨job.settings.id, status⟩)) :
    ∃ tasks, (handlers job.settings).Reachable (arriving job workers servers requests)
        ⟨(run T job workers servers inputs).state, tasks⟩ ∧
      (∀ n l, (tasks n).holds l = false) ∧ ∀ n, inputs.length ≤ n → tasks n = .pending (requests n) := by
  induction inputs using List.reverseRecOn with
  | nil => exact ⟨_, Relation.ReflTransGen.refl, fun _ _ => rfl, fun _ _ => rfl⟩
  | append_singleton inputs i ih =>
    obtain ⟨tasks, hreach, hholds, hpending⟩ := ih fun n p status h => by
      obtain ⟨j, hj, hi⟩ := Option.bind_eq_some_iff.mp h
      refine hrequests n p status (Option.bind_eq_some_iff.mpr ⟨j, ?_, hi⟩)
      rw [List.getElem?_append_left (List.getElem?_eq_some_iff.mp hj).1, hj]
    rw [run, Machine.run_snoc, Machine.next_state, ← run]
    cases i with
    | report p status now clock =>
      have hreq : requests inputs.length = (p, ⟨job.settings.id, status⟩) :=
        hrequests inputs.length p status (by simp [Input.report?])
      have hi : tasks inputs.length = .pending (p, ⟨job.settings.id, status⟩) := by
        rw [hpending _ (Nat.le_refl _), hreq]
      refine ⟨_, reachable_schedule hreach hi (fun j _ => hholds j) clock now, fun n l => ?_, fun n hn => ?_⟩
      · by_cases hn : n = inputs.length
        · subst hn
          rw [Function.update_self]
          obtain ⟨result, hdone⟩ := Await.eq_done_of_isDone
            (schedule_isDone job.settings (run T job workers servers inputs).state clock now p job.settings.id status)
          rw [hdone]
          rfl
        · rw [Function.update_of_ne hn]
          exact hholds n l
      · rw [List.length_append, List.length_singleton] at hn
        rw [Function.update_of_ne (by omega)]
        exact hpending n (by omega)
    | _ =>
      refine ⟨tasks, hreach.tail (System.Step.environment ⟨_, rfl, rfl⟩), hholds, fun n hn => hpending n ?_⟩
      rw [List.length_append, List.length_singleton] at hn
      omega

end Hypha.Scheduler
