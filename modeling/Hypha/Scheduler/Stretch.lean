import Hypha.Lib.Moves
import Hypha.Scheduler.Concurrent

/-!
# What a stretch answers and what it writes in the worker pool

* `enter_answer`, `resume_answer` : the actions that each stretch may end its handler with;
* `issued` : the action that a move of an interleaving issues.

The handlers write the entries of the worker pool in single fields, and they drop the entries of peers that have left.
For a relation `R` between states of a worker, a pool `Evolves R` if every entry changes by `R` or is dropped first.

* `Harmless` : the relations that the writes of most stretches respect;
* `enter_evolves`, `resume_evolves` : the pool evolves by such a relation in every stretch, given that it respects
  also the write of that stretch, if it is one of the five others.
-/

namespace Hypha.Scheduler

open Hypha.Lib Hypha.Action

set_option linter.unusedSectionVars false

variable {PeerId T : Type} [LinearOrder PeerId] [RuntimeStatistic T]

/-! ## Answers -/

/-- The action that an ended handler answers with. -/
def Await.answer? : Await PeerId → Option (ExecutorAction PeerId)
  | .done (.ok response) => some response.next
  | _ => none

@[simp] theorem Await.answer?_train (ctx : Context PeerId) (a : TrainAction PeerId) :
    (ctx.train a).answer? = some (.train a) := rfl

/-- The actions that an arm answers with before its first await point. -/
inductive FirstAnswer : ExecutorStatus → ExecutorAction PeerId → Prop where
  | idle (status : ExecutorStatus) (t : SystemTime) : FirstAnswer status (.train (.idle t))
  | waitForModel (t : SystemTime) : FirstAnswer (.train .waitedForModel) (.train (.waitForModel t))
  | receiveModel (source : Reference PeerId) (t : SystemTime) :
      FirstAnswer (.train .waitedForModel) (.train (.receiveModel source t))
  | terminate (status : ExecutorStatus) : FirstAnswer status (.train .terminate)
  | aggregateIdle (status : ExecutorStatus) (t : SystemTime) : FirstAnswer status (.aggregate (.idle t))
  | aggregateTerminate (status : ExecutorStatus) : FirstAnswer status (.aggregate .terminate)

/-- The actions that it answers with after an await point. -/
inductive NextAnswer : Await PeerId → ExecutorAction PeerId → Prop where
  | idle (k : Await PeerId) (t : SystemTime) : NextAnswer k (.train (.idle t))
  | waitForModel (t : SystemTime) : NextAnswer .joinedRound (.train (.waitForModel t))
  | executeBatch (k : Await PeerId) (batches : Nat) : NextAnswer k (.train (.executeBatch batches))
  | applyUpdate (k : Await PeerId) (source : Reference PeerId) (t : SystemTime) :
      NextAnswer k (.train (.applyUpdate source t))
  | pushToHub (repository token : String) : NextAnswer .idleRound (.train (.pushToHub repository token))
  | terminate (k : Await PeerId) : NextAnswer k (.train .terminate)
  | idleSendUpdate (snapshot : List (WorkerDescriptorWithInfo PeerId)) (target : Reference PeerId) (weight : Weight) :
      NextAnswer (.idleTraining snapshot) (.train (.sendUpdate target weight))
  | batchSendUpdate (snapshot : List (WorkerDescriptorWithInfo PeerId)) (count updateTarget contribution : Nat)
      (target : Reference PeerId) (weight : Weight) :
      NextAnswer (.batchRound snapshot count updateTarget contribution) (.train (.sendUpdate target weight))
  | sendModel (target : Reference PeerId) : NextAnswer .appliedRound (.train (.sendModel target))
  | aggregateIdle (k : Await PeerId) (t : SystemTime) : NextAnswer k (.aggregate (.idle t))
  | aggregateTerminate (k : Await PeerId) : NextAnswer k (.aggregate .terminate)
  | aggregateUpdates (workers : List PeerId) :
      NextAnswer (.aggregateIdleRound' workers) (.aggregate (.aggregateUpdates (.peers workers .all none)))
  | broadcastUpdate (workers : List PeerId) :
      NextAnswer (.aggregatedRound workers) (.aggregate (.broadcastUpdate (.peers workers .all none)))
  | aggregateError (next : AggregateAction PeerId) : NextAnswer (.aggregateErrorRound next) (.aggregate next)

section Answers
variable (cfg : Settings) (ctx : Context PeerId) (s : SchedulerState PeerId T)

theorem enter_answer {status : ExecutorStatus} {a : ExecutorAction PeerId} (h : (enter ctx s status).2.answer? = some a) :
    FirstAnswer status a := by
  unfold enter at h
  split at h
  · cases h
  · unfold waitedForModel at h
    dsimp only at h
    split at h <;> cases h
    · exact FirstAnswer.receiveModel _ _
    · exact FirstAnswer.waitForModel _
  · cases h
    exact FirstAnswer.idle _ _
  · cases h
    exact FirstAnswer.idle _ _
  · cases h
  · cases h
  · cases h
  · cases h
  · simp only [pushedToHub] at h
    split_ifs at h <;> cases h
    exact FirstAnswer.terminate _
  · cases h
    exact FirstAnswer.idle _ _
  · cases h
    exact FirstAnswer.terminate _
  · cases h
    exact FirstAnswer.terminate _
  · cases h
  · simp only [aggregatedUpdates] at h
    split_ifs at h <;> cases h
    · exact FirstAnswer.aggregateIdle _ _
    · exact FirstAnswer.aggregateIdle _ _
  · cases h
  · cases h
  · cases h
  · cases h
    exact FirstAnswer.aggregateTerminate _

/-- The action of the arms that share `Context.work`. -/
theorem work_cases (shouldUpdate : Bool) (contribution projectedTarget batches : Nat) :
    (∃ t, ctx.work shouldUpdate contribution projectedTarget batches = .idle t) ∨
      (∃ n, ctx.work shouldUpdate contribution projectedTarget batches = .executeBatch n) ∨
      ∃ ps, shouldUpdate = true ∧ ctx.primaryPs = some ps ∧
        ctx.work shouldUpdate contribution projectedTarget batches =
          .sendUpdate (.peers [ps] .one none) ⟨contribution, projectedTarget⟩ := by
  unfold Context.work Context.primaryPs
  cases shouldUpdate with
  | false => exact Or.inr (Or.inl ⟨_, rfl⟩)
  | true =>
    cases ctx.parameterServers with
    | nil => exact Or.inl ⟨_, rfl⟩
    | cons ps _ => exact Or.inr (Or.inr ⟨ps, rfl, rfl, rfl⟩)

theorem resume_answer (t : Instant) (k : Await PeerId) (running : k.isDone = false) {a : ExecutorAction PeerId}
    (h : (resume cfg ctx s t k).2.answer? = some a) : NextAnswer k a := by
  cases k with
  | joinedRound =>
    simp only [resume, joinedRound] at h
    split_ifs at h <;> cases h
    · exact NextAnswer.idle _ _
    · exact NextAnswer.waitForModel _
  | idleRound =>
    simp only [resume, idleRound, idleComplete] at h
    split_ifs at h
    · cases h
    · cases h
      exact NextAnswer.terminate _
    · cases h
      exact NextAnswer.applyUpdate _ _ _
    · split at h <;> cases h
      · exact NextAnswer.pushToHub _ _
      · exact NextAnswer.terminate _
    · cases h
      exact NextAnswer.idle _ _
  | idleTraining snapshot =>
    simp only [resume, idleTraining] at h
    split_ifs at h
    · cases h
      exact NextAnswer.applyUpdate _ _ _
    · cases h
      exact NextAnswer.idle _ _
    · cases h
      rcases work_cases ctx _ _ _ _ with ⟨t, ht⟩ | ⟨n, hn⟩ | ⟨ps, -, -, hps⟩
      · rw [ht]
        exact NextAnswer.idle _ _
      · rw [hn]
        exact NextAnswer.executeBatch _ _
      · rw [hps]
        exact NextAnswer.idleSendUpdate _ _ _
  | batchTraining _ _ _ => cases h
  | batchRound snapshot count updateTarget contribution =>
    simp only [resume, batchRound] at h
    split_ifs at h
    · cases h
      exact NextAnswer.idle _ _
    · cases h
      rcases work_cases ctx _ _ _ _ with ⟨t, ht⟩ | ⟨n, hn⟩ | ⟨ps, -, -, hps⟩
      · rw [ht]
        exact NextAnswer.idle _ _
      · rw [hn]
        exact NextAnswer.executeBatch _ _
      · rw [hps]
        exact NextAnswer.batchSendUpdate _ _ _ _ _ _
  | sentRound _ _ => cases h
  | sentSend message =>
    simp only [resume, sentSend, sendMetrics] at h
    split_ifs at h <;> cases h
  | sentRound' =>
    cases h
    exact NextAnswer.idle _ _
  | appliedRound =>
    simp only [resume, appliedRound] at h
    split_ifs at h
    · cases h
      exact NextAnswer.idle _ _
    · split at h <;> cases h
      · exact NextAnswer.sendModel _
      · exact NextAnswer.executeBatch _ _
  | pushedRound =>
    cases h
    exact NextAnswer.terminate _
  | aggregateIdleRound =>
    simp only [resume, aggregateIdleRound] at h
    split_ifs at h <;> cases h
    · exact NextAnswer.aggregateTerminate _
    · exact NextAnswer.aggregateIdle _ _
    · exact NextAnswer.aggregateIdle _ _
    · exact NextAnswer.aggregateIdle _ _
  | aggregateIdleRound' workers =>
    simp only [resume, aggregateIdleRound'] at h
    split_ifs at h <;> cases h
    · exact NextAnswer.aggregateUpdates _
    · exact NextAnswer.aggregateUpdates _
    · exact NextAnswer.aggregateIdle _ _
  | aggregatedRound workers =>
    cases h
    exact NextAnswer.broadcastUpdate _
  | broadcastedTraining _ => cases h
  | broadcastedRound _ _ => cases h
  | broadcastedSend message =>
    simp only [resume, broadcastedSend, sendMetrics] at h
    split_ifs at h <;> cases h
  | broadcastedRound' => cases h
  | broadcastedTraining' => cases h
  | broadcastedRound'' =>
    cases h
    exact NextAnswer.aggregateIdle _ _
  | aggregateErrorRound next =>
    cases h
    exact NextAnswer.aggregateError _
  | done result => cases running

end Answers

/-- The peer a handler answers and the action it answers with. -/
def Handler.answer? : Handler PeerId → Option (PeerId × ExecutorAction PeerId)
  | .pending _ => none
  | .suspended ctx k => k.answer?.map fun a => (ctx.peerId, a)

theorem Handler.answer?_suspended {ctx : Context PeerId} {k : Await PeerId} {p : PeerId} {a : ExecutorAction PeerId} :
    (Handler.suspended ctx k).answer? = some (p, a) ↔ ctx.peerId = p ∧ k.answer? = some a := by
  unfold Handler.answer?
  rw [Option.map_eq_some_iff]
  constructor
  · rintro ⟨b, hb, heq⟩
    cases heq
    exact ⟨rfl, hb⟩
  · rintro ⟨rfl, hb⟩
    exact ⟨a, hb, rfl⟩

/-- The action that a move issues, and the peer it is issued to. -/
def issued {ι : Type} (m : Move ι (SchedulerState PeerId T) (Handler PeerId)) : Option (PeerId × ExecutorAction PeerId) :=
  m.actor.bind fun i => (m.after.tasks i).answer?

@[simp] theorem issued_run {ι : Type} [DecidableEq ι] (c : Config ι (SchedulerState PeerId T) (Handler PeerId)) (i : ι)
    (s' : SchedulerState PeerId T) (k' : Handler PeerId) :
    issued ⟨c, some i, ⟨s', Function.update c.tasks i k'⟩⟩ = k'.answer? :=
  congrArg Handler.answer? (Function.update_self i k' c.tasks)

/-! ## Writes -/

/-- Every entry changes by `R`, unless the peer is not a member and its entry is dropped before. -/
structure Evolves (R : WorkerState PeerId → WorkerState PeerId → Prop) (pool pool' : PoolWithTrainInfo PeerId T) :
    Prop where
  members : pool'.members = pool.members
  state : ∀ q, R (pool.stateOf q) (pool'.stateOf q) ∨ q ∉ pool.ids ∧ R {} (pool'.stateOf q)

/-- A relation that a write respects. -/
def Respects (R : WorkerState PeerId → WorkerState PeerId → Prop) (f : WorkerState PeerId → WorkerState PeerId) :
    Prop :=
  ∀ st st', R st st' → R st (f st')

namespace Evolves

variable {R : WorkerState PeerId → WorkerState PeerId → Prop} {pool pool' : PoolWithTrainInfo PeerId T}

theorem refl (hR : ∀ st, R st st) (pool : PoolWithTrainInfo PeerId T) : Evolves R pool pool :=
  ⟨rfl, fun _ => Or.inl (hR _)⟩

theorem ids (h : Evolves R pool pool') : pool'.ids = pool.ids := by
  unfold PoolWithTrainInfo.ids
  rw [h.members]

theorem of_mem (h : Evolves R pool pool') {q : PeerId} (hq : q ∈ pool.ids) :
    R (pool.stateOf q) (pool'.stateOf q) :=
  (h.state q).resolve_right (fun hout => hout.1 hq)

theorem retain (hR : ∀ st, R st st) (h : Evolves R pool pool') : Evolves R pool pool'.retain := by
  refine ⟨h.members, fun q => ?_⟩
  rw [PoolWithTrainInfo.stateOf_retain, h.ids]
  split_ifs with hq
  · exact h.state q
  · exact Or.inr ⟨hq, hR _⟩

theorem updateStatistics (h : Evolves R pool pool') (p : PeerId) (f : T × Nat → T × Nat) :
    Evolves R pool (pool'.updateStatistics p f) := by
  refine ⟨h.members, fun q => ?_⟩
  rw [PoolWithTrainInfo.stateOf_updateStatistics]
  exact h.state q

theorem updateState (h : Evolves R pool pool') (p : PeerId) {f : WorkerState PeerId → WorkerState PeerId}
    (hf : Respects R f) : Evolves R pool (pool'.updateState p f) := by
  refine ⟨h.members, fun q => ?_⟩
  rw [PoolWithTrainInfo.stateOf_updateState]
  split_ifs with hq
  · subst hq
    exact (h.state q).imp (hf _ _) (fun hout => ⟨hout.1, hf _ _ hout.2⟩)
  · exact h.state q

theorem updateStates {f : WorkerState PeerId → WorkerState PeerId} (hf : Respects R f)
    (snapshot : List (WorkerDescriptorWithInfo PeerId)) :
    ∀ {pool' : PoolWithTrainInfo PeerId T}, Evolves R pool pool' → Evolves R pool (pool'.updateStates snapshot f) := by
  induction snapshot with
  | nil => exact fun h => h
  | cons w snapshot ih => exact fun h => ih (h.updateState w.peerId hf)

end Evolves

/-- A relation that respects the writes that no property of the job's progress hangs on. -/
structure Harmless (R : WorkerState PeerId → WorkerState PeerId → Prop) : Prop where
  refl : ∀ st, R st st
  waits : Respects R fun st => { st with waitingForModel := true }
  received : Respects R fun st => { st with receivingFrom := none }
  applied : ∀ b, Respects R fun st => { st with appliedUpdate := b }
  revoked : Respects R fun st => { st with isPusher := false }

section Stretches
variable (cfg : Settings) (ctx : Context PeerId) (s : SchedulerState PeerId T)
  {R : WorkerState PeerId → WorkerState PeerId → Prop}

/-- The first stretch of a handler. -/
theorem enter_evolves (hR : Harmless R) (status : ExecutorStatus) :
    Evolves R s.workerPool (enter ctx s status).1.workerPool := by
  have hrefl : Evolves R s.workerPool s.workerPool := Evolves.refl hR.refl _
  have hretain := hrefl.retain hR.refl
  unfold enter
  split
  · exact hrefl
  · unfold waitedForModel
    dsimp only
    split
    · exact hretain.updateState ctx.peerId hR.received
    · exact hretain
  · exact hrefl
  · exact hrefl
  · exact hrefl
  · exact (hrefl.updateStatistics _ _).retain hR.refl
  · exact hretain
  · dsimp only [appliedUpdate]
    exact (hrefl.updateState ctx.peerId (hR.applied true)).updateStatistics _ _
  · exact hretain
  · exact hrefl.updateState ctx.peerId hR.revoked
  · exact hrefl.updateState ctx.peerId hR.revoked
  · exact hrefl
  · exact hrefl
  · unfold aggregatedUpdates
    dsimp only
    split_ifs
    · exact hrefl
    · exact hretain
    · exact hretain
  · exact hrefl
  · exact hrefl
  · exact hrefl
  · exact hrefl

/-- The later ones. -/
theorem resume_evolves (hR : Harmless R) (t : Instant) (k : Await PeerId)
    (hbatch : (∃ batchSize batches snapshot, k = .batchTraining batchSize batches snapshot) →
      ∀ g : Nat → Nat, Respects R fun st => { st with samplesProcessed := g st.samplesProcessed })
    (hreset : k = .broadcastedRound' → Respects R fun st => { st with sentUpdate := false, samplesProcessed := 0 })
    (hassign : k = .idleRound → s.roundState.trainingComplete = true →
      Respects R fun st => { st with isPusher := true })
    (hfinal : k = .appliedRound → s.roundState.trainingComplete = true →
      Respects R fun st => { st with appliedFinalUpdate := true })
    (hsend : k = .appliedRound → s.roundState.trainingComplete = false →
      Respects R fun st => { st with waitingForModel := false, receivingFrom := some ctx.peerId }) :
    Evolves R s.workerPool (resume cfg ctx s t k).1.workerPool := by
  have hrefl : Evolves R s.workerPool s.workerPool := Evolves.refl hR.refl _
  have hretain := hrefl.retain hR.refl
  cases k with
  | joinedRound =>
    simp only [resume, joinedRound]
    split_ifs
    · exact hrefl
    · exact hrefl.updateState ctx.peerId hR.waits
  | idleRound =>
    simp only [resume, idleRound, idleComplete]
    split_ifs with hcomplete
    · exact hretain
    · exact hrefl
    · exact hretain
    · split
      · exact hretain.updateState ctx.peerId (hassign rfl (by simpa using hcomplete))
      · exact hretain.updateState ctx.peerId (hassign rfl (by simpa using hcomplete))
    · exact hretain
  | batchTraining batchSize batches snapshot =>
    exact hrefl.updateState ctx.peerId (hbatch ⟨_, _, _, rfl⟩ fun n => saturatingAdd n (wrappingMul batchSize batches))
  | sentSend message =>
    simp only [resume, sentSend, sendMetrics]
    split_ifs
    · exact hretain
    · exact hrefl
  | appliedRound =>
    simp only [resume, appliedRound]
    split_ifs with hcomplete
    · exact hrefl.updateState ctx.peerId (hfinal rfl hcomplete)
    · split
      · exact hretain.updateState _ (hsend rfl (by simpa using hcomplete))
      · exact hretain
  | aggregateIdleRound =>
    simp only [resume, aggregateIdleRound]
    split_ifs
    · exact hretain
    · exact hretain
    · exact hrefl
    · exact hretain
    · exact hretain
  | aggregateIdleRound' workers =>
    simp only [resume, aggregateIdleRound']
    split_ifs <;> exact hrefl
  | aggregatedRound workers => exact Evolves.updateStates (hR.applied false) _ hretain
  | broadcastedSend message =>
    simp only [resume, broadcastedSend, sendMetrics]
    split_ifs <;> exact hrefl
  | broadcastedRound' => exact Evolves.updateStates (hreset rfl) _ hretain
  | _ => exact hrefl

end Stretches

end Hypha.Scheduler
