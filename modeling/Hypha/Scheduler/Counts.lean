import Mathlib.Algebra.BigOperators.Group.Finset.Piecewise
import Hypha.Scheduler.Script
import Hypha.Scheduler.Stretch

/-!
# The count of samples

The samples of a round are counted twice: in total, behind the mutex of the training state, and per worker, in the
entries of the pool. `BatchCompleted` adds to both in one stretch, but `BroadcastedUpdate` resets the entries in one
stretch and the counter in a later one.

* `CountStep` : what a stretch does to the two counts, `resumes_countStep` : it does no more;
* `Balanced` : the invariant, which allows for handlers that have reset only the entries;
* `counts_agree` : the counts agree whenever no handler is in flight, if nothing was recorded between the two resets;
* `count_lost` : otherwise they need not.
-/

namespace Hypha.Scheduler

open Hypha.Lib Hypha.Action

set_option linter.unusedSectionVars false

variable {PeerId T ι : Type} [LinearOrder PeerId] [RuntimeStatistic T]

/-- The samples of the members of a pool. -/
def totalSamples (pool : PoolWithTrainInfo PeerId T) : Nat :=
  ∑ p ∈ pool.ids.toFinset, (pool.stateOf p).samplesProcessed

/-- Whether a handler has reset the samples of the workers and not the counter yet. -/
def Handler.resetting : Handler PeerId → Bool
  | .suspended _ .broadcastedTraining' => true
  | _ => false

/-- Whether a handler has been started and has not ended. -/
def Handler.inFlight : Handler PeerId → Bool
  | .pending _ => false
  | .suspended _ k => !k.isDone

/-- The worker and the samples that a move records. -/
def recording (m : Move ι (SchedulerState PeerId T) (Handler PeerId)) : Option (PeerId × Nat) :=
  m.actor.bind fun i => match m.before.tasks i with
    | .suspended ctx (.batchTraining batchSize batches _) => some (ctx.peerId, batchSize * batches)
    | _ => none

/-! ## What a stretch does -/

section Totals
variable {pool pool' : PoolWithTrainInfo PeerId T}

theorem totalSamples_congr (hids : pool'.ids = pool.ids)
    (h : ∀ p ∈ pool.ids, (pool'.stateOf p).samplesProcessed = (pool.stateOf p).samplesProcessed) :
    totalSamples pool' = totalSamples pool := by
  unfold totalSamples
  rw [hids]
  exact Finset.sum_congr rfl fun p hp => h p (List.mem_toFinset.mp hp)

/-- Recording samples of a member. -/
theorem totalSamples_record {p : PeerId} (hp : p ∈ pool.ids) {n : Nat}
    (hfits : (pool.stateOf p).samplesProcessed + n ≤ u32Max) :
    totalSamples (pool.updateState p fun st =>
      { st with samplesProcessed := saturatingAdd st.samplesProcessed n }) = totalSamples pool + n := by
  have hmem : p ∈ pool.ids.toFinset := List.mem_toFinset.mpr hp
  unfold totalSamples
  rw [PoolWithTrainInfo.ids_updateState, ← Finset.add_sum_erase _ _ hmem, ← Finset.add_sum_erase _ _ hmem]
  have hothers : ∀ q ∈ pool.ids.toFinset.erase p, ((pool.updateState p fun st =>
      { st with samplesProcessed := saturatingAdd st.samplesProcessed n }).stateOf q).samplesProcessed =
        (pool.stateOf q).samplesProcessed := by
    intro q hq
    rw [PoolWithTrainInfo.stateOf_updateState, if_neg (Finset.ne_of_mem_erase hq)]
  rw [Finset.sum_congr rfl hothers, PoolWithTrainInfo.stateOf_updateState, if_pos rfl]
  dsimp only
  rw [saturatingAdd_of_le hfits]
  omega

/-- Resetting every member. -/
theorem totalSamples_reset : totalSamples (pool.retain.updateStates pool.retain.snapshot fun st =>
    { st with sentUpdate := false, samplesProcessed := 0 }) = 0 := by
  unfold totalSamples
  refine Finset.sum_eq_zero fun p hp => ?_
  have hmem : p ∈ pool.retain.snapshot.map (·.peerId) := by
    rw [PoolWithTrainInfo.ids_snapshot]
    simpa using hp
  rw [PoolWithTrainInfo.stateOf_updateStates, if_pos hmem]
  exact fun _ => rfl

end Totals

/-- **What a stretch does to the counts.** -/
inductive CountStep (s : SchedulerState PeerId T) : Handler PeerId → SchedulerState PeerId T → Handler PeerId → Prop where
  /-- Samples of a worker are recorded. -/
  | records (ctx : Context PeerId) (batchSize batches : Nat) (snapshot : List (WorkerDescriptorWithInfo PeerId))
      {s' : SchedulerState PeerId T} {k' : Handler PeerId}
      (pool : s'.workerPool = s.workerPool.updateState ctx.peerId fun st =>
        { st with samplesProcessed := saturatingAdd st.samplesProcessed (wrappingMul batchSize batches) })
      (counter : s'.trainingState.counter = saturatingAdd s.trainingState.counter (wrappingMul batchSize batches))
      (resetting : k'.resetting = false) :
      CountStep s (.suspended ctx (.batchTraining batchSize batches snapshot)) s' k'
  /-- The samples of the workers are reset. -/
  | resets {k k' : Handler PeerId} {s' : SchedulerState PeerId T} (ids : s'.workerPool.ids = s.workerPool.ids)
      (total : totalSamples s'.workerPool = 0) (resetting' : k'.resetting = true) : CountStep s k s' k'
  /-- The counter is reset. -/
  | clears {k k' : Handler PeerId} {s' : SchedulerState PeerId T} (pool : s'.workerPool = s.workerPool)
      (counter : s'.trainingState.counter = 0) (resetting : k.resetting = true) (resetting' : k'.resetting = false) :
      CountStep s k s' k'
  /-- The counts stay. -/
  | stays {k k' : Handler PeerId} {s' : SchedulerState PeerId T} (ids : s'.workerPool.ids = s.workerPool.ids)
      (total : totalSamples s'.workerPool = totalSamples s.workerPool)
      (counter : s'.trainingState.counter = s.trainingState.counter) (resetting : k.resetting = false)
      (resetting' : k'.resetting = false) : CountStep s k s' k'

/-- A worker's samples stay. -/
def SameSamples (st st' : WorkerState PeerId) : Prop := st'.samplesProcessed = st.samplesProcessed

theorem harmless_sameSamples : Harmless (@SameSamples PeerId) where
  refl _ := rfl
  waits _ _ hR := hR
  received _ _ hR := hR
  applied _ _ _ hR := hR
  revoked _ _ hR := hR

theorem Evolves.totalSamples {pool pool' : PoolWithTrainInfo PeerId T} (h : Evolves SameSamples pool pool') :
    totalSamples pool' = totalSamples pool :=
  totalSamples_congr h.ids fun _ hp => h.of_mem hp

theorem First.resetting {status : ExecutorStatus} {ctx : Context PeerId} {k : Await PeerId} (h : First status k) :
    (Handler.suspended ctx k).resetting = false := by
  cases h <;> rfl

theorem Next.resetting {ctx : Context PeerId} {k k' : Await PeerId} (h : Next k k') (hk : k ≠ .broadcastedRound') :
    (Handler.suspended ctx k').resetting = false := by
  cases h <;> first | rfl | exact absurd rfl hk

section Stretches
variable (cfg : Settings) (ctx : Context PeerId) (s : SchedulerState PeerId T)

theorem resume_trainingState (t : Instant) {k : Await PeerId}
    (hbatch : ∀ batchSize batches snapshot, k ≠ .batchTraining batchSize batches snapshot)
    (hreset : k ≠ .broadcastedTraining') : (resume cfg ctx s t k).1.trainingState = s.trainingState := by
  by_cases hwaits : k.waits = some .trainingState
  · cases k <;> first
      | rfl
      | exact absurd rfl (hbatch _ _ _)
      | exact absurd rfl hreset
      | cases hwaits
  · exact (resume_protected cfg ctx s t k).2 hwaits

/-- A stretch that writes neither count. -/
theorem resume_stays (t : Instant) {k : Await PeerId}
    (hbatch : ∀ batchSize batches snapshot, k ≠ .batchTraining batchSize batches snapshot)
    (hround : k ≠ .broadcastedRound') (htraining : k ≠ .broadcastedTraining') :
    CountStep s (.suspended ctx k) (resume cfg ctx s t k).1 (.suspended ctx (resume cfg ctx s t k).2) := by
  have hevolves : Evolves SameSamples s.workerPool (resume cfg ctx s t k).1.workerPool := by
    refine resume_evolves cfg ctx s harmless_sameSamples t k ?_ (fun hk => absurd hk hround) (fun _ _ _ _ hR => hR)
      (fun _ _ _ _ hR => hR) (fun _ _ _ _ hR => hR)
    rintro ⟨batchSize, batches, snapshot, hk⟩
    exact absurd hk (hbatch _ _ _)
  have hcounter := resume_trainingState cfg ctx s t hbatch htraining
  refine .stays hevolves.ids hevolves.totalSamples (by rw [hcounter]) ?_ ((resume_next cfg ctx s t k).resetting hround)
  cases k <;> first | rfl | exact absurd rfl htraining

end Stretches

/-- **Every stretch** does one of these. -/
theorem resumes_countStep {cfg : Settings} {s s' : SchedulerState PeerId T} {k k' : Handler PeerId}
    (hres : Resumes cfg s k (s', k')) : CountStep s k s' k' := by
  cases hres with
  | start t now request =>
    have hevolves := enter_evolves (context cfg s t now request.1 request.2.jobId)
      { s with parameterPool := s.parameterPool.info.1.info.1 } harmless_sameSamples request.2.status
    refine .stays hevolves.ids hevolves.totalSamples ?_ rfl (enter_first _ _ request.2.status).resetting
    rw [(start_protected cfg s t now request).2]
  | resume t ctx k running =>
    by_cases hbatch : ∃ batchSize batches snapshot, k = .batchTraining batchSize batches snapshot
    · obtain ⟨batchSize, batches, snapshot, rfl⟩ := hbatch
      exact .records ctx batchSize batches snapshot rfl rfl rfl
    · by_cases hround : k = .broadcastedRound'
      · subst hround
        exact .resets (PoolWithTrainInfo.ids_updateStates _ _ _) totalSamples_reset rfl
      · by_cases htraining : k = .broadcastedTraining'
        · subst htraining
          exact .clears rfl rfl rfl rfl
        · exact resume_stays cfg ctx s t (fun _ _ _ hk => hbatch ⟨_, _, _, hk⟩) hround htraining

/-! ## Over every interleaving -/

section Interleaved
variable [DecidableEq ι]

/-- The worker pool stays as it is. -/
def FixedPool (m : Move ι (SchedulerState PeerId T) (Handler PeerId))
    (_ : List (Move ι (SchedulerState PeerId T) (Handler PeerId))) : Prop :=
  m.actor = none → m.after.shared.workerPool.ids = m.before.shared.workerPool.ids

instance (m : Move ι (SchedulerState PeerId T) (Handler PeerId))
    (h : List (Move ι (SchedulerState PeerId T) (Handler PeerId))) : Decidable (FixedPool m h) :=
  inferInstanceAs (Decidable (m.actor = none → m.after.shared.workerPool.ids = m.before.shared.workerPool.ids))

/-- What a move records fits in the counts. -/
def TotalsFit (m : Move ι (SchedulerState PeerId T) (Handler PeerId))
    (_ : List (Move ι (SchedulerState PeerId T) (Handler PeerId))) : Prop :=
  ∀ r ∈ recording m, m.before.shared.trainingState.counter + r.2 < 2 ^ 32 ∧
    (m.before.shared.workerPool.stateOf r.1).samplesProcessed + r.2 < 2 ^ 32

instance (m : Move ι (SchedulerState PeerId T) (Handler PeerId))
    (h : List (Move ι (SchedulerState PeerId T) (Handler PeerId))) : Decidable (TotalsFit m h) :=
  inferInstanceAs (Decidable (∀ r ∈ recording m, _ ∧ _))

/-- Samples are recorded only while no handler is between the two resets. -/
def RecordsApart (m : Move ι (SchedulerState PeerId T) (Handler PeerId))
    (_ : List (Move ι (SchedulerState PeerId T) (Handler PeerId))) : Prop :=
  ∀ r ∈ recording m, r.2 = 0 ∨ ∀ j, (m.before.tasks j).resetting = false

instance [Fintype ι] (m : Move ι (SchedulerState PeerId T) (Handler PeerId))
    (h : List (Move ι (SchedulerState PeerId T) (Handler PeerId))) : Decidable (RecordsApart m h) :=
  inferInstanceAs (Decidable (∀ r ∈ recording m, r.2 = 0 ∨ ∀ j, (m.before.tasks j).resetting = false))

/-- Whoever reports a batch is one of `ids`. -/
def ReportsFrom (ids : List PeerId) : Handler PeerId → Prop
  | .pending request => ∀ batchSize batches,
      request.2.status = .train (.batchCompleted batchSize batches) → request.1 ∈ ids
  | .suspended ctx k => ∀ batchSize batches snapshot, k = .batchTraining batchSize batches snapshot → ctx.peerId ∈ ids

theorem resumes_reportsFrom {cfg : Settings} {s s' : SchedulerState PeerId T} {ids : List PeerId}
    {k k' : Handler PeerId} (hk : ReportsFrom ids k) (hres : Resumes cfg s k (s', k')) : ReportsFrom ids k' := by
  cases hres with
  | start t now request =>
    obtain ⟨p, jobId, status⟩ := request
    intro batchSize batches snapshot hbatch
    have hfirst : First status (start cfg s t now (p, ⟨jobId, status⟩)).2.2 := enter_first _ _ _
    rw [hbatch] at hfirst
    cases hfirst
    exact hk batchSize batches rfl
  | resume t ctx k running =>
    intro batchSize batches snapshot hbatch
    have hnext := resume_next cfg ctx s t k
    rw [hbatch] at hnext
    cases hnext

/-- **The invariant**: the counts agree unless some handler has reset only the samples of the workers, and then these
are still zero. -/
structure Balanced (members : List PeerId) (c : Config ι (SchedulerState PeerId T) (Handler PeerId)) : Prop where
  ids : c.shared.workerPool.ids = members
  reporters : ∀ i, ReportsFrom members (c.tasks i)
  resetting : ∀ i, (c.tasks i).resetting = true → totalSamples c.shared.workerPool = 0
  agree : (∀ i, (c.tasks i).resetting = false) → c.shared.trainingState.counter = totalSamples c.shared.workerPool

section Update
variable {tasks : ι → Handler PeerId} {i : ι} {k' : Handler PeerId}

theorem resetting_of_update (hk' : k'.resetting = false) {j : ι}
    (hj : (Function.update tasks i k' j).resetting = true) : (tasks j).resetting = true := by
  by_cases hji : j = i
  · subst hji
    rw [Function.update_self, hk'] at hj
    cases hj
  · rwa [Function.update_of_ne hji] at hj

theorem not_resetting_of_update (hi : (tasks i).resetting = false)
    (hall : ∀ j, (Function.update tasks i k' j).resetting = false) (j : ι) : (tasks j).resetting = false := by
  by_cases hji : j = i
  · subst hji
    exact hi
  · have hj := hall j
    rwa [Function.update_of_ne hji] at hj

end Update

/-- Every stretch that fits and records apart keeps the balance. -/
theorem Balanced.run {cfg : Settings} {members : List PeerId} {c : Config ι (SchedulerState PeerId T) (Handler PeerId)}
    {i : ι} {s' : SchedulerState PeerId T} {k' : Handler PeerId}
    {h : List (Move ι (SchedulerState PeerId T) (Handler PeerId))} (hb : Balanced members c)
    (hfits : TotalsFit ⟨c, some i, ⟨s', Function.update c.tasks i k'⟩⟩ h)
    (hapart : RecordsApart ⟨c, some i, ⟨s', Function.update c.tasks i k'⟩⟩ h)
    (hres : Resumes cfg c.shared (c.tasks i) (s', k')) : Balanced members ⟨s', Function.update c.tasks i k'⟩ := by
  have hreports : ∀ j, ReportsFrom members (Function.update c.tasks i k' j) := by
    intro j
    by_cases hji : j = i
    · subst hji
      rw [Function.update_self]
      exact resumes_reportsFrom (hb.reporters j) hres
    · rw [Function.update_of_ne hji]
      exact hb.reporters j
  have hreporter := hb.reporters i
  have hreset := hb.resetting i
  have hstep := resumes_countStep hres
  generalize hki : c.tasks i = k at hstep hreporter hreset
  cases hstep with
  | records ctx batchSize batches snapshot hpool hcounter hk' =>
    have hrecording : (ctx.peerId, batchSize * batches) ∈
        recording (⟨c, some i, ⟨s', Function.update c.tasks i k'⟩⟩ : Move ι _ _) := by
      simp [recording, hki]
    obtain ⟨hfitsCounter, hfitsSamples⟩ := hfits _ hrecording
    dsimp only at hfitsCounter hfitsSamples
    have hmember : ctx.peerId ∈ c.shared.workerPool.ids := by
      rw [hb.ids]
      exact hreporter batchSize batches snapshot rfl
    rw [wrappingMul_of_lt (by omega)] at hpool hcounter
    have htotal : totalSamples s'.workerPool = totalSamples c.shared.workerPool + batchSize * batches := by
      rw [hpool]
      exact totalSamples_record hmember (by unfold u32Max; omega)
    refine ⟨by rw [hpool]; exact hb.ids, hreports, fun j hj => ?_, fun hall => ?_⟩
    · have hj' := resetting_of_update hk' hj
      rcases hapart _ hrecording with hzero | hnone
      · dsimp only at hzero ⊢
        rw [htotal, hb.resetting j hj', hzero]
      · exact absurd (hj'.symm.trans (hnone j)) (by simp)
    · have hagree := hb.agree (not_resetting_of_update (by rw [hki]; rfl) hall)
      rw [saturatingAdd_of_le (by unfold u32Max; omega)] at hcounter
      exact hcounter.trans (by rw [htotal, hagree])
  | resets hids htotal hk' =>
    refine ⟨hids.trans hb.ids, hreports, fun _ _ => htotal, fun hall => ?_⟩
    have hi : (Function.update c.tasks i k' i).resetting = false := hall i
    rw [Function.update_self, hk'] at hi
    cases hi
  | clears hpool hcounter hk hk' =>
    have hzero : totalSamples s'.workerPool = 0 := by
      rw [hpool]
      exact hreset hk
    exact ⟨by rw [hpool]; exact hb.ids, hreports, fun _ _ => hzero, fun _ => hcounter.trans hzero.symm⟩
  | stays hids htotal hcounter hk hk' =>
    refine ⟨hids.trans hb.ids, hreports, fun j hj => ?_, fun hall => ?_⟩
    · exact htotal.trans (hb.resetting j (resetting_of_update hk' hj))
    · have hagree := hb.agree (not_resetting_of_update (by rw [hki]; exact hk) hall)
      exact hcounter.trans (hagree.trans htotal.symm)

/-- So does the environment, which leaves the pool as it is. -/
theorem Balanced.environment {cfg : Settings} {members : List PeerId}
    {c : Config ι (SchedulerState PeerId T) (Handler PeerId)} {s' : SchedulerState PeerId T}
    (hb : Balanced members c) (hids : s'.workerPool.ids = c.shared.workerPool.ids)
    (henv : (handlers cfg).environment c.shared s') : Balanced members ⟨s', c.tasks⟩ := by
  have hsame : (∀ p, s'.workerPool.stateOf p = c.shared.workerPool.stateOf p) ∧
      s'.trainingState = c.shared.trainingState := by
    obtain ⟨input, hinput, rfl⟩ := henv
    cases input with
    | report p status now clock => cases hinput
    | _ => exact ⟨fun _ => rfl, rfl⟩
  have htotal : totalSamples s'.workerPool = totalSamples c.shared.workerPool :=
    totalSamples_congr hids fun p _ => by rw [hsame.1]
  refine ⟨hids.trans hb.ids, hb.reporters, fun j hj => htotal.trans (hb.resetting j hj), fun hall => ?_⟩
  dsimp only
  rw [hsame.2, htotal]
  exact hb.agree hall

/-- **The counts agree** whenever no handler is in flight, along every interleaving over a fixed pool whose members are
the only ones to report batches, as long as the counts do not overflow and nothing is recorded between the two resets. -/
theorem counts_agree (job : Job) (workers servers : List (WorkerDescriptor PeerId))
    (requests : ι → PeerId × ActionRequest)
    (hreporters : ∀ i batchSize batches, (requests i).2.status = .train (.batchCompleted batchSize batches) →
      (requests i).1 ∈ workers.map (·.peerId))
    {h : List (Move ι (SchedulerState PeerId T) (Handler PeerId))}
    {c : Config ι (SchedulerState PeerId T) (Handler PeerId)}
    (past : (handlers job.settings).Interleaves (arriving job workers servers requests) h c)
    (hfixed : Along FixedPool h) (hfits : Along TotalsFit h) (hapart : Along RecordsApart h)
    (hquiet : ∀ i, (c.tasks i).inFlight = false) :
    c.shared.trainingState.counter = totalSamples c.shared.workerPool := by
  have hboth : Along (fun m h => FixedPool m h ∧ TotalsFit m h) h :=
    hfixed.mp (fun m g hP hQ => ⟨hP.1, hQ⟩) hfits
  have hall : Along (fun m h => (FixedPool m h ∧ TotalsFit m h) ∧ RecordsApart m h) h :=
    hboth.mp (fun m g hP hQ => ⟨hP.1, hQ⟩) hapart
  have hbalanced : Balanced (workers.map (·.peerId)) c := by
    refine past.invariant _ _ ⟨rfl, hreporters, fun i hi => (by cases hi), fun _ => ?_⟩
      ?_ hall
    · exact (Finset.sum_eq_zero fun _ _ => rfl).symm
    · rintro m g hb ⟨⟨hpool, hfit⟩, hrecords⟩ hm
      cases hm with
      | run c i free hres => exact hb.run hfit hrecords hres
      | environment c henv => exact hb.environment (hpool rfl) henv
  refine hbalanced.agree fun i => ?_
  have hi := hquiet i
  cases hk : c.tasks i with
  | pending request => rfl
  | suspended ctx k =>
    rw [hk] at hi
    cases k <;> first | rfl | cases hi

end Interleaved

/-- The parameter server has broadcast the aggregate while worker 1 completes a batch. -/
def overlapRequests : Fin 2 → Nat × ActionRequest
  | 0 => (9, ⟨0, .aggregate (.broadcastedUpdate none)⟩)
  | 1 => (1, ⟨0, .train (.batchCompleted 1 1)⟩)

theorem overlap_reporters : ∀ (i : Fin 2) (batchSize batches : Nat),
    (overlapRequests i).2.status = .train (.batchCompleted batchSize batches) →
      (overlapRequests i).1 ∈ (joined [1]).map (·.peerId)
  | 0, _, _, h => by cases h
  | 1, _, _, _ => by decide

def overlapStart : Config (Fin 2) (SchedulerState Nat RunningMean) (Handler Nat) :=
  arriving (smallJob 1 1 2) (joined [1]) (joined [9]) overlapRequests

/-- The batch after the broadcast. -/
def apartScript : Played Nat RunningMean (Fin 2) := play (smallJob 1 1 2).settings overlapStart (times 7 0 ++ times 3 1)

theorem counts_agree_apart :
    apartScript.config.shared.trainingState.counter = 1 ∧
      apartScript.config.shared.trainingState.counter = totalSamples apartScript.config.shared.workerPool :=
  ⟨by decide, counts_agree (smallJob 1 1 2) (joined [1]) (joined [9]) overlapRequests overlap_reporters
    (play_interleaves _ _ _ (by decide)) (by decide) (by decide) (by decide) (by decide)⟩

/-- The batch is recorded when the samples of the workers have been reset and the counter has not. -/
def overlapScript : Played Nat RunningMean (Fin 2) :=
  play (smallJob 1 1 2).settings overlapStart (times 5 0 ++ times 3 1 ++ times 2 0)

theorem count_lost :
    (∀ i batchSize batches, (overlapRequests i).2.status = .train (.batchCompleted batchSize batches) →
      (overlapRequests i).1 ∈ (joined [1]).map (·.peerId)) ∧
    (handlers (smallJob 1 1 2).settings).Interleaves overlapStart overlapScript.moves overlapScript.config ∧
      Along FixedPool overlapScript.moves ∧ Along TotalsFit overlapScript.moves ∧
      (∀ i, (overlapScript.config.tasks i).inFlight = false) ∧
      overlapScript.config.shared.trainingState.counter = 0 ∧
      totalSamples overlapScript.config.shared.workerPool = 1 :=
  ⟨overlap_reporters, play_interleaves _ _ _ (by decide), by decide, by decide, by decide, by decide, by decide⟩

end Hypha.Scheduler
