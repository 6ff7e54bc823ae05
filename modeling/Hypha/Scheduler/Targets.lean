import Hypha.Scheduler.Answer
import Hypha.Scheduler.Script
import Hypha.Scheduler.Stretch

/-!
# The target of an update

A worker is told to send its update by the arms of `Idle` and of `BatchCompleted`. Both read the round state, the
training state and the updates recorded with the primary parameter server, in different orders and under different
locks, and the primary is the one of the moment the handler started.

* `Started`, `ReadsTarget`, `ReadsIncomplete` : what a handler has read in its earlier stretches;
* `idleTraining_sendUpdate`, `batchRound_sendUpdate` : when a stretch answers `SendUpdate`;
* `Keeps` : parameter pools that lose no recorded update, `enter_keeps`, `resume_keeps` : one stretch excepted, none does;
* `updates_sent_once` : over every interleaving a worker is told to send its update to one parameter server, on what its
  handler has read, and not again while that server has it recorded.
-/

namespace Hypha.Scheduler

open Hypha.Lib Hypha.Action

set_option linter.unusedSectionVars false

variable {PeerId T ι : Type} [LinearOrder PeerId] [RuntimeStatistic T]

/-! ## What a handler reads -/

/-- A move that starts the handler `i`, with `servers` in the parameter pool. -/
structure Started (i : ι) (servers : List PeerId) (m : Move ι (SchedulerState PeerId T) (Handler PeerId)) : Prop where
  actor : m.actor = some i
  pending : ∃ request, m.before.tasks i = .pending request
  servers : m.before.shared.parameterPool.ids = servers

/-- A move in which the handler `i` takes the training state and finds that the target is met. -/
structure ReadsTarget (i : ι) (m : Move ι (SchedulerState PeerId T) (Handler PeerId)) : Prop where
  actor : m.actor = some i
  granted : (m.before.tasks i).waits = some .trainingState
  met : m.after.shared.trainingState.updateTarget ≤ m.after.shared.trainingState.counter

/-- A move in which the handler `i` takes the round state and finds that the training is not complete. -/
structure ReadsIncomplete (i : ι) (m : Move ι (SchedulerState PeerId T) (Handler PeerId)) : Prop where
  actor : m.actor = some i
  granted : (m.before.tasks i).waits = some .roundState
  incomplete : m.before.shared.roundState.trainingComplete = false

section Stretches
variable (cfg : Settings) (ctx : Context PeerId) (s : SchedulerState PeerId T)

/-- A worker that is found not to have sent its update is not among the recorded ones. -/
theorem not_mem_of_hasSentUpdate {pool : PoolWithAggregateInfo PeerId} {ps p : PeerId}
    (h : (hasSentUpdate pool (some ps) p).2 = false) : p ∉ pool.retain.updatesOf ps := by
  have hfind := PoolWithAggregateInfo.find_updates pool ps
  simp only [hasSentUpdate, PoolWithAggregateInfo.info] at h
  rw [PoolWithAggregateInfo.updatesOf_retain]
  split_ifs at hfind ⊢ with hmem
  · obtain ⟨w, hw, hupdates⟩ := Option.map_eq_some_iff.mp hfind
    rw [hw, Option.map_some, Option.getD_some, hupdates] at h
    exact of_decide_eq_false h
  · exact Finset.notMem_empty p

/-- `SendUpdate` on `Idle`. -/
theorem idleTraining_sendUpdate {snapshot : List (WorkerDescriptorWithInfo PeerId)} {target : Reference PeerId}
    {weight : Weight}
    (h : (idleTraining cfg ctx s snapshot).2.answer? = some (.train (.sendUpdate target weight))) :
    ∃ ps, ctx.parameterServers.head? = some ps ∧ target = .peers [ps] .one none ∧
      s.trainingState.updateTarget ≤ s.trainingState.counter ∧
      ctx.peerId ∉ s.parameterPool.retain.updatesOf ps := by
  simp only [idleTraining] at h
  split_ifs at h with happly hsent
  · cases h
  · cases h
  · obtain ⟨hdue, ps, hps, htarget, -⟩ := (work_eq_sendUpdate_iff ctx _ _ _ _ target weight).mp (by simpa using h)
    rw [projectBatches_fst] at hdue
    have hprimary : ctx.primaryPs = some ps := hps
    rw [hprimary] at hsent
    exact ⟨ps, hps, htarget, of_decide_eq_true hdue, not_mem_of_hasSentUpdate (by simpa using hsent)⟩

/-- `SendUpdate` on `BatchCompleted`, from the counter read before. -/
theorem batchRound_sendUpdate {snapshot : List (WorkerDescriptorWithInfo PeerId)} {count updateTarget contribution : Nat}
    {target : Reference PeerId} {weight : Weight}
    (h : (batchRound cfg ctx s snapshot count updateTarget contribution).2.answer? =
      some (.train (.sendUpdate target weight))) :
    ∃ ps, ctx.parameterServers.head? = some ps ∧ target = .peers [ps] .one none ∧ updateTarget ≤ count ∧
      s.roundState.trainingComplete = false ∧ ctx.peerId ∉ s.parameterPool.retain.updatesOf ps := by
  simp only [batchRound] at h
  split_ifs at h with hidle
  · cases h
  · obtain ⟨hdue, ps, hps, htarget, -⟩ := (work_eq_sendUpdate_iff ctx _ _ _ _ target weight).mp (by simpa using h)
    rw [projectBatches_fst] at hdue
    obtain ⟨hcomplete, hsent⟩ := Bool.or_eq_false_iff.mp (Bool.eq_false_iff.mpr hidle)
    have hprimary : ctx.primaryPs = some ps := hps
    rw [hprimary] at hsent
    exact ⟨ps, hps, htarget, of_decide_eq_true hdue, hcomplete, not_mem_of_hasSentUpdate hsent⟩

end Stretches

/-! ## Recorded updates -/

/-- No member loses a recorded update. -/
structure Keeps (pool pool' : PoolWithAggregateInfo PeerId) : Prop where
  members : pool'.members = pool.members
  updates : ∀ p ∈ pool.ids, pool.updatesOf p ⊆ pool'.updatesOf p

namespace Keeps

variable {pool pool' : PoolWithAggregateInfo PeerId}

theorem refl (pool : PoolWithAggregateInfo PeerId) : Keeps pool pool := ⟨rfl, fun _ _ => Finset.Subset.refl _⟩

theorem ids (h : Keeps pool pool') : pool'.ids = pool.ids := by
  unfold PoolWithAggregateInfo.ids
  rw [h.members]

theorem retain (h : Keeps pool pool') : Keeps pool pool'.retain := by
  refine ⟨h.members, fun p hp => ?_⟩
  rw [PoolWithAggregateInfo.updatesOf_retain, h.ids, if_pos hp]
  exact h.updates p hp

theorem hasSentUpdate (h : Keeps pool pool') (primaryPs : Option PeerId) (p : PeerId) :
    Keeps pool (hasSentUpdate pool' primaryPs p).1 := by
  rcases hasSentUpdate_fst pool' primaryPs p with heq | heq <;> rw [heq]
  · exact h
  · exact h.retain

/-- Recording one more. -/
theorem insert (h : Keeps pool pool') (ps p : PeerId) :
    Keeps pool (pool'.updateState ps fun info => { info with workerUpdates := insert p info.workerUpdates }) := by
  refine ⟨h.members, fun q hq => (h.updates q hq).trans ?_⟩
  rw [PoolWithAggregateInfo.updatesOf_updateState]
  split_ifs with hqps
  · subst hqps
    exact Finset.subset_insert _ _
  · exact Finset.Subset.refl _

end Keeps

section Stretches
variable (cfg : Settings) (ctx : Context PeerId) (s : SchedulerState PeerId T)

theorem enter_parameterPool (status : ExecutorStatus) : (enter ctx s status).1.parameterPool = s.parameterPool := by
  unfold enter
  split <;> first
    | rfl
    | (unfold waitedForModel; dsimp only; split <;> rfl)
    | (unfold aggregatedUpdates; dsimp only; split_ifs <;> rfl)

/-- A stretch other than the one that advances the round keeps the recorded updates. -/
theorem resume_keeps (t : Instant) {k : Await PeerId} (hk : k ≠ .broadcastedRound') :
    Keeps s.parameterPool (resume cfg ctx s t k).1.parameterPool := by
  have hrefl := Keeps.refl s.parameterPool
  cases k with
  | joinedRound =>
    simp only [resume, joinedRound]
    split_ifs <;> exact hrefl
  | idleRound =>
    simp only [resume, idleRound, idleComplete]
    split_ifs <;> first | exact hrefl | (split <;> exact hrefl)
  | idleTraining snapshot => exact hrefl.hasSentUpdate ctx.primaryPs ctx.peerId
  | batchRound snapshot count updateTarget contribution => exact hrefl.hasSentUpdate ctx.primaryPs ctx.peerId
  | sentSend message =>
    simp only [resume, sentSend, sendMetrics]
    split_ifs
    · cases ctx.primaryPs with
      | none => exact hrefl
      | some ps => exact hrefl.insert ps ctx.peerId
    · exact hrefl
  | sentRound' => exact hrefl.hasSentUpdate ctx.primaryPs ctx.peerId
  | appliedRound =>
    simp only [resume, appliedRound]
    split_ifs
    · exact hrefl
    · split <;> exact hrefl
  | aggregateIdleRound =>
    simp only [resume, aggregateIdleRound]
    split_ifs <;> exact hrefl
  | aggregateIdleRound' workers =>
    simp only [resume, aggregateIdleRound']
    split_ifs <;> exact hrefl.retain
  | broadcastedSend message =>
    simp only [resume, broadcastedSend, sendMetrics]
    split_ifs <;> exact hrefl
  | broadcastedRound' => exact absurd rfl hk
  | _ => exact hrefl

/-- A handler that goes on to the training state on `Idle` has found the training incomplete. -/
theorem resume_idleTraining {t : Instant} {k : Await PeerId} {snapshot : List (WorkerDescriptorWithInfo PeerId)}
    (h : (resume cfg ctx s t k).2 = .idleTraining snapshot) :
    k = .idleRound ∧ s.roundState.trainingComplete = false := by
  obtain rfl : k = .idleRound := by
    have hnext := resume_next cfg ctx s t k
    rw [h] at hnext
    cases hnext
    rfl
  simp only [resume, idleRound] at h
  split_ifs at h with hcomplete
  · exact ⟨rfl, by simpa using hcomplete⟩
  · obtain ⟨result, hdone⟩ := Await.eq_done_of_isDone (idleComplete_isDone cfg ctx s)
    rw [hdone] at h
    cases h

/-- A handler that goes on to the round state on `BatchCompleted` has read the counter. -/
theorem resume_batchRound {t : Instant} {k : Await PeerId} {snapshot : List (WorkerDescriptorWithInfo PeerId)}
    {count updateTarget contribution : Nat}
    (h : (resume cfg ctx s t k).2 = .batchRound snapshot count updateTarget contribution) :
    k.waits = some .trainingState ∧ (resume cfg ctx s t k).1.trainingState.counter = count ∧
      (resume cfg ctx s t k).1.trainingState.updateTarget = updateTarget := by
  have hnext := resume_next cfg ctx s t k
  rw [h] at hnext
  cases hnext
  cases h
  exact ⟨rfl, rfl, rfl⟩

/-- The update of a handler whose metrics are sent is recorded. -/
theorem sentSend_records (message : Metrics) {ps : PeerId} (hreceiving : s.receiving = true)
    (hps : ctx.primaryPs = some ps) : ctx.peerId ∈ (sentSend ctx s message).1.parameterPool.updatesOf ps := by
  simp only [sentSend, sendMetrics, if_pos hreceiving, hps]
  rw [PoolWithAggregateInfo.updatesOf_updateState, if_pos rfl]
  exact Finset.mem_insert_self _ _

end Stretches

/-! ## Over every interleaving -/

section Interleaved
variable [DecidableEq ι] {w ps : PeerId} {m : Move ι (SchedulerState PeerId T) (Handler PeerId)}
  {h : List (Move ι (SchedulerState PeerId T) (Handler PeerId))}

/-- A move that records an update of `w` with `ps`: the metrics of its `SentUpdate` have been sent. -/
def Records (w ps : PeerId) (m : Move ι (SchedulerState PeerId T) (Handler PeerId)) : Prop :=
  m.before.shared.receiving = true ∧ ∃ i ctx message, m.actor = some i ∧
    m.before.tasks i = .suspended ctx (.sentSend message) ∧ ctx.peerId = w ∧ ctx.primaryPs = some ps

/-- A move that advances the round. -/
def AdvancesRound (m : Move ι (SchedulerState PeerId T) (Handler PeerId)) : Prop :=
  ∃ i ctx, m.actor = some i ∧ m.before.tasks i = .suspended ctx .broadcastedRound'

/-- An update of `w` was recorded with `ps` in this round, and `ps` has been a member since. -/
def StandsRecorded (w ps : PeerId) : List (Move ι (SchedulerState PeerId T) (Handler PeerId)) → Prop
  | [] => False
  | m :: h => ps ∈ m.after.shared.parameterPool.ids ∧ (Records w ps m ∨ ¬AdvancesRound m ∧ StandsRecorded w ps h)

theorem standsRecorded_of_split {g₁ g₂ : List (Move ι (SchedulerState PeerId T) (Handler PeerId))}
    (hm : Records w ps m) (hround : ∀ e ∈ g₁, ¬AdvancesRound e)
    (hmember : ∀ e ∈ m :: g₁, ps ∈ e.after.shared.parameterPool.ids) : StandsRecorded w ps (g₁ ++ m :: g₂) := by
  induction g₁ with
  | nil => exact ⟨hmember m List.mem_cons_self, Or.inl hm⟩
  | cons e g₁ ih =>
    refine ⟨hmember e (by simp), Or.inr ⟨hround e List.mem_cons_self, ih ?_ ?_⟩⟩
    · exact fun e' he' => hround e' (List.mem_cons_of_mem _ he')
    · intro e' he'
      rcases List.mem_cons.mp he' with rfl | he'
      · exact hmember _ List.mem_cons_self
      · exact hmember e' (by simp [he'])

/-- What stands recorded is in the pool. -/
def RecordsKept (h : List (Move ι (SchedulerState PeerId T) (Handler PeerId))) (s : SchedulerState PeerId T) : Prop :=
  ∀ w ps, StandsRecorded w ps h → ps ∈ s.parameterPool.ids ∧ w ∈ s.parameterPool.updatesOf ps

/-- What a suspended handler has read before: the parameter servers at its start, that the training is incomplete, that
the target is met. -/
def HasRead (h : List (Move ι (SchedulerState PeerId T) (Handler PeerId))) (i : ι) : Handler PeerId → Prop
  | .pending _ => True
  | .suspended ctx k => (∃ e ∈ h, Started i ctx.parameterServers e) ∧
      (∀ snapshot, k = .idleTraining snapshot → ∃ e ∈ h, ReadsIncomplete i e) ∧
      ∀ snapshot count updateTarget contribution, k = .batchRound snapshot count updateTarget contribution →
        updateTarget ≤ count → ∃ e ∈ h, ReadsTarget i e

theorem HasRead.cons {i : ι} {k : Handler PeerId} (hk : HasRead h i k) : HasRead (m :: h) i k := by
  cases k with
  | pending request => exact trivial
  | suspended ctx k =>
    obtain ⟨⟨e, he, hstarted⟩, hidle, hbatch⟩ := hk
    refine ⟨⟨e, List.mem_cons_of_mem _ he, hstarted⟩, fun snapshot hsnapshot => ?_, fun _ _ _ _ heq hle => ?_⟩
    · obtain ⟨e', he', hread⟩ := hidle snapshot hsnapshot
      exact ⟨e', List.mem_cons_of_mem _ he', hread⟩
    · obtain ⟨e', he', hread⟩ := hbatch _ _ _ _ heq hle
      exact ⟨e', List.mem_cons_of_mem _ he', hread⟩

/-- One stretch of a handler. -/
theorem hasRead_run {cfg : Settings} {c : Config ι (SchedulerState PeerId T) (Handler PeerId)} {i : ι}
    {s' : SchedulerState PeerId T} {k' : Handler PeerId} (hk : HasRead h i (c.tasks i))
    (hres : Resumes cfg c.shared (c.tasks i) (s', k')) :
    HasRead (⟨c, some i, ⟨s', Function.update c.tasks i k'⟩⟩ :: h) i k' := by
  generalize hki : c.tasks i = k at hk hres
  cases hres with
  | start t now request =>
    obtain ⟨p, jobId, status⟩ := request
    have hfirst : First status (start cfg c.shared t now (p, ⟨jobId, status⟩)).2.2 := enter_first _ _ _
    refine ⟨⟨_, List.mem_cons_self, rfl, ⟨_, hki⟩, ?_⟩, fun _ hidle => ?_, fun _ _ _ _ hbatch _ => ?_⟩
    · exact (context_parameterServers cfg c.shared now p jobId t).symm
    · rw [hidle] at hfirst
      cases hfirst
    · rw [hbatch] at hfirst
      cases hfirst
  | resume t ctx k running =>
    obtain ⟨⟨e, he, hstarted⟩, -, -⟩ := hk
    refine ⟨⟨e, List.mem_cons_of_mem _ he, hstarted⟩, fun _ hidle => ?_, fun _ _ _ _ hbatch hle => ?_⟩
    · obtain ⟨rfl, hcomplete⟩ := resume_idleTraining cfg ctx c.shared hidle
      exact ⟨_, List.mem_cons_self, rfl, congrArg Handler.waits hki, hcomplete⟩
    · obtain ⟨hwaits, hcount, htarget⟩ := resume_batchRound cfg ctx c.shared hbatch
      refine ⟨_, List.mem_cons_self, rfl, (congrArg Handler.waits hki).trans hwaits, ?_⟩
      change (resume cfg ctx c.shared t k).1.trainingState.updateTarget ≤ _
      rwa [htarget, hcount]

theorem recordsKept_run {cfg : Settings} {c : Config ι (SchedulerState PeerId T) (Handler PeerId)} {i : ι}
    {s' : SchedulerState PeerId T} {k' : Handler PeerId} (hG : RecordsKept h c.shared)
    (hres : Resumes cfg c.shared (c.tasks i) (s', k')) :
    RecordsKept (⟨c, some i, ⟨s', Function.update c.tasks i k'⟩⟩ :: h) s' := by
  rintro w ps ⟨hmember, hstands⟩
  refine ⟨hmember, ?_⟩
  generalize hki : c.tasks i = k at hres
  cases hres with
  | start t now request =>
    have hpool : (start cfg c.shared t now request).2.1.parameterPool = c.shared.parameterPool.retain.retain :=
      enter_parameterPool _ _ _
    have hkeeps : Keeps c.shared.parameterPool c.shared.parameterPool.retain.retain := (Keeps.refl _).retain.retain
    dsimp only at hmember ⊢
    rw [hpool] at hmember ⊢
    rcases hstands with ⟨-, j, ctx, message, hactor, htask, -, -⟩ | ⟨-, hstands⟩
    · cases hactor
      cases hki.symm.trans htask
    · exact hkeeps.updates ps (hG w ps hstands).1 (hG w ps hstands).2
  | resume t ctx k running =>
    rcases hstands with ⟨hreceiving, j, ctx', message, hactor, htask, hw, hps⟩ | ⟨hround, hstands⟩
    · cases hactor
      cases hki.symm.trans htask
      rw [← hw]
      exact sentSend_records ctx c.shared message hreceiving hps
    · have hk : k ≠ .broadcastedRound' := by
        rintro rfl
        exact hround ⟨i, ctx, rfl, hki⟩
      have hkeeps := resume_keeps cfg ctx c.shared t hk
      exact hkeeps.updates ps (hG w ps hstands).1 (hG w ps hstands).2

/-- What a move must be like for updates to be sent once: a worker is told to send its update to the first of the
parameter servers that were in the pool when the handler started, when the handler has found the target met, the
training incomplete and no update of the worker recorded there; and if one was recorded there, the round has advanced or
the parameter server was not in the pool since. -/
structure SendsOnce (m : Move ι (SchedulerState PeerId T) (Handler PeerId))
    (h : List (Move ι (SchedulerState PeerId T) (Handler PeerId))) : Prop where
  target : ∀ w target weight, issued m = some (w, .train (.sendUpdate target weight)) →
    ∃ i servers ps, m.actor = some i ∧ (∃ e ∈ h, Started i servers e) ∧ servers.head? = some ps ∧
      target = .peers [ps] .one none ∧ (∃ e ∈ m :: h, ReadsTarget i e) ∧ (∃ e ∈ m :: h, ReadsIncomplete i e) ∧
      w ∉ m.before.shared.parameterPool.retain.updatesOf ps
  once : ∀ w peers strategy resource weight ps,
    issued m = some (w, .train (.sendUpdate (.peers peers strategy resource) weight)) → ps ∈ peers →
    ∀ g₁ e g₂, h = g₁ ++ e :: g₂ → Records w ps e →
      (∃ e' ∈ g₁, AdvancesRound e') ∨ ∃ e' ∈ e :: g₁, ps ∉ e'.after.shared.parameterPool.ids

/-- What the handlers have read lets them send updates only so. -/
theorem sendUpdate_run {cfg : Settings} {c : Config ι (SchedulerState PeerId T) (Handler PeerId)} {i : ι}
    {s' : SchedulerState PeerId T} {k' : Handler PeerId} (hk : HasRead h i (c.tasks i))
    (hres : Resumes cfg c.shared (c.tasks i) (s', k')) {target : Reference PeerId} {weight : Weight}
    (hi : k'.answer? = some (w, .train (.sendUpdate target weight))) :
    ∃ servers ps, (∃ e ∈ h, Started i servers e) ∧ servers.head? = some ps ∧ target = .peers [ps] .one none ∧
      (∃ e ∈ (⟨c, some i, ⟨s', Function.update c.tasks i k'⟩⟩ : Move ι _ _) :: h, ReadsTarget i e) ∧
      (∃ e ∈ (⟨c, some i, ⟨s', Function.update c.tasks i k'⟩⟩ : Move ι _ _) :: h, ReadsIncomplete i e) ∧
      w ∉ c.shared.parameterPool.retain.updatesOf ps := by
  generalize hki : c.tasks i = k at hk hres
  cases hres with
  | start t now request =>
    obtain ⟨p, jobId, status⟩ := request
    rw [Handler.answer?_suspended] at hi
    cases enter_answer _ _ hi.2
  | resume t ctx k running =>
    obtain ⟨hstarted, hidle, hbatch⟩ := hk
    rw [Handler.answer?_suspended] at hi
    obtain ⟨rfl, ha⟩ := hi
    cases resume_answer cfg ctx c.shared t k running ha with
    | idleSendUpdate snapshot =>
      obtain ⟨ps, hps, htarget, hmet, habsent⟩ := idleTraining_sendUpdate cfg ctx c.shared ha
      obtain ⟨e, he, hread⟩ := hidle snapshot rfl
      exact ⟨_, ps, hstarted, hps, htarget, ⟨_, List.mem_cons_self, rfl, congrArg Handler.waits hki, hmet⟩,
        ⟨e, List.mem_cons_of_mem _ he, hread⟩, habsent⟩
    | batchSendUpdate snapshot count updateTarget contribution =>
      obtain ⟨ps, hps, htarget, hmet, hcomplete, habsent⟩ := batchRound_sendUpdate cfg ctx c.shared ha
      obtain ⟨e, he, hread⟩ := hbatch _ _ _ _ rfl hmet
      exact ⟨_, ps, hstarted, hps, htarget, ⟨e, List.mem_cons_of_mem _ he, hread⟩,
        ⟨_, List.mem_cons_self, rfl, congrArg Handler.waits hki, hcomplete⟩, habsent⟩

theorem sendsOnce_run {cfg : Settings} {c : Config ι (SchedulerState PeerId T) (Handler PeerId)} {i : ι}
    {s' : SchedulerState PeerId T} {k' : Handler PeerId} (hG : RecordsKept h c.shared)
    (hk : HasRead h i (c.tasks i)) (hres : Resumes cfg c.shared (c.tasks i) (s', k')) :
    SendsOnce ⟨c, some i, ⟨s', Function.update c.tasks i k'⟩⟩ h := by
  refine ⟨fun w target weight hi => ?_, fun w peers strategy resource weight ps hi hps g₁ e g₂ hsplit he => ?_⟩
  · rw [issued_run] at hi
    obtain ⟨servers, ps, hsend⟩ := sendUpdate_run hk hres hi
    exact ⟨i, servers, ps, rfl, hsend⟩
  · rw [issued_run] at hi
    obtain ⟨-, ps', -, -, htarget, -, -, habsent⟩ := sendUpdate_run hk hres hi
    cases htarget
    obtain rfl : ps = ps' := List.mem_singleton.mp hps
    by_contra hnot
    push Not at hnot
    have hstands : StandsRecorded w ps h := by
      rw [hsplit]
      exact standsRecorded_of_split he hnot.1 hnot.2
    obtain ⟨hmember, hmem⟩ := hG w ps hstands
    rw [PoolWithAggregateInfo.updatesOf_retain, if_pos hmember] at habsent
    exact habsent hmem

/-- **Updates are sent once** along every interleaving of handlers, while members join and leave the pools. -/
theorem updates_sent_once (job : Job) (workers servers : List (WorkerDescriptor PeerId))
    (requests : ι → PeerId × ActionRequest) {h : List (Move ι (SchedulerState PeerId T) (Handler PeerId))}
    {c : Config ι (SchedulerState PeerId T) (Handler PeerId)}
    (past : (handlers job.settings).Interleaves (arriving job workers servers requests) h c) : Along SendsOnce h := by
  refine (past.rule RecordsKept (fun h i _ k => HasRead h i k) (fun _ _ => True) SendsOnce (fun _ _ hfalse => hfalse.elim)
    (fun _ => trivial) ?_ ?_ (along_true h)).2.2
  · intro h c i s' k' hG hA _ _ hres
    exact ⟨recordsKept_run hG hres, hasRead_run (hA i) hres, fun j _ => (hA j).cons, sendsOnce_run hG (hA i) hres⟩
  · intro h c s' hG hA _ henv
    refine ⟨?_, fun j => (hA j).cons, ⟨fun _ _ _ hi => (by cases hi), fun _ _ _ _ _ _ hi => (by cases hi)⟩⟩
    rintro w ps ⟨hmember, hstands⟩
    refine ⟨hmember, ?_⟩
    rcases hstands with ⟨-, j, ctx, message, hactor, -⟩ | ⟨-, hstands⟩
    · cases hactor
    · -- whoever joins or leaves, the entries stay
      have hentries := (hG w ps hstands).2
      obtain ⟨input, hinput, rfl⟩ := henv
      cases input with
      | report p status now clock => cases hinput
      | _ => exact hentries

end Interleaved

/-- Worker 1 completes a batch, sends the update it is told to, and asks again. -/
def onceRequests : Fin 3 → Nat × ActionRequest
  | 0 => (1, ⟨0, .train (.batchCompleted 1 1)⟩)
  | 1 => (1, ⟨0, .train (.sentUpdate 0 [])⟩)
  | 2 => (1, ⟨0, .train .idle⟩)

def sentOnce : Played Nat RunningMean (Fin 3) :=
  play (smallJob 1 1 2).settings (arriving (smallJob 1 1 2) (joined [1]) (joined [9]) onceRequests)
    (times 3 0 ++ times 4 1 ++ times 3 2)

theorem updates_sent_once_one_batch :
    sentOnce.moves.filterMap issued =
        [(1, .train (.idle 500000000)), (1, .train (.idle 500000000)),
          (1, .train (.sendUpdate (.peers [9] .one none) ⟨1, 1⟩))] ∧ Along SendsOnce sentOnce.moves :=
  ⟨by decide, updates_sent_once _ _ _ _ (play_interleaves _ _ _ (by decide))⟩

end Hypha.Scheduler
