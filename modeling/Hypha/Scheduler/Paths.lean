import Hypha.Scheduler.Weights

/-!
# Two paths to the same work

`Idle` and `BatchCompleted` decide what a worker does next with two copies of one piece of code. The first reads the
samples of the worker from the pool, the second takes them from a snapshot from before the report and adds
`batch_size`, while `batch_size * batches` were recorded.

* `PathsAgree` : a worker is told what it would be told right afterwards, and weights are proper fractions;
* `answer_afterwards` : what it is told right afterwards;
* `agreesWhen` : the update is not asked for, or the report has one batch, up to clamping;
* `pathsAgree_iff` : the paths agree exactly then, in every state that is reached.
-/

namespace Hypha.Scheduler

open Hypha.Lib Hypha.Action

variable {PeerId T : Type} [LinearOrder PeerId] [RuntimeStatistic T]

/-! ## The specification -/

/-- An action with its times put off. -/
def putOff (d : Duration) : ExecutorAction PeerId → ExecutorAction PeerId
  | .train (.idle timeout) => .train (.idle (timeout + d))
  | .train (.waitForModel timeout) => .train (.waitForModel (timeout + d))
  | .train (.receiveModel source timeout) => .train (.receiveModel source (timeout + d))
  | .train (.applyUpdate source timeout) => .train (.applyUpdate source (timeout + d))
  | .aggregate (.idle timeout) => .aggregate (.idle (timeout + d))
  | action => action

/-- A weight is a fraction between 0 and 1. -/
def Proper (weight : Weight) : Prop := 0 < weight.den ∧ 0 ≤ weight.toRat ∧ weight.toRat ≤ 1

/-- The state after `p` has reported completed batches. -/
def afterBatch (cfg : Settings) (s : SchedulerState PeerId T) (clock : Nat → Instant) (now : SystemTime) (p : PeerId)
    (batchSize batches : Nat) : SchedulerState PeerId T :=
  (step cfg s (.report p (.train (.batchCompleted batchSize batches)) now clock)).1

/-- What the two paths owe each other in a state. -/
structure PathsAgree (cfg : Settings) (s : SchedulerState PeerId T) (p : PeerId) (batchSize batches : Nat) : Prop where
  same : p ∈ s.workerPool.ids → s.roundState.trainingComplete = false → s.roundState.aggregatedUpdates = false →
    ∀ clock clock' now d, answer cfg (afterBatch cfg s clock now p batchSize batches) clock' (now + d) p (.train .idle) =
      putOff d (answer cfg s clock now p (.train (.batchCompleted batchSize batches)))
  batch : ∀ clock now r weight,
    answer cfg s clock now p (.train (.batchCompleted batchSize batches)) = .train (.sendUpdate r weight) → Proper weight
  idle : ∀ clock now r weight, answer cfg s clock now p (.train .idle) = .train (.sendUpdate r weight) → Proper weight

/-! ## The condition -/

/-- Whether, with no aggregate to apply, `p` is to send its update once the round has counted `count` samples. -/
def dueAt (s : SchedulerState PeerId T) (p : PeerId) (count : Nat) : Bool :=
  !s.roundState.trainingComplete && !recorded s.parameterPool p && !s.parameterPool.ids.isEmpty &&
    decide (s.trainingState.updateTarget ≤ count)

/-- Once the update is due, the report counts for the worker what its contribution adds, and the contribution is a part
of a positive number of samples. -/
def AgreesWhen (s : SchedulerState PeerId T) (p : PeerId) (batchSize batches : Nat) : Prop :=
  let counter := s.trainingState.counter
  let processed := (present s.workerPool p).samplesProcessed
  let product := wrappingMul batchSize batches
  let due := dueAt s p (saturatingAdd counter product)
  (due = true → p ∈ s.workerPool.ids → s.roundState.aggregatedUpdates = false →
    product = batchSize ∨ u32Max ≤ processed + product ∧ u32Max ≤ processed + batchSize) ∧
  (due = true → 0 < counter + product ∧ (processed + batchSize ≤ counter + product ∨ u32Max ≤ counter + product)) ∧
  (dueAt s p counter = true → (s.roundState.aggregatedUpdates && !(present s.workerPool p).appliedUpdate) = false →
    0 < counter)

instance (s : SchedulerState PeerId T) (p : PeerId) (batchSize batches : Nat) :
    Decidable (AgreesWhen s p batchSize batches) :=
  inferInstanceAs (Decidable ((_ → _ → _ → _ ∨ _) ∧ (_ → _ ∧ _) ∧ (_ → _ → _)))

/-! ## Right afterwards -/

/-- What a projection does not read. -/
def bare (w : WorkerDescriptorWithInfo PeerId) : WorkerDescriptorWithInfo PeerId := { w with state := {} }

theorem projectBatches_bare (cfg : Settings) (snapshot : List (WorkerDescriptorWithInfo PeerId))
    (count updateTarget : Nat) (p : PeerId) :
    cfg.projectBatches (snapshot.map bare) count updateTarget p = cfg.projectBatches snapshot count updateTarget p := by
  unfold Settings.projectBatches
  rw [List.findIdx?_map, List.map_map, List.map_map, List.map_map, List.isEmpty_map]
  rfl

omit [RuntimeStatistic T] in
theorem entries_retain {pool : PoolWithTrainInfo PeerId T} {q : PeerId} (hq : q ∈ pool.ids) :
    pool.retain.entries q = pool.entries q :=
  if_pos hq

theorem entries_updateState (pool : PoolWithTrainInfo PeerId T) (p q : PeerId)
    (f : WorkerState PeerId → WorkerState PeerId) :
    (pool.updateState p f).entries q =
      if q = p then some { pool.entryOf p with state := f (pool.entryOf p).state } else pool.entries q :=
  Function.update_apply ..

/-- A write to the state of a peer that has an entry. -/
theorem bare_updateState (pool : PoolWithTrainInfo PeerId T) (p : PeerId) (f : WorkerState PeerId → WorkerState PeerId)
    (h : (pool.entries p).isSome = true) :
    (pool.retain.updateState p f).retain.snapshot.map bare = pool.retain.snapshot.map bare := by
  unfold PoolWithTrainInfo.snapshot
  rw [List.map_map, List.map_map]
  refine List.map_congr_left fun d hd => ?_
  have hmem : d.peerId ∈ pool.ids := List.mem_map.mpr ⟨d, hd, rfl⟩
  have hmem' : d.peerId ∈ (pool.retain.updateState p f).ids := hmem
  rw [Function.comp_apply, Function.comp_apply, entries_retain hmem', entries_updateState, entries_retain hmem]
  split_ifs with hdp
  · obtain ⟨entry, hentry⟩ := Option.isSome_iff_exists.mp h
    subst hdp
    unfold PoolWithTrainInfo.entryOf
    rw [entries_retain hmem, hentry]
    rfl
  · rfl

theorem recorded_retain (pool : PoolWithAggregateInfo PeerId) (p : PeerId) :
    recorded pool.retain p = recorded pool p := by
  unfold recorded
  rw [PoolWithAggregateInfo.ids_retain]
  cases hps : pool.ids.head? with
  | none => rfl
  | some ps => rw [Option.map_some, PoolWithAggregateInfo.updatesOf_retain, if_pos (List.mem_of_mem_head? hps)]; rfl

omit [LinearOrder PeerId] in
theorem work_congr {ctx ctx' : Context PeerId} (hnow : ctx.now = ctx'.now)
    (hservers : ctx.parameterServers = ctx'.parameterServers) (shouldUpdate : Bool)
    (contribution projectedTarget batches : Nat) :
    ctx.work shouldUpdate contribution projectedTarget batches =
      ctx'.work shouldUpdate contribution projectedTarget batches := by
  unfold Context.work Context.shortIdle
  rw [hnow, hservers]

section Afterwards
variable (cfg : Settings) (s : SchedulerState PeerId T) (clock : Nat → Instant) (now : SystemTime) (p : PeerId)
  (batchSize batches : Nat)

theorem afterBatch_workerPool :
    (afterBatch cfg s clock now p batchSize batches).workerPool =
      (batchRecorded cfg s clock now p cfg.id batchSize batches).workerPool := by
  unfold afterBatch step
  dsimp only
  rw [schedule_batchCompleted]
  rfl

theorem afterBatch_parameterPool :
    (afterBatch cfg s clock now p batchSize batches).parameterPool = s.parameterPool.retain := by
  unfold afterBatch step
  dsimp only
  rw [schedule_batchCompleted]
  exact batchRound_parameterPool cfg s clock now p cfg.id batchSize batches ..

theorem afterBatch_roundState : (afterBatch cfg s clock now p batchSize batches).roundState = s.roundState := by
  unfold afterBatch step
  dsimp only
  rw [schedule_batchCompleted]
  rfl

theorem afterBatch_trainingState :
    (afterBatch cfg s clock now p batchSize batches).trainingState =
      s.trainingState.recordBatch (wrappingMul batchSize batches) := by
  unfold afterBatch step
  dsimp only
  rw [schedule_batchCompleted]
  rfl

theorem afterBatch_snapshot :
    (afterBatch cfg s clock now p batchSize batches).workerPool.retain.snapshot.map bare =
      (batchPool cfg s clock now p cfg.id batches).snapshot.map bare := by
  rw [afterBatch_workerPool]
  refine bare_updateState _ p _ ?_
  unfold PoolWithTrainInfo.updateStatistics
  dsimp only
  rw [Function.update_self]
  rfl

/-- What the worker has processed then: all of the report. -/
theorem afterBatch_samples (hp : p ∈ s.workerPool.ids) :
    (present (afterBatch cfg s clock now p batchSize batches).workerPool p).samplesProcessed =
      saturatingAdd (standing s.workerPool p).samplesProcessed (wrappingMul batchSize batches) := by
  have hids : p ∈ (afterBatch cfg s clock now p batchSize batches).workerPool.ids := by
    rw [afterBatch_workerPool]
    exact hp
  have heff := schedule_effect cfg s clock now p cfg.id (.train (.batchCompleted batchSize batches))
  rw [present_of_mem hids]
  refine (congrArg Standing.samplesProcessed (heff.workerPool.of_mem hp)).trans ?_
  simp [standingAfter, advances, counted]

/-- **Right afterwards**: the projection of `BatchCompleted`, with the samples the worker has processed by then. -/
theorem answer_afterwards (hp : p ∈ s.workerPool.ids) (hc : s.roundState.trainingComplete = false)
    (ha : s.roundState.aggregatedUpdates = false) (clock' : Nat → Instant) (later : SystemTime) :
    answer cfg (afterBatch cfg s clock now p batchSize batches) clock' later p (.train .idle) = .train (
      let ctx := context cfg s (clock 6) later p cfg.id
      let projected := cfg.projectBatches (batchPool cfg s clock now p cfg.id batches).snapshot
        (saturatingAdd s.trainingState.counter (wrappingMul batchSize batches)) s.trainingState.updateTarget p
      if recorded s.parameterPool p then .idle ctx.shortIdle
      else ctx.work projected.1 (saturatingAdd (standing s.workerPool p).samplesProcessed
        (wrappingMul batchSize batches)) projected.2.1 projected.2.2) := by
  have hround := afterBatch_roundState cfg s clock now p batchSize batches
  have hservers : (context cfg (afterBatch cfg s clock now p batchSize batches) (clock' 6) later p
      cfg.id).parameterServers = (context cfg s (clock 6) later p cfg.id).parameterServers := by
    rw [context_parameterServers, context_parameterServers, afterBatch_parameterPool]
    rfl
  rw [answer_idle_eq _ _ _ _ _ (by rw [hround]; exact hc), hround, ha, Bool.false_and, afterBatch_parameterPool,
    recorded_retain, afterBatch_samples cfg s clock now p batchSize batches hp, afterBatch_trainingState,
    ← projectBatches_bare, afterBatch_snapshot, projectBatches_bare]
  refine congrArg ExecutorAction.train ?_
  dsimp only
  rw [if_neg Bool.false_ne_true]
  refine if_congr Iff.rfl rfl ?_
  apply work_congr
  · rfl
  · exact hservers

end Afterwards

/-! ## When the paths agree -/

omit [LinearOrder PeerId] in
theorem shortIdle_later {ctx ctx' : Context PeerId} {d : Duration} (hnow : ctx'.now = ctx.now + d) :
    ctx'.shortIdle = ctx.shortIdle + d := by
  unfold Context.shortIdle
  rw [hnow, Nat.add_right_comm]

omit [LinearOrder PeerId] in
theorem putOff_idle (d : Duration) (t : SystemTime) :
    putOff d (.train (.idle t) : ExecutorAction PeerId) = .train (.idle (t + d)) := rfl

omit [LinearOrder PeerId] in
theorem putOff_work {ctx ctx' : Context PeerId} {d : Duration} (hnow : ctx'.now = ctx.now + d)
    (hservers : ctx'.parameterServers = ctx.parameterServers) (shouldUpdate : Bool)
    (contribution projectedTarget batches : Nat) :
    putOff d (.train (ctx.work shouldUpdate contribution projectedTarget batches)) =
      .train (ctx'.work shouldUpdate contribution projectedTarget batches) := by
  unfold Context.work
  rw [shortIdle_later hnow, hservers]
  cases shouldUpdate with
  | false => rfl
  | true => cases ctx.parameterServers <;> rfl

omit [LinearOrder PeerId] in
theorem work_eq_work_iff (ctx : Context PeerId) (shouldUpdate : Bool) (c c' projectedTarget batches : Nat) :
    ctx.work shouldUpdate c projectedTarget batches = ctx.work shouldUpdate c' projectedTarget batches ↔
      (shouldUpdate = true → ctx.parameterServers.isEmpty = false → c = c') := by
  unfold Context.work
  cases shouldUpdate <;> cases ctx.parameterServers <;> simp

theorem proper_iff (num den : Nat) : Proper ⟨num, den⟩ ↔ 0 < den ∧ num ≤ den := by
  unfold Proper Weight.toRat
  refine and_congr_right fun hden => ?_
  have hpos : (0 : ℚ) < den := by exact_mod_cast hden
  rw [div_le_one hpos, Nat.cast_le]
  exact and_iff_right (div_nonneg (Nat.cast_nonneg _) hpos.le)

section Agree
variable (cfg : Settings) (s : SchedulerState PeerId T) (clock : Nat → Instant) (now : SystemTime) (p : PeerId)
  (batchSize batches : Nat)

/-- The contribution, for members and others. -/
theorem batchContribution_eq (hb : batchSize ≤ u32Max) :
    batchContribution cfg s clock now p cfg.id batchSize batches =
      saturatingAdd (present s.workerPool p).samplesProcessed batchSize := by
  by_cases hp : p ∈ s.workerPool.ids
  · rw [batchContribution_of_mem cfg s clock now hp, present_of_mem hp]
  · unfold batchContribution batchPool
    rw [PoolWithTrainInfo.find_snapshot _ p (fun st => saturatingAdd st.samplesProcessed batchSize),
      PoolWithTrainInfo.ids_updateStatistics, if_neg hp]
    unfold present standing
    rw [PoolWithTrainInfo.stateOf_retain, if_neg hp]
    show batchSize = saturatingAdd 0 batchSize
    rw [saturatingAdd_of_le (by omega), Nat.zero_add]

omit [RuntimeStatistic T] in
variable {s p} in
/-- An update that is due has somewhere to go. -/
theorem server_of_dueAt {count : Nat} (h : dueAt s p count = true) : ∃ ps, s.parameterPool.ids.head? = some ps := by
  simp only [dueAt, Bool.and_eq_true, Bool.not_eq_true', List.isEmpty_eq_false_iff] at h
  exact Option.isSome_iff_exists.mp (List.isSome_head?.mpr h.1.2)

/-- `SendUpdate` on `BatchCompleted`. -/
theorem answer_batchCompleted_eq_sendUpdate_iff (hb : batchSize ≤ u32Max) (r : Reference PeerId) (weight : Weight) :
    answer cfg s clock now p (.train (.batchCompleted batchSize batches)) = .train (.sendUpdate r weight) ↔
      dueAt s p (saturatingAdd s.trainingState.counter (wrappingMul batchSize batches)) = true ∧
        ∃ ps, s.parameterPool.ids.head? = some ps ∧ r = .peers [ps] .one none ∧
          weight = ⟨saturatingAdd (present s.workerPool p).samplesProcessed batchSize,
            saturatingAdd s.trainingState.counter (wrappingMul batchSize batches)⟩ := by
  obtain ⟨target, next, htarget, h⟩ := answer_batchCompleted cfg s clock now p batchSize batches
  rw [h, batchContribution_eq cfg s clock now p batchSize batches hb]
  unfold dueAt
  cases hbusy : s.roundState.trainingComplete || recorded s.parameterPool p with
  | true =>
    rw [← Bool.not_or, hbusy]
    simp
  | false =>
    rw [← Bool.not_or, hbusy]
    simp only [Bool.false_eq_true, if_false, ExecutorAction.train.injEq, work_eq_sendUpdate_iff, decide_eq_true_eq,
      context_parameterServers, Bool.not_false, Bool.true_and, Bool.and_eq_true, Bool.not_eq_true',
      List.isEmpty_eq_false_iff]
    constructor
    · rintro ⟨hle, ps, hps, hr, hw⟩
      exact ⟨⟨List.ne_nil_of_mem (List.mem_of_mem_head? hps), hle⟩, ps, hps, hr, by rw [hw, htarget hle]⟩
    · rintro ⟨⟨-, hle⟩, ps, hps, hr, hw⟩
      exact ⟨hle, ps, hps, hr, by rw [hw, htarget hle]⟩

/-- The action is the same exactly when, once the update is due, the contribution is what the worker has processed. -/
theorem same_iff (hp : p ∈ s.workerPool.ids) (hc : s.roundState.trainingComplete = false)
    (ha : s.roundState.aggregatedUpdates = false) (clock' : Nat → Instant) (d : Duration) :
    answer cfg (afterBatch cfg s clock now p batchSize batches) clock' (now + d) p (.train .idle) =
        putOff d (answer cfg s clock now p (.train (.batchCompleted batchSize batches))) ↔
      (dueAt s p (saturatingAdd s.trainingState.counter (wrappingMul batchSize batches)) = true →
        saturatingAdd (standing s.workerPool p).samplesProcessed (wrappingMul batchSize batches) =
          saturatingAdd (standing s.workerPool p).samplesProcessed batchSize) := by
  rw [answer_afterwards cfg s clock now p batchSize batches hp hc ha, answer_batchCompleted_eq,
    batchContribution_of_mem cfg s clock now hp]
  have hlater : (context cfg s (clock 6) (now + d) p cfg.id).shortIdle =
      (context cfg s (clock 6) now p cfg.id).shortIdle + d := shortIdle_later rfl
  have hwork : ∀ u c t n, putOff d (.train ((context cfg s (clock 6) now p cfg.id).work u c t n)) =
      .train ((context cfg s (clock 6) (now + d) p cfg.id).work u c t n) := putOff_work rfl rfl
  unfold dueAt
  dsimp only
  rw [hc, Bool.not_false, Bool.true_and, Bool.false_or]
  cases hr : recorded s.parameterPool p with
  | true =>
    simp only [if_true, Bool.not_true, Bool.false_and, Bool.false_eq_true, false_implies, iff_true]
    rw [putOff_idle, hlater]
  | false =>
    simp only [Bool.false_eq_true, if_false, Bool.not_false, Bool.true_and]
    rw [hwork, ExecutorAction.train.injEq, work_eq_work_iff, projectBatches_fst, context_parameterServers,
      Bool.and_eq_true, Bool.not_eq_true', decide_eq_true_eq, and_imp]
    exact ⟨fun h hids hle => h hle hids, fun h hle hids => h hids hle⟩

/-- The weights of `BatchCompleted`. -/
theorem proper_batch_iff (hb : batchSize ≤ u32Max) :
    (∀ clock now r weight, answer cfg s clock now p (.train (.batchCompleted batchSize batches)) =
        .train (.sendUpdate r weight) → Proper weight) ↔
      (dueAt s p (saturatingAdd s.trainingState.counter (wrappingMul batchSize batches)) = true →
        0 < s.trainingState.counter + wrappingMul batchSize batches ∧
          ((present s.workerPool p).samplesProcessed + batchSize ≤
              s.trainingState.counter + wrappingMul batchSize batches ∨
            u32Max ≤ s.trainingState.counter + wrappingMul batchSize batches)) := by
  have hproper : ∀ a c, Proper ⟨saturatingAdd a batchSize, saturatingAdd c (wrappingMul batchSize batches)⟩ ↔
      0 < c + wrappingMul batchSize batches ∧
        (a + batchSize ≤ c + wrappingMul batchSize batches ∨ u32Max ≤ c + wrappingMul batchSize batches) := by
    intro a c
    have hu : 0 < u32Max := by decide
    rw [proper_iff]
    unfold saturatingAdd
    omega
  constructor
  · intro h hdue
    obtain ⟨ps, hps⟩ := server_of_dueAt hdue
    rw [← hproper]
    exact h (fun _ => 0) 0 _ _
      ((answer_batchCompleted_eq_sendUpdate_iff cfg s _ _ p batchSize batches hb _ _).mpr ⟨hdue, ps, hps, rfl, rfl⟩)
  · intro h clock now r weight hans
    obtain ⟨hdue, ps, -, -, rfl⟩ :=
      (answer_batchCompleted_eq_sendUpdate_iff cfg s clock now p batchSize batches hb r weight).mp hans
    exact (hproper _ _).mpr (h hdue)

/-- The weights of `Idle`: what a worker has processed is a part of what was counted. -/
theorem proper_idle_iff (hle : (present s.workerPool p).samplesProcessed ≤ s.trainingState.counter) :
    (∀ clock now r weight, answer cfg s clock now p (.train .idle) = .train (.sendUpdate r weight) → Proper weight) ↔
      (dueAt s p s.trainingState.counter = true →
        (s.roundState.aggregatedUpdates && !(present s.workerPool p).appliedUpdate) = false →
          0 < s.trainingState.counter) := by
  have hupdate : dueAt s p s.trainingState.counter = true →
      (s.roundState.aggregatedUpdates && !(present s.workerPool p).appliedUpdate) = false → updateDue s p = true := by
    intro hdue happlied
    simp only [dueAt, Bool.and_eq_true] at hdue
    simp [updateDue, hdue, happlied]
  constructor
  · intro h hdue happlied
    obtain ⟨ps, hps⟩ := server_of_dueAt hdue
    have hweight := h (fun _ => 0) 0 _ _
      ((answer_idle_eq_sendUpdate_iff cfg s _ _ p _ _).mpr ⟨hupdate hdue happlied, ps, hps, rfl, rfl⟩)
    exact ((proper_iff _ _).mp hweight).1
  · intro h clock now r weight hans
    obtain ⟨hdue, ps, hps, -, rfl⟩ := (answer_idle_eq_sendUpdate_iff cfg s clock now p r weight).mp hans
    simp only [updateDue, Bool.and_eq_true, Bool.not_eq_true'] at hdue
    refine (proper_iff _ _).mpr ⟨h ?_ hdue.1.1.2, hle⟩
    have hservers : s.parameterPool.ids ≠ [] := List.ne_nil_of_mem (List.mem_of_mem_head? hps)
    simp [dueAt, hdue, hservers]

end Agree

/-! ## Every run -/

/-- No worker has processed more than was counted. -/
structure Counts (s : SchedulerState PeerId T) : Prop where
  samples : ∀ q, (standing s.workerPool q).samplesProcessed ≤ s.trainingState.counter
  counter : s.trainingState.counter ≤ u32Max

theorem counted_mono (status : ExecutorStatus) {a c : Nat} (h : a ≤ c) : counted status a ≤ counted status c := by
  unfold counted saturatingAdd
  split
  · omega
  · exact h

theorem le_counted (status : ExecutorStatus) {c : Nat} (h : c ≤ u32Max) : c ≤ counted status c := by
  unfold counted saturatingAdd
  split
  · omega
  · exact Nat.le_refl c

theorem counted_le (status : ExecutorStatus) {c : Nat} (h : c ≤ u32Max) : counted status c ≤ u32Max := by
  unfold counted saturatingAdd
  split
  · omega
  · exact h

theorem Counts.present {s : SchedulerState PeerId T} (h : Counts s) (p : PeerId) :
    (present s.workerPool p).samplesProcessed ≤ s.trainingState.counter := by
  by_cases hp : p ∈ s.workerPool.ids
  · rw [present_of_mem hp]
    exact h.samples p
  · unfold Scheduler.present standing
    rw [PoolWithTrainInfo.stateOf_retain, if_neg hp]
    exact Nat.zero_le _

theorem counts_report {s s' : SchedulerState PeerId T} {p : PeerId} {status : ExecutorStatus} (h : Counts s)
    (heff : Effect s s' p status) : Counts s' := by
  have hafter : ∀ q (st : Standing), st.samplesProcessed ≤ s.trainingState.counter →
      (standingAfter s p status q st).samplesProcessed ≤ s'.trainingState.counter := by
    intro q st hst
    rw [heff.counter]
    unfold standingAfter
    dsimp only
    split_ifs
    · exact Nat.le_refl 0
    · exact counted_mono status hst
    · exact hst.trans (le_counted status h.counter)
  refine ⟨fun q => ?_, ?_⟩
  · rcases heff.workerPool.standing q with hst | ⟨-, hst | hst⟩
    · rw [hst]
      exact hafter q _ (h.samples q)
    · rw [hst]
      exact hafter q {} (Nat.zero_le _)
    · rw [hst]
      exact Nat.zero_le _
  · rw [heff.counter]
    split_ifs
    · exact Nat.zero_le _
    · exact counted_le status h.counter

theorem counts_run (job : Job) (workers servers : List (WorkerDescriptor PeerId)) (inputs : List (Input PeerId)) :
    Counts (run T job workers servers inputs).state := by
  refine (machine job.settings).run_invariant (fun w => Counts w.state) ?_ ?_ inputs
  · exact ⟨fun _ => Nat.le_refl 0, Nat.zero_le _⟩
  · intro w i h
    cases hi : i.report? with
    | none =>
      have henv := (step_environment job.settings w.state hi).1
      refine ⟨fun q => ?_, ?_⟩
      · exact (congrArg Standing.samplesProcessed (henv.standing q)).trans_le
          ((h.samples q).trans_eq (congrArg TrainingState.counter henv.trainingState).symm)
      · exact (congrArg TrainingState.counter henv.trainingState).trans_le h.counter
    | some report => exact counts_report h (step_report job.settings w.state hi).1

/-- **The paths agree**, in every state that is reached, exactly when the condition holds there. -/
theorem pathsAgree_iff (job : Job) (workers servers : List (WorkerDescriptor PeerId)) (inputs : List (Input PeerId))
    (p : PeerId) (batchSize batches : Nat) (hb : batchSize ≤ u32Max) :
    PathsAgree job.settings (run T job workers servers inputs).state p batchSize batches ↔
      AgreesWhen (run T job workers servers inputs).state p batchSize batches := by
  have hcounts := counts_run (T := T) job workers servers inputs
  generalize (run T job workers servers inputs).state = s at *
  have hbatch := proper_batch_iff job.settings s p batchSize batches hb
  have hidle := proper_idle_iff job.settings s p (hcounts.present p)
  have hclamp : ∀ a, saturatingAdd a (wrappingMul batchSize batches) = saturatingAdd a batchSize ↔
      wrappingMul batchSize batches = batchSize ∨
        u32Max ≤ a + wrappingMul batchSize batches ∧ u32Max ≤ a + batchSize := by
    intro a
    unfold saturatingAdd
    omega
  constructor
  · intro h
    refine ⟨fun hdue hp ha => ?_, hbatch.mp h.batch, hidle.mp h.idle⟩
    have hc : s.roundState.trainingComplete = false := by
      simp only [dueAt, Bool.and_eq_true, Bool.not_eq_true'] at hdue
      exact hdue.1.1.1
    rw [present_of_mem hp, ← hclamp]
    exact (same_iff job.settings s (fun _ => 0) 0 p batchSize batches hp hc ha (fun _ => 0) 0).mp
      (h.same hp hc ha _ _ _ _) hdue
  · rintro ⟨hsame, hproper, hpositive⟩
    refine ⟨fun hp hc ha clock clock' now d => ?_, hbatch.mpr hproper, hidle.mpr hpositive⟩
    rw [same_iff job.settings s clock now p batchSize batches hp hc ha clock' d, hclamp, ← present_of_mem hp]
    exact fun hdue => hsame hdue hp ha

/-- A batch at a time. -/
theorem pathsAgree_one_batch :
    PathsAgree (smallJob 1 2 1).settings (run RunningMean (smallJob 1 2 1) (joined [1]) (joined [9])
      [tell 1 .joined, tell 1 (.batchCompleted 1 1)]).state 1 1 1 :=
  (pathsAgree_iff (smallJob 1 2 1) _ _ _ 1 1 1 (by decide)).mpr (by decide +kernel)

/-- Two batches of two samples: `BatchCompleted` asks for the update with weight 2/4, `Idle` with 4/4. -/
theorem pathsAgree_fails :
    ¬ PathsAgree (smallJob 1 4 1).settings
      (run RunningMean (smallJob 1 4 1) (joined [1]) (joined [9]) [tell 1 .joined]).state 1 2 2 := by
  intro h
  have hsame := h.same (by decide +kernel) (by decide +kernel) (by decide +kernel) (fun _ => 0) (fun _ => 0) 0 0
  revert hsame
  decide +kernel

end Hypha.Scheduler
