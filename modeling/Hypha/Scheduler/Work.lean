import Hypha.Scheduler.Executor
import Hypha.Scheduler.Rounds

/-!
# Work for an outdated model

Two kinds of workers must not be given work: one that still owes the last aggregate, and a late joiner that has no
model yet. Of both the scheduler keeps too little: the flag that an aggregate waits to be applied is dropped as soon as
the round advances, and a waiting worker is forgotten when its donor is chosen.

* `owes`, `lateJoiner` : the two, read off the history;
* `along_noWork_iff` : exactly when a kind of workers is given no work along a run;
* `agreement_iff`, `lateJoiners_iff` : that, for the two, and what is enough: no round but the last ends before every
  worker has applied its aggregate; no transfer of a model to a late joiner fails.
-/

namespace Hypha.Scheduler

open Hypha.Lib Hypha.Action

variable {PeerId T : Type} [LinearOrder PeerId] [RuntimeStatistic T]

/-! ## Who must not work -/

/-- Whether a step handles an `AppliedUpdate` of `p`. -/
def appliesUpdate (p : PeerId) (e : Step PeerId T) : Bool :=
  decide (reporter e = some p) && (statusOf e).any applies

/-- Whether a step announces an aggregate. -/
def announcing (e : Step PeerId T) : Bool := e.output.any isBroadcastUpdate

/-- Whether `p` has reported `AppliedUpdate` since the last aggregate was announced. -/
def appliedSince (p : PeerId) : List (Step PeerId T) → Bool
  | [] => false
  | e :: h => !announcing e && (appliesUpdate p e || appliedSince p h)

/-- Whether `p` owes the aggregate of the last round: it was a member, not waiting for its model, when the round
advanced, and has not reported `AppliedUpdate` for that aggregate. One that is reported after the next aggregate was
announced is for the next one. -/
def owes (p : PeerId) : List (Step PeerId T) → Bool
  | [] => false
  | e :: h =>
    if advancing e then
      e.pre.workerPool.isMember p && !(e.pre.workerPool.stateOf p).waitingForModel && !appliedSince p h
    else owes p h && !(appliesUpdate p e && !(currentRound h).any announcing)

/-- Whether `p` reported `Joined` after the first round and has neither received nor applied anything since. -/
def lateJoiner (p : PeerId) : List (Step PeerId T) → Bool
  | [] => false
  | e :: h =>
    if reporter e = some p then
      match statusOf e with
      | some (.train .joined) => decide (0 < e.pre.roundState.round) || lateJoiner p h
      | some (.train .receivedModel) => false
      | some (.train .appliedUpdate) => false
      | _ => lateJoiner p h
    else lateJoiner p h

/-! ## No work -/

/-- No worker of the kind `G` is given work. -/
def NoWork (G : PeerId → List (Step PeerId T) → Bool) (e : Step PeerId T) (h : List (Step PeerId T)) : Prop :=
  ∀ p, reporter e = some p → G p (e :: h) = true → e.output.any isWork = false

/-- Every report of a worker of the kind `G` comes when there is no work for it. -/
def NotDue (G : PeerId → List (Step PeerId T) → Bool) (e : Step PeerId T) (h : List (Step PeerId T)) : Prop :=
  ∀ p status, e.input.report? = some (p, status) → G p (e :: h) = true → givesWork e.pre p status = false

theorem noWork_iff (G : PeerId → List (Step PeerId T) → Bool) (cfg : Settings) (s : SchedulerState PeerId T)
    (i : Input PeerId) (h : List (Step PeerId T)) :
    NoWork G ((machine cfg).event s i) h ↔ NotDue G ((machine cfg).event s i) h := by
  unfold NoWork NotDue
  cases hi : i.report? with
  | none => simp [reporter, hi]
  | some report =>
    obtain ⟨p, status⟩ := report
    obtain ⟨now, clock, hout⟩ := (step_report cfg s hi).2
    have hwork : ((machine cfg).event s i).output.any isWork = givesWork s p status := by
      rw [← isWork_answer cfg s clock now p status]
      exact congrArg (Option.any isWork) hout
    simp only [reporter, Machine.event_input, hi, Option.map_some, Option.some.injEq, Prod.mk.injEq, hwork,
      Machine.event_pre]
    constructor
    · rintro hno q st ⟨rfl, rfl⟩
      exact hno p rfl
    · rintro hno q rfl
      exact hno p status ⟨rfl, rfl⟩

/-- A kind of workers is given no work along a run exactly when all their reports come when there is none. -/
theorem along_noWork_iff (G : PeerId → List (Step PeerId T) → Bool) (job : Job)
    (workers servers : List (WorkerDescriptor PeerId)) (inputs : List (Input PeerId)) :
    Along (NoWork G) (run T job workers servers inputs).history ↔
      Along (NotDue G) (run T job workers servers inputs).history :=
  (machine job.settings).along_run_congr (noWork_iff G job.settings) inputs

theorem givesWork_of_complete {s : SchedulerState PeerId T}
    (hc : s.roundState.trainingComplete = true) (p : PeerId) (status : ExecutorStatus) :
    givesWork s p status = false := by
  unfold givesWork
  split <;> simp [hc]

/-! ## Model agreement -/

/-- At a step that begins another round, every member that does not wait for its model has applied the aggregate. -/
def AppliedBefore (e : Step PeerId T) (h : List (Step PeerId T)) : Prop :=
  advancing e = true → e.pre.roundState.trainingComplete = false →
    saturatingAdd e.pre.roundState.round 1 < e.pre.roundState.updateRounds →
    ∀ p ∈ e.pre.workerPool.ids, (e.pre.workerPool.stateOf p).waitingForModel = false → appliedSince p h = true

instance (e : Step PeerId T) (h : List (Step PeerId T)) : Decidable (AppliedBefore e h) :=
  inferInstanceAs (Decidable (advancing e = true → e.pre.roundState.trainingComplete = false →
    saturatingAdd e.pre.roundState.round 1 < e.pre.roundState.updateRounds →
    ∀ p ∈ e.pre.workerPool.ids, (e.pre.workerPool.stateOf p).waitingForModel = false → appliedSince p h = true))

/-- Whoever owes an aggregate owes the last one. -/
def OnlyLastOwed (w : Trace PeerId T) : Prop :=
  ∀ p, owes p w.history = true → w.state.roundState.trainingComplete = true

section Step
variable {cfg : Settings} {w : Trace PeerId T} {i : Input PeerId}

theorem onlyLastOwed_next (hinv : OnlyLastOwed w) (happ : AppliedBefore ((machine cfg).event w.state i) w.history) :
    OnlyLastOwed ((machine cfg).next w i) := by
  intro p hp
  rw [Machine.next_history, owes] at hp
  split_ifs at hp with hadv
  · by_contra hcon
    obtain ⟨q, metrics, hi, hrec⟩ := report_of_advancing cfg w.state hadv
    have heff := (step_report cfg w.state hi).1
    have hpost : (step cfg w.state i).1.roundState.trainingComplete = false := Bool.not_eq_true _ ▸ hcon
    rw [heff.trainingComplete, Bool.or_eq_false_iff, ← advancing_report cfg w.state hi, hadv, Bool.true_and,
      decide_eq_false_iff_not, Nat.not_le] at hpost
    simp only [Bool.and_eq_true, PoolWithTrainInfo.isMember_iff, Bool.not_eq_true'] at hp
    obtain ⟨⟨hmem, hwait⟩, hnot⟩ := hp
    rw [happ hadv hpost.1 hpost.2 p hmem hwait] at hnot
    exact Bool.noConfusion hnot
  · rw [Bool.not_eq_true] at hadv
    exact (round_of_not_advancing w.state hadv).2.1.trans (hinv p (Bool.and_eq_true _ _ ▸ hp).1)

theorem noWork_owes_next (hinv : OnlyLastOwed w) : NoWork owes ((machine cfg).event w.state i) w.history := by
  rw [noWork_iff]
  intro p status hi hp
  rw [owes] at hp
  split_ifs at hp with hadv
  · obtain ⟨q, metrics, hi', -⟩ := report_of_advancing cfg w.state hadv
    rw [Machine.event_input] at hi
    obtain ⟨rfl, rfl⟩ := Prod.mk.inj (Option.some.inj (hi.symm.trans hi'))
    rfl
  · exact givesWork_of_complete (hinv p (Bool.and_eq_true _ _ ▸ hp).1) p status

end Step

/-- If every round but the last ends only after every worker has applied its aggregate, nobody works on an outdated
model. -/
theorem noWork_owes_of_appliedBefore (job : Job) (workers servers : List (WorkerDescriptor PeerId))
    (inputs : List (Input PeerId)) (h : Along AppliedBefore (run T job workers servers inputs).history) :
    Along (NoWork owes) (run T job workers servers inputs).history :=
  ((machine job.settings).along_of_invariant OnlyLastOwed AppliedBefore (NoWork owes)
    (fun _ hp => absurd hp Bool.false_ne_true)
    (fun _ _ hinv happ => ⟨onlyLastOwed_next hinv happ, noWork_owes_next hinv⟩) inputs h).2

/-- **Model agreement.** A worker that owes an aggregate is given no work along a run exactly when its reports come
when there is none; it is enough that every round but the last ends after every worker has applied its aggregate. -/
theorem agreement_iff (job : Job) (workers servers : List (WorkerDescriptor PeerId)) (inputs : List (Input PeerId)) :
    (Along (NoWork owes) (run T job workers servers inputs).history ↔
      Along (NotDue owes) (run T job workers servers inputs).history) ∧
    (Along AppliedBefore (run T job workers servers inputs).history →
      Along (NoWork owes) (run T job workers servers inputs).history) :=
  ⟨along_noWork_iff owes job workers servers inputs, noWork_owes_of_appliedBefore job workers servers inputs⟩

/-- A worker applies the aggregate before the round ends, and works on. -/
theorem agreement_one_round :
    Along (NoWork owes) (run RunningMean (smallJob 1 1 2) (joined [1]) (joined [9])
      (oneAggregate ++ [tell 1 .idle, tell 1 .appliedUpdate, tellPs 9 (.broadcastedUpdate none),
        tell 1 (.batchCompleted 1 1)])).history :=
  (agreement_iff (smallJob 1 1 2) _ _ _).2 (by decide +kernel)

/-- The round ends before its only worker has applied the aggregate. -/
theorem agreement_fails : ¬ Along (NoWork owes) (run RunningMean (smallJob 1 1 2) (joined [1]) (joined [9])
    (oneAggregate ++ [tellPs 9 (.broadcastedUpdate none), tell 1 .idle])).history := by
  intro h
  exact absurd (h.1 1 (by decide +kernel) (by decide +kernel)) (by decide +kernel)

/-! ## Late joiners -/

/-- Nobody that waits for its first model reports a connection error. -/
def transferSucceeds (e : Step PeerId T) (h : List (Step PeerId T)) : Bool :=
  match e.input.report? with
  | some (p, .train (.error (.connection _))) => !lateJoiner p h
  | _ => true

/-- What a late joiner may have been told last. -/
def isModelless : Option (ExecutorAction PeerId) → Bool
  | none => true
  | some (.train (.waitForModel _)) => true
  | some (.train (.receiveModel _ _)) => true
  | some (.train .terminate) => true
  | some (.aggregate _) => true
  | _ => false

/-- Late joiners came after the first round, and were told nothing that leads to work. -/
structure JoinersWait (w : Trace PeerId T) : Prop where
  round : ∀ p, lateJoiner p w.history = true → w.state.roundState.round ≠ 0
  told : ∀ p, lateJoiner p w.history = true → isModelless (lastAnswer p w.history) = true

section Joiners
variable {cfg : Settings} {w : Trace PeerId T} {i : Input PeerId}

theorem round_ne_zero_step (s : SchedulerState PeerId T) (h : s.roundState.round ≠ 0) :
    (step cfg s i).1.roundState.round ≠ 0 := by
  cases hadv : advancing ((machine cfg).event s i) with
  | false => rwa [(round_of_not_advancing s hadv).1]
  | true =>
    obtain ⟨p, metrics, hi, hrec⟩ := report_of_advancing cfg s hadv
    rw [(step_report cfg s hi).1.round, if_pos (by exact hrec)]
    have hmax : 0 < u32Max := by decide
    unfold saturatingAdd
    omega

/-- A late joiner was one before, or has just joined after the first round. -/
theorem lateJoiner_cons {p : PeerId} (h : lateJoiner p ((machine cfg).event w.state i :: w.history) = true) :
    lateJoiner p w.history = true ∧ i.report? ≠ some (p, .train .appliedUpdate) ∨
      i.report? = some (p, .train .joined) ∧ w.state.roundState.round ≠ 0 := by
  rw [lateJoiner] at h
  split_ifs at h with hrep
  · obtain ⟨status, hi⟩ := report_of_reporter hrep
    have hi : i.report? = some (p, status) := hi
    rw [show statusOf ((machine cfg).event w.state i) = some status by simp [statusOf, hi]] at h
    rw [hi]
    split at h
    · rename_i hst
      rw [Option.some.inj hst]
      rcases Bool.or_eq_true _ _ ▸ h with hr | hl
      · exact Or.inr ⟨rfl, Nat.pos_iff_ne_zero.mp (of_decide_eq_true hr)⟩
      · exact Or.inl ⟨hl, by simp⟩
    · exact absurd h Bool.false_ne_true
    · exact absurd h Bool.false_ne_true
    · rename_i hnot
      refine Or.inl ⟨h, fun heq => hnot ?_⟩
      rw [(Prod.mk.inj (Option.some.inj heq)).2]
  · refine Or.inl ⟨h, fun heq => hrep ?_⟩
    simp [reporter, heq]

omit [LinearOrder PeerId] in
/-- What a late joiner may report next. -/
theorem report_of_isModelless {a : Option (ExecutorAction PeerId)} {status : ExecutorStatus}
    (ha : isModelless a = true) (hf : follows a status = true) :
    status = .train .joined ∨ status = .train .waitedForModel ∨ status = .train .appliedUpdate ∨
      (∃ message, status = .train (.error (.connection message))) ∨ ∃ st, status = .aggregate st := by
  match status with
  | .train .joined => exact Or.inl rfl
  | .train .waitedForModel => exact Or.inr (Or.inl rfl)
  | .train .appliedUpdate => exact Or.inr (Or.inr (Or.inl rfl))
  | .train (.error (.connection message)) => exact Or.inr (Or.inr (Or.inr (Or.inl ⟨message, rfl⟩)))
  | .aggregate st => exact Or.inr (Or.inr (Or.inr (Or.inr ⟨st, rfl⟩)))
  | .train .idle | .train (.batchCompleted _ _) | .train (.sentUpdate _ _) | .train .pushedToHub | .train .sentModel
  | .train .receivedModel | .train .terminated | .train (.error (.other _)) =>
    exfalso
    rcases a with _ | a | a
    · simp [follows] at hf
    · cases a <;> simp_all [follows, trainFollows, isModelless]
    · simp [follows] at hf

/-- What a late joiner does report, if no transfer fails. -/
theorem lateJoiner_report (hinv : JoinersWait w)
    (hwell : wellBehaved ((machine cfg).event w.state i) w.history = true)
    (hsucc : transferSucceeds ((machine cfg).event w.state i) w.history = true) {p : PeerId} {status : ExecutorStatus}
    (hi : i.report? = some (p, status)) (hp : lateJoiner p ((machine cfg).event w.state i :: w.history) = true) :
    status = .train .joined ∨ status = .train .waitedForModel ∨ ∃ st, status = .aggregate st := by
  rcases lateJoiner_cons hp with ⟨hl, hna⟩ | ⟨hj, -⟩
  · rcases report_of_isModelless (hinv.told p hl) (follows_of_wellBehaved hi hwell) with
      rfl | rfl | rfl | ⟨message, rfl⟩ | ⟨st, rfl⟩
    · exact Or.inl rfl
    · exact Or.inr (Or.inl rfl)
    · exact absurd hi hna
    · simp [transferSucceeds, hi, hl] at hsucc
    · exact Or.inr (Or.inr ⟨st, rfl⟩)
  · rw [hi] at hj
    exact Or.inl (Prod.mk.inj (Option.some.inj hj)).2

theorem joinersWait_next (hinv : JoinersWait w)
    (hwell : wellBehaved ((machine cfg).event w.state i) w.history = true)
    (hsucc : transferSucceeds ((machine cfg).event w.state i) w.history = true) :
    JoinersWait ((machine cfg).next w i) := by
  refine ⟨fun p hp => ?_, fun p hp => ?_⟩
  · refine round_ne_zero_step w.state ?_
    rcases lateJoiner_cons hp with ⟨hl, -⟩ | ⟨-, hr⟩
    · exact hinv.round p hl
    · exact hr
  · have hr : w.state.roundState.round ≠ 0 := by
      rcases lateJoiner_cons hp with ⟨hl, -⟩ | ⟨-, hr⟩
      · exact hinv.round p hl
      · exact hr
    rw [Machine.next_history, lastAnswer]
    split_ifs with hrep hexit
    · obtain ⟨status, hi⟩ := report_of_reporter hrep
      obtain ⟨now, clock, hout⟩ := (step_report cfg w.state hi).2
      rw [show ((machine cfg).event w.state i).output = _ from hout]
      rcases lateJoiner_report hinv hwell hsucc hi hp with rfl | rfl | ⟨st, rfl⟩
      · obtain ⟨t, ht⟩ := answer_joined cfg w.state clock now p hr
        rw [ht]
        rfl
      · rcases answer_waitedForModel cfg w.state clock now p with ⟨t, ht⟩ | ⟨r, t, ht⟩ <;> rw [ht] <;> rfl
      · rcases answer_aggregate cfg w.state clock now p st with ⟨a, ha⟩ | ha <;> rw [ha] <;> rfl
    · rfl
    · rcases lateJoiner_cons hp with ⟨hl, -⟩ | ⟨hj, -⟩
      · exact hinv.told p hl
      · exact absurd (by simp [reporter, hj]) hrep

theorem noWork_lateJoiner_next (hinv : JoinersWait w)
    (hwell : wellBehaved ((machine cfg).event w.state i) w.history = true)
    (hsucc : transferSucceeds ((machine cfg).event w.state i) w.history = true) :
    NoWork lateJoiner ((machine cfg).event w.state i) w.history := by
  rw [noWork_iff]
  intro p status hi hp
  rcases lateJoiner_report hinv hwell hsucc hi hp with rfl | rfl | ⟨st, rfl⟩ <;> rfl

end Joiners

/-- If the executors are well behaved and every late joiner gets its model, no late joiner works without one. -/
theorem noWork_lateJoiner_of_transferSucceeds (job : Job) (workers servers : List (WorkerDescriptor PeerId))
    (inputs : List (Input PeerId))
    (h : Along (fun e g => wellBehaved e g = true ∧ transferSucceeds e g = true)
      (run T job workers servers inputs).history) :
    Along (NoWork lateJoiner) (run T job workers servers inputs).history := by
  refine ((machine job.settings).along_of_invariant JoinersWait _ (NoWork lateJoiner) ⟨?_, ?_⟩
    (fun _ _ hinv hc => ⟨joinersWait_next hinv hc.1 hc.2, noWork_lateJoiner_next hinv hc.1 hc.2⟩) inputs h).2
  · exact fun _ hp => absurd hp Bool.false_ne_true
  · exact fun _ hp => absurd hp Bool.false_ne_true

/-- **Late joiners** are given no work along a run exactly when their reports come when there is none; it is enough
that the executors are well behaved and every late joiner gets its model. -/
theorem lateJoiners_iff (job : Job) (workers servers : List (WorkerDescriptor PeerId))
    (inputs : List (Input PeerId)) :
    (Along (NoWork lateJoiner) (run T job workers servers inputs).history ↔
      Along (NotDue lateJoiner) (run T job workers servers inputs).history) ∧
    (Along (fun e g => wellBehaved e g = true ∧ transferSucceeds e g = true)
        (run T job workers servers inputs).history →
      Along (NoWork lateJoiner) (run T job workers servers inputs).history) :=
  ⟨along_noWork_iff lateJoiner job workers servers inputs,
    noWork_lateJoiner_of_transferSucceeds job workers servers inputs⟩

/-- A late joiner gets its model from a worker that has just applied the aggregate. -/
theorem lateJoiners_one :
    Along (NoWork lateJoiner) (run RunningMean (smallJob 1 1 2) (joined [1]) (joined [9])
      (oneAggregate ++ [tell 1 .idle, tellPs 9 (.broadcastedUpdate none), .workersJoin [⟨2, {}, 5⟩], tell 2 .joined,
        tell 1 .appliedUpdate, tell 2 .waitedForModel, tell 1 .sentModel, tell 2 .appliedUpdate])).history :=
  (lateJoiners_iff (smallJob 1 1 2) _ _ _).2 (by decide +kernel)

/-- The transfer of the model fails, and the late joiner reports `Idle`. -/
theorem lateJoiners_fail : ¬ Along (NoWork lateJoiner) (run RunningMean (smallJob 1 1 2) (joined [1]) (joined [9])
    (oneAggregate ++ [tell 1 .idle, tellPs 9 (.broadcastedUpdate none), .workersJoin [⟨2, {}, 5⟩], tell 2 .joined,
      tell 1 .appliedUpdate, tell 2 .waitedForModel, tell 2 (.error (.connection "timeout")),
      tell 2 .idle])).history := by
  intro h
  exact absurd (h.1 2 (by decide +kernel) (by decide +kernel)) (by decide +kernel)

end Hypha.Scheduler
