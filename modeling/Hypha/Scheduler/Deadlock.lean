import Hypha.Scheduler.Concurrent

/-!
# The two mutexes

`Idle` asks for the training state while it keeps the round state; `BroadcastedUpdate` asks for the round state once more
while it keeps the training state it reset. Two such handlers wait for each other.

* `resumes_arm`, `resumes_complete` : a handler stays in its arm, and never undoes the completion of the training;
* `Sound` : what is known about the completion of the training where a handler is suspended;
* `no_circularWait_iff` : exactly when the two cannot meet: one of the reports never arrives, or the first broadcast
  completes the training, so that no `Idle` asks for the training state after it.
-/

namespace Hypha.Scheduler

open Hypha.Lib Hypha.Action

variable {PeerId T : Type} [LinearOrder PeerId] [RuntimeStatistic T]

/-! ## Arms -/

/-- The two arms of `schedule` that keep a mutex while they ask for the other one. -/
inductive Arm where
  | idle
  | broadcastedUpdate
  | other
  deriving DecidableEq

def armOf : ExecutorStatus → Arm
  | .train .idle => .idle
  | .aggregate (.broadcastedUpdate _) => .broadcastedUpdate
  | _ => .other

def Await.arm : Await PeerId → Arm
  | idleRound | idleTraining _ => .idle
  | broadcastedTraining _ | broadcastedRound .. | broadcastedSend _ | broadcastedRound' | broadcastedTraining'
  | broadcastedRound'' => .broadcastedUpdate
  | _ => .other

def Handler.arm : Handler PeerId → Arm
  | pending request => armOf request.2.status
  | suspended _ k => k.arm

omit [LinearOrder PeerId] in
theorem First.arm {status : ExecutorStatus} {k : Await PeerId} (h : First status k) :
    k.arm = armOf status ∨ k.arm = .other := by
  cases h <;> first | exact Or.inl rfl | exact Or.inr rfl

omit [LinearOrder PeerId] in
theorem Next.arm {k k' : Await PeerId} (h : Next k k') : k'.arm = k.arm ∨ k'.arm = .other := by
  cases h <;> first | exact Or.inl rfl | exact Or.inr rfl

theorem resumes_arm {cfg : Settings} {s s' : SchedulerState PeerId T} {k k' : Handler PeerId}
    (h : Resumes cfg s k (s', k')) : k'.arm = k.arm ∨ k'.arm = .other := by
  cases h with
  | start t now request => exact (enter_first _ _ _).arm
  | resume t ctx k _ => exact (resume_next cfg ctx s t k).arm

/-- An arm that no request takes is never taken. -/
theorem arm_ne_of_reachable {ι : Type} [DecidableEq ι] {cfg : Settings}
    {c c' : Config ι (SchedulerState PeerId T) (Handler PeerId)} {a : Arm} (ha : a ≠ .other)
    (hnone : ∀ i, (c.tasks i).arm ≠ a) (h : (handlers cfg).Reachable c c') : ∀ i, (c'.tasks i).arm ≠ a := by
  refine System.assertion_rule (fun _ k => k.arm ≠ a) hnone ?_ ?_ ?_ h
  · intro s k s' k' hk hres
    rcases resumes_arm hres with heq | heq
    · rwa [heq]
    · rw [heq]
      exact ha.symm
  · intro s k s' k' j hj _ _ _
    exact hj
  · intro s s' k hk _
    exact hk

/-! ## Completion -/

section Completion
variable (cfg : Settings) (ctx : Context PeerId) (s : SchedulerState PeerId T)

/-- The training never becomes incomplete, and the number of rounds is fixed. -/
theorem resume_complete (t : Instant) (k : Await PeerId) :
    (resume cfg ctx s t k).1.roundState.updateRounds = s.roundState.updateRounds ∧
      (s.roundState.trainingComplete = true → (resume cfg ctx s t k).1.roundState.trainingComplete = true) := by
  cases k with
  | joinedRound =>
    simp only [resume, joinedRound]
    split_ifs <;> exact ⟨rfl, id⟩
  | idleRound =>
    simp only [resume, idleRound, idleComplete]
    split_ifs <;> first | exact ⟨rfl, id⟩ | (split <;> exact ⟨rfl, id⟩)
  | sentRound' =>
    simp only [resume, sentRound']
    split_ifs <;> exact ⟨rfl, id⟩
  | appliedRound =>
    simp only [resume, appliedRound]
    split_ifs
    · exact ⟨rfl, id⟩
    · split <;> exact ⟨rfl, id⟩
  | aggregateIdleRound =>
    simp only [resume, aggregateIdleRound]
    split_ifs <;> exact ⟨rfl, id⟩
  | aggregateIdleRound' workers =>
    simp only [resume, aggregateIdleRound']
    split_ifs <;> exact ⟨rfl, id⟩
  | sentSend message =>
    rw [(resume_protected cfg ctx s t (.sentSend message)).1 (by simp [Await.waits])]
    exact ⟨rfl, id⟩
  | broadcastedSend message =>
    rw [(resume_protected cfg ctx s t (.broadcastedSend message)).1 (by simp [Await.waits])]
    exact ⟨rfl, id⟩
  | broadcastedRound' => exact ⟨rfl, fun h => by simp [resume, broadcastedRound', h]⟩
  | _ => exact ⟨rfl, id⟩

end Completion

theorem resumes_complete {cfg : Settings} {s s' : SchedulerState PeerId T} {k k' : Handler PeerId}
    (h : Resumes cfg s k (s', k')) :
    s'.roundState.updateRounds = s.roundState.updateRounds ∧
      (s.roundState.trainingComplete = true → s'.roundState.trainingComplete = true) := by
  cases h with
  | start t now request =>
    rw [(start_protected cfg s t now request).1]
    exact ⟨rfl, id⟩
  | resume t ctx k _ => exact resume_complete cfg ctx s t k

/-- What is known about the completion where a handler is suspended, if one broadcast completes the training: an `Idle`
that asks for the training state has seen it incomplete, a broadcast that has advanced the round has completed it. -/
def Sound (s : SchedulerState PeerId T) : Handler PeerId → Prop
  | .suspended _ (.idleTraining _) => s.roundState.trainingComplete = false
  | .suspended _ .broadcastedTraining' => s.roundState.trainingComplete = true
  | .suspended _ .broadcastedRound'' => s.roundState.trainingComplete = true
  | _ => True

section Sound
variable {cfg : Settings} {ctx : Context PeerId} {s : SchedulerState PeerId T}

omit [LinearOrder PeerId] [RuntimeStatistic T] in
theorem sound_of_first {status : ExecutorStatus} {k : Await PeerId} (h : First status k) :
    Sound s (.suspended ctx k) := by
  cases h <;> trivial

/-- A handler's own steps. -/
theorem sound_resume (hrounds : s.roundState.updateRounds ≤ 1) (t : Instant) {k : Await PeerId}
    (h : Sound s (.suspended ctx k)) :
    Sound (resume cfg ctx s t k).1 (.suspended ctx (resume cfg ctx s t k).2) := by
  have hnext := resume_next cfg ctx s t k
  generalize hk : (resume cfg ctx s t k).2 = k' at hnext
  cases hnext with
  | idle snapshot =>
    simp only [resume, idleRound] at hk ⊢
    split_ifs at hk ⊢ with hc
    · simpa [Sound] using hc
    · obtain ⟨result, hdone⟩ := Await.eq_done_of_isDone (idleComplete_isDone cfg ctx s)
      rw [hdone] at hk
      cases hk
  | broadcastedRound' =>
    -- the round is at least one now, which is all the rounds there are
    have hone : s.roundState.updateRounds ≤ saturatingAdd s.roundState.round 1 := by
      have hu : 1 ≤ u32Max := by decide
      unfold saturatingAdd
      omega
    simp [Sound, resume, broadcastedRound', hone]
  | broadcastedTraining' => exact h
  | _ => trivial

/-- The steps of others: whoever asked for the training state keeps the round state meanwhile. -/
theorem sound_other {s' : SchedulerState PeerId T} {k k' j : Handler PeerId} (hj : Sound s j)
    (hfree : ∀ l, k.waits = some l → j.holds l = false) (h : Resumes cfg s k (s', k')) : Sound s' j := by
  have hmono := (resumes_complete h).2
  have hkept : j.holds .roundState = true → s'.roundState = s.roundState := by
    intro hholds
    refine (resumes_protected h).1 fun hwaits => ?_
    rw [hfree .roundState hwaits] at hholds
    exact Bool.noConfusion hholds
  unfold Sound at hj ⊢
  split at hj
  · rw [hkept rfl]
    exact hj
  · exact hmono hj
  · exact hmono hj
  · trivial

end Sound

section Reachable
variable {ι : Type} [DecidableEq ι] {cfg : Settings} {c c' : Config ι (SchedulerState PeerId T) (Handler PeerId)}

theorem sound_of_reachable (hrounds : c.shared.roundState.updateRounds ≤ 1) (hinit : ∀ i, Sound c.shared (c.tasks i))
    (h : (handlers cfg).Reachable c c') : ∀ i, Sound c'.shared (c'.tasks i) := by
  suffices hall : ∀ i, c'.shared.roundState.updateRounds ≤ 1 ∧ Sound c'.shared (c'.tasks i) from fun i => (hall i).2
  refine System.assertion_rule (fun s k => s.roundState.updateRounds ≤ 1 ∧ Sound s k)
    (fun i => ⟨hrounds, hinit i⟩) ?_ ?_ ?_ h
  · rintro s k s' k' ⟨hle, hk⟩ hres
    refine ⟨(resumes_complete hres).1.trans_le hle, ?_⟩
    cases hres with
    | start t now request => exact sound_of_first (enter_first _ _ _)
    | resume t ctx k _ => exact sound_resume hle t hk
  · rintro s k s' k' j ⟨hle, hj⟩ - hfree hres
    exact ⟨(resumes_complete hres).1.trans_le hle, sound_other hj hfree hres⟩
  · rintro s s' k ⟨hle, hk⟩ ⟨i, hi, rfl⟩
    have henv := (step_environment cfg s hi).1
    refine ⟨(congrArg RoundState.updateRounds henv.roundState).trans_le hle, ?_⟩
    unfold Sound at hk ⊢
    rw [henv.roundState]
    exact hk

omit [DecidableEq ι] in
/-- The handlers of a circular wait. -/
theorem points_of_circularWait (h : (handlers cfg).CircularWait .roundState .trainingState c) :
    (∃ i ctx snapshot, c.tasks i = .suspended ctx (.idleTraining snapshot)) ∧
      ∃ j ctx, c.tasks j = .suspended ctx .broadcastedRound'' := by
  obtain ⟨i, j, hi, -, hj, -⟩ := h
  constructor
  · refine ⟨i, ?_⟩
    cases hk : c.tasks i with
    | pending request => rw [hk] at hi; exact Bool.noConfusion hi
    | suspended ctx k =>
      rw [hk] at hi
      cases k <;> first | exact ⟨_, _, rfl⟩ | exact Bool.noConfusion hi
  · refine ⟨j, ?_⟩
    cases hk : c.tasks j with
    | pending request => rw [hk] at hj; exact Bool.noConfusion hj
    | suspended ctx k =>
      rw [hk] at hj
      cases k <;> first | exact ⟨_, rfl⟩ | exact Bool.noConfusion hj

end Reachable

/-! ## When the mutexes deadlock -/

section Meet
variable {ι : Type} [DecidableEq ι] (job : Job) (workers servers : List (WorkerDescriptor PeerId))
  {requests : ι → PeerId × ActionRequest} {i j : ι} {metrics : Option MetricMap}

/-- A broadcast that has reset the training state and asks for the round state once more, in the middle of the
training. -/
theorem reachable_broadcasted (hj : (requests j).2.status = .aggregate (.broadcastedUpdate metrics))
    (hrounds : 1 < job.updateRounds) :
    ∃ (s : SchedulerState PeerId T) (ctx : Context PeerId), s.roundState.trainingComplete = false ∧
      (handlers job.settings).Reachable (arriving job workers servers requests)
        ⟨s, Function.update (fun i => .pending (requests i)) j (.suspended ctx .broadcastedRound'')⟩ := by
  have hinit : (handlers job.settings).Reachable (arriving (T := T) job workers servers requests)
      (arriving job workers servers requests) := Relation.ReflTransGen.refl
  have hstart := reachable_start (i := j) hinit rfl 0 0
  rw [start, hj] at hstart
  have hdrive := reachable_drive (fun k _ l => rfl) _ (fun _ => 0) 5 _ hstart
  refine ⟨_, _, ?_, hdrive⟩
  -- the round it has advanced to is the first one
  have hone : (decide (job.updateRounds ≤ 1)) = false := decide_eq_false (Nat.not_le.mpr hrounds)
  exact hone

/-- An `Idle` that comes then keeps the round state and asks for the training state. -/
theorem circularWait_of_requests (hi : (requests i).2.status = .train .idle)
    (hj : (requests j).2.status = .aggregate (.broadcastedUpdate metrics)) (hrounds : 1 < job.updateRounds) :
    ∃ c : Config ι (SchedulerState PeerId T) (Handler PeerId),
      (handlers job.settings).Reachable (arriving job workers servers requests) c ∧
      (handlers job.settings).CircularWait .roundState .trainingState c := by
  have hij : i ≠ j := by
    rintro rfl
    rw [hi] at hj
    cases hj
  obtain ⟨s, ctx, hc, hreach⟩ := reachable_broadcasted (T := T) job workers servers hj hrounds
  have hstart := reachable_start (i := i) hreach (Function.update_of_ne hij _ _) 0 0
  rw [start, hi] at hstart
  have hidle := hstart.run_again (fun l hl => ?_) (Resumes.resume 0 _ _ rfl)
  · refine ⟨_, hidle, i, j, ?_, ?_, ?_, ?_⟩ <;>
      simp only [Function.update_self, Function.update_of_ne hij.symm, resume, idleRound, enter, hc] <;> rfl
  · cases hl
    refine ⟨rfl, fun k hk => ?_⟩
    by_cases hkj : k = j
    · subst hkj
      rw [Function.update_self]
      rfl
    · rw [Function.update_of_ne hkj]
      rfl

/-- **The two mutexes never deadlock** exactly when one of the two reports never arrives, or there is at most one
round. -/
theorem no_circularWait_iff (requests : ι → PeerId × ActionRequest) :
    (∀ c : Config ι (SchedulerState PeerId T) (Handler PeerId),
      (handlers job.settings).Reachable (arriving job workers servers requests) c →
      ¬ (handlers job.settings).CircularWait .roundState .trainingState c) ↔
    job.updateRounds ≤ 1 ∨ (∀ i, (requests i).2.status ≠ .train .idle) ∨
      ∀ i metrics, (requests i).2.status ≠ .aggregate (.broadcastedUpdate metrics) := by
  constructor
  · intro h
    by_contra hcon
    push Not at hcon
    obtain ⟨hrounds, ⟨i, hi⟩, j, metrics, hj⟩ := hcon
    obtain ⟨c, hreach, hwait⟩ := circularWait_of_requests (T := T) job workers servers hi hj hrounds
    exact h c hreach hwait
  · intro h c hreach hwait
    obtain ⟨⟨i, ctx, snapshot, hi⟩, j, ctx', hj⟩ := points_of_circularWait hwait
    rcases h with hrounds | hidle | hbroadcasted
    · have hsound := sound_of_reachable (c := arriving job workers servers requests) hrounds (fun _ => trivial) hreach
      have hincomplete := hsound i
      have hcomplete := hsound j
      rw [hi] at hincomplete
      rw [hj] at hcomplete
      exact Bool.noConfusion (hincomplete.symm.trans hcomplete)
    · refine arm_ne_of_reachable (a := .idle) (by decide) (fun i harm => ?_) hreach i (by rw [hi]; rfl)
      refine hidle i ?_
      unfold arriving Handler.arm armOf at harm
      dsimp only at harm
      split at harm
      · assumption
      · cases harm
      · cases harm
    · refine arm_ne_of_reachable (a := .broadcastedUpdate) (by decide) (fun i harm => ?_) hreach j (by rw [hj]; rfl)
      unfold arriving Handler.arm armOf at harm
      dsimp only at harm
      split at harm
      · cases harm
      · rename_i metrics hstatus
        exact hbroadcasted i metrics hstatus
      · cases harm

end Meet

/-- Two reports are enough in a job of two rounds: the `Idle` of a worker and the `BroadcastedUpdate` of the parameter
server. -/
theorem circularWait_two_requests :
    ∃ c : Config Bool (SchedulerState Nat RunningMean) (Handler Nat),
      (handlers (smallJob 1 1 2).settings).Reachable
        (arriving (smallJob 1 1 2) (joined [1]) (joined [9]) fun fromWorker =>
          if fromWorker then (1, ⟨0, .train .idle⟩) else (9, ⟨0, .aggregate (.broadcastedUpdate none)⟩)) c ∧
      (handlers (smallJob 1 1 2).settings).CircularWait .roundState .trainingState c :=
  circularWait_of_requests (smallJob 1 1 2) _ _ (i := true) (j := false) rfl rfl (by decide)

end Hypha.Scheduler
