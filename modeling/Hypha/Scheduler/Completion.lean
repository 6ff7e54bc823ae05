import Hypha.Scheduler.Run

/-!
# The last aggregate

Once the target rounds are over, a worker that has applied the aggregate should also count as having applied the last
one: such a worker is never told to apply again, can become the pusher, and lets the parameter server terminate. The
flag `applied_final_update` is written by `AppliedUpdate` only if training is already complete, so the worker must not
be faster than the parameter server's `BroadcastedUpdate`.

* `FinalApplied` : the law;
* `completing` : the step that completes training;
* `finalApplied_iff` : the law holds along a run exactly when no member has applied an aggregate at a completing step.
-/

namespace Hypha.Scheduler

open Hypha.Lib Hypha.Action

variable {PeerId T : Type} [LinearOrder PeerId] [RuntimeStatistic T]

/-- After completion, whoever has applied the aggregate has applied the final one. -/
def FinalApplied (s : SchedulerState PeerId T) : Prop :=
  s.roundState.trainingComplete = true → ∀ p ∈ s.workerPool.ids,
    (s.workerPool.stateOf p).appliedUpdate = true → (s.workerPool.stateOf p).appliedFinalUpdate = true

instance (s : SchedulerState PeerId T) : Decidable (FinalApplied s) :=
  inferInstanceAs (Decidable (s.roundState.trainingComplete = true → ∀ p ∈ s.workerPool.ids,
    (s.workerPool.stateOf p).appliedUpdate = true → (s.workerPool.stateOf p).appliedFinalUpdate = true))

/-- Whether a step completes training: the advance to the target round. -/
def completing (e : Step PeerId T) : Bool :=
  advancing e && !e.pre.roundState.trainingComplete &&
    decide (e.pre.roundState.updateRounds ≤ saturatingAdd e.pre.roundState.round 1)

/-- The law, of every peer the pool remembers. -/
def FinalAppliedAll (s : SchedulerState PeerId T) : Prop :=
  s.roundState.trainingComplete = true → ∀ q,
    (standing s.workerPool q).appliedUpdate = true → (standing s.workerPool q).appliedFinalUpdate = true

/-- Nobody has applied the final aggregate before completion. -/
def NoneFinal (s : SchedulerState PeerId T) : Prop :=
  s.roundState.trainingComplete = false → ∀ q, (standing s.workerPool q).appliedFinalUpdate = false

/-! ## Steps -/

section Steps
variable (cfg : Settings) (s : SchedulerState PeerId T) (i : Input PeerId)

theorem noneFinal_step (h : NoneFinal s) : NoneFinal (step cfg s i).1 := by
  intro hc q
  cases hi : i.report? with
  | none =>
    have henv := (step_environment cfg s hi).1
    rw [henv.standing]
    exact h (by rw [← hc, henv.roundState]) q
  | some report =>
    obtain ⟨p, status⟩ := report
    have heff := (step_report cfg s hi).1
    rw [heff.trainingComplete, Bool.or_eq_false_iff] at hc
    have hst := h hc.1
    rcases heff.workerPool.standing q with hq | ⟨-, hq | hq⟩ <;> rw [hq]
    · simp [standingAfter, hst, hc.1]
    · simp [standingAfter, hc.1]

/-- A step keeps the law if no member has applied an aggregate when it completes training. -/
theorem finalAppliedAll_step (h : FinalAppliedAll s)
    (hcond : completing ((machine cfg).event s i) = true →
      ∀ p ∈ s.workerPool.ids, (s.workerPool.stateOf p).appliedUpdate = false) :
    FinalAppliedAll (step cfg s i).1 := by
  intro hc q
  cases hi : i.report? with
  | none =>
    have henv := (step_environment cfg s hi).1
    rw [henv.standing]
    exact h (by rw [← hc, henv.roundState]) q
  | some report =>
    obtain ⟨p, status⟩ := report
    have heff := (step_report cfg s hi).1
    cases hpre : s.roundState.trainingComplete with
    | true =>
      have hst := h hpre
      rcases heff.workerPool.standing q with hq | ⟨-, hq | hq⟩ <;> rw [hq]
      · have hsq := hst q
        simp only [standingAfter, hpre, Bool.and_true, Bool.and_eq_true, Bool.or_eq_true]
        rintro ⟨-, ha | ha⟩
        · exact Or.inl (hsq ha)
        · exact Or.inr ha
      · simp [standingAfter, hpre]
      · exact fun ha => absurd ha (by decide)
    | false =>
      rw [heff.trainingComplete, hpre, Bool.false_or, Bool.and_eq_true] at hc
      have hcomp : completing ((machine cfg).event s i) = true := by
        simp only [completing, advancing_report cfg s hi, Machine.event_pre, hpre, hc.1, Bool.not_false,
          Bool.true_and]
        exact hc.2
      have hnot := hcond hcomp
      have hann : announces s p status = false ∧ applies status = false := by
        unfold advances at hc
        split at hc
        · exact ⟨rfl, rfl⟩
        · exact absurd hc.1 (by decide)
      intro ha
      exfalso
      by_cases hmem : q ∈ s.workerPool.ids
      · rw [heff.workerPool.of_mem hmem] at ha
        simp only [standingAfter, hann, Bool.not_false, Bool.true_and, Bool.and_false, Bool.or_false] at ha
        exact absurd ha (by simp [standing, standingOf, hnot q hmem])
      · rw [heff.dropped (by rw [hc.1]; rfl) q hmem] at ha
        exact absurd ha (by decide)

/-- A member that applied an aggregate before a completing step has not applied the final one after it. -/
theorem not_finalApplied_of_completing (h : NoneFinal s) (hcomp : completing ((machine cfg).event s i) = true)
    {p : PeerId} (hp : p ∈ s.workerPool.ids) (ha : (s.workerPool.stateOf p).appliedUpdate = true) :
    ¬ FinalApplied (step cfg s i).1 := by
  simp only [completing, Bool.and_eq_true, Bool.not_eq_true', Machine.event_pre] at hcomp
  obtain ⟨⟨hadv, hpre⟩, hrounds⟩ := hcomp
  obtain ⟨q, metrics, hi, hrec⟩ := report_of_advancing cfg s hadv
  have heff := (step_report cfg s hi).1
  have hst := heff.workerPool.of_mem hp
  have hfinal := h hpre p
  have happlied : (standing s.workerPool p).appliedUpdate = true := ha
  intro hlaw
  have hc : (step cfg s i).1.roundState.trainingComplete = true := by
    rw [heff.trainingComplete, hpre, Bool.false_or, Bool.and_eq_true]
    exact ⟨hrec, hrounds⟩
  have hlaw' : (standing (step cfg s i).1.workerPool p).appliedUpdate = true →
      (standing (step cfg s i).1.workerPool p).appliedFinalUpdate = true :=
    hlaw hc p (by rw [heff.workerPool.ids]; exact hp)
  rw [hst] at hlaw'
  simp [standingAfter, announces, applies, happlied, hfinal] at hlaw'

end Steps

/-! ## Runs -/

/-- **The law holds along a run exactly when no member has applied an aggregate at a completing step.** -/
theorem finalApplied_iff (job : Job) (workers servers : List (WorkerDescriptor PeerId))
    (inputs : List (Input PeerId)) :
    Along (fun e _ => FinalApplied e.post) (run T job workers servers inputs).history ↔
      Along (fun e _ => completing e = true →
        ∀ p ∈ e.pre.workerPool.ids, (e.pre.workerPool.stateOf p).appliedUpdate = false)
        (run T job workers servers inputs).history := by
  constructor
  · -- a member that applied before a completing step has not applied the final aggregate after it
    intro h
    refine ((machine job.settings).along_of_invariant (fun w => NoneFinal w.state) (fun e _ => FinalApplied e.post) _
      (fun _ _ => rfl) (fun w i hI hgood => ⟨noneFinal_step _ _ _ hI, ?_⟩) inputs h).2
    intro hcomp p hp
    rw [← Bool.not_eq_true]
    exact fun ha => not_finalApplied_of_completing _ _ _ hI hcomp hp ha hgood
  · intro h
    refine ((machine job.settings).along_of_invariant (fun w => FinalAppliedAll w.state) _
      (fun e _ => FinalApplied e.post) (fun hc => absurd hc Bool.false_ne_true) (fun w i hI hcond => ?_) inputs h).2
    have hstep := finalAppliedAll_step _ _ _ hI hcond
    exact ⟨hstep, fun hc p _ => hstep hc p⟩

/-- A worker that is faster than the parameter server's report. -/
theorem finalApplied_fails : ¬ FinalApplied (run RunningMean (smallJob 1 1 1) (joined [1]) (joined [9])
    (oneAggregate ++ [tell 1 .idle, tell 1 .appliedUpdate, tellPs 9 (.broadcastedUpdate none)])).state := by
  decide +kernel

end Hypha.Scheduler
