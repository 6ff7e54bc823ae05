import Hypha.Scheduler.Run

/-!
# Reports delivered twice

Both executors repeat a request whose response is lost, so the scheduler may handle one report twice. Most reports set
flags and are harmless; a completed batch is added to two counters, and a broadcast aggregate advances the round.

* `SameLedger` : the round, its counters and its records agree;
* `Disturbs` : the reports that count twice, up to the clamp of the counters;
* `sameLedger_twice_iff` : handling a report twice is handling it once exactly for the others.
-/

namespace Hypha.Scheduler

open Hypha.Lib Hypha.Action

variable {PeerId T : Type} [LinearOrder PeerId] [RuntimeStatistic T]

/-- Two states agree on the round, on the samples counted, in all and for each worker, and on the recorded updates. -/
structure SameLedger (s s' : SchedulerState PeerId T) : Prop where
  round : s'.roundState.round = s.roundState.round
  trainingComplete : s'.roundState.trainingComplete = s.roundState.trainingComplete
  counter : s'.trainingState.counter = s.trainingState.counter
  samplesProcessed : ∀ p ∈ s.workerPool.ids,
    (s'.workerPool.stateOf p).samplesProcessed = (s.workerPool.stateOf p).samplesProcessed
  workerUpdates : ∀ p, s'.parameterPool.updatesOf p = s.parameterPool.updatesOf p

/-- Whether a counter that stands at `c` is changed by counting the report a second time. -/
def CountsTwice (status : ExecutorStatus) (c : Nat) : Prop :=
  ∃ batchSize batches, status = .train (.batchCompleted batchSize batches) ∧ wrappingMul batchSize batches ≠ 0 ∧
    c + wrappingMul batchSize batches < u32Max

/-- The reports that must not be delivered twice. -/
def Disturbs (s : SchedulerState PeerId T) (p : PeerId) (status : ExecutorStatus) : Prop :=
  advances s status = true ∧ s.roundState.round + 1 < u32Max ∨
    CountsTwice status s.trainingState.counter ∨
    p ∈ s.workerPool.ids ∧ CountsTwice status (s.workerPool.stateOf p).samplesProcessed

theorem counted_twice_iff (status : ExecutorStatus) (c : Nat) :
    counted status (counted status c) = counted status c ↔ ¬ CountsTwice status c := by
  unfold CountsTwice
  match status with
  | .train (.batchCompleted batchSize batches) =>
    simp only [counted, saturatingAdd_twice_iff]
    constructor
    · rintro h ⟨b, n, hbn, hk, hlt⟩
      obtain ⟨rfl, rfl⟩ : b = batchSize ∧ n = batches := by simpa [eq_comm] using hbn
      omega
    · intro h
      by_contra hcon
      exact h ⟨batchSize, batches, rfl, by omega, by omega⟩
  | .train .joined | .train .waitedForModel | .train .idle | .train (.sentUpdate _ _) | .train .appliedUpdate
  | .train .pushedToHub | .train .receivedModel | .train .sentModel | .train .terminated | .train (.error _)
  | .aggregate _ => simp [counted]

section Twice
variable {s s₁ s₂ : SchedulerState PeerId T} {p : PeerId} {status : ExecutorStatus}

/-- What is recorded once is recorded. -/
theorem updatesOf_twice (h₁ : Effect s s₁ p status) (h₂ : Effect s₁ s₂ p status) (q : PeerId) :
    s₂.parameterPool.updatesOf q = s₁.parameterPool.updatesOf q := by
  rw [h₂.updatesOf, h₁.serverIds, h₁.updatesOf]
  by_cases hq : q ∈ s.parameterPool.ids
  · simp only [if_pos hq, updatesAfter, h₁.serverIds, advances_congr h₁.receiving, records_congr h₁.receiving,
      h₁.updatesOf]
    split_ifs <;> simp
  · simp only [if_neg hq]

theorem samples_twice_iff (h₁ : Effect s s₁ p status) (h₂ : Effect s₁ s₂ p status) :
    (∀ q ∈ s₁.workerPool.ids,
      (s₂.workerPool.stateOf q).samplesProcessed = (s₁.workerPool.stateOf q).samplesProcessed) ↔
      advances s status = true ∨
        ¬ (p ∈ s.workerPool.ids ∧ CountsTwice status (s.workerPool.stateOf p).samplesProcessed) := by
  have hmem : ∀ q ∈ s.workerPool.ids,
      ((s₂.workerPool.stateOf q).samplesProcessed = (s₁.workerPool.stateOf q).samplesProcessed ↔
        advances s status = true ∨ q ≠ p ∨ ¬ CountsTwice status (s.workerPool.stateOf q).samplesProcessed) := by
    intro q hq
    have hst₁ := congrArg Standing.samplesProcessed (h₁.workerPool.of_mem hq)
    have hst₂ := congrArg Standing.samplesProcessed (h₂.workerPool.of_mem (by rw [h₁.workerPool.ids]; exact hq))
    simp only [standingAfter, advances_congr h₁.receiving] at hst₁ hst₂
    rw [show (s₂.workerPool.stateOf q).samplesProcessed = _ from hst₂,
      show (s₁.workerPool.stateOf q).samplesProcessed = _ from hst₁, hst₁, ← counted_twice_iff]
    by_cases hadv : advances s status = true
    · simp [hadv]
    · by_cases hqp : q = p
      · simp [hadv, hqp, standing, standingOf]
      · simp [hadv, hqp]
  rw [h₁.workerPool.ids]
  constructor
  · intro h
    by_cases hadv : advances s status = true
    · exact Or.inl hadv
    · rw [not_and]
      refine Or.inr fun hp => ?_
      simpa [hadv] using (hmem p hp).mp (h p hp)
  · intro h q hq
    rw [hmem q hq]
    by_cases hqp : q = p
    · subst hqp
      exact h.imp_right fun hn => Or.inr fun hc => hn ⟨hq, hc⟩
    · exact Or.inr (Or.inl hqp)

end Twice

omit [LinearOrder PeerId] [RuntimeStatistic T] in
/-- Counting a report twice needs one that completes a batch, and such a report does not advance the round. -/
theorem CountsTwice.not_advances {status : ExecutorStatus} {c : Nat} (h : CountsTwice status c)
    (s : SchedulerState PeerId T) : advances s status = false := by
  obtain ⟨batchSize, batches, rfl, -⟩ := h
  rfl

/-- **Handling a report twice is handling it once exactly when the report does not disturb.** -/
theorem sameLedger_twice_iff (cfg : Settings) (s : SchedulerState PeerId T) (p : PeerId) (status : ExecutorStatus)
    (now now' : SystemTime) (clock clock' : Nat → Instant) :
    SameLedger (step cfg s (.report p status now clock)).1
        (step cfg (step cfg s (.report p status now clock)).1 (.report p status now' clock')).1 ↔
      ¬ Disturbs s p status := by
  have h₁ := (step_report cfg s (i := .report p status now clock) rfl).1
  generalize (step cfg s (.report p status now clock)).1 = s₁ at h₁ ⊢
  have h₂ := (step_report cfg s₁ (i := .report p status now' clock') rfl).1
  generalize (step cfg s₁ (.report p status now' clock')).1 = s₂ at h₂ ⊢
  have hadv := advances_congr h₁.receiving status
  have hround : s₂.roundState.round = s₁.roundState.round ↔
      ¬ (advances s status = true ∧ s.roundState.round + 1 < u32Max) := by
    rw [h₂.round, h₁.round, hadv]
    split_ifs with h
    · rw [saturatingAdd_twice_iff, and_iff_right h]
      omega
    · simp [h]
  have hcounter : s₂.trainingState.counter = s₁.trainingState.counter ↔
      advances s status = true ∨ ¬ CountsTwice status s.trainingState.counter := by
    rw [h₂.counter, h₁.counter, hadv, ← counted_twice_iff]
    by_cases h : advances s status = true <;> simp [h]
  have hsamples := samples_twice_iff h₁ h₂
  constructor
  · rintro h (⟨ha, hr⟩ | hc | ⟨hp, hc⟩)
    · exact hround.mp h.round ⟨ha, hr⟩
    · exact (hcounter.mp h.counter).elim (fun ha => by simp [hc.not_advances s] at ha) (fun hn => hn hc)
    · exact (hsamples.mp h.samplesProcessed).elim (fun ha => by simp [hc.not_advances s] at ha) (fun hn => hn ⟨hp, hc⟩)
  · intro h
    rw [Disturbs, not_or, not_or] at h
    obtain ⟨hr, hc, hp⟩ := h
    refine ⟨hround.mpr hr, ?_, hcounter.mpr (Or.inr hc), hsamples.mpr (Or.inr hp), updatesOf_twice h₁ h₂⟩
    have heq := hround.mpr hr
    rw [h₂.round, hadv] at heq
    rw [h₂.trainingComplete, hadv, h₁.trainingComplete, h₁.updateRounds]
    cases ha : advances s status with
    | false => simp
    | true =>
      rw [ha, if_pos rfl, h₁.round, ha, if_pos rfl] at heq
      rw [h₁.round, ha, if_pos rfl, heq]
      simp

/-- A batch whose report is repeated counts twice. -/
theorem redelivery_fails : ¬ SameLedger
    (run RunningMean (smallJob 1 2 1) (joined [1]) (joined [9])
      [tell 1 .joined, tell 1 .idle, tell 1 (.batchCompleted 1 1)]).state
    (run RunningMean (smallJob 1 2 1) (joined [1]) (joined [9])
      [tell 1 .joined, tell 1 .idle, tell 1 (.batchCompleted 1 1), tell 1 (.batchCompleted 1 1)]).state := by
  intro h
  exact absurd h.counter (by decide +kernel)

end Hypha.Scheduler
