import Hypha.Scheduler.Samples

/-!
# Exact accounting

`record_batch` and `samples_processed` add up with `saturating_add`, but what they add is `batch_size * batches`, a plain
`u32` product: a build with overflow checks panics where it does not fit, any other drops its high bits.

* `ExactAccounting` : the counters of the round are the exact sums, clamped, and no product was cut;
* `counter_le_roundTotal` : what a product loses is never made up for;
* `exactAccounting_iff` : exactly in the rounds in which every product fits.
-/

namespace Hypha.Scheduler

open Hypha.Lib Hypha.Action

variable {PeerId T : Type} [LinearOrder PeerId] [RuntimeStatistic T]

/-- The counters of the current round are the exact sums of the samples reported in it, clamped, and no product was cut.
A worker's counter is about the rounds in which it stayed in the pool. -/
structure ExactAccounting (w : Trace PeerId T) : Prop where
  counter : w.state.trainingState.counter = min (roundTotal w.history) u32Max
  samples : ∀ p, (currentRound w.history).all (stays p) = true →
    (standing w.state.workerPool p).samplesProcessed = min (roundSamples p w.history) u32Max
  uncut : ∀ e ∈ currentRound w.history, recordedIn e = samplesIn e

theorem recordedOf_le (status : ExecutorStatus) : recordedOf status ≤ samplesOf status := by
  unfold recordedOf
  split
  · exact Nat.mod_le _ _
  · exact Nat.zero_le _

theorem recordedOf_eq_iff (status : ExecutorStatus) :
    recordedOf status = samplesOf status ↔ samplesOf status ≤ u32Max := by
  refine ⟨fun h => ?_, recordedOf_of_le⟩
  have hlt : recordedOf status < 2 ^ 32 := by
    unfold recordedOf
    split
    · exact Nat.mod_lt _ (Nat.two_pow_pos 32)
    · exact Nat.two_pow_pos 32
  exact Nat.le_pred_of_lt (h ▸ hlt)

omit [LinearOrder PeerId] [RuntimeStatistic T] in
theorem recordedIn_le (e : Step PeerId T) : recordedIn e ≤ samplesIn e := by
  unfold recordedIn samplesIn
  cases statusOf e with
  | none => exact Nat.le_refl _
  | some status => exact recordedOf_le status

omit [LinearOrder PeerId] [RuntimeStatistic T] in
/-- A product is recorded as it is exactly when it fits. -/
theorem recordedIn_eq_iff (e : Step PeerId T) : recordedIn e = samplesIn e ↔ samplesIn e ≤ u32Max := by
  unfold recordedIn samplesIn
  cases statusOf e with
  | none => exact iff_of_true rfl (Nat.zero_le _)
  | some status => exact recordedOf_eq_iff status

section Run
variable {w : Trace PeerId T}

/-- What a product loses is never made up for. -/
theorem Books.counter_le (hB : Books w) : w.state.trainingState.counter ≤ roundTotal w.history := by
  rw [hB.counter]
  exact (min_le_left _ _).trans (List.sum_le_sum fun e _ => recordedIn_le e)

/-- With no product cut the books are exact. -/
theorem Books.exact (hB : Books w) (hfit : ∀ e ∈ currentRound w.history, samplesIn e ≤ u32Max) :
    ExactAccounting w where
  counter := by
    rw [hB.counter, total_recordedIn hfit]
    rfl
  samples p hstay := by
    rw [hB.samples p hstay, share_recordedIn fun e he _ => hfit e he]
    rfl
  uncut e he := recordedIn_of_le (hfit e he)

end Run

section Main
variable (job : Job) (workers servers : List (WorkerDescriptor PeerId)) (inputs : List (Input PeerId))

theorem books_run : Books (run T job workers servers inputs) :=
  (machine job.settings).run_invariant Books (books_initial job workers servers) (fun _ _ => books_next) inputs

theorem counter_le_roundTotal :
    (run T job workers servers inputs).state.trainingState.counter ≤
      roundTotal (run T job workers servers inputs).history :=
  (books_run job workers servers inputs).counter_le

/-- **Accounting is exact** in exactly the rounds in which every product of a report fits a `u32`. -/
theorem exactAccounting_iff :
    ExactAccounting (run T job workers servers inputs) ↔
      ∀ e ∈ currentRound (run T job workers servers inputs).history, samplesIn e ≤ u32Max :=
  ⟨fun h e he => (recordedIn_eq_iff e).mp (h.uncut e he), (books_run job workers servers inputs).exact⟩

end Main

/-- 65536 batches of 65536 samples count as none. -/
theorem exactAccounting_fails :
    ¬ ExactAccounting (run RunningMean (smallJob 1 1 1) (joined [1]) (joined [9])
      [tell 1 .joined, tell 1 (.batchCompleted 65536 65536)]) := by
  intro h
  have hcounter := h.counter
  revert hcounter
  decide +kernel

end Hypha.Scheduler
