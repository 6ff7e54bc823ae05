import Hypha.Lib.Shares
import Hypha.Scheduler.Work

/-!
# Counting samples

What the counters of a round stand for, in terms of the reports that were handled: as long as it does not overflow, the
counter is the number of samples reported since the round advanced, and a worker's `samples_processed` is its share.

* `roundTotal`, `roundSamples` : the samples reported in the current round, in all and by one worker;
* `Books` : the counters are the sums of what was recorded, clamped; `books_next` : after every run;
* `Ledger` : what they stand for then, as long as nothing overflows;
* `Attribution` : the samples an update is weighted with are those behind its pseudo-gradient, which the worker has
  reported since it applied an aggregate;
* `attribution_iff` : exactly when that is so: the worker must not have reported samples between its `AppliedUpdate`
  and the advance of the round, in whichever order these come.
-/

namespace Hypha.Scheduler

open Hypha.Lib Hypha.Action

variable {PeerId T : Type} [LinearOrder PeerId] [RuntimeStatistic T]

/-- The samples of a report. -/
def samplesOf : ExecutorStatus → Nat
  | .train (.batchCompleted batchSize batches) => batchSize * batches
  | _ => 0

/-- The samples reported in a step. -/
def samplesIn (e : Step PeerId T) : Nat := ((statusOf e).map samplesOf).getD 0

/-- The samples `p` reports in a step. -/
def samplesBy (p : PeerId) (e : Step PeerId T) : Nat := if reporter e = some p then samplesIn e else 0

/-- The samples reported in the current round. -/
def roundTotal (h : List (Step PeerId T)) : Nat := ((currentRound h).map samplesIn).sum

/-- The samples `p` reported in the current round. -/
def roundSamples (p : PeerId) (h : List (Step PeerId T)) : Nat := ((currentRound h).map (samplesBy p)).sum

/-- Whether the worker `p` leaves the pool with an input. -/
def Input.leaves (p : PeerId) : Input PeerId → Bool
  | .workerExits q => decide (q = p)
  | _ => false

/-- Whether, as far as a step goes, `p` has stayed in the worker pool: it does not leave, and reports as a member. -/
def stays (p : PeerId) (e : Step PeerId T) : Bool :=
  !e.input.leaves p && (decide (reporter e ≠ some p) || e.pre.workerPool.isMember p)

/-- What the counters stand for. -/
structure Ledger (w : Trace PeerId T) : Prop where
  counter : roundTotal w.history ≤ u32Max → w.state.trainingState.counter = roundTotal w.history
  samples : ∀ p, (currentRound w.history).all (stays p) = true → roundSamples p w.history ≤ u32Max →
    (standing w.state.workerPool p).samplesProcessed = roundSamples p w.history
  absent : ∀ p, (currentRound w.history).all (stays p) = true → p ∉ w.state.workerPool.ids →
    roundSamples p w.history = 0

theorem counted_eq {status : ExecutorStatus} {c : Nat} (h : samplesOf status + c ≤ u32Max) :
    counted status c = samplesOf status + c := by
  have hu : u32Max < 2 ^ 32 := by decide
  unfold counted
  split
  · rename_i batchSize batches
    simp only [samplesOf] at h ⊢
    rw [wrappingMul_of_lt (by omega), saturatingAdd_of_le (by omega), Nat.add_comm]
  · rename_i hb
    unfold samplesOf
    split
    · exact absurd rfl (hb _ _)
    · rw [Nat.zero_add]

/-! ## What is recorded -/

/-- The samples a report is recorded with: the product is taken as a `u32`. -/
def recordedOf : ExecutorStatus → Nat
  | .train (.batchCompleted batchSize batches) => wrappingMul batchSize batches
  | _ => 0

/-- The samples recorded in a step. -/
def recordedIn (e : Step PeerId T) : Nat := ((statusOf e).map recordedOf).getD 0

/-- The counters of a round, whatever is reported: the sums of what was recorded in it, clamped. -/
structure Books (w : Trace PeerId T) : Prop where
  counter : w.state.trainingState.counter = min (total recordedIn (currentRound w.history)) u32Max
  samples : ∀ p, (currentRound w.history).all (stays p) = true →
    (standing w.state.workerPool p).samplesProcessed = min (share reporter recordedIn p (currentRound w.history)) u32Max
  absent : ∀ p, (currentRound w.history).all (stays p) = true → p ∉ w.state.workerPool.ids →
    ∀ e ∈ currentRound w.history, reporter e ≠ some p

/-- A clamped counter after a report. -/
theorem counted_min (status : ExecutorStatus) (c : Nat) :
    counted status (min c u32Max) = min (recordedOf status + c) u32Max := by
  unfold counted
  split
  · exact saturatingAdd_min c _
  · rename_i hb
    unfold recordedOf
    split
    · exact absurd rfl (hb _ _)
    · rw [Nat.zero_add]

theorem recordedOf_of_le {status : ExecutorStatus} (h : samplesOf status ≤ u32Max) :
    recordedOf status = samplesOf status := by
  have hu : u32Max < 2 ^ 32 := by decide
  unfold samplesOf at h ⊢
  unfold recordedOf
  split
  · exact wrappingMul_of_lt (Nat.lt_of_le_of_lt h hu)
  · rfl

omit [LinearOrder PeerId] [RuntimeStatistic T] in
/-- Nothing is lost of a product that fits. -/
theorem recordedIn_of_le {e : Step PeerId T} (h : samplesIn e ≤ u32Max) : recordedIn e = samplesIn e := by
  unfold samplesIn at h ⊢
  unfold recordedIn
  cases hs : statusOf e with
  | none => rfl
  | some status =>
    rw [hs] at h
    exact recordedOf_of_le h

omit [LinearOrder PeerId] [RuntimeStatistic T] in
theorem total_recordedIn {l : List (Step PeerId T)} (h : ∀ e ∈ l, samplesIn e ≤ u32Max) :
    total recordedIn l = total samplesIn l :=
  congrArg List.sum (List.map_congr_left fun e he => recordedIn_of_le (h e he))

omit [RuntimeStatistic T] in
theorem share_recordedIn {p : PeerId} {l : List (Step PeerId T)}
    (h : ∀ e ∈ l, reporter e = some p → samplesIn e ≤ u32Max) :
    share reporter recordedIn p l = share reporter samplesIn p l := by
  refine congrArg List.sum (List.map_congr_left fun e he => ?_)
  split_ifs with hp
  · exact recordedIn_of_le (h e he hp)
  · rfl

section Step
variable {cfg : Settings} {w : Trace PeerId T} {i : Input PeerId}

theorem roundTotal_cons {e : Step PeerId T} (he : advancing e = false) (h : List (Step PeerId T)) :
    roundTotal (e :: h) = samplesIn e + roundTotal h := by
  simp [roundTotal, currentRound_cons he]

theorem roundSamples_cons {e : Step PeerId T} (he : advancing e = false) (p : PeerId) (h : List (Step PeerId T)) :
    roundSamples p (e :: h) = samplesBy p e + roundSamples p h := by
  simp [roundSamples, currentRound_cons he]

theorem roundSamples_cons_advancing {e : Step PeerId T} (he : advancing e = true) (p : PeerId)
    (h : List (Step PeerId T)) : roundSamples p (e :: h) = 0 := by
  simp [roundSamples, currentRound_cons_advancing he]

theorem stays_event {s : SchedulerState PeerId T} {p : PeerId} (h : stays p ((machine cfg).event s i) = true) :
    i.leaves p = false ∧ (reporter ((machine cfg).event s i) = some p → p ∈ s.workerPool.ids) := by
  rw [stays, Bool.and_eq_true, Bool.not_eq_true', Bool.or_eq_true] at h
  refine ⟨h.1, fun hrep => ?_⟩
  rcases h.2 with hne | hmem
  · exact absurd hrep (of_decide_eq_true hne)
  · exact (PoolWithTrainInfo.isMember_iff _ _).mp hmem

/-- Members stay members unless they leave. -/
theorem mem_ids_step {s : SchedulerState PeerId T} {p : PeerId} (hl : i.leaves p = false)
    (hp : p ∈ s.workerPool.ids) : p ∈ (step cfg s i).1.workerPool.ids := by
  cases i with
  | report q status now clock =>
    rw [(schedule_effect cfg s clock now q cfg.id status).workerPool.ids.symm] at hp
    exact hp
  | workersJoin workers =>
    obtain ⟨d, hd, rfl⟩ := List.mem_map.mp hp
    refine List.mem_map.mpr ⟨d, ?_, rfl⟩
    exact (List.perm_insertionSort _ _).mem_iff.mpr (List.mem_append_left _ hd)
  | workerExits q =>
    obtain ⟨d, hd, rfl⟩ := List.mem_map.mp hp
    refine List.mem_map.mpr ⟨d, List.mem_filter.mpr ⟨hd, ?_⟩, rfl⟩
    have hne : q ≠ d.peerId := of_decide_eq_false hl
    simpa using hne.symm
  | serversJoin _ => exact hp
  | serverExits _ => exact hp
  | receiverCloses => exact hp

theorem books_environment (hB : Books w) (hi : i.report? = none) : Books ((machine cfg).next w i) := by
  have henv := (step_environment cfg w.state hi).1
  have hadv : advancing ((machine cfg).event w.state i) = false := by simp [advancing, statusOf, hi]
  have hin : recordedIn ((machine cfg).event w.state i) = 0 := by simp [recordedIn, statusOf, hi]
  have hrep : reporter ((machine cfg).event w.state i) = none := by simp [reporter, hi]
  refine ⟨?_, fun p hall => ?_, fun p hall hout => ?_⟩
  · rw [Machine.next_history, currentRound_cons hadv, total_cons, hin, Nat.zero_add, ← hB.counter]
    exact congrArg TrainingState.counter henv.trainingState
  · rw [Machine.next_history, currentRound_cons hadv, List.all_cons, Bool.and_eq_true] at hall
    rw [Machine.next_history, currentRound_cons hadv, share_cons, hin, ite_self, Nat.zero_add, ← hB.samples p hall.2]
    exact congrArg Standing.samplesProcessed (henv.standing p)
  · rw [Machine.next_history, currentRound_cons hadv, List.all_cons, Bool.and_eq_true] at hall
    rw [Machine.next_history, currentRound_cons hadv, List.forall_mem_cons, hrep]
    exact ⟨Option.some_ne_none p ∘ Eq.symm, hB.absent p hall.2 fun hin => hout (mem_ids_step (stays_event hall.1).1 hin)⟩

theorem books_advance (hadv : advancing ((machine cfg).event w.state i) = true) : Books ((machine cfg).next w i) := by
  obtain ⟨q, metrics, hi, hrec⟩ := report_of_advancing cfg w.state hadv
  have heff := (step_report cfg w.state hi).1
  have hadv' : advances w.state (.aggregate (.broadcastedUpdate metrics)) = true := hrec
  refine ⟨?_, fun p _ => ?_, fun p _ _ => ?_⟩
  · rw [Machine.next_history, currentRound_cons_advancing hadv]
    exact heff.counter.trans (if_pos hadv')
  · rw [Machine.next_history, currentRound_cons_advancing hadv]
    by_cases hp : p ∈ w.state.workerPool.ids
    · refine (congrArg Standing.samplesProcessed (heff.workerPool.of_mem hp)).trans ?_
      exact if_pos hadv'
    · exact congrArg Standing.samplesProcessed (heff.dropped (by rw [hadv']; rfl) p hp)
  · rw [Machine.next_history, currentRound_cons_advancing hadv]
    exact fun e he => absurd he List.not_mem_nil

/-- A report within a round. -/
theorem books_report (hB : Books w) {q : PeerId} {status : ExecutorStatus} (hi : i.report? = some (q, status))
    (hadv : advances w.state status = false) : Books ((machine cfg).next w i) := by
  have heff := (step_report cfg w.state hi).1
  have hadv' : advancing ((machine cfg).event w.state i) = false := (advancing_report cfg w.state hi).trans hadv
  have hin : recordedIn ((machine cfg).event w.state i) = recordedOf status := by simp [recordedIn, statusOf, hi]
  have hrep : reporter ((machine cfg).event w.state i) = some q := by simp [reporter, hi]
  refine ⟨?_, fun p hall => ?_, fun p hall hout => ?_⟩
  · rw [Machine.next_history, currentRound_cons hadv', total_cons, hin, ← counted_min, ← hB.counter]
    exact heff.counter.trans (by rw [hadv]; rfl)
  · rw [Machine.next_history, currentRound_cons hadv', List.all_cons, Bool.and_eq_true] at hall
    rw [Machine.next_history, currentRound_cons hadv', share_cons, hin, hrep]
    have hold := hB.samples p hall.2
    by_cases hqp : p = q
    · subst hqp
      have hmem : p ∈ w.state.workerPool.ids := (stays_event hall.1).2 hrep
      refine (congrArg Standing.samplesProcessed (heff.workerPool.of_mem hmem)).trans ?_
      rw [if_pos rfl, ← counted_min, ← hold]
      simp only [standingAfter, hadv, Bool.false_eq_true, if_false, if_true]
    · rw [if_neg fun h => hqp (Option.some.inj h).symm, Nat.zero_add, ← hold]
      -- a peer that is not a member has reported nothing
      have hzero : p ∉ w.state.workerPool.ids → (standing w.state.workerPool p).samplesProcessed = 0 := fun hout => by
        rw [hold, share_eq_zero (hB.absent p hall.2 hout), Nat.zero_min]
      change (standing (step cfg w.state i).1.workerPool p).samplesProcessed = _
      rcases heff.workerPool.standing p with hst | ⟨hout, hst | hst⟩
      · rw [hst]
        simp [standingAfter, hadv, hqp]
      · rw [hst, hzero hout]
        simp [standingAfter, hadv, hqp]
      · rw [hst, hzero hout]
  · rw [Machine.next_history, currentRound_cons hadv', List.all_cons, Bool.and_eq_true] at hall
    have hout' : p ∉ w.state.workerPool.ids := fun hin => hout (mem_ids_step (stays_event hall.1).1 hin)
    rw [Machine.next_history, currentRound_cons hadv', List.forall_mem_cons]
    exact ⟨fun hrep => hout' ((stays_event hall.1).2 hrep), hB.absent p hall.2 hout'⟩

theorem books_next (hB : Books w) : Books ((machine cfg).next w i) := by
  cases hi : i.report? with
  | none => exact books_environment hB hi
  | some report =>
    obtain ⟨q, status⟩ := report
    cases hadv : advances w.state status with
    | true => exact books_advance ((advancing_report cfg w.state hi).trans hadv)
    | false => exact books_report hB hi hadv

/-- As long as the sums do not overflow they are exact. -/
theorem Books.ledger (hB : Books w) : Ledger w := by
  refine ⟨fun hle => ?_, fun p hall hle => ?_, fun p hall hout => ?_⟩
  · rw [hB.counter, total_recordedIn fun e he => ?_]
    · exact min_eq_left hle
    · exact (List.le_sum_of_mem (List.mem_map_of_mem he)).trans hle
  · rw [hB.samples p hall, share_recordedIn fun e he hp => ?_]
    · exact min_eq_left hle
    · refine (List.le_sum_of_mem (List.mem_map.mpr ⟨e, he, ?_⟩)).trans hle
      exact if_pos hp
  · exact share_eq_zero (hB.absent p hall hout)

end Step

theorem books_initial (job : Job) (workers servers : List (WorkerDescriptor PeerId)) :
    Books (⟨initial job workers servers, []⟩ : Trace PeerId T) :=
  ⟨rfl, fun _ _ => rfl, fun _ _ _ _ he => absurd he List.not_mem_nil⟩

/-! ## Attribution -/

/-- The samples `p` has reported since its last `AppliedUpdate`, or since it joined. -/
def sinceApplied (p : PeerId) : List (Step PeerId T) → Nat
  | [] => 0
  | e :: h => if appliesUpdate p e then 0 else samplesBy p e + sinceApplied p h

/-- The samples `p` reported between its last `AppliedUpdate` and the last advance of the round, whichever came
first. -/
def unmatched (p : PeerId) : List (Step PeerId T) → Nat
  | [] => 0
  | e :: h =>
    if advancing e then sinceApplied p h
    else if appliesUpdate p e then roundSamples p h
    else unmatched p h

/-- An update that is asked for on `Idle` is weighted with the samples behind it. -/
def Attribution (e : Step PeerId T) (h : List (Step PeerId T)) : Prop :=
  ∀ p r weight, e.input.report? = some (p, .train .idle) → e.output = some (.train (.sendUpdate r weight)) →
    h.all (stays p) = true → p ∈ e.pre.workerPool.ids → weight.num = sinceApplied p h

/-- Whether, when a worker that stayed in the pool is to send its update on `Idle`, none of its samples are
unmatched. -/
def matched (e : Step PeerId T) (h : List (Step PeerId T)) : Bool :=
  match e.input.report? with
  | some (p, .train .idle) =>
    !(updateDue e.pre p && (primary e.pre).isSome && h.all (stays p) && e.pre.workerPool.isMember p) ||
      decide (unmatched p h = 0)
  | _ => true

/-- The samples of the reporter fit its counter. -/
def fits (e : Step PeerId T) (h : List (Step PeerId T)) : Bool :=
  (reporter e).all fun p => decide (roundSamples p h ≤ u32Max)

omit [RuntimeStatistic T] in
theorem samplesIn_of_advancing {e : Step PeerId T} (he : advancing e = true) :
    samplesIn e = 0 ∧ ∀ p, appliesUpdate p e = false := by
  unfold advancing at he
  cases hs : statusOf e with
  | none => simp [hs] at he
  | some status =>
    rw [hs, Option.any_some] at he
    unfold advances at he
    split at he
    · simp [samplesIn, appliesUpdate, hs, samplesOf, applies]
    · exact absurd he Bool.false_ne_true

omit [RuntimeStatistic T] in
theorem samplesBy_of_appliesUpdate {p : PeerId} {e : Step PeerId T} (he : appliesUpdate p e = true) :
    samplesBy p e = 0 := by
  rw [appliesUpdate, Bool.and_eq_true] at he
  cases hs : statusOf e with
  | none => simp [hs] at he
  | some status =>
    rw [hs, Option.any_some] at he
    unfold applies at he
    split at he
    · simp [samplesBy, samplesIn, hs, samplesOf]
    · exact absurd he.2 Bool.false_ne_true

/-- Unmatched samples are missing from one of the two counts. -/
theorem unmatched_split (p : PeerId) : ∀ h : List (Step PeerId T),
    roundSamples p h + unmatched p h = sinceApplied p h ∨ sinceApplied p h + unmatched p h = roundSamples p h
  | [] => Or.inl rfl
  | e :: h => by
    rw [unmatched, sinceApplied]
    cases hadv : advancing e with
    | true =>
      obtain ⟨hin, hnot⟩ := samplesIn_of_advancing hadv
      have hby : samplesBy p e = 0 := by simp [samplesBy, hin]
      left
      simp [roundSamples_cons_advancing hadv, hnot, hby]
    | false =>
      rw [roundSamples_cons hadv]
      cases happ : appliesUpdate p e with
      | true =>
        right
        simp [samplesBy_of_appliesUpdate happ]
      | false =>
        simp only [Bool.false_eq_true, if_false]
        rcases unmatched_split p h with heq | heq
        · left; omega
        · right; omega

theorem roundSamples_eq_iff (p : PeerId) (h : List (Step PeerId T)) :
    roundSamples p h = sinceApplied p h ↔ unmatched p h = 0 := by
  rcases unmatched_split p h with heq | heq <;> omega

section Attribution
variable {cfg : Settings} {w : Trace PeerId T} {i : Input PeerId}

/-- What a worker that stayed in the pool has processed is what it reported in this round. -/
theorem present_samples (hinv : Ledger w) {p : PeerId} (hstay : w.history.all (stays p) = true)
    (hp : p ∈ w.state.workerPool.ids) (hfit : roundSamples p w.history ≤ u32Max) :
    (present w.state.workerPool p).samplesProcessed = roundSamples p w.history := by
  rw [present_of_mem hp]
  refine hinv.samples p ?_ hfit
  rw [List.all_eq_true] at hstay ⊢
  exact fun x hx => hstay x ((List.takeWhile_prefix _).subset hx)

theorem step_idle_eq_sendUpdate_iff {s : SchedulerState PeerId T} {p : PeerId} {r : Reference PeerId} {weight : Weight}
    (hi : i.report? = some (p, .train .idle)) :
    (step cfg s i).2 = some (.train (.sendUpdate r weight)) ↔
      updateDue s p = true ∧ ∃ ps, s.parameterPool.ids.head? = some ps ∧ r = .peers [ps] .one none ∧
        weight = ⟨(present s.workerPool p).samplesProcessed, s.trainingState.counter⟩ := by
  obtain ⟨now, clock, hout⟩ := (step_report cfg s hi).2
  rw [hout, Option.some.injEq]
  exact answer_idle_eq_sendUpdate_iff cfg s clock now p r weight

theorem attribution_event_iff (hinv : Ledger w) (hfit : fits ((machine cfg).event w.state i) w.history = true) :
    Attribution ((machine cfg).event w.state i) w.history ↔
      matched ((machine cfg).event w.state i) w.history = true := by
  have hsamples : ∀ p, i.report? = some (p, .train .idle) → w.history.all (stays p) = true →
      p ∈ w.state.workerPool.ids → (present w.state.workerPool p).samplesProcessed = roundSamples p w.history := by
    intro p hi hstay hp
    refine present_samples hinv hstay hp ?_
    simpa [fits, reporter, hi] using hfit
  constructor
  · intro hattr
    unfold matched
    split
    · rename_i p hi
      rw [Bool.or_eq_true, decide_eq_true_eq, ← roundSamples_eq_iff, Bool.not_eq_true', ← Bool.not_eq_true]
      by_contra hcon
      rw [not_or, not_not] at hcon
      simp only [Bool.and_eq_true, PoolWithTrainInfo.isMember_iff, Option.isSome_iff_exists] at hcon
      obtain ⟨⟨⟨⟨hdue, ps, hps⟩, hstay⟩, hp⟩, hne⟩ := hcon
      refine hne ((hsamples p hi hstay hp).symm.trans ?_)
      exact hattr p _ _ hi ((step_idle_eq_sendUpdate_iff hi).mpr ⟨hdue, ps, hps, rfl, rfl⟩) hstay hp
    · rfl
  · intro hmatch p r weight hi hout hstay hp
    obtain ⟨hdue, ps, hps, -, hw⟩ := (step_idle_eq_sendUpdate_iff hi).mp hout
    have hzero : unmatched p w.history = 0 := by
      simp only [matched, hi] at hmatch
      rw [Bool.or_eq_true, Bool.not_eq_true', decide_eq_true_eq] at hmatch
      refine hmatch.resolve_left fun hfalse => ?_
      rw [← Bool.not_eq_true] at hfalse
      refine hfalse ?_
      simp only [Bool.and_eq_true, PoolWithTrainInfo.isMember_iff, Option.isSome_iff_exists]
      exact ⟨⟨⟨hdue, ps, hps⟩, hstay⟩, hp⟩
    rw [hw]
    exact (hsamples p hi hstay hp).trans ((roundSamples_eq_iff p w.history).mpr hzero)

end Attribution

/-- **Sample attribution** holds along a run exactly when no samples are unmatched where it matters, as long as the
counters do not overflow. -/
theorem attribution_iff (job : Job) (workers servers : List (WorkerDescriptor PeerId)) (inputs : List (Input PeerId))
    (hfit : Along (fun e h => fits e h = true) (run T job workers servers inputs).history) :
    Along Attribution (run T job workers servers inputs).history ↔
      Along (fun e h => matched e h = true) (run T job workers servers inputs).history :=
  (machine job.settings).along_iff_of_invariant Books (fun e h => fits e h = true) _ _
    (books_initial job workers servers) (fun _ _ => books_next) (fun _ _ hB => attribution_event_iff hB.ledger) inputs
    hfit

/-- Both workers are told to apply the first aggregate, and have done so. -/
def twoApplied : List (Input Nat) :=
  twoWorkers ++ [tell 2 (.sentUpdate 1 []), tellPs 9 .idle, tellPs 9 (.aggregatedUpdates none), tell 1 .idle,
    tell 2 .idle, tell 1 .appliedUpdate, tell 2 .appliedUpdate]

/-- The parameter server reports before the workers complete their next batches. -/
theorem attribution_one_round :
    Along Attribution (run RunningMean (smallJob 2 2 3) (joined [1, 2]) (joined [9])
      (twoApplied ++ [tellPs 9 (.broadcastedUpdate none), tell 2 (.batchCompleted 1 1), tell 1 (.batchCompleted 1 1),
        tell 2 (.batchCompleted 1 1)])).history :=
  (attribution_iff (smallJob 2 2 3) _ _ _ (by decide +kernel)).mpr (by decide +kernel)

/-- Worker 1 completes a batch before the parameter server reports `BroadcastedUpdate`. -/
def earlyBatch : List (Input Nat) :=
  twoApplied ++ [tell 1 (.batchCompleted 1 1), tellPs 9 (.broadcastedUpdate none), tell 2 (.batchCompleted 1 1),
    tell 2 (.batchCompleted 1 1), tell 1 .idle]

/-- Its batch is missing from the weight of its next update. -/
theorem attribution_fails :
    Along (fun e h => wellBehaved e h = true)
      (run RunningMean (smallJob 2 2 3) (joined [1, 2]) (joined [9]) earlyBatch).history ∧
    ¬ Along Attribution (run RunningMean (smallJob 2 2 3) (joined [1, 2]) (joined [9]) earlyBatch).history := by
  refine ⟨by decide +kernel, fun h => ?_⟩
  have hnum := h.1 1 (.peers [9] .one none) ⟨0, 2⟩ rfl (by decide +kernel) (by decide +kernel) (by decide +kernel)
  exact absurd hnum (by decide +kernel)

end Hypha.Scheduler
