import Hypha.Lib.Shares
import Hypha.Scheduler.Samples

/-!
# The weights of a round

The parameter server only sums the pseudo-gradients it receives, so the weights of a round must add up to one. Each is
the share of a worker in the samples counted so far: it depends on when the worker is asked for its update.

* `asked`, `weightOf` : who is asked for its update in a step, and with which weight;
* `weight_of_asked` : the weight is the worker's part of the samples of the round, so far;
* `sum_weights_eq_one_iff` : exactly when the weights of a round add up to one: nothing may be reported between the
  first update that carries samples and the last one.
-/

namespace Hypha.Scheduler

open Hypha.Lib Hypha.Action

variable {PeerId T : Type} [LinearOrder PeerId] [RuntimeStatistic T]

/-! ## Who is asked for an update -/

/-- Whether a report is answered with `SendUpdate`: there is work for its worker, and the target is met. -/
def asksUpdate (s : SchedulerState PeerId T) (p : PeerId) (status : ExecutorStatus) : Bool :=
  givesWork s p status && !applies status &&
    decide (s.trainingState.updateTarget ≤ counted status s.trainingState.counter)

/-- The worker that is asked for its update in a step. -/
def asked (e : Step PeerId T) : Option PeerId :=
  (e.input.report?.filter fun (p, status) => asksUpdate e.pre p status).map (·.1)

/-- The weight of the update that is asked for in a step. -/
def weightOf (e : Step PeerId T) : Option Weight :=
  match e.output with
  | some (.train (.sendUpdate _ weight)) => some weight
  | _ => none

theorem asksUpdate_iff (cfg : Settings) (s : SchedulerState PeerId T) (clock : Nat → Instant) (now : SystemTime)
    (p : PeerId) (status : ExecutorStatus) :
    asksUpdate s p status = true ↔ ∃ r weight, answer cfg s clock now p status = .train (.sendUpdate r weight) := by
  constructor
  · intro h
    simp only [asksUpdate, Bool.and_eq_true, Bool.not_eq_true', decide_eq_true_eq] at h
    obtain ⟨⟨hwork, happ⟩, hle⟩ := h
    unfold givesWork at hwork
    split at hwork
    · rw [counted] at hle
      · simp only [Nat.not_lt.mpr hle, decide_false, Bool.false_or, Bool.and_eq_true, Bool.not_eq_true',
          List.isEmpty_eq_false_iff] at hwork
        obtain ⟨⟨⟨hc, ha⟩, hr⟩, hps⟩ := hwork
        obtain ⟨ps, hps⟩ := Option.isSome_iff_exists.mp (List.isSome_head?.mpr hps)
        refine ⟨_, _, (answer_idle_eq_sendUpdate_iff cfg s clock now p _ _).mpr ⟨?_, ps, hps, rfl, rfl⟩⟩
        simp [updateDue, hc, ha, hr, hle]
      · intro _ _ h
        cases h
    · rename_i batchSize batches
      rw [counted] at hle
      simp only [Nat.not_lt.mpr hle, decide_false, Bool.false_or, Bool.and_eq_true, Bool.not_eq_true',
        List.isEmpty_eq_false_iff] at hwork
      obtain ⟨⟨hc, hr⟩, hps⟩ := hwork
      obtain ⟨ps, hps⟩ := Option.isSome_iff_exists.mp (List.isSome_head?.mpr hps)
      obtain ⟨target, next, -, h'⟩ := answer_batchCompleted cfg s clock now p batchSize batches
      refine ⟨.peers [ps] .one none, ⟨batchContribution cfg s clock now p cfg.id batchSize batches, target⟩,
        h'.trans ?_⟩
      rw [hc, hr, Bool.or_false, if_neg Bool.false_ne_true, ExecutorAction.train.injEq, work_eq_sendUpdate_iff]
      exact ⟨decide_eq_true hle, ps, by rw [context_parameterServers]; exact hps, rfl, rfl⟩
    · exact absurd happ (by simp [applies])
    · exact absurd hwork Bool.false_ne_true
  · rintro ⟨r, weight, h⟩
    have hwork := isWork_answer cfg s clock now p status
    rw [h] at hwork
    have hsends := sendsUpdate_of_answer cfg s clock now p h
    rw [asksUpdate, ← hwork, decide_eq_true hsends.updateTarget, Bool.and_true]
    rcases hsends.report with rfl | ⟨_, _, rfl⟩ <;> rfl

omit [LinearOrder PeerId] in
/-- What a worker asked for its update is weighted with, if it completes one batch at a time. -/
theorem contribution_eq {s : SchedulerState PeerId T} {p : PeerId} {status : ExecutorStatus}
    (hone : ∀ batchSize batches, status = .train (.batchCompleted batchSize batches) → batches = 1)
    (hfit : samplesOf status + (standing s.workerPool p).samplesProcessed ≤ u32Max) :
    contribution s p status = samplesOf status + (standing s.workerPool p).samplesProcessed := by
  unfold contribution
  split
  · rename_i batchSize batches
    cases hone batchSize batches rfl
    simp only [samplesOf, Nat.mul_one] at hfit ⊢
    rw [saturatingAdd_of_le (by omega), Nat.add_comm]
  · rename_i hb
    unfold samplesOf
    split
    · exact absurd rfl (hb _ _)
    · rw [Nat.zero_add]

/-! ## Rounds -/

/-- Whether a report completes one batch at a time. -/
def oneBatch : ExecutorStatus → Bool
  | .train (.batchCompleted _ batches) => decide (batches = 1)
  | _ => true

omit [RuntimeStatistic T] in
theorem roundSamples_le_roundTotal (p : PeerId) (h : List (Step PeerId T)) : roundSamples p h ≤ roundTotal h :=
  share_le_total reporter samplesIn p (currentRound h)

section Step
variable {cfg : Settings} {w : Trace PeerId T} {i : Input PeerId}

/-- A step in which nobody is asked has no weight. -/
theorem weightOf_of_not_asked {s : SchedulerState PeerId T} (h : asked ((machine cfg).event s i) = none) :
    weightOf ((machine cfg).event s i) = none := by
  unfold weightOf
  split
  · rename_i r weight hout
    have hout' : (step cfg s i).2 = some (.train (.sendUpdate r weight)) := hout
    obtain ⟨p, status, now, clock, hi, ha⟩ := report_of_output hout'
    have hasks := (asksUpdate_iff cfg s clock now p status).mpr ⟨r, weight, ha⟩
    simp [asked, hi, Option.filter, hasks] at h
  · rfl

theorem report_of_asked {s : SchedulerState PeerId T} {p : PeerId} (h : asked ((machine cfg).event s i) = some p) :
    ∃ status r weight, i.report? = some (p, status) ∧ (step cfg s i).2 = some (.train (.sendUpdate r weight)) ∧
      SendsUpdate s p status r weight := by
  rw [asked, Option.map_eq_some_iff] at h
  obtain ⟨⟨q, status⟩, hfilter, rfl⟩ := h
  obtain ⟨hreport, hasks⟩ := Option.filter_eq_some_iff.mp hfilter
  have hi : i.report? = some (q, status) := hreport
  obtain ⟨now, clock, hout⟩ := (step_report cfg s hi).2
  obtain ⟨r, weight, ha⟩ := (asksUpdate_iff cfg s clock now q status).mp hasks
  exact ⟨status, r, weight, hi, by rw [hout, ha], sendsUpdate_of_answer cfg s clock now q ha⟩

/-- **The weight of an update** is the worker's part of the samples of the round, so far. -/
theorem weight_of_asked (hinv : Ledger w) {p : PeerId} (hasked : asked ((machine cfg).event w.state i) = some p)
    (hone : (statusOf ((machine cfg).event w.state i)).all oneBatch = true)
    (hstay : (currentRound ((machine cfg).event w.state i :: w.history)).all (stays p) = true)
    (hfit : roundTotal ((machine cfg).event w.state i :: w.history) ≤ u32Max) :
    advancing ((machine cfg).event w.state i) = false ∧
      weightOf ((machine cfg).event w.state i) =
        some ⟨roundSamples p ((machine cfg).event w.state i :: w.history),
          roundTotal ((machine cfg).event w.state i :: w.history)⟩ := by
  obtain ⟨status, r, weight, hi, hout, hsends⟩ := report_of_asked hasked
  have hadv : advancing ((machine cfg).event w.state i) = false := by
    rw [advancing_report cfg w.state hi]
    rcases hsends.report with rfl | ⟨_, _, rfl⟩ <;> rfl
  have hin : samplesIn ((machine cfg).event w.state i) = samplesOf status := by simp [samplesIn, statusOf, hi]
  have hrep : reporter ((machine cfg).event w.state i) = some p := by simp [reporter, hi]
  have hby : samplesBy p ((machine cfg).event w.state i) = samplesOf status := by rw [samplesBy, if_pos hrep, hin]
  rw [currentRound_cons hadv, List.all_cons, Bool.and_eq_true] at hstay
  rw [roundTotal_cons hadv, hin] at hfit
  have hsamples : (standing w.state.workerPool p).samplesProcessed = roundSamples p w.history :=
    hinv.samples p hstay.2 (by have := roundSamples_le_roundTotal p w.history; omega)
  have hone' : ∀ batchSize batches, status = .train (.batchCompleted batchSize batches) → batches = 1 := by
    rintro batchSize batches rfl
    simpa [statusOf, hi, oneBatch] using hone
  refine ⟨hadv, ?_⟩
  have hnum : weight.num = samplesOf status + roundSamples p w.history := by
    rw [hsends.num ((stays_event hstay.1).2 hrep), contribution_eq hone', hsamples]
    rw [hsamples]
    have := roundSamples_le_roundTotal p w.history
    omega
  have hden : weight.den = samplesOf status + roundTotal w.history := by
    rw [hsends.den, hinv.counter (by omega), counted_eq hfit]
  rw [roundTotal_cons hadv, roundSamples_cons hadv, hin, hby, ← hnum, ← hden]
  unfold weightOf
  rw [show ((machine cfg).event w.state i).output = _ from hout]

end Step

/-- What a step within a round says about weights, `g` being the steps of the round before it. -/
structure Weighs (e : Step PeerId T) (g : List (Step PeerId T)) : Prop where
  none : asked e = none → weightOf e = none
  some : ∀ p, asked e = some p → (statusOf e).all oneBatch = true → (e :: g).all (stays p) = true →
    total samplesIn (e :: g) ≤ u32Max →
    weightOf e = some ⟨share reporter samplesIn p (e :: g), total samplesIn (e :: g)⟩

theorem along_currentRound {P Q : Step PeerId T → List (Step PeerId T) → Prop}
    (hPQ : ∀ e h, advancing e = false → P e h → Q e (currentRound h)) :
    ∀ h, Along P h → Along Q (currentRound h)
  | [], _ => trivial
  | e :: h, ⟨he, hP⟩ => by
    cases hadv : advancing e with
    | true => rw [currentRound_cons_advancing hadv]; exact along_nil Q
    | false => rw [currentRound_cons hadv]; exact ⟨hPQ e h hadv he, along_currentRound hPQ h hP⟩

theorem weighs_run (job : Job) (workers servers : List (WorkerDescriptor PeerId)) (inputs : List (Input PeerId)) :
    Along Weighs (currentRound (run T job workers servers inputs).history) := by
  refine along_currentRound (P := fun e h => advancing e = false → Weighs e (currentRound h))
    (fun e h hadv hP => hP hadv) _ ?_
  refine ((machine job.settings).run_invariant
    (fun w => Books w ∧ Along (fun e h => advancing e = false → Weighs e (currentRound h)) w.history)
    ⟨books_initial job workers servers, trivial⟩ ?_ inputs).2
  rintro w i ⟨hB, hP⟩
  refine ⟨books_next hB, fun hadv => ⟨weightOf_of_not_asked, fun p hasked hone hstay hfit => ?_⟩, hP⟩
  rw [← currentRound_cons hadv] at hstay hfit ⊢
  exact (weight_of_asked hB.ledger hasked hone hstay hfit).2

/-! ## The weights of a round -/

/-- The sum of the weights of a list of steps, in exact arithmetic. -/
def sumWeights (l : List (Step PeerId T)) : ℚ := ((l.filterMap weightOf).map Weight.toRat).sum

/-- The current round up to its last `SendUpdate`, newest first. -/
def upToLastAsked (h : List (Step PeerId T)) : List (Step PeerId T) :=
  (currentRound h).dropWhile fun e => (asked e).isNone

/-- Whether the current round is one the weights are meant for: whoever is asked for its update is a member throughout,
batches are completed one at a time, and whoever reports samples is asked once. -/
def regular (h : List (Step PeerId T)) : Bool :=
  (currentRound h).all fun e =>
    (asked e).all (fun p => (currentRound h).all (stays p)) && (statusOf e).all oneBatch &&
      (reporter e).all fun p =>
        decide (0 < roundSamples p h → (currentRound h).countP (fun e => decide (asked e = some p)) = 1)

/-- A worker has reported all its samples when it is asked for its update, as far as the last update of the round can
tell. -/
def DoneWhenAsked (h : List (Step PeerId T)) : Prop :=
  Along (fun e g => ∀ p ∈ asked e,
    share reporter samplesIn p (e :: g) = share reporter samplesIn p (upToLastAsked h)) (upToLastAsked h)

/-- There are samples, and between an update that carries any and the last one of the round none are reported. -/
def AskedTogether (h : List (Step PeerId T)) : Prop :=
  0 < total samplesIn (upToLastAsked h) ∧
    Along (fun e g => ∀ p ∈ asked e, 0 < share reporter samplesIn p (e :: g) →
      total samplesIn (e :: g) = total samplesIn (upToLastAsked h)) (upToLastAsked h)

instance (h : List (Step PeerId T)) : Decidable (DoneWhenAsked h) :=
  inferInstanceAs (Decidable (Along _ _))

instance (h : List (Step PeerId T)) : Decidable (AskedTogether h) :=
  inferInstanceAs (Decidable (_ ∧ Along _ _))

theorem sumWeights_dropWhile : ∀ {l : List (Step PeerId T)}, Along Weighs l →
    sumWeights (l.dropWhile fun e => (asked e).isNone) = sumWeights l
  | [], _ => rfl
  | e :: l, ⟨he, hl⟩ => by
    cases hasked : asked e with
    | some p => simp [hasked]
    | none =>
      rw [List.dropWhile_cons_of_pos (by simp [hasked]), sumWeights_dropWhile hl]
      simp [sumWeights, he.none hasked]

/-- Within a round, the weights are what the claims of the workers to its samples are worth. -/
theorem sumWeights_eq_values {l : List (Step PeerId T)}
    (hstay : ∀ e ∈ l, ∀ p, asked e = some p → l.all (stays p) = true)
    (hone : ∀ e ∈ l, (statusOf e).all oneBatch = true) (hfit : total samplesIn l ≤ u32Max) :
    ∀ b, b <:+ l → Along Weighs b → sumWeights b = values reporter asked samplesIn b
  | [], _, _ => rfl
  | e :: b, hs, ⟨he, hb⟩ => by
    have hmem : e ∈ l := hs.subset List.mem_cons_self
    have ih := sumWeights_eq_values hstay hone hfit b ((List.suffix_cons e b).trans hs) hb
    rw [values, ← ih]
    cases hasked : asked e with
    | none => simp [sumWeights, he.none hasked]
    | some p =>
      have hall : (e :: b).all (stays p) = true := by
        rw [List.all_eq_true]
        exact fun x hx => List.all_eq_true.mp (hstay e hmem p hasked) x (hs.subset hx)
      have hweight := he.some p hasked (hone e hmem) hall ((total_le_of_suffix samplesIn hs).trans hfit)
      simp [sumWeights, hweight, Weight.toRat]

theorem countP_dropWhile (p : PeerId) : ∀ l : List (Step PeerId T),
    (l.dropWhile fun e => (asked e).isNone).countP (fun e => decide (asked e = some p)) =
      l.countP (fun e => decide (asked e = some p))
  | [] => rfl
  | e :: l => by
    cases hasked : asked e with
    | some q => simp [hasked]
    | none =>
      rw [List.dropWhile_cons_of_pos (by simp [hasked]), countP_dropWhile p l]
      simp [hasked]

omit [LinearOrder PeerId] [RuntimeStatistic T] in
/-- Samples have a reporter. -/
theorem samplesIn_of_no_reporter {e : Step PeerId T} (h : reporter e = none) : samplesIn e = 0 := by
  rw [reporter, Option.map_eq_none_iff] at h
  simp [samplesIn, statusOf, h]

omit [RuntimeStatistic T] in
/-- Whoever has samples in a list of steps reports in it. -/
theorem reports_of_share_pos {p : PeerId} {l : List (Step PeerId T)} (h : 0 < share reporter samplesIn p l) :
    ∃ e ∈ l, reporter e = some p := by
  by_contra hcon
  push Not at hcon
  have hzero : share reporter samplesIn p l = 0 := by
    refine List.sum_eq_zero fun n hn => ?_
    obtain ⟨e, he, rfl⟩ := List.mem_map.mp hn
    exact if_neg (hcon e he)
  exact absurd hzero h.ne'

theorem askedOnce_of_regular {h : List (Step PeerId T)} (hregular : regular h = true) {p : PeerId}
    (hpos : 0 < share reporter samplesIn p (upToLastAsked h)) :
    (upToLastAsked h).countP (fun e => decide (asked e = some p)) = 1 := by
  have hround : 0 < roundSamples p h := by
    refine Nat.lt_of_lt_of_le hpos ?_
    exact share_le_of_suffix reporter samplesIn p (List.dropWhile_suffix _)
  obtain ⟨e, he, hrep⟩ := reports_of_share_pos hround
  have hall := List.all_eq_true.mp hregular e he
  simp only [hrep, Option.all_some, Bool.and_eq_true, decide_eq_true_eq] at hall
  rw [upToLastAsked, countP_dropWhile]
  exact hall.2 hround

/-- **Weights add up to one** in a round exactly when nothing is reported between the first update that carries samples
and the last, as long as the counters do not overflow and workers are done when they are asked. -/
theorem sum_weights_eq_one_iff (job : Job) (workers servers : List (WorkerDescriptor PeerId))
    (inputs : List (Input PeerId)) (hregular : regular (run T job workers servers inputs).history = true)
    (hfit : total samplesIn (upToLastAsked (run T job workers servers inputs).history) ≤ u32Max)
    (hdone : DoneWhenAsked (run T job workers servers inputs).history) :
    sumWeights (currentRound (run T job workers servers inputs).history) = 1 ↔
      AskedTogether (run T job workers servers inputs).history := by
  have hweighs := weighs_run (T := T) job workers servers inputs
  generalize (run T job workers servers inputs).history = h at *
  have hsub : upToLastAsked h <:+ currentRound h := List.dropWhile_suffix _
  have hvalues : sumWeights (upToLastAsked h) = values reporter asked samplesIn (upToLastAsked h) := by
    refine sumWeights_eq_values (fun e he p hasked => ?_) (fun e he => ?_) hfit _ List.suffix_rfl
      (hweighs.of_suffix hsub)
    · have hall := List.all_eq_true.mp hregular e (hsub.subset he)
      simp only [hasked, Option.all_some, Bool.and_eq_true] at hall
      rw [List.all_eq_true] at hall ⊢
      exact fun x hx => hall.1.1 x (hsub.subset hx)
    · have hall := List.all_eq_true.mp hregular e (hsub.subset he)
      simp only [Bool.and_eq_true] at hall
      exact hall.1.2
  rw [← sumWeights_dropWhile hweighs]
  refine (Eq.congr_left hvalues).trans ?_
  exact values_eq_one_iff (fun e _ => samplesIn_of_no_reporter) (fun p => askedOnce_of_regular hregular) hdone

/-- Two workers are asked for their updates once both have completed their batch. -/
theorem sum_weights_one_round :
    sumWeights (currentRound (run RunningMean (smallJob 2 2 3) (joined [1, 2]) (joined [9])
      [tell 1 .joined, tell 2 .joined, tell 1 (.batchCompleted 1 1), tell 2 (.batchCompleted 1 1),
        tell 1 .idle]).history) = 1 :=
  (sum_weights_eq_one_iff (smallJob 2 2 3) _ _ _ (by decide +kernel) (by decide +kernel) (by decide +kernel)).mpr
    (by decide +kernel)

/-- The first batch of worker 1 meets the target while that of worker 2 is under way. -/
def batchUnderWay : List (Input Nat) :=
  [tell 1 .joined, tell 2 .joined, tell 1 .idle, tell 2 .idle, tell 1 (.batchCompleted 1 1),
    tell 2 (.batchCompleted 1 1)]

/-- The weights are 1 and 1/2: only the second one counts the samples of both workers. -/
theorem sum_weights_fails :
    Along (fun e h => wellBehaved e h = true)
      (run RunningMean (smallJob 2 1 3) (joined [1, 2]) (joined [9]) batchUnderWay).history ∧
    regular (run RunningMean (smallJob 2 1 3) (joined [1, 2]) (joined [9]) batchUnderWay).history = true ∧
    sumWeights (currentRound (run RunningMean (smallJob 2 1 3) (joined [1, 2]) (joined [9]) batchUnderWay).history) ≠
      1 := by
  refine ⟨by decide +kernel, by decide +kernel, by decide +kernel⟩

end Hypha.Scheduler
