import Hypha.Scheduler.Run

/-!
# The advance of the round

A round ends with a round trip of the primary parameter server: told `AggregateUpdates`, it reports
`AggregatedUpdates`; told `BroadcastUpdate`, it reports `BroadcastedUpdate`, and the round advances. The handler of
`BroadcastedUpdate` does not look at who reports it, nor at what that peer was told.

* `LawfulAdvance` : the round advances only at the end of the primary's round trip of this round, and stays within the
  target;
* `inTurn` : the two reports are made by a peer that was just told so and has been the primary since;
* `lawfulAdvance_of_inTurn` : then every advance is lawful.
-/

namespace Hypha.Scheduler

open Hypha.Lib Hypha.Action

variable {PeerId T : Type} [LinearOrder PeerId] [RuntimeStatistic T]

/-- The primary parameter server: the first member of the pool. -/
def primary (s : SchedulerState PeerId T) : Option PeerId := s.parameterPool.ids.head?

def isAggregateUpdates : ExecutorAction PeerId → Bool
  | .aggregate (.aggregateUpdates _) => true
  | _ => false

def isBroadcastUpdate : ExecutorAction PeerId → Bool
  | .aggregate (.broadcastUpdate _) => true
  | _ => false

/-- Whether a step answers `p` with an action of the given kind. -/
def answers (p : PeerId) (kind : ExecutorAction PeerId → Bool) (e : Step PeerId T) : Bool :=
  decide (reporter e = some p) && e.output.any kind

/-- The round changes only at a `BroadcastedUpdate` of the primary, which since the last advance was answered
`AggregateUpdates` and later `BroadcastUpdate`; and it stays within the target. -/
structure LawfulAdvance (e : Step PeerId T) (h : List (Step PeerId T)) : Prop where
  roundTrip : e.post.roundState.round ≠ e.pre.roundState.round →
    ∃ p metrics, e.input.report? = some (p, .aggregate (.broadcastedUpdate metrics)) ∧ primary e.pre = some p ∧
      ∃ a b, List.Sublist [b, a] (currentRound h) ∧ answers p isAggregateUpdates a = true ∧
        answers p isBroadcastUpdate b = true
  bound : 1 ≤ e.post.roundState.updateRounds → e.post.roundState.round ≤ e.post.roundState.updateRounds

/-- Whether the last answer of `p` was of the given kind and `p` has been the primary ever since. -/
def unbroken (p : PeerId) (kind : ExecutorAction PeerId → Bool) : List (Step PeerId T) → Bool
  | [] => false
  | e :: h =>
    if reporter e = some p then e.output.any kind else decide (primary e.pre = some p) && unbroken p kind h

/-- Whether the reports that move a round on are made in turn: `AggregatedUpdates` of the primary after
`AggregateUpdates`, `BroadcastedUpdate` after `BroadcastUpdate`, by a peer that has been the primary since that
answer. -/
def inTurn (e : Step PeerId T) (h : List (Step PeerId T)) : Bool :=
  match e.input.report? with
  | some (p, .aggregate (.aggregatedUpdates _)) =>
    decide (primary e.pre ≠ some p) || unbroken p isAggregateUpdates h
  | some (p, .aggregate (.broadcastedUpdate _)) =>
    !e.pre.receiving || decide (primary e.pre = some p) && unbroken p isBroadcastUpdate h
  | _ => true

/-! ## The invariant -/

/-- What is known of the round trips under way. -/
structure RoundTrips (w : Trace PeerId T) : Prop where
  bound : 1 ≤ w.state.roundState.updateRounds → w.state.roundState.round ≤ w.state.roundState.updateRounds ∧
    (w.state.roundState.trainingComplete = false → w.state.roundState.round < w.state.roundState.updateRounds)
  aggregating : ∀ p, unbroken p isAggregateUpdates w.history = true →
    w.state.roundState.trainingComplete = false ∧
      ∃ a ∈ currentRound w.history, answers p isAggregateUpdates a = true
  broadcasting : ∀ p, unbroken p isBroadcastUpdate w.history = true →
    w.state.roundState.trainingComplete = false ∧
      ∃ a b, List.Sublist [b, a] (currentRound w.history) ∧ answers p isAggregateUpdates a = true ∧
        answers p isBroadcastUpdate b = true

section Step
variable {cfg : Settings} {w : Trace PeerId T} {i : Input PeerId}

/-- A peer whose round trip is unbroken was told so by this very step, or the step does not advance the round. -/
theorem unbroken_next (hturn : inTurn ((machine cfg).event w.state i) w.history = true) {p : PeerId}
    {kind : ExecutorAction PeerId → Bool} (h : unbroken p kind ((machine cfg).next w i).history = true) :
    answers p kind ((machine cfg).event w.state i) = true ∨
      unbroken p kind w.history = true ∧ advancing ((machine cfg).event w.state i) = false := by
  simp only [Machine.next_history, unbroken] at h
  split_ifs at h with hrep
  · left
    rw [answers, decide_eq_true hrep, Bool.true_and]
    exact h
  · rw [Bool.and_eq_true, decide_eq_true_eq] at h
    refine Or.inr ⟨h.2, ?_⟩
    by_contra hadv
    rw [Bool.not_eq_false] at hadv
    obtain ⟨q, metrics, hi, hrec⟩ := report_of_advancing cfg w.state hadv
    simp only [inTurn, Machine.event_input, hi, Machine.event_pre, hrec, Bool.not_true, Bool.false_or,
      Bool.and_eq_true] at hturn
    refine hrep ?_
    have hq : primary w.state = some q := of_decide_eq_true hturn.1
    have hp : primary w.state = some p := h.1
    rw [reporter, Machine.event_input, hi, Option.map_some, ← hp, hq]

/-- The step that tells a peer to aggregate. -/
theorem step_isAggregateUpdates {s : SchedulerState PeerId T}
    (h : (step cfg s i).2.any isAggregateUpdates = true) :
    ∃ p, i.report? = some (p, .aggregate .idle) ∧ s.roundState.trainingComplete = false ∧ primary s = some p ∧
      ((s.parameterPool.updatesOf p).Nonempty ∨ s.roundState.firstUpdateAt.isSome = true) := by
  obtain ⟨a, ha, hkind⟩ := (Option.any_eq_true _ _).mp h
  unfold isAggregateUpdates at hkind
  split at hkind
  · exact step_aggregateUpdates ha
  · exact absurd hkind Bool.false_ne_true

/-- The step that tells a peer to broadcast. -/
theorem step_isBroadcastUpdate {s : SchedulerState PeerId T}
    (h : (step cfg s i).2.any isBroadcastUpdate = true) :
    ∃ p metrics, i.report? = some (p, .aggregate (.aggregatedUpdates metrics)) ∧ primary s = some p := by
  obtain ⟨a, ha, hkind⟩ := (Option.any_eq_true _ _).mp h
  unfold isBroadcastUpdate at hkind
  split at hkind
  · obtain ⟨p, metrics, hi, hann⟩ := step_broadcastUpdate ha
    rw [announces, Bool.and_eq_true, decide_eq_true_eq] at hann
    exact ⟨p, metrics, hi, hann.1.symm⟩
  · exact absurd hkind Bool.false_ne_true

theorem answers_aggregateUpdates {p : PeerId}
    (h : answers p isAggregateUpdates ((machine cfg).event w.state i) = true) :
    w.state.roundState.trainingComplete = false ∧ i.report? = some (p, .aggregate .idle) := by
  rw [answers, Bool.and_eq_true, decide_eq_true_eq] at h
  obtain ⟨q, hi, hc, -⟩ := step_isAggregateUpdates (show (step cfg w.state i).2.any _ = true from h.2)
  obtain rfl : q = p := by simpa [reporter, hi] using h.1
  exact ⟨hc, hi⟩

theorem answers_broadcastUpdate {p : PeerId}
    (h : answers p isBroadcastUpdate ((machine cfg).event w.state i) = true) :
    ∃ metrics, i.report? = some (p, .aggregate (.aggregatedUpdates metrics)) ∧ primary w.state = some p := by
  rw [answers, Bool.and_eq_true, decide_eq_true_eq] at h
  obtain ⟨q, metrics, hi, hprim⟩ := step_isBroadcastUpdate (show (step cfg w.state i).2.any _ = true from h.2)
  obtain rfl : q = p := by simpa [reporter, hi] using h.1
  exact ⟨metrics, hi, hprim⟩

/-- A peer that advances the round in turn has its broadcast behind it. -/
theorem inTurn_advancing (hturn : inTurn ((machine cfg).event w.state i) w.history = true)
    (hadv : advancing ((machine cfg).event w.state i) = true) :
    ∃ p metrics, i.report? = some (p, .aggregate (.broadcastedUpdate metrics)) ∧ primary w.state = some p ∧
      unbroken p isBroadcastUpdate w.history = true := by
  obtain ⟨p, metrics, hi, hrec⟩ := report_of_advancing cfg w.state hadv
  simp only [inTurn, Machine.event_input, hi, Machine.event_pre, hrec, Bool.not_true, Bool.false_or,
    Bool.and_eq_true] at hturn
  exact ⟨p, metrics, hi, of_decide_eq_true hturn.1, hturn.2⟩

theorem inTurn_aggregatedUpdates (hturn : inTurn ((machine cfg).event w.state i) w.history = true) {p : PeerId}
    {metrics : Option MetricMap} (hi : i.report? = some (p, .aggregate (.aggregatedUpdates metrics)))
    (hp : primary w.state = some p) : unbroken p isAggregateUpdates w.history = true := by
  simp only [inTurn, Machine.event_input, hi, Machine.event_pre, hp] at hturn
  simpa using hturn

/-- The round trips stay known through a step in turn. -/
theorem roundTrips_next (hinv : RoundTrips w) (hturn : inTurn ((machine cfg).event w.state i) w.history = true) :
    RoundTrips ((machine cfg).next w i) := by
  refine ⟨?_, fun p hp => ?_, fun p hp => ?_⟩
  · cases hadv : advancing ((machine cfg).event w.state i) with
    | false =>
      obtain ⟨hr, hc, hu⟩ := round_of_not_advancing w.state hadv
      rw [Machine.next_state, show (machine cfg).step w.state i = step cfg w.state i from rfl, hr, hc, hu]
      exact hinv.bound
    | true =>
      obtain ⟨p, metrics, hi, -, hun⟩ := inTurn_advancing hturn hadv
      have hc := (hinv.broadcasting p hun).1
      have heff := (step_report cfg w.state hi).1
      rw [advancing_report cfg w.state hi] at hadv
      rw [Machine.next_state, show (machine cfg).step w.state i = step cfg w.state i from rfl, heff.round,
        heff.trainingComplete, heff.updateRounds, hadv, hc, if_pos rfl, Bool.false_or, Bool.true_and]
      intro hpos
      have hlt := (hinv.bound hpos).2 hc
      have hle := saturatingAdd_le w.state.roundState.round 1
      refine ⟨by omega, fun hn => ?_⟩
      have := of_decide_eq_false hn
      omega
  · rcases unbroken_next hturn hp with hans | ⟨hun, hadv⟩
    · obtain ⟨hc, hi⟩ := answers_aggregateUpdates hans
      have hadv : advancing ((machine cfg).event w.state i) = false := by
        rw [advancing_report cfg w.state hi]
        rfl
      refine ⟨(round_of_not_advancing w.state hadv).2.1.trans hc, _, ?_, hans⟩
      rw [Machine.next_history, currentRound_cons hadv]
      exact List.mem_cons_self
    · obtain ⟨hc, a, ha, hans⟩ := hinv.aggregating p hun
      refine ⟨(round_of_not_advancing w.state hadv).2.1.trans hc, a, ?_, hans⟩
      rw [Machine.next_history, currentRound_cons hadv]
      exact List.mem_cons_of_mem _ ha
  · rcases unbroken_next hturn hp with hans | ⟨hun, hadv⟩
    · obtain ⟨metrics, hi, hprim⟩ := answers_broadcastUpdate hans
      have hadv : advancing ((machine cfg).event w.state i) = false := by
        rw [advancing_report cfg w.state hi]
        rfl
      obtain ⟨hc, a, ha, haggr⟩ := hinv.aggregating p (inTurn_aggregatedUpdates hturn hi hprim)
      refine ⟨(round_of_not_advancing w.state hadv).2.1.trans hc, a, _, ?_, haggr, hans⟩
      rw [Machine.next_history, currentRound_cons hadv]
      exact (List.singleton_sublist.mpr ha).cons_cons _
    · obtain ⟨hc, a, b, hab, haggr, hbroad⟩ := hinv.broadcasting p hun
      refine ⟨(round_of_not_advancing w.state hadv).2.1.trans hc, a, b, ?_, haggr, hbroad⟩
      rw [Machine.next_history, currentRound_cons hadv]
      exact hab.cons _

theorem lawfulAdvance_next (hinv : RoundTrips w)
    (hturn : inTurn ((machine cfg).event w.state i) w.history = true) :
    LawfulAdvance ((machine cfg).event w.state i) w.history := by
  refine ⟨fun hround => ?_, fun hpos => ((roundTrips_next hinv hturn).bound hpos).1⟩
  cases hadv : advancing ((machine cfg).event w.state i) with
  | false => exact absurd (round_of_not_advancing w.state hadv).1 hround
  | true =>
    obtain ⟨p, metrics, hi, hprim, hun⟩ := inTurn_advancing hturn hadv
    obtain ⟨-, a, b, hab, haggr, hbroad⟩ := hinv.broadcasting p hun
    exact ⟨p, metrics, hi, hprim, a, b, hab, haggr, hbroad⟩

end Step

/-! ## Runs -/

/-- **Reports in turn advance the round lawfully**, in every run. -/
theorem lawfulAdvance_of_inTurn (job : Job) (workers servers : List (WorkerDescriptor PeerId))
    (inputs : List (Input PeerId))
    (hturn : Along (fun e h => inTurn e h = true) (run T job workers servers inputs).history) :
    Along LawfulAdvance (run T job workers servers inputs).history := by
  refine ((machine job.settings).along_of_invariant RoundTrips (fun e h => inTurn e h = true) LawfulAdvance ?_
    (fun w i hinv h => ⟨roundTrips_next hinv h, lawfulAdvance_next hinv h⟩) inputs hturn).2
  refine ⟨fun hpos => ⟨Nat.zero_le _, fun _ => hpos⟩, fun p hp => ?_, fun p hp => ?_⟩
  · exact absurd hp Bool.false_ne_true
  · exact absurd hp Bool.false_ne_true

/-- One round, with every report in turn. -/
theorem lawfulAdvance_one_round :
    Along LawfulAdvance (run RunningMean (smallJob 1 1 2) (joined [1]) (joined [9])
      (oneAggregate ++ [tellPs 9 (.broadcastedUpdate none)])).history :=
  lawfulAdvance_of_inTurn (smallJob 1 1 2) _ _ _ (by decide +kernel)

/-- A repeated `BroadcastedUpdate` carries the round past the target. -/
theorem lawfulAdvance_fails :
    ¬ Along LawfulAdvance (run RunningMean (smallJob 1 1 1) (joined [1]) (joined [9])
      (oneAggregate ++ [tellPs 9 (.broadcastedUpdate none), tellPs 9 (.broadcastedUpdate none)])).history := by
  intro h
  have hbound := h.1.bound
  exact absurd hbound (by decide +kernel)

end Hypha.Scheduler
