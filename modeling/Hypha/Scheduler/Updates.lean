import Hypha.Scheduler.Executor
import Hypha.Scheduler.Rounds

/-!
# Recorded updates

The primary parameter server aggregates by the updates recorded with it. An update is recorded when the worker reports
`SentUpdate`, with whoever is the primary then and for whatever round it is then; the round in the report is ignored.

* `Real` : every record stands for the last update its worker was told to send, in this round, to that parameter server;
* `MinimumSamples` : `AggregateUpdates` comes only after the target was reached in the same round;
* `real_of_timely`, `minimumSamples_of_prompt` : both hold if a `SentUpdate` arrives in the round of its `SendUpdate`
  (for the first: while its target is the primary) and no parameter server joins that leaves a record behind the
  primary's.
-/

namespace Hypha.Scheduler

open Hypha.Lib Hypha.Action

variable {PeerId T : Type} [LinearOrder PeerId] [RuntimeStatistic T]

/-- The target of a `SendUpdate` that a step issues to `w`. -/
def sendTarget (w : PeerId) (e : Step PeerId T) : Option (Reference PeerId) :=
  if reporter e = some w then
    match e.output with
    | some (.train (.sendUpdate r _)) => some r
    | _ => none
  else none

/-- The target of the last `SendUpdate` to `w`, if it was issued in the current round. -/
def lastTarget (w : PeerId) (h : List (Step PeerId T)) : Option (Reference PeerId) :=
  (currentRound h).findSome? (sendTarget w)

/-- Every recorded update went to that parameter server, in this round. -/
def Real (e : Step PeerId T) (h : List (Step PeerId T)) : Prop :=
  ∀ p w, w ∈ e.post.parameterPool.updatesOf p → lastTarget w (e :: h) = some (.peers [p] .one none)

/-- The counter has reached the target at some moment of the current round. -/
def reachedTarget (h : List (Step PeerId T)) : Bool :=
  (currentRound h).any fun e => decide (e.post.trainingState.updateTarget ≤ e.post.trainingState.counter)

/-- `AggregateUpdates` only after the target was reached in the same round. -/
def MinimumSamples (e : Step PeerId T) (h : List (Step PeerId T)) : Prop :=
  e.output.any isAggregateUpdates = true → reachedTarget (e :: h) = true

/-- Whether, once the servers have joined, only the primary has updates recorded with it. -/
def joinsBehind (s : SchedulerState PeerId T) (servers : List (WorkerDescriptor PeerId)) : Bool :=
  let ids := (joinMembers s.parameterPool.members servers).map (·.peerId)
  ids.all fun q => decide (ids.head? = some q) || decide (s.parameterPool.updatesOf q = ∅)

/-- Whether an update is recorded only if `G` holds of its worker, and no joining parameter server leaves a record behind
the primary's. -/
def recordedIf (G : SchedulerState PeerId T → PeerId → List (Step PeerId T) → Bool) (e : Step PeerId T)
    (h : List (Step PeerId T)) : Bool :=
  match e.input with
  | .report w status _ _ => !records e.pre status || G e.pre w h
  | .serversJoin servers => joinsBehind e.pre servers
  | _ => true

/-- Updates are recorded in the round of their `SendUpdate`, with the primary that it named. -/
def timely (e : Step PeerId T) (h : List (Step PeerId T)) : Bool :=
  recordedIf (fun s w h => (primary s).all fun p => decide (lastTarget w h = some (.peers [p] .one none))) e h

/-- Updates are recorded in the round of their `SendUpdate`. -/
def prompt (e : Step PeerId T) (h : List (Step PeerId T)) : Bool :=
  recordedIf (fun _ w h => (lastTarget w h).isSome) e h

/-! ## The pool of parameter servers -/

/-- Only the primary has updates recorded with it, apart from peers that are not members. -/
def PrimaryOnly (s : SchedulerState PeerId T) : Prop :=
  ∀ q ∈ s.parameterPool.ids, primary s ≠ some q → s.parameterPool.updatesOf q = ∅

/-- The first member stays the first one while others leave. -/
theorem head?_exitMembers {members : List (WorkerDescriptor PeerId)} {p q : PeerId}
    (hq : (members.map (·.peerId)).head? = some q) (hne : q ≠ p) :
    ((exitMembers members p).map (·.peerId)).head? = some q := by
  cases members with
  | nil => cases hq
  | cons d members =>
    obtain rfl : d.peerId = q := by simpa using hq
    simp [exitMembers, hne]

section Step
variable {cfg : Settings} {s : SchedulerState PeerId T} {i : Input PeerId} {h : List (Step PeerId T)}

theorem primaryOnly_step (hinv : PrimaryOnly s) (hjoin : ∀ servers, i = .serversJoin servers →
    joinsBehind s servers = true) : PrimaryOnly (step cfg s i).1 := by
  cases i with
  | report p status now clock =>
    have heff := schedule_effect cfg s clock now p cfg.id status
    intro q hq hne
    replace hq : q ∈ s.parameterPool.ids := by rw [← heff.serverIds]; exact hq
    replace hne : s.parameterPool.ids.head? ≠ some q := by rw [← heff.serverIds]; exact hne
    refine (heff.updatesOf q).trans ?_
    rw [if_pos hq, updatesAfter, if_neg hne]
    exact hinv q hq hne
  | workersJoin _ => exact hinv
  | workerExits _ => exact hinv
  | receiverCloses => exact hinv
  | serverExits p =>
    intro q hq hne
    obtain ⟨d, hd, rfl⟩ := List.mem_map.mp hq
    obtain ⟨hmem, hdp⟩ := List.mem_filter.mp hd
    refine hinv d.peerId (List.mem_map.mpr ⟨d, hmem, rfl⟩) fun hhead => hne ?_
    exact head?_exitMembers hhead (by simpa using hdp)
  | serversJoin servers =>
    intro q hq hne
    have hb := List.all_eq_true.mp (hjoin servers rfl) q hq
    rcases Bool.or_eq_true _ _ ▸ hb with hhead | hempty
    · exact absurd (of_decide_eq_true hhead) hne
    · exact of_decide_eq_true hempty

/-- What a `SendUpdate` to `w` rests on. -/
theorem sendsUpdate_of_sendTarget {w : PeerId} {r : Reference PeerId}
    (hr : sendTarget w ((machine cfg).event s i) = some r) :
    ∃ status weight, i.report? = some (w, status) ∧ SendsUpdate s w status r weight := by
  unfold sendTarget at hr
  split_ifs at hr with hrep
  split at hr
  · rename_i target weight hout
    obtain ⟨p, status, hi, hsend⟩ := step_sendUpdate (show (step cfg s i).2 = _ from hout)
    obtain rfl : p = w := by simpa [reporter, hi] using hrep
    obtain rfl := Option.some.inj hr
    exact ⟨status, weight, hi, hsend⟩
  · cases hr

theorem lastTarget_cons {e : Step PeerId T} (he : advancing e = false) (w : PeerId) :
    lastTarget w (e :: h) = (sendTarget w e).or (lastTarget w h) := by
  unfold lastTarget
  rw [currentRound_cons he, List.findSome?_cons]
  cases sendTarget w e <;> rfl

theorem lastTarget_cons_advancing {e : Step PeerId T} (he : advancing e = true) (w : PeerId) :
    lastTarget w (e :: h) = none := by
  unfold lastTarget
  rw [currentRound_cons_advancing he]
  rfl

/-- A worker whose update is recorded with the primary is not told to send it again. -/
theorem sendTarget_of_mem {q x : PeerId} (hq : primary s = some q) (hx : x ∈ s.parameterPool.updatesOf q) :
    sendTarget x ((machine cfg).event s i) = none := by
  by_contra hcon
  obtain ⟨r, hr⟩ := Option.ne_none_iff_exists'.mp hcon
  obtain ⟨status, weight, -, hsend⟩ := sendsUpdate_of_sendTarget hr
  have hrec := hsend.recorded
  rw [recorded, show s.parameterPool.ids.head? = some q from hq] at hrec
  simp [hx] at hrec

/-- A report that records an update is not answered with another `SendUpdate`. -/
theorem sendTarget_of_records {p x : PeerId} {status : ExecutorStatus} (hi : i.report? = some (p, status))
    (hrec : records s status = true) : sendTarget x ((machine cfg).event s i) = none := by
  by_contra hcon
  obtain ⟨r, hr⟩ := Option.ne_none_iff_exists'.mp hcon
  obtain ⟨status', weight, hi', hsend⟩ := sendsUpdate_of_sendTarget hr
  obtain ⟨rfl, rfl⟩ := Prod.mk.inj (Option.some.inj (hi.symm.trans hi'))
  rcases hsend.report with rfl | ⟨batchSize, batches, rfl⟩ <;> exact absurd hrec Bool.false_ne_true

/-- Where a record comes from: it was there before, or this step makes it with the primary. -/
theorem mem_updatesOf_step (hinv : PrimaryOnly s) {q x : PeerId}
    (hx : x ∈ (step cfg s i).1.parameterPool.updatesOf q) :
    advancing ((machine cfg).event s i) = false ∧ sendTarget x ((machine cfg).event s i) = none ∧
      (x ∈ s.parameterPool.updatesOf q ∨
        ∃ status, i.report? = some (x, status) ∧ records s status = true ∧ primary s = some q) := by
  cases hi : i.report? with
  | none =>
    rw [(step_environment cfg s hi).1.updatesOf] at hx
    exact ⟨by simp [advancing, statusOf, hi], by simp [sendTarget, reporter, hi], Or.inl hx⟩
  | some report =>
    obtain ⟨p, status⟩ := report
    have heff := (step_report cfg s hi).1
    rw [heff.updatesOf] at hx
    split_ifs at hx with hq
    · by_cases hhead : s.parameterPool.ids.head? = some q
      · rw [updatesAfter, if_pos hhead] at hx
        split_ifs at hx with hadv hrec
        · exact absurd hx (Finset.notMem_empty x)
        · have hadv' : advancing ((machine cfg).event s i) = false := by
            rw [advancing_report cfg s hi]
            exact Bool.not_eq_true _ ▸ hadv
          rcases Finset.mem_insert.mp hx with rfl | hx
          · exact ⟨hadv', sendTarget_of_records hi hrec, Or.inr ⟨status, rfl, hrec, hhead⟩⟩
          · exact ⟨hadv', sendTarget_of_mem hhead hx, Or.inl hx⟩
        · have hadv' : advancing ((machine cfg).event s i) = false := by
            rw [advancing_report cfg s hi]
            exact Bool.not_eq_true _ ▸ hadv
          exact ⟨hadv', sendTarget_of_mem hhead hx, Or.inl hx⟩
      · rw [updatesAfter, if_neg hhead, hinv q hq hhead] at hx
        exact absurd hx (Finset.notMem_empty x)
    · exact absurd hx (Finset.notMem_empty x)

theorem recordedIf_report {G : SchedulerState PeerId T → PeerId → List (Step PeerId T) → Bool}
    (hG : recordedIf G ((machine cfg).event s i) h = true) {x : PeerId} {status : ExecutorStatus}
    (hi : i.report? = some (x, status)) (hrec : records s status = true) : G s x h = true := by
  cases i with
  | report p st now clock =>
    obtain ⟨rfl, rfl⟩ := Prod.mk.inj (Option.some.inj hi)
    simpa [recordedIf, hrec] using hG
  | workersJoin _ => cases hi
  | workerExits _ => cases hi
  | serversJoin _ => cases hi
  | serverExits _ => cases hi
  | receiverCloses => cases hi

theorem recordedIf_joins {G : SchedulerState PeerId T → PeerId → List (Step PeerId T) → Bool}
    (hG : recordedIf G ((machine cfg).event s i) h = true) :
    ∀ servers, i = .serversJoin servers → joinsBehind s servers = true := by
  rintro servers rfl
  exact hG

end Step

/-! ## Recorded updates are real -/

/-- Every record is real, and the primary has all of them. -/
structure RealRecords (w : Trace PeerId T) : Prop where
  primaryOnly : PrimaryOnly w.state
  real : ∀ p x, x ∈ w.state.parameterPool.updatesOf p → lastTarget x w.history = some (.peers [p] .one none)

section Real
variable {cfg : Settings} {w : Trace PeerId T} {i : Input PeerId}

theorem realRecords_next (hinv : RealRecords w) (ht : timely ((machine cfg).event w.state i) w.history = true) :
    RealRecords ((machine cfg).next w i) := by
  refine ⟨primaryOnly_step hinv.primaryOnly (recordedIf_joins ht), fun p x hx => ?_⟩
  obtain ⟨hadv, hsend, hold | ⟨status, hi, hrec, hq⟩⟩ := mem_updatesOf_step hinv.primaryOnly hx
  · rw [Machine.next_history, lastTarget_cons hadv, hsend]
    exact hinv.real p x hold
  · rw [Machine.next_history, lastTarget_cons hadv, hsend]
    have htarget := recordedIf_report ht hi hrec
    rw [hq, Option.all_some, decide_eq_true_eq] at htarget
    exact htarget

end Real

/-- **Recorded updates are real** in every run whose records are timely. -/
theorem real_of_timely (job : Job) (workers servers : List (WorkerDescriptor PeerId)) (inputs : List (Input PeerId))
    (ht : Along (fun e h => timely e h = true) (run T job workers servers inputs).history) :
    Along Real (run T job workers servers inputs).history := by
  refine ((machine job.settings).along_of_invariant RealRecords (fun e h => timely e h = true) Real ⟨?_, ?_⟩
    (fun w i hinv h => ?_) inputs ht).2
  · exact fun _ _ _ => rfl
  · exact fun _ x hx => absurd hx (Finset.notMem_empty x)
  · have hnext := realRecords_next hinv h
    exact ⟨hnext, hnext.real⟩

/-- An update that is recorded, aggregated and cleared in its own round. -/
theorem real_one_round :
    Along Real (run RunningMean (smallJob 1 1 2) (joined [1]) (joined [9])
      [tell 1 .joined, tell 1 .idle, tell 1 (.batchCompleted 1 1), tell 1 (.sentUpdate 1 []), .serversJoin [⟨8, {}, 5⟩],
        tellPs 9 .idle, tellPs 9 (.aggregatedUpdates none), tellPs 9 (.broadcastedUpdate none)]).history :=
  real_of_timely (smallJob 1 1 2) _ _ _ (by decide +kernel)

/-- The quorum leaves the update of worker 2 behind: its report arrives in the next round. -/
def straggler : List (Input Nat) :=
  twoWorkers ++ [tellPs 9 .idle, tellPs 9 (.aggregatedUpdates none), tellPs 9 (.broadcastedUpdate none),
    tell 2 (.sentUpdate 1 [])]

/-- An update that the quorum left behind is recorded in the next round. -/
theorem real_fails :
    ¬ Along Real (run RunningMean (smallJob 1 2 3) (joined [1, 2]) (joined [9]) straggler).history := by
  intro h
  exact absurd (h.1 9 2 (by decide +kernel)) (by decide +kernel)

/-! ## The minimum of samples -/

/-- Whatever makes the primary aggregate comes after the target was reached. -/
structure Justified (w : Trace PeerId T) : Prop where
  primaryOnly : PrimaryOnly w.state
  recorded : ∀ q x, x ∈ w.state.parameterPool.updatesOf q → reachedTarget w.history = true
  timed : w.state.roundState.firstUpdateAt.isSome = true → reachedTarget w.history = true
  told : ∀ x, (lastTarget x w.history).isSome = true → reachedTarget w.history = true

section Minimum
variable {cfg : Settings} {w : Trace PeerId T} {i : Input PeerId}

theorem reachedTarget_cons {e : Step PeerId T} {h : List (Step PeerId T)} (he : advancing e = false)
    (hr : reachedTarget h = true) : reachedTarget (e :: h) = true := by
  unfold reachedTarget at hr ⊢
  rw [currentRound_cons he, List.any_cons, hr, Bool.or_true]

/-- A `SendUpdate` is issued at a moment at which the target is reached. -/
theorem reachedTarget_of_sendTarget {x : PeerId} {r : Reference PeerId}
    (hr : sendTarget x ((machine cfg).event w.state i) = some r) :
    reachedTarget ((machine cfg).event w.state i :: w.history) = true := by
  obtain ⟨status, weight, hi, hsend⟩ := sendsUpdate_of_sendTarget hr
  have heff := (step_report cfg w.state hi).1
  have hadv : advances w.state status = false := by
    rcases hsend.report with rfl | ⟨batchSize, batches, rfl⟩ <;> rfl
  have hcount := heff.counter
  rw [hadv] at hcount
  have hreach : (step cfg w.state i).1.trainingState.updateTarget ≤ (step cfg w.state i).1.trainingState.counter := by
    rw [heff.updateTarget, hcount]
    exact hsend.updateTarget
  unfold reachedTarget
  rw [currentRound_cons (by rw [advancing_report cfg w.state hi]; exact hadv), List.any_cons,
    show decide (((machine cfg).event w.state i).post.trainingState.updateTarget ≤
      ((machine cfg).event w.state i).post.trainingState.counter) = true from decide_eq_true hreach, Bool.true_or]

theorem justified_next (hinv : Justified w) (hp : prompt ((machine cfg).event w.state i) w.history = true) :
    Justified ((machine cfg).next w i) := by
  refine ⟨primaryOnly_step hinv.primaryOnly (recordedIf_joins hp), fun q x hx => ?_, fun hfirst => ?_, fun x hx => ?_⟩
  · obtain ⟨hadv, -, hold | ⟨status, hi, hrec, -⟩⟩ := mem_updatesOf_step hinv.primaryOnly hx
    · exact reachedTarget_cons hadv (hinv.recorded q x hold)
    · exact reachedTarget_cons hadv (hinv.told x (recordedIf_report hp hi hrec))
  · cases hi : i.report? with
    | none =>
      have hround := (step_environment cfg w.state hi).1.roundState
      refine reachedTarget_cons (by simp [advancing, statusOf, hi]) (hinv.timed ?_)
      rw [← hround]
      exact hfirst
    | some report =>
      obtain ⟨p, status⟩ := report
      have hflag := (step_report cfg w.state hi).1.firstUpdateAt
      rw [show (step cfg w.state i).1.roundState.firstUpdateAt.isSome = true from hfirst, eq_comm, Bool.and_eq_true,
        Bool.not_eq_true', Bool.or_eq_true] at hflag
      refine reachedTarget_cons (by rw [advancing_report cfg w.state hi]; exact hflag.1) ?_
      rcases hflag.2 with hrec | hsome
      · exact hinv.told p (recordedIf_report hp hi hrec)
      · exact hinv.timed hsome
  · rw [Machine.next_history] at hx
    cases hadv : advancing ((machine cfg).event w.state i) with
    | true => simp [lastTarget_cons_advancing hadv] at hx
    | false =>
      rw [lastTarget_cons hadv] at hx
      cases hr : sendTarget x ((machine cfg).event w.state i) with
      | none =>
        rw [hr] at hx
        exact reachedTarget_cons hadv (hinv.told x hx)
      | some r => exact reachedTarget_of_sendTarget hr

theorem minimumSamples_next (hinv : Justified w) : MinimumSamples ((machine cfg).event w.state i) w.history := by
  intro hout
  obtain ⟨p, hi, -, -, hready⟩ := step_isAggregateUpdates (show (step cfg w.state i).2.any _ = true from hout)
  refine reachedTarget_cons (by rw [advancing_report cfg w.state hi]; rfl) ?_
  rcases hready with ⟨x, hx⟩ | hfirst
  · exact hinv.recorded p x hx
  · exact hinv.timed hfirst

end Minimum

/-- **The minimum of samples** holds in every run whose records are prompt. -/
theorem minimumSamples_of_prompt (job : Job) (workers servers : List (WorkerDescriptor PeerId))
    (inputs : List (Input PeerId))
    (hp : Along (fun e h => prompt e h = true) (run T job workers servers inputs).history) :
    Along MinimumSamples (run T job workers servers inputs).history := by
  refine ((machine job.settings).along_of_invariant Justified (fun e h => prompt e h = true) MinimumSamples
    ⟨?_, ?_, ?_, ?_⟩ (fun w i hinv h => ⟨justified_next hinv h, minimumSamples_next hinv⟩) inputs hp).2
  · exact fun _ _ _ => rfl
  · exact fun _ x hx => absurd hx (Finset.notMem_empty x)
  · exact fun hfirst => absurd hfirst Bool.false_ne_true
  · exact fun _ hx => absurd hx Bool.false_ne_true

/-- Two workers reach the target together, and their updates are aggregated. -/
theorem minimumSamples_one_round :
    Along MinimumSamples (run RunningMean (smallJob 1 2 3) (joined [1, 2]) (joined [9])
      (twoWorkers ++ [tell 2 (.sentUpdate 1 []), tellPs 9 .idle])).history :=
  minimumSamples_of_prompt (smallJob 1 2 3) _ _ _ (by decide +kernel)

/-- The report of an update that the quorum left behind starts the aggregation of a round without samples. -/
theorem minimumSamples_fails :
    Along (fun e h => wellBehaved e h = true) (run RunningMean (smallJob 1 2 3) (joined [1, 2]) (joined [9])
      (straggler ++ [tellPs 9 .idle])).history ∧
    ¬ Along MinimumSamples (run RunningMean (smallJob 1 2 3) (joined [1, 2]) (joined [9])
      (straggler ++ [tellPs 9 .idle])).history := by
  refine ⟨by decide +kernel, fun h => ?_⟩
  exact absurd (h.1 (by decide +kernel)) (by decide +kernel)

end Hypha.Scheduler
