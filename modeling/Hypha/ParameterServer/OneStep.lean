import Hypha.ParameterServer.Cluster
import Hypha.Scheduler.Effect

/-!
# One outer step per round

An aggregation updates the momentum file and leaves a gradient that is still to be broadcast. Only the broadcast and the
report of it end the round; until then the parameter server must not be told to aggregate again.

* `stepped` : whether the momentum was updated since the round last advanced;
* `lapses` : the moves after which the two sides disagree about how far the round is;
* `Expects` : what the exchange that the parameter server waits for may be like, `expects_run` : as the handler runs;
* `Engaged` : the invariant;
* `one_outer_step` : without lapses, the momentum is updated once per round and no gradient is lost;
* `stepped_twice` : with one it is not so.
-/

namespace Hypha.ParameterServer

open Hypha.Lib Hypha.Action Hypha.Scheduler

set_option linter.unusedSectionVars false

variable {PeerId T : Type} [LinearOrder PeerId] [RuntimeStatistic T]

/-! ## Rounds and lapses -/

/-- Whether the momentum file is updated in a step. -/
def updatesMomentum (e : ClusterStep PeerId T) : Bool :=
  decide (e.pre.executor.momentum.length < e.post.executor.momentum.length)

/-- Whether the momentum file was updated since the round last advanced. -/
def stepped : List (ClusterStep PeerId T) → Bool
  | [] => false
  | e :: h => updatesMomentum e || (!advances e && stepped h)

/-- What the parameter server hears in a step. -/
def heard (cfg : Settings) (e : ClusterStep PeerId T) : Option (ExecutorAction PeerId) :=
  match e.input, e.pre.executor.phase with
  | .hears, .awaiting _ i => (e.pre.exchanges[i]?).bind (Exchange.answer? cfg)
  | _, _ => none

/-- Whether a step drops the thread of a round: a request is given up, a broadcast fails, or the report of an aggregate
is handled while the parameter server is not the primary or the worker pool is empty. -/
def lapses (ps : PeerId) (e : ClusterStep PeerId T) : Bool :=
  match e.input, e.pre.executor.phase with
  | .acts (.fails _), .awaiting attempts _ => decide (maxAttempts ≤ attempts + 1)
  | .acts (.broadcasts (some _)), .broadcasting => true
  | .runs i _ _, .awaiting _ j =>
    match e.pre.exchanges[i]?.map Exchange.handler with
    | some (.pending (_, ⟨_, .aggregate (.aggregatedUpdates _)⟩)) =>
      decide (i = j) && !(decide (e.pre.scheduler.parameterPool.ids.head? = some ps) &&
        !e.pre.scheduler.workerPool.ids.isEmpty)
    | _ => false
  | _, _ => false

/-- Nothing lapses between an aggregation and the end of its round. -/
def Smooth (ps : PeerId) (e : ClusterStep PeerId T) (h : List (ClusterStep PeerId T)) : Prop :=
  e.pre.executor.pendingUpdate.isSome = true ∨ stepped h = true → lapses ps e = false

instance instDecidableSmooth (ps : PeerId) (e : ClusterStep PeerId T) (h : List (ClusterStep PeerId T)) :
    Decidable (Smooth ps e h) := inferInstanceAs (Decidable (_ → _))

/-- What one outer step per round asks of a step: the parameter server is told to aggregate only when it holds no
aggregate, the momentum is updated only if it was not in this round, and an aggregate goes only when it was broadcast. -/
structure OneOuterStep (cfg : Settings) (e : ClusterStep PeerId T) (h : List (ClusterStep PeerId T)) : Prop where
  told : ∀ source, heard cfg e = some (.aggregate (.aggregateUpdates source)) → e.pre.executor.pendingUpdate = none
  momentum : updatesMomentum e = true → stepped h = false
  kept : ∀ gradient, e.pre.executor.pendingUpdate = some gradient → e.post.executor.pendingUpdate = some gradient ∨
    e.post.executor.pendingUpdate = none ∧ e.input = .acts (.broadcasts none)

/-! ## The exchange that the parameter server waits for -/

/-- The points at which a handler of `BroadcastedUpdate` has not advanced the round. -/
def beforeAdvance : Await PeerId → Bool
  | .broadcastedTraining _ | .broadcastedRound _ _ | .broadcastedSend _ | .broadcastedRound' | .done (.error _) => true
  | _ => false

/-- The reports that a round ends with. -/
inductive Closing : AggregateStatus → Prop where
  | aggregated (metrics : Option MetricMap) : Closing (.aggregatedUpdates metrics)
  | broadcasted (metrics : Option MetricMap) : Closing (.broadcastedUpdate metrics)
  | failed (message : String) : Closing (.error (.other message))

/-- What the handler of such a report may be like. The flag says that the round has not advanced yet. -/
inductive Expects (cfg : Settings) (ps : PeerId) : Bool → AggregateStatus → Handler PeerId → Prop where
  | sent {b : Bool} (status : AggregateStatus) : Expects cfg ps b status (.pending (ps, ⟨cfg.id, .aggregate status⟩))
  | aggregated {b : Bool} (metrics : Option MetricMap) (ctx : Context PeerId) (workers : List PeerId) :
      Expects cfg ps b (.aggregatedUpdates metrics) (.suspended ctx (.aggregatedRound workers))
  | broadcast {b : Bool} (metrics : Option MetricMap) (ctx : Context PeerId) (jobId : Uuid) (workers : List PeerId) :
      Expects cfg ps b (.aggregatedUpdates metrics)
        (.suspended ctx (.done (.ok ⟨jobId, .aggregate (.broadcastUpdate (.peers workers .all none))⟩)))
  | broadcasted {b : Bool} (metrics : Option MetricMap) (ctx : Context PeerId) {k : Await PeerId}
      (hk : beforeAdvance k = true) : Expects cfg ps b (.broadcastedUpdate metrics) (.suspended ctx k)
  | advanced (metrics : Option MetricMap) (ctx : Context PeerId) (k : Await PeerId) :
      Expects cfg ps false (.broadcastedUpdate metrics) (.suspended ctx k)
  | failed {b : Bool} (message : String) (ctx : Context PeerId) :
      Expects cfg ps b (.error (.other message)) (.suspended ctx (.aggregateErrorRound .terminate))
  | terminated {b : Bool} (message : String) (ctx : Context PeerId) (jobId : Uuid) :
      Expects cfg ps b (.error (.other message)) (.suspended ctx (.done (.ok ⟨jobId, .aggregate .terminate⟩)))

/-- A handler that has not advanced the round stays so, unless it does. -/
theorem beforeAdvance_resume (cfg : Settings) (ctx : Context PeerId) (s : SchedulerState PeerId T) (t : Instant)
    {k : Await PeerId} (hk : beforeAdvance k = true) (hround : k ≠ .broadcastedRound') :
    beforeAdvance (resume cfg ctx s t k).2 = true := by
  cases k with
  | broadcastedSend message =>
    simp only [resume, broadcastedSend, sendMetrics]
    split_ifs <;> rfl
  | broadcastedRound' => exact absurd rfl hround
  | broadcastedTraining _ => rfl
  | broadcastedRound _ _ => rfl
  | done result => exact hk
  | _ => cases hk

/-- The report of an aggregate by the primary, when there are workers. -/
theorem aggregatedUpdates_primary (ctx : Context PeerId) (s : SchedulerState PeerId T)
    (hprimary : ctx.primaryPs = some ctx.peerId) (hworkers : s.workerPool.ids ≠ []) :
    (aggregatedUpdates ctx s).2 = .aggregatedRound s.workerPool.ids := by
  have hids : s.workerPool.info.2.map (·.peerId) = s.workerPool.ids := PoolWithTrainInfo.ids_snapshot _
  unfold aggregatedUpdates
  dsimp only
  rw [if_neg (by rw [hprimary]; simp), hids, if_neg (by simpa using hworkers)]

/-- The handler of a report runs. If it reports an aggregate it must start while the parameter server is the primary and
the worker pool is not empty. -/
theorem expects_run {cfg : Settings} {ps : PeerId} {b : Bool} {status : AggregateStatus} {k : Handler PeerId}
    (hk : Expects cfg ps b status k) (hstatus : Closing status) (s : SchedulerState PeerId T) (t : Instant)
    (now : SystemTime)
    (hstart : ∀ request metrics, k = .pending request → status = .aggregatedUpdates metrics →
      s.parameterPool.ids.head? = some ps ∧ s.workerPool.ids ≠ [])
    (running : k.ended = false) :
    Expects cfg ps (b && !isAdvancing k) status (k.run cfg s t now).2 := by
  cases hk with
  | sent =>
    cases hstatus with
    | aggregated metrics =>
      obtain ⟨hprimary, hworkers⟩ := hstart _ metrics rfl rfl
      have hround := aggregatedUpdates_primary (context cfg s t now ps cfg.id)
        { s with parameterPool := s.parameterPool.info.1.info.1 }
        ((context_primaryPs cfg s now ps cfg.id t).trans hprimary) hworkers
      have hrun : ((Handler.pending (ps, ⟨cfg.id, .aggregate (.aggregatedUpdates metrics)⟩)).run cfg s t now).2 =
          .suspended (context cfg s t now ps cfg.id) (.aggregatedRound s.workerPool.ids) :=
        congrArg (Handler.suspended _) hround
      rw [hrun]
      exact .aggregated _ _ _
    | broadcasted metrics => exact .broadcasted _ _ rfl
    | failed message => exact .failed _ _
  | aggregated metrics ctx workers => exact .broadcast _ _ _ _
  | broadcast => cases running
  | @broadcasted _ metrics ctx k hk =>
    by_cases hround : k = .broadcastedRound'
    · subst hround
      rw [show (b && !isAdvancing (Handler.suspended ctx .broadcastedRound')) = false from Bool.and_false b]
      exact .advanced _ _ _
    · exact .broadcasted _ _ (beforeAdvance_resume cfg ctx s t hk hround)
  | advanced metrics ctx k => exact .advanced _ _ _
  | failed message ctx => exact .terminated _ _ _
  | terminated => cases running

theorem Expects.request_eq {cfg : Settings} {ps : PeerId} {b : Bool} {status : AggregateStatus}
    {request : PeerId × ActionRequest} (h : Expects cfg ps b status (.pending request)) :
    request = (ps, ⟨cfg.id, .aggregate status⟩) := by
  cases h
  rfl

/-- A round that advances meanwhile does no harm. -/
theorem Expects.and {cfg : Settings} {ps : PeerId} {b : Bool} {status : AggregateStatus} {k : Handler PeerId}
    (hk : Expects cfg ps b status k) (d : Bool) : Expects cfg ps (b && d) status k := by
  cases hk with
  | sent => exact .sent _
  | aggregated metrics ctx workers => exact .aggregated _ _ _
  | broadcast metrics ctx jobId workers => exact .broadcast _ _ _ _
  | broadcasted metrics ctx hk => exact .broadcasted _ _ hk
  | advanced metrics ctx k => exact .advanced _ _ _
  | failed message ctx => exact .failed _ _
  | terminated message ctx jobId => exact .terminated _ _ _

/-- What the parameter server hears of such an exchange. -/
theorem expects_answer {cfg : Settings} {ps : PeerId} {b : Bool} {status : AggregateStatus} {x : Exchange PeerId}
    {action : ExecutorAction PeerId} (hx : Expects cfg ps b status x.handler) (ha : x.answer? cfg = some action) :
    (∃ metrics workers, status = .aggregatedUpdates metrics ∧
        action = .aggregate (.broadcastUpdate (.peers workers .all none))) ∨
      (∃ metrics, status = .broadcastedUpdate metrics ∧ (b = false ∨ action = .train .terminate)) ∨
      ∃ message, status = .error (.other message) ∧ action = .aggregate .terminate := by
  obtain ⟨request, handler⟩ := x
  cases hx with
  | sent => cases ha
  | aggregated => cases ha
  | broadcast metrics ctx jobId workers => exact Or.inl ⟨metrics, workers, rfl, (Option.some.inj ha).symm⟩
  | @broadcasted _ metrics ctx k hk =>
    refine Or.inr (Or.inl ⟨metrics, rfl, Or.inr ?_⟩)
    cases k with
    | done result =>
      cases result with
      | error err => exact (Option.some.inj ha).symm
      | ok response => cases hk
    | _ => cases ha
  | advanced metrics ctx k => exact Or.inr (Or.inl ⟨metrics, rfl, Or.inl rfl⟩)
  | failed => cases ha
  | terminated message ctx jobId => exact Or.inr (Or.inr ⟨message, rfl, (Option.some.inj ha).symm⟩)

/-! ## The invariant -/

/-- The parameter server holds an aggregate exactly when it has one to report. -/
def Executor.Holds (e : Executor PeerId Nat) : Prop :=
  e.pendingUpdate.isSome = true ↔ ∃ metrics, e.currentStatus = .aggregatedUpdates metrics

/-- **The invariant** between an aggregation and the end of its round: the parameter server has stopped, or broadcasts,
or is about to report how far it is, or waits for the answer to such a report. -/
inductive Engaged (cfg : Settings) (ps : PeerId) (c : Cluster PeerId T) (b : Bool) : Prop where
  | stopped (phase : c.executor.phase = .stopped)
  | broadcasting (phase : c.executor.phase = .broadcasting) (pending : c.executor.pendingUpdate.isSome = true)
  | requesting (attempts : Nat) (phase : c.executor.phase = .requesting attempts)
      (closing : Closing c.executor.currentStatus) (holds : c.executor.Holds)
  | awaiting (attempts i : Nat) (x : Exchange PeerId) (phase : c.executor.phase = .awaiting attempts i)
      (closing : Closing c.executor.currentStatus) (holds : c.executor.Holds) (exchange : c.exchanges[i]? = some x)
      (expects : Expects cfg ps b c.executor.currentStatus x.handler)

section Steps
variable {cfg : Settings} {ps : PeerId} {c c' : Cluster PeerId T} {b : Bool}

/-- Steps that leave the loop of the parameter server and the exchange it waits for alone. -/
theorem Engaged.of_eq (h : Engaged cfg ps c b) (hphase : c'.executor.phase = c.executor.phase)
    (hstatus : c'.executor.currentStatus = c.executor.currentStatus)
    (hpending : c'.executor.pendingUpdate = c.executor.pendingUpdate)
    (hexchanges : ∀ (i : Nat) x, c.exchanges[i]? = some x → c'.exchanges[i]? = some x) : Engaged cfg ps c' b := by
  have hholds : c.executor.Holds → c'.executor.Holds := by
    unfold Executor.Holds
    rw [hstatus, hpending]
    exact id
  cases h with
  | stopped phase => exact .stopped (hphase.trans phase)
  | broadcasting phase pending => exact .broadcasting (hphase.trans phase) (hpending ▸ pending)
  | requesting attempts phase closing holds =>
    exact .requesting attempts (hphase.trans phase) (hstatus ▸ closing) (hholds holds)
  | awaiting attempts i x phase closing holds exchange expects =>
    exact .awaiting attempts i x (hphase.trans phase) (hstatus ▸ closing) (hholds holds) (hexchanges i x exchange)
      (hstatus ▸ expects)

/-- Meanwhile the parameter server neither sleeps nor aggregates. -/
theorem Engaged.busy (h : Engaged cfg ps c b) :
    c.executor.phase ≠ .idling ∧ ∀ i allowed used, c.executor.phase ≠ .aggregating i allowed used := by
  cases h with
  | stopped phase => simp [phase]
  | broadcasting phase pending => simp [phase]
  | requesting attempts phase closing holds => simp [phase]
  | awaiting attempts i x phase closing holds exchange expects => simp [phase]

/-- A handler runs. -/
theorem Engaged.runs (h : Engaged cfg ps c b) {i : Nat} {t : Instant} {now : SystemTime}
    (hstep : c.step cfg ps (.runs i t now) = some c') (hlapse : lapses ps ⟨c, .runs i t now, true, c'⟩ = false) :
    Engaged cfg ps c' (b && !advances ⟨c, .runs i t now, true, c'⟩) := by
  cases steps_of_step hstep with
  | runs _ _ _ x hx hrun =>
    have hadvances : ∀ c', advances (⟨c, .runs i t now, true, c'⟩ : ClusterStep PeerId T) = isAdvancing x.handler := by
      intro c'
      simp [advances, hx]
    rw [hadvances]
    cases h with
    | stopped phase => exact .stopped phase
    | broadcasting phase pending => exact .broadcasting phase pending
    | requesting attempts phase closing holds => exact .requesting attempts phase closing holds
    | awaiting attempts j y phase closing holds exchange expects =>
      by_cases hij : i = j
      · subst hij
        obtain rfl : x = y := Option.some.inj (hx.symm.trans exchange)
        refine .awaiting attempts i { x with handler := (x.handler.run cfg c.scheduler t now).2 } phase closing
          holds ?_ ?_
        · dsimp only
          rw [List.getElem?_set_self (List.getElem?_eq_some_iff.mp hx).1]
        · refine expects_run expects closing c.scheduler t now ?_ (not_ended_of_mayRun hrun)
          intro request metrics hpending hstatus
          rw [hpending] at expects
          rw [expects.request_eq] at hpending
          simp only [lapses, phase, hx, Option.map_some, hpending, hstatus] at hlapse
          simpa using hlapse
      · refine .awaiting attempts j y phase closing holds ?_ (expects.and _)
        dsimp only
        rw [List.getElem?_set_ne hij]
        exact exchange

/-- The parameter server makes a request. -/
theorem Engaged.asks (h : Engaged cfg ps c b) (hstep : c.step cfg ps .asks = some c') : Engaged cfg ps c' b := by
  cases steps_of_step hstep with
  | asks attempts hphase =>
    cases h with
    | stopped phase => cases hphase.symm.trans phase
    | broadcasting phase pending => cases hphase.symm.trans phase
    | requesting attempts' phase closing holds =>
      refine .awaiting attempts c.exchanges.length (.sent (ps, ⟨cfg.id, .aggregate c.executor.currentStatus⟩)) rfl
        closing holds ?_ (.sent _)
      dsimp only
      rw [List.getElem?_append_right (Nat.le_refl _), Nat.sub_self]
      rfl
    | awaiting attempts' i x phase closing holds exchange expects => cases hphase.symm.trans phase

/-- It hears the answer, which is not to aggregate. -/
theorem Engaged.hears (h : Engaged cfg ps c b) (hopen : c.executor.pendingUpdate.isSome = true ∨ b = true)
    (hstep : c.step cfg ps .hears = some c') :
    Engaged cfg ps c' b ∧ ∀ source, heard cfg ⟨c, .hears, true, c'⟩ ≠ some (.aggregate (.aggregateUpdates source)) := by
  cases steps_of_step hstep with
  | hears attempts i x action hphase hx hanswer =>
    have hheard : ∀ c', heard cfg (⟨c, .hears, true, c'⟩ : ClusterStep PeerId T) = some action := by
      intro c'
      simp only [heard, hphase, hx, Option.bind_some, hanswer]
    cases h with
    | stopped phase => cases hphase.symm.trans phase
    | broadcasting phase pending => cases hphase.symm.trans phase
    | requesting attempts' phase closing holds => cases hphase.symm.trans phase
    | awaiting attempts' j y phase closing holds exchange expects =>
      cases hphase.symm.trans phase
      obtain rfl : x = y := Option.some.inj (hx.symm.trans exchange)
      rcases expects_answer expects hanswer with ⟨metrics, workers, hstatus, rfl⟩ | ⟨metrics, hstatus, hb⟩ |
        ⟨message, hstatus, rfl⟩
      · obtain ⟨gradient, hgradient⟩ := Option.isSome_iff_exists.mp (holds.mpr ⟨metrics, hstatus⟩)
        refine ⟨.broadcasting ?_ ?_, fun source hsource => ?_⟩
        · simp only [Executor.respondTo, hgradient, sendPeers]
        · simp only [Executor.respondTo, hgradient, sendPeers, Option.isSome_some]
        · rw [hheard] at hsource
          cases hsource
      · -- nothing is held, so the round has not advanced: the handler has failed before it could
        have hnone : ¬c.executor.pendingUpdate.isSome = true := by
          intro hsome
          obtain ⟨metrics', haggregated⟩ := holds.mp hsome
          cases hstatus.symm.trans haggregated
        obtain rfl : action = .train .terminate := by
          rcases hb with rfl | haction
          · exact absurd hopen (by simpa using hnone)
          · exact haction
        refine ⟨.requesting 0 rfl (.failed _) ⟨fun hsome => absurd hsome hnone, ?_⟩, fun source hsource => ?_⟩
        · rintro ⟨metrics', haggregated⟩
          cases haggregated
        · rw [hheard] at hsource
          cases hsource
      · refine ⟨.stopped rfl, fun source hsource => ?_⟩
        rw [hheard] at hsource
        cases hsource

/-- The parameter server acts on its own. -/
theorem Engaged.acts (h : Engaged cfg ps c b) {act : Act PeerId Nat} (hstep : c.step cfg ps (.acts act) = some c')
    (hlapse : lapses ps ⟨c, .acts act, true, c'⟩ = false) :
    Engaged cfg ps c' b ∧ c'.executor.momentum = c.executor.momentum ∧
      (c'.executor.pendingUpdate = c.executor.pendingUpdate ∨
        c'.executor.pendingUpdate = none ∧ act = .broadcasts none) := by
  cases steps_of_step hstep with
  | acts _ executor hown hexecutor =>
    cases act with
    | asks exchange => cases hown
    | hears action => cases hown
    | receives p file => cases hown
    | cancels =>
      cases hexecutor
      exact ⟨.stopped rfl, rfl, Or.inl rfl⟩
    | fails message =>
      simp only [Executor.step] at hexecutor
      split at hexecutor
      · next attempts i hphase =>
        cases hexecutor
        cases h with
        | stopped phase => cases hphase.symm.trans phase
        | broadcasting phase pending => cases hphase.symm.trans phase
        | requesting attempts' phase closing holds => cases hphase.symm.trans phase
        | awaiting attempts' j y phase closing holds exchange expects =>
          have hmore : attempts + 1 < maxAttempts := by
            simp only [lapses, hphase, decide_eq_false_iff_not] at hlapse
            omega
          unfold Executor.attemptFails
          rw [if_pos hmore]
          exact ⟨.requesting (attempts + 1) rfl closing holds, rfl, Or.inl rfl⟩
      · cases hexecutor
    | wakes =>
      simp only [Executor.step] at hexecutor
      split at hexecutor
      · next hphase => exact absurd hphase h.busy.1
      · cases hexecutor
    | picks p =>
      simp only [Executor.step, Executor.pick] at hexecutor
      split at hexecutor
      · next hphase => exact absurd hphase (h.busy.2 _ _ _)
      · cases hexecutor
    | aggregates result =>
      simp only [Executor.step, Executor.aggregated] at hexecutor
      split at hexecutor
      · next hphase => exact absurd hphase (h.busy.2 _ _ _)
      · cases hexecutor
    | broadcasts error =>
      simp only [Executor.step, Executor.broadcasted] at hexecutor
      split at hexecutor
      · next hphase =>
        cases error with
        | none =>
          cases hexecutor
          refine ⟨.requesting 0 rfl (.broadcasted none) ⟨fun hsome => (by cases hsome), ?_⟩, rfl, Or.inr ⟨rfl, rfl⟩⟩
          rintro ⟨metrics, hmetrics⟩
          cases hmetrics
        | some message => simp [lapses, hphase] at hlapse
      · cases hexecutor

/-- **Every step without a lapse** keeps the parameter server engaged, loses neither gradient nor momentum, and does not
tell it to aggregate. -/
theorem engaged_step (h : Engaged cfg ps c b) (hopen : c.executor.pendingUpdate.isSome = true ∨ b = true)
    {a : Happening PeerId} (hstep : c.step cfg ps a = some c') (hlapse : lapses ps ⟨c, a, true, c'⟩ = false) :
    Engaged cfg ps c' (b && !advances ⟨c, a, true, c'⟩) ∧ c'.executor.momentum = c.executor.momentum ∧
      (c'.executor.pendingUpdate = c.executor.pendingUpdate ∨
        c'.executor.pendingUpdate = none ∧ a = .acts (.broadcasts none)) ∧
      ∀ source, heard cfg ⟨c, a, true, c'⟩ ≠ some (.aggregate (.aggregateUpdates source)) := by
  have hquiet : (∀ i t now, a ≠ .runs i t now) → (b && !advances ⟨c, a, true, c'⟩) = b := by
    intro hruns
    have hadvances : advances ⟨c, a, true, c'⟩ = false := by
      unfold advances
      split
      · next i t now ha => exact absurd ha (hruns i t now)
      · rfl
    rw [hadvances, Bool.not_false, Bool.and_true]
  by_cases hloop : a ≠ .asks ∧ a ≠ .hears ∧ ∀ act, a ≠ .acts act
  · obtain ⟨hphase, hstatus, hpending, hmomentum⟩ := step_loop hstep hloop.1 hloop.2.1 hloop.2.2
    refine ⟨?_, hmomentum, Or.inl hpending, fun source hsource => ?_⟩
    · by_cases hruns : ∃ i t now, a = .runs i t now
      · obtain ⟨i, t, now, rfl⟩ := hruns
        exact h.runs hstep hlapse
      · rw [hquiet fun i t now ha => hruns ⟨i, t, now, ha⟩]
        exact h.of_eq hphase hstatus hpending
          fun i x hx => step_exchanges hstep hx fun t now ha => hruns ⟨i, t, now, ha⟩
    · unfold heard at hsource
      split at hsource
      · next ha hphase' => exact hloop.2.1 ha
      · cases hsource
  · cases a with
    | asks =>
      have hengaged := h.asks hstep
      rw [hquiet fun _ _ _ ha => by cases ha]
      cases steps_of_step hstep
      exact ⟨hengaged, rfl, Or.inl rfl, fun source hsource => by cases hsource⟩
    | hears =>
      obtain ⟨hengaged, hheard⟩ := h.hears hopen hstep
      rw [hquiet fun _ _ _ ha => by cases ha]
      cases steps_of_step hstep with
      | hears attempts i x action hphase hx hanswer =>
        obtain ⟨hpending, hmomentum⟩ := respondTo_keeps c.executor i action
        exact ⟨hengaged, hmomentum, Or.inl hpending, hheard⟩
    | acts act =>
      obtain ⟨hengaged, hmomentum, hpending⟩ := h.acts hstep hlapse
      rw [hquiet fun _ _ _ ha => by cases ha]
      refine ⟨hengaged, hmomentum, hpending.imp id fun hnone => ⟨hnone.1, congrArg _ hnone.2⟩,
        fun source hsource => by cases hsource⟩
    | _ => exact absurd ⟨by simp, by simp, by simp⟩ hloop

/-- A parameter server that holds no aggregate comes to hold one, or updates the momentum, by an aggregation. -/
theorem unengaged_step (hpending : c.executor.pendingUpdate = none) {a : Happening PeerId}
    (hstep : c.step cfg ps a = some c') :
    (c'.executor.pendingUpdate = none ∧ c'.executor.momentum = c.executor.momentum) ∨
      Engaged cfg ps c' true ∧ c'.executor.momentum.length = c.executor.momentum.length + 1 := by
  rcases step_executor hstep with hsame | ⟨act, rfl, hact⟩ | ⟨act, haggregates, hbroadcasts, hact⟩
  · exact Or.inl ⟨by rw [hsame, hpending], by rw [hsame]⟩
  · by_cases haggregates : ∃ result, act = .aggregates result
    · obtain ⟨result, rfl⟩ := haggregates
      rcases aggregated_cases hact with ⟨hkept, hmomentum⟩ | ⟨gradient, hmomentum, hphase, hstatus⟩
      · exact Or.inl ⟨hkept.trans hpending, hmomentum⟩
      · refine Or.inr ⟨?_, by rw [hmomentum, List.length_cons]⟩
        rcases hstatus with ⟨hstatus, hgradient⟩ | ⟨message, hstatus, hkept⟩
        · refine .requesting 0 hphase (hstatus ▸ .aggregated none) ?_
          unfold Executor.Holds
          rw [hstatus, hgradient]
          exact ⟨fun _ => ⟨none, rfl⟩, fun _ => rfl⟩
        · refine .requesting 0 hphase (hstatus ▸ .failed message) ?_
          unfold Executor.Holds
          rw [hstatus, hkept, hpending]
          exact ⟨fun h => (by cases h), fun ⟨_, h⟩ => (by cases h)⟩
    · by_cases hbroadcasts : ∃ error, act = .broadcasts error
      · obtain ⟨error, rfl⟩ := hbroadcasts
        obtain ⟨hkept, hmomentum⟩ := broadcasted_cases hact
        exact Or.inl ⟨hkept.elim (fun h => h.trans hpending) id, hmomentum⟩
      · obtain ⟨hkept, hmomentum⟩ := step_keeps hact (fun result h => haggregates ⟨result, h⟩)
          fun error h => hbroadcasts ⟨error, h⟩
        exact Or.inl ⟨hkept.trans hpending, hmomentum⟩
  · obtain ⟨hkept, hmomentum⟩ := step_keeps hact haggregates hbroadcasts
    exact Or.inl ⟨hkept.trans hpending, hmomentum⟩

end Steps

/-! ## Over every run -/

/-- A round is being closed: an aggregate is held, or the momentum was updated in it. -/
def IsClosing (c : Cluster PeerId T) (h : List (ClusterStep PeerId T)) : Prop :=
  c.executor.pendingUpdate.isSome = true ∨ stepped h = true

theorem stepped_cons {e : ClusterStep PeerId T} {h : List (ClusterStep PeerId T)}
    (hmomentum : e.post.executor.momentum = e.pre.executor.momentum) :
    stepped (e :: h) = (!advances e && stepped h) := by
  have hnot : updatesMomentum e = false := by
    simp [updatesMomentum, hmomentum]
  rw [stepped, hnot, Bool.false_or]

section Run
variable {cfg : Settings} {ps : PeerId} {c c' : Cluster PeerId T} {h : List (ClusterStep PeerId T)}
  {a : Happening PeerId}

/-- One step. -/
theorem closing_step (hI : IsClosing c h → Engaged cfg ps c (stepped h)) (hstep : c.step cfg ps a = some c')
    (hsmooth : Smooth ps ⟨c, a, true, c'⟩ h) :
    (IsClosing c' (⟨c, a, true, c'⟩ :: h) → Engaged cfg ps c' (stepped (⟨c, a, true, c'⟩ :: h))) ∧
      OneOuterStep cfg ⟨c, a, true, c'⟩ h := by
  by_cases hclosing : IsClosing c h
  · obtain ⟨hengaged, hmomentum, hpending, hheard⟩ := engaged_step (hI hclosing) hclosing hstep (hsmooth hclosing)
    rw [stepped_cons hmomentum, Bool.and_comm]
    refine ⟨fun _ => hengaged, fun source hsource => absurd hsource (hheard source), fun hupdates => ?_,
      fun gradient hgradient => ?_⟩
    · simp [updatesMomentum, hmomentum] at hupdates
    · exact hpending.imp (fun hsame => hsame.trans hgradient) id
  · obtain ⟨hnone, hstepped⟩ := not_or.mp hclosing
    rw [Option.not_isSome_iff_eq_none] at hnone
    refine ⟨?_, fun _ _ => hnone, fun _ => Bool.eq_false_iff.mpr hstepped,
      fun gradient hgradient => by cases hnone.symm.trans hgradient⟩
    rcases unengaged_step hnone hstep with ⟨hpending, hmomentum⟩ | ⟨hengaged, hmomentum⟩
    · intro hclosing'
      rw [IsClosing, hpending, stepped_cons hmomentum] at hclosing'
      simp [hstepped] at hclosing'
    · have hupdates : updatesMomentum ⟨c, a, true, c'⟩ = true := by
        have hmore : c.executor.momentum.length < c'.executor.momentum.length := by omega
        exact decide_eq_true hmore
      intro _
      rw [stepped, hupdates, Bool.true_or]
      exact hengaged

/-- An answer that is there is heard. -/
theorem heard_none (hstep : c.step cfg ps a = none) : heard cfg ⟨c, a, false, c⟩ = none := by
  unfold heard
  split
  · next attempts i ha hphase =>
    obtain rfl : a = .hears := ha
    replace hphase : c.executor.phase = .awaiting attempts i := hphase
    cases hanswer : c.exchanges[i]?.bind (Exchange.answer? cfg) with
    | none => rfl
    | some action => simp [Cluster.step, Cluster.hear, Executor.step, hphase, hanswer] at hstep
  · rfl

/-- What cannot happen changes nothing. -/
theorem closing_idle (hI : IsClosing c h → Engaged cfg ps c (stepped h)) (hstep : c.step cfg ps a = none) :
    (IsClosing c (⟨c, a, false, c⟩ :: h) → Engaged cfg ps c (stepped (⟨c, a, false, c⟩ :: h))) ∧
      OneOuterStep cfg ⟨c, a, false, c⟩ h := by
  have hadvances : advances (⟨c, a, false, c⟩ : ClusterStep PeerId T) = false := by
    unfold advances
    split <;> simp
  have hstepped : stepped ((⟨c, a, false, c⟩ : ClusterStep PeerId T) :: h) = stepped h := by
    rw [stepped_cons rfl, hadvances, Bool.not_false, Bool.true_and]
  refine ⟨?_, fun source hsource => ?_, fun hupdates => ?_, fun gradient hgradient => Or.inl hgradient⟩
  · rw [IsClosing, hstepped]
    exact hI
  · rw [heard_none hstep] at hsource
    cases hsource
  · simp [updatesMomentum] at hupdates

end Run

/-- **One outer step per round.** In every run in which nothing lapses while a round is being closed, the parameter
server is told to aggregate only when it holds no aggregate, the momentum is updated at most once in every round, and no
gradient is replaced before it was broadcast. -/
theorem one_outer_step (job : Job) (ps : PeerId) (workers servers : List (WorkerDescriptor PeerId))
    (happenings : List (Happening PeerId))
    (hsmooth : Along (Smooth ps) (run T job ps workers servers happenings).history) :
    Along (OneOuterStep job.settings) (run T job ps workers servers happenings).history := by
  refine ((cluster job.settings ps).along_of_invariant
    (fun w => IsClosing w.state w.history → Engaged job.settings ps w.state (stepped w.history)) (Smooth ps)
    (OneOuterStep job.settings) ?_ ?_ happenings hsmooth).2
  · rintro (hpending | hstepped)
    · cases hpending
    · cases hstepped
  · intro w a hI hC
    change (IsClosing ((cluster job.settings ps).event w.state a).post
        ((cluster job.settings ps).event w.state a :: w.history) →
      Engaged job.settings ps ((cluster job.settings ps).event w.state a).post
        (stepped ((cluster job.settings ps).event w.state a :: w.history))) ∧ _
    rcases cluster_event job.settings ps w.state a with ⟨hstep, hevent⟩ | ⟨c', hstep, hevent⟩
    · rw [hevent]
      exact closing_idle hI hstep
    · rw [hevent] at hC ⊢
      exact closing_step hI hstep hC

/-- Both workers send their updates; the one of worker 1 is aggregated before the other has arrived, and the parameter
server is told to broadcast the aggregate. -/
def aggregation : List (Happening Nat) :=
  List.flatten [
    [.reports 1 (.batchCompleted 1 1)], turns 3 0,
    [.begins 0, .arrives 0, .settles 0, .reports 1 (.sentUpdate 0 [])], turns 4 1,
    [.reports 2 (.batchCompleted 1 1)], turns 3 2, [.begins 2, .settles 2, .reports 2 (.sentUpdate 0 [])],
    turns 4 3, [.asks], turns 3 4, [.hears, .acts (.picks 1), .acts (.aggregates .finished), .asks], turns 2 5,
    [.hears]]

/-- The broadcast succeeds and the round ends. -/
def succeeds : List (Happening Nat) := aggregation ++ [.acts (.broadcasts none), .asks] ++ turns 7 6 ++ [.hears]

theorem one_outer_step_succeeds :
    (twoWorkers succeeds).history.all (·.output) = true ∧ Along (Smooth 9) (twoWorkers succeeds).history ∧
      (twoWorkers succeeds).state.executor.momentum = [[(1, 0)]] ∧
      (twoWorkers succeeds).state.scheduler.roundState.round = 1 ∧
      Along (OneOuterStep (smallJob 1 1 2).settings) (twoWorkers succeeds).history :=
  ⟨by decide +kernel, by decide +kernel, by decide +kernel, by decide +kernel,
    one_outer_step _ _ _ _ _ (by decide +kernel)⟩

/-- The broadcast fails. The parameter server reports it, is told to wait and then to aggregate once more. -/
def toldAgain : List (Happening Nat) :=
  List.flatten [
    aggregation, [.acts (.broadcasts (some "no route")), .asks], turns 2 6, [.hears, .acts .wakes, .asks],
    turns 3 7]

/-- It does, with the update of worker 2 that has arrived meanwhile. -/
def steppedAgain : List (Happening Nat) :=
  toldAgain ++ [.hears, .arrives 0, .acts (.picks 2), .acts (.aggregates .finished)]

/-- All of it in round 0. -/
theorem stepped_twice :
    (twoWorkers steppedAgain).history.all (·.output) = true ∧
      (twoWorkers steppedAgain).state.scheduler.roundState.round = 0 ∧
      (twoWorkers toldAgain).state.executor.pendingUpdate = some [(1, 0)] ∧
      heard (smallJob 1 1 2).settings
          ((cluster (smallJob 1 1 2).settings 9).event (twoWorkers toldAgain).state .hears) =
        some (.aggregate (.aggregateUpdates (.peers [1, 2] .all none))) ∧
      (twoWorkers steppedAgain).state.executor.momentum = [[(2, 2)], [(1, 0)]] ∧
      (twoWorkers steppedAgain).state.executor.pendingUpdate = some [(2, 2)] ∧
      ¬Along (OneOuterStep (smallJob 1 1 2).settings) (twoWorkers steppedAgain).history := by
  refine ⟨by decide +kernel, by decide +kernel, by decide +kernel, by decide +kernel, by decide +kernel,
    by decide +kernel, fun h => ?_⟩
  have honce : Along (fun e h => updatesMomentum e = true → stepped h = false) (twoWorkers steppedAgain).history :=
    h.mp (fun e g hP _ => hP.1.momentum) (along_true _)
  revert honce
  decide +kernel

end Hypha.ParameterServer
