import Hypha.ParameterServer.Executor
import Hypha.Scheduler.Script
import Hypha.Scheduler.Stretch

/-!
# The scheduler, the workers and a parameter server

The composed system. Requests of the workers and of the parameter server reach the scheduler in exchanges, whose handlers
interleave; the parameter server waits for one answer at a time and forgets the attempts it has given up, which may still
be handled later. A worker that is told to send its update does so in attempts, any number of which may arrive, at any
time.

* `Cluster`, `Cluster.step` : the composed system;
* `cluster` : the same as a machine whose runs are recorded, what cannot happen changing nothing;
* `Steps`, `steps_of_step` : what may happen and what it leads to;
* `step_executor`, `step_exchanges`, `step_transits` : what a step does to the executor, to the exchanges and to the
  transfers;
* `advances`, `step_round` : when the round advances, and that it does not change otherwise.
-/

namespace Hypha.ParameterServer

open Hypha.Lib Hypha.Action Hypha.Scheduler

set_option linter.unusedSectionVars false

variable {PeerId T : Type} [LinearOrder PeerId] [RuntimeStatistic T]

/-- A request and how far its handler is. -/
structure Exchange (PeerId : Type) where
  request : PeerId × ActionRequest
  handler : Handler PeerId

/-- An exchange whose request is on its way. -/
def Exchange.sent (request : PeerId × ActionRequest) : Exchange PeerId := ⟨request, .pending request⟩

/-- A file is known by the exchange whose answer ordered it. `transits` are the attempts to transfer one that are under
way, `tries` counts them, and `settled` lists the orders that are carried out, given up or lost. -/
structure Cluster (PeerId T : Type) where
  scheduler : SchedulerState PeerId T
  exchanges : List (Exchange PeerId) := []
  executor : Executor PeerId Nat := {}
  transits : List (PeerId × Nat) := []
  tries : Nat → Nat := fun _ => 0
  settled : List Nat := []

/-- What may happen: a worker reports, a handler runs, the pools change; the parameter server acts; an attempt to
transfer an update begins, arrives or is lost; an order is settled. -/
inductive Happening (PeerId : Type) where
  | reports (peer : PeerId) (status : TrainStatus)
  | runs (i : Nat) (t : Instant) (now : SystemTime)
  | happens (input : Input PeerId)
  | asks
  | hears
  | acts (act : Act PeerId Nat)
  | begins (i : Nat)
  | arrives (n : Nat)
  | vanishes (n : Nat)
  | settles (i : Nat)

/-- The acts that the executor does on its own. -/
def Act.isOwn : Act PeerId Nat → Bool
  | .asks _ | .hears _ | .receives _ _ => false
  | _ => true

section Step
variable (cfg : Settings) (ps : PeerId)

/-- The worker that an exchange has told to send its update to the parameter server. -/
def Exchange.order (x : Exchange PeerId) : Option PeerId :=
  match x.handler.answer? with
  | some (w, .train (.sendUpdate (.peers peers _ _) _)) => if peers.any (fun q => decide (q = ps)) then some w else none
  | _ => none

/-- The answer that an exchange has ended with. -/
def Exchange.answer? (x : Exchange PeerId) : Option (ExecutorAction PeerId) :=
  match x.handler with
  | .pending _ => none
  | .suspended _ k => if k.isDone then some (respond cfg k).next else none

namespace Cluster

variable (c : Cluster PeerId T)

/-- Whether a handler may run: it has not ended and nobody holds the mutex it waits for. -/
def mayRun (k : Handler PeerId) : Bool :=
  !k.ended && k.waits.all fun l => c.exchanges.all fun y => !y.handler.holds l

/-- A handler runs to its next await point. -/
def runHandler (i : Nat) (t : Instant) (now : SystemTime) : Option (Cluster PeerId T) :=
  match c.exchanges[i]? with
  | none => none
  | some x =>
    if c.mayRun x.handler then
      some { c with
        scheduler := (x.handler.run cfg c.scheduler t now).1
        exchanges := c.exchanges.set i { x with handler := (x.handler.run cfg c.scheduler t now).2 } }
    else none

/-- The parameter server hears the answer it waits for. -/
def hear : Option (Cluster PeerId T) :=
  match c.executor.phase with
  | .awaiting _ i =>
    (c.exchanges[i]?.bind (Exchange.answer? cfg)).bind fun action =>
      (c.executor.step (.hears action)).map fun executor => { c with executor := executor }
  | _ => none

/-- An attempt to transfer the update that an exchange has ordered. -/
def beginTransfer (i : Nat) : Option (Cluster PeerId T) :=
  match c.exchanges[i]?.bind (Exchange.order ps) with
  | none => none
  | some w =>
    if c.settled.any (fun j => decide (j = i)) || decide (maxAttempts ≤ c.tries i) then none
    else some { c with transits := (w, i) :: c.transits, tries := Function.update c.tries i (c.tries i + 1) }

/-- What happens, if it can. -/
def step : Happening PeerId → Option (Cluster PeerId T)
  | .reports p status => some { c with exchanges := c.exchanges ++ [.sent (p, ⟨cfg.id, .train status⟩)] }
  | .runs i t now => c.runHandler cfg i t now
  | .happens input =>
    -- reports reach the scheduler in exchanges, so only the environment changes here
    if input.report?.isNone then some { c with scheduler := (Scheduler.step cfg c.scheduler input).1 } else none
  | .asks =>
    (c.executor.step (.asks c.exchanges.length)).map fun executor =>
      { c with
        executor := executor
        exchanges := c.exchanges ++ [.sent (ps, ⟨cfg.id, .aggregate c.executor.currentStatus⟩)] }
  | .hears => c.hear cfg
  | .acts act =>
    if act.isOwn then (c.executor.step act).map fun executor => { c with executor := executor } else none
  | .begins i => c.beginTransfer ps i
  | .arrives n =>
    c.transits[n]?.bind fun u =>
      (c.executor.step (.receives u.1 u.2)).map fun executor =>
        { c with executor := executor, transits := c.transits.eraseIdx n }
  | .vanishes n => if n < c.transits.length then some { c with transits := c.transits.eraseIdx n } else none
  | .settles i =>
    if (c.exchanges[i]?.bind (Exchange.order ps)).isSome then some { c with settled := i :: c.settled } else none

end Cluster

section Inversion
variable {cfg ps} {c c' : Cluster PeerId T}

/-- What may run has not ended. -/
theorem not_ended_of_mayRun {k : Handler PeerId} (h : c.mayRun k = true) : k.ended = false := by
  unfold Cluster.mayRun at h
  simpa using (Bool.and_eq_true_iff.mp h).1

/-- **What may happen** and what it leads to. -/
inductive Steps (cfg : Settings) (ps : PeerId) (c : Cluster PeerId T) : Happening PeerId → Cluster PeerId T → Prop where
  | reports (p : PeerId) (status : TrainStatus) :
      Steps cfg ps c (.reports p status) { c with exchanges := c.exchanges ++ [.sent (p, ⟨cfg.id, .train status⟩)] }
  | runs (i : Nat) (t : Instant) (now : SystemTime) (x : Exchange PeerId) (hx : c.exchanges[i]? = some x)
      (hrun : c.mayRun x.handler = true) :
      Steps cfg ps c (.runs i t now) { c with
        scheduler := (x.handler.run cfg c.scheduler t now).1
        exchanges := c.exchanges.set i { x with handler := (x.handler.run cfg c.scheduler t now).2 } }
  | happens (input : Input PeerId) (hinput : input.report? = none) :
      Steps cfg ps c (.happens input) { c with scheduler := (Scheduler.step cfg c.scheduler input).1 }
  | asks (attempts : Nat) (hphase : c.executor.phase = .requesting attempts) :
      Steps cfg ps c .asks { c with
        executor := { c.executor with phase := .awaiting attempts c.exchanges.length }
        exchanges := c.exchanges ++ [.sent (ps, ⟨cfg.id, .aggregate c.executor.currentStatus⟩)] }
  | hears (attempts i : Nat) (x : Exchange PeerId) (action : ExecutorAction PeerId)
      (hphase : c.executor.phase = .awaiting attempts i) (hx : c.exchanges[i]? = some x)
      (hanswer : x.answer? cfg = some action) :
      Steps cfg ps c .hears { c with executor := c.executor.respondTo i action }
  | acts (act : Act PeerId Nat) (executor : Executor PeerId Nat) (hown : act.isOwn = true)
      (hexecutor : c.executor.step act = some executor) : Steps cfg ps c (.acts act) { c with executor := executor }
  | begins (i : Nat) (w : PeerId) (hw : c.exchanges[i]?.bind (Exchange.order ps) = some w) (hopen : i ∉ c.settled) :
      Steps cfg ps c (.begins i) { c with
        transits := (w, i) :: c.transits, tries := Function.update c.tries i (c.tries i + 1) }
  | arrives (n : Nat) (u : PeerId × Nat) (hu : c.transits[n]? = some u) :
      Steps cfg ps c (.arrives n) { c with
        executor := { c.executor with store := u :: c.executor.store }, transits := c.transits.eraseIdx n }
  | vanishes (n : Nat) : Steps cfg ps c (.vanishes n) { c with transits := c.transits.eraseIdx n }
  | settles (i : Nat) : Steps cfg ps c (.settles i) { c with settled := i :: c.settled }

theorem steps_of_step {a : Happening PeerId} (h : c.step cfg ps a = some c') : Steps cfg ps c a c' := by
  cases a with
  | reports p status =>
    obtain rfl := Option.some.inj h
    exact .reports p status
  | runs i t now =>
    simp only [Cluster.step, Cluster.runHandler] at h
    split at h
    · cases h
    · next x hx =>
      split_ifs at h with hrun
      obtain rfl := Option.some.inj h
      exact .runs i t now x hx hrun
  | happens input =>
    simp only [Cluster.step] at h
    split_ifs at h with hinput
    obtain rfl := Option.some.inj h
    exact .happens input (Option.isNone_iff_eq_none.mp hinput)
  | asks =>
    simp only [Cluster.step, Executor.step] at h
    split at h
    · next attempts hphase =>
      obtain rfl := Option.some.inj h
      exact .asks attempts hphase
    · cases h
  | hears =>
    simp only [Cluster.step, Cluster.hear] at h
    split at h
    · next attempts i hphase =>
      obtain ⟨action, haction, h⟩ := Option.bind_eq_some_iff.mp h
      obtain ⟨x, hx, hanswer⟩ := Option.bind_eq_some_iff.mp haction
      simp only [Executor.step, hphase, Option.map_some, Option.some.injEq] at h
      subst h
      exact .hears attempts i x action hphase hx hanswer
    · cases h
  | acts act =>
    simp only [Cluster.step] at h
    split_ifs at h with hown
    obtain ⟨executor, hexecutor, rfl⟩ := Option.map_eq_some_iff.mp h
    exact .acts act executor hown hexecutor
  | begins i =>
    simp only [Cluster.step, Cluster.beginTransfer] at h
    split at h
    · cases h
    · next w hw =>
      split_ifs at h with hguard
      obtain rfl := Option.some.inj h
      refine .begins i w hw fun hmem => hguard ?_
      rw [Bool.or_eq_true, List.any_eq_true]
      exact Or.inl ⟨i, hmem, decide_eq_true rfl⟩
  | arrives n =>
    simp only [Cluster.step, Executor.step] at h
    obtain ⟨u, hu, h⟩ := Option.bind_eq_some_iff.mp h
    obtain rfl := Option.some.inj h
    exact .arrives n u hu
  | vanishes n =>
    simp only [Cluster.step] at h
    split_ifs at h
    obtain rfl := Option.some.inj h
    exact .vanishes n
  | settles i =>
    simp only [Cluster.step] at h
    split_ifs at h
    obtain rfl := Option.some.inj h
    exact .settles i

/-- What the parameter server does in a step. -/
theorem step_executor {a : Happening PeerId} (h : c.step cfg ps a = some c') :
    c'.executor = c.executor ∨ (∃ act, a = .acts act ∧ c.executor.step act = some c'.executor) ∨
      ∃ act, (∀ result, act ≠ .aggregates result) ∧ (∀ error, act ≠ .broadcasts error) ∧
        c.executor.step act = some c'.executor := by
  cases steps_of_step h with
  | asks attempts hphase =>
    refine Or.inr (Or.inr ⟨.asks c.exchanges.length, ?_, ?_, ?_⟩)
    · exact fun _ hact => by cases hact
    · exact fun _ hact => by cases hact
    · simp only [Executor.step, hphase]
  | hears attempts i x action hphase hx hanswer =>
    refine Or.inr (Or.inr ⟨.hears action, ?_, ?_, ?_⟩)
    · exact fun _ hact => by cases hact
    · exact fun _ hact => by cases hact
    · simp only [Executor.step, hphase]
  | acts act executor hown hexecutor => exact Or.inr (Or.inl ⟨act, rfl, hexecutor⟩)
  | arrives n u hu =>
    refine Or.inr (Or.inr ⟨.receives u.1 u.2, ?_, ?_, rfl⟩)
    · exact fun _ hact => by cases hact
    · exact fun _ hact => by cases hact
  | _ => exact Or.inl rfl

/-- Only requests, answers and what it does itself move the loop of the parameter server. -/
theorem step_loop {a : Happening PeerId} (h : c.step cfg ps a = some c') (hasks : a ≠ .asks) (hhears : a ≠ .hears)
    (hacts : ∀ act, a ≠ .acts act) :
    c'.executor.phase = c.executor.phase ∧ c'.executor.currentStatus = c.executor.currentStatus ∧
      c'.executor.pendingUpdate = c.executor.pendingUpdate ∧ c'.executor.momentum = c.executor.momentum := by
  cases steps_of_step h with
  | asks attempts hphase => exact absurd rfl hasks
  | hears attempts i x action hphase hx hanswer => exact absurd rfl hhears
  | acts act executor hown hexecutor => exact absurd rfl (hacts act)
  | _ => exact ⟨rfl, rfl, rfl, rfl⟩

/-- What is under way was so before, or it was ordered and has begun. -/
theorem step_transits {a : Happening PeerId} (h : c.step cfg ps a = some c') {u : PeerId × Nat} (hu : u ∈ c'.transits) :
    u ∈ c.transits ∨ c.exchanges[u.2]?.bind (Exchange.order ps) = some u.1 := by
  cases steps_of_step h with
  | begins i w hw hopen =>
    rcases List.mem_cons.mp hu with rfl | hu
    · exact Or.inr hw
    · exact Or.inl hu
  | arrives n v hv => exact Or.inl (List.mem_of_mem_eraseIdx hu)
  | vanishes n => exact Or.inl (List.mem_of_mem_eraseIdx hu)
  | _ => exact Or.inl hu

/-- An exchange stays as it is unless its handler runs. -/
theorem step_exchanges {a : Happening PeerId} (h : c.step cfg ps a = some c') {i : Nat} {x : Exchange PeerId}
    (hx : c.exchanges[i]? = some x) (ha : ∀ t now, a ≠ .runs i t now) : c'.exchanges[i]? = some x := by
  have happend : ∀ y : Exchange PeerId, (c.exchanges ++ [y])[i]? = some x := by
    intro y
    rw [List.getElem?_append_left (List.getElem?_eq_some_iff.mp hx).1]
    exact hx
  cases steps_of_step h with
  | reports p status => exact happend _
  | asks attempts hphase => exact happend _
  | runs j t now y hy hrun =>
    have hij : j ≠ i := by
      rintro rfl
      exact ha t now rfl
    dsimp only
    rw [List.getElem?_set_ne hij]
    exact hx
  | _ => exact hx

/-- An exchange was as it is, or it is new, or its handler runs. -/
theorem exchange_cases {a : Happening PeerId} (h : c.step cfg ps a = some c') {i : Nat} {x : Exchange PeerId}
    (hx : c'.exchanges[i]? = some x) :
    c.exchanges[i]? = some x ∨ (∃ request, x = .sent request) ∨ ∃ t now, a = .runs i t now := by
  have happend : ∀ request, (c.exchanges ++ [Exchange.sent request])[i]? = some x →
      c.exchanges[i]? = some x ∨ (∃ request, x = .sent request) ∨ ∃ t now, a = .runs i t now := by
    intro request hx
    rw [List.getElem?_append] at hx
    split_ifs at hx
    · exact Or.inl hx
    · exact Or.inr (Or.inl ⟨request, List.mem_singleton.mp (List.mem_of_getElem? hx)⟩)
  cases steps_of_step h with
  | reports p status => exact happend _ hx
  | asks attempts hphase => exact happend _ hx
  | runs j t now y hy hrun =>
    by_cases hij : j = i
    · subst hij
      exact Or.inr (Or.inr ⟨t, now, rfl⟩)
    · rw [List.getElem?_set_ne hij] at hx
      exact Or.inl hx
  | _ => exact Or.inl hx

end Inversion

/-- The system as a machine: the output says whether it could happen. -/
def cluster : Machine (Cluster PeerId T) (Happening PeerId) Bool where
  step c a := ((c.step cfg ps a).getD c, (c.step cfg ps a).isSome)

end Step

/-- The system at the start of a job. -/
def Cluster.initial (job : Job) (workers servers : List (WorkerDescriptor PeerId)) : Cluster PeerId T where
  scheduler := Scheduler.initial job workers servers

/-- One step of a run. -/
abbrev ClusterStep (PeerId T : Type) := Event (Cluster PeerId T) (Happening PeerId) Bool

/-- The run of a job over a list of happenings. -/
def run (T : Type) [RuntimeStatistic T] (job : Job) (ps : PeerId) (workers servers : List (WorkerDescriptor PeerId))
    (happenings : List (Happening PeerId)) : World (Cluster PeerId T) (Happening PeerId) Bool :=
  (cluster job.settings ps).run (Cluster.initial job workers servers) happenings

/-- What happens, or nothing. -/
theorem cluster_event (cfg : Settings) (ps : PeerId) (c : Cluster PeerId T) (a : Happening PeerId) :
    (c.step cfg ps a = none ∧ (cluster cfg ps).event c a = ⟨c, a, false, c⟩) ∨
      ∃ c', c.step cfg ps a = some c' ∧ (cluster cfg ps).event c a = ⟨c, a, true, c'⟩ := by
  cases hstep : c.step cfg ps a with
  | none => exact Or.inl ⟨rfl, by simp [Machine.event, cluster, hstep]⟩
  | some c' => exact Or.inr ⟨c', rfl, by simp [Machine.event, cluster, hstep]⟩

/-! ## Rounds -/

/-- Whether a handler is about to advance the round. -/
def isAdvancing : Handler PeerId → Bool
  | .suspended _ .broadcastedRound' => true
  | _ => false

/-- The round of the scheduler changes only in the stretch that advances it. -/
theorem run_round (cfg : Settings) (s : SchedulerState PeerId T) (t : Instant) (now : SystemTime) {k : Handler PeerId}
    (hk : isAdvancing k = false) : (k.run cfg s t now).1.roundState.round = s.roundState.round := by
  cases k with
  | pending request => exact congrArg RoundState.round (start_protected cfg s t now request).1
  | suspended ctx k =>
    by_cases hwaits : k.waits = some .roundState
    · cases k with
      | joinedRound =>
        simp only [Handler.run, resume, joinedRound]
        split_ifs <;> rfl
      | idleRound =>
        simp only [Handler.run, resume, idleRound, idleComplete]
        split_ifs <;> first | rfl | (split <;> rfl)
      | sentRound' =>
        simp only [Handler.run, resume, sentRound']
        split_ifs <;> rfl
      | appliedRound =>
        simp only [Handler.run, resume, appliedRound]
        split_ifs
        · rfl
        · split <;> rfl
      | aggregateIdleRound =>
        simp only [Handler.run, resume, aggregateIdleRound]
        split_ifs <;> rfl
      | aggregateIdleRound' workers =>
        simp only [Handler.run, resume, aggregateIdleRound']
        split_ifs <;> rfl
      | broadcastedRound' => cases hk
      | _ => first | rfl | cases hwaits
    · exact congrArg RoundState.round ((resume_protected cfg ctx s t k).1 hwaits)

/-- Whether the round advances in a step. -/
def advances (e : ClusterStep PeerId T) : Bool :=
  match e.input with
  | .runs i _ _ => e.output && (e.pre.exchanges[i]?).any fun x => isAdvancing x.handler
  | _ => false

/-- The round changes only when it advances. -/
theorem step_round {cfg : Settings} {ps : PeerId} {c c' : Cluster PeerId T} {a : Happening PeerId}
    (h : c.step cfg ps a = some c') (ha : advances ⟨c, a, true, c'⟩ = false) :
    c'.scheduler.roundState.round = c.scheduler.roundState.round := by
  cases steps_of_step h with
  | runs i t now x hx hrun =>
    simp only [advances, hx, Option.any_some, Bool.true_and] at ha
    exact run_round cfg c.scheduler t now ha
  | happens input hinput => exact congrArg RoundState.round (step_environment cfg c.scheduler hinput).1.roundState
  | _ => rfl

/-- The handler of an exchange runs through `n` stretches. -/
def turns (n i : Nat) : List (Happening PeerId) := List.replicate n (.runs i 0 0)

/-- A job of two rounds with the workers 1 and 2 and the parameter server 9. -/
def twoWorkers (happenings : List (Happening Nat)) : World (Cluster Nat RunningMean) (Happening Nat) Bool :=
  run RunningMean (smallJob 1 1 2) 9 (joined [1, 2]) (joined [9]) happenings

end Hypha.ParameterServer
