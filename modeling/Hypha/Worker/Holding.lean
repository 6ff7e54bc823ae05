import Hypha.Worker.Steps

/-!
# Reservations in the hands of the handlers

Every reservation of the worker belongs to a lease of the ledger or is in the hands of one handler, which has yet to
insert the lease or to release the reservation.

* `taken`, `run_snoc_cases`, `run_rule` : a run with one more step, and invariants over recorded runs from their steps;
* `answer?`, `Steps.answers` : the responses;
* `Task.held`, `Steps.moves` : the reservation in the hands of a task, and the move a step makes;
* `Fresh`, `Safe`, `run_safe` : if no UUID is drawn twice every reservation is in custody, in every state of a run.
-/

namespace Hypha.Worker

open Hypha.Lib

set_option linter.unusedSectionVars false

variable {PeerId : Type} [DecidableEq PeerId] {cfg : Config}

/-- The step that writes an effect and leaves the tasks as given. -/
def taken (w : Arbiter PeerId) (a : Happening PeerId) (effect : Effect PeerId) (tasks : List (Task PeerId)) :
    ArbiterStep PeerId where
  pre := w
  input := a
  output := some effect
  post := ⟨effect.apply w.toShared, tasks⟩

/-- What cannot happen changes nothing. -/
def refused (w : Arbiter PeerId) (a : Happening PeerId) : ArbiterStep PeerId := ⟨w, a, none, w⟩

/-- A run with one more happening: it cannot happen, or a step is made. -/
theorem run_snoc_cases (cfg : Config) (happenings : List (Happening PeerId)) (a : Happening PeerId) :
    ((run cfg happenings).state.step cfg a = none ∧
      run cfg (happenings ++ [a]) =
        ⟨(run cfg happenings).state, refused (run cfg happenings).state a :: (run cfg happenings).history⟩) ∨
      ∃ effect tasks, Steps cfg (run cfg happenings).state a effect tasks ∧
        run cfg (happenings ++ [a]) = ⟨⟨effect.apply (run cfg happenings).state.toShared, tasks⟩,
          taken (run cfg happenings).state a effect tasks :: (run cfg happenings).history⟩ := by
  have hnext : run cfg (happenings ++ [a]) = ⟨((arbiter cfg).event (run cfg happenings).state a).post,
      (arbiter cfg).event (run cfg happenings).state a :: (run cfg happenings).history⟩ :=
    (arbiter cfg).run_snoc _ happenings a
  rcases arbiter_event cfg (run cfg happenings).state a with ⟨hnone, hevent⟩ | ⟨effect, tasks, hsteps, hevent⟩
  · rw [hevent] at hnext
    exact Or.inl ⟨hnone, hnext⟩
  · rw [hevent] at hnext
    exact Or.inr ⟨effect, tasks, hsteps, hnext⟩

/-- **The rule for runs of the worker.** What every step that meets `C` keeps, and what it then says of the step, holds
along every run whose steps all meet `C`. -/
theorem run_rule (I : Arbiter PeerId → List (ArbiterStep PeerId) → Prop)
    (C P : ArbiterStep PeerId → List (ArbiterStep PeerId) → Prop) (init : I (Arbiter.initial cfg) [])
    (refuses : ∀ w h a, I w h → w.step cfg a = none → I w (refused w a :: h) ∧ P (refused w a) h)
    (takes : ∀ w h a effect tasks, I w h → Steps cfg w a effect tasks → C (taken w a effect tasks) h →
      I ⟨effect.apply w.toShared, tasks⟩ (taken w a effect tasks :: h) ∧ P (taken w a effect tasks) h)
    (happenings : List (Happening PeerId)) (hC : Along C (run cfg happenings).history) :
    I (run cfg happenings).state (run cfg happenings).history ∧ Along P (run cfg happenings).history := by
  refine (arbiter cfg).along_of_invariant (fun v => I v.state v.history) C P init ?_ happenings hC
  intro v a hI hc
  rcases arbiter_event cfg v.state a with ⟨hnone, hevent⟩ | ⟨effect, tasks, hsteps, hevent⟩
  · have hstate : ((arbiter cfg).next v a).state = v.state := congrArg Event.post hevent
    rw [hstate, Machine.next_history, hevent]
    exact refuses v.state v.history a hI hnone
  · have hstate : ((arbiter cfg).next v a).state = ⟨effect.apply v.state.toShared, tasks⟩ := congrArg Event.post hevent
    rw [hevent] at hc
    rw [hstate, Machine.next_history, hevent]
    exact takes v.state v.history a effect tasks hI hsteps hc

/-- What every step that meets `C` keeps holds before and after every step of a run. -/
theorem run_state_rule (I : Arbiter PeerId → Prop) (C : ArbiterStep PeerId → List (ArbiterStep PeerId) → Prop)
    (init : I (Arbiter.initial cfg))
    (takes : ∀ w h a effect tasks, I w → Steps cfg w a effect tasks → C (taken w a effect tasks) h →
      I ⟨effect.apply w.toShared, tasks⟩)
    (happenings : List (Happening PeerId)) (hC : Along C (run cfg happenings).history) :
    I (run cfg happenings).state ∧ Along (fun e _ => I e.pre) (run cfg happenings).history :=
  run_rule (fun w _ => I w) C (fun e _ => I e.pre) init (fun _ _ _ hI _ => ⟨hI, hI⟩)
    (fun w h a effect tasks hI hsteps hc => ⟨takes w h a effect tasks hI hsteps hc, hI⟩) happenings hC

/-- What holds along a run holds of its last step. -/
theorem along_last {P : ArbiterStep PeerId → List (ArbiterStep PeerId) → Prop} {happenings : List (Happening PeerId)}
    {a : Happening PeerId} (h : Along P (run cfg (happenings ++ [a])).history) :
    P ((arbiter cfg).event (run cfg happenings).state a) (run cfg happenings).history := by
  unfold run at h
  rw [Machine.run_snoc] at h
  exact h.1

/-- The clock when a task runs. -/
def Happening.now? : Happening PeerId → Option SystemTime
  | .runs _ r => some r.now
  | _ => none

/-- The clock does not go backwards. -/
def Steady (e : ArbiterStep PeerId) (h : List (ArbiterStep PeerId)) : Prop :=
  ∀ now ∈ e.input.now?, ∀ e' ∈ h, ∀ now' ∈ e'.input.now?, now' ≤ now

instance (e : ArbiterStep PeerId) (h : List (ArbiterStep PeerId)) : Decidable (Steady e h) :=
  inferInstanceAs (Decidable (∀ now ∈ e.input.now?, ∀ e' ∈ h, ∀ now' ∈ e'.input.now?, now' ≤ now))

/-- The task that runs in a step. -/
def running (e : ArbiterStep PeerId) : Option (Task PeerId) :=
  match e.input with
  | .runs i _ => e.pre.tasks[i]?
  | _ => none

/-- The response that a handler has ended with. -/
def Task.response? : Task PeerId → Option Response
  | .ended response => response
  | _ => none

/-- The response that is given in a step: that of the handler that runs. -/
def answer? (e : ArbiterStep PeerId) : Option Response :=
  match e.input with
  | .runs i _ => e.output.bind fun _ => e.post.tasks[i]?.bind Task.response?
  | _ => none

/-- What is answered in a step. -/
theorem Steps.answers {w : Arbiter PeerId} {a : Happening PeerId} {effect : Effect PeerId} {tasks : List (Task PeerId)}
    {response : Response} (h : Steps cfg w a effect tasks) (hanswer : answer? (taken w a effect tasks) = some response) :
    ∃ i r t, a = .runs i r ∧ w.tasks[i]? = some t ∧ Answers w.toShared r t effect response := by
  cases h with
  | runs i r t t' effect spawned ht hruns =>
    have hresponse : (w.tasks.set i t' ++ spawned)[i]?.bind Task.response? = some response := hanswer
    rw [getElem?_ran ht] at hresponse
    cases t' with
    | ended given => exact ⟨i, r, t, rfl, ht, hruns.answers (congrArg Task.ended hresponse)⟩
    | _ => cases hresponse
  | _ => cases hanswer

theorem answer?_refused (w : Arbiter PeerId) (a : Happening PeerId) : answer? (refused w a) = none := by
  cases a <;> rfl

/-! ## Custody -/

/-- The reservation in the hands of a task. -/
def Task.held : Task PeerId → Option Uuid
  | .batch _ _ _ point => point.held
  | .withdrawing point => point.held
  | .pruning (.revoking point _ _) => point.held
  | .pruning (.proceeding point) => point.held
  | _ => none

/-- The access to the lease manager that an effect makes. -/
def Effect.access : Effect PeerId → Access PeerId
  | .lease access => access
  | .job _ => .reads

theorem Effect.apply_manager (s : Shared PeerId) (effect : Effect PeerId) :
    (effect.apply s).manager = effect.access.apply s.manager := by
  cases effect <;> rfl

/-- The leases granted in a history, newest first. -/
def grantedIn (h : List (ArbiterStep PeerId)) : List (WorkerLease PeerId) :=
  h.filterMap fun e => e.output.bind fun effect => effect.access.granted?

theorem grantedIn_taken (w : Arbiter PeerId) (a : Happening PeerId) (effect : Effect PeerId)
    (tasks : List (Task PeerId)) (h : List (ArbiterStep PeerId)) :
    grantedIn (taken w a effect tasks :: h) = effect.access.granted?.toList ++ grantedIn h := by
  unfold grantedIn
  cases hgranted : effect.access.granted? <;> simp [taken, hgranted]

@[simp] theorem held_nextRequest (rest : List (PeerId × WorkerRequest)) : (nextRequest cfg rest).held = none := by
  cases rest <;> rfl

@[simp] theorem held_nextLease (leases : List (WorkerLease PeerId)) : (nextLease leases).held = none := by
  cases leases <;> rfl

@[simp] theorem held_nextExpired (removed rest : List (WorkerLease PeerId)) :
    (nextExpired removed rest).held = none := by
  cases rest with
  | nil => exact held_nextLease removed
  | cons lease rest => rfl

@[simp] theorem held_nextLinked (lease : WorkerLease PeerId) (leases : List (WorkerLease PeerId))
    (jobs : List (JobDescriptor PeerId)) : (nextLinked lease leases jobs).held = none := by
  cases jobs with
  | nil => exact held_nextLease leases
  | cons job jobs => rfl

@[simp] theorem held_nextFinished (jobs : List (JobDescriptor PeerId)) :
    (Task.pruning (nextFinished jobs)).held = none := by
  induction jobs with
  | nil => rfl
  | cons job jobs ih =>
    unfold nextFinished
    split_ifs
    · rfl
    · exact ih

@[simp] theorem held_after (after : After PeerId) : after.next.held = none := by
  cases after with
  | finished rest => exact held_nextFinished rest
  | linked lease jobs leases => exact held_nextLinked lease leases jobs

/-- A stretch makes one move with the reservation in its hands. -/
theorem Runs.moves {s : Shared PeerId} {r : Moment} {t t' : Task PeerId} {effect : Effect PeerId}
    {spawned : List (Task PeerId)} (h : Runs cfg s r t effect t' spawned) :
    Moves s.manager t.held effect.access t'.held := by
  have hreads : ∀ {before after : Option Uuid}, before = none → after = none → Moves s.manager before .reads after := by
    rintro _ _ rfl rfl
    exact .reads
  cases h with
  | declines peer request rest point hheld => exact hreads hheld (held_nextRequest rest)
  | reserves peer request rest owner resources duration hfits => exact .reserves r.uuid resources hfits
  | grants peer request rest lease duration hid htimeout =>
    rw [held_nextRequest]
    exact .grants lease
  | withdrawTakes id lease hlease => exact .takes id lease hlease
  | withdrawFrees lease => exact .frees lease.leasable.reservation
  | renews peer id lease hlease => exact .renews id lease (r.now + leaseTimeout) hlease
  | finds => exact hreads rfl (held_nextFinished _)
  | revokeTakes id lease job rest hlease => exact .takes id lease hlease
  | revokeFrees lease job rest => exact .frees lease.leasable.reservation
  | lists => exact hreads rfl (held_nextExpired _ _)
  | proceedTakes id lease rest removed hlease => exact .takes id lease hlease
  | proceedMisses id rest removed hlease => exact hreads rfl (held_nextExpired _ _)
  | proceedFrees lease rest removed =>
    rw [held_nextExpired]
    exact .frees lease.leasable.reservation
  | proceedErrs lease rest removed hrelease => exact .frees lease.leasable.reservation
  | links lease leases => exact hreads rfl (held_nextLinked _ _ _)
  | cancelMisses id after hjob => exact hreads rfl (held_after after)
  | joins execution after x status hx hphase => exact hreads rfl (held_after after)
  | _ => exact .reads

theorem Runs.moves_of {s : Shared PeerId} {r : Moment} {t t' : Task PeerId} {effect : Effect PeerId}
    {spawned : List (Task PeerId)} {access : Access PeerId} (h : Runs cfg s r t effect t' spawned)
    (haccess : effect.access = access) : Moves s.manager t.held access t'.held := by
  rw [← haccess]
  exact h.moves

/-- A task begins with empty hands. -/
theorem Begins.held {a : Happening PeerId} {effect : Effect PeerId} {u : Task PeerId} (h : Begins cfg a effect u) :
    u.held = none := by
  cases h with
  | batch batch => exact held_nextRequest _
  | _ => rfl

namespace Arbiter

/-- The reservations in the hands of the tasks. -/
def hands (w : Arbiter PeerId) : Nat → Option Uuid := handsOf Task.held w.tasks

end Arbiter

/-- **What a step does to the reservations**: one task makes a move. -/
theorem Steps.moves {w : Arbiter PeerId} {a : Happening PeerId} {effect : Effect PeerId} {tasks : List (Task PeerId)}
    (h : Steps cfg w a effect tasks) :
    ∃ i held, Moves w.manager (w.hands i) effect.access held ∧
      handsOf Task.held tasks = Function.update w.hands i held := by
  have hend : w.hands w.tasks.length = none := by simp [Arbiter.hands, handsOf]
  -- where no task moves the one after the last may be said to read
  have hidle : ∀ tasks : List (Task PeerId), handsOf Task.held tasks = w.hands →
      ∃ i held, Moves w.manager (w.hands i) .reads held ∧ handsOf Task.held tasks = Function.update w.hands i held := by
    intro tasks htasks
    refine ⟨w.tasks.length, none, ?_, ?_⟩
    · rw [hend]
      exact .reads
    · rw [htasks, ← hend, Function.update_eq_self]
  have hnew : ∀ t : Task PeerId, t.held = none → handsOf Task.held (w.tasks ++ [t]) = w.hands := by
    intro t ht
    refine handsOf_append _ fun u hu => ?_
    rw [List.mem_singleton.mp hu, ht]
  cases h with
  | requests batch => exact hidle _ (hnew _ (held_nextRequest _))
  | renews peer id => exact hidle _ (hnew _ rfl)
  | dispatches peer id spec => exact hidle _ (hnew _ rfl)
  | ticks hnone => exact hidle _ (hnew _ rfl)
  | runs i r t t' effect spawned ht hruns =>
    refine ⟨i, t'.held, ?_, ?_⟩
    · rw [Arbiter.hands, handsOf_eq _ ht]
      exact hruns.moves
    · rw [handsOf_append _ fun u hu => (hruns.begins (i := i) hu).held, handsOf_set _ ht]
      rfl
  | stops e status x hx hphase hstatus => exact hidle _ rfl
  | writes e status x hx hphase => exact hidle _ rfl

/-- The task that makes the access of a step, unless it is a mere reading. -/
theorem Steps.runs_of_access {w : Arbiter PeerId} {a : Happening PeerId} {effect : Effect PeerId}
    {tasks : List (Task PeerId)} (hsteps : Steps cfg w a effect tasks) (haccess : effect.access ≠ .reads) :
    ∃ i r t t' spawned, a = .runs i r ∧ w.tasks[i]? = some t ∧ Runs cfg w.toShared r t effect t' spawned ∧
      tasks = w.tasks.set i t' ++ spawned := by
  cases hsteps with
  | runs i r t t' effect spawned ht hruns => exact ⟨i, r, t, t', spawned, rfl, ht, hruns, rfl⟩
  | _ => exact absurd rfl haccess

/-- A task with a reservation in its hands was there before, or it has just run. -/
theorem Steps.holder_cases {w : Arbiter PeerId} {a : Happening PeerId} {effect : Effect PeerId}
    {tasks : List (Task PeerId)} (h : Steps cfg w a effect tasks) {j : Nat} {u : Task PeerId} {reservation : Uuid}
    (hu : tasks[j]? = some u) (hheld : u.held = some reservation) :
    (w.tasks[j]? = some u ∧ ∀ r, a ≠ .runs j r) ∨
      ∃ r t spawned, a = .runs j r ∧ w.tasks[j]? = some t ∧ Runs cfg w.toShared r t effect u spawned := by
  rcases h.task_cases hu with hold | hran | hbegins
  · exact Or.inl hold
  · exact Or.inr hran
  · rw [hbegins.held] at hheld
    cases hheld

/-- No UUID has been drawn twice. -/
def Fresh (e : ArbiterStep PeerId) : Prop := e.post.manager.drawn.Nodup

/-- Every reservation is in custody, and every lease under its id. -/
structure Safe (w : Arbiter PeerId) : Prop where
  keyed : Keyed w.manager
  custody : InCustody w.manager w.hands

theorem holders_task {w : Arbiter PeerId} {i : Nat} {t : Task PeerId} {r : Uuid} (ht : w.tasks[i]? = some t)
    (hheld : t.held = some r) :
    holders w.manager w.hands (.inr i) = some r := by
  simp [holders, Arbiter.hands, handsOf, ht, hheld]

theorem holders_lease {w : Arbiter PeerId} {id : Uuid} {lease : WorkerLease PeerId}
    (hlease : w.manager.ledger.lookup id = some lease) :
    holders w.manager w.hands (.inl id) = some lease.leasable.reservation := by
  simp [holders, hlease]

/-- What a task has in its hands can be released. -/
theorem Safe.release {w : Arbiter PeerId} (h : Safe w) {i : Nat} {t : Task PeerId} (ht : w.tasks[i]? = some t)
    (reservation : Uuid) (hheld : t.held = some reservation) :
    ∃ resources, w.manager.release reservation = .ok resources :=
  InCustody.release h.custody (i := i) (holders_task ht hheld)

theorem Safe.initial (cfg : Config) : Safe (Arbiter.initial cfg : Arbiter PeerId) := by
  refine ⟨Keyed.initial cfg.resources, ?_⟩
  have hhands : (Arbiter.initial cfg : Arbiter PeerId).hands = fun _ => none := handsOf_nil Task.held
  rw [hhands]
  exact InCustody.initial cfg.resources

theorem Safe.step {w : Arbiter PeerId} {a : Happening PeerId} {effect : Effect PeerId} {tasks : List (Task PeerId)}
    (h : Safe w) (hsteps : Steps cfg w a effect tasks) (hfresh : Fresh (taken w a effect tasks)) :
    Safe ⟨effect.apply w.toShared, tasks⟩ := by
  obtain ⟨i, held, hmove, hhands⟩ := hsteps.moves
  have hdrawn : (effect.access.apply w.manager).drawn.Nodup := by
    rw [← effect.apply_manager w.toShared]
    exact hfresh
  refine ⟨?_, ?_⟩
  · rw [Effect.apply_manager]
    exact h.keyed.apply hmove
  · show InCustody (effect.apply w.toShared).manager (handsOf Task.held tasks)
    rw [Effect.apply_manager, hhands]
    exact custody_moves h.custody hmove (h.keyed.unused hdrawn)

/-- If no UUID has been drawn twice none had been one step earlier. -/
theorem fresh_of_snoc {happenings : List (Happening PeerId)} {a : Happening PeerId}
    (hfresh : (run cfg (happenings ++ [a])).state.manager.drawn.Nodup) :
    (run cfg happenings).state.manager.drawn.Nodup := by
  rcases run_snoc_cases cfg happenings a with ⟨-, hrun⟩ | ⟨effect, tasks, -, hrun⟩
  · rwa [hrun] at hfresh
  · rw [hrun, Effect.apply_manager] at hfresh
    exact hfresh.sublist (effect.access.drawn_suffix _).sublist

/-- If no UUID has been drawn twice none had been earlier. -/
theorem fresh_of_append {happenings later : List (Happening PeerId)}
    (hfresh : (run cfg (happenings ++ later)).state.manager.drawn.Nodup) :
    (run cfg happenings).state.manager.drawn.Nodup := by
  induction later using List.reverseRecOn with
  | nil => rwa [List.append_nil] at hfresh
  | append_singleton later a ih =>
    rw [← List.append_assoc] at hfresh
    exact ih (fresh_of_snoc hfresh)

/-- If no UUID has been drawn twice in the end none has been at any step. -/
theorem along_fresh (happenings : List (Happening PeerId))
    (hfresh : (run cfg happenings).state.manager.drawn.Nodup) :
    Along (fun e _ => Fresh e) (run cfg happenings).history := by
  induction happenings using List.reverseRecOn with
  | nil => exact trivial
  | append_singleton happenings a ih =>
    have hbefore := ih (fresh_of_snoc hfresh)
    unfold run at hfresh hbefore ⊢
    rw [Machine.run_snoc] at hfresh ⊢
    exact ⟨hfresh, hbefore⟩

/-- **Custody.** If no UUID is drawn twice every reservation is in custody throughout a run. -/
theorem run_safe (happenings : List (Happening PeerId)) (hfresh : (run cfg happenings).state.manager.drawn.Nodup) :
    Safe (run cfg happenings).state ∧ Along (fun e _ => Safe e.pre) (run cfg happenings).history :=
  run_state_rule Safe (fun e _ => Fresh e) (Safe.initial cfg)
    (fun _ _ _ _ _ h hsteps hc => h.step hsteps hc) happenings (along_fresh happenings hfresh)

end Hypha.Worker
