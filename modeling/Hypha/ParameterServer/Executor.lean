import Mathlib.Data.List.Dedup
import Hypha.Messages

/-!
# The parameter server's executor

`ParameterServerExecutor::execute` (`parameter_server.rs`): the loop that asks the scheduler for the next action and
carries it out, and the store of received updates that it aggregates from. The loop waits for the answer to a request,
for an idle timeout, for an update to aggregate and for the end of a broadcast, and files arrive meanwhile:
`Executor.step` takes it from one such place to the next.

* `Executor.respondTo` : what the loop does with an answer;
* `Executor.pick` : one turn of the selection loop of `aggregate_updates`;
* `Executor.aggregated`, `Executor.broadcasted` : how an aggregation and a broadcast end;
* `step_keeps` : only an aggregation and a broadcast touch the gradient and the momentum.

A file is known by an identifier; the tensors, the files' paths and the timers are left out.
-/

namespace Hypha.ParameterServer

open Hypha.Action

set_option linter.unusedSectionVars false

variable {PeerId F : Type} [LinearOrder PeerId]

/-- What a gradient was summed from: the peers and their files, the last one first. -/
abbrev Gradient (PeerId F : Type) := List (PeerId × F)

/-- Where the loop waits. A request is made in attempts; an aggregation remembers the exchange whose answer it serves,
the peers it may take from and what it has taken. -/
inductive Phase (PeerId F : Type) where
  | requesting (attempts : Nat)
  | awaiting (attempts exchange : Nat)
  | idling
  | aggregating (exchange : Nat) (allowed : List PeerId) (used : Gradient PeerId F)
  | broadcasting
  | stopped
  deriving DecidableEq

/-- The variables of `execute`. The store lists the received files, newest first; the vector of a peer is its part of
the list. `momentum` lists what the momentum file was updated with. -/
structure Executor (PeerId F : Type) where
  currentStatus : AggregateStatus := .idle
  pendingUpdate : Option (Gradient PeerId F) := none
  momentum : List (Gradient PeerId F) := []
  store : List (PeerId × F) := []
  phase : Phase PeerId F := .requesting 0

/-- `FixedInterval::from_millis(50).take(20)`: one attempt and twenty more. -/
def maxAttempts : Nat := 21

/-- `Receive::try_from` and `get_peers`. -/
def receivePeers : Reference PeerId → Except String (List PeerId)
  | .peers peers .all _ => .ok peers
  | .peers _ _ _ => .error "Receive requires SelectionStrategy::All"
  | _ => .error "Receive can only be created from Peers"

/-- `Send::try_from`. -/
def sendPeers : Reference PeerId → Except String (List PeerId)
  | .peers peers _ _ => .ok peers
  | _ => .error "Send can only be created from Peers"

/-- How `aggregate_updates` ends once it has selected its updates: an error may come before or after the update of the
momentum file. -/
inductive AggregateResult where
  | finished
  | failed (message : String) (momentumUpdated : Bool)

namespace Executor

variable (e : Executor PeerId F)

/-- Go on to the next request. -/
def report (status : AggregateStatus) : Executor PeerId F :=
  { e with currentStatus := status, phase := .requesting 0 }

/-- The body of the loop, after an answer. -/
def respondTo (exchange : Nat) : ExecutorAction PeerId → Executor PeerId F
  | .aggregate .terminate => { e with phase := .stopped }
  | .aggregate (.idle _) => { e with phase := .idling }
  | .aggregate (.aggregateUpdates source) =>
    match receivePeers source with
    | .error message => e.report (.error (.connection message))
    | .ok allowed => { e with phase := .aggregating exchange allowed [] }
  | .aggregate (.broadcastUpdate target) =>
    match e.pendingUpdate with
    | none => e.report (.error (.other "no aggregated update available"))
    | some _ =>
      match sendPeers target with
      | .error message => e.report (.error (.connection message))
      | .ok _ => { e with phase := .broadcasting }
  | .train _ => e.report (.error (.other "unexpected executor action"))

/-- An attempt to reach the scheduler fails: it is made again, or given up and reported. -/
def attemptFails (attempts : Nat) (message : String) : Executor PeerId F :=
  if attempts + 1 < maxAttempts then { e with phase := .requesting (attempts + 1) }
  else e.report (.error (.connection ("action request failed: " ++ message)))

end Executor

/-! ## Selecting updates -/

/-- Whether every allowed peer was taken from; `allowed` is a set. -/
def exhausted (allowed : List PeerId) (used : Gradient PeerId F) : Bool :=
  !allowed.isEmpty && decide (allowed.dedup.length ≤ used.length)

/-- Whether a file of the peer is there to be taken. With no allowed peers any may be taken from. -/
def eligible (allowed : List PeerId) (used : Gradient PeerId F) (store : List (PeerId × F)) (p : PeerId) : Bool :=
  (allowed.isEmpty || allowed.any (fun q => decide (q = p))) && !used.any (fun u => decide (u.1 = p)) &&
    store.any (fun u => decide (u.1 = p))

namespace Executor

variable (e : Executor PeerId F)

/-- Take the newest file of a peer. The map's keys come in any order, so any eligible peer may be the first. -/
def pick (p : PeerId) : Option (Executor PeerId F) :=
  match e.phase with
  | .aggregating exchange allowed used =>
    if exhausted allowed used || !eligible allowed used e.store p then none
    else (e.store.find? (fun u => decide (u.1 = p))).map fun u =>
      { e with
        store := e.store.eraseP (fun u => decide (u.1 = p))
        phase := .aggregating exchange allowed (u :: used) }
  | _ => none

/-- The selection ends when it is exhausted, or no file has come for a while; the sum then updates the momentum file. The
time of the timeout is arbitrary, and a file may come just before it and stay in the store. -/
def aggregated (result : AggregateResult) : Option (Executor PeerId F) :=
  match e.phase with
  | .aggregating _ _ used =>
    match result with
    | .finished =>
      if used.isEmpty then some (e.report (.error (.connection "no updates available to aggregate")))
      else some { e.report (.aggregatedUpdates none) with pendingUpdate := some used, momentum := used :: e.momentum }
    | .failed message momentumUpdated =>
      if used.isEmpty then none
      else some { e.report (.error (.other message)) with
        momentum := if momentumUpdated then used :: e.momentum else e.momentum }
  | _ => none

/-- A broadcast ends, perhaps by an error. -/
def broadcasted (error : Option String) : Option (Executor PeerId F) :=
  match e.phase with
  | .broadcasting =>
    match error with
    | none => some { e.report (.broadcastedUpdate none) with pendingUpdate := none }
    | some message => some (e.report (.error (.connection message)))
  | _ => none

end Executor

/-! ## The executor as a machine -/

/-- What may happen to the executor. -/
inductive Act (PeerId F : Type) where
  | asks (exchange : Nat)
  | fails (message : String)
  | hears (action : ExecutorAction PeerId)
  | wakes
  | picks (peer : PeerId)
  | aggregates (result : AggregateResult)
  | broadcasts (error : Option String)
  | cancels
  | receives (peer : PeerId) (file : F)

/-- One act, if the executor is where it can happen. -/
def Executor.step (e : Executor PeerId F) : Act PeerId F → Option (Executor PeerId F)
  | .asks exchange =>
    match e.phase with
    | .requesting attempts => some { e with phase := .awaiting attempts exchange }
    | _ => none
  | .fails message =>
    match e.phase with
    | .awaiting attempts _ => some (e.attemptFails attempts message)
    | _ => none
  | .hears action =>
    match e.phase with
    | .awaiting _ exchange => some (e.respondTo exchange action)
    | _ => none
  | .wakes =>
    match e.phase with
    | .idling => some (e.report .idle)
    | _ => none
  | .picks p => e.pick p
  | .aggregates result => e.aggregated result
  | .broadcasts error => e.broadcasted error
  | .cancels => some { e with phase := .stopped }
  | .receives p file => some { e with store := (p, file) :: e.store }

section Keeps
variable {e e' : Executor PeerId F}

theorem respondTo_keeps (e : Executor PeerId F) (exchange : Nat) (action : ExecutorAction PeerId) :
    (e.respondTo exchange action).pendingUpdate = e.pendingUpdate ∧
      (e.respondTo exchange action).momentum = e.momentum := by
  unfold Executor.respondTo
  split
  · exact ⟨rfl, rfl⟩
  · exact ⟨rfl, rfl⟩
  · split <;> exact ⟨rfl, rfl⟩
  · split
    · exact ⟨rfl, rfl⟩
    · split <;> exact ⟨rfl, rfl⟩
  · exact ⟨rfl, rfl⟩

theorem attemptFails_keeps (e : Executor PeerId F) (attempts : Nat) (message : String) :
    (e.attemptFails attempts message).pendingUpdate = e.pendingUpdate ∧
      (e.attemptFails attempts message).momentum = e.momentum := by
  unfold Executor.attemptFails
  split_ifs <;> exact ⟨rfl, rfl⟩

theorem pick_keeps {p : PeerId} (h : e.pick p = some e') :
    e'.pendingUpdate = e.pendingUpdate ∧ e'.momentum = e.momentum := by
  unfold Executor.pick at h
  split at h
  · split_ifs at h
    obtain ⟨u, -, rfl⟩ := Option.map_eq_some_iff.mp h
    exact ⟨rfl, rfl⟩
  · cases h

/-- An aggregation ends without effect, or with a gradient that the momentum was updated with, and then it is held or the
step has failed after that. -/
theorem aggregated_cases {result : AggregateResult} (h : e.aggregated result = some e') :
    (e'.pendingUpdate = e.pendingUpdate ∧ e'.momentum = e.momentum) ∨
      ∃ gradient, e'.momentum = gradient :: e.momentum ∧ e'.phase = .requesting 0 ∧
        ((e'.currentStatus = .aggregatedUpdates none ∧ e'.pendingUpdate = some gradient) ∨
          ∃ message, e'.currentStatus = .error (.other message) ∧ e'.pendingUpdate = e.pendingUpdate) := by
  unfold Executor.aggregated at h
  split at h
  · next exchange allowed used hphase =>
    cases result with
    | finished =>
      dsimp only at h
      split_ifs at h <;> cases h
      · exact Or.inl ⟨rfl, rfl⟩
      · exact Or.inr ⟨used, rfl, rfl, Or.inl ⟨rfl, rfl⟩⟩
    | failed message momentumUpdated =>
      dsimp only at h
      split_ifs at h <;> cases h
      · exact Or.inr ⟨used, rfl, rfl, Or.inr ⟨message, rfl, rfl⟩⟩
      · exact Or.inl ⟨rfl, rfl⟩
  · cases h

theorem broadcasted_cases {error : Option String} (h : e.broadcasted error = some e') :
    (e'.pendingUpdate = e.pendingUpdate ∨ e'.pendingUpdate = none) ∧ e'.momentum = e.momentum := by
  unfold Executor.broadcasted at h
  split at h
  · split at h <;> cases h
    · exact ⟨Or.inr rfl, rfl⟩
    · exact ⟨Or.inl rfl, rfl⟩
  · cases h

/-- An act other than the end of an aggregation or of a broadcast keeps the gradient and the momentum. -/
theorem step_keeps {act : Act PeerId F} (h : e.step act = some e') (haggregates : ∀ result, act ≠ .aggregates result)
    (hbroadcasts : ∀ error, act ≠ .broadcasts error) :
    e'.pendingUpdate = e.pendingUpdate ∧ e'.momentum = e.momentum := by
  cases act with
  | asks exchange =>
    simp only [Executor.step] at h
    split at h <;> cases h
    exact ⟨rfl, rfl⟩
  | fails message =>
    simp only [Executor.step] at h
    split at h <;> cases h
    exact attemptFails_keeps _ _ _
  | hears action =>
    simp only [Executor.step] at h
    split at h <;> cases h
    exact respondTo_keeps _ _ _
  | wakes =>
    simp only [Executor.step] at h
    split at h <;> cases h
    exact ⟨rfl, rfl⟩
  | picks p => exact pick_keeps h
  | aggregates result => exact absurd rfl (haggregates result)
  | broadcasts error => exact absurd rfl (hbroadcasts error)
  | cancels =>
    cases h
    exact ⟨rfl, rfl⟩
  | receives p file =>
    cases h
    exact ⟨rfl, rfl⟩

end Keeps

end Hypha.ParameterServer
