import Hypha.Lib.Machine
import Hypha.Lib.Table

/-!
# Kademlia queries

The driver of `kad.rs` between its callers and the Kademlia behaviour: actions start queries, the behaviour reports
their progress, and the driver sends the results to the callers.

* `KademliaDriver.processKademliaAction`, `KademliaDriver.processKademliaQueryResult` : what the driver does with an
  action and with a result;
* `Forgotten` : a query is pending exactly if an action started it and its last step has not been processed;
* `forgotten_iff` : when that holds in every state of a run.

The keys, records and answers that the driver passes on unread are all of one type `Data`.
-/

namespace Hypha.Network

open Hypha.Lib

/-- `GetRecordOk`. -/
inductive GetRecordOk (Data : Type) where
  | foundRecord (peer record : Data)
  | finishedWithNoAdditionalRecord (cacheCandidates : Data)

/-- `QueryResult`. -/
inductive QueryResult (Data : Type) where
  | bootstrap (result : Except Data Data)
  | getClosestPeers (result : Except Data Data)
  | getProviders (result : Except Data Data)
  | startProviding (result : Except Data Data)
  | republishProvider (result : Except Data Data)
  | getRecord (result : Except Data (GetRecordOk Data))
  | putRecord (result : Except Data Data)
  | republishRecord (result : Except Data Data)

inductive KademliaOk (Data : Type) where
  | getProviders (ok : Data)
  | startProviding
  | putRecord
  | getRecord (record : Data)
  | getClosestPeers (ok : Data)
  deriving DecidableEq

inductive KademliaError (Data : Type) where
  | getProviders (err : Data)
  | store (err : Data)
  | putRecord (err : Data)
  | getRecord (err : Data)
  | getClosestPeers (err : Data)
  deriving DecidableEq

/-- An action with the sender of its caller. -/
inductive KademliaAction (Tx Data : Type) where
  | getProvider (key : Data) (tx : Tx)
  | getRecord (key : Data) (tx : Tx)
  | putRecord (record : Data) (tx : Tx)
  | startProviding (key : Data) (tx : Tx)
  | getClosestPeers (peer : Data) (tx : Tx)
  | waitForBootstrap (tx : Tx)

/-- What goes into the channel of a caller. -/
inductive Sent (Tx Data : Type) where
  | result (tx : Tx) (result : Except (KademliaError Data) (KademliaOk Data))
  | bootstrapped (tx : Tx)

/-- What the driver keeps: the sender for each query, whether `pending_bootstrap` is set, and the tasks that wait for
that. A pending query has the only sender of its caller's channel, which is closed when the entry is removed. -/
structure KademliaDriver (QueryId Tx : Type) where
  pendingQueries : Table QueryId Tx := ∅
  pendingBootstrap : Bool := false
  waiting : List Tx := []

/-- An action comes with the id that the behaviour gives its query, and with what its store says of the record. -/
inductive KademliaInput (QueryId Tx Data : Type) where
  | action (action : KademliaAction Tx Data) (queryId : QueryId) (stored : Except Data Unit)
  | progress (queryId : QueryId) (result : QueryResult Data) (last : Bool)
  | resume (n : Nat)

variable {QueryId Tx Data : Type} [DecidableEq QueryId]

namespace KademliaDriver

variable (s : KademliaDriver QueryId Tx)

def insertQuery (queryId : QueryId) (tx : Tx) : KademliaDriver QueryId Tx :=
  { s with pendingQueries := s.pendingQueries.insert queryId tx }

/-- `process_kademlia_action`. -/
def processKademliaAction (action : KademliaAction Tx Data) (queryId : QueryId) (stored : Except Data Unit) :
    KademliaDriver QueryId Tx × Option (Sent Tx Data) :=
  match action with
  | .getRecord _ tx => (s.insertQuery queryId tx, none)
  | .putRecord _ tx =>
    match stored with
    | .ok () => (s.insertQuery queryId tx, none)
    | .error err => (s, some (.result tx (.error (.store err))))
  | .getProvider _ tx => (s.insertQuery queryId tx, none)
  | .startProviding _ tx =>
    match stored with
    | .ok () => (s.insertQuery queryId tx, none)
    | .error err => (s, some (.result tx (.error (.store err))))
  | .getClosestPeers _ tx => (s.insertQuery queryId tx, none)
  | .waitForBootstrap tx => ({ s with waiting := s.waiting ++ [tx] }, none)

/-- `send_kademlia_result`. -/
def sendKademliaResult (queryId : QueryId) (last : Bool) (result : Except (KademliaError Data) (KademliaOk Data)) :
    KademliaDriver QueryId Tx × Option (Sent Tx Data) :=
  match s.pendingQueries.lookup queryId with
  | none => (s, none)
  | some tx =>
    if last then ({ s with pendingQueries := s.pendingQueries.erase queryId }, some (.result tx result))
    else (s, some (.result tx result))

/-- `process_kademlia_query_result`. -/
def processKademliaQueryResult (queryId : QueryId) (result : QueryResult Data) (last : Bool) :
    KademliaDriver QueryId Tx × Option (Sent Tx Data) :=
  match result with
  | .putRecord (.ok _) => s.sendKademliaResult queryId last (.ok .putRecord)
  | .putRecord (.error err) => s.sendKademliaResult queryId last (.error (.putRecord err))
  | .getRecord (.ok (.foundRecord _ record)) => s.sendKademliaResult queryId last (.ok (.getRecord record))
  | .getRecord (.error err) => s.sendKademliaResult queryId last (.error (.getRecord err))
  | .getProviders (.ok providers) => s.sendKademliaResult queryId last (.ok (.getProviders providers))
  | .getProviders (.error err) => s.sendKademliaResult queryId last (.error (.getProviders err))
  | .startProviding (.ok _) => s.sendKademliaResult queryId last (.ok .startProviding)
  | .getClosestPeers (.ok closestPeers) => s.sendKademliaResult queryId last (.ok (.getClosestPeers closestPeers))
  | .getClosestPeers (.error err) => s.sendKademliaResult queryId last (.error (.getClosestPeers err))
  | .bootstrap (.ok _) => ({ s with pendingBootstrap := true }, none)
  | _ => (s, none)

/-- A task that `WaitForBootstrap` spawned runs. -/
def resume (n : Nat) : KademliaDriver QueryId Tx × Option (Sent Tx Data) :=
  match s.waiting[n]? with
  | none => (s, none)
  | some tx =>
    if s.pendingBootstrap then ({ s with waiting := s.waiting.eraseIdx n }, some (.bootstrapped tx)) else (s, none)

end KademliaDriver

def kademliaStep (s : KademliaDriver QueryId Tx) :
    KademliaInput QueryId Tx Data → KademliaDriver QueryId Tx × Option (Sent Tx Data)
  | .action action queryId stored => s.processKademliaAction action queryId stored
  | .progress queryId result last => s.processKademliaQueryResult queryId result last
  | .resume n => s.resume n

def kademlia : Machine (KademliaDriver QueryId Tx) (KademliaInput QueryId Tx Data) (Option (Sent Tx Data)) :=
  ⟨kademliaStep⟩

/-- One step of a run. -/
abbrev KademliaEvent (QueryId Tx Data : Type) :=
  Event (KademliaDriver QueryId Tx) (KademliaInput QueryId Tx Data) (Option (Sent Tx Data))

/-! ## Queries that are forgotten -/

/-- The query that an input starts, with the sender of its caller. -/
def KademliaInput.starts : KademliaInput QueryId Tx Data → Option (QueryId × Tx)
  | .action (.getProvider _ tx) queryId _ => some (queryId, tx)
  | .action (.getRecord _ tx) queryId _ => some (queryId, tx)
  | .action (.putRecord _ tx) queryId (.ok ()) => some (queryId, tx)
  | .action (.startProviding _ tx) queryId (.ok ()) => some (queryId, tx)
  | .action (.getClosestPeers _ tx) queryId _ => some (queryId, tx)
  | _ => none

/-- The query whose last step an input is. -/
def KademliaInput.finishes : KademliaInput QueryId Tx Data → Option QueryId
  | .progress queryId _ true => some queryId
  | _ => none

def Started (h : List (KademliaEvent QueryId Tx Data)) (queryId : QueryId) (tx : Tx) : Prop :=
  some (queryId, tx) ∈ h.map (·.input.starts)

def Finished (h : List (KademliaEvent QueryId Tx Data)) (queryId : QueryId) : Prop :=
  some queryId ∈ h.map (·.input.finishes)

/-- A query is pending, for its caller, exactly if it has been started and not been finished. -/
def Forgotten (s : KademliaDriver QueryId Tx) (h : List (KademliaEvent QueryId Tx Data)) : Prop :=
  ∀ queryId tx, s.pendingQueries.lookup queryId = some tx ↔ Started h queryId tx ∧ ¬ Finished h queryId

/-- A query starts under an id that no query has had. -/
def NewId (e : KademliaEvent QueryId Tx Data) (h : List (KademliaEvent QueryId Tx Data)) : Prop :=
  ∀ started, e.input.starts = some started → ¬ Finished h started.1 ∧ ∀ tx, ¬ Started h started.1 tx

/-- The results that the driver passes over. -/
def QueryResult.PassedOver : QueryResult Data → Prop
  | .getRecord (.ok (.finishedWithNoAdditionalRecord _)) => True
  | .startProviding (.error _) => True
  | .bootstrap _ => True
  | .republishProvider _ => True
  | .republishRecord _ => True
  | _ => False

/-- No query in progress finishes with a result that is passed over. -/
def Heard (e : KademliaEvent QueryId Tx Data) (h : List (KademliaEvent QueryId Tx Data)) : Prop :=
  ∀ queryId result, e.input = .progress queryId result true → result.PassedOver →
    ∀ tx, Started h queryId tx → Finished h queryId

section Step

variable {s : KademliaDriver QueryId Tx} {i : KademliaInput QueryId Tx Data} {h : List (KademliaEvent QueryId Tx Data)}
  {e : KademliaEvent QueryId Tx Data} {queryId : QueryId} {tx : Tx}

omit [DecidableEq QueryId] in
theorem started_cons : Started (e :: h) queryId tx ↔ e.input.starts = some (queryId, tx) ∨ Started h queryId tx := by
  unfold Started
  rw [List.map_cons, List.mem_cons, eq_comm]

omit [DecidableEq QueryId] in
theorem finished_cons : Finished (e :: h) queryId ↔ e.input.finishes = some queryId ∨ Finished h queryId := by
  unfold Finished
  rw [List.map_cons, List.mem_cons, eq_comm]

omit [DecidableEq QueryId] in
theorem finishes_eq_some : i.finishes = some queryId ↔ ∃ result, i = .progress queryId result true := by
  constructor
  · intro hi
    unfold KademliaInput.finishes at hi
    split at hi
    · next id result =>
      cases hi
      exact ⟨result, rfl⟩
    · cases hi
  · rintro ⟨result, rfl⟩
    rfl

/-- What a step can do to the pending queries. -/
inductive Pending (s : KademliaDriver QueryId Tx) (i : KademliaInput QueryId Tx Data) (s' : KademliaDriver QueryId Tx) :
    Prop where
  | starts {queryId : QueryId} {tx : Tx} (input : i.starts = some (queryId, tx)) (others : i.finishes = none)
      (pending : s'.pendingQueries = s.pendingQueries.insert queryId tx)
  | finishes {queryId : QueryId} {result : QueryResult Data} (input : i = .progress queryId result true)
      (heard : ¬ result.PassedOver) (pending : ∀ id tx,
        s'.pendingQueries.lookup id = some tx ↔ id ≠ queryId ∧ s.pendingQueries.lookup id = some tx)
  | stays (others : i.starts = none) (unheard : ∀ queryId result, i = .progress queryId result true → result.PassedOver)
      (pending : s'.pendingQueries = s.pendingQueries)

/-- A result that is sent on. -/
theorem pending_send {result : QueryResult Data} (last : Bool) (heard : ¬ result.PassedOver)
    (answer : Except (KademliaError Data) (KademliaOk Data)) :
    Pending s (.progress queryId result last) (s.sendKademliaResult queryId last answer).1 := by
  unfold KademliaDriver.sendKademliaResult
  cases last with
  | false =>
    refine .stays rfl (fun _ _ hi => by cases hi) ?_
    split <;> rfl
  | true =>
    refine .finishes rfl heard fun id tx => ?_
    split
    · next hnone =>
      refine ⟨fun hid => ⟨?_, hid⟩, And.right⟩
      rintro rfl
      rw [hnone] at hid
      cases hid
    · exact Table.lookup_erase_iff

theorem pending_step : Pending s i (kademliaStep s i).1 := by
  cases i with
  | action action id stored =>
    cases action with
    | getProvider => exact .starts rfl rfl rfl
    | getRecord => exact .starts rfl rfl rfl
    | getClosestPeers => exact .starts rfl rfl rfl
    | putRecord =>
      cases stored with
      | ok => exact .starts rfl rfl rfl
      | error err => exact .stays rfl (fun _ _ hi => by cases hi) rfl
    | startProviding =>
      cases stored with
      | ok => exact .starts rfl rfl rfl
      | error err => exact .stays rfl (fun _ _ hi => by cases hi) rfl
    | waitForBootstrap => exact .stays rfl (fun _ _ hi => by cases hi) rfl
  | progress id result last =>
    have sent (h : ¬ result.PassedOver) (answer : Except (KademliaError Data) (KademliaOk Data)) :
        Pending s (.progress id result last) (s.sendKademliaResult id last answer).1 := pending_send last h answer
    have passed (h : result.PassedOver) {s' : KademliaDriver QueryId Tx} (hs : s'.pendingQueries = s.pendingQueries) :
        Pending s (.progress id result last) s' := by
      refine .stays rfl (fun _ _ hi => ?_) hs
      cases hi
      exact h
    cases result with
    | putRecord result => cases result <;> exact sent not_false _
    | getProviders result => cases result <;> exact sent not_false _
    | getClosestPeers result => cases result <;> exact sent not_false _
    | getRecord result =>
      cases result with
      | error err => exact sent not_false _
      | ok ok =>
        cases ok with
        | foundRecord peer record => exact sent not_false _
        | finishedWithNoAdditionalRecord => exact passed trivial rfl
    | startProviding result =>
      cases result with
      | ok => exact sent not_false _
      | error err => exact passed trivial rfl
    | bootstrap result => cases result <;> exact passed trivial rfl
    | republishProvider result => exact passed trivial rfl
    | republishRecord result => exact passed trivial rfl
  | resume n =>
    refine .stays rfl (fun _ _ hi => by cases hi) ?_
    simp only [kademliaStep, KademliaDriver.resume]
    split
    · rfl
    · split_ifs <;> rfl

end Step

/-- A step that keeps track of the queries. -/
theorem forgotten_next {w : World (KademliaDriver QueryId Tx) (KademliaInput QueryId Tx Data) (Option (Sent Tx Data))}
    {i : KademliaInput QueryId Tx Data} (h : Forgotten w.state w.history)
    (hnew : NewId (kademlia.event w.state i) w.history) :
    Forgotten (kademlia.next w i).state (kademlia.next w i).history ↔ Heard (kademlia.event w.state i) w.history := by
  have hpending : Pending w.state i (kademlia.next w i).state := pending_step
  generalize (kademlia.next w i).state = s' at hpending
  unfold Forgotten at h ⊢
  simp only [Machine.next_history, started_cons, finished_cons, Machine.event_input]
  cases hpending with
  | @starts id tx input others pending =>
    refine iff_of_true (fun id' tx' => ?_) (fun id' result hi => ?_)
    · obtain ⟨hunfinished, hunstarted⟩ := hnew (id, tx) input
      rw [pending, Table.lookup_insert_iff, input, others, h]
      by_cases hid : id' = id
      · subst hid
        simp [hunfinished, hunstarted]
      · simp [hid, Ne.symm hid]
    · obtain rfl : i = _ := hi
      cases others
  | @finishes id result input heard pending =>
    subst input
    refine iff_of_true (fun id' tx' => ?_) (fun id' result' hi hpassed => ?_)
    · rw [pending, h]
      simp only [KademliaInput.starts, KademliaInput.finishes, reduceCtorEq, false_or, Option.some.injEq, not_or]
      tauto
    · cases hi
      exact absurd hpassed heard
  | stays others unheard pending =>
    rw [others, pending]
    simp only [reduceCtorEq, false_or, h]
    constructor
    · intro hforgotten id result hi hpassed tx hstarted
      by_contra hunfinished
      exact ((hforgotten id tx).mp ⟨hstarted, hunfinished⟩).2 (Or.inl (finishes_eq_some.mpr ⟨result, hi⟩))
    · intro hheard id tx
      refine and_congr_right fun hstarted => not_congr ⟨Or.inr, fun hfinished => ?_⟩
      rcases hfinished with hi | hfinished
      case inr => exact hfinished
      obtain ⟨result, rfl⟩ := finishes_eq_some.mp hi
      exact hheard id result rfl (unheard id result rfl) tx hstarted

/-- **When queries are forgotten**, over every run in which the ids are new. -/
theorem forgotten_iff (inputs : List (KademliaInput QueryId Tx Data))
    (hnew : Along NewId (kademlia.run {} inputs).history) :
    Along (fun e h => Forgotten e.post (e :: h)) (kademlia.run {} inputs).history ↔
      Along Heard (kademlia.run {} inputs).history := by
  refine kademlia.along_invariant_iff (fun w => Forgotten w.state w.history) NewId Heard ?_
    (fun w i h hnew => forgotten_next h hnew) inputs hnew
  intro queryId tx
  exact iff_of_false (by simp) fun h => absurd h.1 (by simp [Started])

/-- A caller asks for the providers of a key, and another one stores a record. -/
def lookups : List (KademliaInput Nat Nat String) :=
  [.action (.getProvider "key" 5) 1 (.ok ()), .action (.putRecord "record" 6) 2 (.error "full"),
    .progress 1 (.getProviders (.ok "peers")) false, .progress 1 (.getProviders (.ok "no more")) true]

theorem forgotten_iff_lookups :
    Along (fun e h => Forgotten e.post (e :: h)) (kademlia.run {} lookups).history ↔
      Along Heard (kademlia.run {} lookups).history := by
  refine forgotten_iff lookups ⟨?_, ?_, ?_, ?_, trivial⟩ <;> intro started h <;> cases h
  exact ⟨by simp [Finished], fun tx => by simp [Started]⟩

/-- A caller asks for a record, and the query finds one and finishes. -/
def foundOnce : List (KademliaInput Nat Nat String) :=
  [.action (.getRecord "key" 5) 1 (.ok ()), .progress 1 (.getRecord (.ok (.foundRecord "peer" "record"))) false,
    .progress 1 (.getRecord (.ok (.finishedWithNoAdditionalRecord "peers"))) true]

/-- The query has finished and stays pending. -/
theorem forgotten_fails :
    (kademlia.run {} foundOnce).state.pendingQueries.lookup 1 = some 5 ∧
      Finished (kademlia.run {} foundOnce).history 1 ∧
      Along NewId (kademlia.run {} foundOnce).history ∧
      ¬ Along (fun e h => Forgotten e.post (e :: h)) (kademlia.run {} foundOnce).history := by
  have hpending : (kademlia.run {} foundOnce).state.pendingQueries.lookup 1 = some 5 := by rfl
  have hfinished : Finished (kademlia.run {} foundOnce).history 1 := List.mem_cons_self
  refine ⟨hpending, hfinished, ⟨?_, ?_, ?_, trivial⟩, fun h => ?_⟩
  · intro started h
    cases h
  · intro started h
    cases h
  · intro started h
    cases h
    exact ⟨by simp [Finished], fun tx => by simp [Started]⟩
  · exact ((h.1 1 5).mp hpending).2 hfinished

end Hypha.Network
