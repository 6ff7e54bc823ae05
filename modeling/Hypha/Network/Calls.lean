import Hypha.Lib.Calls
import Hypha.Lib.Table

/-!
# The calls of the network driver

The part of the driver's loop (`network.rs`) that answers those who dial, listen, request and respond: `dial.rs`,
`listen.rs`, and the outbound half of `request_response.rs`, which the driver has once for each of its three protocols. The
driver keeps the senders of the callers in five maps.

* `NetworkDriver.processAction`, `NetworkDriver.processEvent` : the two arms of the loop;
* `NetworkInput.call` : what an input is for the callers;
* `NetworkDriver.waiting`, `driver_step` : the five maps as one, and that the driver steps as `calls` does;
* `network_calls_answered` : every caller is answered once, with the first thing that the swarm reports for its call.

That an address is in an excluded range is only logged, and the map of outbound responses is never filled.
-/

namespace Hypha.Network

open Hypha.Lib

/-- The codecs of the three request-response protocols. -/
inductive RequestProtocol where
  | api
  | health
  | action
  deriving DecidableEq, Repr

/-- What a call may be answered; errors of the swarm are their texts. -/
inductive NetworkAnswer (PeerId Message : Type) where
  | dialed (result : Except String PeerId)
  | listening (result : Except String Unit)
  | response (result : Except String Message)
  | responded (result : Except String Unit)

/-- An action of a caller, with what the swarm answers when it is asked. -/
inductive NetworkAction (Tx : Type) where
  | dial (tx : Tx) (connectionId : Except String Nat)
  | listen (tx : Tx) (listenerId : Except String Nat)
  | outboundRequest (protocol : RequestProtocol) (tx : Tx) (requestId : Nat)
  | outboundResponse (protocol : RequestProtocol) (tx : Tx) (sent : Bool)

/-- An event of the swarm. -/
inductive SwarmEvent (PeerId Message : Type) where
  | connectionEstablished (peer : PeerId) (connectionId : Nat)
  | outgoingConnectionError (connectionId : Nat) (error : String)
  | newListenAddr (listenerId : Nat)
  | response (protocol : RequestProtocol) (requestId : Nat) (response : Message)
  | outboundFailure (protocol : RequestProtocol) (requestId : Nat) (error : String)
  | responseSent (protocol : RequestProtocol) (requestId : Nat)
  | other

inductive NetworkInput (Tx PeerId Message : Type) where
  | action (action : NetworkAction Tx)
  | event (event : SwarmEvent PeerId Message)

structure NetworkDriver (Tx : Type) where
  pendingDialsMap : Table Nat Tx := ∅
  pendingListenMap : Table Nat Tx := ∅
  outboundRequestsMap : Table Nat Tx := ∅
  healthOutboundRequestsMap : Table Nat Tx := ∅
  actionOutboundRequestsMap : Table Nat Tx := ∅

variable {Tx PeerId Message : Type}

namespace NetworkDriver

variable (s : NetworkDriver Tx)

/-- `outbound_requests` of a protocol. -/
def outboundRequests : RequestProtocol → Table Nat Tx
  | .api => s.outboundRequestsMap
  | .health => s.healthOutboundRequestsMap
  | .action => s.actionOutboundRequestsMap

def setOutboundRequests (requests : Table Nat Tx) : RequestProtocol → NetworkDriver Tx
  | .api => { s with outboundRequestsMap := requests }
  | .health => { s with healthOutboundRequestsMap := requests }
  | .action => { s with actionOutboundRequestsMap := requests }

/-- What is sent to the caller that a map has for an id. -/
def reply (pending : Table Nat Tx) (id : Nat) (answer : NetworkAnswer PeerId Message) :
    Option (Tx × NetworkAnswer PeerId Message) :=
  (pending.lookup id).map fun tx => (tx, answer)

/-- `process_dial_action`, `process_listen_action` and `process_request_response_action`. -/
def processAction : NetworkAction Tx → NetworkDriver Tx × Option (Tx × NetworkAnswer PeerId Message)
  | .dial tx (.error err) => (s, some (tx, .dialed (.error err)))
  | .dial tx (.ok connectionId) => ({ s with pendingDialsMap := s.pendingDialsMap.insert connectionId tx }, none)
  | .listen tx (.error err) => (s, some (tx, .listening (.error err)))
  | .listen tx (.ok listenerId) => ({ s with pendingListenMap := s.pendingListenMap.insert listenerId tx }, none)
  | .outboundRequest protocol tx requestId =>
    (s.setOutboundRequests ((s.outboundRequests protocol).insert requestId tx) protocol, none)
  | .outboundResponse _ tx sent =>
    (s, some (tx, .responded (if sent then .ok () else .error "Failed to send response")))

/-- `process_connection_established`, `process_connection_error`, `process_new_listen_addr` and
`process_request_response_event`. -/
def processEvent : SwarmEvent PeerId Message → NetworkDriver Tx × Option (Tx × NetworkAnswer PeerId Message)
  | .connectionEstablished peer connectionId =>
    ({ s with pendingDialsMap := s.pendingDialsMap.erase connectionId },
      reply s.pendingDialsMap connectionId (.dialed (.ok peer)))
  | .outgoingConnectionError connectionId error =>
    ({ s with pendingDialsMap := s.pendingDialsMap.erase connectionId },
      reply s.pendingDialsMap connectionId (.dialed (.error error)))
  | .newListenAddr listenerId =>
    ({ s with pendingListenMap := s.pendingListenMap.erase listenerId },
      reply s.pendingListenMap listenerId (.listening (.ok ())))
  | .response protocol requestId response =>
    (s.setOutboundRequests ((s.outboundRequests protocol).erase requestId) protocol,
      reply (s.outboundRequests protocol) requestId (.response (.ok response)))
  | .outboundFailure protocol requestId error =>
    (s.setOutboundRequests ((s.outboundRequests protocol).erase requestId) protocol,
      reply (s.outboundRequests protocol) requestId (.response (.error error)))
  | .responseSent _ _ | .other => (s, none)

end NetworkDriver

/-- The loop of the driver. -/
def networkDriver : Machine (NetworkDriver Tx) (NetworkInput Tx PeerId Message)
    (Option (Tx × NetworkAnswer PeerId Message)) where
  step s
    | .action action => s.processAction action
    | .event event => s.processEvent event

/-! ## One map for all calls -/

/-- An id with what it is an id of. -/
inductive CallId where
  | dial (connectionId : Nat)
  | listen (listenerId : Nat)
  | request (protocol : RequestProtocol) (requestId : Nat)
  deriving DecidableEq, Repr

/-- What an input is for the callers. -/
def NetworkInput.call : NetworkInput Tx PeerId Message → Option (CallInput CallId Tx (NetworkAnswer PeerId Message))
  | .action (.dial tx outcome) => some (.starts tx ((outcome.map .dial).mapError fun err => .dialed (.error err)))
  | .action (.listen tx outcome) => some (.starts tx ((outcome.map .listen).mapError fun err => .listening (.error err)))
  | .action (.outboundRequest protocol tx requestId) => some (.starts tx (.ok (.request protocol requestId)))
  | .action (.outboundResponse _ tx sent) =>
    some (.starts tx (.error (.responded (if sent then .ok () else .error "Failed to send response"))))
  | .event (.connectionEstablished peer connectionId) => some (.settles (.dial connectionId) (.dialed (.ok peer)))
  | .event (.outgoingConnectionError connectionId error) =>
    some (.settles (.dial connectionId) (.dialed (.error error)))
  | .event (.newListenAddr listenerId) => some (.settles (.listen listenerId) (.listening (.ok ())))
  | .event (.response protocol requestId response) =>
    some (.settles (.request protocol requestId) (.response (.ok response)))
  | .event (.outboundFailure protocol requestId error) =>
    some (.settles (.request protocol requestId) (.response (.error error)))
  | .event (.responseSent _ _) | .event .other => none

/-- Who waits under which id. -/
def NetworkDriver.waiting (s : NetworkDriver Tx) : CallId → Option Tx
  | .dial connectionId => s.pendingDialsMap.lookup connectionId
  | .listen listenerId => s.pendingListenMap.lookup listenerId
  | .request protocol requestId => (s.outboundRequests protocol).lookup requestId

section Simulation
variable (s : NetworkDriver Tx)

@[simp] theorem outboundRequests_set (requests : Table Nat Tx) (protocol other : RequestProtocol) :
    (s.setOutboundRequests requests protocol).outboundRequests other =
      if other = protocol then requests else s.outboundRequests other := by
  cases protocol <;> cases other <;> rfl

/-- A caller waits under a new id. -/
theorem waiting_starts {s' : NetworkDriver Tx} {callId : CallId} {tx : Tx}
    (hsame : ∀ k, k ≠ callId → s'.waiting k = s.waiting k) (hnew : s'.waiting callId = some tx) :
    s'.waiting = Function.update s.waiting callId (some tx) := by
  funext k
  by_cases hk : k = callId
  · rw [hk, hnew, Function.update_self]
  · rw [hsame k hk, Function.update_of_ne hk]

/-- The caller under an id is answered. -/
theorem waiting_settles {s' : NetworkDriver Tx} {callId : CallId} {answer : NetworkAnswer PeerId Message}
    (hsame : ∀ k, k ≠ callId → s'.waiting k = s.waiting k) (hgone : s'.waiting callId = none) :
    (s'.waiting, (s.waiting callId).map fun tx => (tx, answer)) =
      (calls CallId Tx (NetworkAnswer PeerId Message)).step s.waiting (.settles callId answer) := by
  have hupdate : s'.waiting = Function.update s.waiting callId none := by
    funext k
    by_cases hk : k = callId
    · rw [hk, hgone, Function.update_self]
    · rw [hsame k hk, Function.update_of_ne hk]
  rcases hwaiting : s.waiting callId with _ | tx
  · have hnone : Function.update s.waiting callId none = s.waiting := by rw [← hwaiting, Function.update_eq_self]
    simp [calls, hwaiting, hupdate, hnone]
  · simp [calls, hwaiting, hupdate]

variable {s : NetworkDriver Tx}

theorem waiting_dials {pending : Table Nat Tx} {id : Nat}
    (hsame : ∀ k, k ≠ id → pending.lookup k = s.pendingDialsMap.lookup k) (k : CallId) (hk : k ≠ .dial id) :
    ({ s with pendingDialsMap := pending } : NetworkDriver Tx).waiting k = s.waiting k := by
  cases k with
  | dial k => exact hsame k fun h => hk (congrArg CallId.dial h)
  | listen k => rfl
  | request protocol k => cases protocol <;> rfl

theorem waiting_listens {pending : Table Nat Tx} {id : Nat}
    (hsame : ∀ k, k ≠ id → pending.lookup k = s.pendingListenMap.lookup k) (k : CallId) (hk : k ≠ .listen id) :
    ({ s with pendingListenMap := pending } : NetworkDriver Tx).waiting k = s.waiting k := by
  cases k with
  | dial k => rfl
  | listen k => exact hsame k fun h => hk (congrArg CallId.listen h)
  | request protocol k => cases protocol <;> rfl

theorem waiting_requests {pending : Table Nat Tx} {protocol : RequestProtocol} {id : Nat}
    (hsame : ∀ k, k ≠ id → pending.lookup k = (s.outboundRequests protocol).lookup k) (k : CallId)
    (hk : k ≠ .request protocol id) : (s.setOutboundRequests pending protocol).waiting k = s.waiting k := by
  cases k with
  | dial k => cases protocol <;> rfl
  | listen k => cases protocol <;> rfl
  | request other k =>
    show ((s.setOutboundRequests pending protocol).outboundRequests other).lookup k = _
    rw [outboundRequests_set]
    split_ifs with hother
    · subst hother
      exact hsame k fun h => hk (congrArg (CallId.request other) h)
    · rfl

theorem waiting_request_self (pending : Table Nat Tx) (protocol : RequestProtocol) (id : Nat) :
    (s.setOutboundRequests pending protocol).waiting (.request protocol id) = pending.lookup id := by
  show ((s.setOutboundRequests pending protocol).outboundRequests protocol).lookup id = _
  rw [outboundRequests_set, if_pos rfl]

/-- **The driver steps as `calls` does**: its five maps are one. -/
theorem driver_step (s : NetworkDriver Tx) (input : NetworkInput Tx PeerId Message) :
    match input.call with
    | some call => ((networkDriver.step s input).1.waiting, (networkDriver.step s input).2) =
        (calls CallId Tx (NetworkAnswer PeerId Message)).step s.waiting call
    | none => networkDriver.step s input = (s, none) := by
  cases input with
  | action action =>
    cases action with
    | dial tx outcome =>
      cases outcome with
      | error err => rfl
      | ok id =>
        exact congrArg (·, none) (waiting_starts s (waiting_dials fun k hk => AList.lookup_insert_ne hk)
          (AList.lookup_insert s.pendingDialsMap))
    | listen tx outcome =>
      cases outcome with
      | error err => rfl
      | ok id =>
        exact congrArg (·, none) (waiting_starts s (waiting_listens fun k hk => AList.lookup_insert_ne hk)
          (AList.lookup_insert s.pendingListenMap))
    | outboundRequest protocol tx id =>
      refine congrArg (·, none) (waiting_starts s (waiting_requests fun k hk => AList.lookup_insert_ne hk) ?_)
      exact (waiting_request_self _ protocol id).trans (AList.lookup_insert (s.outboundRequests protocol))
    | outboundResponse protocol tx sent => rfl
  | event event =>
    cases event with
    | connectionEstablished peer id =>
      exact waiting_settles s (waiting_dials fun k hk => AList.lookup_erase_ne hk) (AList.lookup_erase id s.pendingDialsMap)
    | outgoingConnectionError id error =>
      exact waiting_settles s (waiting_dials fun k hk => AList.lookup_erase_ne hk) (AList.lookup_erase id s.pendingDialsMap)
    | newListenAddr id =>
      exact waiting_settles s (waiting_listens fun k hk => AList.lookup_erase_ne hk) (AList.lookup_erase id s.pendingListenMap)
    | response protocol id response =>
      exact waiting_settles s (waiting_requests fun k hk => AList.lookup_erase_ne hk)
        ((waiting_request_self _ protocol id).trans (AList.lookup_erase id (s.outboundRequests protocol)))
    | outboundFailure protocol id error =>
      exact waiting_settles s (waiting_requests fun k hk => AList.lookup_erase_ne hk)
        ((waiting_request_self _ protocol id).trans (AList.lookup_erase id (s.outboundRequests protocol)))
    | responseSent protocol id => rfl
    | other => rfl

end Simulation

section Run
variable [DecidableEq Tx]

/-- Along a run the driver keeps in step with `calls`. -/
theorem driver_run (inputs : List (NetworkInput Tx PeerId Message)) :
    (networkDriver.run {} inputs).state.waiting =
        ((calls CallId Tx (NetworkAnswer PeerId Message)).run (fun _ => none)
          (inputs.filterMap NetworkInput.call)).state ∧
      ∀ tx, answersTo tx (networkDriver.run {} inputs).history =
        answersTo tx ((calls CallId Tx (NetworkAnswer PeerId Message)).run (fun _ => none)
          (inputs.filterMap NetworkInput.call)).history := by
  induction inputs using List.reverseRecOn with
  | nil =>
    refine ⟨?_, fun tx => rfl⟩
    funext k
    cases k with
    | dial id => rfl
    | listen id => rfl
    | request protocol id => cases protocol <;> rfl
  | append_singleton inputs input ih =>
    obtain ⟨hstate, hanswers⟩ := ih
    have hstep := driver_step (networkDriver.run {} inputs).state input
    rw [Machine.run_snoc, List.filterMap_append]
    rcases hcall : input.call with _ | call
    · simp only [hcall] at hstep
      simp only [List.filterMap_cons, hcall, List.filterMap_nil, List.append_nil, Machine.next_state,
        Machine.next_history, answersTo_cons, Machine.event_output, hstep, Option.bind_none, Option.toList_none]
      exact ⟨hstate, hanswers⟩
    · simp only [hcall, hstate, Prod.ext_iff] at hstep
      simp only [List.filterMap_cons, hcall, List.filterMap_nil, Machine.run_snoc, Machine.next_state,
        Machine.next_history, answersTo_cons, Machine.event_output, hstep.2, hanswers]
      exact ⟨hstep.1, fun tx => trivial⟩

/-- **Calls of the network.** If no caller calls twice and the swarm gives no id twice while a call waits under it, then
in every run of the driver every caller is answered once, with the first thing that the swarm reports for its call, and
waits until then. -/
theorem network_calls_answered (inputs : List (NetworkInput Tx PeerId Message))
    (hfresh : Fresh (inputs.filterMap NetworkInput.call)) (tx : Tx) :
    answersTo tx (networkDriver.run {} inputs).history = (status tx (inputs.filterMap NetworkInput.call)).answers ∧
      ∀ id, (networkDriver.run {} inputs).state.waiting id = some tx ↔
        status tx (inputs.filterMap NetworkInput.call) = .waiting id := by
  obtain ⟨hstate, hanswers⟩ := driver_run inputs
  obtain ⟨hwaits, hserved⟩ := hfresh.served
  refine ⟨(hanswers tx).trans (hserved tx), fun id => ?_⟩
  rw [hstate]
  exact hwaits id tx

/-- A dial and a request with the same id, and an answer that comes twice. -/
def dialAndRequest : List (NetworkInput Nat Nat Nat) :=
  [.action (.dial 0 (.ok 5)), .action (.outboundRequest .api 1 5), .event (.response .api 5 42),
    .event (.response .api 5 43)]

theorem network_calls_answered_dialAndRequest :
    answersTo 1 (networkDriver.run {} dialAndRequest).history = [.response (.ok 42)] ∧
      (networkDriver.run {} dialAndRequest).state.waiting (.dial 5) = some 0 := by
  have hfresh : Fresh (dialAndRequest.filterMap NetworkInput.call) := by
    intro before tx outcome hbefore
    obtain ⟨rest, hrest⟩ := hbefore
    rcases before with _ | ⟨first, _ | ⟨second, _ | ⟨third, _ | ⟨fourth, before⟩⟩⟩⟩
    all_goals simp [dialAndRequest, NetworkInput.call, Except.map, Except.mapError] at hrest
    · exact ⟨rfl, fun _ _ _ => nofun⟩
    · obtain ⟨rfl, ⟨rfl, rfl⟩, -⟩ := hrest
      refine ⟨rfl, ?_⟩
      rintro _ ⟨⟩ other hwaiting
      simp only [status, List.foldl_cons, List.foldl_nil, CallStatus.next] at hwaiting
      split_ifs at hwaiting
      cases hwaiting
  exact ⟨(network_calls_answered dialAndRequest hfresh 1).1, ((network_calls_answered dialAndRequest hfresh 0).2 _).mpr rfl⟩

end Run

end Hypha.Network
