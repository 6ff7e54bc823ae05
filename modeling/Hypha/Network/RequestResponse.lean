import Mathlib.Logic.Function.Basic
import Hypha.Lib.Machine

/-!
# Handlers of inbound requests

The part of `request_response.rs` that brings inbound requests to their handlers: the streams that `into_stream` opens and
that may be dropped, the queue of actions between them and the driver, the handlers that the driver has registered, and
the tasks that send a request into the channel of a handler.

* `Driver.intoStream`, `Driver.dropStream` : the two ends of a stream;
* `Driver.processAction`, `Driver.processRequest` : what the driver does with actions and requests;
* `Driver.send`, `Driver.receive` : the channel of a handler.

Outbound requests and responses take up room in the queue (`enqueue`) and are left out otherwise.
-/

namespace Hypha.Network

open Hypha.Lib

/-- `HandlerId`. -/
abbrev HandlerId := Nat

structure InboundRequest (PeerId Request : Type) where
  requestId : Nat
  peerId : PeerId
  request : Request
  deriving DecidableEq

/-- `RequestResponseAction`. -/
inductive Action (Request : Type) where
  | registerHandler (id : HandlerId) (matcher : Request → Bool)
  | unregisterHandler (id : HandlerId)
  | outbound

/-- A handler that the driver has registered. Its sender is that of the channel with the same id. -/
structure RequestHandler (Request : Type) where
  id : HandlerId
  matcher : Request → Bool

/-- The channel between the driver and a stream. -/
structure Channel (PeerId Request : Type) where
  alive : Bool := true
  bufferSize : Nat
  buffer : List (InboundRequest PeerId Request) := []

/-- The driver with the streams and the channels. `sending` lists the spawned tasks that have a request to send. -/
structure Driver (PeerId Request : Type) where
  queueSize : Nat
  queue : List (Action Request) := []
  handlers : List (RequestHandler Request) := []
  channels : HandlerId → Option (Channel PeerId Request) := fun _ => none
  nextId : HandlerId := 0
  sending : List (HandlerId × InboundRequest PeerId Request) := []

/-- What becomes of a request in a step. -/
inductive Outcome (PeerId Request : Type) where
  | unhandled (request : InboundRequest PeerId Request)
  | delivered (handler : HandlerId) (request : InboundRequest PeerId Request)
  | dropped (handler : HandlerId) (request : InboundRequest PeerId Request)
  deriving DecidableEq

inductive Input (PeerId Request : Type) where
  | intoStream (matcher : Request → Bool) (bufferSize : Nat)
  | dropStream (id : HandlerId)
  | outbound
  | processAction
  | request (request : InboundRequest PeerId Request)
  | send (n : Nat)
  | receive (id : HandlerId)

namespace Driver

variable {PeerId Request : Type} (s : Driver PeerId Request)

/-- Whether the stream of a handler has not been dropped. -/
def alive (id : HandlerId) : Bool := (s.channels id).any (·.alive)

/-- `try_send`, or a `send` that is given up while the queue is full. -/
def enqueue (action : Action Request) : Driver PeerId Request :=
  if s.queue.length < s.queueSize then { s with queue := s.queue ++ [action] } else s

/-- `HandlerBuilder::into_stream`, which waits until there is room in the queue. -/
def intoStream (matcher : Request → Bool) (bufferSize : Nat) : Driver PeerId Request :=
  if s.queue.length < s.queueSize then
    { s.enqueue (.registerHandler s.nextId matcher) with
      channels := Function.update s.channels s.nextId (some { bufferSize := bufferSize })
      nextId := s.nextId + 1 }
  else s

/-- `HandlerStream::drop`: the driver is told if there is room in the queue. -/
def dropStream (id : HandlerId) : Driver PeerId Request :=
  match s.channels id with
  | none => s
  | some channel =>
    if channel.alive then
      { s.enqueue (.unregisterHandler id) with
        channels := Function.update s.channels id (some { channel with alive := false, buffer := [] }) }
    else s

/-- `process_request_response_action`, for the next action in the queue. -/
def processAction : Driver PeerId Request :=
  match s.queue with
  | [] => s
  | .registerHandler id matcher :: queue => { s with queue := queue, handlers := s.handlers ++ [⟨id, matcher⟩] }
  | .unregisterHandler id :: queue => { s with queue := queue, handlers := s.handlers.filter (·.id ≠ id) }
  | .outbound :: queue => { s with queue := queue }

/-- The handler that `process_request_response_event` chooses for a request. -/
def firstMatch (request : Request) : Option (RequestHandler Request) := s.handlers.find? fun h => h.matcher request

/-- `process_request_response_event`, for an inbound request: a task is spawned that sends it to the handler. -/
def processRequest (request : InboundRequest PeerId Request) :
    Driver PeerId Request × Option (Outcome PeerId Request) :=
  match s.firstMatch request.request with
  | some handler => ({ s with sending := s.sending ++ [(handler.id, request)] }, none)
  | none => (s, some (.unhandled request))

/-- A spawned task runs: it sends its request once there is room in the channel, or drops it if the stream is gone. -/
def send (n : Nat) : Driver PeerId Request × Option (Outcome PeerId Request) :=
  match s.sending[n]? with
  | none => (s, none)
  | some (id, request) =>
    match s.channels id with
    | none => ({ s with sending := s.sending.eraseIdx n }, some (.dropped id request))
    | some channel =>
      if !channel.alive then ({ s with sending := s.sending.eraseIdx n }, some (.dropped id request))
      else if channel.buffer.length < channel.bufferSize then
        ({ s with
            sending := s.sending.eraseIdx n
            channels := Function.update s.channels id (some { channel with buffer := channel.buffer ++ [request] }) },
          some (.delivered id request))
      else (s, none)

/-- `HandlerStream::poll_next`. -/
def receive (id : HandlerId) : Driver PeerId Request :=
  match s.channels id with
  | none => s
  | some channel =>
    { s with channels := Function.update s.channels id (some { channel with buffer := channel.buffer.tail }) }

end Driver

variable {PeerId Request : Type}

/-- One step of the driver, a stream or a task. -/
def driverStep (s : Driver PeerId Request) : Input PeerId Request →
    Driver PeerId Request × Option (Outcome PeerId Request)
  | .intoStream matcher bufferSize => (s.intoStream matcher bufferSize, none)
  | .dropStream id => (s.dropStream id, none)
  | .outbound => (s.enqueue .outbound, none)
  | .processAction => (s.processAction, none)
  | .request request => s.processRequest request
  | .send n => s.send n
  | .receive id => (s.receive id, none)

/-- The driver with the streams and tasks around it. -/
def driver : Machine (Driver PeerId Request) (Input PeerId Request) (Option (Outcome PeerId Request)) := ⟨driverStep⟩

/-- One step of a run. -/
abbrev DriverEvent (PeerId Request : Type) :=
  Event (Driver PeerId Request) (Input PeerId Request) (Option (Outcome PeerId Request))

abbrev DriverRun (PeerId Request : Type) :=
  World (Driver PeerId Request) (Input PeerId Request) (Option (Outcome PeerId Request))

end Hypha.Network
