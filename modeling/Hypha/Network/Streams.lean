import Hypha.Lib.LittleEndian
import Hypha.Network.Utils

/-!
# Push and pull streams

The two stream protocols of `stream_push.rs` and `stream_pull.rs`, each side as a program over its end of the stream:

* `openPushStream`, `streamsPush` : the length of the payload is announced and read;
* `openPullStream`, `streamsPull`, `IncomingPullStream.createResponse` : a request is sent first, with its own length.

A stream is connected already, and an incoming one is dropped when its program fails.
-/

namespace Hypha.Network

open Hypha.Lib

def maxRequestHeaderSize : Nat := 1024 * 1024

def payloadLengthHeaderSize : Nat := 8

/-- How `serde_json` writes and reads requests. A vector has fewer bytes than there are numbers of eight bytes. -/
structure Json (T : Type) where
  toVec : T → List UInt8
  fromSlice : List UInt8 → Option T
  fromSlice_toVec : ∀ t, fromSlice (toVec t) = some t
  length_lt : ∀ t, (toVec t).length < 2 ^ 64

/-- `IncomingPullStream`. -/
structure IncomingPullStream (PeerId T : Type) where
  peerId : PeerId
  request : T
  stream : Conn

/-! ## Push streams -/

/-- `open_push_stream`. -/
def openPushStream (payloadLen : Nat) : Async (FixedAsyncWrite Conn) := do
  writeAll (toLe payloadLengthHeaderSize payloadLen)
  flush
  let stream ← get
  return { inner := stream, remaining := payloadLen }

/-- `streams_push`, for one stream. -/
def streamsPush : Async (FixedAsyncRead Conn) := do
  let header ← readExact payloadLengthHeaderSize
  let stream ← get
  return { inner := stream, remaining := ofLe header }

/-! ## Pull streams -/

section Pull

variable {PeerId T : Type}

/-- `streams_pull`, for one stream: a request that is too long or not well formed is dropped. -/
def streamsPull (json : Json T) (peerId : PeerId) : Async (Option (IncomingPullStream PeerId T)) := do
  let resourceLen ← readExact 8
  if maxRequestHeaderSize ≤ ofLe resourceLen then
    return none
  else
    let requestBytes ← readExact (ofLe resourceLen)
    let stream ← get
    return (json.fromSlice requestBytes).map fun request => { peerId := peerId, request := request, stream := stream }

/-- `create_response`. -/
def IncomingPullStream.createResponse (s : IncomingPullStream PeerId T) (payloadLen : Nat) :
    Async (PeerId × T × FixedAsyncWrite Conn) := do
  set s.stream
  writeAll (toLe payloadLengthHeaderSize payloadLen)
  flush
  let stream ← get
  return (s.peerId, s.request, { inner := stream, remaining := payloadLen })

/-- `open_pull_stream`. -/
def openPullStream (json : Json T) (request : T) : Async (FixedAsyncRead Conn) := do
  writeAll (toLe 8 (json.toVec request).length)
  writeAll (json.toVec request)
  flush
  let header ← readExact payloadLengthHeaderSize
  let stream ← get
  return { inner := stream, remaining := ofLe header }

end Pull

end Hypha.Network
