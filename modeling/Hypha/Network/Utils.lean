import Hypha.Lib.Machine
import Hypha.Lib.Transport

/-!
# Adapters for streams, readers and writers

The adapters of `utils.rs`:

* `Batched.pollNext` : items are collected and emitted in batches, `Batched.turn` is one turn of its loop;
* `FixedAsyncRead.pollRead` : a reader of a declared number of bytes;
* `FixedAsyncWrite.pollWrite`, `FixedAsyncWrite.pollShutdown` : a writer of a declared number of bytes.
-/

namespace Hypha.Network

open Hypha.Lib

/-! ## Batches -/

/-- `delay` is the time at which the timer of the current batch fires. -/
structure Batched (Item : Type) where
  delay : Option Nat := none
  buffer : List Item := []
  limit : Nat
  wait : Nat

/-- How the inner stream answers a poll. An item comes with the time, and `pending` with whether the timer, when it is
polled then, has fired. -/
inductive Inner (Item : Type) where
  | item (item : Item) (now : Nat)
  | ended
  | pending (fired : Bool)

namespace Batched

variable {Item : Type}

def new (limit wait : Nat) : Batched Item := { limit := limit, wait := wait }

/-- The buffer is taken. -/
def flush (s : Batched Item) : Batched Item × Option (Poll (Option (List Item))) :=
  ({ s with delay := none, buffer := [] }, some (.ready (some s.buffer)))

/-- The item is pushed, and the delay is set when it is the first one. -/
def push (s : Batched Item) (item : Item) (now : Nat) : Batched Item :=
  { s with
    delay := if s.buffer.isEmpty then some (now + s.wait) else s.delay
    buffer := s.buffer ++ [item] }

/-- One turn of the loop of `poll_next`, with what is returned if it is the last one. -/
def turn (s : Batched Item) : Inner Item → Batched Item × Option (Poll (Option (List Item)))
  | .item item now =>
    if s.limit ≤ (s.push item now).buffer.length then (s.push item now).flush else (s.push item now, none)
  | .ended => if s.buffer.isEmpty then (s, some (.ready none)) else s.flush
  | .pending fired =>
    if s.buffer.isEmpty then (s, some .pending)
    else if s.delay.isSome && fired then s.flush
    else (s, some .pending)

/-- `poll_next`, with the answers of the inner stream that it leaves. Nothing is returned when these are too few. -/
def pollNext (s : Batched Item) :
    List (Inner Item) → Option (Batched Item × Poll (Option (List Item)) × List (Inner Item))
  | [] => none
  | answer :: answers =>
    match s.turn answer with
    | (s', some poll) => some (s', poll, answers)
    | (s', none) => s'.pollNext answers

end Batched

/-! ## Fixed numbers of bytes -/

structure FixedAsyncRead (R : Type) where
  inner : R
  remaining : Nat
  deriving DecidableEq

namespace FixedAsyncRead

variable {R : Type} [AsyncRead R]

/-- `poll_read`. It panics if the bytes that were read cannot be counted as filled. -/
def pollRead (s : FixedAsyncRead R) (buf : ReadBuf) :
    Option (Poll (Except ErrorKind Unit) × ReadBuf) × FixedAsyncRead R :=
  if s.remaining = 0 then (some (.ready (.ok ()), buf), s)
  else
    match AsyncRead.pollRead s.inner (buf.take (min s.remaining buf.remaining)).remaining with
    | (.pending, inner) => (some (.pending, buf), { s with inner := inner })
    | (.ready (.error kind), inner) => (some (.ready (.error kind), buf), { s with inner := inner })
    | (.ready (.ok bytes), inner) =>
      match (buf.take (min s.remaining buf.remaining)).putSlice bytes with
      | none => (none, { s with inner := inner })
      | some limited =>
        if limited.filled.length = 0 then (some (.ready (.error .unexpectedEof), buf), { s with inner := inner })
        else if s.remaining < limited.filled.length then
          (some (.ready (.error .invalidData), buf), { s with inner := inner })
        else
          match buf.advance limited.filled with
          | none => (none, { inner := inner, remaining := s.remaining - limited.filled.length })
          | some buf =>
            (some (.ready (.ok ()), buf), { inner := inner, remaining := s.remaining - limited.filled.length })

end FixedAsyncRead

structure FixedAsyncWrite (W : Type) where
  inner : W
  remaining : Nat
  deriving DecidableEq

namespace FixedAsyncWrite

variable {W : Type} [AsyncWrite W] (s : FixedAsyncWrite W)

/-- `poll_write`. -/
def pollWrite (buf : List UInt8) : Poll (Except ErrorKind Nat) × FixedAsyncWrite W :=
  if buf.isEmpty then (.ready (.ok 0), s)
  else if s.remaining < buf.length then (.ready (.error .invalidData), s)
  else
    match AsyncWrite.pollWrite s.inner buf with
    | (.pending, inner) => (.pending, { s with inner := inner })
    | (.ready (.error kind), inner) => (.ready (.error kind), { s with inner := inner })
    | (.ready (.ok written), inner) =>
      if written = 0 then (.ready (.ok 0), { s with inner := inner })
      else if s.remaining < written then (.ready (.error .invalidData), { s with inner := inner })
      else (.ready (.ok written), { inner := inner, remaining := s.remaining - written })

/-- `poll_flush`. -/
def pollFlush : Poll (Except ErrorKind Unit) × FixedAsyncWrite W :=
  ((AsyncWrite.pollFlush s.inner).1, { s with inner := (AsyncWrite.pollFlush s.inner).2 })

/-- `poll_shutdown`. -/
def pollShutdown : Poll (Except ErrorKind Unit) × FixedAsyncWrite W :=
  if 0 < s.remaining then (.ready (.error .unexpectedEof), s)
  else ((AsyncWrite.pollShutdown s.inner).1, { s with inner := (AsyncWrite.pollShutdown s.inner).2 })

end FixedAsyncWrite

end Hypha.Network
