import Cachebox.Protocol.Decode
import Cachebox.Protocol.Encode
import Cachebox.Theory.MultiMap

/-!
# The Rust client (`clients/rust/cachebox-client/src/lib.rs`)

`NativeClient.request` and `NativeClient.requestPipelined` on one connection. What the server and
the transport do during a call is an `Exchange`: the frames that the server sends back, and the
point at which writing or reading fails, if it does. A call that panics, because a request does not
fit in a frame, is `none`. The buffers of the client are not part of its state: every call clears
them before it uses them.
-/

namespace Cachebox
open Protocol

/-- `Io` carries the error of the operating system, which nothing looks at. -/
inductive ClientError where
  | io
  | decode (e : DecodeError)
  | server (code : ErrorCode) (message : String)
  | unexpectedResponse (message : String)
  deriving DecidableEq, Repr

/-- The bytes that have been sent to the client and not been read. Reading fails once `failsAfter`
more bytes have been read. -/
structure NativeStream where
  unread : Bytes
  failsAfter : Option Nat
  deriving DecidableEq, Repr

/-- What happens on the connection during one call. -/
structure Exchange where
  writeFails : Bool
  /-- the frames that the server sends for the requests it has received -/
  answer : List Bytes
  failsAfter : Option Nat

structure NativeClient where
  stream : NativeStream
  nextRequestId : UInt64
  maxPayloadLen : Nat
  deriving DecidableEq, Repr

/-- Input and output on the stream. A failure leaves the stream as it is then. -/
abbrev StreamM := ExceptT ClientError (StateM NativeStream)

namespace NativeStream

def writeAll (x : Exchange) : StreamM Unit := fun stream =>
  let stream := { unread := stream.unread ++ x.answer.flatten, failsAfter := x.failsAfter }
  if x.writeFails then (.error .io, stream) else (.ok (), stream)

/-- Waits until `len` bytes are there. It fails in the middle, or at the end of the stream. -/
def readExact (len : Nat) : StreamM Bytes := fun stream =>
  if stream.failsAfter.any (· < len) || stream.unread.length < len then
    let read := stream.failsAfter.getD stream.unread.length
    (.error .io, { unread := stream.unread.drop read, failsAfter := some 0 })
  else
    (.ok (stream.unread.take len),
      { unread := stream.unread.drop len, failsAfter := stream.failsAfter.map (· - len) })

/-- The whole frame is read before any of it is checked. -/
def readResponseFrame (maxPayloadLen : Nat) : StreamM ResponseFrame := do
  let header ← readExact headerLen
  let payloadLen := BigEndian.ofBytes (header.extract 16 20)
  let payload ← readExact payloadLen
  match decodeResponseFrame (header ++ payload) maxPayloadLen with
  | .ok response => return response
  | .error e => throw (.decode e)

end NativeStream

open NativeStream

structure ExpectedResponse where
  index : Nat
  command : Command
  deriving DecidableEq, Repr

structure PipelinedResponseMatcher where
  expected : HashMap UInt64 ExpectedResponse
  payloads : List (Option ResponsePayload)
  errors : List (Option (ErrorCode × String))

namespace PipelinedResponseMatcher

def new (expectedCount : Nat) (expected : HashMap UInt64 ExpectedResponse) :
    PipelinedResponseMatcher where
  expected := expected
  payloads := List.replicate expectedCount none
  errors := List.replicate expectedCount none

def push (m : PipelinedResponseMatcher) (response : ResponseFrame) :
    Except ClientError PipelinedResponseMatcher :=
  match m.expected.lookup response.requestId with
  | none => .error (.unexpectedResponse "unknown response request id")
  | some expected =>
    let m := { m with expected := m.expected.erase response.requestId }
    if response.command ≠ expected.command then
      .error (.unexpectedResponse "response command mismatch")
    else
      match response.payload with
      | .error code message =>
        .ok { m with errors := m.errors.set expected.index (some (code, message)) }
      | payload => .ok { m with payloads := m.payloads.set expected.index (some payload) }

def finish (m : PipelinedResponseMatcher) : Except ClientError (List ResponsePayload) :=
  match m.errors.reduceOption.head? with
  | some (code, message) => .error (.server code message)
  | none => m.payloads.mapM fun payload =>
    match payload with
    | some payload => .ok payload
    | none => .error (.unexpectedResponse "missing pipelined response payload")

/-- The loop of `request_pipelined` that reads as many responses as requests were sent. -/
def receive (maxPayloadLen : Nat) : Nat → PipelinedResponseMatcher →
    StreamM PipelinedResponseMatcher
  | 0, m => return m
  | n + 1, m => do
    let response ← readResponseFrame maxPayloadLen
    match m.push response with
    | .ok m => receive maxPayloadLen n m
    | .error e => throw e

end PipelinedResponseMatcher

namespace NativeClient

def connect : NativeClient where
  stream := ⟨[], none⟩
  nextRequestId := 1
  maxPayloadLen := usizeMax

def setMaxPayloadLen (c : NativeClient) (maxPayloadLen : Nat) : NativeClient :=
  { c with maxPayloadLen }

/-- `next_request_id.wrapping_add(1).max(1)`. -/
def advance (requestId : UInt64) : UInt64 := max (requestId + 1) 1

/-- Runs an action on the stream of the client. -/
def perform {α : Type} (c : NativeClient) (action : StreamM α) :
    Except ClientError α × NativeClient :=
  let (result, stream) := action c.stream
  (result, { c with stream })

def request (c : NativeClient) (command : Command) (payload : RequestPayload) (x : Exchange) :
    Option (Except ClientError ResponsePayload × NativeClient) := do
  let requestId := c.nextRequestId
  let c := { c with nextRequestId := advance c.nextRequestId }
  let _requestBuffer ← encodeRequestFrame { requestId, command, payload }
  return c.perform do
    writeAll x
    let response ← readResponseFrame c.maxPayloadLen
    if response.requestId ≠ requestId ∨ response.command ≠ command then
      throw (.unexpectedResponse "response header mismatch")
    match response.payload with
    | .error code message => throw (.server code message)
    | payload => return payload

/-- The requests of a pipelined call so far. -/
structure Outgoing where
  nextRequestId : UInt64
  expected : HashMap UInt64 ExpectedResponse
  requestBuffer : Bytes

def Outgoing.add (out : Outgoing) (index : Nat) (command : Command) (payload : RequestPayload) :
    Option Outgoing := do
  let requestId := out.nextRequestId
  let frameBuffer ← encodeRequestFrame { requestId, command, payload }
  return {
    nextRequestId := advance requestId
    expected := out.expected.insert requestId { index, command }
    requestBuffer := out.requestBuffer ++ frameBuffer }

/-- The loop of `request_pipelined` that numbers the requests, from `index` on. -/
def Outgoing.addAll (out : Outgoing) (index : Nat) :
    List (Command × RequestPayload) → Option Outgoing
  | [] => some out
  | (command, payload) :: requests => do
    let out ← out.add index command payload
    out.addAll (index + 1) requests

def requestPipelined (c : NativeClient) (requests : List (Command × RequestPayload))
    (x : Exchange) : Option (Except ClientError (List ResponsePayload) × NativeClient) := do
  let expectedCount := requests.length
  if expectedCount = 0 then
    return (.ok [], c)
  let out ← Outgoing.addAll ⟨c.nextRequestId, ∅, []⟩ 0 requests
  let c := { c with nextRequestId := out.nextRequestId }
  return c.perform do
    writeAll x
    let matcher ← (PipelinedResponseMatcher.new expectedCount out.expected).receive
      c.maxPayloadLen expectedCount
    match matcher.finish with
    | .ok payloads => return payloads
    | .error e => throw e

end NativeClient
end Cachebox
