import Cachebox.Protocol.Borrowed
import Cachebox.Protocol.Reserve
import Cachebox.Sharded.Basic

/-!
# Executing request frames (`src/server.rs`)

The state of the server is the sharded engine and the counters of the metrics. A handler runs one
request against it and gives the payload of the response; `executeNativeFrameBytesInto` decodes a
frame, runs its handler and encodes the response. The iteration order of the hash tables is an
argument of the handlers, and `none` in the place of the response bytes is the panic of the
encoder. `executeNativeFrameBytesOn` also knows what the allocator of the process has room for.
-/

namespace Cachebox
namespace Server
open Protocol BigEndian

/-! ## State -/

/-- The counters of a `MetricsShard`. -/
inductive Counter where
  | requestsTotal | healthRequests | getRequests | putRequests | deleteRequests
  | batchGetRequests | tagInvalidateRequests | hitsTotal | missesTotal | staleTotal
  | leaseGrants | leaseDenials | errorsTotal
  deriving DecidableEq, Repr

def metricShardCount : Nat := 64

structure AppState (n : Nat) where
  engine : ShardedEngine n
  metrics : Fin metricShardCount → Counter → UInt64

/-- `u64::rotate_left`. -/
def rotateLeft (word : UInt64) (k : UInt64) : UInt64 := word <<< k ||| word >>> (64 - k)

/-- `Metrics::shard_for_request`. -/
def shardForRequest (connectionId requestId : UInt64) : Fin metricShardCount :=
  ⟨(connectionId ^^^ rotateLeft requestId 17).toNat % metricShardCount,
    Nat.mod_lt _ (by decide)⟩

namespace AppState
variable {n : Nat}

/-- `AppState::from_config`, with the clocks of the shards and the limits of the configuration. -/
def fromConfig (clocks : Fin n → Clock) (limits : EngineLimits) : AppState n where
  engine := .withClockAndLimits clocks limits
  metrics := fun _ _ => 0

/-- `fetch_add(1)` on a counter of a metrics shard, which wraps. -/
def count (state : AppState n) (metrics : Fin metricShardCount) (counter : Counter) :
    AppState n :=
  { state with
    metrics := Function.update state.metrics metrics
      (Function.update (state.metrics metrics) counter (state.metrics metrics counter + 1)) }

/-- Run an operation of the engine. -/
def onEngine {α : Type} (state : AppState n) (op : ShardedEngine n → α × ShardedEngine n) :
    α × AppState n :=
  let (a, engine) := op state.engine
  (a, { state with engine })

end AppState

/-! ## Errors -/

def nativePutError : PutError → ResponsePayload
  | .valueTooLarge .. => .error .valueTooLarge "value exceeds configured value limit"
  | .valueTooLargeForMemory .. => .error .entryTooLarge "entry cannot fit configured memory limit"
  | .insufficientMemory .. =>
    .error .insufficientMemory "entry could not fit after cleanup and eviction"

def nativeDecodeErrorCode : DecodeError → ErrorCode
  | .unsupportedVersion _ => .unsupportedVersion
  | .unknownCommand _ => .unknownCommand
  | .frameTooLarge .. => .frameTooLarge
  | .invalidNamespace => .invalidNamespace
  | .invalidTag => .invalidTag
  | _ => .badFrame

/-- The derived `Debug` text of an error. The texts of invalid payloads need no escapes. -/
def debugText : DecodeError → String
  | .incompleteHeader => "IncompleteHeader"
  | .badMagic => "BadMagic"
  | .unsupportedVersion version => "UnsupportedVersion(" ++ toString version ++ ")"
  | .invalidKind kind => "InvalidKind(" ++ toString kind ++ ")"
  | .unknownCommand id => "UnknownCommand(" ++ toString id ++ ")"
  | .nonzeroFlags flags => "NonzeroFlags(" ++ toString flags ++ ")"
  | .nonzeroReserved reserved => "NonzeroReserved(" ++ toString reserved ++ ")"
  | .frameTooLarge payloadLen max =>
    "FrameTooLarge \x7b payload_len: " ++ toString payloadLen ++ ", max: " ++ toString max ++
      " \x7d"
  | .truncatedPayload expected actual =>
    "TruncatedPayload \x7b expected: " ++ toString expected ++ ", actual: " ++ toString actual ++
      " \x7d"
  | .invalidPayload message => "InvalidPayload(\"" ++ message ++ "\")"
  | .invalidUtf8 => "InvalidUtf8"
  | .invalidNamespace => "InvalidNamespace"
  | .invalidTag => "InvalidTag"
  | .invalidBool value => "InvalidBool(" ++ toString value ++ ")"
  | .trailingBytes count => "TrailingBytes(" ++ toString count ++ ")"

/-- The answer to a frame that was not decoded, read off the raw header. A frame without a whole
header or without the magic gets none. -/
def nativeDecodeErrorResponse (frame : Bytes) (error : DecodeError) : Option ResponseFrame :=
  if frame.length < headerLen ∨ frame.extract 0 4 ≠ magic then
    none
  else
    let command := match Command.fromId (frame.getD 6 0) with
      | .ok command => command
      | .error _ => .get
    let requestId := UInt64.ofNat (ofBytes (frame.extract 8 16))
    some {
      requestId
      command
      payload := .error (nativeDecodeErrorCode error) (debugText error) }

/-! ## Handlers -/

/-- `as u32` after `min(u32::MAX as usize)`. -/
def saturateU32 (count : Nat) : UInt32 := .ofNat (min count 4294967295)

def nativePutCommand (ns : String) (key : Bytes) (metadata : Metadata) (value : Bytes) :
    PutCommand where
  ns := ns
  key := key
  value := value
  ttl := metadata.ttl
  staleTtl := metadata.staleTtl
  tags := metadata.tags
  cost := metadata.cost

def nativeCompleteLeaseCommand (ns : String) (key : Bytes) (leaseToken : String)
    (metadata : Metadata) (value : Bytes) : CompleteLeaseCommand where
  ns := ns
  key := key
  leaseToken := leaseToken
  value := value
  ttl := metadata.ttl
  staleTtl := metadata.staleTtl
  tags := metadata.tags
  cost := metadata.cost

section Handlers
variable {n : Nat} [NeZero n] (hash : String → Bytes → Nat) (o : IterOrder)

def executeNativeGet (state : AppState n) (metrics : Fin metricShardCount) (ns : String)
    (key : Bytes) : ResponsePayload × AppState n :=
  let state := state.count metrics .getRequests
  match state.onEngine fun engine => engine.get hash ns key with
  | (.hit value, state) => (.hit value, state.count metrics .hitsTotal)
  | (.stale value, state) => (.stale value, state.count metrics .staleTotal)
  | (.miss, state) => (.miss, state.count metrics .missesTotal)

/-- The response is encoded from the stored value while the shard is locked. -/
def encodeNativeGetResponseFrame (state : AppState n) (metrics : Fin metricShardCount)
    (requestId : UInt64) (command : Command) (ns : String) (key out : Bytes) :
    Option Bytes × AppState n :=
  let state := state.count metrics .getRequests
  let ((counter, out), state) := state.onEngine fun engine =>
    engine.getRef hash ns key fun
      | .hit value =>
        (.hitsTotal, encodeResponsePayloadViewFrameInto requestId command (.hit value) out)
      | .stale value =>
        (.staleTotal, encodeResponsePayloadViewFrameInto requestId command (.stale value) out)
      | .miss => (.missesTotal, encodeResponsePayloadViewFrameInto requestId command .miss out)
  (out, state.count metrics counter)

def executeNativeLeaseStart (state : AppState n) (metrics : Fin metricShardCount) (ns : String)
    (key : Bytes) (leaseTtlMs : UInt64) : ResponsePayload × AppState n :=
  match state.onEngine fun engine => engine.startLease hash ns key leaseTtlMs with
  | (.hit value, state) => (.hit value, state.count metrics .hitsTotal)
  | (.stale value, state) => (.stale value, state.count metrics .staleTotal)
  | (.leaseGranted token staleValue, state) =>
    (.leaseGranted token staleValue, state.count metrics .leaseGrants)
  | (.leaseDenied, state) => (.leaseDenied, state.count metrics .leaseDenials)

def executeNativeDelete (state : AppState n) (metrics : Fin metricShardCount) (ns : String)
    (key : Bytes) : ResponsePayload × AppState n :=
  let state := state.count metrics .deleteRequests
  let (removed, state) := state.onEngine fun engine => engine.delete hash ns key
  (.deleted removed, state)

def executeNativeTagInvalidate (state : AppState n) (metrics : Fin metricShardCount)
    (ns tag : String) : ResponsePayload × AppState n :=
  let state := state.count metrics .tagInvalidateRequests
  let (removed, state) := state.onEngine fun engine => engine.invalidateTag o ns tag
  (.invalidated (saturateU32 removed), state)

def executeNativePut (state : AppState n) (metrics : Fin metricShardCount) (ns : String)
    (key : Bytes) (metadata : Metadata) (value : Bytes) : ResponsePayload × AppState n :=
  let state := state.count metrics .putRequests
  match state.onEngine fun engine =>
      engine.put hash o (nativePutCommand ns key metadata value) with
  | (.ok outcome, state) => (.stored (saturateU32 outcome.evicted), state)
  | (.error error, state) => (nativePutError error, state.count metrics .errorsTotal)

def executeNativeLeaseComplete (state : AppState n) (metrics : Fin metricShardCount) (ns : String)
    (key : Bytes) (leaseToken : String) (metadata : Metadata) (value : Bytes) :
    ResponsePayload × AppState n :=
  match state.onEngine fun engine =>
      engine.completeLease hash o (nativeCompleteLeaseCommand ns key leaseToken metadata value) with
  | (.ok outcome, state) => (.stored (saturateU32 outcome.evicted), state)
  | (.error .invalidLeaseToken, state) =>
    (.error .invalidLeaseToken "lease token is missing, expired, or no longer active",
      state.count metrics .errorsTotal)
  | (.error (.put error), state) => (nativePutError error, state.count metrics .errorsTotal)

/-- The loop over the outcomes of a batch. -/
def batchItems (metrics : Fin metricShardCount) :
    List GetOutcome → AppState n → List BatchItem × AppState n
  | [], state => ([], state)
  | outcome :: outcomes, state =>
    let (item, counter) : BatchItem × Counter := match outcome with
      | .hit value => (.hit value, .hitsTotal)
      | .stale value => (.stale value, .staleTotal)
      | .miss => (.miss, .missesTotal)
    let (items, state) := batchItems metrics outcomes (state.count metrics counter)
    (item :: items, state)

def executeNativeBatchGet (state : AppState n) (metrics : Fin metricShardCount) (ns : String)
    (keys : List Bytes) : ResponsePayload × AppState n :=
  let state := state.count metrics .batchGetRequests
  let (outcomes, state) := state.onEngine fun engine => engine.batchGet hash ns keys
  let (items, state) := batchItems metrics outcomes state
  (.batchGet items, state)

def executeNativePayloadView (state : AppState n) (metrics : Fin metricShardCount) :
    RequestPayloadView → ResponsePayload × AppState n
  | .get ns key => executeNativeGet hash state metrics ns key
  | .delete ns key => executeNativeDelete hash state metrics ns key
  | .tagInvalidate ns tag => executeNativeTagInvalidate o state metrics ns tag
  | .leaseStart ns key leaseTtlMs _ => executeNativeLeaseStart hash state metrics ns key leaseTtlMs

def executeNativePayloadWithMetrics (state : AppState n) (metrics : Fin metricShardCount) :
    RequestPayload → ResponsePayload × AppState n
  | .get ns key => executeNativeGet hash state metrics ns key
  | .put ns key metadata value => executeNativePut hash o state metrics ns key metadata value
  | .delete ns key => executeNativeDelete hash state metrics ns key
  | .batchGet ns keys => executeNativeBatchGet hash state metrics ns keys
  | .tagInvalidate ns tag => executeNativeTagInvalidate o state metrics ns tag
  | .leaseStart ns key leaseTtlMs _ => executeNativeLeaseStart hash state metrics ns key leaseTtlMs
  | .leaseComplete ns key leaseToken metadata value =>
    executeNativeLeaseComplete hash o state metrics ns key leaseToken metadata value

def executeNativeRequest (state : AppState n) (metrics : Fin metricShardCount)
    (frame : RequestFrame) : ResponseFrame × AppState n :=
  let (payload, state) := executeNativePayloadWithMetrics hash o state metrics frame.payload
  ({ requestId := frame.requestId, command := frame.command, payload }, state)

def executeNativeRequestView (state : AppState n) (metrics : Fin metricShardCount)
    (frame : RequestFrameView) : ResponseFrame × AppState n :=
  let (payload, state) := executeNativePayloadView hash o state metrics frame.payload
  ({ requestId := frame.requestId, command := frame.command, payload }, state)

/-- What a frame that was not decoded leaves in the response buffer. -/
def encodeDecodeError (frame : Bytes) (error : DecodeError) (responseBuffer : Bytes) :
    Option Bytes :=
  match nativeDecodeErrorResponse frame error with
  | some response => encodeResponseFrameInto response responseBuffer
  | none => some responseBuffer

/-- Returns the response buffer, or `none` if the encoder panics. -/
def executeNativeFrameBytesInto (state : AppState n) (frame : Bytes) (maxPayloadLen : Nat)
    (connectionId : UInt64) (responseBuffer : Bytes) : Option Bytes × AppState n :=
  match decodeBorrowedRequestFrame frame maxPayloadLen with
  | .ok (some request) =>
    let metrics := shardForRequest connectionId request.requestId
    match request.payload with
    | .get ns key =>
      encodeNativeGetResponseFrame hash state metrics request.requestId request.command ns key
        responseBuffer
    | _ =>
      let (response, state) := executeNativeRequestView hash o state metrics request
      (encodeResponseFrameInto response responseBuffer, state)
  | .ok none =>
    match decodeRequestFrame frame maxPayloadLen with
    | .ok request =>
      let metrics := shardForRequest connectionId request.requestId
      let (response, state) := executeNativeRequest hash o state metrics request
      (encodeResponseFrameInto response responseBuffer, state)
    | .error error => (encodeDecodeError frame error responseBuffer, state)
  | .error error => (encodeDecodeError frame error responseBuffer, state)

/-- `execute_native_frame_bytes_into` in a process with this allocator, or `none` if the process is
aborted. Only the owned decoder reserves, and it only runs on the frames that have no view. -/
def executeNativeFrameBytesOn (alloc : Allocator) (state : AppState n) (frame : Bytes)
    (maxPayloadLen : Nat) (connectionId : UInt64) (responseBuffer : Bytes) :
    Option (Option Bytes × AppState n) :=
  match decodeBorrowedRequestFrame frame maxPayloadLen with
  | .ok none =>
    match decodeRequestFrameOn alloc frame maxPayloadLen with
    | some (.ok request) =>
      let metrics := shardForRequest connectionId request.requestId
      let (response, state) := executeNativeRequest hash o state metrics request
      some (encodeResponseFrameInto response responseBuffer, state)
    | some (.error error) => some (encodeDecodeError frame error responseBuffer, state)
    | none => none
  | _ =>
    some (executeNativeFrameBytesInto hash o state frame maxPayloadLen connectionId responseBuffer)

end Handlers

/-- The plain path: decode the request, execute it, and encode the response into a new buffer. -/
def executeDecoded {n : Nat} [NeZero n] (hash : String → Bytes → Nat) (o : IterOrder)
    (state : AppState n) (frame : Bytes) (maxPayloadLen : Nat) (connectionId : UInt64) :
    Except DecodeError (Option Bytes × AppState n) := do
  let request ← decodeRequestFrame frame maxPayloadLen
  let metrics := shardForRequest connectionId request.requestId
  let (response, state) := executeNativeRequest hash o state metrics request
  return (encodeResponseFrame response, state)

/-! ## What a request does -/

/-- The operation of the engine that a request asks for. -/
def requestOp (o : IterOrder) : RequestPayload → Op
  | .get ns key => .get ns key
  | .put ns key metadata value => .put o (nativePutCommand ns key metadata value)
  | .delete ns key => .delete ns key
  | .batchGet ns keys => .batchGet ns keys
  | .tagInvalidate ns tag => .invalidateTag o ns tag
  | .leaseStart ns key leaseTtlMs _ => .startLease ns key leaseTtlMs
  | .leaseComplete ns key leaseToken metadata value =>
    .completeLease o (nativeCompleteLeaseCommand ns key leaseToken metadata value)

def batchItem : GetOutcome → BatchItem
  | .hit value => .hit value
  | .stale value => .stale value
  | .miss => .miss

/-- The payload that reports the outcome of an operation. No request asks for a reclaim. -/
def outcomeResponse : Outcome → ResponsePayload
  | .get (.hit value) | .getRef (.hit value) => .hit value
  | .get (.stale value) | .getRef (.stale value) => .stale value
  | .get .miss | .getRef .miss => .miss
  | .batchGet outcomes => .batchGet (outcomes.map batchItem)
  | .put (.ok outcome) | .completeLease (.ok outcome) => .stored (saturateU32 outcome.evicted)
  | .put (.error error) | .completeLease (.error (.put error)) => nativePutError error
  | .completeLease (.error .invalidLeaseToken) =>
    .error .invalidLeaseToken "lease token is missing, expired, or no longer active"
  | .delete removed => .deleted removed
  | .invalidateTag removed => .invalidated (saturateU32 removed)
  | .startLease (.hit value) => .hit value
  | .startLease (.stale value) => .stale value
  | .startLease (.leaseGranted token staleValue) => .leaseGranted token staleValue
  | .startLease .leaseDenied => .leaseDenied
  | .reclaimExpiredBudget _ => .ok

section Spec
variable {n : Nat} {hash : String → Bytes → Nat} {o : IterOrder}

@[simp] theorem AppState.engine_count (state : AppState n) (metrics : Fin metricShardCount)
    (counter : Counter) : (state.count metrics counter).engine = state.engine := rfl

theorem batchItems_eq (metrics : Fin metricShardCount) (outcomes : List GetOutcome)
    (state : AppState n) :
    (batchItems metrics outcomes state).1 = outcomes.map batchItem ∧
      (batchItems metrics outcomes state).2.engine = state.engine := by
  induction outcomes generalizing state with
  | nil => exact ⟨rfl, rfl⟩
  | cons outcome outcomes ih =>
    cases outcome with
    | hit value =>
      obtain ⟨hitems, hengine⟩ := ih (state.count metrics .hitsTotal)
      exact ⟨congrArg (_ :: ·) hitems, hengine⟩
    | stale value =>
      obtain ⟨hitems, hengine⟩ := ih (state.count metrics .staleTotal)
      exact ⟨congrArg (_ :: ·) hitems, hengine⟩
    | miss =>
      obtain ⟨hitems, hengine⟩ := ih (state.count metrics .missesTotal)
      exact ⟨congrArg (_ :: ·) hitems, hengine⟩

variable [NeZero n]

/-- The owned handlers run the operation of the request and report its outcome. -/
theorem executeNativePayloadWithMetrics_eq (state : AppState n) (metrics : Fin metricShardCount)
    (payload : RequestPayload) :
    (executeNativePayloadWithMetrics hash o state metrics payload).1 =
        outcomeResponse (state.engine.exec hash (requestOp o payload)).1 ∧
      (executeNativePayloadWithMetrics hash o state metrics payload).2.engine =
        (state.engine.exec hash (requestOp o payload)).2 := by
  cases payload with
  | get ns key =>
    simp only [executeNativePayloadWithMetrics, executeNativeGet, AppState.onEngine,
      AppState.engine_count, ShardedEngine.exec, requestOp]
    rcases state.engine.get hash ns key with ⟨_ | _ | _, engine⟩ <;> exact ⟨rfl, rfl⟩
  | put ns key metadata value =>
    simp only [executeNativePayloadWithMetrics, executeNativePut, AppState.onEngine,
      AppState.engine_count, ShardedEngine.exec, requestOp]
    rcases state.engine.put hash o (nativePutCommand ns key metadata value) with
      ⟨_ | _, engine⟩ <;> exact ⟨rfl, rfl⟩
  | delete ns key => exact ⟨rfl, rfl⟩
  | batchGet ns keys =>
    obtain ⟨hitems, hengine⟩ := batchItems_eq metrics
      (ShardedEngine.batchGet hash ns keys state.engine).1
      { state.count metrics .batchGetRequests with
        engine := (ShardedEngine.batchGet hash ns keys state.engine).2 }
    exact ⟨congrArg ResponsePayload.batchGet hitems, hengine⟩
  | tagInvalidate ns tag => exact ⟨rfl, rfl⟩
  | leaseStart ns key leaseTtlMs allowStaleMs =>
    simp only [executeNativePayloadWithMetrics, executeNativeLeaseStart, AppState.onEngine,
      ShardedEngine.exec, requestOp]
    rcases state.engine.startLease hash ns key leaseTtlMs with ⟨_ | _ | _ | _, engine⟩ <;>
      exact ⟨rfl, rfl⟩
  | leaseComplete ns key leaseToken metadata value =>
    simp only [executeNativePayloadWithMetrics, executeNativeLeaseComplete, AppState.onEngine,
      ShardedEngine.exec, requestOp]
    rcases state.engine.completeLease hash o
      (nativeCompleteLeaseCommand ns key leaseToken metadata value) with
      ⟨(_ | _) | _, engine⟩ <;> exact ⟨rfl, rfl⟩

theorem payload_executeNativeRequest (state : AppState n) (metrics : Fin metricShardCount)
    (request : RequestFrame) :
    (executeNativeRequest hash o state metrics request).1.payload =
      outcomeResponse (state.engine.exec hash (requestOp o request.payload)).1 :=
  (executeNativePayloadWithMetrics_eq ..).1

def viewOf : GetOutcome → GetOutcomeRef
  | .hit value => .hit value
  | .stale value => .stale value
  | .miss => .miss

/-- `get_ref` hands the closure what `get` returns. -/
theorem getRef_eq_get {R : Type} (engine : ShardedEngine n) (ns : String) (key : Bytes)
    (map : GetOutcomeRef → R) :
    engine.getRef hash ns key map =
      (map (viewOf (engine.get hash ns key).1), (engine.get hash ns key).2) := by
  have hshard : ∀ e : Engine, e.getRef ns key map =
      (map (viewOf (e.get ns key).1), (e.get ns key).2) := by
    intro e
    simp only [Engine.get, Engine.getRef, Engine.getRefInner]
    split
    · rfl
    · split <;> rfl
  simp only [ShardedEngine.getRef, ShardedEngine.get, ShardedEngine.onShard, hshard]

theorem encodeNativeGetResponseFrame_eq (state : AppState n) (metrics : Fin metricShardCount)
    (requestId : UInt64) (command : Command) (ns : String) (key out : Bytes) :
    encodeNativeGetResponseFrame hash state metrics requestId command ns key out =
      (encodeResponseFrame
          { requestId, command, payload := (executeNativeGet hash state metrics ns key).1 },
        (executeNativeGet hash state metrics ns key).2) := by
  simp only [encodeNativeGetResponseFrame, executeNativeGet, AppState.onEngine, getRef_eq_get,
    AppState.engine_count]
  rcases state.engine.get hash ns key with ⟨_ | _ | _, engine⟩ <;>
    simp only [viewOf, encodeResponsePayloadViewFrameInto_eq, ResponsePayloadView.toOwned]

variable {state : AppState n} {frame : Bytes} {maxPayloadLen : Nat} {connectionId : UInt64}
variable {responseBuffer : Bytes}

/-- An accepted request is executed and answered, on whichever path. -/
theorem executeNativeFrameBytesInto_of_ok {request : RequestFrame}
    (h : decodeRequestFrame frame maxPayloadLen = .ok request) :
    executeNativeFrameBytesInto hash o state frame maxPayloadLen connectionId responseBuffer =
      (encodeResponseFrame (executeNativeRequest hash o state
          (shardForRequest connectionId request.requestId) request).1,
        (executeNativeRequest hash o state
          (shardForRequest connectionId request.requestId) request).2) := by
  unfold executeNativeFrameBytesInto
  cases hborrowed : decodeBorrowedRequestFrame frame maxPayloadLen with
  | error e =>
    rw [decodeRequestFrame_of_borrowed_error hborrowed] at h
    cases h
  | ok view =>
    cases view with
    | none => simp only [h, encodeResponseFrameInto_eq]
    | some view =>
      rw [decodeRequestFrame_of_borrowed hborrowed] at h
      cases h
      obtain ⟨requestId, command, payload⟩ := view
      cases payload with
      | get ns key => exact encodeNativeGetResponseFrame_eq ..
      | delete | tagInvalidate | leaseStart => rfl

theorem bytes_of_ok {request : RequestFrame}
    (h : decodeRequestFrame frame maxPayloadLen = .ok request) :
    (executeNativeFrameBytesInto hash o state frame maxPayloadLen connectionId
        responseBuffer).1 = encodeResponseFrame (executeNativeRequest hash o state
          (shardForRequest connectionId request.requestId) request).1 := by
  rw [executeNativeFrameBytesInto_of_ok h]

theorem engine_of_ok {request : RequestFrame}
    (h : decodeRequestFrame frame maxPayloadLen = .ok request) :
    (executeNativeFrameBytesInto hash o state frame maxPayloadLen connectionId
        responseBuffer).2.engine = (state.engine.exec hash (requestOp o request.payload)).2 := by
  rw [executeNativeFrameBytesInto_of_ok h]
  exact (executeNativePayloadWithMetrics_eq ..).2

theorem executeNativeFrameBytesInto_of_error {e : DecodeError}
    (h : decodeRequestFrame frame maxPayloadLen = .error e) :
    executeNativeFrameBytesInto hash o state frame maxPayloadLen connectionId responseBuffer =
      (encodeDecodeError frame e responseBuffer, state) := by
  unfold executeNativeFrameBytesInto
  cases hborrowed : decodeBorrowedRequestFrame frame maxPayloadLen with
  | error e' =>
    rw [decodeRequestFrame_of_borrowed_error hborrowed] at h
    cases h
    rfl
  | ok view =>
    cases view with
    | none => simp only [h]
    | some view =>
      rw [decodeRequestFrame_of_borrowed hborrowed] at h
      cases h

end Spec

/-! ## One response for each request -/

/-- The kinds of payload that `docs/protocol.md` lists for a command, and errors. -/
def Documented : Command → ResponsePayload → Prop
  | _, .error .. => True
  | .get, .hit _ | .get, .stale _ | .get, .miss => True
  | .put, .stored _ => True
  | .delete, .deleted _ => True
  | .batchGet, .batchGet _ => True
  | .tagInvalidate, .invalidated _ => True
  | .leaseStart, .hit _ | .leaseStart, .stale _ | .leaseStart, .leaseGranted ..
  | .leaseStart, .leaseDenied => True
  | .leaseComplete, .stored _ => True
  | _, _ => False

theorem answers_of_documented {command : Command} {payload : ResponsePayload}
    (h : Documented command payload) : payload.Answers command := by
  cases payload with
  | ok => cases command <;> exact absurd h id
  | batchGet items => cases command <;> first | rfl | exact absurd h id
  | _ => trivial

theorem documented_error (command : Command) (code : ErrorCode) (message : String) :
    Documented command (.error code message) := by
  cases command <;> trivial

theorem documented_nativePutError (command : Command) (error : PutError) :
    Documented command (nativePutError error) := by
  cases error <;> exact documented_error ..

/-- The outcome is one that the operation can have. -/
def OutcomeOf : Op → Outcome → Prop
  | .put .., .put _ | .get .., .get _ | .getRef .., .getRef _
  | .getRefWithoutAccessUpdate .., .getRef _ | .batchGet .., .batchGet _ | .delete .., .delete _
  | .invalidateTag .., .invalidateTag _ | .startLease .., .startLease _
  | .completeLease .., .completeLease _ | .reclaimExpiredBudget _, .reclaimExpiredBudget _ => True
  | _, _ => False

theorem documented_of_outcomeOf {o : IterOrder} {payload : RequestPayload} {outcome : Outcome}
    (h : OutcomeOf (requestOp o payload) outcome) :
    Documented payload.command (outcomeResponse outcome) := by
  cases payload with
  | get ns key =>
    cases outcome with
    | get outcome => cases outcome <;> trivial
    | _ => exact h.elim
  | put ns key metadata value =>
    cases outcome with
    | put result =>
      cases result with
      | error error => exact documented_nativePutError _ error
      | ok outcome => trivial
    | _ => exact h.elim
  | delete ns key =>
    cases outcome with
    | delete removed => trivial
    | _ => exact h.elim
  | batchGet ns keys =>
    cases outcome with
    | batchGet outcomes => trivial
    | _ => exact h.elim
  | tagInvalidate ns tag =>
    cases outcome with
    | invalidateTag removed => trivial
    | _ => exact h.elim
  | leaseStart ns key leaseTtlMs allowStaleMs =>
    cases outcome with
    | startLease outcome => cases outcome <;> trivial
    | _ => exact h.elim
  | leaseComplete ns key leaseToken metadata value =>
    cases outcome with
    | completeLease result =>
      cases result with
      | error error =>
        cases error with
        | invalidLeaseToken => trivial
        | put error => exact documented_nativePutError _ error
      | ok outcome => trivial
    | _ => exact h.elim

section Answer
variable {n : Nat} [NeZero n] {hash : String → Bytes → Nat} {o : IterOrder}

theorem outcomeOf_exec (engine : ShardedEngine n) (op : Op) :
    OutcomeOf op (engine.exec hash op).1 := by
  cases op <;> trivial

/-- The response to an accepted request carries its id and its command, and is of a documented
kind. -/
theorem executeNativeRequest_documented (state : AppState n) (metrics : Fin metricShardCount)
    {request : RequestFrame} (h : request.command = request.payload.command) :
    (executeNativeRequest hash o state metrics request).1.requestId = request.requestId ∧
      (executeNativeRequest hash o state metrics request).1.command = request.command ∧
      Documented (executeNativeRequest hash o state metrics request).1.command
        (executeNativeRequest hash o state metrics request).1.payload := by
  refine ⟨rfl, rfl, ?_⟩
  rw [payload_executeNativeRequest]
  show Documented request.command _
  rw [h]
  exact documented_of_outcomeOf (outcomeOf_exec ..)

theorem magic_of_front {frame : Bytes} (hlen : headerLen ≤ frame.length)
    (hmagic : magic <+: frame) : ¬(frame.length < headerLen ∨ frame.extract 0 4 ≠ magic) := by
  rw [not_or, not_lt, not_not]
  refine ⟨hlen, ?_⟩
  obtain ⟨rest, rfl⟩ := hmagic
  exact List.take_left' rfl

/-- A frame with the magic that is not decoded gets an error with the command of its header, or
with `Get` if the header has none. -/
theorem nativeDecodeErrorResponse_eq_some {frame : Bytes} (hlen : headerLen ≤ frame.length)
    (hmagic : magic <+: frame) (e : DecodeError) :
    ∃ response, nativeDecodeErrorResponse frame e = some response ∧
      response.requestId = UInt64.ofNat (ofBytes (frame.extract 8 16)) ∧
      (∀ command, Command.fromId (frame.getD 6 0) = .ok command → response.command = command) ∧
      response.payload = .error (nativeDecodeErrorCode e) (debugText e) := by
  refine ⟨_, if_neg (magic_of_front hlen hmagic), rfl, fun command h => ?_, rfl⟩
  simp only [h]

/-- A frame with the magic is answered, on whichever path, by a response that carries its request id
and its command, and that is of a documented kind. -/
theorem exists_response (state : AppState n) {frame : Bytes} (hlen : headerLen ≤ frame.length)
    (hmagic : magic <+: frame) (maxPayloadLen : Nat) (connectionId : UInt64)
    (responseBuffer : Bytes) :
    ∃ response : ResponseFrame,
      (executeNativeFrameBytesInto hash o state frame maxPayloadLen connectionId
          responseBuffer).1 = encodeResponseFrame response ∧
        response.requestId = UInt64.ofNat (ofBytes (frame.extract 8 16)) ∧
        (∀ command, Command.fromId (frame.getD 6 0) = .ok command →
          response.command = command) ∧
        Documented response.command response.payload := by
  cases hdecode : decodeRequestFrame frame maxPayloadLen with
  | ok request =>
    rw [executeNativeFrameBytesInto_of_ok hdecode]
    obtain ⟨hid, hcommand⟩ := header_of_decodeRequestFrame hdecode
    have hresponse := @executeNativeRequest_documented n _ hash o state
      (shardForRequest connectionId request.requestId) _
      (decodeRequestFrame_iff.mp hdecode).1.command_eq
    generalize executeNativeRequest hash o state
      (shardForRequest connectionId request.requestId) request = result at hresponse ⊢
    obtain ⟨hid', hcommand', hdocumented⟩ := hresponse
    dsimp only
    refine ⟨result.1, rfl, hid'.trans hid, fun command h => ?_, hdocumented⟩
    rw [hcommand] at h
    cases h
    exact hcommand'
  | error e =>
    rw [executeNativeFrameBytesInto_of_error hdecode]
    obtain ⟨response, hresponse, hid, hcommand, hpayload⟩ :=
      nativeDecodeErrorResponse_eq_some hlen hmagic e
    refine ⟨response, ?_, hid, hcommand, ?_⟩
    · simp only [encodeDecodeError, hresponse, encodeResponseFrameInto_eq]
    · rw [hpayload]
      exact documented_error ..

/-- The response in the buffer carries the request id of the frame and its command. It is of a kind
documented for the command or an error, and is a single frame if its payload fits the length field.
A frame that the decoder rejects leaves the engine alone. -/
structure AnsweredBy (state : AppState n) (frame : Bytes) (maxPayloadLen : Nat)
    (result : Option Bytes × AppState n) (response : ResponseFrame) : Prop where
  bytes : result.1 = encodeResponseFrame response
  single : (encodeResponsePayload response.payload []).length < 2 ^ 32 →
    ∃ bytes, encodeResponseFrame response = some bytes ∧
      bytes.length = headerLen + payloadLen bytes ∧
      ∀ max, payloadLen bytes ≤ max → decodeResponseFrame bytes max = .ok response
  requestId : response.requestId = UInt64.ofNat (ofBytes (frame.extract 8 16))
  command : ∀ command, Command.fromId (frame.getD 6 0) = .ok command → response.command = command
  documented : Documented response.command response.payload
  rejected : ∀ e, decodeRequestFrame frame maxPayloadLen = .error e →
    result.2.engine = state.engine

theorem exists_answeredBy (state : AppState n) {frame : Bytes} (hlen : headerLen ≤ frame.length)
    (hmagic : magic <+: frame) (maxPayloadLen : Nat) (connectionId : UInt64)
    (responseBuffer : Bytes) :
    ∃ response, AnsweredBy state frame maxPayloadLen
      (executeNativeFrameBytesInto hash o state frame maxPayloadLen connectionId responseBuffer)
      response := by
  obtain ⟨response, hbytes, hid, hcommand, hdocumented⟩ :=
    exists_response state hlen hmagic maxPayloadLen connectionId responseBuffer
  refine ⟨response, hbytes,
    decodeResponseFrame_encodeResponseFrame (answers_of_documented hdocumented), hid, hcommand,
    hdocumented, fun e he => ?_⟩
  rw [executeNativeFrameBytesInto_of_error he]

/-- The owned decoder reserves nothing for the frames that it is not run on. -/
theorem log_eq_nil_of_borrowed {frame : Bytes} {maxPayloadLen : Nat}
    (h : decodeBorrowedRequestFrame frame maxPayloadLen ≠ .ok none) :
    (decodeRequestFrameReserving frame maxPayloadLen).log = [] := by
  refine List.eq_nil_iff_forall_not_mem.mpr fun r hr => h ?_
  obtain ⟨command, requestId, payload, suffix, hframe, hmax, hlt, front, left, -, hfront, -⟩ :=
    (mem_log_decodeFrameReserving records_decodeRequestPayload).mp hr
  obtain ⟨header, hheader, hlen, hcommand, -⟩ := front_iff.mpr ⟨suffix, hframe, hmax, hlt⟩
  refine decodeBorrowedRequestFrame_eq_none_iff.mpr
    ⟨command, ⟨header, hheader, hlen, Command.fromId_eq_ok_iff.mpr hcommand⟩, fun hview => ?_⟩
  obtain rfl | rfl | rfl | rfl := hview <;> exact hfront

/-- The process survives a frame exactly if the allocator has room for what the decoder reserves,
and then nothing else depends on the allocator. -/
theorem executeNativeFrameBytesOn_eq (alloc : Allocator) (state : AppState n) (frame : Bytes)
    (maxPayloadLen : Nat) (connectionId : UInt64) (responseBuffer : Bytes) :
    executeNativeFrameBytesOn hash o alloc state frame maxPayloadLen connectionId responseBuffer =
      if alloc.Serves (decodeRequestFrameReserving frame maxPayloadLen).log then
        some (executeNativeFrameBytesInto hash o state frame maxPayloadLen connectionId
          responseBuffer)
      else none := by
  by_cases hborrowed : decodeBorrowedRequestFrame frame maxPayloadLen = .ok none
  · simp only [executeNativeFrameBytesOn, executeNativeFrameBytesInto, hborrowed,
      decodeRequestFrameOn_eq]
    by_cases hserves : alloc.Serves (decodeRequestFrameReserving frame maxPayloadLen).log
    · simp only [if_pos hserves]
      cases decodeRequestFrame frame maxPayloadLen <;> rfl
    · simp only [if_neg hserves]
  · rw [log_eq_nil_of_borrowed hborrowed, if_pos (by simp [Allocator.Serves])]
    unfold executeNativeFrameBytesOn
    split
    · contradiction
    · rfl

/-- **When a frame gets its response.** A frame with the magic, complete or not, is answered exactly
if the allocator has room for what the owned decoder reserves; otherwise the process is aborted. An
allocator that has room for as many elements as a payload may have bytes has room for every frame
whose counts fit. -/
theorem executeNativeFrameBytesOn_answers_iff (alloc : Allocator) (state : AppState n)
    {frame : Bytes} (hlen : headerLen ≤ frame.length) (hmagic : magic <+: frame)
    (maxPayloadLen : Nat) (connectionId : UInt64) (responseBuffer : Bytes) :
    ((∃ result, executeNativeFrameBytesOn hash o alloc state frame maxPayloadLen connectionId
          responseBuffer = some result ∧
        ∃ response, AnsweredBy state frame maxPayloadLen result response) ↔
      alloc.Serves (decodeRequestFrameReserving frame maxPayloadLen).log) ∧
    ((∀ count ≤ maxPayloadLen, alloc count = true) →
      CountsFit kindRequest RequestFront frame maxPayloadLen →
        alloc.Serves (decodeRequestFrameReserving frame maxPayloadLen).log) := by
  refine ⟨⟨?_, fun hserves => ?_⟩, serves_request⟩
  · rintro ⟨result, hresult, -⟩
    rw [executeNativeFrameBytesOn_eq] at hresult
    by_contra hserves
    rw [if_neg hserves] at hresult
    cases hresult
  · rw [executeNativeFrameBytesOn_eq, if_pos hserves]
    exact ⟨_, rfl, exists_answeredBy state hlen hmagic maxPayloadLen connectionId responseBuffer⟩

end Answer

/-- **The zero-copy path is the plain one.** For a request that is decoded as a view, the response
buffer, the engine and the counters are those of the plain path, whatever the state is and whatever
was in the buffer. -/
theorem zero_copy_path_agrees {n : Nat} [NeZero n] (hash : String → Bytes → Nat) (o : IterOrder)
    (state : AppState n) {frame : Bytes} {maxPayloadLen : Nat} {view : RequestFrameView}
    (h : decodeBorrowedRequestFrame frame maxPayloadLen = .ok (some view))
    (connectionId : UInt64) (responseBuffer : Bytes) :
    executeDecoded hash o state frame maxPayloadLen connectionId =
      .ok (executeNativeFrameBytesInto hash o state frame maxPayloadLen connectionId
        responseBuffer) := by
  have howned := decodeRequestFrame_of_borrowed h
  rw [executeNativeFrameBytesInto_of_ok howned, executeDecoded, howned]
  rfl

/-- One entry is stored at 0 for 10 milliseconds, and the clock reads 11 from then on. -/
def expiredState : AppState 1 :=
  let state : AppState 1 := .fromConfig (fun _ => ⟨fun i => if i = 0 then 0 else 11, 0⟩) ⟨1000, 100⟩
  (executeNativePut (fun _ _ => 0) .asStored state (shardForRequest 1 6) "app" [1]
    { ttl := some ⟨10⟩, staleTtl := none, cost := none, tags := [], contentType := .octetStream }
    [118]).2

def getFrame : Bytes :=
  frameBytes kindRequest .get 7 ((RequestPayload.get "app" [1]).wire 0)

/-- A get of the expired entry answers a miss and removes it, on both paths. -/
theorem zero_copy_path_agrees_expiredState :
    let result := executeNativeFrameBytesInto (fun _ _ => 0) .asStored expiredState getFrame 64 1
      [1, 2, 3]
    executeDecoded (fun _ _ => 0) .asStored expiredState getFrame 64 1 = .ok result ∧
      result.1 = encodeResponseFrame ⟨7, .get, .miss⟩ ∧
      (expiredState.engine.shards 0).entries.keys = [⟨"app", [1]⟩] ∧
      (result.2.engine.shards 0).entries.keys = [] := by
  have hview : decodeBorrowedRequestFrame getFrame 64 =
      .ok (some ⟨7, .get, .get "app" [1]⟩) := by decide +kernel
  exact ⟨zero_copy_path_agrees _ _ expiredState hview 1 [1, 2, 3], by decide +kernel,
    by decide +kernel, by decide +kernel⟩

def emptyState : AppState 1 := .fromConfig (fun _ => ⟨fun _ => 0, 0⟩) ⟨1000, 100⟩

/-- A request with the unknown command 9. -/
def unknownCommand : Bytes := headerBytes kindRequest 9 7 0

/-- The frame gets an error that carries its request id, and the engine is left alone. -/
theorem executeNativeFrameBytesOn_answers_unknownCommand : ∃ result response,
    executeNativeFrameBytesOn (fun _ _ => 0) .asStored millionElements emptyState unknownCommand 64
        1 [] = some result ∧
      AnsweredBy emptyState unknownCommand 64 result response ∧ response.requestId = 7 ∧
      result.2.engine = emptyState.engine := by
  obtain ⟨result, hresult, response, hanswered⟩ :=
    (executeNativeFrameBytesOn_answers_iff millionElements emptyState
      (show headerLen ≤ unknownCommand.length by decide +kernel) (by decide +kernel) 64 1 []).1.mpr
      (by decide +kernel)
  exact ⟨result, response, hresult, hanswered, hanswered.requestId.trans (by decide +kernel),
    hanswered.rejected (.unknownCommand 9) (by decide +kernel)⟩

/-- The batch get of 33 bytes aborts a process that has no room for 4294967295 keys. -/
theorem not_answered_emptyBatch :
    headerLen ≤ emptyBatch.length ∧ magic <+: emptyBatch ∧
      emptyBatch.length = headerLen + payloadLen emptyBatch ∧ payloadLen emptyBatch ≤ 64 ∧
      executeNativeFrameBytesOn (fun _ _ => 0) .asStored millionElements emptyState emptyBatch 64 1
        [] = none := by
  refine ⟨by decide +kernel, by decide +kernel, by decide +kernel, by decide +kernel, ?_⟩
  rw [executeNativeFrameBytesOn_eq]
  exact if_neg (by decide +kernel)

end Server
end Cachebox
