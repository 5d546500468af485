import Cachebox.Protocol.Errors
import Cachebox.Server.Execute
import Cachebox.Sharded.Routing

/-!
# The size of responses

The encoder asserts that a payload fits the four bytes of its length field. A value gets into the
engine through a request that is itself no longer than the limit on payloads, so in every reachable
state each stored value leaves room for the fields around it in a response (`ValuesWithin`), and
every response but one fits. The exception is the answer to a batch: it holds a value for every key
of the request, and the request may name one key any number of times. `batchBytes` is its exact
size.
-/

namespace Cachebox

/-! ## Stored values -/

/-- The values that the operation writes have at most `bound` bytes. -/
def Op.WritesWithin (bound : Nat) : Op → Prop
  | .put _ command => command.value.length ≤ bound
  | .completeLease _ command => command.value.length ≤ bound
  | _ => True

/-- A reported value has at most `bound` bytes. -/
def Seen.Within (bound : Nat) : Seen → Prop
  | .value _ bytes => bytes.length ≤ bound
  | .absent => True

namespace Engine
variable {e e' : Engine} {bound : Nat}

def ValuesWithin (bound : Nat) (e : Engine) : Prop :=
  ∀ id r, e.record id = some r → r.value.length ≤ bound

theorem valuesWithin_exec (H : e.Inv) (h : e.ValuesWithin bound) {op : Op}
    (hop : op.WritesWithin bound) : (e.exec op).2.ValuesWithin bound := by
  intro id r hr
  obtain hold | hnew := record_exec H op hr
  · exact h id r hold
  · simp only [EngineEvent.written, Machine.event] at hnew
    split at hnew
    · cases hnew
      exact hop
    · cases hnew
      exact hop
    · cases hnew

theorem ValuesWithin.seen (h : e.ValuesWithin bound) {read : Read} (hread : read.Sound e e') :
    read.seen.Within bound := by
  obtain ⟨id, nowMs, seen⟩ := read
  cases seen with
  | absent => trivial
  | value stale value =>
    obtain ⟨r, hr, hvalue, -⟩ := hread
    exact hvalue ▸ h id r hr

/-- The token of a lease is a number of 64 bits behind six letters. -/
theorem length_token_le {ns : String} {key : Bytes} {leaseTtlMs : UInt64} {token : String}
    {staleValue : Option Bytes}
    (h : (e.startLease ns key leaseTtlMs).1 = .leaseGranted token staleValue) :
    (Utf8.encode token).length ≤ 26 := by
  generalize hresult : e.startLease ns key leaseTtlMs = result at h
  cases hresult ▸ asks_startLease e ns key leaseTtlMs with
  | refused hno _ =>
    cases h
    cases hno
  | @granted e₀ _ _ =>
    cases h
    have hdigits := @Utf8.length_encode_toString e₀.nextAccess.toNat 20 (by omega)
      (Nat.lt_of_lt_of_le e₀.nextAccess.toNat_lt (by decide))
    rw [Utf8.length_encode] at hdigits ⊢
    have hsplit : (e₀.createLease ⟨ns, key⟩ leaseTtlMs).1.utf8ByteSize =
        6 + (toString e₀.nextAccess.toNat).utf8ByteSize := String.utf8ByteSize_append
    omega

end Engine

theorem Op.WritesWithin.part {bound : Nat} {op part : Op} (h : op.WritesWithin bound)
    (hpart : ShardedEngine.Parts op part) : part.WritesWithin bound := by
  cases op with
  | batchGet ns keys =>
    obtain ⟨key, -, rfl⟩ := hpart
    trivial
  | reclaimExpiredBudget maxEntries =>
    obtain ⟨maxEntries, rfl⟩ := hpart
    trivial
  | _ =>
    cases hpart
    exact h

namespace Server
open Protocol BigEndian

/-! ## The states of a server -/

/-- What changes the state of a server: a frame on one of its connections, or a tick of the
expiration worker. -/
inductive Action where
  | frame (o : IterOrder) (connectionId : UInt64) (bytes : Bytes)
  | expirationTick (maxEntriesPerTick : Nat)

section
variable {n : Nat} [NeZero n] {hash : String → Bytes → Nat} {maxPayloadLen : Nat}
variable {state : AppState n}

def AppState.step (hash : String → Bytes → Nat) (maxPayloadLen : Nat) (state : AppState n) :
    Action → Option Bytes × AppState n
  | .frame o connectionId bytes =>
    executeNativeFrameBytesInto hash o state bytes maxPayloadLen connectionId []
  | .expirationTick maxEntriesPerTick =>
    (none, (state.onEngine fun engine => engine.reclaimExpiredBudget maxEntriesPerTick).2)

/-- A payload is within the limit and within what its length field can say, and the value of a
request stands behind at least 41 bytes of other fields. -/
def valueBound (maxPayloadLen : Nat) : Nat := min maxPayloadLen (2 ^ 32 - 1) - 41

theorem valueBound_add_lt (maxPayloadLen : Nat) : valueBound maxPayloadLen + 36 < 2 ^ 32 := by
  unfold valueBound
  omega

theorem writesWithin_requestOp (o : IterOrder) {frame : Bytes} {request : RequestFrame}
    (h : decodeRequestFrame frame maxPayloadLen = .ok request) :
    (requestOp o request.payload).WritesWithin (valueBound maxPayloadLen) := by
  obtain ⟨⟨-, hformed⟩, unused, suffix, -, hmax, hlt⟩ := decodeRequestFrame_iff.mp h
  have hns : ∀ ns, isValidNamespace ns → 0 < (Utf8.encode ns).length := by
    intro ns hns
    rw [Utf8.length_encode, Nat.pos_iff_ne_zero]
    intro hzero
    rw [isValidNamespace, String.isEmpty_iff_utf8ByteSize_eq_zero.mpr hzero] at hns
    cases hns
  cases hpayload : request.payload with
  | put ns key metadata value =>
    rw [hpayload] at hformed hmax hlt
    have hpos := hns ns hformed.1
    simp only [RequestPayload.wire, Metadata.wire, List.length_append, length_field,
      length_toBytes, List.length_singleton] at hmax hlt
    show value.length ≤ min maxPayloadLen (2 ^ 32 - 1) - 41
    omega
  | leaseComplete ns key leaseToken metadata value =>
    rw [hpayload] at hformed hmax hlt
    have hpos := hns ns hformed.1
    simp only [RequestPayload.wire, Metadata.wire, List.length_append, length_field,
      length_toBytes, List.length_singleton] at hmax hlt
    show value.length ≤ min maxPayloadLen (2 ^ 32 - 1) - 41
    omega
  | _ => trivial

/-- The shards are consistent, and their values leave room for the fields around them. -/
def AppState.Within (bound : Nat) (state : AppState n) : Prop :=
  ShardedEngine.AllShards (fun e => e.Inv ∧ e.ValuesWithin bound) state.engine

theorem within_of_exec {bound : Nat} {state' : AppState n} {op : Op}
    (hengine : state'.engine = (state.engine.exec hash op).2) (hop : op.WritesWithin bound)
    (h : state.Within bound) : state'.Within bound := by
  unfold AppState.Within
  rw [hengine]
  exact ShardedEngine.AllShards.exec hash op
    (fun e part hpart he => ⟨he.1.exec part, Engine.valuesWithin_exec he.1 he.2 (hop.part hpart)⟩) h

theorem within_step (action : Action) (h : state.Within (valueBound maxPayloadLen)) :
    (state.step hash maxPayloadLen action).2.Within (valueBound maxPayloadLen) := by
  cases action with
  | expirationTick maxEntriesPerTick =>
    have hengine : (state.step hash maxPayloadLen (.expirationTick maxEntriesPerTick)).2.engine =
        (state.engine.exec hash (.reclaimExpiredBudget maxEntriesPerTick)).2 := rfl
    exact within_of_exec hengine trivial h
  | frame o connectionId bytes =>
    show AppState.Within _ (executeNativeFrameBytesInto ..).2
    cases hdecode : decodeRequestFrame bytes maxPayloadLen with
    | error e =>
      rw [executeNativeFrameBytesInto_of_error hdecode]
      exact h
    | ok request =>
      exact within_of_exec (engine_of_ok hdecode) (writesWithin_requestOp o hdecode) h

omit [NeZero n] in
theorem within_fromConfig (clocks : Fin n → Clock) (limits : EngineLimits) {bound : Nat} :
    (AppState.fromConfig clocks limits).Within bound := by
  refine fun i => ⟨?_, fun id r hr => ?_⟩
  · exact Engine.inv_withClockAndLimits (clocks i) (limits.forShard n)
  · cases hr

/-- Every stored value got in through a request within the limit. -/
theorem within_run (clocks : Fin n → Clock) (limits : EngineLimits) (actions : List Action) :
    (Machine.run (AppState.step hash maxPayloadLen) (.fromConfig clocks limits) actions).Within
      (valueBound maxPayloadLen) :=
  Machine.run_invariant (I := fun state : AppState n => state.Within (valueBound maxPayloadLen))
    (fun _ action h => within_step action h) (within_fromConfig clocks limits) actions

/-! ## The responses to single requests -/

theorem length_encodeResponsePayload (payload : ResponsePayload) :
    (encodeResponsePayload payload []).length = 1 + payload.body.length := by
  rw [encodeResponsePayload_eq, List.nil_append, List.length_cons]
  omega

/-- An error is a status, a code and a text. -/
theorem length_error (code : ErrorCode) (message : String) :
    (encodeResponsePayload (.error code message) []).length = 7 + message.utf8ByteSize := by
  rw [length_encodeResponsePayload, ResponsePayload.body, List.length_append, length_toBytes,
    length_field, Utf8.length_encode]
  omega

theorem length_nativePutError_lt (error : PutError) :
    (encodeResponsePayload (nativePutError error) []).length < 2 ^ 32 := by
  cases error <;> exact (length_error ..).trans_lt (by decide)

section
variable {bound : Nat}

/-- A response whose body is one stored value fits. -/
theorem length_value_lt {payload : ResponsePayload} {value : Bytes}
    (hbody : payload.body = field value) (h : value.length ≤ bound) (hbound : bound + 36 < 2 ^ 32) :
    (encodeResponsePayload payload []).length < 2 ^ 32 := by
  rw [length_encodeResponsePayload, hbody, length_field]
  omega

theorem length_get_lt {outcome : GetOutcome} (h : outcome.seen.Within bound)
    (hbound : bound + 36 < 2 ^ 32) :
    (encodeResponsePayload (outcomeResponse (.get outcome)) []).length < 2 ^ 32 := by
  cases outcome with
  | miss => simp [length_encodeResponsePayload, outcomeResponse]
  | hit value | stale value => exact length_value_lt rfl h hbound

theorem length_startLease_lt {outcome : StartLeaseOutcome} (h : outcome.seen.Within bound)
    (htoken : ∀ token staleValue, outcome = .leaseGranted token staleValue →
      (Utf8.encode token).length ≤ 26) (hbound : bound + 36 < 2 ^ 32) :
    (encodeResponsePayload (outcomeResponse (.startLease outcome)) []).length < 2 ^ 32 := by
  cases outcome with
  | leaseDenied => simp [length_encodeResponsePayload, outcomeResponse]
  | hit value | stale value => exact length_value_lt rfl h hbound
  | leaseGranted token staleValue =>
    have htoken := htoken token staleValue rfl
    rw [length_encodeResponsePayload]
    simp only [outcomeResponse, ResponsePayload.body, length_field, List.length_append,
      List.length_singleton]
    cases staleValue with
    | none =>
      simp only [Option.elim_none, List.length_nil]
      omega
    | some value =>
      have hlen : value.length ≤ bound := h
      simp only [Option.elim_some, length_field]
      omega

/-- A response that reports at most one stored value fits. -/
theorem length_exec_lt {e : Engine} (h : e.ValuesWithin bound) (hbound : bound + 36 < 2 ^ 32)
    (o : IterOrder) {payload : RequestPayload} (hbatch : ∀ ns keys, payload ≠ .batchGet ns keys) :
    (encodeResponsePayload (outcomeResponse (e.exec (requestOp o payload)).1) []).length <
      2 ^ 32 := by
  cases payload with
  | batchGet ns keys => exact absurd rfl (hbatch ns keys)
  | get ns key => exact length_get_lt (h.seen (Engine.sound_get _ ns key)) hbound
  | leaseStart ns key leaseTtlMs allowStaleMs =>
    exact length_startLease_lt (h.seen (Engine.sound_startLease _ ns key leaseTtlMs))
      (fun _ _ => Engine.length_token_le) hbound
  | put ns key metadata value =>
    simp only [requestOp, Engine.exec, Prod.map_fst]
    cases (e.put o (nativePutCommand ns key metadata value)).1 with
    | error error => exact length_nativePutError_lt error
    | ok outcome => simp [length_encodeResponsePayload, outcomeResponse]
  | leaseComplete ns key leaseToken metadata value =>
    simp only [requestOp, Engine.exec, Prod.map_fst]
    cases (e.completeLease o (nativeCompleteLeaseCommand ns key leaseToken metadata value)).1 with
    | error error =>
      cases error with
      | put error => exact length_nativePutError_lt error
      | invalidLeaseToken => exact (length_error ..).trans_lt (by decide)
    | ok outcome => simp [length_encodeResponsePayload, outcomeResponse]
  | delete ns key => simp [length_encodeResponsePayload, outcomeResponse, requestOp, Engine.exec]
  | tagInvalidate ns tag =>
    simp [length_encodeResponsePayload, outcomeResponse, requestOp, Engine.exec]

theorem length_outcomeResponse_lt (h : state.Within bound) (hbound : bound + 36 < 2 ^ 32)
    (o : IterOrder) {payload : RequestPayload} (hbatch : ∀ ns keys, payload ≠ .batchGet ns keys) :
    (encodeResponsePayload (outcomeResponse (state.engine.exec hash (requestOp o payload)).1)
      []).length < 2 ^ 32 := by
  have hone : ∀ ns key, (state.engine.exec hash (requestOp o payload)).1 =
      ((state.engine.shards (ShardedEngine.shardIndexFor hash ns key)).exec
        (requestOp o payload)).1 →
      (encodeResponsePayload (outcomeResponse (state.engine.exec hash (requestOp o payload)).1)
        []).length < 2 ^ 32 := by
    intro ns key heq
    rw [heq]
    exact length_exec_lt (h _).2 hbound o hbatch
  cases payload with
  | batchGet ns keys => exact absurd rfl (hbatch ns keys)
  | tagInvalidate ns tag =>
    simp [length_encodeResponsePayload, outcomeResponse, requestOp, ShardedEngine.exec]
  | get ns key | put ns key | delete ns key | leaseStart ns key | leaseComplete ns key =>
    exact hone ns key rfl

end

/-! ## Error texts -/

/-- A number of 64 bits between two texts. -/
theorem size_around_le {k : Nat} (h : k < 2 ^ 64) {before after : String} {bound : Nat}
    (hbound : before.utf8ByteSize + 20 + after.utf8ByteSize ≤ bound) :
    (before ++ toString k ++ after).utf8ByteSize ≤ bound := by
  have hdigits := @Utf8.length_encode_toString k 20 (by omega) (Nat.lt_trans h (by decide))
  rw [Utf8.length_encode] at hdigits
  rw [String.utf8ByteSize_append, String.utf8ByteSize_append]
  omega

theorem size_debugText_le {e : DecodeError} {len : Nat} (h : e.OfFrame len)
    (hlen : len < 2 ^ 64) : (debugText e).utf8ByteSize ≤ 128 := by
  cases e with
  | unsupportedVersion value | invalidKind value | unknownCommand value | nonzeroFlags value
  | invalidBool value =>
    exact @size_around_le value.toNat (by have := value.toNat_lt; omega) _ _ _ (by decide)
  | nonzeroReserved value =>
    exact @size_around_le value.toNat (by have := value.toNat_lt; omega) _ _ _ (by decide)
  | trailingBytes count =>
    have hcount : count < 2 ^ 32 := h
    exact size_around_le (by omega) (by decide)
  | frameTooLarge payloadLen max =>
    obtain ⟨hpayload, hmax⟩ := h
    have hfirst := @size_around_le payloadLen (by omega) "FrameTooLarge \x7b payload_len: "
      ", max: " _ Nat.le.refl
    exact size_around_le (by omega)
      (Nat.le_trans (Nat.add_le_add_right (Nat.add_le_add_right hfirst _) _) (by decide))
  | truncatedPayload expected actual =>
    obtain ⟨hexpected, rfl⟩ := h
    simp only [headerLen] at hexpected
    have hfirst := @size_around_le expected (by omega) "TruncatedPayload \x7b expected: "
      ", actual: " _ Nat.le.refl
    exact size_around_le hlen
      (Nat.le_trans (Nat.add_le_add_right (Nat.add_le_add_right hfirst _) _) (by decide))
  | invalidPayload message =>
    have hall : ∀ message ∈ payloadMessages,
      (debugText (.invalidPayload message)).utf8ByteSize ≤ 128 := by decide +kernel
    exact hall message h
  | _ => decide

/-- The answer to a frame that is not decoded fits. -/
theorem length_decodeError_lt {frame : Bytes} (hlen : frame.length < 2 ^ 64) {e : DecodeError}
    (h : decodeRequestFrame frame maxPayloadLen = .error e) :
    (encodeResponsePayload (.error (nativeDecodeErrorCode e) (debugText e)) []).length <
      2 ^ 32 := by
  have hsize := size_debugText_le (failsWith_decodeRequestFrame frame maxPayloadLen e h) hlen
  rw [length_error]
  omega

/-! ## Batches -/

/-- The bytes of the items of a batch, from the entries that `s` stores before it. Each key takes
the next reading of the clock of its shard; `gone` are the keys that have been found expired. -/
def batchBytes (hash : String → Bytes → Nat) (s : ShardedEngine n) (ns : String) :
    (Fin n → Clock) → List Bytes → List Bytes → Nat
  | _, _, [] => 0
  | clocks, gone, key :: keys =>
    let i := ShardedEngine.shardIndexFor hash ns key
    let clocks' := Function.update clocks i (clocks i).tick
    match (s.shards i).entries.lookup ⟨ns, key⟩ with
    | none => 1 + batchBytes hash s ns clocks' gone keys
    | some entry =>
      if key ∈ gone then 1 + batchBytes hash s ns clocks' gone keys
      else if entryStateAt entry (clocks i).nowMs = .expired then
        1 + batchBytes hash s ns clocks' (key :: gone) keys
      else 5 + entry.value.length + batchBytes hash s ns clocks' gone keys

/-- The payload of the answer to a batch: a status, the number of items and the items. -/
def batchPayloadBytes (hash : String → Bytes → Nat) (s : ShardedEngine n) (ns : String)
    (keys : List Bytes) : Nat :=
  5 + batchBytes hash s ns (fun i => (s.shards i).clock) [] keys

/-- In the middle of a batch that started at `s`: the clocks have moved, and of the entries in `ns`
only those of the keys in `gone` are missing. -/
structure MidBatch (hash : String → Bytes → Nat) (s : ShardedEngine n) (ns : String)
    (s' : ShardedEngine n) (clocks : Fin n → Clock) (gone : List Bytes) : Prop where
  clock : ∀ i, (s'.shards i).clock = clocks i
  record : ∀ key,
    (s'.shards (ShardedEngine.shardIndexFor hash ns key)).record ⟨ns, key⟩ =
      if key ∈ gone then none
      else (s.shards (ShardedEngine.shardIndexFor hash ns key)).record ⟨ns, key⟩

section
variable {s s' : ShardedEngine n} {ns : String} {clocks : Fin n → Clock} {gone : List Bytes}
variable {key : Bytes} {i : Fin n}

/-- A read of `key` that loses the entries of the keys in `lost`. -/
theorem MidBatch.get (h : MidBatch hash s ns s' clocks gone)
    (hi : ShardedEngine.shardIndexFor hash ns key = i) (lost : List Bytes)
    (hlost : ∀ key' ∈ lost, key' = key)
    (hrecord : ∀ key', ((s'.shards i).get ns key).2.record ⟨ns, key'⟩ =
      if key' ∈ lost then none else (s'.shards i).record ⟨ns, key'⟩) :
    MidBatch hash s ns (s'.get hash ns key).2 (Function.update clocks i (clocks i).tick)
      (lost ++ gone) := by
  subst hi
  have hshards : (s'.get hash ns key).2.shards =
    Function.update s'.shards _ ((s'.shards _).get ns key).2 := rfl
  refine ⟨fun j => ?_, fun key' => ?_⟩
  · rw [hshards]
    by_cases hj : j = ShardedEngine.shardIndexFor hash ns key
    · subst hj
      rw [Function.update_self, Function.update_self, Engine.get_clock, h.clock]
    · rw [Function.update_of_ne hj, Function.update_of_ne hj, h.clock]
  · have hother := h.record key'
    rw [hshards]
    by_cases hj : ShardedEngine.shardIndexFor (n := n) hash ns key' =
        ShardedEngine.shardIndexFor hash ns key
    · rw [hj] at hother ⊢
      rw [Function.update_self, hrecord, hother]
      by_cases hmem : key' ∈ lost <;> simp [hmem]
    · have hmem : key' ∉ lost := fun hmem => hj (by rw [hlost key' hmem])
      rw [Function.update_of_ne hj, hother]
      simp [hmem]

/-- A key without an entry takes up one byte. -/
theorem MidBatch.get_absent (h : MidBatch hash s ns s' clocks gone)
    (hi : ShardedEngine.shardIndexFor hash ns key = i)
    (hnone : (s'.shards i).record ⟨ns, key⟩ = none) :
    (batchItem ((s'.shards i).get ns key).1).wire.length = 1 ∧
      MidBatch hash s ns (s'.get hash ns key).2 (Function.update clocks i (clocks i).tick)
        gone := by
  have hget := Engine.get_of_absent (Engine.record_eq_none_iff.mp hnone)
  refine ⟨by rw [hget]; rfl, h.get hi [] nofun fun key' => ?_⟩
  rw [hget, if_neg List.not_mem_nil]
  rfl

/-- An expired entry takes up one byte and is gone. -/
theorem MidBatch.get_expired {entry : Entry} (h : MidBatch hash s ns s' clocks gone)
    (hi : ShardedEngine.shardIndexFor hash ns key = i)
    (hl : (s'.shards i).entries.lookup ⟨ns, key⟩ = some entry)
    (hstate : entryStateAt entry (clocks i).nowMs = .expired) :
    (batchItem ((s'.shards i).get ns key).1).wire.length = 1 ∧
      MidBatch hash s ns (s'.get hash ns key).2 (Function.update clocks i (clocks i).tick)
        (key :: gone) := by
  rw [← h.clock] at hstate
  have hget := Engine.get_of_expired hl hstate
  refine ⟨by rw [hget]; rfl, h.get hi [key] (by simp) fun key' => ?_⟩
  rw [hget, Engine.record_removeEntry]
  simp only [EntryId.mk.injEq, true_and, List.mem_singleton]
  rfl

/-- A live entry takes up its value and five bytes. -/
theorem MidBatch.get_live {entry : Entry} (h : MidBatch hash s ns s' clocks gone)
    (hi : ShardedEngine.shardIndexFor hash ns key = i)
    (hl : (s'.shards i).entries.lookup ⟨ns, key⟩ = some entry)
    (hstate : entryStateAt entry (clocks i).nowMs ≠ .expired) :
    (batchItem ((s'.shards i).get ns key).1).wire.length = 5 + entry.value.length ∧
      MidBatch hash s ns (s'.get hash ns key).2 (Function.update clocks i (clocks i).tick)
        gone := by
  rw [← h.clock] at hstate
  have hkept : ∀ key', ((s'.shards i).tick.recordAccess ⟨ns, key⟩).record ⟨ns, key'⟩ =
      if key' ∈ [] then none else (s'.shards i).record ⟨ns, key'⟩ := by
    intro key'
    rw [Engine.record_recordAccess, if_neg List.not_mem_nil]
    rfl
  have hlen : ∀ status : UInt8, (status :: field entry.value).length = 5 + entry.value.length := by
    intro status
    rw [List.length_cons, length_field]
    omega
  cases hcase : entryStateAt entry (s'.shards i).clock.nowMs with
  | missing => exact absurd hcase (Engine.entryStateAt_ne_missing _ _)
  | expired => exact absurd hcase hstate
  | fresh =>
    have hget := Engine.get_of_fresh hl hcase
    rw [hget]
    exact ⟨hlen _, h.get hi [] nofun (by rw [hget]; exact hkept)⟩
  | stale =>
    have hget := Engine.get_of_stale hl hcase
    rw [hget]
    exact ⟨hlen _, h.get hi [] nofun (by rw [hget]; exact hkept)⟩

/-- The items of the rest of a batch take up what the entries before the batch say. -/
theorem MidBatch.length_items (h : MidBatch hash s ns s' clocks gone) (keys : List Bytes) :
    (((ShardedEngine.batchGet hash ns keys s').1.map batchItem).flatMap BatchItem.wire).length =
      batchBytes hash s ns clocks gone keys := by
  induction keys generalizing s' clocks gone with
  | nil => rfl
  | cons key keys ih =>
    have hstored := h.record key
    have hfst : (s'.get hash ns key).1 =
      ((s'.shards (ShardedEngine.shardIndexFor hash ns key)).get ns key).1 := rfl
    simp only [ShardedEngine.batchGet, List.map_cons, List.flatMap_cons, List.length_append,
      batchBytes, hfst]
    cases hl : (s.shards (ShardedEngine.shardIndexFor hash ns key)).entries.lookup ⟨ns, key⟩ with
    | none =>
      rw [Engine.record_eq_none_iff.mpr hl, ite_self] at hstored
      obtain ⟨hlen, hnext⟩ := h.get_absent rfl hstored
      rw [hlen, ih hnext]
    | some entry =>
      rw [Engine.record_of_lookup hl] at hstored
      dsimp only
      split
      · next hgone =>
        rw [if_pos hgone] at hstored
        obtain ⟨hlen, hnext⟩ := h.get_absent rfl hstored
        rw [hlen, ih hnext]
      · next hgone =>
        rw [if_neg hgone] at hstored
        obtain ⟨entry', hl', hrecord⟩ := Option.map_eq_some_iff.mp hstored
        have hvalue : entry'.value = entry.value := congrArg Record.value hrecord
        rw [← entryStateAt_congr hrecord]
        split
        · next hstate =>
          obtain ⟨hlen, hnext⟩ := h.get_expired rfl hl' hstate
          rw [hlen, ih hnext]
        · next hstate =>
          obtain ⟨hlen, hnext⟩ := h.get_live rfl hl' hstate
          rw [hlen, ih hnext, hvalue]

end

theorem length_batchGet (s : ShardedEngine n) (ns : String) (keys : List Bytes) :
    (encodeResponsePayload (outcomeResponse (s.exec hash (.batchGet ns keys)).1) []).length =
      batchPayloadBytes hash s ns keys := by
  have hstart : MidBatch hash s ns s (fun i => (s.shards i).clock) [] :=
    ⟨fun _ => rfl, fun key => by rw [if_neg List.not_mem_nil]⟩
  have hitems := hstart.length_items keys
  rw [length_encodeResponsePayload]
  simp only [outcomeResponse, ShardedEngine.exec, Prod.map_fst, ResponsePayload.body,
    List.length_append, length_toBytes, hitems, batchPayloadBytes]
  omega

/-! ## The assertion of the encoder -/

theorem encodeResponseFrame_isSome_iff (response : ResponseFrame) :
    (∃ bytes, encodeResponseFrame response = some bytes ∧ bytes.length =
        headerLen + (encodeResponsePayload response.payload []).length) ↔
      (encodeResponsePayload response.payload []).length < 2 ^ 32 := by
  rw [encodeResponseFrame_eq, encodeResponsePayload_eq, List.nil_append]
  split
  next hlt => exact iff_of_true ⟨_, rfl, length_frameBytes ..⟩ hlt
  next hge => exact iff_of_false (fun ⟨_, h, _⟩ => nomatch h) hge

/-- In a consistent state the payload of a response fits, unless it is the answer to a batch of
entries that do not. -/
theorem length_response_lt_iff {bound : Nat} (h : state.Within bound)
    (hbound : bound + 36 < 2 ^ 32) (o : IterOrder) (metrics : Fin metricShardCount)
    (request : RequestFrame) :
    (encodeResponsePayload (executeNativeRequest hash o state metrics request).1.payload
        []).length < 2 ^ 32 ↔
      ∀ ns keys, request.payload = .batchGet ns keys →
        batchPayloadBytes hash state.engine ns keys < 2 ^ 32 := by
  rw [payload_executeNativeRequest]
  by_cases hbatch : ∃ ns keys, request.payload = .batchGet ns keys
  · obtain ⟨ns, keys, hbatch⟩ := hbatch
    have hop : requestOp o (.batchGet ns keys) = .batchGet ns keys := rfl
    rw [hbatch, hop, length_batchGet]
    constructor
    · intro hlt ns' keys' heq
      cases heq
      exact hlt
    · intro hlt
      exact hlt ns keys rfl
  · exact iff_of_true
      (length_outcomeResponse_lt h hbound o fun ns keys heq => hbatch ⟨ns, keys, heq⟩)
      fun ns keys heq => absurd ⟨ns, keys, heq⟩ hbatch

/-- The response to an accepted request fits its length field, and the request is answered, exactly
if the request is no batch or the entries that are stored for the keys of the batch fit. -/
theorem response_fits_iff (clocks : Fin n → Clock) (limits : EngineLimits) (actions : List Action)
    (o : IterOrder) {frame : Bytes} {request : RequestFrame}
    (hdecode : decodeRequestFrame frame maxPayloadLen = .ok request)
    (connectionId : UInt64) (responseBuffer : Bytes) :
    let state := Machine.run (AppState.step hash maxPayloadLen) (.fromConfig clocks limits) actions
    let response := (executeNativeRequest hash o state
      (shardForRequest connectionId request.requestId) request).1
    ((encodeResponsePayload response.payload []).length ≤ 2 ^ 32 - 1 ∧
        ∃ bytes, (executeNativeFrameBytesInto hash o state frame maxPayloadLen connectionId
            responseBuffer).1 = some bytes ∧
          bytes.length = headerLen + (encodeResponsePayload response.payload []).length) ↔
      ∀ ns keys, request.payload = .batchGet ns keys →
        batchPayloadBytes hash state.engine ns keys ≤ 2 ^ 32 - 1 := by
  intro state response
  have hwithin : state.Within (valueBound maxPayloadLen) := within_run clocks limits actions
  have hiff : (encodeResponsePayload response.payload []).length < 2 ^ 32 ↔
      ∀ ns keys, request.payload = .batchGet ns keys →
        batchPayloadBytes hash state.engine ns keys < 2 ^ 32 :=
    length_response_lt_iff hwithin (valueBound_add_lt maxPayloadLen) o _ request
  have hbytes : (executeNativeFrameBytesInto hash o state frame maxPayloadLen connectionId
      responseBuffer).1 = encodeResponseFrame response := bytes_of_ok hdecode
  have hle : ∀ k, k ≤ 2 ^ 32 - 1 ↔ k < 2 ^ 32 := fun k => by omega
  simp only [hbytes, encodeResponseFrame_isSome_iff, hle, and_self]
  exact hiff

/-- A key that is stored without a time to live takes up its value every time it is named. -/
theorem batchBytes_replicate {s : ShardedEngine n} {ns : String} {key : Bytes} {entry : Entry}
    (hl : (s.shards (ShardedEngine.shardIndexFor hash ns key)).entries.lookup ⟨ns, key⟩ =
      some entry) (hexpires : entry.expiresAtMs = none) (clocks : Fin n → Clock) (count : Nat) :
    batchBytes hash s ns clocks [] (List.replicate count key) =
      count * (5 + entry.value.length) := by
  have hfresh : ∀ nowMs, entryStateAt entry nowMs = .fresh := fun nowMs => by
    simp [entryStateAt, hexpires]
  induction count generalizing clocks with
  | zero => simp [batchBytes]
  | succ count ih =>
    rw [List.replicate_succ, batchBytes]
    simp only [hl, hfresh, List.not_mem_nil, if_false, reduceCtorEq, ih]
    rw [Nat.succ_mul, Nat.add_comm]

end

/-- A batch that names the key of `plainPut` twice. -/
def smallBatch : RequestFrame :=
  { requestId := 2, command := .batchGet, payload := .batchGet "default" [[1, 2], [1, 2]] }

def smallBatchBytes : Bytes := frameBytes kindRequest .batchGet 2 (smallBatch.payload.wire 0)

theorem response_fits_iff_smallBatch : ∃ bytes,
    (executeNativeFrameBytesInto (fun _ _ => 0) .asStored
      (Machine.run (AppState.step (fun _ _ => 0) 64) emptyState
        [.frame .asStored 1 (plainPutBytes 0)]) smallBatchBytes 64 1 []).1 = some bytes := by
  obtain ⟨-, bytes, hbytes, -⟩ :=
    (@response_fits_iff 1 _ (fun _ _ => 0) 64 (fun _ => ⟨fun _ => 0, 0⟩) ⟨1000, 100⟩
      [.frame .asStored 1 (plainPutBytes 0)] .asStored smallBatchBytes smallBatch
      (by decide +kernel) 1 []).mpr (fun ns keys h => by cases h; decide +kernel)
  exact ⟨bytes, hbytes⟩

/-- A put of a value of `size` bytes. -/
def sizedPut (size : Nat) : RequestFrame :=
  { requestId := 1, command := .put,
    payload := .put "default" [1] ⟨none, none, none, [], .other⟩ (List.replicate size 0) }

def sizedPutBytes (size : Nat) : Bytes :=
  frameBytes kindRequest .put 1 ((sizedPut size).payload.wire 0)

/-- A batch that names the key of the put `count` times. -/
def repeatedKeyBatch (count : Nat) : RequestFrame :=
  { requestId := 2, command := .batchGet,
    payload := .batchGet "default" (List.replicate count [1]) }

def repeatedKeyBatchBytes (count : Nat) : Bytes :=
  frameBytes kindRequest .batchGet 2 ((repeatedKeyBatch count).payload.wire 0)

theorem length_encode_default : (Utf8.encode "default").length = 7 := by decide +kernel

theorem decodeRequestFrame_sizedPut {size maxPayloadLen : Nat}
    (hsize : size + 48 ≤ maxPayloadLen) (hlt : size + 48 < 2 ^ 32) :
    decodeRequestFrame (sizedPutBytes size) maxPayloadLen = .ok (sizedPut size) := by
  have hlen : ((sizedPut size).payload.wire 0).length = size + 48 := by
    simp [sizedPut, Metadata.wire, length_field, length_encode_default]
    omega
  refine decodeRequestFrame_iff.mpr ⟨⟨rfl, by decide +kernel, by simp, by simp, by simp, ?_⟩, 0, [],
    (List.append_nil _).symm, by rwa [hlen], by rwa [hlen]⟩
  exact Nat.zero_le _

theorem decodeRequestFrame_repeatedKeyBatch {count maxPayloadLen : Nat} (hpos : count ≠ 0)
    (hcount : 5 * count + 15 ≤ maxPayloadLen) (hlt : 5 * count + 15 < 2 ^ 32) :
    decodeRequestFrame (repeatedKeyBatchBytes count) maxPayloadLen =
      .ok (repeatedKeyBatch count) := by
  have hlen : ((repeatedKeyBatch count).payload.wire 0).length = 5 * count + 15 := by
    simp [repeatedKeyBatch, length_field, length_encode_default]
    omega
  refine decodeRequestFrame_iff.mpr ⟨⟨rfl, by decide +kernel, ?_⟩, 0, [],
    (List.append_nil _).symm, by rwa [hlen], by rwa [hlen]⟩
  rwa [ne_eq, List.replicate_eq_nil_iff]

theorem neZero_one : NeZero 1 := inferInstance

/-- A server with one shard and the default limits, after the put. -/
def stateAfterPut (maxPayloadLen size : Nat) : AppState 1 :=
  Machine.run (@AppState.step 1 neZero_one (fun _ _ => 0) maxPayloadLen)
    (.fromConfig (fun _ => ⟨fun _ => 0, 0⟩) default) [.frame .asStored 1 (sizedPutBytes size)]

theorem record_stateAfterPut {size maxPayloadLen : Nat} (hsize : size + 48 ≤ maxPayloadLen)
    (hlimit : size ≤ 8 * 1024 * 1024) (i : Fin 1) :
    ((stateAfterPut maxPayloadLen size).engine.shards i).record ⟨"default", [1]⟩ =
      some ⟨List.replicate size 0, [], none, none⟩ := by
  obtain rfl : i = 0 := Subsingleton.elim i 0
  have hdecode := decodeRequestFrame_sizedPut hsize (by omega)
  have hengine : (stateAfterPut maxPayloadLen size).engine = _ := engine_of_ok hdecode
  have hinv := Engine.inv_withClockAndLimits ⟨fun _ => 0, 0⟩ (EngineLimits.forShard default 1)
  obtain ⟨outcome, hok⟩ := (Engine.put_isOk_iff hinv .asStored
    (nativePutCommand "default" [1] ⟨none, none, none, [], .other⟩ (List.replicate size 0))).mpr (by
      have hmemory : estimateEntryMemory ⟨"default", [1]⟩ (List.replicate size 0) [] =
          104 + size := by
        simp [estimateEntryMemory, entryOverheadBytes, ← Utf8.length_encode, length_encode_default]
      refine ⟨?_, ?_⟩
      · rw [nativePutCommand, List.length_replicate]
        exact hlimit
      · refine hmemory.trans_le ?_
        show 104 + size ≤ 64 * 1024 * 1024
        omega)
  have hrecord := (Engine.record_put_ok hinv hok).1
  have hshards : (stateAfterPut maxPayloadLen size).engine.shards 0 =
      ((Engine.withClockAndLimits ⟨fun _ => 0, 0⟩ (EngineLimits.forShard default 1)).put .asStored
        (nativePutCommand "default" [1] ⟨none, none, none, [], .other⟩
          (List.replicate size 0))).2 := by
    rw [hengine]
    exact congrFun (ShardedEngine.updateTagRoutes_shards ..) 0
  rw [hshards]
  exact hrecord

/-- The answer to the batch holds the value once for every time the key is named. -/
theorem length_repeatedKeyBatch {size maxPayloadLen : Nat} (hsize : size + 48 ≤ maxPayloadLen)
    (hlimit : size ≤ 8 * 1024 * 1024) (count : Nat) (metrics : Fin metricShardCount) :
    (encodeResponsePayload (executeNativeRequest (fun _ _ => 0) .asStored
      (stateAfterPut maxPayloadLen size) metrics (repeatedKeyBatch count)).1.payload []).length =
        5 + count * (5 + size) := by
  obtain ⟨entry, hl, hrecord⟩ := Option.map_eq_some_iff.mp (record_stateAfterPut hsize hlimit
    (ShardedEngine.shardIndexFor (fun _ _ => 0) "default" [1]))
  have hvalue : entry.value = List.replicate size 0 := congrArg Record.value hrecord
  have hbytes : batchPayloadBytes (fun _ _ => 0) (stateAfterPut maxPayloadLen size).engine
      "default" (List.replicate count [1]) = 5 + count * (5 + entry.value.length) :=
    congrArg (5 + ·) (batchBytes_replicate hl (congrArg Record.expiresAtMs hrecord) _ count)
  rw [hvalue, List.length_replicate] at hbytes
  have hop : requestOp .asStored (repeatedKeyBatch count).payload =
    .batchGet "default" (List.replicate count [1]) := rfl
  rw [payload_executeNativeRequest, hop, length_batchGet, hbytes]

/-- A batch that names a key with 65536 bytes 65536 times makes the encoder panic. -/
theorem not_response_fits_repeatedKeyBatch :
    8388608 < 2 ^ 32 ∧
      decodeRequestFrame (sizedPutBytes 65536) 8388608 = .ok (sizedPut 65536) ∧
      decodeRequestFrame (repeatedKeyBatchBytes 65536) 8388608 = .ok (repeatedKeyBatch 65536) ∧
      2 ^ 32 - 1 < (encodeResponsePayload (executeNativeRequest (fun _ _ => 0) .asStored
        (stateAfterPut 8388608 65536) (shardForRequest 1 2)
        (repeatedKeyBatch 65536)).1.payload []).length ∧
      (executeNativeFrameBytesInto (fun _ _ => 0) .asStored (stateAfterPut 8388608 65536)
        (repeatedKeyBatchBytes 65536) 8388608 1 []).1 = none := by
  have hbatch := @decodeRequestFrame_repeatedKeyBatch 65536 8388608 (by omega) (by omega) (by omega)
  have hlen := @length_repeatedKeyBatch 65536 8388608 (by omega) (by omega) 65536
  refine ⟨by omega, decodeRequestFrame_sizedPut (by omega) (by omega), hbatch, ?_, ?_⟩
  · rw [hlen]
    omega
  · rw [bytes_of_ok hbatch, encodeResponseFrame_eq, if_neg]
    rw [← List.nil_append (_ :: _), ← encodeResponsePayload_eq, hlen]
    omega

end Server
end Cachebox
