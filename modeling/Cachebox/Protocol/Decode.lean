import Cachebox.Protocol.Basic
import Cachebox.Theory.Parser

/-!
# Decoding frames

A `Cursor` is a position in the payload of a frame, and a `Reader` moves it forward or fails. The
decoders check the header, cut the payload out of the input, read it and require that nothing of it
is left; the bytes after the frame are not looked at.
-/

namespace Cachebox
namespace Protocol
open Parser (ensure times)

/-- A payload is as long as a `u32` header field says. -/
structure Cursor where
  input : Bytes
  offset : Nat
  offset_le : offset ≤ input.length
  length_lt : input.length < 2 ^ 32

abbrev Reader := StateT Cursor (Except DecodeError)

namespace Cursor

def new (input : Bytes) (length_lt : input.length < 2 ^ 32) : Cursor :=
  { input, offset := 0, offset_le := Nat.zero_le _, length_lt }

def readU8 : Reader UInt8 := fun cursor =>
  if h : cursor.offset < cursor.input.length then
    .ok (cursor.input[cursor.offset],
      { cursor with offset := cursor.offset + 1, offset_le := h })
  else
    .error (.invalidPayload "truncated u8")

def readExact (len : Nat) : Reader Bytes := fun cursor =>
  let stop := cursor.offset + len
  if stop > usizeMax then
    .error (.invalidPayload "length overflow")
  else if h : stop > cursor.input.length then
    .error (.invalidPayload "truncated field")
  else
    .ok (cursor.input.extract cursor.offset stop,
      { cursor with offset := stop, offset_le := Nat.le_of_not_gt h })

def readU16 : Reader UInt16 := do
  let bytes ← readExact 2
  return .ofNat (BigEndian.ofBytes bytes)

def readU32 : Reader UInt32 := do
  let bytes ← readExact 4
  return .ofNat (BigEndian.ofBytes bytes)

def readU64 : Reader UInt64 := do
  let bytes ← readExact 8
  return .ofNat (BigEndian.ofBytes bytes)

def readBool : Reader Bool := do
  match ← readU8 with
  | 0 => return false
  | 1 => return true
  | value => throw (.invalidBool value)

def readBytes : Reader Bytes := do
  let len ← readU32
  readExact len.toNat

def readString : Reader String := do
  let bytes ← readBytes
  match Utf8.decode bytes with
  | some value => return value
  | none => throw .invalidUtf8

def expectEmpty (cursor : Cursor) : Except DecodeError Unit :=
  ensure (cursor.offset == cursor.input.length)
    (.trailingBytes (cursor.input.length - cursor.offset))

end Cursor

open Cursor

def readNamespace : Reader String := do
  let ns ← readString
  ensure (isValidNamespace ns) .invalidNamespace
  return ns

def readTag : Reader String := do
  let tag ← readString
  ensure (isValidTag tag) .invalidTag
  return tag

/-- A `u64` field in which zero stands for an absent value. -/
def readOptional {α : Type} (make : UInt64 → α) : Reader (Option α) := do
  match ← readU64 with
  | 0 => return none
  | value => return some (make value)

def readTtl : Reader (Option Ttl) := readOptional fun milliseconds => { milliseconds }

def readAllowStaleMs : Reader (Option UInt64) := readOptional fun value => value

def readContentType : Reader ContentType := do
  match ← readU8 with
  | 0 => return .octetStream
  | 1 => return .other
  | _ => throw (.invalidPayload "invalid content type")

/-- The eight cost bytes are read also when the flag before them says that there is no cost. -/
def readCost : Reader (Option UInt64) := do
  match ← readBool with
  | true =>
    let cost ← readU64
    return some cost
  | false =>
    let _ignoredCost ← readU64
    return none

def readMetadata : Reader Metadata := do
  let ttl ← readTtl
  let staleTtl ← readTtl
  let cost ← readCost
  let tagCount ← readU16
  let tags ← times readTag tagCount.toNat
  let contentType ← readContentType
  return { ttl, staleTtl, cost, tags, contentType }

def decodeRequestPayload : Command → Reader RequestPayload
  | .get => do
    let ns ← readNamespace
    let key ← readBytes
    return .get ns key
  | .put => do
    let ns ← readNamespace
    let key ← readBytes
    let metadata ← readMetadata
    let value ← readBytes
    return .put ns key metadata value
  | .delete => do
    let ns ← readNamespace
    let key ← readBytes
    return .delete ns key
  | .batchGet => do
    let ns ← readNamespace
    let keyCount ← readU32
    ensure (keyCount != 0) (.invalidPayload "batch get requires at least one key")
    let keys ← times readBytes keyCount.toNat
    return .batchGet ns keys
  | .tagInvalidate => do
    let ns ← readNamespace
    let tag ← readTag
    return .tagInvalidate ns tag
  | .leaseStart => do
    let ns ← readNamespace
    let key ← readBytes
    let leaseTtlMs ← readU64
    ensure (leaseTtlMs != 0) (.invalidPayload "lease ttl must be greater than zero")
    let allowStaleMs ← readAllowStaleMs
    return .leaseStart ns key leaseTtlMs allowStaleMs
  | .leaseComplete => do
    let ns ← readNamespace
    let key ← readBytes
    let leaseToken ← readString
    ensure (!leaseToken.isEmpty) (.invalidPayload "lease token must be non-empty")
    let metadata ← readMetadata
    let value ← readBytes
    return .leaseComplete ns key leaseToken metadata value

def readBatchItem : Reader BatchItem := do
  match ← readU8 with
  | 0x01 =>
    let value ← readBytes
    return .hit value
  | 0x02 =>
    let value ← readBytes
    return .stale value
  | 0x03 => return .miss
  | _ => throw (.invalidPayload "invalid batch item status")

def readErrorCode : Reader ErrorCode := do
  let id ← readU16
  match ErrorCode.fromId id with
  | .ok code => return code
  | .error e => throw e

def readStaleValue : Reader (Option Bytes) := do
  match ← readBool with
  | true =>
    let value ← readBytes
    return some value
  | false => return none

/-- The rest of a response payload after its status byte. Status `0x00` is a batch of items for
`BatchGet` and an empty payload for every other command. -/
def decodeResponseBody (command : Command) : UInt8 → Reader ResponsePayload
  | 0x00 =>
    if command = .batchGet then do
      let itemCount ← readU32
      let items ← times readBatchItem itemCount.toNat
      return .batchGet items
    else
      return .ok
  | 0x01 => do
    let value ← readBytes
    return .hit value
  | 0x02 => do
    let value ← readBytes
    return .stale value
  | 0x03 => return .miss
  | 0x04 => do
    let evicted ← readU32
    return .stored evicted
  | 0x05 => do
    let removed ← readBool
    return .deleted removed
  | 0x06 => do
    let removed ← readU32
    return .invalidated removed
  | 0x07 => do
    let leaseToken ← readString
    let staleValue ← readStaleValue
    return .leaseGranted leaseToken staleValue
  | 0x08 => return .leaseDenied
  | 0xff => do
    let code ← readErrorCode
    let message ← readString
    return .error code message
  | _ => throw (.invalidPayload "unknown response status")

def decodeResponsePayload (command : Command) : Reader ResponsePayload := do
  let status ← readU8
  decodeResponseBody command status

/-- What the decoders keep of a header. The payload length is a `u32` field cast to `usize`. -/
structure Header where
  command : UInt8
  requestId : UInt64
  payloadLen : UInt32
  deriving DecidableEq, Repr

/-- The length check comes first, so the indices and slices below it are in range. -/
def decodeHeader (input : Bytes) (maxPayloadLen : Nat) (expectedKind : UInt8) :
    Except DecodeError Header := do
  ensure (headerLen ≤ input.length) .incompleteHeader
  ensure (input.extract 0 4 == magic) .badMagic
  let found := input.getD 4 0
  ensure (found == version) (.unsupportedVersion found)
  let kind := input.getD 5 0
  ensure (kind == expectedKind) (.invalidKind kind)
  let command := input.getD 6 0
  let flags := input.getD 7 0
  ensure (flags == 0) (.nonzeroFlags flags)
  let requestId := UInt64.ofNat (BigEndian.ofBytes (input.extract 8 16))
  let payloadLen := UInt32.ofNat (BigEndian.ofBytes (input.extract 16 20))
  ensure (payloadLen.toNat ≤ maxPayloadLen) (.frameTooLarge payloadLen.toNat maxPayloadLen)
  let reserved := UInt32.ofNat (BigEndian.ofBytes (input.extract 20 24))
  ensure (reserved == 0) (.nonzeroReserved reserved)
  return { command, requestId, payloadLen }

theorem length_payload_lt (input : Bytes) (header : Header) :
    (input.extract headerLen (headerLen + header.payloadLen.toNat)).length < 2 ^ 32 := by
  have hlen := header.payloadLen.toNat_lt
  rw [List.extract_eq_take_drop, List.length_take]
  omega

/-- The body shared by `decode_request_frame` and `decode_response_frame`. -/
def decodeFrame {α : Type} (kind : UInt8) (decodePayload : Command → Reader α) (input : Bytes)
    (maxPayloadLen : Nat) : Except DecodeError (Frame α) := do
  let header ← decodeHeader input maxPayloadLen kind
  let payloadEnd := headerLen + header.payloadLen.toNat
  ensure (payloadEnd ≤ input.length) (.truncatedPayload payloadEnd input.length)
  let command ← Command.fromId header.command
  let cursor := Cursor.new (input.extract headerLen payloadEnd)
    (length_payload_lt input header)
  let (payload, cursor) ← decodePayload command cursor
  cursor.expectEmpty
  return { requestId := header.requestId, command, payload }

def decodeRequestFrame (input : Bytes) (maxPayloadLen : Nat) :
    Except DecodeError RequestFrame :=
  decodeFrame kindRequest decodeRequestPayload input maxPayloadLen

def decodeResponseFrame (input : Bytes) (maxPayloadLen : Nat) :
    Except DecodeError ResponseFrame :=
  decodeFrame kindResponse decodeResponsePayload input maxPayloadLen

end Protocol
end Cachebox
