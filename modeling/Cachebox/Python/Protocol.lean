import Cachebox.Engine.Basic
import Cachebox.Theory.Bytes
import Cachebox.Theory.Parser

/-!
# The Python codec (`clients/python/python/cachebox/protocol.py`)

The second implementation of the native protocol, with its own constants, messages, checks and
readers. An `int` is an `Int`, or a `Nat` where it comes out of `int.from_bytes`; a `str` is a
`String`. An exception is an error with its class and text. A field called `namespace` in the source
is `ns` here.
-/

namespace Cachebox
namespace Python
open Parser (ensure times)

def magic : Bytes := [0x43, 0x42, 0x58, 0x31]
def version : Nat := 1
def headerLen : Nat := 24
def kindRequest : Nat := 0x00
def kindResponse : Nat := 0x01
def namespaceChars : List Char := ['-', '_']
def tagChars : List Char := ['-', '_', ':', '/', '.']

inductive Command where
  | get | put | delete | batchGet | tagInvalidate | leaseStart | leaseComplete
  deriving DecidableEq, Repr

namespace Command

def value : Command → Int
  | get => 0x01
  | put => 0x02
  | delete => 0x03
  | batchGet => 0x04
  | tagInvalidate => 0x05
  | leaseStart => 0x06
  | leaseComplete => 0x07

/-- `Command(value)`; `none` is its `ValueError`. -/
def ofValue (value : Nat) : Option Command :=
  match value with
  | 0x01 => some get
  | 0x02 => some put
  | 0x03 => some delete
  | 0x04 => some batchGet
  | 0x05 => some tagInvalidate
  | 0x06 => some leaseStart
  | 0x07 => some leaseComplete
  | _ => none

end Command

inductive ContentType where
  | octetStream | other
  deriving DecidableEq, Repr

namespace ContentType

def value : ContentType → Int
  | octetStream => 0x00
  | other => 0x01

def ofValue (value : Nat) : Option ContentType :=
  match value with
  | 0x00 => some octetStream
  | 0x01 => some other
  | _ => none

end ContentType

inductive ErrorCode where
  | badFrame | unsupportedVersion | unknownCommand | invalidNamespace | invalidTag | invalidTtl
  | valueTooLarge | entryTooLarge | insufficientMemory | invalidLeaseToken | frameTooLarge
  deriving DecidableEq, Repr

namespace ErrorCode

def value : ErrorCode → Int
  | badFrame => 0x0001
  | unsupportedVersion => 0x0002
  | unknownCommand => 0x0003
  | invalidNamespace => 0x0004
  | invalidTag => 0x0005
  | invalidTtl => 0x0006
  | valueTooLarge => 0x0007
  | entryTooLarge => 0x0008
  | insufficientMemory => 0x0009
  | invalidLeaseToken => 0x000a
  | frameTooLarge => 0x000b

def ofValue (value : Nat) : Option ErrorCode :=
  match value with
  | 0x0001 => some badFrame
  | 0x0002 => some unsupportedVersion
  | 0x0003 => some unknownCommand
  | 0x0004 => some invalidNamespace
  | 0x0005 => some invalidTag
  | 0x0006 => some invalidTtl
  | 0x0007 => some valueTooLarge
  | 0x0008 => some entryTooLarge
  | 0x0009 => some insufficientMemory
  | 0x000a => some invalidLeaseToken
  | 0x000b => some frameTooLarge
  | _ => none

end ErrorCode

/-- The subclasses of `DecodeError`. -/
inductive ErrorClass where
  | incompleteHeader | badMagic | unsupportedVersion | invalidKind | unknownCommand | nonzeroFlags
  | nonzeroReserved | frameTooLarge | truncatedPayload | invalidPayload | invalidUtf8
  | invalidNamespace | invalidTag | invalidBool | trailingBytes
  deriving DecidableEq, Repr

structure DecodeError where
  cls : ErrorClass
  message : String
  deriving DecidableEq, Repr

structure Ttl where
  milliseconds : Int
  deriving DecidableEq, Repr

structure Metadata where
  ttl : Option Ttl
  staleTtl : Option Ttl
  cost : Option Int
  tags : List String
  contentType : ContentType
  deriving DecidableEq, Repr

inductive RequestPayload where
  | get (ns : String) (key : Bytes)
  | put (ns : String) (key : Bytes) (metadata : Metadata) (value : Bytes)
  | delete (ns : String) (key : Bytes)
  | batchGet (ns : String) (keys : List Bytes)
  | tagInvalidate (ns tag : String)
  | leaseStart (ns : String) (key : Bytes) (leaseTtlMs : Int) (allowStaleMs : Option Int)
  | leaseComplete (ns : String) (key : Bytes) (leaseToken : String) (metadata : Metadata)
      (value : Bytes)
  deriving DecidableEq, Repr

/-- Nothing ties the state to the value or limits it to the three texts that are used. -/
structure BatchItem where
  state : String
  value : Option Bytes
  deriving DecidableEq, Repr

inductive ResponsePayload where
  | ok
  | hit (value : Bytes)
  | stale (value : Bytes)
  | miss
  | stored (evicted : Int)
  | deleted (removed : Bool)
  | invalidated (removed : Int)
  | leaseGranted (leaseToken : String) (staleValue : Option Bytes)
  | leaseDenied
  | error (code : ErrorCode) (message : String)
  | batchGetResult (items : List BatchItem)
  deriving DecidableEq, Repr

/-- The shape shared by `RequestFrame` and `ResponseFrame`. -/
structure Frame (α : Type) where
  requestId : Int
  command : Command
  payload : α
  deriving DecidableEq, Repr

abbrev RequestFrame := Frame RequestPayload

abbrev ResponseFrame := Frame ResponsePayload

/-! ## Decoding -/

structure Cursor where
  data : Bytes
  offset : Nat

abbrev Reader := StateT Cursor (Except DecodeError)

namespace Cursor

def new (data : Bytes) : Cursor := ⟨data, 0⟩

def readExact (size : Nat) : Reader Bytes := fun cursor =>
  let stop := cursor.offset + size
  if stop > cursor.data.length then
    .error ⟨.invalidPayload, "truncated field"⟩
  else
    .ok (cursor.data.extract cursor.offset stop, { cursor with offset := stop })

def readU8 : Reader Nat := do
  let bytes ← readExact 1
  return (bytes.getD 0 0).toNat

/-- `int.from_bytes(self._read_exact(size), "big")`. -/
def readInt (size : Nat) : Reader Nat := do
  let bytes ← readExact size
  return BigEndian.ofBytes bytes

def readU16 : Reader Nat := readInt 2

def readU32 : Reader Nat := readInt 4

def readU64 : Reader Nat := readInt 8

def readBool : Reader Bool := do
  let value ← readU8
  if value = 0 then
    return false
  else if value = 1 then
    return true
  else
    throw ⟨.invalidBool, toString value⟩

def readBytes : Reader Bytes := do
  let size ← readU32
  readExact size

def readString : Reader String := do
  let bytes ← readBytes
  match Utf8.decode bytes with
  | some value => return value
  | none => throw ⟨.invalidUtf8, "invalid utf-8 string"⟩

def expectEmpty (cursor : Cursor) : Except DecodeError Unit :=
  let remaining := cursor.data.length - cursor.offset
  ensure (remaining == 0) ⟨.trailingBytes, s!"{remaining} trailing bytes"⟩

end Cursor

open Cursor

/-- `char.isascii() and (char.isalnum() or char in chars)`; on ASCII characters `isalnum` is
`Char.isAlphanum`. -/
def allowedChar (chars : List Char) (char : Char) : Bool :=
  char.toNat < 128 && (char.isAlphanum || char ∈ chars)

def readNamespace : Reader String := do
  let ns ← readString
  ensure (!ns.isEmpty && ns.toList.all (allowedChar namespaceChars)) ⟨.invalidNamespace, ns⟩
  return ns

def readTag : Reader String := do
  let tag ← readString
  ensure (!tag.isEmpty && tag.toList.all (allowedChar tagChars)) ⟨.invalidTag, tag⟩
  return tag

def ignoreU64 : Reader (Option Int) := do
  let _ ← readU64
  return none

/-- `cursor.read_u64() if cursor.read_bool() else _ignore_u64(cursor)`. -/
def readCost : Reader (Option Int) := do
  if ← readBool then
    let cost ← readU64
    return some (cost : Int)
  else
    ignoreU64

def readContentType : Reader ContentType := do
  let value ← readU8
  match ContentType.ofValue value with
  | some contentType => return contentType
  | none => throw ⟨.invalidPayload, "invalid content type"⟩

/-- `Ttl(ms) if ms else None`. -/
def ttlOf (ms : Nat) : Option Ttl := if ms = 0 then none else some ⟨ms⟩

def readMetadata : Reader Metadata := do
  let ttlMs ← readU64
  let staleTtlMs ← readU64
  let cost ← readCost
  let tagCount ← readU16
  let tags ← times readTag tagCount
  let contentType ← readContentType
  return { ttl := ttlOf ttlMs, staleTtl := ttlOf staleTtlMs, cost, tags, contentType }

def decodeRequestPayload : Command → Reader RequestPayload
  | .get => do
    let ns ← readNamespace
    let key ← readBytes
    return .get ns key
  | .put => do
    let ns ← readNamespace
    let key ← readBytes
    let metadata ← readMetadata
    let value ← readBytes
    return .put ns key metadata value
  | .delete => do
    let ns ← readNamespace
    let key ← readBytes
    return .delete ns key
  | .batchGet => do
    let ns ← readNamespace
    let keyCount ← readU32
    ensure (keyCount != 0) ⟨.invalidPayload, "batch get requires at least one key"⟩
    let keys ← times readBytes keyCount
    return .batchGet ns keys
  | .tagInvalidate => do
    let ns ← readNamespace
    let tag ← readTag
    return .tagInvalidate ns tag
  | .leaseStart => do
    let ns ← readNamespace
    let key ← readBytes
    let leaseTtlMs ← readU64
    ensure (leaseTtlMs != 0) ⟨.invalidPayload, "lease ttl must be greater than zero"⟩
    let allowStaleMs ← readU64
    return .leaseStart ns key leaseTtlMs (if allowStaleMs = 0 then none else some allowStaleMs)
  | .leaseComplete => do
    let ns ← readNamespace
    let key ← readBytes
    let leaseToken ← readString
    ensure (!leaseToken.isEmpty) ⟨.invalidPayload, "lease token must be non-empty"⟩
    let metadata ← readMetadata
    let value ← readBytes
    return .leaseComplete ns key leaseToken metadata value

def readBatchItem : Reader BatchItem := do
  let itemStatus ← readU8
  if itemStatus = 0x01 then
    let value ← readBytes
    return ⟨"hit", some value⟩
  else if itemStatus = 0x02 then
    let value ← readBytes
    return ⟨"stale", some value⟩
  else if itemStatus = 0x03 then
    return ⟨"miss", none⟩
  else
    throw ⟨.invalidPayload, "invalid batch item status"⟩

def readStaleValue : Reader (Option Bytes) := do
  if ← readBool then
    let value ← readBytes
    return some value
  else
    return none

def readErrorCode : Reader ErrorCode := do
  let value ← readU16
  match ErrorCode.ofValue value with
  | some code => return code
  | none => throw ⟨.invalidPayload, "unknown error code"⟩

/-- The checks of `_decode_response_payload` after it has read the status, one of which is made
twice. -/
def decodeResponseBody (command : Command) (status : Nat) : Reader ResponsePayload := do
  if status = 0x00 ∧ command = .batchGet then
    let itemCount ← readU32
    let items ← times readBatchItem itemCount
    return .batchGetResult items
  else if status = 0x00 then
    return .ok
  else if status = 0x01 then
    let value ← readBytes
    return .hit value
  else if status = 0x02 then
    let value ← readBytes
    return .stale value
  else if status = 0x03 then
    return .miss
  else if status = 0x04 then
    let evicted ← readU32
    return .stored evicted
  else if status = 0x05 then
    let removed ← readBool
    return .deleted removed
  else if status = 0x06 then
    let removed ← readU32
    return .invalidated removed
  else if status = 0x07 then
    let leaseToken ← readString
    let staleValue ← readStaleValue
    return .leaseGranted leaseToken staleValue
  else if status = 0x08 then
    return .leaseDenied
  else if status = 0xff then
    let code ← readErrorCode
    let message ← readString
    return .error code message
  else if status = 0x00 then
    throw ⟨.invalidPayload, "generic ok response is not used by the client"⟩
  else
    throw ⟨.invalidPayload, "unknown response status"⟩

def decodeResponsePayload (command : Command) : Reader ResponsePayload := do
  let status ← readU8
  decodeResponseBody command status

structure Header where
  command : Command
  requestId : Nat
  payloadLen : Nat
  deriving DecidableEq, Repr

/-- The command is looked up before the flags, the limit and the reserved field are checked. -/
def decodeHeader (frame : Bytes) (expectedKind maxPayloadLen : Nat) :
    Except DecodeError Header := do
  ensure (headerLen ≤ frame.length) ⟨.incompleteHeader, "frame header is incomplete"⟩
  ensure (frame.extract 0 4 == magic) ⟨.badMagic, "bad magic"⟩
  let found := (frame.getD 4 0).toNat
  ensure (found == version) ⟨.unsupportedVersion, s!"unsupported version {found}"⟩
  let kind := (frame.getD 5 0).toNat
  ensure (kind == expectedKind) ⟨.invalidKind, s!"invalid kind {kind}"⟩
  let id := (frame.getD 6 0).toNat
  let command ← match Command.ofValue id with
    | some command => .ok command
    | none => .error ⟨.unknownCommand, s!"unknown command {id}"⟩
  let flags := (frame.getD 7 0).toNat
  ensure (flags == 0) ⟨.nonzeroFlags, s!"nonzero flags {flags}"⟩
  let requestId := BigEndian.ofBytes (frame.extract 8 16)
  let payloadLen := BigEndian.ofBytes (frame.extract 16 20)
  ensure (payloadLen ≤ maxPayloadLen)
    ⟨.frameTooLarge, s!"payload {payloadLen} exceeds max {maxPayloadLen}"⟩
  let reserved := BigEndian.ofBytes (frame.extract 20 24)
  ensure (reserved == 0) ⟨.nonzeroReserved, s!"nonzero reserved {reserved}"⟩
  return { command, requestId, payloadLen }

/-- The body shared by `decode_request_frame` and `decode_response_frame`. -/
def decodeFrame {α : Type} (kind : Nat) (decodePayload : Command → Reader α) (frame : Bytes)
    (maxPayloadLen : Nat) : Except DecodeError (Frame α) := do
  let header ← decodeHeader frame kind maxPayloadLen
  let payloadEnd := headerLen + header.payloadLen
  let actual := frame.length
  ensure (payloadEnd ≤ actual)
    ⟨.truncatedPayload, s!"expected {payloadEnd} bytes, got {actual}"⟩
  let cursor := Cursor.new (frame.extract headerLen payloadEnd)
  let (payload, cursor) ← decodePayload header.command cursor
  cursor.expectEmpty
  return { requestId := header.requestId, command := header.command, payload }

def decodeRequestFrame (frame : Bytes) (maxPayloadLen : Nat) : Except DecodeError RequestFrame :=
  decodeFrame kindRequest decodeRequestPayload frame maxPayloadLen

def decodeResponseFrame (frame : Bytes) (maxPayloadLen : Nat) :
    Except DecodeError ResponseFrame :=
  decodeFrame kindResponse decodeResponsePayload frame maxPayloadLen

/-! ## Encoding -/

/-- The exceptions of the encoders. -/
inductive EncodeError where
  | overflowError
  | valueError (message : String)
  deriving DecidableEq, Repr

/-- `value.to_bytes(length, "big")`. -/
def toBytes (value : Int) (length : Nat) : Except EncodeError Bytes :=
  if 0 ≤ value ∧ value < 256 ^ length then
    .ok (BigEndian.toBytes length value.toNat)
  else
    .error .overflowError

def u8 (value : Int) : Except EncodeError Bytes := toBytes value 1

def u16 (value : Int) : Except EncodeError Bytes := toBytes value 2

def u32 (value : Int) : Except EncodeError Bytes := toBytes value 4

def u64 (value : Int) : Except EncodeError Bytes := toBytes value 8

def bool (value : Bool) : Except EncodeError Bytes := u8 (if value then 1 else 0)

def bytes (value : Bytes) : Except EncodeError Bytes := return (← u32 value.length) ++ value

def string (value : String) : Except EncodeError Bytes := bytes (Utf8.encode value)

/-- The encodings of the elements one after the other. -/
def joined {α : Type} (encode : α → Except EncodeError Bytes) :
    List α → Except EncodeError Bytes
  | [] => return []
  | a :: as => return (← encode a) ++ (← joined encode as)

def metadata (metadata : Metadata) : Except EncodeError Bytes :=
  return (← u64 (metadata.ttl.elim 0 Ttl.milliseconds)) ++
    (← u64 (metadata.staleTtl.elim 0 Ttl.milliseconds)) ++ (← bool metadata.cost.isSome) ++
    (← u64 (metadata.cost.getD 0)) ++ (← u16 metadata.tags.length) ++
    (← joined string metadata.tags) ++ (← u8 metadata.contentType.value)

def encodeRequestPayload : RequestPayload → Except EncodeError Bytes
  | .get ns key | .delete ns key => return (← string ns) ++ (← bytes key)
  | .put ns key data value =>
    return (← string ns) ++ (← bytes key) ++ (← metadata data) ++ (← bytes value)
  | .batchGet ns keys =>
    return (← string ns) ++ (← u32 keys.length) ++ (← joined bytes keys)
  | .tagInvalidate ns tag => return (← string ns) ++ (← string tag)
  | .leaseStart ns key leaseTtlMs allowStaleMs =>
    return (← string ns) ++ (← bytes key) ++ (← u64 leaseTtlMs) ++ (← u64 (allowStaleMs.getD 0))
  | .leaseComplete ns key leaseToken data value =>
    return (← string ns) ++ (← bytes key) ++ (← string leaseToken) ++ (← metadata data) ++
      (← bytes value)

/-- The last text quotes the state as `repr` does when there is nothing to escape in it. -/
def batchItem (item : BatchItem) : Except EncodeError Bytes :=
  if item.state = "hit" then
    match item.value with
    | none => throw (.valueError "hit batch item requires value")
    | some value => return (← u8 0x01) ++ (← bytes value)
  else if item.state = "stale" then
    match item.value with
    | none => throw (.valueError "stale batch item requires value")
    | some value => return (← u8 0x02) ++ (← bytes value)
  else if item.state = "miss" then
    u8 0x03
  else
    throw (.valueError ("unknown batch item state '" ++ item.state ++ "'"))

def encodeResponsePayload (command : Command) : ResponsePayload → Except EncodeError Bytes
  | .hit value => return (← u8 0x01) ++ (← bytes value)
  | .stale value => return (← u8 0x02) ++ (← bytes value)
  | .miss => u8 0x03
  | .stored evicted => return (← u8 0x04) ++ (← u32 evicted)
  | .deleted removed => return (← u8 0x05) ++ (← bool removed)
  | .invalidated removed => return (← u8 0x06) ++ (← u32 removed)
  | .leaseGranted leaseToken staleValue =>
    return (← u8 0x07) ++ (← string leaseToken) ++ (← bool staleValue.isSome) ++
      (← staleValue.elim (return []) bytes)
  | .leaseDenied => u8 0x08
  | .error code message => return (← u8 0xff) ++ (← u16 code.value) ++ (← string message)
  | .batchGetResult items => do
    if command ≠ .batchGet then
      throw (.valueError "batch response payload requires BatchGet command")
    return (← u8 0x00) ++ (← u32 items.length) ++ (← joined batchItem items)
  | .ok => u8 0x00

def encodeFrame (kind : Int) (command : Command) (requestId : Int) (payload : Bytes) :
    Except EncodeError Bytes := do
  ensure (0 ≤ requestId && requestId ≤ 2 ^ 64 - 1) (.valueError "request_id must fit in u64")
  ensure (payload.length ≤ 2 ^ 32 - 1) (.valueError "payload too large")
  return magic ++ (← u8 version) ++ (← u8 kind) ++ (← u8 command.value) ++ (← u8 0) ++
    (← u64 requestId) ++ (← u32 payload.length) ++ (← u32 0) ++ payload

/-- The payload is encoded before the checks of `_encode_frame`. -/
def encodeRequestFrame (frame : RequestFrame) : Except EncodeError Bytes := do
  let payload ← encodeRequestPayload frame.payload
  encodeFrame kindRequest frame.command frame.requestId payload

def encodeResponseFrame (frame : ResponseFrame) : Except EncodeError Bytes := do
  let payload ← encodeResponsePayload frame.command frame.payload
  encodeFrame kindResponse frame.command frame.requestId payload

end Python
end Cachebox
