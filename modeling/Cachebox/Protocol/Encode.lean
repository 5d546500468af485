import Cachebox.Protocol.Basic

/-!
# Encoding frames

Every writer takes the buffer `out` and gives the buffer after it. Lengths and counts are cast to
the width of their field, as the source does with `as u32` and `as u16`.
-/

namespace Cachebox
namespace Protocol

def writeU16 (out : Bytes) (value : UInt16) : Bytes := out ++ BigEndian.toBytes 2 value.toNat

def writeU32 (out : Bytes) (value : UInt32) : Bytes := out ++ BigEndian.toBytes 4 value.toNat

def writeU64 (out : Bytes) (value : UInt64) : Bytes := out ++ BigEndian.toBytes 8 value.toNat

def writeBool (out : Bytes) (value : Bool) : Bytes := out ++ [if value then 1 else 0]

def writeBytes (out value : Bytes) : Bytes := writeU32 out (.ofNat value.length) ++ value

def writeString (out : Bytes) (value : String) : Bytes := writeBytes out (Utf8.encode value)

def ContentType.byte : ContentType → UInt8
  | octetStream => 0
  | other => 1

def writeMetadata (out : Bytes) (metadata : Metadata) : Bytes :=
  let out := writeU64 out (metadata.ttl.elim 0 Ttl.milliseconds)
  let out := writeU64 out (metadata.staleTtl.elim 0 Ttl.milliseconds)
  let out := writeBool out metadata.cost.isSome
  let out := writeU64 out (metadata.cost.getD 0)
  let out := writeU16 out (.ofNat metadata.tags.length)
  let out := metadata.tags.foldl writeString out
  out ++ [metadata.contentType.byte]

def encodeRequestPayload (payload : RequestPayload) (out : Bytes) : Bytes :=
  match payload with
  | .get ns key | .delete ns key => writeBytes (writeString out ns) key
  | .put ns key metadata value =>
    let out := writeString out ns
    let out := writeBytes out key
    let out := writeMetadata out metadata
    writeBytes out value
  | .batchGet ns keys =>
    let out := writeString out ns
    let out := writeU32 out (.ofNat keys.length)
    keys.foldl writeBytes out
  | .tagInvalidate ns tag => writeString (writeString out ns) tag
  | .leaseStart ns key leaseTtlMs allowStaleMs =>
    let out := writeString out ns
    let out := writeBytes out key
    let out := writeU64 out leaseTtlMs
    writeU64 out (allowStaleMs.getD 0)
  | .leaseComplete ns key leaseToken metadata value =>
    let out := writeString out ns
    let out := writeBytes out key
    let out := writeString out leaseToken
    let out := writeMetadata out metadata
    writeBytes out value

def writeBatchItem (out : Bytes) (item : BatchItem) : Bytes :=
  match item with
  | .hit value => writeBytes (out ++ [0x01]) value
  | .stale value => writeBytes (out ++ [0x02]) value
  | .miss => out ++ [0x03]

def encodeResponsePayload (payload : ResponsePayload) (out : Bytes) : Bytes :=
  match payload with
  | .ok => out ++ [0x00]
  | .hit value => writeBytes (out ++ [0x01]) value
  | .stale value => writeBytes (out ++ [0x02]) value
  | .miss => out ++ [0x03]
  | .stored evicted => writeU32 (out ++ [0x04]) evicted
  | .deleted removed => writeBool (out ++ [0x05]) removed
  | .invalidated removed => writeU32 (out ++ [0x06]) removed
  | .leaseGranted leaseToken staleValue =>
    let out := writeString (out ++ [0x07]) leaseToken
    let out := writeBool out staleValue.isSome
    match staleValue with
    | some value => writeBytes out value
    | none => out
  | .leaseDenied => out ++ [0x08]
  | .error code message => writeString (writeU16 (out ++ [0xff]) code.id) message
  | .batchGet items =>
    let out := writeU32 (out ++ [0x00]) (.ofNat items.length)
    items.foldl writeBatchItem out

/-- `Vec::clear`. -/
def cleared (_out : Bytes) : Bytes := []

/-- `encode_frame_into`. The payload is written after a zero length, which is then overwritten;
`none` is the panic `native payload too large`. -/
def encodeFrameInto {α : Type} (kind : UInt8) (command : Command) (requestId : UInt64)
    (payload : α) (encodePayload : α → Bytes → Bytes) (out : Bytes) : Option Bytes :=
  let out := cleared out
  let out := out ++ magic
  let out := out ++ [version] ++ [kind] ++ [command.id] ++ [0]
  let out := writeU64 out requestId
  let out := writeU32 out 0
  let out := writeU32 out 0
  let payloadStart := out.length
  let out := encodePayload payload out
  let payloadLen := out.length - payloadStart
  if payloadLen < 2 ^ 32 then
    some (out.take 16 ++ BigEndian.toBytes 4 payloadLen ++ out.drop 20)
  else
    none

def encodeRequestFrameInto (frame : RequestFrame) (out : Bytes) : Option Bytes :=
  encodeFrameInto kindRequest frame.command frame.requestId frame.payload encodeRequestPayload out

def encodeRequestFrame (frame : RequestFrame) : Option Bytes := encodeRequestFrameInto frame []

def encodeResponseFrameInto (frame : ResponseFrame) (out : Bytes) : Option Bytes :=
  encodeFrameInto kindResponse frame.command frame.requestId frame.payload encodeResponsePayload out

def encodeResponseFrame (frame : ResponseFrame) : Option Bytes := encodeResponseFrameInto frame []

/-- What was in the buffer does not matter. -/
@[simp] theorem encodeResponseFrameInto_eq (frame : ResponseFrame) (out : Bytes) :
    encodeResponseFrameInto frame out = encodeResponseFrame frame := rfl

end Protocol
end Cachebox
