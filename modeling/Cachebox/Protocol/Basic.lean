import Cachebox.Engine.Basic
import Cachebox.Theory.Bytes

/-!
# The messages of the native protocol (`crates/cachebox-protocol/src/lib.rs`)

The commands, the payloads of requests and responses, the error codes, the ways a decoder can
fail, and the character rules of namespaces and tags. A field called `namespace` in the source is
`ns` here.
-/

namespace Cachebox
namespace Protocol

def magic : Bytes := [0x43, 0x42, 0x58, 0x31]
def version : UInt8 := 1
def headerLen : Nat := 24
def kindRequest : UInt8 := 0x00
def kindResponse : UInt8 := 0x01

inductive DecodeError where
  | incompleteHeader
  | badMagic
  | unsupportedVersion (version : UInt8)
  | invalidKind (kind : UInt8)
  | unknownCommand (id : UInt8)
  | nonzeroFlags (flags : UInt8)
  | nonzeroReserved (reserved : UInt32)
  | frameTooLarge (payloadLen max : Nat)
  | truncatedPayload (expected actual : Nat)
  | invalidPayload (message : String)
  | invalidUtf8
  | invalidNamespace
  | invalidTag
  | invalidBool (value : UInt8)
  | trailingBytes (count : Nat)
  deriving DecidableEq, Repr

inductive Command where
  | get | put | delete | batchGet | tagInvalidate | leaseStart | leaseComplete
  deriving DecidableEq, Repr

namespace Command

def id : Command → UInt8
  | get => 0x01
  | put => 0x02
  | delete => 0x03
  | batchGet => 0x04
  | tagInvalidate => 0x05
  | leaseStart => 0x06
  | leaseComplete => 0x07

def fromId (id : UInt8) : Except DecodeError Command :=
  match id with
  | 0x01 => .ok get
  | 0x02 => .ok put
  | 0x03 => .ok delete
  | 0x04 => .ok batchGet
  | 0x05 => .ok tagInvalidate
  | 0x06 => .ok leaseStart
  | 0x07 => .ok leaseComplete
  | _ => .error (.unknownCommand id)

theorem fromId_eq_ok_iff {id : UInt8} {command : Command} :
    fromId id = .ok command ↔ id = command.id := by
  constructor
  · intro h
    unfold fromId at h
    split at h
    all_goals cases h
    all_goals rfl
  · rintro rfl
    cases command <;> rfl

end Command

inductive ErrorCode where
  | badFrame | unsupportedVersion | unknownCommand | invalidNamespace | invalidTag | invalidTtl
  | valueTooLarge | entryTooLarge | insufficientMemory | invalidLeaseToken | frameTooLarge
  deriving DecidableEq, Repr

namespace ErrorCode

def id : ErrorCode → UInt16
  | badFrame => 0x0001
  | unsupportedVersion => 0x0002
  | unknownCommand => 0x0003
  | invalidNamespace => 0x0004
  | invalidTag => 0x0005
  | invalidTtl => 0x0006
  | valueTooLarge => 0x0007
  | entryTooLarge => 0x0008
  | insufficientMemory => 0x0009
  | invalidLeaseToken => 0x000a
  | frameTooLarge => 0x000b

def fromId (id : UInt16) : Except DecodeError ErrorCode :=
  match id with
  | 0x0001 => .ok badFrame
  | 0x0002 => .ok unsupportedVersion
  | 0x0003 => .ok unknownCommand
  | 0x0004 => .ok invalidNamespace
  | 0x0005 => .ok invalidTag
  | 0x0006 => .ok invalidTtl
  | 0x0007 => .ok valueTooLarge
  | 0x0008 => .ok entryTooLarge
  | 0x0009 => .ok insufficientMemory
  | 0x000a => .ok invalidLeaseToken
  | 0x000b => .ok frameTooLarge
  | _ => .error (.invalidPayload "unknown error code")

theorem fromId_eq_ok_iff {id : UInt16} {code : ErrorCode} :
    fromId id = .ok code ↔ id = code.id := by
  constructor
  · intro h
    unfold fromId at h
    split at h
    all_goals cases h
    all_goals rfl
  · rintro rfl
    cases code <;> rfl

end ErrorCode

inductive ContentType where
  | octetStream | other
  deriving DecidableEq, Repr

structure Metadata where
  ttl : Option Ttl
  staleTtl : Option Ttl
  cost : Option UInt64
  tags : List String
  contentType : ContentType
  deriving DecidableEq, Repr

/-- `Metadata::default`. -/
instance : Inhabited Metadata := ⟨none, none, none, [], .octetStream⟩

inductive RequestPayload where
  | get (ns : String) (key : Bytes)
  | put (ns : String) (key : Bytes) (metadata : Metadata) (value : Bytes)
  | delete (ns : String) (key : Bytes)
  | batchGet (ns : String) (keys : List Bytes)
  | tagInvalidate (ns tag : String)
  | leaseStart (ns : String) (key : Bytes) (leaseTtlMs : UInt64) (allowStaleMs : Option UInt64)
  | leaseComplete (ns : String) (key : Bytes) (leaseToken : String) (metadata : Metadata)
      (value : Bytes)
  deriving DecidableEq, Repr

inductive BatchItem where
  | hit (value : Bytes)
  | stale (value : Bytes)
  | miss
  deriving DecidableEq, Repr

inductive ResponsePayload where
  | ok
  | hit (value : Bytes)
  | stale (value : Bytes)
  | miss
  | stored (evicted : UInt32)
  | deleted (removed : Bool)
  | invalidated (removed : UInt32)
  | leaseGranted (leaseToken : String) (staleValue : Option Bytes)
  | leaseDenied
  | error (code : ErrorCode) (message : String)
  | batchGet (items : List BatchItem)
  deriving DecidableEq, Repr

/-- The shape shared by `RequestFrame` and `ResponseFrame`. -/
structure Frame (α : Type) where
  requestId : UInt64
  command : Command
  payload : α
  deriving DecidableEq, Repr

abbrev RequestFrame := Frame RequestPayload

abbrev ResponseFrame := Frame ResponsePayload

def isAsciiAlphanumeric (byte : UInt8) : Bool :=
  (0x30 ≤ byte && byte ≤ 0x39) || (0x41 ≤ byte && byte ≤ 0x5a) || (0x61 ≤ byte && byte ≤ 0x7a)

def isValidNamespace (ns : String) : Bool :=
  !ns.isEmpty && (Utf8.encode ns).all fun byte =>
    isAsciiAlphanumeric byte || byte == 0x2d || byte == 0x5f

/-- The bytes besides letters and digits are `-`, `_`, `:`, `.` and `/`. -/
def isValidTag (tag : String) : Bool :=
  !tag.isEmpty && (Utf8.encode tag).all fun byte =>
    isAsciiAlphanumeric byte || byte ∈ [0x2d, 0x5f, 0x3a, 0x2e, 0x2f]

end Protocol
end Cachebox
