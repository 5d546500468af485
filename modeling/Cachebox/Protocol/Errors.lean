import Cachebox.Protocol.Decode

/-!
# What the request decoder fails with

The readers of a payload throw one of a few fixed texts or an error without text. The errors of a
frame carry numbers of the header and of the input besides.
-/

namespace Cachebox
namespace Protocol
open Parser Cursor

/-- The texts of the readers. -/
def payloadMessages : List String :=
  ["truncated u8", "length overflow", "truncated field", "invalid content type",
    "batch get requires at least one key", "lease ttl must be greater than zero",
    "lease token must be non-empty"]

def DecodeError.OfPayload : DecodeError → Prop
  | .invalidPayload message => message ∈ payloadMessages
  | .invalidUtf8 | .invalidNamespace | .invalidTag | .invalidBool _ => True
  | _ => False

theorem DecodeError.ofPayload_of_mem {message : String} (h : message ∈ payloadMessages) :
    (DecodeError.invalidPayload message).OfPayload := h

theorem throwsOnly_readU8 : ThrowsOnly DecodeError.OfPayload readU8 := by
  intro cursor
  unfold readU8
  split
  · exact .ok _
  · exact .error (DecodeError.ofPayload_of_mem (by decide))

theorem throwsOnly_readExact (len : Nat) : ThrowsOnly DecodeError.OfPayload (readExact len) := by
  intro cursor
  simp only [readExact]
  split
  · exact .error (DecodeError.ofPayload_of_mem (by decide))
  split
  · exact .error (DecodeError.ofPayload_of_mem (by decide))
  · exact .ok _

theorem throwsOnly_readU16 : ThrowsOnly DecodeError.OfPayload readU16 :=
  (throwsOnly_readExact 2).bind fun _ => .pure _

theorem throwsOnly_readU32 : ThrowsOnly DecodeError.OfPayload readU32 :=
  (throwsOnly_readExact 4).bind fun _ => .pure _

theorem throwsOnly_readU64 : ThrowsOnly DecodeError.OfPayload readU64 :=
  (throwsOnly_readExact 8).bind fun _ => .pure _

theorem throwsOnly_readBool : ThrowsOnly DecodeError.OfPayload readBool := by
  refine throwsOnly_readU8.bind fun byte => ?_
  split
  · exact .pure _
  · exact .pure _
  · exact .throw trivial

theorem throwsOnly_readBytes : ThrowsOnly DecodeError.OfPayload readBytes :=
  throwsOnly_readU32.bind fun len => throwsOnly_readExact len.toNat

theorem throwsOnly_readString : ThrowsOnly DecodeError.OfPayload readString := by
  refine throwsOnly_readBytes.bind fun bytes => ?_
  split
  · exact .pure _
  · exact .throw trivial

theorem throwsOnly_readNamespace : ThrowsOnly DecodeError.OfPayload readNamespace :=
  throwsOnly_readString.bind fun ns => (ThrowsOnly.ensure _ trivial).bind fun _ => .pure ns

theorem throwsOnly_readTag : ThrowsOnly DecodeError.OfPayload readTag :=
  throwsOnly_readString.bind fun tag => (ThrowsOnly.ensure _ trivial).bind fun _ => .pure tag

theorem throwsOnly_readOptional {α : Type} (make : UInt64 → α) :
    ThrowsOnly DecodeError.OfPayload (readOptional make) := by
  refine throwsOnly_readU64.bind fun word => ?_
  split
  · exact .pure _
  · exact .pure _

theorem throwsOnly_readContentType : ThrowsOnly DecodeError.OfPayload readContentType := by
  refine throwsOnly_readU8.bind fun byte => ?_
  split
  · exact .pure _
  · exact .pure _
  · exact .throw (DecodeError.ofPayload_of_mem (by decide))

theorem throwsOnly_readCost : ThrowsOnly DecodeError.OfPayload readCost := by
  refine throwsOnly_readBool.bind fun hasCost => ?_
  split
  · exact throwsOnly_readU64.bind fun _ => .pure _
  · exact throwsOnly_readU64.bind fun _ => .pure _

theorem throwsOnly_readMetadata : ThrowsOnly DecodeError.OfPayload readMetadata :=
  (throwsOnly_readOptional _).bind fun _ => (throwsOnly_readOptional _).bind fun _ =>
    throwsOnly_readCost.bind fun _ => throwsOnly_readU16.bind fun _ =>
      (throwsOnly_readTag.times _).bind fun _ => throwsOnly_readContentType.bind fun _ => .pure _

theorem throwsOnly_decodeRequestPayload (command : Command) :
    ThrowsOnly DecodeError.OfPayload (decodeRequestPayload command) := by
  cases command with
  | get | delete =>
    exact throwsOnly_readNamespace.bind fun _ => throwsOnly_readBytes.bind fun _ => .pure _
  | put =>
    exact throwsOnly_readNamespace.bind fun _ => throwsOnly_readBytes.bind fun _ =>
      throwsOnly_readMetadata.bind fun _ => throwsOnly_readBytes.bind fun _ => .pure _
  | batchGet =>
    exact throwsOnly_readNamespace.bind fun _ => throwsOnly_readU32.bind fun _ =>
      (ThrowsOnly.ensure _ (DecodeError.ofPayload_of_mem (by decide))).bind fun _ =>
        (throwsOnly_readBytes.times _).bind fun _ => .pure _
  | tagInvalidate =>
    exact throwsOnly_readNamespace.bind fun _ => throwsOnly_readTag.bind fun _ => .pure _
  | leaseStart =>
    exact throwsOnly_readNamespace.bind fun _ => throwsOnly_readBytes.bind fun _ =>
      throwsOnly_readU64.bind fun _ =>
        (ThrowsOnly.ensure _ (DecodeError.ofPayload_of_mem (by decide))).bind fun _ =>
          (throwsOnly_readOptional _).bind fun _ => .pure _
  | leaseComplete =>
    exact throwsOnly_readNamespace.bind fun _ => throwsOnly_readBytes.bind fun _ =>
      throwsOnly_readString.bind fun _ =>
        (ThrowsOnly.ensure _ (DecodeError.ofPayload_of_mem (by decide))).bind fun _ =>
          throwsOnly_readMetadata.bind fun _ => throwsOnly_readBytes.bind fun _ => .pure _

/-- The errors of a frame of `len` bytes. -/
def DecodeError.OfFrame (len : Nat) : DecodeError → Prop
  | .frameTooLarge payloadLen max => payloadLen < 2 ^ 32 ∧ max < payloadLen
  | .truncatedPayload expected actual => expected < headerLen + 2 ^ 32 ∧ actual = len
  | .trailingBytes count => count < 2 ^ 32
  | .invalidPayload message => message ∈ payloadMessages
  | _ => True

theorem DecodeError.OfPayload.ofFrame {e : DecodeError} (h : e.OfPayload) (len : Nat) :
    e.OfFrame len := by
  cases e with
  | invalidPayload message => exact h
  | frameTooLarge | truncatedPayload | trailingBytes => exact h.elim
  | _ => trivial

theorem failsWith_decodeHeader (input : Bytes) (max : Nat) (kind : UInt8) :
    FailsWith (DecodeError.OfFrame input.length) (decodeHeader input max kind) :=
  (FailsWith.ensure _ trivial).bind fun _ => (FailsWith.ensure _ trivial).bind fun _ =>
    (FailsWith.ensure _ trivial).bind fun _ => (FailsWith.ensure _ trivial).bind fun _ =>
      (FailsWith.ensure _ trivial).bind fun _ =>
        (FailsWith.ensure_of_false fun h =>
          ⟨UInt32.toNat_lt _, not_le.mp (of_decide_eq_false h)⟩).bind fun _ =>
          (FailsWith.ensure _ trivial).bind fun _ => .ok _

theorem failsWith_decodeRequestFrame (input : Bytes) (max : Nat) :
    FailsWith (DecodeError.OfFrame input.length) (decodeRequestFrame input max) := by
  refine (failsWith_decodeHeader input max kindRequest).bind fun header => ?_
  have hlen := header.payloadLen.toNat_lt
  refine (FailsWith.ensure _ ⟨Nat.add_lt_add_left hlen _, rfl⟩).bind fun _ => ?_
  refine FailsWith.bind ?_ fun command => ?_
  · unfold Command.fromId
    split
    all_goals first | exact .ok _ | exact .error trivial
  refine FailsWith.bind ?_ fun result => ?_
  · exact fun e he => (throwsOnly_decodeRequestPayload command _ e he).ofFrame _
  refine FailsWith.bind ?_ fun _ => .ok _
  have hrest := result.2.length_lt
  refine FailsWith.ensure _ ?_
  show result.2.input.length - result.2.offset < 2 ^ 32
  omega

end Protocol
end Cachebox
