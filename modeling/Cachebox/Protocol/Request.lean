import Cachebox.Protocol.Wire

/-!
# The request format

`RequestPayload.wire` is the format of a payload. It has one degree of freedom: metadata without a
cost carries eight cost bytes that the decoder does not look at. The encoder writes them as zero.
The decoder accepts exactly the frames whose payload is the wire form of a well-formed request, so
it inverts the encoder, and an accepted frame is the encoding of its value up to those bytes.
-/

namespace Cachebox
namespace Protocol
open BigEndian Parser Cursor

/-! ## Well-formed requests -/

structure Metadata.WellFormed (metadata : Metadata) : Prop where
  ttl : ∀ ttl ∈ metadata.ttl, ttl.milliseconds ≠ 0
  staleTtl : ∀ ttl ∈ metadata.staleTtl, ttl.milliseconds ≠ 0
  tags : ∀ tag ∈ metadata.tags, isValidTag tag
  tags_length : metadata.tags.length ≤ 65535

namespace RequestPayload

@[simp] def command : RequestPayload → Command
  | get .. => .get
  | put .. => .put
  | delete .. => .delete
  | batchGet .. => .batchGet
  | tagInvalidate .. => .tagInvalidate
  | leaseStart .. => .leaseStart
  | leaseComplete .. => .leaseComplete

@[simp] def WellFormed : RequestPayload → Prop
  | get ns _ | delete ns _ => isValidNamespace ns
  | put ns _ metadata _ => isValidNamespace ns ∧ metadata.WellFormed
  | batchGet ns keys => isValidNamespace ns ∧ keys ≠ []
  | tagInvalidate ns tag => isValidNamespace ns ∧ isValidTag tag
  | leaseStart ns _ leaseTtlMs allowStaleMs =>
    isValidNamespace ns ∧ leaseTtlMs ≠ 0 ∧ ∀ value ∈ allowStaleMs, value ≠ 0
  | leaseComplete ns _ leaseToken metadata _ =>
    isValidNamespace ns ∧ leaseToken ≠ "" ∧ metadata.WellFormed

end RequestPayload

/-- The requests that the format can express. -/
structure WellFormed (f : RequestFrame) : Prop where
  command_eq : f.command = f.payload.command
  payload : f.payload.WellFormed

/-! ## The format -/

/-- The bytes of metadata, with `unused` in the place of an absent cost. -/
def Metadata.wire (unused : UInt64) (metadata : Metadata) : Bytes :=
  toBytes 8 (metadata.ttl.elim 0 Ttl.milliseconds).toNat ++
    toBytes 8 (metadata.staleTtl.elim 0 Ttl.milliseconds).toNat ++
    [if metadata.cost.isSome then 1 else 0] ++ toBytes 8 (metadata.cost.getD unused).toNat ++
    toBytes 2 (UInt16.ofNat metadata.tags.length).toNat ++
    metadata.tags.flatMap (fun tag => field (Utf8.encode tag)) ++ [metadata.contentType.byte]

theorem writeMetadata_eq (out : Bytes) (metadata : Metadata) :
    writeMetadata out metadata = out ++ metadata.wire 0 := by
  simp [writeMetadata, Metadata.wire, writeU64, writeU16, writeBool, foldl_write writeString_eq]

/-- The bytes of a payload, with `unused` in the place of an absent cost. -/
@[simp] def RequestPayload.wire (unused : UInt64) : RequestPayload → Bytes
  | get ns key | delete ns key => field (Utf8.encode ns) ++ field key
  | put ns key metadata value =>
    field (Utf8.encode ns) ++ field key ++ metadata.wire unused ++ field value
  | batchGet ns keys =>
    field (Utf8.encode ns) ++ toBytes 4 (UInt32.ofNat keys.length).toNat ++ keys.flatMap field
  | tagInvalidate ns tag => field (Utf8.encode ns) ++ field (Utf8.encode tag)
  | leaseStart ns key leaseTtlMs allowStaleMs =>
    field (Utf8.encode ns) ++ field key ++ toBytes 8 leaseTtlMs.toNat ++
      toBytes 8 (allowStaleMs.getD 0).toNat
  | leaseComplete ns key leaseToken metadata value =>
    field (Utf8.encode ns) ++ field key ++ field (Utf8.encode leaseToken) ++
      metadata.wire unused ++ field value

/-- The byte strings that stand for a payload in a request with the given command. -/
def RequestPayload.Format (command : Command) (payload : RequestPayload) (xs : Bytes) : Prop :=
  (command = payload.command ∧ payload.WellFormed) ∧ ∃ unused, xs = payload.wire unused

theorem encodeRequestPayload_eq (payload : RequestPayload) (out : Bytes) :
    encodeRequestPayload payload out = out ++ payload.wire 0 := by
  cases payload <;>
    simp [encodeRequestPayload, RequestPayload.wire, writeMetadata_eq, writeU32, writeU64,
      foldl_write writeBytes_eq]

/-! ## The decoder decides the format -/

theorem parses_readOptional {α : Type} {make : UInt64 → α} {word : α → UInt64}
    (hword : ∀ w, word (make w) = w) (hmake : ∀ a, make (word a) = a) :
    Parses rest (readOptional make)
      (fun value xs => (∀ a ∈ value, word a ≠ 0) ∧ xs = toBytes 8 (value.elim 0 word).toNat) := by
  refine (parses_readU64.bind (K := fun w value xs =>
    ((∀ a ∈ value, word a ≠ 0) ∧ w = value.elim 0 word) ∧ xs = []) fun w => ?_).congr
      fun value xs => by simp
  split
  · refine (Parses.pure none).congr fun value xs => ?_
    cases value with
    | none => simp
    | some a => simp [eq_comm]
  next h0 =>
    refine (Parses.pure (some (make w))).congr fun value xs => ?_
    cases value with
    | none => simp [show w ≠ 0 from h0]
    | some a =>
      have hiff : a = make w ↔ word a ≠ 0 ∧ w = word a := by
        constructor
        · rintro rfl
          rw [hword]
          exact ⟨h0, rfl⟩
        · rintro ⟨-, rfl⟩
          exact (hmake a).symm
      simp [hiff]

theorem parses_readTtl : Parses rest readTtl (fun ttl xs =>
    (∀ t ∈ ttl, t.milliseconds ≠ 0) ∧ xs = toBytes 8 (ttl.elim 0 Ttl.milliseconds).toNat) :=
  parses_readOptional (fun _ => rfl) (fun _ => rfl)

theorem parses_readAllowStaleMs : Parses rest readAllowStaleMs (fun value xs =>
    (∀ v ∈ value, v ≠ 0) ∧ xs = toBytes 8 (value.getD 0).toNat) := by
  have h : Parses rest readAllowStaleMs (fun value xs =>
      (∀ v ∈ value, id v ≠ 0) ∧ xs = toBytes 8 (value.elim 0 id).toNat) :=
    parses_readOptional (fun _ => rfl) (fun _ => rfl)
  exact h.congr fun value xs => by cases value <;> simp

theorem parses_readContentType : Parses rest readContentType
    (fun contentType xs => xs = [contentType.byte]) := by
  refine (parses_readU8.bind (K := fun byte contentType xs =>
    byte = ContentType.byte contentType ∧ xs = []) fun byte => ?_).congr fun ct xs => by simp
  split
  · refine (Parses.pure ContentType.octetStream).congr fun ct xs => ?_
    cases ct <;> simp [ContentType.byte]
  · refine (Parses.pure ContentType.other).congr fun ct xs => ?_
    cases ct <;> simp [ContentType.byte]
  next h0 h1 =>
    refine (Parses.throw _).congr fun ct xs => iff_of_false id ?_
    rintro ⟨hbyte, -⟩
    cases ct with
    | octetStream => exact h0 hbyte
    | other => exact h1 hbyte

theorem parses_readCost : Parses rest readCost (fun cost xs => ∃ unused : UInt64,
    xs = [if cost.isSome then 1 else 0] ++ toBytes 8 (cost.getD unused).toNat) := by
  refine (parses_readBool.bind (K := fun flag cost xs =>
    flag = cost.isSome ∧ ∃ unused : UInt64, xs = toBytes 8 (cost.getD unused).toNat)
      fun flag => ?_).congr fun cost xs => by simp
  cases flag with
  | true =>
    refine (parses_readU64.bind fun cost => Parses.pure (some cost)).congr fun cost xs => ?_
    cases cost <;> simp
  | false =>
    refine (parses_readU64.bind fun _ => Parses.pure none).congr fun cost xs => ?_
    cases cost <;> simp

theorem parses_readMetadata : Parses rest readMetadata
    (fun metadata xs => metadata.WellFormed ∧ ∃ unused, xs = metadata.wire unused) := by
  refine (parses_readTtl.bind fun ttl => parses_readTtl.bind fun staleTtl =>
    parses_readCost.bind fun cost => parses_readU16.bind fun tagCount =>
    (parses_readTag.times tagCount.toNat).bind fun tags =>
    parses_readContentType.bind fun contentType => Parses.pure _).congr fun metadata xs => ?_
  constructor
  · intro h
    obtain ⟨ttl, _, _, ⟨httl, rfl⟩, h, rfl⟩ := h
    obtain ⟨staleTtl, _, _, ⟨hstaleTtl, rfl⟩, h, rfl⟩ := h
    obtain ⟨cost, _, _, ⟨unused, rfl⟩, h, rfl⟩ := h
    obtain ⟨tagCount, _, _, rfl, h, rfl⟩ := h
    obtain ⟨tags, _, _, ⟨hlen, htags, rfl⟩, h, rfl⟩ := h
    obtain ⟨contentType, _, _, rfl, ⟨rfl, rfl⟩, rfl⟩ := h
    have htagCount := tagCount.toNat_lt
    refine ⟨⟨httl, hstaleTtl, htags, ?_⟩, unused, ?_⟩
    · change tags.length ≤ 65535
      omega
    · simp only [Metadata.wire, hlen, UInt16.ofNat_toNat, List.append_assoc, List.append_nil]
  · rintro ⟨h, unused, hxs⟩
    have hlen : metadata.tags.length = (UInt16.ofNat metadata.tags.length).toNat :=
      (word16.toNat_ofNat _ (Nat.lt_succ_of_le h.tags_length)).symm
    refine ⟨metadata.ttl, _, _, ⟨h.ttl, rfl⟩, ⟨metadata.staleTtl, _, _, ⟨h.staleTtl, rfl⟩,
      ⟨metadata.cost, _, _, ⟨unused, rfl⟩, ⟨_, _, _, rfl, ⟨metadata.tags, _, _,
        ⟨hlen, h.tags, rfl⟩, ⟨metadata.contentType, _, _, rfl, ⟨rfl, rfl⟩, rfl⟩, rfl⟩, rfl⟩, rfl⟩,
          rfl⟩, ?_⟩
    simp only [hxs, Metadata.wire, List.append_assoc, List.append_nil]

/-- The count before the keys is their number, because the keys of a payload take its bytes. -/
theorem parses_decodeBatchGet :
    Parses rest (decodeRequestPayload .batchGet) (RequestPayload.Format .batchGet) := by
  refine Parses.congr_of_length length_rest_lt (parses_readNamespace.bind fun ns =>
    parses_readU32.bind fun keyCount => (Parses.ensure _ _).bind fun _ =>
    (parses_readBytes.times_total keyCount.toNat).bind fun keys => Parses.pure _)
    fun payload xs hxs => ?_
  constructor
  · intro h
    obtain ⟨ns, _, _, ⟨hns, rfl⟩, h, rfl⟩ := h
    obtain ⟨keyCount, _, _, rfl, h, rfl⟩ := h
    obtain ⟨_, _, _, ⟨hcount, rfl⟩, h, rfl⟩ := h
    obtain ⟨keys, _, _, ⟨hlen, rfl⟩, ⟨rfl, rfl⟩, rfl⟩ := h
    have hkeys : keys ≠ [] := by
      rintro rfl
      have hzero : keyCount = 0 := UInt32.toNat_inj.mp hlen.symm
      rw [hzero] at hcount
      cases hcount
    refine ⟨⟨rfl, hns, hkeys⟩, 0, ?_⟩
    simp [RequestPayload.wire, hlen]
  · intro h
    obtain ⟨⟨hcommand, hpayload⟩, unused, rfl⟩ := h
    cases payload with
    | batchGet ns keys =>
      obtain ⟨hns, hkeys⟩ := hpayload
      have hle := length_le_length_flatMap length_field_pos keys
      simp only [RequestPayload.wire, List.length_append] at hxs
      have hlen := toNat_ofNat_length (show keys.length < 2 ^ 32 by omega)
      have hcount : (UInt32.ofNat keys.length != 0) = true := by
        rw [bne_iff_ne]
        intro hzero
        rw [hzero] at hlen
        exact hkeys (List.length_eq_zero_iff.mp hlen.symm)
      refine ⟨ns, _, _, ⟨hns, rfl⟩, ⟨_, _, _, rfl, ⟨(), _, _, ⟨hcount, rfl⟩, ⟨keys, _, _,
        ⟨hlen.symm, rfl⟩, ⟨rfl, rfl⟩, rfl⟩, rfl⟩, rfl⟩, ?_⟩
      simp only [RequestPayload.wire, List.append_assoc, List.append_nil, List.nil_append]
    | _ => cases hcommand

theorem parses_decodeRequestPayload (command : Command) :
    Parses rest (decodeRequestPayload command) (RequestPayload.Format command) := by
  cases command with
  | get =>
    refine (parses_readNamespace.bind fun ns => parses_readBytes.bind fun key =>
      Parses.pure _).congr fun payload xs => ?_
    cases payload <;> simp [RequestPayload.Format]
  | put =>
    refine (parses_readNamespace.bind fun ns => parses_readBytes.bind fun key =>
      parses_readMetadata.bind fun metadata => parses_readBytes.bind fun value =>
      Parses.pure _).congr fun payload xs => ?_
    cases payload <;> simp [RequestPayload.Format, and_assoc]
  | delete =>
    refine (parses_readNamespace.bind fun ns => parses_readBytes.bind fun key =>
      Parses.pure _).congr fun payload xs => ?_
    cases payload <;> simp [RequestPayload.Format]
  | batchGet => exact parses_decodeBatchGet
  | tagInvalidate =>
    refine (parses_readNamespace.bind fun ns => parses_readTag.bind fun tag =>
      Parses.pure _).congr fun payload xs => ?_
    cases payload <;> simp [RequestPayload.Format, and_assoc]
  | leaseStart =>
    refine (parses_readNamespace.bind fun ns => parses_readBytes.bind fun key =>
      parses_readU64.bind fun leaseTtlMs => (Parses.ensure _ _).bind fun _ =>
      parses_readAllowStaleMs.bind fun allowStaleMs => Parses.pure _).congr fun payload xs => ?_
    cases payload <;> simp [RequestPayload.Format, and_assoc]
  | leaseComplete =>
    refine (parses_readNamespace.bind fun ns => parses_readBytes.bind fun key =>
      parses_readString.bind fun leaseToken => (Parses.ensure _ _).bind fun _ =>
      parses_readMetadata.bind fun metadata => parses_readBytes.bind fun value =>
      Parses.pure _).congr fun payload xs => ?_
    cases payload <;> simp [RequestPayload.Format, and_assoc]

/-! ## Round trip -/

theorem decodeRequestFrame_iff {input : Bytes} {max : Nat} {f : RequestFrame} :
    decodeRequestFrame input max = .ok f ↔ WellFormed f ∧ ∃ unused suffix,
      input = frameBytes kindRequest f.command f.requestId (f.payload.wire unused) ++ suffix ∧
        (f.payload.wire unused).length ≤ max ∧ (f.payload.wire unused).length < 2 ^ 32 := by
  rw [decodeRequestFrame, decodeFrame_eq_ok_iff parses_decodeRequestPayload]
  constructor
  · intro h
    obtain ⟨-, suffix, rfl, hmax, hlt, ⟨hcommand, hpayload⟩, unused, rfl⟩ := h
    exact ⟨⟨hcommand, hpayload⟩, unused, suffix, rfl, hmax, hlt⟩
  · intro h
    obtain ⟨⟨hcommand, hpayload⟩, unused, suffix, rfl, hmax, hlt⟩ := h
    exact ⟨_, suffix, rfl, hmax, hlt, ⟨hcommand, hpayload⟩, unused, rfl⟩

/-- The fixed positions of the header of an accepted request. -/
theorem header_of_decodeRequestFrame {input : Bytes} {max : Nat} {f : RequestFrame}
    (h : decodeRequestFrame input max = .ok f) :
    f.requestId = UInt64.ofNat (ofBytes (input.extract 8 16)) ∧
      Command.fromId (input.getD 6 0) = .ok f.command := by
  obtain ⟨-, unused, suffix, hinput, -, -⟩ := decodeRequestFrame_iff.mp h
  obtain ⟨hid, hcommand⟩ := header_frameBytes kindRequest f.command f.requestId
    (f.payload.wire unused) suffix
  rw [← hinput] at hid hcommand
  exact ⟨hid.symm, Command.fromId_eq_ok_iff.mpr hcommand⟩

theorem encodeRequestFrame_eq (f : RequestFrame) :
    encodeRequestFrame f = if (f.payload.wire 0).length < 2 ^ 32 then
      some (frameBytes kindRequest f.command f.requestId (f.payload.wire 0)) else none := by
  rw [encodeRequestFrame, encodeRequestFrameInto,
    encodeFrameInto_eq (encodeRequestPayload_eq f.payload)]

/-- Decoding inverts encoding, whatever follows the frame. -/
theorem decodeRequestFrame_encodeRequestFrame {f : RequestFrame} (hf : WellFormed f)
    {maxPayloadLen : Nat} (hmax : (encodeRequestPayload f.payload []).length ≤ maxPayloadLen)
    (hlt : (encodeRequestPayload f.payload []).length < 2 ^ 32) (suffix : Bytes) :
    ∃ bytes, encodeRequestFrame f = some bytes ∧
      decodeRequestFrame (bytes ++ suffix) maxPayloadLen = .ok f := by
  rw [encodeRequestPayload_eq, List.nil_append] at hmax hlt
  refine ⟨_, by rw [encodeRequestFrame_eq, if_pos hlt], ?_⟩
  exact decodeRequestFrame_iff.mpr ⟨hf, 0, suffix, rfl, hmax, hlt⟩

/-- A put without a cost, as a client sends it. -/
def plainPut : RequestFrame :=
  { requestId := 7, command := .put,
    payload := .put "default" [1, 2] ⟨some ⟨500⟩, none, none, ["user:1"], .other⟩ [9] }

theorem wellFormed_plainPut : WellFormed plainPut where
  command_eq := rfl
  payload := by
    refine ⟨by decide +kernel, ?_, ?_, ?_, ?_⟩
    all_goals decide +kernel

theorem decodeRequestFrame_encodeRequestFrame_plainPut :
    ∃ bytes, encodeRequestFrame plainPut = some bytes ∧
      decodeRequestFrame (bytes ++ [0xff]) 64 = .ok plainPut :=
  decodeRequestFrame_encodeRequestFrame wellFormed_plainPut (by decide +kernel)
    (by decide +kernel) [0xff]

/-! ## The accepted frames -/

/-- The positions of the cost bytes that are not looked at, in metadata that starts at `start`:
the eight bytes after the two TTL fields and the flag. -/
def Metadata.ignoredCost (metadata : Metadata) (start : Nat) : Set Nat :=
  match metadata.cost with
  | none => Set.Ico (start + 17) (start + 25)
  | some _ => ∅

/-- The positions of a payload that starts at `start` whose bytes the decoder does not look at. -/
def RequestPayload.ignoredCost (start : Nat) : RequestPayload → Set Nat
  | put ns key metadata _ =>
    metadata.ignoredCost (start + (4 + (Utf8.encode ns).length) + (4 + key.length))
  | leaseComplete ns key leaseToken metadata _ =>
    metadata.ignoredCost (start + (4 + (Utf8.encode ns).length) + (4 + key.length) +
      (4 + (Utf8.encode leaseToken).length))
  | _ => ∅

theorem Metadata.agreeOutside_wire_iff (metadata : Metadata) {before after xs : Bytes} :
    List.AgreeOutside (metadata.ignoredCost before.length) xs
        (before ++ metadata.wire 0 ++ after) ↔
      ∃ unused, xs = before ++ metadata.wire unused ++ after := by
  cases hcost : metadata.cost with
  | some cost =>
    simp [Metadata.ignoredCost, Metadata.wire, hcost, List.agreeOutside_empty_iff]
  | none =>
    -- the ignored bytes between what is before and after them
    have hwire : ∀ unused, before ++ metadata.wire unused ++ after =
        (before ++ toBytes 8 (metadata.ttl.elim 0 Ttl.milliseconds).toNat ++
          toBytes 8 (metadata.staleTtl.elim 0 Ttl.milliseconds).toNat ++ [0]) ++
        toBytes 8 unused.toNat ++
        (toBytes 2 (UInt16.ofNat metadata.tags.length).toNat ++
          metadata.tags.flatMap (fun tag => field (Utf8.encode tag)) ++
          [metadata.contentType.byte] ++ after) := by
      intro unused
      simp [Metadata.wire, hcost]
    have hpositions : metadata.ignoredCost before.length =
        Set.Ico (before ++ toBytes 8 (metadata.ttl.elim 0 Ttl.milliseconds).toNat ++
          toBytes 8 (metadata.staleTtl.elim 0 Ttl.milliseconds).toNat ++ [0]).length
        ((before ++ toBytes 8 (metadata.ttl.elim 0 Ttl.milliseconds).toNat ++
          toBytes 8 (metadata.staleTtl.elim 0 Ttl.milliseconds).toNat ++ [0]).length +
          (toBytes 8 (UInt64.toNat 0)).length) := by
      simp [Metadata.ignoredCost, hcost]
    rw [hwire, hpositions, List.agreeOutside_middle_iff]
    constructor
    · intro h
      obtain ⟨bytes, hlen, rfl⟩ := h
      have hbytes : toBytes 8 (UInt64.ofNat (ofBytes bytes)).toNat = bytes :=
        word64.toBytes_ofBytes (hlen.trans (length_toBytes ..))
      exact ⟨_, by rw [hwire, hbytes]⟩
    · rintro ⟨unused, rfl⟩
      exact ⟨toBytes 8 unused.toNat, by simp, hwire unused⟩

theorem RequestPayload.length_wire (payload : RequestPayload) (unused : UInt64) :
    (payload.wire unused).length = (payload.wire 0).length := by
  cases payload <;> simp [RequestPayload.wire, Metadata.wire]

theorem RequestPayload.agreeOutside_wire_iff (payload : RequestPayload) {header xs : Bytes} :
    List.AgreeOutside (payload.ignoredCost header.length) xs (header ++ payload.wire 0) ↔
      ∃ unused, xs = header ++ payload.wire unused := by
  cases payload with
  | put ns key metadata value =>
    have hstart : header.length + (4 + (Utf8.encode ns).length) + (4 + key.length) =
        (header ++ field (Utf8.encode ns) ++ field key).length := by
      simp only [List.length_append, length_field]
    have hwire : ∀ unused, header ++ (put ns key metadata value).wire unused =
        (header ++ field (Utf8.encode ns) ++ field key) ++ metadata.wire unused ++ field value := by
      simp [RequestPayload.wire]
    simp only [RequestPayload.ignoredCost, hstart, hwire]
    exact metadata.agreeOutside_wire_iff
  | leaseComplete ns key leaseToken metadata value =>
    have hstart : header.length + (4 + (Utf8.encode ns).length) + (4 + key.length) +
        (4 + (Utf8.encode leaseToken).length) = (header ++ field (Utf8.encode ns) ++ field key ++
          field (Utf8.encode leaseToken)).length := by
      simp only [List.length_append, length_field]
    have hwire : ∀ unused, header ++ (leaseComplete ns key leaseToken metadata value).wire unused =
        (header ++ field (Utf8.encode ns) ++ field key ++ field (Utf8.encode leaseToken)) ++
          metadata.wire unused ++ field value := by
      simp [RequestPayload.wire]
    simp only [RequestPayload.ignoredCost, hstart, hwire]
    exact metadata.agreeOutside_wire_iff
  | _ => simp [RequestPayload.ignoredCost, RequestPayload.wire, List.agreeOutside_empty_iff]

/-- Two byte strings that differ at most in the cost bytes that decoding to `f` ignores. -/
def SameRequest (f : RequestFrame) (xs ys : Bytes) : Prop :=
  List.AgreeOutside (f.payload.ignoredCost headerLen) xs ys

theorem sameRequest_frameBytes_iff {f : RequestFrame} {xs : Bytes} :
    SameRequest f xs (frameBytes kindRequest f.command f.requestId (f.payload.wire 0)) ↔
      ∃ unused, xs = frameBytes kindRequest f.command f.requestId (f.payload.wire unused) := by
  have hheader := length_headerBytes kindRequest f.command.id f.requestId
    (.ofNat (f.payload.wire 0).length)
  simp only [SameRequest, frameBytes, f.payload.length_wire]
  rw [← hheader]
  exact f.payload.agreeOutside_wire_iff

/-- What an accepted frame looks like: the encoding of its value, up to ignored cost bytes. -/
theorem sameRequest_of_decode {input : Bytes} {max : Nat} {f : RequestFrame}
    (h : decodeRequestFrame input max = .ok f) :
    WellFormed f ∧ payloadLen input ≤ max ∧ ∃ bytes, encodeRequestFrame f = some bytes ∧
      bytes.length = headerLen + payloadLen input ∧
      SameRequest f (input.take (headerLen + payloadLen input)) bytes := by
  obtain ⟨hf, unused, suffix, rfl, hmax, hlt⟩ := decodeRequestFrame_iff.mp h
  rw [payloadLen_frameBytes _ _ _ hlt, f.payload.length_wire]
  rw [f.payload.length_wire] at hmax hlt
  refine ⟨hf, hmax, _, by rw [encodeRequestFrame_eq, if_pos hlt], length_frameBytes .., ?_⟩
  rw [sameRequest_frameBytes_iff]
  refine ⟨unused, List.take_left' ?_⟩
  rw [length_frameBytes, f.payload.length_wire]

theorem decode_of_sameRequest {input bytes : Bytes} {max : Nat} {f : RequestFrame}
    (hf : WellFormed f) (hmax : payloadLen input ≤ max) (hbytes : encodeRequestFrame f = some bytes)
    (hlen : bytes.length = headerLen + payloadLen input)
    (hsame : SameRequest f (input.take (headerLen + payloadLen input)) bytes) :
    decodeRequestFrame input max = .ok f := by
  rw [encodeRequestFrame_eq] at hbytes
  split at hbytes
  next hlt =>
    cases hbytes
    rw [length_frameBytes] at hlen
    obtain ⟨unused, hinput⟩ := sameRequest_frameBytes_iff.mp hsame
    refine decodeRequestFrame_iff.mpr ⟨hf, unused, input.drop (headerLen + payloadLen input), ?_⟩
    rw [← hinput, f.payload.length_wire]
    exact ⟨(List.take_append_drop ..).symm, by omega, hlt⟩
  next => cases hbytes

/-- The request decoder accepts exactly the encodings of well-formed requests, up to the cost bytes
it ignores and whatever follows the frame; so two accepted frames of one request differ in nothing
else. -/
theorem decodeRequestFrame_canonical (input : Bytes) (max : Nat) (f : RequestFrame) :
    (decodeRequestFrame input max = .ok f ↔
      WellFormed f ∧ payloadLen input ≤ max ∧ ∃ bytes, encodeRequestFrame f = some bytes ∧
        bytes.length = headerLen + payloadLen input ∧
        SameRequest f (input.take (headerLen + payloadLen input)) bytes) ∧
    ∀ input' max', decodeRequestFrame input max = .ok f → decodeRequestFrame input' max' = .ok f →
      SameRequest f (input.take (headerLen + payloadLen input))
        (input'.take (headerLen + payloadLen input')) := by
  refine ⟨⟨sameRequest_of_decode, ?_⟩, ?_⟩
  · intro h
    obtain ⟨hf, hmax, bytes, hbytes, hlen, hsame⟩ := h
    exact decode_of_sameRequest hf hmax hbytes hlen hsame
  · intro input' max' h h'
    obtain ⟨-, -, bytes, hbytes, -, hsame⟩ := sameRequest_of_decode h
    obtain ⟨-, -, bytes', hbytes', -, hsame'⟩ := sameRequest_of_decode h'
    obtain rfl : bytes = bytes' := Option.some.inj (hbytes.symm.trans hbytes')
    exact hsame.trans hsame'.symm

def plainPutBytes (unused : UInt64) : Bytes :=
  frameBytes kindRequest .put 7 (plainPut.payload.wire unused)

theorem decodeRequestFrame_canonical_plainPut :
    plainPutBytes 0 ≠ plainPutBytes 5 ∧
      decodeRequestFrame (plainPutBytes 0) 64 = .ok plainPut ∧
      decodeRequestFrame (plainPutBytes 5 ++ [1]) 64 = .ok plainPut ∧
      SameRequest plainPut
        ((plainPutBytes 0).take (headerLen + payloadLen (plainPutBytes 0)))
        ((plainPutBytes 5 ++ [1]).take (headerLen + payloadLen (plainPutBytes 5 ++ [1]))) := by
  have h0 : decodeRequestFrame (plainPutBytes 0) 64 = .ok plainPut := by decide +kernel
  have h5 : decodeRequestFrame (plainPutBytes 5 ++ [1]) 64 = .ok plainPut := by decide +kernel
  exact ⟨by decide +kernel, h0, h5, (decodeRequestFrame_canonical _ 64 plainPut).2 _ 64 h0 h5⟩

end Protocol
end Cachebox
