import Cachebox.Protocol.Request
import Cachebox.Protocol.Response
import Cachebox.Theory.Logged

/-!
# What the decoders reserve

A decoder that has read the number of the elements of a list calls `Vec::with_capacity` with it
before it reads the first of them. The decoders below are those of `Decode.lean` with these calls:
each is recorded with the number of payload bytes that are left at that point. In a process whose
allocator cannot find so much room, the call aborts the process (`decodeRequestFrameOn`).
-/

namespace Cachebox
namespace Protocol
open Parser Cursor BigEndian

/-- A call of `Vec::with_capacity(count)`, made with `remaining` bytes of the payload left. -/
structure Reservation where
  count : Nat
  remaining : Nat
  deriving DecidableEq, Repr

abbrev Reserving := StateT Cursor (Logged Reservation DecodeError)

def withCapacity (count : Nat) : Reserving Unit :=
  record rest fun left => ⟨count, left.length⟩

def readMetadataReserving : Reserving Metadata := do
  let ttl ← readTtl
  let staleTtl ← readTtl
  let cost ← readCost
  let tagCount ← readU16
  withCapacity tagCount.toNat
  let tags ← (times readTag tagCount.toNat : Reader (List String))
  let contentType ← readContentType
  return { ttl, staleTtl, cost, tags, contentType }

/-- The other commands reserve nothing. -/
def decodeRequestPayloadReserving : Command → Reserving RequestPayload
  | .put => do
    let ns ← readNamespace
    let key ← readBytes
    let metadata ← readMetadataReserving
    let value ← readBytes
    return .put ns key metadata value
  | .batchGet => do
    let ns ← readNamespace
    let keyCount ← readU32
    (ensure (keyCount != 0) (.invalidPayload "batch get requires at least one key") : Reader Unit)
    withCapacity keyCount.toNat
    let keys ← (times readBytes keyCount.toNat : Reader (List Bytes))
    return .batchGet ns keys
  | .leaseComplete => do
    let ns ← readNamespace
    let key ← readBytes
    let leaseToken ← readString
    (ensure (!leaseToken.isEmpty) (.invalidPayload "lease token must be non-empty") : Reader Unit)
    let metadata ← readMetadataReserving
    let value ← readBytes
    return .leaseComplete ns key leaseToken metadata value
  | command => decodeRequestPayload command

/-- The other statuses reserve nothing. -/
def decodeResponseBodyReserving (command : Command) (status : UInt8) : Reserving ResponsePayload :=
  if status = 0x00 ∧ command = .batchGet then do
    let itemCount ← readU32
    withCapacity itemCount.toNat
    let items ← (times readBatchItem itemCount.toNat : Reader (List BatchItem))
    return .batchGet items
  else
    decodeResponseBody command status

def decodeResponsePayloadReserving (command : Command) : Reserving ResponsePayload := do
  let status ← readU8
  decodeResponseBodyReserving command status

def decodeFrameReserving {α : Type} (kind : UInt8) (decodePayload : Command → Reserving α)
    (input : Bytes) (maxPayloadLen : Nat) : Logged Reservation DecodeError (Frame α) := do
  let header ← decodeHeader input maxPayloadLen kind
  let payloadEnd := headerLen + header.payloadLen.toNat
  (ensure (payloadEnd ≤ input.length) (.truncatedPayload payloadEnd input.length) :
    Except DecodeError Unit)
  let command ← Command.fromId header.command
  let cursor := Cursor.new (input.extract headerLen payloadEnd)
    (length_payload_lt input header)
  let (payload, cursor) ← decodePayload command cursor
  cursor.expectEmpty
  return { requestId := header.requestId, command, payload }

def decodeRequestFrameReserving (input : Bytes) (maxPayloadLen : Nat) :
    Logged Reservation DecodeError RequestFrame :=
  decodeFrameReserving kindRequest decodeRequestPayloadReserving input maxPayloadLen

def decodeResponseFrameReserving (input : Bytes) (maxPayloadLen : Nat) :
    Logged Reservation DecodeError ResponseFrame :=
  decodeFrameReserving kindResponse decodeResponsePayloadReserving input maxPayloadLen

/-! ## Without the calls they are the decoders -/

theorem erases_readMetadata : Erases readMetadataReserving readMetadata :=
  (Erases.lift _).bind fun _ => (Erases.lift _).bind fun _ => (Erases.lift _).bind fun _ =>
    (Erases.lift _).bind fun _ => .record _ _ <| (Erases.lift _).bind fun _ =>
      (Erases.lift _).bind fun _ => .pure _

theorem erases_decodeRequestPayload (command : Command) :
    Erases (decodeRequestPayloadReserving command) (decodeRequestPayload command) := by
  cases command with
  | put =>
    exact (Erases.lift _).bind fun _ => (Erases.lift _).bind fun _ =>
      erases_readMetadata.bind fun _ => (Erases.lift _).bind fun _ => .pure _
  | batchGet =>
    exact (Erases.lift _).bind fun _ => (Erases.lift _).bind fun _ => (Erases.lift _).bind fun _ =>
      .record _ _ <| (Erases.lift _).bind fun _ => .pure _
  | leaseComplete =>
    exact (Erases.lift _).bind fun _ => (Erases.lift _).bind fun _ => (Erases.lift _).bind fun _ =>
      (Erases.lift _).bind fun _ => erases_readMetadata.bind fun _ =>
        (Erases.lift _).bind fun _ => .pure _
  | get | delete | tagInvalidate | leaseStart => exact .lift _

theorem erases_decodeResponsePayload (command : Command) :
    Erases (decodeResponsePayloadReserving command) (decodeResponsePayload command) := by
  refine (Erases.lift _).bind fun status => ?_
  unfold decodeResponseBodyReserving
  split
  · next h =>
    obtain ⟨rfl, rfl⟩ := h
    exact (Erases.lift _).bind fun _ => .record _ _ <| (Erases.lift _).bind fun _ => .pure _
  · exact .lift _

theorem result_decodeFrameReserving {α : Type} {kind : UInt8}
    {decodePayload : Command → Reserving α} {decodePayload' : Command → Reader α}
    (h : ∀ command, Erases (decodePayload command) (decodePayload' command)) (input : Bytes)
    (max : Nat) :
    (decodeFrameReserving kind decodePayload input max).result =
      decodeFrame kind decodePayload' input max := by
  simp only [decodeFrameReserving, decodeFrame, Logged.result_bind, Logged.result_lift,
    Logged.result_pure, h _ _]

/-! ## Which counts are reserved -/

/-- The input starts with bytes in `Front` that declare the count, and the others are left. -/
def DeclaredIn (Front : Bytes → Nat → Prop) (xs : Bytes) (r : Reservation) : Prop :=
  ∃ front left, xs = front ++ left ∧ Front front r.count ∧ r.remaining = left.length

section Records
variable {α β : Type} {Front Front' : Bytes → Nat → Prop}

/-- What is read before a count stands in front of it. -/
theorem records_read {q : Reader α} {G : α → Bytes → Prop} {f : α → Reserving β}
    {Front : α → Bytes → Nat → Prop} (hq : Parses rest q G)
    (hf : ∀ a, Records rest (f a) (DeclaredIn (Front a))) :
    Records rest (liftM q >>= f) (DeclaredIn fun front n =>
      ∃ a ys zs, front = ys ++ zs ∧ G a ys ∧ Front a zs n) := by
  intro s r
  rw [Records.read hq hf s r]
  constructor
  · rintro ⟨a, ys, -, hs, hG, front, left, rfl, hfront, hleft⟩
    refine ⟨ys ++ front, left, ?_, ⟨a, ys, front, rfl, hG, hfront⟩, hleft⟩
    rw [hs, List.append_assoc]
  · rintro ⟨-, left, hs, ⟨a, ys, front, rfl, hG, hfront⟩, hleft⟩
    refine ⟨a, ys, front ++ left, ?_, hG, front, left, rfl, hfront, hleft⟩
    rw [hs, List.append_assoc]

theorem records_front {p : Reserving β} (hp : Records rest p (DeclaredIn Front))
    (h : ∀ front n, Front front n ↔ Front' front n) : Records rest p (DeclaredIn Front') :=
  hp.congr fun xs r => by simp only [DeclaredIn, h]

theorem records_noFront {p : Reserving β} (hp : Records rest p fun _ _ => False) :
    Records rest p (DeclaredIn fun _ _ => False) :=
  hp.congr fun xs r => by simp [DeclaredIn]

/-- The space is reserved before the elements are read, which reserves no more. -/
theorem records_withCapacity (count : Nat) {p : Reserving β}
    (hp : Records rest p fun _ _ => False) :
    Records rest (do withCapacity count; p) (DeclaredIn fun front n => front = [] ∧ n = count) := by
  refine ((Records.record rest _).silent fun _ => hp).congr fun xs r => ?_
  constructor
  · rintro rfl
    exact ⟨[], xs, rfl, ⟨rfl, rfl⟩, rfl⟩
  · rintro ⟨-, left, rfl, ⟨rfl, rfl⟩, hleft⟩
    rw [List.nil_append, ← hleft]

end Records

/-- The metadata up to the number of tags. -/
def MetadataFront (front : Bytes) (count : Nat) : Prop :=
  ∃ (ttl staleTtl cost : UInt64) (hasCost : Bool) (tagCount : UInt16),
    front = toBytes 8 ttl.toNat ++ toBytes 8 staleTtl.toNat ++ [if hasCost then 1 else 0] ++
      toBytes 8 cost.toNat ++ toBytes 2 tagCount.toNat ∧ count = tagCount.toNat

/-- The payload of a request up to the number of keys or tags. -/
def RequestFront (command : Command) (front : Bytes) (count : Nat) : Prop :=
  match command with
  | .put => ∃ ns key metadata, isValidNamespace ns ∧
      front = field (Utf8.encode ns) ++ field key ++ metadata ∧ MetadataFront metadata count
  | .batchGet => ∃ ns, ∃ keyCount : UInt32, isValidNamespace ns ∧ keyCount ≠ 0 ∧
      front = field (Utf8.encode ns) ++ toBytes 4 keyCount.toNat ∧ count = keyCount.toNat
  | .leaseComplete => ∃ ns key leaseToken metadata, isValidNamespace ns ∧ leaseToken ≠ "" ∧
      front = field (Utf8.encode ns) ++ field key ++ field (Utf8.encode leaseToken) ++ metadata ∧
      MetadataFront metadata count
  | _ => False

/-- The payload of a response up to the number of items. -/
def ResponseFront (command : Command) (front : Bytes) (count : Nat) : Prop :=
  command = .batchGet ∧
    ∃ itemCount : UInt32, front = 0x00 :: toBytes 4 itemCount.toNat ∧ count = itemCount.toNat

/-- Every word stands for a time, zero for an absent one. -/
theorem exists_ttl (w : UInt64) : ∃ ttl : Option Ttl,
    (∀ t ∈ ttl, t.milliseconds ≠ 0) ∧ ttl.elim 0 Ttl.milliseconds = w := by
  by_cases hw : w = 0
  · exact ⟨none, nofun, hw.symm⟩
  · refine ⟨some ⟨w⟩, fun t ht => ?_, rfl⟩
    cases ht
    exact hw

/-- The word of the cost is read whether or not the flag says that there is one. -/
theorem exists_cost (hasCost : Bool) (w : UInt64) : ∃ cost : Option UInt64, ∃ unused : UInt64,
    cost.isSome = hasCost ∧ cost.getD unused = w := by
  cases hasCost with
  | true => exact ⟨some w, w, rfl, rfl⟩
  | false => exact ⟨none, w, rfl, rfl⟩

theorem records_readMetadata : Records rest readMetadataReserving (DeclaredIn MetadataFront) := by
  have h := records_read parses_readTtl fun ttl => records_read parses_readTtl fun staleTtl =>
    records_read parses_readCost fun cost => records_read parses_readU16 fun tagCount =>
    records_withCapacity tagCount.toNat <|
      (Records.lift (times readTag tagCount.toNat)).silent fun tags =>
      (Records.lift readContentType).silent fun contentType =>
      .pure (⟨ttl, staleTtl, cost, tags, contentType⟩ : Metadata)
  refine records_front h fun front n => ?_
  constructor
  · rintro ⟨ttl, _, _, rfl, ⟨-, rfl⟩, staleTtl, _, _, rfl, ⟨-, rfl⟩, cost, _, _, rfl, ⟨unused, rfl⟩,
      tagCount, _, _, rfl, rfl, rfl, rfl⟩
    exact ⟨ttl.elim 0 Ttl.milliseconds, staleTtl.elim 0 Ttl.milliseconds, cost.getD unused,
      cost.isSome, tagCount, by simp, rfl⟩
  · rintro ⟨ttlWord, staleTtlWord, costWord, hasCost, tagCount, rfl, rfl⟩
    obtain ⟨ttl, httl, rfl⟩ := exists_ttl ttlWord
    obtain ⟨staleTtl, hstaleTtl, rfl⟩ := exists_ttl staleTtlWord
    obtain ⟨cost, unused, rfl, rfl⟩ := exists_cost hasCost costWord
    exact ⟨ttl, _, _, by simp, ⟨httl, rfl⟩, staleTtl, _, _, rfl, ⟨hstaleTtl, rfl⟩, cost, _, _, rfl,
      ⟨unused, rfl⟩, tagCount, _, [], (List.append_nil _).symm, rfl, rfl, rfl⟩

/-- After the metadata only the value is read. -/
theorem records_metadata_value (make : Metadata → Bytes → RequestPayload) :
    Records rest (do
      let metadata ← readMetadataReserving
      let value ← readBytes
      return make metadata value : Reserving RequestPayload) (DeclaredIn MetadataFront) :=
  records_readMetadata.silent fun _ => (Records.lift _).silent fun _ => .pure _

theorem records_decodeRequestPayload (command : Command) :
    Records rest (decodeRequestPayloadReserving command) (DeclaredIn (RequestFront command)) := by
  cases command with
  | put =>
    have h := records_read parses_readNamespace fun ns => records_read parses_readBytes fun key =>
      records_metadata_value (RequestPayload.put ns key)
    refine records_front h fun front n => ?_
    constructor
    · rintro ⟨ns, _, _, rfl, ⟨hns, rfl⟩, key, _, metadata, rfl, rfl, hfront⟩
      exact ⟨ns, key, metadata, hns, (List.append_assoc ..).symm, hfront⟩
    · rintro ⟨ns, key, metadata, hns, rfl, hfront⟩
      exact ⟨ns, _, _, List.append_assoc .., ⟨hns, rfl⟩, key, _, metadata, rfl, rfl, hfront⟩
  | batchGet =>
    have h := records_read parses_readNamespace fun ns =>
      records_read parses_readU32 fun keyCount =>
      records_read (Parses.ensure (keyCount != 0)
        (DecodeError.invalidPayload "batch get requires at least one key")) fun _ =>
      records_withCapacity keyCount.toNat <|
        (Records.lift (times readBytes keyCount.toNat)).silent fun keys =>
        .pure (RequestPayload.batchGet ns keys)
    refine records_front h fun front n => ?_
    constructor
    · rintro ⟨ns, _, _, rfl, ⟨hns, rfl⟩, keyCount, _, _, rfl, rfl, -, _, _, rfl, ⟨hcount, rfl⟩, rfl,
        rfl⟩
      exact ⟨ns, keyCount, hns, bne_iff_ne.mp hcount, by simp, rfl⟩
    · rintro ⟨ns, keyCount, hns, hcount, rfl, rfl⟩
      exact ⟨ns, _, _, rfl, ⟨hns, rfl⟩, keyCount, _, [], (List.append_nil _).symm, rfl, (), [], [],
        rfl, ⟨bne_iff_ne.mpr hcount, rfl⟩, rfl, rfl⟩
  | leaseComplete =>
    have h := records_read parses_readNamespace fun ns => records_read parses_readBytes fun key =>
      records_read parses_readString fun leaseToken =>
      records_read (Parses.ensure (!leaseToken.isEmpty)
        (DecodeError.invalidPayload "lease token must be non-empty")) fun _ =>
      records_metadata_value (RequestPayload.leaseComplete ns key leaseToken)
    refine records_front h fun front n => ?_
    constructor
    · rintro ⟨ns, _, _, rfl, ⟨hns, rfl⟩, key, _, _, rfl, rfl, leaseToken, _, _, rfl, rfl, -, _,
        metadata, rfl, ⟨htoken, rfl⟩, hfront⟩
      refine ⟨ns, key, leaseToken, metadata, hns, ?_, by simp, hfront⟩
      rintro rfl
      cases htoken
    · rintro ⟨ns, key, leaseToken, metadata, hns, htoken, rfl, hfront⟩
      exact ⟨ns, _, _, by simp, ⟨hns, rfl⟩, key, _, _, rfl, rfl, leaseToken, _, _, rfl, rfl, (), [],
        metadata, rfl, ⟨by simpa using htoken, rfl⟩, hfront⟩
  | get | delete | tagInvalidate | leaseStart => exact records_noFront (.lift _)

theorem records_decodeResponsePayload (command : Command) :
    Records rest (decodeResponsePayloadReserving command)
      (DeclaredIn (ResponseFront command)) := by
  have hbody : ∀ status, Records rest (decodeResponseBodyReserving command status)
      (DeclaredIn fun front n => (status = 0x00 ∧ command = .batchGet) ∧
        ∃ itemCount : UInt32, front = toBytes 4 itemCount.toNat ∧ n = itemCount.toNat) := by
    intro status
    unfold decodeResponseBodyReserving
    split
    · next hbatch =>
      refine records_front (records_read parses_readU32 fun itemCount =>
        records_withCapacity itemCount.toNat <| (Records.lift _).silent fun _ => .pure _)
        fun front n => ?_
      constructor
      · rintro ⟨itemCount, _, _, rfl, rfl, rfl, rfl⟩
        exact ⟨hbatch, itemCount, List.append_nil _, rfl⟩
      · rintro ⟨-, itemCount, rfl, rfl⟩
        exact ⟨itemCount, _, [], (List.append_nil _).symm, rfl, rfl, rfl⟩
    · next hbatch =>
      refine records_front (records_noFront (.lift _)) fun front n => iff_of_false id ?_
      exact fun h => hbatch h.1
  refine records_front (records_read parses_readU8 hbody) fun front n => ?_
  constructor
  · rintro ⟨status, _, _, rfl, rfl, ⟨rfl, hcommand⟩, itemCount, rfl, rfl⟩
    exact ⟨hcommand, itemCount, rfl, rfl⟩
  · rintro ⟨hcommand, itemCount, rfl, rfl⟩
    exact ⟨0x00, [0x00], _, rfl, rfl, ⟨rfl, hcommand⟩, itemCount, rfl, rfl⟩

/-! ## When the counts fit -/

/-- A decoder reserves for the count that the payload of a frame declares. -/
theorem mem_log_decodeFrameReserving {α : Type} {kind : UInt8}
    {decodePayload : Command → Reserving α} {Front : Command → Bytes → Nat → Prop}
    (h : ∀ command, Records rest (decodePayload command) (DeclaredIn (Front command)))
    {input : Bytes} {max : Nat} {r : Reservation} :
    r ∈ (decodeFrameReserving kind decodePayload input max).log ↔
      ∃ command requestId payload suffix,
        input = frameBytes kind command requestId payload ++ suffix ∧ payload.length ≤ max ∧
          payload.length < 2 ^ 32 ∧ DeclaredIn (Front command) payload r := by
  simp only [decodeFrameReserving, Logged.mem_log_bind, Logged.log_lift, Logged.log_pure,
    Logged.result_lift, List.not_mem_nil, false_or, and_false, exists_false, or_false,
    ensure_eq_ok_iff, exists_const, decide_eq_true_eq, Command.fromId_eq_ok_iff, h _ _ _]
  constructor
  · rintro ⟨header, hheader, hlen, command, hcommand, hr⟩
    obtain ⟨suffix, hinput, hmax, hlt⟩ :=
      front_iff.mp ⟨header, hheader, hlen, hcommand, rfl, rfl⟩
    exact ⟨command, header.requestId, _, suffix, hinput, hmax, hlt, hr⟩
  · rintro ⟨command, requestId, payload, suffix, hinput, hmax, hlt, hr⟩
    obtain ⟨header, hheader, hlen, hcommand, -, rfl⟩ :=
      front_iff.mpr ⟨suffix, hinput, hmax, hlt⟩
    exact ⟨header, hheader, hlen, command, hcommand, hr⟩

/-- If the input is a frame of the kind whose payload declares a count, at least as many bytes of
the payload follow the count. -/
def CountsFit (kind : UInt8) (Front : Command → Bytes → Nat → Prop) (input : Bytes) (max : Nat) :
    Prop :=
  ∀ command requestId front left suffix count,
    input = frameBytes kind command requestId (front ++ left) ++ suffix →
      (front ++ left).length ≤ max → (front ++ left).length < 2 ^ 32 →
        Front command front count → count ≤ left.length

theorem countsFit_iff {α : Type} {kind : UInt8} {decodePayload : Command → Reserving α}
    {Front : Command → Bytes → Nat → Prop}
    (h : ∀ command, Records rest (decodePayload command) (DeclaredIn (Front command)))
    (input : Bytes) (max : Nat) :
    (∀ r ∈ (decodeFrameReserving kind decodePayload input max).log,
      r.count ≤ r.remaining ∧ r.count ≤ max) ↔ CountsFit kind Front input max := by
  simp only [mem_log_decodeFrameReserving h]
  constructor
  · intro hall command requestId front left suffix count hinput hmax hlt hfront
    exact (hall ⟨count, left.length⟩ ⟨command, requestId, _, suffix, hinput, hmax, hlt, front, left,
      rfl, hfront, rfl⟩).1
  · rintro hfit r ⟨command, requestId, payload, suffix, hinput, hmax, hlt, front, left, rfl, hfront,
      hleft⟩
    have hcount := hfit command requestId front left suffix r.count hinput hmax hlt hfront
    rw [List.length_append] at hmax
    omega

/-- **When the reserved space is bounded by the frame.** The decoders with their calls of
`Vec::with_capacity` are the decoders. Every count they reserve is at most the number of bytes left,
and so at most the limit, exactly if the counts that the input declares fit. -/
theorem reservations_bounded_iff (input : Bytes) (max : Nat) :
    ((decodeRequestFrameReserving input max).result = decodeRequestFrame input max ∧
      ((∀ r ∈ (decodeRequestFrameReserving input max).log,
        r.count ≤ r.remaining ∧ r.count ≤ max) ↔
          CountsFit kindRequest RequestFront input max)) ∧
    ((decodeResponseFrameReserving input max).result = decodeResponseFrame input max ∧
      ((∀ r ∈ (decodeResponseFrameReserving input max).log,
        r.count ≤ r.remaining ∧ r.count ≤ max) ↔
          CountsFit kindResponse ResponseFront input max)) :=
  ⟨⟨result_decodeFrameReserving erases_decodeRequestPayload input max,
      countsFit_iff records_decodeRequestPayload input max⟩,
    ⟨result_decodeFrameReserving erases_decodeResponsePayload input max,
      countsFit_iff records_decodeResponsePayload input max⟩⟩

/-- A batch get of no key that declares `0xffffffff` of them. -/
def emptyBatch : Bytes :=
  frameBytes kindRequest .batchGet 1 (field [97] ++ [0xff, 0xff, 0xff, 0xff])

/-- A batch answer of no item that declares `0xffffffff` of them. -/
def emptyAnswer : Bytes := frameBytes kindResponse .batchGet 1 [0x00, 0xff, 0xff, 0xff, 0xff]

/-- A put whose metadata ends with the declaration of `0xffff` tags. -/
def tagless : Bytes :=
  frameBytes kindRequest .put 1
    (field [97] ++ field [1] ++ toBytes 8 0 ++ toBytes 8 0 ++ [0] ++ toBytes 8 0 ++ [0xff, 0xff])

/-- Frames of 33, 29 and 61 bytes make the decoders reserve space for 4294967295 keys, 4294967295
items and 65535 tags, with no byte of the payload left. -/
theorem not_reservations_bounded :
    (emptyBatch.length = 33 ∧
      (decodeRequestFrameReserving emptyBatch 64).log = [⟨4294967295, 0⟩]) ∧
    (emptyAnswer.length = 29 ∧
      (decodeResponseFrameReserving emptyAnswer 64).log = [⟨4294967295, 0⟩]) ∧
    (tagless.length = 61 ∧ (decodeRequestFrameReserving tagless 64).log = [⟨65535, 0⟩]) ∧
    ¬ ∀ r ∈ (decodeRequestFrameReserving emptyBatch 64).log,
      r.count ≤ r.remaining ∧ r.count ≤ 64 := by
  decide +kernel

/-! ## What the allocator refuses -/

/-- Which numbers of elements the allocator can find room for. `Vec::with_capacity` of any other
number aborts the process. -/
abbrev Allocator := Nat → Bool

namespace Allocator

/-- The allocator can find room for all of the reservations. -/
def Serves (alloc : Allocator) (log : List Reservation) : Prop :=
  ∀ r ∈ log, alloc r.count = true

instance (alloc : Allocator) (log : List Reservation) : Decidable (alloc.Serves log) :=
  inferInstanceAs (Decidable (∀ r ∈ log, alloc r.count = true))

/-- What comes of a computation in a process with this allocator, or `none` if the process is
aborted. -/
def run {α : Type} (alloc : Allocator) (x : Logged Reservation DecodeError α) :
    Option (Except DecodeError α) :=
  if alloc.Serves x.log then some x.result else none

end Allocator

/-- `decode_request_frame` in a process with this allocator. -/
def decodeRequestFrameOn (alloc : Allocator) (input : Bytes) (maxPayloadLen : Nat) :
    Option (Except DecodeError RequestFrame) :=
  alloc.run (decodeRequestFrameReserving input maxPayloadLen)

/-- `decode_response_frame` in a process with this allocator. -/
def decodeResponseFrameOn (alloc : Allocator) (input : Bytes) (maxPayloadLen : Nat) :
    Option (Except DecodeError ResponseFrame) :=
  alloc.run (decodeResponseFrameReserving input maxPayloadLen)

section
variable {alloc : Allocator} {input : Bytes} {max : Nat}

theorem decodeRequestFrameOn_eq :
    decodeRequestFrameOn alloc input max =
      if alloc.Serves (decodeRequestFrameReserving input max).log then
        some (decodeRequestFrame input max)
      else none := by
  rw [decodeRequestFrameOn, Allocator.run,
    show (decodeRequestFrameReserving input max).result = decodeRequestFrame input max from
      result_decodeFrameReserving erases_decodeRequestPayload input max]

theorem decodeResponseFrameOn_eq :
    decodeResponseFrameOn alloc input max =
      if alloc.Serves (decodeResponseFrameReserving input max).log then
        some (decodeResponseFrame input max)
      else none := by
  rw [decodeResponseFrameOn, Allocator.run,
    show (decodeResponseFrameReserving input max).result = decodeResponseFrame input max from
      result_decodeFrameReserving erases_decodeResponsePayload input max]

/-- Counts that fit in the frame are at most the limit. -/
theorem serves_of_countsFit {α : Type} {kind : UInt8} {decodePayload : Command → Reserving α}
    {Front : Command → Bytes → Nat → Prop}
    (h : ∀ command, Records rest (decodePayload command) (DeclaredIn (Front command)))
    (halloc : ∀ count ≤ max, alloc count = true) (hfit : CountsFit kind Front input max) :
    alloc.Serves (decodeFrameReserving kind decodePayload input max).log :=
  fun r hr => halloc r.count ((countsFit_iff h input max).mpr hfit r hr).2

theorem serves_request (halloc : ∀ count ≤ max, alloc count = true)
    (hfit : CountsFit kindRequest RequestFront input max) :
    alloc.Serves (decodeRequestFrameReserving input max).log :=
  serves_of_countsFit records_decodeRequestPayload halloc hfit

theorem serves_response (halloc : ∀ count ≤ max, alloc count = true)
    (hfit : CountsFit kindResponse ResponseFront input max) :
    alloc.Serves (decodeResponseFrameReserving input max).log :=
  serves_of_countsFit records_decodeResponsePayload halloc hfit

end

/-- An allocator that has room for a million elements. -/
def millionElements : Allocator := fun count => decide (count ≤ 1000000)

end Protocol
end Cachebox
