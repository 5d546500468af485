import Cachebox.Protocol.Request
import Cachebox.Protocol.Response
import Cachebox.Python.Protocol

/-!
# The two codecs conform

`toPython` takes the values of the Rust codec to those of the Python codec. The Python readers
simulate the Rust ones: on the same bytes both fail, with errors of one class, or give corresponding
values.
-/

namespace Cachebox
open Parser

namespace Protocol

def Command.toPython : Command → Python.Command
  | get => .get
  | put => .put
  | delete => .delete
  | batchGet => .batchGet
  | tagInvalidate => .tagInvalidate
  | leaseStart => .leaseStart
  | leaseComplete => .leaseComplete

def ContentType.toPython : ContentType → Python.ContentType
  | octetStream => .octetStream
  | other => .other

def ErrorCode.toPython : ErrorCode → Python.ErrorCode
  | badFrame => .badFrame
  | unsupportedVersion => .unsupportedVersion
  | unknownCommand => .unknownCommand
  | invalidNamespace => .invalidNamespace
  | invalidTag => .invalidTag
  | invalidTtl => .invalidTtl
  | valueTooLarge => .valueTooLarge
  | entryTooLarge => .entryTooLarge
  | insufficientMemory => .insufficientMemory
  | invalidLeaseToken => .invalidLeaseToken
  | frameTooLarge => .frameTooLarge

/-- The class that an error of the Rust decoder has in the Python one. -/
def DecodeError.cls : DecodeError → Python.ErrorClass
  | incompleteHeader => .incompleteHeader
  | badMagic => .badMagic
  | unsupportedVersion _ => .unsupportedVersion
  | invalidKind _ => .invalidKind
  | unknownCommand _ => .unknownCommand
  | nonzeroFlags _ => .nonzeroFlags
  | nonzeroReserved _ => .nonzeroReserved
  | frameTooLarge .. => .frameTooLarge
  | truncatedPayload .. => .truncatedPayload
  | invalidPayload _ => .invalidPayload
  | invalidUtf8 => .invalidUtf8
  | invalidNamespace => .invalidNamespace
  | invalidTag => .invalidTag
  | invalidBool _ => .invalidBool
  | trailingBytes _ => .trailingBytes

def intOf (value : UInt64) : Int := value.toNat

def Metadata.toPython (metadata : Metadata) : Python.Metadata where
  ttl := metadata.ttl.map fun ttl => ⟨intOf ttl.milliseconds⟩
  staleTtl := metadata.staleTtl.map fun ttl => ⟨intOf ttl.milliseconds⟩
  cost := metadata.cost.map intOf
  tags := metadata.tags
  contentType := metadata.contentType.toPython

def RequestPayload.toPython : RequestPayload → Python.RequestPayload
  | get ns key => .get ns key
  | put ns key metadata value => .put ns key metadata.toPython value
  | delete ns key => .delete ns key
  | batchGet ns keys => .batchGet ns keys
  | tagInvalidate ns tag => .tagInvalidate ns tag
  | leaseStart ns key leaseTtlMs allowStaleMs =>
    .leaseStart ns key (intOf leaseTtlMs) (allowStaleMs.map intOf)
  | leaseComplete ns key leaseToken metadata value =>
    .leaseComplete ns key leaseToken metadata.toPython value

def BatchItem.toPython : BatchItem → Python.BatchItem
  | hit value => ⟨"hit", some value⟩
  | stale value => ⟨"stale", some value⟩
  | miss => ⟨"miss", none⟩

def ResponsePayload.toPython : ResponsePayload → Python.ResponsePayload
  | ok => .ok
  | hit value => .hit value
  | stale value => .stale value
  | miss => .miss
  | stored evicted => .stored evicted.toNat
  | deleted removed => .deleted removed
  | invalidated removed => .invalidated removed.toNat
  | leaseGranted leaseToken staleValue => .leaseGranted leaseToken staleValue
  | leaseDenied => .leaseDenied
  | error code message => .error code.toPython message
  | batchGet items => .batchGetResult (items.map BatchItem.toPython)

def Frame.toPython {α α' : Type} (f : α → α') (frame : Frame α) : Python.Frame α' where
  requestId := intOf frame.requestId
  command := frame.command.toPython
  payload := f frame.payload

/-! Different values of the Rust codec are different in Python. -/

theorem intOf_injective : Function.Injective intOf :=
  fun _ _ h => UInt64.toNat_inj.mp (Int.ofNat.inj h)

theorem Command.toPython_injective : Function.Injective Command.toPython := by
  intro a b h
  cases a <;> cases b <;> first | rfl | cases h

theorem ContentType.toPython_injective : Function.Injective ContentType.toPython := by
  intro a b h
  cases a <;> cases b <;> first | rfl | cases h

theorem ErrorCode.toPython_injective : Function.Injective ErrorCode.toPython := by
  intro a b h
  cases a <;> cases b <;> first | rfl | cases h

theorem Metadata.toPython_injective : Function.Injective Metadata.toPython := by
  have httl : Function.Injective fun ttl : Ttl => (⟨intOf ttl.milliseconds⟩ : Python.Ttl) := by
    rintro ⟨a⟩ ⟨b⟩ h
    exact congrArg Ttl.mk (intOf_injective (Python.Ttl.mk.inj h))
  rintro ⟨ttl, staleTtl, cost, tags, contentType⟩ ⟨ttl', staleTtl', cost', tags', contentType'⟩ h
  injection h with h1 h2 h3 h4 h5
  obtain rfl : ttl = ttl' := Option.map_injective httl h1
  obtain rfl : staleTtl = staleTtl' := Option.map_injective httl h2
  obtain rfl : cost = cost' := Option.map_injective intOf_injective h3
  obtain rfl : tags = tags' := h4
  obtain rfl : contentType = contentType' := ContentType.toPython_injective h5
  rfl

theorem RequestPayload.toPython_injective : Function.Injective RequestPayload.toPython := by
  intro a b h
  cases a with
  | get | delete | batchGet | tagInvalidate =>
    cases b <;> cases h
    rfl
  | put =>
    cases b with
    | put =>
      injection h with h1 h2 h3 h4
      rw [h1, h2, Metadata.toPython_injective h3, h4]
    | _ => cases h
  | leaseStart =>
    cases b with
    | leaseStart =>
      injection h with h1 h2 h3 h4
      rw [h1, h2, intOf_injective h3, Option.map_injective intOf_injective h4]
    | _ => cases h
  | leaseComplete =>
    cases b with
    | leaseComplete =>
      injection h with h1 h2 h3 h4 h5
      rw [h1, h2, h3, Metadata.toPython_injective h4, h5]
    | _ => cases h

theorem BatchItem.toPython_injective : Function.Injective BatchItem.toPython := by
  intro a b h
  cases a <;> cases b <;> first | rfl | (injection h with hstate hvalue; simp_all)

theorem ResponsePayload.toPython_injective : Function.Injective ResponsePayload.toPython := by
  have hcount : ∀ a b : UInt32, (a.toNat : Int) = b.toNat → a = b := fun a b h =>
    UInt32.toNat_inj.mp (Int.ofNat.inj h)
  intro a b h
  cases a with
  | stored =>
    cases b with
    | stored => rw [hcount _ _ (Python.ResponsePayload.stored.inj h)]
    | _ => cases h
  | invalidated =>
    cases b with
    | invalidated => rw [hcount _ _ (Python.ResponsePayload.invalidated.inj h)]
    | _ => cases h
  | error =>
    cases b with
    | error =>
      injection h with h1 h2
      rw [ErrorCode.toPython_injective h1, h2]
    | _ => cases h
  | batchGet =>
    cases b with
    | batchGet =>
      injection h with h1
      rw [List.map_injective_iff.mpr BatchItem.toPython_injective h1]
    | _ => cases h
  | _ =>
    cases b <;> cases h
    rfl

theorem Frame.toPython_injective {α α' : Type} {f : α → α'} (hf : Function.Injective f) :
    Function.Injective (Frame.toPython f) := by
  rintro ⟨requestId, command, payload⟩ ⟨requestId', command', payload'⟩ h
  injection h with h1 h2 h3
  obtain rfl : requestId = requestId' := intOf_injective h1
  obtain rfl : command = command' := Command.toPython_injective h2
  obtain rfl : payload = payload' := hf h3
  rfl

end Protocol

namespace Python
open Protocol (intOf)

/-! ## The readers -/

structure SameCursor (cursor : Protocol.Cursor) (cursor' : Cursor) : Prop where
  data : cursor'.data = cursor.input
  offset : cursor'.offset = cursor.offset

def SameClass (e : Protocol.DecodeError) (e' : DecodeError) : Prop := e'.cls = e.cls

/-- The Python reader does what the Rust one does, with `f` between their values. -/
abbrev Conforms {α α' : Type} (f : α → α') (p : Protocol.Reader α) (q : Reader α') : Prop :=
  Simulates SameCursor SameClass f p q

theorem conforms_readExact {len : Nat} (hlen : len < 2 ^ 32) :
    Conforms id (Protocol.Cursor.readExact len) (Cursor.readExact len) := by
  rintro cursor ⟨data, offset⟩ ⟨rfl, rfl⟩
  have hlt := cursor.length_lt
  have hoffset := cursor.offset_le
  simp only [Protocol.Cursor.readExact, Cursor.readExact]
  rw [if_neg (by simp only [usizeMax]; omega)]
  split
  · exact .error rfl
  · exact .ok ⟨rfl, rfl, rfl⟩

theorem conforms_readU8 : Conforms UInt8.toNat Protocol.Cursor.readU8 Cursor.readU8 := by
  rintro cursor ⟨data, offset⟩ ⟨rfl, rfl⟩
  unfold Protocol.Cursor.readU8 Cursor.readU8
  split
  next hlt =>
    have hread : Cursor.readExact 1 ⟨cursor.input, cursor.offset⟩ =
        .ok ([cursor.input.get ⟨cursor.offset, hlt⟩], ⟨cursor.input, cursor.offset + 1⟩) := by
      simp only [Cursor.readExact]
      rw [if_neg (by omega), List.extract_eq_take_drop, Nat.add_sub_cancel_left,
        List.drop_eq_getElem_cons hlt]
      rfl
    change Agree _ _ _ (Cursor.readExact 1 _ >>= _)
    rw [hread]
    exact .ok ⟨rfl, rfl, rfl⟩
  next hlt =>
    have hread : Cursor.readExact 1 ⟨cursor.input, cursor.offset⟩ =
        .error ⟨.invalidPayload, "truncated field"⟩ := by
      simp only [Cursor.readExact]
      rw [if_pos (by omega)]
    change Agree _ _ _ (Cursor.readExact 1 _ >>= _)
    rw [hread]
    exact .error rfl

/-- The bytes of a fixed-width integer are below its range, so the cast of the Rust reader keeps
their value. -/
theorem conforms_word {ω : Type} {width : Nat} (W : BigEndian.Word ω width)
    (hwidth : width < 2 ^ 32) : Conforms W.toNat
      (do let bytes ← Protocol.Cursor.readExact width; return W.ofNat (BigEndian.ofBytes bytes))
      (Cursor.readInt width) := by
  intro cursor cursor' h
  refine ((conforms_readExact hwidth cursor cursor' h).and_of_ok
    (P := fun r => r.1.length = width) fun r hr => ?_).bind fun ⟨value, t⟩ ⟨value', t'⟩ hr => ?_
  · obtain ⟨_, _, hlen, rfl⟩ := (Protocol.Cursor.parses_readExact width).sound hr
    exact hlen
  · obtain ⟨⟨rfl, ht⟩, rfl⟩ := hr
    refine .ok ⟨?_, ht⟩
    exact (W.toNat_ofNat _ (BigEndian.ofBytes_lt _)).symm

theorem conforms_readU16 : Conforms UInt16.toNat Protocol.Cursor.readU16 Cursor.readU16 :=
  conforms_word BigEndian.word16 (by decide)

theorem conforms_readU32 : Conforms UInt32.toNat Protocol.Cursor.readU32 Cursor.readU32 :=
  conforms_word BigEndian.word32 (by decide)

theorem conforms_readU64 : Conforms UInt64.toNat Protocol.Cursor.readU64 Cursor.readU64 :=
  conforms_word BigEndian.word64 (by decide)

theorem conforms_readBytes : Conforms id Protocol.Cursor.readBytes Cursor.readBytes :=
  conforms_readU32.bind fun len => conforms_readExact len.toNat_lt

theorem conforms_readString : Conforms id Protocol.Cursor.readString Cursor.readString := by
  refine conforms_readBytes.bind fun value => ?_
  rw [id]
  cases Utf8.decode value with
  | some => exact .pure rfl
  | none => exact .throw rfl

theorem toNat_ne {byte : UInt8} (n : Nat) (h : byte = UInt8.ofNat n → False) : byte.toNat ≠ n := by
  intro hn
  apply h
  rw [← hn, UInt8.ofNat_toNat]

theorem conforms_readBool : Conforms id Protocol.Cursor.readBool Cursor.readBool := by
  refine conforms_readU8.bind fun byte => ?_
  split
  · exact .pure rfl
  · exact .pure rfl
  next h0 h1 =>
    rw [if_neg (toNat_ne 0 h0), if_neg (toNat_ne 1 h1)]
    exact .throw rfl

/-! ## Names -/

theorem isValidNamespace_eq (ns : String) : Protocol.isValidNamespace ns =
    (!ns.isEmpty && ns.toList.all (allowedChar namespaceChars)) := by
  have hall : (Utf8.encode ns).all (fun byte =>
      Protocol.isAsciiAlphanumeric byte || byte == 0x2d || byte == 0x5f) =
      ns.toList.all (allowedChar namespaceChars) := by
    refine Utf8.all_encode (Q := fun char => char.isAlphanum || char ∈ namespaceChars) ?_ ?_ ns
    · decide
    · decide
  rw [Protocol.isValidNamespace, hall]

theorem isValidTag_eq (tag : String) : Protocol.isValidTag tag =
    (!tag.isEmpty && tag.toList.all (allowedChar tagChars)) := by
  have hall : (Utf8.encode tag).all (fun byte =>
      Protocol.isAsciiAlphanumeric byte || byte ∈ [0x2d, 0x5f, 0x3a, 0x2e, 0x2f]) =
      tag.toList.all (allowedChar tagChars) := by
    refine Utf8.all_encode (Q := fun char => char.isAlphanum || char ∈ tagChars) ?_ ?_ tag
    · decide
    · decide
  rw [Protocol.isValidTag, hall]

theorem conforms_readNamespace : Conforms id Protocol.readNamespace readNamespace :=
  conforms_readString.bind fun ns => .check (isValidNamespace_eq ns).symm rfl (.pure rfl)

theorem conforms_readTag : Conforms id Protocol.readTag readTag :=
  conforms_readString.bind fun tag => .check (isValidTag_eq tag).symm rfl (.pure rfl)

/-! ## Requests -/

theorem readOptional_eq {α : Type} (make : UInt64 → α) : Protocol.readOptional make =
    (fun word => if word = 0 then none else some (make word)) <$> Protocol.Cursor.readU64 := by
  rw [← bind_pure_comp]
  unfold Protocol.readOptional
  congr 1
  funext word
  split
  · rfl
  next h => rw [if_neg h]

theorem conforms_readCost : Conforms (Option.map intOf) Protocol.readCost readCost := by
  refine conforms_readBool.bind fun hasCost => ?_
  cases hasCost with
  | true => exact conforms_readU64.bind fun cost => .pure rfl
  | false => exact conforms_readU64.bind fun _ => .pure rfl

theorem conforms_readContentType :
    Conforms Protocol.ContentType.toPython Protocol.readContentType readContentType := by
  refine conforms_readU8.bind fun byte => ?_
  split
  · exact .pure rfl
  · exact .pure rfl
  next h0 h1 =>
    have hnone : ContentType.ofValue byte.toNat = none := by
      unfold ContentType.ofValue
      split
      next h => exact absurd h (toNat_ne 0 h0)
      next h => exact absurd h (toNat_ne 1 h1)
      next => rfl
    rw [hnone]
    exact .throw rfl

theorem toNat_eq_zero_iff {word : UInt64} : word.toNat = 0 ↔ word = 0 := by
  change word.toNat = (0 : UInt64).toNat ↔ word = 0
  exact UInt64.toNat_inj

theorem ttlOf_toNat (word : UInt64) : ttlOf word.toNat =
    (if word = 0 then none else some (⟨word⟩ : Cachebox.Ttl)).map
      fun ttl => ⟨intOf ttl.milliseconds⟩ := by
  simp only [ttlOf, toNat_eq_zero_iff]
  split <;> rfl

theorem conforms_readMetadata :
    Conforms Protocol.Metadata.toPython Protocol.readMetadata readMetadata := by
  unfold Protocol.readMetadata Protocol.readTtl
  simp only [readOptional_eq, bind_map_left]
  refine conforms_readU64.bind fun ttl => conforms_readU64.bind fun staleTtl =>
    conforms_readCost.bind fun cost => conforms_readU16.bind fun tagCount =>
    (conforms_readTag.times tagCount.toNat).bind fun tags =>
    conforms_readContentType.bind fun contentType => .pure ?_
  rw [List.map_id, Protocol.Metadata.toPython, ttlOf_toNat, ttlOf_toNat]

theorem conforms_decodeRequestPayload (command : Protocol.Command) :
    Conforms Protocol.RequestPayload.toPython (Protocol.decodeRequestPayload command)
      (decodeRequestPayload command.toPython) := by
  cases command with
  | get | delete =>
    exact conforms_readNamespace.bind fun ns => conforms_readBytes.bind fun key => .pure rfl
  | put =>
    exact conforms_readNamespace.bind fun ns => conforms_readBytes.bind fun key =>
      conforms_readMetadata.bind fun metadata => conforms_readBytes.bind fun value => .pure rfl
  | batchGet =>
    refine conforms_readNamespace.bind fun ns => conforms_readU32.bind fun keyCount =>
      .check ?_ rfl <| (conforms_readBytes.times keyCount.toNat).bind fun keys => .pure ?_
    · rw [Bool.eq_iff_iff]
      simp [← UInt32.toNat_inj]
    · rw [List.map_id]
      rfl
  | tagInvalidate =>
    exact conforms_readNamespace.bind fun ns => conforms_readTag.bind fun tag => .pure rfl
  | leaseStart =>
    unfold Protocol.decodeRequestPayload Protocol.readAllowStaleMs
    simp only [readOptional_eq, bind_map_left]
    refine conforms_readNamespace.bind fun ns => conforms_readBytes.bind fun key =>
      conforms_readU64.bind fun leaseTtlMs => .check ?_ rfl <|
      conforms_readU64.bind fun allowStaleMs => .pure ?_
    · rw [Bool.eq_iff_iff]
      simp [← UInt64.toNat_inj]
    · simp only [toNat_eq_zero_iff, Protocol.RequestPayload.toPython]
      split <;> rfl
  | leaseComplete =>
    exact conforms_readNamespace.bind fun ns => conforms_readBytes.bind fun key =>
      conforms_readString.bind fun leaseToken => .check rfl rfl <|
      conforms_readMetadata.bind fun metadata => conforms_readBytes.bind fun value => .pure rfl

/-! ## Responses -/

theorem conforms_readBatchItem :
    Conforms Protocol.BatchItem.toPython Protocol.readBatchItem readBatchItem := by
  refine conforms_readU8.bind fun byte => ?_
  split
  · exact conforms_readBytes.bind fun value => .pure rfl
  · exact conforms_readBytes.bind fun value => .pure rfl
  · exact .pure rfl
  next h1 h2 h3 =>
    rw [if_neg (toNat_ne 1 h1), if_neg (toNat_ne 2 h2), if_neg (toNat_ne 3 h3)]
    exact .throw rfl

theorem ErrorCode.ofValue_toNat (id : UInt16) : ErrorCode.ofValue id.toNat =
    (Protocol.ErrorCode.fromId id).toOption.map Protocol.ErrorCode.toPython := by
  unfold Protocol.ErrorCode.fromId
  split
  all_goals try rfl
  unfold ErrorCode.ofValue
  split
  all_goals simp_all [← UInt16.toNat_inj, Except.toOption]

theorem conforms_readErrorCode :
    Conforms Protocol.ErrorCode.toPython Protocol.readErrorCode readErrorCode := by
  refine conforms_readU16.bind fun id => ?_
  rw [ErrorCode.ofValue_toNat]
  cases h : Protocol.ErrorCode.fromId id with
  | ok code => exact .pure rfl
  | error e =>
    refine .throw ?_
    unfold Protocol.ErrorCode.fromId at h
    split at h
    all_goals cases h
    rfl

theorem conforms_readStaleValue : Conforms id Protocol.readStaleValue readStaleValue := by
  refine conforms_readBool.bind fun hasStale => ?_
  cases hasStale with
  | true => exact conforms_readBytes.bind fun value => .pure rfl
  | false => exact .pure rfl

theorem toPython_eq_batchGet_iff {command : Protocol.Command} :
    command.toPython = .batchGet ↔ command = .batchGet := by
  cases command <;> simp [Protocol.Command.toPython]

theorem conforms_decodeResponseBody (command : Protocol.Command) (status : UInt8) :
    Conforms Protocol.ResponsePayload.toPython (Protocol.decodeResponseBody command status)
      (decodeResponseBody command.toPython status.toNat) := by
  unfold Protocol.decodeResponseBody
  split
  · split
    next h =>
      have hbatch : (0 : UInt8).toNat = 0 ∧ command.toPython = .batchGet :=
        ⟨rfl, toPython_eq_batchGet_iff.mpr h⟩
      rw [decodeResponseBody, if_pos hbatch]
      exact conforms_readU32.bind fun itemCount =>
        (conforms_readBatchItem.times itemCount.toNat).bind fun items => .pure rfl
    next h =>
      rw [decodeResponseBody, if_neg fun hbatch => h (toPython_eq_batchGet_iff.mp hbatch.2)]
      exact .pure rfl
  · exact conforms_readBytes.bind fun value => .pure rfl
  · exact conforms_readBytes.bind fun value => .pure rfl
  · exact .pure rfl
  · exact conforms_readU32.bind fun evicted => .pure rfl
  · exact conforms_readBool.bind fun removed => .pure rfl
  · exact conforms_readU32.bind fun removed => .pure rfl
  · exact conforms_readString.bind fun leaseToken =>
      conforms_readStaleValue.bind fun staleValue => .pure rfl
  · exact .pure rfl
  · exact conforms_readErrorCode.bind fun code => conforms_readString.bind fun message => .pure rfl
  next h0 h1 h2 h3 h4 h5 h6 h7 h8 hff =>
    rw [decodeResponseBody, if_neg fun h => toNat_ne 0 h0 h.1, if_neg (toNat_ne 0 h0),
      if_neg (toNat_ne 1 h1), if_neg (toNat_ne 2 h2), if_neg (toNat_ne 3 h3),
      if_neg (toNat_ne 4 h4), if_neg (toNat_ne 5 h5), if_neg (toNat_ne 6 h6),
      if_neg (toNat_ne 7 h7), if_neg (toNat_ne 8 h8), if_neg (toNat_ne 255 hff),
      if_neg (toNat_ne 0 h0)]
    exact .throw rfl

theorem conforms_decodeResponsePayload (command : Protocol.Command) :
    Conforms Protocol.ResponsePayload.toPython (Protocol.decodeResponsePayload command)
      (decodeResponsePayload command.toPython) :=
  conforms_readU8.bind fun status => conforms_decodeResponseBody command status

end Python
end Cachebox
