import Cachebox.Protocol.Wire

/-!
# The response format

A response payload is a status byte and a body. Status `0x00` is shared by the empty payload and
the batch of items; the command of the header decides between them, so a response is expressible
when its command fits its payload. On these responses the encoder and the decoder are inverse to
each other.
-/

namespace Cachebox
namespace Protocol
open BigEndian Parser Cursor

namespace BatchItem

@[simp] def status : BatchItem → UInt8
  | hit _ => 0x01
  | stale _ => 0x02
  | miss => 0x03

@[simp] def body : BatchItem → Bytes
  | hit value | stale value => field value
  | miss => []

def wire (item : BatchItem) : Bytes := item.status :: item.body

theorem length_wire_pos (item : BatchItem) : 0 < item.wire.length := Nat.succ_pos _

end BatchItem

theorem writeBatchItem_eq (out : Bytes) (item : BatchItem) :
    writeBatchItem out item = out ++ item.wire := by
  cases item <;> simp [writeBatchItem, BatchItem.wire]

namespace ResponsePayload

@[simp] def status : ResponsePayload → UInt8
  | ok | batchGet _ => 0x00
  | hit _ => 0x01
  | stale _ => 0x02
  | miss => 0x03
  | stored _ => 0x04
  | deleted _ => 0x05
  | invalidated _ => 0x06
  | leaseGranted .. => 0x07
  | leaseDenied => 0x08
  | error .. => 0xff

@[simp] def body : ResponsePayload → Bytes
  | ok | miss | leaseDenied => []
  | hit value | stale value => field value
  | stored count | invalidated count => toBytes 4 count.toNat
  | deleted removed => [if removed then 1 else 0]
  | leaseGranted leaseToken staleValue =>
    field (Utf8.encode leaseToken) ++ [if staleValue.isSome then 1 else 0] ++
      staleValue.elim [] field
  | error code message => toBytes 2 code.id.toNat ++ field (Utf8.encode message)
  | batchGet items => toBytes 4 (UInt32.ofNat items.length).toNat ++ items.flatMap BatchItem.wire

/-- A batch answers a `BatchGet`, which the empty payload does not. -/
@[simp] def Answers (command : Command) : ResponsePayload → Prop
  | batchGet _ => command = .batchGet
  | ok => command ≠ .batchGet
  | _ => True

end ResponsePayload

theorem encodeResponsePayload_eq (payload : ResponsePayload) (out : Bytes) :
    encodeResponsePayload payload out = out ++ payload.status :: payload.body := by
  cases payload with
  | leaseGranted leaseToken staleValue =>
    cases staleValue <;> simp [encodeResponsePayload, writeBool]
  | _ =>
    simp [encodeResponsePayload, writeU16, writeU32, writeBool, foldl_write writeBatchItem_eq]

/-! ## The decoder decides the format -/

theorem parses_readBatchItem : Parses rest readBatchItem (fun item xs => xs = item.wire) := by
  refine (parses_readU8.bind (K := fun byte item xs =>
    BatchItem.status item = byte ∧ xs = BatchItem.body item) fun byte => ?_).congr
      fun item xs => by simp [BatchItem.wire]
  split
  · refine (parses_readBytes.bind fun value => Parses.pure _).congr fun item xs => ?_
    cases item <;> simp
  · refine (parses_readBytes.bind fun value => Parses.pure _).congr fun item xs => ?_
    cases item <;> simp
  · refine (Parses.pure BatchItem.miss).congr fun item xs => ?_
    cases item <;> simp
  next h1 h2 h3 =>
    refine (Parses.throw _).congr fun item xs => iff_of_false id ?_
    rintro ⟨hstatus, -⟩
    cases item with
    | hit => exact h1 hstatus.symm
    | stale => exact h2 hstatus.symm
    | miss => exact h3 hstatus.symm

theorem parses_readErrorCode :
    Parses rest readErrorCode (fun code xs => xs = toBytes 2 code.id.toNat) := by
  refine (parses_readU16.bind (K := fun word code xs => word = ErrorCode.id code ∧ xs = [])
    fun word => ?_).congr fun code xs => by simp
  split
  next code hcode =>
    refine (Parses.pure code).congr fun code' xs => ?_
    have hiff : code' = code ↔ word = code'.id := by
      rw [← ErrorCode.fromId_eq_ok_iff, hcode, Except.ok.injEq, eq_comm]
    rw [hiff]
  next e he =>
    refine (Parses.throw _).congr fun code xs => iff_of_false id ?_
    rintro ⟨hword, -⟩
    rw [ErrorCode.fromId_eq_ok_iff.mpr hword] at he
    cases he

theorem parses_readStaleValue : Parses rest readStaleValue
    (fun value xs => xs = [if value.isSome then 1 else 0] ++ value.elim [] field) := by
  refine (parses_readBool.bind (K := fun flag value xs =>
    flag = value.isSome ∧ xs = value.elim [] field) fun flag => ?_).congr fun value xs => by simp
  cases flag with
  | true =>
    refine (parses_readBytes.bind fun value => Parses.pure (some value)).congr fun value xs => ?_
    cases value <;> simp
  | false =>
    refine (Parses.pure none).congr fun value xs => ?_
    cases value <;> simp

theorem parses_decodeResponseBody (command : Command) (status : UInt8) :
    Parses rest (decodeResponseBody command status) (fun payload xs =>
      payload.status = status ∧ payload.Answers command ∧ xs = payload.body) := by
  unfold decodeResponseBody
  split
  · split
    next hcommand =>
      refine Parses.congr_of_length length_rest_lt (parses_readU32.bind fun itemCount =>
        (parses_readBatchItem.times_total itemCount.toNat).bind fun items => Parses.pure _)
        fun payload xs hxs => ?_
      constructor
      · intro h
        obtain ⟨itemCount, _, _, rfl, h, rfl⟩ := h
        obtain ⟨items, _, _, ⟨hlen, rfl⟩, ⟨rfl, rfl⟩, rfl⟩ := h
        exact ⟨rfl, hcommand, by simp [hlen]⟩
      · rintro ⟨hstatus, hanswers, rfl⟩
        cases payload with
        | batchGet items =>
          have hle := length_le_length_flatMap BatchItem.length_wire_pos items
          rw [ResponsePayload.body, List.length_append] at hxs
          have hlen := toNat_ofNat_length (show items.length < 2 ^ 32 by omega)
          refine ⟨_, _, _, rfl, ⟨items, _, _, ⟨hlen.symm, rfl⟩, ⟨rfl, rfl⟩, rfl⟩, ?_⟩
          rw [List.append_nil, ResponsePayload.body]
        | ok => exact absurd hcommand hanswers
        | _ => simp at hstatus
    next hcommand =>
      refine (Parses.pure _).congr fun payload xs => ?_
      cases payload <;> simp [hcommand]
  · refine (parses_readBytes.bind fun value => Parses.pure _).congr fun payload xs => ?_
    cases payload <;> simp
  · refine (parses_readBytes.bind fun value => Parses.pure _).congr fun payload xs => ?_
    cases payload <;> simp
  · refine (Parses.pure _).congr fun payload xs => ?_
    cases payload <;> simp
  · refine (parses_readU32.bind fun evicted => Parses.pure _).congr fun payload xs => ?_
    cases payload <;> simp
  · refine (parses_readBool.bind fun removed => Parses.pure _).congr fun payload xs => ?_
    cases payload <;> simp
  · refine (parses_readU32.bind fun removed => Parses.pure _).congr fun payload xs => ?_
    cases payload <;> simp
  · refine (parses_readString.bind fun leaseToken => parses_readStaleValue.bind fun staleValue =>
      Parses.pure _).congr fun payload xs => ?_
    cases payload <;> simp
  · refine (Parses.pure _).congr fun payload xs => ?_
    cases payload <;> simp
  · refine (parses_readErrorCode.bind fun code => parses_readString.bind fun message =>
      Parses.pure _).congr fun payload xs => ?_
    cases payload <;> simp
  next h0 h1 h2 h3 h4 h5 h6 h7 h8 hff =>
    refine (Parses.throw _).congr fun payload xs => iff_of_false id ?_
    rintro ⟨hstatus, -⟩
    cases payload with
    | ok | batchGet => exact h0 hstatus.symm
    | hit => exact h1 hstatus.symm
    | stale => exact h2 hstatus.symm
    | miss => exact h3 hstatus.symm
    | stored => exact h4 hstatus.symm
    | deleted => exact h5 hstatus.symm
    | invalidated => exact h6 hstatus.symm
    | leaseGranted => exact h7 hstatus.symm
    | leaseDenied => exact h8 hstatus.symm
    | error => exact hff hstatus.symm

theorem parses_decodeResponsePayload (command : Command) :
    Parses rest (decodeResponsePayload command) (fun payload xs =>
      payload.Answers command ∧ xs = payload.status :: payload.body) := by
  refine (parses_readU8.bind fun status =>
    parses_decodeResponseBody command status).congr fun payload xs => ?_
  simp

/-! ## Round trip -/

theorem encodeResponseFrame_eq (f : ResponseFrame) :
    encodeResponseFrame f = if (f.payload.status :: f.payload.body).length < 2 ^ 32 then
      some (frameBytes kindResponse f.command f.requestId (f.payload.status :: f.payload.body))
    else none := by
  rw [encodeResponseFrame, encodeResponseFrameInto,
    encodeFrameInto_eq (encodeResponsePayload_eq f.payload)]

/-- The encoding of a response is one frame, which decodes to the response. -/
theorem decodeResponseFrame_encodeResponseFrame {f : ResponseFrame}
    (hanswers : f.payload.Answers f.command)
    (hlt : (encodeResponsePayload f.payload []).length < 2 ^ 32) :
    ∃ bytes, encodeResponseFrame f = some bytes ∧ bytes.length = headerLen + payloadLen bytes ∧
      ∀ max, payloadLen bytes ≤ max → decodeResponseFrame bytes max = .ok f := by
  rw [encodeResponsePayload_eq, List.nil_append] at hlt
  have hpayload := payloadLen_frameBytes kindResponse f.command f.requestId hlt []
  rw [List.append_nil] at hpayload
  refine ⟨_, by rw [encodeResponseFrame_eq, if_pos hlt], ?_, fun max hmax => ?_⟩
  · rw [hpayload, length_frameBytes]
  · rw [hpayload] at hmax
    rw [decodeResponseFrame, decodeFrame_eq_ok_iff parses_decodeResponsePayload]
    exact ⟨_, [], (List.append_nil _).symm, hmax, hlt, hanswers, rfl⟩

/-- The response decoder inverts the encoder on the responses that answer their command, whatever
follows the frame, and what it accepts is the encoding of what it returns. -/
theorem responseFrame_bijection (f : ResponseFrame) (max : Nat) :
    (f.payload.Answers f.command → (encodeResponsePayload f.payload []).length < 2 ^ 32 →
      (encodeResponsePayload f.payload []).length ≤ max →
      ∃ bytes, encodeResponseFrame f = some bytes ∧
        ∀ suffix, decodeResponseFrame (bytes ++ suffix) max = .ok f) ∧
    (∀ input, decodeResponseFrame input max = .ok f →
      f.payload.Answers f.command ∧ headerLen + payloadLen input ≤ input.length ∧
        encodeResponseFrame f = some (input.take (headerLen + payloadLen input))) := by
  rw [encodeResponsePayload_eq, List.nil_append]
  constructor
  · intro hanswers hlt hmax
    refine ⟨_, by rw [encodeResponseFrame_eq, if_pos hlt], fun suffix => ?_⟩
    rw [decodeResponseFrame, decodeFrame_eq_ok_iff parses_decodeResponsePayload]
    exact ⟨_, suffix, rfl, hmax, hlt, hanswers, rfl⟩
  · intro input h
    rw [decodeResponseFrame, decodeFrame_eq_ok_iff parses_decodeResponsePayload] at h
    obtain ⟨-, suffix, rfl, hmax, hlt, hanswers, rfl⟩ := h
    rw [payloadLen_frameBytes _ _ _ hlt, encodeResponseFrame_eq, if_pos hlt,
      List.take_left' (length_frameBytes ..), List.length_append, length_frameBytes]
    exact ⟨hanswers, Nat.le_add_right .., rfl⟩

def batchAnswer : ResponseFrame :=
  { requestId := 9, command := .batchGet, payload := .batchGet [.hit [1, 2], .miss, .stale []] }

theorem responseFrame_bijection_batchAnswer :
    ∃ bytes, encodeResponseFrame batchAnswer = some bytes ∧
      (∀ suffix, decodeResponseFrame (bytes ++ suffix) 64 = .ok batchAnswer) ∧
      encodeResponseFrame batchAnswer = some (bytes.take (headerLen + payloadLen bytes)) := by
  obtain ⟨hdecode, hencode⟩ := responseFrame_bijection batchAnswer 64
  obtain ⟨bytes, hbytes, h⟩ := hdecode rfl (by decide +kernel) (by decide +kernel)
  have hself := h []
  rw [List.append_nil] at hself
  exact ⟨bytes, hbytes, h, (hencode bytes hself).2.2⟩

end Protocol
end Cachebox
