import Cachebox.Python.Conformance

/-!
# What the Python encoders write

On values of the Rust codec the Python encoders write the wire format of `Cachebox.Protocol`. Where
the Rust encoder cuts a length to 32 bits and panics at the end, the Python encoder fails at once,
so its writers are compared under the assumption that they fail only in a payload of `2 ^ 32` bytes
or more.
-/

namespace Cachebox
namespace Python
open BigEndian
open Protocol (intOf field length_field)

/-- The encoder gives `out`, or it fails and the payload, which has `total` bytes, is too long. -/
def Writes (total : Nat) (x : Except EncodeError Bytes) (out : Bytes) : Prop :=
  x = .ok out ∨ (∃ e, x = .error e) ∧ 2 ^ 32 ≤ total

variable {total : Nat} {x : Except EncodeError Bytes} {out : Bytes}

theorem Writes.bind {k : Bytes → Except EncodeError Bytes} {out' : Bytes}
    (hx : Writes total x out) (hk : Writes total (k out) out') : Writes total (x >>= k) out' := by
  obtain rfl | ⟨⟨e, rfl⟩, htotal⟩ := hx
  · exact hk
  · exact .inr ⟨⟨e, rfl⟩, htotal⟩

theorem toBytes_eq {value width : Nat} (h : value < 256 ^ width) :
    toBytes (value : Int) width = .ok (BigEndian.toBytes width value) := by
  have hrange : (0 : Int) ≤ value ∧ (value : Int) < 256 ^ width :=
    ⟨Int.natCast_nonneg value, by exact_mod_cast h⟩
  rw [toBytes, if_pos hrange, Int.toNat_natCast]

theorem toBytes_error {value width : Nat} (h : 256 ^ width ≤ value) :
    toBytes (value : Int) width = .error .overflowError := by
  have hrange : ¬((0 : Int) ≤ value ∧ (value : Int) < 256 ^ width) := by
    rintro ⟨-, hlt⟩
    have hlt : value < 256 ^ width := by exact_mod_cast hlt
    omega
  rw [toBytes, if_neg hrange]

theorem writes_u64 (value : UInt64) :
    Writes total (u64 (intOf value)) (BigEndian.toBytes 8 value.toNat) :=
  .inl (toBytes_eq value.toNat_lt)

theorem writes_u32 (value : UInt32) :
    Writes total (u32 value.toNat) (BigEndian.toBytes 4 value.toNat) :=
  .inl (toBytes_eq value.toNat_lt)

/-- A length or count that the payload has as many bytes as. -/
theorem writes_length {n : Nat} (h : n ≤ total) :
    Writes total (u32 n) (BigEndian.toBytes 4 (UInt32.ofNat n).toNat) := by
  by_cases hn : n < 2 ^ 32
  · have hnat : (UInt32.ofNat n).toNat = n := word32.toNat_ofNat n hn
    rw [hnat]
    exact .inl (toBytes_eq hn)
  · exact .inr ⟨⟨_, toBytes_error (by omega)⟩, by omega⟩

theorem writes_bytes {value : Bytes} (h : value.length ≤ total) :
    Writes total (bytes value) (field value) :=
  (writes_length h).bind (.inl rfl)

theorem writes_string {value : String} (h : (Utf8.encode value).length ≤ total) :
    Writes total (string value) (field (Utf8.encode value)) :=
  writes_bytes h

theorem writes_bool (value : Bool) : Writes total (bool value) [if value then 1 else 0] := by
  cases value <;> exact .inl rfl

theorem writes_joined {α : Type} {encode : α → Except EncodeError Bytes} {wire : α → Bytes}
    {as : List α} (h : ∀ a ∈ as, Writes total (encode a) (wire a)) :
    Writes total (joined encode as) (as.flatMap wire) := by
  induction as with
  | nil => exact .inl rfl
  | cons a as ih =>
    rw [List.forall_mem_cons] at h
    exact h.1.bind ((ih h.2).bind (.inl rfl))

theorem joined_map {α β : Type} (encode : β → Except EncodeError Bytes) (f : α → β)
    (as : List α) : joined encode (as.map f) = joined (fun a => encode (f a)) as := by
  induction as with
  | nil => rfl
  | cons a as ih => rw [List.map_cons, joined, ih, joined]

theorem elim_toPython (ttl : Option Cachebox.Ttl) :
    (ttl.map fun ttl => (⟨intOf ttl.milliseconds⟩ : Ttl)).elim 0 Ttl.milliseconds =
      intOf (ttl.elim 0 Cachebox.Ttl.milliseconds) := by
  cases ttl <;> rfl

theorem getD_map_intOf (value : Option UInt64) :
    (value.map intOf).getD 0 = intOf (value.getD 0) := by
  cases value <;> rfl

theorem writes_contentType (contentType : Protocol.ContentType) :
    Writes total (u8 contentType.toPython.value) [contentType.byte] := by
  cases contentType <;> exact .inl rfl

theorem writes_metadata {m : Protocol.Metadata} (htags : m.tags.length ≤ 65535)
    (hlen : (m.wire 0).length ≤ total) : Writes total (metadata m.toPython) (m.wire 0) := by
  have hcount : (UInt16.ofNat m.tags.length).toNat = m.tags.length :=
    word16.toNat_ofNat _ (Nat.lt_succ_of_le htags)
  have hjoined : Writes total (joined string m.tags)
      (m.tags.flatMap fun tag => field (Utf8.encode tag)) := by
    refine writes_joined fun tag htag => writes_string ?_
    have hle := Protocol.length_field_le_flatMap Utf8.encode htag
    simp only [Protocol.Metadata.wire, List.length_append] at hlen
    omega
  simp only [metadata, Protocol.Metadata.toPython, elim_toPython, getD_map_intOf,
    Option.isSome_map]
  refine (writes_u64 _).bind ((writes_u64 _).bind ((writes_bool _).bind ((writes_u64 _).bind
    (Writes.bind (.inl (toBytes_eq (Nat.lt_succ_of_le htags))) (hjoined.bind
      ((writes_contentType _).bind (.inl ?_)))))))
  rw [Protocol.Metadata.wire, hcount]
  rfl

theorem writes_requestPayload {payload : Protocol.RequestPayload} (hpayload : payload.WellFormed)
    (hlen : (payload.wire 0).length ≤ total) :
    Writes total (encodeRequestPayload payload.toPython) (payload.wire 0) := by
  cases payload with
  | get ns key | delete ns key =>
    simp only [Protocol.RequestPayload.wire, List.length_append, length_field] at hlen
    exact (writes_string (by omega)).bind ((writes_bytes (by omega)).bind (.inl rfl))
  | put ns key data value =>
    simp only [Protocol.RequestPayload.wire, List.length_append, length_field] at hlen
    exact (writes_string (by omega)).bind ((writes_bytes (by omega)).bind
      ((writes_metadata hpayload.2.tags_length (by omega)).bind
        ((writes_bytes (by omega)).bind (.inl rfl))))
  | batchGet ns keys =>
    have hcount := Protocol.length_le_length_flatMap Protocol.length_field_pos keys
    simp only [Protocol.RequestPayload.wire, List.length_append, length_field] at hlen
    have hjoined : Writes total (joined bytes keys) (keys.flatMap field) := by
      refine writes_joined fun key hkey => writes_bytes ?_
      have hle : key.length ≤ (keys.flatMap field).length :=
        Protocol.length_field_le_flatMap id hkey
      omega
    exact (writes_string (by omega)).bind
      ((writes_length (by omega)).bind (hjoined.bind (.inl rfl)))
  | tagInvalidate ns tag =>
    simp only [Protocol.RequestPayload.wire, List.length_append, length_field] at hlen
    exact (writes_string (by omega)).bind ((writes_string (by omega)).bind (.inl rfl))
  | leaseStart ns key leaseTtlMs allowStaleMs =>
    simp only [Protocol.RequestPayload.wire, List.length_append, length_field] at hlen
    simp only [Protocol.RequestPayload.toPython, encodeRequestPayload, getD_map_intOf]
    exact (writes_string (by omega)).bind ((writes_bytes (by omega)).bind ((writes_u64 _).bind
      ((writes_u64 _).bind (.inl rfl))))
  | leaseComplete ns key leaseToken data value =>
    simp only [Protocol.RequestPayload.wire, List.length_append, length_field] at hlen
    exact (writes_string (by omega)).bind ((writes_bytes (by omega)).bind
      ((writes_string (by omega)).bind ((writes_metadata hpayload.2.2.tags_length (by omega)).bind
        ((writes_bytes (by omega)).bind (.inl rfl)))))

theorem u8_eq {value : Int} (byte : UInt8) (h : value = byte.toNat) : u8 value = .ok [byte] := by
  rw [h, u8, toBytes_eq byte.toNat_lt, BigEndian.toBytes, UInt8.ofNat_toNat]
  rfl

theorem writes_u8 {value : Int} (byte : UInt8) (h : value = byte.toNat) :
    Writes total (u8 value) [byte] :=
  .inl (u8_eq byte h)

theorem writes_batchItem {item : Protocol.BatchItem} (hlen : item.wire.length ≤ total) :
    Writes total (batchItem item.toPython) item.wire := by
  rw [Protocol.BatchItem.wire, List.length_cons] at hlen
  cases item with
  | hit value =>
    rw [Protocol.BatchItem.body, length_field] at hlen
    rw [batchItem, Protocol.BatchItem.toPython, if_pos rfl]
    exact (writes_u8 0x01 rfl).bind ((writes_bytes (by omega)).bind (.inl rfl))
  | stale value =>
    rw [Protocol.BatchItem.body, length_field] at hlen
    rw [batchItem, Protocol.BatchItem.toPython, if_neg (show "stale" ≠ "hit" by decide), if_pos rfl]
    exact (writes_u8 0x02 rfl).bind ((writes_bytes (by omega)).bind (.inl rfl))
  | miss =>
    rw [batchItem, Protocol.BatchItem.toPython, if_neg (by decide), if_neg (by decide), if_pos rfl]
    exact writes_u8 0x03 rfl

theorem writes_errorCode (code : Protocol.ErrorCode) :
    Writes total (u16 code.toPython.value) (BigEndian.toBytes 2 code.id.toNat) := by
  have hvalue : code.toPython.value = (code.id.toNat : Int) := by cases code <;> rfl
  rw [hvalue]
  exact .inl (toBytes_eq code.id.toNat_lt)

theorem writes_batch {items : List Protocol.BatchItem}
    (hlen : (items.flatMap Protocol.BatchItem.wire).length ≤ total) :
    Writes total (joined batchItem (items.map Protocol.BatchItem.toPython))
      (items.flatMap Protocol.BatchItem.wire) := by
  rw [joined_map]
  refine writes_joined fun item hitem => writes_batchItem (Nat.le_trans ?_ hlen)
  exact List.Sublist.length_le (List.sublist_flatten_of_mem
    (List.mem_map_of_mem (f := Protocol.BatchItem.wire) hitem))

theorem writes_leaseGranted (command : Command) (leaseToken : String) (staleValue : Option Bytes)
    (htoken : (Utf8.encode leaseToken).length ≤ total)
    (hlen : (staleValue.elim [] field).length ≤ total) :
    Writes total (encodeResponsePayload command (.leaseGranted leaseToken staleValue))
      ([0x07] ++ field (Utf8.encode leaseToken) ++ [if staleValue.isSome then 1 else 0] ++
        staleValue.elim [] field) := by
  have hstale : Writes total (staleValue.elim (return []) bytes) (staleValue.elim [] field) := by
    cases staleValue with
    | none => exact .inl rfl
    | some value =>
      rw [Option.elim_some, length_field] at hlen
      rw [Option.elim_some, Option.elim_some]
      exact writes_bytes (by omega)
  exact (writes_u8 0x07 rfl).bind ((writes_string htoken).bind ((writes_bool _).bind
    (hstale.bind (.inl rfl))))

theorem writes_responsePayload {command : Protocol.Command} {payload : Protocol.ResponsePayload}
    (hanswers : payload.Answers command)
    (hlen : (payload.status :: payload.body).length ≤ total) :
    Writes total (encodeResponsePayload command.toPython payload.toPython)
      (payload.status :: payload.body) := by
  rw [List.length_cons] at hlen
  cases payload with
  | ok => exact writes_u8 0x00 rfl
  | hit value =>
    rw [Protocol.ResponsePayload.body, length_field] at hlen
    exact (writes_u8 0x01 rfl).bind ((writes_bytes (by omega)).bind (.inl rfl))
  | stale value =>
    rw [Protocol.ResponsePayload.body, length_field] at hlen
    exact (writes_u8 0x02 rfl).bind ((writes_bytes (by omega)).bind (.inl rfl))
  | miss => exact writes_u8 0x03 rfl
  | stored evicted => exact (writes_u8 0x04 rfl).bind ((writes_u32 evicted).bind (.inl rfl))
  | deleted removed => exact (writes_u8 0x05 rfl).bind ((writes_bool removed).bind (.inl rfl))
  | invalidated removed => exact (writes_u8 0x06 rfl).bind ((writes_u32 removed).bind (.inl rfl))
  | leaseGranted leaseToken staleValue =>
    simp only [Protocol.ResponsePayload.body, List.length_append, length_field] at hlen
    have hgranted := writes_leaseGranted command.toPython leaseToken staleValue
      (show _ ≤ total by omega) (show _ ≤ total by omega)
    simp only [List.cons_append, List.nil_append] at hgranted
    exact hgranted
  | leaseDenied => exact writes_u8 0x08 rfl
  | error code message =>
    simp only [Protocol.ResponsePayload.body, List.length_append, length_field] at hlen
    exact (writes_u8 0xff rfl).bind ((writes_errorCode code).bind ((writes_string (by omega)).bind
      (.inl rfl)))
  | batchGet items =>
    have hcount := Protocol.length_le_length_flatMap Protocol.BatchItem.length_wire_pos items
    simp only [Protocol.ResponsePayload.body, List.length_append] at hlen
    subst hanswers
    rw [Protocol.ResponsePayload.toPython, encodeResponsePayload, List.length_map]
    exact (writes_u8 0x00 rfl).bind ((writes_length (by omega)).bind
      ((writes_batch (by omega)).bind (.inl rfl)))

/-! ## Frames -/

theorem requestId_fits (requestId : UInt64) :
    (decide (0 ≤ intOf requestId) && decide (intOf requestId ≤ 2 ^ 64 - 1)) = true := by
  have hlt := requestId.toNat_lt
  rw [Bool.and_eq_true, decide_eq_true_iff, decide_eq_true_iff, intOf]
  omega

theorem encodeFrame_eq (kind : UInt8) (command : Protocol.Command) (requestId : UInt64)
    {payload : Bytes} (hlen : payload.length < 2 ^ 32) :
    encodeFrame kind.toNat command.toPython (intOf requestId) payload =
      .ok (Protocol.frameBytes kind command requestId payload) := by
  have hfits : decide (payload.length ≤ 2 ^ 32 - 1) = true := by
    rw [decide_eq_true_iff]
    omega
  have hversion : u8 version = .ok [Protocol.version] := u8_eq Protocol.version rfl
  have hkind : u8 kind.toNat = .ok [kind] := u8_eq kind rfl
  have hcommand : u8 command.toPython.value = .ok [command.id] :=
    u8_eq command.id (by cases command <;> rfl)
  have hflags : u8 0 = .ok [0] := u8_eq 0 rfl
  have hrequestId : u64 (intOf requestId) = .ok (BigEndian.toBytes 8 requestId.toNat) :=
    toBytes_eq requestId.toNat_lt
  have hpayloadLen : u32 payload.length = .ok (BigEndian.toBytes 4 payload.length) :=
    toBytes_eq hlen
  have hreserved : u32 0 = .ok (BigEndian.toBytes 4 0) := rfl
  rw [encodeFrame, requestId_fits, hfits, hversion, hkind, hcommand, hflags, hrequestId,
    hpayloadLen, hreserved, Protocol.frameBytes, Protocol.headerBytes,
    Protocol.toNat_ofNat_length hlen]
  change Except.ok _ = _
  simp [magic, Protocol.magic]

theorem encodeFrame_error (kind : Int) (command : Command) (requestId : UInt64)
    {payload : Bytes} (hlen : 2 ^ 32 ≤ payload.length) :
    encodeFrame kind command (intOf requestId) payload =
      .error (.valueError "payload too large") := by
  have hfits : decide (payload.length ≤ 2 ^ 32 - 1) = false := by
    rw [decide_eq_false_iff_not]
    omega
  rw [encodeFrame, requestId_fits, hfits]
  rfl

/-- A frame around a payload that is written, or is too long. -/
theorem toOption_encodeFrame {payload : Bytes} (hx : Writes payload.length x payload)
    (kind : UInt8) (command : Protocol.Command) (requestId : UInt64) :
    (x >>= encodeFrame kind.toNat command.toPython (intOf requestId)).toOption =
      if payload.length < 2 ^ 32 then some (Protocol.frameBytes kind command requestId payload)
      else none := by
  obtain rfl | ⟨⟨e, rfl⟩, htotal⟩ := hx
  · change (encodeFrame kind.toNat command.toPython (intOf requestId) payload).toOption = _
    split
    next hlt =>
      rw [encodeFrame_eq kind command requestId hlt]
      rfl
    next hlt =>
      rw [encodeFrame_error _ _ requestId (Nat.le_of_not_gt hlt)]
      rfl
  · rw [if_neg (Nat.not_lt.mpr htotal)]
    rfl

theorem toOption_encodeRequestFrame {f : Protocol.RequestFrame} (hf : Protocol.WellFormed f) :
    (encodeRequestFrame (f.toPython Protocol.RequestPayload.toPython)).toOption =
      Protocol.encodeRequestFrame f := by
  rw [Protocol.encodeRequestFrame_eq]
  exact toOption_encodeFrame (writes_requestPayload hf.payload (Nat.le_refl _))
    Protocol.kindRequest f.command f.requestId

theorem toOption_encodeResponseFrame {f : Protocol.ResponseFrame}
    (hf : f.payload.Answers f.command) :
    (encodeResponseFrame (f.toPython Protocol.ResponsePayload.toPython)).toOption =
      Protocol.encodeResponseFrame f := by
  rw [Protocol.encodeResponseFrame_eq]
  exact toOption_encodeFrame (writes_responsePayload hf (Nat.le_refl _))
    Protocol.kindResponse f.command f.requestId

end Python
end Cachebox
