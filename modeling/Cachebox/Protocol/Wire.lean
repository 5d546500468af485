import Cachebox.Protocol.Encode
import Cachebox.Protocol.Decode

/-!
# The wire format of fields and frames

Each writer appends a fixed encoding of its value, and each reader accepts exactly the encodings of
the values it returns. `decodeFrame_eq_ok_iff` lifts this to whole frames: a payload format decided
by a reader gives a frame format decided by the frame decoder.
-/

namespace Cachebox
namespace Protocol
open BigEndian Parser

/-- A field behind the four bytes of its length. -/
def field (value : Bytes) : Bytes := toBytes 4 (UInt32.ofNat value.length).toNat ++ value

theorem toNat_ofNat_length {α : Type} {l : List α} (h : l.length < 2 ^ 32) :
    (UInt32.ofNat l.length).toNat = l.length :=
  word32.toNat_ofNat _ h

theorem length_field (value : Bytes) : (field value).length = 4 + value.length := by
  simp [field]

theorem length_field_pos (value : Bytes) : 0 < (field value).length := by
  rw [length_field]
  omega

@[simp] theorem writeBytes_eq (out value : Bytes) : writeBytes out value = out ++ field value := by
  simp [writeBytes, writeU32, field]

@[simp] theorem writeString_eq (out : Bytes) (value : String) :
    writeString out value = out ++ field (Utf8.encode value) :=
  writeBytes_eq out _

/-- Encodings of at least one byte bound the number of values. -/
theorem length_le_length_flatMap {α : Type} {enc : α → Bytes} (h : ∀ a, 0 < (enc a).length)
    (as : List α) : as.length ≤ (as.flatMap enc).length := by
  induction as with
  | nil => simp
  | cons a as ih =>
    have ha := h a
    rw [List.flatMap_cons, List.length_append, List.length_cons]
    omega

/-- A field is no longer than a sequence of fields that it is in. -/
theorem length_field_le_flatMap {α : Type} (enc : α → Bytes) {as : List α} {a : α} (ha : a ∈ as) :
    (enc a).length ≤ (as.flatMap fun a => field (enc a)).length := by
  induction as with
  | nil => cases ha
  | cons b as ih =>
    rw [List.flatMap_cons, List.length_append, length_field]
    cases ha with
    | head => omega
    | tail _ ha =>
      have hle := ih ha
      omega

namespace Cursor

def rest (cursor : Cursor) : Bytes := cursor.input.drop cursor.offset

theorem length_rest_lt (cursor : Cursor) : cursor.rest.length < 2 ^ 32 := by
  have h := cursor.length_lt
  rw [rest, List.length_drop]
  omega

theorem parses_readU8 : Parses rest readU8 (fun byte xs => xs = [byte]) where
  sound {cursor byte cursor'} h := by
    unfold readU8 at h
    split at h
    next hlt =>
      cases h
      exact ⟨[_], List.drop_eq_getElem_cons hlt, rfl⟩
    next => cases h
  complete {cursor byte xs ys} hs h := by
    subst h
    have hlt : cursor.offset < cursor.input.length := by
      have hlen := congrArg List.length hs
      rw [rest, List.length_drop, List.length_append, List.length_singleton] at hlen
      omega
    rw [rest, List.drop_eq_getElem_cons hlt] at hs
    obtain ⟨hbyte, hys⟩ := List.cons.inj hs
    refine ⟨{ cursor with offset := cursor.offset + 1, offset_le := hlt }, ?_, hys⟩
    unfold readU8
    rw [dif_pos hlt, hbyte]

theorem parses_readExact (len : Nat) :
    Parses rest (readExact len) (fun value xs => value.length = len ∧ xs = value) where
  sound {cursor value cursor'} h := by
    simp only [readExact] at h
    split at h
    · cases h
    split at h
    · cases h
    next hle =>
      cases h
      have hextract : cursor.input.extract cursor.offset (cursor.offset + len) =
          cursor.rest.take len := by
        rw [List.extract_eq_take_drop, Nat.add_sub_cancel_left, rest]
      refine ⟨_, ?_, ?_, rfl⟩
      · rw [hextract]
        change cursor.rest = cursor.rest.take len ++ cursor.input.drop (cursor.offset + len)
        rw [← List.drop_drop]
        exact (List.take_append_drop len cursor.rest).symm
      · rw [List.extract_eq_take_drop, List.length_take, List.length_drop]
        omega
  complete {cursor value xs ys} hs h := by
    obtain ⟨hlen, rfl⟩ := h
    have htotal := congrArg List.length hs
    rw [rest, List.length_drop, List.length_append] at htotal
    have hbound := cursor.length_lt
    have hoffset := cursor.offset_le
    have hle : cursor.offset + len ≤ cursor.input.length := by omega
    refine ⟨{ cursor with offset := cursor.offset + len, offset_le := hle }, ?_, ?_⟩
    · have hvalue : cursor.input.extract cursor.offset (cursor.offset + len) = xs := by
        rw [List.extract_eq_take_drop, Nat.add_sub_cancel_left]
        change cursor.rest.take len = xs
        rw [hs, ← hlen, List.take_left]
      simp only [readExact]
      rw [if_neg (by simp only [usizeMax]; omega), dif_neg (by omega), hvalue]
    · change cursor.input.drop (cursor.offset + len) = ys
      rw [← List.drop_drop]
      change cursor.rest.drop len = ys
      rw [hs, ← hlen, List.drop_left]

/-- A fixed-width integer is read from its big-endian bytes. -/
theorem parses_word {ω : Type} {width : Nat} (W : Word ω width) :
    Parses rest (do let bytes ← readExact width; return W.ofNat (ofBytes bytes))
      (fun v xs => xs = toBytes width (W.toNat v)) := by
  refine ((parses_readExact width).bind fun bytes => Parses.pure _).congr fun v xs => ?_
  constructor
  · intro h
    obtain ⟨_, bytes, -, ⟨hlen, rfl⟩, ⟨rfl, rfl⟩, rfl⟩ := h
    rw [W.toBytes_ofBytes hlen, List.append_nil]
  · rintro rfl
    refine ⟨_, _, [], ⟨length_toBytes .., rfl⟩, ⟨?_, rfl⟩, (List.append_nil _).symm⟩
    rw [W.ofBytes_toBytes]

theorem parses_readU16 : Parses rest readU16 (fun v xs => xs = toBytes 2 v.toNat) :=
  parses_word word16

theorem parses_readU32 : Parses rest readU32 (fun v xs => xs = toBytes 4 v.toNat) :=
  parses_word word32

theorem parses_readU64 : Parses rest readU64 (fun v xs => xs = toBytes 8 v.toNat) :=
  parses_word word64

theorem parses_readBool : Parses rest readBool (fun b xs => xs = [if b then 1 else 0]) := by
  refine (parses_readU8.bind (K := fun byte b xs => byte = (if b then 1 else 0) ∧ xs = [])
    fun byte => ?_).congr fun b xs => by simp
  split
  · exact (Parses.pure false).congr fun b xs => by cases b <;> simp
  · exact (Parses.pure true).congr fun b xs => by cases b <;> simp
  next h0 h1 =>
    refine (Parses.throw _).congr fun b xs => iff_of_false id ?_
    rintro ⟨hbyte, -⟩
    cases b with
    | false => exact h0 hbyte
    | true => exact h1 hbyte

theorem parses_readBytes : Parses rest readBytes (fun value xs => xs = field value) := by
  refine Parses.congr_of_length length_rest_lt
    (parses_readU32.bind fun len => parses_readExact len.toNat) fun value xs hxs => ?_
  constructor
  · intro h
    obtain ⟨len, -, value, rfl, ⟨hlen, rfl⟩, rfl⟩ := h
    rw [field, hlen, UInt32.ofNat_toNat]
  · rintro rfl
    rw [length_field] at hxs
    exact ⟨_, _, _, rfl, ⟨(toNat_ofNat_length (by omega)).symm, rfl⟩, rfl⟩

theorem parses_readString :
    Parses rest readString (fun value xs => xs = field (Utf8.encode value)) := by
  refine (parses_readBytes.bind (K := fun bytes value xs => bytes = Utf8.encode value ∧ xs = [])
    fun bytes => ?_).congr fun value xs => by simp
  split
  next s hs =>
    obtain rfl := Utf8.decode_eq_some_iff.mp hs
    exact (Parses.pure s).congr fun value xs => by simp [Utf8.encode_injective.eq_iff, eq_comm]
  next hs =>
    refine (Parses.throw _).congr fun value xs => ?_
    have hne : bytes ≠ Utf8.encode value := by
      rintro rfl
      rw [Utf8.decode_eq_some_iff.mpr rfl] at hs
      cases hs
    simp [hne]

theorem expectEmpty_eq_ok_iff {cursor : Cursor} {u : Unit} :
    cursor.expectEmpty = .ok u ↔ cursor.rest = [] := by
  have h := cursor.offset_le
  rw [expectEmpty, ensure_eq_ok_iff, rest, List.drop_eq_nil_iff, beq_iff_eq]
  omega

end Cursor

open Cursor

theorem parses_readNamespace : Parses rest readNamespace
    (fun ns xs => isValidNamespace ns ∧ xs = field (Utf8.encode ns)) := by
  refine (parses_readString.bind fun ns => (Parses.ensure _ _).bind fun _ =>
    Parses.pure ns).congr fun ns xs => ?_
  simp

theorem parses_readTag : Parses rest readTag
    (fun tag xs => isValidTag tag ∧ xs = field (Utf8.encode tag)) := by
  refine (parses_readString.bind fun tag => (Parses.ensure _ _).bind fun _ =>
    Parses.pure tag).congr fun tag xs => ?_
  simp

/-! ## Frames -/

def headerBytes (kind command : UInt8) (requestId : UInt64) (payloadLen : UInt32) : Bytes :=
  magic ++ [version, kind, command, 0] ++ toBytes 8 requestId.toNat ++
    toBytes 4 payloadLen.toNat ++ toBytes 4 0

@[simp] theorem length_headerBytes (kind command : UInt8) (requestId : UInt64)
    (payloadLen : UInt32) : (headerBytes kind command requestId payloadLen).length = headerLen := by
  simp [headerBytes, magic, headerLen]

/-- The fields of the header tile its 24 bytes. -/
theorem header_split {input : Bytes} (h : headerLen ≤ input.length) :
    input = input.extract 0 4 ++
      [input.getD 4 0, input.getD 5 0, input.getD 6 0, input.getD 7 0] ++
      input.extract 8 16 ++ input.extract 16 20 ++ input.extract 20 24 ++ input.drop 24 := by
  have hbyte : ∀ i < 24, input.drop i = input.getD i 0 :: input.drop (i + 1) := by
    intro i hi
    have hlt : i < input.length := Nat.lt_of_lt_of_le hi h
    rw [List.drop_eq_getElem_cons hlt]
    simp [hlt]
  calc input
      = input.drop 0 := rfl
    _ = input.extract 0 4 ++ input.drop 4 := List.drop_eq_extract_append input (by omega)
    _ = input.extract 0 4 ++
          (input.getD 4 0 :: input.getD 5 0 :: input.getD 6 0 :: input.getD 7 0 ::
            (input.extract 8 16 ++ (input.extract 16 20 ++ (input.extract 20 24 ++
              input.drop 24)))) := by
        rw [← List.drop_eq_extract_append input (show 20 ≤ 24 by omega),
          ← List.drop_eq_extract_append input (show 16 ≤ 20 by omega),
          ← List.drop_eq_extract_append input (show 8 ≤ 16 by omega),
          ← hbyte 7 (by omega), ← hbyte 6 (by omega), ← hbyte 5 (by omega), ← hbyte 4 (by omega)]
    _ = _ := by simp only [List.append_assoc, List.cons_append, List.nil_append]

theorem extract_headerBytes (kind command : UInt8) (requestId : UInt64) (payloadLen : UInt32)
    (tail : Bytes) :
    (headerBytes kind command requestId payloadLen ++ tail).extract 8 16 =
        toBytes 8 requestId.toNat ∧
      (headerBytes kind command requestId payloadLen ++ tail).extract 16 20 =
        toBytes 4 payloadLen.toNat ∧
      (headerBytes kind command requestId payloadLen ++ tail).extract 20 24 = toBytes 4 0 := by
  simp [headerBytes, magic, List.drop_append, List.take_append]

theorem decodeHeader_eq_ok_iff {input : Bytes} {max : Nat} {kind : UInt8} {header : Header} :
    decodeHeader input max kind = .ok header ↔
      header.payloadLen.toNat ≤ max ∧ ∃ tail, input =
        headerBytes kind header.command header.requestId header.payloadLen ++ tail := by
  simp only [decodeHeader, bind_eq_ok_iff, ensure_eq_ok_iff, exists_const, decide_eq_true_eq,
    beq_iff_eq]
  constructor
  · intro h
    obtain ⟨hlen, hmagic, hversion, hkind, hflags, hmax, hreserved, hheader⟩ := h
    cases hheader
    refine ⟨hmax, input.drop 24, ?_⟩
    have hextract : ∀ i j, j ≤ 24 → (input.extract i j).length = j - i := by
      intro i j hj
      have hlen : 24 ≤ input.length := hlen
      rw [List.extract_eq_take_drop, List.length_take, List.length_drop]
      omega
    have hid : toBytes 8 (UInt64.ofNat (ofBytes (input.extract 8 16))).toNat = _ :=
      word64.toBytes_ofBytes (hextract 8 16 (by omega))
    have hpayloadLen : toBytes 4 (UInt32.ofNat (ofBytes (input.extract 16 20))).toNat = _ :=
      word32.toBytes_ofBytes (hextract 16 20 (by omega))
    have hzero : toBytes 4 (UInt32.ofNat (ofBytes (input.extract 20 24))).toNat = _ :=
      word32.toBytes_ofBytes (hextract 20 24 (by omega))
    rw [hreserved] at hzero
    have hzero : toBytes 4 0 = input.extract 20 24 := hzero
    have hsplit := header_split hlen
    rw [hmagic, hversion, hkind, hflags] at hsplit
    rw [headerBytes, hid, hpayloadLen, hzero]
    exact hsplit
  · intro h
    obtain ⟨hmax, tail, rfl⟩ := h
    obtain ⟨hid, hlen, hzero⟩ :=
      extract_headerBytes kind header.command header.requestId header.payloadLen tail
    have hheaderLen : headerLen ≤ (headerBytes kind header.command header.requestId
        header.payloadLen ++ tail).length := by
      rw [List.length_append, length_headerBytes]
      omega
    have hrequestId : UInt64.ofNat (ofBytes (toBytes 8 header.requestId.toNat)) = _ :=
      word64.ofBytes_toBytes header.requestId
    have hpayloadLen : UInt32.ofNat (ofBytes (toBytes 4 header.payloadLen.toNat)) = _ :=
      word32.ofBytes_toBytes header.payloadLen
    rw [hid, hlen, hzero, hrequestId, hpayloadLen]
    exact ⟨hheaderLen, rfl, rfl, rfl, rfl, hmax, rfl, rfl⟩

def frameBytes (kind : UInt8) (command : Command) (requestId : UInt64) (payload : Bytes) : Bytes :=
  headerBytes kind command.id requestId (.ofNat payload.length) ++ payload

@[simp] theorem length_frameBytes (kind : UInt8) (command : Command) (requestId : UInt64)
    (payload : Bytes) :
    (frameBytes kind command requestId payload).length = headerLen + payload.length := by
  simp [frameBytes]

/-- The payload length that the header of a frame declares. -/
def payloadLen (input : Bytes) : Nat := ofBytes (input.extract 16 20)

theorem payloadLen_frameBytes (kind : UInt8) (command : Command) (requestId : UInt64)
    {payload : Bytes} (h : payload.length < 2 ^ 32) (suffix : Bytes) :
    payloadLen (frameBytes kind command requestId payload ++ suffix) = payload.length := by
  rw [payloadLen, frameBytes, List.append_assoc, (extract_headerBytes ..).2.1,
    toNat_ofNat_length h]
  exact ofBytes_toBytes h

/-- A whole frame is its header and as many bytes as the header declares. -/
theorem exists_header_payload {b : Bytes} (h : b.length = headerLen + payloadLen b) :
    ∃ header payload, b = header ++ payload ∧ header.length = headerLen ∧
      ofBytes (header.extract 16 20) = payload.length := by
  have h24 : (b.take headerLen).length = 24 := List.length_take_of_le (by omega)
  have hb := List.take_append_drop headerLen b
  refine ⟨b.take headerLen, b.drop headerLen, hb.symm, h24, ?_⟩
  have hextract : b.extract 16 20 = (b.take headerLen).extract 16 20 := by
    conv_lhs => rw [← hb]
    rw [List.extract_eq_take_drop, List.extract_eq_take_drop,
      List.drop_append_of_le_length (by omega),
      List.take_append_of_le_length (by rw [List.length_drop]; omega)]
  rw [← hextract, List.length_drop]
  exact (Nat.sub_eq_of_eq_add' h).symm

/-- The request id and the command of a frame stand at fixed positions. -/
theorem header_frameBytes (kind : UInt8) (command : Command) (requestId : UInt64)
    (payload suffix : Bytes) :
    UInt64.ofNat (ofBytes ((frameBytes kind command requestId payload ++ suffix).extract 8 16)) =
        requestId ∧
      (frameBytes kind command requestId payload ++ suffix).getD 6 0 = command.id := by
  constructor
  · rw [frameBytes, List.append_assoc, (extract_headerBytes ..).1]
    exact word64.ofBytes_toBytes requestId
  · simp [frameBytes, headerBytes, magic]

/-- An append-only payload encoder gives frames of the frame format, or panics when the payload
does not fit in the length field. What was in the buffer does not matter. -/
theorem encodeFrameInto_eq {α : Type} {encodePayload : α → Bytes → Bytes} {payload : α}
    {bytes : Bytes} (h : ∀ out, encodePayload payload out = out ++ bytes) (kind : UInt8)
    (command : Command) (requestId : UInt64) (out : Bytes) :
    encodeFrameInto kind command requestId payload encodePayload out =
      if bytes.length < 2 ^ 32 then some (frameBytes kind command requestId bytes) else none := by
  simp only [encodeFrameInto, cleared, h, List.length_append, Nat.add_sub_cancel_left]
  split
  next hlt =>
    simp [frameBytes, headerBytes, writeU64, writeU32, magic, toNat_ofNat_length hlt,
      List.drop_append]
  next => rfl

/-- The checks before the payload pass exactly on a frame within the limit, followed by anything. -/
theorem front_iff {kind : UInt8} {input : Bytes} {max : Nat} {command : Command}
    {requestId : UInt64} {payload : Bytes} :
    (∃ header, decodeHeader input max kind = .ok header ∧
      headerLen + header.payloadLen.toNat ≤ input.length ∧ header.command = command.id ∧
      header.requestId = requestId ∧
      input.extract headerLen (headerLen + header.payloadLen.toNat) = payload) ↔
    ∃ suffix, input = frameBytes kind command requestId payload ++ suffix ∧
      payload.length ≤ max ∧ payload.length < 2 ^ 32 := by
  simp only [decodeHeader_eq_ok_iff]
  constructor
  · rintro ⟨header, ⟨hmax, tail, rfl⟩, hlen, hcommand, rfl, rfl⟩
    rw [List.length_append, length_headerBytes] at hlen
    have htake : (headerBytes kind header.command header.requestId header.payloadLen ++
        tail).extract headerLen (headerLen + header.payloadLen.toNat) =
          tail.take header.payloadLen.toNat := by
      simp [List.extract_eq_take_drop]
    have htakeLen : (tail.take header.payloadLen.toNat).length = header.payloadLen.toNat :=
      List.length_take_of_le (by omega)
    rw [htake]
    refine ⟨tail.drop header.payloadLen.toNat, ?_, ?_, ?_⟩
    · rw [frameBytes, htakeLen, UInt32.ofNat_toNat, hcommand, List.append_assoc,
        List.take_append_drop]
    · rw [htakeLen]
      exact hmax
    · rw [htakeLen]
      exact header.payloadLen.toNat_lt
  · rintro ⟨suffix, rfl, hmax, hlt⟩
    have hlen := toNat_ofNat_length hlt
    refine ⟨⟨command.id, requestId, .ofNat payload.length⟩, ⟨?_, payload ++ suffix, ?_⟩, ?_, rfl,
      rfl, ?_⟩
    · rw [hlen]
      exact hmax
    · rw [frameBytes, List.append_assoc]
    · rw [hlen, List.length_append, length_frameBytes]
      omega
    · simp [frameBytes, List.extract_eq_take_drop, hlen]

/-- If the reader of a payload decides the format `G`, the decoder accepts exactly the frames with
a payload in `G`, followed by anything. -/
theorem decodeFrame_eq_ok_iff {α : Type} {decodePayload : Command → Reader α}
    {G : Command → α → Bytes → Prop}
    (hG : ∀ command, Parses rest (decodePayload command) (G command)) {kind : UInt8}
    {input : Bytes} {max : Nat} {f : Frame α} :
    decodeFrame kind decodePayload input max = .ok f ↔
      ∃ payload suffix, input = frameBytes kind f.command f.requestId payload ++ suffix ∧
        payload.length ≤ max ∧ payload.length < 2 ^ 32 ∧ G f.command f.payload payload := by
  simp only [decodeFrame, bind_eq_ok_iff, ensure_eq_ok_iff, exists_const, decide_eq_true_eq,
    Command.fromId_eq_ok_iff, expectEmpty_eq_ok_iff]
  constructor
  · rintro ⟨header, hheader, hlen, command, hcommand, ⟨payload, cursor⟩, hdecode, hempty, hframe⟩
    cases hframe
    obtain ⟨bytes, hbytes, hpayload⟩ := (hG command).sound hdecode
    -- the cursor consumed the whole slice
    rw [hempty, List.append_nil] at hbytes
    obtain ⟨suffix, hinput, hmax, hlt⟩ :=
      front_iff.mp ⟨header, hheader, hlen, hcommand, rfl, hbytes⟩
    exact ⟨bytes, suffix, hinput, hmax, hlt, hpayload⟩
  · rintro ⟨bytes, suffix, hinput, hmax, hlt, hpayload⟩
    obtain ⟨header, hheader, hlen, hcommand, hid, hbytes⟩ :=
      front_iff.mpr ⟨suffix, hinput, hmax, hlt⟩
    have hrest : rest (new _ (length_payload_lt input header)) = bytes ++ [] :=
      hbytes.trans (List.append_nil _).symm
    obtain ⟨cursor, hdecode, hempty⟩ := (hG f.command).complete hrest hpayload
    refine ⟨header, hheader, hlen, f.command, hcommand, (f.payload, cursor), hdecode, hempty, ?_⟩
    rw [hid]
    rfl

end Protocol
end Cachebox
