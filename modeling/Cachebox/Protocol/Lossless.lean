import Cachebox.Theory.PrefixCode
import Cachebox.Protocol.Request

/-!
# What the request encoder can lose

The encoder checks nothing. In the format a zero lifetime or stale allowance stands for none, so
`some 0` is sent as `none`; a tag count is cut to 16 bits, and the command is taken as it is. For a
request with none of these (`Lossless`) the bytes determine the request. So a request with its own
command and at most 65535 tags is refused by the decoder or comes back up to zeros, whatever
strings and keys it has.
-/

namespace Cachebox
namespace Protocol
open BigEndian

/-- Metadata that its bytes determine. -/
structure Metadata.Lossless (metadata : Metadata) : Prop where
  ttl : ∀ ttl ∈ metadata.ttl, ttl.milliseconds ≠ 0
  staleTtl : ∀ ttl ∈ metadata.staleTtl, ttl.milliseconds ≠ 0
  tags_length : metadata.tags.length ≤ 65535

def RequestPayload.Lossless : RequestPayload → Prop
  | put _ _ metadata _ | leaseComplete _ _ _ metadata _ => metadata.Lossless
  | leaseStart _ _ _ allowStaleMs => ∀ value ∈ allowStaleMs, value ≠ 0
  | _ => True

/-- The requests that their bytes determine. -/
structure Lossless (f : RequestFrame) : Prop where
  command_eq : f.command = f.payload.command
  payload : f.payload.Lossless

theorem Metadata.WellFormed.lossless {metadata : Metadata} (h : metadata.WellFormed) :
    metadata.Lossless :=
  ⟨h.ttl, h.staleTtl, h.tags_length⟩

theorem RequestPayload.WellFormed.lossless {payload : RequestPayload} (h : payload.WellFormed) :
    payload.Lossless := by
  cases payload with
  | put => exact h.2.lossless
  | leaseStart => exact h.2.2
  | leaseComplete => exact h.2.2.lossless
  | _ => trivial

/-! ## The codes of the fields -/

theorem prefixCode_u64 : PrefixCode (fun _ => True) (fun v : UInt64 => toBytes 8 v.toNat) :=
  .word word64

theorem prefixCode_field : PrefixCode (fun value => value.length < 2 ^ 32) field := by
  have hlt : ∀ value : Bytes, value.length < 2 ^ 32 → value.length < 256 ^ 4 := by omega
  exact fun a b _ _ ha hb h => PrefixCode.lengthPrefixed word32 (hlt a ha) (hlt b hb) h

theorem prefixCode_string :
    PrefixCode (fun s => (Utf8.encode s).length < 2 ^ 32) (field ∘ Utf8.encode) :=
  prefixCode_field.comp Utf8.encode_injective fun _ h => h

/-- Zero stands for an absent value, so the present ones are told apart if they are not zero. -/
theorem prefixCode_optional {α : Type} {word : α → UInt64} (hword : Function.Injective word) :
    PrefixCode (fun value : Option α => ∀ a ∈ value, word a ≠ 0)
      (fun value => toBytes 8 (value.elim 0 word).toNat) := by
  intro a b xs ys ha hb h
  obtain ⟨hvalue, hrest⟩ := prefixCode_u64 trivial trivial h
  refine ⟨?_, hrest⟩
  cases a with
  | none =>
    cases b with
    | none => rfl
    | some b => exact absurd hvalue.symm (hb b rfl)
  | some a =>
    cases b with
    | none => exact absurd hvalue (ha a rfl)
    | some b => exact congrArg some (hword hvalue)

/-- The flag tells whether the next eight bytes are a cost. -/
theorem cost_eq_of_append_eq {cost cost' : Option UInt64} {unused unused' : UInt64} {xs ys : Bytes}
    (h : [if cost.isSome then 1 else 0] ++ (toBytes 8 (cost.getD unused).toNat ++ xs) =
      [if cost'.isSome then 1 else 0] ++ (toBytes 8 (cost'.getD unused').toNat ++ ys)) :
    cost = cost' ∧ xs = ys := by
  obtain ⟨hflag, htail⟩ := List.cons.inj h
  obtain ⟨hcost, hrest⟩ := prefixCode_u64 trivial trivial htail
  refine ⟨?_, hrest⟩
  cases cost with
  | none =>
    cases cost' with
    | none => rfl
    | some => cases hflag
  | some =>
    cases cost' with
    | none => cases hflag
    | some => exact congrArg some hcost

/-! ## The bytes determine a lossless request -/

theorem prefixCode_ttl : PrefixCode (fun ttl : Option Ttl => ∀ t ∈ ttl, t.milliseconds ≠ 0)
    (fun ttl => toBytes 8 (ttl.elim 0 Ttl.milliseconds).toNat) :=
  prefixCode_optional fun a b h => by cases a; cases b; cases h; rfl

theorem getD_zero_eq_elim (value : Option UInt64) : value.getD 0 = value.elim 0 id := by
  cases value <;> rfl

theorem prefixCode_allowStaleMs : PrefixCode (fun value : Option UInt64 => ∀ v ∈ value, v ≠ 0)
    (fun value => toBytes 8 (value.getD 0).toNat) := by
  simp only [getD_zero_eq_elim]
  exact prefixCode_optional Function.injective_id

theorem prefixCode_tags :
    PrefixCode (fun tags : List String => tags.length < 65536 ∧
        ∀ tag ∈ tags, (Utf8.encode tag).length < 2 ^ 32)
      (fun tags => toBytes 2 (UInt16.ofNat tags.length).toNat ++
        tags.flatMap fun tag => field (Utf8.encode tag)) :=
  prefixCode_string.counted word16

theorem prefixCode_keys :
    PrefixCode (fun keys : List Bytes => keys.length < 2 ^ 32 ∧ ∀ key ∈ keys, key.length < 2 ^ 32)
      (fun keys => toBytes 4 (UInt32.ofNat keys.length).toNat ++ keys.flatMap field) :=
  prefixCode_field.counted word32

theorem prefixCode_contentType :
    PrefixCode (fun _ => True) (fun contentType : ContentType => [contentType.byte]) := by
  refine .of_length (fun _ => rfl) fun a b _ _ h => ?_
  cases a <;> cases b <;> first | rfl | cases h

theorem Metadata.length_tag_lt {metadata : Metadata} {unused : UInt64}
    (hlen : (metadata.wire unused).length < 2 ^ 32) :
    ∀ tag ∈ metadata.tags, (Utf8.encode tag).length < 2 ^ 32 := by
  intro tag htag
  have hle := length_field_le_flatMap Utf8.encode htag
  simp only [Metadata.wire, List.length_append] at hlen
  omega

theorem Metadata.wire_append_inj {m m' : Metadata} (hm : m.Lossless) (hm' : m'.Lossless)
    {unused unused' : UInt64} {xs ys : Bytes} (hlen : (m.wire unused).length < 2 ^ 32)
    (hlen' : (m'.wire unused').length < 2 ^ 32)
    (h : m.wire unused ++ xs = m'.wire unused' ++ ys) : m = m' ∧ xs = ys := by
  have htags := length_tag_lt hlen
  have htags' := length_tag_lt hlen'
  simp only [wire, List.append_assoc] at h
  obtain ⟨httl, h1⟩ := prefixCode_ttl hm.ttl hm'.ttl h
  obtain ⟨hstale, h2⟩ := prefixCode_ttl hm.staleTtl hm'.staleTtl h1
  obtain ⟨hcost, h3⟩ := cost_eq_of_append_eq h2
  rw [← List.append_assoc, ← List.append_assoc (toBytes 2 _)] at h3
  obtain ⟨hnames, h4⟩ := prefixCode_tags ⟨Nat.lt_succ_of_le hm.tags_length, htags⟩
    ⟨Nat.lt_succ_of_le hm'.tags_length, htags'⟩ h3
  obtain ⟨hcontent, hrest⟩ := prefixCode_contentType trivial trivial h4
  refine ⟨?_, hrest⟩
  cases m
  cases m'
  simp_all

namespace RequestPayload

/-- The namespace and the key, with which most payloads start. -/
theorem nsKey_append_inj {ns ns' : String} {key key' xs ys : Bytes}
    (hlen : (field (Utf8.encode ns) ++ (field key ++ xs)).length < 2 ^ 32)
    (h : field (Utf8.encode ns) ++ (field key ++ xs) =
      field (Utf8.encode ns') ++ (field key' ++ ys)) : ns = ns' ∧ key = key' ∧ xs = ys := by
  have hlen' := hlen
  rw [h] at hlen'
  simp only [List.length_append, length_field] at hlen hlen'
  obtain ⟨hns, h1⟩ := prefixCode_string (by omega) (by omega) h
  obtain ⟨hkey, hrest⟩ := prefixCode_field (by omega) (by omega) h1
  exact ⟨hns, hkey, hrest⟩

/-- Keys whose fields fit in a payload are few and short enough for their length fields. -/
theorem keys_lt {keys : List Bytes} (h : (keys.flatMap field).length < 2 ^ 32) :
    keys.length < 2 ^ 32 ∧ ∀ key ∈ keys, key.length < 2 ^ 32 :=
  ⟨(length_le_length_flatMap length_field_pos keys).trans_lt h,
    fun _ hkey => (length_field_le_flatMap id hkey).trans_lt h⟩

/-- At the front of a list there is at most one lossless payload of a command. -/
theorem wire_append_inj {p q : RequestPayload} (hp : p.Lossless) (hq : q.Lossless)
    (hcommand : p.command = q.command) {unused unused' : UInt64} {xs ys : Bytes}
    (hlen : (p.wire unused ++ xs).length < 2 ^ 32)
    (h : p.wire unused ++ xs = q.wire unused' ++ ys) : p = q ∧ xs = ys := by
  have hlen' := hlen
  rw [h] at hlen'
  cases p with
  | get ns key =>
    cases q with
    | get ns' key' =>
      simp only [wire, List.append_assoc] at h hlen
      obtain ⟨rfl, rfl, hrest⟩ := nsKey_append_inj hlen h
      exact ⟨rfl, hrest⟩
    | _ => cases hcommand
  | delete ns key =>
    cases q with
    | delete ns' key' =>
      simp only [wire, List.append_assoc] at h hlen
      obtain ⟨rfl, rfl, hrest⟩ := nsKey_append_inj hlen h
      exact ⟨rfl, hrest⟩
    | _ => cases hcommand
  | put ns key metadata value =>
    cases q with
    | put ns' key' metadata' value' =>
      simp only [wire, List.append_assoc] at h hlen hlen'
      obtain ⟨rfl, rfl, h1⟩ := nsKey_append_inj hlen h
      simp only [List.length_append, length_field] at hlen hlen'
      obtain ⟨rfl, h2⟩ := Metadata.wire_append_inj hp hq (by omega) (by omega) h1
      obtain ⟨rfl, hrest⟩ := prefixCode_field (by omega) (by omega) h2
      exact ⟨rfl, hrest⟩
    | _ => cases hcommand
  | batchGet ns keys =>
    cases q with
    | batchGet ns' keys' =>
      simp only [wire, List.append_assoc] at h
      simp only [wire, List.length_append, length_field] at hlen hlen'
      obtain ⟨rfl, h1⟩ := prefixCode_string (by omega) (by omega) h
      rw [← List.append_assoc, ← List.append_assoc] at h1
      obtain ⟨rfl, hrest⟩ := prefixCode_keys (keys_lt (by omega)) (keys_lt (by omega)) h1
      exact ⟨rfl, hrest⟩
    | _ => cases hcommand
  | tagInvalidate ns tag =>
    cases q with
    | tagInvalidate ns' tag' =>
      simp only [wire, List.append_assoc] at h
      simp only [wire, List.length_append, length_field] at hlen hlen'
      obtain ⟨rfl, h1⟩ := prefixCode_string (by omega) (by omega) h
      obtain ⟨rfl, hrest⟩ := prefixCode_string (by omega) (by omega) h1
      exact ⟨rfl, hrest⟩
    | _ => cases hcommand
  | leaseStart ns key leaseTtlMs allowStaleMs =>
    cases q with
    | leaseStart ns' key' leaseTtlMs' allowStaleMs' =>
      simp only [wire, List.append_assoc] at h hlen
      obtain ⟨rfl, rfl, h1⟩ := nsKey_append_inj hlen h
      obtain ⟨rfl, h2⟩ := prefixCode_u64 trivial trivial h1
      obtain ⟨rfl, hrest⟩ := prefixCode_allowStaleMs hp hq h2
      exact ⟨rfl, hrest⟩
    | _ => cases hcommand
  | leaseComplete ns key leaseToken metadata value =>
    cases q with
    | leaseComplete ns' key' leaseToken' metadata' value' =>
      simp only [wire, List.append_assoc] at h hlen hlen'
      obtain ⟨rfl, rfl, h1⟩ := nsKey_append_inj hlen h
      simp only [List.length_append, length_field] at hlen hlen'
      obtain ⟨rfl, h2⟩ := prefixCode_string (by omega) (by omega) h1
      obtain ⟨rfl, h3⟩ := Metadata.wire_append_inj hp hq (by omega) (by omega) h2
      obtain ⟨rfl, hrest⟩ := prefixCode_field (by omega) (by omega) h3
      exact ⟨rfl, hrest⟩
    | _ => cases hcommand

end RequestPayload

theorem Command.id_injective : Function.Injective Command.id := by
  intro a b h
  have ha := Command.fromId_eq_ok_iff.mpr (Eq.refl a.id)
  rw [h, Command.fromId_eq_ok_iff.mpr rfl] at ha
  exact (Except.ok.inj ha).symm

/-- At the front of a list there is at most one frame. -/
theorem frameBytes_append_inj {kind : UInt8} {command command' : Command}
    {requestId requestId' : UInt64} {payload payload' xs ys : Bytes}
    (hlt : payload.length < 2 ^ 32) (hlt' : payload'.length < 2 ^ 32)
    (h : frameBytes kind command requestId payload ++ xs =
      frameBytes kind command' requestId' payload' ++ ys) :
    command = command' ∧ requestId = requestId' ∧ payload = payload' ∧ xs = ys := by
  obtain ⟨hid, hcommand⟩ := header_frameBytes kind command requestId payload xs
  obtain ⟨hid', hcommand'⟩ := header_frameBytes kind command' requestId' payload' ys
  have hlen := payloadLen_frameBytes kind command requestId hlt xs
  rw [h] at hid hcommand hlen
  rw [payloadLen_frameBytes _ _ _ hlt'] at hlen
  obtain ⟨hframe, hrest⟩ := List.append_inj h (by simp [hlen])
  obtain ⟨-, hpayload⟩ := List.append_inj hframe (by simp)
  exact ⟨Command.id_injective (hcommand.symm.trans hcommand'), hid.symm.trans hid', hpayload, hrest⟩

/-- The decoder refuses the bytes of a lossless request or gives the request back. -/
theorem Lossless.decode_encode {f g : RequestFrame} (hf : Lossless f) {bytes : Bytes}
    (hbytes : encodeRequestFrame f = some bytes) {max : Nat}
    (hg : decodeRequestFrame bytes max = .ok g) : g = f := by
  rw [encodeRequestFrame_eq] at hbytes
  split at hbytes
  next hlt =>
    cases hbytes
    obtain ⟨hwell, unused, suffix, hframe, -, hlt'⟩ := decodeRequestFrame_iff.mp hg
    rw [← List.append_nil (frameBytes ..)] at hframe
    obtain ⟨hcommand, hid, hwire, -⟩ := frameBytes_append_inj hlt hlt' hframe
    have hsame : f.payload.command = g.payload.command := by
      rw [← hf.command_eq, hcommand, hwell.command_eq]
    have hlen : (f.payload.wire 0 ++ []).length < 2 ^ 32 := by
      rwa [List.append_nil]
    obtain ⟨hpayload, -⟩ := RequestPayload.wire_append_inj hf.payload hwell.payload.lossless hsame
      hlen (congrArg (· ++ []) hwire)
    cases f
    cases g
    cases hcommand
    cases hid
    cases hpayload
    rfl
  next => cases hbytes

/-! ## Zeros stand for none -/

def Metadata.zerosAsNone (metadata : Metadata) : Metadata :=
  { metadata with
    ttl := metadata.ttl.filter (·.milliseconds ≠ 0)
    staleTtl := metadata.staleTtl.filter (·.milliseconds ≠ 0) }

def RequestPayload.zerosAsNone : RequestPayload → RequestPayload
  | put ns key metadata value => put ns key metadata.zerosAsNone value
  | leaseStart ns key leaseTtlMs allowStaleMs =>
    leaseStart ns key leaseTtlMs (allowStaleMs.filter (· ≠ 0))
  | leaseComplete ns key leaseToken metadata value =>
    leaseComplete ns key leaseToken metadata.zerosAsNone value
  | payload => payload

/-- The request with each optional field that is zero left out. -/
def zerosAsNone (f : RequestFrame) : RequestFrame :=
  { f with payload := f.payload.zerosAsNone }

def RequestPayload.tags : RequestPayload → List String
  | put _ _ metadata _ | leaseComplete _ _ _ metadata _ => metadata.tags
  | _ => []

theorem elim_filter_ne_zero {α : Type} (word : α → UInt64) (value : Option α) :
    (value.filter (word · ≠ 0)).elim 0 word = value.elim 0 word := by
  cases value with
  | none => rfl
  | some a =>
    by_cases ha : word a = 0 <;> simp [Option.filter, ha]

theorem Metadata.wire_zerosAsNone (metadata : Metadata) (unused : UInt64) :
    metadata.zerosAsNone.wire unused = metadata.wire unused := by
  simp only [wire, zerosAsNone, elim_filter_ne_zero Ttl.milliseconds]
  rfl

theorem RequestPayload.wire_zerosAsNone (payload : RequestPayload) (unused : UInt64) :
    payload.zerosAsNone.wire unused = payload.wire unused := by
  cases payload with
  | put => simp only [zerosAsNone, wire, Metadata.wire_zerosAsNone]
  | leaseStart ns key leaseTtlMs allowStaleMs =>
    have hword : (allowStaleMs.filter (· ≠ 0)).getD 0 = allowStaleMs.getD 0 := by
      rw [getD_zero_eq_elim, getD_zero_eq_elim]
      exact elim_filter_ne_zero id allowStaleMs
    simp only [zerosAsNone, wire]
    rw [hword]
  | leaseComplete => simp only [zerosAsNone, wire, Metadata.wire_zerosAsNone]
  | _ => rfl

theorem Metadata.lossless_zerosAsNone {metadata : Metadata} (h : metadata.tags.length ≤ 65535) :
    metadata.zerosAsNone.Lossless where
  ttl _ ht := of_decide_eq_true (Option.mem_filter_iff.mp ht).2
  staleTtl _ ht := of_decide_eq_true (Option.mem_filter_iff.mp ht).2
  tags_length := h

theorem lossless_zerosAsNone {f : RequestFrame} (hcommand : f.command = f.payload.command)
    (htags : f.payload.tags.length ≤ 65535) : Lossless (zerosAsNone f) := by
  obtain ⟨requestId, command, payload⟩ := f
  cases payload with
  | put | leaseComplete => exact ⟨hcommand, Metadata.lossless_zerosAsNone htags⟩
  | leaseStart => exact ⟨hcommand, fun _ hv => of_decide_eq_true (Option.mem_filter_iff.mp hv).2⟩
  | _ => exact ⟨hcommand, trivial⟩

/-- **The encoder keeps the meaning of requests.** Whatever strings, keys, values and lifetimes a
request has, the decoder refuses its bytes or gives the request back, up to zeros that the format
has no way to tell from none. -/
theorem encode_keeps_request {f g : RequestFrame} (hcommand : f.command = f.payload.command)
    (htags : f.payload.tags.length ≤ 65535) {bytes : Bytes}
    (hbytes : encodeRequestFrame f = some bytes) {max : Nat}
    (hg : decodeRequestFrame bytes max = .ok g) : g = zerosAsNone f := by
  refine (lossless_zerosAsNone hcommand htags).decode_encode ?_ hg
  rw [← hbytes, encodeRequestFrame_eq, encodeRequestFrame_eq, zerosAsNone,
    RequestPayload.wire_zerosAsNone]

theorem encode_keeps_request_plainPut : ∃ bytes, encodeRequestFrame plainPut = some bytes ∧
    ∃ g, decodeRequestFrame bytes 64 = .ok g ∧ g = zerosAsNone plainPut := by
  have hbytes : encodeRequestFrame plainPut = some (plainPutBytes 0) := by decide +kernel
  have hg : decodeRequestFrame (plainPutBytes 0) 64 = .ok plainPut := by decide +kernel
  exact ⟨_, hbytes, _, hg, encode_keeps_request rfl (by decide) hbytes hg⟩

/-! ## Requests that are sent as other ones -/

/-- The decoder takes the bytes of `f` for `g`, which is another request. -/
def SentAs (f g : RequestFrame) : Prop :=
  g ≠ f ∧ ∃ bytes, encodeRequestFrame f = some bytes ∧ ∃ max, decodeRequestFrame bytes max = .ok g

theorem sentAs_of_wire {requestId : UInt64} {command : Command} {p q : RequestPayload}
    (hne : q ≠ p) (hq : WellFormed ⟨requestId, command, q⟩) (hwire : p.wire 0 = q.wire 0)
    (hlt : (q.wire 0).length < 2 ^ 32) :
    SentAs ⟨requestId, command, p⟩ ⟨requestId, command, q⟩ := by
  have hbytes : encodeRequestFrame ⟨requestId, command, p⟩ =
      some (frameBytes kindRequest command requestId (q.wire 0)) := by
    rw [encodeRequestFrame_eq]
    change (if (p.wire 0).length < 2 ^ 32 then
      some (frameBytes kindRequest command requestId (p.wire 0)) else none) = _
    rw [hwire, if_pos hlt]
  refine ⟨fun h => hne (congrArg Frame.payload h), _, hbytes, (q.wire 0).length, ?_⟩
  exact decodeRequestFrame_iff.mpr ⟨hq, 0, [], (List.append_nil _).symm, Nat.le_refl _, hlt⟩

def putOf (metadata : Metadata) (value : Bytes) : RequestPayload := .put "app" [1] metadata value

/-- One tag of 1028 bytes and 65535 empty ones. -/
def wrappingTags : List String :=
  String.ofList ('\x04' :: List.replicate 1027 'a') :: List.replicate 65535 ""

/-- What the decoder takes for the value of a put with these tags. -/
def swallowed : Bytes := List.replicate 1027 0x61 ++ List.replicate (4 * 65535 + 5) 0

theorem length_swallowed : swallowed.length = 0x040404 := by
  rw [swallowed, List.length_append, List.length_replicate, List.length_replicate]

/-- The count of 65536 tags is written as zero. The four bytes of the first tag's length, 1028, and
its first byte are then read as a content type and the length of a value. -/
theorem wire_wrappingTags :
    (putOf ⟨none, none, none, wrappingTags, .octetStream⟩ []).wire 0 =
      (putOf ⟨none, none, none, [], .octetStream⟩ swallowed).wire 0 := by
  have hcount : UInt16.ofNat wrappingTags.length = 0 := by
    rw [wrappingTags, List.length_cons, List.length_replicate]
    decide
  have htag : Utf8.encode (String.ofList ('\x04' :: List.replicate 1027 'a')) =
      4 :: List.replicate 1027 0x61 := by
    have hchar : String.utf8EncodeChar 'a' = List.replicate 1 0x61 := by decide +kernel
    rw [Utf8.encode_ofList, List.flatMap_cons, List.flatMap_replicate, hchar,
      List.flatten_replicate_replicate]
    rfl
  have hfirst : field (4 :: List.replicate 1027 0x61) =
      [0, 0, 4, 4, 4] ++ List.replicate 1027 0x61 := by
    have hlen : toBytes 4 (UInt32.ofNat 1028).toNat = [0, 0, 4, 4] := by decide +kernel
    rw [field, List.length_cons, List.length_replicate, hlen]
    rfl
  have htags : wrappingTags.flatMap (fun tag => field (Utf8.encode tag)) =
      [0, 0, 4, 4, 4] ++ List.replicate 1027 0x61 ++ List.replicate (65535 * 4) 0 := by
    have hempty : field (Utf8.encode "") = List.replicate 4 0 := by decide +kernel
    rw [wrappingTags, List.flatMap_cons, htag, hfirst, List.flatMap_replicate, hempty,
      List.flatten_replicate_replicate]
  have hvalue : field swallowed = [0, 4, 4, 4] ++ swallowed := by
    have hlen : toBytes 4 (UInt32.ofNat 0x040404).toNat = [0, 4, 4, 4] := by decide +kernel
    rw [field, length_swallowed, hlen]
  have hend : [ContentType.octetStream.byte] ++ field [] = List.replicate 5 0 := by decide +kernel
  -- the two puts differ behind the count of the tags
  have hwire : ∀ tags value, (putOf ⟨none, none, none, tags, .octetStream⟩ value).wire 0 =
      field (Utf8.encode "app") ++ (field [1] ++ (toBytes 8 0 ++ (toBytes 8 0 ++ ([0] ++
        (toBytes 8 0 ++ (toBytes 2 (UInt16.ofNat tags.length).toNat ++
          (tags.flatMap (fun tag => field (Utf8.encode tag)) ++
            ([ContentType.octetStream.byte] ++ field value)))))))) := by
    intro tags value
    simp only [putOf, RequestPayload.wire, Metadata.wire, List.append_assoc]
    rfl
  have htail : wrappingTags.flatMap (fun tag => field (Utf8.encode tag)) ++
      ([ContentType.octetStream.byte] ++ field []) =
        [ContentType.octetStream.byte] ++ field swallowed := by
    have hzeros : List.replicate (65535 * 4) (0 : UInt8) ++ List.replicate 5 0 =
        List.replicate (4 * 65535 + 5) 0 := List.replicate_append_replicate
    rw [htags, hend, hvalue, List.append_assoc, hzeros]
    rfl
  have hnone : UInt16.ofNat ([] : List String).length = 0 := rfl
  rw [hwire, hwire, hcount, htail, hnone, List.flatMap_nil, List.nil_append]

/-- A zero time to live or stale time to live is sent as none, so the entry does not expire; a zero
stale allowance is sent as none; a get under the command of a delete deletes; and a put with 65536
tags is sent as one without tags and with another value. -/
theorem not_encode_keeps_request :
    SentAs ⟨7, .put, putOf ⟨some ⟨0⟩, none, none, [], .octetStream⟩ [9]⟩
      ⟨7, .put, putOf ⟨none, none, none, [], .octetStream⟩ [9]⟩ ∧
    SentAs ⟨7, .put, putOf ⟨some ⟨5⟩, some ⟨0⟩, none, [], .octetStream⟩ [9]⟩
      ⟨7, .put, putOf ⟨some ⟨5⟩, none, none, [], .octetStream⟩ [9]⟩ ∧
    SentAs ⟨7, .leaseStart, .leaseStart "app" [1] 100 (some 0)⟩
      ⟨7, .leaseStart, .leaseStart "app" [1] 100 none⟩ ∧
    SentAs ⟨7, .delete, .get "app" [1]⟩ ⟨7, .delete, .delete "app" [1]⟩ ∧
    SentAs ⟨7, .put, putOf ⟨none, none, none, wrappingTags, .octetStream⟩ []⟩
      ⟨7, .put, putOf ⟨none, none, none, [], .octetStream⟩ swallowed⟩ := by
  have happ : isValidNamespace "app" := by decide +kernel
  have hmetadata : ∀ ttl, (∀ t ∈ ttl, t.milliseconds ≠ 0) →
      (⟨ttl, none, none, [], .octetStream⟩ : Metadata).WellFormed := fun ttl h =>
    ⟨h, nofun, nofun, Nat.zero_le _⟩
  refine ⟨?_, ?_, ?_, ?_, ?_⟩
  · exact sentAs_of_wire (by decide) ⟨rfl, happ, hmetadata _ nofun⟩ (by decide +kernel)
      (by decide +kernel)
  · have hfive : ∀ t ∈ some (⟨5⟩ : Ttl), t.milliseconds ≠ 0 := by
      intro t ht
      cases ht
      decide
    exact sentAs_of_wire (by decide) ⟨rfl, happ, hmetadata _ hfive⟩ (by decide +kernel)
      (by decide +kernel)
  · exact sentAs_of_wire (by decide) ⟨rfl, happ, by decide, nofun⟩ (by decide +kernel)
      (by decide +kernel)
  · exact sentAs_of_wire (by decide) ⟨rfl, happ⟩ (by decide +kernel) (by decide +kernel)
  · have hne : putOf ⟨none, none, none, [], .octetStream⟩ swallowed ≠
        putOf ⟨none, none, none, wrappingTags, .octetStream⟩ [] := by
      intro h
      injection h with _ _ _ hvalue
      have hlen := length_swallowed
      rw [hvalue] at hlen
      cases hlen
    refine sentAs_of_wire hne ⟨rfl, happ, hmetadata _ nofun⟩ wire_wrappingTags ?_
    rw [putOf, RequestPayload.wire, List.length_append, length_field swallowed, length_swallowed]
    decide +kernel

end Protocol
end Cachebox
