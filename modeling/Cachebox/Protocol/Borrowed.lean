import Cachebox.Protocol.Request
import Cachebox.Protocol.Response

/-!
# Frames decoded and encoded without copying

The server decodes the frequent requests into views of the input and encodes the answer of a get
from a view of the stored value. A view has the value of what it borrows.
-/

namespace Cachebox
namespace Protocol
open Parser Cursor

inductive RequestPayloadView where
  | get (ns : String) (key : Bytes)
  | delete (ns : String) (key : Bytes)
  | tagInvalidate (ns tag : String)
  | leaseStart (ns : String) (key : Bytes) (leaseTtlMs : UInt64) (allowStaleMs : Option UInt64)
  deriving DecidableEq, Repr

abbrev RequestFrameView := Frame RequestPayloadView

inductive ResponsePayloadView where
  | hit (value : Bytes)
  | stale (value : Bytes)
  | miss
  deriving DecidableEq, Repr

def readBorrowedBytes : Reader Bytes := do
  let len ← readU32
  readExact len.toNat

def readBorrowedString : Reader String := do
  let bytes ← readBorrowedBytes
  match Utf8.decode bytes with
  | some value => return value
  | none => throw .invalidUtf8

def readBorrowedNamespace : Reader String := do
  let ns ← readBorrowedString
  ensure (isValidNamespace ns) .invalidNamespace
  return ns

def readBorrowedTag : Reader String := do
  let tag ← readBorrowedString
  ensure (isValidTag tag) .invalidTag
  return tag

def decodeBorrowedPayload : Command → Reader (Option RequestPayloadView)
  | .get => do
    let ns ← readBorrowedNamespace
    let key ← readBorrowedBytes
    return some (.get ns key)
  | .delete => do
    let ns ← readBorrowedNamespace
    let key ← readBorrowedBytes
    return some (.delete ns key)
  | .tagInvalidate => do
    let ns ← readBorrowedNamespace
    let tag ← readBorrowedTag
    return some (.tagInvalidate ns tag)
  | .leaseStart => do
    let ns ← readBorrowedNamespace
    let key ← readBorrowedBytes
    let leaseTtlMs ← readU64
    ensure (leaseTtlMs != 0) (.invalidPayload "lease ttl must be greater than zero")
    let allowStaleMs ← readAllowStaleMs
    return some (.leaseStart ns key leaseTtlMs allowStaleMs)
  | .put | .batchGet | .leaseComplete => return none

/-- The payload of a command without a view is not looked at. -/
def decodeBorrowedRequestFrame (input : Bytes) (maxPayloadLen : Nat) :
    Except DecodeError (Option RequestFrameView) := do
  let header ← decodeHeader input maxPayloadLen kindRequest
  let payloadEnd := headerLen + header.payloadLen.toNat
  ensure (payloadEnd ≤ input.length) (.truncatedPayload payloadEnd input.length)
  let command ← Command.fromId header.command
  let cursor := Cursor.new (input.extract headerLen payloadEnd)
    (length_payload_lt input header)
  let (payload, cursor) ← decodeBorrowedPayload command cursor
  match payload with
  | some payload =>
    cursor.expectEmpty
    return some { requestId := header.requestId, command, payload }
  | none => return none

def encodeResponsePayloadView (payload : ResponsePayloadView) (out : Bytes) : Bytes :=
  match payload with
  | .hit value => writeBytes (out ++ [0x01]) value
  | .stale value => writeBytes (out ++ [0x02]) value
  | .miss => out ++ [0x03]

def encodeResponsePayloadViewFrameInto (requestId : UInt64) (command : Command)
    (payload : ResponsePayloadView) (out : Bytes) : Option Bytes :=
  encodeFrameInto kindResponse command requestId payload encodeResponsePayloadView out

/-! ## Views stand for the owned payloads -/

def RequestPayloadView.toOwned : RequestPayloadView → RequestPayload
  | get ns key => .get ns key
  | delete ns key => .delete ns key
  | tagInvalidate ns tag => .tagInvalidate ns tag
  | leaseStart ns key leaseTtlMs allowStaleMs => .leaseStart ns key leaseTtlMs allowStaleMs

def RequestFrameView.toOwned (f : RequestFrameView) : RequestFrame :=
  { requestId := f.requestId, command := f.command, payload := f.payload.toOwned }

def ResponsePayloadView.toOwned : ResponsePayloadView → ResponsePayload
  | hit value => .hit value
  | stale value => .stale value
  | miss => .miss

theorem encodeResponsePayloadViewFrameInto_eq (requestId : UInt64) (command : Command)
    (payload : ResponsePayloadView) (out : Bytes) :
    encodeResponsePayloadViewFrameInto requestId command payload out =
      encodeResponseFrame { requestId, command, payload := payload.toOwned } := by
  cases payload <;> rfl

/-- The commands that have a view. -/
def Command.HasView (command : Command) : Prop :=
  command = .get ∨ command = .delete ∨ command = .tagInvalidate ∨ command = .leaseStart

/-- The readers of a view and of an owned payload take the same steps. -/
theorem decodeRequestPayload_eq_borrowed {command : Command} (h : command.HasView)
    (cursor : Cursor) :
    (∀ payload cursor', decodeBorrowedPayload command cursor = .ok (payload, cursor') →
        ∃ view, payload = some view ∧
          decodeRequestPayload command cursor = .ok (view.toOwned, cursor')) ∧
      ∀ e, decodeBorrowedPayload command cursor = .error e →
        decodeRequestPayload command cursor = .error e := by
  have hpure : ∀ {α : Type} {a b : α} {s s' : Cursor},
      (pure a : Reader α) s = .ok (b, s') ↔ a = b ∧ s = s' := by
    intro α a b s s'
    change Except.ok (a, s) = .ok (b, s') ↔ _
    simp
  have hpureError : ∀ {α : Type} {a : α} {s : Cursor} {e : DecodeError},
      (pure a : Reader α) s = .error e ↔ False := by
    intro α a s e
    change Except.ok (a, s) = .error e ↔ _
    simp
  obtain rfl | rfl | rfl | rfl := h
  all_goals
    simp only [decodeBorrowedPayload, decodeRequestPayload, Parses.bind_eq_ok,
      Parses.bind_eq_error, hpure, hpureError, and_false, exists_false, or_false]
  case inr.inr.inr =>
    constructor
    · rintro payload cursor' ⟨ns, s, hns, key, s', hkey, ttl, t, httl, u, t', hu, stale, t'',
        hstale, rfl, rfl⟩
      exact ⟨_, rfl, ns, s, hns, key, s', hkey, ttl, t, httl, u, t', hu, stale, t'', hstale,
        rfl, rfl⟩
    · exact fun e h => h
  all_goals
    constructor
    · rintro payload cursor' ⟨ns, s, hns, field, s', hfield, rfl, rfl⟩
      exact ⟨_, rfl, ns, s, hns, field, s', hfield, rfl, rfl⟩
    · exact fun e h => h

theorem decodeBorrowedPayload_eq_none {command : Command} (h : ¬command.HasView)
    (cursor : Cursor) : decodeBorrowedPayload command cursor = .ok (none, cursor) := by
  cases command with
  | get | delete | tagInvalidate | leaseStart => exact absurd (by simp [Command.HasView]) h
  | put | batchGet | leaseComplete => rfl

/-- A request that is decoded as a view is decoded by the owned decoder. -/
theorem decodeRequestFrame_of_borrowed {input : Bytes} {max : Nat} {f : RequestFrameView}
    (h : decodeBorrowedRequestFrame input max = .ok (some f)) :
    decodeRequestFrame input max = .ok f.toOwned := by
  simp only [decodeBorrowedRequestFrame, bind_eq_ok_iff] at h
  obtain ⟨header, hheader, u, hensure, command, hcommand, ⟨payload, cursor⟩, hpayload, h⟩ := h
  simp only [decodeRequestFrame, decodeFrame, bind_eq_ok_iff]
  cases payload with
  | none => cases h
  | some payload =>
    obtain ⟨v, hempty, hframe⟩ := bind_eq_ok_iff.mp h
    cases hframe
    by_cases hview : command.HasView
    · obtain ⟨view, hsome, howned⟩ :=
        (decodeRequestPayload_eq_borrowed hview _).1 _ _ hpayload
      cases hsome
      exact ⟨header, hheader, u, hensure, command, hcommand, _, howned, v, hempty, rfl⟩
    · rw [decodeBorrowedPayload_eq_none hview] at hpayload
      cases hpayload

/-- What the borrowed decoder rejects, the owned decoder rejects with the same error. -/
theorem decodeRequestFrame_of_borrowed_error {input : Bytes} {max : Nat} {e : DecodeError}
    (h : decodeBorrowedRequestFrame input max = .error e) :
    decodeRequestFrame input max = .error e := by
  simp only [decodeBorrowedRequestFrame, bind_eq_error_iff] at h
  simp only [decodeRequestFrame, decodeFrame, bind_eq_error_iff]
  obtain h | ⟨header, hheader, h | ⟨u, hensure, h | ⟨command, hcommand, h⟩⟩⟩ := h
  · exact .inl h
  · exact .inr ⟨header, hheader, .inl h⟩
  · exact .inr ⟨header, hheader, .inr ⟨u, hensure, .inl h⟩⟩
  refine .inr ⟨header, hheader, .inr ⟨u, hensure, .inr ⟨command, hcommand, ?_⟩⟩⟩
  by_cases hview : command.HasView
  · obtain ⟨hok, herror⟩ := decodeRequestPayload_eq_borrowed hview
      (Cursor.new (input.extract headerLen (headerLen + header.payloadLen.toNat))
        (length_payload_lt input header))
    obtain h | ⟨⟨payload, cursor⟩, hpayload, h⟩ := h
    · exact .inl (herror e h)
    · obtain ⟨view, rfl, howned⟩ := hok payload cursor hpayload
      obtain h | ⟨v, -, h⟩ := bind_eq_error_iff.mp h
      · exact .inr ⟨_, howned, .inl h⟩
      · cases h
  · rw [decodeBorrowedPayload_eq_none hview] at h
    obtain h | ⟨⟨payload, cursor⟩, hpayload, h⟩ := h
    · cases h
    · cases hpayload
      cases h

/-! ## Both decoders agree -/

/-- The checks before the payload pass: the header is valid, the payload is complete, and the
command is known. -/
def Admits (input : Bytes) (max : Nat) (command : Command) : Prop :=
  ∃ header, decodeHeader input max kindRequest = .ok header ∧
    headerLen + header.payloadLen.toNat ≤ input.length ∧
    Command.fromId header.command = .ok command

/-- One of the checks before the payload fails. -/
inductive FrontDefect (input : Bytes) (max : Nat) : Prop where
  | header (e : DecodeError) (h : decodeHeader input max kindRequest = .error e)
  | truncated (header : Header) (h : decodeHeader input max kindRequest = .ok header)
    (hlen : input.length < headerLen + header.payloadLen.toNat)
  | unknownCommand (header : Header) (h : decodeHeader input max kindRequest = .ok header)
    (e : DecodeError) (hcommand : Command.fromId header.command = .error e)

/-- The command byte names a command that has a view. -/
def HotCommandId (input : Bytes) : Prop :=
  ∃ command : Command, command.HasView ∧ Command.fromId (input.getD 6 0) = .ok command

section Agreement
variable {input : Bytes} {max : Nat} {command : Command}

theorem frontDefect_or_admits (input : Bytes) (max : Nat) :
    FrontDefect input max ∨ ∃ command, Admits input max command := by
  cases hheader : decodeHeader input max kindRequest with
  | error e => exact .inl (.header e hheader)
  | ok header =>
    by_cases hlen : headerLen + header.payloadLen.toNat ≤ input.length
    · cases hcommand : Command.fromId header.command with
      | error e => exact .inl (.unknownCommand header hheader e hcommand)
      | ok command => exact .inr ⟨command, header, hheader, hlen, hcommand⟩
    · exact .inl (.truncated header hheader (Nat.lt_of_not_le hlen))

theorem FrontDefect.not_admits (h : FrontDefect input max) : ¬ Admits input max command := by
  rintro ⟨header, hheader, hlen, hcommand⟩
  cases h with
  | header e h => cases h.symm.trans hheader
  | truncated header' h hlt =>
    cases h.symm.trans hheader
    exact absurd hlen (Nat.not_le_of_lt hlt)
  | unknownCommand header' h e herror =>
    cases h.symm.trans hheader
    cases herror.symm.trans hcommand

/-- The command that is admitted stands in the seventh byte. -/
theorem Admits.fromId (h : Admits input max command) :
    Command.fromId (input.getD 6 0) = .ok command := by
  obtain ⟨header, hheader, -, hcommand⟩ := h
  obtain ⟨-, tail, rfl⟩ := decodeHeader_eq_ok_iff.mp hheader
  rw [← hcommand]
  simp [headerBytes, magic]

theorem HotCommandId.hasView (h : HotCommandId input) (hadmits : Admits input max command) :
    command.HasView := by
  obtain ⟨hot, hview, hid⟩ := h
  cases hid.symm.trans hadmits.fromId
  exact hview

theorem Command.not_hasView_iff :
    ¬ command.HasView ↔ command = .put ∨ command = .batchGet ∨ command = .leaseComplete := by
  cases command <;> simp [Command.HasView]

/-- The borrowed decoder gives up exactly on the admitted commands without a view. -/
theorem decodeBorrowedRequestFrame_eq_none_iff :
    decodeBorrowedRequestFrame input max = .ok none ↔
      ∃ command, Admits input max command ∧ ¬ command.HasView := by
  simp only [decodeBorrowedRequestFrame, bind_eq_ok_iff, ensure_eq_ok_iff, exists_const,
    decide_eq_true_eq]
  constructor
  · rintro ⟨header, hheader, hlen, command, hcommand, ⟨payload, cursor⟩, hpayload, h⟩
    refine ⟨command, ⟨header, hheader, hlen, hcommand⟩, fun hview => ?_⟩
    obtain ⟨view, rfl, -⟩ := (decodeRequestPayload_eq_borrowed hview _).1 _ _ hpayload
    obtain ⟨v, -, hsome⟩ := bind_eq_ok_iff.mp h
    cases hsome
  · rintro ⟨command, ⟨header, hheader, hlen, hcommand⟩, hview⟩
    exact ⟨header, hheader, hlen, command, hcommand, _, decodeBorrowedPayload_eq_none hview _, rfl⟩

/-- A request that is the value of a view has one of the commands with a view. -/
theorem hasView_of_toOwned {view : RequestFrameView}
    (h : decodeRequestFrame input max = .ok view.toOwned) : view.command.HasView := by
  have hcommand : view.command = view.payload.toOwned.command :=
    (decodeRequestFrame_iff.mp h).1.command_eq
  rw [hcommand]
  cases view.payload <;> simp [RequestPayloadView.toOwned, RequestPayload.command, Command.HasView]

theorem RequestFrameView.toOwned_injective : Function.Injective RequestFrameView.toOwned := by
  rintro ⟨requestId, command, payload⟩ ⟨requestId', command', payload'⟩ h
  obtain ⟨rfl, rfl, hpayload⟩ := Frame.mk.inj h
  suffices payload = payload' by rw [this]
  cases payload <;> cases payload' <;> cases hpayload <;> rfl

theorem decodeBorrowedRequestFrame_eq_some_iff {view : RequestFrameView} :
    decodeBorrowedRequestFrame input max = .ok (some view) ↔
      decodeRequestFrame input max = .ok view.toOwned := by
  refine ⟨decodeRequestFrame_of_borrowed, fun h => ?_⟩
  cases hborrowed : decodeBorrowedRequestFrame input max with
  | error e => cases (decodeRequestFrame_of_borrowed_error hborrowed).symm.trans h
  | ok result =>
    cases result with
    | none =>
      obtain ⟨command, hadmits, hview⟩ := decodeBorrowedRequestFrame_eq_none_iff.mp hborrowed
      have hcommand := (header_of_decodeRequestFrame h).2
      cases hcommand.symm.trans hadmits.fromId
      exact absurd (hasView_of_toOwned h) hview
    | some view' =>
      have howned := (decodeRequestFrame_of_borrowed hborrowed).symm.trans h
      rw [RequestFrameView.toOwned_injective (Except.ok.inj howned)]

theorem decodeBorrowedRequestFrame_eq_error_iff {e : DecodeError} :
    decodeBorrowedRequestFrame input max = .error e ↔
      decodeRequestFrame input max = .error e ∧ (HotCommandId input ∨ FrontDefect input max) := by
  constructor
  · intro h
    refine ⟨decodeRequestFrame_of_borrowed_error h, ?_⟩
    obtain hdefect | ⟨command, hadmits⟩ := frontDefect_or_admits input max
    · exact .inr hdefect
    · by_cases hview : command.HasView
      · exact .inl ⟨command, hview, hadmits.fromId⟩
      · cases h.symm.trans (decodeBorrowedRequestFrame_eq_none_iff.mpr ⟨command, hadmits, hview⟩)
  · rintro ⟨h, hfront⟩
    cases hborrowed : decodeBorrowedRequestFrame input max with
    | error e' =>
      cases (decodeRequestFrame_of_borrowed_error hborrowed).symm.trans h
      rfl
    | ok result =>
      cases result with
      | some view => cases (decodeRequestFrame_of_borrowed hborrowed).symm.trans h
      | none =>
        obtain ⟨command, hadmits, hview⟩ := decodeBorrowedRequestFrame_eq_none_iff.mp hborrowed
        obtain hhot | hdefect := hfront
        · exact absurd (hhot.hasView hadmits) hview
        · exact absurd hadmits hdefect.not_admits

/-- **The borrowed decoder is the owned one on the hot commands.** It gives the view of exactly the
requests that the owned decoder gives; it fails exactly where the owned decoder fails with the same
error and either the command byte is hot or the payload is not reached; and it gives up exactly on
the other commands behind a valid header with a complete payload. -/
theorem borrowed_decoder_agrees (input : Bytes) (max : Nat) :
    (∀ view : RequestFrameView, decodeBorrowedRequestFrame input max = .ok (some view) ↔
      decodeRequestFrame input max = .ok view.toOwned) ∧
    (∀ e, decodeBorrowedRequestFrame input max = .error e ↔
      decodeRequestFrame input max = .error e ∧ (HotCommandId input ∨ FrontDefect input max)) ∧
    (decodeBorrowedRequestFrame input max = .ok none ↔
      Admits input max .put ∨ Admits input max .batchGet ∨ Admits input max .leaseComplete) := by
  refine ⟨fun view => decodeBorrowedRequestFrame_eq_some_iff,
    fun e => decodeBorrowedRequestFrame_eq_error_iff, ?_⟩
  rw [decodeBorrowedRequestFrame_eq_none_iff]
  constructor
  · rintro ⟨command, hadmits, hview⟩
    obtain rfl | rfl | rfl := Command.not_hasView_iff.mp hview
    · exact .inl hadmits
    · exact .inr (.inl hadmits)
    · exact .inr (.inr hadmits)
  · rintro (h | h | h)
    · exact ⟨.put, h, Command.not_hasView_iff.mpr (.inl rfl)⟩
    · exact ⟨.batchGet, h, Command.not_hasView_iff.mpr (.inr (.inl rfl))⟩
    · exact ⟨.leaseComplete, h, Command.not_hasView_iff.mpr (.inr (.inr rfl))⟩

end Agreement

end Protocol
end Cachebox
