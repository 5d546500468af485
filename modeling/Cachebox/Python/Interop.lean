import Cachebox.Protocol.Reserve
import Cachebox.Python.Encode

/-!
# Frames between the two codecs

The decoders accept the same frames and give corresponding values; the encoders write the same
bytes. The decoders also reject with the same class of error, except for two kinds of frames. The
Python decoder looks the command up before it checks the rest of the header, the Rust decoder after
that, so a frame with an unknown command and a later defect is reported differently. And the Rust
decoder reserves room for the elements that a frame declares before it finds that there are fewer.
-/

namespace Cachebox
namespace Python
open Parser BigEndian
open Protocol (intOf payloadLen Allocator CountsFit RequestFront ResponseFront emptyBatch
  emptyAnswer millionElements)

/-! ## Headers -/

theorem beq_toNat (a b : UInt8) : (a.toNat == b.toNat) = (a == b) := by
  rw [Bool.eq_iff_iff, beq_iff_eq, beq_iff_eq, UInt8.toNat_inj]

/-- A cut of `w` bytes is below the range of `w`-byte integers. -/
theorem ofBytes_extract_lt (input : Bytes) (i w : Nat) :
    ofBytes (input.extract i (i + w)) < 256 ^ w := by
  refine (ofBytes_lt _).trans_le (Nat.pow_le_pow_right (by decide) ?_)
  rw [List.extract_eq_take_drop, List.length_take]
  omega

theorem toNat_extract_u32 (input : Bytes) (i : Nat) :
    (UInt32.ofNat (ofBytes (input.extract i (i + 4)))).toNat = ofBytes (input.extract i (i + 4)) :=
  word32.toNat_ofNat _ (ofBytes_extract_lt input i 4)

theorem beq_zero_extract_u32 (input : Bytes) (i : Nat) :
    (ofBytes (input.extract i (i + 4)) == 0) =
      (UInt32.ofNat (ofBytes (input.extract i (i + 4))) == 0) := by
  rw [Bool.eq_iff_iff, beq_iff_eq, beq_iff_eq, ← UInt32.toNat_inj, toNat_extract_u32]
  rfl

theorem toNat_extract_u64 (input : Bytes) (i : Nat) :
    (UInt64.ofNat (ofBytes (input.extract i (i + 8)))).toNat = ofBytes (input.extract i (i + 8)) :=
  word64.toNat_ofNat _ (ofBytes_extract_lt input i 8)

theorem Command.ofValue_toNat (id : UInt8) : Command.ofValue id.toNat =
    (Protocol.Command.fromId id).toOption.map Protocol.Command.toPython := by
  unfold Protocol.Command.fromId
  split
  all_goals try rfl
  unfold Command.ofValue
  split
  all_goals simp_all [← UInt8.toNat_inj, Except.toOption]

/-- The headers agree if the command is known. -/
theorem agree_decodeHeader {input : Bytes} {command : Protocol.Command}
    (hcommand : Protocol.Command.fromId (input.getD 6 0) = .ok command) (kind : UInt8) (max : Nat) :
    Agree SameClass (fun header header' => header.command = input.getD 6 0 ∧
        header'.command = command.toPython ∧ header'.requestId = header.requestId.toNat ∧
        header'.payloadLen = header.payloadLen.toNat)
      (Protocol.decodeHeader input max kind) (decodeHeader input kind.toNat max) := by
  have hvalue : Command.ofValue (input.getD 6 0).toNat = some command.toPython := by
    rw [Command.ofValue_toNat, hcommand]
    rfl
  unfold Protocol.decodeHeader decodeHeader
  simp only [hvalue]
  refine .check rfl rfl (.check rfl rfl (.check (beq_toNat _ Protocol.version) rfl
    (.check (beq_toNat _ kind) rfl (.check (beq_toNat _ 0) rfl (.check ?_ rfl (.check ?_ rfl
      (.ok ⟨rfl, rfl, ?_, ?_⟩)))))))
  · rw [toNat_extract_u32 input 16]
  · exact beq_zero_extract_u32 input 20
  · exact (toNat_extract_u64 input 8).symm
  · exact (toNat_extract_u32 input 16).symm

/-! ## Frames -/

section
variable {α α' : Type} {f : α → α'} {p : Protocol.Command → Protocol.Reader α}
variable {q : Command → Reader α'}

/-- If the command is known, the decoders of a frame agree. -/
theorem agree_decodeFrame (hpq : ∀ command, Conforms f (p command) (q command.toPython))
    {input : Bytes} {command : Protocol.Command}
    (hcommand : Protocol.Command.fromId (input.getD 6 0) = .ok command) (kind : UInt8) (max : Nat) :
    Agree SameClass (fun frame frame' => frame' = frame.toPython f)
      (Protocol.decodeFrame kind p input max) (decodeFrame kind.toNat q input max) := by
  refine (agree_decodeHeader hcommand kind max).bind fun header header' h => ?_
  obtain ⟨hid, hcommand', hrequestId, hpayloadLen⟩ := h
  refine .check ?_ rfl ?_
  · rw [hpayloadLen]
    rfl
  rw [hid, hcommand, hcommand', hpayloadLen]
  refine (hpq command _ _ ⟨rfl, rfl⟩).bind fun r r' hr => ?_
  obtain ⟨hpayload, hdata, hoffset⟩ := hr
  refine .check ?_ rfl (.ok ?_)
  · have hle := r.2.offset_le
    rw [Bool.eq_iff_iff, beq_iff_eq, beq_iff_eq, hdata, hoffset]
    omega
  · rw [hrequestId, hpayload]
    rfl

theorem fromId_eq_error {id : UInt8} (h : ∀ command : Protocol.Command, id ≠ command.id) :
    Protocol.Command.fromId id = .error (.unknownCommand id) := by
  cases hid : Protocol.Command.fromId id with
  | ok command => exact absurd (Protocol.Command.fromId_eq_ok_iff.mp hid) (h command)
  | error e =>
    unfold Protocol.Command.fromId at hid
    split at hid
    all_goals cases hid
    rfl

theorem ofValue_eq_none {id : UInt8} (h : ∀ command : Protocol.Command, id ≠ command.id) :
    Command.ofValue id.toNat = none := by
  rw [Command.ofValue_toNat, fromId_eq_error h]
  rfl

/-- A failure stays one behind a check. -/
theorem toOption_check {ε : Type} {x : Except ε α} {c : Bool} {e : ε} (h : x.toOption = none) :
    (do Parser.ensure c e; x).toOption = none := by
  cases c with
  | true => exact h
  | false => rfl

/-- Neither decoder accepts a frame with an unknown command. -/
theorem toOption_decodeFrame_of_unknown {input : Bytes}
    (hunknown : ∀ command : Protocol.Command, input.getD 6 0 ≠ command.id) (kind : UInt8)
    (max : Nat) :
    (Protocol.decodeFrame kind p input max).toOption = none ∧
      (decodeFrame kind.toNat q input max).toOption = none := by
  unfold Protocol.decodeFrame decodeFrame Protocol.decodeHeader decodeHeader
  simp only [ofValue_eq_none hunknown, bind_assoc, pure_bind, fromId_eq_error hunknown]
  constructor
  · repeat' apply toOption_check
    rfl
  · repeat' apply toOption_check
    rfl

theorem toOption_decodeFrame (hpq : ∀ command, Conforms f (p command) (q command.toPython))
    (kind : UInt8) (input : Bytes) (max : Nat) :
    (decodeFrame kind.toNat q input max).toOption =
      (Protocol.decodeFrame kind p input max).toOption.map (Protocol.Frame.toPython f) := by
  by_cases hunknown : ∀ command : Protocol.Command, input.getD 6 0 ≠ command.id
  · obtain ⟨hrust, hpython⟩ := toOption_decodeFrame_of_unknown (p := p) (q := q) hunknown kind max
    rw [hrust, hpython]
    rfl
  · rw [not_forall_not] at hunknown
    obtain ⟨command, hid⟩ := hunknown
    exact (agree_decodeFrame hpq (Protocol.Command.fromId_eq_ok_iff.mpr hid) kind max).toOption_eq

end

/-- **The codecs accept one language.** On every input the decoders both fail or give the same
request, or response, and on the values that the format can express the encoders both fail or write
the same bytes. -/
theorem codecs_conform :
    Function.Injective (Protocol.Frame.toPython Protocol.RequestPayload.toPython) ∧
    Function.Injective (Protocol.Frame.toPython Protocol.ResponsePayload.toPython) ∧
    (∀ input max, (decodeRequestFrame input max).toOption =
      (Protocol.decodeRequestFrame input max).toOption.map
        (Protocol.Frame.toPython Protocol.RequestPayload.toPython)) ∧
    (∀ input max, (decodeResponseFrame input max).toOption =
      (Protocol.decodeResponseFrame input max).toOption.map
        (Protocol.Frame.toPython Protocol.ResponsePayload.toPython)) ∧
    (∀ f : Protocol.RequestFrame, Protocol.WellFormed f →
      (encodeRequestFrame (f.toPython Protocol.RequestPayload.toPython)).toOption =
        Protocol.encodeRequestFrame f) ∧
    ∀ f : Protocol.ResponseFrame, f.payload.Answers f.command →
      (encodeResponseFrame (f.toPython Protocol.ResponsePayload.toPython)).toOption =
        Protocol.encodeResponseFrame f :=
  ⟨Protocol.Frame.toPython_injective Protocol.RequestPayload.toPython_injective,
    Protocol.Frame.toPython_injective Protocol.ResponsePayload.toPython_injective,
    toOption_decodeFrame conforms_decodeRequestPayload Protocol.kindRequest,
    toOption_decodeFrame conforms_decodeResponsePayload Protocol.kindResponse,
    fun _ => toOption_encodeRequestFrame, fun _ => toOption_encodeResponseFrame⟩

theorem codecs_conform_plainPut :
    (encodeRequestFrame (Protocol.plainPut.toPython Protocol.RequestPayload.toPython)).toOption =
        Protocol.encodeRequestFrame Protocol.plainPut ∧
      (encodeResponseFrame
          (Protocol.batchAnswer.toPython Protocol.ResponsePayload.toPython)).toOption =
        Protocol.encodeResponseFrame Protocol.batchAnswer := by
  obtain ⟨-, -, -, -, hrequest, hresponse⟩ := codecs_conform
  exact ⟨hrequest _ Protocol.wellFormed_plainPut, hresponse _ rfl⟩

/-! ## Classes of errors -/

/-- The class of error that a computation ends with, if it fails. -/
def errorClass {ε α : Type} (cls : ε → ErrorClass) : Except ε α → Option ErrorClass
  | .ok _ => none
  | .error e => some (cls e)

section
variable {ε ε' α α' : Type} {cls : ε → ErrorClass} {cls' : ε' → ErrorClass}

/-- After the same check the classes differ only if the check succeeds and they differ from there
on. -/
theorem errorClass_check_eq_iff {c c' : Bool} {e : ε} {e' : ε'} {x : Except ε α}
    {y : Except ε' α'} {C D : Prop} (hC : c = true ↔ C) (hc : c' = c) (he : cls' e' = cls e)
    (h : errorClass cls x = errorClass cls' y ↔ D) :
    errorClass cls (do Parser.ensure c e; x) = errorClass cls' (do Parser.ensure c' e'; y) ↔
      (C → D) := by
  subst hc
  rw [← hC, ← h]
  cases c' with
  | true => exact ⟨fun h _ => h, fun h => h rfl⟩
  | false => exact iff_of_true (congrArg some he.symm) nofun

theorem errorClass_check_eq_some_iff {c : Bool} {e : ε} {x : Except ε α} {k : ErrorClass}
    {C D : Prop} (hC : c = true ↔ C) (he : cls e ≠ k) (h : errorClass cls x = some k ↔ D) :
    errorClass cls (do Parser.ensure c e; x) = some k ↔ C ∧ D := by
  rw [← hC, ← h]
  cases c with
  | true => exact ⟨fun h => ⟨rfl, h⟩, fun h => h.2⟩
  | false => exact iff_of_false (fun h => he (Option.some.inj h)) nofun

end

/-- The frame has a command that does not exist, behind a start of the header that is as it should
be, and a defect behind the command: nonzero flags, a payload over the limit, a nonzero reserved
field or a payload that is cut off. -/
structure UnknownCommandWithDefect (kind : UInt8) (input : Bytes) (max : Nat) : Prop where
  header : Protocol.headerLen ≤ input.length
  magic : input.extract 0 4 = Protocol.magic
  version : input.getD 4 0 = Protocol.version
  kind_eq : input.getD 5 0 = kind
  unknown : ∀ command : Protocol.Command, input.getD 6 0 ≠ command.id
  defect : input.getD 7 0 ≠ 0 ∨ max < payloadLen input ∨ ofBytes (input.extract 20 24) ≠ 0 ∨
    input.length < Protocol.headerLen + payloadLen input

section
variable {α α' : Type} {f : α → α'} {p : Protocol.Command → Protocol.Reader α}
variable {q : Command → Reader α'}

theorem errorClass_eq_iff_of_unknown {input : Bytes}
    (hunknown : ∀ command : Protocol.Command, input.getD 6 0 ≠ command.id) (kind : UInt8)
    (max : Nat) :
    errorClass Protocol.DecodeError.cls (Protocol.decodeFrame kind p input max) =
        errorClass DecodeError.cls (decodeFrame kind.toNat q input max) ↔
      (Protocol.headerLen ≤ input.length → input.extract 0 4 = Protocol.magic →
        input.getD 4 0 = Protocol.version → input.getD 5 0 = kind →
        input.getD 7 0 = 0 ∧ payloadLen input ≤ max ∧ ofBytes (input.extract 20 24) = 0 ∧
          Protocol.headerLen + payloadLen input ≤ input.length) := by
  have hlen := toNat_extract_u32 input 16
  have hreserved := beq_zero_extract_u32 input 20
  unfold Protocol.decodeFrame decodeFrame Protocol.decodeHeader decodeHeader
  simp only [ofValue_eq_none hunknown, bind_assoc, pure_bind, hlen, ← hreserved]
  -- the four checks that both make before they look at the command
  refine errorClass_check_eq_iff decide_eq_true_iff rfl rfl ?_
  refine errorClass_check_eq_iff beq_iff_eq rfl rfl ?_
  refine errorClass_check_eq_iff beq_iff_eq (beq_toNat _ Protocol.version) rfl ?_
  refine errorClass_check_eq_iff beq_iff_eq (beq_toNat _ kind) rfl ?_
  -- the four checks that only the Rust decoder makes before that
  change errorClass _ _ = some ErrorClass.unknownCommand ↔ _
  refine errorClass_check_eq_some_iff beq_iff_eq (by simp [Protocol.DecodeError.cls]) ?_
  refine errorClass_check_eq_some_iff decide_eq_true_iff (by simp [Protocol.DecodeError.cls]) ?_
  refine errorClass_check_eq_some_iff beq_iff_eq (by simp [Protocol.DecodeError.cls]) ?_
  rw [fromId_eq_error hunknown]
  refine Iff.trans ?_ (and_iff_left trivial)
  exact errorClass_check_eq_some_iff decide_eq_true_iff (by simp [Protocol.DecodeError.cls])
    (iff_of_true rfl trivial)

theorem errorClass_eq_of_agree {V : α → α' → Prop} {x : Except Protocol.DecodeError α}
    {y : Except DecodeError α'} (h : Agree SameClass V x y) :
    errorClass Protocol.DecodeError.cls x = errorClass DecodeError.cls y := by
  cases h with
  | ok => rfl
  | error he => exact congrArg some he.symm

theorem errorClass_decodeFrame_iff (hpq : ∀ command, Conforms f (p command) (q command.toPython))
    (kind : UInt8) (input : Bytes) (max : Nat) :
    errorClass Protocol.DecodeError.cls (Protocol.decodeFrame kind p input max) =
        errorClass DecodeError.cls (decodeFrame kind.toNat q input max) ↔
      ¬UnknownCommandWithDefect kind input max := by
  by_cases hunknown : ∀ command : Protocol.Command, input.getD 6 0 ≠ command.id
  · rw [errorClass_eq_iff_of_unknown hunknown]
    constructor
    · intro h hdefect
      obtain ⟨hflags, hmax, hreserved, hlen⟩ :=
        h hdefect.header hdefect.magic hdefect.version hdefect.kind_eq
      rcases hdefect.defect with h | h | h | h
      · exact h hflags
      · omega
      · exact h hreserved
      · omega
    · intro h hheader hmagic hversion hkind
      by_contra hdefect
      refine h ⟨hheader, hmagic, hversion, hkind, hunknown, ?_⟩
      by_contra hnone
      simp only [not_or, not_not, not_lt] at hnone
      exact hdefect hnone
  · rw [not_forall_not] at hunknown
    obtain ⟨command, hid⟩ := hunknown
    have hagree := agree_decodeFrame hpq (Protocol.Command.fromId_eq_ok_iff.mpr hid) kind max
    exact iff_of_true (errorClass_eq_of_agree hagree) fun h => h.unknown command hid

end

theorem map_ite_eq_some_iff {c : Prop} [Decidable c] {g : α → α'} {x : α} {y : α'} :
    (if c then some x else none).map g = some y ↔ g x = y ∧ c := by
  by_cases hc : c <;> simp [hc]

/-- **The decoders report the same class of error**, for requests and for responses, exactly on the
frames that do not have an unknown command together with a defect behind it and for whose counts the
allocator of the Rust process has room. If it has room for as many elements as a payload may have
bytes, it has room for all counts that fit in their frames. -/
theorem error_classes_agree_iff (alloc : Allocator) (input : Bytes) (max : Nat) :
    ((Protocol.decodeRequestFrameOn alloc input max).map (errorClass Protocol.DecodeError.cls) =
        some (errorClass DecodeError.cls (decodeRequestFrame input max)) ↔
      ¬UnknownCommandWithDefect Protocol.kindRequest input max ∧
        alloc.Serves (Protocol.decodeRequestFrameReserving input max).log) ∧
    ((Protocol.decodeResponseFrameOn alloc input max).map (errorClass Protocol.DecodeError.cls) =
        some (errorClass DecodeError.cls (decodeResponseFrame input max)) ↔
      ¬UnknownCommandWithDefect Protocol.kindResponse input max ∧
        alloc.Serves (Protocol.decodeResponseFrameReserving input max).log) ∧
    ((∀ count ≤ max, alloc count = true) →
      (CountsFit Protocol.kindRequest RequestFront input max →
        alloc.Serves (Protocol.decodeRequestFrameReserving input max).log) ∧
      (CountsFit Protocol.kindResponse ResponseFront input max →
        alloc.Serves (Protocol.decodeResponseFrameReserving input max).log)) := by
  refine ⟨?_, ?_, fun halloc => ⟨Protocol.serves_request halloc, Protocol.serves_response halloc⟩⟩
  · rw [Protocol.decodeRequestFrameOn_eq, map_ite_eq_some_iff]
    exact and_congr_left fun _ =>
      errorClass_decodeFrame_iff conforms_decodeRequestPayload Protocol.kindRequest input max
  · rw [Protocol.decodeResponseFrameOn_eq, map_ite_eq_some_iff]
    exact and_congr_left fun _ =>
      errorClass_decodeFrame_iff conforms_decodeResponsePayload Protocol.kindResponse input max

/-- A header with the command 9, which does not exist, nonzero flags and no payload. -/
def unknownCommandWithFlags (kind : UInt8) : Bytes :=
  Protocol.magic ++ [1, kind, 9, 1] ++ List.replicate 16 0

/-- The Rust decoders report the flags, the Python decoders the command. On the frames that declare
4294967295 elements and have none, the Python decoders report an invalid payload, and a Rust process
that has no room for so many is aborted. -/
theorem not_error_classes_agree_unknownCommandWithFlags :
    ((Protocol.decodeRequestFrameOn millionElements (unknownCommandWithFlags 0) 1024).map
        (errorClass Protocol.DecodeError.cls) = some (some .nonzeroFlags) ∧
      errorClass DecodeError.cls (decodeRequestFrame (unknownCommandWithFlags 0) 1024) =
        some .unknownCommand ∧
      (Protocol.decodeResponseFrameOn millionElements (unknownCommandWithFlags 1) 1024).map
        (errorClass Protocol.DecodeError.cls) = some (some .nonzeroFlags) ∧
      errorClass DecodeError.cls (decodeResponseFrame (unknownCommandWithFlags 1) 1024) =
        some .unknownCommand) ∧
    ((Protocol.decodeRequestFrameOn millionElements emptyBatch 1024).map
        (errorClass Protocol.DecodeError.cls) = none ∧
      errorClass DecodeError.cls (decodeRequestFrame emptyBatch 1024) = some .invalidPayload ∧
      (Protocol.decodeResponseFrameOn millionElements emptyAnswer 1024).map
        (errorClass Protocol.DecodeError.cls) = none ∧
      errorClass DecodeError.cls (decodeResponseFrame emptyAnswer 1024) =
        some .invalidPayload) := by
  decide +kernel

end Python
end Cachebox
